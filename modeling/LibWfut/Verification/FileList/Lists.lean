import LibWfut.Library.OrderedMap
import LibWfut.Model.Types

/-! # File lists

A list filled file by file, and the files it holds. -/

namespace LibWfut

/-- `addFile` for one file after the other. -/
def addFiles (l : ChannelFileList) (fs : List FileObject) : ChannelFileList :=
  fs.foldl ChannelFileList.addFile l

@[simp] theorem name_addFiles (l : ChannelFileList) (fs : List FileObject) :
    (addFiles l fs).name = l.name := by
  induction fs generalizing l with
  | nil => rfl
  | cons f fs ih => exact ih (l.addFile f)

theorem fileMap_addFiles (l : ChannelFileList) (fs : List FileObject) :
    (addFiles l fs).fileMap = OrderedMap.insertAll FileObject.filename fs l.fileMap := by
  induction fs generalizing l with
  | nil => rfl
  | cons f fs ih => exact ih (l.addFile f)

/-- The files of a list in the order of their names. -/
def filesOf (l : ChannelFileList) : List FileObject :=
  l.fileMap.toList.map Prod.snd

theorem mem_filesOf {l : ChannelFileList} {f : FileObject} :
    f ∈ filesOf l ↔ l.fileMap[f.filename]? = some f := by
  constructor
  · intro hf
    obtain ⟨⟨k, v⟩, he, rfl⟩ := List.mem_map.mp hf
    have hk := Std.ExtTreeMap.mem_toList_iff_getElem?_eq_some.mp he
    rw [l.keyed k v hk]
    exact hk
  · intro hf
    exact List.mem_map.mpr
      ⟨(f.filename, f), Std.ExtTreeMap.mem_toList_iff_getElem?_eq_some.mpr hf, rfl⟩

/-- Adding the files of a list to an empty one restores it. -/
theorem addFiles_filesOf (l : ChannelFileList) :
    addFiles (ChannelFileList.empty.setName l.name) (filesOf l) = l := by
  apply ChannelFileList.ext
  · simp
  · rw [fileMap_addFiles]
    exact OrderedMap.insertAll_values l.keyed

end LibWfut
