import LibWfut.Verification.Client.Updates

/-! # The decisions of `calculateUpdates`

For every file of the server one reason, and the files without a current copy are
added. -/

namespace LibWfut

open FileTree

/-- A copy is known that need not be replaced: a current one in the local list whose file
can be opened, or, where the local list has none, a current one in the system list. -/
def UpToDate (system localList : ChannelFileList) (pathPrefix : Bytes) (fs : FileSystem)
    (o : FileObject) : Prop :=
  match localList.getFiles[o.filename]? with
  | some l => o.version ≤ l.version ∧ (fopenRead fs (pathPrefix ++ o.filename)).isSome = true
  | none => ∃ s, system.getFiles[o.filename]? = some s ∧ o.version ≤ s.version

def Needed (system localList : ChannelFileList) (pathPrefix : Bytes) (fs : FileSystem)
    (o : FileObject) : Prop :=
  o.deleted = false ∧ ¬UpToDate system localList pathPrefix fs o

/-- What a call of `calculateUpdates` has to leave when it adds the files of `added` to
`updates`. -/
structure Decides (server system localList updates : ChannelFileList) (pathPrefix : Bytes)
    (fs : FileSystem) (added : List FileObject) (reasons : List (Bytes × UpdateReason))
    (result : ChannelFileList) : Prop where
  list : result = addFiles updates added
  name : result.getName = updates.getName
  needed : ∀ o, o ∈ added ↔
    server.getFiles[o.filename]? = some o ∧ Needed system localList pathPrefix fs o
  overridden : ∀ o ∈ added, result.getFiles[o.filename]? = some o
  kept : ∀ f : Bytes, f ∉ added.map FileObject.filename →
    result.getFiles[f]? = updates.getFiles[f]?
  emitted : reasons.map Prod.fst = server.getFiles.keys
  reason : ∀ o reason, server.getFiles[o.filename]? = some o → (o.filename, reason) ∈ reasons →
    (reason ∈ [.noLocal, .serverSystem, .serverLocal, .missing] ↔ o ∈ added)

section Decide

variable {got : Bytes → ℕ → ℕ} {server system localList updates : ChannelFileList}
  {pathPrefix : Bytes} {fs : FileSystem}

theorem isSome_fopenRead (fs : FileSystem) (path : Bytes) :
    (fopenRead fs path).isSome = fs.opens (cStr path) := by
  rw [fopenRead, FileSystem.opens]
  cases fs.lookup (cStr path) with
  | none => rfl
  | some n => cases hr : n.readable <;> simp [Option.filter, hr]

/-- The reason of a file says whether it is needed. -/
theorem adds_reasonFor_iff (o : FileObject) :
    (reasonFor got system localList pathPrefix fs o.filename o).adds = true ↔
      Needed system localList pathPrefix fs o := by
  rw [reasonFor, adds_updateReason, Needed, UpToDate]
  cases hloc : localList.getFiles[o.filename]? with
  | none =>
      cases hsys : system.getFiles[o.filename]? with
      | none => simp
      | some s => simp [Int32.not_le]
  | some l =>
      have hname : l.filename = o.filename := localList.keyed _ _ hloc
      simp only [hname, isSome_fopenRead, Bool.and_eq_true, Bool.not_eq_eq_eq_not, Bool.not_true,
        Bool.or_eq_true, decide_eq_true_eq, not_and_or, Int32.not_le, Bool.not_eq_true]

theorem getElem?_addFiles_of_mem {l : ChannelFileList} {fs : List FileObject}
    (hnodup : (fs.map FileObject.filename).Nodup) {o : FileObject} (ho : o ∈ fs) :
    (addFiles l fs).getFiles[o.filename]? = some o := by
  rw [ChannelFileList.getFiles, fileMap_addFiles, OrderedMap.getElem?_insertAll]
  cases hlast : (fs.filter fun x => x.filename = o.filename).getLast? with
  | none =>
      have hmem := List.mem_filter (p := fun x => x.filename = o.filename).mpr ⟨ho, by simp⟩
      rw [List.getLast?_eq_none_iff.mp hlast] at hmem
      exact absurd hmem List.not_mem_nil
  | some x =>
      obtain ⟨hx, hname⟩ := List.mem_filter.mp (List.mem_of_getLast? hlast)
      have hxo := List.inj_on_of_nodup_map hnodup hx ho (by simpa using hname)
      rw [hxo, Option.some_or]

theorem getElem?_addFiles_of_not_mem {l : ChannelFileList} {fs : List FileObject} {f : Bytes}
    (hf : f ∉ fs.map FileObject.filename) : (addFiles l fs).getFiles[f]? = l.getFiles[f]? := by
  have hnone : (fs.filter fun x => x.filename = f) = [] := by
    simpa using hf
  rw [ChannelFileList.getFiles, fileMap_addFiles, OrderedMap.getElem?_insertAll, hnone]
  rfl

/-- The files added, in the order of their names. -/
def neededFiles (got : Bytes → ℕ → ℕ) (server system localList : ChannelFileList)
    (pathPrefix : Bytes) (fs : FileSystem) : List FileObject :=
  (filesOf server).filter fun o =>
    (reasonFor got system localList pathPrefix fs o.filename o).adds

theorem mem_neededFiles {o : FileObject} :
    o ∈ neededFiles got server system localList pathPrefix fs ↔
      server.getFiles[o.filename]? = some o ∧ Needed system localList pathPrefix fs o := by
  rw [neededFiles, List.mem_filter, mem_filesOf, adds_reasonFor_iff]
  rfl

theorem nodup_neededFiles :
    ((neededFiles got server system localList pathPrefix fs).map FileObject.filename).Nodup :=
  (nodup_filesOf server).sublist (List.filter_sublist.map _)

theorem calculateUpdates_snd_eq :
    (calculateUpdates got server system localList updates pathPrefix fs).2 =
      addFiles updates (neededFiles got server system localList pathPrefix fs) := by
  rw [calculateUpdates_snd, neededFiles, filesOf, List.filter_map]
  congr 2
  apply List.filter_congr
  intro e he
  rw [Function.comp_apply, key_of_mem_toList he]

/-- `calculateUpdates` adds exactly the files without a current copy, and its reasons say
which. -/
theorem calculate_updates (got : Bytes → ℕ → ℕ)
    (server system localList updates : ChannelFileList) (pathPrefix : Bytes) (fs : FileSystem) :
    ∃ added, Decides server system localList updates pathPrefix fs added
      (calculateUpdates got server system localList updates pathPrefix fs).1
      (calculateUpdates got server system localList updates pathPrefix fs).2 := by
  refine ⟨neededFiles got server system localList pathPrefix fs, ?_⟩
  constructor
  case list => exact calculateUpdates_snd_eq
  case name =>
    rw [calculateUpdates_snd_eq]
    exact name_addFiles ..
  case needed => exact fun o => mem_neededFiles
  case overridden =>
    intro o ho
    rw [calculateUpdates_snd_eq]
    exact getElem?_addFiles_of_mem nodup_neededFiles ho
  case kept =>
    intro f hf
    rw [calculateUpdates_snd_eq]
    exact getElem?_addFiles_of_not_mem hf
  case emitted =>
    rw [calculateUpdates_fst, ChannelFileList.getFiles, ← Std.ExtTreeMap.map_fst_toList_eq_keys,
      List.map_map]
    exact List.map_congr_left fun e he => key_of_mem_toList he
  case reason =>
    intro o reason ho hr
    have hadds : reason ∈ [.noLocal, .serverSystem, .serverLocal, .missing] ↔
        reason.adds = true := by
      cases reason <;> decide
    rw [hadds, ← (mem_calculateUpdates_iff ho).mp hr, adds_reasonFor_iff, mem_neededFiles,
      and_iff_right ho]

end Decide

end LibWfut
