import LibWfut.Library.Run
import LibWfut.Model.FileIO
import LibWfut.Verification.FileList.Codec
import LibWfut.Verification.FileList.Lists
import LibWfut.Verification.Lists.Records

/-! # Saving a file list and reading it back

The tree that is read is taken to be the tree that was saved. -/

namespace LibWfut

open Encoder Machine

/-! ## Texts without a zero byte -/

theorem cStr_encodeString (s : Bytes) : cStr (encodeString s) = encodeString s := by
  refine cStr_eq_self_iff.mpr fun hc => ?_
  have hsafe := isSafe_of_mem_encodeString hc
  revert hsafe
  decide

theorem digit_ne_zero : ∀ d < 10, Decimal.digit d ≠ 0 := by decide

theorem cStr_ofInt (z : ℤ) : cStr (Decimal.ofInt z) = Decimal.ofInt z := by
  refine cStr_eq_self_iff.mpr fun hc => ?_
  rcases Decimal.mem_ofInt hc with heq | ⟨d, hd, heq⟩
  · simp at heq
  · exact digit_ne_zero d hd heq.symm

/-! ## Numbers -/

theorem scanInt32_ofInt (n : Int32) : scanInt32 (Decimal.ofInt n.toInt) = some n := by
  have hl := n.le_toInt
  have hu := n.toInt_lt
  rw [scanInt32, Decimal.scanInt_ofInt, Option.map_some, clampLong_of_mem (by omega) (by omega),
    Int32.ofInt_toInt]

theorem scanInt64_ofInt (n : Int64) : scanInt64 (Decimal.ofInt n.toInt) = some n := by
  rw [scanInt64, Decimal.scanInt_ofInt, Option.map_some,
    clampLong_of_mem n.le_toInt n.toInt_lt, Int64.ofInt_toInt]

theorem scanULong_ofInt (n : ULong) : scanULong (Decimal.ofInt n.toNat) = some n := by
  have hlt := n.toNat_lt
  rw [scanULong, Decimal.scanInt_ofInt, Option.map_some, if_neg, if_neg]
  · simp
  · omega
  · omega

/-! ## One file -/

/-- What comes back of a file. -/
def reread (f : FileObject) : FileObject :=
  { f with filename := f.filename.map legible, execute := false, deleted := false }

@[simp] theorem reread_reread (f : FileObject) : reread (reread f) = reread f := by
  simp [reread, Function.comp_def]

theorem tags_nodup :
    [tagFilename, tagVersion, tagCrc32, tagSize, tagExecute, tagDeleted].Nodup := by decide

/-- An attribute that was set is found, and no other is disturbed. -/
theorem getAttribute_setAttribute (element : Attributes) (name value other : Bytes) :
    getAttribute (setAttribute element name value) other =
      if other = name then some (cStr value) else getAttribute element other := by
  induction element with
  | nil =>
      by_cases h : other = name
      · simp [setAttribute, getAttribute, h]
      · simp [setAttribute, getAttribute, List.lookup_cons, h, beq_false_of_ne h]
  | cons a rest ih =>
      obtain ⟨n, v⟩ := a
      by_cases hn : n = name
      · by_cases h : other = name
        · simp [setAttribute, getAttribute, hn, h]
        · simp [setAttribute, getAttribute, List.lookup_cons, hn, h, beq_false_of_ne h]
      · by_cases h : other = n
        · simp [setAttribute, getAttribute, hn, h]
        · simpa [setAttribute, getAttribute, List.lookup_cons, hn, beq_false_of_ne h] using ih

theorem isTrue_promoteBool (b : Bool) :
    (cStr (Decimal.ofInt (promoteBool b).toInt)).take 4 ≠ ascii "true" := by
  cases b <;> decide

/-- Reading a written file gives back all but its flags, and its name as far as it is
legible. -/
theorem parseFile_writeFile (f file : FileObject) :
    parseFile (writeFile [] f) file = .ok (reread f) := by
  have htags := tags_nodup
  simp only [List.nodup_cons, List.mem_cons, not_or, List.not_mem_nil, not_false_eq_true,
    and_true, List.nodup_nil] at htags
  have hattr : ∀ name, getAttribute (writeFile [] f) name =
      if name = tagExecute then some (cStr (Decimal.ofInt (promoteBool f.execute).toInt))
      else if name = tagSize then some (cStr (Decimal.ofInt f.size.toInt))
      else if name = tagCrc32 then some (cStr (Decimal.ofInt f.crc32.toNat))
      else if name = tagVersion then some (cStr (Decimal.ofInt f.version.toInt))
      else if name = tagFilename then some (cStr (encodeString f.filename)) else none := by
    intro name
    simp only [writeFile, setIntAttribute, getAttribute_setAttribute]
    rfl
  have hexecute : isTrue (writeFile [] f) tagExecute = false := by
    simpa [isTrue, hattr] using isTrue_promoteBool f.execute
  have hdeleted : isTrue (writeFile [] f) tagDeleted = false := by
    have hnone : getAttribute (writeFile [] f) tagDeleted = none := by
      simp [hattr, Ne.symm, htags, eq_comm]
    simp [isTrue, hnone]
  simp [parseFile, scanAttribute, hattr, htags, cStr_encodeString, cStr_ofInt,
    decodeString_encodeString, scanInt32_ofInt, scanULong_ofInt, scanInt64_ofInt, hexecute,
    hdeleted, ok_bind, reread]

/-! ## The whole list -/

theorem parseElements_write (uninit : ℕ → FileObject) (fs : List FileObject) (i : ℕ)
    (files : ChannelFileList) :
    parseElements uninit i (fs.map (writeFile [])) files =
      .ok (addFiles files (fs.map reread)) := by
  induction fs generalizing i files with
  | nil => rfl
  | cons f fs ih =>
      simp only [List.map_cons, parseElements, parseFile_writeFile, ok_bind, ih]
      rfl

theorem visited_map (l : List FileObject) :
    visited (l.map fun f => .element tagFile (writeFile [] f) []) = l.map (writeFile []) := by
  rw [visited_eq, elementsFrom_map tagFile (writeFile []) fun _ => [], List.map_map]
  rfl

/-- Reading a saved list always succeeds. -/
theorem parseDocument_fileListDocument (uninit : ℕ → FileObject) (l : ChannelFileList) :
    parseDocument uninit (some (fileListDocument l)) .empty =
      .ok (0, addFiles (ChannelFileList.empty.setName (cStr l.name))
        ((filesOf l).map reread)) := by
  have hfind : (fileListDocument l).find? (hasValue tagFilelist) =
      some (.element tagFilelist (setAttribute [] tagDir l.name)
        ((filesOf l).map fun f => .element tagFile (writeFile [] f) [])) := by
    have hdecl : hasValue tagFilelist (.declaration (ascii "1.0") [] []) = false := by decide
    rw [fileListDocument, List.find?_cons_of_neg (by simp [hdecl]), List.find?_cons_of_pos]
    · rw [filesOf, List.map_map]
      rfl
    · simp [hasValue, XmlNode.value]
  have hdir : getAttribute (setAttribute [] tagDir l.name) tagDir = some (cStr l.name) := by
    simp [getAttribute, setAttribute]
  simp only [parseDocument, hfind, parseFiles, hdir, visited_map, parseElements_write, ok_bind]

/-! ## What survives -/

/-- Nothing in the list is lost on the way. -/
structure Restorable (l : ChannelFileList) : Prop where
  name : 0 ∉ l.name
  plain : ∀ (k : Bytes) (f : FileObject), l.fileMap[k]? = some f →
    f.execute = false ∧ f.deleted = false
  legible : ∀ (k : Bytes) (f : FileObject), l.fileMap[k]? = some f →
    ∀ c ∈ f.filename, c < 128 ∨ c = 255

theorem reread_eq_self_iff {f : FileObject} :
    reread f = f ↔ (f.execute = false ∧ f.deleted = false) ∧
      ∀ c ∈ f.filename, c < 128 ∨ c = 255 := by
  rw [← map_legible_eq_self_iff]
  constructor
  · intro h
    exact ⟨⟨(congrArg FileObject.execute h).symm, (congrArg FileObject.deleted h).symm⟩,
      congrArg FileObject.filename h⟩
  · rintro ⟨⟨hexec, hdel⟩, hname⟩
    cases f
    simp only at hexec hdel hname
    subst hexec hdel
    simp only [reread, hname]

/-- A saved list is read back as it was exactly when it is restorable. -/
theorem file_list_round_trip (uninit : ℕ → FileObject) (l : ChannelFileList) :
    parseDocument uninit (some (fileListDocument l)) .empty = .ok (0, l) ↔ Restorable l := by
  rw [parseDocument_fileListDocument, Except.ok.injEq, Prod.mk.injEq]
  constructor
  · rintro ⟨-, heq⟩
    have hmap := congrArg ChannelFileList.fileMap heq
    rw [fileMap_addFiles] at hmap
    have hback : ∀ f : FileObject, l.fileMap[f.filename]? = some f → reread f = f := by
      intro f hf
      rw [← hmap] at hf
      rcases OrderedMap.mem_of_getElem?_insertAll hf with ⟨hmem, -⟩ | hempty
      · obtain ⟨g, -, rfl⟩ := List.mem_map.mp hmem
        exact reread_reread g
      · simp [ChannelFileList.empty] at hempty
    constructor
    case name =>
      have hname := congrArg ChannelFileList.name heq
      simp only [name_addFiles, ChannelFileList.name_setName] at hname
      exact cStr_eq_self_iff.mp hname
    case plain =>
      intro k f hf
      rw [← l.keyed k f hf] at hf
      exact (reread_eq_self_iff.mp (hback f hf)).1
    case legible =>
      intro k f hf
      rw [← l.keyed k f hf] at hf
      exact (reread_eq_self_iff.mp (hback f hf)).2
  · intro h
    have hsame : (filesOf l).map reread = filesOf l := by
      refine (List.map_congr_left fun f hf => ?_).trans (List.map_id _)
      have hf' := mem_filesOf.mp hf
      exact reread_eq_self_iff.mpr ⟨h.plain _ f hf', h.legible _ f hf'⟩
    rw [hsame, cStr_eq_self_iff.mpr h.name, addFiles_filesOf]
    exact ⟨rfl, rfl⟩

/-- A list with one executable file. -/
def executableList : ChannelFileList :=
  ChannelFileList.empty.addFile
    { filename := ascii "run"
      version := 1
      crc32 := 0
      size := 0
      execute := true
      deleted := false }

/-- The flag of an executable file is saved as `1` and read as false. -/
theorem file_list_round_trip_execute :
    ¬∃ uninit, parseDocument uninit (some (fileListDocument executableList)) .empty =
      .ok (0, executableList) := by
  rintro ⟨uninit, h⟩
  rw [parseDocument_fileListDocument, Except.ok.injEq, Prod.mk.injEq] at h
  have hmap := congrArg (fun l => l.fileMap.toList) h.2
  revert hmap
  decide

end LibWfut
