import LibWfut.Library.Footprint
import LibWfut.Model.Main
import LibWfut.Verification.Files.Copy

/-! # File operations on two trees

Where two trees agree on all that the paths of an operation reach, the operation has the
same result on both, and they agree afterwards. -/

namespace LibWfut

open FileTree

/-- What the path given to a system call reaches is among these places. -/
def PathCovered (S : Set Location) (cwd : Location) (path : Bytes) : Prop :=
  Covers S cwd (cStr path)

/-- The same for a target and the directories above it that are made. -/
structure TargetCovered (S : Set Location) (cwd : Location) (target : Bytes) : Prop where
  path : PathCovered S cwd target
  parents : ∀ p ∈ parentPaths target, PathCovered S cwd p

section Calls

variable {S : Set Location} {fs fs' : FileSystem} {path : Bytes}

theorem osExists_congr (h : fs'.lookup (cStr path) = fs.lookup (cStr path)) :
    osExists fs' path = osExists fs path := by
  rw [osExists, osExists, h]

theorem loadText_congr (h : fs'.lookup (cStr path) = fs.lookup (cStr path)) (env : Environment) :
    loadText env path fs' = loadText env path fs := by
  rw [loadText, loadText, fopenRead, fopenRead, h]

theorem getLocalList_congr (h : fs'.lookup (cStr path) = fs.lookup (cStr path))
    (env : Environment) : getLocalList env path fs' = getLocalList env path fs := by
  rw [getLocalList, getLocalList, loadText_congr h]

theorem calcCRC32_congr (h : fs'.lookup (cStr path) = fs.lookup (cStr path)) (got : ℕ → ℕ) :
    calcCRC32 got fs' path = calcCRC32 got fs path := by
  rw [calcCRC32, calcCRC32, fopenRead, fopenRead, h]

theorem opendir_agree (h : AgreeOn S fs fs') (hc : PathCovered S fs.cwd path) :
    opendir fs' path = opendir fs path := by
  rw [opendir, opendir, h.lookup hc]

theorem osExists_agree (h : AgreeOn S fs fs') (hc : PathCovered S fs.cwd path) :
    osExists fs' path = osExists fs path :=
  osExists_congr (h.lookup hc)

theorem covers_dropTrailingSeparators {cwd : Location} {p : Bytes} (hc : Covers S cwd p)
    (hne : dropTrailingSeparators p ≠ []) : Covers S cwd (dropTrailingSeparators p) := by
  induction p using List.reverseRecOn with
  | nil => exact absurd rfl hne
  | append_singleton p c ih =>
      by_cases hsep : c = separator
      · have hdrop : dropTrailingSeparators (p ++ [c]) = dropTrailingSeparators p := by
          simp [dropTrailingSeparators, hsep]
        have hp : p ≠ [] := by
          rintro rfl
          exact hne hdrop
        rw [hdrop] at hne ⊢
        subst hsep
        exact ih (fun l hl => hc l (mem_reached_append_separator hp hl)) hne
      · have hdrop : dropTrailingSeparators (p ++ [c]) = p ++ [c] := by
          simp [dropTrailingSeparators, hsep]
        rwa [hdrop]

/-- The place of a path that resolves, and its parent, are covered. -/
theorem mem_of_resolve {l : Location} (hc : Covers S fs.cwd path)
    (hl : fs.resolve path = some l) : l ∈ S ∧ l.dropLast ∈ S := by
  rw [← FileSystem.resolve_eq_some hl]
  exact ⟨hc _ (place_mem_reached ..), hc _ (dropLast_mem_reached ..)⟩

theorem osMkdir_agree (env : Storage) (h : AgreeOn S fs fs')
    (hc : PathCovered S fs.cwd path) :
    (osMkdir env path fs').1 = (osMkdir env path fs).1 ∧
      AgreeOn S (osMkdir env path fs).2 (osMkdir env path fs').2 := by
  unfold osMkdir
  by_cases hne : dropTrailingSeparators (cStr path) = []
  · rw [hne]
    exact ⟨rfl, h⟩
  · have hc' := covers_dropTrailingSeparators hc hne
    rw [h.resolve hc']
    cases hl : fs.resolve (dropTrailingSeparators (cStr path)) with
    | none => exact ⟨rfl, h⟩
    | some l =>
        obtain ⟨hmem, hparent⟩ := mem_of_resolve hc' hl
        simp only [h.free_iff hmem hparent]
        split
        · exact ⟨rfl, h.create hmem hparent _⟩
        · exact ⟨rfl, h⟩

theorem osMkdir_cwd (env : Storage) (path : Bytes) (fs : FileSystem) :
    (osMkdir env path fs).2.cwd = fs.cwd := by
  rcases osMkdir_cases env path fs with heq | ⟨-, heq⟩ <;> simp [heq]

theorem makeDirs_agree (env : Storage) {ps : List Bytes} (h : AgreeOn S fs fs')
    (hc : ∀ p ∈ ps, PathCovered S fs.cwd p) :
    (makeDirs env ps fs').1 = (makeDirs env ps fs).1 ∧
      AgreeOn S (makeDirs env ps fs).2 (makeDirs env ps fs').2 := by
  induction ps generalizing fs fs' with
  | nil => exact ⟨rfl, h⟩
  | cons p ps ih =>
      have hp := hc p (List.mem_cons_self ..)
      have hps : ∀ q ∈ ps, PathCovered S fs.cwd q := fun q hq => hc q (List.mem_cons_of_mem _ hq)
      simp only [makeDirs, opendir_agree h hp]
      split
      · exact ih h hps
      · obtain ⟨herr, hfs⟩ := osMkdir_agree env h hp
        rw [herr]
        split
        · exact ⟨rfl, hfs⟩
        · refine ih hfs ?_
          rwa [osMkdir_cwd]

/-- Both attempts to open a file for writing fail, or both succeed at the same place. -/
theorem fopenWrite_agree (env : Storage) (h : AgreeOn S fs fs')
    (hc : PathCovered S fs.cwd path) :
    (fopenWrite env fs path = none ∧ fopenWrite env fs' path = none) ∨
      ∃ l gs gs', fopenWrite env fs path = some (l, gs) ∧ fopenWrite env fs' path = some (l, gs') ∧
        AgreeOn S gs gs' := by
  unfold fopenWrite
  rw [h.resolve hc]
  cases hl : fs.resolve (cStr path) with
  | none => exact .inl ⟨rfl, rfl⟩
  | some l =>
      obtain ⟨hmem, hparent⟩ := mem_of_resolve hc hl
      simp only [h.node l hmem, h.free_iff hmem hparent]
      cases fs.node l with
      | none =>
          by_cases hfree : fs.Free l ∧ env.openOk = true
          · simp only [if_pos hfree]
            exact .inr ⟨l, _, _, rfl, rfl, h.create hmem hparent _⟩
          · simp only [if_neg hfree]
            exact .inl ⟨trivial, trivial⟩
      | some n =>
          by_cases hfile : (!n.isDir) = true ∧ env.openOk = true
          · simp only [if_pos hfile]
            exact .inr ⟨l, _, _, rfl, rfl, h.setContent ..⟩
          · simp only [if_neg hfile]
            exact .inl ⟨trivial, trivial⟩

/-- What follows the directories does the same, if they are there in both trees or in none. -/
theorem copyFile_agree (env : Storage) (fp : Option Bytes)
    (herr : (createParentDirs env path fs').1 = (createParentDirs env path fs).1)
    (hdirs : AgreeOn S (createParentDirs env path fs).2 (createParentDirs env path fs').2)
    (hc : PathCovered S fs.cwd path) :
    (copyFile env fp path fs').1 = (copyFile env fp path fs).1 ∧
      AgreeOn S (copyFile env fp path fs).2 (copyFile env fp path fs').2 := by
  unfold copyFile
  simp only [herr]
  split
  · exact ⟨rfl, hdirs⟩
  · have hpath : PathCovered S (createParentDirs env path fs).2.cwd path := by
      rw [createParentDirs_cwd]
      exact hc
    rcases fopenWrite_agree env hdirs hpath with ⟨hnone, hnone'⟩ | ⟨l, gs, gs', hopen, hopen', hgs⟩
    · rw [hnone, hnone']
      exact ⟨rfl, hdirs⟩
    · rw [hopen, hopen']
      exact ⟨rfl, hgs.setContent ..⟩

theorem osSetExecutable_agree (env : Storage) (h : AgreeOn S fs fs')
    (hc : PathCovered S fs.cwd path) :
    AgreeOn S (osSetExecutable env path fs) (osSetExecutable env path fs') := by
  unfold osSetExecutable
  rw [h.resolve hc]
  cases fs.resolve (cStr path) with
  | none => exact h
  | some l =>
      cases env.chmodOk with
      | true => exact h.addMode ..
      | false => exact h

theorem copyFile_cwd (env : Storage) (fp : Option Bytes) (target : Bytes) (fs : FileSystem) :
    (copyFile env fp target fs).2.cwd = fs.cwd := by
  rcases copyFile_cases env fp target fs with heq | ⟨l, fs', -, hstored, heq⟩
  · rw [heq, createParentDirs_cwd]
  · rw [heq, hstored.grows.cwd, createParentDirs_cwd]

end Calls

/-! ## Texts -/

section Texts

variable {S : Set Location} {fs fs' : FileSystem} {path : Bytes}

theorem writeText_agree (g : TextWrite) (text : Bytes) (h : AgreeOn S fs fs')
    (hc : PathCovered S fs.cwd path) :
    AgreeOn S (writeText g text path fs) (writeText g text path fs') := by
  unfold writeText
  rcases fopenWrite_agree g.storage h hc with ⟨hnone, hnone'⟩ | ⟨l, gs, gs', hopen, hopen', hgs⟩
  · rw [hnone, hnone']
    exact h
  · rw [hopen, hopen']
    exact hgs.setContent ..

theorem appendText_agree (g : TextWrite) (text : Bytes) (h : AgreeOn S fs fs')
    (hc : PathCovered S fs.cwd path) :
    AgreeOn S (appendText g text path fs) (appendText g text path fs') := by
  unfold appendText
  rw [h.resolve hc]
  cases hl : fs.resolve (cStr path) with
  | none => exact h
  | some l =>
      simp only [h.node l (mem_of_resolve hc hl).1]
      split
      · split
        · exact h.setContent ..
        · exact h
      · exact h

/-- If a directory is to be removed, it must be empty in both trees. -/
theorem removeFile_agree (removeOk : Bool) (h : AgreeOn S fs fs')
    (hc : PathCovered S fs.cwd path)
    (hbelow : fs.isDir (pathPlace fs path) = true → ∀ c, pathPlace fs path ++ [c] ∈ S) :
    AgreeOn S (removeFile removeOk path fs) (removeFile removeOk path fs') := by
  unfold removeFile
  rw [h.resolve hc]
  cases hl : fs.resolve (cStr path) with
  | none => exact h
  | some l =>
      rw [pathPlace, FileSystem.resolve_eq_some hl] at hbelow
      simp only
      split
      · exact h.remove (mem_of_resolve hc hl).1 hbelow
      · exact h

theorem recordUpdateFile_agree (g : TextWrite) (fo : FileObject) (h : AgreeOn S fs fs')
    (hc : PathCovered S fs.cwd path) :
    AgreeOn S (recordUpdateFile g fo path fs) (recordUpdateFile g fo path fs') := by
  unfold recordUpdateFile
  rw [osExists_agree h hc]
  split
  · exact appendText_agree _ _ h hc
  · exact writeText_agree _ _ h hc

end Texts

end LibWfut
