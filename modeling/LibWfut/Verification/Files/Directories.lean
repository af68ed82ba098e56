import LibWfut.Model.Platform

/-! # The directories above a target

`createParentDirs` goes through the prefixes of a filename that end before a separator,
shortest first, and makes what it cannot open. -/

namespace LibWfut

open FileTree

/-! ## The prefixes -/

/-- The prefixes of a reversed filename that end before a separator, shortest first. -/
def parentPathsRev : Bytes → List Bytes
  | [] => []
  | c :: rest =>
    if isPathSeparator c ∧ rest ≠ [] then parentPathsRev rest ++ [rest.reverse]
    else if isPathSeparator c then [] else parentPathsRev rest

def parentPaths (filename : Bytes) : List Bytes :=
  parentPathsRev filename.reverse

/-! ## Making them -/

/-- Open or make each path in turn, until one can be neither opened nor made. -/
def makeDirs (env : Storage) : List Bytes → FileSystem → ℤ × FileSystem
  | [], fs => (0, fs)
  | p :: ps, fs =>
    if opendir fs p then makeDirs env ps fs
    else
      match osMkdir env p fs with
      | (err, fs) => if err ≠ 0 then (err, fs) else makeDirs env ps fs

/-- Open or make one path. -/
def makeDir (env : Storage) (p : Bytes) (fs : FileSystem) : ℤ × FileSystem :=
  if opendir fs p then (0, fs) else osMkdir env p fs

theorem makeDirs_cons (env : Storage) (p : Bytes) (ps : List Bytes) (fs : FileSystem) :
    makeDirs env (p :: ps) fs =
      if (makeDir env p fs).1 ≠ 0 then makeDir env p fs
      else makeDirs env ps (makeDir env p fs).2 := by
  by_cases ho : opendir fs p = true
  · simp [makeDirs, makeDir, ho]
  · simp [makeDirs, makeDir, ho]

/-- The first paths are done before the others. -/
theorem makeDirs_append (env : Storage) (ps qs : List Bytes) (fs : FileSystem) :
    makeDirs env (ps ++ qs) fs =
      if (makeDirs env ps fs).1 ≠ 0 then makeDirs env ps fs
      else makeDirs env qs (makeDirs env ps fs).2 := by
  induction ps generalizing fs with
  | nil => rfl
  | cons p ps ih =>
      rw [List.cons_append, makeDirs_cons, makeDirs_cons, ih]
      by_cases herr : (makeDir env p fs).1 = 0
      · simp only [ne_eq, herr, not_true_eq_false, ite_false]
      · simp only [ne_eq, herr, not_false_eq_true, ite_true]

theorem makeDirs_concat (env : Storage) (ps : List Bytes) (p : Bytes) (fs : FileSystem) :
    makeDirs env (ps ++ [p]) fs =
      if (makeDirs env ps fs).1 ≠ 0 then makeDirs env ps fs
      else makeDir env p (makeDirs env ps fs).2 := by
  rw [makeDirs_append, makeDirs_cons]
  by_cases herr : (makeDir env p (makeDirs env ps fs).2).1 = 0
  · have hdir : makeDir env p (makeDirs env ps fs).2 =
        (0, (makeDir env p (makeDirs env ps fs).2).2) := Prod.ext herr rfl
    simp only [makeDirs, ne_eq, herr, not_true_eq_false, ite_false, ← hdir]
  · simp only [ne_eq, herr, not_false_eq_true, ite_true]

theorem createParentDirsRev_eq (env : Storage) (filename : Bytes) (fs : FileSystem) :
    createParentDirsRev env filename fs = makeDirs env (parentPathsRev filename) fs := by
  induction filename with
  | nil => rfl
  | cons c rest ih =>
      by_cases hc : isPathSeparator c = true
      · by_cases hr : rest = []
        · simp [createParentDirsRev, parentPathsRev, makeDirs, hc, hr]
        · have hpaths : parentPathsRev (c :: rest) = parentPathsRev rest ++ [rest.reverse] := by
            simp [parentPathsRev, hc, hr]
          rw [hpaths, makeDirs_concat, ← ih]
          simp [createParentDirsRev, makeDir, hc, hr]
      · simp [createParentDirsRev, parentPathsRev, hc, ih]

theorem createParentDirs_eq (env : Storage) (filename : Bytes) (fs : FileSystem) :
    createParentDirs env filename fs = makeDirs env (parentPaths filename) fs :=
  createParentDirsRev_eq ..

/-! ## What is made -/

/-- Where a path leads by its text. -/
def pathPlace (fs : FileSystem) (p : Bytes) : Location :=
  place fs.cwd (cStr p)

/-- The paths for which `mkdir` succeeds. -/
def madeDirs (env : Storage) : List Bytes → FileSystem → List Bytes
  | [], _ => []
  | p :: ps, fs =>
    if opendir fs p then madeDirs env ps fs
    else
      match osMkdir env p fs with
      | (err, fs) => if err ≠ 0 then [] else p :: madeDirs env ps fs

theorem place_dropTrailingSeparators {cwd : Location} {p : Bytes}
    (h : dropTrailingSeparators p ≠ []) :
    place cwd (dropTrailingSeparators p) = place cwd p := by
  induction p using List.reverseRecOn with
  | nil => rfl
  | append_singleton p c ih =>
      by_cases hc : c = separator
      · have hdrop : dropTrailingSeparators (p ++ [c]) = dropTrailingSeparators p := by
          simp [dropTrailingSeparators, hc]
        have hp : p ≠ [] := by
          rintro rfl
          exact h hdrop
        rw [hdrop] at h ⊢
        rw [ih h, hc, place_append_separator hp]
      · have hdrop : dropTrailingSeparators (p ++ [c]) = p ++ [c] := by
          simp [dropTrailingSeparators, hc]
        rw [hdrop]

/-- `mkdir` fails without a trace or makes one free place. -/
theorem osMkdir_cases (env : Storage) (p : Bytes) (fs : FileSystem) :
    osMkdir env p fs = (-1, fs) ∨
      fs.Free (pathPlace fs p) ∧
        osMkdir env p fs = (0, fs.create (pathPlace fs p) newDirectory) := by
  unfold osMkdir
  split
  · exact .inl rfl
  · rename_i l hl
    split
    · rename_i hfree
      right
      have hplace : pathPlace fs p = l := by
        obtain ⟨hne, -, hl⟩ := FileSystem.resolve_eq_some_iff.mp hl
        rw [pathPlace, ← place_dropTrailingSeparators hne, hl]
      rw [hplace]
      exact ⟨hfree.1, rfl⟩
    · exact .inl rfl

@[simp] theorem makeDirs_cwd (env : Storage) (ps : List Bytes) (fs : FileSystem) :
    (makeDirs env ps fs).2.cwd = fs.cwd := by
  induction ps generalizing fs with
  | nil => rfl
  | cons p ps ih =>
      unfold makeDirs
      split
      · exact ih fs
      · rcases osMkdir_cases env p fs with hm | ⟨-, hm⟩
        · simp [hm]
        · simp [hm, ih]

/-- The nodes that are new are the directories made. -/
theorem makeDirs_node (env : Storage) (ps : List Bytes) (fs : FileSystem) (l : Location) :
    (makeDirs env ps fs).2.node l =
      if l ∈ (madeDirs env ps fs).map (pathPlace fs) then some newDirectory
      else fs.node l := by
  induction ps generalizing fs with
  | nil => simp [makeDirs, madeDirs]
  | cons p ps ih =>
      by_cases ho : opendir fs p = true
      · simpa [makeDirs, madeDirs, ho] using ih fs
      · rcases osMkdir_cases env p fs with hm | ⟨hfree, hm⟩
        · simp [makeDirs, madeDirs, ho, hm]
        · have hplace : pathPlace (fs.create (pathPlace fs p) newDirectory) = pathPlace fs := by
            funext q
            simp [pathPlace]
          have hmake : (makeDirs env (p :: ps) fs).2.node l =
              (makeDirs env ps (fs.create (pathPlace fs p) newDirectory)).2.node l := by
            simp [makeDirs, ho, hm]
          have hmade : madeDirs env (p :: ps) fs =
              p :: madeDirs env ps (fs.create (pathPlace fs p) newDirectory) := by
            simp [madeDirs, ho, hm]
          rw [hmake, ih, hplace, hmade, FileSystem.node_create hfree, List.map_cons]
          by_cases hl : l = pathPlace fs p
          · simp [hl]
          · simp [hl]

/-- A directory is made at a free place only. -/
theorem node_of_mem_madeDirs {env : Storage} {ps : List Bytes} {fs : FileSystem} {p : Bytes}
    (h : p ∈ madeDirs env ps fs) : fs.node (pathPlace fs p) = none := by
  induction ps generalizing fs with
  | nil => simp [madeDirs] at h
  | cons q qs ih =>
      by_cases ho : opendir fs q = true
      · exact ih (by simpa [madeDirs, ho] using h)
      · rcases osMkdir_cases env q fs with hm | ⟨hfree, hm⟩
        · simp [madeDirs, ho, hm] at h
        · have hmade : madeDirs env (q :: qs) fs =
              q :: madeDirs env qs (fs.create (pathPlace fs q) newDirectory) := by
            simp [madeDirs, ho, hm]
          rw [hmade] at h
          rcases List.mem_cons.mp h with rfl | h
          · exact hfree.1
          · have hnode := ih h
            rw [FileSystem.node_create hfree] at hnode
            split at hnode
            · simp at hnode
            · simpa [pathPlace] using hnode

theorem makeDirs_grows (env : Storage) (ps : List Bytes) (fs : FileSystem) :
    FileSystem.Grows ((madeDirs env ps fs).map (pathPlace fs)) [] fs (makeDirs env ps fs).2 := by
  constructor
  case cwd => exact makeDirs_cwd ..
  case kept =>
    intro l n hn
    refine ⟨n, ?_, rfl, rfl⟩
    rw [makeDirs_node, if_neg, hn]
    intro hm
    obtain ⟨p, hp, rfl⟩ := List.mem_map.mp hm
    rw [node_of_mem_madeDirs hp] at hn
    simp at hn
  case added =>
    intro l hl
    rw [makeDirs_node] at hl
    split at hl
    · rename_i hm
      exact .inr (.inl hm)
    · exact .inl hl
  case dir =>
    intro l hl
    exact ⟨newDirectory, by rw [makeDirs_node, if_pos hl], rfl, rfl⟩
  case file => exact fun l hl => absurd hl (List.not_mem_nil)

/-! ## `createParentDirs` -/

theorem createParentDirs_node (env : Storage) (target : Bytes) (fs : FileSystem) (l : Location) :
    (createParentDirs env target fs).2.node l =
      if l ∈ (madeDirs env (parentPaths target) fs).map (pathPlace fs) then some newDirectory
      else fs.node l := by
  rw [createParentDirs_eq, makeDirs_node]

@[simp] theorem createParentDirs_cwd (env : Storage) (target : Bytes) (fs : FileSystem) :
    (createParentDirs env target fs).2.cwd = fs.cwd := by
  rw [createParentDirs_eq, makeDirs_cwd]

theorem createParentDirs_grows (env : Storage) (target : Bytes) (fs : FileSystem) :
    FileSystem.Grows ((madeDirs env (parentPaths target) fs).map (pathPlace fs)) [] fs
      (createParentDirs env target fs).2 := by
  rw [createParentDirs_eq]
  exact makeDirs_grows ..

theorem eq_pathPlace_of_resolve {env : Storage} {target : Bytes} {fs : FileSystem} {l : Location}
    (h : (createParentDirs env target fs).2.resolve (cStr target) = some l) :
    l = pathPlace fs target := by
  rw [pathPlace, ← FileSystem.resolve_eq_some h, createParentDirs_cwd]

end LibWfut
