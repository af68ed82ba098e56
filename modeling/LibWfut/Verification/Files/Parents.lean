import LibWfut.Verification.Files.Ahead

/-! # The promise of `createParentDirs`

`createParentDirs` looks for a directory by listing it. One that may be traversed but not
listed is taken for a missing one, and then `mkdir` fails. -/

namespace LibWfut

open FileTree

/-! ## The promise -/

/-- A directory the path leads through: what stands before one of its slashes. -/
def Ancestor (filename p : Bytes) : Prop :=
  ∃ rest, cStr filename = p ++ separator :: rest

/-- The text leads to a directory. -/
def DirExists (fs : FileSystem) (p : Bytes) : Prop :=
  (fs.lookup (p ++ [separator])).any Node.isDir = true

instance (fs : FileSystem) (p : Bytes) : Decidable (DirExists fs p) :=
  inferInstanceAs (Decidable (_ = true))

/-- Every directory above the file exists. -/
def ParentsExist (fs : FileSystem) (filename : Bytes) : Prop :=
  ∀ p, Ancestor filename p → DirExists fs p

/-- Directories are made at these places, one after the other, each in one that exists. -/
inductive Builds : List Location → FileSystem → FileSystem → Prop where
  | done (fs) : Builds [] fs fs
  | make {l ls fs fs'} (h : fs.Free l) : Builds ls (fs.create l newDirectory) fs' →
      Builds (l :: ls) fs fs'

/-- The path of the file is usable exactly when the call says so, and nothing else is
made. -/
structure MakesParents (env : Storage) (filename : Bytes) (fs : FileSystem) : Prop where
  usable : (createParentDirs env filename fs).1 = 0 ↔
    ParentsExist (createParentDirs env filename fs).2 filename
  created : ∃ ls, Builds ls fs (createParentDirs env filename fs).2 ∧
    ∀ l ∈ ls, ∃ p, Ancestor filename p ∧ place fs.cwd (p ++ [separator]) = l
  unchanged : ParentsExist fs filename → createParentDirs env filename fs = (0, fs)

/-- The recursion comes to the prefix `p` with the tree `fs'`, and cannot list it. -/
structure Unlisted (env : Storage) (filename : Bytes) (fs : FileSystem) (p : Bytes)
    (fs' : FileSystem) : Prop where
  mem : p ∈ parentPaths filename
  above : createParentDirs env p fs = (0, fs')
  closed : opendir fs' p = false

/-- Making the prefix makes a directory above the file, or fails where one is missing. -/
def SoundLevel (env : Storage) (filename : Bytes) (p : Bytes) (fs : FileSystem) : Prop :=
  ((osMkdir env p fs).1 = 0 ∧
      ∃ q, Ancestor filename q ∧ place fs.cwd (q ++ [separator]) = pathPlace fs p) ∨
    ((osMkdir env p fs).1 ≠ 0 ∧ ¬ParentsExist fs filename)

/-- Only slashes separate, no byte ends the name early and no component leads upwards. -/
structure PlainName (filename : Bytes) : Prop where
  backslash : 92 ∉ filename
  terminated : 0 ∉ filename
  upward : dotdot ∉ filename.splitOn separator

/-! ## Directories above a file -/

theorem isDir_start (fs : FileSystem) (path : Bytes) : fs.isDir (start fs.cwd path) = true := by
  unfold start
  split
  · exact fs.root_isDir
  · exact fs.cwd_isDir

theorem Ancestor.trans {filename p q r : Bytes} (h : Ancestor filename p)
    (hp : p ++ [separator] = q ++ separator :: r) : Ancestor filename q := by
  obtain ⟨rest, hrest⟩ := h
  refine ⟨r ++ rest, ?_⟩
  have happend : p ++ separator :: rest = (p ++ [separator]) ++ rest := by simp
  rw [hrest, happend, hp, List.append_assoc, List.cons_append]

theorem DirExists.isDir {fs : FileSystem} {p : Bytes} (h : DirExists fs p) :
    fs.isDir (place fs.cwd (p ++ [separator])) = true := by
  unfold DirExists FileSystem.lookup at h
  cases hr : fs.resolve (p ++ [separator]) with
  | none => simp [hr] at h
  | some l =>
      rw [FileSystem.resolve_eq_some hr, FileSystem.isDir]
      simpa [hr] using h

/-- The text without its last slash leads to the directory too. -/
theorem DirExists.lookup {fs : FileSystem} {p : Bytes} (h : DirExists fs p) (hne : p ≠ []) :
    ∃ n, fs.lookup p = some n ∧ fs.node (place fs.cwd p) = some n ∧ n.isDir = true := by
  have hdir := h.isDir
  rw [place_append_separator hne] at hdir
  obtain ⟨n, hn⟩ : ∃ n, fs.node (place fs.cwd p) = some n := by
    rw [FileSystem.isDir] at hdir
    exact Option.isSome_iff_exists.mp (Option.isSome_of_any hdir)
  have hr : fs.resolve p = some (place fs.cwd p) := by
    unfold DirExists FileSystem.lookup at h
    cases hr : fs.resolve (p ++ [separator]) with
    | none => simp [hr] at h
    | some l =>
        obtain ⟨-, hpass, -⟩ := FileSystem.resolve_eq_some_iff.mp hr
        exact FileSystem.resolve_eq_some_iff.mpr
          ⟨hne, fun m hm => hpass m (passes_append_separator hne hm), rfl⟩
  refine ⟨n, ?_, hn, ?_⟩
  · rw [FileSystem.lookup, hr, Option.bind_some, hn]
  · rwa [FileSystem.isDir, hn] at hdir

/-- Every directory above the file exists when there is one wherever their texts lead. -/
theorem parentsExist_iff {fs : FileSystem} {filename : Bytes} :
    ParentsExist fs filename ↔
      ∀ p, Ancestor filename p → p ≠ [] → fs.isDir (place fs.cwd p) = true := by
  constructor
  · intro h p hp hne
    rw [← place_append_separator hne]
    exact (h p hp).isDir
  · intro h p hp
    have hpass : ∀ m, Passes fs.cwd (p ++ [separator]) m → fs.isDir m = true := by
      intro m hm
      rcases passes_cases hm with rfl | ⟨q, r, hq, heq, rfl⟩
      · exact isDir_start ..
      · exact h q (hp.trans heq) hq
    have hend : fs.isDir (place fs.cwd (p ++ [separator])) = true := by
      by_cases hne : p = []
      · rw [hne, List.nil_append, place_separator_cons]
        exact fs.root_isDir
      · rw [place_append_separator hne]
        exact h p hp hne
    have hr := FileSystem.resolve_eq_some_iff.mpr
      ⟨show p ++ [separator] ≠ [] by simp, hpass, rfl⟩
    rw [DirExists, FileSystem.lookup, hr]
    exact hend

theorem Ancestor.mem_parentPaths {filename p : Bytes} (h : Ancestor filename p) (hne : p ≠ []) :
    p ∈ parentPaths filename ∧ cStr p = p := by
  obtain ⟨rest, hrest⟩ := h
  have hzero : 0 ∉ p := by
    intro hmem
    exact not_mem_cStr filename (hrest ▸ List.mem_append_left _ hmem)
  refine ⟨?_, cStr_eq_self_iff.mpr hzero⟩
  obtain ⟨tail, htail⟩ : ∃ tail, filename = p ++ separator :: tail := by
    obtain ⟨t, ht⟩ : cStr filename <+: filename := List.takeWhile_prefix _
    exact ⟨rest ++ t, by rw [← ht, hrest]; simp⟩
  have hm := mem_parentPathsRev tail.reverse (List.reverse_ne_nil_iff.mpr hne)
  rw [List.reverse_reverse] at hm
  rw [parentPaths, htail]
  simpa using hm

theorem parentPathsRev_split {r : Bytes} {ps qs : List Bytes} {p : Bytes}
    (h : parentPathsRev r = ps ++ p :: qs) :
    ps = parentPathsRev p.reverse ∧ p ≠ [] ∧
      ∃ c rest, isPathSeparator c = true ∧ r = rest ++ c :: p.reverse := by
  induction r generalizing qs with
  | nil => simp [parentPathsRev] at h
  | cons c r ih =>
      by_cases hc : isPathSeparator c = true ∧ r ≠ []
      · rw [parentPathsRev, if_pos hc] at h
        rcases List.eq_nil_or_concat qs with rfl | ⟨qs, q, rfl⟩
        · obtain ⟨rfl, hp⟩ := List.append_inj' h rfl
          obtain rfl : r.reverse = p := by simpa using hp
          rw [List.reverse_reverse]
          exact ⟨rfl, by simpa using hc.2, c, [], hc.1, rfl⟩
        · rw [List.concat_eq_append, ← List.cons_append, ← List.append_assoc] at h
          obtain ⟨h, -⟩ := List.append_inj' h rfl
          obtain ⟨hps, hne, d, rest, hd, hr⟩ := ih h
          exact ⟨hps, hne, d, c :: rest, hd, by rw [hr, List.cons_append]⟩
      · have hrest : parentPathsRev r = ps ++ p :: qs := by
          by_cases hsep : isPathSeparator c = true
          · have hnil : r = [] := by
              by_contra hne
              exact hc ⟨hsep, hne⟩
            simp [parentPathsRev, hnil, hsep] at h
          · simpa [parentPathsRev, hsep] using h
        obtain ⟨hps, hne, d, rest, hd, hr⟩ := ih hrest
        exact ⟨hps, hne, d, c :: rest, hd, by rw [hr, List.cons_append]⟩

/-- The prefixes before a prefix are its own, and a separator follows it. -/
theorem parentPaths_split {filename p : Bytes} {ps qs : List Bytes}
    (h : parentPaths filename = ps ++ p :: qs) :
    ps = parentPaths p ∧ p ≠ [] ∧
      ∃ c rest, isPathSeparator c = true ∧ filename = p ++ c :: rest := by
  obtain ⟨hps, hne, c, rest, hc, hr⟩ := parentPathsRev_split h
  refine ⟨hps, hne, c, rest.reverse, hc, ?_⟩
  rw [← List.reverse_reverse filename, hr]
  simp

/-! ## The levels of the recursion -/

section Levels

variable {env : Storage} {ps : List Bytes} {fs : FileSystem} {p : Bytes}

theorem isDir_of_opendir (h : opendir fs p = true) : fs.isDir (pathPlace fs p) = true := by
  unfold opendir FileSystem.lookup at h
  cases hr : fs.resolve (cStr p) with
  | none => simp [hr] at h
  | some l =>
      rw [pathPlace, FileSystem.resolve_eq_some hr]
      exact FileSystem.isDir_of_any (by simpa [hr] using h)

theorem makeDirs_cons_of_zero (h : (makeDir env p fs).1 = 0) :
    makeDirs env (p :: ps) fs = makeDirs env ps (makeDir env p fs).2 := by
  rw [makeDirs_cons, if_neg (not_not.mpr h)]

theorem makeDir_cwd (env : Storage) (p : Bytes) (fs : FileSystem) :
    (makeDir env p fs).2.cwd = fs.cwd := by
  unfold makeDir
  split
  · rfl
  · exact osMkdir_cwd ..

theorem isDir_makeDir (h : (makeDir env p fs).1 = 0) :
    (makeDir env p fs).2.isDir (pathPlace fs p) = true := by
  unfold makeDir at h ⊢
  split
  · rename_i ho
    exact isDir_of_opendir ho
  · rename_i ho
    rw [if_neg ho] at h
    rcases osMkdir_cases env p fs with hm | ⟨hfree, hm⟩
    · rw [hm] at h
      simp at h
    · rw [hm, FileSystem.isDir_create hfree, if_pos rfl]
      rfl

/-- What a level makes or finds is there at the end. -/
theorem isDir_makeDirs (h : (makeDirs env ps fs).1 = 0) (hp : p ∈ ps) :
    (makeDirs env ps fs).2.isDir (pathPlace fs p) = true := by
  induction ps generalizing fs with
  | nil => simp at hp
  | cons q ps ih =>
      by_cases hzero : (makeDir env q fs).1 = 0
      · rw [makeDirs_cons_of_zero hzero] at h ⊢
        rcases List.mem_cons.mp hp with rfl | hp
        · exact (makeDirs_grows env ps _).isDir (isDir_makeDir hzero)
        · have hrest := ih h hp
          rwa [pathPlace, makeDir_cwd] at hrest
      · rw [makeDirs_cons, if_pos hzero] at h
        exact absurd h hzero

/-- A failed call failed to make some prefix, and then left the tree alone. -/
theorem makeDirs_failed (h : (makeDirs env ps fs).1 ≠ 0) :
    ∃ before p after, ps = before ++ p :: after ∧ (makeDirs env before fs).1 = 0 ∧
      opendir (makeDirs env before fs).2 p = false ∧
      (osMkdir env p (makeDirs env before fs).2).1 ≠ 0 ∧
      (makeDirs env ps fs).2 = (makeDirs env before fs).2 := by
  induction ps generalizing fs with
  | nil => exact absurd rfl h
  | cons q ps ih =>
      by_cases hzero : (makeDir env q fs).1 = 0
      · rw [makeDirs_cons_of_zero hzero] at h ⊢
        obtain ⟨before, p, after, rfl, hrest⟩ := ih h
        have hback : makeDirs env (q :: before) fs = makeDirs env before (makeDir env q fs).2 :=
          makeDirs_cons_of_zero hzero
        rw [← hback] at hrest
        exact ⟨q :: before, p, after, rfl, hrest⟩
      · have hclosed : opendir fs q = false := by
          by_contra ho
          exact hzero (by simp [makeDir, ho])
        have hmake : makeDir env q fs = osMkdir env q fs := by simp [makeDir, hclosed]
        rw [hmake] at hzero
        refine ⟨[], q, ps, rfl, rfl, hclosed, hzero, ?_⟩
        rw [makeDirs_cons, hmake, if_pos hzero]
        rcases osMkdir_cases env q fs with hm | ⟨-, hm⟩
        · rw [hm]
          rfl
        · rw [hm] at hzero
          exact absurd rfl hzero

theorem exists_split_cons {q : Bytes} {P : List Bytes → Prop} :
    (∃ before after, q :: ps = before ++ p :: after ∧ P before) ↔
      (p = q ∧ P []) ∨ ∃ before after, ps = before ++ p :: after ∧ P (q :: before) := by
  constructor
  · rintro ⟨before, after, heq, h⟩
    cases before with
    | nil =>
        rw [List.nil_append, List.cons.injEq] at heq
        exact .inl ⟨heq.1.symm, h⟩
    | cons b before =>
        rw [List.cons_append, List.cons.injEq] at heq
        obtain ⟨rfl, heq⟩ := heq
        exact .inr ⟨before, after, heq, h⟩
  · rintro (⟨rfl, h⟩ | ⟨before, after, rfl, h⟩)
    · exact ⟨[], ps, rfl, h⟩
    · exact ⟨q :: before, after, rfl, h⟩

/-- The prefixes that are made are those that a level cannot list and can make. -/
theorem mem_madeDirs_iff :
    p ∈ madeDirs env ps fs ↔ ∃ before after, ps = before ++ p :: after ∧
      (makeDirs env before fs).1 = 0 ∧ opendir (makeDirs env before fs).2 p = false ∧
      (osMkdir env p (makeDirs env before fs).2).1 = 0 := by
  induction ps generalizing fs with
  | nil => simp [madeDirs]
  | cons q ps ih =>
      rw [exists_split_cons]
      by_cases ho : opendir fs q = true
      · have hmade : madeDirs env (q :: ps) fs = madeDirs env ps fs := by simp [madeDirs, ho]
        have hmake : ∀ before, makeDirs env (q :: before) fs = makeDirs env before fs := by
          simp [makeDirs, ho]
        have hlevel : ¬(p = q ∧ (makeDirs env [] fs).1 = 0 ∧
            opendir (makeDirs env [] fs).2 p = false ∧
            (osMkdir env p (makeDirs env [] fs).2).1 = 0) := by
          rintro ⟨rfl, -, hclosed, -⟩
          simp [makeDirs, ho] at hclosed
        simp only [hmade, hmake, ih, or_iff_right hlevel]
      · rcases osMkdir_cases env q fs with hm | ⟨-, hm⟩
        · have hmake : ∀ before, makeDirs env (q :: before) fs = (-1, fs) := by
            simp [makeDirs, ho, hm]
          constructor
          · intro hp
            simp [madeDirs, ho, hm] at hp
          · rintro (⟨rfl, -, -, herr⟩ | ⟨before, after, -, herr, -⟩)
            · rw [makeDirs, hm] at herr
              simp at herr
            · rw [hmake] at herr
              simp at herr
        · have hmade : madeDirs env (q :: ps) fs =
              q :: madeDirs env ps (fs.create (pathPlace fs q) newDirectory) := by
            simp [madeDirs, ho, hm]
          have hmake : ∀ before, makeDirs env (q :: before) fs =
              makeDirs env before (fs.create (pathPlace fs q) newDirectory) := by
            simp [makeDirs, ho, hm]
          have hlevel : (makeDirs env [] fs).1 = 0 ∧ opendir (makeDirs env [] fs).2 q = false ∧
              (osMkdir env q (makeDirs env [] fs).2).1 = 0 := by
            simpa [makeDirs, hm] using ho
          simp only [hmade, hmake, List.mem_cons, ih]
          exact or_congr_left ⟨fun h => ⟨h, h ▸ hlevel⟩, And.left⟩

theorem makeDirs_of_madeDirs_nil (h : madeDirs env ps fs = []) : (makeDirs env ps fs).2 = fs := by
  induction ps with
  | nil => rfl
  | cons p ps ih =>
      by_cases ho : opendir fs p = true
      · simpa [makeDirs, ho] using ih (by simpa [madeDirs, ho] using h)
      · rcases osMkdir_cases env p fs with hm | ⟨-, hm⟩
        · simp [makeDirs, ho, hm]
        · simp [madeDirs, ho, hm] at h

/-- Each directory is made in one that exists. -/
theorem builds_makeDirs (env : Storage) (ps : List Bytes) (fs : FileSystem) :
    Builds ((madeDirs env ps fs).map (pathPlace fs)) fs (makeDirs env ps fs).2 := by
  induction ps generalizing fs with
  | nil => exact .done fs
  | cons p ps ih =>
      by_cases ho : opendir fs p = true
      · simpa [makeDirs, madeDirs, ho] using ih fs
      · rcases osMkdir_cases env p fs with hm | ⟨hfree, hm⟩
        · simpa [makeDirs, madeDirs, ho, hm] using Builds.done fs
        · have hplace : pathPlace (fs.create (pathPlace fs p) newDirectory) = pathPlace fs := by
            funext q
            simp [pathPlace]
          have hrest := ih (fs.create (pathPlace fs p) newDirectory)
          rw [hplace] at hrest
          simpa [makeDirs, madeDirs, ho, hm] using Builds.make hfree hrest

end Levels

theorem Builds.mem {ls : List Location} {fs fs' : FileSystem} (h : Builds ls fs fs')
    {l : Location} (hl : fs.node l = none) (hl' : fs'.node l ≠ none) : l ∈ ls := by
  induction h with
  | done fs => exact absurd hl hl'
  | make hfree _ ih =>
      rename_i m ls fs fs' _
      by_cases hm : l = m
      · exact hm ▸ List.mem_cons_self ..
      · refine List.mem_cons_of_mem _ (ih ?_ hl')
        rw [FileSystem.node_create hfree, if_neg hm, hl]

/-! ## When the promise is kept -/

section Promise

variable {env : Storage} {filename : Bytes} {fs : FileSystem}

theorem Unlisted.of_split {before after : List Bytes} {p : Bytes}
    (h : parentPaths filename = before ++ p :: after) (hzero : (makeDirs env before fs).1 = 0)
    (hclosed : opendir (makeDirs env before fs).2 p = false) :
    Unlisted env filename fs p (makeDirs env before fs).2 := by
  obtain ⟨hbefore, -, -⟩ := parentPaths_split h
  refine ⟨by simp [h], ?_, hclosed⟩
  rw [createParentDirs_eq, ← hbefore]
  exact Prod.ext hzero rfl

theorem Unlisted.split {p : Bytes} {fs' : FileSystem} (h : Unlisted env filename fs p fs') :
    ∃ before after, parentPaths filename = before ++ p :: after ∧
      makeDirs env before fs = (0, fs') := by
  obtain ⟨before, after, hsplit⟩ := List.append_of_mem h.mem
  obtain ⟨hbefore, -, -⟩ := parentPaths_split hsplit
  exact ⟨before, after, hsplit, by rw [hbefore, ← createParentDirs_eq, h.above]⟩

theorem Unlisted.mem_madeDirs {p : Bytes} {fs' : FileSystem} (h : Unlisted env filename fs p fs')
    (hmade : (osMkdir env p fs').1 = 0) : p ∈ madeDirs env (parentPaths filename) fs := by
  obtain ⟨before, after, hsplit, hbefore⟩ := h.split
  exact mem_madeDirs_iff.mpr ⟨before, after, hsplit, by rw [hbefore], by rw [hbefore, h.closed],
    by rw [hbefore, hmade]⟩

theorem Unlisted.failed {p : Bytes} {fs' : FileSystem} (h : Unlisted env filename fs p fs')
    (hfail : (osMkdir env p fs').1 ≠ 0) : createParentDirs env filename fs = (-1, fs') := by
  obtain ⟨before, after, hsplit, hbefore⟩ := h.split
  have hmake : osMkdir env p fs' = (-1, fs') := by
    rcases osMkdir_cases env p fs' with hm | ⟨-, hm⟩
    · exact hm
    · rw [hm] at hfail
      exact absurd rfl hfail
  rw [createParentDirs_eq, hsplit, makeDirs_append, hbefore]
  simp [makeDirs, h.closed, hmake]

/-- A call that reports success has made everything. -/
theorem parentsExist_of_zero (h : (createParentDirs env filename fs).1 = 0) :
    ParentsExist (createParentDirs env filename fs).2 filename := by
  rw [parentsExist_iff, createParentDirs_cwd]
  intro p hp hne
  obtain ⟨hmem, hself⟩ := hp.mem_parentPaths hne
  rw [createParentDirs_eq] at h ⊢
  have hdir := isDir_makeDirs h hmem
  rwa [pathPlace, hself] at hdir

theorem soundLevel_of_makesParents (h : MakesParents env filename fs) {p : Bytes} {fs' : FileSystem}
    (hp : Unlisted env filename fs p fs') : SoundLevel env filename p fs' := by
  have hcwd : fs'.cwd = fs.cwd := by
    have hfs' := createParentDirs_cwd env p fs
    rwa [hp.above] at hfs'
  by_cases hmade : (osMkdir env p fs').1 = 0
  · left
    obtain ⟨ls, hbuilds, hls⟩ := h.created
    have hmem := hp.mem_madeDirs hmade
    have hnew : pathPlace fs p ∈ ls := by
      refine hbuilds.mem (node_of_mem_madeDirs hmem) ?_
      rw [createParentDirs_node, if_pos (List.mem_map_of_mem hmem)]
      simp
    obtain ⟨q, hq, hplace⟩ := hls _ hnew
    refine ⟨hmade, q, hq, ?_⟩
    rw [pathPlace, hcwd, hplace, pathPlace]
  · right
    refine ⟨hmade, fun hexist => ?_⟩
    have hzero := h.usable.mpr (by rwa [hp.failed hmade])
    rw [hp.failed hmade] at hzero
    simp at hzero

theorem makesParents_of_soundLevel
    (h : ∀ p fs', Unlisted env filename fs p fs' → SoundLevel env filename p fs') :
    MakesParents env filename fs := by
  have hmade : ∀ p ∈ madeDirs env (parentPaths filename) fs,
      ∃ q, Ancestor filename q ∧ place fs.cwd (q ++ [separator]) = pathPlace fs p := by
    intro p hp
    obtain ⟨before, after, hsplit, hzero, hclosed, hmkdir⟩ := mem_madeDirs_iff.mp hp
    rcases h p _ (.of_split hsplit hzero hclosed) with ⟨-, hq⟩ | ⟨hfail, -⟩
    · rwa [pathPlace, makeDirs_cwd] at hq
    · exact absurd hmkdir hfail
  have husable : ParentsExist (createParentDirs env filename fs).2 filename →
      (createParentDirs env filename fs).1 = 0 := by
    intro hexist
    by_contra hfail
    rw [createParentDirs_eq] at hexist hfail
    obtain ⟨before, p, after, hsplit, hzero, hclosed, hmkdir, hfs⟩ := makeDirs_failed hfail
    rw [hfs] at hexist
    rcases h p _ (.of_split hsplit hzero hclosed) with ⟨hzero', -⟩ | ⟨-, hmissing⟩
    · exact hmkdir hzero'
    · exact hmissing hexist
  constructor
  case usable => exact ⟨parentsExist_of_zero, husable⟩
  case created =>
    refine ⟨(madeDirs env (parentPaths filename) fs).map (pathPlace fs), ?_, ?_⟩
    · rw [createParentDirs_eq]
      exact builds_makeDirs ..
    · intro l hl
      obtain ⟨p, hp, rfl⟩ := List.mem_map.mp hl
      exact hmade p hp
  case unchanged =>
    intro hexist
    have hnone : madeDirs env (parentPaths filename) fs = [] := by
      refine List.eq_nil_iff_forall_not_mem.mpr fun p hp => ?_
      obtain ⟨q, hq, hplace⟩ := hmade p hp
      have hdir := (hexist q hq).isDir
      rw [hplace, FileSystem.isDir, node_of_mem_madeDirs hp] at hdir
      simp at hdir
    have hfs : (createParentDirs env filename fs).2 = fs := by
      rw [createParentDirs_eq, makeDirs_of_madeDirs_nil hnone]
    exact Prod.ext (husable (by rwa [hfs])) hfs

/-! ## Plain names -/

theorem opendir_of_makeDirs_eq {ps : List Bytes} (h : makeDirs env ps fs = (0, fs)) {p : Bytes}
    (hp : p ∈ ps) : opendir fs p = true := by
  induction ps with
  | nil => simp at hp
  | cons q ps ih =>
      by_cases ho : opendir fs q = true
      · rcases List.mem_cons.mp hp with rfl | hp
        · exact ho
        · exact ih (by simpa [makeDirs, ho] using h) hp
      · rcases osMkdir_cases env q fs with hm | ⟨hfree, hm⟩
        · simp [makeDirs, ho, hm] at h
        · have hrest : makeDirs env ps (fs.create (pathPlace fs q) newDirectory) = (0, fs) := by
            simpa [makeDirs, ho, hm] using h
          have hdir := (makeDirs_grows env ps (fs.create (pathPlace fs q) newDirectory)).isDir
            (show FileSystem.isDir _ (pathPlace fs q) = true by
              rw [FileSystem.isDir_create hfree, if_pos rfl]
              rfl)
          rw [hrest, FileSystem.isDir, hfree.1] at hdir
          simp at hdir

theorem PlainName.split {before after : List Bytes} {p : Bytes} (h : PlainName filename)
    (hsplit : parentPaths filename = before ++ p :: after) :
    p ≠ [] ∧ cStr p = p ∧ ∃ rest, filename = p ++ separator :: rest := by
  obtain ⟨-, hne, c, rest, hc, heq⟩ := parentPaths_split hsplit
  have hback : c ≠ 92 := by
    rintro rfl
    exact h.backslash (by simp [heq])
  have hsep : c = separator := by simpa [isPathSeparator, hback, separator] using hc
  refine ⟨hne, cStr_eq_self_iff.mpr fun hmem => h.terminated ?_, rest, hsep ▸ heq⟩
  rw [heq]
  exact List.mem_append_left _ hmem

theorem PlainName.ancestor {before after : List Bytes} {p : Bytes} (h : PlainName filename)
    (hsplit : parentPaths filename = before ++ p :: after) : Ancestor filename p := by
  obtain ⟨-, -, rest, heq⟩ := h.split hsplit
  exact ⟨rest, by rw [cStr_eq_self_iff.mpr h.terminated, heq]⟩

/-- The prefix of a plain name is one, and its own prefixes lead to places above its own. -/
theorem PlainName.place_prefix {p q : Bytes} (h : PlainName filename)
    (hp : p ∈ parentPaths filename) (hq : q ∈ parentPaths p) :
    pathPlace fs q <+: pathPlace fs p := by
  obtain ⟨before, after, hsplit⟩ := List.append_of_mem hp
  obtain ⟨-, hself, rest, heq⟩ := h.split hsplit
  have hparts : filename.splitOn separator = p.splitOn separator ++ rest.splitOn separator := by
    rw [heq, List.splitOn_append_cons_self]
  have hplain : PlainName p := by
    constructor
    case backslash => exact fun hmem => h.backslash (heq ▸ List.mem_append_left _ hmem)
    case terminated => exact cStr_eq_self_iff.mp hself
    case upward => exact fun hmem => h.upward (hparts ▸ List.mem_append_left _ hmem)
  obtain ⟨before', after', hsplit'⟩ := List.append_of_mem hq
  obtain ⟨hne, hself', rest', heq'⟩ := hplain.split hsplit'
  have hupward := hplain.upward
  rw [heq', List.splitOn_append_cons_self] at hupward
  rw [pathPlace, pathPlace, hself, hself', heq', place_append hne]
  exact prefix_foldl_next (fun hmem => hupward (List.mem_append_right _ hmem)) _

/-- A directory that exists and cannot be listed was there before, and so were those above
it. -/
theorem Unlisted.eq_of_exists {p : Bytes} {fs' : FileSystem} (hp : Unlisted env filename fs p fs')
    (h : PlainName filename) (hexist : DirExists fs' p) : fs' = fs := by
  obtain ⟨before, after, hsplit, -⟩ := hp.split
  obtain ⟨hne, hself, -⟩ := h.split hsplit
  obtain ⟨n, hlookup, hnode, hdir⟩ := hexist.lookup hne
  have hfs' : (createParentDirs env p fs).2 = fs' := by rw [hp.above]
  have hcwd : fs'.cwd = fs.cwd := by rw [← hfs', createParentDirs_cwd]
  have hreadable : n.readable = false := by
    have hclosed := hp.closed
    rw [opendir, hself, hlookup] at hclosed
    simpa [hdir] using hclosed
  have hold : fs.node (pathPlace fs p) = some n := by
    have hsplit' := createParentDirs_node env p fs (pathPlace fs p)
    rw [hfs', pathPlace, hself, ← hcwd, hnode] at hsplit'
    split at hsplit'
    · rw [Option.some.injEq] at hsplit'
      rw [hsplit'] at hreadable
      simp [newDirectory] at hreadable
    · rw [pathPlace, hself, ← hcwd, ← hsplit']
  have hnone : madeDirs env (parentPaths p) fs = [] := by
    refine List.eq_nil_iff_forall_not_mem.mpr fun q hq => ?_
    obtain ⟨before', after', hq', -⟩ := mem_madeDirs_iff.mp hq
    have hprefix : pathPlace fs q <+: pathPlace fs p := h.place_prefix hp.mem (by simp [hq'])
    rw [FileSystem.node_eq_none_of_prefix (node_of_mem_madeDirs hq) hprefix] at hold
    simp at hold
  rw [← hfs', createParentDirs_eq, makeDirs_of_madeDirs_nil hnone]

/-- For a plain name the promise is broken exactly when nothing is missing and a directory
cannot be listed. -/
theorem makesParents_plain_iff (h : PlainName filename) :
    MakesParents env filename fs ↔
      ¬(ParentsExist fs filename ∧
        ∃ p, Ancestor filename p ∧ p ≠ [] ∧ opendir fs p = false) := by
  constructor
  · rintro hmakes ⟨hexist, p, hp, hne, hclosed⟩
    have hsame := hmakes.unchanged hexist
    rw [createParentDirs_eq] at hsame
    rw [opendir_of_makeDirs_eq hsame (hp.mem_parentPaths hne).1] at hclosed
    simp at hclosed
  · intro hlisted
    refine makesParents_of_soundLevel fun p fs' hp => ?_
    obtain ⟨before, after, hsplit, -⟩ := hp.split
    obtain ⟨hne, hself, -⟩ := h.split hsplit
    have hancestor := h.ancestor hsplit
    by_cases hmade : (osMkdir env p fs').1 = 0
    · refine .inl ⟨hmade, p, hancestor, ?_⟩
      rw [place_append_separator hne, pathPlace, hself]
    · refine .inr ⟨hmade, fun hexist => ?_⟩
      have hfs' := hp.eq_of_exists h (hexist p hancestor)
      subst hfs'
      exact hlisted ⟨hexist, p, hancestor, hne, hp.closed⟩

end Promise

/-- `createParentDirs` keeps its promise exactly when every prefix that it comes to and
cannot list is a directory it makes above the file, or cannot be made where one is missing.
For a plain name that is so unless all directories exist and one cannot be listed. -/
theorem create_parent_dirs (env : Storage) (filename : Bytes) (fs : FileSystem) :
    (MakesParents env filename fs ↔
      ∀ p fs', Unlisted env filename fs p fs' → SoundLevel env filename p fs') ∧
    (PlainName filename →
      (MakesParents env filename fs ↔
        ¬(ParentsExist fs filename ∧
          ∃ p, Ancestor filename p ∧ p ≠ [] ∧ opendir fs p = false))) :=
  ⟨⟨fun h _ _ hp => soundLevel_of_makesParents h hp, makesParents_of_soundLevel⟩,
    makesParents_plain_iff⟩

/-- A directory that may be traversed but not listed. -/
def unlistable : FileSystem :=
  FileSystem.empty.create [ascii "d"] { newDirectory with mode := 0o311, readable := false }

/-- Below it nothing is missing, and yet the call fails. -/
theorem create_parent_dirs_unlistable :
    ParentsExist unlistable (ascii "d/f") ∧
      (createParentDirs {} (ascii "d/f") unlistable).1 ≠ 0 ∧
      ¬MakesParents {} (ascii "d/f") unlistable := by
  have hexist : ParentsExist unlistable (ascii "d/f") := by
    rintro p ⟨rest, hrest⟩
    have hall : ∀ p ∈ (ascii "d/f").inits, p ++ [separator] <+: ascii "d/f" →
        DirExists unlistable p := by decide
    exact hall p ((List.mem_inits ..).mpr ⟨separator :: rest, hrest.symm⟩)
      ⟨rest, by rw [List.append_assoc]; exact hrest.symm⟩
  have hfail : (createParentDirs {} (ascii "d/f") unlistable).1 ≠ 0 := by decide
  refine ⟨hexist, hfail, fun h => hfail ?_⟩
  rw [h.unchanged hexist]

end LibWfut
