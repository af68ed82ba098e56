import LibWfut.Verification.Files.Agreement

/-! # Directories made ahead

In one of two trees some of the directories that are made for a target are there already.
Making them does the same on both trees, and the trees agree afterwards. -/

namespace LibWfut

open FileTree

/-! ## Paths of directories -/

theorem place_of_dropTrailingSeparators {cwd : Location} {p : Bytes} (hp : p ≠ [])
    (h : dropTrailingSeparators p = []) : place cwd p = [] := by
  induction p using List.reverseRecOn with
  | nil => exact absurd rfl hp
  | append_singleton p c ih =>
      by_cases hc : c = separator
      · subst hc
        have hdrop : dropTrailingSeparators (p ++ [separator]) = dropTrailingSeparators p := by
          simp [dropTrailingSeparators]
        rw [hdrop] at h
        by_cases hnil : p = []
        · rw [hnil, List.nil_append, place_separator_cons]
          simp [next]
        · rw [place_append_separator hnil, ih hnil h]
      · simp [dropTrailingSeparators, hc] at h

theorem passes_dropTrailingSeparators {cwd l : Location} {p : Bytes}
    (h : Passes cwd (dropTrailingSeparators p) l) (hne : dropTrailingSeparators p ≠ []) :
    Passes cwd p l := by
  induction p using List.reverseRecOn with
  | nil => exact absurd rfl hne
  | append_singleton p c ih =>
      by_cases hc : c = separator
      · subst hc
        have hdrop : dropTrailingSeparators (p ++ [separator]) = dropTrailingSeparators p := by
          simp [dropTrailingSeparators]
        rw [hdrop] at h hne
        have hp : p ≠ [] := by
          rintro rfl
          exact hne rfl
        exact passes_append_separator hp (ih h hne)
      · have hdrop : dropTrailingSeparators (p ++ [c]) = p ++ [c] := by
          simp [dropTrailingSeparators, hc]
        rwa [hdrop] at h

theorem mem_parentPathsRev (r : Bytes) {q : Bytes} (hq : q ≠ []) :
    q.reverse ∈ parentPathsRev (r ++ separator :: q) := by
  induction r with
  | nil => simp [parentPathsRev, isPathSeparator, separator, hq]
  | cons c r ih =>
      by_cases hc : isPathSeparator c = true
      · simp [parentPathsRev, hc, ih]
      · simp [parentPathsRev, hc, ih]

/-- A path passes the place it starts from and those of the directories above it. -/
theorem passes_parentPaths {cwd l : Location} {p : Bytes} (h : Passes cwd p l) :
    l = start cwd p ∨ ∃ q ∈ parentPaths p, place cwd q = l := by
  rcases passes_cases h with hl | ⟨q, r, hq, rfl, hl⟩
  · exact .inl hl
  · have hm := mem_parentPathsRev r.reverse (List.reverse_ne_nil_iff.mpr hq)
    rw [List.reverse_reverse] at hm
    exact .inr ⟨q, by simpa [parentPaths] using hm, hl⟩

/-- The directories above a path come first among those above what it is continued to. -/
theorem parentPathsRev_append {f : Bytes} (hf : f ≠ []) (r : Bytes) :
    ∃ ps, parentPathsRev (r ++ f) = parentPathsRev f ++ ps := by
  induction r with
  | nil => exact ⟨[], by simp⟩
  | cons c r ih =>
      obtain ⟨ps, hps⟩ := ih
      have hne : r ++ f ≠ [] := by simp [hf]
      by_cases hc : isPathSeparator c = true
      · refine ⟨ps ++ [(r ++ f).reverse], ?_⟩
        rw [List.cons_append, parentPathsRev, if_pos ⟨hc, hne⟩, hps, List.append_assoc]
      · exact ⟨ps, by simp [parentPathsRev, hc, hps]⟩

section Ahead

variable {D S : Set Location} {fs fs' : FileSystem} {p : Bytes} {l : Location}

/-! ## One directory -/

/-- Where nothing exists, `mkdir` depends on the permission only. -/
theorem osMkdir_of_missing (env : Storage) (hr : fs.resolve (cStr p) = some l)
    (hl : fs.node l = none) :
    fs.Free l ∧ osMkdir env p fs =
      if env.mkdirOk p then (0, fs.create l newDirectory) else (-1, fs) := by
  obtain ⟨hne, hpass, hplace⟩ := FileSystem.resolve_eq_some_iff.mp hr
  have hroot : l ≠ [] := by
    rintro rfl
    have hdir := fs.root_isDir
    rw [hl] at hdir
    simp at hdir
  have hfree : fs.Free l := ⟨hl, hroot, FileSystem.isDir_dropLast_of_resolve hr hl⟩
  have hdrop : dropTrailingSeparators (cStr p) ≠ [] := by
    intro hnil
    rw [place_of_dropTrailingSeparators hne hnil] at hplace
    exact hroot hplace.symm
  have hr' : fs.resolve (dropTrailingSeparators (cStr p)) = some l := by
    rw [FileSystem.resolve_eq_some_iff, place_dropTrailingSeparators hdrop]
    exact ⟨hdrop, fun m hm => hpass m (passes_dropTrailingSeparators hm hdrop), hplace⟩
  refine ⟨hfree, ?_⟩
  unfold osMkdir
  simp only [hr', hfree, true_and]

/-- Where something exists, `mkdir` fails. -/
theorem osMkdir_of_exists (env : Storage) (hr : fs.resolve (cStr p) = some l)
    (hl : fs.node l ≠ none) : osMkdir env p fs = (-1, fs) := by
  rcases osMkdir_cases env p fs with heq | ⟨hfree, -⟩
  · exact heq
  · rw [pathPlace, FileSystem.resolve_eq_some hr] at hfree
    exact absurd hfree.1 hl

theorem opendir_of_resolve (hr : fs.resolve (cStr p) = some l) :
    opendir fs p = (fs.node l).any fun n => n.isDir && n.readable := by
  rw [opendir, FileSystem.lookup, hr, Option.bind_some]

/-- Opening or making a directory below directories does the same on both trees. -/
theorem makeDir_ahead (env : Storage) (h : Ahead newDirectory D S fs fs')
    (hc : PathCovered S fs.cwd p) (hpass : ∀ l, Passes fs.cwd (cStr p) l → fs.isDir l = true)
    (hne : cStr p ≠ []) (hgrant : D.Nonempty → env.mkdirOk p = true) :
    (makeDir env p fs').1 = (makeDir env p fs).1 ∧
      Ahead newDirectory D S (makeDir env p fs).2 (makeDir env p fs').2 ∧
      ((makeDir env p fs).1 = 0 →
        (makeDir env p fs).2.isDir (place fs.cwd (cStr p)) = true) := by
  obtain ⟨l, hplace⟩ : ∃ l, place fs.cwd (cStr p) = l := ⟨_, rfl⟩
  have hr : fs.resolve (cStr p) = some l :=
    FileSystem.resolve_eq_some_iff.mpr ⟨hne, hpass, hplace⟩
  have hr' := h.resolve hc hr
  have hlS : l ∈ S := hplace ▸ hc _ (place_mem_reached ..)
  rw [hplace]
  unfold makeDir
  rw [opendir_of_resolve hr, opendir_of_resolve hr']
  cases hn : fs.node l with
  | some n =>
      have hn' := h.node_of_some hlS hn
      rw [hn', osMkdir_of_exists env hr (by simp [hn]), osMkdir_of_exists env hr' (by simp [hn'])]
      simp only [Option.any_some]
      by_cases hd : (n.isDir && n.readable) = true
      · rw [if_pos hd, if_pos hd]
        refine ⟨rfl, h, fun _ => ?_⟩
        rw [FileSystem.isDir, hn, Option.any_some]
        exact (Bool.and_eq_true_iff.mp hd).1
      · rw [if_neg hd, if_neg hd]
        exact ⟨rfl, h, fun herr => by simp at herr⟩
  | none =>
      obtain ⟨hfree, hmkdir⟩ := osMkdir_of_missing env hr hn
      have hmade : (fs.create l newDirectory).isDir l = true := by
        rw [FileSystem.isDir_create hfree, if_pos rfl]
        rfl
      simp only [Option.any_none, Bool.false_eq_true, ite_false]
      rw [hmkdir]
      rcases h.node l hlS with heq | ⟨hD, -, hd⟩
      · obtain ⟨hfree', hmkdir'⟩ := osMkdir_of_missing env hr' (heq.trans hn)
        rw [heq, hn, hmkdir']
        simp only [Option.any_none, Bool.false_eq_true, ite_false]
        split
        · exact ⟨rfl, h.create hfree hfree', fun _ => hmade⟩
        · exact ⟨rfl, h, fun herr => by simp at herr⟩
      · have hopen : (newDirectory.isDir && newDirectory.readable) = true := rfl
        rw [hd, if_pos (hgrant ⟨l, hD⟩), Option.any_some, if_pos hopen]
        exact ⟨rfl, h.create_left hfree hd, fun _ => hmade⟩

/-! ## The directories above a target -/

/-- All that stand above a path are made alike. The induction follows `createParentDirs`: what
a path passes was made before it. -/
theorem makeParents_ahead (env : Storage) {f : Bytes} (hf : 0 ∉ f)
    (h : Ahead newDirectory D S fs fs') (hc : ∀ q ∈ parentPathsRev f, PathCovered S fs.cwd q)
    (hgrant : D.Nonempty → ∀ q, env.mkdirOk q = true) :
    (makeDirs env (parentPathsRev f) fs').1 = (makeDirs env (parentPathsRev f) fs).1 ∧
      Ahead newDirectory D S (makeDirs env (parentPathsRev f) fs).2
        (makeDirs env (parentPathsRev f) fs').2 ∧
      ((makeDirs env (parentPathsRev f) fs).1 = 0 → ∀ q ∈ parentPathsRev f,
        (makeDirs env (parentPathsRev f) fs).2.isDir (place fs.cwd q) = true) := by
  induction f with
  | nil => exact ⟨rfl, h, fun _ q hq => by simp [parentPathsRev] at hq⟩
  | cons c f ih =>
      have hrest : 0 ∉ f := fun hm => hf (List.mem_cons_of_mem _ hm)
      by_cases hsep : isPathSeparator c = true ∧ f ≠ []
      · have hpaths : parentPathsRev (c :: f) = parentPathsRev f ++ [f.reverse] := by
          rw [parentPathsRev, if_pos hsep]
        rw [hpaths] at hc ⊢
        obtain ⟨herr, hahead, hdirs⟩ := ih hrest fun q hq => hc q (List.mem_append_left _ hq)
        rw [makeDirs_concat, makeDirs_concat, herr]
        have hcwd : (makeDirs env (parentPathsRev f) fs).2.cwd = fs.cwd := makeDirs_cwd ..
        have hgrows := makeDirs_grows env (parentPathsRev f) fs
        split
        · rename_i hne
          exact ⟨herr, hahead, fun hzero => absurd hzero hne⟩
        · rename_i hzero
          have hmade := hdirs (not_not.mp hzero)
          have hself : cStr f.reverse = f.reverse := cStr_eq_self_iff.mpr (by simpa using hrest)
          have hpass : ∀ l, Passes (makeDirs env (parentPathsRev f) fs).2.cwd (cStr f.reverse) l →
              (makeDirs env (parentPathsRev f) fs).2.isDir l = true := by
            intro l hl
            rw [hself, hcwd] at hl
            rcases passes_parentPaths hl with rfl | ⟨q, hq, rfl⟩
            · unfold start
              split
              · exact FileSystem.root_isDir _
              · exact hgrows.isDir fs.cwd_isDir
            · apply hmade
              simpa [parentPaths] using hq
          have hcover : PathCovered S (makeDirs env (parentPathsRev f) fs).2.cwd f.reverse := by
            rw [hcwd]
            exact hc _ (by simp)
          have hnonempty : cStr f.reverse ≠ [] := by
            rw [hself]
            simpa using hsep.2
          obtain ⟨herr', hahead', hdir⟩ := makeDir_ahead env hahead hcover hpass hnonempty
            fun hD => hgrant hD _
          refine ⟨herr', hahead', fun hok q hq => ?_⟩
          rcases List.mem_append.mp hq with hq | hq
          · have hgrows' := makeDirs_grows env [f.reverse] (makeDirs env (parentPathsRev f) fs).2
            have hsame : (makeDirs env [f.reverse] (makeDirs env (parentPathsRev f) fs).2).2 =
                (makeDir env f.reverse (makeDirs env (parentPathsRev f) fs).2).2 := by
              rw [makeDirs_cons, hok]
              rfl
            rw [← hsame]
            exact hgrows'.isDir (hmade q hq)
          · rw [List.mem_singleton.mp hq]
            rw [hself, hcwd] at hdir
            exact hdir hok
      · have hpaths : parentPathsRev (c :: f) = parentPathsRev f ∨ parentPathsRev (c :: f) = [] := by
          rw [parentPathsRev, if_neg hsep]
          split
          · exact .inr rfl
          · exact .inl rfl
        rcases hpaths with hpaths | hpaths
        · rw [hpaths] at hc ⊢
          exact ih hrest hc
        · rw [hpaths]
          exact ⟨rfl, h, fun _ q hq => by simp at hq⟩

/-- The target stands below a base, and the directories that may be missing are among those
above the base. A place below them is passed on the way. -/
structure StandsBelow (D S : Set Location) (cwd : Location) (base target : Bytes) : Prop where
  covered : TargetCovered S cwd target
  terminated : 0 ∉ base
  continued : base ++ [separator] <+: target
  made : ∀ l ∈ D, ∃ q ∈ parentPaths (base ++ [separator]), place cwd q = l
  passes : ∃ m, Passes cwd (cStr target) m ∧ m ∉ D ∧ ∀ l ∈ D, l <+: m

variable {base target : Bytes}

/-- Where the directories can be made, nothing is missing afterwards. -/
theorem createParentDirs_ahead (env : Storage) (h : Ahead newDirectory D S fs fs')
    (hb : StandsBelow D S fs.cwd base target)
    (hgrant : D.Nonempty → ∀ q, env.mkdirOk q = true) :
    (createParentDirs env target fs').1 = (createParentDirs env target fs).1 ∧
      Ahead newDirectory D S (createParentDirs env target fs).2
        (createParentDirs env target fs').2 ∧
      ((createParentDirs env target fs).1 = 0 → AgreeOn S (createParentDirs env target fs).2
        (createParentDirs env target fs').2) := by
  obtain ⟨rest, hrest⟩ := hb.continued
  have hne : (base ++ [separator]).reverse ≠ [] := by simp
  obtain ⟨ps, hps⟩ := parentPathsRev_append hne rest.reverse
  have hpaths : parentPaths target = parentPathsRev (base ++ [separator]).reverse ++ ps := by
    rw [parentPaths, ← hrest, List.reverse_append, hps]
  have hcovered := hb.covered.parents
  rw [createParentDirs_eq, createParentDirs_eq]
  rw [hpaths] at hcovered ⊢
  obtain ⟨herr, hahead, hdirs⟩ := makeParents_ahead env
    (by simpa [separator] using hb.terminated) h
    (fun q hq => hcovered q (List.mem_append_left _ hq)) hgrant
  rw [makeDirs_append, makeDirs_append, herr]
  split
  · rename_i hfail
    exact ⟨herr, hahead, fun hzero => absurd hzero hfail⟩
  · rename_i hzero
    have hmade := hdirs (not_not.mp hzero)
    have hagree : AgreeOn S (makeDirs env (parentPathsRev (base ++ [separator]).reverse) fs).2
        (makeDirs env (parentPathsRev (base ++ [separator]).reverse) fs').2 := by
      rcases hahead.agreeOn_or_missing with hagree | ⟨l, -, hD, hnone⟩
      · exact hagree
      · obtain ⟨q, hq, rfl⟩ := hb.made l hD
        have hdir := hmade q hq
        rw [FileSystem.isDir, hnone] at hdir
        simp at hdir
    have hcwd : (makeDirs env (parentPathsRev (base ++ [separator]).reverse) fs).2.cwd = fs.cwd :=
      makeDirs_cwd ..
    have hps' : ∀ q ∈ ps, PathCovered S
        (makeDirs env (parentPathsRev (base ++ [separator]).reverse) fs).2.cwd q := by
      intro q hq
      rw [hcwd]
      exact hcovered q (List.mem_append_right _ hq)
    obtain ⟨herr', hagree'⟩ := makeDirs_agree env hagree hps'
    exact ⟨herr', .of_agreeOn hagree', fun _ => hagree'⟩

theorem copyFile_of_failed (env : Storage) (fp : Option Bytes) (target : Bytes) (fs : FileSystem)
    (h : (createParentDirs env target fs).1 ≠ 0) :
    copyFile env fp target fs = (1, (createParentDirs env target fs).2) := by
  unfold copyFile
  simp only [ne_eq, h, not_false_eq_true, ite_true]

/-- A file is stored in both trees or in none, and where it is stored the trees agree. -/
theorem copyFile_ahead (env : Storage) (fp : Option Bytes) (h : Ahead newDirectory D S fs fs')
    (hb : StandsBelow D S fs.cwd base target)
    (hgrant : D.Nonempty → ∀ q, env.mkdirOk q = true) :
    (copyFile env fp target fs').1 = (copyFile env fp target fs).1 ∧
      Ahead newDirectory D S (copyFile env fp target fs).2 (copyFile env fp target fs').2 ∧
      ((copyFile env fp target fs).1 = 0 →
        AgreeOn S (copyFile env fp target fs).2 (copyFile env fp target fs').2) := by
  obtain ⟨herr, hahead, hagree⟩ := createParentDirs_ahead env h hb hgrant
  by_cases hzero : (createParentDirs env target fs).1 = 0
  · obtain ⟨hsame, hcopy⟩ := copyFile_agree env fp herr (hagree hzero) hb.covered.path
    exact ⟨hsame, .of_agreeOn hcopy, fun _ => hcopy⟩
  · rw [copyFile_of_failed env fp target fs hzero,
      copyFile_of_failed env fp target fs' (herr ▸ hzero)]
    exact ⟨rfl, hahead, fun hone => by simp at hone⟩

theorem osSetExecutable_ahead (env : Storage) (h : Ahead newDirectory D S fs fs')
    (hb : StandsBelow D S fs.cwd base target) :
    Ahead newDirectory D S (osSetExecutable env target fs) (osSetExecutable env target fs') := by
  rcases h.agreeOn_or_missing with hagree | hmiss
  · exact .of_agreeOn (osSetExecutable_agree env hagree hb.covered.path)
  · obtain ⟨m, hpass, hmD, hbelow⟩ := hb.passes
    have hmS := hb.covered.path m (mem_reached_of_passes hpass)
    obtain ⟨hnone, hnone'⟩ := h.resolve_eq_none hmiss hpass hmS hmD hbelow
    unfold osSetExecutable
    rw [hnone, hnone']
    exact h

/-- A finished transfer does the same on both trees, which agree after a success. -/
theorem finishTransfer_ahead (m : CurlMsg) (ds : DataStruct)
    (h : Ahead newDirectory D S fs fs') (hb : StandsBelow D S fs.cwd base ds.target)
    (hgrant : D.Nonempty → ∀ q, m.storage.mkdirOk q = true) :
    (finishTransfer m ds fs').1 = (finishTransfer m ds fs).1 ∧
      Ahead newDirectory D S (finishTransfer m ds fs).2 (finishTransfer m ds fs').2 ∧
      ((finishTransfer m ds fs).1 = none →
        AgreeOn S (finishTransfer m ds fs).2 (finishTransfer m ds fs').2) := by
  by_cases ha : Arrived m ds
  · obtain ⟨herr, hahead, hagree⟩ := copyFile_ahead m.storage ds.fp h hb hgrant
    have hcwd := copyFile_cwd m.storage ds.fp ds.target fs
    rw [finishTransfer_of ha, finishTransfer_of ha]
    refine ⟨by simp only [herr], ?_, ?_⟩
    · simp only
      split
      · exact osSetExecutable_ahead m.storage hahead (hcwd ▸ hb)
      · exact hahead
    · intro hnone
      have hzero : (copyFile m.storage ds.fp ds.target fs).1 = 0 := by simpa using hnone
      simp only
      split
      · exact osSetExecutable_agree m.storage (hagree hzero) (hcwd ▸ hb.covered.path)
      · exact hagree hzero
  · obtain ⟨message, heq⟩ := finishTransfer_of_not ha
    rw [heq, heq]
    exact ⟨rfl, h, fun hnone => by simp at hnone⟩

end Ahead

end LibWfut
