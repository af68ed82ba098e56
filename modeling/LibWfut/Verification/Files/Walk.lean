import LibWfut.Model.Walk

/-! # What `os_dir_walk` lists

The walk lists what it finds below a path, as long as the working directory knows the
names it finds, and knows them to be of the same kind. -/

namespace LibWfut

open FileTree Machine

/-- A directory that can be listed. -/
def CanList (fs : FileSystem) (l : Location) : Prop :=
  (fs.node l).any (fun n => n.isDir && n.readable) = true

instance (fs : FileSystem) (l : Location) : Decidable (CanList fs l) :=
  inferInstanceAs (Decidable (_ = true))

theorem CanList.isDir {fs : FileSystem} {l : Location} (h : CanList fs l) : fs.isDir l = true :=
  FileSystem.isDir_of_any h

/-! ## What a walk comes to -/

/-- The entry is no reference to a directory, and not excluded. -/
structure Counts (excludes : List Bytes) (c : Name) : Prop where
  ne_dot : c ≠ dot
  ne_dotdot : c ≠ dotdot
  included : c ∉ excludes

/-- The walk of the directory at `path` comes to the name `c`. -/
def Comes (t : ListedTree) (excludes : List Bytes) (path : Bytes) (c : Name) : Prop :=
  ∃ m, opendirAt t.fs path = some m ∧ c ∈ t.readdir m ∧ Counts excludes c

/-- It takes that name for `n`. -/
structure Meets (t : ListedTree) (excludes : List Bytes) (path : Bytes) (c : Name) (n : Node) :
    Prop where
  comes : Comes t excludes path c
  stat : t.fs.lookup (cStr c) = some n

/-- The walk of `path` calls itself for `q`. -/
inductive Enters (t : ListedTree) (excludes : List Bytes) : Bytes → Bytes → Prop where
  | start (path) : Enters t excludes path path
  | sub {path c n q} (h : Meets t excludes path c n) (hn : n.isDir = true) :
      Enters t excludes (path ++ separator :: c) q → Enters t excludes path q

/-- The walk of `path` appends `f`. -/
inductive Walked (t : ListedTree) (excludes : List Bytes) : Bytes → Bytes → Prop where
  | file {path c n} (h : Meets t excludes path c n) (hn : n.isDir = false) :
      Walked t excludes path (path ++ separator :: c)
  | sub {path c n f} (h : Meets t excludes path c n) (hn : n.isDir = true) :
      Walked t excludes (path ++ separator :: c) f → Walked t excludes path f

/-- The walk of `path` appends `out`, and every name it comes to is known. -/
structure WalksTo (t : ListedTree) (excludes : List Bytes) (path : Bytes) (out : List Bytes) :
    Prop where
  mem : ∀ f, f ∈ out ↔ Walked t excludes path f
  known : ∀ q, Enters t excludes path q → ∀ c, Comes t excludes q c →
    ∃ n, t.fs.lookup (cStr c) = some n

/-- The loop over the entries `es` of the directory at `path` appends `out`. -/
structure LoopsTo (t : ListedTree) (excludes : List Bytes) (path : Bytes) (es : List Name)
    (out : List Bytes) : Prop where
  mem : ∀ f, f ∈ out ↔ ∃ c ∈ es, ∃ n, Meets t excludes path c n ∧
    ((n.isDir = false ∧ f = path ++ separator :: c) ∨
      (n.isDir = true ∧ Walked t excludes (path ++ separator :: c) f))
  known : ∀ c ∈ es, Counts excludes c → ∃ n, t.fs.lookup (cStr c) = some n ∧
    (n.isDir = true → ∀ q, Enters t excludes (path ++ separator :: c) q →
      ∀ d, Comes t excludes q d → ∃ k, t.fs.lookup (cStr d) = some k)

section Runs

variable {t : ListedTree} {excludes : List Bytes} {path : Bytes} {m : Location} {c : Name}

theorem opendirAt_eq_some_iff {fs : FileSystem} {l : Location} :
    opendirAt fs path = some l ↔ fs.resolve (cStr path) = some l ∧ CanList fs l :=
  Option.filter_eq_some_iff

theorem isDir_of_opendirAt {fs : FileSystem} {l : Location} (h : opendirAt fs path = some l) :
    fs.isDir l = true :=
  (opendirAt_eq_some_iff.mp h).2.isDir

/-- There is a directory to read exactly when `opendir` succeeds. -/
theorem isSome_opendirAt (fs : FileSystem) (path : Bytes) :
    (opendirAt fs path).isSome = opendir fs path := by
  rw [opendirAt, opendir, FileSystem.lookup]
  cases fs.resolve (cStr path) with
  | none => rfl
  | some l => simp [Option.filter_some, apply_ite]

/-- A name that counts is that of a node. -/
theorem node_of_readdir (hm : t.fs.isDir m = true) (hc : c ∈ t.readdir m)
    (hcount : Counts excludes c) : t.fs.node (m ++ [c]) ≠ none := by
  rcases (t.mem_readdir m hm c).mp hc with h | h | h
  · exact absurd h hcount.ne_dot
  · exact absurd h hcount.ne_dotdot
  · exact h

theorem counts_of_node (hnode : t.fs.node (m ++ [c]) ≠ none) (hc : c ∉ excludes) :
    Counts excludes c where
  ne_dot := (t.proper m c hnode).ne_dot
  ne_dotdot := (t.proper m c hnode).ne_dotdot
  included := hc

theorem Comes.proper (h : Comes t excludes path c) : Proper c := by
  obtain ⟨m, hm, hc, hcount⟩ := h
  exact t.proper m c (node_of_readdir (isDir_of_opendirAt hm) hc hcount)

/-! ## Single entries -/

section Entry

variable {walk : Bytes → List Bytes → Except Fault (List Bytes)} {files : List Bytes} {n : Node}

theorem counts_iff : Counts excludes c ↔
    c ≠ ascii "." ∧ c ≠ ascii ".." ∧ (!excludes.contains c) = true := by
  constructor
  · intro h
    exact ⟨h.ne_dot, h.ne_dotdot, by simpa using h.included⟩
  · rintro ⟨hdot, hdotdot, hexcl⟩
    exact ⟨hdot, hdotdot, by simpa using hexcl⟩

theorem walkEntry_of_not (h : ¬Counts excludes c) :
    walkEntry t excludes walk path files c = .ok files := by
  rw [walkEntry, if_neg fun hc => h (counts_iff.mpr hc)]

theorem walkEntry_of_unknown (h : Counts excludes c) (hstat : t.fs.lookup (cStr c) = none) :
    walkEntry t excludes walk path files c = .error .unassigned := by
  rw [walkEntry, if_pos (counts_iff.mp h), hstat]

theorem walkEntry_of_dir (h : Counts excludes c) (hstat : t.fs.lookup (cStr c) = some n)
    (hn : n.isDir = true) :
    walkEntry t excludes walk path files c = walk (path ++ separator :: c) files := by
  rw [walkEntry, if_pos (counts_iff.mp h), hstat]
  simp only [hn, ite_true]
  rw [List.append_assoc]
  rfl

theorem walkEntry_of_file (h : Counts excludes c) (hstat : t.fs.lookup (cStr c) = some n)
    (hn : n.isDir = false) :
    walkEntry t excludes walk path files c = .ok (files ++ [path ++ separator :: c]) := by
  rw [walkEntry, if_pos (counts_iff.mp h), hstat]
  simp only [hn]
  rw [List.append_assoc]
  rfl

end Entry

/-! ## Successful runs -/

theorem LoopsTo.cons {es : List Name} {out out' : List Bytes}
    (h : LoopsTo t excludes path [c] out) (h' : LoopsTo t excludes path es out') :
    LoopsTo t excludes path (c :: es) (out ++ out') := by
  constructor
  case mem =>
    intro f
    rw [List.mem_append, h.mem, h'.mem, List.exists_mem_cons_iff]
    simp
  case known =>
    intro d hd
    rcases List.mem_cons.mp hd with rfl | hd
    · exact h.known d (List.mem_cons_self ..)
    · exact h'.known d hd

theorem walkEntry_spec {fuel : ℕ} {files files' : List Bytes}
    (ih : ∀ {p files files'}, osDirWalk t excludes fuel p files = .ok files' →
      ∃ out, files' = files ++ out ∧ WalksTo t excludes p out)
    (hcomes : Counts excludes c → Comes t excludes path c)
    (h : walkEntry t excludes (osDirWalk t excludes fuel) path files c = .ok files') :
    ∃ out, files' = files ++ out ∧ LoopsTo t excludes path [c] out := by
  by_cases hcount : Counts excludes c
  · cases hstat : t.fs.lookup (cStr c) with
    | none =>
        rw [walkEntry_of_unknown hcount hstat] at h
        simp at h
    | some n =>
        have hmeets : ∀ n', Meets t excludes path c n' ↔ n' = n := by
          intro n'
          constructor
          · intro h'
            exact Option.some.inj (h'.stat.symm.trans hstat)
          · rintro rfl
            exact ⟨hcomes hcount, hstat⟩
        cases hn : n.isDir with
        | false =>
            rw [walkEntry_of_file hcount hstat hn, Except.ok.injEq] at h
            refine ⟨[path ++ separator :: c], h.symm, ?_, ?_⟩
            · intro f
              simp [hmeets, hn]
            · simp [hstat, hn]
        | true =>
            rw [walkEntry_of_dir hcount hstat hn] at h
            obtain ⟨out, rfl, hout⟩ := ih h
            refine ⟨out, rfl, ?_, ?_⟩
            · intro f
              simp [hmeets, hn, hout.mem]
            · intro d hd _
              obtain rfl : d = c := by simpa using hd
              exact ⟨n, hstat, fun _ => hout.known⟩
  · rw [walkEntry_of_not hcount, Except.ok.injEq] at h
    refine ⟨[], by rw [← h, List.append_nil], ?_, ?_⟩
    · intro f
      constructor
      · intro hf
        simp at hf
      · rintro ⟨d, hd, n, ⟨⟨-, -, -, h'⟩, -⟩, -⟩
        obtain rfl : d = c := by simpa using hd
        exact absurd h' hcount
    · intro d hd h'
      obtain rfl : d = c := by simpa using hd
      exact absurd h' hcount

theorem run_walkEntry_spec {fuel : ℕ} {files files' : List Bytes} {es : List Name}
    (ih : ∀ {p files files'}, osDirWalk t excludes fuel p files = .ok files' →
      ∃ out, files' = files ++ out ∧ WalksTo t excludes p out)
    (hcomes : ∀ c ∈ es, Counts excludes c → Comes t excludes path c)
    (h : run (walkEntry t excludes (osDirWalk t excludes fuel) path) files es = .ok files') :
    ∃ out, files' = files ++ out ∧ LoopsTo t excludes path es out := by
  induction es generalizing files with
  | nil =>
      rw [run_nil, Except.ok.injEq] at h
      exact ⟨[], by rw [← h, List.append_nil], by simp, by simp⟩
  | cons c es ihes =>
      obtain ⟨mid, hone, hrest⟩ := run_cons_eq_ok _ h
      obtain ⟨out, rfl, hloop⟩ := walkEntry_spec ih (hcomes c (List.mem_cons_self ..)) hone
      obtain ⟨out', rfl, hloop'⟩ := ihes (fun d hd => hcomes d (List.mem_cons_of_mem _ hd)) hrest
      exact ⟨out ++ out', by rw [List.append_assoc], hloop.cons hloop'⟩

theorem Meets.mem_readdir {n : Node} (h : Meets t excludes path c n)
    (hm : opendirAt t.fs path = some m) : c ∈ t.readdir m := by
  obtain ⟨m', hm', hc, -⟩ := h.comes
  rw [hm, Option.some.injEq] at hm'
  exact hm' ▸ hc

/-- Without a directory to read nothing is appended. -/
theorem walksTo_nil (hm : opendirAt t.fs path = none) : WalksTo t excludes path [] := by
  have hnone : ∀ c, ¬Comes t excludes path c := by
    rintro c ⟨m, hm', -⟩
    rw [hm] at hm'
    simp at hm'
  constructor
  case mem =>
    intro f
    constructor
    · intro hf
      simp at hf
    · intro hf
      cases hf with
      | file hc _ => exact absurd hc.comes (hnone _)
      | sub hc _ _ => exact absurd hc.comes (hnone _)
  case known =>
    intro q hq c hc
    cases hq with
    | start => exact absurd hc (hnone c)
    | sub hc' _ _ => exact absurd hc'.comes (hnone _)

theorem LoopsTo.walksTo {out : List Bytes} (hm : opendirAt t.fs path = some m)
    (h : LoopsTo t excludes path (t.readdir m) out) : WalksTo t excludes path out := by
  constructor
  case mem =>
    intro f
    rw [h.mem]
    constructor
    · rintro ⟨c, -, n, hmeets, ⟨hn, rfl⟩ | ⟨hn, hf⟩⟩
      · exact .file hmeets hn
      · exact .sub hmeets hn hf
    · intro hf
      cases hf with
      | file hmeets hn => exact ⟨_, hmeets.mem_readdir hm, _, hmeets, .inl ⟨hn, rfl⟩⟩
      | sub hmeets hn hf => exact ⟨_, hmeets.mem_readdir hm, _, hmeets, .inr ⟨hn, hf⟩⟩
  case known =>
    intro q hq d hd
    cases hq with
    | start =>
        obtain ⟨m', hm', hmem, hcount⟩ := hd
        rw [hm, Option.some.injEq] at hm'
        obtain ⟨n, hn, -⟩ := h.known d (hm' ▸ hmem) hcount
        exact ⟨n, hn⟩
    | sub hmeets hn hq =>
        obtain ⟨-, -, -, hcount⟩ := hmeets.comes
        obtain ⟨n, hstat, hsub⟩ := h.known _ (hmeets.mem_readdir hm) hcount
        have heq := Option.some.inj (hstat.symm.trans hmeets.stat)
        exact hsub (heq ▸ hn) q hq d hd

/-- What a walk that ends appends, by induction on the fuel. -/
theorem osDirWalk_spec {fuel : ℕ} {files files' : List Bytes}
    (h : osDirWalk t excludes fuel path files = .ok files') :
    ∃ out, files' = files ++ out ∧ WalksTo t excludes path out := by
  induction fuel generalizing path files files' with
  | zero => simp [osDirWalk] at h
  | succ fuel ih =>
      rw [osDirWalk] at h
      cases hm : opendirAt t.fs path with
      | none =>
          rw [hm, Except.ok.injEq] at h
          exact ⟨[], by rw [← h, List.append_nil], walksTo_nil hm⟩
      | some m =>
          rw [hm] at h
          obtain ⟨out, heq, hloop⟩ :=
            run_walkEntry_spec ih (fun c hc hcount => ⟨m, hm, hc, hcount⟩) h
          exact ⟨out, heq, hloop.walksTo hm⟩

/-- The walk of a directory ends only if the walk of each directory in it does. -/
theorem osDirWalk_sub {fuel : ℕ} {files files' : List Bytes} {n : Node}
    (h : osDirWalk t excludes (fuel + 1) path files = .ok files')
    (hmeets : Meets t excludes path c n) (hn : n.isDir = true) :
    ∃ files₁ files₂, osDirWalk t excludes fuel (path ++ separator :: c) files₁ = .ok files₂ := by
  obtain ⟨m, hm, hc, hcount⟩ := hmeets.comes
  rw [osDirWalk, hm] at h
  obtain ⟨files₁, files₂, hone⟩ := run_mem_ok _ h hc
  rw [walkEntry_of_dir hcount hmeets.stat hn] at hone
  exact ⟨files₁, files₂, hone⟩

/-- A path that ends early comes to the same directory again and again. -/
theorem not_isDir_of_terminated {fuel : ℕ} {files files' : List Bytes} (hpath : 0 ∈ path)
    (h : osDirWalk t excludes fuel path files = .ok files') {n : Node}
    (hmeets : Meets t excludes path c n) : n.isDir = false := by
  by_contra hn
  rw [Bool.not_eq_false] at hn
  induction fuel generalizing path files files' with
  | zero => simp [osDirWalk] at h
  | succ fuel ih =>
      obtain ⟨files₁, files₂, hsub⟩ := osDirWalk_sub h hmeets hn
      obtain ⟨⟨m, hm, hc, hcount⟩, hstat⟩ := hmeets
      have hopen : opendirAt t.fs (path ++ separator :: c) = some m := by
        rw [← hm, opendirAt, opendirAt, cStr_append_of_mem hpath]
      exact ih (List.mem_append_left _ hpath) hsub ⟨⟨m, hopen, hc, hcount⟩, hstat⟩

end Runs

end LibWfut
