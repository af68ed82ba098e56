import LibWfut.Verification.Files.Walk

/-! # The promise of `os_dir_walk`

The files below a path are listed when the walk takes every name for what it is. It asks
for a name in the working directory, where there may be something else by that name, or
nothing. -/

namespace LibWfut

open FileTree Machine

/-! ## The promise -/

/-- The names lead from the directory at `l` to a regular file, and none is excluded. -/
structure ToList (t : ListedTree) (excludes : List Bytes) (l : Location) (cs : List Name) :
    Prop where
  ne_nil : cs ≠ []
  file : ∃ n, t.fs.node (l ++ cs) = some n ∧ n.isDir = false
  included : ∀ c ∈ cs, c ∉ excludes

/-- The paths of the files below the directory at `l`, under the text `path`, each once. -/
structure Lists (t : ListedTree) (excludes : List Bytes) (l : Location) (path : Bytes)
    (out : List Bytes) : Prop where
  nodup : out.Nodup
  mem : ∀ f, f ∈ out ↔ ∃ cs, ToList t excludes l cs ∧ f = pathBelow path cs

/-- The walk ends, and appends the paths of the files below the path. -/
def WalksExactly (t : ListedTree) (excludes : List Bytes) (path : Bytes) (files : List Bytes) :
    Prop :=
  ∃ fuel out, osDirWalk t excludes fuel path files = .ok (files ++ out) ∧ out.Nodup ∧
    ∀ f, f ∈ out ↔
      ∃ l cs, t.fs.resolve (cStr path) = some l ∧ ToList t excludes l cs ∧ f = pathBelow path cs

/-- The directories that can be reached from one that is listed. -/
inductive Reached (t : ListedTree) (excludes : List Bytes) (l : Location) : Location → Prop where
  | start (h : t.fs.isDir l = true) : Reached t excludes l l
  | enter {m c} (h : Reached t excludes l m) (hm : CanList t.fs m) (hc : c ∉ excludes)
      (hdir : t.fs.isDir (m ++ [c]) = true) : Reached t excludes l (m ++ [c])

/-- From the working directory the name leads to something of the kind of what it names in
the directory at `m`. -/
def SameKind (t : ListedTree) (m : Location) (c : Name) : Prop :=
  ∃ n k, t.fs.lookup (cStr c) = some n ∧ t.fs.node (m ++ [c]) = some k ∧ n.isDir = k.isDir

/-- The directories below the path can be walked from the working directory. -/
structure Walkable (t : ListedTree) (excludes : List Bytes) (path : Bytes) : Prop where
  named : ∀ l m c, t.fs.resolve (cStr path) = some l → Reached t excludes l m →
    CanList t.fs m → t.fs.node (m ++ [c]) ≠ none → c ∉ excludes → SameKind t m c
  listable : ∀ l m, t.fs.resolve (cStr path) = some l → Reached t excludes l m →
    ¬CanList t.fs m → ∀ cs, ¬ToList t excludes m cs
  terminated : 0 ∈ path → ∀ l c, t.fs.resolve (cStr path) = some l → CanList t.fs l →
    t.fs.isDir (l ++ [c]) = true → c ∈ excludes

section Promise

variable {t : ListedTree} {excludes : List Bytes} {path : Bytes} {l m : Location} {c : Name}

theorem opendirAt_of_canList {fs : FileSystem} (hr : fs.resolve (cStr path) = some m)
    (h : CanList fs m) : opendirAt fs path = some m :=
  opendirAt_eq_some_iff.mpr ⟨hr, h⟩

theorem opendirAt_of_not {fs : FileSystem} (hr : fs.resolve (cStr path) = some m)
    (h : ¬CanList fs m) : opendirAt fs path = none := by
  rw [opendirAt, hr]
  exact Option.filter_eq_none_iff.mpr fun l hl hc => h (Option.some.inj hl ▸ hc)

theorem Reached.isDir (h : Reached t excludes l m) : t.fs.isDir m = true := by
  cases h with
  | start h => exact h
  | enter _ _ _ hdir => exact hdir

theorem node_of_isDir {fs : FileSystem} (h : fs.isDir m = true) : fs.node m ≠ none := by
  intro hnone
  rw [FileSystem.isDir, hnone] at h
  simp at h

theorem ToList.node {cs : List Name} (h : ToList t excludes m cs) :
    t.fs.node (m ++ cs) ≠ none := by
  obtain ⟨n, hn, -⟩ := h.file
  rw [hn]
  simp

/-- A file below a directory is one of its files, or below one of its directories. -/
theorem toList_cons_iff {cs : List Name} :
    ToList t excludes m (c :: cs) ↔ c ∉ excludes ∧
      ((cs = [] ∧ ∃ n, t.fs.node (m ++ [c]) = some n ∧ n.isDir = false) ∨
        ToList t excludes (m ++ [c]) cs) := by
  have happend : m ++ c :: cs = m ++ [c] ++ cs := by simp
  constructor
  · intro h
    refine ⟨h.included c (List.mem_cons_self ..), ?_⟩
    by_cases hnil : cs = []
    · subst hnil
      exact .inl ⟨rfl, h.file⟩
    · exact .inr ⟨hnil, happend ▸ h.file, fun d hd => h.included d (List.mem_cons_of_mem _ hd)⟩
  · rintro ⟨hc, ⟨rfl, hfile⟩ | h⟩
    · exact ⟨by simp, hfile, by simpa using hc⟩
    · refine ⟨by simp, happend ▸ h.file, ?_⟩
      intro d hd
      rcases List.mem_cons.mp hd with rfl | hd
      · exact hc
      · exact h.included d hd

/-! ## A walk where every name is taken for what it is -/

/-- The paths of the files that the entries `es` of the directory at `m` lead to. -/
structure ListsOf (t : ListedTree) (excludes : List Bytes) (m : Location) (path : Bytes)
    (es : List Name) (out : List Bytes) : Prop where
  nodup : out.Nodup
  mem : ∀ f, f ∈ out ↔ ∃ c ∈ es, ∃ cs, ToList t excludes m (c :: cs) ∧ f = pathBelow path (c :: cs)

theorem ListsOf.cons {es : List Name} {out out' : List Bytes} (hc : c ∉ es)
    (h : ListsOf t excludes m path [c] out) (h' : ListsOf t excludes m path es out') :
    ListsOf t excludes m path (c :: es) (out ++ out') := by
  constructor
  case nodup =>
    refine List.nodup_append.mpr ⟨h.nodup, h'.nodup, ?_⟩
    rintro f hf _ hf' rfl
    obtain ⟨a, ha, cs, hcs, rfl⟩ := (h.mem f).mp hf
    obtain ⟨b, hb, ds, hds, heq⟩ := (h'.mem _).mp hf'
    obtain rfl : a = c := by simpa using ha
    have hsame := eq_of_pathBelow (fun x hx => (t.proper_of_mem hcs.node hx).separator)
      (fun x hx => (t.proper_of_mem hds.node hx).separator) heq
    rw [List.cons.injEq] at hsame
    exact hc (hsame.1 ▸ hb)
  case mem =>
    intro f
    rw [List.mem_append, h.mem, h'.mem, List.exists_mem_cons_iff]
    simp

theorem ListsOf.lists {out : List Bytes} (hm : t.fs.isDir m = true)
    (h : ListsOf t excludes m path (t.readdir m) out) : Lists t excludes m path out := by
  refine ⟨h.nodup, fun f => ?_⟩
  rw [h.mem]
  constructor
  · rintro ⟨c, -, cs, hcs, rfl⟩
    exact ⟨c :: cs, hcs, rfl⟩
  · rintro ⟨cs, hcs, rfl⟩
    cases cs with
    | nil => exact absurd rfl hcs.ne_nil
    | cons c cs =>
        refine ⟨c, (t.mem_readdir m hm c).mpr (.inr (.inr ?_)), cs, hcs, rfl⟩
        intro hnone
        exact hcs.node (FileSystem.node_eq_none_of_prefix hnone ⟨cs, by simp⟩)

/-- An entry that is taken for what it is leads to its own files. -/
theorem walkEntry_lists {fuel : ℕ} (hm : t.fs.isDir m = true) (hc : c ∈ t.readdir m)
    (hkind : t.fs.node (m ++ [c]) ≠ none → c ∉ excludes → SameKind t m c)
    (hsub : t.fs.isDir (m ++ [c]) = true → c ∉ excludes → ∀ files, ∃ out,
      osDirWalk t excludes fuel (path ++ separator :: c) files = .ok (files ++ out) ∧
        Lists t excludes (m ++ [c]) (path ++ separator :: c) out) (files : List Bytes) :
    ∃ out, walkEntry t excludes (osDirWalk t excludes fuel) path files c = .ok (files ++ out) ∧
      ListsOf t excludes m path [c] out := by
  by_cases hcount : Counts excludes c
  · have hnode := node_of_readdir hm hc hcount
    obtain ⟨n, k, hstat, hk, hsame⟩ := hkind hnode hcount.included
    cases hn : n.isDir with
    | true =>
        have hdir : t.fs.isDir (m ++ [c]) = true := by
          rw [FileSystem.isDir, hk, Option.any_some, ← hsame, hn]
        obtain ⟨out, hwalk, hlists⟩ := hsub hdir hcount.included files
        refine ⟨out, by rw [walkEntry_of_dir hcount hstat hn, hwalk], hlists.nodup, ?_⟩
        intro f
        rw [hlists.mem]
        simp only [List.mem_singleton, exists_eq_left, toList_cons_iff, pathBelow_cons]
        refine exists_congr fun cs => and_congr_left fun _ => ?_
        have hnot : ¬∃ n, t.fs.node (m ++ [c]) = some n ∧ n.isDir = false := by
          rintro ⟨n', hn', hfile⟩
          rw [hk, Option.some.injEq] at hn'
          rw [← hn', ← hsame, hn] at hfile
          simp at hfile
        simp [hcount.included, hnot]
    | false =>
        refine ⟨[path ++ separator :: c], walkEntry_of_file hcount hstat hn, by simp, ?_⟩
        intro f
        have hfile : ∀ cs, ToList t excludes m (c :: cs) ↔ cs = [] := by
          intro cs
          have hnot : ¬ToList t excludes (m ++ [c]) cs := by
            intro h
            refine h.ne_nil (FileSystem.eq_nil_of_regular ?_ h.node)
            rw [FileSystem.isDir, hk, Option.any_some, ← hsame, hn]
          simp [toList_cons_iff, hcount.included, hnot, hk, ← hsame, hn]
        simp [hfile, pathBelow]
  · refine ⟨[], by rw [walkEntry_of_not hcount, List.append_nil], by simp, ?_⟩
    intro f
    constructor
    · intro hf
      simp at hf
    · rintro ⟨d, hd, cs, hcs, -⟩
      obtain rfl : d = c := by simpa using hd
      have hproper := t.proper_of_mem hcs.node (List.mem_cons_self ..)
      exact absurd ⟨hproper.ne_dot, hproper.ne_dotdot,
        hcs.included d (List.mem_cons_self ..)⟩ hcount

theorem run_walkEntry_lists {fuel : ℕ} {es : List Name} (hm : t.fs.isDir m = true)
    (hes : ∀ c ∈ es, c ∈ t.readdir m) (hnodup : es.Nodup)
    (hkind : ∀ c, t.fs.node (m ++ [c]) ≠ none → c ∉ excludes → SameKind t m c)
    (hsub : ∀ c, t.fs.isDir (m ++ [c]) = true → c ∉ excludes → ∀ files, ∃ out,
      osDirWalk t excludes fuel (path ++ separator :: c) files = .ok (files ++ out) ∧
        Lists t excludes (m ++ [c]) (path ++ separator :: c) out) (files : List Bytes) :
    ∃ out, run (walkEntry t excludes (osDirWalk t excludes fuel) path) files es =
        .ok (files ++ out) ∧ ListsOf t excludes m path es out := by
  induction es generalizing files with
  | nil => exact ⟨[], by simp, by simp, by simp⟩
  | cons c es ih =>
      rw [List.nodup_cons] at hnodup
      obtain ⟨out, hone, hlists⟩ :=
        walkEntry_lists hm (hes c (List.mem_cons_self ..)) (hkind c) (hsub c) files
      obtain ⟨out', hrest, hlists'⟩ :=
        ih (fun d hd => hes d (List.mem_cons_of_mem _ hd)) hnodup.2 (files ++ out)
      refine ⟨out ++ out', ?_, hlists.cons hnodup.1 hlists'⟩
      rw [run_cons_of_ok _ hone, hrest, List.append_assoc]

/-- One call, given what its recursive calls do. -/
theorem osDirWalk_lists_step {fuel : ℕ} (hr : t.fs.resolve (cStr path) = some m)
    (hlistable : ¬CanList t.fs m → ∀ cs, ¬ToList t excludes m cs)
    (hkind : CanList t.fs m → ∀ c, t.fs.node (m ++ [c]) ≠ none → c ∉ excludes → SameKind t m c)
    (hsub : CanList t.fs m → ∀ c, t.fs.isDir (m ++ [c]) = true → c ∉ excludes → ∀ files, ∃ out,
      osDirWalk t excludes fuel (path ++ separator :: c) files = .ok (files ++ out) ∧
        Lists t excludes (m ++ [c]) (path ++ separator :: c) out) (files : List Bytes) :
    ∃ out, osDirWalk t excludes (fuel + 1) path files = .ok (files ++ out) ∧
      Lists t excludes m path out := by
  by_cases hcan : CanList t.fs m
  · obtain ⟨out, hrun, hlists⟩ := run_walkEntry_lists hcan.isDir (fun c hc => hc) (t.nodup m)
      (hkind hcan) (hsub hcan) files
    refine ⟨out, ?_, hlists.lists hcan.isDir⟩
    rw [osDirWalk, opendirAt_of_canList hr hcan]
    exact hrun
  · refine ⟨[], ?_, by simp, ?_⟩
    · rw [osDirWalk, opendirAt_of_not hr hcan, List.append_nil]
    · simp [hlistable hcan]

/-- By induction on the fuel, which has to suffice for the depth of the tree. -/
theorem Walkable.osDirWalk (h : Walkable t excludes path)
    (hl : t.fs.resolve (cStr path) = some l) {depth fuel : ℕ}
    (hdepth : ∀ l, t.fs.node l ≠ none → l.length ≤ depth) {p : Bytes} (hp : 0 ∉ p)
    (hr : t.fs.resolve p = some m) (hm : Reached t excludes l m)
    (hfuel : depth < m.length + fuel) (files : List Bytes) :
    ∃ out, LibWfut.osDirWalk t excludes fuel p files = .ok (files ++ out) ∧
      Lists t excludes m p out := by
  induction fuel generalizing m p files with
  | zero =>
      have hlength := hdepth m (node_of_isDir hm.isDir)
      omega
  | succ fuel ih =>
      have hself : cStr p = p := cStr_eq_self_iff.mpr hp
      refine osDirWalk_lists_step (hself.symm ▸ hr) (h.listable l m hl hm)
        (fun hcan c => h.named l m c hl hm hcan) ?_ files
      intro hcan c hdir hc files
      have hproper := t.proper m c (node_of_isDir hdir)
      have hchild : 0 ∉ p ++ separator :: c := by
        simpa [hp, separator] using hproper.terminator
      refine ih hchild (FileSystem.resolve_child hr hm.isDir hproper) (.enter hm hcan hc hdir) ?_
        files
      simp only [List.length_append, List.length_singleton]
      omega

theorem Walkable.walksExactly (h : Walkable t excludes path) (files : List Bytes) :
    WalksExactly t excludes path files := by
  obtain ⟨depth, hdepth⟩ := t.finite
  cases hl : t.fs.resolve (cStr path) with
  | none =>
      refine ⟨1, [], ?_, by simp, by simp [hl]⟩
      simp [LibWfut.osDirWalk, opendirAt, hl]
  | some l =>
      have hroot : ∃ fuel out, LibWfut.osDirWalk t excludes fuel path files =
          .ok (files ++ out) ∧ Lists t excludes l path out := by
        by_cases hdir : t.fs.isDir l = true
        · by_cases hpath : 0 ∈ path
          · have hnone : CanList t.fs l → ∀ c, t.fs.isDir (l ++ [c]) = true → c ∉ excludes →
                False :=
              fun hcan c hdir hc => hc (h.terminated hpath l c hl hcan hdir)
            exact ⟨1, osDirWalk_lists_step hl (h.listable l l hl (.start hdir))
              (fun hcan c => h.named l l c hl (.start hdir) hcan)
              (fun hcan c hdir hc => (hnone hcan c hdir hc).elim) files⟩
          · have hself : cStr path = path := cStr_eq_self_iff.mpr hpath
            exact ⟨depth + 1, h.osDirWalk hl hdepth hpath (hself ▸ hl) (.start hdir) (by omega)
              files⟩
        · refine ⟨1, [], ?_, by simp, ?_⟩
          · have hcan : ¬CanList t.fs l := fun hcan => hdir hcan.isDir
            rw [LibWfut.osDirWalk, opendirAt_of_not hl hcan, List.append_nil]
          · intro f
            have hnone : ∀ cs, ¬ToList t excludes l cs := fun cs hcs =>
              hcs.ne_nil (FileSystem.eq_nil_of_regular (by simpa using hdir) hcs.node)
            simp [hnone]
      obtain ⟨fuel, out, hwalk, hlists⟩ := hroot
      refine ⟨fuel, out, hwalk, hlists.nodup, fun f => ?_⟩
      rw [hlists.mem]
      simp [hl]

/-! ## A walk that keeps the promise -/

theorem Enters.trans {p q r : Bytes} (h : Enters t excludes p q) (h' : Enters t excludes q r) :
    Enters t excludes p r := by
  induction h with
  | start => exact h'
  | sub hmeets hn _ ih => exact .sub hmeets hn (ih h')

theorem Enters.walked {p q : Bytes} {n : Node} (h : Enters t excludes p q)
    (hmeets : Meets t excludes q c n) (hn : n.isDir = false) :
    Walked t excludes p (q ++ separator :: c) := by
  induction h with
  | start => exact .file hmeets hn
  | sub hsub hdir _ ih => exact .sub hsub hdir (ih hmeets)

/-- The last name of what is appended was taken for that of a regular file. -/
theorem Walked.last {p f : Bytes} (h : Walked t excludes p f) :
    ∃ q c n, f = q ++ separator :: c ∧ Meets t excludes q c n ∧ n.isDir = false := by
  induction h with
  | file hmeets hn => exact ⟨_, _, _, rfl, hmeets, hn⟩
  | sub _ _ _ ih => exact ih

theorem Walked.names {p f : Bytes} (h : Walked t excludes p f) :
    ∃ cs, cs ≠ [] ∧ (∀ c ∈ cs, separator ∉ c) ∧ f = pathBelow p cs := by
  induction h with
  | file hmeets hn =>
      rename_i p c n
      refine ⟨[c], by simp, ?_, by simp [pathBelow]⟩
      simpa using hmeets.comes.proper.separator
  | sub hmeets hn _ ih =>
      rename_i p c n f _
      obtain ⟨cs, -, hcs, rfl⟩ := ih
      exact ⟨c :: cs, by simp, List.forall_mem_cons.mpr ⟨hmeets.comes.proper.separator, hcs⟩,
        (pathBelow_cons p c cs).symm⟩

/-- What is appended lies below directories that could be opened. -/
theorem Walked.opened {p f : Bytes} (h : Walked t excludes p f) {ds cs : List Name}
    (hf : f = pathBelow p (ds ++ cs)) (hcs : cs ≠ []) (hnames : ∀ c ∈ ds ++ cs, separator ∉ c) :
    opendirAt t.fs (pathBelow p ds) ≠ none := by
  have hopen : ∀ {p c n}, Meets t excludes p c n → opendirAt t.fs p ≠ none := by
    rintro p c n ⟨⟨m, hm, -⟩, -⟩
    rw [hm]
    simp
  induction h generalizing ds with
  | file hmeets hn =>
      rename_i p c n
      have hone : pathBelow p [c] = pathBelow p (ds ++ cs) := by
        rw [← hf, pathBelow_cons, pathBelow_nil]
      have hsame := eq_of_pathBelow (by simpa using hmeets.comes.proper.separator) hnames hone
      cases ds with
      | nil => simpa using hopen hmeets
      | cons d ds =>
          rw [List.cons_append, List.cons.injEq] at hsame
          exact absurd (List.append_eq_nil_iff.mp hsame.2.symm).2 hcs
  | sub hmeets hn hrest ih =>
      rename_i p c n f
      cases ds with
      | nil => simpa using hopen hmeets
      | cons d ds =>
          obtain ⟨es, -, hes, heq⟩ := hrest.names
          have hall : pathBelow p (c :: es) = pathBelow p (d :: ds ++ cs) := by
            rw [pathBelow_cons, ← heq, hf]
          have hsame := eq_of_pathBelow (by simpa using ⟨hmeets.comes.proper.separator, hes⟩)
            hnames hall
          rw [List.cons_append, List.cons.injEq] at hsame
          obtain ⟨rfl, -⟩ := hsame
          rw [pathBelow_cons]
          refine ih ?_ fun x hx => hnames x (List.mem_cons_of_mem _ hx)
          rw [hf, List.cons_append, pathBelow_cons]

/-- A walk of the path to `l` that ends and appends what it promises. -/
structure Exact (t : ListedTree) (excludes : List Bytes) (path : Bytes) (l : Location) :
    Prop where
  mem : ∀ f, Walked t excludes path f ↔ ∃ cs, ToList t excludes l cs ∧ f = pathBelow path cs
  known : ∀ q, Enters t excludes path q → ∀ c, Comes t excludes q c →
    ∃ n, t.fs.lookup (cStr c) = some n

/-- The walk comes to the directory that the names lead to. -/
structure ComesTo (t : ListedTree) (excludes : List Bytes) (path : Bytes) (l : Location)
    (ds : List Name) : Prop where
  enters : Enters t excludes path (pathBelow path ds)
  resolve : t.fs.resolve (cStr (pathBelow path ds)) = some (l ++ ds)
  included : ∀ d ∈ ds, d ∉ excludes
  proper : ∀ d ∈ ds, Proper d

theorem eq_of_append_separator {p q a b : Bytes} (ha : separator ∉ a) (hb : separator ∉ b)
    (h : p ++ separator :: a = q ++ separator :: b) : a = b := by
  have hsplit := congrArg (List.splitOn separator) h
  rw [List.splitOn_append_cons_self, List.splitOn_append_cons_self,
    List.splitOn_eq_singleton ha, List.splitOn_eq_singleton hb] at hsplit
  simpa using (List.append_inj' hsplit rfl).2

theorem WalksExactly.exact {files : List Bytes} (h : WalksExactly t excludes path files)
    (hl : t.fs.resolve (cStr path) = some l) : Exact t excludes path l := by
  obtain ⟨fuel, out, hwalk, -, hmem⟩ := h
  obtain ⟨out', heq, hwalks⟩ := osDirWalk_spec hwalk
  have hsame : out = out' := List.append_cancel_left heq
  constructor
  case mem =>
    intro f
    rw [← hwalks.mem, ← hsame, hmem]
    simp [hl]
  case known => exact hwalks.known

/-- Otherwise a file would be left out, or a directory appended. -/
theorem Exact.sameKind (h : Exact t excludes path l) {ds : List Name}
    (hcomes : ComesTo t excludes path l ds) (hcan : CanList t.fs (l ++ ds))
    (hnode : t.fs.node (l ++ ds ++ [c]) ≠ none) (hc : c ∉ excludes) :
    SameKind t (l ++ ds) c := by
  have hproper := t.proper _ c hnode
  have hentry : Comes t excludes (pathBelow path ds) c :=
    ⟨l ++ ds, opendirAt_of_canList hcomes.resolve hcan,
      (t.mem_readdir _ hcan.isDir c).mpr (.inr (.inr hnode)), counts_of_node hnode hc⟩
  obtain ⟨n, hstat⟩ := h.known _ hcomes.enters c hentry
  obtain ⟨k, hk⟩ := Option.ne_none_iff_exists'.mp hnode
  have hmeets : Meets t excludes (pathBelow path ds) c n := ⟨hentry, hstat⟩
  have hnames : ∀ d ∈ ds ++ [c], separator ∉ d :=
    List.forall_mem_append.mpr ⟨fun d hd => (hcomes.proper d hd).separator,
      List.forall_mem_singleton.mpr hproper.separator⟩
  refine ⟨n, k, hstat, hk, ?_⟩
  cases hn : n.isDir with
  | false =>
      obtain ⟨cs, hcs, heq⟩ := (h.mem _).mp (hcomes.enters.walked hmeets hn)
      rw [← pathBelow_concat] at heq
      have hsame := eq_of_pathBelow hnames
        (fun x hx => (t.proper_of_mem hcs.node hx).separator) heq
      obtain ⟨k', hk', hfile⟩ := hcs.file
      rw [← hsame, ← List.append_assoc, hk, Option.some.injEq] at hk'
      rw [hk', hfile]
  | true =>
      cases hdir : k.isDir with
      | true => rfl
      | false =>
          have hlist : ToList t excludes l (ds ++ [c]) :=
            ⟨by simp, ⟨k, by rw [← List.append_assoc, hk], hdir⟩,
              List.forall_mem_append.mpr
                ⟨hcomes.included, List.forall_mem_singleton.mpr hc⟩⟩
          obtain ⟨q, d, n', heq, hmeets', hn'⟩ := ((h.mem _).mpr ⟨_, hlist, rfl⟩).last
          rw [pathBelow_concat] at heq
          have hsame := eq_of_append_separator hproper.separator
            hmeets'.comes.proper.separator heq
          rw [← hsame] at hmeets'
          rw [Option.some.inj (hstat.symm.trans hmeets'.stat), hn'] at hn
          simp at hn

theorem cStr_pathBelow {ds : List Name} (hpath : 0 ∉ path) (hds : ∀ d ∈ ds, Proper d) :
    cStr (pathBelow path ds) = pathBelow path ds := by
  rw [cStr_eq_self_iff, pathBelow, List.mem_append, not_or]
  refine ⟨hpath, fun hmem => ?_⟩
  obtain ⟨d, hd, hzero⟩ := List.mem_flatMap.mp hmem
  exact (hds d hd).terminator (by simpa [separator] using hzero)

theorem comesTo_nil (hl : t.fs.resolve (cStr path) = some l) :
    ComesTo t excludes path l [] where
  enters := by simpa using Enters.start path
  resolve := by simpa using hl
  included := by simp
  proper := by simp

/-- A path that ends early stands for a directory without directories. -/
theorem WalksExactly.terminated {files : List Bytes} (h : WalksExactly t excludes path files)
    (hpath : 0 ∈ path) (hl : t.fs.resolve (cStr path) = some l) (hcan : CanList t.fs l)
    (hdir : t.fs.isDir (l ++ [c]) = true) : c ∈ excludes := by
  by_contra hc
  have hnode := node_of_isDir hdir
  have hsame : SameKind t (l ++ []) c :=
    (h.exact hl).sameKind (comesTo_nil hl) (by simpa using hcan) (by simpa using hnode) hc
  rw [List.append_nil] at hsame
  obtain ⟨n, k, hstat, hk, hkind⟩ := hsame
  obtain ⟨fuel, out, hwalk, -⟩ := h
  have hmeets : Meets t excludes path c n :=
    ⟨⟨l, opendirAt_of_canList hl hcan, (t.mem_readdir l hcan.isDir c).mpr (.inr (.inr hnode)),
      counts_of_node hnode hc⟩, hstat⟩
  have hfile := not_isDir_of_terminated hpath hwalk hmeets
  rw [FileSystem.isDir, hk, Option.any_some, ← hkind, hfile] at hdir
  simp at hdir

/-- The walk comes to every directory that can be reached. -/
theorem WalksExactly.comesTo {files : List Bytes} (h : WalksExactly t excludes path files)
    (hl : t.fs.resolve (cStr path) = some l) (hm : Reached t excludes l m) :
    ∃ ds, m = l ++ ds ∧ (0 ∈ path → ds = []) ∧ ComesTo t excludes path l ds := by
  induction hm with
  | start => exact ⟨[], by simp, fun _ => rfl, comesTo_nil hl⟩
  | enter hm hcan hc hdir ih =>
      rename_i m c
      obtain ⟨ds, rfl, hnil, hcomes⟩ := ih
      have hpath : 0 ∉ path := by
        intro hpath
        have hds := hnil hpath
        rw [hds, List.append_nil] at hcan hdir
        exact hc (h.terminated hpath hl hcan hdir)
      have hnode := node_of_isDir hdir
      have hproper := t.proper _ c hnode
      obtain ⟨n, k, hstat, hk, hkind⟩ := (h.exact hl).sameKind hcomes hcan hnode hc
      have hn : n.isDir = true := by
        rw [hkind]
        rwa [FileSystem.isDir, hk] at hdir
      have hmeets : Meets t excludes (pathBelow path ds) c n :=
        ⟨⟨_, opendirAt_of_canList hcomes.resolve hcan,
          (t.mem_readdir _ hcan.isDir c).mpr (.inr (.inr hnode)), counts_of_node hnode hc⟩, hstat⟩
      have hproper' : ∀ d ∈ ds ++ [c], Proper d :=
        List.forall_mem_append.mpr ⟨hcomes.proper, List.forall_mem_singleton.mpr hproper⟩
      refine ⟨ds ++ [c], by simp, fun h0 => absurd h0 hpath, ?_⟩
      constructor
      case enters =>
        rw [pathBelow_concat]
        exact hcomes.enters.trans (.sub hmeets hn (.start _))
      case resolve =>
        have hself := cStr_pathBelow hpath hcomes.proper
        have hchild := FileSystem.resolve_child hcomes.resolve hm.isDir hproper
        rwa [hself, List.append_assoc, ← pathBelow_concat, ← cStr_pathBelow hpath hproper']
          at hchild
      case included =>
        exact List.forall_mem_append.mpr ⟨hcomes.included, List.forall_mem_singleton.mpr hc⟩
      case proper => exact hproper'

theorem WalksExactly.walkable {files : List Bytes} (h : WalksExactly t excludes path files) :
    Walkable t excludes path := by
  constructor
  case named =>
    intro l m c hl hm hcan hnode hc
    obtain ⟨ds, rfl, -, hcomes⟩ := h.comesTo hl hm
    exact (h.exact hl).sameKind hcomes hcan hnode hc
  case listable =>
    intro l m hl hm hcan cs hcs
    obtain ⟨ds, rfl, -, hcomes⟩ := h.comesTo hl hm
    have hfile : ∃ n, t.fs.node (l ++ (ds ++ cs)) = some n ∧ n.isDir = false := by
      rw [← List.append_assoc]
      exact hcs.file
    have hall : ToList t excludes l (ds ++ cs) :=
      ⟨by simp [hcs.ne_nil], hfile, List.forall_mem_append.mpr ⟨hcomes.included, hcs.included⟩⟩
    have hwalked := ((h.exact hl).mem _).mpr ⟨_, hall, rfl⟩
    exact hwalked.opened rfl hcs.ne_nil (fun x hx => (t.proper_of_mem hall.node hx).separator)
      (opendirAt_of_not hcomes.resolve hcan)
  case terminated => exact fun hpath l c hl hcan hdir => h.terminated hpath hl hcan hdir

end Promise

/-- `os_dir_walk` lists exactly the files below a path exactly when, from the working
directory, each name it comes to leads to something of the right kind, nothing to be listed
is below a directory that cannot be, and a path that ends early has no directory to enter. -/
theorem os_dir_walk (t : ListedTree) (excludes : List Bytes) (path : Bytes)
    (files : List Bytes) : WalksExactly t excludes path files ↔ Walkable t excludes path :=
  ⟨WalksExactly.walkable, fun h => h.walksExactly files⟩

/-- A file `x` in a directory `d`, seen from the directory above. -/
def nestedFile : FileSystem :=
  (FileSystem.empty.create [ascii "d"] newDirectory).create [ascii "d", ascii "x"] (newFile {})

theorem node_nestedFile (l : Location) :
    nestedFile.node l =
      if l = [ascii "d", ascii "x"] then some (newFile {})
      else if l = [ascii "d"] then some newDirectory
      else if l = [] then some ⟨.directory, 0o755, true⟩
      else none := by
  have hdir : FileSystem.empty.Free [ascii "d"] := ⟨by decide, by decide, by decide⟩
  have hfile : (FileSystem.empty.create [ascii "d"] newDirectory).Free
      [ascii "d", ascii "x"] := ⟨by decide, by decide, by decide⟩
  rw [nestedFile, FileSystem.node_create hfile, FileSystem.node_create hdir]
  rfl

theorem nestedFile_cases {l : Location} (h : nestedFile.node l ≠ none) :
    l = [] ∨ l = [ascii "d"] ∨ l = [ascii "d", ascii "x"] := by
  rw [node_nestedFile] at h
  split at h
  · rename_i hl
    exact .inr (.inr hl)
  · split at h
    · rename_i hl
      exact .inr (.inl hl)
    · split at h
      · rename_i hl
        exact .inl hl
      · exact absurd rfl h

theorem proper_ascii : ∀ c ∈ [ascii "d", ascii "x"], Proper c := by
  intro c hc
  have hall : ∀ c ∈ [ascii "d", ascii "x"], c ≠ [] ∧ c ≠ dot ∧ c ≠ dotdot ∧
      separator ∉ c ∧ 0 ∉ c := by decide
  obtain ⟨hne, hdot, hdotdot, hsep, hzero⟩ := hall c hc
  exact ⟨hne, hdot, hdotdot, hsep, hzero⟩

def nestedTree : ListedTree where
  fs := nestedFile
  readdir l := [dot, dotdot] ++
    if l = [] then [ascii "d"] else if l = [ascii "d"] then [ascii "x"] else []
  nodup := by
    intro l
    split
    · decide
    · split
      · decide
      · decide
  mem_readdir := by
    intro l hl c
    rcases nestedFile_cases (node_of_isDir hl) with rfl | rfl | rfl
    · simp [node_nestedFile]
    · simp [node_nestedFile]
    · rw [FileSystem.isDir, node_nestedFile] at hl
      simp [newFile, Node.isDir] at hl
  proper := by
    intro l c h
    rcases nestedFile_cases h with hl | hl | hl
    · simp at hl
    · have hc : c = ascii "d" := by
        have happend : l ++ [c] = [] ++ [ascii "d"] := hl
        simpa using (List.append_inj' happend rfl).2
      exact proper_ascii c (by simp [hc])
    · have hc : c = ascii "x" := by
        have happend : l ++ [c] = [ascii "d"] ++ [ascii "x"] := hl
        simpa using (List.append_inj' happend rfl).2
      exact proper_ascii c (by simp [hc])
  finite := by
    refine ⟨2, fun l hl => ?_⟩
    rcases nestedFile_cases hl with rfl | rfl | rfl <;> simp

/-- The walk asks for `x` where there is none. -/
theorem os_dir_walk_elsewhere : ¬WalksExactly nestedTree [] (ascii "d") [] := by
  intro h
  have hnamed := (WalksExactly.walkable h).named [ascii "d"] [ascii "d"] (ascii "x") (by decide)
    (.start (by decide)) (by decide) (by decide) (by simp)
  obtain ⟨n, k, hstat, -⟩ := hnamed
  have hnone : nestedTree.fs.lookup (cStr (ascii "x")) = none := by decide
  rw [hnone] at hstat
  simp at hstat

end LibWfut
