import LibWfut.Library.FileTree
import Mathlib.Data.Set.Basic

/-! # What a path depends on

Operations on a path look at the places it passes and at the one it leads to. Trees that
agree there give the same results, and agree there afterwards. -/

namespace FileTree

/-- The places a path passes and the one it leads to, with everything above them. -/
def reached (cwd : Location) (path : List UInt8) : List Location :=
  (path.splitOn separator).inits.flatMap fun ds => (ds.foldl next (start cwd path)).inits

theorem mem_reached_of_passes {cwd l : Location} {path : List UInt8} (h : Passes cwd path l) :
    l ∈ reached cwd path := by
  obtain ⟨ds, c, es, hsplit, hl⟩ := h
  refine List.mem_flatMap.mpr ⟨ds, (List.mem_inits ..).mpr ⟨c :: es, hsplit.symm⟩, ?_⟩
  rw [hl]
  exact (List.mem_inits ..).mpr List.prefix_rfl

theorem mem_reached_of_prefix {cwd l : Location} {path : List UInt8}
    (h : l <+: place cwd path) : l ∈ reached cwd path :=
  List.mem_flatMap.mpr ⟨_, (List.mem_inits ..).mpr List.prefix_rfl, (List.mem_inits ..).mpr h⟩

theorem place_mem_reached (cwd : Location) (path : List UInt8) :
    place cwd path ∈ reached cwd path :=
  mem_reached_of_prefix List.prefix_rfl

theorem dropLast_mem_reached (cwd : Location) (path : List UInt8) :
    (place cwd path).dropLast ∈ reached cwd path :=
  mem_reached_of_prefix (List.dropLast_prefix _)

/-- A separator at the end of a path adds no place. -/
theorem mem_reached_append_separator {cwd l : Location} {path : List UInt8} (hp : path ≠ [])
    (h : l ∈ reached cwd path) : l ∈ reached cwd (path ++ [separator]) := by
  obtain ⟨ds, hds, hl⟩ := List.mem_flatMap.mp h
  have hadd := List.splitOn_append_cons_self (a := separator) path []
  refine List.mem_flatMap.mpr ⟨ds, (List.mem_inits ..).mpr ?_, by rwa [start_append hp]⟩
  rw [hadd]
  exact ((List.mem_inits ..).mp hds).trans (List.prefix_append ..)

/-- Nor does it pass one less. -/
theorem passes_append_separator {cwd l : Location} {path : List UInt8} (hp : path ≠ [])
    (h : Passes cwd path l) : Passes cwd (path ++ [separator]) l := by
  obtain ⟨ds, c, es, hsplit, hl⟩ := h
  have hadd := List.splitOn_append_cons_self (a := separator) path []
  refine ⟨ds, c, es ++ [[]], ?_, by rwa [start_append hp]⟩
  rw [hadd, hsplit, List.splitOn_nil, List.append_assoc, List.cons_append]

theorem passes_append {cwd : Location} {p : List UInt8} (hp : p ≠ []) (q : List UInt8) :
    Passes cwd (p ++ separator :: q) (place cwd p) := by
  obtain ⟨c, es, hq⟩ := List.exists_cons_of_ne_nil (List.splitOn_ne_nil separator q)
  refine ⟨p.splitOn separator, c, es, ?_, by rw [start_append hp, place]⟩
  rw [List.splitOn_append_cons_self, hq]

theorem splitOn_eq_append {path : List UInt8} {ds es : List Name} {c : Name}
    (h : path.splitOn separator = ds ++ c :: es) :
    ds = [] ∨ ∃ q r, path = q ++ separator :: r ∧ q.splitOn separator = ds := by
  induction ds generalizing path with
  | nil => exact .inl rfl
  | cons d ds ih =>
      right
      by_cases hsep : separator ∈ path
      · obtain ⟨x, y, rfl, hx⟩ := List.eq_append_cons_of_mem hsep
        rw [List.splitOn_append_cons_self_of_not_mem hx, List.cons_append, List.cons.injEq] at h
        obtain ⟨rfl, h⟩ := h
        rcases ih h with rfl | ⟨q, r, rfl, rfl⟩
        · exact ⟨x, y, rfl, List.splitOn_eq_singleton hx⟩
        · refine ⟨x ++ separator :: q, r, by simp, ?_⟩
          exact List.splitOn_append_cons_self_of_not_mem hx q
      · rw [List.splitOn_eq_singleton hsep] at h
        have hlength := congrArg List.length h
        simp at hlength

/-- A path passes the place it starts from and those of its prefixes before a separator. -/
theorem passes_cases {cwd l : Location} {path : List UInt8} (h : Passes cwd path l) :
    l = start cwd path ∨ ∃ q r, q ≠ [] ∧ path = q ++ separator :: r ∧ place cwd q = l := by
  obtain ⟨ds, c, es, hsplit, rfl⟩ := h
  rcases splitOn_eq_append hsplit with rfl | ⟨q, r, rfl, rfl⟩
  · exact .inl rfl
  · by_cases hq : q = []
    · left
      subst hq
      simp [start, next]
    · right
      exact ⟨q, r, hq, rfl, by rw [place, start_append hq]⟩

/-- Two trees are the same at these places. -/
structure AgreeOn (S : Set Location) (fs fs' : FileSystem) : Prop where
  cwd : fs'.cwd = fs.cwd
  node : ∀ l ∈ S, fs'.node l = fs.node l

/-- All that the path depends on is among these places. -/
def Covers (S : Set Location) (cwd : Location) (path : List UInt8) : Prop :=
  ∀ l ∈ reached cwd path, l ∈ S

namespace AgreeOn

variable {S : Set Location} {fs fs' fs'' : FileSystem} {path : List UInt8} {l : Location}

theorem isDir (h : AgreeOn S fs fs') (hl : l ∈ S) : fs'.isDir l = fs.isDir l := by
  rw [FileSystem.isDir, FileSystem.isDir, h.node l hl]

theorem resolve (h : AgreeOn S fs fs') (hc : Covers S fs.cwd path) :
    fs'.resolve path = fs.resolve path := by
  have hiff : ∀ l, fs'.resolve path = some l ↔ fs.resolve path = some l := by
    intro l
    rw [FileSystem.resolve_eq_some_iff, FileSystem.resolve_eq_some_iff, h.cwd]
    refine and_congr_right fun _ => and_congr_left fun _ => forall₂_congr fun m hm => ?_
    rw [h.isDir (hc m (mem_reached_of_passes hm))]
  exact Option.ext fun l => hiff l

theorem lookup (h : AgreeOn S fs fs') (hc : Covers S fs.cwd path) :
    fs'.lookup path = fs.lookup path := by
  rw [FileSystem.lookup, FileSystem.lookup, h.resolve hc]
  cases hl : fs.resolve path with
  | none => rfl
  | some l =>
      rw [Option.bind_some, Option.bind_some]
      apply h.node
      rw [← FileSystem.resolve_eq_some hl]
      exact hc _ (place_mem_reached ..)

/-- Both or neither has a free place there. -/
theorem free_iff (h : AgreeOn S fs fs') (hl : l ∈ S) (hp : l.dropLast ∈ S) :
    fs'.Free l ↔ fs.Free l := by
  rw [FileSystem.Free, FileSystem.Free, h.node l hl, h.isDir hp]

theorem create (h : AgreeOn S fs fs') (hl : l ∈ S) (hp : l.dropLast ∈ S) (n : Node) :
    AgreeOn S (fs.create l n) (fs'.create l n) := by
  by_cases hfree : fs.Free l
  · have hfree' := (h.free_iff hl hp).mpr hfree
    constructor
    case cwd => rw [FileSystem.cwd_create, FileSystem.cwd_create, h.cwd]
    case node =>
      intro m hm
      rw [FileSystem.node_create hfree, FileSystem.node_create hfree', h.node m hm]
  · have hfree' : ¬fs'.Free l := fun hf => hfree ((h.free_iff hl hp).mp hf)
    rw [FileSystem.create_of_not_free hfree, FileSystem.create_of_not_free hfree']
    exact h

theorem modify (h : AgreeOn S fs fs') (l : Location) (f : Node → Node)
    (hf : ∀ n, (f n).isDir = n.isDir) : AgreeOn S (fs.modify l f hf) (fs'.modify l f hf) := by
  constructor
  case cwd => exact h.cwd
  case node =>
    intro m hm
    rw [FileSystem.node_modify, FileSystem.node_modify]
    split
    · rename_i heq
      rw [← heq, h.node m hm]
    · exact h.node m hm

theorem setContent (h : AgreeOn S fs fs') (l : Location) (content : List UInt8) :
    AgreeOn S (fs.setContent l content) (fs'.setContent l content) :=
  h.modify ..

theorem addMode (h : AgreeOn S fs fs') (l : Location) (bits : BitVec 12) :
    AgreeOn S (fs.addMode l bits) (fs'.addMode l bits) :=
  h.modify ..

/-- Whether a node can be taken away is seen at its place, and below it if it is a directory. -/
theorem removable (h : AgreeOn S fs fs') (hl : l ∈ S)
    (hbelow : fs.isDir l = true → ∀ c, l ++ [c] ∈ S) : fs'.removable l = fs.removable l := by
  rw [Bool.eq_iff_iff, FileSystem.removable_iff, FileSystem.removable_iff, h.node l hl, h.cwd]
  refine exists_congr fun n => and_congr_right fun hn => ?_
  cases hd : n.isDir with
  | false => simp
  | true =>
      have hdir : fs.isDir l = true := by
        rw [FileSystem.isDir, hn, Option.any_some, hd]
      simp only [h.node _ (hbelow hdir _)]

theorem remove (h : AgreeOn S fs fs') (hl : l ∈ S)
    (hbelow : fs.isDir l = true → ∀ c, l ++ [c] ∈ S) :
    AgreeOn S (fs.remove l) (fs'.remove l) := by
  constructor
  case cwd => rw [FileSystem.cwd_remove, FileSystem.cwd_remove, h.cwd]
  case node =>
    intro m hm
    rw [FileSystem.node_remove, FileSystem.node_remove, h.removable hl hbelow, h.node m hm]

end AgreeOn

/-! ## Directories made ahead -/

/-- At these places the second tree is the first, with some directories of `D` more. -/
structure Ahead (d : Node) (D S : Set Location) (fs fs' : FileSystem) : Prop where
  cwd : fs'.cwd = fs.cwd
  node : ∀ l ∈ S, fs'.node l = fs.node l ∨ l ∈ D ∧ fs.node l = none ∧ fs'.node l = some d

/-- One of the directories is still missing. -/
def Missing (D S : Set Location) (fs : FileSystem) : Prop :=
  ∃ l ∈ S, l ∈ D ∧ fs.node l = none

namespace Ahead

variable {d : Node} {D S : Set Location} {fs fs' : FileSystem} {path : List UInt8} {l m : Location}

theorem of_agreeOn (h : AgreeOn S fs fs') : Ahead d D S fs fs' :=
  ⟨h.cwd, fun l hl => .inl (h.node l hl)⟩

/-- Nothing is ahead, or something is missing. -/
theorem agreeOn_or_missing (h : Ahead d D S fs fs') : AgreeOn S fs fs' ∨ Missing D S fs := by
  by_cases hm : Missing D S fs
  · exact .inr hm
  · refine .inl ⟨h.cwd, fun l hl => ?_⟩
    rcases h.node l hl with heq | ⟨hD, hnone, -⟩
    · exact heq
    · exact absurd ⟨l, hl, hD, hnone⟩ hm

theorem node_of_not_mem (h : Ahead d D S fs fs') (hl : l ∈ S) (hD : l ∉ D) :
    fs'.node l = fs.node l := by
  rcases h.node l hl with heq | ⟨hmem, -⟩
  · exact heq
  · exact absurd hmem hD

theorem node_of_some (h : Ahead d D S fs fs') (hl : l ∈ S) {n : Node} (hn : fs.node l = some n) :
    fs'.node l = some n := by
  rcases h.node l hl with heq | ⟨-, hnone, -⟩
  · rw [heq, hn]
  · rw [hn] at hnone
    simp at hnone

theorem isDir (h : Ahead d D S fs fs') (hl : l ∈ S) (hd : fs.isDir l = true) :
    fs'.isDir l = true := by
  obtain ⟨n, hn, hdir⟩ := (Option.any_eq_true _ _).mp hd
  rw [FileSystem.isDir, h.node_of_some hl hn, Option.any_some, hdir]

/-- What resolves resolves ahead too. -/
theorem resolve (h : Ahead d D S fs fs') (hc : Covers S fs.cwd path)
    (hl : fs.resolve path = some l) : fs'.resolve path = some l := by
  rw [FileSystem.resolve_eq_some_iff] at hl ⊢
  rw [h.cwd]
  exact ⟨hl.1, fun m hm => h.isDir (hc m (mem_reached_of_passes hm)) (hl.2.1 m hm), hl.2.2⟩

/-- Nothing is at a place below a missing directory, in either tree. -/
theorem node_eq_none (h : Ahead d D S fs fs') (hl : fs.node l = none) (hm : l <+: m)
    (hmS : m ∈ S) (hmD : m ∉ D) : fs.node m = none ∧ fs'.node m = none := by
  have hnone := FileSystem.node_eq_none_of_prefix hl hm
  exact ⟨hnone, by rw [h.node_of_not_mem hmS hmD, hnone]⟩

/-- A path that leads below the directories that may be missing leads to the same. -/
theorem lookup (h : Ahead d D S fs fs') (hc : Covers S fs.cwd path)
    (hbelow : ∀ l ∈ D, l ∈ reached fs.cwd path → Below l (place fs.cwd path)) :
    fs'.lookup path = fs.lookup path := by
  by_cases hmiss : Missing D {l | l ∈ reached fs.cwd path} fs
  · obtain ⟨l, hl, hD, hnone⟩ := hmiss
    have hplace : place fs.cwd path ∉ D :=
      fun hmem => (hbelow _ hmem (place_mem_reached ..)).2 rfl
    have hnode := h.node_eq_none hnone (hbelow l hD hl).1 (hc _ (place_mem_reached ..)) hplace
    rw [FileSystem.lookup_eq_none hnode.1, FileSystem.lookup_eq_none (h.cwd ▸ hnode.2)]
  · have hsub : Ahead d D {l | l ∈ reached fs.cwd path} fs fs' :=
      ⟨h.cwd, fun l hl => h.node l (hc l hl)⟩
    rcases hsub.agreeOn_or_missing with hagree | hm
    · exact hagree.lookup fun l hl => hl
    · exact absurd hm hmiss

/-- A path that passes a place below missing directories does not resolve. -/
theorem resolve_eq_none (h : Ahead d D S fs fs') (hmiss : Missing D S fs)
    (hpass : Passes fs.cwd path m) (hmS : m ∈ S) (hmD : m ∉ D) (hbelow : ∀ l ∈ D, l <+: m) :
    fs.resolve path = none ∧ fs'.resolve path = none := by
  obtain ⟨l, -, hD, hnone⟩ := hmiss
  have hnode := h.node_eq_none hnone (hbelow l hD) hmS hmD
  have hresolve : ∀ gs : FileSystem, gs.cwd = fs.cwd → gs.node m = none →
      gs.resolve path = none := by
    intro gs hcwd hgs
    by_contra hne
    obtain ⟨k, hk⟩ := Option.ne_none_iff_exists'.mp hne
    have hdir := (FileSystem.resolve_eq_some_iff.mp hk).2.1 m (hcwd ▸ hpass)
    rw [FileSystem.isDir, hgs] at hdir
    simp at hdir
  exact ⟨hresolve fs rfl hnode.1, hresolve fs' h.cwd hnode.2⟩

theorem create (h : Ahead d D S fs fs') {n : Node} (hl : fs.Free l) (hl' : fs'.Free l) :
    Ahead d D S (fs.create l n) (fs'.create l n) := by
  constructor
  case cwd => rw [FileSystem.cwd_create, FileSystem.cwd_create, h.cwd]
  case node =>
    intro m hm
    rw [FileSystem.node_create hl, FileSystem.node_create hl']
    by_cases hml : m = l
    · rw [if_pos hml, if_pos hml]
      exact .inl rfl
    · rw [if_neg hml, if_neg hml]
      exact h.node m hm

/-- The first tree catches up. -/
theorem create_left (h : Ahead d D S fs fs') (hl : fs.Free l) (hd : fs'.node l = some d) :
    Ahead d D S (fs.create l d) fs' := by
  constructor
  case cwd => rw [FileSystem.cwd_create, h.cwd]
  case node =>
    intro m hm
    rw [FileSystem.node_create hl]
    by_cases hml : m = l
    · rw [if_pos hml, hml]
      exact .inl hd
    · rw [if_neg hml]
      exact h.node m hm

end Ahead

/-! ## What an operation touches -/

/-- Only places of `F` differ, apart from directories of `D` that were made. All new directories
are at places of `D`. What was there is still there, as a directory or a file, unless it was
removed at a place of `R`. -/
structure Touches (d : Node) (D F R : Set Location) (fs fs' : FileSystem) : Prop where
  ahead : Ahead d D Fᶜ fs fs'
  dirs : ∀ l, fs'.isDir l = true → fs.isDir l = true ∨ l ∈ D
  kept : ∀ l ∉ R, ∀ n, fs.node l = some n → ∃ n', fs'.node l = some n' ∧ n'.isDir = n.isDir

/-- A path that does not lead through what may be removed. -/
def Avoids (R : Set Location) (cwd : Location) (path : List UInt8) : Prop :=
  ∀ l, Passes cwd path l → l ∉ R

theorem avoids_empty (cwd : Location) (path : List UInt8) : Avoids ∅ cwd path :=
  fun l _ => Set.notMem_empty l

/-- A path that does not reach a place does not lead through it. -/
theorem avoids_of_not_mem_reached {cwd l : Location} {path : List UInt8}
    (h : l ∉ reached cwd path) : Avoids {l} cwd path := by
  rintro m hm rfl
  exact h (mem_reached_of_passes hm)

namespace Touches

variable {d : Node} {D F R : Set Location} {fs fs' fs'' : FileSystem}
  {path : List UInt8} {l : Location} {n : Node}

theorem refl (fs : FileSystem) : Touches d D F R fs fs where
  ahead := .of_agreeOn ⟨rfl, fun _ _ => rfl⟩
  dirs _ h := .inl h
  kept _ _ n h := ⟨n, h, rfl⟩

theorem trans (h : Touches d D F R fs fs') (h' : Touches d D F R fs' fs'') :
    Touches d D F R fs fs'' where
  ahead := by
    refine ⟨h'.ahead.cwd.trans h.ahead.cwd, fun l hl => ?_⟩
    rcases h.ahead.node l hl with heq | ⟨hD, hnone, hd⟩
    · rcases h'.ahead.node l hl with heq' | ⟨hD, hnone, hd⟩
      · exact .inl (heq'.trans heq)
      · exact .inr ⟨hD, heq ▸ hnone, hd⟩
    · exact .inr ⟨hD, hnone, h'.ahead.node_of_some hl hd⟩
  dirs l hl := by
    rcases h'.dirs l hl with hdir | hD
    · exact h.dirs l hdir
    · exact .inr hD
  kept l hl n hn := by
    obtain ⟨n', hn', hdir⟩ := h.kept l hl n hn
    obtain ⟨n'', hn'', hdir'⟩ := h'.kept l hl n' hn'
    exact ⟨n'', hn'', hdir'.trans hdir⟩

theorem isDir (h : Touches d D F R fs fs') (hR : l ∉ R) (hl : fs.isDir l = true) :
    fs'.isDir l = true := by
  obtain ⟨n, hn, hdir⟩ := (Option.any_eq_true _ _).mp hl
  obtain ⟨n', hn', hdir'⟩ := h.kept l hR n hn
  rw [FileSystem.isDir, hn', Option.any_some, hdir', hdir]

/-- What resolves still resolves, if nothing on the way was removed. -/
theorem resolve (h : Touches d D F R fs fs') (hR : Avoids R fs.cwd path)
    (hl : fs.resolve path = some l) : fs'.resolve path = some l := by
  rw [FileSystem.resolve_eq_some_iff] at hl ⊢
  rw [h.ahead.cwd]
  exact ⟨hl.1, fun m hm => h.isDir (hR m hm) (hl.2.1 m hm), hl.2.2⟩

/-- What a path leads to is the same where its place is not touched. -/
theorem lookup (h : Touches d D F R fs fs') (hR : Avoids R fs.cwd path)
    (hn : fs.lookup path = some n) (hF : place fs.cwd path ∉ F) : fs'.lookup path = some n := by
  obtain ⟨l, hl, hnode⟩ := Option.bind_eq_some_iff.mp hn
  rw [FileSystem.resolve_eq_some hl] at hF
  rw [FileSystem.lookup, h.resolve hR hl, Option.bind_some]
  exact h.ahead.node_of_some hF hnode

theorem remove (hF : l ∈ F) (hR : l ∈ R) : Touches d D F R fs (fs.remove l) where
  ahead := by
    refine ⟨FileSystem.cwd_remove .., fun m hm => .inl ?_⟩
    rw [FileSystem.node_remove, if_neg]
    rintro ⟨rfl, -⟩
    exact hm hF
  dirs m hm := by
    rw [FileSystem.isDir, FileSystem.node_remove] at hm
    split at hm
    · simp at hm
    · exact .inl hm
  kept m hm n hn := by
    refine ⟨n, ?_, rfl⟩
    rw [FileSystem.node_remove, if_neg, hn]
    rintro ⟨rfl, -⟩
    exact hm hR

theorem modify (hF : l ∈ F) (f : Node → Node) (hf : ∀ n, (f n).isDir = n.isDir) :
    Touches d D F R fs (fs.modify l f hf) where
  ahead := by
    refine ⟨FileSystem.cwd_modify .., fun m hm => .inl ?_⟩
    rw [FileSystem.node_modify, if_neg]
    rintro rfl
    exact hm hF
  dirs m hm := by
    rw [FileSystem.isDir_modify] at hm
    exact .inl hm
  kept m _ n hn := by
    rw [FileSystem.node_modify]
    split
    · rename_i heq
      rw [← heq, hn]
      exact ⟨f n, rfl, hf n⟩
    · exact ⟨n, hn, rfl⟩

end Touches

end FileTree
