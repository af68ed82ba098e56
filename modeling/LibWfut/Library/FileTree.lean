import Mathlib.Logic.Function.Basic
import Mathlib.Data.Finset.Erase
import Mathlib.Data.Finset.Insert
import Mathlib.Data.List.Infix
import Mathlib.Data.Nat.Notation

/-! # File trees and path resolution

A tree of directories and regular files as one process sees it, without symbolic
links. A path is resolved component by component: every component is looked up in an
existing directory, also the empty ones that repeated separators leave, and `..`
leads to the parent of the place reached so far. -/

namespace FileTree

abbrev Name := List UInt8

/-- The names on the way from the root. -/
abbrev Location := List Name

def separator : UInt8 := 47

def dot : Name := [46]

def dotdot : Name := [46, 46]

inductive Kind where
  | directory
  | regular (content : List UInt8)
  deriving DecidableEq, Repr

/-- `readable` says whether this process may open the node for reading. -/
structure Node where
  kind : Kind
  mode : BitVec 12
  readable : Bool
  deriving DecidableEq, Repr

def Node.isDir (n : Node) : Bool :=
  match n.kind with
  | .directory => true
  | .regular _ => false

/-- Nodes by location, and what every directory has entries for. Every node but the root stands
in a directory. -/
structure FileSystem where
  node : Location → Option Node
  entries : Location → Finset Name
  cwd : Location
  cwd_isDir : (node cwd).any Node.isDir = true
  root_isDir : (node []).any Node.isDir = true
  parent_isDir : ∀ l c, node (l ++ [c]) ≠ none → (node l).any Node.isDir = true
  mem_entries : ∀ l c, c ∈ entries l ↔ node (l ++ [c]) ≠ none

def FileSystem.isDir (fs : FileSystem) (l : Location) : Bool :=
  (fs.node l).any Node.isDir

/-- The tree of a readable root alone. -/
def FileSystem.empty : FileSystem where
  node l := if l = [] then some ⟨.directory, 0o755, true⟩ else none
  entries _ := ∅
  cwd := []
  cwd_isDir := rfl
  root_isDir := rfl
  parent_isDir := by
    intro l c h
    simp at h
  mem_entries := by simp

theorem FileSystem.isDir_of_any {fs : FileSystem} {l : Location} {p : Node → Bool}
    (h : (fs.node l).any (fun n => n.isDir && p n) = true) : fs.isDir l = true := by
  rw [FileSystem.isDir]
  cases hn : fs.node l with
  | none => simp [hn] at h
  | some n =>
      rw [hn, Option.any_some, Bool.and_eq_true] at h
      exact h.1

/-! ## Path resolution -/

/-- One component leads from a place to the next. -/
def next (l : Location) (c : Name) : Location :=
  if c = [] ∨ c = dot then l else if c = dotdot then l.dropLast else l ++ [c]

/-- Follow components through existing directories. -/
def walk (isDir : Location → Bool) : Location → List Name → Option Location
  | l, [] => some l
  | l, c :: cs => if isDir l then walk isDir (next l c) cs else none

def start (cwd : Location) (path : List UInt8) : Location :=
  if path.head? = some separator then [] else cwd

/-- The place a path leads to by its text alone. -/
def place (cwd : Location) (path : List UInt8) : Location :=
  (path.splitOn separator).foldl next (start cwd path)

/-- The place a path leads to, when every directory on the way exists. Nothing need
exist at the place itself. -/
def FileSystem.resolve (fs : FileSystem) (path : List UInt8) : Option Location :=
  if path = [] then none
  else walk fs.isDir (start fs.cwd path) (path.splitOn separator)

/-- The node a path leads to. -/
def FileSystem.lookup (fs : FileSystem) (path : List UInt8) : Option Node :=
  (fs.resolve path).bind fs.node

/-- The directories a path is looked up in, one component after the other. -/
def Passes (cwd : Location) (path : List UInt8) (l : Location) : Prop :=
  ∃ ds c es, path.splitOn separator = ds ++ c :: es ∧ ds.foldl next (start cwd path) = l

/-- Strictly below a place. -/
def Below (base l : Location) : Prop :=
  base <+: l ∧ l ≠ base

instance (base l : Location) : Decidable (Below base l) :=
  inferInstanceAs (Decidable (_ ∧ _))

theorem walk_eq_some {isDir : Location → Bool} {l m : Location} {cs : List Name}
    (h : walk isDir l cs = some m) : cs.foldl next l = m := by
  induction cs generalizing l with
  | nil => simpa [walk] using h
  | cons c cs ih =>
      by_cases hd : isDir l = true
      · exact ih (by simpa [walk, hd] using h)
      · simp [walk, hd] at h

/-- Resolution succeeds exactly when every place passed on the way is a directory. -/
theorem walk_isSome_iff {isDir : Location → Bool} {l : Location} {cs : List Name} :
    (walk isDir l cs).isSome ↔
      ∀ ds c es, cs = ds ++ c :: es → isDir (ds.foldl next l) = true := by
  induction cs generalizing l with
  | nil => simp [walk]
  | cons c cs ih =>
      by_cases hd : isDir l = true
      · simp only [walk, hd, ite_true, ih]
        constructor
        · intro h ds d es heq
          cases ds with
          | nil => simpa using hd
          | cons d' ds =>
              simp only [List.cons_append, List.cons.injEq] at heq
              obtain ⟨rfl, heq⟩ := heq
              exact h ds d es heq
        · intro h ds d es heq
          exact h (c :: ds) d es (by rw [heq, List.cons_append])
      · simp only [walk, hd]
        constructor
        · intro h
          simp at h
        · intro h
          exact absurd (h [] c cs rfl) hd

theorem walk_eq_some_iff {isDir : Location → Bool} {l m : Location} {cs : List Name} :
    walk isDir l cs = some m ↔
      (∀ ds c es, cs = ds ++ c :: es → isDir (ds.foldl next l) = true) ∧
        cs.foldl next l = m := by
  rw [← walk_isSome_iff]
  constructor
  · intro h
    exact ⟨by rw [h]; rfl, walk_eq_some h⟩
  · rintro ⟨hs, hm⟩
    obtain ⟨m', hm'⟩ := Option.isSome_iff_exists.mp hs
    rw [hm', ← walk_eq_some hm', hm]

/-! ## Prefixes of a path -/

theorem start_append {p : List UInt8} (hp : p ≠ []) (cwd : Location) (q : List UInt8) :
    start cwd (p ++ q) = start cwd p := by
  cases p with
  | nil => exact absurd rfl hp
  | cons c p => rfl

theorem place_append {p : List UInt8} (hp : p ≠ []) (cwd : Location) (q : List UInt8) :
    place cwd (p ++ separator :: q) = (q.splitOn separator).foldl next (place cwd p) := by
  rw [place, List.splitOn_append_cons_self, List.foldl_append, start_append hp]
  rfl

/-- A path that begins with a separator begins at the root. -/
theorem place_separator_cons (cwd : Location) (q : List UInt8) :
    place cwd (separator :: q) = (q.splitOn separator).foldl next [] := by
  have hsplit := List.splitOn_append_cons_self (a := separator) [] q
  rw [List.nil_append] at hsplit
  rw [place, hsplit]
  simp [start, next]

/-- Components that do not lead upwards lead below. -/
theorem prefix_foldl_next {cs : List Name} (h : dotdot ∉ cs) (l : Location) :
    l <+: cs.foldl next l := by
  induction cs generalizing l with
  | nil => exact List.prefix_rfl
  | cons c cs ih =>
      have hc : c ≠ dotdot := fun hc => h (hc ▸ List.mem_cons_self ..)
      have hone : l <+: next l c := by
        unfold next
        split
        · exact List.prefix_rfl
        · exact List.prefix_append ..
      exact hone.trans (ih (fun hmem => h (List.mem_cons_of_mem _ hmem)) _)

/-- A separator at the end of a path does not lead anywhere. -/
theorem place_append_separator {p : List UInt8} (hp : p ≠ []) (cwd : Location) :
    place cwd (p ++ [separator]) = place cwd p := by
  rw [place_append hp]
  simp [next]

/-- A last component that is a proper name leads to a child. -/
theorem place_child {name : Name} (hname : separator ∉ name)
    (hproper : name ≠ [] ∧ name ≠ dot ∧ name ≠ dotdot) (cwd : Location) (p : List UInt8) :
    ∃ l, place cwd (p ++ separator :: name) = l ++ [name] := by
  have hsplit : name.splitOn separator = [name] := List.splitOn_eq_singleton hname
  by_cases hp : p = []
  · refine ⟨[], ?_⟩
    rw [hp, List.nil_append, place_separator_cons, hsplit]
    simp [next, hproper]
  · refine ⟨place cwd p, ?_⟩
    rw [place_append hp, hsplit]
    simp [next, hproper]

theorem splitOn_separator_cons (q : List UInt8) :
    (separator :: q).splitOn separator = [] :: q.splitOn separator := by
  simpa using List.splitOn_append_cons_self (a := separator) [] q

/-- A component that is empty only asks for a directory, as the next one does. -/
theorem walk_nil_component (isDir : Location → Bool) (l : Location) (ds : List Name) (c : Name)
    (cs : List Name) : walk isDir l (ds ++ [] :: c :: cs) = walk isDir l (ds ++ c :: cs) := by
  induction ds generalizing l with
  | nil =>
      by_cases hd : isDir l = true
      · simp [walk, hd, next]
      · simp [walk, hd]
  | cons d ds ih => simp only [List.cons_append, walk, ih]

theorem place_separator_separator (cwd : Location) (p q : List UInt8) :
    place cwd (p ++ separator :: separator :: q) = place cwd (p ++ separator :: q) := by
  rw [place, place, List.splitOn_append_cons_self, List.splitOn_append_cons_self,
    splitOn_separator_cons, List.foldl_append, List.foldl_append, List.foldl_cons]
  cases p <;> simp [start, next]

namespace FileSystem

/-- A path resolves exactly when everything it passes through is a directory. -/
theorem resolve_eq_some_iff {fs : FileSystem} {path : List UInt8} {l : Location} :
    fs.resolve path = some l ↔
      path ≠ [] ∧ (∀ m, Passes fs.cwd path m → fs.isDir m = true) ∧ place fs.cwd path = l := by
  unfold resolve
  by_cases hp : path = []
  · simp [hp]
  · rw [if_neg hp, walk_eq_some_iff]
    constructor
    · rintro ⟨hd, hl⟩
      refine ⟨hp, ?_, hl⟩
      rintro m ⟨ds, c, es, heq, rfl⟩
      exact hd ds c es heq
    · rintro ⟨-, hd, hl⟩
      exact ⟨fun ds c es heq => hd _ ⟨ds, c, es, heq, rfl⟩, hl⟩

/-- Below a place that is missing nothing exists. -/
theorem node_eq_none_of_prefix {fs : FileSystem} {l m : Location} (h : fs.node l = none)
    (hm : l <+: m) : fs.node m = none := by
  obtain ⟨cs, rfl⟩ := hm
  induction cs using List.reverseRecOn with
  | nil => rwa [List.append_nil]
  | append_singleton cs c ih =>
      by_contra hne
      rw [← List.append_assoc] at hne
      have hd := fs.parent_isDir (l ++ cs) c hne
      rw [ih] at hd
      simp at hd

/-- Where nothing exists at the end of a path that resolves, the last directory it passes is
the parent. -/
theorem isDir_dropLast_of_resolve {fs : FileSystem} {path : List UInt8} {l : Location}
    (h : fs.resolve path = some l) (hl : fs.node l = none) : fs.isDir l.dropLast = true := by
  obtain ⟨-, hpass, hplace⟩ := resolve_eq_some_iff.mp h
  have hsplit := List.dropLast_concat_getLast (List.splitOn_ne_nil separator path)
  obtain ⟨m, hm⟩ : ∃ m, (path.splitOn separator).dropLast.foldl next (start fs.cwd path) = m :=
    ⟨_, rfl⟩
  have hdir := hpass m ⟨_, _, [], hsplit.symm, hm⟩
  rw [place, ← hsplit, List.foldl_append, hm, List.foldl_cons, List.foldl_nil] at hplace
  unfold next at hplace
  split at hplace
  · rw [isDir, hplace, hl] at hdir
    simp at hdir
  · split at hplace
    · have hnone := node_eq_none_of_prefix hl (hplace ▸ List.dropLast_prefix m)
      rw [isDir, hnone] at hdir
      simp at hdir
    · rw [← hplace, List.dropLast_concat]
      exact hdir

theorem lookup_eq_none {fs : FileSystem} {path : List UInt8}
    (h : fs.node (place fs.cwd path) = none) : fs.lookup path = none := by
  rw [lookup]
  cases hr : fs.resolve path with
  | none => rfl
  | some l =>
      obtain ⟨-, -, rfl⟩ := resolve_eq_some_iff.mp hr
      exact h

theorem resolve_congr {fs fs' : FileSystem} (hcwd : fs'.cwd = fs.cwd)
    (hd : ∀ l, fs'.isDir l = fs.isDir l) (path : List UInt8) :
    fs'.resolve path = fs.resolve path := by
  have : fs'.isDir = fs.isDir := funext hd
  rw [resolve, resolve, hcwd, this]

theorem resolve_eq_some {fs : FileSystem} {path : List UInt8} {l : Location}
    (h : fs.resolve path = some l) : place fs.cwd path = l := by
  unfold resolve at h
  split at h
  · simp at h
  · exact walk_eq_some h

/-- The node at the end of a path does not depend on other files. -/
theorem lookup_congr {fs fs' : FileSystem} {path : List UInt8} (hcwd : fs'.cwd = fs.cwd)
    (hd : ∀ l, fs'.isDir l = fs.isDir l)
    (hn : fs'.node (place fs.cwd path) = fs.node (place fs.cwd path)) :
    fs'.lookup path = fs.lookup path := by
  rw [lookup, lookup, resolve_congr hcwd hd]
  cases hl : fs.resolve path with
  | none => rfl
  | some l =>
      rw [resolve_eq_some hl] at hn
      exact hn

/-- A path starts from a directory. -/
theorem isDir_start (fs : FileSystem) (path : List UInt8) :
    fs.isDir (start fs.cwd path) = true := by
  unfold start
  split
  · exact fs.root_isDir
  · exact fs.cwd_isDir

/-- A repeated separator makes no difference. -/
theorem resolve_separator_separator (fs : FileSystem) (p q : List UInt8) :
    fs.resolve (p ++ separator :: separator :: q) = fs.resolve (p ++ separator :: q) := by
  obtain ⟨c, cs, hq⟩ := List.exists_cons_of_ne_nil (List.splitOn_ne_nil separator q)
  rw [resolve, resolve, if_neg (by simp), if_neg (by simp), List.splitOn_append_cons_self,
    List.splitOn_append_cons_self, splitOn_separator_cons, hq, walk_nil_component]
  cases p <;> simp [start]

/-! ## Changing one node -/

/-- A place other than the root is an entry of the directory above it. -/
theorem concat_eq_iff {l m : Location} (hl : l ≠ []) (c : Name) :
    m ++ [c] = l ↔ m = l.dropLast ∧ c = l.getLastD [] := by
  have hsplit := List.dropLast_concat_getLast hl
  rw [List.getLastD_eq_getLast?, List.getLast?_eq_some_getLast hl, Option.getD_some]
  constructor
  · rintro rfl
    simp
  · rintro ⟨rfl, rfl⟩
    exact hsplit

/-- Put a new node at a free place in an existing directory. -/
def create (fs : FileSystem) (l : Location) (n : Node) : FileSystem :=
  if h : fs.node l = none ∧ l ≠ [] ∧ fs.isDir l.dropLast = true then
    { fs with
      node := Function.update fs.node l (some n)
      entries := Function.update fs.entries l.dropLast
        (insert (l.getLastD []) (fs.entries l.dropLast))
      cwd_isDir := by
        rw [Function.update_of_ne]
        · exact fs.cwd_isDir
        · rintro rfl
          simpa [h.1] using fs.cwd_isDir
      root_isDir := by
        rw [Function.update_of_ne (Ne.symm h.2.1)]
        exact fs.root_isDir
      parent_isDir := by
        intro m c hm
        have hkeep : fs.isDir m = true →
            (Function.update fs.node l (some n) m).any Node.isDir = true := by
          intro hd
          rw [Function.update_of_ne]
          · exact hd
          · rintro rfl
            simp [isDir, h.1] at hd
        by_cases hml : m ++ [c] = l
        · exact hkeep (by simpa [← hml] using h.2.2)
        · rw [Function.update_of_ne hml] at hm
          exact hkeep (fs.parent_isDir m c hm)
      mem_entries := by
        intro m c
        by_cases hml : m ++ [c] = l
        · obtain ⟨rfl, rfl⟩ := (concat_eq_iff h.2.1 c).mp hml
          rw [hml, Function.update_self, Function.update_self]
          simp
        · rw [Function.update_of_ne hml, ← fs.mem_entries]
          by_cases hm : m = l.dropLast
          · subst hm
            have hc : c ≠ l.getLastD [] := fun hc => hml ((concat_eq_iff h.2.1 c).mpr ⟨rfl, hc⟩)
            rw [Function.update_self, Finset.mem_insert, or_iff_right hc]
          · rw [Function.update_of_ne hm] }
  else fs

/-- Change what a node carries without turning a directory into a file or back. -/
def modify (fs : FileSystem) (l : Location) (f : Node → Node)
    (hf : ∀ n, (f n).isDir = n.isDir) : FileSystem :=
  have hany : ∀ m, (Function.update fs.node l ((fs.node l).map f) m).any Node.isDir =
      (fs.node m).any Node.isDir := by
    intro m
    by_cases hm : m = l
    · subst hm
      rw [Function.update_self]
      cases fs.node m <;> simp [hf]
    · rw [Function.update_of_ne hm]
  { fs with
    node := Function.update fs.node l ((fs.node l).map f)
    cwd_isDir := by rw [hany]; exact fs.cwd_isDir
    root_isDir := by rw [hany]; exact fs.root_isDir
    parent_isDir := by
      intro m c hm
      rw [hany]
      apply fs.parent_isDir m c
      intro hnone
      apply hm
      by_cases hml : m ++ [c] = l
      · rw [hml] at hnone ⊢
        simp [hnone]
      · rw [Function.update_of_ne hml]
        exact hnone
    mem_entries := by
      intro m c
      rw [fs.mem_entries]
      by_cases hml : m ++ [c] = l
      · rw [hml, Function.update_self]
        simp
      · rw [Function.update_of_ne hml] }

/-- Replace the bytes of a regular file; a directory is left alone. -/
def setContent (fs : FileSystem) (l : Location) (content : List UInt8) : FileSystem :=
  fs.modify l
    (fun n => match n.kind with
      | .directory => n
      | .regular _ => { n with kind := .regular content })
    (by intro n; cases h : n.kind <;> simp [Node.isDir, h])

/-- Add permission bits. -/
def addMode (fs : FileSystem) (l : Location) (bits : BitVec 12) : FileSystem :=
  fs.modify l (fun n => { n with mode := n.mode ||| bits }) (fun _ => rfl)

/-- Can the node be taken away? A directory must be empty, and the root and the working
directory are in use. -/
def removable (fs : FileSystem) (l : Location) : Bool :=
  (fs.node l).any fun n => !n.isDir || decide (fs.entries l = ∅ ∧ l ≠ [] ∧ l ≠ fs.cwd)

theorem removable_iff {fs : FileSystem} {l : Location} :
    fs.removable l = true ↔ ∃ n, fs.node l = some n ∧
      (n.isDir = false ∨ (∀ c, fs.node (l ++ [c]) = none) ∧ l ≠ [] ∧ l ≠ fs.cwd) := by
  have hempty : fs.entries l = ∅ ↔ ∀ c, fs.node (l ++ [c]) = none := by
    simp [Finset.eq_empty_iff_forall_notMem, fs.mem_entries]
  rw [removable]
  cases fs.node l with
  | none => simp
  | some n => simp [hempty]

/-- What is removed is not in use. -/
theorem ne_of_removable {fs : FileSystem} {l : Location} (h : fs.removable l = true) :
    l ≠ [] ∧ l ≠ fs.cwd := by
  obtain ⟨n, hn, hfile | ⟨-, hroot, hcwd⟩⟩ := removable_iff.mp h
  · constructor
    · rintro rfl
      have hdir := fs.root_isDir
      rw [hn, Option.any_some, hfile] at hdir
      simp at hdir
    · rintro rfl
      have hdir := fs.cwd_isDir
      rw [hn, Option.any_some, hfile] at hdir
      simp at hdir
  · exact ⟨hroot, hcwd⟩

/-- Nothing stands below it. -/
theorem below_removable {fs : FileSystem} {l : Location} (h : fs.removable l = true) (c : Name) :
    fs.node (l ++ [c]) = none := by
  obtain ⟨n, hn, hfile | ⟨hempty, -⟩⟩ := removable_iff.mp h
  · by_contra hne
    have hdir := fs.parent_isDir l c hne
    rw [hn, Option.any_some, hfile] at hdir
    simp at hdir
  · exact hempty c

/-- `remove`: take a regular file or an empty directory away. -/
def remove (fs : FileSystem) (l : Location) : FileSystem :=
  if h : fs.removable l = true then
    have hother : ∀ m, m ≠ l → (fs.node m).any Node.isDir = true →
        (Function.update fs.node l none m).any Node.isDir = true := by
      intro m hm hdir
      rwa [Function.update_of_ne hm]
    { fs with
      node := Function.update fs.node l none
      entries := Function.update fs.entries l.dropLast
        ((fs.entries l.dropLast).erase (l.getLastD []))
      cwd_isDir := hother _ (ne_of_removable h).2.symm fs.cwd_isDir
      root_isDir := hother _ (ne_of_removable h).1.symm fs.root_isDir
      parent_isDir := by
        intro m c hm
        have hne : m ++ [c] ≠ l := by
          rintro rfl
          simp at hm
        rw [Function.update_of_ne hne] at hm
        refine hother m ?_ (fs.parent_isDir m c hm)
        rintro rfl
        exact hm (below_removable h c)
      mem_entries := by
        intro m c
        by_cases hml : m ++ [c] = l
        · obtain ⟨rfl, rfl⟩ := (concat_eq_iff (ne_of_removable h).1 c).mp hml
          rw [hml, Function.update_self, Function.update_self]
          simp
        · rw [Function.update_of_ne hml, ← fs.mem_entries]
          by_cases hm : m = l.dropLast
          · subst hm
            have hc : c ≠ l.getLastD [] :=
              fun hc => hml ((concat_eq_iff (ne_of_removable h).1 c).mpr ⟨rfl, hc⟩)
            rw [Function.update_self, Finset.mem_erase, and_iff_right hc]
          · rw [Function.update_of_ne hm] }
  else fs

@[simp] theorem cwd_modify (fs : FileSystem) (l : Location) (f : Node → Node)
    (hf : ∀ n, (f n).isDir = n.isDir) : (fs.modify l f hf).cwd = fs.cwd := rfl

theorem node_modify (fs : FileSystem) (l m : Location) (f : Node → Node)
    (hf : ∀ n, (f n).isDir = n.isDir) :
    (fs.modify l f hf).node m = if m = l then (fs.node l).map f else fs.node m := by
  by_cases h : m = l
  · subst h
    simp [modify]
  · simp [modify, h]

@[simp] theorem isDir_modify (fs : FileSystem) (l m : Location) (f : Node → Node)
    (hf : ∀ n, (f n).isDir = n.isDir) : (fs.modify l f hf).isDir m = fs.isDir m := by
  unfold isDir
  rw [node_modify]
  split
  · rename_i h
    subst h
    cases fs.node m <;> simp [hf]
  · rfl

@[simp] theorem cwd_setContent (fs : FileSystem) (l : Location) (content : List UInt8) :
    (fs.setContent l content).cwd = fs.cwd := rfl

@[simp] theorem cwd_addMode (fs : FileSystem) (l : Location) (bits : BitVec 12) :
    (fs.addMode l bits).cwd = fs.cwd := rfl

@[simp] theorem isDir_setContent (fs : FileSystem) (l m : Location) (content : List UInt8) :
    (fs.setContent l content).isDir m = fs.isDir m :=
  isDir_modify ..

@[simp] theorem isDir_addMode (fs : FileSystem) (l m : Location) (bits : BitVec 12) :
    (fs.addMode l bits).isDir m = fs.isDir m :=
  isDir_modify ..

theorem node_setContent_of_ne (fs : FileSystem) {l m : Location} (h : m ≠ l)
    (content : List UInt8) : (fs.setContent l content).node m = fs.node m := by
  rw [setContent, node_modify, if_neg h]

theorem node_setContent_self {fs : FileSystem} {l : Location} {old : List UInt8} {n : Node}
    (h : fs.node l = some n) (hk : n.kind = .regular old) (content : List UInt8) :
    (fs.setContent l content).node l = some { n with kind := .regular content } := by
  rw [setContent, node_modify, if_pos rfl, h, Option.map_some]
  simp only [hk]

/-- Two trees with the same nodes and the same working directory are one. -/
theorem eq_of_node {fs fs' : FileSystem} (hnode : fs'.node = fs.node) (hcwd : fs'.cwd = fs.cwd) :
    fs' = fs := by
  have hentries : fs'.entries = fs.entries := by
    funext l
    ext c
    rw [fs.mem_entries, fs'.mem_entries, hnode]
  cases fs
  cases fs'
  cases hnode
  cases hentries
  cases hcwd
  rfl

/-- Only the last content of a file counts. -/
theorem setContent_setContent (fs : FileSystem) (l : Location) (old content : List UInt8) :
    (fs.setContent l old).setContent l content = fs.setContent l content := by
  refine eq_of_node ?_ rfl
  funext m
  by_cases hm : m = l
  · subst hm
    rw [setContent, setContent, setContent, node_modify, node_modify, node_modify, if_pos rfl]
    simp only [if_true, Option.map_map]
    congr 1
    funext n
    cases hk : n.kind <;> simp [hk]
  · rw [node_setContent_of_ne _ hm, node_setContent_of_ne _ hm, node_setContent_of_ne _ hm]

/-- Storing what a file holds changes nothing. -/
theorem setContent_eq_self {fs : FileSystem} {l : Location} {content : List UInt8} {n : Node}
    (h : fs.node l = some n) (hk : n.kind = .regular content) :
    fs.setContent l content = fs := by
  refine eq_of_node ?_ rfl
  funext m
  by_cases hm : m = l
  · rw [hm, node_setContent_self h hk, h, ← hk]
  · rw [node_setContent_of_ne _ hm]

theorem node_addMode (fs : FileSystem) (l m : Location) (bits : BitVec 12) :
    (fs.addMode l bits).node m =
      if m = l then (fs.node l).map (fun n => { n with mode := n.mode ||| bits })
      else fs.node m :=
  node_modify ..

@[simp] theorem cwd_create (fs : FileSystem) (l : Location) (n : Node) :
    (fs.create l n).cwd = fs.cwd := by
  unfold create
  split <;> rfl

/-- What `create` needs of the place it is given. -/
def Free (fs : FileSystem) (l : Location) : Prop :=
  fs.node l = none ∧ l ≠ [] ∧ fs.isDir l.dropLast = true

instance (fs : FileSystem) (l : Location) : Decidable (fs.Free l) :=
  inferInstanceAs (Decidable (_ ∧ _ ∧ _))

theorem node_create {fs : FileSystem} {l : Location} (h : fs.Free l) (n : Node) (m : Location) :
    (fs.create l n).node m = if m = l then some n else fs.node m := by
  have h' : fs.node l = none ∧ l ≠ [] ∧ fs.isDir l.dropLast = true := h
  simp only [create, h', ne_eq, not_false_eq_true, and_self, dite_true]
  by_cases hm : m = l
  · subst hm
    simp
  · simp [hm]

theorem create_of_not_free {fs : FileSystem} {l : Location} (h : ¬fs.Free l) (n : Node) :
    fs.create l n = fs := by
  unfold create
  exact dif_neg h

@[simp] theorem cwd_remove (fs : FileSystem) (l : Location) : (fs.remove l).cwd = fs.cwd := by
  unfold remove
  split <;> rfl

theorem remove_of_not_removable {fs : FileSystem} {l : Location} (h : ¬fs.removable l = true) :
    fs.remove l = fs := by
  unfold remove
  exact dif_neg h

theorem node_remove (fs : FileSystem) (l m : Location) :
    (fs.remove l).node m = if m = l ∧ fs.removable l = true then none else fs.node m := by
  by_cases h : fs.removable l = true
  · unfold remove
    simp only [h, dite_true, and_true, Function.update_apply]
  · rw [remove_of_not_removable h, if_neg fun hm => h hm.2]

theorem isDir_remove_of_ne (fs : FileSystem) {l m : Location} (h : m ≠ l) :
    (fs.remove l).isDir m = fs.isDir m := by
  rw [isDir, isDir, node_remove, if_neg fun hm => h hm.1]

/-- A path that leads to what was removed, or through it, leads nowhere any more. -/
theorem lookup_remove_eq_none {fs : FileSystem} {l : Location} {path : List UInt8}
    (h : fs.removable l = true) (hpath : place fs.cwd path = l ∨ Passes fs.cwd path l) :
    (fs.remove l).lookup path = none := by
  have hgone : (fs.remove l).node l = none := by
    rw [node_remove, if_pos ⟨rfl, h⟩]
  have hcwd := cwd_remove fs l
  rcases hpath with hplace | hpass
  · apply lookup_eq_none
    rw [hcwd, hplace, hgone]
  · rw [lookup, Option.bind_eq_none_iff]
    intro m hm
    have hdir := (resolve_eq_some_iff.mp hm).2.1 l (hcwd ▸ hpass)
    rw [isDir, hgone] at hdir
    simp at hdir

/-- All others lead to the same. -/
theorem lookup_remove_of_not {fs : FileSystem} {l : Location} {path : List UInt8}
    (hplace : place fs.cwd path ≠ l) (hpass : ¬Passes fs.cwd path l) :
    (fs.remove l).lookup path = fs.lookup path := by
  have hresolve : ∀ m, (fs.remove l).resolve path = some m ↔ fs.resolve path = some m := by
    intro m
    rw [resolve_eq_some_iff, resolve_eq_some_iff, cwd_remove]
    refine and_congr_right fun _ => and_congr_left fun _ => forall₂_congr fun k hk => ?_
    rw [isDir_remove_of_ne]
    rintro rfl
    exact hpass hk
  rw [lookup, lookup, Option.ext hresolve]
  cases hm : fs.resolve path with
  | none => rfl
  | some m =>
      rw [Option.bind_some, Option.bind_some, node_remove, if_neg]
      rw [← resolve_eq_some hm]
      exact fun hboth => hplace hboth.1

theorem isDir_create {fs : FileSystem} {l : Location} (h : fs.Free l) (n : Node)
    (m : Location) : (fs.create l n).isDir m = if m = l then n.isDir else fs.isDir m := by
  unfold isDir
  rw [node_create h]
  split <;> rfl

/-! ## Growing trees -/

/-- Readable directories appear at `dirs` and files at `files`. What was there remains, as
a directory or a file and readable or not. -/
structure Grows (dirs files : List Location) (fs fs' : FileSystem) : Prop where
  cwd : fs'.cwd = fs.cwd
  kept : ∀ l n, fs.node l = some n →
    ∃ n', fs'.node l = some n' ∧ n'.isDir = n.isDir ∧ n'.readable = n.readable
  added : ∀ l, fs'.node l ≠ none → fs.node l ≠ none ∨ l ∈ dirs ∨ l ∈ files
  dir : ∀ l ∈ dirs, ∃ n, fs'.node l = some n ∧ n.isDir = true ∧ n.readable = true
  file : ∀ l ∈ files, ∃ n, fs'.node l = some n ∧ n.isDir = false

/-- Can the node at the end of the path be opened for reading? -/
def opens (fs : FileSystem) (path : List UInt8) : Bool :=
  (fs.lookup path).any Node.readable

/-- Could it be opened if there were directories at `dirs` too? -/
structure OpensWith (dirs : List Location) (fs : FileSystem) (path : List UInt8) : Prop where
  nonempty : path ≠ []
  passes : ∀ l, Passes fs.cwd path l → fs.isDir l = true ∨ l ∈ dirs
  node : (∃ n, fs.node (place fs.cwd path) = some n ∧ n.readable = true) ∨
    place fs.cwd path ∈ dirs

theorem opens_eq_true_iff {fs : FileSystem} {path : List UInt8} :
    fs.opens path = true ↔
      ∃ n, fs.resolve path = some (place fs.cwd path) ∧
        fs.node (place fs.cwd path) = some n ∧ n.readable = true := by
  unfold opens lookup
  cases hl : fs.resolve path with
  | none => simp
  | some l =>
      rw [resolve_eq_some hl]
      cases hn : fs.node l <;> simp [hn]

namespace Grows

variable {dirs dirs' files files' : List Location} {fs fs' fs'' : FileSystem}

theorem refl (fs : FileSystem) : Grows [] [] fs fs where
  cwd := rfl
  kept _ n h := ⟨n, h, rfl, rfl⟩
  added _ h := .inl h
  dir _ h := absurd h (List.not_mem_nil)
  file _ h := absurd h (List.not_mem_nil)

theorem trans (h : Grows dirs files fs fs') (h' : Grows dirs' files' fs' fs'') :
    Grows (dirs ++ dirs') (files ++ files') fs fs'' where
  cwd := h'.cwd.trans h.cwd
  kept := by
    intro l n hn
    obtain ⟨n', hn', hd, hr⟩ := h.kept l n hn
    obtain ⟨n'', hn'', hd', hr'⟩ := h'.kept l n' hn'
    exact ⟨n'', hn'', hd'.trans hd, hr'.trans hr⟩
  added := by
    intro l hl
    rcases h'.added l hl with hl' | hnew | hnew
    · rcases h.added l hl' with hl | hnew | hnew
      · exact .inl hl
      · exact .inr (.inl (List.mem_append_left _ hnew))
      · exact .inr (.inr (List.mem_append_left _ hnew))
    · exact .inr (.inl (List.mem_append_right _ hnew))
    · exact .inr (.inr (List.mem_append_right _ hnew))
  dir := by
    intro l hl
    rcases List.mem_append.mp hl with hl | hl
    · obtain ⟨n, hn, hd, hr⟩ := h.dir l hl
      obtain ⟨n', hn', hd', hr'⟩ := h'.kept l n hn
      exact ⟨n', hn', hd'.trans hd, hr'.trans hr⟩
    · exact h'.dir l hl
  file := by
    intro l hl
    rcases List.mem_append.mp hl with hl | hl
    · obtain ⟨n, hn, hd⟩ := h.file l hl
      obtain ⟨n', hn', hd', -⟩ := h'.kept l n hn
      exact ⟨n', hn', hd'.trans hd⟩
    · exact h'.file l hl

/-- A file may be counted as new whether it was there or not. -/
theorem cons_file (h : Grows dirs files fs fs') {l : Location} {n : Node}
    (hn : fs'.node l = some n) (hd : n.isDir = false) : Grows dirs (l :: files) fs fs' where
  cwd := h.cwd
  kept := h.kept
  added m hm := (h.added m hm).imp_right (Or.imp_right (List.mem_cons_of_mem l))
  dir := h.dir
  file := by
    intro m hm
    rcases List.mem_cons.mp hm with rfl | hm
    · exact ⟨n, hn, hd⟩
    · exact h.file m hm

theorem isDir (h : Grows dirs files fs fs') {l : Location} (hl : fs.isDir l = true) :
    fs'.isDir l = true := by
  unfold FileSystem.isDir at hl ⊢
  cases hn : fs.node l with
  | none => simp [hn] at hl
  | some n =>
      obtain ⟨n', hn', hd, -⟩ := h.kept l n hn
      rw [hn, Option.any_some] at hl
      rw [hn', Option.any_some, hd, hl]

/-- The new directories are those in `dirs`. -/
theorem isDir_iff (h : Grows dirs files fs fs') {l : Location} :
    fs'.isDir l = true ↔ fs.isDir l = true ∨ l ∈ dirs := by
  constructor
  · intro hl
    cases hn : fs.node l with
    | none =>
        have hne : fs'.node l ≠ none := by
          intro hnone
          simp [FileSystem.isDir, hnone] at hl
        rcases h.added l hne with hold | hdir | hfile
        · exact absurd hn hold
        · exact .inr hdir
        · obtain ⟨n, hn', hd⟩ := h.file l hfile
          simp [FileSystem.isDir, hn', hd] at hl
    | some n =>
        left
        obtain ⟨n', hn', hd, -⟩ := h.kept l n hn
        simpa [FileSystem.isDir, hn, hn', hd] using hl
  · rintro (hl | hl)
    · exact h.isDir hl
    · obtain ⟨n, hn, hd, -⟩ := h.dir l hl
      simp [FileSystem.isDir, hn, hd]

/-- What resolved still resolves to the same place. -/
theorem resolve (h : Grows dirs files fs fs') {path : List UInt8} {l : Location}
    (hl : fs.resolve path = some l) : fs'.resolve path = some l := by
  rw [resolve_eq_some_iff] at hl ⊢
  rw [h.cwd]
  exact ⟨hl.1, fun m hm => h.isDir (hl.2.1 m hm), hl.2.2⟩

theorem lookup (h : Grows dirs files fs fs') {path : List UInt8} {n : Node}
    (hn : fs.lookup path = some n) :
    ∃ n', fs'.lookup path = some n' ∧ n'.readable = n.readable := by
  obtain ⟨l, hl, hn⟩ := Option.bind_eq_some_iff.mp hn
  obtain ⟨n', hn', -, hr⟩ := h.kept l n hn
  exact ⟨n', by rw [FileSystem.lookup, h.resolve hl, Option.bind_some, hn'], hr⟩

theorem opens (h : Grows dirs files fs fs') {path : List UInt8} (ho : fs.opens path = true) :
    fs'.opens path = true := by
  obtain ⟨n, hn, hr⟩ := (Option.any_eq_true _ _).mp ho
  obtain ⟨n', hn', hr'⟩ := h.lookup hn
  rw [FileSystem.opens, hn', Option.any_some, hr', hr]

/-- Apart from the new files, what can be opened depends on the new directories only. -/
theorem opens_iff (h : Grows dirs files fs fs') {path : List UInt8}
    (hp : place fs.cwd path ∉ files) : fs'.opens path = true ↔ OpensWith dirs fs path := by
  rw [opens_eq_true_iff, resolve_eq_some_iff, h.cwd]
  constructor
  · rintro ⟨n, ⟨hne, hpass, -⟩, hn, hr⟩
    refine ⟨hne, fun l hl => h.isDir_iff.mp (hpass l hl), ?_⟩
    rcases h.added _ (by rw [hn]; simp) with hold | hdir | hfile
    · obtain ⟨n₀, hn₀⟩ := Option.ne_none_iff_exists'.mp hold
      obtain ⟨n', hn', -, hr'⟩ := h.kept _ n₀ hn₀
      rw [hn, Option.some.injEq] at hn'
      exact .inl ⟨n₀, hn₀, by rw [← hr', ← hn', hr]⟩
    · exact .inr hdir
    · exact absurd hfile hp
  · rintro ⟨hne, hpass, hnode⟩
    have hend : ∃ n, fs'.node (place fs.cwd path) = some n ∧ n.readable = true := by
      rcases hnode with ⟨n, hn, hr⟩ | hdir
      · obtain ⟨n', hn', -, hr'⟩ := h.kept _ n hn
        exact ⟨n', hn', hr'.trans hr⟩
      · obtain ⟨n, hn, -, hr⟩ := h.dir _ hdir
        exact ⟨n, hn, hr⟩
    obtain ⟨n, hn, hr⟩ := hend
    exact ⟨n, ⟨hne, fun l hl => h.isDir_iff.mpr (hpass l hl), rfl⟩, hn, hr⟩

end Grows

theorem added_create {fs : FileSystem} {l m : Location} (h : fs.Free l) {n : Node}
    (hm : (fs.create l n).node m ≠ none) : fs.node m ≠ none ∨ m = l := by
  by_cases hml : m = l
  · exact .inr hml
  · rw [node_create h, if_neg hml] at hm
    exact .inl hm

theorem kept_create {fs : FileSystem} {l m : Location} (h : fs.Free l) {n k : Node}
    (hm : fs.node m = some k) : (fs.create l n).node m = some k := by
  rw [node_create h, if_neg, hm]
  rintro rfl
  rw [h.1] at hm
  simp at hm

theorem grows_create_file {fs : FileSystem} {l : Location} (h : fs.Free l) {n : Node}
    (hn : n.isDir = false) : Grows [] [l] fs (fs.create l n) where
  cwd := cwd_create ..
  kept m k hm := ⟨k, kept_create h hm, rfl, rfl⟩
  added m hm := (added_create h hm).imp_right fun heq => .inr (by simp [heq])
  dir m hm := absurd hm (List.not_mem_nil)
  file m hm := ⟨n, by rw [List.mem_singleton.mp hm, node_create h, if_pos rfl], hn⟩

/-- Changing a node without changing what it is. -/
theorem grows_modify {fs : FileSystem} {l : Location} {f : Node → Node}
    {hf : ∀ n, (f n).isDir = n.isDir} (hr : ∀ n, (f n).readable = n.readable) :
    Grows [] [] fs (fs.modify l f hf) where
  cwd := rfl
  kept := by
    intro m n hn
    by_cases hml : m = l
    · subst hml
      exact ⟨f n, by rw [node_modify, if_pos rfl, hn, Option.map_some], hf n, hr n⟩
    · exact ⟨n, by rw [node_modify, if_neg hml, hn], rfl, rfl⟩
  added := by
    intro m hm
    rw [node_modify] at hm
    split at hm
    · rename_i hml
      subst hml
      exact .inl fun hnone => hm (by rw [hnone, Option.map_none])
    · exact .inl hm
  dir _ hm := absurd hm (List.not_mem_nil)
  file _ hm := absurd hm (List.not_mem_nil)

theorem grows_setContent (fs : FileSystem) (l : Location) (content : List UInt8) :
    Grows [] [] fs (fs.setContent l content) :=
  grows_modify fun n => by cases n.kind <;> rfl

theorem grows_addMode (fs : FileSystem) (l : Location) (bits : BitVec 12) :
    Grows [] [] fs (fs.addMode l bits) :=
  grows_modify fun _ => rfl

end FileSystem

end FileTree
