import LibWfut.Library.FileTree

/-! # Finite trees and their listings

A finite tree together with the names that reading each of its directories delivers, and
the texts of the paths below a path. -/

namespace FileTree

/-- A name that something in a directory can have. -/
structure Proper (c : Name) : Prop where
  ne_nil : c ≠ []
  ne_dot : c ≠ dot
  ne_dotdot : c ≠ dotdot
  separator : separator ∉ c
  terminator : 0 ∉ c

/-- `readdir l` is what reading the directory at `l` delivers, in this order. -/
structure ListedTree where
  fs : FileSystem
  readdir : Location → List Name
  nodup : ∀ l, (readdir l).Nodup
  mem_readdir : ∀ l, fs.isDir l = true → ∀ c,
    c ∈ readdir l ↔ c = dot ∨ c = dotdot ∨ fs.node (l ++ [c]) ≠ none
  proper : ∀ l c, fs.node (l ++ [c]) ≠ none → Proper c
  finite : ∃ depth, ∀ l, fs.node l ≠ none → l.length ≤ depth

/-! ## Children -/

theorem walk_append (isDir : Location → Bool) (l : Location) (cs ds : List Name) :
    walk isDir l (cs ++ ds) = (walk isDir l cs).bind fun m => walk isDir m ds := by
  induction cs generalizing l with
  | nil => rfl
  | cons c cs ih =>
      by_cases hd : isDir l = true
      · simp only [List.cons_append, walk, hd, ite_true, ih]
      · simp [walk, hd]

/-- A proper name leads from a directory to its child. -/
theorem FileSystem.resolve_child {fs : FileSystem} {path : List UInt8} {l : Location}
    (h : fs.resolve path = some l) (hl : fs.isDir l = true) {c : Name} (hc : Proper c) :
    fs.resolve (path ++ separator :: c) = some (l ++ [c]) := by
  obtain ⟨hne, -⟩ := resolve_eq_some_iff.mp h
  rw [resolve, if_neg hne] at h
  rw [resolve, if_neg (by simp), List.splitOn_append_cons_self,
    List.splitOn_eq_singleton hc.separator, start_append hne, walk_append, h]
  simp [walk, hl, next, hc.ne_nil, hc.ne_dot, hc.ne_dotdot]

/-- Nothing stands below a regular file. -/
theorem FileSystem.eq_nil_of_regular {fs : FileSystem} {l : Location} {cs : List Name}
    (hl : fs.isDir l = false) (h : fs.node (l ++ cs) ≠ none) : cs = [] := by
  induction cs using List.reverseRecOn with
  | nil => rfl
  | append_singleton cs c ih =>
      rw [← List.append_assoc] at h
      have hdir := fs.parent_isDir (l ++ cs) c h
      have hnil := ih (by intro hnone; rw [hnone] at hdir; simp at hdir)
      rw [hnil, List.append_nil] at hdir
      rw [FileSystem.isDir, hdir] at hl
      simp at hl

/-! ## Texts -/

/-- The text of the path that goes on from a path through these names. -/
def pathBelow (path : List UInt8) (cs : List Name) : List UInt8 :=
  path ++ cs.flatMap (separator :: ·)

@[simp] theorem pathBelow_nil (path : List UInt8) : pathBelow path [] = path := by
  simp [pathBelow]

theorem pathBelow_cons (path : List UInt8) (c : Name) (cs : List Name) :
    pathBelow path (c :: cs) = pathBelow (path ++ separator :: c) cs := by
  simp [pathBelow]

theorem pathBelow_concat (path : List UInt8) (cs : List Name) (c : Name) :
    pathBelow path (cs ++ [c]) = pathBelow path cs ++ separator :: c := by
  simp [pathBelow]

theorem eq_of_flatMap_separator {cs ds : List Name} (hcs : ∀ c ∈ cs, separator ∉ c)
    (hds : ∀ d ∈ ds, separator ∉ d)
    (h : cs.flatMap (separator :: ·) = ds.flatMap (separator :: ·)) : cs = ds := by
  induction cs generalizing ds with
  | nil =>
      cases ds with
      | nil => rfl
      | cons d ds => simp at h
  | cons c cs ih =>
      cases ds with
      | nil => simp at h
      | cons d ds =>
          have hname : ∀ {a : Name} {as : List Name}, separator ∉ a →
              (a ++ as.flatMap (separator :: ·)).takeWhile (· ≠ separator) = a := by
            intro a as ha
            have hall : ∀ x ∈ a, decide (x ≠ separator) = true := by
              intro x hx
              simpa using ne_of_mem_of_not_mem hx ha
            rw [List.takeWhile_append_of_pos hall]
            cases as <;> simp
          rw [List.flatMap_cons, List.flatMap_cons, List.cons_append, List.cons_append,
            List.cons.injEq] at h
          have hcd : c = d := by
            rw [← hname (hcs c (List.mem_cons_self ..)), h.2,
              hname (hds d (List.mem_cons_self ..))]
          subst hcd
          rw [List.append_cancel_left_eq] at h
          rw [ih (fun x hx => hcs x (List.mem_cons_of_mem _ hx))
            (fun x hx => hds x (List.mem_cons_of_mem _ hx)) h.2]

/-- The text of a path tells the names that it goes through. -/
theorem eq_of_pathBelow {path : List UInt8} {cs ds : List Name} (hcs : ∀ c ∈ cs, separator ∉ c)
    (hds : ∀ d ∈ ds, separator ∉ d) (h : pathBelow path cs = pathBelow path ds) : cs = ds :=
  eq_of_flatMap_separator hcs hds (List.append_cancel_left h)

/-- Every name on the way to something that exists is proper. -/
theorem ListedTree.proper_of_mem (t : ListedTree) {l : Location} {cs : List Name}
    (h : t.fs.node (l ++ cs) ≠ none) {c : Name} (hc : c ∈ cs) : Proper c := by
  induction cs using List.reverseRecOn with
  | nil => simp at hc
  | append_singleton cs d ih =>
      rw [← List.append_assoc] at h
      rcases List.mem_append.mp hc with hc | hc
      · refine ih ?_ hc
        intro hnone
        have hdir := t.fs.parent_isDir (l ++ cs) d h
        rw [hnone] at hdir
        simp at hdir
      · rw [List.mem_singleton.mp hc]
        exact t.proper _ _ h

end FileTree
