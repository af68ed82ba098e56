import Mathlib.Data.List.Infix
import Mathlib.Data.List.TakeWhile

/-! # Reading a text from its start

A reader takes what a text starts with and returns it with the rest. -/

namespace Scan

variable {α : Type*}

/-! ## Up to a tag -/

section UpTo

variable [DecidableEq α]

/-- What stands before the first place where the tag begins, and the text from there on. -/
def upTo (tag : List α) : List α → List α × List α
  | [] => ([], [])
  | c :: rest =>
    if tag.isPrefixOf (c :: rest) then ([], c :: rest)
    else (c :: (upTo tag rest).1, (upTo tag rest).2)

theorem upTo_append (tag p : List α) : (upTo tag p).1 ++ (upTo tag p).2 = p := by
  induction p with
  | nil => rfl
  | cons c p ih =>
      rw [upTo]
      split
      · rfl
      · simp [ih]

theorem upTo_suffix (tag p : List α) : (upTo tag p).2 <:+ p :=
  ⟨_, upTo_append tag p⟩

/-- The tag begins nowhere in what stands before it. -/
theorem upTo_eq {tag v rest : List α}
    (h : ∀ s, s ≠ [] → s <:+ v → ¬tag <+: s ++ (tag ++ rest)) (hne : tag ≠ []) :
    upTo tag (v ++ (tag ++ rest)) = (v, tag ++ rest) := by
  induction v with
  | nil =>
      obtain ⟨c, tag, rfl⟩ := List.exists_cons_of_ne_nil hne
      rw [List.nil_append, List.cons_append, upTo, if_pos]
      exact List.isPrefixOf_iff_prefix.mpr (List.prefix_append ..)
  | cons c v ih =>
      have hself := h (c :: v) (by simp) List.suffix_rfl
      rw [List.cons_append, upTo, if_neg, ih fun s hs hv => h s hs (hv.trans (List.suffix_cons ..))]
      rw [List.isPrefixOf_iff_prefix]
      exact hself

theorem not_infix_upTo {tag : List α} (hne : tag ≠ []) (p : List α) :
    ¬tag <:+: (upTo tag p).1 := by
  induction p with
  | nil => simpa [upTo] using hne
  | cons c p ih =>
      rw [upTo]
      split
      · simpa using hne
      · rename_i htag
        rw [List.infix_cons_iff, not_or]
        refine ⟨fun hpre => htag (List.isPrefixOf_iff_prefix.mpr (hpre.trans ?_)), ih⟩
        rw [List.cons_prefix_cons]
        exact ⟨rfl, _, upTo_append tag p⟩

end UpTo

/-! ## Two elements in a row -/

section Pairs

variable {a b : α} {v w : List α}

/-- A pair does not arise where two texts meet, if the first does not end with its first
element. -/
theorem not_pair_append (hv : ¬[a, b] <:+: v) (hw : ¬[a, b] <:+: w) (hlast : v.getLast? ≠ some a) :
    ¬[a, b] <:+: v ++ w := by
  induction v with
  | nil => exact hw
  | cons c v ih =>
      rw [List.infix_cons_iff, not_or] at hv
      have hlast' : v.getLast? ≠ some a := by
        cases v with
        | nil => simp
        | cons d v => simpa using hlast
      rw [List.cons_append, List.infix_cons_iff, not_or]
      refine ⟨fun hpre => ?_, ih hv.2 hlast'⟩
      obtain ⟨rfl, htail⟩ := List.cons_prefix_cons.mp hpre
      cases v with
      | nil => simp at hlast
      | cons d v =>
          obtain ⟨rfl, -⟩ := List.cons_prefix_cons.mp htail
          exact hv.1 (List.prefix_append [a, b] v)

theorem not_pair_cons (ha : a ∉ v) (hb : v.head? ≠ some b) (c : α) : ¬[a, b] <:+: c :: v := by
  rw [List.infix_cons_iff, not_or]
  refine ⟨fun hpre => ?_, fun hm => ha (hm.subset (List.mem_cons_self ..))⟩
  cases v with
  | nil => simp at hpre
  | cons d v =>
      obtain ⟨rfl, -⟩ := List.cons_prefix_cons.mp (List.cons_prefix_cons.mp hpre).2
      exact hb rfl

end Pairs

/-! ## Readers that may fail -/

section Returns

variable {ε : Type*} {β : Type*}

/-- The reader ends with something good and what is left of the text, or fails in a way that
is allowed. -/
inductive Returns (allowed : ε → Prop) (good : β → Prop) (p : List α) :
    Except ε (β × List α) → Prop
  | ok {b : β} {rest : List α} (hgood : good b) (hrest : rest <:+ p) :
      Returns allowed good p (.ok (b, rest))
  | error {e : ε} (h : allowed e) : Returns allowed good p (.error e)

variable {allowed : ε → Prop} {good : β → Prop} {p q : List α} {x : Except ε (β × List α)}

theorem Returns.cases (h : Returns allowed good p x) :
    (∃ e, x = .error e ∧ allowed e) ∨
      ∃ b rest, x = .ok (b, rest) ∧ good b ∧ rest <:+ p := by
  cases h with
  | ok hgood hrest => exact .inr ⟨_, _, rfl, hgood, hrest⟩
  | error h => exact .inl ⟨_, rfl, h⟩

theorem Returns.of_suffix (h : Returns allowed good q x) (hq : q <:+ p) :
    Returns allowed good p x := by
  cases h with
  | ok hgood hrest => exact .ok hgood (hrest.trans hq)
  | error h => exact .error h

end Returns

/-- One reader after the other. -/
theorem Returns.bind {ε β γ : Type _} {allowed : ε → Prop} {good : β → Prop}
    {good' : γ → Prop} {p : List α} {x : Except ε (β × List α)}
    {f : β × List α → Except ε (γ × List α)} (h : Returns allowed good p x)
    (hf : ∀ b rest, good b → rest <:+ p → Returns allowed good' rest (f (b, rest))) :
    Returns allowed good' p (x >>= f) := by
  cases h with
  | ok hgood hrest => exact (hf _ _ hgood hrest).of_suffix hrest
  | error h => exact .error h

end Scan
