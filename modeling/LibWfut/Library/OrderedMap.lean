import Std.Data.ExtTreeMap
import Mathlib.Data.List.Basic

/-! # Ordered maps

The first entry of an ordered map, and maps filled value by value. -/

namespace OrderedMap

variable {α β : Type*} {cmp : α → α → Ordering} [Std.TransCmp cmp]

/-- The entry with the least key. -/
def first (m : Std.ExtTreeMap α β cmp) : Option (α × β) :=
  m.toList.head?

variable [Std.LawfulEqCmp cmp] {m m' : Std.ExtTreeMap α β cmp} {k : α} {v : β}

theorem getElem?_of_first (h : first m = some (k, v)) : m[k]? = some v :=
  Std.ExtTreeMap.mem_toList_iff_getElem?_eq_some.mp (List.mem_of_mem_head? h)

omit [Std.LawfulEqCmp cmp] in
theorem eq_empty_of_first (h : first m = none) : m = ∅ :=
  Std.ExtTreeMap.toList_eq_nil_iff.mp (List.head?_eq_none_iff.mp h)

omit [Std.LawfulEqCmp cmp] in
theorem first_eq_none (h : first m = none) (k : α) : m[k]? = none := by
  simp [eq_empty_of_first h]

omit [Std.LawfulEqCmp cmp] in
theorem size_erase_add_one (h : m[k]? = some v) : (m.erase k).size + 1 = m.size := by
  have hmem : k ∈ m := by
    rw [Std.ExtTreeMap.mem_iff_isSome_getElem?, h]
    rfl
  have hpos : m.size ≠ 0 := by
    intro hzero
    rw [Std.ExtTreeMap.eq_empty_iff_size_eq_zero.mpr hzero] at h
    simp at h
  rw [Std.ExtTreeMap.size_erase, if_pos (Std.ExtTreeMap.contains_iff_mem.mpr hmem)]
  omega

/-- The first key comes before every other key. -/
theorem first_lt (h : first m = some (k, v)) {k' : α} (hk : m[k']? ≠ none) (hne : k' ≠ k) :
    cmp k k' = .lt := by
  obtain ⟨v', hv'⟩ := Option.ne_none_iff_exists'.mp hk
  have hmem := Std.ExtTreeMap.mem_toList_iff_getElem?_eq_some.mpr hv'
  have hsorted := Std.ExtTreeMap.ordered_keys_toList (t := m)
  obtain ⟨rest, hrest⟩ := List.head?_eq_some_iff.mp h
  rw [hrest] at hmem hsorted
  rcases List.mem_cons.mp hmem with heq | hmem
  · exact absurd (congrArg Prod.fst heq) hne
  · exact (List.pairwise_cons.mp hsorted).1 _ hmem

/-- The first key stays first when no key is added. -/
theorem first_of_subset {v' : β} (h : first m = some (k, v)) (hk : m'[k]? = some v')
    (hsub : ∀ k' : α, m'[k']? ≠ none → m[k']? ≠ none) : first m' = some (k, v') := by
  cases hf : first m' with
  | none =>
      rw [first_eq_none hf k] at hk
      simp at hk
  | some e =>
      obtain ⟨k₁, v₁⟩ := e
      have hk₁ := getElem?_of_first hf
      by_cases hne : k₁ = k
      · subst hne
        rw [hk] at hk₁
        rw [Option.some.inj hk₁]
      · have hlt : cmp k₁ k = .lt := first_lt hf (by simp [hk]) (Ne.symm hne)
        have hgt := first_lt h (hsub k₁ (by simp [hk₁])) hne
        have hswap : cmp k k₁ = (cmp k₁ k).swap := Std.OrientedCmp.eq_swap
        rw [hswap, hlt] at hgt
        simp at hgt

/-! ## Filling a map -/

omit [Std.LawfulEqCmp cmp] in
/-- Insert values under keys of their own, later ones over earlier ones. -/
def insertAll (key : β → α) (l : List β) (m : Std.ExtTreeMap α β cmp) :
    Std.ExtTreeMap α β cmp :=
  l.foldl (fun m x => m.insert (key x) x) m

variable [DecidableEq α] {key : β → α}

/-- The last value with a key is the one found. -/
theorem getElem?_insertAll (l : List β) (m : Std.ExtTreeMap α β cmp) (k : α) :
    (insertAll key l m)[k]? = (l.filter fun x => key x = k).getLast?.or m[k]? := by
  induction l generalizing m with
  | nil => simp [insertAll]
  | cons x l ih =>
      have hstep : insertAll key (x :: l) m = insertAll key l (m.insert (key x) x) := rfl
      rw [hstep, ih, Std.ExtTreeMap.getElem?_insert]
      by_cases hx : key x = k
      · rw [List.filter_cons_of_pos (by simpa using hx), List.getLast?_cons]
        cases (l.filter fun x => key x = k).getLast? <;> simp [hx]
      · have hcmp : cmp (key x) k ≠ .eq := fun heq => hx (Std.LawfulEqCmp.eq_of_compare heq)
        rw [List.filter_cons_of_neg (by simpa using hx), if_neg hcmp]

theorem mem_of_getElem?_insertAll {l : List β} {k : α} {x : β}
    (h : (insertAll key l m)[k]? = some x) : (x ∈ l ∧ key x = k) ∨ m[k]? = some x := by
  rw [getElem?_insertAll] at h
  cases hlast : (l.filter fun x => key x = k).getLast? with
  | none =>
      rw [hlast, Option.none_or] at h
      exact .inr h
  | some y =>
      rw [hlast, Option.some_or, Option.some.injEq] at h
      subst h
      obtain ⟨hmem, hkey⟩ := List.mem_filter.mp (List.mem_of_mem_getLast? hlast)
      exact .inl ⟨hmem, by simpa using hkey⟩

section Values

variable (hkey : ∀ (k : α) (v : β), m[k]? = some v → key v = k) (p : α × β → Bool)

include hkey

theorem of_getElem?_insertAll_filter
    (h : (insertAll key ((m.toList.filter p).map Prod.snd)
      (∅ : Std.ExtTreeMap α β cmp))[k]? = some v) : m[k]? = some v ∧ p (k, v) = true := by
  rcases mem_of_getElem?_insertAll h with ⟨hv, hk⟩ | hnone
  · obtain ⟨⟨k', v'⟩, he, rfl⟩ := List.mem_map.mp hv
    obtain ⟨he, hp⟩ := List.mem_filter.mp he
    have hk' := Std.ExtTreeMap.mem_toList_iff_getElem?_eq_some.mp he
    have heq : k' = k := (hkey k' v' hk').symm.trans hk
    subst heq
    exact ⟨hk', hp⟩
  · simp at hnone

/-- The values of a map that pass a test, when they know their keys. -/
theorem getElem?_insertAll_filter (k : α) :
    (insertAll key ((m.toList.filter p).map Prod.snd) (∅ : Std.ExtTreeMap α β cmp))[k]? =
      m[k]?.filter fun v => p (k, v) := by
  apply Option.ext
  intro v
  rw [Option.filter_eq_some_iff]
  constructor
  · exact of_getElem?_insertAll_filter hkey p
  · rintro ⟨hk, hp⟩
    cases hfound : (insertAll key ((m.toList.filter p).map Prod.snd)
        (∅ : Std.ExtTreeMap α β cmp))[k]? with
    | none =>
        rw [getElem?_insertAll] at hfound
        obtain ⟨hlast, -⟩ := Option.or_eq_none_iff.mp hfound
        have hmem : v ∈ (m.toList.filter p).map Prod.snd :=
          List.mem_map.mpr ⟨(k, v), List.mem_filter.mpr
            ⟨Std.ExtTreeMap.mem_toList_iff_getElem?_eq_some.mpr hk, hp⟩, rfl⟩
        have hin := List.mem_filter (p := fun x => key x = k).mpr
          ⟨hmem, by simpa using hkey k v hk⟩
        rw [List.getLast?_eq_none_iff.mp hlast] at hin
        exact absurd hin List.not_mem_nil
    | some v' =>
        rw [← hk, (of_getElem?_insertAll_filter hkey p hfound).1]

/-- A map whose values know their keys is the map of its values. -/
theorem insertAll_values : insertAll key (m.toList.map Prod.snd) ∅ = m := by
  apply Std.ExtTreeMap.ext_getElem?
  intro k
  have hall := getElem?_insertAll_filter hkey (fun _ => true) k
  rw [List.filter_true] at hall
  rw [hall]
  cases m[k]? <;> rfl

omit hkey in
/-- Changing the values but not their keys changes what is found. -/
theorem getElem?_insertAll_map {f : β → β}
    (hkeep : ∀ (k : α) (v : β), m[k]? = some v → key (f v) = k) (k : α) :
    (insertAll key ((m.toList.map Prod.snd).map f) (∅ : Std.ExtTreeMap α β cmp))[k]? =
      m[k]?.map f := by
  have hvalue : ∀ w ∈ (m.toList.map Prod.snd).map f, key w = k →
      m[k]?.map f = some w := by
    intro w hw hk
    obtain ⟨v, hv, rfl⟩ := List.mem_map.mp hw
    obtain ⟨⟨k', v'⟩, he, rfl⟩ := List.mem_map.mp hv
    have hentry := Std.ExtTreeMap.mem_toList_iff_getElem?_eq_some.mp he
    rw [hkeep k' v' hentry] at hk
    rw [← hk, hentry, Option.map_some]
  cases hfound : (insertAll key ((m.toList.map Prod.snd).map f)
      (∅ : Std.ExtTreeMap α β cmp))[k]? with
  | some w =>
      rcases mem_of_getElem?_insertAll hfound with ⟨hw, hk⟩ | hnone
      · exact (hvalue w hw hk).symm
      · simp at hnone
  | none =>
      rw [getElem?_insertAll] at hfound
      obtain ⟨hlast, -⟩ := Option.or_eq_none_iff.mp hfound
      cases hv : m[k]? with
      | none => rfl
      | some v =>
          have hmem : f v ∈ (m.toList.map Prod.snd).map f :=
            List.mem_map_of_mem (List.mem_map.mpr
              ⟨(k, v), Std.ExtTreeMap.mem_toList_iff_getElem?_eq_some.mpr hv, rfl⟩)
          have hin := List.mem_filter (p := fun x => key x = k).mpr
            ⟨hmem, by simpa using hkeep k v hv⟩
          rw [List.getLast?_eq_none_iff.mp hlast] at hin
          exact absurd hin List.not_mem_nil

end Values

end OrderedMap
