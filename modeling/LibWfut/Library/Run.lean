import Mathlib.Data.List.Basic

/-! # Runs of a machine whose steps may fault

A machine is a function `step : σ → ι → Except ε σ`. A run feeds it a list of
labels and stops at the first fault. -/

namespace Machine

theorem ok_bind {ε : Type*} {α β : Type _} (a : α) (f : α → Except ε β) :
    (Except.ok a >>= f) = f a := rfl

theorem bind_eq_ok {ε : Type*} {α β : Type _} {x : Except ε α} {f : α → Except ε β} {b : β}
    (h : (x >>= f) = .ok b) : ∃ a, x = .ok a ∧ f a = .ok b := by
  cases x with
  | error e => simp [bind, Except.bind] at h
  | ok a => exact ⟨a, rfl, h⟩

theorem map_eq_ok {ε : Type*} {α β : Type _} {x : Except ε α} {f : α → β} {b : β}
    (h : x.map f = .ok b) : ∃ a, x = .ok a ∧ f a = b := by
  cases x with
  | error e => simp [Except.map] at h
  | ok a => exact ⟨a, rfl, Except.ok.inj h⟩

theorem map_eq_error {ε : Type*} {α β : Type _} {x : Except ε α} {f : α → β} {e : ε}
    (h : x.map f = .error e) : x = .error e := by
  cases x with
  | error e' => rw [Except.error.inj h]
  | ok a => simp [Except.map] at h

/-- The same fault, or related results. -/
inductive Related {ε α β : Type*} (R : α → β → Prop) : Except ε α → Except ε β → Prop
  | ok {a : α} {b : β} (h : R a b) : Related R (.ok a) (.ok b)
  | error (e : ε) : Related R (.error e) (.error e)

theorem Related.bind {ε α β : Type _} {α' β' : Type _} {R : α → β → Prop} {Q : α' → β' → Prop}
    {x : Except ε α} {y : Except ε β} {f : α → Except ε α'} {g : β → Except ε β'}
    (h : Related R x y)
    (hf : ∀ a b, x = .ok a → y = .ok b → R a b → Related Q (f a) (g b)) :
    Related Q (x.bind f) (y.bind g) := by
  cases h with
  | ok hr => exact hf _ _ rfl rfl hr
  | error e => exact .error e

theorem Related.of_ok {ε α β : Type*} {R : α → β → Prop} {x : Except ε α} {y : Except ε β} {a : α}
    (h : Related R x y) (hx : x = .ok a) : ∃ b, y = .ok b ∧ R a b := by
  subst hx
  cases h with
  | ok hr => exact ⟨_, rfl, hr⟩

theorem Related.of_error {ε α β : Type*} {R : α → β → Prop} {x : Except ε α} {y : Except ε β}
    {e : ε} (h : Related R x y) (hx : x = .error e) : y = .error e := by
  subst hx
  cases h with
  | error e => rfl

/-- Of a run that is related to itself. -/
theorem Related.self {ε α : Type*} {R : α → α → Prop} {x : Except ε α} {a : α}
    (h : Related R x x) (hx : x = .ok a) : R a a := by
  obtain ⟨b, hb, hr⟩ := h.of_ok hx
  rw [hx, Except.ok.injEq] at hb
  subst hb
  exact hr

theorem Related.of_map {ε α β : Type*} {R : α → β → Prop} {x : Except ε α} {y : Except ε β}
    {f : α → β} (h : y = x.map f) (hr : ∀ a, x = .ok a → R a (f a)) : Related R x y := by
  subst h
  cases x with
  | ok a => exact .ok (hr a rfl)
  | error e => exact .error e

variable {σ ι ε : Type*} (step : σ → ι → Except ε σ)

/-- Feed a list of labels to the machine. -/
def run : σ → List ι → Except ε σ
  | s, [] => .ok s
  | s, i :: is => (step s i).bind fun t => run t is

/-- The run never offers a label outside `allowed` to a state it reaches. -/
def Permitted (allowed : σ → ι → Prop) : σ → List ι → Prop
  | _, [] => True
  | s, i :: is => allowed s i ∧ ∀ t, step s i = .ok t → Permitted allowed t is

@[simp] theorem run_nil (s : σ) : run step s [] = .ok s := rfl

theorem run_cons (s : σ) (i : ι) (is : List ι) :
    run step s (i :: is) = (step s i).bind fun t => run step t is := rfl

theorem run_cons_of_ok {s t : σ} {i : ι} (h : step s i = .ok t) (is : List ι) :
    run step s (i :: is) = run step t is := by
  rw [run_cons, h]
  rfl

/-- A successful run of a nonempty list splits into its first step and the rest. -/
theorem run_cons_eq_ok {s u : σ} {i : ι} {is : List ι} (h : run step s (i :: is) = .ok u) :
    ∃ t, step s i = .ok t ∧ run step t is = .ok u := by
  rw [run_cons] at h
  cases hs : step s i with
  | error e => simp [hs, Except.bind] at h
  | ok t => exact ⟨t, rfl, by simpa [hs, Except.bind] using h⟩

/-- Every label of a successful run had a step. -/
theorem run_mem_ok {s u : σ} {is : List ι} (h : run step s is = .ok u) {i : ι} (hi : i ∈ is) :
    ∃ s₁ s₂, step s₁ i = .ok s₂ := by
  induction is generalizing s with
  | nil => simp at hi
  | cons j is ih =>
      obtain ⟨t, ht, hrest⟩ := run_cons_eq_ok step h
      rcases List.mem_cons.mp hi with rfl | hi
      · exact ⟨s, t, ht⟩
      · exact ih hrest hi

/-- What no step changes is the same after a run. -/
theorem run_unchanged {α : Type*} {f : σ → α} (hstep : ∀ s i t, step s i = .ok t → f t = f s)
    {s u : σ} {is : List ι} (h : run step s is = .ok u) : f u = f s := by
  induction is generalizing s with
  | nil => rw [← Except.ok.inj h]
  | cons i is ih =>
      obtain ⟨t, ht, hrest⟩ := run_cons_eq_ok step h
      rw [ih hrest, hstep s i t ht]

/-- What every step with a good label keeps, a run of good labels keeps. -/
theorem run_preserves {good : ι → Prop} {inv : σ → Prop}
    (hstep : ∀ s i t, inv s → good i → step s i = .ok t → inv t) {s u : σ} {is : List ι}
    (hs : inv s) (his : ∀ i ∈ is, good i) (h : run step s is = .ok u) : inv u := by
  induction is generalizing s with
  | nil => rwa [← Except.ok.inj h]
  | cons i is ih =>
      obtain ⟨t, ht, hrest⟩ := run_cons_eq_ok step h
      have htinv := hstep s i t hs (his i (List.mem_cons_self ..)) ht
      exact ih htinv (fun j hj => his j (List.mem_cons_of_mem i hj)) hrest

/-- A run of two lists goes on where the first has ended. -/
theorem run_append_of_ok {s t : σ} {is : List ι} (h : run step s is = .ok t) (js : List ι) :
    run step s (is ++ js) = run step t js := by
  induction is generalizing s with
  | nil => rw [List.nil_append, Except.ok.inj h]
  | cons i is ih =>
      obtain ⟨u, hu, hrest⟩ := run_cons_eq_ok step h
      rw [List.cons_append, run_cons_of_ok step hu, ih hrest]

variable {step} {allowed : σ → ι → Prop} {inv : σ → Prop}

/-- A state satisfying the invariant has a step for every permitted label, and the
step keeps the invariant. -/
def Keeps (step : σ → ι → Except ε σ) (allowed : σ → ι → Prop) (inv : σ → Prop) : Prop :=
  ∀ s i, inv s → allowed s i → ∃ t, step s i = .ok t ∧ inv t

/-- A permitted run from a state satisfying a kept invariant reaches its end without
a fault, in a state satisfying the invariant. -/
theorem Keeps.run_ok (hk : Keeps step allowed inv) {s : σ} {is : List ι}
    (hs : inv s) (hp : Permitted step allowed s is) :
    ∃ t, run step s is = .ok t ∧ inv t := by
  induction is generalizing s with
  | nil => exact ⟨s, rfl, hs⟩
  | cons i is ih =>
      obtain ⟨u, hu, hinv⟩ := hk s i hs hp.1
      obtain ⟨t, ht, htinv⟩ := ih hinv (hp.2 u hu)
      exact ⟨t, by rw [run_cons_of_ok step hu, ht], htinv⟩

/-- The invariant holds in the final state of every permitted run that ends. -/
theorem Keeps.run_inv (hk : Keeps step allowed inv) {s t : σ} {is : List ι}
    (hs : inv s) (hp : Permitted step allowed s is) (hr : run step s is = .ok t) : inv t := by
  obtain ⟨t', ht', hinv⟩ := hk.run_ok hs hp
  rw [hr] at ht'
  simpa only [Except.ok.inj ht'] using hinv

end Machine
