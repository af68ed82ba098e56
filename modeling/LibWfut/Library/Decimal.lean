import Mathlib.Algebra.Group.Int.Defs
import Mathlib.Algebra.Group.Nat.Defs
import Mathlib.Data.Int.Notation
import Mathlib.Data.Nat.Notation

/-! # Decimal numbers as text

Printing of integers in base ten, and scanning them the way the C library does: white
space, an optional sign and the longest run of digits. -/

namespace Decimal

/-! ## Digits -/

def digit (d : ℕ) : UInt8 := (48 + d).toUInt8

def digitValue (c : UInt8) : Option ℕ :=
  if 48 ≤ c ∧ c ≤ 57 then some (c.toNat - 48) else none

theorem digitValue_digit_all : ∀ d < 10, digitValue (digit d) = some d := by decide

theorem digitValue_digit {d : ℕ} (h : d < 10) : digitValue (digit d) = some d :=
  digitValue_digit_all d h

/-- The digits of a number in front of `tail`; `fuel` bounds their number. -/
def printNat : ℕ → ℕ → List UInt8 → List UInt8
  | 0, _, tail => tail
  | fuel + 1, n, tail =>
    if n < 10 then digit n :: tail
    else printNat fuel (n / 10) (digit (n % 10) :: tail)

def ofNat (n : ℕ) : List UInt8 := printNat (n + 1) n []

def ofInt (z : ℤ) : List UInt8 :=
  if z < 0 then 45 :: ofNat z.natAbs else ofNat z.natAbs

/-! ## Scanning -/

def isSpace (c : UInt8) : Bool :=
  c = 32 ∨ (9 ≤ c ∧ c ≤ 13)

/-- The digits a text starts with. -/
def scanDigits : List UInt8 → List ℕ
  | [] => []
  | c :: cs =>
    match digitValue c with
    | some d => d :: scanDigits cs
    | none => []

def value (digits : List ℕ) : ℕ :=
  digits.foldl (fun v d => 10 * v + d) 0

/-- The number a text starts with, if there is one. -/
def scanInt (s : List UInt8) : Option ℤ :=
  let field := s.dropWhile isSpace
  let negative := field.head? = some 45
  let digits := scanDigits (if negative ∨ field.head? = some 43 then field.drop 1 else field)
  if digits = [] then none
  else some (if negative then -(value digits : ℤ) else value digits)

/-! ## Round trip -/

theorem scanDigits_cons {d : ℕ} (h : d < 10) (cs : List UInt8) :
    scanDigits (digit d :: cs) = d :: scanDigits cs := by
  rw [scanDigits, digitValue_digit h]

theorem foldl_append_zero (v : ℕ) (ds : List ℕ) :
    ds.foldl (fun v d => 10 * v + d) v = v * 10 ^ ds.length + value ds := by
  induction ds generalizing v with
  | nil => simp [value]
  | cons d ds ih =>
      have hcons : value (d :: ds) = d * 10 ^ ds.length + value ds := by
        simpa [value] using ih d
      rw [List.foldl_cons, ih, hcons, List.length_cons, Nat.pow_succ, Nat.add_mul,
        Nat.add_assoc]
      congr 1
      rw [Nat.mul_comm 10 v, Nat.mul_assoc, Nat.mul_comm 10]

/-- What is printed in front of digits is scanned as the number shifted by them. -/
theorem scanDigits_printNat {fuel n : ℕ} (h : n < fuel) (tail : List UInt8) :
    scanDigits (printNat fuel n tail) ≠ [] ∧
      value (scanDigits (printNat fuel n tail)) =
        n * 10 ^ (scanDigits tail).length + value (scanDigits tail) := by
  induction fuel generalizing n tail with
  | zero => exact absurd h (Nat.not_lt_zero n)
  | succ fuel ih =>
      unfold printNat
      split
      · rename_i hlt
        rw [scanDigits_cons hlt]
        refine ⟨by simp, ?_⟩
        rw [value, List.foldl_cons, foldl_append_zero]
        simp
      · rename_i hge
        obtain ⟨hne, hval⟩ := ih (n := n / 10) (by omega) (digit (n % 10) :: tail)
        refine ⟨hne, ?_⟩
        rw [hval, scanDigits_cons (Nat.mod_lt n (by omega)), List.length_cons, value,
          List.foldl_cons, foldl_append_zero, Nat.pow_succ, Nat.mul_zero, Nat.zero_add,
          ← Nat.add_assoc, Nat.mul_comm _ 10, ← Nat.mul_assoc, ← Nat.add_mul]
        rw [Nat.div_add_mod']

theorem value_scanDigits_ofNat (n : ℕ) :
    scanDigits (ofNat n) ≠ [] ∧ value (scanDigits (ofNat n)) = n := by
  have h := scanDigits_printNat (Nat.lt_succ_self n) []
  simpa [ofNat, scanDigits, value] using h

/-- A printed number starts with a digit. -/
theorem head?_printNat {fuel n : ℕ} (h : n < fuel) (tail : List UInt8) :
    ∃ d < 10, (printNat fuel n tail).head? = some (digit d) := by
  induction fuel generalizing n tail with
  | zero => exact absurd h (Nat.not_lt_zero n)
  | succ fuel ih =>
      unfold printNat
      split
      · rename_i hlt
        exact ⟨n, hlt, rfl⟩
      · exact ih (by omega) _

theorem digit_plain : ∀ d < 10, isSpace (digit d) = false ∧ digit d ≠ 45 ∧ digit d ≠ 43 := by
  decide

/-- Scanning gives back the number that was printed. -/
theorem scanInt_ofInt (z : ℤ) : scanInt (ofInt z) = some z := by
  obtain ⟨hne, hval⟩ := value_scanDigits_ofNat z.natAbs
  unfold ofInt
  split
  · rename_i hneg
    have hfield : (45 :: ofNat z.natAbs).dropWhile isSpace = 45 :: ofNat z.natAbs := by
      simp [isSpace]
    simp only [scanInt, hfield, List.head?_cons, true_or, ite_true, List.drop_one,
      List.tail_cons, if_neg hne, hval, Option.some.injEq]
    omega
  · rename_i hpos
    obtain ⟨d, hd, hhead⟩ := head?_printNat (Nat.lt_succ_self z.natAbs) []
    obtain ⟨hspace, hminus, hplus⟩ := digit_plain d hd
    obtain ⟨rest, hrest⟩ := List.head?_eq_some_iff.mp hhead
    have htext : ofNat z.natAbs = digit d :: rest := hrest
    have hfield : (ofNat z.natAbs).dropWhile isSpace = ofNat z.natAbs := by
      rw [htext, List.dropWhile_cons, hspace]
      rfl
    have hno : ¬((ofNat z.natAbs).head? = some 45 ∨ (ofNat z.natAbs).head? = some 43) := by
      simp [htext, hminus, hplus]
    have hnonneg : ¬(ofNat z.natAbs).head? = some 45 := fun h => hno (.inl h)
    simp only [scanInt, hfield, if_neg hno, if_neg hne, if_neg hnonneg, hval,
      Option.some.injEq]
    omega

theorem mem_printNat {fuel n : ℕ} {tail : List UInt8} {c : UInt8}
    (h : c ∈ printNat fuel n tail) : c ∈ tail ∨ ∃ d < 10, c = digit d := by
  induction fuel generalizing n tail with
  | zero => exact .inl h
  | succ fuel ih =>
      unfold printNat at h
      split at h
      · rename_i hlt
        rcases List.mem_cons.mp h with rfl | h
        · exact .inr ⟨n, hlt, rfl⟩
        · exact .inl h
      · rcases ih h with h | h
        · rcases List.mem_cons.mp h with rfl | h
          · exact .inr ⟨n % 10, Nat.mod_lt n (by omega), rfl⟩
          · exact .inl h
        · exact .inr h

/-- A printed number is made of digits and a sign. -/
theorem mem_ofInt {z : ℤ} {c : UInt8} (h : c ∈ ofInt z) : c = 45 ∨ ∃ d < 10, c = digit d := by
  have hnat : c ∈ ofNat z.natAbs → ∃ d < 10, c = digit d := by
    intro hc
    exact (mem_printNat hc).resolve_left (by simp)
  unfold ofInt at h
  split at h
  · rcases List.mem_cons.mp h with rfl | h
    · exact .inl rfl
    · exact .inr (hnat h)
  · exact .inr (hnat h)

end Decimal
