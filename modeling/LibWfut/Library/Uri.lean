import Mathlib.Data.List.TakeWhile
import Mathlib.Data.Nat.Notation

/-! # Percent-encoding and the parts of a URI

The components that the regular expression of the generic syntax cuts a URI reference
into, and the bytes a percent-encoded component stands for. -/

namespace Uri

/-! ## Percent-encoding -/

def percent : UInt8 := 37

def hexValue (c : UInt8) : Option ℕ :=
  if 48 ≤ c ∧ c ≤ 57 then some (c.toNat - 48)
  else if 65 ≤ c ∧ c ≤ 70 then some (c.toNat - 55)
  else if 97 ≤ c ∧ c ≤ 102 then some (c.toNat - 87)
  else none

def isUpperHexDigit (c : UInt8) : Bool :=
  (48 ≤ c ∧ c ≤ 57) ∨ (65 ≤ c ∧ c ≤ 70)

/-- What a percent-encoded string stands for; `none` if an escape is malformed. -/
def decode : List UInt8 → Option (List UInt8)
  | [] => some []
  | c :: cs =>
    if c = percent then
      match cs with
      | a :: b :: rest =>
        match hexValue a, hexValue b with
        | some x, some y => (decode rest).map ((16 * x + y).toUInt8 :: ·)
        | _, _ => none
      | _ => none
    else (decode cs).map (c :: ·)

/-- Only plain characters and percent signs with two upper-case digits. -/
inductive Escaped (plain : UInt8 → Bool) : List UInt8 → Prop
  | nil : Escaped plain []
  | plain {c : UInt8} {s : List UInt8} (hc : plain c = true) (hs : Escaped plain s) :
      Escaped plain (c :: s)
  | escape {a b : UInt8} {s : List UInt8} (ha : isUpperHexDigit a = true)
      (hb : isUpperHexDigit b = true) (hs : Escaped plain s) :
      Escaped plain (percent :: a :: b :: s)

theorem Escaped.append {plain : UInt8 → Bool} {s t : List UInt8} (hs : Escaped plain s)
    (ht : Escaped plain t) : Escaped plain (s ++ t) := by
  induction hs with
  | nil => exact ht
  | plain hc _ ih => exact .plain hc ih
  | escape ha hb _ ih => exact .escape ha hb ih

section Encoder

variable {plain : UInt8 → Bool} {encode : UInt8 → List UInt8} {meaning : UInt8 → UInt8}

/-- A string that is encoded character by character. -/
theorem escaped_flatMap (h : ∀ c, Escaped plain (encode c)) (s : List UInt8) :
    Escaped plain (s.flatMap encode) := by
  induction s with
  | nil => exact .nil
  | cons c s ih => exact (h c).append ih

/-- If every encoded character is read back as its meaning, so is every string. -/
theorem decode_flatMap
    (h : ∀ c rest, decode (encode c ++ rest) = (decode rest).map (meaning c :: ·))
    (s : List UInt8) : decode (s.flatMap encode) = some (s.map meaning) := by
  induction s with
  | nil => rfl
  | cons c s ih => rw [List.flatMap_cons, h, ih, Option.map_some, List.map_cons]

end Encoder

theorem decode_plain {c : UInt8} (hc : c ≠ percent) (rest : List UInt8) :
    decode (c :: rest) = (decode rest).map (c :: ·) := by
  rw [decode.eq_def]
  simp only [hc, ite_false]

theorem decode_escape {a b : UInt8} {x y : ℕ} (ha : hexValue a = some x)
    (hb : hexValue b = some y) (rest : List UInt8) :
    decode (percent :: a :: b :: rest) = (decode rest).map ((16 * x + y).toUInt8 :: ·) := by
  simp only [decode, ite_true, ha, hb]

/-! ## Form encoding -/

def plus : UInt8 := 43

def space : UInt8 := 32

def isHexDigit (c : UInt8) : Bool :=
  (48 ≤ c ∧ c ≤ 57) ∨ (65 ≤ c ∧ c ≤ 70) ∨ (97 ≤ c ∧ c ≤ 102)

theorem isSome_hexValue (c : UInt8) : (hexValue c).isSome = isHexDigit c := by
  have hall : ∀ n < 256, (hexValue n.toUInt8).isSome = isHexDigit n.toUInt8 := by
    decide +kernel
  simpa using hall c.toNat c.toNat_lt

theorem hexValue_of_isHexDigit {c : UInt8} (h : isHexDigit c = true) :
    ∃ d, hexValue c = some d :=
  Option.isSome_iff_exists.mp ((isSome_hexValue c).trans h)

/-- Every percent sign is followed by two hexadecimal digits of either case. -/
def WellEscaped (s : List UInt8) : Prop :=
  ∀ before rest, s = before ++ percent :: rest →
    ∃ a b tail, rest = a :: b :: tail ∧ isHexDigit a = true ∧ isHexDigit b = true

theorem WellEscaped.of_append {p s : List UInt8} (h : WellEscaped (p ++ s)) : WellEscaped s := by
  intro before rest hs
  apply h (p ++ before) rest
  rw [hs, List.append_assoc]

/-- What a form-encoded string stands for: a plus is a space. -/
def decodeForm (s : List UInt8) : Option (List UInt8) :=
  decode (s.map fun c => if c = plus then space else c)

theorem decodeForm_plain {c : UInt8} (hc : c ≠ percent) (hplus : c ≠ plus) (rest : List UInt8) :
    decodeForm (c :: rest) = (decodeForm rest).map (c :: ·) := by
  rw [decodeForm, List.map_cons, if_neg hplus, decode_plain hc, decodeForm]

theorem decodeForm_plus (rest : List UInt8) :
    decodeForm (plus :: rest) = (decodeForm rest).map (space :: ·) := by
  rw [decodeForm, List.map_cons, if_pos rfl, decode_plain (by decide), decodeForm]

theorem decodeForm_escape {a b : UInt8} {x y : ℕ} (ha : hexValue a = some x)
    (hb : hexValue b = some y) (rest : List UInt8) :
    decodeForm (percent :: a :: b :: rest) =
      (decodeForm rest).map ((16 * x + y).toUInt8 :: ·) := by
  have hdigit : ∀ {c : UInt8} {z : ℕ}, hexValue c = some z → c ≠ plus := by
    rintro c z h rfl
    simp [hexValue, plus] at h
  simp only [decodeForm, List.map_cons, if_neg (hdigit ha), if_neg (hdigit hb),
    if_neg (show percent ≠ plus by decide)]
  rw [decode_escape ha hb]

/-! ## The parts of a URI -/

def colon : UInt8 := 58

def slash : UInt8 := 47

def question : UInt8 := 63

def hash : UInt8 := 35

/-- What stands before the first `c`, and what stands behind it. -/
def cut (c : UInt8) (s : List UInt8) : List UInt8 × Option (List UInt8) :=
  (s.takeWhile (· ≠ c),
    match s.dropWhile (· ≠ c) with
    | [] => none
    | _ :: rest => some rest)

structure Parts where
  scheme : Option (List UInt8)
  authority : Option (List UInt8)
  path : List UInt8
  query : Option (List UInt8)
  fragment : Option (List UInt8)
  deriving DecidableEq

/-- A scheme is at least one character up to a colon. -/
def cutScheme (s : List UInt8) : Option (List UInt8) × List UInt8 :=
  let scheme := s.takeWhile fun c => c ≠ colon ∧ c ≠ slash
  match s.dropWhile fun c => c ≠ colon ∧ c ≠ slash with
  | [] => (none, s)
  | c :: rest => if c = colon ∧ scheme ≠ [] then (some scheme, rest) else (none, s)

/-- An authority follows two slashes and ends before the next one. -/
def cutAuthority (s : List UInt8) : Option (List UInt8) × List UInt8 :=
  match s with
  | c :: d :: rest =>
    if c = slash ∧ d = slash then
      (some (rest.takeWhile (· ≠ slash)), rest.dropWhile (· ≠ slash))
    else (none, s)
  | _ => (none, s)

/-- `^(([^:/?#]+):)?(//([^/?#]*))?([^?#]*)(\?([^#]*))?(#(.*))?` -/
def parse (s : List UInt8) : Parts :=
  let (s, fragment) := cut hash s
  let (s, query) := cut question s
  let (scheme, s) := cutScheme s
  let (authority, path) := cutAuthority s
  { scheme, authority, path, query, fragment }

theorem cut_append {c : UInt8} {p : List UInt8} (hp : c ∉ p) (s : List UInt8) :
    cut c (p ++ s) = (p ++ (cut c s).1, (cut c s).2) := by
  have hall : ∀ x ∈ p, (decide (x ≠ c)) = true := by
    intro x hx
    simpa using ne_of_mem_of_not_mem hx hp
  simp only [cut, List.takeWhile_append_of_pos hall, List.dropWhile_append_of_pos hall]

/-- Nothing behind the first `c` changes what stands before it. -/
theorem cut_append_of_mem {c : UInt8} {p : List UInt8} (hp : c ∈ p) (s : List UInt8) :
    (cut c (p ++ s)).1 = (cut c p).1 := by
  obtain ⟨a, b, rfl, ha⟩ := List.eq_append_cons_of_mem hp
  rw [List.append_assoc, cut_append ha, cut_append ha]
  simp [cut]

theorem cut_of_not_mem {c : UInt8} {s : List UInt8} (hs : c ∉ s) : cut c s = (s, none) := by
  have hcut := cut_append hs []
  rw [List.append_nil] at hcut
  rw [hcut]
  simp [cut]

theorem cut_eq_none_iff {c : UInt8} {s : List UInt8} : (cut c s).2 = none ↔ c ∉ s := by
  constructor
  · intro h hc
    have hne : s.dropWhile (· ≠ c) ≠ [] := by
      intro hnil
      have hall := List.dropWhile_eq_nil_iff.mp hnil c hc
      simp at hall
    obtain ⟨d, rest, hd⟩ := List.exists_cons_of_ne_nil hne
    simp only [cut, hd] at h
    simp at h
  · intro h
    rw [cut_of_not_mem h]

/-- Cutting before or after the encoding is the same for a character that only its own code
contains. -/
theorem cut_flatMap {c : UInt8} {encode : UInt8 → List UInt8} (hself : encode c = [c])
    (hother : ∀ d, d ≠ c → c ∉ encode d) (s : List UInt8) :
    cut c (s.flatMap encode) =
      ((cut c s).1.flatMap encode, (cut c s).2.map (·.flatMap encode)) := by
  induction s with
  | nil => rfl
  | cons d s ih =>
      by_cases hd : d = c
      · subst hd
        simp [cut, hself]
      · have hsource := cut_append (c := c) (p := [d]) (by simpa using Ne.symm hd) s
        rw [List.singleton_append] at hsource
        rw [List.flatMap_cons, cut_append (hother d hd), ih, hsource, List.singleton_append,
          List.flatMap_cons]

section Generic

variable {scheme authority : List UInt8}

theorem cutScheme_append (hne : scheme ≠ []) (hs : colon ∉ scheme ∧ slash ∉ scheme)
    (s : List UInt8) : cutScheme (scheme ++ colon :: s) = (some scheme, s) := by
  have hall : ∀ x ∈ scheme, decide (x ≠ colon ∧ x ≠ slash) = true := by
    intro x hx
    simpa using ⟨ne_of_mem_of_not_mem hx hs.1, ne_of_mem_of_not_mem hx hs.2⟩
  have htake : (scheme ++ colon :: s).takeWhile (fun c => c ≠ colon ∧ c ≠ slash) = scheme := by
    rw [List.takeWhile_append_of_pos hall]
    simp
  have hdrop : (scheme ++ colon :: s).dropWhile (fun c => c ≠ colon ∧ c ≠ slash) =
      colon :: s := by
    rw [List.dropWhile_append_of_pos hall]
    simp
  simp only [cutScheme, htake, hdrop]
  simp [hne]

theorem cutAuthority_append (ha : slash ∉ authority) (s : List UInt8) :
    cutAuthority (slash :: slash :: (authority ++ slash :: s)) =
      (some authority, slash :: s) := by
  have hall : ∀ x ∈ authority, decide (x ≠ slash) = true := by
    intro x hx
    simpa using ne_of_mem_of_not_mem hx ha
  have htake : (authority ++ slash :: s).takeWhile (· ≠ slash) = authority := by
    rw [List.takeWhile_append_of_pos hall]
    simp
  have hdrop : (authority ++ slash :: s).dropWhile (· ≠ slash) = slash :: s := by
    rw [List.dropWhile_append_of_pos hall]
    simp
  simp only [cutAuthority, and_self, ite_true, htake, hdrop]

/-- A URI with scheme, authority and path, in which no fragment begins. -/
theorem parse_generic (hne : scheme ≠ []) (hs : ∀ c ∈ [colon, slash, question, hash], c ∉ scheme)
    (ha : ∀ c ∈ [slash, question, hash], c ∉ authority) {path : List UInt8}
    (hp : hash ∉ path) :
    parse (scheme ++ colon :: slash :: slash :: (authority ++ slash :: path)) =
      { scheme := some scheme, authority := some authority,
        path := slash :: (cut question path).1, query := (cut question path).2,
        fragment := none } := by
  have hfront : ∀ c ∈ [question, hash],
      c ∉ scheme ++ colon :: slash :: slash :: (authority ++ [slash]) := by
    intro c hc
    simp only [List.mem_cons, List.not_mem_nil, or_false] at hc
    rcases hc with rfl | rfl
    · simpa using ⟨hs question (by simp), by decide, by decide, ha question (by simp), by decide⟩
    · simpa using ⟨hs hash (by simp), by decide, by decide, ha hash (by simp), by decide⟩
  have hsplit : ∀ s : List UInt8,
      scheme ++ colon :: slash :: slash :: (authority ++ slash :: s) =
        scheme ++ colon :: slash :: slash :: (authority ++ [slash]) ++ s := by
    intro s
    simp
  have hfragment := cut_append (hfront hash (by simp)) path
  rw [cut_of_not_mem hp] at hfragment
  have hquery := cut_append (hfront question (by simp)) path
  have hscheme := cutScheme_append hne ⟨hs colon (by simp), hs slash (by simp)⟩
    (slash :: slash :: (authority ++ slash :: (cut question path).1))
  have hauthority := cutAuthority_append (ha slash (by simp)) (cut question path).1
  rw [hsplit path, parse]
  simp only [hfragment, hquery]
  rw [← hsplit, hscheme]
  simp only [hauthority]

end Generic

end Uri
