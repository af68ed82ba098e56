import LibWfut.Model.Encoder

/-! # The filename codec

A byte from 128 on is escaped as a negative `int`, of whose eight digits two are kept. -/

namespace LibWfut.Encoder

/-- What is left of a byte in an encoded string. -/
def legible (c : UInt8) : UInt8 :=
  if c < 128 then c else 255

@[simp] theorem legible_legible (c : UInt8) : legible (legible c) = legible c := by
  by_cases h : c < 128
  · simp [legible, h]
  · simp only [legible, h, ite_false]
    rfl

theorem legible_eq_self_iff {c : UInt8} : legible c = c ↔ c < 128 ∨ c = 255 := by
  by_cases h : c < 128
  · simp [legible, h]
  · simp [legible, h, eq_comm]

/-! ## Single characters -/

theorem hexValue_upperHexDigit : ∀ d < 16, hexValue (upperHexDigit d) = some d := by decide

theorem escape_eq_all : ∀ n < 256,
    escape n.toUInt8 =
      [37, upperHexDigit ((legible n.toUInt8).toNat / 16),
        upperHexDigit ((legible n.toUInt8).toNat % 16)] := by
  decide +kernel

/-- An escape has the two digits of what is legible of the character. -/
theorem escape_eq (c : UInt8) :
    escape c =
      [37, upperHexDigit ((legible c).toNat / 16), upperHexDigit ((legible c).toNat % 16)] := by
  simpa using escape_eq_all c.toNat c.toNat_lt

theorem kept_all : ∀ n < 256, isAlnum n.toUInt8 = true ∨ n.toUInt8 ∈ ascii "-_.*" →
    n.toUInt8 ≠ 37 ∧ n.toUInt8 ≠ 43 ∧ n.toUInt8 < 128 := by
  decide +kernel

/-- The characters that are kept mean nothing to the decoder. -/
theorem kept_plain {c : UInt8} (h : isAlnum c = true ∨ c ∈ ascii "-_.*") :
    c ≠ 37 ∧ c ≠ 43 ∧ legible c = c := by
  have hall : c ≠ 37 ∧ c ≠ 43 ∧ c < 128 := by
    simpa using kept_all c.toNat c.toNat_lt (by simpa using h)
  exact ⟨hall.1, hall.2.1, legible_eq_self_iff.mpr (.inl hall.2.2)⟩

/-- A character is kept, a space becomes a plus, and everything else an escape of what is
legible of it. -/
theorem encodeStringChar_cases (c : UInt8) :
    (encodeStringChar c = [c] ∧ (isAlnum c = true ∨ c ∈ ascii "-_.*")) ∨
      (encodeStringChar c = [43] ∧ c = 32) ∨
      encodeStringChar c =
        [37, upperHexDigit ((legible c).toNat / 16),
          upperHexDigit ((legible c).toNat % 16)] := by
  unfold encodeStringChar
  by_cases halnum : isAlnum c = true
  · simp [halnum]
  · by_cases hkept : c ∈ ascii "-_.*"
    · simp [hkept]
    · by_cases hspace : c = 32
      · subst hspace
        exact .inr (.inl ⟨rfl, rfl⟩)
      · simp [halnum, hkept, hspace, escape_eq]

/-- The characters of an encoded string. -/
def isSafe (c : UInt8) : Bool :=
  isAlnum c ∨ c ∈ ascii "-_.*+%"

theorem isSafe_of_kept {c : UInt8} (h : isAlnum c = true ∨ c ∈ ascii "-_.*") :
    isSafe c = true := by
  have hchars : ascii "-_.*+%" = ascii "-_.*" ++ ascii "+%" := by decide
  simp only [isSafe, hchars, List.mem_append, decide_eq_true_eq]
  rcases h with halnum | hkept
  · exact .inl halnum
  · exact .inr (.inl hkept)

theorem isSafe_upperHexDigit : ∀ d < 16, isSafe (upperHexDigit d) = true := by decide

theorem isSafe_of_mem_encodeStringChar {c d : UInt8} (h : d ∈ encodeStringChar c) :
    isSafe d = true := by
  rcases encodeStringChar_cases c with ⟨henc, hkept⟩ | ⟨henc, -⟩ | henc
  · rw [henc, List.mem_singleton] at h
    subst h
    exact isSafe_of_kept hkept
  · rw [henc, List.mem_singleton] at h
    subst h
    decide
  · have hlt := (legible c).toNat_lt
    simp only [henc, List.mem_cons, List.not_mem_nil, or_false] at h
    rcases h with rfl | rfl | rfl
    · decide
    · exact isSafe_upperHexDigit _ (by omega)
    · exact isSafe_upperHexDigit _ (by omega)

theorem isSafe_of_mem_encodeString {s : Bytes} {d : UInt8} (h : d ∈ encodeString s) :
    isSafe d = true := by
  obtain ⟨c, -, hd⟩ := List.mem_flatMap.mp h
  exact isSafe_of_mem_encodeStringChar hd

/-! ## Whole strings -/

theorem hexDigit_plain_all : ∀ n < 256, (hexValue n.toUInt8).isSome = true →
    n.toUInt8 ≠ 0 ∧ isSpace n.toUInt8 = false ∧ n.toUInt8 ≠ 45 ∧ n.toUInt8 ≠ 43 := by
  decide +kernel

/-- A hexadecimal digit neither ends the text nor is skipped nor taken for a sign. -/
theorem hexDigit_plain {c : UInt8} (h : (hexValue c).isSome = true) :
    c ≠ 0 ∧ isSpace c = false ∧ c ≠ 45 ∧ c ≠ 43 := by
  have hall := hexDigit_plain_all c.toNat c.toNat_lt
  simpa using hall (by simpa using h)

/-- `sscanf` reads an escape with two digits. -/
theorem scanPercent2x_digits {a b : UInt8} {x y : ℕ} (ha : hexValue a = some x)
    (hb : hexValue b = some y) (rest : Bytes) :
    scanPercent2x (cStr (37 :: a :: b :: rest)) = some (16 * x + y).toUInt32 := by
  obtain ⟨ha0, haspace, haminus, haplus⟩ := hexDigit_plain (c := a) (by simp [ha])
  obtain ⟨hb0, -⟩ := hexDigit_plain (c := b) (by simp [hb])
  have htext : cStr (37 :: a :: b :: rest) = 37 :: a :: b :: cStr rest := by
    simp [cStr, ha0, hb0]
  have hfield : (a :: b :: cStr rest).dropWhile isSpace = a :: b :: cStr rest := by
    rw [List.dropWhile_cons, haspace]
    rfl
  have hdigits : scanHexDigits 2 (a :: b :: cStr rest) = [x, y] := by
    simp [scanHexDigits, ha, hb]
  simp [scanPercent2x, htext, hfield, haminus, haplus, hdigits]

theorem decodeString_of_unassigned {cs : Bytes} (h : scanPercent2x (cStr (37 :: cs)) = none) :
    decodeString (37 :: cs) = .error .unassigned := by
  rw [decodeString, if_pos rfl, h]

theorem decodeString_of_assigned {cs : Bytes} {u : UInt32}
    (h : scanPercent2x (cStr (37 :: cs)) = some u) :
    decodeString (37 :: cs) = (decodeString (cs.drop 2)).map (u.toUInt8 :: ·) := by
  rw [decodeString, if_pos rfl, h]
  rcases cs with _ | ⟨a, _ | ⟨b, rest⟩⟩
  · rfl
  · rfl
  · rfl

theorem decodeString_of_ne {c : UInt8} (hc : c ≠ 37) (cs : Bytes) :
    decodeString (c :: cs) = (decodeString cs).map ((if c = 43 then 32 else c) :: ·) := by
  rw [decodeString, if_neg hc]
  split <;> rfl

theorem decodeString_encodeStringChar (c : UInt8) (rest : Bytes) :
    decodeString (encodeStringChar c ++ rest) = (decodeString rest).map (legible c :: ·) := by
  rcases encodeStringChar_cases c with ⟨henc, hkept⟩ | ⟨henc, rfl⟩ | henc
  · obtain ⟨hpercent, hplus, hleg⟩ := kept_plain hkept
    rw [henc, hleg, List.singleton_append, decodeString_of_ne hpercent, if_neg hplus]
  · have hspace : legible 32 = 32 := by decide
    rw [henc, hspace, List.singleton_append, decodeString_of_ne (by decide), if_pos rfl]
  · have hlt := (legible c).toNat_lt
    have hvalue : 16 * ((legible c).toNat / 16) + (legible c).toNat % 16 =
        (legible c).toNat := Nat.div_add_mod ..
    have hscan := scanPercent2x_digits
      (hexValue_upperHexDigit ((legible c).toNat / 16) (by omega))
      (hexValue_upperHexDigit ((legible c).toNat % 16) (by omega)) rest
    rw [hvalue] at hscan
    have hbyte : (legible c).toNat.toUInt32.toUInt8 = legible c := by simp
    simp only [henc, List.cons_append, List.nil_append]
    rw [decodeString_of_assigned hscan, hbyte]
    rfl

/-- Decoding gives back the legible characters. -/
theorem decodeString_encodeString (s : Bytes) :
    decodeString (encodeString s) = .ok (s.map legible) := by
  induction s with
  | nil => rfl
  | cons c s ih =>
      have hcons : encodeString (c :: s) = encodeStringChar c ++ encodeString s := rfl
      rw [hcons, decodeString_encodeStringChar, ih]
      rfl

theorem map_legible_eq_self_iff {s : Bytes} :
    s.map legible = s ↔ ∀ c ∈ s, c < 128 ∨ c = 255 := by
  simp only [← legible_eq_self_iff]
  induction s with
  | nil => simp
  | cons c s ih => simp [ih]

/-- None of the characters of an encoded string means anything in a quoted attribute. -/
theorem plain_of_isSafe_all : ∀ n < 256, isSafe n.toUInt8 = true →
    n.toUInt8 ∉ ascii "\"&<>" ∧ n.toUInt8 ≠ 0 := by
  decide +kernel

/-- Every encoded string can stand in an attribute, and it is decoded to what it was made
of exactly when no byte from 128 on but the last one occurs in that. -/
theorem filename_codec (s : Bytes) :
    (∀ d ∈ encodeString s, isSafe d = true ∧ d ∉ ascii "\"&<>" ∧ d ≠ 0) ∧
      (decodeString (encodeString s) = .ok s ↔ ∀ c ∈ s, c < 128 ∨ c = 255) := by
  constructor
  · intro d hd
    have hsafe := isSafe_of_mem_encodeString hd
    have hplain := plain_of_isSafe_all d.toNat d.toNat_lt
    exact ⟨hsafe, by simpa using hplain (by simpa using hsafe)⟩
  · rw [decodeString_encodeString, Except.ok.injEq, map_legible_eq_self_iff]

theorem filename_codec_highByte : decodeString (encodeString [128]) ≠ .ok [128] := by
  decide

end LibWfut.Encoder
