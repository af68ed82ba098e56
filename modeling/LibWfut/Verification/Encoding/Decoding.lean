import LibWfut.Library.Run
import LibWfut.Library.Uri
import LibWfut.Verification.FileList.Codec

/-! # Decoding what no encoder has written

An attribute may hold anything, and behind every percent sign `decodeString` asks `sscanf`
for a number without looking whether there is one. -/

namespace LibWfut.Encoder

open Machine

/-! ## The number behind a percent sign -/

/-- What `x` takes for a number: a digit, with at most one sign before it. -/
def StartsNumber (field : Bytes) : Prop :=
  ∃ sign d rest, field = sign ++ d :: rest ∧ sign ∈ [[], [43], [45]] ∧
    Uri.isHexDigit d = true

/-- A number stands ahead, with nothing but white space before it. -/
def NumberAhead (text : Bytes) : Prop :=
  ∃ blank field, text = blank ++ field ∧ (∀ c ∈ blank, isSpace c = true) ∧ StartsNumber field

theorem isSome_hexValue (c : UInt8) : (hexValue c).isSome = Uri.isHexDigit c :=
  Uri.isSome_hexValue c

theorem scanHexDigits_eq_nil_iff {w : ℕ} {c : UInt8} {cs : Bytes} :
    scanHexDigits (w + 1) (c :: cs) = [] ↔ Uri.isHexDigit c = false := by
  rw [← isSome_hexValue, scanHexDigits]
  cases hexValue c <;> simp

theorem startsNumber_cons_iff {c : UInt8} {cs : Bytes} :
    StartsNumber (c :: cs) ↔
      Uri.isHexDigit c = true ∨
        (c = 43 ∨ c = 45) ∧ ∃ d ds, cs = d :: ds ∧ Uri.isHexDigit d = true := by
  constructor
  · rintro ⟨sign, d, rest, hfield, hsign, hd⟩
    simp only [List.mem_cons, List.not_mem_nil, or_false] at hsign
    rcases hsign with rfl | rfl | rfl
    · obtain ⟨rfl, -⟩ := List.cons.inj hfield
      exact .inl hd
    · obtain ⟨rfl, hcs⟩ := List.cons.inj hfield
      exact .inr ⟨.inl rfl, d, rest, hcs, hd⟩
    · obtain ⟨rfl, hcs⟩ := List.cons.inj hfield
      exact .inr ⟨.inr rfl, d, rest, hcs, hd⟩
  · rintro (hc | ⟨rfl | rfl, d, ds, rfl, hd⟩)
    · exact ⟨[], c, cs, rfl, by simp, hc⟩
    · exact ⟨[43], d, ds, rfl, by simp, hd⟩
    · exact ⟨[45], d, ds, rfl, by simp, hd⟩

/-- `sscanf` assigns a value exactly when a number comes first behind the white space. -/
theorem isSome_scanPercent2x_iff (buf : Bytes) :
    (scanPercent2x buf).isSome = true ↔ StartsNumber ((buf.drop 1).dropWhile isSpace) := by
  have hassigned : ∀ (digits : List ℕ) (u : UInt32),
      (if digits = [] then none else some u).isSome = true ↔ ¬digits = [] := by
    intro digits u
    split <;> simp [*]
  unfold scanPercent2x
  simp only [hassigned]
  cases (buf.drop 1).dropWhile isSpace with
  | nil => simp [StartsNumber, scanHexDigits]
  | cons c cs =>
      rw [startsNumber_cons_iff]
      by_cases hsign : c = 43 ∨ c = 45
      · have hdigit : Uri.isHexDigit c = false := by
          rcases hsign with rfl | rfl <;> decide
        have hsigned : (c :: cs).head? = some 45 ∨ (c :: cs).head? = some 43 := by
          simpa using hsign.symm
        simp only [hsigned, if_true, List.drop_one, List.tail_cons, hsign, hdigit]
        cases cs with
        | nil => simp [scanHexDigits]
        | cons d ds => simp [scanHexDigits_eq_nil_iff]
      · have hunsigned : ¬((c :: cs).head? = some 45 ∨ (c :: cs).head? = some 43) := by
          rw [or_comm]
          simpa using hsign
        simp only [hunsigned, if_false, scanHexDigits_eq_nil_iff, hsign]
        simp

theorem StartsNumber.head {field : Bytes} (h : StartsNumber field) :
    ∃ c cs, field = c :: cs ∧ isSpace c = false := by
  obtain ⟨sign, d, rest, rfl, hsign, hd⟩ := h
  obtain ⟨-, hdspace, -⟩ := hexDigit_plain ((isSome_hexValue d).trans hd)
  simp only [List.mem_cons, List.not_mem_nil, or_false] at hsign
  rcases hsign with rfl | rfl | rfl
  · exact ⟨d, rest, rfl, hdspace⟩
  · exact ⟨43, d :: rest, rfl, by decide⟩
  · exact ⟨45, d :: rest, rfl, by decide⟩

theorem startsNumber_cStr_iff (field : Bytes) : StartsNumber (cStr field) ↔ StartsNumber field := by
  constructor
  · rintro ⟨sign, d, rest, hfield, hsign, hd⟩
    refine ⟨sign, d, rest ++ field.dropWhile (· ≠ 0), ?_, hsign, hd⟩
    rw [← List.cons_append, ← List.append_assoc, ← hfield]
    exact List.takeWhile_append_dropWhile.symm
  · rintro ⟨sign, d, rest, rfl, hsign, hd⟩
    obtain ⟨hd0, -⟩ := hexDigit_plain ((isSome_hexValue d).trans hd)
    have hsign0 : 0 ∉ sign := by
      simp only [List.mem_cons, List.not_mem_nil, or_false] at hsign
      rcases hsign with rfl | rfl | rfl <;> decide
    refine ⟨sign, d, cStr rest, ?_, hsign, hd⟩
    rw [cStr_append_of_not_mem hsign0]
    simp [cStr, hd0]

/-- White space does not end the text. -/
theorem dropWhile_isSpace_cStr (text : Bytes) :
    (cStr text).dropWhile isSpace = cStr (text.dropWhile isSpace) := by
  induction text with
  | nil => rfl
  | cons c cs ih =>
      by_cases hc : isSpace c = true
      · have hc0 : c ≠ 0 := by
          rintro rfl
          simp [isSpace] at hc
        simpa [cStr, hc, hc0] using ih
      · rw [List.dropWhile_cons, if_neg hc]
        by_cases hc0 : c = 0
        · simp [cStr, hc0]
        · simp [cStr, hc, hc0]

theorem numberAhead_iff (text : Bytes) :
    NumberAhead text ↔ StartsNumber (text.dropWhile isSpace) := by
  constructor
  · rintro ⟨blank, field, rfl, hblank, hfield⟩
    obtain ⟨c, cs, rfl, hc⟩ := hfield.head
    rw [List.dropWhile_append_of_pos hblank, List.dropWhile_cons, if_neg (by simp [hc])]
    exact hfield
  · intro h
    exact ⟨text.takeWhile isSpace, text.dropWhile isSpace,
      List.takeWhile_append_dropWhile.symm, fun c hc => List.mem_takeWhile_imp hc, h⟩

/-- Behind a percent sign, `sscanf` assigns a value exactly when a number stands ahead. -/
theorem isSome_scanPercent2x (rest : Bytes) :
    (scanPercent2x (cStr (37 :: rest))).isSome = true ↔ NumberAhead rest := by
  have hbuf : (cStr (37 :: rest)).drop 1 = cStr rest := by simp [cStr]
  rw [isSome_scanPercent2x_iff, hbuf, dropWhile_isSpace_cStr, startsNumber_cStr_iff,
    numberAhead_iff]

/-! ## The turns of the loop -/

/-- The loop gets to index `i` and has put out `out`. -/
inductive Reaches (str : Bytes) : ℕ → Bytes → Prop
  | start : Reaches str 0 []
  | turn {i j : ℕ} {out out' : Bytes} {c : UInt8} (h : Reaches str i out)
      (hc : str[i]? = some c) (ht : decodeTurn str i out c = .ok (j, out')) : Reaches str j out'

/-- No turn uses a value that `sscanf` has not assigned. -/
def AssignsFirst (str : Bytes) : Prop :=
  ∀ i out, Reaches str i out → str[i]? = some 37 →
    (scanPercent2x (cStr (str.drop i))).isSome = true

/-- Characters that make up whole turns: a percent sign takes two more with it. -/
inductive WholeTurns : Bytes → Prop
  | nil : WholeTurns []
  | plain {c : UInt8} {s : Bytes} (hc : c ≠ 37) (hs : WholeTurns s) : WholeTurns (c :: s)
  | percent {a b : UInt8} {s : Bytes} (hs : WholeTurns s) : WholeTurns (37 :: a :: b :: s)

theorem WholeTurns.append {s t : Bytes} (hs : WholeTurns s) (ht : WholeTurns t) :
    WholeTurns (s ++ t) := by
  induction hs with
  | nil => exact ht
  | plain hc _ ih => exact .plain hc ih
  | percent _ ih => exact .percent ih

/-- Every percent sign that no earlier one takes with it has a number ahead. -/
def Decodable (s : Bytes) : Prop :=
  ∀ before rest, s = before ++ 37 :: rest → WholeTurns before → NumberAhead rest

section Turn

variable {str : Bytes} {i j : ℕ} {out out' : Bytes} {c : UInt8}

theorem decodeTurn_of_ne (hc : c ≠ 37) :
    decodeTurn str i out c = .ok (i + 1, out ++ [if c = 43 then 32 else c]) := by
  rw [decodeTurn, if_neg hc]
  split <;> rfl

theorem decodeTurn_eq_ok (h : decodeTurn str i out c = .ok (j, out')) :
    (c = 37 ∧ j = i + 3) ∨ (c ≠ 37 ∧ j = i + 1) := by
  by_cases hc : c = 37
  · rw [decodeTurn, if_pos hc] at h
    cases hscan : scanPercent2x (cStr (str.drop i)) with
    | none => simp [hscan] at h
    | some u =>
        simp only [hscan, Except.ok.injEq, Prod.mk.injEq] at h
        exact .inl ⟨hc, h.1.symm⟩
  · rw [decodeTurn_of_ne hc, Except.ok.injEq, Prod.mk.injEq] at h
    exact .inr ⟨hc, h.1.symm⟩

/-- A turn goes through unless it finds nothing to assign. -/
theorem decodeTurn_isOk (h : c = 37 → (scanPercent2x (cStr (str.drop i))).isSome = true) :
    ∃ j out', decodeTurn str i out c = .ok (j, out') := by
  by_cases hc : c = 37
  · obtain ⟨u, hu⟩ := Option.isSome_iff_exists.mp (h hc)
    simp [decodeTurn, hc, hu]
  · exact ⟨_, _, decodeTurn_of_ne hc⟩

theorem drop_eq_cons (hc : str[i]? = some c) : str.drop i = c :: str.drop (i + 1) := by
  obtain ⟨hi, rfl⟩ := List.getElem?_eq_some_iff.mp hc
  exact List.drop_eq_getElem_cons hi

/-- What the loop has read are whole turns. -/
theorem Reaches.wholeTurns (h : Reaches str i out) (hi : i ≤ str.length) :
    WholeTurns (str.take i) := by
  induction h with
  | start => exact .nil
  | @turn i j out out' c _ hc ht ih =>
      have hdrop := drop_eq_cons hc
      rcases decodeTurn_eq_ok ht with ⟨rfl, rfl⟩ | ⟨hne, rfl⟩
      · obtain ⟨a, b, tail, htail⟩ : ∃ a b tail, str.drop (i + 1) = a :: b :: tail := by
          have hlength : 2 ≤ (str.drop (i + 1)).length := by
            rw [List.length_drop]
            omega
          match str.drop (i + 1), hlength with
          | a :: b :: tail, _ => exact ⟨a, b, tail, rfl⟩
        rw [List.take_add, hdrop, htail]
        exact (ih (by omega)).append (.percent .nil)
      · rw [List.take_add, hdrop]
        exact (ih (by omega)).append (.plain hne .nil)

/-- If nothing is used unassigned, the loop gets past every character. -/
theorem Reaches.next (hassigned : AssignsFirst str) (h : Reaches str i out)
    (hc : str[i]? = some c) : ∃ out', Reaches str (i + if c = 37 then 3 else 1) out' := by
  obtain ⟨j, out', ht⟩ : ∃ j out', decodeTurn str i out c = .ok (j, out') :=
    decodeTurn_isOk fun hpercent => hassigned i out h (hpercent ▸ hc)
  have hj : j = i + if c = 37 then 3 else 1 := by
    rcases decodeTurn_eq_ok ht with ⟨hpercent, rfl⟩ | ⟨hne, rfl⟩
    · rw [if_pos hpercent]
    · rw [if_neg hne]
  exact ⟨out', hj ▸ h.turn hc ht⟩

/-- So it gets past whole turns. -/
theorem Reaches.ahead (hassigned : AssignsFirst str) {s rest : Bytes} (hs : WholeTurns s)
    (h : Reaches str i out) (hdrop : str.drop i = s ++ rest) :
    ∃ out', Reaches str (i + s.length) out' := by
  induction hs generalizing i out with
  | nil => exact ⟨out, h⟩
  | @plain c s hne _ ih =>
      have hc : str[i]? = some c := by
        simpa using congrArg List.head? hdrop
      have hrest : str.drop (i + 1) = s ++ rest := by
        simpa using congrArg List.tail hdrop
      obtain ⟨out', hnext⟩ := h.next hassigned hc
      rw [if_neg hne] at hnext
      obtain ⟨out'', hreach⟩ := ih hnext hrest
      exact ⟨out'', by simpa [Nat.add_comm, Nat.add_left_comm] using hreach⟩
  | @percent a b s _ ih =>
      have hc : str[i]? = some 37 := by
        simpa using congrArg List.head? hdrop
      have hrest : str.drop (i + 3) = s ++ rest := by
        rw [← List.drop_drop, hdrop]
        rfl
      obtain ⟨out', hnext⟩ := h.next hassigned hc
      rw [if_pos rfl] at hnext
      obtain ⟨out'', hreach⟩ := ih hnext hrest
      exact ⟨out'', by simpa [Nat.add_comm, Nat.add_left_comm] using hreach⟩

end Turn

/-! ## The result of the loop -/

/-- The recursion of `decodeString`, which goes by turns of the loop. -/
theorem turn_induction {motive : Bytes → Prop} (nil : motive [])
    (percent : ∀ cs, motive (cs.drop 2) → motive (37 :: cs))
    (other : ∀ c cs, c ≠ 37 → motive cs → motive (c :: cs)) (s : Bytes) : motive s := by
  induction hn : s.length using Nat.strongRecOn generalizing s with
  | ind n ih =>
      cases s with
      | nil => exact nil
      | cons c cs =>
          rw [List.length_cons] at hn
          by_cases hc : c = 37
          · subst hc
            exact percent cs (ih _ (by rw [List.length_drop]; omega) (cs.drop 2) rfl)
          · exact other c cs hc (ih cs.length (by omega) cs rfl)

theorem map_cons_append {x : Except Fault Bytes} (out : Bytes) (c : UInt8) :
    (x.map (c :: ·)).map (out ++ ·) = x.map ((out ++ [c]) ++ ·) := by
  cases x <;> simp [Except.map]

/-- The recursion takes the turns of the loop, and as many as there are characters are
enough. -/
theorem decodeLoop_eq (str : Bytes) (fuel i : ℕ) (out : Bytes) (h : str.length - i < fuel) :
    decodeLoop str fuel i out = (decodeString (str.drop i)).map (out ++ ·) := by
  induction fuel generalizing i out with
  | zero => omega
  | succ fuel ih =>
      rw [decodeLoop]
      cases hc : str[i]? with
      | none =>
          have hnil : str.drop i = [] := List.drop_eq_nil_of_le (List.getElem?_eq_none_iff.mp hc)
          simp [hnil, decodeString, Except.map]
      | some c =>
          have hi : i < str.length := (List.getElem?_eq_some_iff.mp hc).1
          have hdrop := drop_eq_cons hc
          by_cases hpercent : c = 37
          · subst hpercent
            cases hscan : scanPercent2x (cStr (str.drop i)) with
            | none =>
                rw [hdrop, decodeString_of_unassigned (hdrop ▸ hscan)]
                simp only [decodeTurn, if_true, hscan]
                rfl
            | some u =>
                rw [hdrop, decodeString_of_assigned (hdrop ▸ hscan)]
                simp only [decodeTurn, if_true, hscan, List.drop_drop, map_cons_append]
                exact ih _ _ (by omega)
          · simp only [decodeTurn_of_ne hpercent, hdrop, decodeString_of_ne hpercent,
              map_cons_append]
            exact ih _ _ (by omega)

/-- Nothing else goes wrong than that an unassigned value is used. -/
theorem decodeString_eq_error {s : Bytes} {f : Fault} (h : decodeString s = .error f) :
    f = .unassigned := by
  induction s using turn_induction with
  | nil => simp [decodeString] at h
  | percent cs ih =>
      cases hscan : scanPercent2x (cStr (37 :: cs)) with
      | none =>
          rw [decodeString_of_unassigned hscan] at h
          exact (Except.error.inj h).symm
      | some u =>
          rw [decodeString_of_assigned hscan] at h
          exact ih (map_eq_error h)
  | other c cs hc ih =>
      rw [decodeString_of_ne hc] at h
      exact ih (map_eq_error h)

theorem Decodable.tail {c : UInt8} {cs : Bytes} (h : Decodable (c :: cs)) (hc : c ≠ 37) :
    Decodable cs := by
  intro before rest hcs hbefore
  exact h (c :: before) rest (by rw [hcs, List.cons_append]) (.plain hc hbefore)

theorem Decodable.drop_two {cs : Bytes} (h : Decodable (37 :: cs)) : Decodable (cs.drop 2) := by
  intro before rest hcs hbefore
  match cs, hcs with
  | [], hcs => simp at hcs
  | [_], hcs => simp at hcs
  | a :: b :: tail, hcs =>
      have htail : tail = before ++ 37 :: rest := hcs
      exact h (37 :: a :: b :: before) rest (by rw [htail]; rfl) (.percent hbefore)

theorem Decodable.decodeString {s : Bytes} (h : Decodable s) : ∃ out, decodeString s = .ok out := by
  induction s using turn_induction with
  | nil => exact ⟨[], rfl⟩
  | percent cs ih =>
      have hassigned := (isSome_scanPercent2x cs).mpr (h [] cs rfl .nil)
      obtain ⟨u, hu⟩ := Option.isSome_iff_exists.mp hassigned
      obtain ⟨out, hout⟩ := ih h.drop_two
      exact ⟨u.toUInt8 :: out, by rw [decodeString_of_assigned hu, hout]; rfl⟩
  | other c cs hc ih =>
      obtain ⟨out, hout⟩ := ih (h.tail hc)
      exact ⟨_ :: out, by rw [decodeString_of_ne hc, hout]; rfl⟩

/-- Well-escaped strings mean to `decodeString` what they mean in a form. -/
theorem decodeString_of_wellEscaped {s : Bytes} (h : Uri.WellEscaped s) :
    ∃ out, Uri.decodeForm s = some out ∧ decodeString s = .ok out := by
  induction s using turn_induction with
  | nil => exact ⟨[], rfl, rfl⟩
  | percent cs ih =>
      obtain ⟨a, b, rest, rfl, ha, hb⟩ := h [] cs rfl
      obtain ⟨x, hx⟩ := Uri.hexValue_of_isHexDigit ha
      obtain ⟨y, hy⟩ := Uri.hexValue_of_isHexDigit hb
      obtain ⟨out, hform, hdecode⟩ : ∃ out, Uri.decodeForm rest = some out ∧
          decodeString rest = .ok out := ih (h.of_append (p := [37, a, b]))
      refine ⟨(16 * x + y).toUInt8 :: out, ?_, ?_⟩
      · exact (Uri.decodeForm_escape hx hy rest).trans (by rw [hform, Option.map_some])
      · rw [decodeString_of_assigned (scanPercent2x_digits hx hy rest)]
        simp [hdecode, Except.map]
  | other c cs hc ih =>
      obtain ⟨out, hform, hdecode⟩ := ih (h.of_append (p := [c]))
      refine ⟨(if c = 43 then 32 else c) :: out, ?_, ?_⟩
      · by_cases hplus : c = 43
        · subst hplus
          exact (Uri.decodeForm_plus cs).trans (by rw [hform]; rfl)
        · rw [Uri.decodeForm_plain hc hplus, hform, Option.map_some, if_neg hplus]
      · rw [decodeString_of_ne hc, hdecode]
        rfl

/-! ## Any string -/

/-- The loop ends, with the result of `decodeString`. -/
def Terminates (str : Bytes) : Prop :=
  ∀ fuel, str.length < fuel →
    decodeLoop str fuel 0 [] = decodeString str ∧ decodeString str ≠ .error .outOfFuel

/-- What a form may send is decoded as a form. -/
def DecodesForm (str : Bytes) : Prop :=
  Uri.WellEscaped str → ∃ out, Uri.decodeForm str = some out ∧ decodeString str = .ok out

/-- What is promised of the decoder on a string. -/
structure DecodesSafely (str : Bytes) : Prop where
  terminates : Terminates str
  assigned : AssignsFirst str
  defined : ∃ out, decodeString str = .ok out
  form : DecodesForm str

theorem terminates (str : Bytes) : Terminates str := by
  intro fuel hfuel
  constructor
  · rw [decodeLoop_eq str fuel 0 [] (by omega), List.drop_zero]
    cases decodeString str <;> rfl
  · intro herror
    exact absurd (decodeString_eq_error herror) (by decide)

theorem AssignsFirst.decodable {str : Bytes} (h : AssignsFirst str) : Decodable str := by
  intro before rest hstr hbefore
  have hdrop : str.drop 0 = before ++ 37 :: rest := hstr
  obtain ⟨out, hreach⟩ := Reaches.start.ahead h hbefore hdrop
  have hpercent : str.drop before.length = 37 :: rest := by rw [hstr, List.drop_left]
  rw [← isSome_scanPercent2x, ← hpercent]
  apply h before.length out
  · simpa using hreach
  · rw [hstr]
    simp

theorem Decodable.assignsFirst {str : Bytes} (h : Decodable str) : AssignsFirst str := by
  intro i out hreach hc
  have hi : i < str.length := (List.getElem?_eq_some_iff.mp hc).1
  have hdrop := drop_eq_cons hc
  rw [hdrop, isSome_scanPercent2x]
  apply h (str.take i) _ _ (hreach.wholeTurns hi.le)
  rw [← hdrop, List.take_append_drop]

/-- Decoding is safe exactly when every percent sign that the loop comes to is followed by
a number, and it always ends and agrees with a form. -/
theorem safe_decoding (str : Bytes) :
    (DecodesSafely str ↔ Decodable str) ∧ Terminates str ∧ DecodesForm str := by
  refine ⟨⟨fun h => h.assigned.decodable, fun h => ?_⟩, terminates str,
    decodeString_of_wellEscaped⟩
  exact ⟨terminates str, h.assignsFirst, h.decodeString, decodeString_of_wellEscaped⟩

/-- The last character of the name announces an escape. -/
theorem safe_decoding_truncated :
    decodeString (ascii "100%") = .error .unassigned ∧ ¬DecodesSafely (ascii "100%") := by
  have hreach : Reaches (ascii "100%") 3 (ascii "100") :=
    ((Reaches.start.turn rfl rfl).turn rfl rfl).turn rfl rfl
  refine ⟨by decide, fun h => ?_⟩
  have hassigned := h.assigned 3 _ hreach (by decide)
  revert hassigned
  decide

end LibWfut.Encoder
