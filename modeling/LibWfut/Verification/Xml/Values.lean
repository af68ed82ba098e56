import Mathlib.Data.List.Chain
import LibWfut.Library.Run
import LibWfut.Model.TinyXmlPrinter

/-! # Values

What is printed of an attribute value or a text, and what is read of it again. -/

namespace LibWfut.TinyXml

/-! ## Characters as they are read -/

/-- A byte that is printed as it is. -/
def Plain (c : UInt8) : Prop :=
  encodeChar c = [c]

instance : DecidablePred Plain := fun c => decEq (encodeChar c) [c]

/-- The bytes that `GetChar` takes at once: one, or a sequence whose other bytes are printed as
they are. -/
inductive Chunk (encoding : XmlEncoding) : Bytes → Prop
  | single {c : UInt8} (h : charLength encoding c = 1) : Chunk encoding [c]
  | sequence {c : UInt8} {tail : Bytes} (h : charLength encoding c = tail.length + 1)
      (hne : tail ≠ []) (hplain : ∀ b ∈ tail, Plain b) : Chunk encoding (c :: tail)

/-- A string that falls into such pieces: no sequence in it is cut off or takes a byte with it
that is escaped. -/
inductive Aligned (encoding : XmlEncoding) : Bytes → Prop
  | nil : Aligned encoding []
  | append {piece v : Bytes} (hp : Chunk encoding piece) (hv : Aligned encoding v) :
      Aligned encoding (piece ++ v)

theorem Chunk.append {encoding : XmlEncoding} {piece v : Bytes} (hp : Chunk encoding piece)
    (hv : Aligned encoding v) : Aligned encoding (piece ++ v) :=
  .append hp hv

theorem Aligned.append_single {encoding : XmlEncoding} {v w : Bytes} (hv : Aligned encoding v)
    (h : ∀ c ∈ w, charLength encoding c = 1) : Aligned encoding (w ++ v) := by
  induction w with
  | nil => exact hv
  | cons c w ih =>
      have hrest := ih fun d hd => h d (List.mem_cons_of_mem _ hd)
      exact (Chunk.single (h c (List.mem_cons_self ..))).append hrest

theorem aligned_of_single {encoding : XmlEncoding} {v : Bytes}
    (h : ∀ c ∈ v, charLength encoding c = 1) : Aligned encoding v := by
  simpa using Aligned.nil.append_single h

/-- No character of it looks like a hexadecimal reference. -/
def Unreferenced (v : Bytes) : Prop :=
  ¬ascii "&#x" <:+: v

/-- The characters of a string one by one. -/
def escape (v : Bytes) : Bytes :=
  v.flatMap encodeChar

@[simp] theorem escape_nil : escape [] = [] := rfl

@[simp] theorem escape_append (v w : Bytes) : escape (v ++ w) = escape v ++ escape w :=
  List.flatMap_append

@[simp] theorem escape_singleton (c : UInt8) : escape [c] = encodeChar c :=
  List.flatMap_singleton ..

theorem escape_of_plain {v : Bytes} (h : ∀ c ∈ v, Plain c) : escape v = v := by
  induction v with
  | nil => rfl
  | cons c v ih =>
      have hc : encodeChar c = [c] := h c (List.mem_cons_self ..)
      rw [escape, List.flatMap_cons, hc, ← escape, ih fun d hd => h d (List.mem_cons_of_mem _ hd)]
      rfl

theorem unreferenced_of_not_mem {v : Bytes} (h : 38 ∉ v) : Unreferenced v :=
  fun hm => h (hm.subset (by decide))

theorem Unreferenced.of_suffix {v w : Bytes} (h : Unreferenced v) (hw : w <:+ v) :
    Unreferenced w :=
  fun hm => h (hm.trans hw.isInfix)

/-- Without such characters `EncodeString` is the escape of the characters. -/
theorem encodeString_eq {v : Bytes} (h : Unreferenced v) : encodeString v = escape v := by
  unfold encodeString
  induction v with
  | nil => rfl
  | cons c v ih =>
      have hnot : (ascii "&#x").isPrefixOf (c :: v) = false := by
        rw [Bool.eq_false_iff]
        intro hpre
        exact h (List.isPrefixOf_iff_prefix.mp hpre).isInfix
      rw [encodeFrom, if_neg (by simp [hnot]), ih (h.of_suffix (List.suffix_cons ..))]
      rfl

/-! ## All bytes -/

theorem forall_byte {P : UInt8 → Prop} (h : ∀ n < 256, P n.toUInt8) (c : UInt8) : P c := by
  have hc := h c.toNat c.toNat_lt
  simpa using hc

/-- What a byte is printed as starts neither with a quotation mark nor with a tag, and it is
white space only for a blank. -/
theorem encodeChar_cons (c : UInt8) :
    ∃ d rest, encodeChar c = d :: rest ∧ d ≠ 34 ∧ d ≠ 39 ∧ d ≠ 60 ∧
      (isWhiteSpace d = true → c = 32) := by
  have hall : ∀ c : UInt8, (encodeChar c).head?.any
      (fun d => d ≠ 34 ∧ d ≠ 39 ∧ d ≠ 60 ∧ (isWhiteSpace d = true → c = 32)) = true :=
    forall_byte (by decide +kernel)
  have hc := hall c
  cases h : encodeChar c with
  | nil => simp [h] at hc
  | cons d rest =>
      rw [h, List.head?_cons, Option.any_some, decide_eq_true_eq] at hc
      exact ⟨d, rest, rfl, hc⟩

theorem zero_not_mem_encodeChar (c : UInt8) : 0 ∉ encodeChar c :=
  forall_byte (P := fun c => 0 ∉ encodeChar c) (by decide +kernel) c

theorem zero_not_mem_escape (v : Bytes) : 0 ∉ escape v := by
  rw [escape, List.mem_flatMap]
  rintro ⟨c, -, hc⟩
  exact zero_not_mem_encodeChar c hc

theorem charLength_escaped {c : UInt8} (h : ¬Plain c) (encoding : XmlEncoding) :
    charLength encoding c = 1 := by
  have hall : ∀ c : UInt8, encodeChar c = [c] ∨ utf8ByteTable c = 1 :=
    forall_byte (by decide +kernel)
  rw [charLength]
  split
  · exact (hall c).resolve_left h
  · rfl

/-- A byte that is a blank or stands alone is not the first of a sequence. -/
theorem plain_of_charLength {encoding : XmlEncoding} {c : UInt8} (h : charLength encoding c ≠ 1) :
    Plain c := by
  by_contra hc
  exact h (charLength_escaped hc encoding)

theorem isWhiteSpace_of_charLength {encoding : XmlEncoding} {c : UInt8}
    (h : charLength encoding c ≠ 1) : isWhiteSpace c = false := by
  have hall : ∀ c : UInt8, utf8ByteTable c = 1 ∨ isWhiteSpace c = false :=
    forall_byte (by decide +kernel)
  rw [charLength] at h
  split at h
  · exact (hall c).resolve_left h
  · exact absurd rfl h

/-! ## Single characters and sequences -/

/-- A control character stands for itself again, whatever follows its reference. -/
theorem characterReference_encodeChar (encoding : XmlEncoding) {n : ℕ} (hn : n < 32)
    (rest : Bytes) :
    characterReference encoding 16 hexDigit 120
        (upperHexDigit (n.toUInt8 / 16) :: upperHexDigit (n.toUInt8 % 16) :: 59 :: rest) =
      ([n.toUInt8], rest) := by
  have hdigits : ∀ n < 32, upperHexDigit (n.toUInt8 / 16) ≠ 59 ∧
      upperHexDigit (n.toUInt8 % 16) ≠ 59 ∧
      [upperHexDigit (n.toUInt8 % 16), upperHexDigit (n.toUInt8 / 16)].takeWhile (· ≠ 120) =
        [upperHexDigit (n.toUInt8 % 16), upperHexDigit (n.toUInt8 / 16)] ∧
      addDigits 16 hexDigit 1 0 [upperHexDigit (n.toUInt8 % 16), upperHexDigit (n.toUInt8 / 16)] =
        some n.toUInt64 := by decide +kernel
  have hvalue : ∀ n < 32, convertUTF32ToUTF8 n.toUInt64 = [n.toUInt8] ∧
      n.toUInt64.toUInt8 = n.toUInt8 := by decide +kernel
  obtain ⟨hhigh, hlow, hmark, hadd⟩ := hdigits n hn
  obtain ⟨hutf8, hbyte⟩ := hvalue n hn
  generalize upperHexDigit (n.toUInt8 / 16) = high at *
  generalize upperHexDigit (n.toUInt8 % 16) = low at *
  have hrest : (high :: low :: 59 :: rest).dropWhile (· ≠ 59) = 59 :: rest := by
    simp [hhigh, hlow]
  have htake : (high :: low :: 59 :: rest).takeWhile (· ≠ 59) = [high, low] := by
    simp [hhigh, hlow]
  simp only [characterReference, hrest, htake, List.reverse_cons, List.reverse_nil,
    List.nil_append, List.cons_append, hmark, hadd, hutf8, hbyte, ite_self]

/-- An escape is read as the character it stands for. -/
theorem getEntity_encodeChar (encoding : XmlEncoding) {c : UInt8} (h : ¬Plain c) (rest : Bytes) :
    ∃ tail, encodeChar c = 38 :: tail ∧
      getEntity encoding (encodeChar c ++ rest) = ([c], rest) := by
  have hescaped : ∀ c : UInt8, encodeChar c = [c] ∨ c = 38 ∨ c = 60 ∨ c = 62 ∨ c = 34 ∨ c = 39 ∨
      c.toNat < 32 :=
    forall_byte (by decide +kernel)
  rcases (hescaped c).resolve_left h with rfl | rfl | rfl | rfl | rfl | hc
  · exact ⟨_, rfl, rfl⟩
  · exact ⟨_, rfl, rfl⟩
  · exact ⟨_, rfl, rfl⟩
  · exact ⟨_, rfl, rfl⟩
  · exact ⟨_, rfl, rfl⟩
  · have hcontrol : ∀ n < 32, encodeChar n.toUInt8 =
        [38, 35, 120, upperHexDigit (n.toUInt8 / 16), upperHexDigit (n.toUInt8 % 16), 59] := by
      decide +kernel
    have heq := hcontrol c.toNat hc
    have href := characterReference_encodeChar encoding hc rest
    rw [show c.toNat.toUInt8 = c by simp] at heq href
    refine ⟨_, heq, ?_⟩
    rw [heq]
    exact href

theorem getChar_single (encoding : XmlEncoding) {c : UInt8} (h : charLength encoding c = 1)
    (rest : Bytes) : getChar encoding (encodeChar c ++ rest) = .ok ([c], rest) := by
  by_cases hc : Plain c
  · have heq : encodeChar c = [c] := hc
    have hamp : c ≠ 38 := by
      rintro rfl
      revert heq
      decide
    rw [heq, List.singleton_append, getChar, if_pos h, if_neg hamp]
  · obtain ⟨tail, htail, hentity⟩ := getEntity_encodeChar encoding hc rest
    have hamp : charLength encoding 38 = 1 := charLength_escaped (by decide) encoding
    rw [htail, List.cons_append] at hentity ⊢
    rw [getChar, if_pos hamp, if_pos rfl, hentity]

theorem getChar_sequence (encoding : XmlEncoding) {c : UInt8} {tail : Bytes}
    (h : charLength encoding c = tail.length + 1) (hne : tail ≠ []) (rest : Bytes) :
    getChar encoding (c :: tail ++ rest) = .ok (c :: tail, rest) := by
  have hlength : 0 < tail.length := List.length_pos_of_ne_nil hne
  rw [List.cons_append, getChar, if_neg (by omega), if_neg (by simp [h])]
  simp [h]

/-- A piece is read as it was before it was escaped. -/
theorem getChar_escape {encoding : XmlEncoding} {piece : Bytes} (h : Chunk encoding piece)
    (rest : Bytes) : getChar encoding (escape piece ++ rest) = .ok (piece, rest) := by
  cases h with
  | @single c h =>
      rw [escape_singleton]
      exact getChar_single encoding h rest
  | @sequence c tail h hne hplain =>
      have hlength : 0 < tail.length := List.length_pos_of_ne_nil hne
      have hnot : charLength encoding c ≠ 1 := by omega
      have hescape : escape (c :: tail) = c :: tail := by
        apply escape_of_plain
        intro d hd
        rcases List.mem_cons.mp hd with rfl | hd
        · exact plain_of_charLength hnot
        · exact hplain d hd
      rw [hescape]
      exact getChar_sequence encoding h hne rest

/-- The escape of a piece does not start with a quotation mark or a tag, and it starts with
white space only if it is a blank. -/
theorem escape_cons {encoding : XmlEncoding} {piece : Bytes} (h : Chunk encoding piece) :
    ∃ d rest, escape piece = d :: rest ∧ d ≠ 34 ∧ d ≠ 39 ∧ d ≠ 60 ∧
      (isWhiteSpace d = true → piece = [32]) := by
  cases h with
  | @single c h =>
      obtain ⟨d, rest, heq, hquote, happ, hlt, hspace⟩ := encodeChar_cons c
      refine ⟨d, rest, by rw [escape_singleton, heq], hquote, happ, hlt, ?_⟩
      exact fun hd => by rw [hspace hd]
  | @sequence c tail h hne hplain =>
      have hlength : 0 < tail.length := List.length_pos_of_ne_nil hne
      have hnot : charLength encoding c ≠ 1 := by omega
      obtain ⟨d, rest, heq, hquote, happ, hlt, -⟩ := encodeChar_cons c
      have hc : encodeChar c = [c] := plain_of_charLength hnot
      obtain ⟨rfl, rfl⟩ : c = d ∧ [] = rest := List.cons.inj (hc.symm.trans heq)
      refine ⟨c, escape tail, by rw [escape, List.flatMap_cons, hc]; rfl, hquote, happ, hlt, ?_⟩
      intro hspace
      rw [isWhiteSpace_of_charLength hnot] at hspace
      simp at hspace

/-! ## Attribute values -/

/-- A value read between quotation marks that keep its white space. -/
theorem readKeeping_escape {encoding : XmlEncoding} {v : Bytes} (h : Aligned encoding v)
    {quote : UInt8} (hquote : quote = 34 ∨ quote = 39) {fuel : ℕ} (text rest : Bytes)
    (hfuel : v.length < fuel) :
    readKeeping encoding [quote] fuel text (escape v ++ quote :: rest) =
      .ok (text ++ v, quote :: rest) := by
  induction h generalizing fuel text with
  | nil =>
      obtain ⟨fuel, rfl⟩ := Nat.exists_eq_add_of_lt hfuel
      simp [readKeeping, stringEqual]
  | @append piece v hp hv ih =>
      have hlength : 0 < piece.length := by cases hp <;> simp
      obtain ⟨fuel, rfl⟩ : ∃ n, fuel = n + 1 := ⟨fuel - 1, by omega⟩
      obtain ⟨d, tail, heq, hdouble, hsingle, -, -⟩ := escape_cons hp
      have hd : d ≠ quote := by rcases hquote with rfl | rfl <;> assumption
      have hnot : ¬(escape piece ++ (escape v ++ quote :: rest) = [] ∨
          stringEqual (escape piece ++ (escape v ++ quote :: rest)) [quote] false = true) := by
        simp [heq, stringEqual, Ne.symm hd]
      rw [escape_append, List.append_assoc, readKeeping, if_neg hnot, getChar_escape hp]
      simp only [Machine.ok_bind]
      rw [ih (text ++ piece) (by rw [List.length_append] at hfuel; omega), List.append_assoc]

theorem length_le_escape (v : Bytes) : v.length ≤ (escape v).length := by
  induction v with
  | nil => simp
  | cons c v ih =>
      obtain ⟨d, rest, heq, -⟩ := encodeChar_cons c
      rw [escape, List.flatMap_cons, List.length_append, heq, ← escape]
      simp only [List.length_cons]
      omega

/-- An attribute value survives, whatever follows its quotation mark. -/
theorem readText_value {encoding : XmlEncoding} {v : Bytes} (h : Aligned encoding v)
    {quote : UInt8} (hquote : quote = 34 ∨ quote = 39) (rest : Bytes) :
    readText encoding false [quote] (escape v ++ quote :: rest) = .ok (v, rest) := by
  have hfuel : v.length < (escape v ++ quote :: rest).length + 1 := by
    have hlength := length_le_escape v
    simp only [List.length_append, List.length_cons]
    omega
  simp only [readText, Bool.false_eq_true, if_false,
    readKeeping_escape h hquote [] rest hfuel, Machine.ok_bind]
  simp

/-! ## Texts -/

/-- A blank is followed by something else. -/
def Spaced (v : Bytes) : Prop :=
  v.IsChain fun a b => a ≠ 32 ∨ b ≠ 32

/-- White space before a tag is dropped. -/
theorem readCondensing_blanks (encoding : XmlEncoding) {blanks : Bytes}
    (h : blanks.all isWhiteSpace = true) {fuel : ℕ} (whitespace : Bool) (text rest : Bytes)
    (hfuel : blanks.length < fuel) :
    readCondensing encoding [60] fuel whitespace text (blanks ++ 60 :: rest) =
      .ok (text, 60 :: rest) := by
  induction blanks generalizing fuel whitespace with
  | nil =>
      obtain ⟨fuel, rfl⟩ := Nat.exists_eq_add_of_lt hfuel
      simp [readCondensing, stringEqual]
  | cons c blanks ih =>
      obtain ⟨fuel, rfl⟩ : ∃ n, fuel = n + 1 := ⟨fuel - 1, by omega⟩
      rw [List.all_cons, Bool.and_eq_true] at h
      have hc : c ≠ 60 := by
        rintro rfl
        exact absurd h.1 (by decide)
      rw [List.cons_append, readCondensing, if_neg (by simp [stringEqual, Ne.symm hc]),
        if_pos (by simp [h.1])]
      exact ih h.2 true (by simpa using hfuel)

/-- A text is condensed to itself. -/
theorem readCondensing_escape {encoding : XmlEncoding} {v : Bytes} (h : Aligned encoding v)
    (hspaced : Spaced v) (hlast : v.getLast? ≠ some 32) {blanks : Bytes}
    (hblanks : blanks.all isWhiteSpace = true) {fuel : ℕ} {whitespace : Bool}
    (hfirst : whitespace = true → v.head? ≠ some 32) (text rest : Bytes)
    (hfuel : (escape v).length + blanks.length < fuel) :
    readCondensing encoding [60] fuel whitespace text (escape v ++ (blanks ++ 60 :: rest)) =
      .ok (if whitespace ∧ v ≠ [] then text ++ 32 :: v else text ++ v, 60 :: rest) := by
  induction h generalizing fuel whitespace text with
  | nil =>
      rw [escape_nil, List.nil_append, readCondensing_blanks encoding hblanks _ _ _ (by
        simpa using hfuel)]
      simp
  | @append piece v hp hv ih =>
      obtain ⟨fuel, rfl⟩ : ∃ n, fuel = n + 1 := ⟨fuel - 1, by omega⟩
      obtain ⟨d, tail, heq, -, -, hlt, hspace⟩ := escape_cons hp
      have hne : piece ≠ [] := by cases hp <;> simp
      have hspaced' : Spaced v := (List.isChain_append.mp hspaced).2.1
      have hlast' : v.getLast? ≠ some 32 := by
        intro hv32
        rw [List.getLast?_append, hv32] at hlast
        exact hlast rfl
      have hnot : ¬(escape piece ++ (escape v ++ (blanks ++ 60 :: rest)) = [] ∨
          stringEqual (escape piece ++ (escape v ++ (blanks ++ 60 :: rest))) [60] false =
            true) := by
        simp [heq, stringEqual, Ne.symm hlt]
      have hfuel' : (escape v).length + blanks.length < fuel := by
        rw [escape_append, List.length_append, heq, List.length_cons] at hfuel
        omega
      rw [escape_append, List.append_assoc, readCondensing, if_neg hnot]
      by_cases hd : isWhiteSpace d = true
      · -- A blank is held back until the next piece.
        obtain rfl := hspace hd
        have hwhite : whitespace = false := by
          rw [Bool.eq_false_iff]
          exact fun hw => hfirst hw rfl
        have hv0 : v ≠ [] := by
          rintro rfl
          exact hlast rfl
        have hnext : v.head? ≠ some 32 := by
          intro hhead
          have hadj := (List.isChain_append.mp hspaced).2.2 32 (by simp) 32 hhead
          simp at hadj
        have hdrop : (escape [32] ++ (escape v ++ (blanks ++ 60 :: rest))).drop 1 =
            escape v ++ (blanks ++ 60 :: rest) := rfl
        rw [if_pos (by simpa [heq] using hd), hdrop,
          ih hspaced' hlast' (fun _ => hnext) text hfuel']
        simp [hwhite, hv0]
      · rw [if_neg (by simpa [heq] using hd), getChar_escape hp]
        simp only [Machine.ok_bind]
        rw [ih hspaced' hlast' (by simp) _ hfuel']
        cases whitespace <;> simp [hne]

/-- Three bytes that the parser passes over in front of a text. -/
def Marked (encoding : XmlEncoding) (v : Bytes) : Prop :=
  encoding = .utf8 ∧ ∃ a b c w, v = a :: b :: c :: w ∧ isMark a b c = true

/-- Something that stands behind white space. -/
theorem skipWhiteSpace_eq {encoding : XmlEncoding} {c : UInt8} {v : Bytes}
    (hspace : isWhiteSpace c = false) (hmark : ¬Marked encoding (c :: v)) :
    skipWhiteSpace encoding (c :: v) = c :: v := by
  match v with
  | [] => simp [skipWhiteSpace, hspace]
  | [d] => simp [skipWhiteSpace, hspace]
  | d :: e :: w =>
      have hnot : ¬(encoding = .utf8 ∧ isMark c d e = true) :=
        fun ⟨henc, hm⟩ => hmark ⟨henc, c, d, e, w, rfl, hm⟩
      simp [skipWhiteSpace, hspace, hnot]

theorem isMark_head {a b c : UInt8} (h : isMark a b c = true) : a = 0xef := by
  unfold isMark at h
  simp only [decide_eq_true_eq] at h
  exact h.1

theorem unmarked_of_head {encoding : XmlEncoding} {v : Bytes} (h : v.head? ≠ some 0xef) :
    ¬Marked encoding v := by
  rintro ⟨-, a, b, c, w, rfl, hm⟩
  exact h (congrArg some (isMark_head hm))

theorem skipWhiteSpace_head {encoding : XmlEncoding} {c : UInt8} {v : Bytes}
    (hspace : isWhiteSpace c = false) (hc : c ≠ 0xef) :
    skipWhiteSpace encoding (c :: v) = c :: v :=
  skipWhiteSpace_eq hspace (unmarked_of_head (by simpa using hc))

theorem skipWhiteSpace_space {encoding : XmlEncoding} {c : UInt8} (h : isWhiteSpace c = true)
    (v : Bytes) : skipWhiteSpace encoding (c :: v) = skipWhiteSpace encoding v := by
  have hc : c ≠ 0xef := by
    rintro rfl
    exact absurd h (by decide)
  match v with
  | [] => simp [skipWhiteSpace, h]
  | [d] => simp [skipWhiteSpace, h]
  | d :: e :: w =>
      have hnot : ¬(encoding = .utf8 ∧ isMark c d e = true) := fun ⟨_, hm⟩ => hc (isMark_head hm)
      rw [skipWhiteSpace, if_neg hnot, if_pos h]

theorem skipWhiteSpace_blanks {encoding : XmlEncoding} {blanks : Bytes}
    (h : blanks.all isWhiteSpace = true) (v : Bytes) :
    skipWhiteSpace encoding (blanks ++ v) = skipWhiteSpace encoding v := by
  induction blanks with
  | nil => rfl
  | cons c blanks ih =>
      rw [List.all_cons, Bool.and_eq_true] at h
      rw [List.cons_append, skipWhiteSpace_space h.1, ih h.2]

/-- A text that TinyXML reads as it was written. -/
structure ReadableText (encoding : XmlEncoding) (v : Bytes) : Prop where
  aligned : Aligned encoding v
  unreferenced : Unreferenced v
  visible : blank v = false
  spaced : Spaced v
  leading : v.head? ≠ some 32
  trailing : v.getLast? ≠ some 32
  unmarked : ¬Marked encoding v

section ReadableText

variable {encoding : XmlEncoding} {v : Bytes}

/-- The mark in front of an escaped text is one in front of the text. -/
theorem marked_of_escape (h : Aligned encoding v) {rest : Bytes} (hrest : rest.head? = some 60 ∨
    rest.head?.any isWhiteSpace = true) (hm : Marked encoding (escape v ++ rest)) :
    Marked encoding v := by
  obtain ⟨henc, a, b, c, w, heq, hmark⟩ := hm
  have ha := isMark_head hmark
  subst henc ha
  cases h with
  | nil =>
      rw [escape_nil, List.nil_append] at heq
      subst heq
      rcases hrest with hrest | hrest
      · exact absurd (Option.some.inj hrest) (by decide)
      · have hspace : isWhiteSpace 0xef = true := hrest
        exact absurd hspace (by decide)
  | @append piece v hp hv =>
      cases hp with
      | @single d h =>
          exfalso
          obtain ⟨x, tail, hx, -⟩ := encodeChar_cons d
          rw [escape_append, escape_singleton, hx] at heq
          simp only [List.cons_append, List.cons.injEq] at heq
          rw [heq.1] at hx
          by_cases hd : Plain d
          · have hd' : encodeChar d = [d] := hd
            rw [hd'] at hx
            rw [(List.cons.inj hx).1] at h
            revert h
            decide
          · obtain ⟨tail', htail', -⟩ := getEntity_encodeChar .utf8 hd []
            rw [htail'] at hx
            exact absurd (List.cons.inj hx).1 (by decide)
      | @sequence d tail h hne hplain =>
          have hnot : charLength .utf8 d ≠ 1 := by
            have := List.length_pos_of_ne_nil hne
            omega
          have hescape : escape (d :: tail) = d :: tail := escape_of_plain (by
            intro x hx
            rcases List.mem_cons.mp hx with rfl | hx
            · exact plain_of_charLength hnot
            · exact hplain x hx)
          rw [escape_append, hescape] at heq
          simp only [List.cons_append, List.cons.injEq] at heq
          obtain ⟨rfl, heq⟩ := heq
          have htwo : tail.length = 2 := by
            have hlength : charLength .utf8 0xef = 3 := by decide
            omega
          obtain ⟨x, y, rfl⟩ := List.length_eq_two.mp htwo
          simp only [List.cons_append, List.nil_append, List.cons.injEq] at heq
          obtain ⟨rfl, rfl, -⟩ := heq
          exact ⟨rfl, 0xef, x, y, v, rfl, hmark⟩

theorem ReadableText.ne_nil (h : ReadableText encoding v) : v ≠ [] := by
  rintro rfl
  exact absurd h.visible (by decide)

/-- A text of single bytes, by facts that can be decided. -/
theorem readableText_of_single (h : (∀ c ∈ v, charLength encoding c = 1) ∧
    ¬ascii "&#x" <:+: v ∧ blank v = false ∧ (v.IsChain fun a b => a ≠ 32 ∨ b ≠ 32) ∧
      v.head? ≠ some 32 ∧ v.getLast? ≠ some 32 ∧ v.head? ≠ some 0xef) :
    ReadableText encoding v := by
  obtain ⟨hone, hun, hblank, hspaced, hfirst, hlast, hmark⟩ := h
  exact ⟨aligned_of_single hone, hun, hblank, hspaced, hfirst, hlast, unmarked_of_head hmark⟩

/-- The first byte that is printed of a text is neither white space nor a tag. -/
theorem ReadableText.cons (h : ReadableText encoding v) :
    ∃ d rest, escape v = d :: rest ∧ d ≠ 60 ∧ isWhiteSpace d = false := by
  cases h.aligned with
  | nil => exact absurd rfl h.ne_nil
  | @append piece v hp hv =>
      obtain ⟨d, rest, heq, -, -, hlt, hspace⟩ := escape_cons hp
      refine ⟨d, rest ++ escape v, by rw [escape_append, heq]; rfl, hlt, ?_⟩
      rw [Bool.eq_false_iff]
      intro hd
      rw [hspace hd] at h
      exact h.leading rfl

theorem skipWhiteSpace_escape (h : ReadableText encoding v) {blanks : Bytes}
    (hblanks : blanks.all isWhiteSpace = true) (rest : Bytes) :
    skipWhiteSpace encoding (escape v ++ (blanks ++ 60 :: rest)) =
      escape v ++ (blanks ++ 60 :: rest) := by
  obtain ⟨d, tail, heq, -, hspace⟩ := h.cons
  have hmark : ¬Marked encoding (escape v ++ (blanks ++ 60 :: rest)) := by
    intro hm
    apply h.unmarked
    apply marked_of_escape h.aligned _ hm
    cases blanks with
    | nil => exact .inl rfl
    | cons c blanks =>
        rw [List.all_cons, Bool.and_eq_true] at hblanks
        exact .inr hblanks.1
  rw [heq] at hmark ⊢
  exact skipWhiteSpace_eq hspace hmark

/-- A text before a tag is read as it was written, with white space between it and the tag or
without. -/
theorem parseText_escape (h : ReadableText encoding v) {blanks : Bytes}
    (hblanks : blanks.all isWhiteSpace = true) {rest : Bytes} (hrest : rest ≠ []) :
    parseText encoding (escape v ++ (blanks ++ 60 :: rest)) = .ok (v, 60 :: rest) := by
  have hskip := skipWhiteSpace_escape h hblanks rest
  have hfuel : (escape v).length + blanks.length <
      (escape v ++ (blanks ++ 60 :: rest)).length + 1 := by
    simp only [List.length_append, List.length_cons]
    omega
  have hfirst : false = true → v.head? ≠ some 32 := by simp
  have hread := readCondensing_escape h.aligned h.spaced h.trailing hblanks hfirst [] rest hfuel
  have hlt : ascii "<" = [60] := rfl
  simp only [parseText, readText, if_true, hskip, hlt, hread, Machine.ok_bind]
  simp [hrest]

end ReadableText

end LibWfut.TinyXml
