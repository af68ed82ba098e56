import LibWfut.Verification.Xml.Values

/-! # Names, attributes and tags

A tag that was printed is read as it was written. -/

namespace LibWfut.TinyXml

/-! ## Names -/

/-- A name that `ReadName` takes as a whole. -/
structure IsName (encoding : XmlEncoding) (name : Bytes) : Prop where
  first : name.head?.any isNameStart = true
  letters : name.all isNameChar = true
  unmarked : ¬Marked encoding name

theorem isNameChar_cases (c : UInt8) (h : isNameChar c = true) :
    c ≠ 0 ∧ c ≠ 47 ∧ c ≠ 61 ∧ c ≠ 62 ∧ isWhiteSpace c = false ∧ Plain c ∧ c ≠ 38 := by
  have hall : ∀ c : UInt8, isNameChar c = true →
      c ≠ 0 ∧ c ≠ 47 ∧ c ≠ 61 ∧ c ≠ 62 ∧ isWhiteSpace c = false ∧ Plain c ∧ c ≠ 38 :=
    forall_byte (by decide +kernel)
  exact hall c h

theorem isNameChar_of_isNameStart {c : UInt8} (h : isNameStart c = true) :
    isNameChar c = true := by
  have hall : ∀ c : UInt8, isNameStart c = true → isNameChar c = true :=
    forall_byte (by decide +kernel)
  exact hall c h

theorem isNameChar_of_isMark {a b c : UInt8} (h : isMark a b c = true) :
    isNameChar a = true ∧ isNameChar b = true ∧ isNameChar c = true := by
  unfold isMark at h
  rw [decide_eq_true_eq] at h
  obtain ⟨rfl, ⟨rfl, rfl⟩ | ⟨rfl, rfl⟩ | ⟨rfl, rfl⟩⟩ := h <;> decide

section Name

variable {encoding : XmlEncoding} {name : Bytes}

theorem IsName.cons (h : IsName encoding name) :
    ∃ c rest, name = c :: rest ∧ isNameStart c = true := by
  have hfirst := h.first
  cases name with
  | nil => simp at hfirst
  | cons c rest => exact ⟨c, rest, rfl, by simpa using hfirst⟩

theorem IsName.ne_nil (h : IsName encoding name) : name ≠ [] := by
  obtain ⟨c, rest, rfl, -⟩ := h.cons
  simp

theorem IsName.letter (h : IsName encoding name) {c : UInt8} (hc : c ∈ name) :
    isNameChar c = true :=
  List.all_eq_true.mp h.letters c hc

theorem IsName.plain (h : IsName encoding name) : ∀ c ∈ name, Plain c :=
  fun c hc => (isNameChar_cases c (h.letter hc)).2.2.2.2.2.1

theorem IsName.cStr_eq (h : IsName encoding name) : cStr name = name :=
  cStr_eq_self_iff.mpr fun h0 => (isNameChar_cases 0 (h.letter h0)).1 rfl

theorem IsName.encodeString_eq (h : IsName encoding name) : encodeString name = name := by
  rw [TinyXml.encodeString_eq, escape_of_plain h.plain]
  intro hm
  have hamp : (38 : UInt8) ∈ name := hm.subset (by decide)
  exact (isNameChar_cases 38 (h.letter hamp)).2.2.2.2.2.2 rfl

/-- What can stand behind a name. -/
def EndsName (rest : Bytes) : Prop :=
  rest.head?.all (fun c => !isNameChar c) = true

theorem endsName_cons {c : UInt8} (h : isNameChar c = false) (rest : Bytes) :
    EndsName (c :: rest) := by
  simpa [EndsName] using h

theorem readName_append (h : IsName encoding name) {rest : Bytes} (hrest : EndsName rest) :
    readName (name ++ rest) = (name, rest) := by
  obtain ⟨c, tail, rfl, hc⟩ := h.cons
  have hall : ∀ d ∈ c :: tail, isNameChar d = true := fun d hd => h.letter hd
  have htake : rest.takeWhile isNameChar = [] ∧ rest.dropWhile isNameChar = rest := by
    cases rest with
    | nil => exact ⟨rfl, rfl⟩
    | cons d rest =>
        have hd : isNameChar d = false := by simpa [EndsName] using hrest
        simp [hd]
  rw [List.cons_append, readName, if_pos hc, ← List.cons_append,
    List.takeWhile_append_of_pos hall, List.dropWhile_append_of_pos hall, htake.1, htake.2,
    List.append_nil]

theorem skipWhiteSpace_name (h : IsName encoding name) {rest : Bytes} (hrest : EndsName rest) :
    skipWhiteSpace encoding (name ++ rest) = name ++ rest := by
  have hmark : ¬Marked encoding (name ++ rest) := by
    rintro ⟨henc, a, b, c, w, heq, hm⟩
    obtain ⟨ha, hb, hc⟩ := isNameChar_of_isMark hm
    have htake := readName_append h hrest
    -- The mark consists of letters, so that it lies inside the name.
    obtain ⟨d, tail, rfl, hd⟩ := h.cons
    rw [List.cons_append, readName, if_pos hd, ← List.cons_append, heq] at htake
    have hname : (a :: b :: c :: w).takeWhile isNameChar = d :: tail := congrArg Prod.fst htake
    rw [List.takeWhile_cons_of_pos ha, List.takeWhile_cons_of_pos hb,
      List.takeWhile_cons_of_pos hc] at hname
    exact h.unmarked ⟨henc, a, b, c, _, hname.symm, hm⟩
  obtain ⟨c, tail, rfl, hc⟩ := h.cons
  exact skipWhiteSpace_eq (isNameChar_cases c (isNameChar_of_isNameStart hc)).2.2.2.2.1 hmark

end Name

/-! ## Attributes -/

/-- An attribute that TinyXML reads as it was written. -/
structure Writable (encoding : XmlEncoding) (a : Bytes × Bytes) : Prop where
  name : IsName encoding a.1
  aligned : Aligned encoding a.2
  unreferenced : Unreferenced a.2

section Attribute

variable {encoding : XmlEncoding} {a : Bytes × Bytes} {attributes : Attributes}

/-- The quotation mark that is chosen for a value. -/
def quoteOf (v : Bytes) : UInt8 :=
  if v.contains 34 then 39 else 34

theorem quoteOf_cases (v : Bytes) : quoteOf v = 34 ∨ quoteOf v = 39 := by
  unfold quoteOf
  split
  · exact .inr rfl
  · exact .inl rfl

theorem printAttribute_eq (h : Writable encoding a) :
    printAttribute a = a.1 ++ 61 :: quoteOf a.2 :: (escape a.2 ++ [quoteOf a.2]) := by
  have hquote : (if a.2.contains 34 then ascii "'" else ascii "\"") = [quoteOf a.2] := by
    unfold quoteOf
    split <;> rfl
  rw [printAttribute, h.name.encodeString_eq, h.name.cStr_eq, encodeString_eq h.unreferenced,
    cStr_eq_self_iff.mpr (zero_not_mem_escape _), hquote]
  simp [ascii]

/-- An attribute survives, whatever follows it. -/
theorem parseAttribute_print (h : Writable encoding a) (rest : Bytes) :
    parseAttribute encoding (printAttribute a ++ rest) = .ok (a.1, a.2, rest) := by
  have hends : EndsName (61 :: quoteOf a.2 :: (escape a.2 ++ quoteOf a.2 :: rest)) :=
    endsName_cons (by decide) _
  have htext : printAttribute a ++ rest =
      a.1 ++ 61 :: quoteOf a.2 :: (escape a.2 ++ quoteOf a.2 :: rest) := by
    rw [printAttribute_eq h]
    simp
  have hequals : skipWhiteSpace encoding
      (61 :: quoteOf a.2 :: (escape a.2 ++ quoteOf a.2 :: rest)) =
      61 :: quoteOf a.2 :: (escape a.2 ++ quoteOf a.2 :: rest) :=
    skipWhiteSpace_head (by decide) (by decide)
  have hvalue := readText_value h.aligned (quoteOf_cases a.2) rest
  rw [htext, parseAttribute, skipWhiteSpace_name h.name hends, readName_append h.name hends]
  simp only [hequals]
  rcases quoteOf_cases a.2 with hq | hq
  · rw [hq] at hvalue ⊢
    rw [skipWhiteSpace_head (by decide) (by decide)]
    have hdouble : ascii "\"" = [34] := rfl
    simp only [hdouble, hvalue, Machine.ok_bind]
  · rw [hq] at hvalue ⊢
    rw [skipWhiteSpace_head (by decide) (by decide)]
    have hsingle : ascii "'" = [39] := rfl
    simp only [hsingle, hvalue, Machine.ok_bind]

theorem passed_eq (h : ∀ a ∈ attributes, Writable encoding a) : passed attributes = attributes := by
  cases attributes with
  | nil => rfl
  | cons a rest =>
      rw [passed, List.takeWhile_eq_self_iff.mpr]
      intro b hb
      simp [(h b (List.mem_cons_of_mem _ hb)).name.ne_nil]

theorem printAttributes_eq (h : ∀ a ∈ attributes, Writable encoding a) :
    printAttributes attributes = attributes.flatMap fun a => 32 :: printAttribute a := by
  rw [printAttributes, passed_eq h]
  rfl

end Attribute

/-! ## Tags -/

section Tag

variable {readValue : ValueReader} {encoding : XmlEncoding} {name : Bytes}
  {attributes : Attributes}

/-- One turn of the loop over the attributes. -/
theorem readTag_attribute {a : Bytes × Bytes} (h : Writable encoding a)
    (hnew : attributes.lookup a.1 = none) {rest : Bytes} (hrest : rest ≠ []) (fuel : ℕ) :
    readTag readValue encoding name (fuel + 1) attributes (32 :: printAttribute a ++ rest) =
      readTag readValue encoding name fuel (attributes ++ [a]) rest := by
  have hparse := parseAttribute_print h rest
  have hends : EndsName (61 :: quoteOf a.2 :: (escape a.2 ++ quoteOf a.2 :: rest)) :=
    endsName_cons (by decide) _
  have hskip : skipWhiteSpace encoding (32 :: printAttribute a ++ rest) =
      printAttribute a ++ rest := by
    rw [List.cons_append, skipWhiteSpace_space (by decide), printAttribute_eq h]
    simpa using skipWhiteSpace_name h.name hends
  obtain ⟨c, tail, hname, hc⟩ := h.name.cons
  obtain ⟨-, hslash, -, hgt, -⟩ := isNameChar_cases c (isNameChar_of_isNameStart hc)
  obtain ⟨text, htext⟩ : ∃ text, printAttribute a ++ rest = c :: text := by
    rw [printAttribute_eq h, hname]
    exact ⟨_, rfl⟩
  rw [htext] at hskip hparse
  rw [readTag, hskip]
  split
  · rename_i heq
    simp at heq
  · rename_i heq
    exact absurd (List.cons.inj heq).1 hslash
  · rename_i heq
    exact absurd (List.cons.inj heq).1 hslash
  · rename_i heq
    exact absurd (List.cons.inj heq).1 hgt
  · rename_i heq
    rw [← heq, hparse]
    simp [Machine.ok_bind, hrest, hnew]

/-- The loop takes every attribute that was printed. -/
theorem readTag_attributes (h : ∀ a ∈ attributes, Writable encoding a) {done : Attributes}
    (hnodup : ((done ++ attributes).map Prod.fst).Nodup) {rest : Bytes} (hrest : rest ≠ [])
    (fuel : ℕ) :
    readTag readValue encoding name (fuel + attributes.length) done
        ((attributes.flatMap fun a => 32 :: printAttribute a) ++ rest) =
      readTag readValue encoding name fuel (done ++ attributes) rest := by
  induction attributes generalizing done with
  | nil => simp
  | cons a attributes ih =>
      have hnew : done.lookup a.1 = none := by
        rw [List.lookup_eq_none_iff]
        intro b hb
        rw [List.map_append, List.nodup_append] at hnodup
        exact bne_iff_ne.mpr (Ne.symm (hnodup.2.2 b.1 (List.mem_map_of_mem hb) a.1 (by simp)))
      have hnodup' : ((done ++ [a] ++ attributes).map Prod.fst).Nodup := by simpa using hnodup
      have hne : (attributes.flatMap fun a => 32 :: printAttribute a) ++ rest ≠ [] := by
        simp [hrest]
      rw [List.flatMap_cons, List.append_assoc, List.length_cons, ← Nat.add_assoc,
        readTag_attribute (h a (List.mem_cons_self ..)) hnew hne,
        ih (fun b hb => h b (List.mem_cons_of_mem _ hb)) hnodup']
      simp

theorem readTag_empty (rest : Bytes) (fuel : ℕ) :
    readTag readValue encoding name (fuel + 1) attributes (32 :: 47 :: 62 :: rest) =
      .ok (.element name attributes [], rest) := by
  have hskip : skipWhiteSpace encoding (32 :: 47 :: 62 :: rest) = 47 :: 62 :: rest := by
    rw [skipWhiteSpace_space (by decide), skipWhiteSpace_head (by decide) (by decide)]
  rw [readTag, hskip]
  rfl

theorem readTag_content (rest : Bytes) (fuel : ℕ) :
    readTag readValue encoding name (fuel + 1) attributes (62 :: rest) =
      readContent readValue encoding name attributes rest := by
  have hskip : skipWhiteSpace encoding (62 :: rest) = 62 :: rest :=
    skipWhiteSpace_head (by decide) (by decide)
  rw [readTag, hskip]
  rfl

/-- Behind the children stands the end tag. -/
theorem readContent_print {children : List XmlNode} {p rest : Bytes}
    (h : readValue p = .ok (children, 60 :: 47 :: (name ++ 62 :: rest))) :
    readContent readValue encoding name attributes p =
      .ok (.element name attributes children, rest) := by
  have htag : stringEqual (60 :: 47 :: (name ++ 62 :: rest)) (ascii "</" ++ name) false = true := by
    have hpre : (ascii "</" ++ name).isPrefixOf (60 :: 47 :: (name ++ 62 :: rest)) = true :=
      List.isPrefixOf_iff_prefix.mpr ⟨62 :: rest, by simp [ascii]⟩
    simpa [stringEqual] using hpre
  have hdrop : (60 :: 47 :: (name ++ 62 :: rest)).drop (2 + name.length) = 62 :: rest := by
    rw [Nat.add_comm]
    simp
  have hskip : skipWhiteSpace encoding (62 :: rest) = 62 :: rest :=
    skipWhiteSpace_head (by decide) (by decide)
  rw [readContent, h]
  simp only [Machine.ok_bind, ne_eq, reduceCtorEq, not_false_eq_true, true_and, htag, if_true,
    hdrop, hskip]

/-- The start of an element. -/
theorem parseElement_print (readValue : ValueReader) (hname : IsName encoding name)
    (h : ∀ a ∈ attributes, Writable encoding a) (hnodup : (attributes.map Prod.fst).Nodup)
    {c : UInt8} (hc : isNameChar c = false) (rest : Bytes) :
    ∃ fuel, parseElement readValue encoding
        (60 :: (name ++ (printAttributes attributes ++ c :: rest))) =
      readTag readValue encoding name (fuel + 1) attributes (c :: rest) := by
  have hends : EndsName (printAttributes attributes ++ c :: rest) := by
    rw [printAttributes_eq h]
    cases attributes with
    | nil => exact endsName_cons hc rest
    | cons a attributes => exact endsName_cons (by decide) _
  have hlt : skipWhiteSpace encoding (60 :: (name ++ (printAttributes attributes ++ c :: rest))) =
      60 :: (name ++ (printAttributes attributes ++ c :: rest)) :=
    skipWhiteSpace_head (by decide) (by decide)
  have hlength : attributes.length ≤ (printAttributes attributes ++ c :: rest).length := by
    rw [printAttributes_eq h, List.length_append, List.length_flatMap]
    have hsum : attributes.length ≤
        (attributes.map fun a => (32 :: printAttribute a).length).sum := by
      clear hends hlt hnodup h
      induction attributes with
      | nil => simp
      | cons a attributes ih =>
          simp only [List.length_cons, List.map_cons, List.sum_cons] at ih ⊢
          omega
    omega
  obtain ⟨k, hk⟩ := Nat.exists_eq_add_of_le hlength
  refine ⟨k, ?_⟩
  obtain ⟨d, tail, heq⟩ : ∃ d tail, printAttributes attributes ++ c :: rest = d :: tail := by
    cases hp : printAttributes attributes with
    | nil => exact ⟨c, rest, rfl⟩
    | cons d tail => exact ⟨d, tail ++ c :: rest, rfl⟩
  have hne : c :: rest ≠ [] := by simp
  have hread := @readTag_attributes readValue encoding name attributes h []
    (by simpa using hnodup) _ hne (k + 1)
  rw [parseElement, hlt]
  simp only [skipWhiteSpace_name hname hends, readName_append hname hends]
  rw [← printAttributes_eq h] at hread
  have hfuel : k + 1 + attributes.length =
      (printAttributes attributes ++ c :: rest).length + 1 := by
    omega
  rw [hfuel] at hread
  rw [heq] at hread ⊢
  simpa using hread

end Tag

end LibWfut.TinyXml
