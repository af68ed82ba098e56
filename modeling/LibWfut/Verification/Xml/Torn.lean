import LibWfut.Verification.FileList.Log
import LibWfut.Verification.Xml.FileLists
import LibWfut.Verification.Xml.Parsing

/-! # Texts that are cut off

A list or a log of which only the start was written is never read as a list. -/

namespace LibWfut

open TinyXml Scan

/-! ## Elements that do not end -/

section Elements

variable {encoding : XmlEncoding} {readValue : ValueReader} {name : Bytes}

/-- No end tag comes to its end. -/
def Unclosed (p : Bytes) : Prop :=
  ∀ s, 60 :: 47 :: s <:+ p → 62 ∉ s

/-- The children end with the text or at an end tag. -/
theorem readValue_rest {fuel : ℕ} {children nodes : List XmlNode} {p rest : Bytes}
    (h : TinyXml.readValue encoding fuel children p = .ok (nodes, rest)) :
    rest = [] ∨ ∃ s, rest = 60 :: 47 :: s := by
  induction fuel generalizing children p with
  | zero => simp [TinyXml.readValue] at h
  | succ fuel ih =>
      rw [TinyXml.readValue] at h
      split at h
      · cases h
        exact .inl rfl
      · rename_i q hq
        split at h
        · rename_i htag
          cases h
          obtain ⟨s, hs⟩ := List.isPrefixOf_iff_prefix.mp htag
          exact .inr ⟨s, hs.symm⟩
        · split at h
          · cases h
            exact .inl rfl
          · obtain ⟨r, -, h⟩ := Machine.bind_eq_ok h
            exact ih h
      · obtain ⟨r, -, h⟩ := Machine.bind_eq_ok h
        exact ih h

theorem readContent_unclosed {fuel : ℕ} {attributes : Attributes} {p : Bytes}
    (hunclosed : Unclosed p) (hfuel : p.length < fuel) (r : XmlNode × Bytes) :
    readContent (TinyXml.readValue encoding fuel []) encoding name attributes p ≠ .ok r := by
  intro h
  obtain ⟨⟨children, rest⟩, hread, h⟩ := Machine.bind_eq_ok h
  have hsuffix : rest <:+ p := by
    rcases (@readValue_returns encoding _ _ _ nil_wellFormed _ List.suffix_rfl
      hfuel).cases with ⟨e, he, -⟩ | ⟨nodes, rest', hok, -, hrest⟩
    · rw [he] at hread
      cases hread
    · rw [hok] at hread
      cases hread
      exact hrest
  simp only at h
  split at h
  · rename_i htag
    rcases readValue_rest hread with rfl | ⟨s, rfl⟩
    · exact htag.1 rfl
    · split at h
      · rename_i q hq
        have hskip := skipWhiteSpace_suffix encoding ((60 :: 47 :: s).drop (2 + name.length))
        rw [hq, Nat.add_comm, List.drop_succ_cons, List.drop_succ_cons] at hskip
        have hgt : 62 ∈ s :=
          (hskip.trans (List.drop_suffix ..)).subset (List.mem_cons_self ..)
        exact hunclosed s hsuffix hgt
      · cases h
  · cases h

/-- Every tag that is read has its closing bracket. -/
theorem gt_mem_of_readTag {fuel : ℕ} {attributes : Attributes} {p : Bytes} {r : XmlNode × Bytes}
    (h : readTag readValue encoding name fuel attributes p = .ok r) : 62 ∈ p := by
  induction fuel generalizing attributes p with
  | zero => simp [readTag] at h
  | succ fuel ih =>
      have hskip := skipWhiteSpace_suffix encoding p
      rw [readTag] at h
      split at h
      · cases h
      · rename_i heq
        rw [heq] at hskip
        exact hskip.subset (by simp)
      · cases h
      · rename_i heq
        rw [heq] at hskip
        exact hskip.subset (by simp)
      · rename_i c rest _ _ _ heq
        rw [heq] at hskip
        obtain ⟨⟨attrib, value, q⟩, hattr, h⟩ := Machine.bind_eq_ok h
        simp only at h
        split at h
        · cases h
        · rcases @parseAttribute_returns encoding _ c _ List.suffix_rfl with
            ⟨_, _, q', hok, hq, -⟩ | ⟨e, he, -⟩
          · rw [hok] at hattr
            cases hattr
            exact ((hq.trans (List.suffix_cons ..)).trans hskip).subset (ih h)
          · rw [he] at hattr
            cases hattr

theorem gt_mem_of_parseElement {p : Bytes} {r : XmlNode × Bytes}
    (h : parseElement readValue encoding p = .ok r) : 62 ∈ p := by
  have hskip := skipWhiteSpace_suffix encoding p
  unfold parseElement at h
  split at h
  · rename_i q hq
    rw [hq] at hskip
    have hname := (readName_suffix (skipWhiteSpace encoding q)).trans
      (skipWhiteSpace_suffix encoding q)
    split at h
    · cases h
    · rename_i name' s _ hs
      rw [hs] at hname
      exact ((hname.trans (List.suffix_cons ..)).trans hskip).subset (gt_mem_of_readTag h)
  · cases h

/-- The text is not read as an element. -/
def NoElement (encoding : XmlEncoding) (p : Bytes) : Prop :=
  ∀ fuel, p.length < fuel →
    ∀ r, parseElement (TinyXml.readValue encoding fuel []) encoding p ≠ .ok r

theorem noElement_of_not_mem {p : Bytes} (h : 62 ∉ p) : NoElement encoding p :=
  fun _ _ _ hr => h (gt_mem_of_parseElement hr)

theorem noElement_of_unclosed {attributes : Attributes} (hname : IsName encoding name)
    (h : ∀ a ∈ attributes, Writable encoding a) (hnodup : (attributes.map Prod.fst).Nodup)
    {body : Bytes} (hbody : Unclosed body) :
    NoElement encoding (60 :: (name ++ (printAttributes attributes ++ 62 :: body))) := by
  intro fuel hfuel r
  obtain ⟨k, hparse⟩ := parseElement_print (TinyXml.readValue encoding fuel []) hname h hnodup
    (show isNameChar 62 = false by decide) body
  rw [hparse, readTag_content]
  refine readContent_unclosed hbody ?_ r
  simp only [List.length_cons, List.length_append] at hfuel
  omega

end Elements

/-! ## Documents -/

/-- There is no file list in what is read. -/
def NoList (text : Bytes) : Prop :=
  loadFile text = .error .error ∨
    ∃ nodes, loadFile text = .ok nodes ∧ nodes.find? (hasValue tagFilelist) = none

section Documents

/-- The declaration as TinyXML prints it, and as the tool writes it. -/
def declarations : List Bytes :=
  [ascii "<?xml version=\"1.0\" ?>", ascii "<?xml version=\"1.0\"?>"]

theorem declarations_cases {d : Bytes} (hd : d ∈ declarations) :
    ∃ tail, d = ascii "<?xml" ++ 32 :: (ascii "version=\"1.0\"" ++ tail) ∧
      (tail = 32 :: ascii "?>" ∨ tail = ascii "?>") := by
  simp only [declarations, List.mem_cons, List.not_mem_nil, or_false] at hd
  rcases hd with rfl | rfl
  · exact ⟨_, rfl, .inl rfl⟩
  · exact ⟨_, rfl, .inr rfl⟩

theorem skipWhiteSpace_declared {d : Bytes} (hd : d ∈ declarations) (rest : Bytes) :
    skipWhiteSpace .unknown (d ++ rest) = d ++ rest := by
  obtain ⟨tail, rfl, -⟩ := declarations_cases hd
  exact skipWhiteSpace_lt _

theorem identify_declared {d : Bytes} (hd : d ∈ declarations) (rest : Bytes) :
    identify .unknown (d ++ rest) = some .declaration := by
  rw [identify, skipWhiteSpace_declared hd]
  obtain ⟨tail, rfl, -⟩ := declarations_cases hd
  rfl

theorem parseDeclaration_declared {d : Bytes} (hd : d ∈ declarations) (rest : Bytes) :
    parseDeclaration .unknown (d ++ rest) = .ok (⟨ascii "1.0", [], []⟩, rest) := by
  have hwritable : Writable .unknown (ascii "version", ascii "1.0") :=
    ⟨isName_of_letters (by decide) (by decide) (by decide), aligned_of_single (by decide +kernel),
      unreferenced_of_not_mem (by decide)⟩
  have hattr : printAttribute (ascii "version", ascii "1.0") = ascii "version=\"1.0\"" := by decide
  have hcStr : cStr (ascii "1.0") = ascii "1.0" := by decide
  rw [parseDeclaration, skipWhiteSpace_declared hd]
  obtain ⟨tail, rfl, htail⟩ := declarations_cases hd
  have hend : ∀ fuel d, readDeclaration .unknown (fuel + 2) d (tail ++ rest) = .ok (d, rest) := by
    intro fuel d
    rcases htail with rfl | rfl
    · exact readDeclaration_blank d fuel rest
    · exact readDeclaration_mark d fuel rest
  have hdrop : (ascii "<?xml" ++ 32 :: (ascii "version=\"1.0\"" ++ tail) ++ rest).drop 5 =
      32 :: (printAttribute (ascii "version", ascii "1.0") ++ (tail ++ rest)) := by
    rw [hattr]
    simp [ascii]
  obtain ⟨s, -, hread⟩ := readDeclaration_attribute hwritable {} ((tail ++ rest).length + 14)
    (tail ++ rest)
  have hlength : (32 :: (printAttribute (ascii "version", ascii "1.0") ++
      (tail ++ rest))).length = (tail ++ rest).length + 14 := by
    rw [hattr]
    simp [ascii]
  simp only [hdrop, hlength]
  rw [hread, if_pos (stringEqual_field s).1, hend ((tail ++ rest).length + 12), hcStr]

/-- Behind the declaration the root is read. -/
theorem readDocument_declared {d : Bytes} (hd : d ∈ declarations) (root : Bytes) (fuel : ℕ) :
    readDocument (fuel + 1) .unknown [] (d ++ 10 :: root) =
      readDocument fuel .utf8 [.declaration (ascii "1.0") [] []] (skipWhiteSpace .utf8 root) := by
  have hne : d ++ 10 :: root ≠ [] := by simp
  have hutf8 : nextEncoding .unknown (.declaration (ascii "1.0") [] []) = .utf8 := rfl
  rw [readDocument, if_neg hne, identify_declared hd]
  simp only [parseNode, parseDeclaration_declared hd, Machine.ok_bind, hutf8, List.nil_append]
  rw [skipWhiteSpace_space (by decide)]

/-- A root that is never read as an element leaves no list. -/
theorem noList_of_root {d root : Bytes} (hd : d ∈ declarations) (hline : InLine root)
    (hroot : root = [] ∨ root = [60] ∨
      ∃ q, root = 60 :: q ∧ identify .utf8 root = some .element)
    (hno : NoElement .utf8 root) (hcomplete : Complete root) (hdecl : ¬ascii "<?" <:+: root) :
    NoList (d ++ 10 :: root) := by
  have hfirst : (d ++ 10 :: root).head? = some 60 := by
    obtain ⟨tail, rfl, -⟩ := declarations_cases hd
    rfl
  have hload : loadFile (d ++ 10 :: root) = parse (d ++ 10 :: root) := by
    have hlines : ∀ d ∈ declarations, 0 ∉ d ++ [10] ∧ 13 ∉ d ++ [10] := by decide
    have hboth : InLine (d ++ [10]) := hlines d hd
    have happend := hboth.append hline
    rw [List.append_assoc] at happend
    exact loadFile_of_inLine (by simp) happend
  have hparse : parse (d ++ 10 :: root) =
      (readDocument (d ++ 10 :: root).length .utf8 [.declaration (ascii "1.0") [] []]
        (skipWhiteSpace .utf8 root) >>= fun nodes =>
          if nodes = [] then .error .error else .ok nodes) := by
    rw [parse_of_head (by simp) (by simp [hfirst]), skipWhiteSpace_declared hd,
      readDocument_declared hd]
  have hnone : hasValue tagFilelist (.declaration (ascii "1.0") [] []) = false := by decide
  have hfuel : ∃ k, (d ++ 10 :: root).length = k + 2 ∧ root.length < k + 1 := by
    obtain ⟨tail, rfl, -⟩ := declarations_cases hd
    exact ⟨(tail ++ root).length + 18, by simp [ascii]; omega, by simp; omega⟩
  obtain ⟨k, hk, hlength⟩ := hfuel
  rw [NoList, hload, hparse, hk]
  rcases hroot with rfl | rfl | ⟨q, rfl, hkind⟩
  · right
    refine ⟨_, rfl, ?_⟩
    rw [List.find?_cons_of_neg (by simp [hnone])]
    rfl
  · right
    have hunknown : hasValue tagFilelist (.unknown []) = false := by decide
    refine ⟨[.declaration (ascii "1.0") [] [], .unknown []], rfl, ?_⟩
    simp [hnone, hunknown]
  · left
    have hread : ∀ r, r <:+ q → Returns (Fails (60 :: q)) WellFormedAll r
        (TinyXml.readValue .utf8 ((60 :: q).length + 1) [] r) := by
      intro r hr
      have hlength := hr.length_le
      exact readValue_returns nil_wellFormed (hr.trans (List.suffix_cons ..))
        (by rw [List.length_cons]; omega)
    have hnode : Returns (Fails (60 :: q)) WellFormed q
        (parseElement (TinyXml.readValue .utf8 ((60 :: q).length + 1) []) .utf8 (60 :: q)) :=
      parseElement_returns 60 List.suffix_rfl hread
    rw [skipWhiteSpace_lt, readDocument, if_neg (by simp), hkind]
    rcases hnode.cases with ⟨e, he, hfails⟩ | ⟨node, rest, hok, -, -⟩
    · have herror : e = .error := by
        rcases hfails with h | ⟨-, hcalm⟩ | ⟨-, hcut⟩
        · exact h
        · exact absurd (.inl hdecl) hcalm
        · exact absurd hcomplete hcut
      simp only [parseNode, he, herror]
      rfl
    · exact absurd hok (hno _ (Nat.lt_succ_self _) _)

end Documents

/-! ## Roots that are cut off -/

section Roots

variable {root body value : Bytes}

theorem Unclosed.of_prefix {p q : Bytes} (h : Unclosed q) (hp : p <+: q) : Unclosed p := by
  obtain ⟨u, rfl⟩ := hp
  rintro s ⟨v, rfl⟩ hs
  exact h (s ++ u) ⟨v, by simp⟩ (List.mem_append_left u hs)

theorem unclosed_append {p q : Bytes} (hp : ¬[60, 47] <:+: p) (hlast : p.getLast? ≠ some 60)
    (hq : 62 ∉ q) : Unclosed (p ++ q) := by
  intro s hs
  induction p with
  | nil => exact fun hm => hq (hs.subset (by simp [hm]))
  | cons c p ih =>
      rw [List.infix_cons_iff, not_or] at hp
      have hlast' : p.getLast? ≠ some 60 := by
        cases p with
        | nil => simp
        | cons d p => simpa using hlast
      rcases List.suffix_cons_iff.mp hs with heq | hs
      · obtain ⟨rfl, htail⟩ := List.cons.inj heq
        cases p with
        | nil => simp at hlast
        | cons d p =>
            obtain ⟨rfl, -⟩ := List.cons.inj htail
            exact absurd (List.prefix_append [60, 47] p) hp.1
      · exact ih hp.2 hlast' hs

theorem lt_not_mem_escape (v : Bytes) : 60 ∉ escape v ∧ 62 ∉ escape v := by
  have hall : ∀ c : UInt8, 60 ∉ encodeChar c ∧ 62 ∉ encodeChar c := forall_byte (by decide +kernel)
  constructor
  · intro hm
    obtain ⟨c, -, hc⟩ := List.mem_flatMap.mp hm
    exact (hall c).1 hc
  · intro hm
    obtain ⟨c, -, hc⟩ := List.mem_flatMap.mp hm
    exact (hall c).2 hc

/-- No bracket stands in what is printed of an attribute. -/
theorem bracket_not_mem_printAttributes {encoding : XmlEncoding} {attributes : Attributes}
    (h : ∀ a ∈ attributes, Writable encoding a) :
    60 ∉ printAttributes attributes ∧ 62 ∉ printAttributes attributes := by
  have hall : ∀ c ∈ printAttributes attributes, c ≠ 60 ∧ c ≠ 62 := by
    have hplain : ¬Plain 60 := by decide
    rw [printAttributes_eq h]
    intro c hc
    obtain ⟨a, ha, hc⟩ := List.mem_flatMap.mp hc
    rw [printAttribute_eq (h a ha)] at hc
    simp only [List.mem_cons, List.mem_append, List.not_mem_nil, or_false] at hc
    rcases hc with rfl | hc | rfl | hc | hc | hc
    · exact ⟨by decide, by decide⟩
    · obtain ⟨-, -, -, hgt, -, hp, -⟩ := isNameChar_cases c ((h a ha).name.letter hc)
      exact ⟨fun heq => hplain (heq ▸ hp), hgt⟩
    · exact ⟨by decide, by decide⟩
    · rw [hc]
      rcases quoteOf_cases a.2 with hq | hq <;> rw [hq] <;> decide
    · obtain ⟨hlt, hgt⟩ := lt_not_mem_escape a.2
      exact ⟨fun heq => hlt (heq ▸ hc), fun heq => hgt (heq ▸ hc)⟩
    · rw [hc]
      rcases quoteOf_cases a.2 with hq | hq <;> rw [hq] <;> decide
  exact ⟨fun hm => (hall 60 hm).1 rfl, fun hm => (hall 62 hm).2 rfl⟩

/-- The start of the root, as far as it goes. -/
theorem noList_of_start {d w : Bytes} (hd : d ∈ declarations)
    (hroot : root <+: 60 :: (tagFilelist ++ w)) (hline : InLine root) (hno : NoElement .utf8 root)
    (hcomplete : Complete root) (hdecl : ¬ascii "<?" <:+: root) : NoList (d ++ 10 :: root) := by
  refine noList_of_root hd hline ?_ hno hcomplete hdecl
  match root with
  | [] => exact .inl rfl
  | [c] =>
      obtain ⟨rfl, -⟩ := List.cons_prefix_cons.mp hroot
      exact .inr (.inl rfl)
  | c :: e :: q =>
      obtain ⟨rfl, hq⟩ := List.cons_prefix_cons.mp hroot
      have htag : tagFilelist ++ w = 102 :: (ascii "ileList" ++ w) := rfl
      rw [htag] at hq
      obtain ⟨rfl, -⟩ := List.cons_prefix_cons.mp hq
      refine .inr (.inr ⟨_, rfl, ?_⟩)
      rw [identify, skipWhiteSpace_lt]
      rfl

theorem noElement_of_start (hvalue : Writable .utf8 (tagDir, value)) (hbody : Unclosed body)
    (hroot : root <+: 60 :: (tagFilelist ++ (printAttributes [(tagDir, value)] ++ 62 :: body))) :
    NoElement .utf8 root := by
  have hattributes : ∀ a ∈ [(tagDir, value)], Writable .utf8 a := by
    intro a ha
    rwa [List.mem_singleton.mp ha]
  have hstart : 62 ∉ 60 :: (tagFilelist ++ printAttributes [(tagDir, value)]) := by
    have htag : 62 ∉ 60 :: tagFilelist := by decide
    rw [← List.cons_append, List.mem_append, not_or]
    exact ⟨htag, (bracket_not_mem_printAttributes hattributes).2⟩
  have hsplit : 60 :: (tagFilelist ++ (printAttributes [(tagDir, value)] ++ 62 :: body)) =
      60 :: (tagFilelist ++ printAttributes [(tagDir, value)]) ++ [62] ++ body := by simp
  rw [hsplit] at hroot
  have hno : ∀ b, b <+: body → NoElement .utf8
      (60 :: (tagFilelist ++ printAttributes [(tagDir, value)]) ++ [62] ++ b) := by
    intro b hb
    have hname : IsName .utf8 tagFilelist := isName_tag (by simp)
    have hopen := noElement_of_unclosed hname hattributes (by simp) (hbody.of_prefix hb)
    simpa using hopen
  rcases List.prefix_or_prefix_of_prefix hroot (List.prefix_append _ body) with hshort | hlong
  · rcases List.prefix_concat_iff.mp hshort with rfl | hshort
    · simpa using hno [] List.nil_prefix
    · exact noElement_of_not_mem fun hm => hstart (hshort.subset hm)
  · obtain ⟨b, rfl⟩ := hlong
    exact hno b ((List.prefix_append_right_inj _).mp hroot)

/-- No declaration stands in a root whose content has none. -/
theorem not_declaration_root (hvalue : Writable .utf8 (tagDir, value))
    (hbody : ¬[60, 63] <:+: body) :
    ¬[60, 63] <:+: 60 :: (tagFilelist ++ (printAttributes [(tagDir, value)] ++ 62 :: body)) := by
  have hattributes : ∀ a ∈ [(tagDir, value)], Writable .utf8 a := by
    intro a ha
    rwa [List.mem_singleton.mp ha]
  have hsplit : 60 :: (tagFilelist ++ (printAttributes [(tagDir, value)] ++ 62 :: body)) =
      60 :: (tagFilelist ++ (printAttributes [(tagDir, value)] ++ [62])) ++ body := by simp
  have htag : 60 ∉ tagFilelist ∧ tagFilelist.head? = some 102 := by decide
  have hstart : 60 ∉ tagFilelist ++ (printAttributes [(tagDir, value)] ++ [62]) := by
    simp [htag.1, (bracket_not_mem_printAttributes hattributes).1]
  rw [hsplit]
  refine Scan.not_pair_append (Scan.not_pair_cons hstart ?_ 60) hbody ?_
  · rw [List.head?_append, htag.2]
    simp
  · rw [← List.append_assoc, ← List.cons_append, List.getLast?_concat]
    simp

end Roots

/-! ## The declaration that is cut off -/

/-- `NoList`, computed. -/
def noList : Except Failure Document → Bool
  | .error e => e = .error
  | .ok nodes => (nodes.find? (hasValue tagFilelist)).isNone

theorem noList_iff {text : Bytes} : noList (loadFile text) = true ↔ NoList text := by
  unfold NoList
  cases loadFile text with
  | error e => simp [noList]
  | ok nodes => simp [noList]

/-- The starts of a declaration that end behind a blank: there TinyXML fails an assertion. -/
def blankStarts : List Bytes :=
  [ascii "<?xml ", ascii "<?xml version=\"1.0\" "]

/-- Any other start of a declaration is no list. -/
theorem noList_of_short {d t : Bytes} (hd : d ∈ declarations) (ht : t <+: d ++ [10])
    (hblank : t ∉ blankStarts) : NoList t := by
  have hall : ∀ d ∈ declarations, ∀ n < 24, (d ++ [10]).take n ∉ blankStarts →
      noList (loadFile ((d ++ [10]).take n)) = true := by decide +kernel
  have hlength : ∀ d ∈ declarations, (d ++ [10]).length < 24 := by decide
  have hn : t.length < 24 := Nat.lt_of_le_of_lt ht.length_le (hlength d hd)
  rw [List.prefix_iff_eq_take.mp ht] at hblank ⊢
  exact noList_iff.mp (hall d hd _ hn hblank)

/-- Behind a line the prefix goes on with the root. -/
theorem prefix_cases {d root t : Bytes} (h : t <+: d ++ 10 :: root) :
    t <+: d ++ [10] ∨ ∃ s, t = d ++ 10 :: s ∧ s <+: root := by
  have hsplit : d ++ 10 :: root = d ++ [10] ++ root := by simp
  rw [hsplit] at h
  rcases List.prefix_or_prefix_of_prefix h (List.prefix_append _ root) with hshort | hlong
  · exact .inl hshort
  · obtain ⟨s, rfl⟩ := hlong
    exact .inr ⟨s, by simp, (List.prefix_append_right_inj _).mp h⟩

/-! ## The log -/

section Log

/-- What can stand in a record behind its first bracket. -/
def InRecord (c : UInt8) : Prop :=
  c ≠ 0 ∧ c ≠ 13 ∧ c ≠ 60 ∧ utf8ByteTable c = 1

instance : DecidablePred InRecord := fun c =>
  inferInstanceAs (Decidable (c ≠ 0 ∧ c ≠ 13 ∧ c ≠ 60 ∧ utf8ByteTable c = 1))

theorem logRecord_eq (fo : FileObject) :
    ∃ tail, logRecord fo = 60 :: tail ∧ tail.head? = some 102 ∧ ∀ c ∈ tail, InRecord c := by
  have hsafe : ∀ c : UInt8, Encoder.isSafe c = true → InRecord c := forall_byte (by decide +kernel)
  have hdigit : ∀ d < 10, InRecord (Decimal.digit d) := by decide
  have hname : ∀ c ∈ Encoder.encodeString fo.filename, InRecord c :=
    fun c hc => hsafe c (Encoder.isSafe_of_mem_encodeString hc)
  have hint : ∀ (z : ℤ), ∀ c ∈ Decimal.ofInt z, InRecord c := by
    intro z c hc
    rcases Decimal.mem_ofInt hc with rfl | ⟨d, hd, rfl⟩
    · decide
    · exact hdigit d hd
  have hbool : ∀ c ∈ boolText fo.execute, InRecord c := by
    cases fo.execute <;> decide +kernel
  have htags : ∀ s ∈ [ascii "file filename=\"", ascii "\" version=\"", ascii "\" crc32=\"",
      ascii "\" size=\"", ascii "\" execute=\"", ascii "\"/>\n"], ∀ c ∈ s, InRecord c := by
    decide +kernel
  refine ⟨ascii "file filename=\"" ++ Encoder.encodeString fo.filename ++
    ascii "\" version=\"" ++ Decimal.ofInt fo.version.toInt ++
    ascii "\" crc32=\"" ++ Decimal.ofInt fo.crc32.toNat ++
    ascii "\" size=\"" ++ Decimal.ofInt fo.size.toInt ++
    ascii "\" execute=\"" ++ boolText fo.execute ++ ascii "\"/>\n", rfl, rfl, ?_⟩
  simp only [List.forall_mem_cons, List.not_mem_nil, false_implies, implies_true, and_true]
    at htags
  obtain ⟨h1, h2, h3, h4, h5, h6⟩ := htags
  simp only [List.forall_mem_append]
  exact ⟨⟨⟨⟨⟨⟨⟨⟨⟨⟨h1, hname⟩, h2⟩, hint _⟩, h3⟩, hint _⟩, h4⟩, hint _⟩, h5⟩, hbool⟩, h6⟩

theorem records_pairs {b : UInt8} (hb : b ≠ 102) (fs : List FileObject) :
    ¬[60, b] <:+: fs.flatMap logRecord := by
  induction fs with
  | nil => simp
  | cons f fs ih =>
      obtain ⟨tail, heq, hhead, htail⟩ := logRecord_eq f
      have hlt : 60 ∉ tail := fun hm => (htail 60 hm).2.2.1 rfl
      obtain ⟨c, tail, rfl⟩ : ∃ c s, tail = c :: s := ⟨_, _, (List.eq_cons_of_mem_head? hhead)⟩
      rw [List.flatMap_cons, heq]
      refine Scan.not_pair_append (Scan.not_pair_cons hlt ?_ 60) ih ?_
      · rw [hhead, ne_eq, Option.some.injEq]
        exact Ne.symm hb
      · rw [List.getLast?_cons_cons]
        exact fun hlast => hlt (List.mem_of_mem_getLast? hlast)

theorem records_bytes (fs : List FileObject) :
    ∀ c ∈ fs.flatMap logRecord, c ≠ 0 ∧ c ≠ 13 ∧ utf8ByteTable c = 1 := by
  intro c hc
  obtain ⟨f, -, hc⟩ := List.mem_flatMap.mp hc
  obtain ⟨tail, heq, -, htail⟩ := logRecord_eq f
  rw [heq, List.mem_cons] at hc
  rcases hc with rfl | hc
  · exact ⟨by decide, by decide, by decide⟩
  · exact ⟨(htail c hc).1, (htail c hc).2.1, (htail c hc).2.2.2⟩

/-- A log of which any start was written is no list. -/
theorem noList_log {completed : List FileObject} {t : Bytes}
    (ht : t <+: logHeader ++ completed.flatMap logRecord) (hblank : t ∉ blankStarts) :
    NoList t := by
  have hd : ascii "<?xml version=\"1.0\"?>" ∈ declarations := by decide
  have hvalue : Writable .utf8 (tagDir, []) :=
    ⟨isName_tag (by simp), .nil, unreferenced_of_not_mem (by simp)⟩
  have htext : logHeader ++ completed.flatMap logRecord = ascii "<?xml version=\"1.0\"?>" ++
      10 :: (60 :: (tagFilelist ++ (printAttributes [(tagDir, [])] ++
        62 :: 10 :: completed.flatMap logRecord))) := by
    have hattr : printAttributes [(tagDir, [])] = ascii " dir=\"\"" := by decide
    rw [hattr]
    rfl
  rw [htext] at ht
  rcases prefix_cases ht with hshort | ⟨root, rfl, hroot⟩
  · exact noList_of_short hd hshort hblank
  · have hbytes : ∀ c ∈ root, c ≠ 0 ∧ c ≠ 13 ∧ utf8ByteTable c = 1 := by
      have hstart : ∀ c ∈ 60 :: (tagFilelist ++ (printAttributes [(tagDir, [])] ++ [62, 10])),
          c ≠ 0 ∧ c ≠ 13 ∧ utf8ByteTable c = 1 := by decide +kernel
      have hall := List.forall_mem_append.mpr ⟨hstart, records_bytes completed⟩
      exact fun c hc => hall c (by simpa using hroot.subset hc)
    have hpair : ∀ b, b ≠ 102 → ¬[60, b] <:+: 10 :: completed.flatMap logRecord := by
      intro b hb
      rw [List.infix_cons_iff, not_or]
      refine ⟨fun hpre => ?_, records_pairs hb completed⟩
      exact absurd (List.cons_prefix_cons.mp hpre).1 (by decide)
    have hunclosed : Unclosed (10 :: completed.flatMap logRecord) := by
      intro s hs
      exact absurd ((List.prefix_append [60, 47] s).isInfix.trans hs.isInfix) (hpair 47 (by decide))
    refine noList_of_start hd hroot ⟨fun h0 => (hbytes 0 h0).1 rfl, fun h13 =>
      (hbytes 13 h13).2.1 rfl⟩ (noElement_of_start hvalue hunclosed hroot) ?_ ?_
    · exact complete_of_single fun c hc => (hbytes c hc).2.2
    · exact fun hm => not_declaration_root hvalue (hpair 63 (by decide))
        (hm.trans hroot.isInfix)

end Log

/-! ## The saved list -/

section Save

variable {l : ChannelFileList} {t : Bytes}

/-- Behind every bracket in the printed files stands their tag. -/
theorem files_pairs {b : UInt8} (hb : b ≠ 102) (es : List (Bytes × FileObject)) :
    ¬[60, b] <:+: printChildren 1 (es.map fun e => .element tagFile (writeFile [] e.2) []) ∧
      (printChildren 1 (es.map fun e => .element tagFile (writeFile [] e.2) [])).getLast? ≠
        some 60 := by
  induction es with
  | nil => simp [printChildren]
  | cons e es ih =>
      obtain ⟨hname, hattributes, -⟩ := printable_file e.2
      have htag : 60 ∉ tagFile ∧ tagFile.head? = some 102 := by decide
      have hprint : printChildren 1 ((e :: es).map fun e =>
            .element tagFile (writeFile [] e.2) []) =
          10 :: indent 1 ++ 60 :: (tagFile ++ (printAttributes (writeFile [] e.2) ++
            [32, 47, 62])) ++
            printChildren 1 (es.map fun e => .element tagFile (writeFile [] e.2) []) := by
        rw [List.map_cons, printChildren, printEmpty_eq hname]
        simp [isText, ascii]
      have hblank : 60 ∉ 10 :: indent 1 := by decide
      have hlt : 60 ∉ tagFile ++ (printAttributes (writeFile [] e.2) ++ [32, 47, 62]) := by
        simp [htag.1, (bracket_not_mem_printAttributes hattributes).1]
      have hhead : (tagFile ++ (printAttributes (writeFile [] e.2) ++ [32, 47, 62])).head? ≠
          some b := by
        rw [List.head?_append, htag.2]
        simpa using Ne.symm hb
      have hlast : (10 :: indent 1 ++ 60 :: (tagFile ++ (printAttributes (writeFile [] e.2) ++
          [32, 47, 62]))).getLast? = some 62 := by
        have hconcat : 10 :: indent 1 ++ 60 :: (tagFile ++ (printAttributes (writeFile [] e.2) ++
            [32, 47, 62])) = 10 :: indent 1 ++ 60 :: (tagFile ++
              (printAttributes (writeFile [] e.2) ++ [32, 47])) ++ [62] := by simp
        rw [hconcat, List.getLast?_concat]
      rw [hprint]
      constructor
      · refine Scan.not_pair_append (Scan.not_pair_append ?_ (Scan.not_pair_cons hlt hhead 60)
          (by decide)) ih.1 (by rw [hlast]; decide)
        exact fun hm => hblank (hm.subset (List.mem_cons_self ..))
      · rw [List.getLast?_append, hlast]
        cases hrest : (printChildren 1 (es.map fun e =>
            .element tagFile (writeFile [] e.2) [])).getLast? with
        | none => simp
        | some c => simpa [hrest] using ih.2

/-- Everything of the root but its last bracket. -/
theorem root_dropLast (hvalue : Writable .utf8 (tagDir, l.name)) :
    ∃ q, printNode 0 (.element tagFilelist [(tagDir, l.name)]
        (l.getFiles.toList.map fun e => .element tagFile (writeFile [] e.2) [])) = q ++ [62] ∧
      (∃ w, q = 60 :: (tagFilelist ++ w)) ∧ ¬[60, 63] <:+: q ∧
        ∀ root, root <+: q → NoElement .utf8 root := by
  have hattributes : ∀ a ∈ [(tagDir, l.name)], Writable .utf8 a := by
    intro a ha
    rwa [List.mem_singleton.mp ha]
  have hname : IsName .utf8 tagFilelist := isName_tag (by simp)
  have htag : 60 ∉ tagFilelist ∧ 62 ∉ tagFilelist ∧ tagFilelist.head? = some 102 := by decide
  obtain ⟨hlt, hgt⟩ := bracket_not_mem_printAttributes hattributes
  generalize hfiles : (l.getFiles.toList.map fun e =>
    XmlNode.element tagFile (writeFile [] e.2) []) = files
  by_cases hempty : files = []
  · -- The root has no content, and its bracket is the only one.
    subst hempty
    refine ⟨60 :: (tagFilelist ++ (printAttributes [(tagDir, l.name)] ++ [32, 47])), ?_, ⟨_, rfl⟩,
      ?_, fun root hroot => noElement_of_not_mem fun hm => ?_⟩
    · rw [printEmpty_eq hname]
      simp [indent]
    · refine Scan.not_pair_cons (by simp [htag.1, hlt]) ?_ 60
      rw [List.head?_append, htag.2.2]
      simp
    · have hmem := hroot.subset hm
      simp [htag.2.1, hgt] at hmem
  · have htexts : ∀ v, files = [.text v] → Unreferenced v := by
      intro v hv
      have hmem : XmlNode.text v ∈ files := hv ▸ List.mem_singleton_self _
      rw [← hfiles] at hmem
      obtain ⟨e, -, he⟩ := List.mem_map.mp hmem
      simp at he
    obtain ⟨blanks, hblanks, hprint⟩ := printElement_eq [(tagDir, l.name)] hname hempty htexts 0
    have hbody : ∀ b, b ≠ 102 → ¬[60, b] <:+: printChildren 1 files ++ blanks ∧
        (printChildren 1 files ++ blanks).getLast? ≠ some 60 := by
      intro b hb
      obtain ⟨hpair, hlast⟩ := files_pairs hb l.getFiles.toList
      rw [hfiles] at hpair hlast
      rcases hblanks with rfl | rfl
      · rw [List.append_nil]
        exact ⟨hpair, hlast⟩
      · have hline : 60 ∉ 10 :: indent 0 := by decide
        refine ⟨Scan.not_pair_append hpair (fun hm => hline (hm.subset (by simp))) hlast, ?_⟩
        have hend : (10 :: indent 0).getLast? = some 10 := by decide
        rw [List.getLast?_append, hend]
        simp
    refine ⟨60 :: (tagFilelist ++ (printAttributes [(tagDir, l.name)] ++
      62 :: (printChildren 1 files ++ blanks ++ 60 :: 47 :: tagFilelist))), ?_, ⟨_, rfl⟩, ?_,
      fun root hroot => noElement_of_start hvalue (unclosed_append (hbody 47 (by decide)).1
        (hbody 47 (by decide)).2 (by simp [htag.2.1])) hroot⟩
    · rw [hprint]
      simp [indent]
    · refine not_declaration_root hvalue (Scan.not_pair_append (hbody 63 (by decide)).1
        (Scan.not_pair_cons (by simp [htag.1]) (by simp) 60) (hbody 63 (by decide)).2)

/-- A list of which all but the end was written is no list. -/
theorem noList_save (h : NameSurvives l) (ht : t <+: fileListText l)
    (hshort : t.length + 1 < (fileListText l).length) (hcomplete : Complete t)
    (hblank : t ∉ blankStarts) : NoList t := by
  have hd : ascii "<?xml version=\"1.0\" ?>" ∈ declarations := by decide
  have hvalue : Writable .utf8 (tagDir, cStr l.name) :=
    ⟨isName_tag (by simp), h.aligned, h.unreferenced⟩
  obtain ⟨q, hq, ⟨w, rfl⟩, hdecl, hno⟩ := root_dropLast (l := l.setName (cStr l.name)) hvalue
  have hprint : fileListText l = printDocument (fileListDocument (l.setName (cStr l.name))) := by
    rw [fileListText, savedText, cloneAll_fileListDocument]
  have hline : InLine (fileListText l) := by
    rw [hprint]
    exact inLine_printDocument (survives_saved h).nodes
  have htext : fileListText l =
      ascii "<?xml version=\"1.0\" ?>" ++ 10 :: (60 :: (tagFilelist ++ w) ++ [62, 10]) := by
    have hfirst : printNode 0 (.declaration (ascii "1.0") [] []) =
        ascii "<?xml version=\"1.0\" ?>" := by decide
    have hroot : printNode 0 (.element tagFilelist
        (setAttribute [] tagDir (l.setName (cStr l.name)).getName)
        ((l.setName (cStr l.name)).getFiles.toList.map fun e =>
          .element tagFile (writeFile [] e.2) [])) = 60 :: (tagFilelist ++ w) ++ [62] := hq
    simp only [hprint, fileListDocument, printDocument, List.flatMap_cons, List.flatMap_nil, hfirst,
      hroot]
    simp [ascii]
  rw [htext] at ht hshort
  rcases prefix_cases ht with hfirst | ⟨root, rfl, hroot⟩
  · exact noList_of_short hd hfirst hblank
  · have hcut : root <+: 60 :: (tagFilelist ++ w) := by
      refine List.prefix_of_prefix_length_le hroot (List.prefix_append ..) ?_
      simp only [List.length_append, List.length_cons, List.length_nil] at hshort ⊢
      omega
    have hsuffix : root <:+ ascii "<?xml version=\"1.0\" ?>" ++ 10 :: root :=
      (List.suffix_cons ..).trans (List.suffix_append ..)
    have hsub : ∀ c ∈ root, c ∈ fileListText l := by
      intro c hc
      rw [htext]
      exact List.mem_append_right _ (List.mem_cons_of_mem _ (hroot.subset hc))
    exact noList_of_start hd hcut ⟨fun h0 => hline.1 (hsub 0 h0), fun h13 =>
      hline.2 (hsub 13 h13)⟩ (hno root hcut) (hcomplete.of_suffix hsuffix)
      fun hm => hdecl (hm.trans hcut.isInfix)

end Save

end LibWfut
