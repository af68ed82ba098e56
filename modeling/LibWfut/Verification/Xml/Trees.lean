import LibWfut.Verification.Lists.Channels
import LibWfut.Verification.Xml.Tags

/-! # Documents

A document that was printed is read as it was, but for the empty texts. -/

namespace LibWfut.TinyXml

/-! ## Nodes that survive -/

/-- A field of a declaration, which is not escaped. -/
structure IsField (encoding : XmlEncoding) (v : Bytes) : Prop where
  aligned : Aligned encoding v
  plain : ∀ c ∈ v, Plain c

/-- Bytes that are in a file as they are in the text. -/
def InLine (v : Bytes) : Prop :=
  0 ∉ v ∧ 13 ∉ v

structure IsComment (v : Bytes) : Prop where
  inLine : InLine v
  inside : ¬ascii "-->" <:+: v

/-- A type declaration or a processing instruction. -/
structure IsUnknown (v : Bytes) : Prop where
  inLine : InLine v
  inside : 62 ∉ v
  start : ∃ c d rest, v = c :: d :: rest ∧
    (c = 33 ∧ d ≠ 45 ∧ d ≠ 91 ∨ c = 63 ∧ toLower d ≠ 120)

/-- No text follows a text. -/
def Apart (children : List XmlNode) : Prop :=
  children.IsChain fun a b => isText a = false ∨ isText b = false

theorem apart_of_not_text {children : List XmlNode} (h : ∀ n ∈ children, isText n = false) :
    Apart children :=
  (List.pairwise_of_forall_mem_list fun a ha _ _ => .inl (h a ha)).isChain

mutual

/-- A tree that TinyXML reads as it was printed, but for texts without characters: such a text
stands alone. -/
def Printable (encoding : XmlEncoding) : XmlNode → Prop
  | .element value attributes children =>
    IsName encoding value ∧ (∀ a ∈ attributes, Writable encoding a) ∧
      (attributes.map Prod.fst).Nodup ∧
        (children = [.text []] ∨ PrintableAll encoding children ∧ Apart children)
  | .comment value => IsComment value
  | .text value => ReadableText encoding value
  | .declaration version enc standalone =>
    IsField encoding version ∧ IsField encoding enc ∧ IsField encoding standalone
  | .unknown value => IsUnknown value

def PrintableAll (encoding : XmlEncoding) : List XmlNode → Prop
  | [] => True
  | node :: rest => Printable encoding node ∧ PrintableAll encoding rest

end

theorem printableAll_iff {encoding : XmlEncoding} {nodes : List XmlNode} :
    PrintableAll encoding nodes ↔ ∀ n ∈ nodes, Printable encoding n := by
  induction nodes with
  | nil => simp [PrintableAll]
  | cons n nodes ih => simp [PrintableAll, ih]

/-! ## Nodes that come back -/

theorem withoutEmptyTexts_cons {node : XmlNode} (h : node ≠ .text []) (rest : List XmlNode) :
    withoutEmptyTexts (node :: rest) = withoutEmptyText node :: withoutEmptyTexts rest := by
  cases node with
  | text v =>
      cases v with
      | nil => exact absurd rfl h
      | cons c v => rfl
  | _ => rfl

theorem ne_of_not_text {node : XmlNode} (h : isText node = false) (v : Bytes) :
    node ≠ .text v := by
  rintro rfl
  simp [isText] at h

theorem isText_withoutEmptyText (node : XmlNode) :
    isText (withoutEmptyText node) = isText node := by
  cases node <;> rfl

theorem nextEncoding_withoutEmptyText (encoding : XmlEncoding) (node : XmlNode) :
    nextEncoding encoding (withoutEmptyText node) = nextEncoding encoding node := by
  cases node <;> cases encoding <;> rfl

section Returning

variable {encoding : XmlEncoding}

theorem Printable.ne_empty {node : XmlNode} (h : Printable encoding node) : node ≠ .text [] := by
  rintro rfl
  exact ReadableText.ne_nil h rfl

theorem apart_withoutEmptyTexts {children : List XmlNode} (h : PrintableAll encoding children)
    (hapart : Apart children) : Apart (withoutEmptyTexts children) := by
  have hmap : withoutEmptyTexts children = children.map withoutEmptyText := by
    clear hapart
    induction children with
    | nil => rfl
    | cons n children ih => rw [withoutEmptyTexts_cons h.1.ne_empty, ih h.2, List.map_cons]
  rw [hmap, Apart, List.isChain_map]
  exact hapart.imp fun a b hab => by simpa [isText_withoutEmptyText] using hab

mutual

theorem printable_withoutEmptyText : ∀ node : XmlNode, Printable encoding node →
    Printable encoding (withoutEmptyText node)
  | .element _ _ children, h => by
      obtain ⟨hname, hattributes, hnodup, rfl | ⟨hall, hapart⟩⟩ := h
      · exact ⟨hname, hattributes, hnodup, .inr ⟨trivial, List.isChain_nil⟩⟩
      · exact ⟨hname, hattributes, hnodup, .inr ⟨printableAll_withoutEmptyTexts children hall,
          apart_withoutEmptyTexts hall hapart⟩⟩
  | .comment _, h => h
  | .text _, h => h
  | .declaration _ _ _, h => h
  | .unknown _, h => h

theorem printableAll_withoutEmptyTexts : ∀ nodes : List XmlNode, PrintableAll encoding nodes →
    PrintableAll encoding (withoutEmptyTexts nodes)
  | [], _ => trivial
  | node :: nodes, h => by
      rw [withoutEmptyTexts_cons h.1.ne_empty]
      exact ⟨printable_withoutEmptyText node h.1, printableAll_withoutEmptyTexts nodes h.2⟩

end

mutual

/-- What came back comes back as it is. -/
theorem withoutEmptyText_idem : ∀ node : XmlNode,
    withoutEmptyText (withoutEmptyText node) = withoutEmptyText node
  | .element _ _ children => by
      rw [withoutEmptyText, withoutEmptyText, withoutEmptyTexts_idem children]
  | .comment _ => rfl
  | .text _ => rfl
  | .declaration _ _ _ => rfl
  | .unknown _ => rfl

theorem withoutEmptyTexts_idem : ∀ nodes : List XmlNode,
    withoutEmptyTexts (withoutEmptyTexts nodes) = withoutEmptyTexts nodes
  | [] => rfl
  | node :: nodes => by
      by_cases hempty : node = .text []
      · subst hempty
        exact withoutEmptyTexts_idem nodes
      · have hne : withoutEmptyText node ≠ .text [] := by
          cases node with
          | text v => exact hempty
          | _ => simp [withoutEmptyText]
        rw [withoutEmptyTexts_cons hempty, withoutEmptyTexts_cons hne, withoutEmptyText_idem node,
          withoutEmptyTexts_idem nodes]

end

end Returning

/-! ## Comments and unknown nodes -/

section Raw

variable {encoding : XmlEncoding} {v : Bytes}

theorem InLine.cStr_eq (h : InLine v) : cStr v = v :=
  cStr_eq_self_iff.mpr h.1

/-- An end tag does not begin inside the value and end behind it. -/
theorem parseRaw_comment (h : ¬ascii "-->" <:+: v) (rest : Bytes) :
    parseRaw (ascii "<!--") (ascii "-->") (ascii "<!--" ++ (v ++ (ascii "-->" ++ rest))) =
      (v, rest) := by
  have hupTo : Scan.upTo (ascii "-->") (v ++ (ascii "-->" ++ rest)) =
      (v, ascii "-->" ++ rest) := by
    apply Scan.upTo_eq _ (by decide)
    intro s hs hv hpre
    have htag : ascii "-->" = [45, 45, 62] := rfl
    rw [htag] at hpre h
    match s, hs with
    | [c], _ => simp at hpre
    | [c, d], _ => simp at hpre
    | c :: d :: e :: w, _ =>
        apply h
        obtain ⟨tail, htail⟩ := hpre
        simp only [List.cons_append, List.nil_append, List.cons.injEq] at htail
        obtain ⟨rfl, rfl, rfl, -⟩ := htail
        exact (List.prefix_append [45, 45, 62] w).isInfix.trans hv.isInfix
  have hdrop : (ascii "<!--" ++ (v ++ (ascii "-->" ++ rest))).drop (ascii "<!--").length =
      v ++ (ascii "-->" ++ rest) :=
    List.drop_left
  simp only [parseRaw, hdrop, hupTo, List.drop_left]

theorem parseRaw_unknown (h : 62 ∉ v) (rest : Bytes) :
    parseRaw (ascii "<") (ascii ">") (60 :: (v ++ 62 :: rest)) = (v, rest) := by
  have hupTo : Scan.upTo [62] (v ++ ([62] ++ rest)) = (v, [62] ++ rest) := by
    apply Scan.upTo_eq _ (by simp)
    intro s hs hv hpre
    obtain ⟨c, w, rfl⟩ := List.exists_cons_of_ne_nil hs
    obtain ⟨tail, htail⟩ := hpre
    simp only [List.cons_append, List.nil_append, List.cons.injEq] at htail
    rw [← htail.1] at hv
    exact h (hv.subset (List.mem_cons_self ..))
  have hgt : ascii ">" = [62] := rfl
  have hdrop : (60 :: (v ++ 62 :: rest)).drop (ascii "<").length = v ++ ([62] ++ rest) := rfl
  simp only [parseRaw, hgt, hdrop, hupTo]
  rfl

/-- What starts with a tag is no white space. -/
theorem skipWhiteSpace_lt (p : Bytes) : skipWhiteSpace encoding (60 :: p) = 60 :: p :=
  skipWhiteSpace_head (by decide) (by decide)

theorem identify_comment (rest : Bytes) :
    identify encoding (ascii "<!--" ++ rest) = some .comment := by
  have htext : ascii "<!--" ++ rest = 60 :: 33 :: 45 :: 45 :: rest := rfl
  rw [identify, htext, skipWhiteSpace_lt]
  rfl

theorem identify_unknown (h : IsUnknown v) (rest : Bytes) :
    identify encoding (60 :: (v ++ rest)) = some .unknown := by
  obtain ⟨c, d, w, rfl, ⟨rfl, hcomment, hcdata⟩ | ⟨rfl, hxml⟩⟩ := h.start
  · have hbytes : ascii "<!--" = [60, 33, 45, 45] ∧
        ascii "<![CDATA[" = [60, 33, 91, 67, 68, 65, 84, 65, 91] := ⟨rfl, rfl⟩
    have hcomment' : stringEqual (60 :: 33 :: d :: (w ++ rest)) (ascii "<!--") false = false := by
      simp [stringEqual, hbytes.1, List.isPrefixOf_cons_cons, Ne.symm hcomment]
    have hcdata' :
        stringEqual (60 :: 33 :: d :: (w ++ rest)) (ascii "<![CDATA[") false = false := by
      simp [stringEqual, hbytes.2, List.isPrefixOf_cons_cons, Ne.symm hcdata]
    rw [List.cons_append, List.cons_append, identify, skipWhiteSpace_lt]
    simp only [hcomment', hcdata']
    rfl
  · have hbytes : (ascii "<?xml").map toLower = [60, 63, 120, 109, 108] := by decide
    have hxml' : stringEqual (60 :: 63 :: d :: (w ++ rest)) (ascii "<?xml") true = false := by
      have hlower : toLower 60 = 60 ∧ toLower 63 = 63 := by decide
      simp [stringEqual, hbytes, hlower, List.isPrefixOf_cons_cons, Ne.symm hxml]
    rw [List.cons_append, List.cons_append, identify, skipWhiteSpace_lt]
    simp only [hxml']
    rfl

theorem identify_element {name rest : Bytes} (h : IsName encoding name) :
    identify encoding (60 :: (name ++ rest)) = some .element := by
  obtain ⟨c, tail, rfl, hc⟩ := h.cons
  have hall : ∀ c : UInt8, isNameStart c = true → c ≠ 63 ∧ c ≠ 33 ∧ toLower c ≠ 63 :=
    forall_byte (by decide +kernel)
  obtain ⟨hquestion, hbang, hlower⟩ := hall c hc
  have hbytes : (ascii "<?xml").map toLower = [60, 63, 120, 109, 108] ∧
      ascii "<!--" = [60, 33, 45, 45] ∧ ascii "<!" = [60, 33] ∧
      ascii "<![CDATA[" = [60, 33, 91, 67, 68, 65, 84, 65, 91] := by decide
  have hlt : toLower 60 = 60 := by decide
  rw [List.cons_append, identify, skipWhiteSpace_lt]
  simp [stringEqual, hbytes, hlt, Ne.symm hlower, Ne.symm hbang, hc]

end Raw

/-! ## Declarations -/

section Declaration

variable {encoding : XmlEncoding} {v : Bytes}

theorem IsField.not_mem (h : IsField encoding v) {c : UInt8} (hc : ¬Plain c) : c ∉ v :=
  fun hm => hc (h.plain c hm)

theorem IsField.cStr_eq (h : IsField encoding v) : cStr v = v :=
  cStr_eq_self_iff.mpr (h.not_mem (by decide))

/-- A field is an attribute whose value needs no escapes. -/
theorem IsField.writable (h : IsField encoding v) {name : Bytes} (hname : IsName encoding name) :
    Writable encoding (name, v) where
  name := hname
  aligned := h.aligned
  unreferenced := fun hm => h.not_mem (by decide) (hm.subset (by decide : (38 : UInt8) ∈ _))

theorem printField_eq (h : IsField encoding v) {name : Bytes} (hname : IsName encoding name)
    (rest : Bytes) :
    32 :: (printField name v ++ rest) =
      (if v = [] then [] else 32 :: printAttribute (name, v)) ++ 32 :: rest := by
  by_cases hv : v = []
  · simp [printField, hv]
  · have hquote : quoteOf v = 34 := by
      unfold quoteOf
      rw [if_neg (by simpa using h.not_mem (by decide))]
    rw [printAttribute_eq (h.writable hname), printField, if_neg hv, if_neg hv, h.cStr_eq, hquote,
      escape_of_plain h.plain]
    simp [ascii]

theorem isName_of_letters {name : Bytes} (hfirst : name.head?.any isNameStart = true)
    (hletters : name.all isNameChar = true) (hmark : name.head? ≠ some 0xef) :
    IsName encoding name where
  first := hfirst
  letters := hletters
  unmarked := unmarked_of_head hmark

theorem skipWhiteSpace_attribute {a : Bytes × Bytes} (h : Writable encoding a) (rest : Bytes) :
    skipWhiteSpace encoding (32 :: (printAttribute a ++ rest)) = printAttribute a ++ rest := by
  have hends : EndsName (61 :: quoteOf a.2 :: (escape a.2 ++ quoteOf a.2 :: rest)) :=
    endsName_cons (by decide) _
  rw [skipWhiteSpace_space (by decide), printAttribute_eq h]
  simpa using skipWhiteSpace_name h.name hends

/-- The three names of a declaration. -/
theorem stringEqual_field (rest : Bytes) :
    stringEqual (ascii "version" ++ rest) (ascii "version") true = true ∧
      stringEqual (ascii "encoding" ++ rest) (ascii "version") true = false ∧
      stringEqual (ascii "encoding" ++ rest) (ascii "encoding") true = true ∧
      stringEqual (ascii "standalone" ++ rest) (ascii "version") true = false ∧
      stringEqual (ascii "standalone" ++ rest) (ascii "encoding") true = false ∧
      stringEqual (ascii "standalone" ++ rest) (ascii "standalone") true = true :=
  ⟨rfl, rfl, rfl, rfl, rfl, rfl⟩

/-- One attribute of a declaration. -/
theorem readDeclaration_attribute {a : Bytes × Bytes} (h : Writable encoding a) (d : Declaration)
    (fuel : ℕ) (rest : Bytes) :
    ∃ tail, printAttribute a ++ rest = a.1 ++ tail ∧
      readDeclaration encoding (fuel + 1) d (32 :: (printAttribute a ++ rest)) =
        if stringEqual (a.1 ++ tail) (ascii "version") true then
          readDeclaration encoding fuel { d with version := cStr a.2 } rest
        else if stringEqual (a.1 ++ tail) (ascii "encoding") true then
          readDeclaration encoding fuel { d with encoding := cStr a.2 } rest
        else if stringEqual (a.1 ++ tail) (ascii "standalone") true then
          readDeclaration encoding fuel { d with standalone := cStr a.2 } rest
        else readDeclaration encoding fuel d
          ((a.1 ++ tail).dropWhile fun c => c ≠ 62 ∧ !isWhiteSpace c) := by
  obtain ⟨tail, htail⟩ : ∃ tail, printAttribute a ++ rest = a.1 ++ tail := by
    rw [printAttribute_eq h, List.append_assoc]
    exact ⟨_, rfl⟩
  have hparse := parseAttribute_print h rest
  have hskip := skipWhiteSpace_attribute h rest
  have hne : a.1 ++ tail ≠ [] := by simp [h.name.ne_nil]
  refine ⟨tail, htail, ?_⟩
  rw [htail] at hparse hskip ⊢
  rw [readDeclaration, if_neg (by decide), hskip]
  simp only [hne, if_false, hparse, Machine.ok_bind]

/-- The end of a declaration, with or without white space before it. -/
theorem readDeclaration_end {p rest : Bytes} (hhead : p.head? ≠ some 62)
    (hskip : skipWhiteSpace encoding p = 63 :: 62 :: rest) (d : Declaration) (fuel : ℕ) :
    readDeclaration encoding (fuel + 2) d p = .ok (d, rest) := by
  have hnone : stringEqual (63 :: 62 :: rest) (ascii "version") true = false ∧
      stringEqual (63 :: 62 :: rest) (ascii "encoding") true = false ∧
      stringEqual (63 :: 62 :: rest) (ascii "standalone") true = false := ⟨rfl, rfl, rfl⟩
  have hdrop : (63 :: 62 :: rest).dropWhile (fun c => c ≠ 62 ∧ !isWhiteSpace c) = 62 :: rest :=
    rfl
  cases p with
  | nil => simp [skipWhiteSpace] at hskip
  | cons c p =>
      rw [readDeclaration, if_neg (by simpa using hhead), hskip]
      simp only [reduceCtorEq, if_false, hnone, Bool.false_eq_true, hdrop]
      rw [readDeclaration, if_pos rfl]

theorem readDeclaration_mark (d : Declaration) (fuel : ℕ) (rest : Bytes) :
    readDeclaration encoding (fuel + 2) d (ascii "?>" ++ rest) = .ok (d, rest) :=
  readDeclaration_end (by simp) (skipWhiteSpace_head (by decide) (by decide)) d fuel

theorem readDeclaration_blank (d : Declaration) (fuel : ℕ) (rest : Bytes) :
    readDeclaration encoding (fuel + 2) d (32 :: (ascii "?>" ++ rest)) = .ok (d, rest) := by
  refine readDeclaration_end (by simp) ?_ d fuel
  rw [skipWhiteSpace_space (by decide)]
  exact skipWhiteSpace_head (by decide) (by decide)

theorem readDeclaration_standalone (h : IsField encoding v) (d : Declaration)
    (hd : d.standalone = []) (fuel : ℕ) (rest : Bytes) :
    readDeclaration encoding (fuel + 3) d
        (32 :: (printField (ascii "standalone") v ++ (ascii "?>" ++ rest))) =
      .ok ({ d with standalone := v }, rest) := by
  have hname : IsName encoding (ascii "standalone") :=
    isName_of_letters (by decide) (by decide) (by decide)
  rw [printField_eq h hname]
  by_cases hv : v = []
  · rw [if_pos hv, List.nil_append, readDeclaration_blank d (fuel + 1), hv, ← hd]
  · obtain ⟨tail, -, hread⟩ := readDeclaration_attribute (h.writable hname) d (fuel + 2)
      (32 :: (ascii "?>" ++ rest))
    obtain ⟨-, -, -, hversion, hencoding, hself⟩ := stringEqual_field tail
    rw [if_neg hv, List.cons_append, hread, if_neg (by simp [hversion]),
      if_neg (by simp [hencoding]), if_pos hself, readDeclaration_blank, h.cStr_eq]

theorem readDeclaration_encoding {standalone : Bytes} (h : IsField encoding v)
    (hstandalone : IsField encoding standalone) (d : Declaration) (hd : d.encoding = [])
    (hd' : d.standalone = []) (fuel : ℕ) (rest : Bytes) :
    readDeclaration encoding (fuel + 4) d (32 :: (printField (ascii "encoding") v ++
        (printField (ascii "standalone") standalone ++ (ascii "?>" ++ rest)))) =
      .ok ({ d with encoding := v, standalone := standalone }, rest) := by
  have hname : IsName encoding (ascii "encoding") :=
    isName_of_letters (by decide) (by decide) (by decide)
  rw [printField_eq h hname]
  by_cases hv : v = []
  · rw [if_pos hv, List.nil_append, readDeclaration_standalone hstandalone d hd' (fuel + 1), hv,
      ← hd]
  · obtain ⟨tail, -, hread⟩ := readDeclaration_attribute (h.writable hname) d (fuel + 3)
      (32 :: (printField (ascii "standalone") standalone ++ (ascii "?>" ++ rest)))
    obtain ⟨-, hversion, hself, -⟩ := stringEqual_field tail
    rw [if_neg hv, List.cons_append, hread, if_neg (by simp [hversion]), if_pos hself, h.cStr_eq]
    exact readDeclaration_standalone hstandalone { d with encoding := v } hd' fuel rest

/-- The fields that were printed, one after the other. -/
theorem readDeclaration_fields {version enc standalone : Bytes}
    (hversion : IsField encoding version) (henc : IsField encoding enc)
    (hstandalone : IsField encoding standalone) (fuel : ℕ)
    (rest : Bytes) :
    readDeclaration encoding (fuel + 5) {}
        (32 :: (printField (ascii "version") version ++ (printField (ascii "encoding") enc ++
          (printField (ascii "standalone") standalone ++ (ascii "?>" ++ rest))))) =
      .ok (⟨version, enc, standalone⟩, rest) := by
  have hname : IsName encoding (ascii "version") :=
    isName_of_letters (by decide) (by decide) (by decide)
  rw [printField_eq hversion hname]
  by_cases hv : version = []
  · rw [if_pos hv, List.nil_append,
      readDeclaration_encoding henc hstandalone {} rfl rfl (fuel + 1), hv]
  · obtain ⟨tail, -, hread⟩ := readDeclaration_attribute (hversion.writable hname) {} (fuel + 4)
      (32 :: (printField (ascii "encoding") enc ++ (printField (ascii "standalone") standalone ++
        (ascii "?>" ++ rest))))
    rw [if_neg hv, List.cons_append, hread, if_pos (stringEqual_field tail).1, hversion.cStr_eq]
    exact readDeclaration_encoding henc hstandalone { version := version } rfl rfl fuel rest

end Declaration

/-! ## Trees -/

section Tree

variable {encoding : XmlEncoding}

/-- Behind white space a node starts that is identified and read as it comes back, with this
fuel for what is inside it. -/
def ReadsNode (encoding : XmlEncoding) (fuel depth : ℕ) (node : XmlNode) : Prop :=
  ∀ rest, rest ≠ [] → ∃ tail kind,
    skipWhiteSpace encoding (printNode depth node ++ rest) = 60 :: tail ∧
      tail.head? ≠ some 47 ∧ identify encoding (60 :: tail) = some kind ∧
        parseNode (readValue encoding fuel []) encoding kind (60 :: tail) =
          .ok (withoutEmptyText node, rest)

theorem indent_blank (depth : ℕ) : (indent depth).all isWhiteSpace = true := by
  have hspaces : ∀ c ∈ ascii "    ", isWhiteSpace c = true := by decide +kernel
  rw [List.all_eq_true]
  intro c hc
  obtain ⟨spaces, hs, hc⟩ := List.mem_flatten.mp hc
  rw [List.eq_of_mem_replicate hs] at hc
  exact hspaces c hc

theorem line_blank (depth : ℕ) : (10 :: indent depth).all isWhiteSpace = true := by
  rw [List.all_cons, indent_blank]
  rfl

/-- A node that is printed on a line of its own. -/
theorem readsNode_of_body {fuel depth : ℕ} {node : XmlNode} {blanks body : Bytes}
    (hprint : printNode depth node = blanks ++ 60 :: body)
    (hblanks : blanks.all isWhiteSpace = true) (hslash : ∀ rest, (body ++ rest).head? ≠ some 47)
    (kind : NodeKind) (hkind : ∀ rest, identify encoding (60 :: (body ++ rest)) = some kind)
    (hparse : ∀ rest, rest ≠ [] →
      parseNode (readValue encoding fuel []) encoding kind (60 :: (body ++ rest)) =
        .ok (withoutEmptyText node, rest)) : ReadsNode encoding fuel depth node := by
  intro rest hrest
  refine ⟨body ++ rest, kind, ?_, hslash rest, hkind rest, hparse rest hrest⟩
  rw [hprint, List.append_assoc, skipWhiteSpace_blanks hblanks, List.cons_append,
    skipWhiteSpace_lt]

theorem readsNode_comment {v : Bytes} (h : IsComment v) (fuel depth : ℕ) :
    ReadsNode encoding fuel depth (.comment v) := by
  have hprint : printNode depth (.comment v) =
      indent depth ++ 60 :: (ascii "!--" ++ (v ++ ascii "-->")) := by
    simp [printNode, h.inLine.cStr_eq, ascii]
  refine readsNode_of_body hprint (indent_blank depth) (by simp [ascii]) .comment
    (fun rest => ?_) fun rest _ => ?_
  · rw [List.append_assoc]
    exact identify_comment _
  · have hraw := parseRaw_comment h.inside rest
    have htext : ascii "<!--" ++ (v ++ (ascii "-->" ++ rest)) =
        60 :: (ascii "!--" ++ (v ++ ascii "-->") ++ rest) := by simp [ascii]
    rw [htext] at hraw
    simp only [parseNode, parseComment, skipWhiteSpace_lt, hraw]
    rfl

theorem readsNode_unknown {v : Bytes} (h : IsUnknown v) (fuel depth : ℕ) :
    ReadsNode encoding fuel depth (.unknown v) := by
  have hprint : printNode depth (.unknown v) = indent depth ++ 60 :: (v ++ [62]) := by
    simp [printNode, h.inLine.cStr_eq, ascii]
  refine readsNode_of_body hprint (indent_blank depth) (fun rest => ?_) .unknown
    (fun rest => ?_) fun rest _ => ?_
  · obtain ⟨c, d, w, rfl, ⟨rfl, -⟩ | ⟨rfl, -⟩⟩ := h.start <;> simp
  · rw [List.append_assoc]
    exact identify_unknown h _
  · have hraw := parseRaw_unknown h.inside rest
    simp [parseNode, parseUnknown, skipWhiteSpace_lt, hraw, withoutEmptyText]

theorem readsNode_declaration {version enc standalone : Bytes} (hversion : IsField encoding version)
    (henc : IsField encoding enc) (hstandalone : IsField encoding standalone) (fuel depth : ℕ) :
    ReadsNode encoding fuel depth (.declaration version enc standalone) := by
  have hprint : printNode depth (.declaration version enc standalone) =
      [] ++ 60 :: (ascii "?xml" ++ 32 :: (printField (ascii "version") version ++
        (printField (ascii "encoding") enc ++ (printField (ascii "standalone") standalone ++
          ascii "?>")))) := by
    simp [printNode, ascii]
  refine readsNode_of_body hprint rfl (by simp [ascii]) .declaration (fun rest => ?_)
    fun rest hrest => ?_
  · rw [List.append_assoc, identify, skipWhiteSpace_lt]
    rfl
  · have hread := fun k => readDeclaration_fields hversion henc hstandalone k rest
    generalize hfields : (32 :: (printField (ascii "version") version ++
      (printField (ascii "encoding") enc ++ (printField (ascii "standalone") standalone ++
        (ascii "?>" ++ rest))))) = text at hread
    have hlength : 4 ≤ text.length := by
      obtain ⟨c, rest, rfl⟩ := List.exists_cons_of_ne_nil hrest
      rw [← hfields]
      simp [ascii]
      omega
    obtain ⟨k, hk⟩ := Nat.exists_eq_add_of_le hlength
    have hdrop : (60 :: (ascii "?xml" ++ 32 :: (printField (ascii "version") version ++
        (printField (ascii "encoding") enc ++ (printField (ascii "standalone") standalone ++
          ascii "?>"))) ++ rest)).drop 5 = text := by
      rw [← hfields]
      simp [ascii]
    have hfuel : text.length + 1 = k + 5 := by omega
    simp only [parseNode, parseDeclaration, skipWhiteSpace_lt, hdrop, hfuel, hread,
      Machine.ok_bind]
    rfl

/-- White space before a child does not count. -/
theorem readValue_blanks {blanks : Bytes} (h : blanks.all isWhiteSpace = true) (fuel : ℕ)
    (children : List XmlNode) (p : Bytes) :
    readValue encoding fuel children (blanks ++ p) = readValue encoding fuel children p := by
  cases fuel with
  | zero => rfl
  | succ fuel => rw [readValue, readValue, skipWhiteSpace_blanks h]

/-- The end tag ends the children. -/
theorem readValue_end {blanks : Bytes} (h : blanks.all isWhiteSpace = true) (fuel : ℕ)
    (children : List XmlNode) (rest : Bytes) :
    readValue encoding (fuel + 1) children (blanks ++ 60 :: 47 :: rest) =
      .ok (children, 60 :: 47 :: rest) := by
  have htag : stringEqual (60 :: 47 :: rest) (ascii "</") false = true := by
    simp [stringEqual, ascii]
  rw [readValue_blanks h, readValue, skipWhiteSpace_lt]
  simp only [htag, if_true]

/-- A child that is no text is added. -/
theorem readValue_node {fuel depth : ℕ} {node : XmlNode} (h : ReadsNode encoding fuel depth node)
    (children : List XmlNode) {rest : Bytes} (hrest : rest ≠ []) :
    readValue encoding (fuel + 1) children (printNode depth node ++ rest) =
      readValue encoding fuel (children ++ [withoutEmptyText node]) rest := by
  obtain ⟨tail, kind, hskip, hslash, hkind, hparse⟩ := h rest hrest
  have htag : stringEqual (60 :: tail) (ascii "</") false = false := by
    cases tail with
    | nil => rfl
    | cons c tail =>
        have hc : c ≠ 47 := by simpa using hslash
        have hbytes : ascii "</" = [60, 47] := rfl
        simp [stringEqual, hbytes, List.isPrefixOf_cons_cons, Ne.symm hc]
  rw [readValue, hskip]
  simp only [htag, hkind, hparse, Machine.ok_bind]
  rfl

/-- A text is added, up to the tag that follows it. -/
theorem readValue_text {v : Bytes} (h : ReadableText encoding v) {blanks : Bytes}
    (hblanks : blanks.all isWhiteSpace = true) (fuel : ℕ) (children : List XmlNode) {rest : Bytes}
    (hrest : rest ≠ []) :
    readValue encoding (fuel + 1) children (escape v ++ (blanks ++ 60 :: rest)) =
      readValue encoding fuel (children ++ [.text v]) (blanks ++ 60 :: rest) := by
  obtain ⟨d, tail, heq, hlt, -⟩ := h.cons
  have hparse := parseText_escape h hblanks hrest
  have hskip := skipWhiteSpace_escape h hblanks rest
  rw [heq, List.cons_append] at hparse hskip
  rw [readValue_blanks hblanks, heq, List.cons_append, readValue, hskip]
  split
  · rename_i hcons
    simp at hcons
  · rename_i hcons
    exact absurd (List.cons.inj hcons).1 hlt
  · rename_i hcons
    rw [← hcons, hparse]
    simp [Machine.ok_bind, h.visible]

/-! ## Elements -/

mutual

/-- The fuel that reading a tree takes. -/
def cost : XmlNode → ℕ
  | .element _ _ children => costAll children
  | _ => 0

def costAll : List XmlNode → ℕ
  | [] => 1
  | node :: rest => 1 + cost node + costAll rest

end

/-- It reads as the children come back, whatever is in front. -/
def ReadsChildren (encoding : XmlEncoding) (fuel depth : ℕ) (children : List XmlNode) : Prop :=
  ∀ (done : List XmlNode) (blanks rest : Bytes), blanks.all isWhiteSpace = true → rest ≠ [] →
    readValue encoding fuel done (printChildren depth children ++ (blanks ++ 60 :: 47 :: rest)) =
      .ok (done ++ withoutEmptyTexts children, 60 :: 47 :: rest)

theorem printText_eq {v : Bytes} (h : Unreferenced v) (depth : ℕ) :
    printNode depth (.text v) = escape v := by
  rw [printNode, encodeString_eq h, cStr_eq_self_iff.mpr (zero_not_mem_escape v)]

/-- What is printed of an element with children. -/
theorem printElement_eq {name : Bytes} (attributes : Attributes) {children : List XmlNode}
    (hname : IsName encoding name) (hne : children ≠ [])
    (htexts : ∀ v, children = [.text v] → Unreferenced v) (depth : ℕ) :
    ∃ blanks, (blanks = [] ∨ blanks = 10 :: indent depth) ∧
      printNode depth (.element name attributes children) =
        indent depth ++ 60 :: (name ++ (printAttributes attributes ++ 62 ::
          (printChildren (depth + 1) children ++ (blanks ++ 60 :: 47 :: (name ++ [62]))))) := by
  by_cases htext : ∃ v, children = [.text v]
  · obtain ⟨v, rfl⟩ := htext
    have hv := htexts v rfl
    refine ⟨[], .inl rfl, ?_⟩
    rw [printNode, hname.cStr_eq, encodeString_eq hv,
      cStr_eq_self_iff.mpr (zero_not_mem_escape v), printChildren, printText_eq hv]
    simp [printChildren, isText, ascii]
  · refine ⟨10 :: indent depth, .inr rfl, ?_⟩
    rw [printNode, hname.cStr_eq]
    · simp [ascii]
    · exact hne
    · exact fun v hv => htext ⟨v, hv⟩

/-- The one text of an element that survives. -/
theorem unreferenced_of_printable {name : Bytes} {attributes : Attributes}
    {children : List XmlNode} (h : Printable encoding (.element name attributes children)) :
    ∀ v, children = [.text v] → Unreferenced v := by
  rintro v rfl
  rcases h.2.2.2 with hempty | ⟨hall, -⟩
  · obtain rfl : v = [] := by simpa using hempty
    exact unreferenced_of_not_mem (by simp)
  · have hv : ReadableText encoding v := hall.1
    exact hv.unreferenced

theorem printEmpty_eq {name : Bytes} {attributes : Attributes} (hname : IsName encoding name)
    (depth : ℕ) :
    printNode depth (.element name attributes []) =
      indent depth ++ 60 :: (name ++ (printAttributes attributes ++ [32, 47, 62])) := by
  rw [printNode, hname.cStr_eq]
  simp [ascii]

/-- Every node but a text starts with a tag. -/
theorem printNode_lt {node : XmlNode} (h : Printable encoding node) (htext : isText node = false)
    (depth : ℕ) : ∃ body, body ≠ [] ∧ (printNode depth node = indent depth ++ 60 :: body ∨
      printNode depth node = 60 :: body) := by
  cases node with
  | element name attributes children =>
      have hname := h.1
      have hne := hname.ne_nil
      by_cases hc : children = []
      · subst hc
        exact ⟨_, by simp [hne], .inl (printEmpty_eq hname depth)⟩
      · obtain ⟨blanks, -, heq⟩ :=
          printElement_eq attributes hname hc (unreferenced_of_printable h) depth
        exact ⟨_, by simp [hne], .inl heq⟩
  | comment v =>
      have hprint : printNode depth (.comment v) =
          indent depth ++ 60 :: (ascii "!--" ++ (cStr v ++ ascii "-->")) := by
        simp [printNode, ascii]
      exact ⟨_, by simp [ascii], .inl hprint⟩
  | text v => simp [isText] at htext
  | declaration version enc standalone =>
      have hprint : printNode depth (.declaration version enc standalone) =
          60 :: (ascii "?xml " ++ (printField (ascii "version") version ++
            (printField (ascii "encoding") enc ++ (printField (ascii "standalone") standalone ++
              ascii "?>")))) := by
        simp [printNode, ascii]
      exact ⟨_, by simp [ascii], .inr hprint⟩
  | unknown v =>
      have hprint : printNode depth (.unknown v) = indent depth ++ 60 :: (cStr v ++ [62]) := by
        simp [printNode, ascii]
      exact ⟨_, by simp, .inl hprint⟩

theorem readsNode_element {name : Bytes} {attributes : Attributes} {children : List XmlNode}
    (h : Printable encoding (.element name attributes children)) {fuel depth : ℕ}
    (hchildren : ReadsChildren encoding fuel (depth + 1) children) :
    ReadsNode encoding fuel depth (.element name attributes children) := by
  have htexts := unreferenced_of_printable h
  obtain ⟨hname, hattributes, hnodup, -⟩ := h
  obtain ⟨c, tail, heq, hc⟩ := hname.cons
  have hslash : ∀ text : Bytes, (name ++ text).head? ≠ some 47 := by
    intro text
    have hne := (isNameChar_cases c (isNameChar_of_isNameStart hc)).2.1
    simpa [heq] using hne
  by_cases hempty : children = []
  · subst hempty
    refine readsNode_of_body (printEmpty_eq hname depth) (indent_blank depth)
      (fun rest => ?_) .element (fun rest => ?_) fun rest _ => ?_
    · rw [List.append_assoc]
      exact hslash _
    · rw [List.append_assoc]
      exact identify_element hname
    · have hspace : isNameChar 32 = false := by decide
      obtain ⟨k, hparse⟩ := parseElement_print (readValue encoding fuel []) hname
        hattributes hnodup hspace (47 :: 62 :: rest)
      rw [readTag_empty] at hparse
      simpa [parseNode, withoutEmptyText, withoutEmptyTexts] using hparse
  · obtain ⟨blanks, hblanks, hprint⟩ :=
      printElement_eq attributes hname hempty htexts depth
    refine readsNode_of_body hprint (indent_blank depth)
      (fun rest => ?_) .element (fun rest => ?_) fun rest _ => ?_
    · rw [List.append_assoc]
      exact hslash _
    · rw [List.append_assoc]
      exact identify_element hname
    · have hgt : isNameChar 62 = false := by decide
      have hspace : blanks.all isWhiteSpace = true := by
        rcases hblanks with rfl | rfl
        · rfl
        · exact line_blank depth
      have hread := hchildren [] blanks (name ++ 62 :: rest) hspace (by simp)
      obtain ⟨k, hparse⟩ := parseElement_print (readValue encoding fuel []) hname
        hattributes hnodup hgt (printChildren (depth + 1) children ++
          (blanks ++ 60 :: 47 :: (name ++ 62 :: rest)))
      rw [readTag_content, readContent_print hread] at hparse
      simpa [parseNode, withoutEmptyText] using hparse

theorem readsChildren_nil (fuel depth : ℕ) : ReadsChildren encoding (fuel + 1) depth [] := by
  intro done blanks rest hblanks _
  rw [printChildren, List.nil_append, readValue_end hblanks, withoutEmptyTexts, List.append_nil]

/-- Of an empty text nothing is printed. -/
theorem printChildren_empty (depth : ℕ) : printChildren depth [.text []] = [] :=
  rfl

theorem readsChildren_empty (fuel depth : ℕ) :
    ReadsChildren encoding (fuel + 1) depth [.text []] := by
  intro done blanks rest hblanks _
  rw [printChildren_empty, List.nil_append, readValue_end hblanks]
  simp [withoutEmptyTexts]

theorem readsChildren_node {node : XmlNode} {children : List XmlNode} {fuel depth : ℕ}
    (htext : isText node = false) (hnode : ReadsNode encoding fuel depth node)
    (hchildren : ReadsChildren encoding fuel depth children) :
    ReadsChildren encoding (fuel + 1) depth (node :: children) := by
  intro done blanks rest hblanks hrest
  have hline : printChildren depth (node :: children) ++ (blanks ++ 60 :: 47 :: rest) =
      [10] ++ (printNode depth node ++ (printChildren depth children ++
        (blanks ++ 60 :: 47 :: rest))) := by
    simp [printChildren, htext, ascii]
  rw [hline, readValue_blanks (by decide), readValue_node hnode done (by simp),
    hchildren (done ++ [withoutEmptyText node]) blanks rest hblanks hrest,
    withoutEmptyTexts_cons (ne_of_not_text htext [])]
  simp

theorem readsChildren_text {v : Bytes} {children : List XmlNode} {fuel depth : ℕ}
    (h : ReadableText encoding v) (hall : PrintableAll encoding children)
    (hnext : children.head?.all (fun n => !isText n) = true)
    (hchildren : ReadsChildren encoding fuel depth children) :
    ReadsChildren encoding (fuel + 1) depth (.text v :: children) := by
  intro done blanks rest hblanks hrest
  have htext : printChildren depth (.text v :: children) ++ (blanks ++ 60 :: 47 :: rest) =
      escape v ++ (printChildren depth children ++ (blanks ++ 60 :: 47 :: rest)) := by
    simp [printChildren, printText_eq h.unreferenced, isText]
  -- A tag follows, which may be that of the next child.
  obtain ⟨blanks', tail, hblanks', htail, hfollow⟩ : ∃ blanks' tail,
      blanks'.all isWhiteSpace = true ∧ tail ≠ [] ∧
        printChildren depth children ++ (blanks ++ 60 :: 47 :: rest) = blanks' ++ 60 :: tail := by
    cases children with
    | nil => exact ⟨blanks, 47 :: rest, hblanks, by simp, rfl⟩
    | cons node children =>
        have hnode : isText node = false := by simpa using hnext
        obtain ⟨ws, body, hws, hbody, hprint⟩ : ∃ ws body, ws.all isWhiteSpace = true ∧
            body ≠ [] ∧ printNode depth node = ws ++ 60 :: body := by
          obtain ⟨body, hbody, hprint | hprint⟩ := printNode_lt hall.1 hnode depth
          · exact ⟨_, body, indent_blank depth, hbody, hprint⟩
          · exact ⟨[], body, rfl, hbody, hprint⟩
        have hline : (10 :: ws).all isWhiteSpace = true := by
          rw [List.all_cons, hws]
          rfl
        refine ⟨10 :: ws, body ++ (printChildren depth children ++ (blanks ++ 60 :: 47 :: rest)),
          hline, by simp [hbody], ?_⟩
        simp [printChildren, hnode, hprint, ascii]
  have hread := hchildren (done ++ [.text v]) blanks rest hblanks hrest
  have hv : XmlNode.text v ≠ .text [] := by simpa using h.ne_nil
  rw [hfollow] at hread
  rw [htext, hfollow, readValue_text h hblanks' fuel done htail, hread,
    withoutEmptyTexts_cons hv]
  simp [withoutEmptyText]

mutual

theorem readsNode_of_printable : ∀ (node : XmlNode) (fuel depth : ℕ),
    Printable encoding node → isText node = false → cost node ≤ fuel →
      ReadsNode encoding fuel depth node
  | .element _ _ children, fuel, depth, h, _, hfuel => by
      refine readsNode_element h ?_
      rcases h.2.2.2 with rfl | ⟨hall, hapart⟩
      · obtain ⟨fuel, rfl⟩ : ∃ n, fuel = n + 1 :=
          ⟨fuel - 1, by simp [cost, costAll] at hfuel; omega⟩
        exact readsChildren_empty fuel (depth + 1)
      · exact readsChildren_of_printable children fuel (depth + 1) hall hapart hfuel
  | .comment _, fuel, depth, h, _, _ => readsNode_comment h fuel depth
  | .text _, _, _, _, htext, _ => absurd htext (by simp [isText])
  | .declaration _ _ _, fuel, depth, h, _, _ =>
      readsNode_declaration h.1 h.2.1 h.2.2 fuel depth
  | .unknown _, fuel, depth, h, _, _ => readsNode_unknown h fuel depth

theorem readsChildren_of_printable : ∀ (children : List XmlNode) (fuel depth : ℕ),
    PrintableAll encoding children → Apart children → costAll children ≤ fuel →
      ReadsChildren encoding fuel depth children
  | [], fuel, depth, _, _, hfuel => by
      obtain ⟨fuel, rfl⟩ : ∃ n, fuel = n + 1 := ⟨fuel - 1, by simp [costAll] at hfuel; omega⟩
      exact readsChildren_nil fuel depth
  | node :: children, fuel, depth, h, hapart, hfuel => by
      rw [costAll] at hfuel
      obtain ⟨fuel, rfl⟩ : ∃ n, fuel = n + 1 := ⟨fuel - 1, by omega⟩
      have hrest := readsChildren_of_printable children fuel depth h.2 hapart.tail (by omega)
      cases htext : isText node with
      | false =>
          exact readsChildren_node htext
            (readsNode_of_printable node fuel depth h.1 htext (by omega)) hrest
      | true =>
          cases node with
          | text v =>
              refine readsChildren_text h.1 h.2 ?_ hrest
              cases children with
              | nil => rfl
              | cons n children =>
                  have hnext := hapart.rel
                  simpa [isText] using hnext
          | _ => simp [isText] at htext

end

/-! ## Documents -/

mutual

theorem cost_lt : ∀ (node : XmlNode) (depth : ℕ), Printable encoding node →
    cost node < (printNode depth node).length
  | .element name attributes children, depth, h => by
      have hchildren : costAll children ≤ (printChildren (depth + 1) children).length + 2 := by
        rcases h.2.2.2 with rfl | ⟨hall, -⟩
        · simp [costAll, cost]
        · exact (costAll_le children (depth + 1) hall).trans (Nat.le_succ _)
      have hname := List.length_pos_of_ne_nil h.1.ne_nil
      by_cases hc : children = []
      · subst hc
        rw [printEmpty_eq h.1]
        simp [cost, costAll]
        omega
      · obtain ⟨blanks, -, heq⟩ :=
          printElement_eq attributes h.1 hc (unreferenced_of_printable h) depth
        rw [heq]
        simp [cost]
        omega
  | .comment v, depth, _ => List.length_pos_of_ne_nil (by simp [printNode, ascii])
  | .text v, depth, h => by
      have hlength := length_le_escape v
      have hv := List.length_pos_of_ne_nil (ReadableText.ne_nil h)
      have hcost : cost (.text v) = 0 := rfl
      rw [printText_eq (ReadableText.unreferenced h), hcost]
      omega
  | .declaration _ _ _, depth, _ => List.length_pos_of_ne_nil (by simp [printNode, ascii])
  | .unknown _, depth, _ => List.length_pos_of_ne_nil (by simp [printNode, ascii])

theorem costAll_le : ∀ (children : List XmlNode) (depth : ℕ), PrintableAll encoding children →
    costAll children ≤ (printChildren depth children).length + 1
  | [], _, _ => by simp [costAll]
  | node :: children, depth, h => by
      have hnode := cost_lt node depth h.1
      have hrest := costAll_le children depth h.2
      rw [costAll, printChildren, List.length_append, List.length_append]
      omega

end

/-- Every node of a document survives under the encoding that it is read with. -/
def PrintableFrom : XmlEncoding → Document → Prop
  | _, [] => True
  | encoding, node :: rest =>
    Printable encoding node ∧ isText node = false ∧
      PrintableFrom (nextEncoding encoding node) rest

theorem readDocument_print {nodes : Document} (h : PrintableFrom encoding nodes) {fuel : ℕ}
    (hfuel : nodes.length < fuel) (done : Document) :
    readDocument fuel encoding done (skipWhiteSpace encoding (printDocument nodes)) =
      .ok (done ++ withoutEmptyTexts nodes) := by
  induction nodes generalizing encoding fuel done with
  | nil =>
      obtain ⟨fuel, rfl⟩ := Nat.exists_eq_add_of_lt hfuel
      simp [readDocument, printDocument, skipWhiteSpace, withoutEmptyTexts]
  | cons node nodes ih =>
      obtain ⟨fuel, rfl⟩ : ∃ n, fuel = n + 1 := ⟨fuel - 1, by omega⟩
      obtain ⟨hnode, htext, hrest⟩ := h
      have hprint : printDocument (node :: nodes) =
          printNode 0 node ++ 10 :: printDocument nodes := by
        simp [printDocument, ascii]
      have hlt : skipWhiteSpace encoding (printNode 0 node ++ 10 :: printDocument nodes) =
          printNode 0 node ++ 10 :: printDocument nodes := by
        obtain ⟨body, -, heq | heq⟩ := printNode_lt hnode htext 0
        · rw [heq]
          exact skipWhiteSpace_lt _
        · rw [heq]
          exact skipWhiteSpace_lt _
      have hcost : cost node ≤ (printNode 0 node ++ 10 :: printDocument nodes).length + 1 := by
        have hlength := cost_lt node 0 hnode
        rw [List.length_append]
        omega
      obtain ⟨tail, kind, hskip, -, hkind, hparse⟩ :=
        readsNode_of_printable node _ 0 hnode htext hcost (10 :: printDocument nodes) (by simp)
      rw [hprint, readDocument, hlt, if_neg (by simp)]
      rw [hlt] at hskip
      rw [hskip] at hparse ⊢
      simp only [hkind, hparse, Machine.ok_bind, nextEncoding_withoutEmptyText]
      rw [skipWhiteSpace_space (by decide), ih hrest (by simpa using hfuel),
        withoutEmptyTexts_cons hnode.ne_empty]
      simp

end Tree

/-! ## The text of a document -/

theorem length_le_printDocument (nodes : Document) :
    nodes.length ≤ (printDocument nodes).length := by
  induction nodes with
  | nil => simp
  | cons node nodes ih =>
      simp only [printDocument, List.flatMap_cons, List.length_append, List.length_cons] at ih ⊢
      have hline : (ascii "\n").length = 1 := rfl
      omega

/-- A document with nodes that survive. -/
structure Survives (nodes : Document) : Prop where
  nonempty : nodes ≠ []
  nodes : PrintableFrom .unknown nodes

/-- A text without a byte order mark starts with no encoding. -/
theorem parse_of_head {text : Bytes} (hne : text ≠ []) (hhead : text.head? ≠ some 0xef) :
    parse text = (readDocument (text.length + 1) .unknown [] (skipWhiteSpace .unknown text) >>=
      fun nodes => if nodes = [] then .error .error else .ok nodes) := by
  unfold parse
  rw [if_neg hne]
  split
  · simp at hhead
  · rfl

theorem parse_print {nodes : Document} (h : Survives nodes) :
    parse (printDocument nodes) = .ok (withoutEmptyTexts nodes) := by
  obtain ⟨node, rest, rfl⟩ := List.exists_cons_of_ne_nil h.nonempty
  obtain ⟨text, htext⟩ : ∃ text, printDocument (node :: rest) = 60 :: text := by
    obtain ⟨body, -, heq | heq⟩ := printNode_lt h.nodes.1 h.nodes.2.1 0
    · exact ⟨body ++ 10 :: printDocument rest, by simp [printDocument, heq, ascii, indent]⟩
    · exact ⟨body ++ 10 :: printDocument rest, by simp [printDocument, heq, ascii]⟩
  have hlength : (node :: rest).length < (printDocument (node :: rest)).length + 1 :=
    Nat.lt_succ_of_le (length_le_printDocument _)
  rw [parse_of_head (by simp [htext]) (by simp [htext]), readDocument_print h.nodes hlength [],
    withoutEmptyTexts_cons h.nodes.1.ne_empty]
  rfl

/-! ## The file of a document -/

/-- What `LoadFile` leaves as it is. -/
theorem normaliseLines_eq {text : Bytes} (h : 13 ∉ text) : normaliseLines text = text := by
  induction text with
  | nil => rfl
  | cons c text ih =>
      rw [List.mem_cons, not_or] at h
      rw [normaliseLines, ih h.2]
      · rintro rest rfl
        exact absurd rfl h.1
      · rintro rfl
        exact absurd rfl h.1

theorem InLine.append {v w : Bytes} (hv : InLine v) (hw : InLine w) : InLine (v ++ w) :=
  ⟨by simp [hv.1, hw.1], by simp [hv.2, hw.2]⟩

theorem inLine_escape (v : Bytes) : InLine (escape v) := by
  have hall : ∀ c : UInt8, 0 ∉ encodeChar c ∧ 13 ∉ encodeChar c :=
    forall_byte (by decide +kernel)
  rw [InLine, escape, List.mem_flatMap, List.mem_flatMap]
  constructor
  · rintro ⟨c, -, hc⟩
    exact (hall c).1 hc
  · rintro ⟨c, -, hc⟩
    exact (hall c).2 hc

theorem inLine_indent (depth : ℕ) : InLine (indent depth) := by
  have hspace : ∀ c ∈ indent depth, c = 32 := by
    intro c hc
    rw [indent, List.mem_flatten] at hc
    obtain ⟨l, hl, hc⟩ := hc
    rw [List.eq_of_mem_replicate hl] at hc
    simpa [ascii] using hc
  exact ⟨fun h => absurd (hspace 0 h) (by decide), fun h => absurd (hspace 13 h) (by decide)⟩

section InLine

variable {encoding : XmlEncoding}

theorem IsName.inLine {name : Bytes} (h : IsName encoding name) : InLine name := by
  constructor
  · exact fun hm => (isNameChar_cases 0 (h.letter hm)).1 rfl
  · exact fun hm => absurd (isNameChar_cases 13 (h.letter hm)).2.2.2.2.1 (by decide)

theorem inLine_printAttributes {attributes : Attributes}
    (h : ∀ a ∈ attributes, Writable encoding a) : InLine (printAttributes attributes) := by
  have hone : ∀ a ∈ attributes, InLine (32 :: printAttribute a) := by
    intro a ha
    have hquote : InLine [quoteOf a.2] := by
      rcases quoteOf_cases a.2 with hq | hq <;> rw [hq] <;> exact ⟨by decide, by decide⟩
    have hequals : InLine [61] := ⟨by decide, by decide⟩
    have hspace : InLine [32] := ⟨by decide, by decide⟩
    have hline := hspace.append ((h a ha).name.inLine.append (hequals.append
      (hquote.append ((inLine_escape a.2).append hquote))))
    rw [printAttribute_eq (h a ha)]
    simpa using hline
  rw [printAttributes_eq h, InLine, List.mem_flatMap, List.mem_flatMap]
  exact ⟨fun ⟨a, ha, hm⟩ => (hone a ha).1 hm, fun ⟨a, ha, hm⟩ => (hone a ha).2 hm⟩

theorem inLine_printField {name v : Bytes} (hname : InLine name) (h : IsField encoding v) :
    InLine (printField name v) := by
  have hv : InLine (cStr v) := by
    rw [h.cStr_eq]
    exact ⟨h.not_mem (by decide), h.not_mem (by decide)⟩
  rw [printField]
  split
  · exact ⟨by simp, by simp⟩
  · exact ((hname.append ⟨by decide, by decide⟩).append hv).append ⟨by decide, by decide⟩

mutual

theorem inLine_printNode : ∀ (node : XmlNode) (depth : ℕ), Printable encoding node →
    InLine (printNode depth node)
  | .element name attributes children, depth, h => by
      have hlt : InLine [60] := ⟨by decide, by decide⟩
      have hstart := (inLine_indent depth).append (hlt.append (h.1.inLine.append
        (inLine_printAttributes h.2.1)))
      by_cases hc : children = []
      · subst hc
        have hend : InLine [32, 47, 62] := ⟨by decide, by decide⟩
        rw [printEmpty_eq h.1]
        simpa using hstart.append hend
      · have hchildren : InLine (printChildren (depth + 1) children) := by
          rcases h.2.2.2 with rfl | ⟨hall, -⟩
          · rw [printChildren_empty]
            exact ⟨by simp, by simp⟩
          · exact inLine_printChildren children (depth + 1) hall
        obtain ⟨blanks, hblanks, heq⟩ :=
          printElement_eq attributes h.1 hc (unreferenced_of_printable h) depth
        have hline : InLine [10] := ⟨by decide, by decide⟩
        have hspace : InLine blanks := by
          rcases hblanks with rfl | rfl
          · exact ⟨by simp, by simp⟩
          · exact hline.append (inLine_indent depth)
        have hgt : InLine [62] := ⟨by decide, by decide⟩
        have htag : InLine [60, 47] := ⟨by decide, by decide⟩
        have hend := hgt.append (hchildren.append (hspace.append (htag.append
          (h.1.inLine.append hgt))))
        rw [heq]
        simpa using hstart.append hend
  | .comment v, depth, h => by
      have hv : InLine (cStr v) := by
        rw [h.inLine.cStr_eq]
        exact h.inLine
      exact (((inLine_indent depth).append ⟨by decide, by decide⟩).append hv).append
        ⟨by decide, by decide⟩
  | .text v, depth, h => by
      rw [printText_eq (ReadableText.unreferenced h)]
      exact inLine_escape v
  | .declaration version enc standalone, depth, h => by
      have hletters : InLine (ascii "version") ∧ InLine (ascii "encoding") ∧
          InLine (ascii "standalone") :=
        ⟨⟨by decide, by decide⟩, ⟨by decide, by decide⟩, ⟨by decide, by decide⟩⟩
      have hstart : InLine (ascii "<?xml ") := ⟨by decide, by decide⟩
      have hend : InLine (ascii "?>") := ⟨by decide, by decide⟩
      exact (((hstart.append (inLine_printField hletters.1 h.1)).append
        (inLine_printField hletters.2.1 h.2.1)).append
          (inLine_printField hletters.2.2 h.2.2)).append hend
  | .unknown v, depth, h => by
      have hv : InLine (cStr v) := by
        rw [h.inLine.cStr_eq]
        exact h.inLine
      exact (((inLine_indent depth).append ⟨by decide, by decide⟩).append hv).append
        ⟨by decide, by decide⟩

theorem inLine_printChildren : ∀ (children : List XmlNode) (depth : ℕ),
    PrintableAll encoding children → InLine (printChildren depth children)
  | [], _, _ => ⟨by simp [printChildren], by simp [printChildren]⟩
  | node :: children, depth, h => by
      have hline : InLine (if isText node then [] else ascii "\n") := by
        split <;> exact ⟨by decide, by decide⟩
      exact (hline.append (inLine_printNode node depth h.1)).append
        (inLine_printChildren children depth h.2)

end

theorem inLine_printDocument {nodes : Document} (h : PrintableFrom encoding nodes) :
    InLine (printDocument nodes) := by
  induction nodes generalizing encoding with
  | nil => exact ⟨by simp [printDocument], by simp [printDocument]⟩
  | cons node nodes ih =>
      have hline : InLine (ascii "\n") := ⟨by decide, by decide⟩
      exact ((inLine_printNode node 0 h.1).append hline).append (ih h.2.2)

end InLine

/-- A file without a zero byte and a carriage return is parsed as it is. -/
theorem loadFile_of_inLine {text : Bytes} (hne : text ≠ []) (h : InLine text) :
    loadFile text = parse text := by
  rw [loadFile, if_neg hne, h.cStr_eq, normaliseLines_eq h.2]

theorem loadFile_print {nodes : Document} (h : Survives nodes) :
    loadFile (printDocument nodes) = .ok (withoutEmptyTexts nodes) := by
  have hne : printDocument nodes ≠ [] := by
    intro hempty
    have hlength := length_le_printDocument nodes
    rw [hempty, List.length_nil, Nat.le_zero, List.length_eq_zero_iff] at hlength
    exact h.nonempty hlength
  rw [loadFile_of_inLine hne (inLine_printDocument h.nodes), parse_print h]

theorem printableFrom_withoutEmptyTexts {encoding : XmlEncoding} {nodes : Document}
    (h : PrintableFrom encoding nodes) : PrintableFrom encoding (withoutEmptyTexts nodes) := by
  induction nodes generalizing encoding with
  | nil => trivial
  | cons node nodes ih =>
      rw [withoutEmptyTexts_cons h.1.ne_empty]
      refine ⟨printable_withoutEmptyText node h.1, ?_, ?_⟩
      · rw [isText_withoutEmptyText, h.2.1]
      · rw [nextEncoding_withoutEmptyText]
        exact ih h.2.2

/-- What came back survives again. -/
theorem Survives.withoutEmptyTexts {nodes : Document} (h : Survives nodes) :
    Survives (withoutEmptyTexts nodes) := by
  refine ⟨?_, printableFrom_withoutEmptyTexts h.nodes⟩
  obtain ⟨node, rest, rfl⟩ := List.exists_cons_of_ne_nil h.nonempty
  rw [withoutEmptyTexts_cons h.nodes.1.ne_empty]
  simp

/-- Printing and reading a document loses the texts without characters and nothing else, in
memory or by way of a file; what is left comes back as it is. -/
theorem document_round_trip {nodes : Document} (h : Survives nodes) :
    parse (printDocument nodes) = .ok (withoutEmptyTexts nodes) ∧
      loadFile (printDocument nodes) = .ok (withoutEmptyTexts nodes) ∧
      parse (printDocument (withoutEmptyTexts nodes)) = .ok (withoutEmptyTexts nodes) := by
  have hagain := parse_print h.withoutEmptyTexts
  rw [withoutEmptyTexts_idem] at hagain
  exact ⟨parse_print h, loadFile_print h, hagain⟩

/-- A document with nodes of every kind. -/
def nestedDocument : Document :=
  [.declaration (ascii "1.0") (ascii "UTF-8") (ascii "yes"), .comment (ascii " a - b -"),
    .unknown (ascii "!DOCTYPE a"),
    .element (ascii "a") [(ascii "b", ascii "x<y & \"z\""), (ascii "b:c", [])]
      [.text (ascii "two 'words'"), .element (ascii "c") [] [.text []], .comment [],
        .element (ascii "d.e") [] [.text (ascii "&#38;")]]]

theorem survives_nestedDocument : Survives nestedDocument := by
  have hname : ∀ name ∈ [ascii "a", ascii "b", ascii "b:c", ascii "c", ascii "d.e"],
      IsName .utf8 name := by
    have hall : ∀ name ∈ [ascii "a", ascii "b", ascii "b:c", ascii "c", ascii "d.e"],
        name.head?.any isNameStart = true ∧ name.all isNameChar = true ∧
          name.head? ≠ some 0xef := by decide
    exact fun name h => isName_of_letters (hall name h).1 (hall name h).2.1 (hall name h).2.2
  have hreadable : ∀ v ∈ [ascii "two 'words'", ascii "&#38;"], ReadableText .utf8 v := by
    have hall : ∀ v ∈ [ascii "two 'words'", ascii "&#38;"],
        (∀ c ∈ v, charLength .utf8 c = 1) ∧ ¬ascii "&#x" <:+: v ∧ blank v = false ∧
          (v.IsChain fun a b => a ≠ 32 ∨ b ≠ 32) ∧ v.head? ≠ some 32 ∧ v.getLast? ≠ some 32 ∧
            v.head? ≠ some 0xef := by decide +kernel
    exact fun v hv => readableText_of_single (hall v hv)
  have hfield : ∀ v ∈ [ascii "1.0", ascii "UTF-8", ascii "yes"], IsField .unknown v := by
    have hall : ∀ v ∈ [ascii "1.0", ascii "UTF-8", ascii "yes"],
        (∀ c ∈ v, charLength .unknown c = 1) ∧ ∀ c ∈ v, Plain c := by decide +kernel
    exact fun v hv => ⟨aligned_of_single (hall v hv).1, (hall v hv).2⟩
  have hcomment : IsComment (ascii " a - b -") ∧ IsComment [] :=
    ⟨⟨⟨by decide, by decide⟩, by decide⟩, ⟨by simp [InLine], by decide⟩⟩
  have hunknown : IsUnknown (ascii "!DOCTYPE a") :=
    ⟨⟨by decide, by decide⟩, by decide, 33, 68, ascii "OCTYPE a", rfl, .inl (by decide)⟩
  have hvalue : Writable .utf8 (ascii "b", ascii "x<y & \"z\"") :=
    ⟨hname _ (by decide), aligned_of_single (by decide +kernel), by unfold Unreferenced; decide⟩
  have hempty : Writable .utf8 (ascii "b:c", []) :=
    ⟨hname _ (by decide), .nil, unreferenced_of_not_mem (by decide)⟩
  have hutf8 : nextEncoding .unknown (.declaration (ascii "1.0") (ascii "UTF-8") (ascii "yes")) =
      .utf8 := rfl
  refine ⟨by simp [nestedDocument], ⟨hfield _ (by decide), hfield _ (by decide),
    hfield _ (by decide)⟩, rfl, ?_⟩
  rw [hutf8]
  refine ⟨hcomment.1, rfl, hunknown, rfl,
    ⟨hname _ (by decide), ?_, by decide, .inr ⟨?_, ?_⟩⟩, rfl, trivial⟩
  · simp only [List.forall_mem_cons, List.not_mem_nil, false_implies, implies_true, and_true]
    exact ⟨hvalue, hempty⟩
  · refine ⟨hreadable _ (by decide), ⟨hname _ (by decide), by simp, by simp, .inl rfl⟩,
      hcomment.2, ⟨hname _ (by decide), by simp, by simp,
      .inr ⟨⟨hreadable _ (by decide), trivial⟩, List.isChain_singleton _⟩⟩, trivial⟩
  · simp [Apart, isText]

theorem document_round_trip_nested :
    parse (printDocument nestedDocument) = .ok (withoutEmptyTexts nestedDocument) ∧
      loadFile (printDocument nestedDocument) = .ok (withoutEmptyTexts nestedDocument) ∧
      parse (printDocument (withoutEmptyTexts nestedDocument)) =
        .ok (withoutEmptyTexts nestedDocument) :=
  document_round_trip survives_nestedDocument

end LibWfut.TinyXml
