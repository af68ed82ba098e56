import LibWfut.Verification.Xml.Tags

/-! # Any text

What the parser makes of a text that nobody printed: it ends, it reads nothing behind the
text, and what it accepts is well formed. -/

namespace LibWfut.TinyXml

open Scan

/-! ## How parsing can fail -/

/-- No sequence is cut off by the end of the text. -/
def Complete (p : Bytes) : Prop :=
  ∀ c s, c :: s <:+ p → utf8ByteTable c ≤ s.length + 1

/-- There is no declaration in the text, or it does not end with what is passed over as white
space. -/
def Ended (p : Bytes) : Prop :=
  ¬ascii "<?" <:+: p ∨ ∀ encoding s, s ≠ [] → s <:+ p → skipWhiteSpace encoding s ≠ []

/-- The failures that a text allows. -/
def Fails (p : Bytes) (e : Failure) : Prop :=
  e = .error ∨ e = .assertion ∧ ¬Ended p ∨ e = .overrun ∧ ¬Complete p

theorem complete_of_single {p : Bytes} (h : ∀ c ∈ p, utf8ByteTable c = 1) : Complete p := by
  intro c s hs
  rw [h c (hs.subset (List.mem_cons_self ..))]
  omega

theorem Complete.of_suffix {s p : Bytes} (h : Complete p) (hs : s <:+ p) : Complete s :=
  fun c t ht => h c t (ht.trans hs)

/-! ## Characters and texts -/

section Texts

variable {encoding : XmlEncoding} {whole : Bytes}

theorem skipWhiteSpace_suffix (encoding : XmlEncoding) (p : Bytes) :
    skipWhiteSpace encoding p <:+ p := by
  fun_induction skipWhiteSpace encoding p with
  | case1 a b c rest h ih =>
      exact ih.trans ⟨[a, b, c], rfl⟩
  | case2 a b c rest h hspace ih => exact ih.trans (List.suffix_cons ..)
  | case3 a b c rest h hspace => exact List.suffix_rfl
  | case4 a rest h hspace ih => exact ih.trans (List.suffix_cons ..)
  | case5 a rest h hspace => exact List.suffix_rfl
  | case6 => exact List.suffix_rfl

theorem skipWhiteSpace_not_space (encoding : XmlEncoding) (p : Bytes) {c : UInt8} {rest : Bytes}
    (h : skipWhiteSpace encoding p = c :: rest) : isWhiteSpace c = false := by
  fun_induction skipWhiteSpace encoding p with
  | case1 a b d rest' hm ih => exact ih h
  | case2 a b d rest' hm hspace ih => exact ih h
  | case3 a b d rest' hm hspace =>
      rw [List.cons.injEq] at h
      rw [← h.1]
      simpa using hspace
  | case4 a rest' hm hspace ih => exact ih h
  | case5 a rest' hm hspace =>
      rw [List.cons.injEq] at h
      rw [← h.1]
      simpa using hspace
  | case6 => simp at h

theorem readName_suffix (p : Bytes) : (readName p).2 <:+ p := by
  unfold readName
  split
  · exact List.suffix_rfl
  · split
    · exact List.dropWhile_suffix _
    · exact List.nil_suffix

theorem characterReference_suffix (base : UInt32) (digit : UInt8 → Option UInt32) (mark : UInt8)
    (p : Bytes) : (characterReference encoding base digit mark p).2 <:+ p := by
  have hdrop : p.dropWhile (· ≠ 59) <:+ p := List.dropWhile_suffix _
  unfold characterReference
  split
  · exact List.nil_suffix
  · rename_i rest heq
    rw [heq] at hdrop
    simp only
    split
    · exact List.nil_suffix
    · exact (List.suffix_cons ..).trans hdrop

theorem getEntity_suffix (c : UInt8) (p : Bytes) : (getEntity encoding (c :: p)).2 <:+ p := by
  unfold getEntity
  split
  · rename_i rest heq
    obtain ⟨-, rfl⟩ := List.cons.inj heq
    split
    · exact List.nil_suffix
    · exact (characterReference_suffix ..).trans ⟨[35, 120], rfl⟩
  · rename_i d rest hx heq
    obtain ⟨-, rfl⟩ := List.cons.inj heq
    exact (characterReference_suffix ..).trans ⟨[35], rfl⟩
  · split
    · rename_i e he
      have hlength : 0 < e.1.length := by
        have hall : ∀ e ∈ entities, 0 < e.1.length := by decide
        exact hall e (List.mem_of_find?_eq_some he)
      obtain ⟨n, hn⟩ := Nat.exists_eq_add_of_lt hlength
      rw [hn, Nat.zero_add, List.drop_succ_cons]
      exact List.drop_suffix ..
    · exact List.suffix_rfl

/-- A character is taken, unless its sequence is cut off. -/
theorem getChar_returns (c : UInt8) (p : Bytes) :
    (∃ text rest, getChar encoding (c :: p) = .ok (text, rest) ∧ rest <:+ p) ∨
      getChar encoding (c :: p) = .error .overrun ∧ ¬Complete (c :: p) := by
  have hbytes : charLength encoding c ≤ utf8ByteTable c ∧ 1 ≤ charLength encoding c := by
    have hall : ∀ c : UInt8, 1 ≤ utf8ByteTable c := forall_byte (by decide +kernel)
    have hc := hall c
    unfold charLength
    split <;> omega
  rw [getChar]
  by_cases hone : charLength encoding c = 1
  · rw [if_pos hone]
    by_cases hamp : c = 38
    · subst hamp
      exact .inl ⟨_, _, rfl, getEntity_suffix 38 p⟩
    · rw [if_neg hamp]
      exact .inl ⟨_, _, rfl, List.suffix_rfl⟩
  · rw [if_neg hone]
    by_cases hlength : (c :: p).length < charLength encoding c
    · rw [if_pos hlength]
      refine .inr ⟨rfl, fun h => ?_⟩
      have hc := h c p List.suffix_rfl
      rw [List.length_cons] at hlength
      omega
    · rw [if_neg hlength]
      obtain ⟨n, hn⟩ := Nat.exists_eq_add_of_le hbytes.2
      refine .inl ⟨_, _, rfl, ?_⟩
      rw [hn, Nat.add_comm, List.drop_succ_cons]
      exact List.drop_suffix ..

/-- What is left behind a text: nothing, or the end tag is next. -/
def AtTag (endTag p : Bytes) : Prop :=
  p = [] ∨ stringEqual p endTag false = true

/-- A loop over characters ends at its end tag, or runs over the end of the text. -/
def ReadsUpTo (whole endTag p : Bytes) (x : Except Failure (Bytes × Bytes)) : Prop :=
  (∃ text rest, x = .ok (text, rest) ∧ rest <:+ p ∧ AtTag endTag rest) ∨
    x = .error .overrun ∧ ¬Complete whole

theorem ReadsUpTo.of_suffix {endTag s p : Bytes} {x : Except Failure (Bytes × Bytes)}
    (h : ReadsUpTo whole endTag s x) (hs : s <:+ p) : ReadsUpTo whole endTag p x := by
  rcases h with ⟨text, rest, hx, hrest, htag⟩ | hoverrun
  · exact .inl ⟨text, rest, hx, hrest.trans hs, htag⟩
  · exact .inr hoverrun

theorem readKeeping_returns (endTag : Bytes) {fuel : ℕ} (text : Bytes) {p : Bytes}
    (hp : p <:+ whole) (hfuel : p.length < fuel) :
    ReadsUpTo whole endTag p (readKeeping encoding endTag fuel text p) := by
  induction fuel generalizing text p with
  | zero => simp at hfuel
  | succ fuel ih =>
      rw [readKeeping]
      split
      · rename_i htag
        exact .inl ⟨text, p, rfl, List.suffix_rfl, htag⟩
      · rename_i htag
        rw [not_or] at htag
        obtain ⟨c, p, rfl⟩ := List.exists_cons_of_ne_nil htag.1
        rcases getChar_returns c p with ⟨piece, rest, heq, hrest⟩ | ⟨heq, hcomplete⟩
        · have hlength := hrest.length_le
          have hsuffix := hrest.trans (List.suffix_cons c p)
          rw [List.length_cons] at hfuel
          rw [heq]
          exact (ih (text ++ piece) (hsuffix.trans hp) (by omega)).of_suffix hsuffix
        · rw [heq]
          exact .inr ⟨rfl, fun h => hcomplete (h.of_suffix hp)⟩

theorem readCondensing_returns (endTag : Bytes) {fuel : ℕ} (whitespace : Bool) (text : Bytes)
    {p : Bytes} (hp : p <:+ whole) (hfuel : p.length < fuel) :
    ReadsUpTo whole endTag p (readCondensing encoding endTag fuel whitespace text p) := by
  induction fuel generalizing whitespace text p with
  | zero => simp at hfuel
  | succ fuel ih =>
      rw [readCondensing]
      split
      · rename_i htag
        exact .inl ⟨text, p, rfl, List.suffix_rfl, htag⟩
      · rename_i htag
        rw [not_or] at htag
        obtain ⟨c, p, rfl⟩ := List.exists_cons_of_ne_nil htag.1
        have hcons := List.suffix_cons c p
        rw [List.length_cons] at hfuel
        split
        · exact (ih true text (hcons.trans hp) (by omega)).of_suffix hcons
        · rcases getChar_returns c p with ⟨piece, rest, heq, hrest⟩ | ⟨heq, hcomplete⟩
          · have hlength := hrest.length_le
            have hsuffix := hrest.trans hcons
            rw [heq]
            exact (ih false _ (hsuffix.trans hp) (by omega)).of_suffix hsuffix
          · rw [heq]
            exact .inr ⟨rfl, fun h => hcomplete (h.of_suffix hp)⟩

theorem readText_returns (trim : Bool) (endTag : Bytes) {p : Bytes} (hp : p <:+ whole) :
    Returns (Fails whole) (fun _ => True) p (readText encoding trim endTag p) := by
  have hend : ∀ x, ReadsUpTo whole endTag p x → Returns (Fails whole) (fun _ : Bytes => True) p
      (x >>= fun r => .ok (r.1, r.2.drop endTag.length)) := by
    rintro x (⟨text, rest, rfl, hrest, -⟩ | ⟨rfl, hcomplete⟩)
    · exact .ok trivial ((List.drop_suffix ..).trans hrest)
    · exact .error (.inr (.inr ⟨rfl, hcomplete⟩))
  cases trim with
  | true =>
      have hskip := skipWhiteSpace_suffix encoding p
      exact hend _ ((readCondensing_returns endTag false [] (hskip.trans hp)
        (Nat.lt_succ_self _)).of_suffix hskip)
  | false => exact hend _ (readKeeping_returns endTag [] hp (Nat.lt_succ_self _))

theorem suffix_of_cons {c d : UInt8} {s p : Bytes} (h : c :: s <:+ d :: p) : s <:+ p := by
  rcases List.suffix_cons_iff.mp h with heq | hs
  · rw [(List.cons.inj heq).2]
  · exact (List.suffix_cons ..).trans hs

/-- A text ends at the next tag, or at the end of everything. -/
theorem parseText_returns {c : UInt8} (hc : c ≠ 60) {p : Bytes} (hp : c :: p <:+ whole) :
    Returns (Fails whole) (fun _ => True) p (parseText encoding (c :: p)) := by
  have hskip := skipWhiteSpace_suffix encoding (c :: p)
  have hread := (@readCondensing_returns encoding _ (ascii "<") _ false [] _
    (hskip.trans hp) (Nat.lt_succ_self _)).of_suffix hskip
  rcases hread with ⟨text, rest, heq, hrest, htag⟩ | ⟨heq, hcomplete⟩
  · have hparse : parseText encoding (c :: p) =
        .ok (text, if rest.drop 1 = [] then [] else 60 :: rest.drop 1) := by
      simp only [parseText, readText, if_true, heq]
      rfl
    rw [hparse]
    refine .ok trivial ?_
    split
    · exact List.nil_suffix
    · rename_i hne
      rcases htag with rfl | htag
      · simp at hne
      · obtain ⟨tail, rfl⟩ := List.isPrefixOf_iff_prefix.mp htag
        rcases List.suffix_cons_iff.mp hrest with hsame | hrest
        · exact absurd (List.cons.inj hsame).1.symm hc
        · exact hrest
  · have hparse : parseText encoding (c :: p) = .error .overrun := by
      simp only [parseText, readText, if_true, heq]
      rfl
    rw [hparse]
    exact .error (.inr (.inr ⟨rfl, hcomplete⟩))

end Texts

/-! ## Attributes and tags -/

/-- The name of an element or of an attribute. -/
structure Named (name : Bytes) : Prop where
  first : name.head?.any isNameStart = true
  letters : name.all isNameChar = true

section Attributes

variable {encoding : XmlEncoding} {whole : Bytes}

theorem named_readName {p : Bytes} (h : (readName p).2 ≠ []) : Named (readName p).1 := by
  unfold readName at h ⊢
  split at h
  · simp at h
  · rename_i c rest
    by_cases hc : isNameStart c = true
    · rw [if_pos hc] at h ⊢
      have htake : (c :: rest).takeWhile isNameChar = c :: rest.takeWhile isNameChar :=
        List.takeWhile_cons_of_pos (isNameChar_of_isNameStart hc)
      refine ⟨?_, List.all_takeWhile⟩
      simp [htake, hc]
    · rw [if_neg hc] at h
      simp at h

theorem readUnquoted_suffix (value p : Bytes) : (readUnquoted value p).2 <:+ p := by
  fun_induction readUnquoted value p with
  | case1 value => exact List.suffix_rfl
  | case2 value c rest h => exact List.suffix_rfl
  | case3 value c rest h hquote => exact List.nil_suffix
  | case4 value c rest h hquote ih => exact ih.trans (List.suffix_cons ..)

/-- An attribute takes at least one byte, and it has a name where the text goes on. -/
theorem parseAttribute_returns (c : UInt8) {p : Bytes} (hp : c :: p <:+ whole) :
    (∃ name value rest, parseAttribute encoding (c :: p) = .ok (name, value, rest) ∧
      rest <:+ p ∧ (rest ≠ [] → Named name)) ∨
      ∃ e, parseAttribute encoding (c :: p) = .error e ∧ Fails whole e := by
  have hname := readName_suffix (skipWhiteSpace encoding (c :: p))
  have hskip := skipWhiteSpace_suffix encoding (readName (skipWhiteSpace encoding (c :: p))).2
  have hsuffix := hskip.trans (hname.trans (skipWhiteSpace_suffix encoding (c :: p)))
  unfold parseAttribute
  simp only
  split
  · rename_i q heq
    have hnamed : Named (readName (skipWhiteSpace encoding (c :: p))).1 := by
      apply named_readName
      intro hnil
      rw [hnil] at heq
      simp [skipWhiteSpace] at heq
    rw [heq] at hsuffix
    have hq : q <:+ p := suffix_of_cons hsuffix
    have hwhole : q <:+ whole := (hq.trans (List.suffix_cons c p)).trans hp
    -- All that matters of the value is where it ends.
    have hthen : ∀ x, Returns (Fails whole) (fun _ : Bytes => True) q x → ∀ name, Named name →
        (∃ name' value rest, (x >>= fun r => .ok (name, r.1, r.2)) = .ok (name', value, rest) ∧
          rest <:+ p ∧ (rest ≠ [] → Named name')) ∨
          ∃ e, (x >>= fun r => .ok (name, r.1, r.2) : Except Failure (Bytes × Bytes × Bytes)) =
            .error e ∧ Fails whole e := by
      intro x hx name hnamed
      cases hx with
      | ok hgood hrest => exact .inl ⟨_, _, _, rfl, hrest.trans hq, fun _ => hnamed⟩
      | error he => exact .inr ⟨_, rfl, he⟩
    have hvalue := skipWhiteSpace_suffix encoding q
    split
    · rename_i r hr
      rw [hr] at hvalue
      have hr' := (List.suffix_cons ..).trans hvalue
      exact hthen _ ((readText_returns false _ (hr'.trans hwhole)).of_suffix hr') _ hnamed
    · rename_i r hr
      rw [hr] at hvalue
      have hr' := (List.suffix_cons ..).trans hvalue
      exact hthen _ ((readText_returns false _ (hr'.trans hwhole)).of_suffix hr') _ hnamed
    · exact hthen (.ok _) (.ok trivial ((readUnquoted_suffix ..).trans hvalue)) _ hnamed
  · exact .inl ⟨_, _, _, rfl, List.nil_suffix, fun h => absurd rfl h⟩

end Attributes

/-! ## Nodes -/

mutual

/-- What the parser promises of every node that it makes. -/
def WellFormed : XmlNode → Prop
  | .element value attributes children =>
    Named value ∧ (∀ a ∈ attributes, Named a.1) ∧ (attributes.map Prod.fst).Nodup ∧
      WellFormedAll children
  | .comment value => ¬ascii "-->" <:+: value
  | .text _ => True
  | .declaration version enc standalone => 0 ∉ version ∧ 0 ∉ enc ∧ 0 ∉ standalone
  | .unknown value => 62 ∉ value

def WellFormedAll : List XmlNode → Prop
  | [] => True
  | node :: rest => WellFormed node ∧ WellFormedAll rest

end

theorem nil_wellFormed : WellFormedAll [] :=
  trivial

theorem wellFormedAll_append {nodes nodes' : List XmlNode} :
    WellFormedAll (nodes ++ nodes') ↔ WellFormedAll nodes ∧ WellFormedAll nodes' := by
  induction nodes with
  | nil => simp [WellFormedAll]
  | cons n nodes ih => simp [WellFormedAll, ih, and_assoc]

theorem WellFormedAll.concat {nodes : List XmlNode} {node : XmlNode} (h : WellFormedAll nodes)
    (hnode : WellFormed node) : WellFormedAll (nodes ++ [node]) :=
  wellFormedAll_append.mpr ⟨h, hnode, trivial⟩

/-- The fields of a declaration are C strings. -/
def Declaration.Strings (d : Declaration) : Prop :=
  0 ∉ d.version ∧ 0 ∉ d.encoding ∧ 0 ∉ d.standalone

section Nodes

variable {encoding : XmlEncoding} {whole : Bytes} {readValue : ValueReader}

/-- A node that is taken as it is takes its start tag, and its end tag is not inside. -/
theorem parseRaw_returns {startTag endTag : Bytes} (hstart : startTag ≠ []) (hend : endTag ≠ [])
    (make : Bytes → XmlNode) (hmake : ∀ v, ¬endTag <:+: v → WellFormed (make v)) (c : UInt8)
    (p : Bytes) :
    Returns (Fails whole) WellFormed p
      (.ok ((parseRaw startTag endTag (c :: p)).map make id)) := by
  obtain ⟨d, startTag, rfl⟩ := List.exists_cons_of_ne_nil hstart
  have hdrop : (c :: p).drop (d :: startTag).length <:+ p := List.drop_suffix startTag.length p
  exact .ok (hmake _ (Scan.not_infix_upTo hend _))
    ((List.drop_suffix ..).trans ((Scan.upTo_suffix ..).trans hdrop))

/-- The loop of a declaration ends, and it fails only with the assertion about the text behind
white space. -/
theorem readDeclaration_returns (hdecl : ascii "<?" <:+: whole) {fuel : ℕ} {d : Declaration}
    (hd : d.Strings) {p : Bytes} (hp : p <:+ whole) (hfuel : p.length < fuel) :
    Returns (Fails whole) Declaration.Strings p (readDeclaration encoding fuel d p) := by
  induction fuel generalizing d p with
  | zero => simp at hfuel
  | succ fuel ih =>
      obtain ⟨hversion, henc, hstandalone⟩ := hd
      match p with
      | [] => exact .ok ⟨hversion, henc, hstandalone⟩ List.suffix_rfl
      | c :: rest =>
          rw [readDeclaration]
          split
          · exact .ok ⟨hversion, henc, hstandalone⟩ (List.suffix_cons ..)
          · rename_i hc
            have hskip := skipWhiteSpace_suffix encoding (c :: rest)
            cases hq : skipWhiteSpace encoding (c :: rest) with
            | nil =>
                refine .error (.inr (.inl ⟨rfl, ?_⟩))
                rintro (hnone | hend)
                · exact hnone hdecl
                · exact hend encoding (c :: rest) (by simp) hp hq
            | cons e q =>
                rw [hq] at hskip
                have hsub : q <:+ rest := suffix_of_cons hskip
                have hcons := List.suffix_cons c rest
                have hwhole : e :: q <:+ whole := hskip.trans hp
                -- Every way on takes at least one byte.
                have hon : ∀ {d : Declaration} {p : Bytes}, p <:+ rest → d.Strings →
                    Returns (Fails whole) Declaration.Strings (c :: rest)
                      (readDeclaration encoding fuel d p) := by
                  intro d p hpr hd
                  have hlength := hpr.length_le
                  rw [List.length_cons] at hfuel
                  exact (ih hd (hpr.trans (hcons.trans hp)) (by omega)).of_suffix
                    (hpr.trans hcons)
                have hattr : ∀ update : Bytes → Declaration, (∀ v, (update v).Strings) →
                    Returns (Fails whole) Declaration.Strings (c :: rest)
                      (parseAttribute encoding (e :: q) >>= fun r =>
                        readDeclaration encoding fuel (update r.2.1) r.2.2) := by
                  intro update hupdate
                  rcases @parseAttribute_returns encoding _ e _ hwhole with
                    ⟨name, value, r, heq, hr, -⟩ | ⟨err, heq, herr⟩
                  · rw [heq]
                    exact hon (hr.trans hsub) (hupdate value)
                  · rw [heq]
                    exact .error herr
                simp only [reduceCtorEq, if_false]
                split
                · exact hattr (fun v => { d with version := cStr v }) fun v =>
                    ⟨not_mem_cStr v, henc, hstandalone⟩
                · split
                  · exact hattr (fun v => { d with encoding := cStr v }) fun v =>
                      ⟨hversion, not_mem_cStr v, hstandalone⟩
                  · split
                    · exact hattr (fun v => { d with standalone := cStr v }) fun v =>
                        ⟨hversion, henc, not_mem_cStr v⟩
                    · refine hon ?_ ⟨hversion, henc, hstandalone⟩
                      have hspace := skipWhiteSpace_not_space encoding _ hq
                      by_cases he : e = 62
                      · subst he
                        rcases List.suffix_cons_iff.mp hskip with hsame | hskip
                        · exact absurd (List.cons.inj hsame).1.symm hc
                        · simpa using hskip
                      · rw [List.dropWhile_cons_of_pos (by simp [he, hspace])]
                        exact (List.dropWhile_suffix _).trans hsub

theorem readContent_returns {p : Bytes}
    (hread : Returns (Fails whole) WellFormedAll p (readValue p)) {name : Bytes}
    {attributes : Attributes} (hname : Named name) (hattributes : ∀ a ∈ attributes, Named a.1)
    (hnodup : (attributes.map Prod.fst).Nodup) :
    Returns (Fails whole) WellFormed p (readContent readValue encoding name attributes p) := by
  refine hread.bind fun children rest hchildren hrest => ?_
  simp only
  split
  · split
    · rename_i q hq
      have hskip := skipWhiteSpace_suffix encoding (rest.drop (2 + name.length))
      rw [hq] at hskip
      exact .ok ⟨hname, hattributes, hnodup, hchildren⟩
        ((List.suffix_cons ..).trans (hskip.trans (List.drop_suffix ..)))
    · exact .error (.inl rfl)
  · exact .error (.inl rfl)

/-- The loop over the attributes ends; no two of them have one name. -/
theorem readTag_returns {name : Bytes} (hname : Named name) {fuel : ℕ} {attributes : Attributes}
    (hattributes : ∀ a ∈ attributes, Named a.1) (hnodup : (attributes.map Prod.fst).Nodup)
    {p : Bytes} (hp : p <:+ whole)
    (hread : ∀ q, q <:+ p → Returns (Fails whole) WellFormedAll q (readValue q))
    (hfuel : p.length < fuel) :
    Returns (Fails whole) WellFormed p (readTag readValue encoding name fuel attributes p) := by
  induction fuel generalizing attributes p with
  | zero => simp at hfuel
  | succ fuel ih =>
      have hskip := skipWhiteSpace_suffix encoding p
      rw [readTag]
      split
      · exact .error (.inl rfl)
      · rename_i rest heq
        rw [heq] at hskip
        exact .ok ⟨hname, hattributes, hnodup, trivial⟩
          (((List.suffix_cons ..).trans (List.suffix_cons ..)).trans hskip)
      · exact .error (.inl rfl)
      · rename_i rest heq
        rw [heq] at hskip
        have hrest := (List.suffix_cons ..).trans hskip
        exact (readContent_returns (hread rest hrest) hname hattributes hnodup).of_suffix hrest
      · rename_i c rest _ _ _ heq
        rw [heq] at hskip
        have hlength := hskip.length_le
        rw [List.length_cons] at hlength
        rcases @parseAttribute_returns encoding _ c _ (hskip.trans hp) with
          ⟨attrib, value, q, hattr, hq, hnamed⟩ | ⟨e, hattr, he⟩
        · rw [hattr]
          simp only [Machine.ok_bind]
          split
          · exact .error (.inl rfl)
          · rename_i hnot
            rw [not_or, Option.not_isSome_iff_eq_none, List.lookup_eq_none_iff] at hnot
            have hqp : q <:+ p := (hq.trans (List.suffix_cons ..)).trans hskip
            have hlength' := hq.length_le
            refine (ih ?_ ?_ (hqp.trans hp) (fun r hr => hread r (hr.trans hqp))
              (by omega)).of_suffix hqp
            · intro a ha
              rcases List.mem_append.mp ha with ha | ha
              · exact hattributes a ha
              · rw [List.mem_singleton.mp ha]
                exact hnamed hnot.1
            · rw [List.map_append, List.nodup_append]
              refine ⟨hnodup, by simp, ?_⟩
              intro a ha b hb
              obtain ⟨c, hc, rfl⟩ := List.mem_map.mp ha
              rw [List.map_singleton, List.mem_singleton] at hb
              rw [hb]
              exact Ne.symm (bne_iff_ne.mp (hnot.2 c hc))
        · rw [hattr]
          exact .error he

theorem parseElement_returns (c : UInt8) {p : Bytes} (hp : c :: p <:+ whole)
    (hread : ∀ q, q <:+ p → Returns (Fails whole) WellFormedAll q (readValue q)) :
    Returns (Fails whole) WellFormed p (parseElement readValue encoding (c :: p)) := by
  have hskip := skipWhiteSpace_suffix encoding (c :: p)
  unfold parseElement
  split
  · rename_i q hq
    rw [hq] at hskip
    have hqp : q <:+ p := suffix_of_cons hskip
    have hname := named_readName (p := skipWhiteSpace encoding q)
    have hrest := (readName_suffix (skipWhiteSpace encoding q)).trans
      (skipWhiteSpace_suffix encoding q)
    split
    · exact .error (.inl rfl)
    · rename_i name r hne hr
      rw [hr] at hname hrest
      have hrp := hrest.trans hqp
      have hwhole := (hrp.trans (List.suffix_cons ..)).trans hp
      exact (readTag_returns (hname hne) (by simp) (by simp) hwhole
        (fun s hs => hread s (hs.trans hrp)) (Nat.lt_succ_self _)).of_suffix hrp
  · exact .error (.inl rfl)

theorem identify_lt {p : Bytes} {kind : NodeKind} (h : identify encoding p = some kind) :
    ∃ q, skipWhiteSpace encoding p = 60 :: q := by
  unfold identify at h
  simp only at h
  split at h
  · simp at h
  · rename_i hhead
    rw [not_not] at hhead
    exact ⟨_, (List.eq_cons_of_mem_head? hhead)⟩

theorem infix_of_identify {p : Bytes} (h : identify encoding (60 :: p) = some .declaration) :
    ascii "<?" <:+: 60 :: p := by
  have hlower : ∀ c : UInt8, 63 = toLower c → 63 = c := forall_byte (by decide +kernel)
  have hlt : skipWhiteSpace encoding (60 :: p) = 60 :: p :=
    skipWhiteSpace_head (by decide) (by decide)
  have htag : (ascii "<?xml").map toLower = [60, 63, 120, 109, 108] := by decide
  unfold identify at h
  simp only [hlt, List.head?_cons, ne_eq, not_true_eq_false, if_false] at h
  split at h
  · rename_i hpre
    rw [stringEqual, if_pos rfl, htag, List.isPrefixOf_iff_prefix] at hpre
    cases p with
    | nil => simp at hpre
    | cons c p =>
        simp only [List.map_cons, List.cons_prefix_cons] at hpre
        rw [← hlower c hpre.2.1]
        exact (List.prefix_append [60, 63] p).isInfix
  · grind

theorem parseNode_returns {kind : NodeKind} {p : Bytes} (hp : 60 :: p <:+ whole)
    (hkind : identify encoding (60 :: p) = some kind)
    (hread : ∀ q, q <:+ p → Returns (Fails whole) WellFormedAll q (readValue q)) :
    Returns (Fails whole) WellFormed p (parseNode readValue encoding kind (60 :: p)) := by
  have hlt : skipWhiteSpace encoding (60 :: p) = 60 :: p :=
    skipWhiteSpace_head (by decide) (by decide)
  cases kind with
  | declaration =>
      have hdecl := (infix_of_identify hkind).trans hp.isInfix
      have hdrop : (skipWhiteSpace encoding (60 :: p)).drop 5 <:+ p := by
        rw [hlt]
        exact List.drop_suffix 4 p
      have hd : Declaration.Strings {} := ⟨by simp, by simp, by simp⟩
      exact Returns.bind ((readDeclaration_returns hdecl hd
        ((hdrop.trans (List.suffix_cons ..)).trans hp) (Nat.lt_succ_self _)).of_suffix hdrop)
        fun d rest hd hrest => .ok hd List.suffix_rfl
  | comment =>
      rw [parseNode, parseComment, hlt]
      exact parseRaw_returns (by decide) (by decide) .comment (fun v hv => hv) 60 p
  | cdata => exact parseRaw_returns (by decide) (by decide) .text (fun _ _ => trivial) 60 p
  | unknown =>
      rw [parseNode, parseUnknown, hlt]
      exact parseRaw_returns (by decide) (by decide) .unknown
        (fun v hv hm => hv ((List.singleton_infix_iff 62 v).mpr hm)) 60 p
  | element => exact parseElement_returns 60 hp hread

end Nodes

/-! ## Documents -/

section Documents

variable {encoding : XmlEncoding} {whole : Bytes}

/-- Fuel for every byte is enough for the children of an element. -/
theorem readValue_returns {fuel : ℕ} {children : List XmlNode} (hchildren : WellFormedAll children)
    {p : Bytes} (hp : p <:+ whole) (hfuel : p.length < fuel) :
    Returns (Fails whole) WellFormedAll p (readValue encoding fuel children p) := by
  induction fuel generalizing children p with
  | zero => simp at hfuel
  | succ fuel ih =>
      have hskip := skipWhiteSpace_suffix encoding p
      rw [readValue]
      split
      · exact .ok hchildren List.nil_suffix
      · rename_i q hq
        rw [hq] at hskip
        have hlength := hskip.length_le
        rw [List.length_cons] at hlength
        have hqp : q <:+ p := (List.suffix_cons ..).trans hskip
        split
        · exact .ok hchildren hskip
        · split
          · exact .ok hchildren List.nil_suffix
          · rename_i kind hkind
            have hread : ∀ r, r <:+ q →
                Returns (Fails whole) WellFormedAll r (readValue encoding fuel [] r) := by
              intro r hr
              have hrlength := hr.length_le
              exact ih nil_wellFormed ((hr.trans hqp).trans hp) (by omega)
            refine ((parseNode_returns (hskip.trans hp) hkind hread).bind ?_).of_suffix hqp
            intro node r hnode hr
            have hrlength := hr.length_le
            exact ih (hchildren.concat hnode) ((hr.trans hqp).trans hp) (by omega)
      · rename_i c q hc hq
        rw [hq] at hskip
        have hlength := hskip.length_le
        rw [List.length_cons] at hlength
        have hqp : q <:+ p := (List.suffix_cons ..).trans hskip
        refine ((parseText_returns hc (hskip.trans hp)).bind ?_).of_suffix hqp
        intro value r _ hr
        have hrlength := hr.length_le
        refine ih ?_ ((hr.trans hqp).trans hp) (by omega)
        split
        · exact hchildren
        · exact hchildren.concat trivial

theorem skipWhiteSpace_idem (encoding : XmlEncoding) (p : Bytes) :
    skipWhiteSpace encoding (skipWhiteSpace encoding p) = skipWhiteSpace encoding p := by
  fun_induction skipWhiteSpace encoding p with
  | case1 a b c rest h ih => exact ih
  | case2 a b c rest h hspace ih => exact ih
  | case3 a b c rest h hspace => rw [skipWhiteSpace, if_neg h, if_neg hspace]
  | case4 a rest h hspace ih => exact ih
  | case5 a rest h hspace =>
      cases rest with
      | nil => simp [skipWhiteSpace, hspace]
      | cons b rest =>
          cases rest with
          | nil => simp [skipWhiteSpace, hspace]
          | cons c rest => exact absurd rfl (h b c rest)
  | case6 => rfl

/-- How the reading of a whole document ends. -/
def Ends (whole : Bytes) (x : Except Failure Document) : Prop :=
  (∃ nodes, x = .ok nodes ∧ WellFormedAll nodes) ∨ ∃ e, x = .error e ∧ Fails whole e

theorem readDocument_ends {fuel : ℕ} {nodes : Document} (hnodes : WellFormedAll nodes) {p : Bytes}
    (hskip : skipWhiteSpace encoding p = p) (hp : p <:+ whole) (hfuel : p.length < fuel) :
    Ends whole (readDocument fuel encoding nodes p) := by
  induction fuel generalizing encoding nodes p with
  | zero => simp at hfuel
  | succ fuel ih =>
      rw [readDocument]
      split
      · exact .inl ⟨nodes, rfl, hnodes⟩
      · split
        · exact .inl ⟨nodes, rfl, hnodes⟩
        · rename_i kind hkind
          obtain ⟨q, hq⟩ := identify_lt hkind
          rw [hskip] at hq
          subst hq
          have hread : ∀ r, r <:+ q → Returns (Fails whole) WellFormedAll r
              (readValue encoding ((60 :: q).length + 1) [] r) := by
            intro r hr
            have hrlength := hr.length_le
            have hr' := hr.trans (List.suffix_cons 60 q)
            exact readValue_returns nil_wellFormed (hr'.trans hp)
              (by rw [List.length_cons]; omega)
          have hnode := parseNode_returns hp hkind hread
          rcases hnode.cases with ⟨e, he, hfails⟩ | ⟨node, r, hr, hnode, hrest⟩
          · rw [he]
            exact .inr ⟨e, rfl, hfails⟩
          · rw [hr]
            have hlength := hrest.length_le
            have hskipr := skipWhiteSpace_suffix (nextEncoding encoding node) r
            have hlength' := hskipr.length_le
            rw [List.length_cons] at hfuel
            exact ih (hnodes.concat hnode) (skipWhiteSpace_idem _ r)
              ((hskipr.trans (hrest.trans (List.suffix_cons ..))).trans hp) (by omega)

theorem parse_eq {text : Bytes} (h : text ≠ []) : ∃ encoding, parse text =
    (readDocument (text.length + 1) encoding [] (skipWhiteSpace encoding text) >>= fun nodes =>
      if nodes = [] then .error .error else .ok nodes) :=
  ⟨_, if_neg h⟩

theorem parse_ends (text : Bytes) :
    (∃ nodes, parse text = .ok nodes ∧ nodes ≠ [] ∧ WellFormedAll nodes) ∨
      ∃ e, parse text = .error e ∧ Fails text e := by
  by_cases hempty : text = []
  · exact .inr ⟨.error, if_pos hempty, .inl rfl⟩
  · obtain ⟨encoding, hparse⟩ := parse_eq hempty
    have hskip := skipWhiteSpace_suffix encoding text
    have hfuel := Nat.lt_succ_of_le hskip.length_le
    rw [hparse]
    rcases readDocument_ends nil_wellFormed (skipWhiteSpace_idem encoding text) hskip hfuel with
      ⟨nodes, heq, hnodes⟩ | ⟨e, heq, he⟩
    · rw [heq]
      by_cases hnil : nodes = []
      · exact .inr ⟨.error, if_pos hnil, .inl rfl⟩
      · exact .inl ⟨nodes, if_neg hnil, hnil, hnodes⟩
    · rw [heq]
      exact .inr ⟨e, rfl, he⟩

/-- On a text that cuts off no sequence parsing ends and stays inside the text. It fails no
assertion on a text with no declaration or with something behind its last white space, and what
it accepts is well formed. -/
theorem parse_safe (text : Bytes) :
    (Complete text → parse text ≠ .error .outOfFuel ∧ parse text ≠ .error .overrun) ∧
      (Ended text → parse text ≠ .error .assertion) ∧
      ∀ nodes, parse text = .ok nodes → nodes ≠ [] ∧ WellFormedAll nodes := by
  rcases parse_ends text with ⟨nodes, heq, hne, hnodes⟩ | ⟨e, heq, he⟩
  · rw [heq]
    refine ⟨fun _ => ⟨nofun, nofun⟩, nofun, fun nodes' h => ?_⟩
    cases h
    exact ⟨hne, hnodes⟩
  · rw [heq]
    refine ⟨fun hcomplete => ⟨fun h => ?_, fun h => ?_⟩, fun hcalm h => ?_, nofun⟩ <;> cases h
    · rcases he with h | ⟨h, -⟩ | ⟨h, -⟩ <;> cases h
    · rcases he with h | ⟨h, -⟩ | ⟨-, hnot⟩
      · cases h
      · cases h
      · exact hnot hcomplete
    · rcases he with h | ⟨-, hnot⟩ | ⟨h, -⟩
      · cases h
      · exact hnot hcalm
      · cases h

end Documents

end LibWfut.TinyXml
