import LibWfut.Verification.FileList.RoundTrip
import LibWfut.Verification.Xml.Trees

/-! # The text of a file list

Saving a file list as a text and reading the text, with TinyXML as it is. -/

namespace LibWfut

open TinyXml

/-! ## TinyXML in the program -/

/-- A reader that gives what TinyXML gives, wherever that comes to an end. -/
structure ReadsAs (read : Bytes → Option Document)
    (tinyXml : Bytes → Except Failure Document) : Prop where
  ok : ∀ text nodes, tinyXml text = .ok nodes → read text = some nodes
  error : ∀ text, tinyXml text = .error .error → read text = none

theorem readsAs_toOption (tinyXml : Bytes → Except Failure Document) :
    ReadsAs (fun text => (tinyXml text).toOption) tinyXml := by
  constructor
  · intro text nodes h
    simp [h, Except.toOption]
  · intro text h
    simp [h, Except.toOption]

/-! ## Copies -/

theorem cStr_cStr (v : Bytes) : cStr (cStr v) = cStr v :=
  cStr_eq_self_iff.mpr (not_mem_cStr v)

theorem cloneAll_eq_map (nodes : List XmlNode) : cloneAll nodes = nodes.map clone := by
  induction nodes with
  | nil => rfl
  | cons n nodes ih => rw [cloneAll, ih, List.map_cons]

theorem setAttribute_new {attributes : Attributes} {name : Bytes}
    (h : name ∉ attributes.map Prod.fst) (value : Bytes) :
    setAttribute attributes name value = attributes ++ [(name, value)] := by
  induction attributes with
  | nil => rfl
  | cons a attributes ih =>
      rw [List.map_cons, List.mem_cons, not_or] at h
      rw [setAttribute, if_neg (Ne.symm h.1), ih h.2, List.cons_append]

/-- Attributes with different names that are C strings are copied as they are. -/
theorem copyAttributes_eq {attributes : Attributes} (hnodup : (attributes.map Prod.fst).Nodup)
    (hnames : ∀ a ∈ attributes, a.1 ≠ []) (hzero : ∀ a ∈ attributes, 0 ∉ a.1 ∧ 0 ∉ a.2) :
    copyAttributes attributes = attributes := by
  have hpassed : passed attributes = attributes := by
    cases attributes with
    | nil => rfl
    | cons a rest =>
        rw [passed, List.takeWhile_eq_self_iff.mpr]
        intro b hb
        simp [hnames b (List.mem_cons_of_mem _ hb)]
  have hfold : ∀ done rest : Attributes, ((done ++ rest).map Prod.fst).Nodup →
      (∀ a ∈ rest, 0 ∉ a.1 ∧ 0 ∉ a.2) →
      rest.foldl (fun copy a => setAttribute copy (cStr a.1) (cStr a.2)) done = done ++ rest := by
    intro done rest hnodup hzero
    induction rest generalizing done with
    | nil => simp
    | cons a rest ih =>
        have ha := hzero a (List.mem_cons_self ..)
        have hnew : a.1 ∉ done.map Prod.fst := by
          intro hm
          rw [List.map_append, List.map_cons, List.nodup_append] at hnodup
          exact hnodup.2.2 a.1 hm a.1 (List.mem_cons_self ..) rfl
        rw [List.foldl_cons, cStr_eq_self_iff.mpr ha.1, cStr_eq_self_iff.mpr ha.2,
          setAttribute_new hnew, ih _ (by simpa using hnodup)
            fun b hb => hzero b (List.mem_cons_of_mem _ hb), List.append_assoc]
        rfl
  rw [copyAttributes, hpassed, hfold [] attributes (by simpa using hnodup) hzero, List.nil_append]

/-! ## File elements -/

/-- The attributes of a file, all of them new. -/
theorem writeFile_eq (f : FileObject) : writeFile [] f =
    [(tagFilename, Encoder.encodeString f.filename),
      (tagVersion, Decimal.ofInt f.version.toInt), (tagCrc32, Decimal.ofInt f.crc32.toNat),
      (tagSize, Decimal.ofInt f.size.toInt),
      (tagExecute, Decimal.ofInt (promoteBool f.execute).toInt)] :=
  rfl

/-- A byte of the attributes of a file. -/
def InFile (c : UInt8) : Prop :=
  c ≠ 0 ∧ c ≠ 38 ∧ charLength .utf8 c = 1

theorem inFile_encodeString {s : Bytes} {c : UInt8} (h : c ∈ Encoder.encodeString s) :
    InFile c := by
  have hall : ∀ c : UInt8, Encoder.isSafe c = true → c ≠ 0 ∧ c ≠ 38 ∧ charLength .utf8 c = 1 :=
    forall_byte (by decide +kernel)
  exact hall c (Encoder.isSafe_of_mem_encodeString h)

theorem inFile_ofInt {z : ℤ} {c : UInt8} (h : c ∈ Decimal.ofInt z) : InFile c := by
  have hdigit : ∀ d < 10, Decimal.digit d ≠ 0 ∧ Decimal.digit d ≠ 38 ∧
      charLength .utf8 (Decimal.digit d) = 1 := by decide
  rcases Decimal.mem_ofInt h with rfl | ⟨d, hd, rfl⟩
  · exact ⟨by decide, by decide, by decide⟩
  · exact hdigit d hd

theorem inFile_of_mem {f : FileObject} {a : Bytes × Bytes} (ha : a ∈ writeFile [] f) {c : UInt8}
    (hc : c ∈ a.2) : InFile c := by
  have hall : ∀ a ∈ writeFile [] f, ∀ c ∈ a.2, InFile c := by
    simp only [writeFile_eq, List.forall_mem_cons, List.not_mem_nil, false_implies, implies_true,
      and_true]
    exact ⟨fun _ => inFile_encodeString, fun _ => inFile_ofInt, fun _ => inFile_ofInt,
      fun _ => inFile_ofInt, fun _ => inFile_ofInt⟩
  exact hall a ha c hc

/-- The names of the attributes of a file. -/
theorem names_writeFile (f : FileObject) : (writeFile [] f).map Prod.fst =
    [tagFilename, tagVersion, tagCrc32, tagSize, tagExecute] :=
  rfl

theorem isName_tag {tag : Bytes} (h : tag ∈ [tagFilename, tagVersion, tagCrc32, tagSize,
    tagExecute, tagFile, tagFilelist, tagDir]) : IsName .utf8 tag := by
  have hall : ∀ tag ∈ [tagFilename, tagVersion, tagCrc32, tagSize, tagExecute, tagFile,
      tagFilelist, tagDir], tag.head?.any isNameStart = true ∧ tag.all isNameChar = true ∧
        tag.head? ≠ some 0xef := by decide
  obtain ⟨hfirst, hletters, hmark⟩ := hall tag h
  exact isName_of_letters hfirst hletters hmark

theorem isName_of_mem {f : FileObject} {a : Bytes × Bytes} (ha : a ∈ writeFile [] f) :
    IsName .utf8 a.1 := by
  have hname := List.mem_map_of_mem (f := Prod.fst) ha
  rw [names_writeFile] at hname
  exact isName_tag (List.mem_append_left [tagFile, tagFilelist, tagDir] hname)

theorem nodup_writeFile (f : FileObject) : ((writeFile [] f).map Prod.fst).Nodup := by
  rw [names_writeFile]
  decide

theorem clone_file (f : FileObject) : clone (.element tagFile (writeFile [] f) []) =
    .element tagFile (writeFile [] f) [] := by
  have hcopy : copyAttributes (writeFile [] f) = writeFile [] f := by
    apply copyAttributes_eq (nodup_writeFile f)
    · exact fun a ha => (isName_of_mem ha).ne_nil
    · intro a ha
      refine ⟨fun h0 => ?_, fun h0 => (inFile_of_mem ha h0).1 rfl⟩
      exact cStr_eq_self_iff.mp (isName_of_mem ha).cStr_eq h0
  have htag : cStr tagFile = tagFile := by decide
  rw [clone, htag, hcopy, cloneAll]

theorem printable_file (f : FileObject) :
    Printable .utf8 (.element tagFile (writeFile [] f) []) := by
  refine ⟨isName_tag (by simp), fun a ha => ?_, nodup_writeFile f,
    .inr ⟨trivial, List.isChain_nil⟩⟩
  exact
    { name := isName_of_mem ha
      aligned := aligned_of_single fun c hc => (inFile_of_mem ha hc).2.2
      unreferenced := unreferenced_of_not_mem fun h => (inFile_of_mem ha h).2.1 rfl }

/-! ## The document -/

/-- The name of a list that its document gives back. -/
structure NameSurvives (l : ChannelFileList) : Prop where
  aligned : Aligned .utf8 (cStr l.name)
  unreferenced : Unreferenced (cStr l.name)

/-- What comes back of a list. -/
def restored (l : ChannelFileList) : ChannelFileList :=
  addFiles (ChannelFileList.empty.setName (cStr l.name)) ((filesOf l).map reread)

/-- The copy that is saved has the name as a C string. -/
theorem cloneAll_fileListDocument (l : ChannelFileList) :
    cloneAll (fileListDocument l) = fileListDocument (l.setName (cStr l.name)) := by
  have hfiles : cloneAll (l.getFiles.toList.map fun e => .element tagFile (writeFile [] e.2) []) =
      l.getFiles.toList.map fun e => .element tagFile (writeFile [] e.2) [] := by
    rw [cloneAll_eq_map, List.map_map]
    exact List.map_congr_left fun e _ => clone_file e.2
  have hroot : cStr tagFilelist = tagFilelist ∧ cStr tagDir = tagDir := by decide
  simp only [fileListDocument, cloneAll, clone, hfiles, hroot.1, ChannelFileList.getName,
    copyAttributes, setAttribute, passed, List.takeWhile_nil, List.foldl_cons, List.foldl_nil,
    hroot.2]
  rfl

theorem survives_fileListDocument {l : ChannelFileList} (haligned : Aligned .utf8 l.name)
    (hunreferenced : Unreferenced l.name) : Survives (fileListDocument l) := by
  have hversion : IsField .unknown (ascii "1.0") :=
    ⟨aligned_of_single (by decide +kernel), by decide +kernel⟩
  have hnone : IsField .unknown [] := ⟨.nil, by simp⟩
  have hutf8 : nextEncoding .unknown (.declaration (ascii "1.0") [] []) = .utf8 := rfl
  refine ⟨by simp [fileListDocument], ⟨hversion, hnone, hnone⟩, rfl, ?_⟩
  rw [hutf8]
  refine ⟨⟨isName_tag (by simp), ?_, by simp [setAttribute], .inr ⟨?_, ?_⟩⟩, rfl, trivial⟩
  · intro a ha
    obtain rfl := List.mem_singleton.mp ha
    exact ⟨isName_tag (by simp), haligned, hunreferenced⟩
  · rw [printableAll_iff]
    intro n hn
    obtain ⟨e, -, rfl⟩ := List.mem_map.mp hn
    exact printable_file e.2
  · apply apart_of_not_text
    intro n hn
    obtain ⟨e, -, rfl⟩ := List.mem_map.mp hn
    rfl

/-- A file list has no texts. -/
theorem withoutEmptyTexts_fileListDocument (l : ChannelFileList) :
    withoutEmptyTexts (fileListDocument l) = fileListDocument l := by
  have hfiles : ∀ files : List (Bytes × FileObject),
      withoutEmptyTexts (files.map fun e => .element tagFile (writeFile [] e.2) []) =
        files.map fun e => .element tagFile (writeFile [] e.2) [] := by
    intro files
    induction files with
    | nil => rfl
    | cons e files ih =>
        rw [List.map_cons, withoutEmptyTexts_cons (by simp), ih]
        rfl
  rw [fileListDocument, withoutEmptyTexts_cons (by simp), withoutEmptyTexts_cons (by simp)]
  simp only [withoutEmptyText, withoutEmptyTexts, hfiles]

/-! ## Saving and reading -/

/-- The text that `writeFileList` saves. -/
def fileListText (l : ChannelFileList) : Bytes :=
  savedText (fileListDocument l)

section Text

variable {l : ChannelFileList}

theorem survives_saved (h : NameSurvives l) :
    Survives (fileListDocument (l.setName (cStr l.name))) :=
  survives_fileListDocument h.aligned h.unreferenced

theorem loadFile_fileListText (h : NameSurvives l) :
    loadFile (fileListText l) = .ok (fileListDocument (l.setName (cStr l.name))) := by
  rw [fileListText, savedText, cloneAll_fileListDocument, loadFile_print (survives_saved h),
    withoutEmptyTexts_fileListDocument]

theorem parse_fileListText (h : NameSurvives l) :
    TinyXml.parse (cStr (fileListText l)) = .ok (fileListDocument (l.setName (cStr l.name))) := by
  have hline := inLine_printDocument (survives_saved h).nodes
  rw [fileListText, savedText, cloneAll_fileListDocument, hline.cStr_eq,
    parse_print (survives_saved h), withoutEmptyTexts_fileListDocument]

theorem filesOf_setName (l : ChannelFileList) (name : Bytes) :
    filesOf (l.setName name) = filesOf l :=
  rfl

theorem parseDocument_saved (uninit : ℕ → FileObject) (l : ChannelFileList) :
    parseDocument uninit (some (fileListDocument (l.setName (cStr l.name)))) .empty =
      .ok (0, restored l) := by
  rw [parseDocument_fileListDocument, ChannelFileList.name_setName, cStr_cStr, filesOf_setName]
  rfl

theorem parseFileList_saved {load : Bytes → Option Document} (hload : ReadsAs load loadFile)
    (uninit : ℕ → FileObject) (h : NameSurvives l) :
    parseFileList load uninit (some (fileListText l)) .empty = .ok (0, restored l) := by
  rw [parseFileList, Option.bind_some, hload.ok _ _ (loadFile_fileListText h),
    parseDocument_saved]

theorem parseFileListXML_saved {parse : Bytes → Option Document}
    (hparse : ReadsAs parse TinyXml.parse) (uninit : ℕ → FileObject) (h : NameSurvives l) :
    parseFileListXML parse uninit (fileListText l) .empty = .ok (0, restored l) := by
  rw [parseFileListXML, hparse.ok _ _ (parse_fileListText h), parseDocument_saved]

end Text

/-! ## What comes back -/

theorem mem_restored {l : ChannelFileList} {f : FileObject} (h : f ∈ filesOf (restored l)) :
    reread f = f := by
  have hmap := mem_filesOf.mp h
  rw [restored, fileMap_addFiles] at hmap
  rcases OrderedMap.mem_of_getElem?_insertAll hmap with ⟨hmem, -⟩ | hempty
  · obtain ⟨g, -, rfl⟩ := List.mem_map.mp hmem
    exact reread_reread g
  · simp [ChannelFileList.empty] at hempty

/-- What came back once comes back as it is. -/
theorem restored_restored (l : ChannelFileList) : restored (restored l) = restored l := by
  have hname : (restored l).name = cStr l.name := name_addFiles ..
  have hsame : (filesOf (restored l)).map reread = filesOf (restored l) :=
    (List.map_congr_left fun f hf => mem_restored hf).trans (List.map_id _)
  rw [restored, hsame, hname, cStr_cStr, ← hname, addFiles_filesOf]

theorem NameSurvives.restored {l : ChannelFileList} (h : NameSurvives l) :
    NameSurvives (restored l) := by
  have hname : (LibWfut.restored l).name = cStr l.name := name_addFiles ..
  constructor
  · rw [hname, cStr_cStr]
    exact h.aligned
  · rw [hname, cStr_cStr]
    exact h.unreferenced

theorem restored_eq_self {l : ChannelFileList} (h : Restorable l) : restored l = l := by
  have hsame : (filesOf l).map reread = filesOf l := by
    refine (List.map_congr_left fun f hf => ?_).trans (List.map_id _)
    have hf' := mem_filesOf.mp hf
    exact reread_eq_self_iff.mpr ⟨h.plain _ f hf', h.legible _ f hf'⟩
  rw [restored, hsame, cStr_eq_self_iff.mpr h.name, addFiles_filesOf]

/-- A saved file list is read back from its text, from a file or a download alike. What comes
back is the list itself where nothing of it is lost, and comes back unchanged from then on. -/
theorem file_list_text {load parse : Bytes → Option Document} (hload : ReadsAs load loadFile)
    (hparse : ReadsAs parse TinyXml.parse) (uninit : ℕ → FileObject) (l : ChannelFileList)
    (h : NameSurvives l) :
    parseFileList load uninit (some (fileListText l)) .empty = .ok (0, restored l) ∧
      parseFileListXML parse uninit (fileListText l) .empty = .ok (0, restored l) ∧
      parseFileList load uninit (some (fileListText (restored l))) .empty =
        .ok (0, restored l) ∧
      (Restorable l → restored l = l) := by
  have hagain := parseFileList_saved hload uninit h.restored
  rw [restored_restored] at hagain
  exact ⟨parseFileList_saved hload uninit h, parseFileListXML_saved hparse uninit h, hagain,
    restored_eq_self⟩

/-- A name with every character that is escaped, and a sequence of two bytes. -/
def quotedList : ChannelFileList :=
  (ChannelFileList.empty.setName (ascii "a&\"<'>" ++ [9, 0xc3, 0xa9])).addFile
    { filename := ascii "media/new ship.mesh"
      version := -1
      crc32 := 4294967295
      size := 9223372036854775807
      execute := false
      deleted := false }

theorem nameSurvives_quotedList : NameSurvives quotedList := by
  have hname : cStr quotedList.name = ascii "a&\"<'>\t" ++ ([0xc3, 0xa9] ++ []) := by decide
  have hplain : ∀ b ∈ [(0xa9 : UInt8)], Plain b := by decide +kernel
  constructor
  · have hpair : Aligned .utf8 ([0xc3, 0xa9] ++ []) :=
      .append (.sequence rfl (by decide) hplain) .nil
    rw [hname]
    exact hpair.append_single (by decide +kernel)
  · rw [hname]
    unfold Unreferenced
    decide

theorem file_list_text_quotedList :
    parseFileList (fun text => (loadFile text).toOption) (fun _ => ⟨[], 0, 0, 0, false, false⟩)
      (some (fileListText quotedList)) .empty = .ok (0, restored quotedList) :=
  (file_list_text (readsAs_toOption loadFile) (readsAs_toOption TinyXml.parse) _ quotedList
    nameSurvives_quotedList).1

end LibWfut
