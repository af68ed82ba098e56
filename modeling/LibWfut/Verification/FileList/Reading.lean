import Mathlib.Data.List.Forall2
import LibWfut.Library.Run
import LibWfut.Model.FileIO
import LibWfut.Verification.FileList.Lists

/-! # What the file list parser takes for granted

The loop of `parseFiles` scans attributes that may be missing or hold no number. -/

namespace LibWfut

open Encoder Machine

theorem XmlNode.eq_element {node : XmlNode} (h : node.isElement = true) :
    ∃ value attributes children, node = .element value attributes children := by
  cases node with
  | element value attributes children => exact ⟨value, attributes, children, rfl⟩
  | _ => simp [XmlNode.isElement] at h

/-! ## The calls of `addFile` -/

/-- The files the loop of `parseFiles` passes to `addFile`, in order. -/
def addedFiles (uninit : ℕ → FileObject) : ℕ → List Attributes → Except Fault (List FileObject)
  | _, [] => .ok []
  | i, e :: rest => do
    let file ← parseFile e { uninit i with filename := [] }
    let files ← addedFiles uninit (i + 1) rest
    .ok (file :: files)

theorem parseElements_eq (uninit : ℕ → FileObject) (i : ℕ) (es : List Attributes)
    (files : ChannelFileList) :
    parseElements uninit i es files = (addedFiles uninit i es).map (addFiles files) := by
  induction es generalizing i files with
  | nil => rfl
  | cons e es ih =>
      simp only [parseElements, addedFiles]
      cases parseFile e { uninit i with filename := [] } with
      | error fault => rfl
      | ok file =>
          simp only [ok_bind, ih]
          cases addedFiles uninit (i + 1) es <;> rfl

/-- The list `parseFiles` adds the files to. -/
def named (attributes : Attributes) (files : ChannelFileList) : ChannelFileList :=
  match getAttribute attributes tagDir with
  | some dir => files.setName dir
  | none => files

theorem parseFiles_element (uninit : ℕ → FileObject) (value : Bytes) (attributes : Attributes)
    (children : List XmlNode) (files : ChannelFileList) :
    parseFiles uninit (.element value attributes children) files =
      (addedFiles uninit 0 (visited children)).map fun fos =>
        (0, addFiles (named attributes files) fos) := by
  simp only [parseFiles, parseElements_eq, named]
  cases addedFiles uninit 0 (visited children) <;> rfl

/-- When the loop ends it has parsed every element. -/
theorem forall₂_addedFiles {uninit : ℕ → FileObject} {i : ℕ} {es : List Attributes}
    {fos : List FileObject} (h : addedFiles uninit i es = .ok fos) :
    List.Forall₂ (fun e fo => ∃ init, parseFile e init = .ok fo) es fos := by
  induction es generalizing i fos with
  | nil =>
      simp only [addedFiles, Except.ok.injEq] at h
      rw [← h]
      exact .nil
  | cons e es ih =>
      obtain ⟨file, hfile, h⟩ := bind_eq_ok h
      obtain ⟨rest, hrest, h⟩ := bind_eq_ok h
      rw [← Except.ok.inj h]
      exact .cons ⟨_, hfile⟩ (ih hrest)

theorem exists_forall₂_iff {α β : Type*} {R : α → β → Prop} {l : List α} :
    (∃ m, List.Forall₂ R l m) ↔ ∀ a ∈ l, ∃ b, R a b := by
  induction l with
  | nil => exact ⟨fun _ a ha => absurd ha List.not_mem_nil, fun _ => ⟨[], .nil⟩⟩
  | cons x l ih =>
      rw [List.forall_mem_cons, ← ih]
      constructor
      · rintro ⟨m, hm⟩
        obtain ⟨b, m', hb, hm', -⟩ := List.forall₂_cons_left_iff.mp hm
        exact ⟨⟨b, hb⟩, m', hm'⟩
      · rintro ⟨⟨b, hb⟩, m, hm⟩
        exact ⟨b :: m, .cons hb hm⟩

theorem addedFiles_eq_ok {uninit : ℕ → FileObject} {i : ℕ} {es : List Attributes}
    {fos : List FileObject}
    (h : List.Forall₂ (fun e fo => ∀ init, parseFile e init = .ok fo) es fos) :
    addedFiles uninit i es = .ok fos := by
  induction h generalizing i with
  | nil => rfl
  | cons hfile _ ih => simp only [addedFiles, hfile, ok_bind, ih]

/-! ## Elements that can be read -/

/-- An attribute that begins with this number, in range. -/
def NumberAttribute (element : Attributes) (name : Bytes) (lower upper z : ℤ) : Prop :=
  ∃ s, getAttribute element name = some s ∧ Decimal.scanInt s = some z ∧ lower ≤ z ∧ z < upper

/-- Every field of the file comes from an attribute of the element. -/
structure FromAttributes (element : Attributes) (file : FileObject) : Prop where
  filename : ∃ s, getAttribute element tagFilename = some s ∧ decodeString s = .ok file.filename
  version : NumberAttribute element tagVersion (-2 ^ 31) (2 ^ 31) file.version.toInt
  crc32 : NumberAttribute element tagCrc32 0 (2 ^ 64) file.crc32.toNat
  size : NumberAttribute element tagSize (-2 ^ 63) (2 ^ 63) file.size.toInt
  execute : file.execute = isTrue element tagExecute
  deleted : file.deleted = isTrue element tagDeleted

/-- The filename can be decoded and the numbers are numbers, in range. -/
structure Legible (element : Attributes) : Prop where
  filename : ∃ s name, getAttribute element tagFilename = some s ∧ decodeString s = .ok name
  version : ∃ z, NumberAttribute element tagVersion (-2 ^ 31) (2 ^ 31) z
  crc32 : ∃ z, NumberAttribute element tagCrc32 0 (2 ^ 64) z
  size : ∃ z, NumberAttribute element tagSize (-2 ^ 63) (2 ^ 63) z

theorem FromAttributes.legible {element : Attributes} {file : FileObject}
    (h : FromAttributes element file) : Legible element := by
  obtain ⟨s, hs, hname⟩ := h.filename
  exact ⟨⟨s, _, hs, hname⟩, ⟨_, h.version⟩, ⟨_, h.crc32⟩, ⟨_, h.size⟩⟩

section Scan

variable {element : Attributes} {name : Bytes} {z : ℤ}

theorem scanAttribute_int32 (h : NumberAttribute element name (-2 ^ 31) (2 ^ 31) z)
    (field : Int32) :
    scanAttribute scanInt32 element name field = .ok (Int32.ofInt z) ∧
      (Int32.ofInt z).toInt = z := by
  obtain ⟨s, hs, hz, hl, hu⟩ := h
  constructor
  · simp only [scanAttribute, hs, scanInt32, hz, Option.map_some, Option.getD_some]
    rw [clampLong_of_mem (by omega) (by omega)]
  · exact Int32.toInt_ofInt_of_le (by omega) (by omega)

theorem scanAttribute_int64 (h : NumberAttribute element name (-2 ^ 63) (2 ^ 63) z)
    (field : Int64) :
    scanAttribute scanInt64 element name field = .ok (Int64.ofInt z) ∧
      (Int64.ofInt z).toInt = z := by
  obtain ⟨s, hs, hz, hl, hu⟩ := h
  constructor
  · simp only [scanAttribute, hs, scanInt64, hz, Option.map_some, Option.getD_some]
    rw [clampLong_of_mem hl hu]
  · exact Int64.toInt_ofInt_of_le (by omega) (by omega)

theorem scanAttribute_uLong (h : NumberAttribute element name 0 (2 ^ 64) z) (field : ULong) :
    scanAttribute scanULong element name field = .ok (UInt64.ofNat z.natAbs) ∧
      ((UInt64.ofNat z.natAbs).toNat : ℤ) = z := by
  obtain ⟨s, hs, hz, hl, hu⟩ := h
  constructor
  · simp only [scanAttribute, hs, scanULong, hz, Option.map_some, Option.getD_some]
    rw [if_neg (by omega), if_neg (by omega)]
  · rw [UInt64.toNat_ofNat_of_lt' (show z.natAbs < 2 ^ 64 by omega)]
    omega

end Scan

/-- A legible element is read in full, whatever the memory held before. -/
theorem Legible.parseFile {element : Attributes} (h : Legible element) :
    ∃ fo, (∀ init, parseFile element init = .ok fo) ∧ FromAttributes element fo := by
  obtain ⟨s, name, hs, hname⟩ := h.filename
  obtain ⟨v, hv⟩ := h.version
  obtain ⟨c, hc⟩ := h.crc32
  obtain ⟨n, hn⟩ := h.size
  refine ⟨{ filename := name, version := Int32.ofInt v, crc32 := UInt64.ofNat c.natAbs,
            size := Int64.ofInt n, execute := isTrue element tagExecute,
            deleted := isTrue element tagDeleted }, ?_, ?_⟩
  · intro init
    simp only [LibWfut.parseFile, hs, hname, ok_bind, (scanAttribute_int32 hv _).1,
      (scanAttribute_uLong hc _).1, (scanAttribute_int64 hn _).1]
  · constructor
    case filename => exact ⟨s, hs, hname⟩
    case version =>
      rw [(scanAttribute_int32 hv 0).2]
      exact hv
    case crc32 =>
      rw [(scanAttribute_uLong hc 0).2]
      exact hc
    case size =>
      rw [(scanAttribute_int64 hn 0).2]
      exact hn
    case execute => rfl
    case deleted => rfl

/-! ## Whole documents -/

/-- The elements the loop of `parseFiles` visits in a document. -/
def fileElements (nodes : Document) : List Attributes :=
  match nodes.find? (hasValue tagFilelist) with
  | some (.element _ _ children) => visited children
  | _ => []

/-- The parser returns without a fault, and every file that it adds on success comes from
the attributes of an element. -/
def FullyRead (parse : Bytes → Option Document) (uninit : ℕ → FileObject) (xml : Bytes)
    (files : ChannelFileList) : Prop :=
  ∃ err files', parseFileListXML parse uninit xml files = .ok (err, files') ∧
    (err ≠ 0 ∨ ∃ nodes fos, parse (cStr xml) = some nodes ∧
      addedFiles uninit 0 (fileElements nodes) = .ok fos ∧
      files'.fileMap = (addFiles files fos).fileMap ∧
      List.Forall₂ FromAttributes (fileElements nodes) fos)

/-- If there is a node with the name of the root, the first one is an element, and every
element that is visited below it is legible. -/
def Readable (nodes : Document) : Prop :=
  ∀ root, nodes.find? (hasValue tagFilelist) = some root →
    root.isElement = true ∧ ∀ e ∈ fileElements nodes, Legible e

theorem fileMap_addFiles_named (attributes : Attributes) (files : ChannelFileList)
    (fos : List FileObject) :
    (addFiles (named attributes files) fos).fileMap = (addFiles files fos).fileMap := by
  rw [fileMap_addFiles, fileMap_addFiles, named]
  cases getAttribute attributes tagDir <;> rfl

/-- A root that is not an element is a null pointer. -/
theorem parseFiles_not_element {node : XmlNode} (h : node.isElement = false)
    (uninit : ℕ → FileObject) (files : ChannelFileList) :
    parseFiles uninit node files = .error .nullPointer := by
  cases node with
  | element value attributes children => simp [XmlNode.isElement] at h
  | _ => rfl

/-- Below a root element the loop reads every element in full exactly when they are all
legible. -/
theorem addedFiles_fromAttributes_iff (uninit : ℕ → FileObject) (es : List Attributes) :
    (∃ fos, addedFiles uninit 0 es = .ok fos ∧ List.Forall₂ FromAttributes es fos) ↔
      ∀ e ∈ es, Legible e := by
  constructor
  · rintro ⟨fos, -, hall⟩ e he
    obtain ⟨fo, hfo⟩ := exists_forall₂_iff.mp ⟨fos, hall⟩ e he
    exact hfo.legible
  · intro hlegible
    obtain ⟨fos, hall⟩ := exists_forall₂_iff.mpr fun e he => (hlegible e he).parseFile
    exact ⟨fos, addedFiles_eq_ok (hall.imp fun _ _ h => h.1), hall.imp fun _ _ h => h.2⟩

/-- A document is rejected or read in full exactly when it is readable. -/
theorem document_reading (parse : Bytes → Option Document) (uninit : ℕ → FileObject)
    (xml : Bytes) (files : ChannelFileList) :
    FullyRead parse uninit xml files ↔ ∀ nodes, parse (cStr xml) = some nodes →
      Readable nodes := by
  unfold FullyRead parseFileListXML
  cases hparse : parse (cStr xml) with
  | none => exact ⟨fun _ nodes hn => by simp at hn, fun _ => ⟨1, files, rfl, .inl (by simp)⟩⟩
  | some nodes =>
      simp only [parseDocument, Option.some.injEq, forall_eq', exists_and_left,
        exists_eq_left', Readable]
      cases hroot : nodes.find? (hasValue tagFilelist) with
      | none =>
          exact ⟨fun _ root hr => by simp at hr, fun _ => ⟨1, files, rfl, .inl (by simp)⟩⟩
      | some root =>
          simp only [Option.some.injEq, forall_eq']
          cases helement : root.isElement with
          | false => simp [parseFiles_not_element helement]
          | true =>
              obtain ⟨value, attributes, children, rfl⟩ := root.eq_element helement
              have hvisited : fileElements nodes = visited children := by
                simp only [fileElements, hroot]
              rw [hvisited, ← addedFiles_fromAttributes_iff uninit]
              simp only [parseFiles_element, true_and]
              constructor
              · rintro ⟨err, files', hres, hread⟩
                obtain ⟨fos, -, heq⟩ := map_eq_ok hres
                rw [Prod.mk.injEq] at heq
                rcases hread with herr | ⟨fos', hfos', -, hall⟩
                · exact absurd heq.1.symm herr
                · exact ⟨fos', hfos', hall⟩
              · rintro ⟨fos, hfos, hall⟩
                rw [hfos]
                exact ⟨0, _, rfl, .inr ⟨fos, rfl, fileMap_addFiles_named .., hall⟩⟩

/-- A file element without numbers. -/
def bareDocument : Document :=
  [.element tagFilelist [] [.element tagFile [(tagFilename, ascii "a")] []]]

/-- A `FileObject` in zeroed memory. -/
def zeroedFile : FileObject where
  filename := []
  version := 0
  crc32 := 0
  size := 0
  execute := false
  deleted := false

/-- A missing version is passed to `sscanf` as a null pointer. -/
theorem document_reading_bare :
    parseFileListXML (fun _ => some bareDocument) (fun _ => zeroedFile) [] .empty =
        .error .nullPointer ∧
      ¬FullyRead (fun _ => some bareDocument) (fun _ => zeroedFile) [] .empty := by
  have hfault : parseFileListXML (fun _ => some bareDocument) (fun _ => zeroedFile) [] .empty =
      .error .nullPointer := rfl
  refine ⟨hfault, ?_⟩
  rintro ⟨err, files, hres, -⟩
  rw [hfault] at hres
  simp at hres

end LibWfut
