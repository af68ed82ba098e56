import LibWfut.Model.ChannelIO
import LibWfut.Verification.FileList.Reading

/-! # The records of a list document

The loops of the list parsers start at the first element with the right name and go on to
every element after it. -/

namespace LibWfut

open Encoder Machine

/-! ## What the loops visit -/

/-- Every element after a record is a record. -/
def Uniform (tag : Bytes) : List XmlNode → Prop
  | [] => True
  | node :: rest =>
    if node.isElement ∧ hasValue tag node then
      ∀ n ∈ rest, n.isElement = true → hasValue tag n = true
    else Uniform tag rest

theorem XmlNode.toElement_eq_none_iff {node : XmlNode} :
    node.toElement = none ↔ node.isElement = false := by
  cases node <;> simp [toElement, isElement]

theorem elementsNamed_sublist (tag : Bytes) (nodes : List XmlNode) :
    (elementsNamed tag nodes).Sublist (nodes.filterMap XmlNode.toElement) :=
  List.filter_sublist.filterMap _

/-- Only if all elements have the name there are as many as elements of the name. -/
theorem length_elementsNamed_iff {tag : Bytes} {nodes : List XmlNode} :
    (nodes.filterMap XmlNode.toElement).length = (elementsNamed tag nodes).length ↔
      ∀ n ∈ nodes, n.isElement = true → hasValue tag n = true := by
  induction nodes with
  | nil => simp [elementsNamed]
  | cons n nodes ih =>
      have hle := (elementsNamed_sublist tag nodes).length_le
      simp only [elementsNamed] at ih hle ⊢
      rw [List.forall_mem_cons, ← ih]
      cases helement : n.toElement with
      | none =>
          have hnot := XmlNode.toElement_eq_none_iff.mp helement
          by_cases hv : hasValue tag n = true
          · simp [helement, hv]
          · simp [helement, hv, hnot]
      | some e =>
          have hyes : n.isElement = true := by
            by_contra hno
            rw [XmlNode.toElement_eq_none_iff.mpr (by simpa using hno)] at helement
            simp at helement
          by_cases hv : hasValue tag n = true
          · simp [helement, hv]
          · rw [List.filter_cons_of_neg (by simpa using hv), List.filterMap_cons, helement,
              List.length_cons]
            constructor
            · intro hlength
              omega
            · exact fun h => absurd (h.1 hyes) hv

/-- A node that is no record hides none. -/
theorem elementsNamed_cons_of_not {tag : Bytes} {node : XmlNode} {nodes : List XmlNode}
    (h : ¬(node.isElement = true ∧ hasValue tag node = true)) :
    elementsNamed tag (node :: nodes) = elementsNamed tag nodes := by
  by_cases hv : hasValue tag node = true
  · have hnot : node.toElement = none := by
      rw [XmlNode.toElement_eq_none_iff]
      simpa [hv] using h
    simp [elementsNamed, hv, hnot]
  · simp [elementsNamed, hv]

theorem elementsFrom_sublist (tag : Bytes) (nodes : List XmlNode) :
    (elementsNamed tag nodes).Sublist (elementsFrom tag nodes) := by
  induction nodes with
  | nil => exact .slnil
  | cons n nodes ih =>
      simp only [elementsFrom]
      split
      · exact elementsNamed_sublist tag (n :: nodes)
      · rename_i hno
        rw [elementsNamed_cons_of_not hno]
        exact ih

theorem length_elementsFrom_iff {tag : Bytes} {nodes : List XmlNode} :
    (elementsFrom tag nodes).length = (elementsNamed tag nodes).length ↔ Uniform tag nodes := by
  induction nodes with
  | nil => simp [elementsFrom, elementsNamed, Uniform]
  | cons n nodes ih =>
      simp only [elementsFrom, Uniform]
      split
      · rename_i hyes
        rw [length_elementsNamed_iff, List.forall_mem_cons]
        exact ⟨fun h => h.2, fun h => ⟨fun _ => hyes.2, h⟩⟩
      · rename_i hno
        rw [elementsNamed_cons_of_not hno]
        exact ih

/-- The loop visits the records and nothing else exactly when they stand together. -/
theorem elementsFrom_eq_iff {tag : Bytes} {nodes : List XmlNode} :
    elementsFrom tag nodes = elementsNamed tag nodes ↔ Uniform tag nodes := by
  rw [← length_elementsFrom_iff]
  exact ⟨congrArg List.length, fun h => ((elementsFrom_sublist tag nodes).eq_of_length h.symm).symm⟩

/-- Where there are only records, the loop visits them all. -/
theorem elementsFrom_map {α : Type} (tag : Bytes) (attributes : α → Attributes)
    (children : α → List XmlNode) (l : List α) :
    elementsFrom tag (l.map fun a => .element tag (attributes a) (children a)) =
      l.map fun a => ⟨attributes a, children a⟩ := by
  cases l with
  | nil => rfl
  | cons a l =>
      have hfirst : (XmlNode.element tag (attributes a) (children a)).isElement = true ∧
          hasValue tag (.element tag (attributes a) (children a)) = true :=
        ⟨rfl, by simp [hasValue, XmlNode.value]⟩
      have hall : ((a :: l).map fun a => XmlNode.element tag (attributes a) (children a)).filterMap
          XmlNode.toElement = (a :: l).map fun a => ⟨attributes a, children a⟩ := by
        rw [List.filterMap_map, ← List.filterMap_eq_map]
        rfl
      rw [List.map_cons, elementsFrom, if_pos hfirst]
      exact hall

/-! ## Channels and mirrors -/

theorem parseRecords_eq {α : Type} (tag : Bytes) (parse : XmlElement → α) (node : XmlNode)
    (list : List α) :
    parseRecords tag parse node list = list ++ (elementsFrom tag node.children).map parse := by
  have hfold : ∀ (es : List XmlElement) (list : List α),
      es.foldl (fun list e => list ++ [parse e]) list = list ++ es.map parse := by
    intro es
    induction es with
    | nil => simp
    | cons e es ih => simp [ih]
  exact hfold ..

/-- One record for each element of the name, exactly when the records stand together. -/
theorem parseRecords_iff {α : Type} {tag : Bytes} {parse : XmlElement → α} (node : XmlNode)
    {list : List α} :
    parseRecords tag parse node list = list ++ (elementsNamed tag node.children).map parse ↔
      Uniform tag node.children := by
  rw [parseRecords_eq, List.append_cancel_left_eq, ← elementsFrom_eq_iff]
  constructor
  · intro h
    have hlength := congrArg List.length h
    rw [List.length_map, List.length_map] at hlength
    exact elementsFrom_eq_iff.mpr (length_elementsFrom_iff.mp hlength)
  · exact congrArg (List.map parse)

/-! ## Files -/

theorem siblings_eq (nodes : List XmlNode) :
    visited.siblings nodes = (nodes.filterMap XmlNode.toElement).map XmlElement.attributes := by
  induction nodes with
  | nil => rfl
  | cons n nodes ih =>
      cases n with
      | element value attributes children => simpa [visited.siblings, XmlNode.toElement] using ih
      | _ => simpa [visited.siblings, List.filterMap_cons, XmlNode.toElement] using ih

theorem visited_eq (nodes : List XmlNode) :
    visited nodes = (elementsFrom tagFile nodes).map XmlElement.attributes := by
  induction nodes with
  | nil => rfl
  | cons n nodes ih =>
      simp only [visited, elementsFrom]
      split
      · exact siblings_eq (n :: nodes)
      · exact ih

/-- The attributes that `parseFile` cannot do without are there, and its filename can be
decoded. -/
structure Parsable (element : Attributes) : Prop where
  filename : ∀ s, getAttribute element tagFilename = some s → ∃ name, decodeString s = .ok name
  version : getAttribute element tagVersion ≠ none
  crc32 : getAttribute element tagCrc32 ≠ none
  size : getAttribute element tagSize ≠ none

theorem scanAttribute_eq_ok_iff {α : Type} (scan : Bytes → Option α) {element : Attributes}
    {name : Bytes} (field : α) :
    (∃ value, scanAttribute scan element name field = .ok value) ↔
      getAttribute element name ≠ none := by
  unfold scanAttribute
  cases getAttribute element name <;> simp

/-- The filename an element gives a file, or the one the file had. -/
def filenameOf (element : Attributes) (filename : Bytes) : Except Fault Bytes :=
  match getAttribute element tagFilename with
  | some fname => decodeString fname
  | none => .ok filename

theorem parseFile_eq (element : Attributes) (file : FileObject) :
    parseFile element file = (do
      let filename ← filenameOf element file.filename
      let version ← scanAttribute scanInt32 element tagVersion file.version
      let crc32 ← scanAttribute scanULong element tagCrc32 file.crc32
      let size ← scanAttribute scanInt64 element tagSize file.size
      .ok
        { filename := filename
          version := version
          crc32 := crc32
          size := size
          execute := isTrue element tagExecute
          deleted := isTrue element tagDeleted }) := by
  unfold parseFile filenameOf
  cases getAttribute element tagFilename <;> rfl

/-- `parseFile` ends exactly on parsable elements. -/
theorem parseFile_eq_ok_iff {element : Attributes} (init : FileObject) :
    (∃ fo, parseFile element init = .ok fo) ↔ Parsable element := by
  constructor
  · rintro ⟨fo, h⟩
    rw [parseFile_eq] at h
    obtain ⟨name, hname, h⟩ := bind_eq_ok h
    obtain ⟨version, hversion, h⟩ := bind_eq_ok h
    obtain ⟨crc, hcrc, h⟩ := bind_eq_ok h
    obtain ⟨size, hsize, h⟩ := bind_eq_ok h
    refine ⟨?_, (scanAttribute_eq_ok_iff _ _).mp ⟨_, hversion⟩,
      (scanAttribute_eq_ok_iff _ _).mp ⟨_, hcrc⟩, (scanAttribute_eq_ok_iff _ _).mp ⟨_, hsize⟩⟩
    intro s hs
    simp only [filenameOf, hs] at hname
    exact ⟨name, hname⟩
  · intro h
    obtain ⟨version, hversion⟩ :=
      (scanAttribute_eq_ok_iff scanInt32 init.version).mpr h.version
    obtain ⟨crc, hcrc⟩ := (scanAttribute_eq_ok_iff scanULong init.crc32).mpr h.crc32
    obtain ⟨size, hsize⟩ := (scanAttribute_eq_ok_iff scanInt64 init.size).mpr h.size
    have hname : ∃ name, filenameOf element init.filename = .ok name := by
      unfold filenameOf
      cases hs : getAttribute element tagFilename with
      | none => exact ⟨init.filename, rfl⟩
      | some s => exact h.filename s hs
    obtain ⟨name, hname⟩ := hname
    rw [parseFile_eq]
    simp only [hname, hversion, hcrc, hsize, ok_bind]
    exact ⟨_, rfl⟩

theorem addedFiles_of_parsable {es : List Attributes} (h : ∀ e ∈ es, Parsable e)
    (uninit : ℕ → FileObject) (i : ℕ) : ∃ fos, addedFiles uninit i es = .ok fos := by
  induction es generalizing i with
  | nil => exact ⟨[], rfl⟩
  | cons e es ih =>
      obtain ⟨fo, hfo⟩ := (parseFile_eq_ok_iff { uninit i with filename := [] }).mpr
        (h e (List.mem_cons_self ..))
      obtain ⟨fos, hfos⟩ := ih (fun e' he => h e' (List.mem_cons_of_mem _ he)) (i + 1)
      exact ⟨fo :: fos, by simp only [addedFiles, hfo, hfos, ok_bind]⟩

/-- `parseFiles` succeeds with one call of `addFile` for each element of the name `file`, in
document order. -/
def ReadsFiles (uninit : ℕ → FileObject) (value : Bytes) (attributes : Attributes)
    (children : List XmlNode) (files : ChannelFileList) : Prop :=
  ∃ fos, parseFiles uninit (.element value attributes children) files =
      .ok (0, addFiles (named attributes files) fos) ∧
    addedFiles uninit 0 (visited children) = .ok fos ∧
    List.Forall₂ (fun e fo => ∃ init, parseFile (XmlElement.attributes e) init = .ok fo)
      (elementsNamed tagFile children) fos

theorem readsFiles_iff {uninit : ℕ → FileObject} {value : Bytes} {attributes : Attributes}
    {children : List XmlNode} {files : ChannelFileList} :
    ReadsFiles uninit value attributes children files ↔
      Uniform tagFile children ∧ ∀ e ∈ elementsNamed tagFile children, Parsable e.attributes := by
  constructor
  · rintro ⟨fos, -, hfos, hall⟩
    constructor
    · rw [← length_elementsFrom_iff, hall.length_eq, ← (forall₂_addedFiles hfos).length_eq,
        visited_eq, List.length_map]
    · intro e he
      obtain ⟨fo, init, hfo⟩ := exists_forall₂_iff.mp ⟨fos, hall⟩ e he
      exact (parseFile_eq_ok_iff init).mp ⟨fo, hfo⟩
  · rintro ⟨huniform, hparsable⟩
    have hvisited : visited children =
        (elementsNamed tagFile children).map XmlElement.attributes := by
      rw [visited_eq, elementsFrom_eq_iff.mpr huniform]
    have hall : ∀ e ∈ visited children, Parsable e := by
      rw [hvisited]
      exact List.forall_mem_map.mpr hparsable
    obtain ⟨fos, hfos⟩ := addedFiles_of_parsable hall uninit 0
    refine ⟨fos, by rw [parseFiles_element, hfos]; rfl, hfos, ?_⟩
    have hread := forall₂_addedFiles hfos
    rw [hvisited] at hread
    exact List.forall₂_map_left_iff.mp hread

/-! ## The three parsers -/

/-- Each of the three loops reads exactly the records of a root element under the condition
that they stand together, and the loop over files that each of them can be parsed. -/
theorem list_parsers (uninit : ℕ → FileObject) (value : Bytes) (attributes : Attributes)
    (children : List XmlNode) (channels : List ChannelObject) (mirrors : List MirrorObject)
    (files : ChannelFileList) :
    (parseChannels (.element value attributes children) channels =
        channels ++ (elementsNamed tagChannel children).map (fun e => parseChannel e {}) ↔
      Uniform tagChannel children) ∧
    (parseMirrors (.element value attributes children) mirrors =
        mirrors ++ (elementsNamed tagMirror children).map (fun e => parseMirror e {}) ↔
      Uniform tagMirror children) ∧
    (ReadsFiles uninit value attributes children files ↔
      Uniform tagFile children ∧ ∀ e ∈ elementsNamed tagFile children, Parsable e.attributes) :=
  ⟨parseRecords_iff (.element value attributes children),
    parseRecords_iff (.element value attributes children), readsFiles_iff⟩

/-- An element behind the first mirror becomes a mirror without a URL. -/
theorem list_parsers_foreign :
    let root : XmlNode := .element tagMirrorlist []
      [.element tagMirror [] [textElement tagUrl (ascii "http://h/")],
        .element (ascii "note") [] []]
    parseMirrors root [] = [{ url := ascii "http://h/" }, {}] ∧
      parseMirrors root [] ≠
        [] ++ (elementsNamed tagMirror root.children).map fun e => parseMirror e {} := by
  decide

end LibWfut
