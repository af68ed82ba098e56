import LibWfut.Library.Decimal
import LibWfut.Model.Encoder

/-! # The file list documents

The trees of TinyXML as far as the file lists use them, `FileWriter` and
`FileParser`. -/

namespace LibWfut

/-! ## Trees -/

abbrev Attributes := List (Bytes × Bytes)

inductive XmlNode where
  | element (value : Bytes) (attributes : Attributes) (children : List XmlNode)
  | comment (value : Bytes)
  | text (value : Bytes)
  | declaration (version encoding standalone : Bytes)
  | unknown (value : Bytes)

/-- The nodes of a `TiXmlDocument`. -/
abbrev Document := List XmlNode

namespace XmlNode

/-- `Value()`; a declaration has none. -/
def value : XmlNode → Bytes
  | element value _ _ => value
  | comment value => value
  | text value => value
  | declaration _ _ _ => []
  | unknown value => value

def isElement : XmlNode → Bool
  | element _ _ _ => true
  | _ => false

end XmlNode

/-- `strcmp(node->Value(), value) == 0` -/
def hasValue (value : Bytes) (node : XmlNode) : Bool :=
  cStr node.value = cStr value

/-- `TiXmlElement::Attribute(const char*)`: what the C string of the value holds. -/
def getAttribute (attributes : Attributes) (name : Bytes) : Option Bytes :=
  (attributes.lookup name).map cStr

/-- `SetAttribute(name, value)`: an attribute that exists is changed, a new one comes
last. -/
def setAttribute (attributes : Attributes) (name value : Bytes) : Attributes :=
  match attributes with
  | [] => [(name, value)]
  | (n, v) :: rest =>
    if n = name then (name, value) :: rest else (n, v) :: setAttribute rest name value

/-- `SetAttribute(name, int)` -/
def setIntAttribute (attributes : Attributes) (name : Bytes) (value : Int32) : Attributes :=
  setAttribute attributes name (Decimal.ofInt value.toInt)

/-! ## Tags -/

def tagFilename : Bytes := ascii "filename"

def tagVersion : Bytes := ascii "version"

def tagCrc32 : Bytes := ascii "crc32"

def tagSize : Bytes := ascii "size"

def tagExecute : Bytes := ascii "execute"

def tagFile : Bytes := ascii "file"

def tagFilelist : Bytes := ascii "fileList"

def tagDir : Bytes := ascii "dir"

def tagDeleted : Bytes := ascii "deleted"

/-! ## Writing -/

/-- A `bool` has no overload of its own and is promoted to `int`. -/
def promoteBool (b : Bool) : Int32 :=
  if b then 1 else 0

def writeFile (element : Attributes) (file : FileObject) : Attributes :=
  let element := setAttribute element tagFilename (Encoder.encodeString file.filename)
  let element := setIntAttribute element tagVersion file.version
  let element := setAttribute element tagCrc32 (Decimal.ofInt file.crc32.toNat)
  let element := setAttribute element tagSize (Decimal.ofInt file.size.toInt)
  setIntAttribute element tagExecute (promoteBool file.execute)

/-- The document that `writeFileList` saves. -/
def fileListDocument (files : ChannelFileList) : Document :=
  [.declaration (ascii "1.0") [] [],
    .element tagFilelist (setAttribute [] tagDir files.getName)
      (files.getFiles.toList.map fun e => .element tagFile (writeFile [] e.2) [])]

/-- `save` is `TiXmlDocument::SaveFile`. -/
def writeFileList (save : Bytes → Document → Bool) (filename : Bytes)
    (files : ChannelFileList) : ℤ :=
  if save filename (fileListDocument files) then 0 else 1

/-! ## Parsing -/

/-- `strtol`: out of range is the nearest bound. -/
def clampLong (z : ℤ) : ℤ := max (-2 ^ 63) (min z (2 ^ 63 - 1))

theorem clampLong_of_mem {z : ℤ} (hl : -2 ^ 63 ≤ z) (hu : z < 2 ^ 63) : clampLong z = z := by
  unfold clampLong
  omega

/-- `sscanf(s, "%d", &n)`, by way of `long`; `none` when nothing is assigned. -/
def scanInt32 (s : Bytes) : Option Int32 :=
  (Decimal.scanInt s).map fun z => Int32.ofInt (clampLong z)

/-- `sscanf(s, "%ld", &n)` -/
def scanInt64 (s : Bytes) : Option Int64 :=
  (Decimal.scanInt s).map fun z => Int64.ofInt (clampLong z)

/-- `sscanf(s, "%lu", &n)`: a minus sign negates in `unsigned long`. -/
def scanULong (s : Bytes) : Option ULong :=
  (Decimal.scanInt s).map fun z =>
    if 2 ^ 64 ≤ z.natAbs then UInt64.ofNat (2 ^ 64 - 1)
    else if z < 0 then 0 - UInt64.ofNat z.natAbs else UInt64.ofNat z.natAbs

/-- Scan an attribute into a field, which keeps what it held when the text is no
number. -/
def scanAttribute {α : Type} (scan : Bytes → Option α) (element : Attributes) (name : Bytes)
    (field : α) : Except Fault α :=
  match getAttribute element name with
  | none => .error .nullPointer
  | some s => .ok ((scan s).getD field)

/-- `strlen(s) >= 4 && strncmp(s, "true", 4) == 0`, for an attribute that exists. -/
def isTrue (element : Attributes) (name : Bytes) : Bool :=
  (getAttribute element name).any fun s => s.take 4 = ascii "true"

def parseFile (element : Attributes) (file : FileObject) : Except Fault FileObject := do
  let filename ← match getAttribute element tagFilename with
    | some fname => Encoder.decodeString fname
    | none => .ok file.filename
  let version ← scanAttribute scanInt32 element tagVersion file.version
  let crc32 ← scanAttribute scanULong element tagCrc32 file.crc32
  let size ← scanAttribute scanInt64 element tagSize file.size
  .ok
    { filename := filename
      version := version
      crc32 := crc32
      size := size
      execute := isTrue element tagExecute
      deleted := isTrue element tagDeleted }

/-- The elements the loop of `parseFiles` visits: the first `file` element and every
element after it, whatever its name. -/
def visited : List XmlNode → List Attributes
  | [] => []
  | node :: rest =>
    if node.isElement ∧ hasValue tagFile node then siblings (node :: rest) else visited rest
where
  siblings : List XmlNode → List Attributes
    | [] => []
    | .element _ attributes _ :: rest => attributes :: siblings rest
    | _ :: rest => siblings rest

/-- The loop of `parseFiles`. `uninit` is what the memory of the `i`-th `FileObject` holds
before it is parsed; its filename starts empty. -/
def parseElements (uninit : ℕ → FileObject) :
    ℕ → List Attributes → ChannelFileList → Except Fault ChannelFileList
  | _, [], files => .ok files
  | i, e :: rest, files => do
    let file ← parseFile e { uninit i with filename := [] }
    parseElements uninit (i + 1) rest (files.addFile file)

/-- A root that is not an element makes `ToElement()` null. -/
def parseFiles (uninit : ℕ → FileObject) (node : XmlNode) (files : ChannelFileList) :
    Except Fault (ℤ × ChannelFileList) :=
  match node with
  | .element _ attributes children => do
    let files := match getAttribute attributes tagDir with
      | some dir => files.setName dir
      | none => files
    let files ← parseElements uninit 0 (visited children) files
    .ok (0, files)
  | _ => .error .nullPointer

/-- What both parsers do with a document, `none` if TinyXML reports an error. -/
def parseDocument (uninit : ℕ → FileObject) (doc : Option Document) (files : ChannelFileList) :
    Except Fault (ℤ × ChannelFileList) :=
  match doc with
  | none => .ok (1, files)
  | some nodes =>
    match nodes.find? (hasValue tagFilelist) with
    | none => .ok (1, files)
    | some node => parseFiles uninit node files

/-- `file` is what the file of the given name holds, if it can be opened, and `load` what
`TiXmlDocument::LoadFile` makes of it. -/
def parseFileList (load : Bytes → Option Document) (uninit : ℕ → FileObject)
    (file : Option Bytes) (files : ChannelFileList) : Except Fault (ℤ × ChannelFileList) :=
  parseDocument uninit (file.bind load) files

/-- `parse` is `TiXmlDocument::Parse`. -/
def parseFileListXML (parse : Bytes → Option Document) (uninit : ℕ → FileObject) (xml : Bytes)
    (files : ChannelFileList) : Except Fault (ℤ × ChannelFileList) :=
  parseDocument uninit (parse (cStr xml)) files

end LibWfut
