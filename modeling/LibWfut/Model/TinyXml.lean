import LibWfut.Library.Scan
import LibWfut.Model.FileIO

/-! # The parser of TinyXML

`tinyxmlparser.cpp`, on texts of bytes without a terminator. A pointer is the text from
there on; a null pointer and a pointer to the terminator are told apart nowhere and are both
the empty text. Rows, columns and the kind of an error are not kept. -/

namespace LibWfut.TinyXml

/-- `TiXmlEncoding` -/
inductive XmlEncoding where
  | unknown
  | utf8
  | legacy
  deriving DecidableEq, Repr

/-- How parsing ends without a result: `SetError` was called, an `assert` fails, or a byte
behind the terminator is read. -/
inductive Failure where
  | error
  | assertion
  | overrun
  | outOfFuel
  deriving DecidableEq, Repr

/-! ## Characters -/

def isWhiteSpace (c : UInt8) : Bool :=
  c = 32 ∨ (9 ≤ c ∧ c ≤ 13)

def isAlpha (c : UInt8) : Bool :=
  if c < 127 then (65 ≤ c ∧ c ≤ 90) ∨ (97 ≤ c ∧ c ≤ 122) else true

def isAlphaNum (c : UInt8) : Bool :=
  if c < 127 then (48 ≤ c ∧ c ≤ 57) ∨ (65 ≤ c ∧ c ≤ 90) ∨ (97 ≤ c ∧ c ≤ 122) else true

def toLower (c : UInt8) : UInt8 :=
  if 65 ≤ c ∧ c ≤ 90 then c + 32 else c

/-- `utf8ByteTable` -/
def utf8ByteTable (c : UInt8) : ℕ :=
  if c < 0xc2 then 1 else if c < 0xe0 then 2 else if c < 0xf0 then 3 else if c < 0xf5 then 4 else 1

/-- The number of bytes `GetChar` takes for a character that starts with this byte. -/
def charLength (encoding : XmlEncoding) (c : UInt8) : ℕ :=
  if encoding = .utf8 then utf8ByteTable c else 1

/-- The byte order mark and the two characters `ef bf be` and `ef bf bf`. -/
def isMark (a b c : UInt8) : Bool :=
  a = 0xef ∧ (b = 0xbb ∧ c = 0xbf ∨ b = 0xbf ∧ c = 0xbe ∨ b = 0xbf ∧ c = 0xbf)

def skipWhiteSpace (encoding : XmlEncoding) : Bytes → Bytes
  | a :: b :: c :: rest =>
    if encoding = .utf8 ∧ isMark a b c then skipWhiteSpace encoding rest
    else if isWhiteSpace a then skipWhiteSpace encoding (b :: c :: rest)
    else a :: b :: c :: rest
  | a :: rest => if isWhiteSpace a then skipWhiteSpace encoding rest else a :: rest
  | [] => []

/-- `StringEqual` on a text that is not empty: does it start with the tag? -/
def stringEqual (p tag : Bytes) (ignoreCase : Bool) : Bool :=
  if ignoreCase then (tag.map toLower).isPrefixOf (p.map toLower) else tag.isPrefixOf p

/-! ## Names -/

def isNameStart (c : UInt8) : Bool :=
  isAlpha c || c = 95

def isNameChar (c : UInt8) : Bool :=
  isAlphaNum c || c = 95 || c = 45 || c = 46 || c = 58

/-- The name and what follows it. -/
def readName (p : Bytes) : Bytes × Bytes :=
  match p with
  | [] => ([], [])
  | c :: _ =>
    if isNameStart c then (p.takeWhile isNameChar, p.dropWhile isNameChar) else ([], [])

/-! ## Entities -/

/-- `ConvertUTF32ToUTF8` -/
def convertUTF32ToUTF8 (input : UInt64) : Bytes :=
  let last := fun u : UInt64 => ((u ||| 0x80) &&& 0xbf).toUInt8
  if input < 0x80 then [input.toUInt8]
  else if input < 0x800 then [((input >>> 6) ||| 0xc0).toUInt8, last input]
  else if input < 0x10000 then
    [((input >>> 12) ||| 0xe0).toUInt8, last (input >>> 6), last input]
  else if input < 0x200000 then
    [((input >>> 18) ||| 0xf0).toUInt8, last (input >>> 12), last (input >>> 6), last input]
  else []

def hexDigit (c : UInt8) : Option UInt32 :=
  if 48 ≤ c ∧ c ≤ 57 then some (c - 48).toUInt32
  else if 97 ≤ c ∧ c ≤ 102 then some (c - 97 + 10).toUInt32
  else if 65 ≤ c ∧ c ≤ 70 then some (c - 65 + 10).toUInt32
  else none

def decimalDigit (c : UInt8) : Option UInt32 :=
  if 48 ≤ c ∧ c ≤ 57 then some (c - 48).toUInt32 else none

/-- The number with these digits, the last one first. -/
def addDigits (base : UInt32) (digit : UInt8 → Option UInt32) :
    UInt32 → UInt64 → Bytes → Option UInt64
  | _, ucs, [] => some ucs
  | mult, ucs, c :: cs =>
    match digit c with
    | none => none
    | some d => addDigits base digit (mult * base) (ucs + (mult * d).toUInt64) cs

/-- A character reference behind its mark: the digits are read from the semicolon back to the
mark, which may also stand in between. -/
def characterReference (encoding : XmlEncoding) (base : UInt32)
    (digit : UInt8 → Option UInt32) (mark : UInt8) (p : Bytes) : Bytes × Bytes :=
  match p.dropWhile (· ≠ 59) with
  | [] => ([], [])
  | _ :: rest =>
    let digits := (p.takeWhile (· ≠ 59)).reverse.takeWhile (· ≠ mark)
    match addDigits base digit 1 0 digits with
    | none => ([], [])
    | some ucs => (if encoding = .utf8 then convertUTF32ToUTF8 ucs else [ucs.toUInt8], rest)

/-- `entity` -/
def entities : List (Bytes × UInt8) :=
  [(ascii "&amp;", 38), (ascii "&lt;", 60), (ascii "&gt;", 62), (ascii "&quot;", 34),
    (ascii "&apos;", 39)]

/-- `GetEntity`, on a text that starts with an ampersand: what it stands for and what follows.
An ampersand that starts no entity is dropped. -/
def getEntity (encoding : XmlEncoding) (p : Bytes) : Bytes × Bytes :=
  match p with
  | _ :: 35 :: 120 :: rest =>
    if rest = [] then ([], []) else characterReference encoding 16 hexDigit 120 rest
  | _ :: 35 :: c :: rest => characterReference encoding 10 decimalDigit 35 (c :: rest)
  | _ =>
    match entities.find? fun e => e.1.isPrefixOf p with
    | some e => ([e.2], p.drop e.1.length)
    | none => ([], p.drop 1)

/-! ## Texts -/

/-- `GetChar`, on a text that is not empty. -/
def getChar (encoding : XmlEncoding) (p : Bytes) : Except Failure (Bytes × Bytes) :=
  match p with
  | [] => .ok ([], [])
  | c :: rest =>
    if charLength encoding c = 1 then
      .ok (if c = 38 then getEntity encoding p else ([c], rest))
    else if p.length < charLength encoding c then .error .overrun
    else .ok (p.take (charLength encoding c), p.drop (charLength encoding c))

/-- The loop of `ReadText` that keeps white space. -/
def readKeeping (encoding : XmlEncoding) (endTag : Bytes) :
    ℕ → Bytes → Bytes → Except Failure (Bytes × Bytes)
  | 0, _, _ => .error .outOfFuel
  | fuel + 1, text, p =>
    if p = [] ∨ stringEqual p endTag false then .ok (text, p)
    else do
      let (cArr, p) ← getChar encoding p
      readKeeping encoding endTag fuel (text ++ cArr) p

/-- The loop that makes one space of all white space; `whitespace` says that some was passed. -/
def readCondensing (encoding : XmlEncoding) (endTag : Bytes) :
    ℕ → Bool → Bytes → Bytes → Except Failure (Bytes × Bytes)
  | 0, _, _, _ => .error .outOfFuel
  | fuel + 1, whitespace, text, p =>
    if p = [] ∨ stringEqual p endTag false then .ok (text, p)
    else if p.head?.any isWhiteSpace then
      readCondensing encoding endTag fuel true text (p.drop 1)
    else do
      let (cArr, p) ← getChar encoding p
      let text := if whitespace then text ++ [32] else text
      readCondensing encoding endTag fuel false (text ++ cArr) p

/-- `ReadText`: the text and what follows the end tag. White space is condensed by default. -/
def readText (encoding : XmlEncoding) (trimWhiteSpace : Bool) (endTag : Bytes) (p : Bytes) :
    Except Failure (Bytes × Bytes) := do
  let (text, p) ←
    if trimWhiteSpace then
      let p := skipWhiteSpace encoding p
      readCondensing encoding endTag (p.length + 1) false [] p
    else readKeeping encoding endTag (p.length + 1) [] p
  .ok (text, p.drop endTag.length)

/-! ## Attributes -/

/-- An attribute value without quotation marks; a quotation mark in it ends the parsing. -/
def readUnquoted : Bytes → Bytes → Bytes × Bytes
  | value, [] => (value, [])
  | value, c :: rest =>
    if isWhiteSpace c ∨ c = 47 ∨ c = 62 then (value, c :: rest)
    else if c = 39 ∨ c = 34 then (value, [])
    else readUnquoted (value ++ [c]) rest

/-- `TiXmlAttribute::Parse`: the name, the value and what follows, which is empty after an
error. -/
def parseAttribute (encoding : XmlEncoding) (p : Bytes) :
    Except Failure (Bytes × Bytes × Bytes) :=
  let (name, p) := readName (skipWhiteSpace encoding p)
  match skipWhiteSpace encoding p with
  | 61 :: p => do
    let (value, p) ←
      match skipWhiteSpace encoding p with
      | 39 :: p => readText encoding false (ascii "'") p
      | 34 :: p => readText encoding false (ascii "\"") p
      | p => .ok (readUnquoted [] p)
    .ok (name, value, p)
  | _ => .ok (name, [], [])

/-! ## Nodes without children -/

/-- `TiXmlText::Parse` of a text that is no CDATA section. The `<` at its end is not taken. -/
def parseText (encoding : XmlEncoding) (p : Bytes) : Except Failure (Bytes × Bytes) := do
  let (value, p) ← readText encoding true (ascii "<") p
  .ok (value, if p = [] then [] else 60 :: p)

/-- `TiXmlText::Blank` -/
def blank (value : Bytes) : Bool :=
  value.all isWhiteSpace

/-- A node whose text is taken as it is, between two tags. -/
def parseRaw (startTag endTag : Bytes) (p : Bytes) : Bytes × Bytes :=
  let found := Scan.upTo endTag (p.drop startTag.length)
  (found.1, found.2.drop endTag.length)

/-- `TiXmlText::Parse` of a CDATA section -/
def parseCdata (p : Bytes) : Bytes × Bytes :=
  parseRaw (ascii "<![CDATA[") (ascii "]]>") p

/-- `TiXmlComment::Parse` -/
def parseComment (encoding : XmlEncoding) (p : Bytes) : Bytes × Bytes :=
  parseRaw (ascii "<!--") (ascii "-->") (skipWhiteSpace encoding p)

/-- `TiXmlUnknown::Parse` -/
def parseUnknown (encoding : XmlEncoding) (p : Bytes) : Bytes × Bytes :=
  parseRaw (ascii "<") (ascii ">") (skipWhiteSpace encoding p)

/-- The fields of a `TiXmlDeclaration`. -/
structure Declaration where
  version : Bytes := []
  encoding : Bytes := []
  standalone : Bytes := []
  deriving DecidableEq

/-- The loop of `TiXmlDeclaration::Parse`. Its attributes belong to no document, so that their
errors are not reported. -/
def readDeclaration (encoding : XmlEncoding) :
    ℕ → Declaration → Bytes → Except Failure (Declaration × Bytes)
  | 0, _, _ => .error .outOfFuel
  | _ + 1, d, [] => .ok (d, [])
  | fuel + 1, d, c :: rest =>
    if c = 62 then .ok (d, rest)
    else
      let p := skipWhiteSpace encoding (c :: rest)
      if p = [] then .error .assertion
      else if stringEqual p (ascii "version") true then do
        let (_, value, p) ← parseAttribute encoding p
        readDeclaration encoding fuel { d with version := cStr value } p
      else if stringEqual p (ascii "encoding") true then do
        let (_, value, p) ← parseAttribute encoding p
        readDeclaration encoding fuel { d with encoding := cStr value } p
      else if stringEqual p (ascii "standalone") true then do
        let (_, value, p) ← parseAttribute encoding p
        readDeclaration encoding fuel { d with standalone := cStr value } p
      else readDeclaration encoding fuel d (p.dropWhile fun c => c ≠ 62 ∧ !isWhiteSpace c)

/-- `TiXmlDeclaration::Parse` -/
def parseDeclaration (encoding : XmlEncoding) (p : Bytes) :
    Except Failure (Declaration × Bytes) :=
  let p := (skipWhiteSpace encoding p).drop 5
  readDeclaration encoding (p.length + 1) {} p

/-! ## Nodes -/

/-- The nodes that `Identify` makes. -/
inductive NodeKind where
  | declaration
  | comment
  | cdata
  | unknown
  | element
  deriving DecidableEq, Repr

def identify (encoding : XmlEncoding) (p : Bytes) : Option NodeKind :=
  let p := skipWhiteSpace encoding p
  if p.head? ≠ some 60 then none
  else if stringEqual p (ascii "<?xml") true then some .declaration
  else if stringEqual p (ascii "<!--") false then some .comment
  else if stringEqual p (ascii "<![CDATA[") false then some .cdata
  else if stringEqual p (ascii "<!") false then some .unknown
  else if (p.drop 1).head?.any isNameStart then some .element
  else some .unknown

/-- `ReadValue` of an element, as its start tag uses it. -/
abbrev ValueReader := Bytes → Except Failure (List XmlNode × Bytes)

/-- What `TiXmlElement::Parse` does behind the start tag. -/
def readContent (readValue : ValueReader) (encoding : XmlEncoding) (name : Bytes)
    (attributes : Attributes) (p : Bytes) : Except Failure (XmlNode × Bytes) := do
  let (children, p) ← readValue p
  if p ≠ [] ∧ stringEqual p (ascii "</" ++ name) false then
    match skipWhiteSpace encoding (p.drop (2 + name.length)) with
    | 62 :: p => .ok (.element name attributes children, p)
    | _ => .error .error
  else .error .error

/-- The loop of `TiXmlElement::Parse` over the attributes. -/
def readTag (readValue : ValueReader) (encoding : XmlEncoding) (name : Bytes) :
    ℕ → Attributes → Bytes → Except Failure (XmlNode × Bytes)
  | 0, _, _ => .error .outOfFuel
  | fuel + 1, attributes, p =>
    match skipWhiteSpace encoding p with
    | [] => .error .error
    | 47 :: 62 :: rest => .ok (.element name attributes [], rest)
    | 47 :: _ => .error .error
    | 62 :: rest => readContent readValue encoding name attributes rest
    | c :: rest => do
      let (attrib, value, p) ← parseAttribute encoding (c :: rest)
      if p = [] ∨ (attributes.lookup attrib).isSome then .error .error
      else readTag readValue encoding name fuel (attributes ++ [(attrib, value)]) p

/-- `TiXmlElement::Parse` -/
def parseElement (readValue : ValueReader) (encoding : XmlEncoding) (p : Bytes) :
    Except Failure (XmlNode × Bytes) :=
  match skipWhiteSpace encoding p with
  | 60 :: p =>
    match readName (skipWhiteSpace encoding p) with
    | (_, []) => .error .error
    | (name, p) => readTag readValue encoding name (p.length + 1) [] p
  | _ => .error .error

/-- The `Parse` of the node that was identified. -/
def parseNode (readValue : ValueReader) (encoding : XmlEncoding) (kind : NodeKind) (p : Bytes) :
    Except Failure (XmlNode × Bytes) :=
  match kind with
  | .declaration => do
    let (d, p) ← parseDeclaration encoding p
    .ok (.declaration d.version d.encoding d.standalone, p)
  | .comment => .ok ((parseComment encoding p).map .comment id)
  | .cdata => .ok ((parseCdata p).map .text id)
  | .unknown => .ok ((parseUnknown encoding p).map .unknown id)
  | .element => parseElement readValue encoding p

/-- `TiXmlElement::ReadValue`: the children and the text from the end tag on. -/
def readValue (encoding : XmlEncoding) :
    ℕ → List XmlNode → Bytes → Except Failure (List XmlNode × Bytes)
  | 0, _, _ => .error .outOfFuel
  | fuel + 1, children, p =>
    match skipWhiteSpace encoding p with
    | [] => .ok (children, [])
    | 60 :: p =>
      if stringEqual (60 :: p) (ascii "</") false then .ok (children, 60 :: p)
      else
        match identify encoding (60 :: p) with
        | none => .ok (children, [])
        | some kind => do
          let (node, p) ← parseNode (readValue encoding fuel []) encoding kind (60 :: p)
          readValue encoding fuel (children ++ [node]) p
    | c :: p => do
      let (value, p) ← parseText encoding (c :: p)
      readValue encoding fuel (if blank value then children else children ++ [.text value]) p

/-! ## Documents -/

/-- The encoding after a node of the document. -/
def nextEncoding (encoding : XmlEncoding) (node : XmlNode) : XmlEncoding :=
  match encoding, node with
  | .unknown, .declaration _ enc _ =>
    if enc = [] ∨ stringEqual enc (ascii "UTF-8") true ∨ stringEqual enc (ascii "UTF8") true then
      .utf8
    else .legacy
  | encoding, _ => encoding

/-- The loop of `TiXmlDocument::Parse`. -/
def readDocument : ℕ → XmlEncoding → Document → Bytes → Except Failure Document
  | 0, _, _, _ => .error .outOfFuel
  | fuel + 1, encoding, nodes, p =>
    if p = [] then .ok nodes
    else
      match identify encoding p with
      | none => .ok nodes
      | some kind => do
        let (node, p) ← parseNode (readValue encoding (p.length + 1) []) encoding kind p
        let encoding := nextEncoding encoding node
        readDocument fuel encoding (nodes ++ [node]) (skipWhiteSpace encoding p)

/-- `TiXmlDocument::Parse`, and `Error` when it comes back. -/
def parse (text : Bytes) : Except Failure Document :=
  if text = [] then .error .error
  else do
    let encoding := match text with
      | 0xef :: 0xbb :: 0xbf :: _ => .utf8
      | _ => .unknown
    let nodes ← readDocument (text.length + 1) encoding [] (skipWhiteSpace encoding text)
    if nodes = [] then .error .error else .ok nodes

/-- The end of every line becomes a line feed. -/
def normaliseLines : Bytes → Bytes
  | 13 :: 10 :: rest => 10 :: normaliseLines rest
  | 13 :: rest => 10 :: normaliseLines rest
  | c :: rest => c :: normaliseLines rest
  | [] => []

/-- `TiXmlDocument::LoadFile` on what a file holds. -/
def loadFile (content : Bytes) : Except Failure Document :=
  if content = [] then .error .error else parse (normaliseLines (cStr content))

end LibWfut.TinyXml
