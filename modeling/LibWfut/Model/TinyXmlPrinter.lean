import LibWfut.Model.TinyXml

/-! # The printer of TinyXML

What `tinyxml.cpp` prints into a file, and the copies it puts into a document. A text is
never a CDATA section here: no writer makes one. -/

namespace LibWfut.TinyXml

/-! ## Escapes -/

/-- A digit of `%02X`. -/
def upperHexDigit (n : UInt8) : UInt8 :=
  if n < 10 then 48 + n else 55 + n

/-- A character of `EncodeString` that stands alone. -/
def encodeChar (c : UInt8) : Bytes :=
  if c = 38 then ascii "&amp;"
  else if c = 60 then ascii "&lt;"
  else if c = 62 then ascii "&gt;"
  else if c = 34 then ascii "&quot;"
  else if c = 39 then ascii "&apos;"
  else if c < 32 then ascii "&#x" ++ [upperHexDigit (c / 16), upperHexDigit (c % 16), 59]
  else [c]

/-- `EncodeString`: what looks like a hexadecimal reference is copied up to its semicolon or
the last character. `copying` says that such a copy is going on. -/
def encodeFrom : Bool → Bytes → Bytes
  | _, [] => []
  | copying, c :: rest =>
    if rest ≠ [] ∧ (copying ∨ (ascii "&#x").isPrefixOf (c :: rest)) then
      c :: encodeFrom (rest.head? ≠ some 59) rest
    else encodeChar c ++ encodeFrom false rest

def encodeString (str : Bytes) : Bytes :=
  encodeFrom false str

/-! ## Copies -/

/-- What `First` and `Next` pass: behind the first attribute an attribute without a name and a
value is taken for the end. -/
def passed : Attributes → Attributes
  | [] => []
  | a :: rest => a :: rest.takeWhile fun a => !(a.1 = [] ∧ a.2 = [])

/-- `CopyTo` of the attributes -/
def copyAttributes (attributes : Attributes) : Attributes :=
  (passed attributes).foldl (fun copy a => setAttribute copy (cStr a.1) (cStr a.2)) []

mutual

/-- `Clone` -/
def clone : XmlNode → XmlNode
  | .element value attributes children =>
    .element (cStr value) (copyAttributes attributes) (cloneAll children)
  | .comment value => .comment (cStr value)
  | .text value => .text (cStr value)
  | .declaration version encoding standalone => .declaration version encoding standalone
  | .unknown value => .unknown (cStr value)

def cloneAll : List XmlNode → List XmlNode
  | [] => []
  | node :: rest => clone node :: cloneAll rest

end

/-! ## Printing -/

/-- Four blanks for each level. -/
def indent (depth : ℕ) : Bytes :=
  (List.replicate depth (ascii "    ")).flatten

/-- `TiXmlAttribute::Print` -/
def printAttribute (a : Bytes × Bytes) : Bytes :=
  let quote := if a.2.contains 34 then ascii "'" else ascii "\""
  cStr (encodeString a.1) ++ ascii "=" ++ quote ++ cStr (encodeString a.2) ++ quote

def printAttributes (attributes : Attributes) : Bytes :=
  (passed attributes).flatMap fun a => ascii " " ++ printAttribute a

/-- A field of a declaration, with a blank behind it. -/
def printField (name : Bytes) (value : Bytes) : Bytes :=
  if value = [] then [] else name ++ ascii "=\"" ++ cStr value ++ ascii "\" "

def isText : XmlNode → Bool
  | .text _ => true
  | _ => false

mutual

/-- `Print` of a node -/
def printNode (depth : ℕ) : XmlNode → Bytes
  | .element value attributes children =>
    indent depth ++ ascii "<" ++ cStr value ++ printAttributes attributes ++
      match children with
      | [] => ascii " />"
      | [.text text] =>
        ascii ">" ++ cStr (encodeString text) ++ ascii "</" ++ cStr value ++ ascii ">"
      | children =>
        ascii ">" ++ printChildren (depth + 1) children ++ ascii "\n" ++ indent depth ++
          ascii "</" ++ cStr value ++ ascii ">"
  | .comment value => indent depth ++ ascii "<!--" ++ cStr value ++ ascii "-->"
  | .text value => cStr (encodeString value)
  | .declaration version encoding standalone =>
    ascii "<?xml " ++ printField (ascii "version") version ++
      printField (ascii "encoding") encoding ++ printField (ascii "standalone") standalone ++
        ascii "?>"
  | .unknown value => indent depth ++ ascii "<" ++ cStr value ++ ascii ">"

/-- Every child but a text starts a line. -/
def printChildren (depth : ℕ) : List XmlNode → Bytes
  | [] => []
  | node :: rest =>
    (if isText node then [] else ascii "\n") ++ printNode depth node ++ printChildren depth rest

end

/-- `TiXmlDocument::Print` -/
def printDocument (nodes : Document) : Bytes :=
  nodes.flatMap fun node => printNode 0 node ++ ascii "\n"

/-- The text of a document whose nodes were given to `InsertEndChild`. -/
def savedText (nodes : Document) : Bytes :=
  printDocument (cloneAll nodes)

end LibWfut.TinyXml
