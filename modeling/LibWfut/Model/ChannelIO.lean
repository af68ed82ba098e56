import LibWfut.Model.FileIO

/-! # The channel and mirror documents

`ChannelParser`, `MirrorParser` and `ChannelWriter`, over the trees of TinyXML. -/

namespace LibWfut

structure ChannelObject where
  name : Bytes := []
  description : Bytes := []
  url : Bytes := []
  email : Bytes := []
  logo : Bytes := []
  deriving DecidableEq

structure MirrorObject where
  name : Bytes := []
  url : Bytes := []
  deriving DecidableEq

/-! ## Tags -/

def tagName : Bytes := ascii "name"

def tagDescription : Bytes := ascii "description"

def tagUrl : Bytes := ascii "url"

def tagEmail : Bytes := ascii "email"

def tagLogo : Bytes := ascii "logo"

def tagChannel : Bytes := ascii "channel"

def tagChannellist : Bytes := ascii "channelList"

def tagMirror : Bytes := ascii "mirror"

def tagMirrorlist : Bytes := ascii "mirrorList"

/-! ## Elements -/

/-- What a `TiXmlElement` carries besides its name. -/
structure XmlElement where
  attributes : Attributes
  children : List XmlNode

/-- `ToElement()` -/
def XmlNode.toElement : XmlNode → Option XmlElement
  | .element _ attributes children => some ⟨attributes, children⟩
  | _ => none

/-- Only elements have children here. -/
def XmlNode.children : XmlNode → List XmlNode
  | .element _ _ children => children
  | _ => []

/-- The element children with this name. -/
def elementsNamed (tag : Bytes) (children : List XmlNode) : List XmlElement :=
  (children.filter (hasValue tag)).filterMap XmlNode.toElement

/-- `FirstChildElement(tag)` -/
def firstChildElement (tag : Bytes) (children : List XmlNode) : Option XmlElement :=
  (elementsNamed tag children).head?

/-- The elements from `FirstChildElement(tag)` on, `NextSiblingElement()` by
`NextSiblingElement()`. -/
def elementsFrom (tag : Bytes) : List XmlNode → List XmlElement
  | [] => []
  | node :: rest =>
    if node.isElement ∧ hasValue tag node then (node :: rest).filterMap XmlNode.toElement
    else elementsFrom tag rest

/-! ## Parsing -/

/-- The value of the first node inside the first element of this name, for a field that
is left as it was when there is none. -/
def childValue (element : XmlElement) (tag : Bytes) (field : Bytes) : Bytes :=
  match firstChildElement tag element.children with
  | none => field
  | some e =>
    match e.children with
    | [] => field
    | node :: _ => cStr node.value

def parseChannel (element : XmlElement) (channel : ChannelObject) : ChannelObject where
  name := (getAttribute element.attributes tagName).getD channel.name
  description := childValue element tagDescription channel.description
  url := childValue element tagUrl channel.url
  email := childValue element tagEmail channel.email
  logo := childValue element tagLogo channel.logo

def parseMirror (element : XmlElement) (mirror : MirrorObject) : MirrorObject where
  name := childValue element tagName mirror.name
  url := childValue element tagUrl mirror.url

/-- The common loop of `parseChannels` and `parseMirrors`. -/
def parseRecords {α : Type} (tag : Bytes) (parse : XmlElement → α) (node : XmlNode)
    (list : List α) : List α :=
  (elementsFrom tag node.children).foldl (fun list e => list ++ [parse e]) list

def parseChannels (node : XmlNode) (channels : List ChannelObject) : List ChannelObject :=
  parseRecords tagChannel (fun e => parseChannel e {}) node channels

def parseMirrors (node : XmlNode) (mirrors : List MirrorObject) : List MirrorObject :=
  parseRecords tagMirror (fun e => parseMirror e {}) node mirrors

/-- What the parsers do with a document, `none` if TinyXML reports an error. -/
def parseRoot {α : Type} (root : Bytes) (parse : XmlNode → List α → List α)
    (doc : Option Document) (list : List α) : ℤ × List α :=
  match doc with
  | none => (1, list)
  | some nodes =>
    match nodes.find? (hasValue root) with
    | none => (1, list)
    | some node => (0, parse node list)

/-- `parse` is `TiXmlDocument::Parse`. -/
def parseChannelListXML (parse : Bytes → Option Document) (xml : Bytes)
    (channels : List ChannelObject) : ℤ × List ChannelObject :=
  parseRoot tagChannellist parseChannels (parse (cStr xml)) channels

/-- `file` is what the file of the given name holds, if it can be opened. -/
def parseChannelList (load : Bytes → Option Document) (file : Option Bytes)
    (channels : List ChannelObject) : ℤ × List ChannelObject :=
  parseRoot tagChannellist parseChannels (file.bind load) channels

def parseMirrorListXML (parse : Bytes → Option Document) (xml : Bytes)
    (mirrors : List MirrorObject) : ℤ × List MirrorObject :=
  parseRoot tagMirrorlist parseMirrors (parse (cStr xml)) mirrors

/-! ## Writing -/

/-- An element that holds one text. -/
def textElement (tag text : Bytes) : XmlNode :=
  .element tag [] [.text text]

/-- The children `writeChannel` inserts. -/
def writeChannel (channel : ChannelObject) : List XmlNode :=
  [textElement tagName channel.name, textElement tagDescription channel.description,
    textElement tagUrl channel.url, textElement tagEmail channel.email,
    textElement tagLogo channel.logo]

/-- The document `writeChannelList` saves. -/
def channelListDocument (channels : List ChannelObject) : Document :=
  [.declaration (ascii "1.0") [] [],
    .element tagChannellist []
      (channels.map fun channel => .element tagChannel [] (writeChannel channel))]

/-- `save` is `TiXmlDocument::SaveFile`. -/
def writeChannelList (save : Bytes → Document → Bool) (filename : Bytes)
    (channels : List ChannelObject) : ℤ :=
  if save filename (channelListDocument channels) then 0 else 1

end LibWfut
