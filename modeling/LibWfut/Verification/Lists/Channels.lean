import LibWfut.Verification.Lists.Records

/-! # Saving a channel list and reading it back

The writer makes the name of a channel an element, the parser takes it from an
attribute. -/

namespace LibWfut

open Encoder

/-! ## What TinyXML keeps of a text -/

mutual

/-- A text without characters is not read back. -/
def withoutEmptyText : XmlNode → XmlNode
  | .element value attributes children => .element value attributes (withoutEmptyTexts children)
  | node => node

def withoutEmptyTexts : List XmlNode → List XmlNode
  | [] => []
  | .text [] :: rest => withoutEmptyTexts rest
  | node :: rest => withoutEmptyText node :: withoutEmptyTexts rest

end

/-- No zero byte, and white space only singly between other characters. -/
structure Condensed (s : Bytes) : Prop where
  zero : 0 ∉ s
  leading : ∀ c ∈ s.head?, isSpace c = false
  trailing : ∀ c ∈ s.getLast?, isSpace c = false
  single : ∀ p ∈ s.zip s.tail, isSpace p.1 = false ∨ isSpace p.2 = false

instance (s : Bytes) : Decidable (Condensed s) :=
  decidable_of_iff
    ((!s.contains 0 && s.head?.all (fun c => !isSpace c) && s.getLast?.all (fun c => !isSpace c) &&
      (s.zip s.tail).all fun p => !isSpace p.1 || !isSpace p.2) = true) (by
    constructor
    · intro h
      simp only [Bool.and_eq_true, Bool.not_eq_true', Option.all_eq_true, List.all_eq_true,
        Bool.or_eq_true] at h
      obtain ⟨⟨⟨hzero, hleading⟩, htrailing⟩, hsingle⟩ := h
      exact ⟨by simpa using hzero, hleading, htrailing, hsingle⟩
    · rintro ⟨hzero, hleading, htrailing, hsingle⟩
      simp only [Bool.and_eq_true, Bool.not_eq_true', Option.all_eq_true, List.all_eq_true,
        Bool.or_eq_true]
      exact ⟨⟨⟨by simpa using hzero, hleading⟩, htrailing⟩, hsingle⟩)

structure ChannelObject.Condensed (channel : ChannelObject) : Prop where
  name : LibWfut.Condensed channel.name
  description : LibWfut.Condensed channel.description
  url : LibWfut.Condensed channel.url
  email : LibWfut.Condensed channel.email
  logo : LibWfut.Condensed channel.logo

/-- The fields that are read back are C strings. -/
structure ChannelObject.Terminated (channel : ChannelObject) : Prop where
  description : 0 ∉ channel.description
  url : 0 ∉ channel.url
  email : 0 ∉ channel.email
  logo : 0 ∉ channel.logo

theorem ChannelObject.Condensed.terminated {channel : ChannelObject} (h : channel.Condensed) :
    channel.Terminated :=
  ⟨h.description.zero, h.url.zero, h.email.zero, h.logo.zero⟩

/-- A saved list of such channels is read back as it was written, but for the empty
texts. -/
def ReadsBack (reread : Document → Option Document) : Prop :=
  ∀ channels : List ChannelObject, (∀ c ∈ channels, c.Condensed) →
    reread (channelListDocument channels) =
      some (withoutEmptyTexts (channelListDocument channels))

/-! ## One channel -/

/-- What is read back inside an element that was given one text. -/
def textNodes (text : Bytes) : List XmlNode :=
  if text = [] then [] else [.text text]

theorem withoutEmptyText_textElement (tag text : Bytes) :
    withoutEmptyText (textElement tag text) = .element tag [] (textNodes text) := by
  cases text with
  | nil => rfl
  | cons c text => simp [textElement, withoutEmptyText, withoutEmptyTexts, textNodes]

/-- The elements `writeChannel` inserts, as they are read back. -/
def fieldElements (channel : ChannelObject) : List XmlNode :=
  [.element tagName [] (textNodes channel.name),
    .element tagDescription [] (textNodes channel.description),
    .element tagUrl [] (textNodes channel.url), .element tagEmail [] (textNodes channel.email),
    .element tagLogo [] (textNodes channel.logo)]

theorem withoutEmptyTexts_writeChannel (channel : ChannelObject) :
    withoutEmptyTexts (writeChannel channel) = fieldElements channel := by
  have hcons : ∀ tag text rest, withoutEmptyTexts (textElement tag text :: rest) =
      withoutEmptyText (textElement tag text) :: withoutEmptyTexts rest := fun _ _ _ => rfl
  simp only [writeChannel, hcons, withoutEmptyText_textElement]
  rfl

/-- The first element of this name is found behind elements of other names. -/
theorem childValue_eq {tag text : Bytes} {attributes : Attributes} (before : List XmlNode)
    {after : List XmlNode}
    (hbefore : ∀ n ∈ before, hasValue tag n = false) (hzero : 0 ∉ text) :
    childValue ⟨attributes, before ++ .element tag [] (textNodes text) :: after⟩ tag [] =
      text := by
  have hself : hasValue tag (.element tag [] (textNodes text)) = true := by
    simp [hasValue, XmlNode.value]
  have hnone : before.filter (hasValue tag) = [] :=
    List.filter_eq_nil_iff.mpr fun n hn => by simp [hbefore n hn]
  have hfirst : firstChildElement tag (before ++ .element tag [] (textNodes text) :: after) =
      some ⟨[], textNodes text⟩ := by
    simp [firstChildElement, elementsNamed, hnone, hself, XmlNode.toElement]
  simp only [childValue, hfirst]
  by_cases htext : text = []
  · simp [textNodes, htext]
  · simp [textNodes, htext, XmlNode.value, cStr_eq_self_iff.mpr hzero]

/-- All of a channel but its name comes back. -/
theorem parseChannel_fieldElements {channel : ChannelObject} (h : channel.Terminated) :
    parseChannel ⟨[], fieldElements channel⟩ {} = { channel with name := [] } := by
  have hskip : ∀ {tag tag' text : Bytes}, cStr tag' ≠ cStr tag →
      hasValue tag (.element tag' [] (textNodes text)) = false := by
    intro tag tag' text hne
    exact decide_eq_false hne
  have hdescription : childValue ⟨[], fieldElements channel⟩ tagDescription [] =
      channel.description :=
    childValue_eq ((fieldElements channel).take 1)
      (by simp [fieldElements, hskip (show cStr tagName ≠ cStr tagDescription by decide)])
      h.description
  have hurl : childValue ⟨[], fieldElements channel⟩ tagUrl [] = channel.url :=
    childValue_eq ((fieldElements channel).take 2)
      (by simp [fieldElements, hskip (show cStr tagName ≠ cStr tagUrl by decide),
        hskip (show cStr tagDescription ≠ cStr tagUrl by decide)])
      h.url
  have hemail : childValue ⟨[], fieldElements channel⟩ tagEmail [] = channel.email :=
    childValue_eq ((fieldElements channel).take 3)
      (by simp [fieldElements, hskip (show cStr tagName ≠ cStr tagEmail by decide),
        hskip (show cStr tagDescription ≠ cStr tagEmail by decide),
        hskip (show cStr tagUrl ≠ cStr tagEmail by decide)])
      h.email
  have hlogo : childValue ⟨[], fieldElements channel⟩ tagLogo [] = channel.logo :=
    childValue_eq ((fieldElements channel).take 4)
      (by simp [fieldElements, hskip (show cStr tagName ≠ cStr tagLogo by decide),
        hskip (show cStr tagDescription ≠ cStr tagLogo by decide),
        hskip (show cStr tagUrl ≠ cStr tagLogo by decide),
        hskip (show cStr tagEmail ≠ cStr tagLogo by decide)])
      h.logo
  simp only [parseChannel, hdescription, hurl, hemail, hlogo]
  rfl

/-! ## The whole list -/

/-- The elements of a saved list as they are read back. -/
theorem withoutEmptyTexts_channels (channels : List ChannelObject) :
    withoutEmptyTexts (channels.map fun c => .element tagChannel [] (writeChannel c)) =
      channels.map fun c => .element tagChannel [] (fieldElements c) := by
  induction channels with
  | nil => rfl
  | cons c channels ih =>
      rw [List.map_cons, List.map_cons, withoutEmptyTexts, ih, withoutEmptyText,
        withoutEmptyTexts_writeChannel]
      simp

/-- Reading a saved list always succeeds, and all the names are lost. -/
theorem parseRoot_channels {channels : List ChannelObject} (h : ∀ c ∈ channels, c.Terminated)
    (list : List ChannelObject) :
    parseRoot tagChannellist parseChannels
        (some (withoutEmptyTexts (channelListDocument channels))) list =
      (0, list ++ channels.map fun c => { c with name := [] }) := by
  have hread : withoutEmptyTexts (channelListDocument channels) =
      [.declaration (ascii "1.0") [] [], .element tagChannellist []
        (channels.map fun c => .element tagChannel [] (fieldElements c))] := by
    simp only [channelListDocument, withoutEmptyTexts, withoutEmptyText,
      withoutEmptyTexts_channels]
  have hroot : (withoutEmptyTexts (channelListDocument channels)).find?
      (hasValue tagChannellist) = some (.element tagChannellist []
        (channels.map fun c => .element tagChannel [] (fieldElements c))) := by
    have hdecl : hasValue tagChannellist (.declaration (ascii "1.0") [] []) = false := by decide
    rw [hread, List.find?_cons_of_neg (by simp [hdecl]), List.find?_cons_of_pos]
    simp [hasValue, XmlNode.value]
  simp only [parseRoot, hroot, parseChannels, parseRecords_eq, XmlNode.children,
    elementsFrom_map, List.map_map, Prod.mk.injEq, true_and, List.append_cancel_left_eq]
  exact List.map_congr_left fun c hc => parseChannel_fieldElements (h c hc)

theorem parseRoot_channelListDocument {channels : List ChannelObject}
    (h : ∀ c ∈ channels, c.Condensed) :
    parseRoot tagChannellist parseChannels
        (some (withoutEmptyTexts (channelListDocument channels))) [] =
      (0, channels.map fun c => { c with name := [] }) := by
  rw [parseRoot_channels fun c hc => (h c hc).terminated, List.nil_append]

/-- A saved list is read back as it was exactly when no channel in it has a name. -/
theorem channel_list_round_trip {reread : Document → Option Document} (hread : ReadsBack reread)
    (channels : List ChannelObject) (h : ∀ c ∈ channels, c.Condensed) :
    parseRoot tagChannellist parseChannels (reread (channelListDocument channels)) [] =
        (0, channels) ↔ ∀ c ∈ channels, c.name = [] := by
  rw [hread channels h, parseRoot_channelListDocument h, Prod.mk.injEq]
  constructor
  · rintro ⟨-, heq⟩ c hc
    rw [← heq] at hc
    obtain ⟨c', -, rfl⟩ := List.mem_map.mp hc
    rfl
  · intro hnames
    refine ⟨rfl, (List.map_congr_left fun c hc => ?_).trans (List.map_id _)⟩
    rw [← hnames c hc]
    rfl

def mediaChannel : ChannelObject where
  name := ascii "media"
  description := ascii "all media"
  url := ascii "http://h/"
  email := ascii "a@h"

def namelessChannel : ChannelObject :=
  { mediaChannel with name := [] }

theorem channel_list_round_trip_nameless :
    parseRoot tagChannellist parseChannels
        (some (withoutEmptyTexts (channelListDocument [namelessChannel]))) [] =
        (0, [namelessChannel]) ↔ ∀ c ∈ [namelessChannel], c.name = [] :=
  @channel_list_round_trip (fun doc => some (withoutEmptyTexts doc)) (fun _ _ => rfl)
    [namelessChannel] (by
      intro c hc
      rw [List.mem_singleton.mp hc]
      constructor <;> decide)

/-- The name of a channel is not read back. -/
theorem channel_list_round_trip_named :
    mediaChannel.Condensed ∧
      parseRoot tagChannellist parseChannels
        (some (withoutEmptyTexts (channelListDocument [mediaChannel]))) [] ≠
        (0, [mediaChannel]) := by
  have hcondensed : mediaChannel.Condensed := by constructor <;> decide
  refine ⟨hcondensed, ?_⟩
  rw [parseRoot_channelListDocument]
  · decide
  · intro c hc
    rw [List.mem_singleton.mp hc]
    exact hcondensed

end LibWfut
