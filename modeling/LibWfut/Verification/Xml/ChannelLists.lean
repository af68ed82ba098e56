import LibWfut.Model.Main
import LibWfut.Verification.Xml.FileLists

/-! # The text of a channel list

Saving a channel list as a text and reading the text, with TinyXML as it is. -/

namespace LibWfut

open TinyXml

/-! ## Channels that come back -/

/-- The texts of a channel, in the order in which they are written. -/
def ChannelObject.texts (channel : ChannelObject) : List Bytes :=
  [channel.name, channel.description, channel.url, channel.email, channel.logo]

/-- Every text is given back by its element, where it is not empty. -/
def ChannelObject.Survives (channel : ChannelObject) : Prop :=
  ∀ v ∈ channel.texts, cStr v = [] ∨ ReadableText .utf8 (cStr v)

/-- A channel with its texts as C strings. -/
def ChannelObject.saved (channel : ChannelObject) : ChannelObject where
  name := cStr channel.name
  description := cStr channel.description
  url := cStr channel.url
  email := cStr channel.email
  logo := cStr channel.logo

/-- What comes back of a channel. -/
def ChannelObject.restored (channel : ChannelObject) : ChannelObject :=
  { channel.saved with name := [] }

section Channel

variable {channel : ChannelObject}

theorem terminated_saved (channel : ChannelObject) : channel.saved.Terminated :=
  ⟨not_mem_cStr _, not_mem_cStr _, not_mem_cStr _, not_mem_cStr _⟩

theorem restored_restored_channel (channel : ChannelObject) :
    channel.restored.restored = channel.restored := by
  simp [ChannelObject.restored, ChannelObject.saved, cStr_cStr]

/-- Only C strings come back, and no name. -/
theorem restored_channel_eq_self_iff :
    channel.restored = channel ↔ channel.name = [] ∧ ∀ v ∈ channel.texts, 0 ∉ v := by
  have heq : channel.restored = channel ↔ channel.name = [] ∧
      cStr channel.description = channel.description ∧ cStr channel.url = channel.url ∧
        cStr channel.email = channel.email ∧ cStr channel.logo = channel.logo := by
    cases channel
    simp [ChannelObject.restored, ChannelObject.saved, eq_comm]
  simp only [heq, cStr_eq_self_iff, ChannelObject.texts, List.forall_mem_cons, List.not_mem_nil,
    false_implies, implies_true, and_true]
  constructor
  · rintro ⟨hname, hrest⟩
    exact ⟨hname, by simp [hname], hrest⟩
  · rintro ⟨hname, -, hrest⟩
    exact ⟨hname, hrest⟩

theorem ChannelObject.Survives.restored (h : channel.Survives) : channel.restored.Survives := by
  simp only [ChannelObject.Survives, ChannelObject.texts, ChannelObject.restored,
    ChannelObject.saved, List.forall_mem_cons, cStr_cStr] at h ⊢
  exact ⟨.inl rfl, h.2⟩

end Channel

/-! ## The document -/

/-- The names of the elements of a channel list. -/
def channelTags : List Bytes :=
  [tagName, tagDescription, tagUrl, tagEmail, tagLogo, tagChannel, tagChannellist]

theorem isName_channelTag {tag : Bytes} (h : tag ∈ channelTags) : IsName .utf8 tag := by
  have hall : ∀ tag ∈ channelTags, tag.head?.any isNameStart = true ∧
      tag.all isNameChar = true ∧ tag.head? ≠ some 0xef := by decide
  obtain ⟨hfirst, hletters, hmark⟩ := hall tag h
  exact isName_of_letters hfirst hletters hmark

theorem clone_textElement {tag : Bytes} (h : tag ∈ channelTags) (text : Bytes) :
    clone (textElement tag text) = textElement tag (cStr text) := by
  rw [textElement, clone, (isName_channelTag h).cStr_eq]
  rfl

theorem cloneAll_writeChannel (channel : ChannelObject) :
    cloneAll (writeChannel channel) = writeChannel channel.saved := by
  simp only [cloneAll_eq_map, writeChannel, List.map_cons, List.map_nil]
  rw [clone_textElement (by decide), clone_textElement (by decide), clone_textElement (by decide),
    clone_textElement (by decide), clone_textElement (by decide)]
  rfl

/-- The copy that is saved has C strings. -/
theorem cloneAll_channelListDocument (channels : List ChannelObject) :
    cloneAll (channelListDocument channels) =
      channelListDocument (channels.map ChannelObject.saved) := by
  have hchannel : ∀ c : ChannelObject, clone (.element tagChannel [] (writeChannel c)) =
      .element tagChannel [] (writeChannel c.saved) := by
    intro c
    rw [clone, cloneAll_writeChannel, (isName_channelTag (by decide)).cStr_eq]
    rfl
  have hchannels : cloneAll (channels.map fun c => .element tagChannel [] (writeChannel c)) =
      (channels.map ChannelObject.saved).map fun c => .element tagChannel [] (writeChannel c) := by
    rw [cloneAll_eq_map, List.map_map, List.map_map]
    exact List.map_congr_left fun c _ => hchannel c
  have hroot : cStr tagChannellist = tagChannellist := (isName_channelTag (by decide)).cStr_eq
  simp only [channelListDocument, cloneAll, clone, hchannels, hroot]
  rfl

theorem printable_textElement {tag text : Bytes} (htag : tag ∈ channelTags)
    (h : text = [] ∨ ReadableText .utf8 text) : Printable .utf8 (textElement tag text) := by
  refine ⟨isName_channelTag htag, by simp, by simp, ?_⟩
  rcases h with rfl | h
  · exact .inl rfl
  · exact .inr ⟨⟨h, trivial⟩, List.isChain_singleton _⟩

/-- Elements in an element without attributes. -/
theorem printable_elements {tag : Bytes} {children : List XmlNode} (htag : tag ∈ channelTags)
    (htexts : ∀ n ∈ children, isText n = false)
    (h : ∀ n ∈ children, Printable .utf8 n) : Printable .utf8 (.element tag [] children) :=
  ⟨isName_channelTag htag, by simp, by simp,
    .inr ⟨printableAll_iff.mpr h, apart_of_not_text htexts⟩⟩

theorem printable_channel {channel : ChannelObject} (h : channel.Survives) :
    Printable .utf8 (.element tagChannel [] (writeChannel channel.saved)) := by
  refine printable_elements (by decide) (by simp [writeChannel, textElement, isText]) ?_
  simp only [ChannelObject.Survives, ChannelObject.texts, List.forall_mem_cons] at h
  obtain ⟨hname, hdescription, hurl, hemail, hlogo, -⟩ := h
  simp only [writeChannel, List.forall_mem_cons, List.not_mem_nil, false_implies, implies_true,
    and_true]
  exact ⟨printable_textElement (by decide) hname, printable_textElement (by decide) hdescription,
    printable_textElement (by decide) hurl, printable_textElement (by decide) hemail,
    printable_textElement (by decide) hlogo⟩

theorem survives_channelListDocument {channels : List ChannelObject}
    (h : ∀ c ∈ channels, c.Survives) :
    TinyXml.Survives (channelListDocument (channels.map ChannelObject.saved)) := by
  have hversion : IsField .unknown (ascii "1.0") :=
    ⟨aligned_of_single (by decide +kernel), by decide +kernel⟩
  have hnone : IsField .unknown [] := ⟨.nil, by simp⟩
  have hutf8 : nextEncoding .unknown (.declaration (ascii "1.0") [] []) = .utf8 := rfl
  refine ⟨by simp [channelListDocument], ⟨hversion, hnone, hnone⟩, rfl, ?_⟩
  rw [hutf8, List.map_map]
  refine ⟨printable_elements (by decide) ?_ ?_, rfl, trivial⟩
  · intro n hn
    obtain ⟨c, -, rfl⟩ := List.mem_map.mp hn
    rfl
  · intro n hn
    obtain ⟨c, hc, rfl⟩ := List.mem_map.mp hn
    exact printable_channel (h c hc)

/-! ## Saving and reading -/

/-- The text that `writeChannelList` saves. -/
def channelListText (channels : List ChannelObject) : Bytes :=
  savedText (channelListDocument channels)

section Text

variable {channels : List ChannelObject}

theorem loadFile_channelListText (h : ∀ c ∈ channels, c.Survives) :
    loadFile (channelListText channels) =
      .ok (withoutEmptyTexts (channelListDocument (channels.map ChannelObject.saved))) := by
  rw [channelListText, savedText, cloneAll_channelListDocument,
    loadFile_print (survives_channelListDocument h)]

theorem parse_channelListText (h : ∀ c ∈ channels, c.Survives) :
    TinyXml.parse (cStr (channelListText channels)) =
      .ok (withoutEmptyTexts (channelListDocument (channels.map ChannelObject.saved))) := by
  have hsurvives := survives_channelListDocument h
  rw [channelListText, savedText, cloneAll_channelListDocument,
    (inLine_printDocument hsurvives.nodes).cStr_eq, parse_print hsurvives]

theorem parseRoot_saved (channels list : List ChannelObject) :
    parseRoot tagChannellist parseChannels (some (withoutEmptyTexts
        (channelListDocument (channels.map ChannelObject.saved)))) list =
      (0, list ++ channels.map ChannelObject.restored) := by
  rw [parseRoot_channels, List.map_map]
  · rfl
  · intro c hc
    obtain ⟨c', -, rfl⟩ := List.mem_map.mp hc
    exact terminated_saved c'

theorem parseChannelList_saved {load : Bytes → Option Document} (hload : ReadsAs load loadFile)
    (h : ∀ c ∈ channels, c.Survives) (list : List ChannelObject) :
    parseChannelList load (some (channelListText channels)) list =
      (0, list ++ channels.map ChannelObject.restored) := by
  rw [parseChannelList, Option.bind_some, hload.ok _ _ (loadFile_channelListText h),
    parseRoot_saved]

theorem parseChannelListXML_saved {parse : Bytes → Option Document}
    (hparse : ReadsAs parse TinyXml.parse) (h : ∀ c ∈ channels, c.Survives)
    (list : List ChannelObject) :
    parseChannelListXML parse (channelListText channels) list =
      (0, list ++ channels.map ChannelObject.restored) := by
  rw [parseChannelListXML, hparse.ok _ _ (parse_channelListText h), parseRoot_saved]

theorem getChannelList_saved {env : Environment} (hparse : ReadsAs env.parse TinyXml.parse)
    (h : ∀ c ∈ channels, c.Survives) {url : Bytes}
    (hurl : env.download url = some (channelListText channels)) :
    getChannelList env url = some (channels.map ChannelObject.restored) := by
  simp [getChannelList, hurl, parseChannelListXML_saved hparse h]

end Text

/-- A saved channel list is read back from its text, from a file or from a server, without the
names. It is the list itself exactly where no channel has a name and all texts are C strings,
and what comes back once comes back as it is. -/
theorem channel_list_text {env : Environment} (hload : ReadsAs env.load loadFile)
    (hparse : ReadsAs env.parse TinyXml.parse) {channels : List ChannelObject}
    (h : ∀ c ∈ channels, c.Survives) (list : List ChannelObject) :
    parseChannelList env.load (some (channelListText channels)) list =
        (0, list ++ channels.map ChannelObject.restored) ∧
      (∀ url, env.download url = some (channelListText channels) →
        getChannelList env url = some (channels.map ChannelObject.restored)) ∧
      parseChannelList env.load
          (some (channelListText (channels.map ChannelObject.restored))) [] =
        (0, channels.map ChannelObject.restored) ∧
      (channels.map ChannelObject.restored = channels ↔
        ∀ c ∈ channels, c.name = [] ∧ ∀ v ∈ c.texts, 0 ∉ v) := by
  have hagain : ∀ c ∈ channels.map ChannelObject.restored, c.Survives := by
    intro c hc
    obtain ⟨c', hc', rfl⟩ := List.mem_map.mp hc
    exact (h c' hc').restored
  refine ⟨parseChannelList_saved hload h list, fun url => getChannelList_saved hparse h, ?_, ?_⟩
  · rw [parseChannelList_saved hload hagain, List.nil_append, List.map_map]
    exact congrArg (Prod.mk 0) (List.map_congr_left fun c _ => restored_restored_channel c)
  · have hself : channels.map ChannelObject.restored = channels ↔
        ∀ c ∈ channels, c.restored = id c := by
      rw [← List.map_inj_left, List.map_id]
    rw [hself]
    exact forall₂_congr fun c _ => restored_channel_eq_self_iff

/-- A server with a list of two channels, where TinyXML reads. -/
def channelServer : Environment where
  load := fun text => (loadFile text).toOption
  parse := fun text => (TinyXml.parse text).toOption
  print := savedText
  uninit := fun _ _ => ⟨[], 0, 0, 0, false, false⟩
  tooLong := fun _ => false
  download := fun url =>
    if url = ascii "http://h/channels.xml" then
      some (channelListText [mediaChannel, namelessChannel])
    else none
  shuffle := id
  got := fun _ _ => 0
  polls := []
  logs := fun _ => { put := 0 }
  save := { put := 0 }
  removeOk := true

theorem survives_mediaChannel : mediaChannel.Survives := by
  have hall : ∀ v ∈ mediaChannel.texts, cStr v = [] ∨
      (∀ c ∈ cStr v, charLength .utf8 c = 1) ∧ ¬ascii "&#x" <:+: cStr v ∧
        blank (cStr v) = false ∧ ((cStr v).IsChain fun a b => a ≠ 32 ∨ b ≠ 32) ∧
          (cStr v).head? ≠ some 32 ∧ (cStr v).getLast? ≠ some 32 ∧
            (cStr v).head? ≠ some 0xef := by decide +kernel
  exact fun v hv => (hall v hv).imp_right readableText_of_single

/-- The name is lost. -/
theorem channel_list_text_server :
    getChannelList channelServer (ascii "http://h/channels.xml") =
      some [namelessChannel, namelessChannel] := by
  have hsurvives : ∀ c ∈ [mediaChannel, namelessChannel], c.Survives := by
    have hnameless : namelessChannel = mediaChannel.restored := by decide
    simp only [List.forall_mem_cons, List.not_mem_nil, false_implies, implies_true, and_true]
    exact ⟨survives_mediaChannel, hnameless ▸ survives_mediaChannel.restored⟩
  have hlist := @channel_list_text channelServer (readsAs_toOption loadFile)
    (readsAs_toOption TinyXml.parse) _ hsurvives []
  have hrestored : [mediaChannel, namelessChannel].map ChannelObject.restored =
      [namelessChannel, namelessChannel] := by decide
  rw [← hrestored]
  exact hlist.2.1 _ rfl

end LibWfut
