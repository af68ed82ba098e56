import LibWfut.Verification.Client.Containment
import LibWfut.Verification.Tool.Runs
import LibWfut.Verification.Xml.FileLists

/-! # What a server offers

A server sends the text of a list, which TinyXML reads as the list. -/

namespace LibWfut

open FileTree Machine TinyXml

/-- TinyXML reads and prints the documents. -/
structure UsesTinyXml (env : Environment) : Prop where
  load : ReadsAs env.load loadFile
  parse : ReadsAs env.parse TinyXml.parse
  print : env.print = savedText

/-! ## Loading -/

section Loading

variable {o : Options} {env : Environment} {fs fs' : FileSystem} {channel url : Bytes}
  {files l : ChannelFileList} {lists : Loaded}

theorem getFileList_offered (hparse : ReadsAs env.parse TinyXml.parse) (hl : NameSurvives l)
    (hsent : env.download url = some (fileListText l)) :
    getFileList env url = .ok (some (restored l)) := by
  unfold getFileList
  simp only [hsent, parseFileListXML_saved hparse _ hl, ok_bind]
  rfl

/-- The list of the server is what comes back of its text. -/
theorem loadLists_offered (hparse : ReadsAs env.parse TinyXml.parse) (hl : NameSurvives l)
    (hlocal : loadList env o.localWfut o.channel fs = .ok (some (channel, files)))
    (hlog : osExists fs o.tmpWfut = false) (hsystem : o.systemPath = [])
    (hnamed : ¬(channel = [] ∨ channel = ascii "."))
    (hsent : env.download (serverWfut (o.mirrorRoot env) channel) = some (fileListText l)) :
    loadLists o env fs = .ok (some ⟨channel, o.mirrorRoot env, files, .empty, restored l⟩) := by
  have hmerge : mergeTmp env o.tmpWfut files fs = .ok (some files) := by
    rw [mergeTmp, if_neg (by simp [hlog])]
  have hnone : loadSystem o env channel fs = .ok (some (channel, .empty)) := by
    rw [loadSystem, if_pos hsystem]
  have hserver := getFileList_offered hparse hl hsent
  unfold loadLists
  simp only [hlocal, ok_bind, hmerge, hnone]
  rw [loadServer, if_neg hnamed, hserver]
  rfl

/-- What `main` does with its lists. -/
theorem main_of_loaded (h : loadLists o env fs = .ok (some lists)) :
    main o env fs = update o env fs lists := by
  unfold main
  rw [h]
  rfl

end Loading

/-! ## One file -/

/-- Updating a channel under `p`. -/
def underP (channel : Bytes) (h : 0 ∉ channel := by decide) : Options where
  serverRoot := ascii "http://h"
  channel := channel
  localPath := ascii "p"
  terminated := ⟨by decide, h, by decide, by decide⟩

/-- The channel `c` with the one file. -/
def channelC : ChannelFileList :=
  (intoD (ascii "x")).server

/-- A list of one file with a name of one letter comes back as it is. -/
theorem restored_single {name : Bytes} {fo : FileObject} (hname : cStr name = name)
    (hfo : reread fo = fo) :
    restored ((ChannelFileList.empty.setName name).addFile fo) =
      (ChannelFileList.empty.setName name).addFile fo := by
  have hfiles : filesOf ((ChannelFileList.empty.setName name).addFile fo) = [fo] := rfl
  rw [restored, hfiles, List.map_singleton, hfo]
  change addFiles (ChannelFileList.empty.setName (cStr name)) [fo] = _
  rw [hname]
  rfl

theorem nameSurvives_of_plain {l : ChannelFileList}
    (h : (∀ b ∈ cStr l.name, charLength .utf8 b = 1) ∧ ¬ascii "&#x" <:+: cStr l.name) :
    NameSurvives l :=
  ⟨aligned_of_single h.1, h.2⟩

/-- A server that sends the list for the channel, and whose one download succeeds. -/
def offering (channel : Bytes) (l : ChannelFileList) (save : TextWrite) : Environment where
  load text := (loadFile text).toOption
  tooLong _ := true
  parse text := (TinyXml.parse text).toOption
  print := savedText
  uninit _ _ := emptyFile []
  download url :=
    if url = serverWfut (ascii "http://h") channel then some (fileListText l) else none
  shuffle := id
  got := wholeBlocks
  polls := [{ running := 0 }, succeeds]
  logs _ := { put := 1000 }
  save := save
  removeOk := true

/-- The server has one file. -/
def oneFileEnvironment (save : TextWrite) : Environment :=
  offering (ascii "c") channelC save

/-- In a tree without lists the list of the server is all there is. -/
def offeredTo (channel : Bytes) (l : ChannelFileList) : Loaded :=
  ⟨channel, ascii "http://h", .empty, .empty, l⟩

theorem nameSurvives_channelC : NameSurvives channelC :=
  nameSurvives_of_plain (by decide +kernel)

theorem restored_channelC : restored channelC = channelC :=
  restored_single rfl (by decide +kernel)

/-- What a run on the channel `c` loads. -/
theorem loadLists_channelC {env : Environment} {fs : FileSystem} {files : ChannelFileList}
    (hparse : ReadsAs env.parse TinyXml.parse)
    (hmirror : (underP (ascii "c")).mirrorRoot env = ascii "http://h")
    (hsent : env.download (ascii "http://h/c/wfut.xml") = some (fileListText channelC))
    (hlocal : loadList env (underP (ascii "c")).localWfut (ascii "c") fs =
      .ok (some (ascii "c", files)))
    (hlog : osExists fs (underP (ascii "c")).tmpWfut = false) :
    loadLists (underP (ascii "c")) env fs =
      .ok (some { offeredTo (ascii "c") channelC with localList := files }) := by
  have hload := @loadLists_offered (underP (ascii "c")) env fs (ascii "c") files channelC hparse
    nameSurvives_channelC hlocal hlog rfl (by decide) (by rw [hmirror]; exact hsent)
  rw [hload, hmirror, restored_channelC]
  rfl

/-- What it is offered in a tree without lists. -/
abbrev oneFileLoaded : Loaded :=
  offeredTo (ascii "c") channelC

theorem loadLists_oneFile (save : TextWrite) :
    loadLists (underP (ascii "c")) (oneFileEnvironment save) .empty = .ok (some oneFileLoaded) :=
  loadLists_channelC (readsAs_toOption TinyXml.parse) rfl rfl rfl rfl

/-- The environment of most examples. -/
abbrev tinyXmlEnvironment : Environment :=
  oneFileEnvironment { put := 1000 }

theorem usesTinyXml_tinyXmlEnvironment : UsesTinyXml tinyXmlEnvironment :=
  ⟨readsAs_toOption loadFile, readsAs_toOption TinyXml.parse, rfl⟩

end LibWfut
