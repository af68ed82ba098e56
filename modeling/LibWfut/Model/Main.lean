import LibWfut.Model.ChannelIO
import LibWfut.Model.Client
import LibWfut.Model.Tool

/-! # The command line tool

`main` after the command line was read, with its files in the tree of one process. -/

namespace LibWfut

open FileTree

/-- What the command line sets. Its strings are C strings. -/
structure Options where
  serverRoot : Bytes := ascii "http://white.worldforgedev.org/WFUT/"
  channel : Bytes := ascii "."
  localPath : Bytes := ascii "./"
  systemPath : Bytes := []
  terminated : 0 ∉ serverRoot ∧ 0 ∉ channel ∧ 0 ∉ localPath ∧ 0 ∉ systemPath := by decide

def mirrorFile : Bytes := ascii "mirrors.xml"

def channelFile : Bytes := ascii "wfut.xml"

def tmpFile : Bytes := ascii "tempwfut.xml"

/-- What the system grants while a text is written: `put` bytes are taken before the first
error, and `fclose` fails to flush the last `lost` of them. -/
structure TextWrite where
  openOk : Bool := true
  newReadable : Bool := true
  put : ℕ
  lost : ℕ := 0

/-- What the tool gets from outside. `load`, `parse` and `print` are TinyXML's, `tooLong` says
whether the length that `ftell` finds for a directory is too much for `new char[length + 1]`,
which depends on the file system, `uninit` is what the memory of a list that is parsed holds,
`download` is `IO::downloadFile`, `polls` is what curl does in each turn of the loop, and `logs`
is granted to the signal at that place of the run. -/
structure Environment where
  load : Bytes → Option Document
  tooLong : Bytes → Bool
  parse : Bytes → Option Document
  print : Document → Bytes
  uninit : Bytes → ℕ → FileObject
  download : Bytes → Option Bytes
  shuffle : List MirrorObject → List MirrorObject
  got : Bytes → ℕ → ℕ
  polls : List PollReport
  logs : ℕ → TextWrite
  save : TextWrite
  removeOk : Bool

/-! ## Files -/

/-- The bytes that reach a file. -/
def TextWrite.kept (g : TextWrite) (text : Bytes) : Bytes :=
  (text.take g.put).take ((text.take g.put).length - g.lost)

/-- What opening a file for writing needs of it. -/
def TextWrite.storage (g : TextWrite) : Storage where
  openOk := g.openOk
  newReadable := g.newReadable

/-- `TiXmlDocument::LoadFile` up to the text. A directory can be opened: it is taken for an empty
file, or cannot be read, unless the buffer for it is refused first. -/
def loadText (env : Environment) (path : Bytes) (fs : FileSystem) :
    Except Fault (Option Bytes) :=
  match fopenRead fs path with
  | none => .ok none
  | some n =>
    match n.kind with
    | .directory => if env.tooLong path then .error .badAlloc else .ok none
    | .regular content => .ok (some content)

/-- Open a file with `"w"`, write the text and close it. -/
def writeText (g : TextWrite) (text path : Bytes) (fs : FileSystem) : FileSystem :=
  match fopenWrite g.storage fs path with
  | none => fs
  | some (l, fs) => fs.setContent l (g.kept text)

/-- Open a file that exists with `"a"`, write the text and close it. -/
def appendText (g : TextWrite) (text path : Bytes) (fs : FileSystem) : FileSystem :=
  match fs.resolve (cStr path) with
  | none => fs
  | some l =>
    match (fs.node l).map Node.kind with
    | some (.regular content) =>
      if g.openOk then fs.setContent l (content ++ g.kept text) else fs
    | _ => fs

/-- `remove`, which takes away a file or an empty directory. POSIX lets the system keep the
directory that the process works in, as it does here. -/
def removeFile (removeOk : Bool) (path : Bytes) (fs : FileSystem) : FileSystem :=
  match fs.resolve (cStr path) with
  | none => fs
  | some l => if removeOk then fs.remove l else fs

/-- `TiXmlDocument::SaveFile`: whether `fclose` fails is not asked. -/
def saveFile (g : TextWrite) (text path : Bytes) (fs : FileSystem) : Bool × FileSystem :=
  ((fopenWrite g.storage fs path).isSome && decide (text.length ≤ g.put), writeText g text path fs)

/-- `recordUpdate`, in the tree. -/
def recordUpdateFile (g : TextWrite) (fo : FileObject) (tmpfile : Bytes) (fs : FileSystem) :
    FileSystem :=
  if osExists fs tmpfile then appendText g (logRecord fo) tmpfile fs
  else writeText g (logHeader ++ logRecord fo) tmpfile fs

/-! ## `WFUTClient`'s lists -/

def getLocalList (env : Environment) (filename : Bytes) (fs : FileSystem) :
    Except Fault (ℤ × ChannelFileList) := do
  let text ← loadText env filename fs
  parseFileList env.load (env.uninit filename) text .empty

/-- `none` when the list cannot be downloaded or parsed. -/
def getFileList (env : Environment) (url : Bytes) : Except Fault (Option ChannelFileList) :=
  match env.download url with
  | none => .ok none
  | some xml => do
    let (err, files) ← parseFileListXML env.parse (env.uninit url) xml .empty
    .ok (if err ≠ 0 then none else some files)

/-- `none` when the list cannot be downloaded or parsed. -/
def getChannelList (env : Environment) (url : Bytes) : Option (List ChannelObject) :=
  match env.download url with
  | none => none
  | some xml =>
    let (err, channels) := parseChannelListXML env.parse xml []
    if err ≠ 0 then none else some channels

/-- The result is not used by the caller. -/
def getMirrorList (env : Environment) (url : Bytes) : List MirrorObject :=
  match env.download url with
  | none => []
  | some xml => (parseMirrorListXML env.parse xml []).2

def saveLocalList (env : Environment) (files : ChannelFileList) (filename : Bytes)
    (fs : FileSystem) : ℤ × FileSystem :=
  let (ok, fs) := saveFile env.save (env.print (fileListDocument files)) filename fs
  (if ok then 0 else 1, fs)

/-! ## Paths -/

namespace Options

variable (o : Options)

/-- The base path of everything that is downloaded. -/
def localRoot : Bytes :=
  o.localPath ++ ascii "/" ++ o.channel ++ ascii "/"

def localWfut : Bytes :=
  o.localPath ++ ascii "/" ++ o.channel ++ ascii "/" ++ channelFile

def tmpWfut : Bytes :=
  o.localPath ++ ascii "/" ++ tmpFile

def systemWfut (channel : Bytes) : Bytes :=
  o.systemPath ++ ascii "/" ++ channel ++ ascii "/" ++ channelFile

/-- The first mirror of the shuffled list takes the place of the server. -/
def mirrorRoot (env : Environment) : Bytes :=
  match env.shuffle (getMirrorList env (o.serverRoot ++ ascii "/" ++ mirrorFile)) with
  | [] => o.serverRoot
  | mirror :: _ => mirror.url

end Options

def serverWfut (serverRoot channel : Bytes) : Bytes :=
  serverRoot ++ ascii "/" ++ channel ++ ascii "/" ++ channelFile

/-! ## Loading -/

/-- A list of this computer, and the channel it may give a name to; `none` when `main` gives
up. -/
def loadList (env : Environment) (path channel : Bytes) (fs : FileSystem) :
    Except Fault (Option (Bytes × ChannelFileList)) :=
  if osExists fs path then do
    let (err, files) ← getLocalList env path fs
    .ok (if err ≠ 0 then none
      else some (if channel = ascii "." then files.getName else channel, files))
  else .ok (some (channel, .empty))

/-- The log of an earlier run goes into the local list. -/
def mergeTmp (env : Environment) (tmpWfut : Bytes) (files : ChannelFileList) (fs : FileSystem) :
    Except Fault (Option ChannelFileList) :=
  if osExists fs tmpWfut then do
    let (err, tmplist) ← getLocalList env tmpWfut fs
    .ok (if err ≠ 0 then none
      else some (tmplist.getFiles.toList.foldl (fun l e => l.addFile e.2) files))
  else .ok (some files)

def loadSystem (o : Options) (env : Environment) (channel : Bytes) (fs : FileSystem) :
    Except Fault (Option (Bytes × ChannelFileList)) :=
  if o.systemPath = [] then .ok (some (channel, .empty))
  else loadList env (o.systemWfut channel) channel fs

/-- What `main` has when it starts to decide. -/
structure Loaded where
  channel : Bytes
  serverRoot : Bytes
  localList : ChannelFileList
  system : ChannelFileList
  server : ChannelFileList

/-- The list of the server, once the channel has a name. -/
def loadServer (o : Options) (env : Environment) (channel : Bytes)
    (localList system : ChannelFileList) : Except Fault (Option Loaded) :=
  if channel = [] ∨ channel = ascii "." then .ok none
  else do
    let server ← getFileList env (serverWfut (o.mirrorRoot env) channel)
    .ok (server.map fun server => ⟨channel, o.mirrorRoot env, localList, system, server⟩)

/-- `main` up to its decision; `none` when it returns 1. -/
def loadLists (o : Options) (env : Environment) (fs : FileSystem) :
    Except Fault (Option Loaded) := do
  match ← loadList env o.localWfut o.channel fs with
  | none => .ok none
  | some (channel, files) =>
    match ← mergeTmp env o.tmpWfut files fs with
    | none => .ok none
    | some localList =>
      match ← loadSystem o env channel fs with
      | none => .ok none
      | some (channel, system) => loadServer o env channel localList system

/-! ## Updating -/

/-- `updates` is never given the name of the channel. -/
def Loaded.updates (lists : Loaded) (o : Options) (env : Environment) (fs : FileSystem) :
    ChannelFileList :=
  (calculateUpdates env.got lists.server lists.system lists.localList .empty o.localRoot fs).2

/-- A new object hands one file at a time to curl. -/
def defaultMaxDownloads : Int32 := 1

/-- The object after the updates were queued. -/
def Loaded.queued (lists : Loaded) (o : Options) (env : Environment) (fs : FileSystem) : World :=
  updateChannel (lists.updates o env fs) (lists.serverRoot ++ ascii "/" ++ lists.channel)
    o.localRoot (World.init defaultMaxDownloads fs)

/-- `onDownloadComplete` as far as it changes the tree; the local list is in `Tally`. -/
def toolEmit (env : Environment) (updates : ChannelFileList) (tmpfile : Bytes) : Emit := fun e w =>
  match e with
  | .complete _ _ filename =>
    match updates.getFiles[filename]? with
    | none => .error .assertion
    | some fo =>
      .ok { w.log e with fs := recordUpdateFile (env.logs w.trace.length) fo tmpfile w.fs }
  | _ => .ok (w.log e)

/-- `while (wfut.poll());` -/
def pollLoop (emit : Emit) : List PollReport → World → Except Fault World
  | [], _ => .error .outOfFuel
  | r :: rs, w => do
    let (numHandles, w) ← poll emit r w
    if numHandles = 0 then .ok w else pollLoop emit rs w

/-- What the handlers of `main` work on. -/
structure Tally where
  localList : ChannelFileList
  error : Int32

/-- `++error` changes the handler's own pointer and not what it points to. -/
def onDownloadFailed (error : Int32) : Int32 := error

/-- The handlers, on the signals of a run. -/
def Tally.handle (updates : ChannelFileList) (t : Tally) : Event → Tally
  | .complete _ _ filename =>
    match updates.getFiles[filename]? with
    | none => t
    | some fo => { t with localList := t.localList.addFile fo }
  | .failed .. => { t with error := onDownloadFailed t.error }
  | .queued .. => t

/-- The local list and the number of errors after the loop. -/
def Loaded.tally (lists : Loaded) (updates : ChannelFileList) (trace : List Event) : Tally :=
  trace.foldl (Tally.handle updates) ⟨lists.localList.setName lists.server.getName, 0⟩

/-- Save and clean up: the result of the save is not used. -/
def finish (o : Options) (env : Environment) (localList : ChannelFileList) (fs : FileSystem) :
    FileSystem :=
  let fs := (saveLocalList env localList o.localWfut fs).2
  if osExists fs o.tmpWfut then removeFile env.removeOk o.tmpWfut fs else fs

/-- The end of `main`, once the lists are loaded. -/
def update (o : Options) (env : Environment) (fs : FileSystem) (lists : Loaded) :
    Except Fault (Int32 × FileSystem) := do
  let updates := lists.updates o env fs
  let w ← pollLoop (toolEmit env updates o.tmpWfut) env.polls (lists.queued o env fs)
  let t := lists.tally updates w.trace
  let fs := finish o env t.localList w.fs
  let _ ← Session.shutdown { initialised := true, world := { w with fs := fs } }
  .ok (t.error, fs)

/-- `main`: its result and what it leaves. -/
def main (o : Options) (env : Environment) (fs : FileSystem) :
    Except Fault (Int32 × FileSystem) := do
  match ← loadLists o env fs with
  | none => .ok (1, fs)
  | some lists => update o env fs lists

end LibWfut
