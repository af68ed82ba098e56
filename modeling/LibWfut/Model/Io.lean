import LibWfut.Model.Encoder
import LibWfut.Model.Platform
import LibWfut.Library.Run
import LibWfut.Library.OrderedMap

/-! # The download queue

The `IO` object, the `DataStruct`s it owns and the parts of curl it drives, as one
state. Pointers and easy handles are numbers that are never used again after a
release, so that every use of a stale one is a fault. -/

namespace LibWfut

open FileTree

abbrev Ptr := ℕ

abbrev Handle := ℕ

/-- One file being downloaded. `fp` holds what the temporary file holds. -/
structure DataStruct where
  filename : Bytes
  path : Bytes
  url : Bytes
  executable : Bool
  fp : Option Bytes
  actualCrc32 : ULong
  expectedCrc32 : ULong
  handle : Option Handle

def DataStruct.target (ds : DataStruct) : Bytes :=
  ds.path ++ ascii "/" ++ ds.filename

/-- A curl easy handle. `priv` is both `CURLOPT_PRIVATE` and `CURLOPT_WRITEDATA`; `body`
is what the write callback was given so far and `writeFailed` says that it once took
less. -/
structure EasyHandle where
  url : Bytes
  priv : Ptr
  body : Bytes := []
  writeFailed : Bool := false

inductive CurlMsgKind where
  | none
  | done
  | last
  deriving DecidableEq

/-- `CURLcode`, with the text of `curl_easy_strerror` for an error. -/
inductive CurlCode where
  | ok
  | error (text : Bytes)
  deriving DecidableEq

/-- A message of `curl_multi_info_read`, and what the system grants while it is
handled. -/
structure CurlMsg where
  kind : CurlMsgKind := .done
  handle : Handle
  result : CurlCode := .ok
  storage : Storage := {}

/-- One call of the write callback; `room` is the most its `fwrite` takes. -/
structure WriteCall where
  handle : Handle
  buffer : Bytes
  tmpfileOk : Bool := true
  room : ℕ

/-- What curl does in one `curl_multi_perform`. -/
structure PollReport where
  writes : List WriteCall := []
  running : Int32
  done : List CurlMsg := []

/-- The history of a run: accepted downloads, with the URL as it was passed, and emitted
signals. The program does not read it. -/
inductive Event where
  | queued (p : Ptr) (rawUrl url filename : Bytes)
  | complete (p : Ptr) (url filename : Bytes)
  | failed (p : Ptr) (url filename message : Bytes)
  deriving DecidableEq

abbrev FileTable := Std.ExtTreeMap Bytes Ptr compare

structure World where
  files : FileTable
  handles : List Handle
  numToProcess : Int32
  heap : Ptr → Option DataStruct
  easy : Handle → Option EasyHandle
  fresh : ℕ
  attached : List Handle
  msgs : List CurlMsg
  fs : FileSystem
  trace : List Event

namespace World

/-- An initialised object before its first call. -/
def init (numToProcess : Int32) (fs : FileSystem) : World where
  files := ∅
  handles := []
  numToProcess := numToProcess
  heap := fun _ => none
  easy := fun _ => none
  fresh := 0
  attached := []
  msgs := []
  fs := fs
  trace := []

def log (w : World) (e : Event) : World :=
  { w with trace := w.trace ++ [e] }

/-! ## Memory -/

def deref (w : World) (p : Ptr) : Except Fault DataStruct :=
  match w.heap p with
  | some ds => .ok ds
  | none => .error .useAfterFree

def store (w : World) (p : Ptr) (ds : DataStruct) : World :=
  { w with heap := Function.update w.heap p (some ds) }

def delete (w : World) (p : Ptr) : Except Fault World :=
  match w.heap p with
  | some _ => .ok { w with heap := Function.update w.heap p none }
  | none => .error .useAfterFree

/-- `m_files.erase(I)` for an iterator to the entry at `k`. -/
def eraseEntry (w : World) (k : Bytes) : Except Fault World :=
  match w.files[k]? with
  | some _ => .ok { w with files := w.files.erase k }
  | none => .error .eraseEnd

/-! ## curl -/

def easyGetinfoPrivate (w : World) (h : Handle) : Except Fault Ptr :=
  match w.easy h with
  | some e => .ok e.priv
  | none => .error .useAfterFree

def easyCleanup (w : World) (h : Handle) : Except Fault World :=
  match w.easy h with
  | some _ => .ok { w with easy := Function.update w.easy h none }
  | none => .error .useAfterFree

def multiAddHandle (w : World) (h : Handle) : Except Fault World :=
  match w.easy h with
  | some _ => .ok (if h ∈ w.attached then w else { w with attached := w.attached ++ [h] })
  | none => .error .useAfterFree

/-- A removed handle also loses its messages. -/
def multiRemoveHandle (w : World) (h : Handle) : Except Fault World :=
  match w.easy h with
  | some _ => .ok
      { w with
        attached := w.attached.erase h
        msgs := w.msgs.filter fun m => m.handle ≠ h }
  | none => .error .useAfterFree

end World

/-- Writes to the temporary file of the download; the result is what the callback
returns. -/
def writeData (c : WriteCall) (ds : DataStruct) : ℕ × DataStruct :=
  match ds.fp with
  | none =>
    if c.tmpfileOk then
      let n := min c.room c.buffer.length
      (n, { ds with
            fp := some (c.buffer.take n)
            actualCrc32 := crc32 (crc32 0 []) c.buffer })
    else (0, ds)
  | some file =>
    let n := min c.room c.buffer.length
    (n, { ds with
          fp := some (file ++ c.buffer.take n)
          actualCrc32 := crc32 ds.actualCrc32 c.buffer })

namespace World

def performWrite (w : World) (c : WriteCall) : Except Fault World :=
  match w.easy c.handle with
  | none => .error .useAfterFree
  | some e => do
    let ds ← w.deref e.priv
    let (n, ds) := writeData c ds
    .ok { w.store e.priv ds with
          easy := Function.update w.easy c.handle (some
            { e with
              body := e.body ++ c.buffer
              writeFailed := e.writeFailed || decide (n < c.buffer.length) }) }

/-- `curl_multi_perform`: the callbacks it makes, then the messages it leaves. -/
def multiPerform (w : World) (r : PollReport) : Except Fault World := do
  let w ← Machine.run performWrite w r.writes
  .ok { w with msgs := w.msgs ++ r.done }

end World

/-! ## The operations -/

/-- How a signal is delivered: the handlers may change the state. -/
abbrev Emit := Event → World → Except Fault World

/-- Delivery to handlers that do not call back. -/
def signal : Emit := fun e w => .ok (w.log e)

def queueFile (path filename url : Bytes) (expectedCrc32 : ULong) (executable : Bool)
    (w : World) : ℤ × World :=
  match w.files[url]? with
  | some _ => (1, w)
  | none =>
    let p := w.fresh
    let key := Encoder.encodeURL url
    (0,
      { w with
        fresh := p + 1
        heap := Function.update w.heap p (some
          { filename := filename
            path := path
            url := key
            executable := executable
            fp := none
            actualCrc32 := crc32 0 []
            expectedCrc32 := expectedCrc32
            handle := some p })
        easy := Function.update w.easy p (some { url := key, priv := p })
        files := w.files.insert key p
        handles := w.handles ++ [p]
        trace := w.trace ++ [.queued p url key filename] })

/-- `IO::abortDownload(DataStruct*)` up to the signal. -/
def releaseTransfer (p : Ptr) (w : World) : Except Fault World := do
  let ds ← w.deref p
  let w ← match ds.handle with
    | none => .ok w
    | some h => do
      let w ← if h ∈ w.handles then .ok { w with handles := w.handles.erase h }
        else w.multiRemoveHandle h
      let w ← w.easyCleanup h
      .ok (w.store p { ds with handle := none })
  let ds ← w.deref p
  .ok (w.store p { ds with fp := none })

/-- `IO::abortDownload(DataStruct*)` -/
def abortDataStruct (emit : Emit) (p : Ptr) (w : World) : Except Fault World := do
  let w ← releaseTransfer p w
  let ds ← w.deref p
  emit (.failed p ds.url ds.filename (ascii "Aborted")) w

/-- `IO::abortDownload(const std::string &)`; the key it looks up is the registered
URL. -/
def abortDownload (emit : Emit) (url : Bytes) (w : World) : Except Fault World :=
  match w.files[url]? with
  | none => .ok w
  | some p => do
    let w ← abortDataStruct emit p w
    let w ← w.delete p
    w.eraseEntry url

/-- The body of the loop in `IO::abortAll`, for `m_files.begin()`. -/
def abortFirst (emit : Emit) (p : Ptr) (w : World) : Except Fault World := do
  let w ← abortDataStruct emit p w
  let w ← w.delete p
  match OrderedMap.first w.files with
  | none => .error .eraseEnd
  | some (k, _) => w.eraseEntry k

/-- `fuel` bounds the turns of the loop, which handlers may prolong. -/
def abortAll (emit : Emit) : ℕ → World → Except Fault World
  | fuel, w =>
    match OrderedMap.first w.files with
    | none => .ok w
    | some (_, p) =>
      match fuel with
      | 0 => .error .outOfFuel
      | fuel + 1 => (abortFirst emit p w).bind (abortAll emit fuel)

/-- What `poll` does with the file of a finished transfer: the error message, `none` on
success, and the file system it leaves. -/
def finishTransfer (m : CurlMsg) (ds : DataStruct) (fs : FileSystem) :
    Option Bytes × FileSystem :=
  match m.kind with
  | .done =>
    match m.result with
    | .ok =>
      if ds.expectedCrc32 = 0 ∨ ds.expectedCrc32 = ds.actualCrc32 then
        match copyFile m.storage ds.fp ds.target fs with
        | (err, fs) =>
          (if err ≠ 0 then some (ascii "Error copying file to target location.\n") else none,
            if ds.executable then osSetExecutable m.storage ds.target fs else fs)
      else (some (ascii "CRC32 mismatch"), fs)
    | .error text =>
      (some (ascii "There was an error downloading the requested file: " ++ text), fs)
  | _ => (some (ascii "There was an unknown error downloading the requested file"), fs)

/-- The signal for a finished transfer. -/
def outcome (p : Ptr) (ds : DataStruct) : Option Bytes → Event
  | none => .complete p ds.url ds.filename
  | some message => .failed p ds.url ds.filename message

/-- The end of `poll`'s loop body, after the signal. -/
def releaseDownload (p : Ptr) (w : World) : Except Fault World := do
  let ds ← w.deref p
  let w ← w.eraseEntry ds.url
  let w ← match ds.handle with
    | some h => w.easyCleanup h
    | none => .ok w
  w.delete p

/-- The body of `poll`'s loop for one message. -/
def handleMessage (emit : Emit) (m : CurlMsg) (w : World) : Except Fault World := do
  let p ← w.easyGetinfoPrivate m.handle
  let ds ← w.deref p
  let (error, fs) := finishTransfer m ds w.fs
  let w ← { w with fs := fs }.multiRemoveHandle m.handle
  let w := w.store p { ds with fp := none }
  let w ← emit (outcome p ds error) w
  releaseDownload p w

/-- `poll`'s loop over `curl_multi_info_read`. Nothing adds a message meanwhile, so the
messages present at the start bound the turns. -/
def drain (emit : Emit) : ℕ → World → Except Fault World
  | 0, w => .ok w
  | n + 1, w =>
    match w.msgs with
    | [] => .ok w
    | m :: rest => (handleMessage emit m { w with msgs := rest }).bind (drain emit n)

/-- `while (diff--)`: hand waiting transfers to curl. -/
def attachLoop : ℕ → Int32 → World → Except Fault (Int32 × World)
  | 0, numHandles, w => .ok (numHandles, w)
  | diff + 1, numHandles, w =>
    match w.handles with
    | [] => attachLoop diff numHandles w
    | h :: rest => do
      let w ← w.multiAddHandle h
      attachLoop diff (numHandles + 1) { w with handles := rest }

/-- `IO::poll`. The subtraction of two `int`s wraps. -/
def poll (emit : Emit) (r : PollReport) (w : World) : Except Fault (Int32 × World) := do
  let w ← w.multiPerform r
  let w ← drain emit w.msgs.length w
  let diff := w.numToProcess - r.running
  if 0 < diff then attachLoop diff.toInt.toNat r.running w else .ok (r.running, w)

def setMaxDownloads (i : Int32) (w : World) : World :=
  { w with numToProcess := i }

/-! ## Calls, with handlers that do not call back -/

inductive Op where
  | queueFile (path filename url : Bytes) (expectedCrc32 : ULong) (executable : Bool)
  | poll (r : PollReport)
  | abortDownload (url : Bytes)
  | abortAll
  | setMaxDownloads (i : Int32)

/-- One call on the object; `fuel` bounds the turns of `abortAll`. -/
def call (emit : Emit) (fuel : ℕ) (w : World) : Op → Except Fault World
  | .queueFile path filename url crc executable =>
    .ok (queueFile path filename url crc executable w).2
  | .poll r => (poll emit r w).map Prod.snd
  | .abortDownload url => abortDownload emit url w
  | .abortAll => abortAll emit fuel w
  | .setMaxDownloads i => .ok (setMaxDownloads i w)

/-- `abortAll` visits every registered download once, so their number is fuel enough. -/
def step (w : World) (op : Op) : Except Fault World :=
  call signal w.files.size w op

/-! ## Initialisation and shutdown -/

/-- `curl_multi_cleanup`: the easy handles stay, detached. -/
def World.multiCleanup (w : World) : World :=
  { w with attached := [], msgs := [] }

/-- The body of the loop in `IO::shutdown`, for `m_files.begin()`. No signal is sent. -/
def shutdownFirst (k : Bytes) (p : Ptr) (w : World) : Except Fault World := do
  let ds ← w.deref p
  let w ← match ds.handle with
    | none => .ok w
    | some h => do
      let w ← w.easyCleanup h
      .ok (w.store p { ds with handle := none })
  let ds ← w.deref p
  let w ← (w.store p { ds with fp := none }).delete p
  w.eraseEntry k

/-- Every turn of the loop in `IO::shutdown` erases an entry, so `fuel` is their number. -/
def shutdownLoop : ℕ → World → Except Fault World
  | fuel, w =>
    match OrderedMap.first w.files with
    | none => .ok w
    | some (k, p) =>
      match fuel with
      | 0 => .error .outOfFuel
      | fuel + 1 => (shutdownFirst k p w).bind (shutdownLoop fuel)

/-- An `IO` object from its construction on. `trace` covers the time since the last
`init`. -/
structure Session where
  initialised : Bool
  world : World

/-- The constructed object. -/
def Session.new (numToProcess : Int32) (fs : FileSystem) : Session where
  initialised := false
  world := World.init numToProcess fs

/-- `IO::init` -/
def Session.init (s : Session) : Except Fault Session :=
  if s.initialised then .error .assertion
  else .ok { s with initialised := true }

/-- `IO::shutdown`: `m_handles` stays as it is. -/
def Session.shutdown (s : Session) : Except Fault Session :=
  if s.initialised then do
    let w ← shutdownLoop s.world.files.size s.world.multiCleanup
    .ok { initialised := false, world := { w with trace := [] } }
  else .error .assertion

inductive SessionOp where
  | init
  | shutdown
  | call (op : Op)

def sessionStep (s : Session) : SessionOp → Except Fault Session
  | .init => s.init
  | .shutdown => s.shutdown
  | .call op => do
    let w ← step s.world op
    .ok { s with world := w }

/-! ## Handlers that call back -/

/-- A call made from inside a handler. -/
inductive Call where
  | abortAll
  | abortDownload (url : Bytes)
  deriving DecidableEq

/-- What the handlers do on a signal may depend on everything that happened before. -/
abbrev Handler := World → List Call

def runCall (emit : Emit) (fuel : ℕ) (w : World) : Call → Except Fault World
  | .abortAll => abortAll emit fuel w
  | .abortDownload url => abortDownload emit url w

/-- Delivery to a handler that calls back; `fuel` bounds the nesting. -/
def emitTo (handler : Handler) : ℕ → Emit
  | 0 => fun _ _ => .error .outOfFuel
  | fuel + 1 => fun e w =>
    Machine.run (runCall (emitTo handler fuel) fuel) (w.log e) (handler (w.log e))

/-- The number of registered downloads also bounds the nesting. -/
def stepWith (handler : Handler) (w : World) (op : Op) : Except Fault World :=
  call (emitTo handler w.files.size) w.files.size w op

/-! ## Handlers that queue again -/

/-- The download an event is about. -/
def Event.subject : Event → Ptr
  | .queued p .. => p
  | .complete p .. => p
  | .failed p .. => p

/-- The URL that was passed to `queueFile` for a download. -/
def rawUrl (p : Ptr) (trace : List Event) : Option Bytes :=
  trace.findSome? fun
    | .queued q raw _ _ => if q = p then some raw else none
    | _ => none

/-- `queueFile` with everything that a download was queued with. -/
def requeue (p : Ptr) (w : World) : World :=
  match w.heap p, rawUrl p w.trace with
  | some ds, some raw =>
    (queueFile ds.path ds.filename raw ds.expectedCrc32 ds.executable w).2
  | _, _ => w

/-- Delivery to a handler that queues the download of a signal again when it chooses to. -/
def retryEmit (chooses : World → Event → Bool) : Emit := fun e w =>
  .ok (if chooses (w.log e) e then requeue e.subject (w.log e) else w.log e)

def stepRetry (chooses : World → Event → Bool) (w : World) (op : Op) : Except Fault World :=
  call (retryEmit chooses) w.files.size w op

end LibWfut
