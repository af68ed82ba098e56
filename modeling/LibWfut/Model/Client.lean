import LibWfut.Model.Io

/-! # The client

`WFUTClient` decides which files of the server need an update and queues them. -/

namespace LibWfut

open FileTree

/-- `WFUTUpdateReason` -/
inductive UpdateReason where
  | none
  | noLocal
  | serverSystem
  | serverLocal
  | missing
  | modified
  | deleted
  deriving DecidableEq, Repr

/-- The reasons with which a file is added to the updates. -/
def UpdateReason.adds : UpdateReason → Bool
  | .noLocal | .serverSystem | .serverLocal | .missing => true
  | .none | .modified | .deleted => false

/-- What `calculateUpdates` finds for one file of the server. `got` is what each `fread`
delivers of a file at most. -/
def updateReason (got : Bytes → ℕ → ℕ) (serverObj : FileObject)
    (sysIter locIter : Option FileObject) (pathPrefix : Bytes) (fs : FileSystem) :
    UpdateReason :=
  if serverObj.deleted then .deleted
  else
    match locIter with
    | none =>
      match sysIter with
      | none => .noLocal
      | some sys => if sys.version < serverObj.version then .serverSystem else .none
    | some loc =>
      if loc.version < serverObj.version then .serverLocal
      else
        let path := pathPrefix ++ cStr loc.filename
        match calcCRC32 (got path) fs path with
        | none => .missing
        | some crc => if crc ≠ serverObj.crc32 then .modified else .none

/-- `calculateUpdates`, with the signals `UpdateReason` it emits. -/
def calculateUpdates (got : Bytes → ℕ → ℕ) (server system localList updates : ChannelFileList)
    (pathPrefix : Bytes) (fs : FileSystem) : List (Bytes × UpdateReason) × ChannelFileList :=
  server.getFiles.toList.foldl
    (fun s e =>
      let reason :=
        updateReason got e.2 system.getFiles[e.1]? localList.getFiles[e.1]? pathPrefix fs
      (s.1 ++ [(e.2.filename, reason)], if reason.adds then s.2.addFile e.2 else s.2))
    ([], updates)

/-- The URL of a file of the channel. -/
def fileUrl (updates : ChannelFileList) (urlPrefix filename : Bytes) : Bytes :=
  urlPrefix ++ updates.getName ++ ascii "/" ++ filename

/-- `updateChannel` queues the files in the order of their names. -/
def updateChannel (updates : ChannelFileList) (urlPrefix pathPrefix : Bytes) (w : World) :
    World :=
  updates.getFiles.toList.foldl
    (fun w e =>
      if e.2.deleted then w
      else
        (queueFile pathPrefix e.2.filename (fileUrl updates urlPrefix e.2.filename) e.2.crc32
          e.2.execute w).2)
    w

/-- `updateFile` queues one file, never as an executable. -/
def updateFile (file : FileObject) (urlPrefix pathPrefix : Bytes) (w : World) : World :=
  if file.deleted then w
  else
    (queueFile pathPrefix file.filename (urlPrefix ++ ascii "/" ++ file.filename) file.crc32 false
      w).2

/-- `WFUTClient::abortDownload` passes the name on to `IO`. -/
def WFUTClient.abortDownload (emit : Emit) (filename : Bytes) (w : World) :
    Except Fault World :=
  LibWfut.abortDownload emit filename w

/-- A call on the client, or on its `IO` object. -/
inductive ClientOp where
  | updateChannel (updates : ChannelFileList) (urlPrefix pathPrefix : Bytes)
  | updateFile (file : FileObject) (urlPrefix pathPrefix : Bytes)
  | io (op : Op)

def clientStep (w : World) : ClientOp → Except Fault World
  | .updateChannel updates urlPrefix pathPrefix =>
    .ok (updateChannel updates urlPrefix pathPrefix w)
  | .updateFile file urlPrefix pathPrefix => .ok (updateFile file urlPrefix pathPrefix w)
  | .io op => step w op

end LibWfut
