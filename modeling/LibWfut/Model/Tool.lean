import LibWfut.Model.FileIO

/-! # The log of the command line tool

While it downloads, the tool logs every completed file in `tempwfut.xml`; the next run
merges what it finds there into the local list. -/

namespace LibWfut

/-! ## Writing the log -/

/-- `"true"` or `"false"` -/
def boolText (b : Bool) : Bytes :=
  if b then ascii "true" else ascii "false"

/-- What `recordUpdate` prints into a new file first. -/
def logHeader : Bytes :=
  ascii "<?xml version=\"1.0\"?>\n" ++ ascii "<fileList dir=\"\">\n"

/-- The record of one file. -/
def logRecord (fo : FileObject) : Bytes :=
  ascii "<file filename=\"" ++ Encoder.encodeString fo.filename ++
    ascii "\" version=\"" ++ Decimal.ofInt fo.version.toInt ++
    ascii "\" crc32=\"" ++ Decimal.ofInt fo.crc32.toNat ++
    ascii "\" size=\"" ++ Decimal.ofInt fo.size.toInt ++
    ascii "\" execute=\"" ++ boolText fo.execute ++ ascii "\"/>\n"

/-- `tmpfile` is the content of the log, `none` while it does not exist. -/
def recordUpdate (fo : FileObject) (tmpfile : Option Bytes) : Bytes :=
  match tmpfile with
  | none => logHeader ++ logRecord fo
  | some text => text ++ logRecord fo

/-- The log after these files were completed in a run that starts without one. -/
def logOf (completed : List FileObject) : Option Bytes :=
  completed.foldl (fun tmpfile fo => some (recordUpdate fo tmpfile)) none

/-- `onDownloadComplete` for the file `f`, on the local list and the log: `none` when the
assertion fails. -/
def onDownloadComplete (updates : ChannelFileList) (s : ChannelFileList × Option Bytes)
    (f : Bytes) : Option (ChannelFileList × Option Bytes) :=
  match updates.getFiles[f]? with
  | none => none
  | some fo => some (s.1.addFile fo, some (recordUpdate fo s.2))

/-! ## Merging it -/

/-- The part of `main` that reads the log: `none` when `main` gives up. -/
def mergeLog (load : Bytes → Option Document) (uninit : ℕ → FileObject)
    (tmpfile : Option Bytes) (files : ChannelFileList) :
    Except Fault (Option ChannelFileList) :=
  match tmpfile with
  | none => .ok (some files)
  | some text => do
    let (err, tmplist) ← parseFileList load uninit (some text) .empty
    if err ≠ 0 then .ok none
    else .ok (some (tmplist.getFiles.toList.foldl (fun l e => l.addFile e.2) files))

end LibWfut
