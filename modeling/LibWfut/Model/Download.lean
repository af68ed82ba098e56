import LibWfut.Model.Io

/-! # Blocking downloads

The two overloads of `IO::downloadFile`, which run one transfer to its end. -/

namespace LibWfut

open FileTree

/-- What curl does in one `curl_easy_perform`, and what the system grants when the file is
stored. -/
structure Transfer where
  handle : Handle := 0
  writes : List WriteCall
  result : CurlCode := .ok
  storage : Storage := {}

/-- `CURLE_WRITE_ERROR` -/
def writeError : CurlCode :=
  .error (ascii "Failed writing received data to disk/application")

/-- The callbacks of `curl_easy_perform`: one that takes less than it is given ends the
transfer. -/
def easyPerform (result : CurlCode) : List WriteCall → DataStruct → CurlCode × DataStruct
  | [], ds => (result, ds)
  | c :: cs, ds =>
    match writeData c ds with
    | (n, ds) => if n < c.buffer.length then (writeError, ds) else easyPerform result cs ds

/-- The `DataStruct` of a blocking download. -/
def Transfer.data (t : Transfer) (fp : Option Bytes) (filename url : Bytes)
    (expectedCrc32 : ULong) : DataStruct where
  filename := filename
  path := []
  url := Encoder.encodeURL url
  executable := false
  fp := fp
  actualCrc32 := crc32 0 []
  expectedCrc32 := expectedCrc32
  handle := some t.handle

/-- `IO::downloadFile(const std::string &, const std::string &, uLong)` -/
def downloadFile (t : Transfer) (filename url : Bytes) (expectedCrc32 : ULong)
    (fs : FileSystem) : ℤ × FileSystem :=
  match easyPerform t.result t.writes (t.data none filename url expectedCrc32) with
  | (.ok, ds) =>
    match copyFile t.storage ds.fp ds.filename fs with
    | (err, fs) => (if err = 0 then 0 else 1, fs)
  | (.error _, _) => (1, fs)

/-- `IO::downloadFile(FILE *, const std::string &, uLong)`; `file` is what was written to the
stream before. -/
def downloadStream (t : Transfer) (file url : Bytes) (expectedCrc32 : ULong) : ℤ × Bytes :=
  match easyPerform t.result t.writes (t.data (some file) [] url expectedCrc32) with
  | (err, ds) => (if err = .ok then 0 else 1, ds.fp.getD [])

end LibWfut
