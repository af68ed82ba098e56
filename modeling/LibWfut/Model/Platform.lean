import LibWfut.Library.Crc32
import LibWfut.Library.FileTree
import LibWfut.Model.Types

/-! # File operations

The system calls behind `platform.cpp`, `copy_file` and `calcCRC32`, with the ways each
of them can fail. -/

namespace LibWfut

open FileTree

/-- One turn of the loop in `copy_file`: the most `fread` delivers and the most `fwrite`
takes. -/
structure BlockResult where
  got : ℕ
  put : ℕ

def bufferSize : ℕ := 1024

/-- What the system grants to one attempt at storing a file, beyond what the tree itself
decides. -/
structure Storage where
  mkdirOk : Bytes → Bool := fun _ => true
  openOk : Bool := true
  newReadable : Bool := true
  block : ℕ → BlockResult := fun _ => ⟨bufferSize, bufferSize⟩
  /-- Bytes at the end of the file that `fclose` fails to flush. -/
  lost : ℕ := 0
  chmodOk : Bool := true

/-! ## System calls -/

def opendir (fs : FileSystem) (path : Bytes) : Bool :=
  (fs.lookup (cStr path)).any fun n => n.isDir && n.readable

/-- `fopen(path, "rb")`: a directory can be opened too. -/
def fopenRead (fs : FileSystem) (path : Bytes) : Option Node :=
  (fs.lookup (cStr path)).filter Node.readable

def newFile (env : Storage) : Node where
  kind := .regular []
  mode := 0o666
  readable := env.newReadable

/-- `fopen(path, "wb")`: the place of the emptied file. -/
def fopenWrite (env : Storage) (fs : FileSystem) (path : Bytes) :
    Option (Location × FileSystem) :=
  match fs.resolve (cStr path) with
  | none => none
  | some l =>
    match fs.node l with
    | none => if fs.Free l ∧ env.openOk then some (l, fs.create l (newFile env)) else none
    | some n => if !n.isDir ∧ env.openOk then some (l, fs.setContent l []) else none

def dropTrailingSeparators (path : Bytes) : Bytes :=
  (path.reverse.dropWhile (· = separator)).reverse

def newDirectory : Node where
  kind := .directory
  mode := 0o700
  readable := true

/-- `mkdir(dir, 0700)`, -1 on failure. A separator at the end of the path is allowed. -/
def osMkdir (env : Storage) (dir : Bytes) (fs : FileSystem) : ℤ × FileSystem :=
  match fs.resolve (dropTrailingSeparators (cStr dir)) with
  | none => (-1, fs)
  | some l =>
    if fs.Free l ∧ env.mkdirOk dir then (0, fs.create l newDirectory) else (-1, fs)

def osExists (fs : FileSystem) (file : Bytes) : Bool :=
  (fs.lookup (cStr file)).isSome

/-- `S_IXUSR | S_IXGRP | S_IXOTH` -/
def executeBits : BitVec 12 := 0o111

def osSetExecutable (env : Storage) (file : Bytes) (fs : FileSystem) : FileSystem :=
  match fs.resolve (cStr file) with
  | none => fs
  | some l => if env.chmodOk then fs.addMode l executeBits else fs

/-! ## `createParentDirs` and `copy_file` -/

/-- `find_last_of("\\/")` accepts both. -/
def isPathSeparator (c : UInt8) : Bool :=
  c = 92 ∨ c = 47

/-- `createParentDirs`, reading the filename from its end until a separator is found. -/
def createParentDirsRev (env : Storage) : Bytes → FileSystem → ℤ × FileSystem
  | [], fs => (0, fs)
  | c :: rest, fs =>
    if isPathSeparator c then
      if rest = [] then (0, fs)
      else
        match createParentDirsRev env rest fs with
        | (err, fs) =>
          if err ≠ 0 then (err, fs)
          else if opendir fs rest.reverse then (0, fs)
          else osMkdir env rest.reverse fs
    else createParentDirsRev env rest fs

def createParentDirs (env : Storage) (filename : Bytes) (fs : FileSystem) : ℤ × FileSystem :=
  createParentDirsRev env filename.reverse fs

/-- The loop of `copy_file`; `fuel` bounds the turns by the bytes left to read. -/
def copyLoop (block : ℕ → BlockResult) : ℕ → ℕ → Bytes → Bytes → Bytes
  | 0, _, _, out => out
  | fuel + 1, turn, rest, out =>
    let num := min (min bufferSize (block turn).got) rest.length
    if num = 0 then out
    else copyLoop block fuel (turn + 1) (rest.drop num)
      (out ++ (rest.take num).take (block turn).put)

/-- What `copy_file` leaves in the target. No temporary file means an empty download. -/
def copiedContent (env : Storage) (fp : Option Bytes) : Bytes :=
  match fp with
  | none => []
  | some src =>
    let out := copyLoop env.block src.length 0 src []
    out.take (out.length - env.lost)

def copyFile (env : Storage) (fp : Option Bytes) (target : Bytes) (fs : FileSystem) :
    ℤ × FileSystem :=
  match createParentDirs env target fs with
  | (err, fs) =>
    if err ≠ 0 then (1, fs)
    else
      match fopenWrite env fs target with
      | none => (1, fs)
      | some (l, fs) => (0, fs.setContent l (copiedContent env fp))

/-! ## Checksums -/

/-- zlib's `crc32`; the register has 32 bits inside a `uLong`. -/
def crc32 (crc : ULong) (buf : Bytes) : ULong :=
  (Crc32.update crc.toUInt32 buf).toUInt64

/-- The block size of `calcCRC32`. -/
def crcBufferSize : ℕ := 8192

/-- The loop of `calcCRC32`; `got` is the most each `fread` delivers, nothing if it fails. -/
def calcLoop (got : ℕ → ℕ) : ℕ → ℕ → Bytes → ULong → ULong
  | 0, _, _, crc => crc
  | fuel + 1, turn, rest, crc =>
    let len := min (min crcBufferSize (got turn)) rest.length
    if len = 0 then crc
    else calcLoop got fuel (turn + 1) (rest.drop len) (crc32 crc (rest.take len))

/-- `calcCRC32`: `none` stands for -1. Reading a directory fails at once. -/
def calcCRC32 (got : ℕ → ℕ) (fs : FileSystem) (filename : Bytes) : Option ULong :=
  match fopenRead fs filename with
  | none => none
  | some n =>
    match n.kind with
    | .directory => some (crc32 0 [])
    | .regular content => some (calcLoop got content.length 0 content (crc32 0 []))

end LibWfut
