import LibWfut.Library.Listing
import LibWfut.Library.Run
import LibWfut.Model.Platform

/-! # Walking a directory

`os_dir_walk`. The kind of an entry is asked by its bare name, which the system looks up
from the working directory. -/

namespace LibWfut

open FileTree

/-- `opendir`: the directory that is read. -/
def opendirAt (fs : FileSystem) (path : Bytes) : Option Location :=
  (fs.resolve (cStr path)).filter fun l => (fs.node l).any fun n => n.isDir && n.readable

/-- The body of the loop in `os_dir_walk` for one name; `walk` is the recursive call. A
`stat` that fails leaves `filestat` unassigned. -/
def walkEntry (t : ListedTree) (excludes : List Bytes)
    (walk : Bytes → List Bytes → Except Fault (List Bytes)) (path : Bytes)
    (files : List Bytes) (d_name : Name) : Except Fault (List Bytes) :=
  if d_name ≠ ascii "." ∧ d_name ≠ ascii ".." ∧ !excludes.contains d_name then
    match t.fs.lookup (cStr d_name) with
    | none => .error .unassigned
    | some filestat =>
      if filestat.isDir then walk (path ++ ascii "/" ++ d_name) files
      else .ok (files ++ [path ++ ascii "/" ++ d_name])
  else .ok files

/-- `os_dir_walk`, with the list `files` that it leaves; what it returns is always 0. `fuel`
bounds the depth of the recursion. -/
def osDirWalk (t : ListedTree) (excludes : List Bytes) :
    ℕ → Bytes → List Bytes → Except Fault (List Bytes)
  | 0, _, _ => .error .outOfFuel
  | fuel + 1, path, files =>
    match opendirAt t.fs path with
    | none => .ok files
    | some d =>
      Machine.run (walkEntry t excludes (osDirWalk t excludes fuel) path) files (t.readdir d)

end LibWfut
