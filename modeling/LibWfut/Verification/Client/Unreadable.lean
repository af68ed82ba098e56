import LibWfut.Verification.Client.Decisions
import LibWfut.Verification.Files.Checksums

/-! # Local files that cannot be read

A local file is downloaded again when `calcCRC32` fails on it, which it does only if the
file cannot be opened. -/

namespace LibWfut

open FileTree

/-- The local copy of a file, as `calculateUpdates` opens it. -/
def localPath (pathPrefix : Bytes) (o : FileObject) : Bytes :=
  pathPrefix ++ cStr o.filename

/-- A file of the server whose entry in the local list is current, so that its local copy is
looked at. -/
structure LookedAt (server localList : ChannelFileList) (o : FileObject) : Prop where
  server : server.getFiles[o.filename]? = some o
  kept : o.deleted = false
  current : ∃ l, localList.getFiles[o.filename]? = some l ∧ o.version ≤ l.version

/-- Every file that is looked at and cannot be read in full is missing, and added. -/
def RepairsUnreadable (got : Bytes → ℕ → ℕ) (server system localList updates : ChannelFileList)
    (pathPrefix : Bytes) (fs : FileSystem) : Prop :=
  ∀ o, LookedAt server localList o →
    (¬∃ content, ReadInFull (got (localPath pathPrefix o)) fs (localPath pathPrefix o) content) →
      (o.filename, .missing) ∈
          (calculateUpdates got server system localList updates pathPrefix fs).1 ∧
        (calculateUpdates got server system localList updates pathPrefix fs).2.getFiles[
          o.filename]? = some o

section Unreadable

variable {got : Bytes → ℕ → ℕ} {server system localList updates : ChannelFileList}
  {pathPrefix : Bytes} {fs : FileSystem} {o : FileObject}

/-- A file that is looked at is missing exactly when it cannot be opened. -/
theorem LookedAt.missing_iff (h : LookedAt server localList o) :
    (o.filename, .missing) ∈
        (calculateUpdates got server system localList updates pathPrefix fs).1 ↔
      fopenRead fs (localPath pathPrefix o) = none := by
  obtain ⟨l, hl, hversion⟩ := h.current
  have hname : l.filename = o.filename := localList.keyed _ _ hl
  have hopens : fopenRead fs (localPath pathPrefix o) = none ↔
      fs.opens (cStr (pathPrefix ++ o.filename)) = false := by
    rw [← cStr_append_cStr, ← isSome_fopenRead, Option.isSome_eq_false_iff,
      Option.isNone_iff_eq_none]
    rfl
  rw [mem_calculateUpdates_iff h.server, reasonFor, updateReason_eq_missing_iff, hl, hopens]
  simp [h.kept, hname, hversion]

theorem LookedAt.added_of_missing (h : LookedAt server localList o)
    (hmissing : (o.filename, .missing) ∈
      (calculateUpdates got server system localList updates pathPrefix fs).1) :
    (calculateUpdates got server system localList updates pathPrefix fs).2.getFiles[
      o.filename]? = some o := by
  have hreason := (mem_calculateUpdates_iff h.server).mp hmissing
  have hneeded : Needed system localList pathPrefix fs o :=
    (adds_reasonFor_iff o).mp (by rw [hreason]; rfl)
  rw [calculateUpdates_snd_eq]
  exact getElem?_addFiles_of_mem nodup_neededFiles (mem_neededFiles.mpr ⟨h.server, hneeded⟩)

theorem repairsUnreadable_iff :
    RepairsUnreadable got server system localList updates pathPrefix fs ↔
      ∀ o, LookedAt server localList o →
        (fopenRead fs (localPath pathPrefix o)).isSome = true →
          ∃ content,
            ReadInFull (got (localPath pathPrefix o)) fs (localPath pathPrefix o) content := by
  constructor
  · intro h o ho hopen
    by_contra hfull
    rw [ho.missing_iff.mp (h o ho hfull).1] at hopen
    simp at hopen
  · intro h o ho hfull
    have hnone : fopenRead fs (localPath pathPrefix o) = none := by
      by_contra hopen
      exact hfull (h o ho (Option.isSome_iff_ne_none.mpr hopen))
    have hmissing : (o.filename, .missing) ∈
        (calculateUpdates got server system localList updates pathPrefix fs).1 :=
      ho.missing_iff.mpr hnone
    exact ⟨hmissing, ho.added_of_missing hmissing⟩

/-- A checksum is that of a file, and an unreadable file is repaired, exactly when what can
be opened is read in full. -/
theorem unreadable_files (reads : ℕ → ℕ) (path : Bytes) (got : Bytes → ℕ → ℕ)
    (server system localList updates : ChannelFileList) (pathPrefix : Bytes) (fs : FileSystem) :
    (ChecksumOfFile reads fs path ↔
      ((fopenRead fs path).isSome = true → ∃ content, ReadInFull reads fs path content)) ∧
    (RepairsUnreadable got server system localList updates pathPrefix fs ↔
      ∀ o, LookedAt server localList o →
        (fopenRead fs (localPath pathPrefix o)).isSome = true →
          ∃ content,
            ReadInFull (got (localPath pathPrefix o)) fs (localPath pathPrefix o) content) :=
  ⟨checksumOfFile_iff, repairsUnreadable_iff⟩

end Unreadable

/-- A list with one file. -/
def oneFileList : ChannelFileList :=
  ChannelFileList.empty.addFile
    { filename := ascii "f"
      version := 1
      crc32 := 7
      size := 1
      execute := false
      deleted := false }

/-- A directory stands where the local copy of the file should be. -/
def directoryInPlace : FileSystem :=
  FileSystem.empty.create [ascii "f"] newDirectory

/-- The directory has the checksum 0, and the file counts as modified. -/
theorem unreadable_files_directory :
    ¬ChecksumOfFile (fun _ => crcBufferSize) directoryInPlace (ascii "f") ∧
      ¬RepairsUnreadable (fun _ _ => crcBufferSize) oneFileList .empty oneFileList .empty []
        directoryInPlace := by
  have hopen : fopenRead directoryInPlace (ascii "f") = some newDirectory := by
    have hlookup : directoryInPlace.lookup (cStr (ascii "f")) = some newDirectory := by decide
    rw [fopenRead, hlookup]
    rfl
  have hfull : ¬∃ content, ReadInFull (fun _ => crcBufferSize) directoryInPlace (ascii "f")
      content := by
    rintro ⟨content, n, hn, hk, -⟩
    rw [hopen, Option.some.injEq] at hn
    rw [← hn] at hk
    simp [newDirectory] at hk
  constructor
  · rw [checksumOfFile_iff, hopen]
    exact fun h => hfull (h rfl)
  · rw [repairsUnreadable_iff]
    intro h
    have hlooked : LookedAt oneFileList oneFileList (oneFileList.getFiles[ascii "f"]?.get rfl) :=
      ⟨rfl, rfl, _, rfl, by decide⟩
    exact hfull (h _ hlooked (by rw [show localPath [] _ = ascii "f" from rfl, hopen]; rfl))

end LibWfut
