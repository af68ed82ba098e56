import LibWfut.Model.Download
import LibWfut.Verification.Download.Complete
import LibWfut.Verification.Io.Returned

/-! # Blocking downloads

`downloadFile` keeps the checksum of what arrives, but compares it with nothing. -/

namespace LibWfut

open FileTree

/-- The response body. -/
def Transfer.body (t : Transfer) : Bytes :=
  t.writes.flatMap WriteCall.buffer

/-- curl reports success, with `fp` as the file to write to. -/
def Transfer.Succeeds (t : Transfer) (fp : Option Bytes) (filename url : Bytes)
    (expectedCrc32 : ULong) : Prop :=
  (easyPerform t.result t.writes (t.data fp filename url expectedCrc32)).1 = .ok

/-- The expected checksum, if there is one, is that of the body. -/
def Verified (expectedCrc32 : ULong) (body : Bytes) : Prop :=
  expectedCrc32 = 0 ∨ expectedCrc32 = crc32 0 body

/-- The bytes of the regular file at a place. -/
def contentAt (fs : FileSystem) (l : Location) : Option Bytes :=
  (fs.node l).bind fun n => match n.kind with
    | .directory => none
    | .regular content => some content

/-- Nothing that is written to a file is lost. -/
structure WritesAll (env : Storage) : Prop where
  put : ∀ k, bufferSize ≤ (env.block k).put
  lost : env.lost = 0

/-- The temporary file can be read back. -/
def TmpfileReads (env : Storage) (src : Bytes) : Prop :=
  ReadsAll bufferSize (fun k => (env.block k).got) 0 src

/-- The directories of the file exist or can be made, and the file can be opened. -/
def Storable (env : Storage) (filename : Bytes) (fs : FileSystem) : Prop :=
  (createParentDirs env filename fs).1 = 0 ∧
    (fopenWrite env (createParentDirs env filename fs).2 filename).isSome = true

/-- What a call with a filename promises. -/
structure ChecksFile (t : Transfer) (filename url : Bytes) (expectedCrc32 : ULong)
    (fs : FileSystem) : Prop where
  verified : (downloadFile t filename url expectedCrc32 fs).1 = 0 →
    t.Succeeds none filename url expectedCrc32 ∧ Verified expectedCrc32 t.body
  kept : (downloadFile t filename url expectedCrc32 fs).1 ≠ 0 →
    contentAt (downloadFile t filename url expectedCrc32 fs).2 (pathPlace fs filename) =
      contentAt fs (pathPlace fs filename)
  stored : (downloadFile t filename url expectedCrc32 fs).1 = 0 →
    HoldsExactly (downloadFile t filename url expectedCrc32 fs).2 filename t.body

/-- What a call with a stream promises. -/
def ChecksStream (t : Transfer) (file url : Bytes) (expectedCrc32 : ULong) : Prop :=
  (downloadStream t file url expectedCrc32).1 = 0 →
    t.Succeeds (some file) [] url expectedCrc32 ∧ Verified expectedCrc32 t.body

/-! ## The copy -/

/-- Where every write is complete, the loop copies what it can read. -/
theorem copiesAll_iff_readsAll {block : ℕ → BlockResult} (hput : ∀ k, bufferSize ≤ (block k).put)
    {fuel turn : ℕ} {rest : Bytes} (hfuel : rest.length ≤ fuel) :
    CopiesAll block fuel turn rest ↔
      ReadsAll bufferSize (fun k => (block k).got) turn rest := by
  induction fuel generalizing turn rest with
  | zero =>
      have hnil := List.length_eq_zero_iff.mp (Nat.le_zero.mp hfuel)
      subst hnil
      exact ⟨fun _ => .atEnd turn, fun _ => rfl⟩
  | succ fuel ih =>
      have hle : min (min bufferSize (block turn).got) rest.length ≤ (block turn).put :=
        ((min_le_left ..).trans (min_le_left ..)).trans (hput turn)
      simp only [CopiesAll, hle, true_and]
      split
      · constructor
        · rintro rfl
          exact .atEnd turn
        · intro h
          cases h with
          | atEnd => rfl
          | block _ _ hpos _ => exact List.length_eq_zero_iff.mp (by omega)
      · rw [← List.drop_eq_drop_min, ih]
        · constructor
          · exact .block turn rest (by omega)
          · intro h
            cases h with
            | atEnd => simp at *
            | block _ _ _ h => exact h
        · rw [List.length_drop]
          omega

theorem WritesAll.storesAll_iff {env : Storage} (h : WritesAll env) (src : Bytes) :
    StoresAll env (some src) ↔ TmpfileReads env src := by
  simp [StoresAll, TmpfileReads, h.lost, copiesAll_iff_readsAll h.put (Nat.le_refl src.length)]

/-! ## The transfer -/

theorem easyPerform_sameJob (result : CurlCode) (cs : List WriteCall) (ds : DataStruct) :
    ds.SameJob (easyPerform result cs ds).2 := by
  induction cs generalizing ds with
  | nil => exact .refl ds
  | cons c cs ih =>
      have hone := sameJob_writeData c ds
      simp only [easyPerform]
      split
      · exact hone
      · exact hone.trans (ih _)

/-- After a transfer that succeeded everything that arrived is in the file. -/
theorem Received.easyPerform {result : CurlCode} {cs : List WriteCall} {ds : DataStruct}
    {e : EasyHandle} (h : Received ds e) (he : e.writeFailed = false)
    (hok : (easyPerform result cs ds).1 = .ok) :
    (LibWfut.easyPerform result cs ds).2.fp.getD [] =
      e.body ++ cs.flatMap WriteCall.buffer := by
  induction cs generalizing ds e with
  | nil => simpa [LibWfut.easyPerform] using h.content
  | cons c cs ih =>
      simp only [LibWfut.easyPerform] at hok ⊢
      split at hok
      · simp [writeError] at hok
      · rename_i hfull
        have hone : (e.receive c (LibWfut.writeData c ds).1).writeFailed = false := by
          simpa [EasyHandle.receive, he] using hfull
        rw [if_neg hfull, ih (h.writeData hone) hone hok]
        simp [EasyHandle.receive]

/-! ## The file -/

/-- Making the directories above a file changes no content. -/
theorem contentAt_createParentDirs (env : Storage) (target : Bytes) (fs : FileSystem)
    (l : Location) :
    contentAt (createParentDirs env target fs).2 l = contentAt fs l := by
  rw [contentAt, contentAt, createParentDirs_node]
  split
  · rename_i hmade
    obtain ⟨p, hp, rfl⟩ := List.mem_map.mp hmade
    rw [node_of_mem_madeDirs hp]
    rfl
  · rfl

theorem copyFile_eq_zero_iff (env : Storage) (fp : Option Bytes) (target : Bytes)
    (fs : FileSystem) : (copyFile env fp target fs).1 = 0 ↔ Storable env target fs := by
  unfold copyFile Storable
  by_cases herr : (createParentDirs env target fs).1 = 0
  · cases hopen : fopenWrite env (createParentDirs env target fs).2 target with
    | none => simp [herr, hopen]
    | some opened => simp [herr, hopen]
  · simp [herr]

theorem contentAt_copyFile_of_failed {env : Storage} {fp : Option Bytes} {target : Bytes}
    {fs : FileSystem} (h : (copyFile env fp target fs).1 ≠ 0) (l : Location) :
    contentAt (copyFile env fp target fs).2 l = contentAt fs l := by
  rcases copyFile_cases env fp target fs with heq | ⟨l', fs', -, -, heq⟩
  · rw [heq, contentAt_createParentDirs]
  · rw [heq] at h
    exact absurd rfl h

section File

variable {t : Transfer} {filename url : Bytes} {expectedCrc32 : ULong} {fs : FileSystem}

/-- The data of the call when curl is done. -/
def Transfer.final (t : Transfer) (filename url : Bytes) (expectedCrc32 : ULong) : DataStruct :=
  (easyPerform t.result t.writes (t.data none filename url expectedCrc32)).2

theorem Transfer.final_filename :
    (t.final filename url expectedCrc32).filename = filename :=
  (easyPerform_sameJob t.result t.writes (t.data none filename url expectedCrc32)).filename

theorem Transfer.Succeeds.content (h : t.Succeeds none filename url expectedCrc32) :
    (t.final filename url expectedCrc32).fp.getD [] = t.body := by
  have hstart : Received (t.data none filename url expectedCrc32)
      { url := url, priv := 0 } := ⟨rfl, rfl⟩
  exact hstart.easyPerform rfl h

theorem downloadFile_of_not (h : ¬t.Succeeds none filename url expectedCrc32) :
    downloadFile t filename url expectedCrc32 fs = (1, fs) := by
  unfold downloadFile
  split
  · rename_i ds heq
    exact absurd (by rw [Transfer.Succeeds, heq]) h
  · rfl

theorem downloadFile_of (h : t.Succeeds none filename url expectedCrc32) :
    downloadFile t filename url expectedCrc32 fs =
      (if (copyFile t.storage (t.final filename url expectedCrc32).fp filename fs).1 = 0 then 0
        else 1,
        (copyFile t.storage (t.final filename url expectedCrc32).fp filename fs).2) := by
  have hname : (t.final filename url expectedCrc32).filename = filename := t.final_filename
  unfold downloadFile
  split
  · rename_i ds heq
    have hds : t.final filename url expectedCrc32 = ds := by
      rw [Transfer.final, heq]
    rw [hds] at hname ⊢
    rw [hname]
  · rename_i heq
    rw [Transfer.Succeeds, heq] at h
    simp at h

theorem downloadFile_eq_zero_iff :
    (downloadFile t filename url expectedCrc32 fs).1 = 0 ↔
      t.Succeeds none filename url expectedCrc32 ∧ Storable t.storage filename fs := by
  by_cases h : t.Succeeds none filename url expectedCrc32
  · rw [downloadFile_of h]
    simp [h, copyFile_eq_zero_iff]
  · rw [downloadFile_of_not h]
    simp [h]

/-- A failed call leaves all content as it was. -/
theorem contentAt_downloadFile_of_failed
    (h : (downloadFile t filename url expectedCrc32 fs).1 ≠ 0) (l : Location) :
    contentAt (downloadFile t filename url expectedCrc32 fs).2 l = contentAt fs l := by
  by_cases hs : t.Succeeds none filename url expectedCrc32
  · rw [downloadFile_of hs] at h ⊢
    exact contentAt_copyFile_of_failed (by simpa using h) l
  · rw [downloadFile_of_not hs]

/-- A successful call stores the body exactly when the copy loses nothing. -/
theorem holdsExactly_downloadFile
    (h : (downloadFile t filename url expectedCrc32 fs).1 = 0) :
    HoldsExactly (downloadFile t filename url expectedCrc32 fs).2 filename t.body ↔
      StoresAll t.storage (some t.body) := by
  obtain ⟨hs, hstorable⟩ := downloadFile_eq_zero_iff.mp h
  have hcontent := hs.content
  have hcopied : copiedContent t.storage (t.final filename url expectedCrc32).fp =
      copiedContent t.storage (some t.body) := by
    cases hfp : (t.final filename url expectedCrc32).fp with
    | none =>
        rw [hfp, Option.getD_none] at hcontent
        simp [← hcontent, copiedContent, copyLoop]
    | some file =>
        rw [hfp, Option.getD_some] at hcontent
        rw [hcontent]
  rw [downloadFile_of hs]
  simp only
  rw [holdsExactly_copyFile ((copyFile_eq_zero_iff ..).mpr hstorable), hcopied,
    ← copiedContent_eq_iff, Option.getD_some]

end File

/-- Each overload keeps its promises exactly when the expected checksum happens to be that
of every body it accepts, and such a body can be read back. -/
theorem blocking_download (t : Transfer) (filename url : Bytes) (expectedCrc32 : ULong)
    (file : Bytes) (fs : FileSystem) (hwrites : WritesAll t.storage) :
    (ChecksFile t filename url expectedCrc32 fs ↔
      (t.Succeeds none filename url expectedCrc32 → Storable t.storage filename fs →
        Verified expectedCrc32 t.body ∧ TmpfileReads t.storage t.body)) ∧
    (ChecksStream t file url expectedCrc32 ↔
      (t.Succeeds (some file) [] url expectedCrc32 → Verified expectedCrc32 t.body)) := by
  constructor
  · rw [← hwrites.storesAll_iff]
    constructor
    · intro h hs hstorable
      have hzero := downloadFile_eq_zero_iff.mpr ⟨hs, hstorable⟩
      exact ⟨(h.verified hzero).2, (holdsExactly_downloadFile hzero).mp (h.stored hzero)⟩
    · intro h
      constructor
      case verified =>
        intro hzero
        obtain ⟨hs, hstorable⟩ := downloadFile_eq_zero_iff.mp hzero
        exact ⟨hs, (h hs hstorable).1⟩
      case kept => exact fun hfail => contentAt_downloadFile_of_failed hfail _
      case stored =>
        intro hzero
        obtain ⟨hs, hstorable⟩ := downloadFile_eq_zero_iff.mp hzero
        exact (holdsExactly_downloadFile hzero).mpr (h hs hstorable).2
  · have hzero : (downloadStream t file url expectedCrc32).1 = 0 ↔
        t.Succeeds (some file) [] url expectedCrc32 := by
      simp [downloadStream, Transfer.Succeeds]
    rw [ChecksStream, hzero]
    exact ⟨fun h hs => (h hs).2, fun h hs => ⟨hs, h hs⟩⟩

/-- One byte that arrives, where a checksum of 1 was asked for. -/
def damaged : Transfer where
  writes := [{ handle := 0, buffer := ascii "a", room := 1 }]

theorem damaged_writesAll : WritesAll damaged.storage :=
  ⟨fun _ => le_rfl, rfl⟩

theorem blocking_download_damaged :
    (ChecksFile damaged (ascii "f") (ascii "http://h/f") 1 .empty ↔
      (damaged.Succeeds none (ascii "f") (ascii "http://h/f") 1 →
        Storable damaged.storage (ascii "f") .empty →
          Verified 1 damaged.body ∧ TmpfileReads damaged.storage damaged.body)) ∧
    (ChecksStream damaged [] (ascii "http://h/f") 1 ↔
      (damaged.Succeeds (some []) [] (ascii "http://h/f") 1 → Verified 1 damaged.body)) :=
  blocking_download damaged (ascii "f") (ascii "http://h/f") 1 [] .empty damaged_writesAll

/-- Both overloads report success for a body with another checksum. -/
theorem blocking_download_unchecked :
    WritesAll damaged.storage ∧
      (downloadFile damaged (ascii "f") (ascii "http://h/f") 1 .empty).1 = 0 ∧
      (downloadStream damaged [] (ascii "http://h/f") 1).1 = 0 ∧
      ¬ChecksFile damaged (ascii "f") (ascii "http://h/f") 1 .empty ∧
      ¬ChecksStream damaged [] (ascii "http://h/f") 1 := by
  have hverified : ¬Verified 1 damaged.body := by
    unfold Verified
    decide +kernel
  have hfile : (downloadFile damaged (ascii "f") (ascii "http://h/f") 1 .empty).1 = 0 := by
    decide +kernel
  have hstream : (downloadStream damaged [] (ascii "http://h/f") 1).1 = 0 := by
    decide +kernel
  refine ⟨damaged_writesAll, hfile, hstream, ?_, ?_⟩
  · exact fun h => hverified (h.verified hfile).2
  · exact fun h => hverified (h hstream).2

end LibWfut
