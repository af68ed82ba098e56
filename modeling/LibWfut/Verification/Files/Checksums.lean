import LibWfut.Model.Platform

/-! # Reading a file to its end

`fread` returns 0 at the end of a file and on an error alike. A file is read in full when
only the first of these happens. -/

namespace LibWfut

open FileTree

/-- Reads in blocks of `size`, of which turn `k` delivers `got k` at most, come to the end
of `rest`. -/
inductive ReadsAll (size : ℕ) (got : ℕ → ℕ) : ℕ → Bytes → Prop where
  | atEnd (turn) : ReadsAll size got turn []
  | block (turn rest) (h : 0 < min size (got turn)) :
      ReadsAll size got (turn + 1) (rest.drop (min size (got turn))) →
      ReadsAll size got turn rest

/-- Where every `fread` delivers something, nothing is left unread. -/
theorem readsAll_of_pos {size : ℕ} {got : ℕ → ℕ} (hsize : 0 < size)
    (hgot : ∀ turn, 0 < got turn) (turn : ℕ) (rest : Bytes) : ReadsAll size got turn rest := by
  induction hlen : rest.length using Nat.strong_induction_on generalizing turn rest with
  | _ n ih =>
      cases rest with
      | nil => exact .atEnd turn
      | cons c cs =>
          have hpos : 0 < min size (got turn) := Nat.lt_min.mpr ⟨hsize, hgot turn⟩
          refine .block turn _ hpos (ih _ ?_ _ _ rfl)
          rw [← hlen, List.length_drop]
          simp only [List.length_cons]
          omega

/-- Checksumming chunk by chunk gives the checksum of the whole. -/
theorem crc32_append (crc : ULong) (xs ys : Bytes) :
    crc32 (crc32 crc xs) ys = crc32 crc (xs ++ ys) := by
  simp [crc32, Crc32.update_append]

/-- Reading in any blocks to the end gives the checksum of the whole. -/
theorem ReadsAll.calcLoop {got : ℕ → ℕ} {turn : ℕ} {rest : Bytes}
    (h : ReadsAll crcBufferSize got turn rest) (crc : ULong) (done : Bytes) {fuel : ℕ}
    (hfuel : rest.length ≤ fuel) :
    calcLoop got fuel turn rest (crc32 crc done) = crc32 crc (done ++ rest) := by
  induction h generalizing done fuel with
  | atEnd turn =>
      rw [List.append_nil]
      cases fuel with
      | zero => rfl
      | succ fuel => simp [LibWfut.calcLoop]
  | block turn rest hpos _ ih =>
      cases fuel with
      | zero =>
          rw [List.length_eq_zero_iff.mp (Nat.le_zero.mp hfuel), List.append_nil]
          rfl
      | succ fuel =>
          simp only [LibWfut.calcLoop]
          split
          · rename_i hzero
            have hnil : rest = [] := List.length_eq_zero_iff.mp (by omega)
            rw [hnil, List.append_nil]
          · rw [← List.drop_eq_drop_min, ← List.take_eq_take_min, crc32_append, ih]
            · rw [List.append_assoc, List.take_append_drop]
            · rw [List.length_drop]
              omega

/-! ## `calcCRC32` -/

/-- The file at the path is opened and all of it is read. -/
def ReadInFull (got : ℕ → ℕ) (fs : FileSystem) (path content : Bytes) : Prop :=
  ∃ n, fopenRead fs path = some n ∧ n.kind = .regular content ∧
    ReadsAll crcBufferSize got 0 content

/-- A checksum is returned for what was read in full, and for nothing else. -/
def ChecksumOfFile (got : ℕ → ℕ) (fs : FileSystem) (path : Bytes) : Prop :=
  ∀ crc, calcCRC32 got fs path = some crc ↔
    ∃ content, ReadInFull got fs path content ∧ crc = crc32 0 content

section Checksum

variable {got : ℕ → ℕ} {fs : FileSystem} {path : Bytes}

theorem calcCRC32_eq_none_iff : calcCRC32 got fs path = none ↔ fopenRead fs path = none := by
  unfold calcCRC32
  cases fopenRead fs path with
  | none => simp
  | some n => cases hk : n.kind <;> simp [hk]

theorem ReadInFull.calcCRC32 {content : Bytes} (h : ReadInFull got fs path content) :
    calcCRC32 got fs path = some (crc32 0 content) := by
  obtain ⟨n, hn, hk, hread⟩ := h
  have hloop := hread.calcLoop 0 [] (Nat.le_refl content.length)
  rw [List.nil_append] at hloop
  simp only [LibWfut.calcCRC32, hn, hk, hloop]

/-- The checksum is that of the file exactly when whatever can be opened is read in full. -/
theorem checksumOfFile_iff :
    ChecksumOfFile got fs path ↔
      ((fopenRead fs path).isSome = true → ∃ content, ReadInFull got fs path content) := by
  constructor
  · intro h hopen
    obtain ⟨crc, hcrc⟩ : ∃ crc, LibWfut.calcCRC32 got fs path = some crc := by
      refine Option.ne_none_iff_exists'.mp fun hnone => ?_
      rw [calcCRC32_eq_none_iff.mp hnone] at hopen
      simp at hopen
    obtain ⟨content, hfull, -⟩ := (h crc).mp hcrc
    exact ⟨content, hfull⟩
  · intro h crc
    constructor
    · intro hcrc
      have hopen : (fopenRead fs path).isSome = true := by
        refine Option.isSome_iff_ne_none.mpr fun hnone => ?_
        rw [calcCRC32_eq_none_iff.mpr hnone] at hcrc
        simp at hcrc
      obtain ⟨content, hfull⟩ := h hopen
      rw [hfull.calcCRC32, Option.some.injEq] at hcrc
      exact ⟨content, hfull, hcrc.symm⟩
    · rintro ⟨content, hfull, rfl⟩
      exact hfull.calcCRC32

end Checksum

end LibWfut
