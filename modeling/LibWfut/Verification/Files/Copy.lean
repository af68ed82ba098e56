import LibWfut.Model.Io
import LibWfut.Verification.Files.Directories

/-! # Storing a finished download

`copy_file` looks at the result of `fopen` only: it says neither whether every `fread`
and `fwrite` was complete nor whether `fclose` could flush. -/

namespace LibWfut

open FileTree

/-! ## The copy loop -/

/-- Every `fread` that returns nothing is at the end of the file, and every `fwrite` takes
all it is given. -/
def CopiesAll (block : ℕ → BlockResult) : ℕ → ℕ → Bytes → Prop
  | 0, _, rest => rest = []
  | fuel + 1, turn, rest =>
    let num := min (min bufferSize (block turn).got) rest.length
    if num = 0 then rest = []
    else num ≤ (block turn).put ∧ CopiesAll block fuel (turn + 1) (rest.drop num)

theorem length_copyLoop_le (block : ℕ → BlockResult) (fuel turn : ℕ) (rest out : Bytes) :
    (copyLoop block fuel turn rest out).length ≤ out.length + rest.length := by
  induction fuel generalizing turn rest out with
  | zero => simp [copyLoop]
  | succ fuel ih =>
      simp only [copyLoop]
      split
      · omega
      · refine (ih ..).trans ?_
        simp only [List.length_append, List.length_take, List.length_drop]
        omega

/-- The loop copies everything exactly when no block is cut short. -/
theorem copyLoop_eq_append_iff (block : ℕ → BlockResult) (fuel turn : ℕ) (rest out : Bytes) :
    copyLoop block fuel turn rest out = out ++ rest ↔ CopiesAll block fuel turn rest := by
  induction fuel generalizing turn rest out with
  | zero => simp [copyLoop, CopiesAll]
  | succ fuel ih =>
      simp only [copyLoop, CopiesAll]
      generalize hnum : min (min bufferSize (block turn).got) rest.length = num
      by_cases hz : num = 0
      · simp [hz]
      · rw [if_neg hz, if_neg hz]
        have hle : num ≤ rest.length := by omega
        by_cases hput : num ≤ (block turn).put
        · have htake : (rest.take num).take (block turn).put = rest.take num := by
            rw [List.take_take, Nat.min_eq_right hput]
          rw [htake, ← ih (turn + 1) (rest.drop num) (out ++ rest.take num), List.append_assoc,
            List.take_append_drop]
          simp [hput]
        · constructor
          · intro heq
            have hlen := length_copyLoop_le block fuel (turn + 1) (rest.drop num)
              (out ++ (rest.take num).take (block turn).put)
            rw [heq] at hlen
            simp only [List.length_append, List.length_take, List.length_drop] at hlen
            omega
          · exact fun h => absurd h.1 hput

/-- Nothing of the temporary file is lost on the way. -/
def StoresAll (env : Storage) (fp : Option Bytes) : Prop :=
  ∀ src, fp = some src → CopiesAll env.block src.length 0 src ∧ (env.lost = 0 ∨ src = [])

theorem copiedContent_eq_iff (env : Storage) (fp : Option Bytes) :
    copiedContent env fp = fp.getD [] ↔ StoresAll env fp := by
  cases fp with
  | none => simp [copiedContent, StoresAll]
  | some src =>
      have hlen := length_copyLoop_le env.block src.length 0 src []
      have hiff := copyLoop_eq_append_iff env.block src.length 0 src []
      simp only [List.nil_append, List.length_nil, Nat.zero_add] at hlen hiff
      simp only [copiedContent, StoresAll, Option.some.injEq, forall_eq', Option.getD_some,
        ← hiff]
      constructor
      · intro heq
        have hlost := congrArg List.length heq
        rw [List.length_take] at hlost
        by_cases hsrc : src = []
        · subst hsrc
          exact ⟨rfl, .inr rfl⟩
        · have hpos := List.length_pos_iff.mpr hsrc
          have hzero : env.lost = 0 := by omega
          rw [hzero, Nat.sub_zero, List.take_length] at heq
          exact ⟨heq, .inl hzero⟩
      · rintro ⟨heq, hzero | hnil⟩
        · rw [heq, hzero, Nat.sub_zero, List.take_length]
        · rw [heq, hnil, List.take_nil]

/-! ## Opening and storing -/

/-- Will a file that is stored here be readable? -/
def readableAfter (env : Storage) (fs : FileSystem) (l : Location) : Bool :=
  ((fs.node l).map Node.readable).getD env.newReadable

/-- The tree after a regular file with this content was stored at `l`. -/
structure Stored (env : Storage) (fs : FileSystem) (l : Location) (content : Bytes)
    (fs' : FileSystem) : Prop where
  node : ∃ n, fs'.node l = some n ∧ n.kind = .regular content ∧
    n.readable = readableAfter env fs l
  others : ∀ m, m ≠ l → fs'.node m = fs.node m
  isDir : ∀ m, fs'.isDir m = fs.isDir m
  grows : FileSystem.Grows [] [l] fs fs'

theorem Stored.setContent {env : Storage} {fs fs' : FileSystem} {l : Location} {old : Bytes}
    (h : Stored env fs l old fs') (content : Bytes) :
    Stored env fs l content (fs'.setContent l content) := by
  obtain ⟨n, hn, hk, hr⟩ := h.node
  constructor
  case node => exact ⟨_, FileSystem.node_setContent_self hn hk content, rfl, hr⟩
  case others =>
    intro m hm
    rw [FileSystem.node_setContent_of_ne _ hm, h.others m hm]
  case isDir =>
    intro m
    rw [FileSystem.isDir_setContent, h.isDir]
  case grows => exact h.grows.trans (FileSystem.grows_setContent ..)

theorem fopenWrite_eq_some {env : Storage} {fs fs' : FileSystem} {path : Bytes} {l : Location}
    (h : fopenWrite env fs path = some (l, fs')) :
    fs.resolve (cStr path) = some l ∧ Stored env fs l [] fs' := by
  unfold fopenWrite at h
  split at h
  · simp at h
  · rename_i l' hl'
    split at h
    · rename_i hnone
      split at h
      · rename_i hfree
        simp only [Option.some.injEq, Prod.mk.injEq] at h
        obtain ⟨rfl, rfl⟩ := h
        refine ⟨hl', ?_⟩
        constructor
        case node =>
          refine ⟨newFile env, by rw [FileSystem.node_create hfree.1, if_pos rfl], rfl, ?_⟩
          rw [readableAfter, hnone]
          rfl
        case others =>
          intro m hm
          rw [FileSystem.node_create hfree.1, if_neg hm]
        case isDir =>
          intro m
          rw [FileSystem.isDir_create hfree.1]
          split
          · rename_i hm
            rw [hm, FileSystem.isDir, hnone]
            rfl
          · rfl
        case grows => exact FileSystem.grows_create_file hfree.1 rfl
      · simp at h
    · rename_i n hn
      split at h
      · rename_i hfile
        simp only [Option.some.injEq, Prod.mk.injEq] at h
        obtain ⟨rfl, rfl⟩ := h
        refine ⟨hl', ?_⟩
        have hd : n.isDir = false := by simpa using hfile.1
        cases hk : n.kind with
        | directory => simp [Node.isDir, hk] at hd
        | regular old =>
            have hself : Stored env fs l' old fs :=
              ⟨⟨n, hn, hk, by rw [readableAfter, hn]; rfl⟩, fun _ _ => rfl, fun _ => rfl,
                (FileSystem.Grows.refl fs).cons_file hn hd⟩
            exact hself.setContent []
      · simp at h

/-- `copy_file` makes directories, and then either gives up or stores the file. -/
theorem copyFile_cases (env : Storage) (fp : Option Bytes) (target : Bytes) (fs : FileSystem) :
    copyFile env fp target fs = (1, (createParentDirs env target fs).2) ∨
      ∃ l fs', (createParentDirs env target fs).2.resolve (cStr target) = some l ∧
        Stored env (createParentDirs env target fs).2 l (copiedContent env fp) fs' ∧
        copyFile env fp target fs = (0, fs') := by
  unfold copyFile
  split
  rename_i err fs₁ hdirs
  rw [hdirs]
  split
  · exact .inl rfl
  · split
    · exact .inl rfl
    · rename_i l fs₂ hopen
      obtain ⟨hl, hstored⟩ := fopenWrite_eq_some hopen
      exact .inr ⟨l, _, hl, hstored.setContent _, rfl⟩

/-- A file that is opened is emptied. -/
theorem fopenWrite_of_node {env : Storage} {fs fs' : FileSystem} {path : Bytes} {l : Location}
    {n : Node} (h : fopenWrite env fs path = some (l, fs')) (hn : fs.node l = some n) :
    (∃ old, n.kind = .regular old) ∧ fs' = fs.setContent l [] := by
  unfold fopenWrite at h
  split at h
  · simp at h
  · split at h
    · rename_i hnone
      split at h
      · obtain ⟨rfl, -⟩ := Prod.mk.inj (Option.some.inj h)
        rw [hnone] at hn
        simp at hn
      · simp at h
    · rename_i n' hn'
      split at h
      · rename_i hopen
        obtain ⟨rfl, rfl⟩ := Prod.mk.inj (Option.some.inj h)
        rw [hn, Option.some.injEq] at hn'
        subst hn'
        cases hk : n.kind with
        | directory => simp [Node.isDir, hk] at hopen
        | regular old => exact ⟨⟨old, rfl⟩, rfl⟩
      · simp at h

/-- A copy over a file changes its content only. -/
theorem copyFile_node_of_some {env : Storage} {fp : Option Bytes} {target : Bytes}
    {fs : FileSystem} {n : Node} (hok : (copyFile env fp target fs).1 = 0)
    (hn : (createParentDirs env target fs).2.node (pathPlace fs target) = some n) :
    (copyFile env fp target fs).2.node (pathPlace fs target) =
      some { n with kind := .regular (copiedContent env fp) } := by
  unfold copyFile at hok ⊢
  split at hok
  rename_i err fs₁ hdirs
  have hfs : (createParentDirs env target fs).2 = fs₁ := congrArg Prod.snd hdirs
  rw [hfs] at hn
  split at hok
  · simp at hok
  · rename_i herr
    split at hok
    · simp at hok
    · rename_i l fs₂ hopen
      have hresolve := (fopenWrite_eq_some hopen).1
      rw [← hfs] at hresolve
      have hl : pathPlace fs target = l := (eq_pathPlace_of_resolve hresolve).symm
      rw [hl] at hn ⊢
      obtain ⟨⟨old, hold⟩, rfl⟩ := fopenWrite_of_node hopen hn
      simp only [herr, ite_false, FileSystem.setContent_setContent]
      exact FileSystem.node_setContent_self hn hold _

/-! ## What a finished transfer leaves -/

/-- The transfer succeeded with the expected checksum, so that its file is to be
stored. -/
def Arrived (m : CurlMsg) (ds : DataStruct) : Prop :=
  m.kind = .done ∧ m.result = .ok ∧ (ds.expectedCrc32 = 0 ∨ ds.expectedCrc32 = ds.actualCrc32)

instance (m : CurlMsg) (ds : DataStruct) : Decidable (Arrived m ds) :=
  inferInstanceAs (Decidable (_ ∧ _ ∧ _))

/-- A transfer that did not arrive fails without a look at the tree. -/
theorem finishTransfer_of_not {m : CurlMsg} {ds : DataStruct} (h : ¬Arrived m ds) :
    ∃ message, ∀ fs, finishTransfer m ds fs = (some message, fs) := by
  unfold finishTransfer
  split
  · rename_i hkind
    split
    · rename_i hresult
      refine ⟨ascii "CRC32 mismatch", fun fs => ?_⟩
      rw [if_neg fun hcrc => h ⟨hkind, hresult, hcrc⟩]
    · exact ⟨_, fun fs => rfl⟩
  · exact ⟨_, fun fs => rfl⟩

theorem finishTransfer_of {m : CurlMsg} {ds : DataStruct} (h : Arrived m ds)
    (fs : FileSystem) :
    finishTransfer m ds fs =
      (if (copyFile m.storage ds.fp ds.target fs).1 ≠ 0 then
          some (ascii "Error copying file to target location.\n") else none,
        if ds.executable then
          osSetExecutable m.storage ds.target (copyFile m.storage ds.fp ds.target fs).2
        else (copyFile m.storage ds.fp ds.target fs).2) := by
  obtain ⟨hkind, hresult, hcrc⟩ := h
  simp only [finishTransfer, hkind, hresult, hcrc, ite_true]

theorem osSetExecutable_node (env : Storage) (file : Bytes) (fs : FileSystem) (l : Location) :
    (osSetExecutable env file fs).node l =
      if env.chmodOk = true ∧ fs.resolve (cStr file) = some l then
        (fs.node l).map fun n => { n with mode := n.mode ||| executeBits }
      else fs.node l := by
  unfold osSetExecutable
  cases hl : fs.resolve (cStr file) with
  | none => simp
  | some m =>
      by_cases hok : env.chmodOk = true
      · simp only [hok, ite_true, FileSystem.node_addMode, true_and, Option.some.injEq]
        by_cases hm : l = m
        · simp [hm]
        · simp [hm, Ne.symm hm]
      · simp [hok]

/-- `os_set_executable` changes the mode of one node at most. -/
theorem osSetExecutable_cases (env : Storage) (file : Bytes) (fs : FileSystem) :
    osSetExecutable env file fs = fs ∨
      ∃ l, fs.resolve (cStr file) = some l ∧ env.chmodOk = true ∧
        osSetExecutable env file fs = fs.addMode l executeBits := by
  unfold osSetExecutable
  split
  · exact .inl rfl
  · rename_i l hl
    split
    · rename_i hok
      exact .inr ⟨l, hl, hok, rfl⟩
    · exact .inl rfl

end LibWfut
