import Std.Data.ExtTreeMap
import Mathlib.Algebra.Group.Int.Defs
import Mathlib.Algebra.Group.Nat.Defs
import Mathlib.Data.List.TakeWhile
import Mathlib.Data.Nat.Notation

/-! # Shared types

Strings are byte strings, `unsigned long` and `long` have 64 bits and `int` has 32, as
on x86-64 Linux. -/

namespace LibWfut

abbrev Bytes := List UInt8

/-- The bytes of an ASCII text. -/
def ascii (s : String) : Bytes :=
  s.toList.map fun c => c.toNat.toUInt8

/-- zlib's `uLong`. -/
abbrev ULong := UInt64

/-- What a C function sees of a `std::string` through `c_str()`. -/
def cStr (s : Bytes) : Bytes :=
  s.takeWhile (· ≠ 0)

theorem cStr_eq_self_iff {s : Bytes} : cStr s = s ↔ 0 ∉ s := by
  rw [cStr, List.takeWhile_eq_self_iff]
  constructor
  · intro h h0
    simpa using h 0 h0
  · intro h c hc
    simp only [ne_eq, decide_not, Bool.not_eq_eq_eq_not, Bool.not_true, decide_eq_false_iff_not]
    rintro rfl
    exact h hc

theorem cStr_append_of_not_mem {p : Bytes} (h : 0 ∉ p) (f : Bytes) :
    cStr (p ++ f) = p ++ cStr f := by
  apply List.takeWhile_append_of_pos
  exact List.takeWhile_eq_self_iff.mp (cStr_eq_self_iff.mpr h)

theorem cStr_append_of_mem {p : Bytes} (h : 0 ∈ p) (f : Bytes) : cStr (p ++ f) = cStr p := by
  induction p with
  | nil => simp at h
  | cons c p ih =>
      by_cases hc : c = 0
      · simp [cStr, hc]
      · have hrest := ih (by simpa [Ne.symm hc] using h)
        simpa [cStr, hc] using hrest

theorem not_mem_cStr (s : Bytes) : 0 ∉ cStr s := by
  intro h
  simpa using List.mem_takeWhile_imp h

theorem cStr_append_cStr (p f : Bytes) : cStr (p ++ cStr f) = cStr (p ++ f) := by
  by_cases h : 0 ∈ p
  · rw [cStr_append_of_mem h, cStr_append_of_mem h]
  · rw [cStr_append_of_not_mem h, cStr_append_of_not_mem h,
      cStr_eq_self_iff.mpr (not_mem_cStr f)]

/-- Undefined behaviour of the program, an exception that nothing catches, and the two ways a
call can fail to end in the model. -/
inductive Fault where
  | nullPointer
  | useAfterFree
  | eraseEnd
  | unassigned
  | badAlloc
  | outOfFuel
  | assertion
  deriving DecidableEq, Repr

structure FileObject where
  filename : Bytes
  version : Int32
  crc32 : ULong
  size : Int64
  execute : Bool
  deleted : Bool
  deriving DecidableEq

abbrev FileMap := Std.ExtTreeMap Bytes FileObject compare

/-- A channel stores every file under its own name: `addFile` is the only way in. -/
structure ChannelFileList where
  name : Bytes
  fileMap : FileMap
  keyed : ∀ (k : Bytes) (f : FileObject), fileMap[k]? = some f → f.filename = k

namespace ChannelFileList

def empty : ChannelFileList where
  name := []
  fileMap := ∅
  keyed := by
    intro k f h
    simp at h

def getName (l : ChannelFileList) : Bytes := l.name

def setName (l : ChannelFileList) (name : Bytes) : ChannelFileList :=
  { l with name := name }

def getFiles (l : ChannelFileList) : FileMap := l.fileMap

def addFile (l : ChannelFileList) (fo : FileObject) : ChannelFileList where
  name := l.name
  fileMap := l.fileMap.insert fo.filename fo
  keyed := by
    intro k f h
    rw [Std.ExtTreeMap.getElem?_insert] at h
    split at h
    · rename_i heq
      rw [← Std.LawfulEqCmp.eq_of_compare heq, Option.some.inj h]
    · exact l.keyed k f h

@[simp] theorem name_addFile (l : ChannelFileList) (fo : FileObject) :
    (l.addFile fo).name = l.name := rfl

@[simp] theorem fileMap_addFile (l : ChannelFileList) (fo : FileObject) :
    (l.addFile fo).fileMap = l.fileMap.insert fo.filename fo := rfl

@[simp] theorem name_setName (l : ChannelFileList) (name : Bytes) :
    (l.setName name).name = name := rfl

@[simp] theorem fileMap_setName (l : ChannelFileList) (name : Bytes) :
    (l.setName name).fileMap = l.fileMap := rfl

theorem ext {l m : ChannelFileList} (hn : l.name = m.name) (hf : l.fileMap = m.fileMap) :
    l = m := by
  cases l
  cases m
  simp only at hn hf
  subst hn hf
  rfl

end ChannelFileList

end LibWfut
