import LibWfut.Model.Tool
import LibWfut.Verification.FileList.RoundTrip

/-! # The log after a crash

The log opens a `fileList` element and never closes it. -/

namespace LibWfut

open Encoder

/-! ## Texts without an end tag -/

/-- Does `</` occur? -/
def hasEndTag : Bytes → Bool
  | [] => false
  | c :: rest => decide (c = 60 ∧ rest.head? = some 47) || hasEndTag rest

/-- A piece of text with no end tag in it and none begun at its end. -/
structure NoEndTag (text : Bytes) : Prop where
  inside : hasEndTag text = false
  last : text.getLast? ≠ some 60

theorem hasEndTag_append {xs : Bytes} (h : xs.getLast? ≠ some 60) (ys : Bytes) :
    hasEndTag (xs ++ ys) = (hasEndTag xs || hasEndTag ys) := by
  induction xs with
  | nil => rfl
  | cons c xs ih =>
      cases xs with
      | nil =>
          have hc : c ≠ 60 := by simpa using h
          simp [hasEndTag, hc]
      | cons d xs =>
          have hrec := ih (by simpa using h)
          simp only [List.cons_append, hasEndTag, List.head?_cons] at hrec ⊢
          rw [hrec]
          simp only [Bool.or_assoc]
          rfl

theorem NoEndTag.append {xs ys : Bytes} (hx : NoEndTag xs) (hy : NoEndTag ys) :
    NoEndTag (xs ++ ys) := by
  constructor
  · rw [hasEndTag_append hx.last, hx.inside, hy.inside]
    rfl
  · rw [List.getLast?_append]
    cases hlast : ys.getLast? with
    | none => simpa using hx.last
    | some c => simpa [hlast] using hy.last

theorem noEndTag_of_not_mem {text : Bytes} (h : 60 ∉ text) : NoEndTag text := by
  constructor
  · induction text with
    | nil => rfl
    | cons c text ih =>
        simp only [List.mem_cons, not_or] at h
        simp [hasEndTag, Ne.symm h.1, ih h.2]
  · exact fun hlast => h (List.mem_of_mem_getLast? hlast)

/-! ## The log -/

theorem noEndTag_encodeString (s : Bytes) : NoEndTag (encodeString s) := by
  apply noEndTag_of_not_mem
  intro h
  have hsafe := isSafe_of_mem_encodeString h
  revert hsafe
  decide

theorem digit_ne_angle : ∀ d < 10, Decimal.digit d ≠ 60 := by decide

theorem noEndTag_ofInt (z : ℤ) : NoEndTag (Decimal.ofInt z) := by
  apply noEndTag_of_not_mem
  intro h
  rcases Decimal.mem_ofInt h with heq | ⟨d, hd, heq⟩
  · simp at heq
  · exact digit_ne_angle d hd heq.symm

theorem noEndTag_boolText (b : Bool) : NoEndTag (boolText b) := by
  cases b <;> exact ⟨by decide, by decide⟩

theorem noEndTag_logRecord (fo : FileObject) : NoEndTag (logRecord fo) := by
  have h1 : NoEndTag (ascii "<file filename=\"") := ⟨by decide, by decide⟩
  have h2 : NoEndTag (ascii "\" version=\"") := ⟨by decide, by decide⟩
  have h3 : NoEndTag (ascii "\" crc32=\"") := ⟨by decide, by decide⟩
  have h4 : NoEndTag (ascii "\" size=\"") := ⟨by decide, by decide⟩
  have h5 : NoEndTag (ascii "\" execute=\"") := ⟨by decide, by decide⟩
  have h6 : NoEndTag (ascii "\"/>\n") := ⟨by decide, by decide⟩
  exact ((((((((((h1.append (noEndTag_encodeString _)).append h2).append (noEndTag_ofInt _)).append
    h3).append (noEndTag_ofInt _)).append h4).append (noEndTag_ofInt _)).append h5).append
    (noEndTag_boolText _)).append h6)

/-- Once something is logged, the log is its header and records. -/
theorem logOf_eq {completed : List FileObject} (h : completed ≠ []) :
    logOf completed = some (logHeader ++ completed.flatMap logRecord) := by
  have hstep : ∀ (fs : List FileObject) (text : Bytes),
      fs.foldl (fun tmpfile fo => some (recordUpdate fo tmpfile)) (some text) =
        some (text ++ fs.flatMap logRecord) := by
    intro fs
    induction fs with
    | nil => simp
    | cons f fs ih =>
        intro text
        rw [List.foldl_cons, recordUpdate, ih, List.flatMap_cons, List.append_assoc]
  obtain ⟨f, fs, rfl⟩ := List.exists_cons_of_ne_nil h
  rw [logOf, List.foldl_cons, recordUpdate, hstep, List.flatMap_cons, List.append_assoc]

theorem noEndTag_records (fs : List FileObject) : NoEndTag (fs.flatMap logRecord) := by
  induction fs with
  | nil => exact ⟨rfl, by simp⟩
  | cons f fs ih =>
      rw [List.flatMap_cons]
      exact (noEndTag_logRecord f).append ih

/-! ## What the reader makes of it -/

/-- A name of letters. -/
def isName (s : Bytes) : Bool :=
  !s.isEmpty && s.all fun c => (97 ≤ c ∧ c ≤ 122) ∨ (65 ≤ c ∧ c ≤ 90)

/-- A text that can stand between quotation marks as it is. -/
def isPlain (s : Bytes) : Bool :=
  s.all fun c => c ∉ ascii "\"<&" ∧ c ≠ 0

/-- A start tag with quoted attribute values. -/
def startTag (name : Bytes) (attributes : Attributes) : Bytes :=
  ascii "<" ++ name ++
    attributes.flatMap (fun a => ascii " " ++ a.1 ++ ascii "=\"" ++ a.2 ++ ascii "\"") ++ ascii ">"

/-- The root element of this document is opened and never closed. -/
def NeverClosed (text : Bytes) : Prop :=
  ∃ name attributes body,
    text = ascii "<?xml version=\"1.0\"?>\n" ++ startTag name attributes ++ body ∧
      isName name = true ∧
      (∀ a ∈ attributes, isName a.1 = true ∧ isPlain a.2 = true) ∧
      hasEndTag text = false

/-- `LoadFile` reports an error for a document with an element that is never closed. -/
def ReportsUnclosed (load : Bytes → Option Document) : Prop :=
  ∀ text, NeverClosed text → load text = none

theorem neverClosed_log {completed : List FileObject} :
    NeverClosed (logHeader ++ completed.flatMap logRecord) := by
  refine ⟨ascii "fileList", [(ascii "dir", [])],
    ascii "\n" ++ completed.flatMap logRecord, ?_, by decide, by simp; decide, ?_⟩
  · rw [← List.append_assoc]
    rfl
  · have hheader : NoEndTag logHeader := ⟨by decide, by decide⟩
    exact (hheader.append (noEndTag_records completed)).inside

/-- The next run takes over exactly the files that were logged. -/
def Recovers (load : Bytes → Option Document) (uninit : ℕ → FileObject)
    (files : ChannelFileList) (completed : List FileObject) : Prop :=
  mergeLog load uninit (logOf completed) files = .ok (some (addFiles files completed))

/-- The next run gives up. -/
theorem mergeLog_logOf {load : Bytes → Option Document} (hload : ReportsUnclosed load)
    (uninit : ℕ → FileObject) (files : ChannelFileList) {completed : List FileObject}
    (h : completed ≠ []) : mergeLog load uninit (logOf completed) files = .ok none := by
  rw [logOf_eq h]
  have hnone : parseFileList load uninit (some (logHeader ++ completed.flatMap logRecord)) .empty =
      .ok (1, .empty) := by
    rw [parseFileList, Option.bind_some, hload _ neverClosed_log]
    rfl
  simp only [mergeLog, hnone, Machine.ok_bind]
  rfl

/-- Whatever was completed before the crash, the log does not recover it. -/
theorem crash_recovery {load : Bytes → Option Document} (hload : ReportsUnclosed load)
    (uninit : ℕ → FileObject) (files : ChannelFileList) (completed : List FileObject) (k : ℕ)
    (hk : 1 ≤ k) (hlen : k ≤ completed.length) :
    ¬Recovers load uninit files (completed.take k) := by
  have hne : completed.take k ≠ [] := by
    intro hnil
    have hlength := congrArg List.length hnil
    rw [List.length_take, List.length_nil] at hlength
    omega
  rw [Recovers, mergeLog_logOf hload uninit files hne]
  simp

/-- A reader that looks for end tags only. -/
def endTagReader (text : Bytes) : Option Document :=
  if hasEndTag text then some [] else none

/-- One small file. -/
def smallFile : FileObject where
  filename := ascii "a"
  version := 1
  crc32 := 0
  size := 1
  execute := false
  deleted := false

theorem reportsUnclosed_endTagReader : ReportsUnclosed endTagReader := by
  rintro text ⟨-, -, -, -, -, -, hno⟩
  simp [endTagReader, hno]

theorem crash_recovery_smallFile :
    ¬Recovers endTagReader (fun _ => smallFile) .empty ([smallFile].take 1) :=
  crash_recovery reportsUnclosed_endTagReader _ _ [smallFile] 1 le_rfl le_rfl

/-- After a crash behind the first file the next run ends with an error. -/
theorem crash_recovery_gives_up :
    mergeLog endTagReader (fun _ => smallFile) (logOf [smallFile]) .empty = .ok none ∧
      ¬Recovers endTagReader (fun _ => smallFile) .empty [smallFile] := by
  have hnone : mergeLog endTagReader (fun _ => smallFile) (logOf [smallFile]) .empty = .ok none :=
    rfl
  refine ⟨hnone, ?_⟩
  rw [Recovers, hnone]
  simp

end LibWfut
