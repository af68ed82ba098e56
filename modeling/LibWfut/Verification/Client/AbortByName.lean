import LibWfut.Verification.Client.SingleFiles
import LibWfut.Verification.Encoding.Urls

/-! # Aborting a file by its name

`abortDownload` looks the name up among the encoded URLs. -/

namespace LibWfut

open Encoder Machine Relation

/-- Queues files of the client. -/
def ClientOp.Updates : ClientOp → Prop
  | .updateChannel .. => True
  | .updateFile .. => True
  | .io _ => False

/-- An update of this run has queued the download `p` for the file `f`. -/
def QueuedByClient (s : World) (ops : List ClientOp) (p : Ptr) (f : Bytes) : Prop :=
  ∃ before op after w w' ds, ops = before ++ op :: after ∧ op.Updates ∧
    run clientStep s before = .ok w ∧ clientStep w op = .ok w' ∧
    w.heap p = none ∧ w'.heap p = some ds ∧ ds.filename = f

/-- The download `p` alone is gone, with the one signal that says so. -/
structure AbortsExactly (w : World) (p : Ptr) (ds : DataStruct) (f : Bytes) (w' : World) :
    Prop where
  heap : w'.heap = Function.update w.heap p none
  files : w'.files = w.files.erase ds.url
  handles : ∀ h, ds.handle = some h →
    w'.handles = w.handles.erase h ∧ w'.attached = w.attached.erase h
  trace : w'.trace = w.trace ++ [.failed p ds.url f (ascii "Aborted")]

/-- What aborting by the name `f` promises in a state that a run has reached. -/
structure AbortsByName (s : World) (ops : List ClientOp) (w : World) (f : Bytes) : Prop where
  live : ∀ p ds, w.heap p = some ds → QueuedByClient s ops p f → ds.filename = f →
    (∀ q d, w.heap q = some d → d.filename = f → q = p) →
    ∃ w', WFUTClient.abortDownload signal f w = .ok w' ∧ AbortsExactly w p ds f w'
  absent : (∀ p ds, w.heap p = some ds → ds.filename ≠ f) →
    WFUTClient.abortDownload signal f w = .ok w

/-- The only live download of that name was queued by the client. -/
def OnlyDownload (s : World) (ops : List ClientOp) (w : World) (p : Ptr) (f : Bytes) : Prop :=
  QueuedByClient s ops p f ∧ (∃ ds, w.heap p = some ds ∧ ds.filename = f) ∧
    ∀ q d, w.heap q = some d → d.filename = f → q = p

/-! ## The URL of a queued file -/

theorem length_encodeURLChar (c : UInt8) : 1 ≤ (encodeURLChar c).length := by
  rcases encodeURLChar_cases c with ⟨henc, -⟩ | henc
  · simp [henc]
  · simp [henc]

theorem length_le_encodeURL (url : Bytes) : url.length ≤ (encodeURL url).length := by
  induction url with
  | nil => exact Nat.zero_le _
  | cons c url ih =>
      have hcons : encodeURL (c :: url) = encodeURLChar c ++ encodeURL url := rfl
      have hone := length_encodeURLChar c
      rw [hcons, List.length_append, List.length_cons]
      omega

/-- A name is never the key of its own file. -/
theorem encodeURL_ne_filename (base f : Bytes) : encodeURL (base ++ ascii "/" ++ f) ≠ f := by
  intro heq
  have hlen := length_le_encodeURL (base ++ ascii "/" ++ f)
  have hslash : (ascii "/").length = 1 := rfl
  rw [heq, List.length_append, List.length_append] at hlen
  omega

/-- Queued under the URL that the client makes of its filename. -/
def NamedJob (ds : DataStruct) : Prop :=
  ∃ base, ds.url = encodeURL (base ++ ascii "/" ++ ds.filename)

theorem NamedJob.sameJob {ds ds' : DataStruct} (h : NamedJob ds) (hjob : ds.SameJob ds') :
    NamedJob ds' := by
  obtain ⟨base, hurl⟩ := h
  exact ⟨base, by rw [hjob.url, hjob.filename, hurl]⟩

theorem NamedJob.url_ne {ds : DataStruct} (h : NamedJob ds) : ds.url ≠ ds.filename := by
  obtain ⟨base, hurl⟩ := h
  rw [hurl]
  exact encodeURL_ne_filename base ds.filename

section Queue

variable {w w' : World} {p : Ptr} {ds : DataStruct}

theorem queueUpdate_live {updates : ChannelFileList} {urlPrefix pathPrefix : Bytes}
    {f : FileObject}
    (hp : (queueUpdate updates urlPrefix pathPrefix w f).heap p = some ds) :
    w.heap p = some ds ∨ NamedJob ds := by
  unfold queueUpdate at hp
  split at hp
  · exact .inl hp
  · rcases queueFile_live hp with hold | ⟨-, rfl⟩
    · exact .inl hold
    · exact .inr ⟨urlPrefix ++ updates.getName, rfl⟩

theorem updateFile_live {file : FileObject} {urlPrefix pathPrefix : Bytes}
    (hp : (updateFile file urlPrefix pathPrefix w).heap p = some ds) :
    w.heap p = some ds ∨ NamedJob ds := by
  unfold updateFile at hp
  split at hp
  · exact .inl hp
  · rcases queueFile_live hp with hold | ⟨-, rfl⟩
    · exact .inl hold
    · exact .inr ⟨urlPrefix, rfl⟩

theorem updateChannel_named {updates : ChannelFileList} {urlPrefix pathPrefix : Bytes}
    (hp : (updateChannel updates urlPrefix pathPrefix w).heap p = some ds) :
    w.heap p = some ds ∨ NamedJob ds := by
  rw [updateChannel_eq] at hp
  generalize filesOf updates = fs at hp
  induction fs generalizing w with
  | nil => exact .inl hp
  | cons f fs ih =>
      rcases ih hp with hold | hnamed
      · exact queueUpdate_live hold
      · exact .inr hnamed

/-- What an update queues is queued under a URL that ends in its filename. -/
theorem ClientOp.Updates.named {op : ClientOp} (hop : op.Updates)
    (hs : clientStep w op = .ok w') (hp : w.heap p = none) (hp' : w'.heap p = some ds) :
    NamedJob ds := by
  cases op with
  | updateChannel updates urlPrefix pathPrefix =>
      rw [← Except.ok.inj hs] at hp'
      refine (updateChannel_named hp').resolve_left ?_
      rw [hp]
      simp
  | updateFile file urlPrefix pathPrefix =>
      rw [← Except.ok.inj hs] at hp'
      refine (updateFile_live hp').resolve_left ?_
      rw [hp]
      simp
  | io op => exact absurd hop id

end Queue

/-! ## Runs -/

theorem clientStep_keeps {w w' : World} {op : ClientOp} (ht : Traced w)
    (h : clientStep w op = .ok w') : Traced w' ∧ KeepsJobs w w' := by
  cases op with
  | updateChannel updates urlPrefix pathPrefix =>
      rw [← Except.ok.inj h]
      refine ⟨ht.updateChannel .., ?_⟩
      rw [updateChannel_eq]
      exact (keepsQueued_foldl keepsQueued_queueUpdate _ w).keepsJobs
  | updateFile file urlPrefix pathPrefix =>
      rw [← Except.ok.inj h]
      refine ⟨?_, (keepsQueued_updateFile w file).keepsJobs⟩
      unfold updateFile
      split
      · exact ht
      · exact ht.queueFile
  | io op =>
      exact ⟨ht.call requeues_signal h, keepsJobs_call calm_signal ht h⟩

theorem run_keeps {w w' : World} {ops : List ClientOp} (ht : Traced w)
    (h : run clientStep w ops = .ok w') : Traced w' ∧ KeepsJobs w w' := by
  induction ops generalizing w with
  | nil =>
      rw [← Except.ok.inj h]
      exact ⟨ht, .refl w⟩
  | cons op ops ih =>
      obtain ⟨w₁, hw₁, hrest⟩ := run_cons_eq_ok _ h
      obtain ⟨ht₁, hf₁⟩ := clientStep_keeps ht hw₁
      obtain ⟨ht', hf'⟩ := ih ht₁ hrest
      exact ⟨ht', hf₁.trans hf'⟩

/-- What the client has queued and is still live has a URL that ends in its name. -/
theorem QueuedByClient.named {s w : World} {ops : List ClientOp} {p : Ptr} {f : Bytes}
    {ds : DataStruct} (h : QueuedByClient s ops p f) (hs : Traced s)
    (hrun : run clientStep s ops = .ok w) (hp : w.heap p = some ds) : NamedJob ds := by
  obtain ⟨before, op, after, w₁, w₂, ds₂, rfl, hop, hbefore, hstep, hnone, hds₂, -⟩ := h
  rw [run_append_of_ok _ hbefore, run_cons_of_ok _ hstep] at hrun
  have ht₂ := (clientStep_keeps (run_keeps hs hbefore).1 hstep).1
  obtain ⟨-, hkeeps⟩ := run_keeps ht₂ hrun
  obtain ⟨d, hd, hjob⟩ := hkeeps.live p ds (ht₂.lt_fresh hds₂) hp
  exact (hop.named hstep hnone hd).sameJob hjob

/-! ## Aborting -/

section Abort

variable {w w' : World} {f : Bytes}

/-- An abort that finds a download sends a signal. -/
theorem abortDownload_registered (ht : Traced w) {q : Ptr} (hq : w.files[f]? = some q)
    (h : abortDownload signal f w = .ok w') :
    ∃ d, w.heap q = some d ∧ d.url = f ∧ w'.files = w.files.erase f ∧
      w'.trace = w.trace ++ [abortedEvent q d] := by
  rw [abortDownload] at h
  simp only [hq] at h
  obtain ⟨w₂, hw₂, h⟩ := bind_eq_ok h
  obtain ⟨w₃, hw₃, h⟩ := bind_eq_ok h
  obtain ⟨d, w₁, hclose, hemit⟩ := abortDataStruct_closes hw₂
  have hdrop := drops_of_release hw₃ h
  have hw₂' := Except.ok.inj hemit
  subst hw₂'
  refine ⟨d, hclose.live, (ht.entry f q hq).2 d hclose.live, ?_, ?_⟩
  · rw [hdrop.files]
    exact congrArg (fun m => m.erase f) hclose.files
  · rw [hdrop.trace]
    exact congrArg (fun t => t ++ [abortedEvent q d]) hclose.trace

/-- No download is aborted under a name that is not its key. -/
theorem not_abortsExactly (ht : Traced w) {p : Ptr} {ds : DataStruct} (hp : w.heap p = some ds)
    (hurl : ds.url ≠ f) (h : WFUTClient.abortDownload signal f w = .ok w') :
    ¬AbortsExactly w p ds f w' := by
  intro hexact
  cases hq : w.files[f]? with
  | none =>
      rw [WFUTClient.abortDownload, abortDownload_absent hq, Except.ok.injEq] at h
      have hheap := congrFun hexact.heap p
      rw [← h, hp, Function.update_self] at hheap
      simp at hheap
  | some q =>
      obtain ⟨d, hd, hdurl, -, htrace⟩ := abortDownload_registered ht hq h
      rw [hexact.trace, List.append_cancel_left_eq, List.singleton_inj, abortedEvent,
        Event.failed.injEq] at htrace
      exact hurl (htrace.2.1.trans hdurl)

/-- Only a name that is no key is left alone. -/
theorem abortDownload_eq_self_iff (ht : Traced w) :
    WFUTClient.abortDownload signal f w = .ok w ↔ w.files[f]? = none := by
  constructor
  · intro h
    by_contra hne
    obtain ⟨q, hq⟩ := Option.ne_none_iff_exists'.mp hne
    obtain ⟨d, -, -, -, htrace⟩ := abortDownload_registered ht hq h
    simp at htrace
  · exact fun h => abortDownload_absent h

end Abort

/-- Aborting by name keeps its promise exactly when no download that the client has queued
is the only live one of that name, and the name of no live download is no key. -/
theorem abort_by_name (n : Int32) (fs : FileTree.FileSystem) (ops : List ClientOp) (w : World)
    (hrun : run clientStep (World.init n fs) ops = .ok w) (f : Bytes) :
    AbortsByName (World.init n fs) ops w f ↔
      (¬∃ p, OnlyDownload (World.init n fs) ops w p f) ∧
        ((∀ p ds, w.heap p = some ds → ds.filename ≠ f) → w.files[f]? = none) := by
  have ht := (run_keeps (traced_init n fs) hrun).1
  constructor
  · intro h
    refine ⟨?_, fun habsent => (abortDownload_eq_self_iff ht).mp (h.absent habsent)⟩
    rintro ⟨p, hqueued, ⟨ds, hp, hname⟩, honly⟩
    obtain ⟨w', hw', hexact⟩ := h.live p ds hp hqueued hname honly
    have hurl := (hqueued.named (traced_init n fs) hrun hp).url_ne
    rw [hname] at hurl
    exact not_abortsExactly ht hp hurl hw' hexact
  · rintro ⟨hnone, hkey⟩
    constructor
    case live =>
      intro p ds hp hqueued hname honly
      exact absurd ⟨p, hqueued, ⟨ds, hp, hname⟩, honly⟩ hnone
    case absent => exact fun habsent => (abortDownload_eq_self_iff ht).mpr (hkey habsent)

def smallUpdate : FileObject where
  filename := ascii "x"
  version := 1
  crc32 := 0
  size := 0
  execute := false
  deleted := false

/-- The client queues one file. -/
def smallUpdateQueued : List ClientOp :=
  [.updateFile smallUpdate (ascii "http://h") (ascii "d")]

def smallUpdateState : World :=
  updateFile smallUpdate (ascii "http://h") (ascii "d") (World.init 1 .empty)

theorem abort_by_name_smallUpdate :
    AbortsByName (World.init 1 .empty) smallUpdateQueued smallUpdateState (ascii "x") ↔
      (¬∃ p, OnlyDownload (World.init 1 .empty) smallUpdateQueued smallUpdateState p
        (ascii "x")) ∧
        ((∀ p ds, smallUpdateState.heap p = some ds → ds.filename ≠ ascii "x") →
          smallUpdateState.files[ascii "x"]? = none) :=
  abort_by_name 1 .empty smallUpdateQueued smallUpdateState rfl (ascii "x")

/-- Aborting the only file by its name does nothing. -/
theorem abort_by_name_ignored :
    run clientStep (World.init 1 .empty) smallUpdateQueued = .ok smallUpdateState ∧
      WFUTClient.abortDownload signal (ascii "x") smallUpdateState = .ok smallUpdateState ∧
      ¬AbortsByName (World.init 1 .empty) smallUpdateQueued smallUpdateState (ascii "x") := by
  refine ⟨rfl, rfl, ?_⟩
  intro h
  have honly : ∀ q d, smallUpdateState.heap q = some d → d.filename = ascii "x" → q = 0 := by
    intro q d hd _
    by_contra hq
    have hnone : (none : Option DataStruct) = some d :=
      (Function.update_of_ne hq _ _).symm.trans hd
    simp at hnone
  obtain ⟨w', hw', hexact⟩ := h.live 0 _ rfl
    ⟨[], _, [], _, _, _, rfl, trivial, rfl, rfl, rfl, rfl, rfl⟩ rfl honly
  have hkept : (some 0 : Option Ptr).isSome = (w'.heap 0).isSome :=
    congrArg (fun r => (r.toOption.bind fun w => w.heap 0).isSome) hw'
  rw [hexact.heap, Function.update_self] at hkept
  simp at hkept

end LibWfut
