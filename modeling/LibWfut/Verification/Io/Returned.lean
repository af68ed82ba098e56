import LibWfut.Verification.Io.Polling
import Mathlib.Logic.Relation

/-! # What a call that returns has done

Without any assumption on the URLs or on curl, a call that returns has received data,
moved transfers around and retired downloads, one after the other. -/

namespace LibWfut

open Encoder Machine Relation

/-! ## What a download is queued with -/

/-- Nothing changes these after `queueFile`. -/
structure DataStruct.SameJob (ds ds' : DataStruct) : Prop where
  filename : ds'.filename = ds.filename
  path : ds'.path = ds.path
  url : ds'.url = ds.url
  executable : ds'.executable = ds.executable
  expectedCrc32 : ds'.expectedCrc32 = ds.expectedCrc32

theorem DataStruct.SameJob.refl (ds : DataStruct) : ds.SameJob ds :=
  ⟨rfl, rfl, rfl, rfl, rfl⟩

theorem DataStruct.SameJob.trans {ds ds' ds'' : DataStruct} (h : ds.SameJob ds')
    (h' : ds'.SameJob ds'') : ds.SameJob ds'' :=
  ⟨h'.filename.trans h.filename, h'.path.trans h.path, h'.url.trans h.url,
    h'.executable.trans h.executable, h'.expectedCrc32.trans h.expectedCrc32⟩

theorem sameJob_writeData (c : WriteCall) (ds : DataStruct) :
    ds.SameJob (writeData c ds).2 := by
  unfold writeData
  split
  · split
    · exact ⟨rfl, rfl, rfl, rfl, rfl⟩
    · exact ⟨rfl, rfl, rfl, rfl, rfl⟩
  · exact ⟨rfl, rfl, rfl, rfl, rfl⟩

/-! ## Primitives that return -/

section Primitives

variable {w w' : World} {p : Ptr}

theorem deref_eq_ok {ds : DataStruct} (h : w.deref p = .ok ds) : w.heap p = some ds := by
  unfold World.deref at h
  cases hp : w.heap p with
  | none => simp [hp] at h
  | some d => simpa [hp] using h

theorem delete_eq_ok (h : w.delete p = .ok w') :
    w' = { w with heap := Function.update w.heap p none } := by
  unfold World.delete at h
  cases hp : w.heap p with
  | none => simp [hp] at h
  | some d => simpa [hp, eq_comm] using h

theorem eraseEntry_eq_ok {k : Bytes} (h : w.eraseEntry k = .ok w') :
    w' = { w with files := w.files.erase k } := by
  unfold World.eraseEntry at h
  cases hk : w.files[k]? with
  | none => simp [hk] at h
  | some q => simpa [hk, eq_comm] using h

theorem easyCleanup_eq_ok {k : Handle} (h : w.easyCleanup k = .ok w') :
    w' = { w with easy := Function.update w.easy k none } := by
  unfold World.easyCleanup at h
  cases hk : w.easy k with
  | none => simp [hk] at h
  | some e => simpa [hk, eq_comm] using h

theorem easy_of_update_none {easy : Handle → Option EasyHandle} {k k' : Handle} {e : EasyHandle}
    (h : Function.update easy k none k' = some e) : easy k' = some e := by
  by_cases hk : k' = k
  · simp [hk] at h
  · rwa [Function.update_of_ne hk] at h

theorem multiRemoveHandle_eq_ok {k : Handle} (h : w.multiRemoveHandle k = .ok w') :
    w' = { w with
      attached := w.attached.erase k
      msgs := w.msgs.filter fun m => m.handle ≠ k } := by
  unfold World.multiRemoveHandle at h
  cases hk : w.easy k with
  | none => simp [hk] at h
  | some e => simpa [hk, eq_comm] using h

theorem performWrite_eq_ok {c : WriteCall} (h : w.performWrite c = .ok w') :
    ∃ e ds, w.easy c.handle = some e ∧ w.heap e.priv = some ds ∧
      w' = { w.store e.priv (writeData c ds).2 with
        easy := Function.update w.easy c.handle (some (e.receive c (writeData c ds).1)) } := by
  unfold World.performWrite at h
  cases he : w.easy c.handle with
  | none => simp [he] at h
  | some e =>
      simp only [he] at h
      obtain ⟨ds, hds, h⟩ := bind_eq_ok h
      exact ⟨e, ds, rfl, deref_eq_ok hds, (Except.ok.inj h).symm⟩

end Primitives

/-! ## Moves -/

/-- The download `p` is closed: its data and its transfer may be gone, its entry stays. -/
structure Closes (w : World) (p : Ptr) (ds : DataStruct) (fs : FileTree.FileSystem)
    (w₁ : World) : Prop where
  live : w.heap p = some ds
  heap : ∃ ds', ds.SameJob ds' ∧ w₁.heap = Function.update w.heap p (some ds')
  easy : ∀ k e, w₁.easy k = some e → w.easy k = some e
  files : w₁.files = w.files
  fresh : w₁.fresh = w.fresh
  trace : w₁.trace = w.trace
  fs : w₁.fs = fs

/-- The download `p`, registered under `u`, is released. -/
structure Drops (w : World) (p : Ptr) (u : Bytes) (w' : World) : Prop where
  heap : w'.heap = Function.update w.heap p none
  easy : ∀ k e, w'.easy k = some e → w.easy k = some e
  files : w'.files = w.files.erase u
  fresh : w'.fresh = w.fresh
  trace : w'.trace = w.trace
  fs : w'.fs = w.fs

/-- The download `p` leaves the object: it is closed, its signal `e` is sent, and it is
released. -/
def Retires (emit : Emit) (w : World) (p : Ptr) (ds : DataStruct) (e : Event)
    (fs : FileTree.FileSystem) (w' : World) : Prop :=
  ∃ w₁ w₂, Closes w p ds fs w₁ ∧ emit e w₁ = .ok w₂ ∧ Drops w₂ p ds.url w'

/-- A registered download is aborted. -/
def Aborts (emit : Emit) (w w' : World) : Prop :=
  ∃ p ds, w.files[ds.url]? = some p ∧ Retires emit w p ds (abortedEvent p ds) w.fs w'

/-- The transfer of a download is over. -/
def Finishes (emit : Emit) (m : CurlMsg) (w w' : World) : Prop :=
  ∃ p ds, Retires emit w p ds (outcome p ds (finishTransfer m ds w.fs).1)
    (finishTransfer m ds w.fs).2 w'

/-- Transfers and messages may have changed their places. -/
structure Shifts (w w' : World) : Prop where
  heap : w'.heap = w.heap
  easy : w'.easy = w.easy
  files : w'.files = w.files
  fresh : w'.fresh = w.fresh
  trace : w'.trace = w.trace
  fs : w'.fs = w.fs

/-- What a call is made of. -/
inductive Move (emit : Emit) (w w' : World) : Prop
  | write (c : WriteCall) (h : w.performWrite c = .ok w')
  | shift (h : Shifts w w')
  | finish (m : CurlMsg) (h : Finishes emit m w w')
  | abort (h : Aborts emit w w')

theorem Event.subject_of_signals {p : Ptr} {e : Event} (h : e.signals p = true) :
    e.subject = p := by
  cases e with
  | queued q r u f => simp [Event.signals] at h
  | complete q u f => simpa [Event.signals, Event.subject] using h
  | failed q u f message => simpa [Event.signals, Event.subject] using h

/-! ## Deliveries that may queue a download again -/

/-- What a handler may do on the signal `e`: change files, or queue the download of the
signal again under its own URL. -/
inductive Emitted (e : Event) (w : World) : World → Prop
  | plain (fs : FileTree.FileSystem) : Emitted e w { w.log e with fs := fs }
  | requeued {raw u f : Bytes} {ds : DataStruct}
      (known : .queued e.subject raw u f ∈ (w.log e).trace)
      (free : w.files[raw]? = none)
      (url : ds.url = encodeURL raw)
      (handle : ds.handle = some w.fresh) : Emitted e w ((w.log e).enqueue raw ds)

/-- The deliveries this module is about. -/
def Requeues (emit : Emit) : Prop :=
  ∀ e w w', emit e w = .ok w' → Emitted e w w'

theorem requeues_signal : Requeues signal := by
  intro e w w' h
  rw [← Except.ok.inj h]
  exact .plain w.fs

theorem mem_of_rawUrl {p : Ptr} {trace : List Event} {raw : Bytes}
    (h : rawUrl p trace = some raw) : ∃ u f, .queued p raw u f ∈ trace := by
  obtain ⟨e, he, hraw⟩ := List.exists_of_findSome?_eq_some h
  cases e with
  | queued q r u f =>
      by_cases hq : q = p
      · simp only [hq, ite_true, Option.some.injEq] at hraw
        subst hq hraw
        exact ⟨u, f, he⟩
      · simp [hq] at hraw
  | complete q u f => simp at hraw
  | failed q u f message => simp at hraw

theorem requeues_retryEmit (chooses : World → Event → Bool) :
    Requeues (retryEmit chooses) := by
  intro e w w' h
  have hw' := Except.ok.inj h
  subst hw'
  have hplain : Emitted e w (w.log e) := .plain w.fs
  by_cases hc : chooses (w.log e) e = true
  · simp only [hc, ite_true]
    unfold requeue
    split
    · rename_i ds raw hds hraw
      by_cases hu : (w.log e).files[raw]? = none
      · rw [queueFile_state hu]
        obtain ⟨u, f, hm⟩ := mem_of_rawUrl hraw
        exact .requeued hm hu rfl rfl
      · rw [queueFile_refused hu]
        exact hplain
    · exact hplain
  · simp only [hc]
    exact hplain

/-! ## What every move keeps -/

/-- The part of the invariant that needs no assumption on URLs and curl. -/
structure Traced (w : World) : Prop where
  entry : ∀ u p, w.files[u]? = some p → p < w.fresh ∧ ∀ ds, w.heap p = some ds → ds.url = u
  keyed : ∀ p r u f ds, .queued p r u f ∈ w.trace → w.heap p = some ds → ds.url = encodeURL r
  born : ∀ p r u f, .queued p r u f ∈ w.trace → p < w.fresh
  unborn : ∀ p, w.fresh ≤ p → w.heap p = none
  silent : ∀ p, w.fresh ≤ p → signalsOf p w.trace = []

theorem traced_init (n : Int32) (fs : FileTree.FileSystem) : Traced (World.init n fs) := by
  constructor <;> simp [World.init, signalsOf]

section Traced

variable {w w' : World} {emit : Emit} {p : Ptr} {ds : DataStruct} {e : Event}

theorem Traced.lt_fresh (h : Traced w) (hp : w.heap p = some ds) : p < w.fresh := by
  by_contra hle
  rw [h.unborn p (Nat.le_of_not_gt hle)] at hp
  simp at hp

/-- Entries and downloads may go; the URLs of those that stay do not change. -/
theorem Traced.narrow (h : Traced w)
    (hfiles : ∀ (u : Bytes) (q : Ptr), w'.files[u]? = some q → w.files[u]? = some q)
    (hheap : ∀ q ds', w'.heap q = some ds' → ∃ ds, w.heap q = some ds ∧ ds'.url = ds.url)
    (hfresh : w'.fresh = w.fresh) (htrace : w'.trace = w.trace) : Traced w' := by
  constructor
  case entry =>
    intro u q hu
    obtain ⟨hlt, hurl⟩ := h.entry u q (hfiles u q hu)
    refine ⟨hlt.trans_eq hfresh.symm, ?_⟩
    intro ds' hds'
    obtain ⟨d, hd, hdu⟩ := hheap q ds' hds'
    exact hdu.trans (hurl d hd)
  case keyed =>
    intro q r u f ds' hm hds'
    rw [htrace] at hm
    obtain ⟨d, hd, hdu⟩ := hheap q ds' hds'
    exact hdu.trans (h.keyed q r u f d hm hd)
  case born =>
    intro q r u f hm
    rw [htrace] at hm
    rw [hfresh]
    exact h.born q r u f hm
  case unborn =>
    intro q hq
    rw [hfresh] at hq
    cases hq' : w'.heap q with
    | none => rfl
    | some ds' =>
        obtain ⟨d, hd, -⟩ := hheap q ds' hq'
        rw [h.unborn q hq] at hd
        simp at hd
  case silent =>
    intro q hq
    rw [hfresh] at hq
    rw [htrace]
    exact h.silent q hq

theorem Traced.log (h : Traced w) (hlive : p < w.fresh) (he : e.signals p = true)
    (fs : FileTree.FileSystem) : Traced { w.log e with fs := fs } := by
  have hmem : ∀ {q r u f}, Event.queued q r u f ∈ w.trace ++ [e] →
      Event.queued q r u f ∈ w.trace := by
    intro q r u f hm
    simpa [Event.ne_queued he] using hm
  constructor
  case entry => exact h.entry
  case keyed => exact fun q r u f d hm hd => h.keyed q r u f d (hmem hm) hd
  case born => exact fun q r u f hm => h.born q r u f (hmem hm)
  case unborn => exact h.unborn
  case silent =>
    intro q hq
    have hqp : q ≠ p := (hlive.trans_le hq).ne'
    change signalsOf q (w.trace ++ [e]) = []
    rw [signalsOf_append, signalsOf_singleton_of_not (Event.signals_of_ne he hqp),
      h.silent q hq]
    rfl

theorem Traced.enqueue (h : Traced w) {raw : Bytes} (hurl : ds.url = encodeURL raw) :
    Traced (w.enqueue raw ds) := by
  have hne : ∀ {q}, q < w.fresh → (w.enqueue raw ds).heap q = w.heap q := by
    intro q hq
    simp [World.enqueue, hq.ne]
  constructor
  case entry =>
    intro u q hu
    simp only [World.enqueue, Std.ExtTreeMap.getElem?_insert] at hu
    split at hu
    · rename_i heq
      cases hu
      refine ⟨Nat.lt_succ_self _, ?_⟩
      intro d hd
      simp only [World.enqueue, Function.update_self, Option.some.injEq] at hd
      rw [← hd]
      exact Std.LawfulEqCmp.eq_of_compare heq
    · obtain ⟨hlt, hold⟩ := h.entry u q hu
      refine ⟨Nat.lt_succ_of_lt hlt, ?_⟩
      rw [hne hlt]
      exact hold
  case keyed =>
    intro q r u f d hm hd
    rcases List.mem_append.mp hm with hm | hm
    · rw [hne (h.born q r u f hm)] at hd
      exact h.keyed q r u f d hm hd
    · obtain ⟨rfl, rfl, -, -⟩ := Event.queued.inj (List.mem_singleton.mp hm)
      simp only [World.enqueue, Function.update_self, Option.some.injEq] at hd
      rw [← hd, hurl]
  case born =>
    intro q r u f hm
    rcases List.mem_append.mp hm with hm | hm
    · exact Nat.lt_succ_of_lt (h.born q r u f hm)
    · obtain ⟨rfl, -, -, -⟩ := Event.queued.inj (List.mem_singleton.mp hm)
      exact Nat.lt_succ_self _
  case unborn =>
    intro q hq
    have hlt : w.fresh < q := hq
    simp only [World.enqueue, Function.update_apply]
    rw [if_neg hlt.ne']
    exact h.unborn q hlt.le
  case silent =>
    intro q hq
    have hsignals : signalsOf q (w.enqueue raw ds).trace = signalsOf q w.trace := by
      simp [World.enqueue, signalsOf, Event.signals]
    rw [hsignals]
    exact h.silent q (Nat.le_of_succ_le hq)

theorem Traced.emitted (h : Traced w) (hlive : p < w.fresh) (he : e.signals p = true)
    (hemit : Emitted e w w') : Traced w' := by
  cases hemit with
  | plain fs => exact h.log hlive he fs
  | requeued known free url handle => exact (h.log hlive he w.fs).enqueue url

/-- A delivery does not touch the download it is about. -/
theorem Emitted.heap_eq (h : Emitted e w w') (hlive : p < w.fresh) : w'.heap p = w.heap p := by
  cases h with
  | plain fs => rfl
  | requeued known free url handle => exact Function.update_of_ne hlive.ne ..

theorem getElem?_of_erase {files : FileTable} {k u : Bytes} {q : Ptr}
    (h : (files.erase k)[u]? = some q) : u ≠ k ∧ files[u]? = some q := by
  rw [Std.ExtTreeMap.getElem?_erase] at h
  split at h
  · simp at h
  · rename_i hne
    refine ⟨?_, h⟩
    rintro rfl
    exact hne Std.ReflCmp.compare_self

theorem Closes.heap_self {fs : FileTree.FileSystem} (h : Closes w p ds fs w') :
    ∃ ds', ds.SameJob ds' ∧ w'.heap p = some ds' := by
  obtain ⟨ds', hjob, hheap⟩ := h.heap
  exact ⟨ds', hjob, by rw [hheap, Function.update_self]⟩

theorem Traced.update (h : Traced w) {ds' : DataStruct} (hp : w.heap p = some ds)
    (hjob : ds.SameJob ds') (hheap : w'.heap = Function.update w.heap p (some ds'))
    (hfiles : w'.files = w.files) (hfresh : w'.fresh = w.fresh) (htrace : w'.trace = w.trace) :
    Traced w' := by
  refine h.narrow (fun u q hu => hfiles ▸ hu) ?_ hfresh htrace
  intro q d hd
  rw [hheap] at hd
  by_cases hq : q = p
  · subst hq
    rw [Function.update_self, Option.some.injEq] at hd
    exact ⟨ds, hp, hd ▸ hjob.url⟩
  · rw [Function.update_of_ne hq] at hd
    exact ⟨d, hd, rfl⟩

theorem Traced.closes (h : Traced w) {fs : FileTree.FileSystem} (hc : Closes w p ds fs w') :
    Traced w' := by
  obtain ⟨ds', hjob, hheap⟩ := hc.heap
  exact h.update hc.live hjob hheap hc.files hc.fresh hc.trace

theorem Traced.shifts (h : Traced w) (hs : Shifts w w') : Traced w' := by
  refine h.narrow (fun u q hu => hs.files ▸ hu) ?_ hs.fresh hs.trace
  exact fun q d hd => ⟨d, hs.heap ▸ hd, rfl⟩

theorem Traced.performWrite (h : Traced w) {c : WriteCall} (hw : w.performWrite c = .ok w') :
    Traced w' := by
  obtain ⟨e, ds, -, hp, rfl⟩ := performWrite_eq_ok hw
  exact h.update hp (sameJob_writeData c ds) rfl rfl rfl rfl

theorem Traced.drops (h : Traced w) {u : Bytes} (hd : Drops w p u w') : Traced w' := by
  refine h.narrow ?_ ?_ hd.fresh hd.trace
  · intro k q hk
    rw [hd.files] at hk
    exact (getElem?_of_erase hk).2
  · intro q d hq
    rw [hd.heap] at hq
    by_cases hqp : q = p
    · simp [hqp] at hq
    · rw [Function.update_of_ne hqp] at hq
      exact ⟨d, hq, rfl⟩

theorem Traced.retires (h : Traced w) (hd : Requeues emit) (he : e.signals p = true)
    {fs : FileTree.FileSystem} (hr : Retires emit w p ds e fs w') : Traced w' := by
  obtain ⟨w₁, w₂, hclose, hemit, hdrop⟩ := hr
  have hlt : p < w₁.fresh := (h.lt_fresh hclose.live).trans_eq hclose.fresh.symm
  exact ((h.closes hclose).emitted hlt he (hd e w₁ w₂ hemit)).drops hdrop

theorem signals_abortedEvent (p : Ptr) (ds : DataStruct) :
    (abortedEvent p ds).signals p = true := by
  simp [abortedEvent, Event.signals]

theorem Traced.move (h : Traced w) (hd : Requeues emit) (hm : Move emit w w') : Traced w' := by
  cases hm with
  | write c hw => exact h.performWrite hw
  | shift hs => exact h.shifts hs
  | finish m hf =>
      obtain ⟨p, ds, hr⟩ := hf
      exact h.retires hd (signals_outcome ..) hr
  | abort ha =>
      obtain ⟨p, ds, -, hr⟩ := ha
      exact h.retires hd (signals_abortedEvent p ds) hr

end Traced

/-! ## Calls as moves -/

section Calls

variable {w w' : World} {emit : Emit} {p : Ptr}

theorem run_performWrite_moves (emit : Emit) {cs : List WriteCall}
    (h : run World.performWrite w cs = .ok w') : ReflTransGen (Move emit) w w' := by
  induction cs generalizing w with
  | nil =>
      rw [← Except.ok.inj h]
  | cons c cs ih =>
      obtain ⟨w₁, hw₁, h⟩ := run_cons_eq_ok _ h
      exact .head (.write c hw₁) (ih h)

theorem multiPerform_moves (emit : Emit) {r : PollReport} (h : w.multiPerform r = .ok w') :
    ReflTransGen (Move emit) w w' := by
  obtain ⟨w₁, hw₁, h⟩ := bind_eq_ok h
  rw [← Except.ok.inj h]
  exact (run_performWrite_moves emit hw₁).tail (.shift (⟨rfl, rfl, rfl, rfl, rfl, rfl⟩))

/-! ### Aborting -/

/-- The end of `releaseTransfer`, once the handle is out of the queue and of curl. -/
theorem cleanup_closes {w₁ : World} {ds : DataStruct} {k : Handle} (hp : w.heap p = some ds)
    (hs : Shifts w w₁)
    (h : (w₁.easyCleanup k >>= fun w => (w.store p { ds with handle := none }).deref p >>=
      fun d => .ok ((w.store p { ds with handle := none }).store p { d with fp := none })) =
        .ok w') : Closes w p ds w.fs w' := by
  obtain ⟨w₂, hw₂, h⟩ := bind_eq_ok h
  obtain ⟨d, hd, h⟩ := bind_eq_ok h
  have hd' := deref_eq_ok hd
  simp only [World.store, Function.update_self, Option.some.injEq] at hd'
  subst hd'
  rw [← Except.ok.inj h, easyCleanup_eq_ok hw₂]
  refine ⟨hp, ⟨{ ds with handle := none, fp := none }, ⟨rfl, rfl, rfl, rfl, rfl⟩, ?_⟩, ?_, hs.files,
    hs.fresh, hs.trace, hs.fs⟩
  · simp only [World.store, Function.update_idem, hs.heap]
  · intro k' e he
    rw [← hs.easy]
    exact easy_of_update_none he

theorem releaseTransfer_closes (h : releaseTransfer p w = .ok w') :
    ∃ ds, Closes w p ds w.fs w' := by
  unfold releaseTransfer at h
  obtain ⟨ds, hds, h⟩ := bind_eq_ok h
  have hp := deref_eq_ok hds
  refine ⟨ds, ?_⟩
  cases hh : ds.handle with
  | none =>
      simp only [hh, hds, ok_bind, Except.ok.injEq] at h
      rw [← h]
      exact ⟨hp, ⟨{ ds with handle := none, fp := none }, ⟨rfl, rfl, rfl, rfl, rfl⟩, rfl⟩,
        fun _ _ he => he, rfl, rfl, rfl, rfl⟩
  | some k =>
      simp only [hh, ok_bind] at h
      split at h
      · refine cleanup_closes hp ?_ h
        exact ⟨rfl, rfl, rfl, rfl, rfl, rfl⟩
      · obtain ⟨w₁, hw₁, h⟩ := bind_eq_ok h
        refine cleanup_closes hp ?_ h
        rw [multiRemoveHandle_eq_ok hw₁]
        exact ⟨rfl, rfl, rfl, rfl, rfl, rfl⟩

theorem abortDataStruct_closes {w₂ : World} (h : abortDataStruct emit p w = .ok w₂) :
    ∃ ds w₁, Closes w p ds w.fs w₁ ∧ emit (abortedEvent p ds) w₁ = .ok w₂ := by
  obtain ⟨w₁, hw₁, h⟩ := bind_eq_ok h
  obtain ⟨ds, hclose⟩ := releaseTransfer_closes hw₁
  obtain ⟨ds₁, hds₁, h⟩ := bind_eq_ok h
  obtain ⟨ds', hjob, hp⟩ := hclose.heap_self
  rw [deref_eq_ok hds₁, Option.some.injEq] at hp
  subst hp
  refine ⟨ds, w₁, hclose, ?_⟩
  rw [← h, abortedEvent, hjob.url, hjob.filename]

/-- The two releases of an aborted download. -/
theorem drops_of_release {w₁ : World} {k : Bytes} (h₁ : w.delete p = .ok w₁)
    (h : w₁.eraseEntry k = .ok w') : Drops w p k w' := by
  rw [eraseEntry_eq_ok h, delete_eq_ok h₁]
  exact ⟨rfl, fun _ _ he => he, rfl, rfl, rfl, rfl⟩

theorem abortDownload_aborts (ht : Traced w) {url : Bytes}
    (h : abortDownload emit url w = .ok w') : w' = w ∨ Aborts emit w w' := by
  unfold abortDownload at h
  cases hu : w.files[url]? with
  | none =>
      simp only [hu, Except.ok.injEq] at h
      exact .inl h.symm
  | some q =>
      simp only [hu] at h
      obtain ⟨w₂, hw₂, h⟩ := bind_eq_ok h
      obtain ⟨ds, w₁, hclose, hemit⟩ := abortDataStruct_closes hw₂
      obtain ⟨w₃, hw₃, h⟩ := bind_eq_ok h
      have hurl := (ht.entry url q hu).2 ds hclose.live
      subst hurl
      exact .inr ⟨q, ds, hu, w₁, w₂, hclose, hemit, drops_of_release hw₃ h⟩

/-- The entry whose signal is sent stays first. -/
theorem Emitted.first {e : Event} (h : Emitted e w w') (ht : Traced w) {ds : DataStruct}
    {u : Bytes} {q : Ptr} (hf : OrderedMap.first w.files = some (u, q))
    (hp : w.heap q = some ds) (he : e.signals q = true) :
    ∃ q', OrderedMap.first w'.files = some (u, q') := by
  cases h with
  | plain fs => exact ⟨q, hf⟩
  | @requeued raw u' f d known free url handle =>
      have hsub := Event.subject_of_signals he
      have hmem : .queued q raw u' f ∈ w.trace := by
        rw [hsub] at known
        simpa [World.log, Event.ne_queued he] using known
      have hkey : d.url = u :=
        url.trans ((ht.keyed q raw u' f ds hmem hp).symm.trans
          ((ht.entry u q (OrderedMap.getElem?_of_first hf)).2 ds hp))
      refine ⟨w.fresh, OrderedMap.first_of_subset hf ?_ ?_⟩
      · simp [World.enqueue, World.log, hkey]
      · intro k hk
        simp only [World.enqueue, World.log, hkey, Std.ExtTreeMap.getElem?_insert] at hk
        split at hk
        · rename_i heq
          rw [← Std.LawfulEqCmp.eq_of_compare heq, OrderedMap.getElem?_of_first hf]
          simp
        · exact hk

theorem abortFirst_aborts (hd : Requeues emit) (ht : Traced w) {u : Bytes}
    (hf : OrderedMap.first w.files = some (u, p)) (h : abortFirst emit p w = .ok w') :
    Aborts emit w w' := by
  unfold abortFirst at h
  obtain ⟨w₂, hw₂, h⟩ := bind_eq_ok h
  obtain ⟨ds, w₁, hclose, hemit⟩ := abortDataStruct_closes hw₂
  obtain ⟨w₃, hw₃, h⟩ := bind_eq_ok h
  have hu := OrderedMap.getElem?_of_first hf
  have hurl := (ht.entry u p hu).2 ds hclose.live
  subst hurl
  obtain ⟨ds', -, hp⟩ := hclose.heap_self
  have hf₁ : OrderedMap.first w₁.files = some (ds.url, p) := hclose.files ▸ hf
  obtain ⟨q, hfirst⟩ := (hd _ _ _ hemit).first (ht.closes hclose) hf₁ hp
    (signals_abortedEvent p ds)
  have hfiles : w₃.files = w₂.files := by rw [delete_eq_ok hw₃]
  simp only [hfiles, hfirst] at h
  exact ⟨p, ds, hu, w₁, w₂, hclose, hemit, drops_of_release hw₃ h⟩

theorem Aborts.move (h : Aborts emit w w') : Move emit w w' := .abort h

theorem Traced.moves (ht : Traced w) (hd : Requeues emit)
    (h : ReflTransGen (Move emit) w w') : Traced w' := by
  induction h with
  | refl => exact ht
  | tail hmoves hmove ih => exact ih.move hd hmove

theorem moves_of_aborts (h : ReflTransGen (Aborts emit) w w') : ReflTransGen (Move emit) w w' :=
  ReflTransGen.mono (fun _ _ h => h.move) w w' h

theorem abortAll_aborts (hd : Requeues emit) (ht : Traced w) {fuel : ℕ}
    (h : abortAll emit fuel w = .ok w') : ReflTransGen (Aborts emit) w w' := by
  induction fuel generalizing w with
  | zero =>
      unfold abortAll at h
      split at h
      · rw [← Except.ok.inj h]
      · simp at h
  | succ fuel ih =>
      unfold abortAll at h
      split at h
      · rw [← Except.ok.inj h]
      · rename_i u q hf
        obtain ⟨w₁, hw₁, h⟩ := bind_eq_ok h
        have hone := abortFirst_aborts hd ht hf hw₁
        exact .head hone (ih (ht.move hd hone.move) h)

/-! ### Polling -/

theorem releaseDownload_drops (h : releaseDownload p w = .ok w') :
    ∃ ds, w.heap p = some ds ∧ Drops w p ds.url w' := by
  unfold releaseDownload at h
  obtain ⟨ds, hds, h⟩ := bind_eq_ok h
  obtain ⟨w₁, hw₁, h⟩ := bind_eq_ok h
  refine ⟨ds, deref_eq_ok hds, ?_⟩
  have h₁ := eraseEntry_eq_ok hw₁
  subst h₁
  cases hh : ds.handle with
  | none =>
      simp only [hh, ok_bind] at h
      rw [delete_eq_ok h]
      exact ⟨rfl, fun _ _ he => he, rfl, rfl, rfl, rfl⟩
  | some k =>
      simp only [hh] at h
      obtain ⟨w₂, hw₂, h⟩ := bind_eq_ok h
      rw [delete_eq_ok h, easyCleanup_eq_ok hw₂]
      exact ⟨rfl, fun _ _ he => easy_of_update_none he, rfl, rfl, rfl, rfl⟩

theorem handleMessage_finishes (hd : Requeues emit) (ht : Traced w) {m : CurlMsg}
    (h : handleMessage emit m w = .ok w') : Finishes emit m w w' := by
  unfold handleMessage at h
  obtain ⟨q, hq, h⟩ := bind_eq_ok h
  obtain ⟨ds, hds, h⟩ := bind_eq_ok h
  have hp := deref_eq_ok hds
  obtain ⟨w₁, hw₁, h⟩ := bind_eq_ok h
  obtain ⟨w₂, hemit, h⟩ := bind_eq_ok h
  have hclose : Closes w q ds (finishTransfer m ds w.fs).2 (w₁.store q ds.closed) := by
    rw [multiRemoveHandle_eq_ok hw₁]
    exact ⟨hp, ⟨ds.closed, ⟨rfl, rfl, rfl, rfl, rfl⟩, rfl⟩, fun _ _ he => he, rfl, rfl, rfl, rfl⟩
  obtain ⟨d, hd₂, hdrop⟩ := releaseDownload_drops h
  have hlt : q < (w₁.store q ds.closed).fresh := (ht.lt_fresh hp).trans_eq hclose.fresh.symm
  have hkept : w₂.heap q = (w₁.store q ds.closed).heap q := (hd _ _ _ hemit).heap_eq hlt
  have hstored : (w₁.store q ds.closed).heap q = some ds.closed := Function.update_self ..
  rw [hd₂, hstored, Option.some.injEq] at hkept
  rw [hkept] at hdrop
  exact ⟨q, ds, w₁.store q ds.closed, w₂, hclose, hemit, hdrop⟩

theorem drain_moves (hd : Requeues emit) (ht : Traced w) {n : ℕ}
    (h : drain emit n w = .ok w') : ReflTransGen (Move emit) w w' := by
  induction n generalizing w with
  | zero => rw [← Except.ok.inj h]
  | succ n ih =>
      unfold drain at h
      split at h
      · rw [← Except.ok.inj h]
      · rename_i m rest hm
        obtain ⟨w₁, hw₁, h⟩ := bind_eq_ok h
        have hpop : Move emit w { w with msgs := rest } := .shift (⟨rfl, rfl, rfl, rfl, rfl, rfl⟩)
        have hpopped := ht.move hd hpop
        have hone := Move.finish m (handleMessage_finishes hd hpopped hw₁)
        exact .head hpop (.head hone (ih (hpopped.move hd hone) h))

theorem Shifts.refl (w : World) : Shifts w w :=
  ⟨rfl, rfl, rfl, rfl, rfl, rfl⟩

theorem Shifts.trans {w'' : World} (h : Shifts w w') (h' : Shifts w' w'') : Shifts w w'' :=
  ⟨h'.heap.trans h.heap, h'.easy.trans h.easy, h'.files.trans h.files, h'.fresh.trans h.fresh,
    h'.trace.trans h.trace, h'.fs.trans h.fs⟩

theorem multiAddHandle_shifts {k : Handle} (h : w.multiAddHandle k = .ok w') : Shifts w w' := by
  unfold World.multiAddHandle at h
  split at h
  · rw [← Except.ok.inj h]
    split
    · exact .refl w
    · exact ⟨rfl, rfl, rfl, rfl, rfl, rfl⟩
  · simp at h

theorem attachLoop_shifts {k : ℕ} {n n' : Int32} (h : attachLoop k n w = .ok (n', w')) :
    Shifts w w' := by
  induction k generalizing w n with
  | zero =>
      obtain ⟨-, rfl⟩ := Prod.mk.inj (Except.ok.inj h)
      exact .refl w
  | succ k ih =>
      unfold attachLoop at h
      split at h
      · exact ih h
      · rename_i hd rest hw
        obtain ⟨w₁, hw₁, h⟩ := bind_eq_ok h
        have hpop : Shifts w₁ { w₁ with handles := rest } := ⟨rfl, rfl, rfl, rfl, rfl, rfl⟩
        exact ((multiAddHandle_shifts hw₁).trans hpop).trans (ih h)

theorem poll_moves (hd : Requeues emit) (ht : Traced w) {r : PollReport} {n : Int32}
    (h : poll emit r w = .ok (n, w')) : ReflTransGen (Move emit) w w' := by
  unfold poll at h
  obtain ⟨w₁, hw₁, h⟩ := bind_eq_ok h
  obtain ⟨w₂, hw₂, h⟩ := bind_eq_ok h
  have hperform := multiPerform_moves emit hw₁
  have hdrain := drain_moves hd (ht.moves hd hperform) hw₂
  refine (hperform.trans hdrain).trans ?_
  simp only at h
  split at h
  · exact .single (.shift (attachLoop_shifts h))
  · obtain ⟨-, rfl⟩ := Prod.mk.inj (Except.ok.inj h)
    exact .refl

theorem Traced.queueFile (h : Traced w) {path filename url : Bytes} {crc : ULong} {exec : Bool} :
    Traced (queueFile path filename url crc exec w).2 := by
  by_cases hu : w.files[url]? = none
  · rw [queueFile_state hu]
    exact h.enqueue rfl
  · rw [queueFile_refused hu]
    exact h

/-- A call queues a download or consists of moves. -/
theorem call_cases (hd : Requeues emit) (ht : Traced w) {fuel : ℕ} {op : Op}
    (h : call emit fuel w op = .ok w') :
    (∃ path filename url crc exec, op = .queueFile path filename url crc exec ∧
      w' = (queueFile path filename url crc exec w).2) ∨ ReflTransGen (Move emit) w w' := by
  cases op with
  | queueFile path filename url crc exec =>
      exact .inl ⟨path, filename, url, crc, exec, rfl, (Except.ok.inj h).symm⟩
  | poll r =>
      obtain ⟨⟨n, w₁⟩, hw₁, rfl⟩ := map_eq_ok h
      exact .inr (poll_moves hd ht hw₁)
  | abortDownload url =>
      rcases abortDownload_aborts ht h with rfl | ha
      · exact .inr .refl
      · exact .inr (.single ha.move)
  | abortAll => exact .inr (moves_of_aborts (abortAll_aborts hd ht h))
  | setMaxDownloads i =>
      rw [← Except.ok.inj h]
      exact .inr (.single (.shift ⟨rfl, rfl, rfl, rfl, rfl, rfl⟩))

/-- A call that returns keeps it, whatever its arguments. -/
theorem Traced.call (ht : Traced w) (hd : Requeues emit) {fuel : ℕ} {op : Op}
    (h : call emit fuel w op = .ok w') : Traced w' := by
  rcases call_cases hd ht h with ⟨path, filename, url, crc, exec, -, rfl⟩ | hmoves
  · exact ht.queueFile
  · exact ht.moves hd hmoves

end Calls

/-! ## What lasts -/

/-- Deliveries to handlers that do not call back; they may change files. -/
def Calm (emit : Emit) : Prop :=
  ∀ e w w', emit e w = .ok w' → ∃ fs, w' = { w.log e with fs := fs }

theorem calm_signal : Calm signal := by
  intro e w w' h
  exact ⟨w.fs, (Except.ok.inj h).symm⟩

theorem Calm.requeues {emit : Emit} (h : Calm emit) : Requeues emit := by
  intro e w w' hemit
  obtain ⟨fs, rfl⟩ := h e w w' hemit
  exact .plain fs

/-- What is live was live before, with the same job. -/
def Continues (w w' : World) : Prop :=
  ∀ p ds', w'.heap p = some ds' → ∃ ds, w.heap p = some ds ∧ ds.SameJob ds'

section Continues

variable {w w' w'' : World} {emit : Emit} {p : Ptr} {ds : DataStruct} {e : Event}

theorem Continues.refl (w : World) : Continues w w :=
  fun _ ds h => ⟨ds, h, .refl ds⟩

theorem Continues.trans (h : Continues w w') (h' : Continues w' w'') : Continues w w'' := by
  intro q d'' hd''
  obtain ⟨d', hd', hjob'⟩ := h' q d'' hd''
  obtain ⟨d, hd, hjob⟩ := h q d' hd'
  exact ⟨d, hd, hjob.trans hjob'⟩

theorem continues_of_heap_eq (h : w'.heap = w.heap) : Continues w w' :=
  fun _ d hd => ⟨d, h ▸ hd, .refl d⟩

theorem continues_of_update {ds' : DataStruct} (hp : w.heap p = some ds) (hjob : ds.SameJob ds')
    (h : w'.heap = Function.update w.heap p (some ds')) : Continues w w' := by
  intro q d hd
  rw [h] at hd
  by_cases hq : q = p
  · subst hq
    rw [Function.update_self, Option.some.injEq] at hd
    exact ⟨ds, hp, hd ▸ hjob⟩
  · rw [Function.update_of_ne hq] at hd
    exact ⟨d, hd, .refl d⟩

theorem Drops.continues {u : Bytes} (h : Drops w p u w') : Continues w w' := by
  intro q d hd
  rw [h.heap] at hd
  by_cases hq : q = p
  · simp [hq] at hd
  · rw [Function.update_of_ne hq] at hd
    exact ⟨d, hd, .refl d⟩

theorem Retires.continues (hd : Calm emit) {fs : FileTree.FileSystem}
    (h : Retires emit w p ds e fs w') : Continues w w' := by
  obtain ⟨w₁, w₂, hclose, hemit, hdrop⟩ := h
  obtain ⟨ds', hjob, hheap⟩ := hclose.heap
  obtain ⟨fs', rfl⟩ := hd e w₁ w₂ hemit
  have hsent : Continues w₁ { w₁.log e with fs := fs' } := continues_of_heap_eq rfl
  exact ((continues_of_update hclose.live hjob hheap).trans hsent).trans hdrop.continues

theorem Move.continues (hd : Calm emit) (h : Move emit w w') : Continues w w' := by
  cases h with
  | write c hw =>
      obtain ⟨e, ds, -, hp, rfl⟩ := performWrite_eq_ok hw
      exact continues_of_update hp (sameJob_writeData c ds) rfl
  | shift hs => exact continues_of_heap_eq hs.heap
  | finish m hf =>
      obtain ⟨p, ds, hr⟩ := hf
      exact hr.continues hd
  | abort ha =>
      obtain ⟨p, ds, -, hr⟩ := ha
      exact hr.continues hd

theorem continues_of_moves (hd : Calm emit) (h : ReflTransGen (Move emit) w w') :
    Continues w w' := by
  induction h with
  | refl => exact .refl w
  | tail hmoves hmove ih => exact ih.trans (hmove.continues hd)

end Continues

/-! ## New downloads -/

theorem Move.fresh_eq {emit : Emit} {w w' : World} (hd : Calm emit) (h : Move emit w w') :
    w'.fresh = w.fresh := by
  have hretires : ∀ {p ds e fs}, Retires emit w p ds e fs w' → w'.fresh = w.fresh := by
    rintro p ds e fs ⟨w₁, w₂, hclose, hemit, hdrop⟩
    obtain ⟨fs', rfl⟩ := hd e w₁ w₂ hemit
    exact hdrop.fresh.trans hclose.fresh
  cases h with
  | write c hw =>
      obtain ⟨e, ds, -, -, rfl⟩ := performWrite_eq_ok hw
      rfl
  | shift hs => exact hs.fresh
  | finish m hf =>
      obtain ⟨p, ds, hr⟩ := hf
      exact hretires hr
  | abort ha =>
      obtain ⟨p, ds, -, hr⟩ := ha
      exact hretires hr

theorem fresh_eq_of_moves {emit : Emit} {w w' : World} (hd : Calm emit)
    (h : ReflTransGen (Move emit) w w') : w'.fresh = w.fresh := by
  induction h with
  | refl => rfl
  | tail hmoves hmove ih => exact (hmove.fresh_eq hd).trans ih

/-- What was queued before stays as it is. -/
structure KeepsQueued (w w' : World) : Prop where
  fresh : w.fresh ≤ w'.fresh
  heap : ∀ p < w.fresh, w'.heap p = w.heap p
  easy : ∀ p < w.fresh, w'.easy p = w.easy p

theorem KeepsQueued.refl (w : World) : KeepsQueued w w :=
  ⟨le_rfl, fun _ _ => rfl, fun _ _ => rfl⟩

theorem KeepsQueued.trans {w w' w'' : World} (h : KeepsQueued w w') (h' : KeepsQueued w' w'') :
    KeepsQueued w w'' where
  fresh := h.fresh.trans h'.fresh
  heap p hp := (h'.heap p (hp.trans_le h.fresh)).trans (h.heap p hp)
  easy p hp := (h'.easy p (hp.trans_le h.fresh)).trans (h.easy p hp)

theorem keepsQueued_queueFile (path filename url : Bytes) (crc : ULong) (exec : Bool)
    (w : World) : KeepsQueued w (queueFile path filename url crc exec w).2 := by
  by_cases hu : w.files[url]? = none
  · rw [queueFile_state hu]
    exact ⟨Nat.le_succ _, fun p hp => Function.update_of_ne (Nat.ne_of_lt hp) ..,
      fun p hp => Function.update_of_ne (Nat.ne_of_lt hp) ..⟩
  · rw [queueFile_refused hu]
    exact .refl w

/-- Downloads may come and go, and those that stay keep their jobs. -/
structure KeepsJobs (w w' : World) : Prop where
  fresh : w.fresh ≤ w'.fresh
  live : ∀ p ds', p < w.fresh → w'.heap p = some ds' → ∃ ds, w.heap p = some ds ∧ ds.SameJob ds'

theorem KeepsJobs.refl (w : World) : KeepsJobs w w :=
  ⟨le_rfl, fun _ ds _ hp => ⟨ds, hp, .refl ds⟩⟩

theorem KeepsJobs.trans {w w' w'' : World} (h : KeepsJobs w w') (h' : KeepsJobs w' w'') :
    KeepsJobs w w'' where
  fresh := h.fresh.trans h'.fresh
  live := by
    intro p d'' hlt hd''
    obtain ⟨d', hd', hjob'⟩ := h'.live p d'' (hlt.trans_le h.fresh) hd''
    obtain ⟨d, hd, hjob⟩ := h.live p d' hlt hd'
    exact ⟨d, hd, hjob.trans hjob'⟩

theorem KeepsQueued.keepsJobs {w w' : World} (h : KeepsQueued w w') : KeepsJobs w w' where
  fresh := h.fresh
  live p d hlt hd := ⟨d, (h.heap p hlt).symm.trans hd, .refl d⟩

theorem keepsJobs_call {emit : Emit} {w w' : World} (hd : Calm emit) (ht : Traced w) {fuel : ℕ}
    {op : Op} (h : call emit fuel w op = .ok w') : KeepsJobs w w' := by
  rcases call_cases hd.requeues ht h with ⟨path, filename, url, crc, exec, -, rfl⟩ | hmoves
  · exact (keepsQueued_queueFile ..).keepsJobs
  · exact ⟨(fresh_eq_of_moves hd hmoves).ge,
      fun p d _ hp => continues_of_moves hd hmoves p d hp⟩

end LibWfut
