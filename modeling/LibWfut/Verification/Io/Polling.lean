import LibWfut.Verification.Io.Operations

/-! # One poll -/

namespace LibWfut

open List Machine

/-! ## States the invariant does not see -/

/-- Dropping messages or changing files keeps the invariant. -/
theorem Inv.drop_msgs {busy : List Ptr} {w : World} (h : Inv busy w) {msgs : List CurlMsg}
    (hm : msgs <+ w.msgs) (fs : FileTree.FileSystem) :
    Inv busy { w with msgs := msgs, fs := fs } := by
  constructor
  · exact
      { h.registry with
        msgs_attached := fun m hm' => h.registry.msgs_attached m (hm.subset hm')
        msgs_nodup := h.registry.msgs_nodup.sublist (hm.map _) }
  · exact { h.history with }

/-! ## Writing received data -/

section Perform

variable {w : World}

@[simp] theorem writeData_filename (c : WriteCall) (ds : DataStruct) :
    (writeData c ds).2.filename = ds.filename := by
  unfold writeData
  split
  · split <;> rfl
  · rfl

@[simp] theorem writeData_path (c : WriteCall) (ds : DataStruct) :
    (writeData c ds).2.path = ds.path := by
  unfold writeData
  split
  · split <;> rfl
  · rfl

@[simp] theorem writeData_url (c : WriteCall) (ds : DataStruct) :
    (writeData c ds).2.url = ds.url := by
  unfold writeData
  split
  · split <;> rfl
  · rfl

@[simp] theorem writeData_handle (c : WriteCall) (ds : DataStruct) :
    (writeData c ds).2.handle = ds.handle := by
  unfold writeData
  split
  · split <;> rfl
  · rfl

/-- The easy handle after a write callback. -/
def EasyHandle.receive (e : EasyHandle) (c : WriteCall) (taken : ℕ) : EasyHandle :=
  { e with
    body := e.body ++ c.buffer
    writeFailed := e.writeFailed || decide (taken < c.buffer.length) }

/-- The state after a write callback. -/
def World.receive (w : World) (c : WriteCall) (ds : DataStruct) (e : EasyHandle) : World :=
  { w with
    heap := Function.update w.heap c.handle (some (writeData c ds).2)
    easy := Function.update w.easy c.handle (some (e.receive c (writeData c ds).1)) }

theorem performWrite_eq {busy : List Ptr} (h : Registry busy w) {c : WriteCall}
    (hc : c.handle ∈ w.attached) :
    ∃ ds e, w.heap c.handle = some ds ∧ w.easy c.handle = some e ∧ e.priv = c.handle ∧
      ds.handle = some c.handle ∧ w.performWrite c = .ok (w.receive c ds e) := by
  obtain ⟨ds, e, hds, -, hh, he, hpriv⟩ := h.easy_of_pool (List.mem_append_right _ hc)
  refine ⟨ds, e, hds, he, hpriv, hh, ?_⟩
  obtain ⟨url, priv, body, failed⟩ := e
  subst hpriv
  simp only [World.performWrite, he, World.deref_eq hds]
  rfl

section Receive

variable {busy : List Ptr} {c : WriteCall} {ds : DataStruct} {e : EasyHandle}

theorem World.heap_receive_of_ne {q : Ptr} (hq : q ≠ c.handle) :
    (w.receive c ds e).heap q = w.heap q := by
  simp [World.receive, hq]

@[simp] theorem World.heap_receive_self :
    (w.receive c ds e).heap c.handle = some (writeData c ds).2 := by
  simp [World.receive]

theorem World.easy_receive_of_ne {q : Ptr} (hq : q ≠ c.handle) :
    (w.receive c ds e).easy q = w.easy q := by
  simp [World.receive, hq]

/-- No download comes or goes. -/
theorem World.heap_receive_eq_none (hp : w.heap c.handle = some ds) (q : Ptr) :
    (w.receive c ds e).heap q = none ↔ w.heap q = none := by
  by_cases hq : q = c.handle
  · simp [hq, hp]
  · rw [World.heap_receive_of_ne hq]

theorem Registry.receive (h : Registry busy w) (hp : w.heap c.handle = some ds)
    (hpriv : e.priv = c.handle) (hh : ds.handle = some c.handle) :
    Registry busy (w.receive c ds e) := by
  constructor
  case entry =>
    intro u q hu
    obtain ⟨d, hd, hdu⟩ := h.entry u q hu
    by_cases hq : q = c.handle
    · subst hq
      rw [hp, Option.some.injEq] at hd
      exact ⟨_, World.heap_receive_self, by rw [writeData_url, hd, hdu]⟩
    · exact ⟨d, by rw [World.heap_receive_of_ne hq, hd], hdu⟩
  case registered =>
    intro q d hd
    by_cases hq : q = c.handle
    · subst hq
      rw [World.heap_receive_self, Option.some.injEq] at hd
      rw [← hd, writeData_url]
      exact h.registered _ _ hp
    · rw [World.heap_receive_of_ne hq] at hd
      exact h.registered q d hd
  case handle =>
    intro q d hd
    by_cases hq : q = c.handle
    · subst hq
      rw [World.heap_receive_self, Option.some.injEq] at hd
      refine .inl ⟨?_, e.receive c (writeData c ds).1, by simp [World.receive], hpriv⟩
      rw [← hd, writeData_handle, hh]
    · rw [World.heap_receive_of_ne hq] at hd
      rw [World.easy_receive_of_ne hq]
      exact h.handle q d hd
  case pool =>
    intro q
    rw [ne_eq, World.heap_receive_eq_none hp]
    exact h.pool q
  case nodup => exact h.nodup
  case msgs_attached => exact h.msgs_attached
  case msgs_nodup => exact h.msgs_nodup
  case released =>
    intro q hq
    rw [World.heap_receive_eq_none hp] at hq
    have hqc : q ≠ c.handle := by
      rintro rfl
      rw [hp] at hq
      simp at hq
    rw [World.easy_receive_of_ne hqc]
    exact h.released q hq
  case unborn =>
    intro q hq
    rw [World.heap_receive_eq_none hp]
    exact h.unborn q hq
  case busy_live =>
    intro q hq
    rw [ne_eq, World.heap_receive_eq_none hp]
    exact h.busy_live q hq

theorem History.receive (h : History busy w) (hp : w.heap c.handle = some ds) :
    History busy (w.receive c ds e) := by
  constructor
  case accepted =>
    intro q d hd
    by_cases hq : q = c.handle
    · subst hq
      rw [World.heap_receive_self, Option.some.injEq] at hd
      rw [← hd, writeData_url, writeData_filename]
      exact h.accepted _ _ hp
    · rw [World.heap_receive_of_ne hq] at hd
      exact h.accepted q d hd
  case unique => exact h.unique
  case born => exact h.born
  case quiet =>
    intro q hq hqb
    rw [ne_eq, World.heap_receive_eq_none hp] at hq
    exact h.quiet q hq hqb
  case unborn => exact h.unborn
  case told =>
    intro q r u f hm hq
    rw [World.heap_receive_eq_none hp] at hq
    exact h.told q r u f hm hq

/-- Replacing what a download has received keeps the invariant. -/
theorem Inv.receive (h : Inv busy w) (hp : w.heap c.handle = some ds) (hpriv : e.priv = c.handle)
    (hh : ds.handle = some c.handle) : Inv busy (w.receive c ds e) :=
  ⟨h.registry.receive hp hpriv hh, h.history.receive hp⟩

end Receive

/-- Received data leaves the queue alone. -/
structure Receives (w w' : World) : Prop where
  heap : ∀ p, (w'.heap p = none ↔ w.heap p = none)
  data : ∀ p ds, w.heap p = some ds → ∃ ds', w'.heap p = some ds' ∧
    ds'.filename = ds.filename ∧ ds'.path = ds.path ∧ ds'.url = ds.url
  files : w'.files = w.files
  handles : w'.handles = w.handles
  attached : w'.attached = w.attached
  msgs : w'.msgs = w.msgs
  fresh : w'.fresh = w.fresh
  numToProcess : w'.numToProcess = w.numToProcess
  fs : w'.fs = w.fs
  trace : w'.trace = w.trace

theorem Receives.refl (w : World) : Receives w w :=
  ⟨fun _ => .rfl, fun _ ds h => ⟨ds, h, rfl, rfl, rfl⟩, rfl, rfl, rfl, rfl, rfl, rfl, rfl, rfl⟩

theorem Receives.trans {w w' w'' : World} (h : Receives w w') (h' : Receives w' w'') :
    Receives w w'' where
  heap p := (h'.heap p).trans (h.heap p)
  data := by
    intro p ds hp
    obtain ⟨d, hd, h1, h2, h3⟩ := h.data p ds hp
    obtain ⟨d', hd', h1', h2', h3'⟩ := h'.data p d hd
    exact ⟨d', hd', h1'.trans h1, h2'.trans h2, h3'.trans h3⟩
  files := h'.files.trans h.files
  handles := h'.handles.trans h.handles
  attached := h'.attached.trans h.attached
  msgs := h'.msgs.trans h.msgs
  fresh := h'.fresh.trans h.fresh
  numToProcess := h'.numToProcess.trans h.numToProcess
  fs := h'.fs.trans h.fs
  trace := h'.trace.trans h.trace

theorem World.receives_receive {c : WriteCall} {ds : DataStruct} {e : EasyHandle}
    (hp : w.heap c.handle = some ds) : Receives w (w.receive c ds e) := by
  constructor
  case heap =>
    intro q
    by_cases hq : q = c.handle
    · simp [World.receive, hq, hp]
    · simp [World.receive, hq]
  case data =>
    intro q d hd
    by_cases hq : q = c.handle
    · subst hq
      rw [hp, Option.some.injEq] at hd
      subst hd
      exact ⟨(writeData c ds).2, by simp [World.receive], by simp, by simp, by simp⟩
    · exact ⟨d, by simpa [World.receive, hq] using hd, rfl, rfl, rfl⟩
  all_goals rfl

theorem run_performWrite_ok {busy : List Ptr} (h : Inv busy w) {cs : List WriteCall}
    (hc : ∀ c ∈ cs, c.handle ∈ w.attached) :
    ∃ w', run World.performWrite w cs = .ok w' ∧ Inv busy w' ∧ Receives w w' := by
  induction cs generalizing w with
  | nil => exact ⟨w, rfl, h, .refl w⟩
  | cons c cs ih =>
      obtain ⟨ds, e, hds, -, hpriv, hh, hw⟩ :=
        performWrite_eq h.registry (hc c (by simp))
      have hrec : Receives w (w.receive c ds e) := World.receives_receive hds
      obtain ⟨w', hw', hinv', hrec'⟩ := ih (h.receive hds hpriv hh)
        (fun d hd => hc d (by simp [hd]))
      exact ⟨w', by rw [run_cons_of_ok _ hw, hw'], hinv', hrec.trans hrec'⟩

end Perform

/-- What curl promises about the transfers it reports: it calls back and sends messages
for attached transfers only, and at most one message each. -/
structure PollReport.Delivered (w : World) (r : PollReport) : Prop where
  writes : ∀ c ∈ r.writes, c.handle ∈ w.attached
  done : ∀ m ∈ r.done, m.handle ∈ w.attached
  once : (r.done.map CurlMsg.handle).Nodup

theorem multiPerform_ok {w : World} (h : Inv [] w) (hm : w.msgs = []) {r : PollReport}
    (hr : r.Delivered w) :
    ∃ w₁, run World.performWrite w r.writes = .ok w₁ ∧ Receives w w₁ ∧ Inv [] w₁ ∧
      w.multiPerform r = .ok { w₁ with msgs := r.done } ∧
      Inv [] { w₁ with msgs := r.done } := by
  obtain ⟨w₁, hw₁, hinv, hrec⟩ := run_performWrite_ok h hr.writes
  refine ⟨w₁, hw₁, hrec, hinv, ?_, ?_⟩
  · simp only [World.multiPerform, hw₁, ok_bind, hrec.msgs, hm, List.nil_append]
  · constructor
    · refine { hinv.registry with msgs_attached := ?_, msgs_nodup := hr.once }
      intro m hm'
      rw [hrec.attached]
      exact hr.done m hm'
    · exact { hinv.history with }

/-! ## Handling one message -/

section Message

variable {busy : List Ptr} {w : World} {m : CurlMsg} {ds : DataStruct} {emit : Emit}
  {bound : ℕ}

/-- What `poll` leaves in the `DataStruct` before the signal. -/
def DataStruct.closed (ds : DataStruct) : DataStruct :=
  { ds with fp := none }

theorem signals_outcome (p : Ptr) (ds : DataStruct) (error : Option Bytes) :
    (outcome p ds error).signals p = true := by
  cases error <;> simp [outcome, Event.signals]

theorem args_outcome (p : Ptr) (ds : DataStruct) (error : Option Bytes) :
    (outcome p ds error).args = (ds.url, ds.filename) := by
  cases error <;> rfl

/-- The state in which the signal for a message is sent. -/
def World.withdrawFinished (w : World) (m : CurlMsg) (ds : DataStruct) : World :=
  World.withdraw { w with fs := (finishTransfer m ds w.fs).2 } m.handle ds.closed w.easy

theorem handleMessage_eq (h : Registry busy w) (hm : m.handle ∈ w.attached)
    (hp : w.heap m.handle = some ds) :
    handleMessage emit m w =
      (emit (outcome m.handle ds (finishTransfer m ds w.fs).1) (w.withdrawFinished m ds) >>=
        releaseDownload m.handle) := by
  obtain ⟨ds', e, hds, hb, -, he, hpriv⟩ := h.easy_of_pool (List.mem_append_right _ hm)
  rw [hp, Option.some.injEq] at hds
  subst hds
  have hnw : m.handle ∉ w.handles := fun hw => h.disjoint hw hm
  unfold handleMessage
  simp only [World.easyGetinfoPrivate, he, ok_bind, hpriv, World.deref_eq hp]
  have he' : ({ w with fs := (finishTransfer m ds w.fs).2 } : World).easy m.handle = some e := he
  rw [World.multiRemoveHandle_eq he', ok_bind]
  simp only [World.store, World.withdrawFinished, World.withdraw, List.erase_of_not_mem hnw,
    DataStruct.closed]

/-- The releases after the signal are those of `discard`. -/
theorem Retired.releaseDownload_eq {e : Event} {w₂ : World} {p : Ptr}
    (h : Retired busy w p ds.closed w.easy e w₂) (hh : ds.handle = some p)
    (he : w.easy p ≠ none) :
    releaseDownload p w₂ = .ok (w₂.discard p ds.url) := by
  obtain ⟨eh, heh⟩ := Option.ne_none_iff_exists'.mp he
  have hfiles : w₂.files[ds.closed.url]? = some p := h.files_eq
  have hclosed : ds.closed.handle = some p := hh
  unfold releaseDownload
  rw [World.deref_eq h.heap_eq, ok_bind, World.eraseEntry_eq hfiles, ok_bind]
  simp only [hclosed]
  have heasy : ({ w₂ with files := w₂.files.erase ds.closed.url } : World).easy p = some eh :=
    h.easy_eq.trans heh
  rw [World.easyCleanup_eq heasy, ok_bind]
  have hheap : ({ w₂ with
      files := w₂.files.erase ds.closed.url
      easy := Function.update w₂.easy p none } : World).heap p = some ds.closed := h.heap_eq
  rw [World.delete_eq hheap]
  rfl

theorem handleMessage_ok (h : Inv busy w) (hd : Delivers emit bound)
    (hbound : w.pending ≤ bound) (hm : m.handle ∈ w.attached)
    (hp : w.heap m.handle = some ds) :
    ∃ w', handleMessage emit m w = .ok w' ∧ Inv busy w' ∧ Shrinks busy w w' ∧
      w'.heap m.handle = none := by
  obtain ⟨ds', e, hds, hb, hh, he, hpriv⟩ :=
    h.registry.easy_of_pool (List.mem_append_right _ hm)
  rw [hp, Option.some.injEq] at hds
  subst hds
  have hfs := h.drop_msgs (.refl w.msgs) (finishTransfer m ds w.fs).2
  obtain ⟨w₂, hemit, hret⟩ := hfs.retire hd hbound hp hb ds.closed w.easy
    rfl rfl (fun _ _ => rfl) (.inl ⟨hh, e, he, hpriv⟩)
    (signals_outcome m.handle ds (finishTransfer m ds w.fs).1) (args_outcome ..)
  refine ⟨w₂.discard m.handle ds.url, ?_, hret.inv_discard, ?_, by simp [World.discard]⟩
  · rw [handleMessage_eq h.registry hm hp]
    simp only [World.withdrawFinished, hemit, ok_bind]
    exact hret.releaseDownload_eq hh (by simp [he])
  · exact ⟨hret.shrinks_discard.heap, hret.shrinks_discard.easy, hret.shrinks_discard.handles,
      hret.shrinks_discard.attached, hret.shrinks_discard.msgs, hret.shrinks_discard.kept,
      hret.shrinks_discard.fresh, hret.shrinks_discard.numToProcess, hret.shrinks_discard.trace,
      hret.shrinks_discard.accepted⟩

end Message

/-! ## The message loop -/

section Drain

variable {w : World} {emit : Emit} {bound : ℕ}

theorem drain_ok (h : Inv [] w) (hd : Delivers emit bound) (hbound : w.pending ≤ bound)
    {n : ℕ} (hn : w.msgs.length ≤ n) :
    ∃ w', drain emit n w = .ok w' ∧ Inv [] w' ∧ Shrinks [] w w' ∧ w'.msgs = [] := by
  induction n generalizing w with
  | zero => exact ⟨w, rfl, h, .refl _ _, List.length_eq_zero_iff.mp (Nat.le_zero.mp hn)⟩
  | succ n ih =>
      cases hm : w.msgs with
      | nil => exact ⟨w, by simp only [drain, hm], h, .refl _ _, hm⟩
      | cons m rest =>
          have ha := h.registry.msgs_attached m (by simp [hm])
          obtain ⟨ds, -, hp, -⟩ := h.registry.easy_of_pool (List.mem_append_right _ ha)
          have hsub : rest <+ w.msgs := by
            rw [hm]
            exact List.sublist_cons_self m rest
          obtain ⟨w₁, hw₁, hinv₁, hshr₁, hdead⟩ :=
            handleMessage_ok (m := m) (h.drop_msgs hsub w.fs) hd hbound ha hp
          have hlen : w₁.msgs.length ≤ n := by
            have := hshr₁.msgs.length_le
            simp only [hm, List.length_cons] at hn
            exact this.trans (Nat.le_of_succ_le_succ hn)
          obtain ⟨w', hw', hinv', hshr', hnil⟩ := ih hinv₁ (hshr₁.pending_le.trans hbound) hlen
          refine ⟨w', ?_, hinv', ?_, hnil⟩
          · simp only [drain, hm, hw₁]
            exact hw'
          · refine Shrinks.trans ?_ hshr'
            have hkept : ∀ m' ∈ w.msgs, w₁.heap m'.handle ≠ none → m' ∈ w₁.msgs := by
              intro m' hm' hlive
              rw [hm] at hm'
              rcases List.mem_cons.mp hm' with rfl | hm'
              · exact absurd hdead hlive
              · exact hshr₁.kept m' hm' hlive
            exact ⟨hshr₁.heap, hshr₁.easy, hshr₁.handles, hshr₁.attached,
              hshr₁.msgs.trans hsub, hkept, hshr₁.fresh, hshr₁.numToProcess, hshr₁.trace,
              hshr₁.accepted⟩

end Drain

/-! ## Handing waiting transfers to curl -/

section Attach

variable {busy : List Ptr} {w : World}

/-- The `k` transfers waiting longest move to curl, in their order. -/
def World.attach (w : World) (k : ℕ) : World :=
  { w with
    handles := w.handles.drop k
    attached := w.attached ++ w.handles.take k }

@[simp] theorem World.attach_zero (w : World) : w.attach 0 = w := by
  simp [World.attach]

theorem World.attach_nil (hw : w.handles = []) (k : ℕ) : w.attach k = w := by
  cases w
  simp only at hw
  subst hw
  simp [World.attach]

theorem Inv.attach (h : Inv busy w) (k : ℕ) : Inv busy (w.attach k) := by
  have hperm : ((w.attach k).handles ++ (w.attach k).attached).Perm
      (w.handles ++ w.attached) := by
    simp only [World.attach]
    calc w.handles.drop k ++ (w.attached ++ w.handles.take k)
        ~ (w.attached ++ w.handles.take k) ++ w.handles.drop k := List.perm_append_comm
      _ = w.attached ++ w.handles := by rw [List.append_assoc, List.take_append_drop]
      _ ~ w.handles ++ w.attached := List.perm_append_comm
  constructor
  · refine { h.registry with pool := ?_, nodup := ?_, msgs_attached := ?_ }
    · intro q
      rw [hperm.mem_iff]
      exact h.registry.pool q
    · exact hperm.nodup_iff.mpr h.registry.nodup
    · exact fun m hm => List.mem_append_left _ (h.registry.msgs_attached m hm)
  · exact { h.history with }

theorem attachLoop_nil {k : ℕ} {n : Int32} (hw : w.handles = []) :
    attachLoop k n w = .ok (n, w) := by
  induction k with
  | zero => rfl
  | succ k ih => simpa only [attachLoop, hw] using ih

theorem attachLoop_eq (h : Inv busy w) (k : ℕ) (n : Int32) :
    attachLoop k n w =
      .ok (n + Int32.ofNat (min k w.handles.length), w.attach k) := by
  induction k generalizing w n with
  | zero => simp [attachLoop]
  | succ k ih =>
      cases hw : w.handles with
      | nil =>
          rw [attachLoop_nil hw, World.attach_nil hw]
          simp
      | cons p rest =>
          have hp : p ∈ w.handles := by simp [hw]
          obtain ⟨ds, e, -, -, -, he, -⟩ :=
            h.registry.easy_of_pool (List.mem_append_left _ hp)
          have hna : p ∉ w.attached := h.registry.disjoint hp
          have hone : { w with attached := w.attached ++ [p], handles := rest } =
              w.attach 1 := by
            simp [World.attach, hw]
          have hstep : attachLoop (k + 1) n w = attachLoop k (n + 1) (w.attach 1) := by
            simp only [attachLoop, hw, World.multiAddHandle, he, hna, ite_false, ok_bind, hone]
          rw [hstep, ih (h.attach 1)]
          have hlen : (w.attach 1).handles.length = rest.length := by simp [World.attach, hw]
          have hmin : min (k + 1) (rest.length + 1) = min k rest.length + 1 := by omega
          rw [hlen, List.length_cons, hmin, Int32.ofNat_add]
          congr 2
          · rw [Int32.add_assoc, Int32.add_comm 1]
            rfl
          · simp [World.attach, hw]

end Attach

end LibWfut
