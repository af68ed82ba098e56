import LibWfut.Verification.Io.Returned

/-! # Operations under handlers that do not call back

With such handlers every operation is a function of the state, and what it does to the
queue can be said exactly. -/

namespace LibWfut

open List Machine

/-- The states between two calls. -/
structure Idle (w : World) : Prop where
  inv : Inv [] w
  msgs : w.msgs = []

theorem idle_init (n : Int32) (fs : FileTree.FileSystem) : Idle (World.init n fs) :=
  ⟨inv_init n fs, rfl⟩

/-! ## Aborting -/

/-- The state after an abort of `p`. -/
def World.aborted (w : World) (p : Ptr) (ds : DataStruct) : World :=
  ((w.withdrawAborted p ds).log (abortedEvent p ds)).discard p ds.url

theorem World.heap_aborted (w : World) (p q : Ptr) (ds : DataStruct) :
    (w.aborted p ds).heap q = if q = p then none else w.heap q := by
  by_cases hq : q = p
  · simp [aborted, discard, hq]
  · simp [aborted, discard, withdrawAborted, withdraw, log, hq]

theorem abortDownload_signal {w : World} (h : Inv [] w) {url : Bytes} {p : Ptr}
    {ds : DataStruct} (hu : w.files[url]? = some p) (hp : w.heap p = some ds) :
    abortDownload signal url w = .ok (w.aborted p ds) := by
  obtain ⟨d, hd, rfl⟩ := h.registry.entry url p hu
  rw [hp, Option.some.injEq] at hd
  subst hd
  obtain ⟨w₂, hemit, hret⟩ := h.retire_aborted (delivers_signal _) le_rfl hp (by simp)
  have hw₂ : w₂ = (w.withdrawAborted p ds).log (abortedEvent p ds) := by
    rw [abortDataStruct_eq h.registry hp (by simp)] at hemit
    exact (Except.ok.inj hemit).symm
  simp only [abortDownload, hu, hemit, ok_bind]
  rw [hret.delete_erase, hw₂]
  rfl

/-! ## The message loop -/

/-- The state after the message of a finished transfer. -/
def World.finished (w : World) (m : CurlMsg) (ds : DataStruct) : World :=
  ((w.withdrawFinished m ds).log (outcome m.handle ds (finishTransfer m ds w.fs).1)).discard
    m.handle ds.url

theorem handleMessage_signal {busy : List Ptr} {w : World} (h : Inv busy w) {m : CurlMsg}
    {ds : DataStruct} (hm : m.handle ∈ w.attached) (hp : w.heap m.handle = some ds) :
    handleMessage signal m w = .ok (w.finished m ds) := by
  obtain ⟨d, e, hds, hb, hh, he, hpriv⟩ :=
    h.registry.easy_of_pool (List.mem_append_right _ hm)
  rw [hp, Option.some.injEq] at hds
  subst hds
  have hfs := h.drop_msgs (.refl w.msgs) (finishTransfer m ds w.fs).2
  obtain ⟨w₂, hemit, hret⟩ := hfs.retire
    (delivers_signal _) le_rfl hp hb ds.closed w.easy rfl rfl (fun _ _ => rfl)
    (.inl ⟨hh, e, he, hpriv⟩) (signals_outcome m.handle ds (finishTransfer m ds w.fs).1)
    (args_outcome ..)
  rw [handleMessage_eq h.registry hm hp]
  simp only [World.withdrawFinished, hemit, ok_bind]
  rw [hret.releaseDownload_eq hh (by simp [he]), ← Except.ok.inj hemit]
  rfl

/-- The state after the first message, when `rest` are the others. -/
def World.handled (w : World) (m : CurlMsg) (ds : DataStruct) (rest : List CurlMsg) : World :=
  World.finished { w with msgs := rest } m ds

/-- What handling one message changes. -/
structure Handled (w : World) (m : CurlMsg) (ds : DataStruct) (rest : List CurlMsg)
    (w' : World) : Prop where
  inv : Inv [] w'
  msgs : w'.msgs = rest
  heap : ∀ p, w'.heap p = if p = m.handle then none else w.heap p
  easy : ∀ p, w'.easy p = if p = m.handle then none else w.easy p
  handles : w'.handles = w.handles
  attached : w'.attached = w.attached.filter (· ≠ m.handle)
  numToProcess : w'.numToProcess = w.numToProcess
  fresh : w'.fresh = w.fresh
  fs : w'.fs = (finishTransfer m ds w.fs).2
  trace : w'.trace = w.trace ++ [outcome m.handle ds (finishTransfer m ds w.fs).1]

theorem drain_cons {w : World} (h : Inv [] w) {m : CurlMsg} {rest : List CurlMsg}
    (hm : w.msgs = m :: rest) :
    ∃ ds, w.heap m.handle = some ds ∧ Handled w m ds rest (w.handled m ds rest) ∧
      ∀ n, drain signal (n + 1) w = drain signal n (w.handled m ds rest) := by
  have ha := h.registry.msgs_attached m (by simp [hm])
  obtain ⟨ds, -, hp, -⟩ := h.registry.easy_of_pool (List.mem_append_right _ ha)
  have hsub : rest <+ w.msgs := by
    rw [hm]
    exact List.sublist_cons_self m rest
  have hnodup := h.registry.msgs_nodup
  rw [hm, List.map_cons, List.nodup_cons] at hnodup
  have hnw : m.handle ∉ w.handles := fun hw => h.registry.disjoint hw ha
  have hpop : Inv [] { w with msgs := rest } := h.drop_msgs hsub w.fs
  have hstep := handleMessage_signal (m := m) hpop ha hp
  obtain ⟨w₁, hw₁, hinv₁, -⟩ := handleMessage_ok (m := m) hpop (delivers_signal _) le_rfl ha hp
  rw [hstep, Except.ok.injEq] at hw₁
  subst hw₁
  refine ⟨ds, hp, ?_, fun n => ?_⟩
  · constructor
    case inv => exact hinv₁
    case msgs =>
      apply List.filter_eq_self.mpr
      intro m' hm'
      simp only [ne_eq, decide_not, Bool.not_eq_eq_eq_not, Bool.not_true,
        decide_eq_false_iff_not]
      exact fun heq => hnodup.1 (List.mem_map.mpr ⟨m', hm', heq⟩)
    case heap =>
      intro q
      by_cases hq : q = m.handle
      · simp [World.handled, World.finished, World.discard, hq]
      · simp [World.handled, World.finished, World.discard, World.withdrawFinished,
          World.withdraw, World.log, hq]
    case easy =>
      intro q
      by_cases hq : q = m.handle
      · simp [World.handled, World.finished, World.discard, hq]
      · simp [World.handled, World.finished, World.discard, World.withdrawFinished,
          World.withdraw, World.log, hq]
    case handles => exact List.erase_of_not_mem hnw
    case attached =>
      refine ((List.nodup_append.mp h.registry.nodup).2.1.erase_eq_filter m.handle).trans ?_
      exact List.filter_congr fun q _ => by rw [decide_not]; rfl
    all_goals rfl
  · simp only [drain, hm, hstep]
    rfl

/-- All messages of `w` handled, one after the other. -/
structure Settled (w w' : World) : Prop where
  idle : Idle w'
  heap : ∀ p, w'.heap p = if p ∈ w.msgs.map CurlMsg.handle then none else w.heap p
  easy : ∀ p, w'.easy p = if p ∈ w.msgs.map CurlMsg.handle then none else w.easy p
  handles : w'.handles = w.handles
  attached : w'.attached = w.attached.filter (· ∉ w.msgs.map CurlMsg.handle)
  numToProcess : w'.numToProcess = w.numToProcess
  fresh : w'.fresh = w.fresh
  accepted : accepted w'.trace = accepted w.trace

section Calm

variable {w : World} {emit : Emit} {bound : ℕ}

/-- A delivery that touches the tree only makes no other difference. -/
theorem handleMessage_calm {busy : List Ptr} (h : Inv busy w) (hd : Delivers emit bound)
    (hcalm : Calm emit) (hbound : w.pending ≤ bound) {m : CurlMsg} {ds : DataStruct}
    (hm : m.handle ∈ w.attached) (hp : w.heap m.handle = some ds) :
    ∃ fs, handleMessage emit m w = .ok { w.finished m ds with fs := fs } := by
  obtain ⟨d, e, hds, hb, hh, he, hpriv⟩ :=
    h.registry.easy_of_pool (List.mem_append_right _ hm)
  rw [hp, Option.some.injEq] at hds
  subst hds
  have hfs := h.drop_msgs (.refl w.msgs) (finishTransfer m ds w.fs).2
  obtain ⟨w₂, hemit, hret⟩ := hfs.retire
    hd hbound hp hb ds.closed w.easy rfl rfl (fun _ _ => rfl)
    (.inl ⟨hh, e, he, hpriv⟩) (signals_outcome m.handle ds (finishTransfer m ds w.fs).1)
    (args_outcome ..)
  obtain ⟨fs, hw₂⟩ := hcalm _ _ _ hemit
  refine ⟨fs, ?_⟩
  rw [handleMessage_eq h.registry hm hp]
  simp only [World.withdrawFinished, hemit, ok_bind]
  rw [hret.releaseDownload_eq hh (by simp [he]), hw₂]
  rfl

theorem drain_calm (h : Inv [] w) (hd : Delivers emit bound) (hcalm : Calm emit)
    (hbound : w.pending ≤ bound) {msgs : List CurlMsg} (hm : w.msgs = msgs) :
    ∃ w', drain emit msgs.length w = .ok w' ∧ Settled w w' := by
  induction msgs generalizing w with
  | nil =>
      refine ⟨w, rfl, ⟨h, hm⟩, ?_, ?_, rfl, ?_, rfl, rfl, rfl⟩
      all_goals simp [hm]
  | cons m rest ih =>
      obtain ⟨ds, hp, hone, -⟩ := drain_cons h hm
      have ha := h.registry.msgs_attached m (by simp [hm])
      have hsub : rest <+ w.msgs := by
        rw [hm]
        exact List.sublist_cons_self m rest
      obtain ⟨fs, hfirst⟩ :=
        handleMessage_calm (m := m) (h.drop_msgs hsub w.fs) hd hcalm hbound ha hp
      have hpend : ({ w.handled m ds rest with fs := fs } : World).pending ≤ bound := by
        refine le_trans ?_ hbound
        simp only [World.pending, hone.handles, hone.attached]
        exact Nat.add_le_add_left (List.length_filter_le ..) _
      obtain ⟨w', hw', hset⟩ := ih (hone.inv.drop_msgs (.refl _) fs) hpend hone.msgs
      refine ⟨w', ?_, ?_⟩
      · rw [List.length_cons]
        simp only [drain, hm, hfirst]
        exact hw'
      · constructor
        case idle => exact hset.idle
        case heap =>
          intro q
          rw [hset.heap]
          simp only [hone.msgs, hone.heap, hm, List.map_cons]
          by_cases hq : q = m.handle
          · simp [hq]
          · simp [hq]
        case easy =>
          intro q
          rw [hset.easy]
          simp only [hone.msgs, hone.easy, hm, List.map_cons]
          by_cases hq : q = m.handle
          · simp [hq]
          · simp [hq]
        case handles => exact hset.handles.trans hone.handles
        case attached =>
          rw [hset.attached]
          simp only [hone.msgs, hone.attached, List.filter_filter, hm, List.map_cons]
          apply List.filter_congr
          intro q _
          by_cases hq : q = m.handle
          · simp [hq]
          · simp [hq]
        case numToProcess => exact hset.numToProcess.trans hone.numToProcess
        case fresh => exact hset.fresh.trans hone.fresh
        case accepted =>
          rw [hset.accepted]
          simp only [hone.trace, accepted_append, accepted_signal (signals_outcome ..),
            List.append_nil]

end Calm

theorem drain_signal {w : World} (h : Inv [] w) {msgs : List CurlMsg} (hm : w.msgs = msgs) :
    ∃ w', drain signal msgs.length w = .ok w' ∧ Settled w w' :=
  drain_calm h (delivers_signal _) calm_signal le_rfl hm

/-- The state in which a message is handled, and the one after it. -/
theorem drain_split {w : World} (h : Inv [] w) {before : List CurlMsg} {m : CurlMsg}
    {rest : List CurlMsg} (hm : w.msgs = before ++ m :: rest) :
    ∃ v v' ds, drain signal before.length w = .ok v ∧
      drain signal (before.length + 1) w = .ok v' ∧ w.heap m.handle = some ds ∧
      v.heap m.handle = some ds ∧ v.easy m.handle = w.easy m.handle ∧
      Handled v m ds rest v' := by
  induction before generalizing w with
  | nil =>
      obtain ⟨ds, hds, hone, hdrain⟩ := drain_cons h hm
      exact ⟨w, _, ds, rfl, hdrain 0, hds, hds, rfl, hone⟩
  | cons m' before ih =>
      obtain ⟨ds', -, hone, hdrain⟩ := drain_cons h hm
      obtain ⟨v, v', ds, hv, hv', hds, hvds, heasy, hlast⟩ := ih hone.inv hone.msgs
      have hne : m.handle ≠ m'.handle := by
        have hnodup := h.registry.msgs_nodup
        rw [hm, List.cons_append, List.map_cons, List.nodup_cons] at hnodup
        intro heq
        exact hnodup.1 (List.mem_map.mpr ⟨m, by simp, heq⟩)
      rw [hone.heap, if_neg hne] at hds
      rw [hone.easy, if_neg hne] at heasy
      exact ⟨v, v', ds, (hdrain _).trans hv, (hdrain _).trans hv', hds, hvds, heasy, hlast⟩

/-! ## A whole poll -/

/-- How many transfers `poll` starts: the free capacity, in `int` arithmetic. -/
def capacity (w : World) (r : PollReport) : ℕ :=
  (w.numToProcess - r.running).toInt.toNat

/-- The exact course of one poll. -/
structure Polled (w : World) (r : PollReport) (n : Int32) (w' : World) : Prop where
  idle : Idle w'
  heap : ∀ p, w'.heap p = none ↔ p ∈ r.done.map CurlMsg.handle ∨ w.heap p = none
  handles : w'.handles = w.handles.drop (capacity w r)
  attached : w'.attached = w.attached.filter (· ∉ r.done.map CurlMsg.handle) ++
    w.handles.take (capacity w r)
  result : n = r.running + Int32.ofNat (min (capacity w r) w.handles.length)
  numToProcess : w'.numToProcess = w.numToProcess
  fresh : w'.fresh = w.fresh
  accepted : accepted w'.trace = accepted w.trace
  received : ∃ w₁, run World.performWrite w r.writes = .ok w₁ ∧
    (∀ p, w'.heap p = if p ∈ r.done.map CurlMsg.handle then none else w₁.heap p) ∧
    ∀ p, w'.easy p = if p ∈ r.done.map CurlMsg.handle then none else w₁.easy p

theorem poll_calm {w : World} {emit : Emit} {bound : ℕ} (h : Idle w) (hd : Delivers emit bound)
    (hcalm : Calm emit) (hbound : w.pending ≤ bound) {r : PollReport} (hr : r.Delivered w) :
    ∃ n w', poll emit r w = .ok (n, w') ∧ Polled w r n w' := by
  obtain ⟨w₁, hrun, hrec, -, hperf, hinv⟩ := multiPerform_ok h.inv h.msgs hr
  have hpend : ({ w₁ with msgs := r.done } : World).pending ≤ bound := by
    simp only [World.pending, hrec.handles, hrec.attached]
    exact hbound
  obtain ⟨w₂, hw₂, hset⟩ := drain_calm hinv hd hcalm hpend rfl
  have hheap : ∀ p, w₂.heap p = none ↔ p ∈ r.done.map CurlMsg.handle ∨ w.heap p = none := by
    intro p
    rw [hset.heap]
    by_cases hp : p ∈ r.done.map CurlMsg.handle
    · simp [hp]
    · rw [if_neg hp, ← hrec.heap]
      simp [hp]
  have hhandles : w₂.handles = w.handles := hset.handles.trans hrec.handles
  have hattached : w₂.attached = w.attached.filter (· ∉ r.done.map CurlMsg.handle) := by
    rw [hset.attached]
    change w₁.attached.filter _ = _
    rw [hrec.attached]
  have hnum : w₂.numToProcess = w.numToProcess := hset.numToProcess.trans hrec.numToProcess
  have hpoll : poll emit r w =
      .ok (r.running + Int32.ofNat (min (capacity w r) w.handles.length),
        w₂.attach (capacity w r)) := by
    simp only [poll, hperf, ok_bind]
    simp only at hw₂
    rw [hw₂]
    simp only [ok_bind, hnum]
    split
    · rw [attachLoop_eq hset.idle.inv, hhandles]
      rfl
    · rename_i hle
      have hzero : capacity w r = 0 := by
        have hle' : (w.numToProcess - r.running).toInt ≤ (0 : Int32).toInt :=
          Int32.le_iff_toInt_le.mp (Int32.not_lt.mp hle)
        simp only [capacity]
        exact Int.toNat_eq_zero.mpr hle'
      simp [hzero]
  refine ⟨_, _, hpoll, ⟨hset.idle.inv.attach _, hset.idle.msgs⟩, hheap, ?_, ?_, rfl, hnum,
    hset.fresh.trans hrec.fresh, ?_, w₁, hrun, hset.heap, hset.easy⟩
  · simp only [World.attach, hhandles]
  · simp only [World.attach, hhandles, hattached]
  · exact hset.accepted.trans (congrArg LibWfut.accepted hrec.trace)

theorem poll_signal {w : World} (h : Idle w) {r : PollReport} (hr : r.Delivered w) :
    ∃ n w', poll signal r w = .ok (n, w') ∧ Polled w r n w' :=
  poll_calm h (delivers_signal _) calm_signal le_rfl hr

/-! ## Steps -/

/-- What the callers and curl have to respect. -/
def Op.Allowed (w : World) : Op → Prop
  | .queueFile _ _ url _ _ => NoCollision w url
  | .poll r => r.Delivered w
  | _ => True

/-- Only `setMaxDownloads` changes the limit. -/
theorem numToProcess_eq {w w' : World} (h : Idle w) {op : Op} (hop : op.Allowed w)
    (hset : ∀ i, op ≠ .setMaxDownloads i) (hs : step w op = .ok w') :
    w'.numToProcess = w.numToProcess := by
  cases op with
  | queueFile path filename url crc exec =>
      simp only [step, call, Except.ok.injEq] at hs
      subst hs
      by_cases hu : w.files[url]? = none
      · rw [queueFile_state hu]
        rfl
      · rw [queueFile_refused hu]
  | poll r =>
      obtain ⟨n, w₁, hw₁, hpoll⟩ := poll_signal h hop
      simp only [step, call, hw₁, Except.map, Except.ok.injEq] at hs
      rw [← hs, hpoll.numToProcess]
  | abortDownload url =>
      simp only [step, call] at hs
      cases hu : w.files[url]? with
      | none =>
          rw [abortDownload_absent hu, Except.ok.injEq] at hs
          rw [hs]
      | some p =>
          obtain ⟨w₁, hw₁, -, hshr, -⟩ :=
            abortDownload_ok h.inv (delivers_signal _) le_rfl hu (by simp)
          rw [hw₁, Except.ok.injEq] at hs
          rw [← hs, hshr.numToProcess]
  | abortAll =>
      obtain ⟨w₁, hw₁, -, hshr, -⟩ := abortAll_ok h.inv (delivers_signal _) le_rfl
        h.inv.registry.size_files.ge
      simp only [step, call, hw₁, Except.ok.injEq] at hs
      rw [← hs, hshr.numToProcess]
  | setMaxDownloads i => exact absurd rfl (hset i)

/-- Every allowed call returns without a fault and leaves the queue ready for the
next. -/
theorem keeps_idle : Keeps step Op.Allowed Idle := by
  intro w op h hop
  cases op with
  | queueFile path filename url crc exec =>
      refine ⟨_, rfl, h.inv.queueFile hop, ?_⟩
      by_cases hu : w.files[url]? = none
      · rw [queueFile_state hu]
        exact h.msgs
      · rw [queueFile_refused hu]
        exact h.msgs
  | poll r =>
      obtain ⟨n, w', hw', hpoll⟩ := poll_signal h hop
      exact ⟨w', by simp only [step, call, hw', Except.map], hpoll.idle⟩
  | abortDownload url =>
      cases hu : w.files[url]? with
      | none => exact ⟨w, by simp only [step, call, abortDownload_absent hu], h⟩
      | some p =>
          obtain ⟨w', hw', hinv, hshr, -⟩ :=
            abortDownload_ok h.inv (delivers_signal _) le_rfl hu (by simp)
          refine ⟨w', hw', hinv, List.eq_nil_of_sublist_nil ?_⟩
          rw [← h.msgs]
          exact hshr.msgs
  | abortAll =>
      obtain ⟨w', hw', hinv, hshr, -⟩ := abortAll_ok h.inv (delivers_signal _) le_rfl
        h.inv.registry.size_files.ge
      refine ⟨w', hw', hinv, List.eq_nil_of_sublist_nil ?_⟩
      rw [← h.msgs]
      exact hshr.msgs
  | setMaxDownloads i =>
      exact ⟨_, rfl, ⟨{ h.inv.registry with }, { h.inv.history with }⟩, h.msgs⟩

end LibWfut
