import LibWfut.Verification.Io.LifeCycle

/-! # Handlers that call back

A handler runs while the download it is told about is still registered. Calls that leave
such downloads alone see a consistent queue, and every nested call ends one more
download. -/

namespace LibWfut

open List Machine

/-! ## Polite handlers -/

/-- No signal has been sent for the download registered under `url`. -/
def Unsignalled (w : World) (url : Bytes) : Prop :=
  ∀ p, w.files[url]? = some p → signalsOf p w.trace = []

/-- A handler that calls `abortDownload` only, and only for downloads whose signal has
not been sent. -/
def Polite (handler : Handler) : Prop :=
  ∀ w, ∀ c ∈ handler w, ∃ url, c = .abortDownload url ∧ Unsignalled w url

section Emit

variable {busy : List Ptr} {v w : World} {fuel : ℕ} {handler : Handler}

/-- A download whose signal has not been sent is not in the middle of its release. -/
theorem Unsignalled.not_busy (h : Inv busy w) {url : Bytes} (hu : Unsignalled w url) {p : Ptr}
    (hp : w.files[url]? = some p) : p ∉ busy := by
  intro hb
  obtain ⟨ds, hds, -⟩ := h.registry.entry url p hp
  obtain ⟨raw, hm, -⟩ := h.history.accepted p ds hds
  obtain ⟨e, he, -⟩ := h.history.told p raw _ _ hm (.inr hb)
  rw [hu p hp] at he
  simp at he

/-- Calls of a polite handler, one after the other. -/
theorem run_runCall_ok {emit : Emit} (hd : Delivers emit fuel) (hv : Inv busy v) {cs : List Call}
    (hc : ∀ c ∈ cs, ∃ url, c = .abortDownload url ∧ Unsignalled v url)
    (h : Inv busy w) (hs : Shrinks busy v w) (hfuel : w.pending ≤ fuel) :
    ∃ w', run (runCall emit fuel) w cs = .ok w' ∧ Inv busy w' ∧ Shrinks busy v w' := by
  induction cs generalizing w with
  | nil => exact ⟨w, rfl, h, hs⟩
  | cons c cs ih =>
      obtain ⟨url, rfl, hu⟩ := hc c (by simp)
      have hrest : ∀ c ∈ cs, ∃ url, c = .abortDownload url ∧ Unsignalled v url :=
        fun c hm => hc c (List.mem_cons_of_mem _ hm)
      cases hw : w.files[url]? with
      | none =>
          obtain ⟨w', hw', hinv', hs'⟩ := ih hrest h hs hfuel
          refine ⟨w', ?_, hinv', hs'⟩
          rw [run_cons_of_ok _ (abortDownload_absent hw), hw']
      | some p =>
          have hb := hu.not_busy hv (hs.files_some hv.registry h.registry hw)
          obtain ⟨w₁, hw₁, hinv₁, hs₁, -⟩ := abortDownload_ok h hd hfuel hw hb
          obtain ⟨w', hw', hinv', hs'⟩ :=
            ih hrest hinv₁ (hs.trans hs₁) (hs₁.pending_le.trans hfuel)
          refine ⟨w', ?_, hinv', hs'⟩
          rw [run_cons_of_ok _ hw₁, hw']

/-- Signals reach a polite handler safely; every level of nesting has one download less in
the queue. -/
theorem Polite.delivers (hp : Polite handler) (fuel : ℕ) :
    Delivers (emitTo handler fuel) fuel := by
  induction fuel with
  | zero => exact fun busy w e _ hlt => absurd hlt (Nat.not_lt_zero _)
  | succ fuel ih =>
      intro busy w e hinv hlt
      exact run_runCall_ok ih hinv (hp (w.log e)) hinv (.refl _ _) (Nat.le_of_lt_succ hlt)

end Emit

/-! ## Whole calls -/

/-- One poll, whatever the delivery. -/
theorem poll_ok {emit : Emit} {bound : ℕ} {w : World} (h : Idle w) (hd : Delivers emit bound)
    (hbound : w.pending ≤ bound) {r : PollReport} (hr : r.Delivered w) :
    ∃ n w', poll emit r w = .ok (n, w') ∧ Idle w' ∧
      ∀ p ∈ r.done.map CurlMsg.handle, w'.heap p = none := by
  obtain ⟨w₁, -, hrec, -, hperf, hinv⟩ := multiPerform_ok h.inv h.msgs hr
  have hpend : ({ w₁ with msgs := r.done } : World).pending = w.pending := by
    simp only [World.pending, hrec.handles, hrec.attached]
  obtain ⟨w₂, hw₂, hinv₂, hshr, hnil⟩ := drain_ok hinv hd (hpend.le.trans hbound) le_rfl
  have hdead : ∀ p ∈ r.done.map CurlMsg.handle, w₂.heap p = none := by
    intro p hp
    obtain ⟨m, hm, rfl⟩ := List.mem_map.mp hp
    by_contra hlive
    have hkept := hshr.kept m hm hlive
    rw [hnil] at hkept
    simp at hkept
  by_cases hdiff : 0 < w₂.numToProcess - r.running
  · have hloop := attachLoop_eq hinv₂ (w₂.numToProcess - r.running).toInt.toNat r.running
    have hpoll : poll emit r w =
        attachLoop (w₂.numToProcess - r.running).toInt.toNat r.running w₂ := by
      simp only [poll, hperf, ok_bind, hw₂, hdiff, ite_true]
    rw [hpoll, hloop]
    exact ⟨_, _, rfl, ⟨hinv₂.attach _, hnil⟩, hdead⟩
  · have hpoll : poll emit r w = .ok (r.running, w₂) := by
      simp only [poll, hperf, ok_bind, hw₂, hdiff, ite_false]
    exact ⟨_, _, hpoll, ⟨hinv₂, hnil⟩, hdead⟩

/-- What every call leaves: each download has had its signal exactly when it is over,
what is over is released, and the downloads the call is about are over. -/
structure Settles (w : World) (op : Op) (w' : World) : Prop where
  cycle : LifeCycle w'
  released : ∀ p, w'.heap p = none → w'.easy p = none
  ended : ∀ p, op.Concerns w p → w'.heap p = none

section Call

variable {w : World} {handler : Handler} {fuel : ℕ}

theorem call_ok (hp : Polite handler) (h : Idle w) {op : Op} (hop : op.Allowed w)
    (hfuel : w.files.size ≤ fuel) :
    ∃ w', call (emitTo handler fuel) fuel w op = .ok w' ∧ Idle w' ∧
      ∀ p, op.Concerns w p → w'.heap p = none := by
  have hd := hp.delivers fuel
  have hpend : w.pending ≤ fuel := h.inv.registry.size_files.symm.le.trans hfuel
  cases op with
  | queueFile path filename url crc exec =>
      obtain ⟨w', hw', hidle⟩ := keeps_idle w (.queueFile path filename url crc exec) h hop
      exact ⟨w', hw', hidle, fun p hc => hc.elim⟩
  | poll r =>
      obtain ⟨n, w', hw', hidle, hdead⟩ := poll_ok h hd hpend hop
      exact ⟨w', by simp only [call, hw', Except.map], hidle, hdead⟩
  | abortDownload url =>
      cases hu : w.files[url]? with
      | none =>
          refine ⟨w, abortDownload_absent hu, h, fun p hc => ?_⟩
          simp [Op.Concerns, hu] at hc
      | some q =>
          obtain ⟨w', hw', hinv, hshr, hdead⟩ := abortDownload_ok h.inv hd hpend hu (by simp)
          refine ⟨w', hw', ⟨hinv, List.eq_nil_of_sublist_nil (h.msgs ▸ hshr.msgs)⟩, ?_⟩
          intro p hc
          have hpq : q = p := by simpa [Op.Concerns, hu] using hc
          rwa [← hpq]
  | abortAll =>
      obtain ⟨w', hw', hinv, hshr, hdead⟩ := abortAll_ok h.inv hd hpend hpend
      exact ⟨w', hw', ⟨hinv, List.eq_nil_of_sublist_nil (h.msgs ▸ hshr.msgs)⟩,
        fun p _ => hdead p⟩
  | setMaxDownloads i =>
      obtain ⟨w', hw', hidle⟩ := keeps_idle w (.setMaxDownloads i) h hop
      exact ⟨w', hw', hidle, fun p hc => hc.elim⟩

theorem keeps_idle_with (hp : Polite handler) : Keeps (stepWith handler) Op.Allowed Idle := by
  intro w op h hop
  obtain ⟨w', hw', hidle, -⟩ := call_ok hp h hop le_rfl
  exact ⟨w', hw', hidle⟩

end Call

/-- With a polite handler every call in every state of a run returns within a nesting of
as many levels as downloads are registered, and settles what it is about. -/
theorem reentrant_calls (handler : Handler) (hp : Polite handler) (n : Int32)
    (fs : FileTree.FileSystem) (ops : List Op)
    (h : Permitted (stepWith handler) Op.Allowed (World.init n fs) ops) :
    ∃ w, run (stepWith handler) (World.init n fs) ops = .ok w ∧ LifeCycle w ∧
      ∀ op, op.Allowed w → ∀ fuel, w.files.size ≤ fuel →
        ∃ w', call (emitTo handler fuel) fuel w op = .ok w' ∧ Settles w op w' := by
  obtain ⟨w, hw, hidle⟩ := (keeps_idle_with hp).run_ok (idle_init n fs) h
  refine ⟨w, hw, hidle.lifeCycle, ?_⟩
  intro op hop fuel hfuel
  obtain ⟨w', hw', hidle', hended⟩ := call_ok hp hidle hop hfuel
  exact ⟨w', hw', hidle'.lifeCycle, hidle'.inv.registry.released, hended⟩

/-- Abort by name everything that has not had its signal. -/
def abortOthers : Handler := fun w =>
  (w.files.toList.filter fun e => (signalsOf e.2 w.trace).isEmpty).map fun e =>
    .abortDownload e.1

theorem polite_abortOthers : Polite abortOthers := by
  intro w c hc
  obtain ⟨⟨url, p⟩, he, rfl⟩ := List.mem_map.mp hc
  obtain ⟨hmem, hquiet⟩ := List.mem_filter.mp he
  refine ⟨url, rfl, ?_⟩
  intro q hq
  rw [Std.ExtTreeMap.mem_toList_iff_getElem?_eq_some.mp hmem, Option.some.injEq] at hq
  rw [← hq]
  exact List.isEmpty_iff.mp hquiet

theorem reentrant_calls_abortOthers :
    ∃ w, run (stepWith abortOthers) (World.init 1 .empty)
        [.queueFile (ascii "d") (ascii "a") (ascii "http://h/a") 0 false,
          .queueFile (ascii "d") (ascii "b") (ascii "http://h/b") 0 false] = .ok w ∧
      LifeCycle w ∧
      ∀ op, op.Allowed w → ∀ fuel, w.files.size ≤ fuel →
        ∃ w', call (emitTo abortOthers fuel) fuel w op = .ok w' ∧ Settles w op w' := by
  apply reentrant_calls abortOthers polite_abortOthers
  refine ⟨fun _ => by decide, ?_⟩
  rintro _ ⟨⟩
  exact ⟨fun _ => by decide, fun _ _ => trivial⟩

/-! ## `abortAll` in a handler -/

/-- Once the first download has been aborted, a handler that calls `abortAll` aborts it
over and over. -/
theorem emitTo_abortAll (fuel : ℕ) {w : World} {e : Event} {u : Bytes} {p : Ptr}
    {ds : DataStruct} (hf : OrderedMap.first w.files = some (u, p)) (hp : w.heap p = some ds)
    (hh : ds.handle = none) :
    emitTo (fun _ => [.abortAll]) fuel e w = .error .outOfFuel := by
  induction fuel generalizing w e ds with
  | zero => rfl
  | succ fuel ih =>
      have hf' : OrderedMap.first (w.log e).files = some (u, p) := hf
      have hrelease : releaseTransfer p (w.log e) =
          .ok ((w.log e).store p { ds with fp := none }) := by
        have hp' : (w.log e).heap p = some ds := hp
        simp only [releaseTransfer, World.deref_eq hp', ok_bind, hh]
      have habort : abortAll (emitTo (fun _ => [.abortAll]) fuel) fuel (w.log e) =
          .error .outOfFuel := by
        cases fuel with
        | zero => simp only [abortAll, hf']
        | succ n =>
            have hheap : ((w.log e).store p { ds with fp := none }).heap p =
                some { ds with fp := none } := Function.update_self ..
            simp only [abortAll, hf', abortFirst, abortDataStruct, hrelease, ok_bind,
              World.deref_eq hheap]
            rw [ih (w := (w.log e).store p { ds with fp := none }) hf hheap hh]
            rfl
      simp only [emitTo, run_cons, runCall, habort]
      rfl

/-- With such a handler aborting the first download never returns. -/
theorem abortDownload_abortAll {w : World} (h : Idle w) {u : Bytes} {p : Ptr}
    (hf : OrderedMap.first w.files = some (u, p)) (fuel : ℕ) :
    abortDownload (emitTo (fun _ => [.abortAll]) fuel) u w = .error .outOfFuel := by
  have hu := OrderedMap.getElem?_of_first hf
  obtain ⟨ds, hp, -⟩ := h.inv.registry.entry u p hu
  have hheap : (w.withdrawAborted p ds).heap p = some ds.aborted := by
    simp [World.withdrawAborted, World.withdraw]
  simp only [abortDownload, hu, abortDataStruct_eq h.inv.registry hp (by simp)]
  rw [emitTo_abortAll (w := w.withdrawAborted p ds) fuel hf hheap rfl]
  rfl

theorem reentrant_abortAll :
    Permitted (stepWith fun _ => [.abortAll]) Op.Allowed (World.init 1 .empty)
        [.queueFile (ascii "d") (ascii "a") (ascii "http://h/a") 0 false] ∧
      ∃ w, run (stepWith fun _ => [.abortAll]) (World.init 1 .empty)
          [.queueFile (ascii "d") (ascii "a") (ascii "http://h/a") 0 false] = .ok w ∧
        ∀ fuel, call (emitTo (fun _ => [.abortAll]) fuel) fuel w
          (.abortDownload (ascii "http://h/a")) = .error .outOfFuel := by
  have hallowed : Op.Allowed (World.init 1 .empty)
      (.queueFile (ascii "d") (ascii "a") (ascii "http://h/a") 0 false) := fun _ => by decide
  obtain ⟨w, hw, hidle⟩ := keeps_idle _ _ (idle_init 1 .empty) hallowed
  have hrun : run (stepWith fun _ => [.abortAll]) (World.init 1 .empty)
      [.queueFile (ascii "d") (ascii "a") (ascii "http://h/a") 0 false] = .ok w := hw
  have hfirst : (step (World.init 1 .empty)
      (.queueFile (ascii "d") (ascii "a") (ascii "http://h/a") 0 false)).map
        (fun w => OrderedMap.first w.files) = .ok (some (ascii "http://h/a", 0)) := rfl
  rw [hw] at hfirst
  refine ⟨⟨hallowed, fun _ _ => trivial⟩, w, hrun, fun fuel => ?_⟩
  exact abortDownload_abortAll hidle (Except.ok.inj hfirst) fuel

end LibWfut
