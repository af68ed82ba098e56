import LibWfut.Verification.Io.LifeCycle

/-! # Scheduling

Waiting downloads are started in the order of their acceptance, as far as the limit
allows, and the result of `poll` is the number of transfers in curl. -/

namespace LibWfut

open List Machine

/-! ## What curl reports -/

/-- The attached transfers that have not finished. -/
def stillRunning (w : World) (r : PollReport) : List Handle :=
  w.attached.filter (· ∉ r.done.map CurlMsg.handle)

/-- The count of `curl_multi_perform`. -/
def PollReport.Counts (w : World) (r : PollReport) : Prop :=
  r.running.toInt = (stillRunning w r).length

instance (w : World) (r : PollReport) : Decidable (r.Counts w) :=
  inferInstanceAs (Decidable (_ = _))

/-- Allowed operations with a true count. -/
def Op.Counted (w : World) (op : Op) : Prop :=
  op.Allowed w ∧
    match op with
    | .poll r => r.Counts w
    | _ => True

theorem Op.Counted.allowed {w : World} {op : Op} (h : op.Counted w) : op.Allowed w := h.1

/-! ## First come, first served -/

/-- The waiting downloads stand in the order of their acceptance, after everything that
curl has. -/
structure Fifo (w : World) : Prop where
  once : (accepted w.trace).Nodup
  waiting : w.handles <+ accepted w.trace
  earlier : ∀ p ∈ w.attached, ∀ q ∈ w.handles, [p, q] <+ accepted w.trace

theorem fifo_init (n : Int32) (fs : FileTree.FileSystem) : Fifo (World.init n fs) := by
  constructor <;> simp [World.init, accepted]

section Step

variable {w w' : World}

/-- An operation adds one download at the end of the queue, or starts the first `k` and
may end some. -/
theorem queue_cases (h : Idle w) {op : Op} (hop : op.Allowed w) (hs : step w op = .ok w') :
    (w'.handles = w.handles ++ [w.fresh] ∧ w'.attached = w.attached ∧
      w'.fresh = w.fresh + 1 ∧ accepted w'.trace = accepted w.trace ++ [w.fresh]) ∨
    ∃ k, w'.handles <+ w.handles.drop k ∧ w'.attached <+ w.attached ++ w.handles.take k ∧
      w'.fresh = w.fresh ∧ accepted w'.trace = accepted w.trace := by
  cases op with
  | queueFile path filename url crc exec =>
      simp only [step, call, Except.ok.injEq] at hs
      subst hs
      by_cases hu : w.files[url]? = none
      · rw [queueFile_state hu]
        exact .inl ⟨rfl, rfl, rfl, accepted_append ..⟩
      · rw [queueFile_refused hu]
        exact .inr ⟨0, by simp⟩
  | poll r =>
      obtain ⟨n, w₁, hw₁, hpoll⟩ := poll_signal h hop
      simp only [step, call, hw₁, Except.map, Except.ok.injEq] at hs
      subst hs
      refine .inr ⟨capacity w r, ?_, ?_, hpoll.fresh, hpoll.accepted⟩
      · rw [hpoll.handles]
      · rw [hpoll.attached]
        exact List.filter_sublist.append_right _
  | abortDownload url =>
      simp only [step, call] at hs
      cases hu : w.files[url]? with
      | none =>
          rw [abortDownload_absent hu, Except.ok.injEq] at hs
          subst hs
          exact .inr ⟨0, by simp⟩
      | some p =>
          obtain ⟨w₁, hw₁, -, hshr, -⟩ :=
            abortDownload_ok h.inv (delivers_signal _) le_rfl hu (by simp)
          rw [hw₁, Except.ok.injEq] at hs
          subst hs
          exact .inr ⟨0, by simpa using hshr.handles, by simpa using hshr.attached, hshr.fresh,
            hshr.accepted⟩
  | abortAll =>
      obtain ⟨w₁, hw₁, -, hshr, -⟩ := abortAll_ok h.inv (delivers_signal _) le_rfl
        h.inv.registry.size_files.ge
      simp only [step, call, hw₁, Except.ok.injEq] at hs
      subst hs
      exact .inr ⟨0, by simpa using hshr.handles, by simpa using hshr.attached, hshr.fresh,
        hshr.accepted⟩
  | setMaxDownloads i =>
      simp only [step, call, Except.ok.injEq] at hs
      subst hs
      exact .inr ⟨0, by simp [setMaxDownloads]⟩

theorem Idle.mem_accepted (h : Idle w) {p : Ptr} (hp : w.heap p ≠ none) :
    p ∈ accepted w.trace := by
  obtain ⟨ds, hds⟩ := Option.ne_none_iff_exists'.mp hp
  obtain ⟨raw, hm, -⟩ := h.inv.history.accepted p ds hds
  exact LibWfut.mem_accepted.mpr ⟨_, _, _, hm⟩

theorem Idle.lt_fresh_of_accepted (h : Idle w) {p : Ptr} (hp : p ∈ accepted w.trace) :
    p < w.fresh := by
  obtain ⟨r, u, f, hm⟩ := LibWfut.mem_accepted.mp hp
  exact h.inv.history.born p r u f hm

theorem Fifo.step (h : Idle w) (hf : Fifo w) {op : Op} (hop : op.Allowed w)
    (hs : step w op = .ok w') : Fifo w' := by
  rcases queue_cases h hop hs with ⟨hw, ha, -, hacc⟩ | ⟨k, hw, ha, -, hacc⟩
  · constructor
    case once =>
      rw [hacc]
      refine hf.once.append (List.nodup_singleton _) ?_
      simp only [disjoint_singleton]
      exact fun hm => lt_irrefl _ (h.lt_fresh_of_accepted hm)
    case waiting =>
      rw [hw, hacc]
      exact hf.waiting.append (.refl _)
    case earlier =>
      intro p hp q hq
      rw [ha] at hp
      rw [hw] at hq
      rw [hacc]
      rcases List.mem_append.mp hq with hq | hq
      · exact (hf.earlier p hp q hq).trans (List.sublist_append_left _ _)
      · have hlive := ((h.inv.registry.pool p).mp (List.mem_append_right _ hp)).1
        rw [List.mem_singleton.mp hq]
        exact (List.singleton_sublist.mpr (h.mem_accepted hlive)).append (.refl [w.fresh])
  · constructor
    case once =>
      rw [hacc]
      exact hf.once
    case waiting =>
      rw [hacc]
      exact (hw.trans (List.drop_sublist _ _)).trans hf.waiting
    case earlier =>
      intro p hp q hq
      rw [hacc]
      have hq' := hw.subset hq
      rcases List.mem_append.mp (ha.subset hp) with hp | hp
      · exact hf.earlier p hp q (List.mem_of_mem_drop hq')
      · have hpq : [p] ++ [q] <+ w.handles.take k ++ w.handles.drop k :=
          (List.singleton_sublist.mpr hp).append (List.singleton_sublist.mpr hq')
        rw [List.take_append_drop] at hpq
        exact hpq.trans hf.waiting

/-- What has left the queue never waits again. -/
theorem not_waiting_step (h : Idle w) {op : Op} (hop : op.Allowed w)
    (hs : step w op = .ok w') {p : Ptr} (hp : p ∈ accepted w.trace) (hw : p ∉ w.handles) :
    p ∈ accepted w'.trace ∧ p ∉ w'.handles := by
  rcases queue_cases h hop hs with ⟨hw', -, -, hacc⟩ | ⟨k, hw', -, -, hacc⟩
  · rw [hw', hacc]
    have hne := Nat.ne_of_lt (h.lt_fresh_of_accepted hp)
    simp [hp, hw, hne]
  · rw [hacc]
    exact ⟨hp, fun hm => hw (List.mem_of_mem_drop (hw'.subset hm))⟩

end Step

/-- Allowed operations keep the order. -/
theorem keeps_fifo : Keeps step Op.Counted (fun w => Idle w ∧ Fifo w) := by
  rintro w op ⟨hidle, hf⟩ hop
  obtain ⟨w', hw', hidle'⟩ := keeps_idle w op hidle hop.allowed
  exact ⟨w', hw', hidle', hf.step hidle hop.allowed hw'⟩

theorem not_waiting_run {w : World} {ops : List Op} (h : Idle w)
    (hp : Permitted step Op.Counted w ops) :
    ∃ w', run step w ops = .ok w' ∧
      ∀ p ∈ accepted w.trace, p ∉ w.handles → p ∉ w'.handles := by
  induction ops generalizing w with
  | nil => exact ⟨w, rfl, fun _ _ hw => hw⟩
  | cons op ops ih =>
      obtain ⟨w₁, hw₁, hidle₁⟩ := keeps_idle w op h hp.1.allowed
      obtain ⟨w', hw', hstay⟩ := ih hidle₁ (hp.2 w₁ hw₁)
      refine ⟨w', (run_cons_of_ok step hw₁ ops).trans hw', ?_⟩
      intro p hacc hout
      obtain ⟨hacc₁, hout₁⟩ := not_waiting_step h hp.1.allowed hw₁ hacc hout
      exact hstay p hacc₁ hout₁

/-! ## The free capacity -/

section Capacity

variable {w : World} {r : PollReport}

theorem capacity_of_le (hr : r.Counts w)
    (hle : -2 ^ 31 ≤ w.numToProcess.toInt - (stillRunning w r).length) :
    capacity w r = (w.numToProcess.toInt - (stillRunning w r).length).toNat := by
  have hlt := w.numToProcess.toInt_lt
  rw [capacity, Int32.toInt_sub, hr, Int.bmod_eq_of_le]
  · exact hle
  · omega

/-- Below the range of `int` the difference wraps to a positive number. -/
theorem capacity_pos_of_lt (hr : r.Counts w)
    (hlt : w.numToProcess.toInt - (stillRunning w r).length < -2 ^ 31) :
    0 < capacity w r := by
  have hle := w.numToProcess.le_toInt
  have hrun := r.running.toInt_lt
  rw [hr] at hrun
  rw [capacity, Int32.toInt_sub, hr, Int.bmod_def]
  split <;> omega

end Capacity

/-- One poll starts the `k` downloads waiting longest, as many as the limit leaves room
for. -/
structure Starts (w : World) (r : PollReport) (k : ℕ) (w' : World) : Prop where
  number : (k : ℤ) = min (w.handles.length : ℤ)
    (max 0 (w.numToProcess.toInt - (stillRunning w r).length))
  attached : w'.attached = stillRunning w r ++ w.handles.take k
  handles : w'.handles = w.handles.drop k
  bound : (w'.attached.length : ℤ) ≤ max ((stillRunning w r).length : ℤ) w.numToProcess.toInt

section Starts

variable {w w' : World} {r : PollReport} {n : Int32}

theorem Polled.starts_of_le (h : Polled w r n w') (hr : r.Counts w)
    (hle : -2 ^ 31 ≤ w.numToProcess.toInt - (stillRunning w r).length) :
    Starts w r (min (capacity w r) w.handles.length) w' := by
  have hcap := capacity_of_le hr hle
  have htake : w.handles.take (min (capacity w r) w.handles.length) =
      w.handles.take (capacity w r) := by
    rw [List.take_eq_take_iff]
    omega
  have hdrop : w.handles.drop (min (capacity w r) w.handles.length) =
      w.handles.drop (capacity w r) := by
    rw [List.drop_eq_drop_iff]
    omega
  constructor
  case number => omega
  case attached =>
    rw [htake]
    exact h.attached
  case handles =>
    rw [hdrop]
    exact h.handles
  case bound =>
    have hlen : w'.attached.length =
        (stillRunning w r).length + min (capacity w r) w.handles.length := by
      rw [h.attached, List.length_append, List.length_take]
      rfl
    omega

theorem Polled.starts_of_nil (h : Polled w r n w') (hw : w.handles = []) :
    Starts w r 0 w' := by
  have hatt : w'.attached = stillRunning w r := by
    rw [h.attached, hw, List.take_nil, List.append_nil]
    rfl
  constructor
  case number =>
    rw [hw, List.length_nil]
    omega
  case attached => simpa using hatt
  case handles => rw [h.handles, hw, List.drop_nil, List.drop_nil]
  case bound =>
    rw [hatt]
    omega

/-- When the difference wraps, a poll starts downloads that the limit forbids. -/
theorem Polled.not_starts (h : Polled w r n w') (hr : r.Counts w)
    (hlt : w.numToProcess.toInt - (stillRunning w r).length < -2 ^ 31)
    (hw : w.handles ≠ []) (k : ℕ) : ¬Starts w r k w' := by
  intro hs
  have hpos := capacity_pos_of_lt hr hlt
  have hlen := List.length_pos_iff.mpr hw
  have hk : k = 0 := by
    have := hs.number
    omega
  have hsame := congrArg List.length (hs.handles.symm.trans h.handles)
  rw [hk, List.drop_zero, List.length_drop] at hsame
  omega

end Starts

/-- In every state a run reaches, the waiting downloads are in the order of their
acceptance, one that was started or aborted never waits again, and a poll starts what
the limit leaves room for exactly when the difference of limit and count is an `int`. -/
theorem schedule (n : Int32) (fs : FileTree.FileSystem) (ops : List Op)
    (h : Permitted step Op.Counted (World.init n fs) ops) :
    ∃ w, run step (World.init n fs) ops = .ok w ∧ Fifo w ∧
      (∀ ops', Permitted step Op.Counted w ops' → ∃ w', run step w ops' = .ok w' ∧
        ∀ p ∈ accepted w.trace, p ∉ w.handles → p ∉ w'.handles) ∧
      ∀ r, r.Delivered w → r.Counts w → ∃ k w', poll signal r w = .ok (k, w') ∧
        ((∃ k, Starts w r k w') ↔
          -2 ^ 31 ≤ w.numToProcess.toInt - (stillRunning w r).length ∨ w.handles = []) := by
  obtain ⟨w, hw, hidle, hf⟩ := keeps_fifo.run_ok ⟨idle_init n fs, fifo_init n fs⟩ h
  refine ⟨w, hw, hf, fun ops' hops => not_waiting_run hidle hops, ?_⟩
  intro r hd hr
  obtain ⟨k, w', hw', hpoll⟩ := poll_signal hidle hd
  refine ⟨k, w', hw', ?_⟩
  constructor
  · rintro ⟨k, hs⟩
    by_contra hno
    obtain ⟨hlt, hne⟩ := not_or.mp hno
    exact hpoll.not_starts hr (Int.not_le.mp hlt) hne k hs
  · rintro (hle | hnil)
    · exact ⟨_, hpoll.starts_of_le hr hle⟩
    · exact ⟨_, hpoll.starts_of_nil hnil⟩

theorem schedule_one_waiting :
    ∃ w, run step (World.init 1 .empty)
        [.queueFile (ascii "d") (ascii "a") (ascii "http://h/a") 0 false] = .ok w ∧ Fifo w ∧
      (∀ ops', Permitted step Op.Counted w ops' → ∃ w', run step w ops' = .ok w' ∧
        ∀ p ∈ accepted w.trace, p ∉ w.handles → p ∉ w'.handles) ∧
      ∀ r, r.Delivered w → r.Counts w → ∃ k w', poll signal r w = .ok (k, w') ∧
        ((∃ k, Starts w r k w') ↔
          -2 ^ 31 ≤ w.numToProcess.toInt - (stillRunning w r).length ∨ w.handles = []) := by
  apply schedule
  exact ⟨⟨fun _ => by decide, trivial⟩, fun _ _ => trivial⟩

/-- Two downloads, the first of which runs when the limit becomes the least `int`. -/
def leastLimitRun : List Op :=
  [.queueFile (ascii "d") (ascii "a") (ascii "http://h/a") 0 false,
    .poll { running := 0 },
    .queueFile (ascii "d") (ascii "b") (ascii "http://h/b") 0 false,
    .setMaxDownloads (-2147483648)]

theorem leastLimitRun_permitted :
    Permitted step Op.Counted (World.init 1 .empty) leastLimitRun := by
  refine ⟨⟨fun _ => by decide, trivial⟩, ?_⟩
  rintro _ ⟨⟩
  refine ⟨⟨⟨by simp, by simp, by simp⟩, (by decide : PollReport.Counts _ _)⟩, ?_⟩
  rintro _ ⟨⟩
  exact ⟨⟨fun _ => by decide, trivial⟩, fun _ _ => ⟨⟨trivial, trivial⟩, fun _ _ => trivial⟩⟩

/-- With the least `int` as limit and one transfer running, a poll starts another. -/
theorem schedule_least_limit :
    Permitted step Op.Counted (World.init 1 .empty) leastLimitRun ∧
      ∃ w, run step (World.init 1 .empty) leastLimitRun = .ok w ∧
        PollReport.Delivered w { running := 1 } ∧ PollReport.Counts w { running := 1 } ∧
        ∃ k w', poll signal { running := 1 } w = .ok (k, w') ∧
          ¬∃ k, Starts w { running := 1 } k w' := by
  obtain ⟨w, hw, hidle, -⟩ :=
    keeps_fifo.run_ok ⟨idle_init _ _, fifo_init _ _⟩ leastLimitRun_permitted
  have hdel : PollReport.Delivered w { running := 1 } := ⟨by simp, by simp, by simp⟩
  obtain ⟨k, w', hw', hpoll⟩ := poll_signal hidle hdel
  have hfacts : (run step (World.init 1 .empty) leastLimitRun).map
      (fun w => (w.handles, w.attached, w.numToProcess)) = .ok ([1], [0], -2147483648) := rfl
  simp only [hw, Except.map, Except.ok.injEq, Prod.mk.injEq] at hfacts
  obtain ⟨hhandles, hattached, hlimit⟩ := hfacts
  have hrun : stillRunning w { running := 1 } = [0] := by simp [stillRunning, hattached]
  have hcount : PollReport.Counts w { running := 1 } := by
    rw [PollReport.Counts, hrun]
    rfl
  refine ⟨leastLimitRun_permitted, w, hw, hdel, hcount, k, w', hw', ?_⟩
  rintro ⟨k, hs⟩
  refine hpoll.not_starts hcount ?_ (by simp [hhandles]) k hs
  rw [hrun, hlimit]
  decide

/-! ## The result of `poll` -/

/-- Counted operations that keep the limit positive. -/
def Op.Limited (w : World) (op : Op) : Prop :=
  op.Counted w ∧
    match op with
    | .setMaxDownloads i => 1 ≤ i.toInt
    | _ => True

theorem numToProcess_step {w w' : World} (h : Idle w) {op : Op} (hop : op.Limited w)
    (hn : 1 ≤ w.numToProcess.toInt) (hs : step w op = .ok w') :
    1 ≤ w'.numToProcess.toInt := by
  by_cases hset : ∀ i, op ≠ .setMaxDownloads i
  · rw [numToProcess_eq h hop.1.allowed hset hs]
    exact hn
  · push Not at hset
    obtain ⟨i, rfl⟩ := hset
    simp only [step, call, Except.ok.injEq] at hs
    rw [← hs]
    exact hop.2

theorem keeps_limited :
    Keeps step Op.Limited (fun w => Idle w ∧ 1 ≤ w.numToProcess.toInt) := by
  rintro w op ⟨hidle, hn⟩ hop
  obtain ⟨w', hw', hidle'⟩ := keeps_idle w op hidle hop.1.allowed
  exact ⟨w', hw', hidle', numToProcess_step hidle hop hn hw'⟩

section Result

variable {w w' : World} {r : PollReport} {n : Int32}

theorem Polled.result_eq (h : Polled w r n w') (hr : r.Counts w)
    (hn : 1 ≤ w.numToProcess.toInt) : n.toInt = w'.attached.length := by
  have hrun := r.running.toInt_lt
  have hlim := w.numToProcess.toInt_lt
  rw [hr] at hrun
  have hcap := capacity_of_le hr (by omega)
  have hlen : w'.attached.length =
      (stillRunning w r).length + min (capacity w r) w.handles.length := by
    rw [h.attached, List.length_append, List.length_take]
    rfl
  have hmin : (Int32.ofNat (min (capacity w r) w.handles.length)).toInt =
      (min (capacity w r) w.handles.length : ℕ) := by
    rw [Int32.toInt_ofNat', Int.bmod_eq_of_le]
    · simp only [Int32.size]
      omega
    · simp only [Int32.size]
      omega
  rw [h.result, Int32.toInt_add, hr, hmin, Int.bmod_eq_of_le]
  · omega
  · omega
  · omega

/-- A poll that leaves nothing in curl leaves nothing waiting either. -/
theorem Polled.handles_of_attached (h : Polled w r n w') (hr : r.Counts w)
    (hn : 1 ≤ w.numToProcess.toInt) (ha : w'.attached = []) : w'.handles = [] := by
  have hatt := h.attached
  rw [ha] at hatt
  obtain ⟨hrun, htake⟩ := List.append_eq_nil_iff.mp hatt.symm
  have hrun' : stillRunning w r = [] := hrun
  have hcap := capacity_of_le hr (by rw [hrun', List.length_nil]; omega)
  rw [hrun', List.length_nil] at hcap
  have hhandles : w.handles = [] := by
    rcases List.take_eq_nil_iff.mp htake with hzero | hnil
    · omega
    · exact hnil
  rw [h.handles, hhandles, List.drop_nil]

end Result

/-- Nothing in the queue and in curl means that nothing is registered. -/
theorem Registry.files_eq_empty {w : World} (h : Registry [] w)
    (hpool : w.handles ++ w.attached = []) : w.files = ∅ := by
  have hsize := h.size_files
  rw [World.pending, ← List.length_append, hpool, List.length_nil] at hsize
  exact Std.ExtTreeMap.eq_empty_iff_size_eq_zero.mpr hsize

/-- In every state a run with a positive limit reaches, `poll` returns the number of
transfers in curl, and zero only when every accepted download has had its signal. -/
theorem poll_result (n : Int32) (hn : 1 ≤ n.toInt) (fs : FileTree.FileSystem) (ops : List Op)
    (h : Permitted step Op.Limited (World.init n fs) ops) :
    ∃ w, run step (World.init n fs) ops = .ok w ∧
      ∀ r, r.Delivered w → r.Counts w → ∃ k w', poll signal r w = .ok (k, w') ∧
        k.toInt = w'.attached.length ∧
        (k = 0 → w'.files = ∅ ∧ w'.handles = [] ∧
          ∀ p raw u f, .queued p raw u f ∈ w'.trace → SignalledOnce p u f w'.trace) := by
  obtain ⟨w, hw, hidle, hlim⟩ := keeps_limited.run_ok ⟨idle_init n fs, hn⟩ h
  refine ⟨w, hw, ?_⟩
  intro r hd hr
  obtain ⟨k, w', hw', hpoll⟩ := poll_signal hidle hd
  have hres := hpoll.result_eq hr hlim
  refine ⟨k, w', hw', hres, ?_⟩
  rintro rfl
  have hatt : w'.attached = [] := List.length_eq_zero_iff.mp (by simpa using hres.symm)
  have hhandles := hpoll.handles_of_attached hr hlim hatt
  have hpool : w'.handles ++ w'.attached = [] := by rw [hhandles, hatt, List.append_nil]
  have hinv := hpoll.idle.inv
  refine ⟨hinv.registry.files_eq_empty hpool, hhandles, ?_⟩
  intro p raw u f hm
  refine hinv.history.told p raw u f hm (.inl ?_)
  by_contra hlive
  have hmem := (hinv.registry.pool p).mpr ⟨hlive, by simp⟩
  rw [hpool] at hmem
  simp at hmem

theorem poll_result_one_waiting :
    ∃ w, run step (World.init 1 .empty)
        [.queueFile (ascii "d") (ascii "a") (ascii "http://h/a") 0 false] = .ok w ∧
      ∀ r, r.Delivered w → r.Counts w → ∃ k w', poll signal r w = .ok (k, w') ∧
        k.toInt = w'.attached.length ∧
        (k = 0 → w'.files = ∅ ∧ w'.handles = [] ∧
          ∀ p raw u f, .queued p raw u f ∈ w'.trace → SignalledOnce p u f w'.trace) := by
  apply poll_result 1 (by decide)
  exact ⟨⟨⟨fun _ => by decide, trivial⟩, trivial⟩, fun _ _ => trivial⟩

end LibWfut
