import LibWfut.Verification.Io.Quiet

/-! # The life cycle of a download

From its acceptance to its one signal a download is registered under its own URL and
either waits or is attached to curl. -/

namespace LibWfut

open List Machine

/-! ## What one operation ends -/

/-- The live downloads an operation is about. -/
def Op.Concerns (w : World) (p : Ptr) : Op → Prop
  | .queueFile .. => False
  | .poll r => p ∈ r.done.map CurlMsg.handle
  | .abortDownload url => w.files[url]? = some p
  | .abortAll => True
  | .setMaxDownloads _ => False

/-- An operation ends the downloads it concerns and no other. -/
structure Isolated (w : World) (op : Op) (w' : World) : Prop where
  kept : ∀ p, w.heap p ≠ none → ¬op.Concerns w p →
    w'.heap p ≠ none ∧ signalsOf p w'.trace = []
  ended : ∀ p, w.heap p ≠ none → op.Concerns w p → w'.heap p = none
  abortAll : op = .abortAll → ∀ p, w'.heap p = none

section Ends

variable {w w' : World}

theorem queueFile_heap (h : Idle w) {path filename url : Bytes} {crc : ULong} {exec : Bool}
    {p : Ptr} (hp : w.heap p ≠ none) :
    (queueFile path filename url crc exec w).2.heap p = w.heap p := by
  by_cases hu : w.files[url]? = none
  · rw [queueFile_state hu]
    exact Function.update_of_ne (Nat.ne_of_lt (h.inv.registry.lt_fresh hp)) ..
  · rw [queueFile_refused hu]

theorem abortAll_step (h : Idle w) (hs : step w .abortAll = .ok w') (p : Ptr) :
    w'.heap p = none := by
  obtain ⟨w₁, hw₁, -, -, hnone⟩ := abortAll_ok h.inv (delivers_signal _) le_rfl
    h.inv.registry.size_files.ge
  simp only [step, call, hw₁, Except.ok.injEq] at hs
  rw [← hs]
  exact hnone p

/-- Which downloads an allowed operation leaves alive. -/
theorem step_heap (h : Idle w) {op : Op} (hop : op.Allowed w) (hs : step w op = .ok w')
    {p : Ptr} (hp : w.heap p ≠ none) : w'.heap p = none ↔ op.Concerns w p := by
  cases op with
  | queueFile path filename url crc exec =>
      simp only [step, call, Except.ok.injEq] at hs
      rw [← hs, queueFile_heap h hp]
      simp [Op.Concerns, hp]
  | poll r =>
      obtain ⟨n, w₁, hw₁, hpoll⟩ := poll_signal h hop
      simp only [step, call, hw₁, Except.map, Except.ok.injEq] at hs
      rw [← hs, hpoll.heap]
      simp [Op.Concerns, hp]
  | abortDownload url =>
      simp only [step, call] at hs
      cases hu : w.files[url]? with
      | none =>
          rw [abortDownload_absent hu, Except.ok.injEq] at hs
          rw [← hs]
          simp [Op.Concerns, hu, hp]
      | some q =>
          obtain ⟨ds, hq, -⟩ := h.inv.registry.entry url q hu
          rw [abortDownload_signal h.inv hu hq, Except.ok.injEq] at hs
          rw [← hs, World.heap_aborted]
          by_cases hpq : p = q
          · simp [Op.Concerns, hu, hpq]
          · simp [Op.Concerns, hu, hp, hpq, Ne.symm hpq]
  | abortAll => simp [Op.Concerns, abortAll_step h hs]
  | setMaxDownloads i =>
      simp only [step, call, Except.ok.injEq] at hs
      rw [← hs]
      simp [Op.Concerns, setMaxDownloads, hp]

theorem isolated (h : Idle w) {op : Op} (hop : op.Allowed w) (hs : step w op = .ok w') :
    Isolated w op w' := by
  obtain ⟨w₁, hw₁, hidle⟩ := keeps_idle w op h hop
  rw [hs, Except.ok.injEq] at hw₁
  subst hw₁
  constructor
  case kept =>
    intro p hp hc
    have hlive : w'.heap p ≠ none := fun hn => hc ((step_heap h hop hs hp).mp hn)
    exact ⟨hlive, hidle.inv.history.quiet p hlive (by simp)⟩
  case ended => exact fun p hp hc => (step_heap h hop hs hp).mpr hc
  case abortAll =>
    rintro rfl p
    exact abortAll_step h hs p

end Ends

/-! ## The life cycle -/

/-- What holds between any two calls. -/
structure LifeCycle (w : World) : Prop where
  registered : ∀ u p, w.files[u]? = some p ↔ ∃ ds, w.heap p = some ds ∧ ds.url = u
  handles : ∀ h, h ∈ w.handles ++ w.attached ↔
    ∃ p ds, w.heap p = some ds ∧ ds.handle = some h
  split : (w.handles ++ w.attached).Nodup
  accepted : ∀ p ds, w.heap p = some ds →
    ∃ raw, .queued p raw ds.url ds.filename ∈ w.trace
  live : ∀ p raw u f, .queued p raw u f ∈ w.trace → w.heap p ≠ none →
    signalsOf p w.trace = []
  ended : ∀ p raw u f, .queued p raw u f ∈ w.trace → w.heap p = none →
    SignalledOnce p u f w.trace

theorem Idle.lifeCycle {w : World} (h : Idle w) : LifeCycle w := by
  have hr := h.inv.registry
  constructor
  case registered =>
    intro u p
    constructor
    · exact hr.entry u p
    · rintro ⟨ds, hp, rfl⟩
      exact hr.registered p ds hp
  case handles =>
    intro k
    constructor
    · intro hk
      obtain ⟨ds, -, hp, -, hh, -⟩ := hr.easy_of_pool hk
      exact ⟨k, ds, hp, hh⟩
    · rintro ⟨p, ds, hp, hk⟩
      have hh := (hr.own_handle hp (by simp)).1
      rw [hk, Option.some.injEq] at hh
      subst hh
      exact hr.mem_pool hp (by simp)
  case split => exact hr.nodup
  case accepted =>
    intro p ds hp
    obtain ⟨raw, hm, -⟩ := h.inv.history.accepted p ds hp
    exact ⟨raw, hm⟩
  case live => exact fun p _ _ _ _ hp => h.inv.history.quiet p hp (by simp)
  case ended => exact fun p raw u f hm hp => h.inv.history.told p raw u f hm (.inl hp)

/-- Every run ends without a fault with exactly one outcome for each download that is
over, and its next operation touches only the downloads it is about. -/
theorem life_cycle (n : Int32) (fs : FileTree.FileSystem) (ops : List Op)
    (h : Permitted step Op.Allowed (World.init n fs) ops) :
    ∃ w, run step (World.init n fs) ops = .ok w ∧ LifeCycle w ∧
      ∀ op, op.Allowed w → ∃ w', step w op = .ok w' ∧ Isolated w op w' := by
  obtain ⟨w, hw, hidle⟩ := keeps_idle.run_ok (idle_init n fs) h
  refine ⟨w, hw, hidle.lifeCycle, ?_⟩
  intro op hop
  obtain ⟨w', hw', -⟩ := keeps_idle w op hidle hop
  exact ⟨w', hw', isolated hidle hop hw'⟩

theorem life_cycle_of_completed :
    ∃ w, run step (World.init 1 .empty) [.queueFile (ascii "d") (ascii "f") (ascii "http://h/f") 0
        false, .poll { running := 0 }, .poll { running := 0, done := [{ handle := 0 }] }] = .ok w ∧
      LifeCycle w ∧ ∀ op, op.Allowed w → ∃ w', step w op = .ok w' ∧ Isolated w op w' := by
  apply life_cycle
  refine ⟨fun _ => by decide, ?_⟩
  rintro _ ⟨⟩
  refine ⟨⟨by simp, by simp, by simp⟩, ?_⟩
  rintro _ ⟨⟩
  refine ⟨⟨by simp, ?_, by simp⟩, fun _ _ => trivial⟩
  decide

end LibWfut
