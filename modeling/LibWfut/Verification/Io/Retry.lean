import LibWfut.Verification.Io.Returned

/-! # Queuing a download again from its signal

The entry of a download goes after its signal. What a handler queues under the same key is
refused, or goes with it. -/

namespace LibWfut

open Encoder Machine Relation

/-! ## What a call does not add -/

/-- Nothing registered afterwards is new, although downloads may have been queued. -/
structure Loses (w w' : World) : Prop where
  files : ∀ (u : Bytes) (q : Ptr), w'.files[u]? = some q → w.files[u]? = some q
  fresh : w.fresh ≤ w'.fresh
  trace : ∃ new, w'.trace = w.trace ++ new ∧ ∀ q r u f, .queued q r u f ∈ new → w.fresh ≤ q

section Loses

variable {w w' w'' : World} {emit : Emit} {p : Ptr} {ds : DataStruct} {e : Event}

theorem Loses.refl (w : World) : Loses w w :=
  ⟨fun _ _ h => h, le_rfl, [], by simp⟩

theorem Loses.trans (h : Loses w w') (h' : Loses w' w'') : Loses w w'' := by
  constructor
  case files => exact fun u q hq => h.files u q (h'.files u q hq)
  case fresh => exact h.fresh.trans h'.fresh
  case trace =>
    obtain ⟨new, hnew, hge⟩ := h.trace
    obtain ⟨new', hnew', hge'⟩ := h'.trace
    refine ⟨new ++ new', by rw [hnew', hnew, List.append_assoc], ?_⟩
    intro q r u f hm
    rcases List.mem_append.mp hm with hm | hm
    · exact hge q r u f hm
    · exact h.fresh.trans (hge' q r u f hm)

theorem Shifts.loses (h : Shifts w w') : Loses w w' := by
  refine ⟨fun u q hq => h.files ▸ hq, h.fresh.ge, [], ?_⟩
  rw [h.trace]
  simp

/-- The entry of `p` and whatever its handler put in its place are gone in the end. -/
theorem Retires.loses (ht : Traced w) (hd : Requeues emit) (he : e.signals p = true)
    {fs : FileTree.FileSystem} (h : Retires emit w p ds e fs w') : Loses w w' := by
  obtain ⟨w₁, w₂, hclose, hemit, hdrop⟩ := h
  have ht₁ := ht.closes hclose
  obtain ⟨ds', hjob, hp⟩ := hclose.heap_self
  cases hd e w₁ w₂ hemit with
  | plain fs' =>
      constructor
      case files =>
        intro u q hq
        rw [hdrop.files] at hq
        rw [← hclose.files]
        exact (getElem?_of_erase hq).2
      case fresh => exact (hdrop.fresh.trans hclose.fresh).ge
      case trace =>
        refine ⟨[e], by rw [hdrop.trace, ← hclose.trace]; rfl, ?_⟩
        intro q r u f hm
        exact absurd (List.mem_singleton.mp hm) (Event.ne_queued he)
  | @requeued raw u' f' d known free url handle =>
      have hmem : .queued p raw u' f' ∈ w₁.trace := by
        rw [Event.subject_of_signals he] at known
        simpa [World.log, Event.ne_queued he] using known
      have hkey : d.url = ds.url :=
        url.trans ((ht₁.keyed p raw u' f' ds' hmem hp).symm.trans hjob.url)
      constructor
      case files =>
        intro u q hq
        rw [hdrop.files] at hq
        obtain ⟨hne, hq⟩ := getElem?_of_erase hq
        rw [← hclose.files]
        simp only [World.enqueue, World.log, Std.ExtTreeMap.getElem?_insert] at hq
        split at hq
        · rename_i heq
          exact absurd ((Std.LawfulEqCmp.eq_of_compare heq).symm.trans hkey) hne
        · exact hq
      case fresh =>
        rw [hdrop.fresh, ← hclose.fresh]
        exact Nat.le_succ _
      case trace =>
        refine ⟨[e, .queued w₁.fresh raw d.url d.filename], ?_, ?_⟩
        · rw [hdrop.trace, ← hclose.trace]
          simp [World.enqueue, World.log]
        · intro q r u f hm
          rcases List.mem_cons.mp hm with hm | hm
          · exact absurd hm (Event.ne_queued he)
          · obtain ⟨rfl, -⟩ := Event.queued.inj (List.mem_singleton.mp hm)
            exact hclose.fresh.ge

theorem Move.loses (ht : Traced w) (hd : Requeues emit) (h : Move emit w w') : Loses w w' := by
  cases h with
  | write c hw =>
      obtain ⟨e, ds, -, -, rfl⟩ := performWrite_eq_ok hw
      exact ⟨fun _ _ hq => hq, le_rfl, [], by simp [World.store]⟩
  | shift hs => exact hs.loses
  | finish m hf =>
      obtain ⟨p, ds, hr⟩ := hf
      exact hr.loses ht hd (signals_outcome ..)
  | abort ha =>
      obtain ⟨p, ds, -, hr⟩ := ha
      exact hr.loses ht hd (signals_abortedEvent p ds)

theorem loses_of_moves (ht : Traced w) (hd : Requeues emit)
    (h : ReflTransGen (Move emit) w w') : Loses w w' := by
  induction h with
  | refl => exact .refl w
  | tail hmoves hmove ih => exact ih.trans (hmove.loses (ht.moves hd hmoves) hd)

end Loses

/-! ## What `abortAll` signals -/

section Aborts

variable {w w' : World} {emit : Emit}

theorem Aborts.signalsOf_eq (hd : Requeues emit) (h : Aborts emit w w') {q : Ptr}
    (hq : ∀ u : Bytes, w.files[u]? ≠ some q) : signalsOf q w'.trace = signalsOf q w.trace := by
  obtain ⟨p, ds, hu, w₁, w₂, hclose, hemit, hdrop⟩ := h
  have hqp : q ≠ p := by
    rintro rfl
    exact hq ds.url hu
  have hsilent := signalsOf_singleton_of_not
    (Event.signals_of_ne (signals_abortedEvent p ds) hqp)
  rw [hdrop.trace]
  cases hd _ w₁ w₂ hemit with
  | plain fs =>
      change signalsOf q (w₁.trace ++ [abortedEvent p ds]) = _
      rw [signalsOf_append, hsilent, hclose.trace, List.append_nil]
  | @requeued raw u f d known free url handle =>
      change signalsOf q (w₁.trace ++ [abortedEvent p ds] ++ [_]) = _
      rw [signalsOf_append, signalsOf_append, hsilent, signalsOf_singleton_of_not rfl, hclose.trace,
        List.append_nil, List.append_nil]

/-- Only what is registered when `abortAll` begins gets a signal from it. -/
theorem aborts_signalsOf_eq (ht : Traced w) (hd : Requeues emit)
    (h : ReflTransGen (Aborts emit) w w') {q : Ptr} (hq : ∀ u : Bytes, w.files[u]? ≠ some q) :
    signalsOf q w'.trace = signalsOf q w.trace := by
  induction h with
  | refl => rfl
  | @tail w₁ w₂ haborts habort ih =>
      have hlost := loses_of_moves ht hd (moves_of_aborts haborts)
      have hq₁ : ∀ u : Bytes, w₁.files[u]? ≠ some q := fun u hu => hq u (hlost.files u q hu)
      rw [habort.signalsOf_eq hd hq₁, ih]

end Aborts

/-! ## Runs -/

/-- The operations that send signals. -/
def Op.sendsSignals : Op → Bool
  | .poll _ => true
  | .abortDownload _ => true
  | .abortAll => true
  | .queueFile .. => false
  | .setMaxDownloads _ => false

/-- What a client expects of a download queued again on the signal `e`, when the call `op`
has returned in `w'`: it was accepted, it is registered and waits unless everything was
aborted, and aborting everything from here leaves it with exactly one signal. -/
def Retried (op : Op) (e : Event) (after : List Event) (w' : World) : Prop :=
  ∃ n raw u f, .queued e.subject raw u f ∈ w'.trace ∧ after.head? = some (.queued n raw u f) ∧
    (op = .abortAll ∨ (w'.files[u]? = some n ∧ n ∈ w'.handles)) ∧
    ∃ w'', step w' .abortAll = .ok w'' ∧ SignalledOnce n u f w''.trace

section Run

variable {chooses : World → Event → Bool} {w w' : World}

theorem call_loses {emit : Emit} (ht : Traced w) (hd : Requeues emit) {fuel : ℕ} {op : Op}
    (hop : op.sendsSignals = true) (h : call emit fuel w op = .ok w') : Loses w w' := by
  rcases call_cases hd ht h with ⟨path, filename, url, crc, exec, rfl, -⟩ | hmoves
  · simp [Op.sendsSignals] at hop
  · exact loses_of_moves ht hd hmoves

theorem traced_run {ops : List Op} (ht : Traced w) (h : run (stepRetry chooses) w ops = .ok w') :
    Traced w' := by
  induction ops generalizing w with
  | nil =>
      rw [← Except.ok.inj h]
      exact ht
  | cons op ops ih =>
      obtain ⟨w₁, hw₁, h⟩ := run_cons_eq_ok _ h
      exact ih (ht.call (requeues_retryEmit chooses) hw₁) h

/-- A download queued again on the signal of the old one is never what the client expects:
in no state that any run reaches, for no signal of any call. -/
theorem retry_never (chooses : World → Event → Bool) (n : Int32) (fs : FileTree.FileSystem)
    (ops : List Op) (w : World) (hrun : run (stepRetry chooses) (World.init n fs) ops = .ok w)
    (op : Op) (hop : op.sendsSignals = true) :
    ¬∃ w' before e after, stepRetry chooses w op = .ok w' ∧
      w'.trace = w.trace ++ before ++ e :: after ∧ Retried op e after w' := by
  rintro ⟨w', before, e, after, hs, htrace, q, raw, u, f, -, hhead, hwaits, w'', hs', hone⟩
  have hd := requeues_retryEmit chooses
  have ht := traced_run (traced_init n fs) hrun
  have hlost := call_loses ht hd hop hs
  have hborn : w.fresh ≤ q := by
    obtain ⟨new, hnew, hge⟩ := hlost.trace
    rw [hnew, List.append_assoc, List.append_cancel_left_eq] at htrace
    apply hge q raw u f
    rw [htrace]
    exact List.mem_append_right _ (List.mem_cons_of_mem _ (List.mem_of_mem_head? hhead))
  have hgone : ∀ k : Bytes, w.files[k]? ≠ some q :=
    fun k hk => absurd ((ht.entry k q hk).1) (Nat.not_lt.mpr hborn)
  have hgone' : ∀ k : Bytes, w'.files[k]? ≠ some q := fun k hk => hgone k (hlost.files k q hk)
  rcases hwaits with rfl | ⟨hreg, -⟩
  · have ht' := ht.call hd hs
    have hafter : signalsOf q w'.trace = [] :=
      (aborts_signalsOf_eq ht hd (abortAll_aborts hd ht hs) hgone).trans (ht.silent q hborn)
    have hlast := aborts_signalsOf_eq ht' requeues_signal
      (abortAll_aborts requeues_signal ht' hs') hgone'
    obtain ⟨e', he', -⟩ := hone
    rw [hlast, hafter] at he'
    simp at he'
  · exact hgone' u hreg

end Run

/-- A handler that queues everything again. -/
def always : World → Event → Bool := fun _ _ => true

/-- One download, queued with this URL. -/
def queuedOnce (url : Bytes) : World :=
  (queueFile (ascii "d") (ascii "a") url 0 false (World.init 1 .empty)).2

theorem retry_never_aborted :
    ¬∃ w' before e after, stepRetry always (queuedOnce (ascii "http://h/a b")) .abortAll = .ok w' ∧
      w'.trace = (queuedOnce (ascii "http://h/a b")).trace ++ before ++ e :: after ∧
      Retried .abortAll e after w' :=
  retry_never always 1 .empty
    [.queueFile (ascii "d") (ascii "a") (ascii "http://h/a b") 0 false] _ rfl .abortAll rfl

/-- A URL that is its own encoding is refused. Another one is accepted and loses its entry,
and the message about it erases the end of `m_files`. -/
theorem retry_refused_and_lost :
    (∃ w', stepRetry always (queuedOnce (ascii "http://h/a")) (.abortDownload (ascii "http://h/a"))
        = .ok w' ∧
      w'.trace = (queuedOnce (ascii "http://h/a")).trace ++
        [.failed 0 (ascii "http://h/a") (ascii "a") (ascii "Aborted")] ∧
      ¬Retried (.abortDownload (ascii "http://h/a"))
        (.failed 0 (ascii "http://h/a") (ascii "a") (ascii "Aborted")) [] w') ∧
    ∃ w', stepRetry always (queuedOnce (ascii "http://h/a b"))
        (.abortDownload (ascii "http://h/a%20b")) = .ok w' ∧
      w'.trace = (queuedOnce (ascii "http://h/a b")).trace ++
        [.failed 0 (ascii "http://h/a%20b") (ascii "a") (ascii "Aborted"),
          .queued 1 (ascii "http://h/a b") (ascii "http://h/a%20b") (ascii "a")] ∧
      ¬Retried (.abortDownload (ascii "http://h/a%20b"))
        (.failed 0 (ascii "http://h/a%20b") (ascii "a") (ascii "Aborted"))
        [.queued 1 (ascii "http://h/a b") (ascii "http://h/a%20b") (ascii "a")] w' ∧
      run step w'
        [.poll { running := 0 }, .poll { running := 0, done := [{ handle := 1 }] }] =
          .error .eraseEnd := by
  refine ⟨⟨_, rfl, by decide, ?_⟩, ⟨_, rfl, by decide, ?_, rfl⟩⟩
  · rintro ⟨n, raw, u, f, -, hhead, -⟩
    simp at hhead
  · rintro ⟨n, raw, u, f, -, -, hwaits, -⟩
    rcases hwaits with hall | ⟨hreg, -⟩
    · simp at hall
    · have hnone : (∅ : FileTable)[u]? = some n := hreg
      simp at hnone

end LibWfut
