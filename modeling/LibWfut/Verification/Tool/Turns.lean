import LibWfut.Verification.Tool.Accounting
import LibWfut.Verification.Tool.Independence

/-! # The turns of a run

As far as the tree and the signals go, what `main` does between its lists is a sequence of
turns: each of them handles one message of curl, about one of the updates. -/

namespace LibWfut

open FileTree Machine Relation

/-! ## One message -/

section Message

variable {emit : Emit} {w w' : World} {n : ℕ}

/-- The last message of many. -/
theorem drain_succ_cases (h : drain emit (n + 1) w = .ok w') :
    ∃ v, drain emit n w = .ok v ∧ drain emit 1 v = .ok w' := by
  induction n generalizing w with
  | zero => exact ⟨w, rfl, h⟩
  | succ n ih =>
      unfold drain at h
      split at h
      · rename_i hm
        rw [← Except.ok.inj h]
        exact ⟨w, by simp only [drain, hm], by simp only [drain, hm]⟩
      · rename_i m rest hm
        obtain ⟨v, hv, h⟩ := bind_eq_ok h
        obtain ⟨u, hu, hlast⟩ := ih h
        refine ⟨u, ?_, hlast⟩
        simp only [drain, hm, hv]
        exact hu

/-- A message finds its download, stores its file and sends one signal. -/
theorem handleMessage_cases {m : CurlMsg} (h : handleMessage emit m w = .ok w') :
    ∃ p ds v v', w.easyGetinfoPrivate m.handle = .ok p ∧ w.heap p = some ds ∧
      v.fs = (finishTransfer m ds w.fs).2 ∧ v.trace = w.trace ∧
      emit (outcome p ds (finishTransfer m ds w.fs).1) v = .ok v' ∧
      w'.fs = v'.fs ∧ w'.trace = v'.trace := by
  unfold handleMessage at h
  obtain ⟨p, hp, h⟩ := bind_eq_ok h
  obtain ⟨ds, hds, h⟩ := bind_eq_ok h
  obtain ⟨v, hv, h⟩ := bind_eq_ok h
  obtain ⟨v', hemit, h⟩ := bind_eq_ok h
  obtain ⟨d, -, hdrops⟩ := releaseDownload_drops h
  refine ⟨p, ds, _, v', hp, deref_eq_ok hds, ?_, ?_, hemit, hdrops.fs, hdrops.trace⟩
  · rw [multiRemoveHandle_eq_ok hv]
    rfl
  · rw [multiRemoveHandle_eq_ok hv]
    rfl

end Message

/-! ## The messages of a run -/

section Run

variable {o : Options} {env : Environment} {fs fs' : FileSystem} {lists : Loaded} {w w' v : World}
  {r : PollReport} {p : Ptr} {h : Handling}

/-- The delivery of a run. -/
abbrev Loaded.emit (lists : Loaded) (o : Options) (env : Environment) (fs : FileSystem) : Emit :=
  toolEmit env (lists.updates o env fs) o.tmpWfut

/-- The run gets to this message, about the download `p`. -/
def Handles (o : Options) (env : Environment) (fs : FileSystem) (lists : Loaded) (p : Ptr)
    (h : Handling) : Prop :=
  ∃ before r after w, env.polls = before ++ r :: after ∧
    Looping (lists.emit o env fs) (lists.queued o env fs) before w ∧
    HandledIn (lists.emit o env fs) w r p h

/-- The downloads are those of the updates. -/
theorem job_of_queued {ds : DataStruct} (hp : (lists.queued o env fs).heap p = some ds) :
    ∃ fo ∈ filesOf (lists.updates o env fs), JobOf o.localRoot fo ds := by
  rcases updateChannel_live hp with hold | ⟨fo, hfo, -, hjob⟩
  · simp [World.init] at hold
  · exact ⟨fo, mem_filesOf.mpr hfo, hjob⟩

theorem looping_moves {emit : Emit} (hcalm : Calm emit) (ht : Traced w) {rs : List PollReport}
    (h : Looping emit w rs w') : ReflTransGen (Move emit) w w' := by
  induction rs generalizing w with
  | nil =>
      obtain rfl : w' = w := h
      exact .refl
  | cons r rs ih =>
      obtain ⟨n, v, hpoll, -, hrest⟩ := h
      have hmoves := poll_moves hcalm.requeues ht hpoll
      exact hmoves.trans (ih (ht.moves hcalm.requeues hmoves) hrest)

namespace Handles

theorem moves (hh : Handles o env fs lists p h) :
    ReflTransGen (Move (lists.emit o env fs)) (lists.queued o env fs) h.state := by
  obtain ⟨before, r, after, w, -, looping, handled⟩ := hh
  have hcalm := calm_toolEmit env (lists.updates o env fs) o.tmpWfut
  have hloop := looping_moves hcalm traced_queued looping
  exact hloop.trans (handled.moves hcalm.requeues (traced_queued.moves hcalm.requeues hloop))

theorem live (hh : Handles o env fs lists p h) : h.state.heap p = some h.ds := by
  obtain ⟨_, _, _, _, -, -, _, _, _, _, -, -, -, -, -, hlive⟩ := hh
  exact hlive

theorem job (hh : Handles o env fs lists p h) :
    ∃ fo ∈ filesOf (lists.updates o env fs), JobOf o.localRoot fo h.ds := by
  have hcalm := calm_toolEmit env (lists.updates o env fs) o.tmpWfut
  obtain ⟨ds, hds, hsame⟩ := continues_of_moves hcalm hh.moves p h.ds hh.live
  obtain ⟨fo, hfo, hjob⟩ := job_of_queued hds
  exact ⟨fo, hfo, hjob.sameJob hsame⟩

theorem once (hh : Handles o env fs lists p h) : Once h.state :=
  once_queued.moves (calm_toolEmit env _ _) hh.moves

end Handles

/-! ## Turns -/

/-- What one turn of a run does to the tree and to the signals: nothing, or a message fails, or
an update is stored and recorded. -/
inductive Turn (o : Options) (env : Environment) (fs : FileSystem) (lists : Loaded)
    (w w' : World) : Prop
  | quiet (same : w'.fs = w.fs) (trace : w'.trace = w.trace)
  | failed (p : Ptr) (h : Handling) (handled : Handles o env fs lists p h)
      (before : h.state.fs = w.fs) (trace : h.state.trace = w.trace) (failure : h.error ≠ none)
      (after : w'.fs = h.fs) (completed : completedFiles w'.trace = completedFiles w.trace)
  | stored (p : Ptr) (h : Handling) (fo : FileObject) (handled : Handles o env fs lists p h)
      (before : h.state.fs = w.fs) (trace : h.state.trace = w.trace) (success : h.error = none)
      (listed : fo ∈ filesOf (lists.updates o env fs)) (job : JobOf o.localRoot fo h.ds)
      (after : w'.fs = recordUpdateFile (env.logs w.trace.length) fo o.tmpWfut h.fs)
      (completed : completedFiles w'.trace = completedFiles w.trace ++ [fo.filename])

/-- The handlers answer a message with at most one record. -/
theorem turn_of_message (handled : Handles o env fs lists p h) {v v' : World}
    (before : h.state.fs = w.fs) (trace : h.state.trace = w.trace) (hfs : v.fs = h.fs)
    (htrace : v.trace = w.trace) (hemit : lists.emit o env fs (outcome p h.ds h.error) v = .ok v')
    (hsame : w'.fs = v'.fs) (hsignals : w'.trace = v'.trace) : Turn o env fs lists w w' := by
  cases herr : h.error with
  | some message =>
      rw [herr] at hemit
      obtain rfl := Except.ok.inj hemit
      refine .failed p h handled before trace (by simp [herr]) (hsame.trans hfs) ?_
      rw [hsignals, World.log, htrace, completedFiles_append]
      simp [outcome, completedFile]
  | none =>
      obtain ⟨fo, hfo, hjob⟩ := handled.job
      have hlisted : (lists.updates o env fs).getFiles[h.ds.filename]? = some fo := by
        rw [hjob.filename]
        exact mem_filesOf.mp hfo
      rw [herr] at hemit
      simp only [toolEmit, outcome, hlisted] at hemit
      obtain rfl := Except.ok.inj hemit
      refine .stored p h fo handled before trace herr hfo hjob ?_ ?_
      · rw [hsame, hfs, htrace]
      · rw [hsignals, ← hjob.filename]
        simp [World.log, htrace, completedFiles_append, completedFile]

theorem turns_of_drain {before after : List PollReport} {w₁ : World} {n : ℕ}
    (polls : env.polls = before ++ r :: after)
    (looping : Looping (lists.emit o env fs) (lists.queued o env fs) before w)
    (performed : w.multiPerform r = .ok w₁) (drained : drain (lists.emit o env fs) n w₁ = .ok v) :
    ReflTransGen (Turn o env fs lists) w₁ v := by
  induction n generalizing v with
  | zero =>
      rw [← Except.ok.inj drained]
  | succ n ih =>
      obtain ⟨u, hu, hlast⟩ := drain_succ_cases drained
      refine (ih hu).trans ?_
      unfold drain at hlast
      split at hlast
      · rw [← Except.ok.inj hlast]
      · rename_i m rest hm
        obtain ⟨u', hu', hdone⟩ := bind_eq_ok hlast
        obtain rfl := Except.ok.inj hdone
        obtain ⟨p, ds, v₁, v₂, hp, hds, hfs, htrace, hemit, hsame, hsignals⟩ :=
          handleMessage_cases hu'
        have handled : Handles o env fs lists p ⟨{ u with msgs := rest }, m, ds⟩ :=
          ⟨before, r, after, w, polls, looping, w₁, n, u, rest, performed, hu, hm, rfl, hp, hds⟩
        exact .single (turn_of_message handled rfl rfl hfs htrace hemit hsame hsignals)

theorem multiPerform_trace (h : w.multiPerform r = .ok v) : v.trace = w.trace := by
  obtain ⟨u, hu, h⟩ := bind_eq_ok h
  have htrace : u.trace = w.trace := by
    refine run_unchanged _ (fun s c t ht => ?_) hu
    obtain ⟨e, ds, -, -, rfl⟩ := performWrite_eq_ok ht
    rfl
  rw [← Except.ok.inj h]
  exact htrace

theorem turns_of_performed {before after : List PollReport} {w₁ : World} {n : ℕ}
    (polls : env.polls = before ++ r :: after)
    (looping : Looping (lists.emit o env fs) (lists.queued o env fs) before w)
    (performed : w.multiPerform r = .ok w₁) (drained : drain (lists.emit o env fs) n w₁ = .ok v) :
    ReflTransGen (Turn o env fs lists) w v :=
  .head (.quiet (multiPerform_fs performed) (multiPerform_trace performed))
    (turns_of_drain polls looping performed drained)

theorem turns_of_poll {before after : List PollReport} {n : Int32}
    (polls : env.polls = before ++ r :: after)
    (looping : Looping (lists.emit o env fs) (lists.queued o env fs) before w)
    (hpoll : poll (lists.emit o env fs) r w = .ok (n, w')) :
    ReflTransGen (Turn o env fs lists) w w' := by
  unfold poll at hpoll
  obtain ⟨w₁, hw₁, hpoll⟩ := bind_eq_ok hpoll
  obtain ⟨w₂, hw₂, hpoll⟩ := bind_eq_ok hpoll
  have hturns := turns_of_performed polls looping hw₁ hw₂
  simp only at hpoll
  split at hpoll
  · have hshifts := attachLoop_shifts hpoll
    exact hturns.tail (.quiet hshifts.fs hshifts.trace)
  · obtain ⟨-, rfl⟩ := Prod.mk.inj (Except.ok.inj hpoll)
    exact hturns

theorem looping_concat {emit : Emit} {rs : List PollReport} {n : Int32}
    (h : Looping emit w rs v) (hpoll : poll emit r v = .ok (n, w')) (hn : n ≠ 0) :
    Looping emit w (rs ++ [r]) w' := by
  induction rs generalizing w with
  | nil =>
      obtain rfl : v = w := h
      exact ⟨n, w', hpoll, hn, rfl⟩
  | cons r' rs ih =>
      obtain ⟨n', u, hu, hn', hrest⟩ := h
      exact ⟨n', u, hu, hn', ih hrest⟩

/-- What the loop does from where it is after some reports. -/
theorem turns_of_looping {before between after : List PollReport}
    (polls : env.polls = before ++ (between ++ after))
    (looping : Looping (lists.emit o env fs) (lists.queued o env fs) before w)
    (hrest : Looping (lists.emit o env fs) w between w') :
    ReflTransGen (Turn o env fs lists) w w' := by
  induction between generalizing before w with
  | nil =>
      obtain rfl : w' = w := hrest
      exact .refl
  | cons r rs ih =>
      obtain ⟨n, v, hpoll, hn, hrest⟩ := hrest
      exact (turns_of_poll polls looping hpoll).trans
        (ih (by simpa using polls) (looping_concat looping hpoll hn) hrest)

theorem turns_of_pollLoop {before after : List PollReport}
    (polls : env.polls = before ++ after)
    (looping : Looping (lists.emit o env fs) (lists.queued o env fs) before w)
    (hrest : pollLoop (lists.emit o env fs) after w = .ok w') :
    ReflTransGen (Turn o env fs lists) w w' := by
  induction after generalizing before w with
  | nil => simp [pollLoop] at hrest
  | cons r rs ih =>
      obtain ⟨⟨n, v⟩, hpoll, hrest⟩ := bind_eq_ok hrest
      have hturns := turns_of_poll polls looping hpoll
      simp only at hrest
      split at hrest
      · rw [← Except.ok.inj hrest]
        exact hturns
      · rename_i hn
        exact hturns.trans (ih (by simpa using polls) (looping_concat looping hpoll hn) hrest)

/-- A complete loop is a sequence of turns. -/
theorem Looped.turns (h : Looped o env fs lists w) :
    ReflTransGen (Turn o env fs lists) (lists.queued o env fs) w :=
  turns_of_pollLoop (List.nil_append _).symm rfl h.loop

/-- So is what comes before a message. -/
theorem Handles.turns (hh : Handles o env fs lists p h) :
    ∃ v, ReflTransGen (Turn o env fs lists) (lists.queued o env fs) v ∧
      h.state.fs = v.fs ∧ h.state.trace = v.trace := by
  obtain ⟨before, r, after, w, polls, looping, w₁, n, v, rest, performed, drained, -, hstate, -⟩ :=
    hh
  have hbefore := @turns_of_looping o env fs lists _ _ [] before (r :: after) polls rfl looping
  refine ⟨v, hbefore.trans (turns_of_performed polls looping performed drained), ?_, ?_⟩
  · rw [hstate]
  · rw [hstate]

end Run

end LibWfut
