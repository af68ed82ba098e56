import LibWfut.Verification.Io.Scheduling
import LibWfut.Verification.Io.Sessions
import LibWfut.Verification.Tool.Accounting
import LibWfut.Verification.Tool.Steady

/-! # Every update is answered

As long as curl keeps its promises, no handler of `main` fails and its loop ends with the last
transfer: every update has had one signal, and nothing is left in the object. -/

namespace LibWfut

open FileTree Machine Relation Encoder

/-! ## The assertion of the handler -/

/-- A delivery that goes on where another one fails. -/
def orLog (emit : Emit) : Emit := fun e w =>
  .ok ((emit e w).toOption.getD (w.log e))

theorem orLog_of_ok {emit : Emit} {e : Event} {w w' : World} (h : emit e w = .ok w') :
    orLog emit e w = emit e w := by
  rw [orLog, h]
  rfl

theorem calm_orLog {emit : Emit} (h : Calm emit) : Calm (orLog emit) := by
  intro e w w' hw
  cases he : emit e w with
  | error f =>
      rw [orLog, he, Except.ok.injEq] at hw
      exact ⟨w.fs, hw.symm⟩
  | ok v =>
      rw [orLog_of_ok he, he, Except.ok.injEq] at hw
      subst hw
      exact h e w v he

theorem delivers_orLog {emit : Emit} (h : Calm emit) (bound : ℕ) :
    Delivers (orLog emit) bound := by
  intro busy w e hinv _
  obtain ⟨fs, hfs⟩ := calm_orLog h e w _ rfl
  refine ⟨_, rfl, ?_⟩
  rw [hfs]
  exact ⟨hinv.drop_msgs (.refl _) fs, { Shrinks.refl busy (w.log e) with }⟩

/-- The downloads are of files of the list. -/
def Listed (updates : ChannelFileList) (w : World) : Prop :=
  ∀ p ds, w.heap p = some ds → updates.getFiles[ds.filename]? ≠ none

theorem Listed.continues {updates : ChannelFileList} {w w' : World} (h : Listed updates w)
    (hc : Continues w w') : Listed updates w' := by
  intro p ds hp
  obtain ⟨d, hd, hjob⟩ := hc p ds hp
  rw [hjob.filename]
  exact h p d hd

section Assertion

variable {env : Environment} {updates : ChannelFileList} {tmpfile : Bytes} {w : World}

/-- The assertion holds for a file of the list. -/
theorem toolEmit_outcome {ds : DataStruct} (h : updates.getFiles[ds.filename]? ≠ none) (p : Ptr)
    (error : Option Bytes) (v : World) :
    orLog (toolEmit env updates tmpfile) (outcome p ds error) v =
      toolEmit env updates tmpfile (outcome p ds error) v := by
  obtain ⟨fo, hfo⟩ := Option.ne_none_iff_exists'.mp h
  cases error with
  | none =>
      apply orLog_of_ok
      simp only [toolEmit, outcome, hfo]
      rfl
  | some message => rfl

/-- Only the outcome of the download is delivered. -/
theorem handleMessage_congr {emit emit' : Emit} {m : CurlMsg}
    (h : ∀ p ds error v, w.heap p = some ds →
      emit (outcome p ds error) v = emit' (outcome p ds error) v) :
    handleMessage emit m w = handleMessage emit' m w := by
  unfold handleMessage
  cases w.easyGetinfoPrivate m.handle with
  | error f => rfl
  | ok p =>
      simp only [ok_bind]
      cases hds : w.deref p with
      | error f => rfl
      | ok ds =>
          simp only [ok_bind]
          cases World.multiRemoveHandle { w with fs := (finishTransfer m ds w.fs).2 } m.handle with
          | error f => rfl
          | ok v =>
              simp only [ok_bind]
              rw [h p ds _ _ (deref_eq_ok hds)]

theorem drain_orLog (ht : Traced w) (hl : Listed updates w) (n : ℕ) :
    drain (orLog (toolEmit env updates tmpfile)) n w =
      drain (toolEmit env updates tmpfile) n w := by
  have hcalm := calm_toolEmit env updates tmpfile
  induction n generalizing w with
  | zero => rfl
  | succ n ih =>
      cases hm : w.msgs with
      | nil => simp only [drain, hm]
      | cons m rest =>
          have hpop : Move (toolEmit env updates tmpfile) w { w with msgs := rest } :=
            .shift ⟨rfl, rfl, rfl, rfl, rfl, rfl⟩
          have htp := ht.move hcalm.requeues hpop
          have hsame := @handleMessage_congr { w with msgs := rest }
            (orLog (toolEmit env updates tmpfile)) (toolEmit env updates tmpfile) m
            fun p ds error v hp => toolEmit_outcome (hl p ds hp) p error v
          simp only [drain, hm, hsame]
          cases hv : handleMessage (toolEmit env updates tmpfile) m { w with msgs := rest } with
          | error f => rfl
          | ok v =>
              have hmove := Move.finish m (handleMessage_finishes hcalm.requeues htp hv)
              exact ih (htp.move hcalm.requeues hmove)
                ((hl.continues (hpop.continues hcalm)).continues (hmove.continues hcalm))

theorem poll_orLog (ht : Traced w) (hl : Listed updates w) (r : PollReport) :
    poll (orLog (toolEmit env updates tmpfile)) r w =
      poll (toolEmit env updates tmpfile) r w := by
  have hcalm := calm_toolEmit env updates tmpfile
  unfold poll
  cases hv : w.multiPerform r with
  | error f => rfl
  | ok v =>
      have hmoves := multiPerform_moves (toolEmit env updates tmpfile) hv
      simp only [ok_bind]
      rw [drain_orLog (ht.moves hcalm.requeues hmoves)
        (hl.continues (continues_of_moves hcalm hmoves))]

/-- A poll of `main` takes the same course as any other. -/
theorem poll_toolEmit (h : Idle w) (ht : Traced w) (hl : Listed updates w) {r : PollReport}
    (hr : r.Delivered w) :
    ∃ n w', poll (toolEmit env updates tmpfile) r w = .ok (n, w') ∧ Polled w r n w' := by
  have hcalm := calm_toolEmit env updates tmpfile
  rw [← poll_orLog ht hl]
  exact poll_calm h (delivers_orLog hcalm w.pending) (calm_orLog hcalm) le_rfl hr

end Assertion

/-! ## What is left after a poll -/

section Left

variable {w w' : World} {r : PollReport} {n : Int32}

theorem length_stillRunning (h : Idle w) (hr : r.Delivered w) :
    (stillRunning w r).length + r.done.length = w.attached.length := by
  have hnodup := (List.nodup_append.mp h.inv.registry.nodup).2.1
  have hdone : (w.attached.filter (· ∈ r.done.map CurlMsg.handle)).Perm
      (r.done.map CurlMsg.handle) := by
    rw [List.perm_ext_iff_of_nodup (hnodup.filter _) hr.once]
    intro p
    simp only [List.mem_filter, decide_eq_true_eq, and_iff_right_iff_imp]
    intro hp
    obtain ⟨m, hm, rfl⟩ := List.mem_map.mp hp
    exact hr.done m hm
  have hlength := hdone.length_eq
  rw [List.length_map] at hlength
  have hsplit := List.length_eq_length_filter_add (l := w.attached)
    (fun p => decide (p ∈ r.done.map CurlMsg.handle))
  rw [stillRunning]
  simp only [decide_not]
  omega

/-- Every message ends one download. -/
theorem Polled.pending (h : Polled w r n w') (hi : Idle w) (hr : r.Delivered w) :
    w'.pending + r.done.length = w.pending := by
  have hrunning := length_stillRunning hi hr
  have hattached : w'.attached.length = (stillRunning w r).length +
      (w.handles.take (capacity w r)).length := by
    rw [h.attached, List.length_append]
    rfl
  rw [World.pending, World.pending, hattached, h.handles, List.length_drop, List.length_take]
  omega

/-- `poll` returns 0 exactly when nothing is left. -/
theorem Polled.zero_iff (h : Polled w r n w') (hr : r.Counts w)
    (hn : 1 ≤ w.numToProcess.toInt) : n = 0 ↔ w'.pending = 0 := by
  have hresult := h.result_eq hr hn
  constructor
  · rintro rfl
    have hattached : w'.attached = [] := List.length_eq_zero_iff.mp (by simpa using hresult.symm)
    rw [World.pending, hattached, h.handles_of_attached hr hn hattached]
    rfl
  · intro hzero
    rw [World.pending] at hzero
    apply Int32.toInt_inj.mp
    rw [hresult, Int32.toInt_zero]
    omega

end Left

/-! ## Names and answers -/

/-- The file that a final signal names. -/
def answeredFile : Event → Option Bytes
  | .queued .. => none
  | .complete _ _ filename => some filename
  | .failed _ _ filename _ => some filename

/-- The files that were answered, in the order of the signals. -/
def answeredFiles (trace : List Event) : List Bytes :=
  trace.filterMap answeredFile

/-- The file that a download is of. -/
def World.nameOf (w : World) (p : Ptr) : Option Bytes :=
  (w.heap p).map DataStruct.filename

theorem answeredFile_outcome (p : Ptr) (ds : DataStruct) (error : Option Bytes) :
    answeredFile (outcome p ds error) = some ds.filename := by
  cases error <;> rfl

/-- These downloads go on, and their files and those that were answered are `names`. -/
structure Shares (names : List Bytes) (w : World) (jobs : List (Ptr × Bytes)) : Prop where
  nodup : jobs.Nodup
  live : ∀ p f, (p, f) ∈ jobs ↔ w.nameOf p = some f
  names : (answeredFiles w.trace ++ jobs.map Prod.snd).Perm names

/-- Every name is answered or still being downloaded. -/
def Answering (names : List Bytes) (w : World) : Prop :=
  ∃ jobs, Shares names w jobs

section Answering

variable {names : List Bytes} {w w' : World} {jobs : List (Ptr × Bytes)} {emit : Emit}

theorem Shares.of_eq (h : Shares names w jobs) (hname : w'.nameOf = w.nameOf)
    (htrace : w'.trace = w.trace) : Shares names w' jobs where
  nodup := h.nodup
  live := by
    rw [hname]
    exact h.live
  names := by
    rw [htrace]
    exact h.names

theorem nameOf_write {c : WriteCall} (h : w.performWrite c = .ok w') : w'.nameOf = w.nameOf := by
  obtain ⟨e, ds, -, hp, rfl⟩ := performWrite_eq_ok h
  funext q
  by_cases hq : q = e.priv
  · simp [World.nameOf, World.store, hq, hp]
  · simp [World.nameOf, World.store, hq]

/-- A download that leaves takes its name into the answers. -/
theorem Shares.retires (h : Shares names w jobs) (hcalm : Calm emit) {p : Ptr} {ds : DataStruct}
    {e : Event} {fs : FileSystem} (he : answeredFile e = some ds.filename)
    (hr : Retires emit w p ds e fs w') : Answering names w' := by
  obtain ⟨w₁, w₂, hclose, hemit, hdrop⟩ := hr
  obtain ⟨fs', rfl⟩ := hcalm e w₁ w₂ hemit
  obtain ⟨ds', hjob, hheap⟩ := hclose.heap
  have hname : w'.nameOf = Function.update w.nameOf p none := by
    have hlogged : ({ w₁.log e with fs := fs' } : World).heap = w₁.heap := rfl
    funext q
    rw [World.nameOf, hdrop.heap, hlogged, hheap]
    by_cases hq : q = p
    · simp [hq]
    · simp [hq, World.nameOf]
  have htrace : answeredFiles w'.trace = answeredFiles w.trace ++ [ds.filename] := by
    have hlogged : ({ w₁.log e with fs := fs' } : World).trace = w₁.trace ++ [e] := rfl
    rw [hdrop.trace, hlogged, hclose.trace]
    simp [answeredFiles, he]
  have hmem : (p, ds.filename) ∈ jobs := by
    rw [h.live, World.nameOf, hclose.live]
    rfl
  refine ⟨jobs.erase (p, ds.filename), h.nodup.erase _, ?_, ?_⟩
  · intro q f
    rw [h.nodup.mem_erase_iff, h.live, hname]
    by_cases hq : q = p
    · subst hq
      have hself : w.nameOf q = some ds.filename := (h.live q ds.filename).mp hmem
      simp only [Function.update_self, hself]
      simp [eq_comm]
    · rw [Function.update_of_ne hq]
      simp [hq]
  · have hperm := (List.perm_cons_erase hmem).map Prod.snd
    rw [htrace, List.append_assoc, List.singleton_append]
    exact (hperm.symm.append_left (answeredFiles w.trace)).trans h.names

theorem Answering.move (h : Answering names w) (hcalm : Calm emit) (hm : Move emit w w') :
    Answering names w' := by
  obtain ⟨jobs, h⟩ := h
  cases hm with
  | write c hw =>
      have htrace : w'.trace = w.trace := by
        obtain ⟨e, ds, -, -, rfl⟩ := performWrite_eq_ok hw
        rfl
      exact ⟨jobs, h.of_eq (nameOf_write hw) htrace⟩
  | shift hs =>
      have hname : w'.nameOf = w.nameOf := by
        funext q
        rw [World.nameOf, hs.heap, World.nameOf]
      exact ⟨jobs, h.of_eq hname hs.trace⟩
  | finish m hf =>
      obtain ⟨p, ds, hr⟩ := hf
      exact h.retires hcalm (answeredFile_outcome ..) hr
  | abort ha =>
      obtain ⟨p, ds, -, hr⟩ := ha
      exact h.retires hcalm rfl hr

theorem Answering.moves (h : Answering names w) (hcalm : Calm emit)
    (hm : ReflTransGen (Move emit) w w') : Answering names w' := by
  induction hm with
  | refl => exact h
  | tail hmoves hmove ih => exact ih.move hcalm hmove

/-- What is not answered is in the queue or in curl. -/
theorem Answering.pending (h : Answering names w) (hi : Idle w) :
    (answeredFiles w.trace).length + w.pending = names.length := by
  obtain ⟨jobs, h⟩ := h
  have hkeys : (jobs.map Prod.fst).Nodup := by
    refine (List.nodup_map_iff_inj_on h.nodup).mpr ?_
    rintro ⟨p, f⟩ hf ⟨q, g⟩ hg rfl
    have hfg := ((h.live p f).mp hf).symm.trans ((h.live p g).mp hg)
    rw [Option.some.injEq] at hfg
    rw [hfg]
  have hperm : (w.handles ++ w.attached).Perm (jobs.map Prod.fst) := by
    rw [List.perm_ext_iff_of_nodup hi.inv.registry.nodup hkeys]
    intro p
    rw [hi.inv.registry.pool, List.mem_map]
    constructor
    · rintro ⟨hlive, -⟩
      obtain ⟨ds, hds⟩ := Option.ne_none_iff_exists'.mp hlive
      refine ⟨(p, ds.filename), (h.live ..).mpr ?_, rfl⟩
      rw [World.nameOf, hds]
      rfl
    · rintro ⟨⟨q, f⟩, hq, rfl⟩
      refine ⟨fun hnone => ?_, List.not_mem_nil⟩
      have hname := (h.live q f).mp hq
      rw [World.nameOf, hnone] at hname
      simp at hname
  have hlength := h.names.length_eq
  have hpool := hperm.length_eq
  simp only [List.length_append, List.length_map] at hlength hpool
  rw [World.pending]
  omega

/-- When nothing is left, every name is answered. -/
theorem Answering.perm (h : Answering names w) (hi : Idle w) (hzero : w.pending = 0) :
    (answeredFiles w.trace).Perm names := by
  have hlength := h.pending hi
  obtain ⟨jobs, h⟩ := h
  have hjobs := h.names.length_eq
  rw [List.length_append, List.length_map] at hjobs
  have hnil : jobs = [] := List.length_eq_zero_iff.mp (by omega)
  simpa [hnil] using h.names

end Answering

/-! ## The queue of `main` -/

/-- The URLs of the files are told apart, also where `queueFile` compares one with the key
of another. -/
def UrlsApart (updates : ChannelFileList) (urlPrefix : Bytes) : Prop :=
  ∀ f g, updates.getFiles[f]? ≠ none → updates.getFiles[g]? ≠ none →
    fileUrl updates urlPrefix f = encodeURL (fileUrl updates urlPrefix g) ∨
      encodeURL (fileUrl updates urlPrefix f) = encodeURL (fileUrl updates urlPrefix g) → f = g

/-- These files are queued, each under its own URL. -/
structure Taken (updates : ChannelFileList) (urlPrefix : Bytes) (names : List Bytes)
    (w : World) : Prop where
  traced : Traced w
  answering : Answering names w
  keys : ∀ u p, w.files[u]? = some p → ∃ f ∈ names, u = encodeURL (fileUrl updates urlPrefix f)

section Queue

variable {updates : ChannelFileList} {urlPrefix pathPrefix : Bytes} {names : List Bytes}
  {w : World}

theorem Answering.enqueue (h : Answering names w) (ht : Traced w) (url : Bytes)
    (ds : DataStruct) : Answering (names ++ [ds.filename]) (w.enqueue url ds) := by
  obtain ⟨jobs, h⟩ := h
  have hname : (w.enqueue url ds).nameOf =
      Function.update w.nameOf w.fresh (some ds.filename) := by
    funext q
    by_cases hq : q = w.fresh
    · simp [World.nameOf, World.enqueue, hq]
    · simp [World.nameOf, World.enqueue, hq]
  have hfree : w.nameOf w.fresh = none := by rw [World.nameOf, ht.unborn _ le_rfl, Option.map_none]
  have hnew : ∀ f, (w.fresh, f) ∉ jobs := by
    intro f hf
    have hlive := (h.live _ f).mp hf
    simp [hfree] at hlive
  have hanswered : answeredFiles (w.enqueue url ds).trace = answeredFiles w.trace := by
    simp [World.enqueue, answeredFiles, answeredFile]
  refine ⟨jobs ++ [(w.fresh, ds.filename)], ?_, ?_, ?_⟩
  · refine h.nodup.append (List.nodup_singleton _) ?_
    simpa using hnew ds.filename
  · intro q f
    rw [hname, List.mem_append, h.live, List.mem_singleton]
    by_cases hq : q = w.fresh
    · simp [hq, hfree, eq_comm]
    · simp [hq]
  · rw [hanswered, List.map_append, ← List.append_assoc]
    exact h.names.append_right _

theorem Taken.queueUpdate (h : Taken updates urlPrefix names w) {o : FileObject}
    (hdel : o.deleted = false) (hnew : ∀ f ∈ names,
      fileUrl updates urlPrefix o.filename ≠ encodeURL (fileUrl updates urlPrefix f)) :
    Taken updates urlPrefix (names ++ [o.filename])
      (queueUpdate updates urlPrefix pathPrefix w o) := by
  have hu : w.files[fileUrl updates urlPrefix o.filename]? = none := by
    by_contra hsome
    obtain ⟨p, hp⟩ := Option.ne_none_iff_exists'.mp hsome
    obtain ⟨f, hf, heq⟩ := h.keys _ p hp
    exact hnew f hf heq
  rw [LibWfut.queueUpdate, hdel, if_neg Bool.false_ne_true]
  constructor
  case traced => exact h.traced.queueFile
  case answering =>
    rw [queueFile_state hu]
    exact h.answering.enqueue h.traced _
      (newDataStruct pathPrefix o.filename _ o.crc32 o.execute w.fresh)
  case keys =>
    intro u p hp
    rw [queueFile_state hu] at hp
    simp only [World.enqueue, Std.ExtTreeMap.getElem?_insert] at hp
    split at hp
    · rename_i heq
      exact ⟨o.filename, by simp, (Std.LawfulEqCmp.eq_of_compare heq).symm⟩
    · obtain ⟨f, hf, hkey⟩ := h.keys u p hp
      exact ⟨f, List.mem_append_left _ hf, hkey⟩

theorem Taken.foldl (h : Taken updates urlPrefix names w) {fs : List FileObject}
    (hdel : ∀ o ∈ fs, o.deleted = false)
    (hnodup : (names ++ fs.map FileObject.filename).Nodup)
    (hapart : ∀ f ∈ names ++ fs.map FileObject.filename, ∀ g ∈ names ++ fs.map FileObject.filename,
      fileUrl updates urlPrefix f = encodeURL (fileUrl updates urlPrefix g) → f = g) :
    Taken updates urlPrefix (names ++ fs.map FileObject.filename)
      (fs.foldl (LibWfut.queueUpdate updates urlPrefix pathPrefix) w) := by
  induction fs generalizing names w with
  | nil => simpa using h
  | cons o fs ih =>
      have hsplit : names ++ (o :: fs).map FileObject.filename =
          names ++ [o.filename] ++ fs.map FileObject.filename := by simp
      have hnew : ∀ f ∈ names,
          fileUrl updates urlPrefix o.filename ≠ encodeURL (fileUrl updates urlPrefix f) := by
        intro f hf heq
        have hsame := hapart o.filename (by simp) f (by simp [hf]) heq
        exact (List.nodup_append.mp hnodup).2.2 f hf o.filename (by simp) hsame.symm
      rw [hsplit] at hnodup hapart ⊢
      exact ih (h.queueUpdate (hdel o (List.mem_cons_self ..)) hnew)
        (fun o' ho' => hdel o' (List.mem_cons_of_mem _ ho')) hnodup hapart

end Queue

section Start

variable {o : Options} {env : Environment} {fs : FileSystem} {lists : Loaded}

/-- The base URL of the channel. -/
def Loaded.urlPrefix (lists : Loaded) : Bytes :=
  lists.serverRoot ++ ascii "/" ++ lists.channel

/-- The names of the updates. -/
def Loaded.updateNames (lists : Loaded) (o : Options) (env : Environment) (fs : FileSystem) :
    List Bytes :=
  (filesOf (lists.updates o env fs)).map FileObject.filename

theorem mem_updateNames {f : Bytes} :
    f ∈ lists.updateNames o env fs ↔ (lists.updates o env fs).getFiles[f]? ≠ none := by
  rw [Loaded.updateNames, List.mem_map]
  constructor
  · rintro ⟨fo, hfo, rfl⟩
    rw [ChannelFileList.getFiles, mem_filesOf.mp hfo]
    simp
  · intro hf
    obtain ⟨fo, hfo⟩ := Option.ne_none_iff_exists'.mp hf
    have hname := (lists.updates o env fs).keyed f fo hfo
    exact ⟨fo, mem_filesOf.mpr (hname.symm ▸ hfo), hname⟩

/-- No file is offered that the server has deleted. -/
theorem deleted_updates {fo : FileObject} (hfo : fo ∈ filesOf (lists.updates o env fs)) :
    fo.deleted = false := by
  have hentry := mem_filesOf.mp hfo
  have hoffered : lists.updates o env fs =
      offered env.got lists.server lists.system lists.localList o.localRoot fs := rfl
  rw [hoffered, offered_getElem?, Option.filter_eq_some_iff] at hentry
  obtain ⟨-, hadds⟩ := hentry
  rw [reasonFor, adds_updateReason, Bool.and_eq_true, Bool.not_eq_true'] at hadds
  exact hadds.1

variable (hapart : UrlsApart (lists.updates o env fs) lists.urlPrefix)

include hapart

theorem answering_queued : Answering (lists.updateNames o env fs) (lists.queued o env fs) := by
  have hstart : Taken (lists.updates o env fs) lists.urlPrefix []
      (World.init defaultMaxDownloads fs) := by
    refine ⟨traced_init _ fs, ⟨[], List.nodup_nil, ?_, List.Perm.refl _⟩, ?_⟩
    · simp [World.nameOf, World.init]
    · simp [World.init]
  have hnodup : ([] ++ lists.updateNames o env fs).Nodup := nodup_filesOf _
  have hkeys : ∀ f ∈ [] ++ lists.updateNames o env fs, ∀ g ∈ [] ++ lists.updateNames o env fs,
      fileUrl (lists.updates o env fs) lists.urlPrefix f =
        encodeURL (fileUrl (lists.updates o env fs) lists.urlPrefix g) → f = g :=
    fun f hf g hg heq => hapart f g (mem_updateNames.mp hf) (mem_updateNames.mp hg) (.inl heq)
  rw [Loaded.queued, updateChannel_eq]
  exact (hstart.foldl (fun fo hfo => deleted_updates hfo) hnodup hkeys).answering

theorem idle_queued : Idle (lists.queued o env fs) ∧
    Listed (lists.updates o env fs) (lists.queued o env fs) := by
  have hinj : Set.InjOn
      (fun f => encodeURL (fileUrl (lists.updates o env fs) lists.urlPrefix f))
      {f | (lists.updates o env fs).getFiles[f]? ≠ none} :=
    fun f hf g hg heq => hapart f g hf hg (.inr heq)
  obtain ⟨hidle, -, hlive⟩ := @updateChannel_ok (lists.updates o env fs) lists.urlPrefix
    o.localRoot _ (idle_init defaultMaxDownloads fs) rfl hinj
  exact ⟨hidle, fun p ds hp => (hlive p ds hp).2⟩

end Start

theorem numToProcess_queued (o : Options) (env : Environment) (fs : FileSystem)
    (lists : Loaded) : (lists.queued o env fs).numToProcess = defaultMaxDownloads := by
  rw [Loaded.queued, updateChannel_eq]
  generalize filesOf (lists.updates o env fs) = files
  have hfold : ∀ w : World,
      (files.foldl (queueUpdate (lists.updates o env fs)
        (lists.serverRoot ++ ascii "/" ++ lists.channel) o.localRoot) w).numToProcess =
          w.numToProcess := by
    induction files with
    | nil => exact fun w => rfl
    | cons f files ih =>
        intro w
        rw [List.foldl_cons, ih, queueUpdate]
        split
        · rfl
        · unfold queueFile
          split <;> rfl
  exact hfold _

/-! ## The loop -/

/-- What curl promises about the reports of a loop, as long as it goes on: they are about
transfers that it has, and their counts are right. -/
def Promised (emit : Emit) : List PollReport → World → Prop
  | [], _ => True
  | r :: rs, w => r.Delivered w ∧ r.Counts w ∧
      ∀ n w', poll emit r w = .ok (n, w') → n ≠ 0 → Promised emit rs w'

/-- How many transfers the reports finish. -/
def finishedIn (rs : List PollReport) : ℕ :=
  (rs.flatMap PollReport.done).length

/-- The loop ends with the last transfer, and fails only if there are not enough reports. -/
theorem pollLoop_toolEmit {env : Environment} {updates : ChannelFileList} {tmpfile : Bytes}
    {rs : List PollReport} {w : World} (h : Idle w) (ht : Traced w) (hl : Listed updates w)
    (hn : 1 ≤ w.numToProcess.toInt) (hp : Promised (toolEmit env updates tmpfile) rs w) :
    (∃ w', pollLoop (toolEmit env updates tmpfile) rs w = .ok w' ∧ Idle w' ∧ w'.pending = 0) ∨
      pollLoop (toolEmit env updates tmpfile) rs w = .error .outOfFuel ∧
        (rs = [] ∨ finishedIn rs < w.pending) := by
  have hcalm := calm_toolEmit env updates tmpfile
  induction rs generalizing w with
  | nil => exact .inr ⟨rfl, .inl rfl⟩
  | cons r rs ih =>
      obtain ⟨hr, hcount, hnext⟩ := hp
      obtain ⟨n, w₁, hpoll, hpolled⟩ := @poll_toolEmit env updates tmpfile w h ht hl r hr
      have hleft := hpolled.pending h hr
      have hzero := hpolled.zero_iff hcount hn
      have hsum : finishedIn (r :: rs) = r.done.length + finishedIn rs := by
        rw [finishedIn, List.flatMap_cons, List.length_append]
        rfl
      simp only [pollLoop, hpoll, ok_bind]
      by_cases hend : n = 0
      · rw [if_pos hend]
        exact .inl ⟨w₁, rfl, hpolled.idle, hzero.mp hend⟩
      · rw [if_neg hend]
        have hmoves := poll_moves hcalm.requeues ht hpoll
        have hlimit : 1 ≤ w₁.numToProcess.toInt := by rwa [hpolled.numToProcess]
        rcases ih hpolled.idle (ht.moves hcalm.requeues hmoves)
          (hl.continues (continues_of_moves hcalm hmoves)) hlimit (hnext n w₁ hpoll hend) with
          hdone | ⟨hfuel, hfew⟩
        · exact .inl hdone
        · refine .inr ⟨hfuel, .inr ?_⟩
          have hpos : w₁.pending ≠ 0 := fun hnone => hend (hzero.mpr hnone)
          rcases hfew with rfl | hfew
          · have hnil : finishedIn [] = 0 := rfl
            omega
          · omega

/-! ## Whole runs -/

theorem shutdown_of_empty {w : World} (h : w.files = ∅) :
    Session.shutdown { initialised := true, world := w } =
      .ok { initialised := false, world := { w.multiCleanup with trace := [] } } := by
  have hfirst : OrderedMap.first w.multiCleanup.files = none := by
    simp [World.multiCleanup, h, OrderedMap.first]
  have hloop : shutdownLoop w.files.size w.multiCleanup = .ok w.multiCleanup := by
    unfold shutdownLoop
    rw [hfirst]
  simp only [Session.shutdown, ite_true, hloop, ok_bind]

/-- Without pending downloads the object is empty. -/
theorem Idle.empty {w : World} (h : Idle w) (hzero : w.pending = 0) :
    w.files = ∅ ∧ w.heap = (fun _ => none) ∧ w.easy = fun _ => none := by
  have hpool : w.handles ++ w.attached = [] := by
    apply List.length_eq_zero_iff.mp
    rw [List.length_append]
    exact hzero
  have hdead : ∀ p, w.heap p = none := by
    intro p
    by_contra hlive
    have hmem := (h.inv.registry.pool p).mpr ⟨hlive, List.not_mem_nil⟩
    rw [hpool] at hmem
    exact List.not_mem_nil hmem
  exact ⟨h.inv.registry.files_eq_empty hpool, funext hdead,
    funext fun p => h.inv.registry.released p (hdead p)⟩

section Run

variable {o : Options} {env : Environment} {fs : FileSystem} {lists : Loaded} {w : World}

theorem Looped.main_eq (h : Looped o env fs lists w) (hfiles : w.files = ∅) :
    main o env fs = .ok (0, finish o env (lists.final o env fs w) w.fs) := by
  have hshutdown := @shutdown_of_empty
    { w with fs := finish o env (lists.final o env fs w) w.fs } hfiles
  rw [Loaded.final] at hshutdown
  unfold main update
  simp only [h.loaded, ok_bind, h.loop, hshutdown, tally_error]
  rfl

end Run

/-- As long as curl keeps its promises, a call of `main` that has its lists gives every update
one signal and returns 0 with nothing left in the object; it goes on for ever only if curl
does not finish all the transfers. -/
theorem updates_answered (o : Options) (env : Environment) (fs : FileSystem) (lists : Loaded)
    (hloaded : loadLists o env fs = .ok (some lists))
    (hapart : UrlsApart (lists.updates o env fs) lists.urlPrefix)
    (hcurl : Promised (toolEmit env (lists.updates o env fs) o.tmpWfut) env.polls
      (lists.queued o env fs)) :
    (∃ w fs', main o env fs = .ok (0, fs') ∧ Looped o env fs lists w ∧
        (answeredFiles w.trace).Perm (lists.updateNames o env fs) ∧
        w.files = ∅ ∧ w.heap = (fun _ => none) ∧ w.easy = fun _ => none) ∨
      main o env fs = .error .outOfFuel ∧
        (env.polls = [] ∨ finishedIn env.polls < (lists.updateNames o env fs).length) := by
  have hcalm := calm_toolEmit env (lists.updates o env fs) o.tmpWfut
  obtain ⟨hidle, hlisted⟩ := idle_queued hapart
  have hanswering := answering_queued hapart
  have hlimit : 1 ≤ (lists.queued o env fs).numToProcess.toInt := by
    rw [numToProcess_queued]
    decide
  rcases pollLoop_toolEmit hidle traced_queued hlisted hlimit hcurl with
    ⟨w, hloop, hend, hzero⟩ | ⟨hfuel, hfew⟩
  · left
    have hlooped : Looped o env fs lists w := ⟨hloaded, hloop⟩
    have hempty := hend.empty hzero
    have hall := hanswering.moves hcalm (pollLoop_moves hcalm traced_queued hloop)
    exact ⟨w, _, hlooped.main_eq hempty.1, hlooped, hall.perm hend hzero, hempty⟩
  · right
    constructor
    · unfold main update
      simp only [hloaded, ok_bind, hfuel]
      rfl
    · have hpending := hanswering.pending hidle
      rcases hfew with hnil | hfew
      · exact .inl hnil
      · exact .inr (by omega)

/-! ## One file -/

/-- One file is queued, waits for the first report and is finished by the second. -/
theorem promised_tinyXmlEnvironment :
    Promised (toolEmit tinyXmlEnvironment (oneFileLoaded.updates (underP (ascii "c"))
        tinyXmlEnvironment .empty) (underP (ascii "c")).tmpWfut) tinyXmlEnvironment.polls
      (oneFileLoaded.queued (underP (ascii "c")) tinyXmlEnvironment .empty) := by
  have hstart : ∃ w, poll (toolEmit tinyXmlEnvironment (oneFileLoaded.updates (underP (ascii "c"))
      tinyXmlEnvironment .empty) (underP (ascii "c")).tmpWfut) { running := 0 }
      (oneFileLoaded.queued (underP (ascii "c")) tinyXmlEnvironment .empty) = .ok (1, w) ∧
      w.attached = [0] := ⟨_, rfl, rfl⟩
  obtain ⟨w, hw, hattached⟩ := hstart
  refine ⟨⟨by simp, by simp, by simp⟩, by rfl, ?_⟩
  intro n w' hw' _
  obtain ⟨-, rfl⟩ := Prod.mk.inj (Except.ok.inj (hw.symm.trans hw'))
  refine ⟨⟨by simp [succeeds], by simp [succeeds, hattached], by simp [succeeds]⟩, ?_,
    fun _ _ _ _ => trivial⟩
  simp [PollReport.Counts, stillRunning, succeeds, hattached]

theorem updates_answered_tinyXml :
    ∃ w fs', main (underP (ascii "c")) tinyXmlEnvironment .empty = .ok (0, fs') ∧
      Looped (underP (ascii "c")) tinyXmlEnvironment .empty oneFileLoaded w ∧
      (answeredFiles w.trace).Perm [ascii "x"] := by
  have hone : (oneFileLoaded.updates (underP (ascii "c")) tinyXmlEnvironment .empty).getFiles =
      channelC.getFiles := rfl
  have hapart : UrlsApart (oneFileLoaded.updates (underP (ascii "c")) tinyXmlEnvironment .empty)
      oneFileLoaded.urlPrefix := by
    intro f g hf hg _
    rw [hone] at hf hg
    obtain ⟨fo, hfo⟩ := Option.ne_none_iff_exists'.mp hf
    obtain ⟨go, hgo⟩ := Option.ne_none_iff_exists'.mp hg
    rw [(eq_of_mem_channelC hfo).1, (eq_of_mem_channelC hgo).1]
  rcases updates_answered (underP (ascii "c")) tinyXmlEnvironment .empty oneFileLoaded
    (loadLists_oneFile _) hapart promised_tinyXmlEnvironment with
    ⟨w, fs', hmain, hlooped, hall, -⟩ | ⟨-, hnil | hfew⟩
  · exact ⟨w, fs', hmain, hlooped, hall⟩
  · exact (List.cons_ne_nil _ _ hnil).elim
  · exact absurd hfew (by decide)

end LibWfut
