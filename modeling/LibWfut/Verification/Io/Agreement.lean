import LibWfut.Verification.Files.Agreement
import LibWfut.Verification.Download.Handling

/-! # Calls on two trees

Of the whole state only the tree may differ: then a call has the same result, as long as
the trees agree on what its downloads and its handlers reach. -/

namespace LibWfut

open FileTree Machine Relation

/-! ## What does not look at the tree -/

theorem multiPerform_fs {w v : World} {r : PollReport} (h : w.multiPerform r = .ok v) :
    v.fs = w.fs := by
  obtain ⟨u, hu, h⟩ := bind_eq_ok h
  have hfs : u.fs = w.fs := by
    refine run_unchanged _ (fun s c t ht => ?_) hu
    obtain ⟨e, ds, -, -, rfl⟩ := performWrite_eq_ok ht
    rfl
  rw [← Except.ok.inj h]
  exact hfs

section Frame

variable (w : World) (fs : FileSystem)

theorem performWrite_frame (c : WriteCall) :
    World.performWrite { w with fs := fs } c =
      (w.performWrite c).map fun v => { v with fs := fs } := by
  unfold World.performWrite
  cases w.easy c.handle with
  | none => rfl
  | some e =>
      have hderef : World.deref { w with fs := fs } e.priv = w.deref e.priv := rfl
      simp only [hderef]
      cases w.deref e.priv with
      | error f => rfl
      | ok ds => rfl

theorem run_performWrite_frame (cs : List WriteCall) :
    run World.performWrite { w with fs := fs } cs =
      (run World.performWrite w cs).map fun v => { v with fs := fs } := by
  induction cs generalizing w with
  | nil => rfl
  | cons c cs ih =>
      rw [run_cons, run_cons, performWrite_frame]
      cases w.performWrite c with
      | error f => rfl
      | ok v => exact ih v

theorem multiPerform_frame (r : PollReport) :
    World.multiPerform { w with fs := fs } r =
      (w.multiPerform r).map fun v => { v with fs := fs } := by
  unfold World.multiPerform
  rw [run_performWrite_frame]
  cases run World.performWrite w r.writes with
  | error f => rfl
  | ok v => rfl

theorem multiRemoveHandle_frame (h : Handle) :
    World.multiRemoveHandle { w with fs := fs } h =
      (w.multiRemoveHandle h).map fun v => { v with fs := fs } := by
  unfold World.multiRemoveHandle
  cases w.easy h with
  | none => rfl
  | some e => rfl

theorem multiAddHandle_frame (h : Handle) :
    World.multiAddHandle { w with fs := fs } h =
      (w.multiAddHandle h).map fun v => { v with fs := fs } := by
  unfold World.multiAddHandle
  cases w.easy h with
  | none => rfl
  | some e =>
      simp only [Except.map]
      split
      · rfl
      · rfl

theorem easyCleanup_frame (h : Handle) :
    World.easyCleanup { w with fs := fs } h =
      (w.easyCleanup h).map fun v => { v with fs := fs } := by
  unfold World.easyCleanup
  cases w.easy h with
  | none => rfl
  | some e => rfl

theorem delete_frame (p : Ptr) :
    World.delete { w with fs := fs } p = (w.delete p).map fun v => { v with fs := fs } := by
  unfold World.delete
  cases w.heap p with
  | none => rfl
  | some ds => rfl

theorem eraseEntry_frame (k : Bytes) :
    World.eraseEntry { w with fs := fs } k =
      (w.eraseEntry k).map fun v => { v with fs := fs } := by
  unfold World.eraseEntry
  cases w.files[k]? with
  | none => rfl
  | some p => rfl

theorem releaseDownload_frame (p : Ptr) :
    releaseDownload p { w with fs := fs } =
      (releaseDownload p w).map fun v => { v with fs := fs } := by
  have hderef : World.deref { w with fs := fs } p = w.deref p := rfl
  unfold releaseDownload
  rw [hderef]
  cases w.deref p with
  | error f => rfl
  | ok ds =>
      simp only [ok_bind, eraseEntry_frame]
      cases w.eraseEntry ds.url with
      | error f => rfl
      | ok v =>
          simp only [Except.map, ok_bind]
          cases ds.handle with
          | none => exact delete_frame v fs p
          | some h =>
              simp only [easyCleanup_frame]
              cases v.easyCleanup h with
              | error f => rfl
              | ok u => exact delete_frame u fs p

theorem attachLoop_frame (k : ℕ) (n : Int32) :
    attachLoop k n { w with fs := fs } =
      (attachLoop k n w).map fun r => (r.1, { r.2 with fs := fs }) := by
  induction k generalizing w n with
  | zero => rfl
  | succ k ih =>
      by_cases hnil : w.handles = []
      · have hstep : ∀ v : World, v.handles = [] → attachLoop (k + 1) n v = attachLoop k n v := by
          intro v hv
          simp [attachLoop, hv]
        rw [hstep w hnil, hstep { w with fs := fs } hnil]
        exact ih w n
      · obtain ⟨h, rest, hcons⟩ := List.exists_cons_of_ne_nil hnil
        have hstep : ∀ v : World, v.handles = h :: rest → attachLoop (k + 1) n v =
            v.multiAddHandle h >>= fun u => attachLoop k (n + 1) { u with handles := rest } := by
          intro v hv
          simp [attachLoop, hv]
        rw [hstep w hcons, hstep { w with fs := fs } hcons, multiAddHandle_frame]
        cases w.multiAddHandle h with
        | error f => rfl
        | ok v => exact ih { v with handles := rest } (n + 1)

theorem queueFile_frame (path filename url : Bytes) (crc : ULong) (exec : Bool) :
    (queueFile path filename url crc exec { w with fs := fs }).2 =
      { (queueFile path filename url crc exec w).2 with fs := fs } := by
  unfold queueFile
  cases w.files[url]? with
  | none => rfl
  | some p => rfl

theorem shutdownFirst_frame (k : Bytes) (p : Ptr) :
    shutdownFirst k p { w with fs := fs } =
      (shutdownFirst k p w).map fun v => { v with fs := fs } := by
  have hderef : ∀ u : World, World.deref { u with fs := fs } p = u.deref p := fun _ => rfl
  have hrelease : ∀ u : World,
      (World.deref { u with fs := fs } p >>= fun ds =>
        (World.store { u with fs := fs } p { ds with fp := none }).delete p >>= fun v =>
          v.eraseEntry k) =
        (u.deref p >>= fun ds => (u.store p { ds with fp := none }).delete p >>= fun v =>
          v.eraseEntry k).map fun v => { v with fs := fs } := by
    intro u
    rw [hderef]
    cases u.deref p with
    | error f => rfl
    | ok ds =>
        have hdelete := delete_frame (u.store p { ds with fp := none }) fs p
        simp only [ok_bind]
        change World.delete { u.store p { ds with fp := none } with fs := fs } p >>= _ = _
        rw [hdelete]
        cases (u.store p { ds with fp := none }).delete p with
        | error f => rfl
        | ok v => exact eraseEntry_frame v fs k
  unfold shutdownFirst
  rw [hderef]
  cases w.deref p with
  | error f => rfl
  | ok ds =>
      simp only [ok_bind]
      cases ds.handle with
      | none => exact hrelease w
      | some h =>
          simp only [easyCleanup_frame]
          cases w.easyCleanup h with
          | error f => rfl
          | ok v => exact hrelease (v.store p { ds with handle := none })

theorem shutdownLoop_frame (fuel : ℕ) :
    shutdownLoop fuel { w with fs := fs } =
      (shutdownLoop fuel w).map fun v => { v with fs := fs } := by
  have hfiles : ∀ u : World, ({ u with fs := fs } : World).files = u.files := fun _ => rfl
  induction fuel generalizing w with
  | zero =>
      unfold shutdownLoop
      rw [hfiles]
      cases OrderedMap.first w.files with
      | none => rfl
      | some e => rfl
  | succ fuel ih =>
      unfold shutdownLoop
      rw [hfiles]
      cases OrderedMap.first w.files with
      | none => rfl
      | some e =>
          simp only [shutdownFirst_frame]
          cases shutdownFirst e.1 e.2 w with
          | error f => rfl
          | ok v => exact ih v

end Frame

/-! ## Messages -/

theorem multiPerform_msgs {w v : World} {r : PollReport} (h : w.multiPerform r = .ok v) :
    v.msgs = w.msgs ++ r.done := by
  obtain ⟨u, hu, h⟩ := bind_eq_ok h
  have hmsgs : u.msgs = w.msgs := by
    refine run_unchanged _ (fun s c t ht => ?_) hu
    obtain ⟨e, ds, -, -, rfl⟩ := performWrite_eq_ok ht
    rfl
  rw [← Except.ok.inj h, hmsgs]

theorem releaseDownload_msgs {w v : World} {p : Ptr} (h : releaseDownload p w = .ok v) :
    v.msgs = w.msgs := by
  unfold releaseDownload at h
  obtain ⟨ds, -, h⟩ := bind_eq_ok h
  obtain ⟨w₁, hw₁, h⟩ := bind_eq_ok h
  have h₁ := eraseEntry_eq_ok hw₁
  subst h₁
  cases hh : ds.handle with
  | none =>
      simp only [hh, ok_bind] at h
      rw [delete_eq_ok h]
  | some k =>
      simp only [hh] at h
      obtain ⟨w₂, hw₂, h⟩ := bind_eq_ok h
      rw [delete_eq_ok h, easyCleanup_eq_ok hw₂]

/-- Handling a message brings no other one. -/
theorem handleMessage_msgs {emit : Emit} (hcalm : Calm emit) {w v : World} {m m' : CurlMsg}
    (h : handleMessage emit m w = .ok v) (hm : m' ∈ v.msgs) : m' ∈ w.msgs := by
  unfold handleMessage at h
  obtain ⟨p, -, h⟩ := bind_eq_ok h
  obtain ⟨ds, -, h⟩ := bind_eq_ok h
  obtain ⟨w₁, hw₁, h⟩ := bind_eq_ok h
  obtain ⟨w₂, hemit, h⟩ := bind_eq_ok h
  obtain ⟨fs, rfl⟩ := hcalm _ _ _ hemit
  rw [releaseDownload_msgs h] at hm
  rw [multiRemoveHandle_eq_ok hw₁] at hm
  exact (List.mem_filter.mp hm).1

theorem attachLoop_msgs {w v : World} {k : ℕ} {n n' : Int32}
    (h : attachLoop k n w = .ok (n', v)) : v.msgs = w.msgs := by
  induction k generalizing w n with
  | zero =>
      obtain ⟨-, rfl⟩ := Prod.mk.inj (Except.ok.inj h)
      rfl
  | succ k ih =>
      unfold attachLoop at h
      split at h
      · exact ih h
      · obtain ⟨w₁, hw₁, h⟩ := bind_eq_ok h
        have hmsgs : w₁.msgs = w.msgs := by
          unfold World.multiAddHandle at hw₁
          split at hw₁
          · rw [← Except.ok.inj hw₁]
            split <;> rfl
          · simp at hw₁
        exact (ih h).trans hmsgs

/-! ## Two trees -/

/-- The states differ in their trees at most, which are related. -/
def Agrees (R : FileSystem → FileSystem → Prop) (w w' : World) : Prop :=
  ∃ fs, w' = { w with fs := fs } ∧ R w.fs fs

/-- A delivery does the same on both, where a success finds the trees in the closer relation
`Q`. -/
def EmitAgrees (R Q : FileSystem → FileSystem → Prop) (emit : Emit) : Prop :=
  ∀ e w w', Agrees R w w' → ((completedFile e).isSome → Agrees Q w w') →
    Related (Agrees R) (emit e w) (emit e w')

/-- A finished transfer to the target does the same on both, and a success brings the trees
into the relation `Q`. -/
def StoresAlike (R Q : FileSystem → FileSystem → Prop) (m : CurlMsg) (target : Bytes) : Prop :=
  ∀ ds fs fs', ds.target = target → R fs fs' →
    (finishTransfer m ds fs').1 = (finishTransfer m ds fs).1 ∧
      R (finishTransfer m ds fs).2 (finishTransfer m ds fs').2 ∧
      ((finishTransfer m ds fs).1 = none →
        Q (finishTransfer m ds fs).2 (finishTransfer m ds fs').2)

/-- So does every message that may come. -/
structure WorldAlike (R Q : FileSystem → FileSystem → Prop) (Ok : CurlMsg → Prop) (w : World) :
    Prop where
  msgs : ∀ m ∈ w.msgs, Ok m
  stores : ∀ p ds, w.heap p = some ds → ∀ m, Ok m → StoresAlike R Q m ds.target

section Agree

variable {R Q : FileSystem → FileSystem → Prop} {Ok : CurlMsg → Prop} {w w' : World} {emit : Emit}

theorem WorldAlike.continues (h : WorldAlike R Q Ok w) (hc : Continues w w')
    (hm : ∀ m ∈ w'.msgs, Ok m) : WorldAlike R Q Ok w' := by
  constructor
  case msgs => exact hm
  case stores =>
    intro p ds hp
    obtain ⟨d, hd, hjob⟩ := hc p ds hp
    have htarget : ds.target = d.target := by
      rw [DataStruct.target, DataStruct.target, hjob.path, hjob.filename]
    rw [htarget]
    exact h.stores p d hd

/-- An operation that does not look at the tree. -/
theorem agrees_frame {f : World → Except Fault World}
    (hframe : ∀ w fs, f { w with fs := fs } = (f w).map fun v => { v with fs := fs })
    (hfs : ∀ w v, f w = .ok v → v.fs = w.fs) (h : Agrees R w w') :
    Related (Agrees R) (f w) (f w') := by
  obtain ⟨fs, rfl, hagree⟩ := h
  refine .of_map (hframe w fs) ?_
  intro v hv
  have hsame := hfs w v hv
  exact ⟨fs, rfl, hsame ▸ hagree⟩

theorem handleMessage_agrees (hemit : EmitAgrees R Q emit) (h : Agrees R w w') (m : CurlMsg)
    (hs : ∀ p ds, w.heap p = some ds → StoresAlike R Q m ds.target) :
    Related (Agrees R) (handleMessage emit m w) (handleMessage emit m w') := by
  obtain ⟨fs, rfl, hagree⟩ := h
  unfold handleMessage
  have hpriv : World.easyGetinfoPrivate { w with fs := fs } m.handle =
      w.easyGetinfoPrivate m.handle := rfl
  rw [hpriv]
  cases w.easyGetinfoPrivate m.handle with
  | error f => exact .error f
  | ok p =>
      simp only [ok_bind]
      have hderef : World.deref { w with fs := fs } p = w.deref p := rfl
      rw [hderef]
      cases hds : w.deref p with
      | error f => exact .error f
      | ok ds =>
          simp only [ok_bind]
          obtain ⟨herr, hfs, hclose⟩ := hs p ds (deref_eq_ok hds) ds w.fs fs rfl hagree
          rw [herr, multiRemoveHandle_frame w (finishTransfer m ds fs).2,
            multiRemoveHandle_frame w (finishTransfer m ds w.fs).2]
          cases w.multiRemoveHandle m.handle with
          | error f => exact .error f
          | ok v =>
              simp only [Except.map, ok_bind]
              refine (hemit _ _ _ ⟨_, rfl, hfs⟩ ?_).bind ?_
              · intro hsome
                refine ⟨_, rfl, hclose ?_⟩
                by_contra hne
                rw [completedFile_outcome, if_neg hne] at hsome
                simp at hsome
              · intro u u' _ _ hu
                refine agrees_frame (f := releaseDownload p)
                  (fun u fs => releaseDownload_frame u fs p) ?_ hu
                intro u v hv
                obtain ⟨_, _, hdrop⟩ := releaseDownload_drops hv
                exact hdrop.fs

theorem drain_agrees (hemit : EmitAgrees R Q emit) (hcalm : Calm emit) {n : ℕ}
    (ht : Traced w) (hc : WorldAlike R Q Ok w) (h : Agrees R w w') :
    Related (fun a b => WorldAlike R Q Ok a ∧ Agrees R a b) (drain emit n w) (drain emit n w') := by
  induction n generalizing w w' with
  | zero => exact .ok ⟨hc, h⟩
  | succ n ih =>
      obtain ⟨fs, rfl, hagree⟩ := h
      by_cases hnil : w.msgs = []
      · have hstep : ∀ v : World, v.msgs = [] → drain emit (n + 1) v = .ok v := by
          intro v hv
          simp [drain, hv]
        rw [hstep w hnil, hstep { w with fs := fs } hnil]
        exact .ok ⟨hc, fs, rfl, hagree⟩
      · obtain ⟨m, rest, hcons⟩ := List.exists_cons_of_ne_nil hnil
        have hstep : ∀ v : World, v.msgs = m :: rest → drain emit (n + 1) v =
            (handleMessage emit m { v with msgs := rest }).bind (drain emit n) := by
          intro v hv
          simp [drain, hv]
        rw [hstep w hcons, hstep { w with fs := fs } hcons]
        have hpop : Move emit w { w with msgs := rest } := .shift ⟨rfl, rfl, rfl, rfl, rfl, rfl⟩
        have hmem : ∀ m' ∈ m :: rest, Ok m' := hcons ▸ hc.msgs
        have htp := ht.move hcalm.requeues hpop
        have hcp : WorldAlike R Q Ok { w with msgs := rest } :=
          hc.continues (hpop.continues hcalm) fun m' hm' => hmem m' (List.mem_cons_of_mem _ hm')
        have hsame : Agrees R { w with msgs := rest } { w with msgs := rest, fs := fs } :=
          ⟨fs, rfl, hagree⟩
        have hstores : ∀ p ds, w.heap p = some ds → StoresAlike R Q m ds.target :=
          fun p ds hp => hc.stores p ds hp m (hmem m (List.mem_cons_self ..))
        refine (handleMessage_agrees hemit hsame m hstores).bind ?_
        intro v v' hv _ hvv
        have hmove := Move.finish m (handleMessage_finishes hcalm.requeues htp hv)
        refine ih (htp.move hcalm.requeues hmove) (hcp.continues (hmove.continues hcalm) ?_) hvv
        exact fun m' hm' => hcp.msgs m' (handleMessage_msgs hcalm hv hm')

theorem poll_agrees (hemit : EmitAgrees R Q emit) (hcalm : Calm emit) (r : PollReport)
    (hr : ∀ m ∈ r.done, Ok m) (ht : Traced w) (hc : WorldAlike R Q Ok w) (h : Agrees R w w') :
    Related (fun a b => a.1 = b.1 ∧ WorldAlike R Q Ok a.2 ∧ Agrees R a.2 b.2) (poll emit r w)
      (poll emit r w') := by
  have hperform : Related (Agrees R) (w.multiPerform r) (w'.multiPerform r) := by
    refine agrees_frame (f := fun w => w.multiPerform r) (fun w fs => multiPerform_frame w fs r) ?_ h
    exact fun u v hv => multiPerform_fs hv
  unfold poll
  refine hperform.bind ?_
  intro v v' hv _ hvv
  have hmoves := multiPerform_moves emit hv
  have hmsgs : v'.msgs = v.msgs := by
    obtain ⟨fs, rfl, -⟩ := hvv
    rfl
  have hcv : WorldAlike R Q Ok v := by
    refine hc.continues (continues_of_moves hcalm hmoves) ?_
    intro m hm
    rw [multiPerform_msgs hv] at hm
    rcases List.mem_append.mp hm with hm | hm
    · exact hc.msgs m hm
    · exact hr m hm
  rw [hmsgs]
  refine (drain_agrees hemit hcalm (ht.moves hcalm.requeues hmoves) hcv hvv).bind ?_
  rintro u _ - - ⟨hcu, fs, rfl, hagree⟩
  simp only
  split
  · refine .of_map (attachLoop_frame u fs _ _) ?_
    rintro ⟨n, x⟩ hx
    have hshift := attachLoop_shifts hx
    refine ⟨rfl, hcu.continues (continues_of_heap_eq hshift.heap) ?_, fs, rfl,
      hshift.fs ▸ hagree⟩
    rw [attachLoop_msgs hx]
    exact hcu.msgs
  · exact .ok ⟨rfl, hcu, fs, rfl, hagree⟩

end Agree

end LibWfut
