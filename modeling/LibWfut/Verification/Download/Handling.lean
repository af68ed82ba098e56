import LibWfut.Verification.Io.Quiet
import LibWfut.Verification.Io.Returned
import LibWfut.Verification.Files.Copy

/-! # The messages of a run

A sequence of polls changes the files and emits signals only through the messages it
handles, one after the other. -/

namespace LibWfut

open FileTree List Machine

/-- A message, the state it is handled in and the download it is about. -/
structure Handling where
  state : World
  msg : CurlMsg
  ds : DataStruct

namespace Handling

/-- The error message, `none` on success. -/
def error (h : Handling) : Option Bytes :=
  (finishTransfer h.msg h.ds h.state.fs).1

/-- The files afterwards. -/
def fs (h : Handling) : FileSystem :=
  (finishTransfer h.msg h.ds h.state.fs).2

def place (h : Handling) : Location :=
  pathPlace h.state.fs h.ds.target

/-- Where directories are made. -/
def made (h : Handling) : List Location :=
  if Arrived h.msg h.ds then
    (madeDirs h.msg.storage (parentPaths h.ds.target) h.state.fs).map (pathPlace h.state.fs)
  else []

/-- Where a file is stored. -/
def stored (h : Handling) : List Location :=
  if h.error = none then [h.place] else []

/-- The filename of a signal of success. -/
def completed (h : Handling) : Option Bytes :=
  if h.error = none then some h.ds.filename else none

/-- Will the stored file be readable? -/
def readable (h : Handling) : Bool :=
  readableAfter h.msg.storage h.state.fs h.place

/-- The copy is reached, and opens the target. -/
def Copied (h : Handling) : Prop :=
  Arrived h.msg h.ds ∧ (copyFile h.msg.storage h.ds.fp h.ds.target h.state.fs).1 = 0

instance (h : Handling) : Decidable h.Copied :=
  inferInstanceAs (Decidable (_ ∧ _))

/-- What is stored at the place, if anything is. -/
def contentAt (h : Handling) (l : Location) : Option Bytes :=
  if h.Copied ∧ h.place = l then some (copiedContent h.msg.storage h.ds.fp) else none

/-- The execute bits of what stands at the place are set, whatever the copy returned. -/
def SetsBits (h : Handling) (l : Location) : Prop :=
  Arrived h.msg h.ds ∧ h.ds.executable = true ∧ h.msg.storage.chmodOk = true ∧
    (createParentDirs h.msg.storage h.ds.target h.state.fs).2.resolve (cStr h.ds.target) = some l

instance (h : Handling) (l : Location) : Decidable (h.SetsBits l) :=
  inferInstanceAs (Decidable (_ ∧ _ ∧ _ ∧ _))

/-- What the message makes of a node at the place. -/
def leaves (l : Location) (n : Node) (h : Handling) : Node :=
  { n with
    kind := (h.contentAt l).elim n.kind .regular
    mode := if h.SetsBits l then n.mode ||| executeBits else n.mode }

end Handling

/-! ## One message -/

theorem osSetExecutable_grows (env : Storage) (file : Bytes) (fs : FileSystem) :
    FileSystem.Grows [] [] fs (osSetExecutable env file fs) := by
  rcases osSetExecutable_cases env file fs with heq | ⟨l, -, -, heq⟩
  · rw [heq]
    exact .refl fs
  · rw [heq]
    exact FileSystem.grows_addMode ..

/-- A message fails before the copy, in the copy or not at all. -/
theorem Handling.cases (h : Handling) :
    (¬Arrived h.msg h.ds ∧ h.error ≠ none ∧ h.fs = h.state.fs) ∨
      (Arrived h.msg h.ds ∧ h.error ≠ none ∧ FileSystem.Grows [] []
        (createParentDirs h.msg.storage h.ds.target h.state.fs).2 h.fs) ∨
      (Arrived h.msg h.ds ∧ h.error = none ∧ ∃ fs',
        (createParentDirs h.msg.storage h.ds.target h.state.fs).2.resolve (cStr h.ds.target) =
            some h.place ∧
          Stored h.msg.storage (createParentDirs h.msg.storage h.ds.target h.state.fs).2 h.place
            (copiedContent h.msg.storage h.ds.fp) fs' ∧ FileSystem.Grows [] [] fs' h.fs) := by
  obtain ⟨w, m, ds⟩ := h
  simp only [error, Handling.fs]
  by_cases ha : Arrived m ds
  · right
    have hchmod : ∀ fs : FileSystem, FileSystem.Grows [] [] fs
        (if ds.executable then osSetExecutable m.storage ds.target fs else fs) := by
      intro fs
      split
      · exact osSetExecutable_grows ..
      · exact .refl fs
    rw [finishTransfer_of ha]
    rcases copyFile_cases m.storage ds.fp ds.target w.fs with heq | ⟨l, fs', hl, hstored, heq⟩
    · left
      rw [heq]
      exact ⟨ha, by simp, hchmod _⟩
    · right
      rw [heq]
      have hplace : l = pathPlace w.fs ds.target := eq_pathPlace_of_resolve hl
      subst hplace
      exact ⟨ha, by simp, fs', hl, hstored, hchmod _⟩
  · left
    obtain ⟨message, heq⟩ := finishTransfer_of_not ha
    rw [heq]
    exact ⟨ha, by simp, rfl⟩

/-- Directories are made where `createParentDirs` makes them, and a file is stored on
success only. -/
theorem Handling.grows (h : Handling) :
    FileSystem.Grows h.made h.stored h.state.fs h.fs := by
  have hdirs := createParentDirs_grows h.msg.storage h.ds.target h.state.fs
  rcases h.cases with ⟨ha, herr, hfs⟩ | ⟨ha, herr, hfs⟩ | ⟨ha, herr, fs', -, hstored, hfs⟩
  · simp only [made, ha, stored, herr, ite_false, hfs]
    exact .refl _
  · simp only [made, ha, stored, herr, ite_true, ite_false]
    simpa using hdirs.trans hfs
  · simp only [made, ha, stored, herr, ite_true]
    simpa using (hdirs.trans hstored.grows).trans hfs

/-- After a signal of success the target is there. -/
theorem Handling.lookup (h : Handling) (herr : h.error = none) :
    ∃ n, h.fs.lookup (cStr h.ds.target) = some n ∧ n.readable = h.readable := by
  rcases h.cases with ⟨-, hne, -⟩ | ⟨-, hne, -⟩ | ⟨-, -, fs', hl, hstored, hfs⟩
  · exact absurd herr hne
  · exact absurd herr hne
  · obtain ⟨n, hn, hk, hr⟩ := hstored.node
    have hnotmade : h.place ∉
        (madeDirs h.msg.storage (parentPaths h.ds.target) h.state.fs).map
          (pathPlace h.state.fs) := by
      intro hm
      have hdir := hstored.isDir h.place
      rw [FileSystem.isDir, FileSystem.isDir, createParentDirs_node, if_pos hm, hn] at hdir
      simp [Node.isDir, hk, newDirectory] at hdir
    have hreadable : n.readable = h.readable := by
      rw [hr, readable, readableAfter, createParentDirs_node, if_neg hnotmade, readableAfter]
    have hlookup : fs'.lookup (cStr h.ds.target) = some n := by
      rw [FileSystem.lookup, hstored.grows.resolve hl, Option.bind_some, hn]
    obtain ⟨n', hn', hr'⟩ := hfs.lookup hlookup
    exact ⟨n', hn', hr'.trans hreadable⟩

/-! ## One place -/

theorem Handling.error_eq_none_iff (h : Handling) : h.error = none ↔ h.Copied := by
  rw [Handling.error, Copied]
  by_cases ha : Arrived h.msg h.ds
  · rw [finishTransfer_of ha]
    simp [ha]
  · obtain ⟨message, heq⟩ := finishTransfer_of_not ha
    simp [heq, ha]

theorem Handling.contentAt_eq_none_iff (h : Handling) (l : Location) :
    h.contentAt l = none ↔ l ∉ h.stored := by
  simp only [contentAt, stored, ← h.error_eq_none_iff]
  by_cases herr : h.error = none
  · simp [herr, eq_comm]
  · simp [herr]

/-- The copy does not change what the target's path leads to. -/
theorem copyFile_resolve (env : Storage) (fp : Option Bytes) (target path : Bytes)
    (fs : FileSystem) : (copyFile env fp target fs).2.resolve (cStr path) =
      (createParentDirs env target fs).2.resolve (cStr path) := by
  rcases copyFile_cases env fp target fs with heq | ⟨l, fs', -, hstored, heq⟩
  · rw [heq]
  · rw [heq]
    exact FileSystem.resolve_congr hstored.grows.cwd hstored.isDir _

section Node

variable {h : Handling} {l : Location} {n : Node}

/-- The copy leaves a node or gives it another content. -/
theorem Handling.node_copyFile (ha : Arrived h.msg h.ds) (hn : h.state.fs.node l = some n) :
    (copyFile h.msg.storage h.ds.fp h.ds.target h.state.fs).2.node l =
      some { n with kind := (h.contentAt l).elim n.kind .regular } := by
  have hparents : (createParentDirs h.msg.storage h.ds.target h.state.fs).2.node l = some n := by
    rw [createParentDirs_node, if_neg, hn]
    intro hm
    obtain ⟨p, hp, rfl⟩ := List.mem_map.mp hm
    rw [node_of_mem_madeDirs hp] at hn
    simp at hn
  unfold contentAt
  split
  · rename_i hc
    obtain ⟨⟨-, hok⟩, rfl⟩ := hc
    exact copyFile_node_of_some hok hparents
  · rename_i hc
    rcases copyFile_cases h.msg.storage h.ds.fp h.ds.target h.state.fs with
      heq | ⟨m, fs', hm, hstored, heq⟩
    · rw [heq]
      exact hparents
    · rw [heq]
      have hplace : h.place = m := (eq_pathPlace_of_resolve hm).symm
      have hne : l ≠ m := by
        rintro rfl
        exact hc ⟨⟨ha, by rw [heq]⟩, hplace⟩
      exact (hstored.others l hne).trans hparents

/-- A node stays, and gets at most another content and the execute bits. -/
theorem Handling.node_of_some (hn : h.state.fs.node l = some n) :
    h.fs.node l = some (h.leaves l n) := by
  by_cases ha : Arrived h.msg h.ds
  · rw [Handling.fs, finishTransfer_of ha]
    by_cases hx : h.ds.executable = true
    · simp only [hx, ite_true]
      rw [osSetExecutable_node, copyFile_resolve, node_copyFile ha hn, Option.map_some]
      simp only [leaves, SetsBits, ha, hx, true_and]
      split <;> rfl
    · have hbits : ¬h.SetsBits l := fun hb => hx hb.2.1
      rw [leaves, if_neg hbits]
      simp only [hx]
      exact node_copyFile ha hn
  · obtain ⟨message, heq⟩ := finishTransfer_of_not ha
    have hcontent : h.contentAt l = none := if_neg fun hc => ha hc.1.1
    have hbits : ¬h.SetsBits l := fun hb => ha hb.1
    rw [Handling.fs, heq, hn, leaves, hcontent, if_neg hbits]
    rfl

end Node

/-! ## What many messages do -/

/-- The filename of a signal of success. -/
def completedFile : Event → Option Bytes
  | .complete _ _ filename => some filename
  | _ => none

theorem completedFile_outcome (p : Ptr) (ds : DataStruct) (error : Option Bytes) :
    completedFile (outcome p ds error) = if error = none then some ds.filename else none := by
  cases error <;> rfl

/-- The files whose success was signalled between two states. -/
def completedBetween (w w' : World) : List Bytes :=
  (w'.trace.drop w.trace.length).filterMap completedFile

/-- What became of the files and the downloads through the handling of messages. -/
structure Downloads (hs : List Handling) (w w' : World) : Prop where
  grows : FileSystem.Grows (hs.flatMap Handling.made) (hs.flatMap Handling.stored) w.fs w'.fs
  trace : ∃ events, w'.trace = w.trace ++ events ∧
    events.filterMap completedFile = hs.filterMap Handling.completed
  node : ∀ l n, w.fs.node l = some n → w'.fs.node l = some (hs.foldl (Handling.leaves l) n)
  lookup : ∀ h ∈ hs, h.error = none →
    ∃ n, w'.fs.lookup (cStr h.ds.target) = some n ∧ n.readable = h.readable
  cwd : ∀ h ∈ hs, h.state.fs.cwd = w.fs.cwd
  known : ∀ h ∈ hs, ∃ p d, w.heap p = some d ∧ d.path = h.ds.path ∧ d.filename = h.ds.filename
  live : ∀ p ds, w'.heap p = some ds →
    ∃ d, w.heap p = some d ∧ d.path = ds.path ∧ d.filename = ds.filename

namespace Downloads

variable {hs hs' : List Handling} {w w' w'' : World}

/-- A part of a run without messages. -/
theorem of_eq (hfs : w'.fs = w.fs) (htrace : w'.trace = w.trace)
    (hlive : ∀ p ds, w'.heap p = some ds →
      ∃ d, w.heap p = some d ∧ d.path = ds.path ∧ d.filename = ds.filename) :
    Downloads [] w w' where
  grows := by
    rw [hfs]
    exact .refl w.fs
  trace := ⟨[], by simp [htrace], rfl⟩
  node l n hn := by rw [hfs, hn, List.foldl_nil]
  lookup h hm := absurd hm List.not_mem_nil
  cwd h hm := absurd hm List.not_mem_nil
  known h hm := absurd hm List.not_mem_nil
  live := hlive

theorem refl (w : World) : Downloads [] w w :=
  of_eq rfl rfl fun _ ds hp => ⟨ds, hp, rfl, rfl⟩

theorem trans (h : Downloads hs w w') (h' : Downloads hs' w' w'') :
    Downloads (hs ++ hs') w w'' where
  grows := by
    rw [List.flatMap_append, List.flatMap_append]
    exact h.grows.trans h'.grows
  trace := by
    obtain ⟨es, hes, hc⟩ := h.trace
    obtain ⟨es', hes', hc'⟩ := h'.trace
    exact ⟨es ++ es', by rw [hes', hes, List.append_assoc],
      by rw [List.filterMap_append, List.filterMap_append, hc, hc']⟩
  node l n hn := by rw [List.foldl_append, h'.node l _ (h.node l n hn)]
  lookup := by
    intro k hk herr
    rcases List.mem_append.mp hk with hk | hk
    · obtain ⟨n, hn, hr⟩ := h.lookup k hk herr
      obtain ⟨n', hn', hr'⟩ := h'.grows.lookup hn
      exact ⟨n', hn', hr'.trans hr⟩
    · exact h'.lookup k hk herr
  cwd := by
    intro k hk
    rcases List.mem_append.mp hk with hk | hk
    · exact h.cwd k hk
    · exact (h'.cwd k hk).trans h.grows.cwd
  known := by
    intro k hk
    rcases List.mem_append.mp hk with hk | hk
    · exact h.known k hk
    · obtain ⟨p, d, hd, hpath, hname⟩ := h'.known k hk
      obtain ⟨d₀, hd₀, hpath₀, hname₀⟩ := h.live p d hd
      exact ⟨p, d₀, hd₀, hpath₀.trans hpath, hname₀.trans hname⟩
  live := by
    intro p ds hp
    obtain ⟨d, hd, hpath, hname⟩ := h'.live p ds hp
    obtain ⟨d₀, hd₀, hpath₀, hname₀⟩ := h.live p d hd
    exact ⟨d₀, hd₀, hpath₀.trans hpath, hname₀.trans hname⟩

theorem completedBetween_eq (h : Downloads hs w w') :
    completedBetween w w' = hs.filterMap Handling.completed := by
  obtain ⟨es, hes, hc⟩ := h.trace
  rw [completedBetween, hes, List.drop_left, hc]

end Downloads

theorem Handled.downloads {v v' : World} {m : CurlMsg} {ds : DataStruct} {rest : List CurlMsg}
    (h : Handled v m ds rest v') (hp : v.heap m.handle = some ds) :
    Downloads [⟨v, m, ds⟩] v v' where
  grows := by
    rw [h.fs, List.flatMap_singleton, List.flatMap_singleton]
    exact (Handling.mk v m ds).grows
  trace := by
    refine ⟨_, h.trace, ?_⟩
    simp only [List.filterMap_cons, List.filterMap_nil, completedFile_outcome,
      Handling.completed, Handling.error]
    rfl
  node l n hn := by
    rw [h.fs]
    exact @Handling.node_of_some ⟨v, m, ds⟩ l n hn
  lookup := by
    intro k hk herr
    rw [List.mem_singleton.mp hk] at herr ⊢
    rw [h.fs]
    exact (Handling.mk v m ds).lookup herr
  cwd k hk := by rw [List.mem_singleton.mp hk]
  known k hk := by
    rw [List.mem_singleton.mp hk]
    exact ⟨m.handle, ds, hp, rfl, rfl⟩
  live := by
    intro p d hd
    rw [h.heap] at hd
    split at hd
    · simp at hd
    · exact ⟨d, hd, rfl, rfl⟩

theorem Receives.downloads {w w' : World} (h : Receives w w') : Downloads [] w w' := by
  refine .of_eq h.fs h.trace ?_
  intro p ds hp
  have hne : w.heap p ≠ none := fun hnone => by simp [(h.heap p).mpr hnone] at hp
  obtain ⟨d, hd⟩ := Option.ne_none_iff_exists'.mp hne
  obtain ⟨d', hd', hname, hpath, -⟩ := h.data p d hd
  rw [hp, Option.some.injEq] at hd'
  subst hd'
  exact ⟨d, hd, hpath.symm, hname.symm⟩

/-! ## The messages of a poll, and of many -/

/-- The handling of these messages. -/
def handlings : World → List CurlMsg → List Handling
  | _, [] => []
  | w, m :: rest =>
    match w.heap m.handle, drain signal 1 w with
    | some ds, .ok w' => ⟨w, m, ds⟩ :: handlings w' rest
    | _, _ => []

theorem drain_downloads {w : World} (h : Inv [] w) {msgs : List CurlMsg} (hm : w.msgs = msgs) :
    ∃ w', drain signal msgs.length w = .ok w' ∧ Downloads (handlings w msgs) w w' := by
  induction msgs generalizing w with
  | nil => exact ⟨w, rfl, .refl w⟩
  | cons m rest ih =>
      obtain ⟨ds, hp, hone, hdrain⟩ := drain_cons h hm
      obtain ⟨w', hw', hrest⟩ := ih hone.inv hone.msgs
      refine ⟨w', (hdrain rest.length).trans hw', ?_⟩
      have hfirst : drain signal 1 w = .ok (w.handled m ds rest) := hdrain 0
      simp only [handlings, hp, hfirst]
      exact (hone.downloads hp).trans hrest

/-- The handling of all messages in a sequence of polls. -/
def pollHandlings : World → List PollReport → List Handling
  | _, [] => []
  | w, r :: rs =>
    match w.multiPerform r, step w (.poll r) with
    | .ok v, .ok w' => handlings v v.msgs ++ pollHandlings w' rs
    | _, _ => []

theorem poll_downloads {w : World} (h : Idle w) {r : PollReport} (hr : r.Delivered w) :
    ∃ v n w', w.multiPerform r = .ok v ∧ poll signal r w = .ok (n, w') ∧ Idle w' ∧
      Downloads (handlings v v.msgs) w w' := by
  obtain ⟨n, w', hw', hpolled⟩ := poll_signal h hr
  obtain ⟨w₁, -, hrec, -, hperf, hinv⟩ := multiPerform_ok h.inv h.msgs hr
  obtain ⟨w₂, hdrain, hset⟩ := drain_signal hinv rfl
  obtain ⟨w₂', hdrain', hdown⟩ := drain_downloads hinv rfl
  rw [hdrain, Except.ok.injEq] at hdrain'
  subst hdrain'
  have hstart : Downloads [] w { w₁ with msgs := r.done } :=
    hrec.downloads.trans (.of_eq rfl rfl fun _ ds hp => ⟨ds, hp, rfl, rfl⟩)
  have hend : Downloads [] w₂ w' := by
    simp only [poll, hperf, ok_bind] at hw'
    simp only at hdrain
    rw [hdrain] at hw'
    simp only [ok_bind] at hw'
    split at hw'
    · rw [attachLoop_eq hset.idle.inv, Except.ok.injEq, Prod.mk.injEq] at hw'
      rw [← hw'.2]
      exact .of_eq rfl rfl fun _ ds hp => ⟨ds, hp, rfl, rfl⟩
    · rw [Except.ok.injEq, Prod.mk.injEq] at hw'
      rw [← hw'.2]
      exact .refl w₂
  refine ⟨_, n, w', hperf, hw', hpolled.idle, ?_⟩
  simpa using (hstart.trans hdown).trans hend

theorem run_polls {w : World} (h : Idle w) {rs : List PollReport}
    (hp : Permitted step Op.Allowed w (rs.map Op.poll)) :
    ∃ w', run step w (rs.map Op.poll) = .ok w' ∧ Downloads (pollHandlings w rs) w w' := by
  induction rs generalizing w with
  | nil => exact ⟨w, rfl, .refl w⟩
  | cons r rs ih =>
      obtain ⟨v, n, w₁, hv, hpoll, hidle, hdown⟩ := poll_downloads h hp.1
      have hstep : step w (.poll r) = .ok w₁ := by
        simp only [step, call, hpoll, Except.map]
      obtain ⟨w', hw', hrest⟩ := ih hidle (hp.2 w₁ hstep)
      refine ⟨w', by rw [List.map_cons, run_cons_of_ok _ hstep, hw'], ?_⟩
      simp only [pollHandlings, hv, hstep]
      exact hdown.trans hrest

/-! ## Any poll -/

/-- The poll handles this message, about the download `p`, whatever else it is given. -/
def HandledIn (emit : Emit) (w : World) (r : PollReport) (p : Ptr) (h : Handling) : Prop :=
  ∃ w₁ n v rest, w.multiPerform r = .ok w₁ ∧ drain emit n w₁ = .ok v ∧ v.msgs = h.msg :: rest ∧
    h.state = { v with msgs := rest } ∧ h.state.easyGetinfoPrivate h.msg.handle = .ok p ∧
    h.state.heap p = some h.ds

theorem HandledIn.moves {emit : Emit} {w : World} {r : PollReport} {p : Ptr} {h : Handling}
    (hh : HandledIn emit w r p h) (hd : Requeues emit) (ht : Traced w) :
    Relation.ReflTransGen (Move emit) w h.state := by
  obtain ⟨w₁, n, v, rest, hw₁, hv, -, hstate, -⟩ := hh
  have hperform := multiPerform_moves emit hw₁
  have hdrain := drain_moves hd (ht.moves hd hperform) hv
  rw [hstate]
  exact (hperform.trans hdrain).tail (.shift ⟨rfl, rfl, rfl, rfl, rfl, rfl⟩)

/-- The download of a handled message was there before, with the same job. -/
theorem HandledIn.job {emit : Emit} {w : World} {r : PollReport} {p : Ptr} {h : Handling}
    (hh : HandledIn emit w r p h) (hd : Calm emit) (ht : Traced w) :
    ∃ ds, w.heap p = some ds ∧ ds.SameJob h.ds := by
  have hmoves := hh.moves hd.requeues ht
  obtain ⟨-, -, -, -, -, -, -, -, -, hp⟩ := hh
  exact continues_of_moves hd hmoves p h.ds hp

end LibWfut
