import LibWfut.Verification.FileList.Log
import LibWfut.Verification.Tool.Ground

/-! # Two channels

The places of two channels under one prefix are not apart: the path of the log has no channel
in it. -/

namespace LibWfut

open FileTree Machine Relation

/-! ## Runs that are cut off -/

/-- What is written of a file may end anywhere. -/
structure TextWrite.CutShort (g g' : TextWrite) : Prop where
  openOk : g'.openOk = g.openOk
  newReadable : g'.newReadable = g.newReadable
  kept : ∀ text, g'.kept text <+: g.kept text

/-- The files while a finished transfer is stored. -/
inductive Storing (h : Handling) : FileSystem → Prop
  | directories (k : ℕ) (arrived : Arrived h.msg h.ds) :
      Storing h (makeDirs h.msg.storage ((parentPaths h.ds.target).take k) h.state.fs).2
  | content (k : ℕ) {l : Location} {fs : FileSystem} (arrived : Arrived h.msg h.ds)
      (opened : fopenWrite h.msg.storage
        (createParentDirs h.msg.storage h.ds.target h.state.fs).2 h.ds.target = some (l, fs)) :
      Storing h (fs.setContent l ((copiedContent h.msg.storage h.ds.fp).take k))
  | done : Storing h h.fs

/-- The loop has gone through these reports and goes on. -/
def Looping (emit : Emit) : World → List PollReport → World → Prop
  | w, [], w' => w' = w
  | w, r :: rs, w' => ∃ n v, poll emit r w = .ok (n, v) ∧ n ≠ 0 ∧ Looping emit v rs w'

/-- The files that a run of `main` leaves when it is cut off. -/
inductive CutOff (o : Options) (env : Environment) (fs : FileSystem) : FileSystem → Prop
  | loading : CutOff o env fs fs
  | polling {lists : Loaded} {w w₁ v : World} {before after : List PollReport} {r : PollReport}
      (k : ℕ) (loaded : loadLists o env fs = .ok (some lists))
      (polls : env.polls = before ++ r :: after)
      (looping : Looping (toolEmit env (lists.updates o env fs) o.tmpWfut)
        (lists.queued o env fs) before w)
      (performed : w.multiPerform r = .ok w₁)
      (drained : drain (toolEmit env (lists.updates o env fs) o.tmpWfut) k w₁ = .ok v) :
      CutOff o env fs v.fs
  | storing {lists : Loaded} {w : World} {before after : List PollReport} {r : PollReport}
      {p : Ptr} {h : Handling} {fs' : FileSystem}
      (loaded : loadLists o env fs = .ok (some lists))
      (polls : env.polls = before ++ r :: after)
      (looping : Looping (toolEmit env (lists.updates o env fs) o.tmpWfut)
        (lists.queued o env fs) before w)
      (handled : HandledIn (toolEmit env (lists.updates o env fs) o.tmpWfut) w r p h)
      (stored : Storing h fs') : CutOff o env fs fs'
  | logging {lists : Loaded} {w : World} {before after : List PollReport} {r : PollReport}
      {p : Ptr} {h : Handling} {fo : FileObject} {g : TextWrite}
      (loaded : loadLists o env fs = .ok (some lists))
      (polls : env.polls = before ++ r :: after)
      (looping : Looping (toolEmit env (lists.updates o env fs) o.tmpWfut)
        (lists.queued o env fs) before w)
      (handled : HandledIn (toolEmit env (lists.updates o env fs) o.tmpWfut) w r p h)
      (success : h.error = none)
      (listed : (lists.updates o env fs).getFiles[h.ds.filename]? = some fo)
      (short : (env.logs h.state.trace.length).CutShort g) :
      CutOff o env fs (recordUpdateFile g fo o.tmpWfut h.fs)
  | saving {lists : Loaded} {w : World} {g : TextWrite} (looped : Looped o env fs lists w)
      (short : env.save.CutShort g) :
      CutOff o env fs
        (writeText g (env.print (fileListDocument (lists.final o env fs w))) o.localWfut w.fs)
  | finished {status : Int32} {fs' : FileSystem} (returned : main o env fs = .ok (status, fs')) :
      CutOff o env fs fs'

/-- The files after a run on another channel under the same prefix, cut off at any point. -/
def OtherRan (o : Options) (fs fs' : FileSystem) : Prop :=
  ∃ other env, other.localPath = o.localPath ∧ other.channel ≠ o.channel ∧
    CutOff other env fs fs'

/-- A run on the files `fs'` is the run on the files `fs`. -/
structure SameRun (o : Options) (env : Environment) (fs fs' : FileSystem) : Prop where
  /-- It reads the same lists, the local list among them. -/
  lists : loadLists o env fs' = loadLists o env fs
  /-- It computes the same updates. -/
  updates : ∀ lists, loadLists o env fs = .ok (some lists) →
    lists.updates o env fs' = lists.updates o env fs
  /-- It returns the same status and leaves the same `wfut.xml`. -/
  returned : ∀ status g, main o env fs = .ok (status, g) → ∃ g', main o env fs' = .ok (status, g') ∧
    g'.lookup (cStr o.localWfut) = g.lookup (cStr o.localWfut)
  /-- It has no other fault. -/
  fault : ∀ f, main o env fs = .error f → main o env fs' = .error f

/-! ## The working directory -/

section Cwd

variable {o : Options} {env : Environment} {fs fs' : FileSystem} {updates : ChannelFileList}
  {tmpfile : Bytes} {w w' : World} {place : Location}

/-- The same tree twice, with this working directory. -/
def StaysAt (place : Location) (fs fs' : FileSystem) : Prop :=
  fs' = fs ∧ fs.cwd = place

theorem worldAlike_staysAt (place : Location) (w : World) :
    WorldAlike (StaysAt place) (StaysAt place) (fun _ => True) w := by
  constructor
  case msgs => exact fun _ _ => trivial
  case stores =>
    rintro p ds - m - d gs gs' - ⟨hsame, hcwd⟩
    obtain rfl : gs = gs' := hsame.symm
    have hafter : (finishTransfer m d gs).2.cwd = place :=
      (Handling.mk (World.init 0 gs) m d).grows.cwd.trans hcwd
    exact ⟨rfl, ⟨rfl, hafter⟩, fun _ => ⟨rfl, hafter⟩⟩

theorem emitAgrees_staysAt :
    EmitAgrees (StaysAt place) (StaysAt place) (toolEmit env updates tmpfile) := by
  rintro e w _ ⟨_, rfl, rfl, hcwd⟩ -
  unfold toolEmit
  cases e with
  | queued p r u f => exact .ok ⟨_, rfl, rfl, hcwd⟩
  | failed p u f message => exact .ok ⟨_, rfl, rfl, hcwd⟩
  | complete p u f =>
      simp only
      cases updates.getFiles[f]? with
      | none => exact .error _
      | some fo => exact .ok ⟨_, rfl, rfl, (recordUpdateFile_cwd ..).trans hcwd⟩

theorem agrees_self (w : World) : Agrees (StaysAt w.fs.cwd) w w :=
  ⟨w.fs, rfl, rfl, rfl⟩

theorem drain_cwd (ht : Traced w) {k : ℕ}
    (h : drain (toolEmit env updates tmpfile) k w = .ok w') : w'.fs.cwd = w.fs.cwd := by
  obtain ⟨-, _, -, -, hcwd⟩ := (drain_agrees emitAgrees_staysAt
    (calm_toolEmit env updates tmpfile) ht (worldAlike_staysAt _ w) (agrees_self w)).self h
  exact hcwd

theorem looping_cwd (ht : Traced w) {rs : List PollReport}
    (h : Looping (toolEmit env updates tmpfile) w rs w') :
    w'.fs.cwd = w.fs.cwd ∧ Traced w' := by
  have hcalm := calm_toolEmit env updates tmpfile
  induction rs generalizing w with
  | nil =>
      obtain rfl : w' = w := h
      exact ⟨rfl, ht⟩
  | cons r rs ih =>
      obtain ⟨n, v, hpoll, -, hrest⟩ := h
      obtain ⟨-, -, _, -, -, hv⟩ := (poll_agrees emitAgrees_staysAt hcalm r
        (fun _ _ => trivial) ht (worldAlike_staysAt _ w) (agrees_self w)).self hpoll
      obtain ⟨hcwd, htw'⟩ := ih (ht.moves hcalm.requeues (poll_moves hcalm.requeues ht hpoll)) hrest
      exact ⟨hcwd.trans hv, htw'⟩

theorem handledIn_cwd (ht : Traced w) {r : PollReport} {p : Ptr} {h : Handling}
    (hh : HandledIn (toolEmit env updates tmpfile) w r p h) : h.state.fs.cwd = w.fs.cwd := by
  obtain ⟨w₁, n, v, rest, hw₁, hv, -, hstate, -⟩ := hh
  have hcalm := calm_toolEmit env updates tmpfile
  have ht₁ := ht.moves hcalm.requeues (multiPerform_moves (toolEmit env updates tmpfile) hw₁)
  rw [hstate]
  exact (drain_cwd ht₁ hv).trans (congrArg FileSystem.cwd (multiPerform_fs hw₁))

theorem storing_cwd {h : Handling} (hs : Storing h fs) : fs.cwd = h.state.fs.cwd := by
  cases hs with
  | directories k arrived => exact makeDirs_cwd ..
  | content k arrived opened =>
      rw [FileSystem.cwd_setContent, (fopenWrite_eq_some opened).2.grows.cwd, createParentDirs_cwd]
  | done => exact h.grows.cwd

theorem Looped.cwd {lists : Loaded} (h : Looped o env fs lists w) : w.fs.cwd = fs.cwd := by
  obtain ⟨_, -, -, hloop⟩ := (pollLoop_agrees emitAgrees_staysAt (calm_toolEmit env _ _)
    (fun _ _ _ _ => trivial) traced_queued (worldAlike_staysAt _ _) (agrees_self _)).self h.loop
  rw [hloop, queued_fs]

/-- However far a run got, the working directory is the same. -/
theorem CutOff.cwd (h : CutOff o env fs fs') : fs'.cwd = fs.cwd := by
  cases h with
  | loading => rfl
  | @polling lists w w₁ v before after r k loaded polls looping performed drained =>
      obtain ⟨hcwd, htw⟩ := looping_cwd traced_queued looping
      have hmoves := multiPerform_moves (toolEmit env (lists.updates o env fs) o.tmpWfut) performed
      have ht₁ := htw.moves (calm_toolEmit env _ _).requeues hmoves
      rw [drain_cwd ht₁ drained, multiPerform_fs performed, hcwd, queued_fs]
  | storing loaded polls looping handled stored =>
      obtain ⟨hcwd, htw⟩ := looping_cwd traced_queued looping
      rw [storing_cwd stored, handledIn_cwd htw handled, hcwd, queued_fs]
  | @logging lists w before after r p h fo g loaded polls looping handled success listed short =>
      obtain ⟨hcwd, htw⟩ := looping_cwd traced_queued looping
      rw [recordUpdateFile_cwd, h.grows.cwd, handledIn_cwd htw handled, hcwd, queued_fs]
  | saving looped short => rw [writeText_cwd, looped.cwd]
  | finished returned =>
      rcases main_cases returned with ⟨-, -, rfl⟩ | ⟨lists, w, hlooped, -, rfl⟩
      · rfl
      · rw [finish_cwd, hlooped.cwd]

end Cwd

/-! ## Independence -/

/-- On the same ground it is the same run. -/
theorem SameGround.sameRun {o : Options} {env : Environment} {fs fs' : FileSystem}
    (h : SameGround o env fs fs') : SameRun o env fs fs' where
  lists := h.loadLists_eq
  updates _ hlists := h.updates_eq hlists
  returned status g hg := by
    obtain ⟨⟨status', g'⟩, hg', hstatus, hlookup⟩ := h.main_related.of_ok hg
    simp only at hstatus hlookup
    subst hstatus
    exact ⟨g', hg', hlookup⟩
  fault _ hf := h.main_related.of_error hf

/-- A run after a run on another channel that was cut off anywhere is as without it, if that run
left the places of its paths as they were, but for shared directories that it made. Where
`wfut.xml` is reached through a directory at the path of the log, its entries count as well. -/
theorem channels_apart (o : Options) (env : Environment) (fs fs' : FileSystem)
    (hother : OtherRan o fs fs')
    (hleft : ∀ l ∈ footprint o env fs, fs'.node l = fs.node l ∨
      SharedDirectory o env fs l ∧ fs.node l = none ∧ fs'.node l = some newDirectory)
    (hentries : ThroughLog o fs → fs.isDir (pathPlace fs o.tmpWfut) = true → ∀ c,
      fs'.node (pathPlace fs o.tmpWfut ++ [c]) = fs.node (pathPlace fs o.tmpWfut ++ [c])) :
    SameRun o env fs fs' := by
  obtain ⟨other, env', -, -, hcut⟩ := hother
  exact (sameGround_of_footprint hcut.cwd hleft hentries).sameRun

/-! ## Two channels under `p` -/

def channelA : ChannelFileList :=
  channelC.setName (ascii "a")

/-- The server has the one file in the channel `a`. -/
def otherChannel : Environment :=
  offering (ascii "a") channelA { put := 1000 }

theorem loadLists_otherChannel :
    loadLists (underP (ascii "a")) otherChannel .empty =
      .ok (some (offeredTo (ascii "a") channelA)) := by
  have hplain : restored channelA = channelA := restored_single rfl (by decide +kernel)
  have hload := @loadLists_offered (underP (ascii "a")) otherChannel .empty (ascii "a") .empty
    channelA (readsAs_toOption TinyXml.parse) (nameSurvives_of_plain (by decide +kernel)) rfl rfl
    rfl (by decide) rfl
  rw [hload, hplain]
  rfl

theorem sharedDirectory_p :
    SharedDirectory (underP (ascii "c")) (oneFileEnvironment { put := 1000 }) .empty
      [ascii "p"] := by
  constructor
  case prefixed => exact ⟨ascii "p", by decide, by decide⟩
  case channel => decide
  case lists => decide
  case log => decide
  case granted => simp [oneFileEnvironment, offering, succeeds]

/-- The places of the run on `c`. -/
theorem footprint_oneFile :
    footprint (underP (ascii "c")) (oneFileEnvironment { put := 1000 }) .empty =
      [ascii "p/c/wfut.xml", ascii "p/tempwfut.xml", ascii "p/c//x", ascii "p", ascii "p/c",
        ascii "p/c/"].flatMap fun path => reached [] (cStr path) := by
  have hused : usedPaths (underP (ascii "c")) (oneFileEnvironment { put := 1000 }) .empty =
      [ascii "p/c/wfut.xml", ascii "p/tempwfut.xml", ascii "p/c//x", ascii "p", ascii "p/c",
        ascii "p/c/"] := by
    unfold usedPaths
    rw [loadLists_oneFile]
    rfl
  rw [footprint, hused]
  rfl

/-- A run on `a` that gets to its end has made `p`, and the run on `c` is as it would have
been. -/
theorem channels_apart_finished :
    ∃ fs', main (underP (ascii "a")) otherChannel .empty = .ok (0, fs') ∧
      fs'.node [ascii "p"] = some newDirectory ∧
      SameRun (underP (ascii "c")) (oneFileEnvironment { put := 1000 }) .empty fs' := by
  have hmain := main_of_loaded loadLists_otherChannel
  refine ⟨_, hmain.trans rfl, by decide, ?_⟩
  apply channels_apart
  case hother =>
    exact ⟨underP (ascii "a"), otherChannel, rfl, by decide, .finished (hmain.trans rfl)⟩
  case hentries =>
    intro _ hdir
    exact absurd hdir (by decide)
  case hleft =>
    intro l hl
    rw [footprint_oneFile] at hl
    by_cases hp : l = [ascii "p"]
    · subst hp
      exact .inr ⟨sharedDirectory_p, by decide, by decide⟩
    · left
      revert hp
      revert l
      decide +kernel

/-- What a regular file holds, if it can be read. -/
def readFile (fs : FileSystem) (path : Bytes) : Option Bytes :=
  (fopenRead fs path).bind fun n =>
    match n.kind with
    | .directory => none
    | .regular content => some content

theorem loadText_of_readFile {fs : FileSystem} {path content : Bytes}
    (h : readFile fs path = some content) (env : Environment) :
    loadText env path fs = .ok (some content) := by
  obtain ⟨n, hn, hcontent⟩ := Option.bind_eq_some_iff.mp h
  unfold loadText
  rw [hn]
  cases hk : n.kind with
  | directory => simp [hk] at hcontent
  | regular old => simpa [hk] using hcontent

theorem osExists_of_readFile {fs : FileSystem} {path content : Bytes}
    (h : readFile fs path = some content) : osExists fs path = true := by
  rw [osExists]
  cases hn : fs.lookup (cStr path) with
  | none => simp [readFile, fopenRead, hn] at h
  | some n => rfl

/-- A log that the reader rejects ends the run. -/
theorem mergeTmp_of_unread {env : Environment} {fs : FileSystem} {path content : Bytes}
    (h : readFile fs path = some content) (hload : env.load content = none)
    (files : ChannelFileList) : mergeTmp env path files fs = .ok none := by
  have hlist : getLocalList env path fs = .ok (1, .empty) := by
    rw [getLocalList, loadText_of_readFile h, ok_bind, parseFileList, Option.bind_some, hload]
    rfl
  simp only [mergeTmp, osExists_of_readFile h, hlist, ok_bind]
  rfl

theorem kept_of_length_le {g : TextWrite} {text : Bytes} (hput : text.length ≤ g.put)
    (hlost : g.lost = 0) : g.kept text = text := by
  rw [TextWrite.kept, hlost, Nat.sub_zero, List.take_length, List.take_of_length_le hput]

/-- The run on `a` is cut off behind its file, and its log is not closed. -/
theorem cutOff_unclosed :
    ∃ fs', CutOff (underP (ascii "a")) otherChannel .empty fs' ∧
      osExists fs' (underP (ascii "c")).localWfut = false ∧
      readFile fs' (underP (ascii "c")).tmpWfut =
        some (TextWrite.kept { put := 1000 } (logHeader ++ logRecord (emptyFile (ascii "x")))) := by
  obtain ⟨lists, loaded, hlists⟩ : ∃ lists,
      loadLists (underP (ascii "a")) otherChannel .empty = .ok (some lists) ∧
      lists = offeredTo (ascii "a") channelA :=
    ⟨_, loadLists_otherChannel, rfl⟩
  have hrun : ∃ w w₁ v,
      Looping (toolEmit otherChannel (lists.updates (underP (ascii "a")) otherChannel .empty)
        (underP (ascii "a")).tmpWfut) (lists.queued (underP (ascii "a")) otherChannel .empty)
        [{ running := 0 }] w ∧
      w.multiPerform succeeds = .ok w₁ ∧
      drain (toolEmit otherChannel (lists.updates (underP (ascii "a")) otherChannel .empty)
        (underP (ascii "a")).tmpWfut) 1 w₁ = .ok v ∧
      osExists v.fs (underP (ascii "c")).localWfut = false ∧
      readFile v.fs (underP (ascii "c")).tmpWfut =
        some (TextWrite.kept { put := 1000 } (logHeader ++ logRecord (emptyFile (ascii "x")))) := by
    subst hlists
    exact ⟨_, _, _, ⟨_, _, rfl, by decide, rfl⟩, rfl, rfl, by decide, rfl⟩
  obtain ⟨w, w₁, v, looping, performed, drained, hwfut, hlog⟩ := hrun
  exact ⟨v.fs, .polling 1 loaded rfl looping performed drained, hwfut, hlog⟩

/-- The run on `c`, with a reader that needs every tag to be closed. -/
def strictReader : Environment :=
  { oneFileEnvironment { put := 1000 } with load := endTagReader }

/-- With that log the run on `c` gives up, which would have returned 0. -/
theorem channels_apart_unclosed :
    ∃ fs' g, OtherRan (underP (ascii "c")) .empty fs' ∧
      main (underP (ascii "c")) strictReader .empty = .ok (0, g) ∧
      main (underP (ascii "c")) strictReader fs' = .ok (1, fs') ∧
      ¬SameRun (underP (ascii "c")) strictReader .empty fs' := by
  obtain ⟨fs', hcut, hwfut, hlog⟩ := cutOff_unclosed
  have hother : OtherRan (underP (ascii "c")) .empty fs' :=
    ⟨underP (ascii "a"), otherChannel, rfl, by decide, hcut⟩
  have hload : loadLists (underP (ascii "c")) strictReader .empty =
      .ok (some (offeredTo (ascii "c") channelC)) :=
    loadLists_channelC usesTinyXml_tinyXmlEnvironment.parse rfl rfl rfl rfl
  have hbefore : ∃ g, main (underP (ascii "c")) strictReader .empty = .ok (0, g) :=
    ⟨_, (main_of_loaded hload).trans rfl⟩
  have hkept : TextWrite.kept { put := 1000 } (logHeader ++ logRecord (emptyFile (ascii "x"))) =
      logHeader ++ [emptyFile (ascii "x")].flatMap logRecord :=
    kept_of_length_le (by decide) rfl
  have hunread : strictReader.load (TextWrite.kept { put := 1000 }
      (logHeader ++ logRecord (emptyFile (ascii "x")))) = none := by
    rw [hkept]
    exact reportsUnclosed_endTagReader _ (@neverClosed_log [emptyFile (ascii "x")])
  have hafter : main (underP (ascii "c")) strictReader fs' = .ok (1, fs') := by
    have hlist : loadList strictReader (underP (ascii "c")).localWfut (underP (ascii "c")).channel
        fs' = .ok (some (ascii "c", .empty)) := by
      unfold loadList
      rw [hwfut]
      rfl
    have hload : loadLists (underP (ascii "c")) strictReader fs' = .ok none := by
      unfold loadLists
      rw [hlist]
      simp only [ok_bind]
      rw [mergeTmp_of_unread hlog hunread]
      rfl
    unfold main
    rw [hload]
    rfl
  obtain ⟨g, hg⟩ := hbefore
  refine ⟨fs', g, hother, hg, hafter, fun h => ?_⟩
  obtain ⟨g', hg', -⟩ := h.returned 0 g hg
  rw [hafter] at hg'
  simp at hg'

end LibWfut
