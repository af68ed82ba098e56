import LibWfut.Verification.Tool.Effects
import LibWfut.Verification.Client.Acceptance

/-! # What a run leaves

The updates that a run completes stand at their targets with what was received for them, and
all others are as they were. -/

namespace LibWfut

open FileTree Machine Relation

/-! ## Contents -/

section Contents

variable {D F R : Set Location} {fs fs' gs : FileSystem} {path t : Bytes} {l : Location}

/-- A file keeps its content while it is not touched and what leads to it stays. -/
theorem HoldsExactly.touches (h : HoldsExactly fs path t)
    (ht : Touches newDirectory D F R fs fs') (hR : Avoids R fs.cwd (cStr path))
    (hF : pathPlace fs path ∉ F) : HoldsExactly fs' path t := by
  obtain ⟨n, hn, hk⟩ := h
  exact ⟨n, ht.lookup hR hn hF, hk⟩

/-- What is at a place is what was there, but for its mode, or a new directory. -/
def AsBefore (fs gs : FileSystem) (l : Location) : Prop :=
  (gs.node l).map Node.kind = (fs.node l).map Node.kind ∨
    fs.node l = none ∧ (gs.node l).map Node.kind = some .directory

theorem AsBefore.refl (fs : FileSystem) (l : Location) : AsBefore fs fs l :=
  .inl rfl

theorem AsBefore.trans (h : AsBefore fs fs' l) (h' : AsBefore fs' gs l) : AsBefore fs gs l := by
  rcases h with heq | ⟨hnone, hdir⟩
  · rcases h' with heq' | ⟨hnone, hdir⟩
    · exact .inl (heq'.trans heq)
    · rw [hnone, Option.map_none, eq_comm, Option.map_eq_none_iff] at heq
      exact .inr ⟨heq, hdir⟩
  · rcases h' with heq' | ⟨hnone', -⟩
    · exact .inr ⟨hnone, heq'.trans hdir⟩
    · rw [hnone'] at hdir
      simp at hdir

theorem AsBefore.of_touches (h : Touches newDirectory D F R fs fs') (hF : l ∉ F) :
    AsBefore fs fs' l := by
  rcases h.ahead.node l hF with heq | ⟨-, hnone, hd⟩
  · exact .inl (by rw [heq])
  · exact .inr ⟨hnone, by rw [hd]; rfl⟩

theorem asBefore_osSetExecutable (env : Storage) (file : Bytes) (fs : FileSystem)
    (l : Location) : AsBefore fs (osSetExecutable env file fs) l := by
  left
  rcases osSetExecutable_cases env file fs with heq | ⟨m, -, -, heq⟩
  · rw [heq]
  · rw [heq, FileSystem.node_addMode]
    split
    · rename_i hl
      rw [hl, Option.map_map]
      rfl
    · rfl

/-- A message that fails leaves all contents. -/
theorem Handling.asBefore {h : Handling} (herr : h.error ≠ none) (l : Location) :
    AsBefore h.state.fs h.fs l := by
  unfold Handling.fs
  unfold Handling.error at herr
  by_cases ha : Arrived h.msg h.ds
  · rw [finishTransfer_of ha] at herr ⊢
    rcases copyFile_cases h.msg.storage h.ds.fp h.ds.target h.state.fs with
      heq | ⟨m, fs', hm, hstored, heq⟩
    · have hdirs : AsBefore h.state.fs
          (createParentDirs h.msg.storage h.ds.target h.state.fs).2 l := by
        rw [createParentDirs_eq]
        exact .of_touches (makeDirs_touches (D := Set.univ) (F := ∅) (R := ∅) _
          fun q hq => Set.mem_univ _) (Set.notMem_empty l)
      simp only [heq]
      split
      · exact hdirs.trans (asBefore_osSetExecutable ..)
      · exact hdirs
    · rw [heq] at herr
      simp at herr
  · obtain ⟨message, heq⟩ := finishTransfer_of_not ha
    rw [heq]
    exact .refl _ l

end Contents

/-! ## Progress -/

section Progress

variable {o : Options} {env : Environment} {fs fs' gs : FileSystem} {lists : Loaded}
  {w w' : World} {fo : FileObject}

/-- The targets are told apart, and none of them is the list or the log or leads through it. -/
structure TargetsApart (o : Options) (env : Environment) (fs : FileSystem) (lists : Loaded) :
    Prop where
  targets : ∀ fo ∈ filesOf (lists.updates o env fs), ∀ fo' ∈ filesOf (lists.updates o env fs),
    pathPlace fs (updateTarget o fo) = pathPlace fs (updateTarget o fo') →
      fo.filename = fo'.filename
  list : pathPlace fs o.localWfut ∉ lists.targets o env fs
  log : pathPlace fs o.tmpWfut ∉ lists.targets o env fs
  way : ∀ fo ∈ filesOf (lists.updates o env fs),
    Avoids {pathPlace fs o.tmpWfut} fs.cwd (cStr (updateTarget o fo))

/-- The message by which curl reported the transfer of the file, and which stored it. -/
structure StoredBy (o : Options) (env : Environment) (fs : FileSystem) (lists : Loaded)
    (fo : FileObject) (h : Handling) : Prop where
  handled : ∃ p, Handles o env fs lists p h
  success : h.error = none
  job : JobOf o.localRoot fo h.ds

/-- The file stands at its target as it was stored. -/
def InPlace (o : Options) (env : Environment) (fs : FileSystem) (lists : Loaded)
    (fo : FileObject) (gs : FileSystem) : Prop :=
  ∃ h, StoredBy o env fs lists fo h ∧
    HoldsExactly gs (updateTarget o fo) (copiedContent h.msg.storage h.ds.fp)

theorem InPlace.touches {D F R : Set Location} (h : InPlace o env fs lists fo gs)
    (ht : Touches newDirectory D F R gs fs') (hR : Avoids R gs.cwd (cStr (updateTarget o fo)))
    (hF : pathPlace gs (updateTarget o fo) ∉ F) : InPlace o env fs lists fo fs' := by
  obtain ⟨k, hk, hholds⟩ := h
  exact ⟨k, hk, hholds.touches ht hR hF⟩

/-- What the turns of a run have made of the updates. -/
structure Progress (o : Options) (env : Environment) (fs : FileSystem) (lists : Loaded)
    (w : World) : Prop where
  touched : lists.Touched o env fs w.fs
  completed : ∀ fo ∈ filesOf (lists.updates o env fs), fo.filename ∈ completedFiles w.trace →
    InPlace o env fs lists fo w.fs
  others : ∀ fo ∈ filesOf (lists.updates o env fs), fo.filename ∉ completedFiles w.trace →
    AsBefore fs w.fs (pathPlace fs (updateTarget o fo))

theorem silent_queued : completedFiles (lists.queued o env fs).trace = [] := by
  have hstart : Fresh [] (World.init defaultMaxDownloads fs) := by
    constructor <;> simp [World.init, completedFiles]
  obtain ⟨names, h⟩ : ∃ names, Fresh names (lists.queued o env fs) := by
    rw [Loaded.queued, updateChannel_eq]
    exact hstart.foldl (by simpa using nodup_filesOf _)
  exact h.silent

theorem progress_queued : Progress o env fs lists (lists.queued o env fs) := by
  constructor
  case touched =>
    rw [queued_fs]
    exact .refl fs
  case completed =>
    intro fo hfo hm
    rw [silent_queued] at hm
    simp at hm
  case others =>
    intro fo hfo hm
    rw [queued_fs]
    exact .refl fs _

/-- What a message about the update and its record touch. -/
def updatePlaces (o : Options) (fs : FileSystem) (fo : FileObject) : Set Location :=
  {pathPlace fs (updateTarget o fo), pathPlace fs o.tmpWfut}

theorem TargetsApart.not_mem {fo' : FileObject} (h : TargetsApart o env fs lists)
    (hfo : fo ∈ filesOf (lists.updates o env fs)) (hfo' : fo' ∈ filesOf (lists.updates o env fs))
    (hne : fo.filename ≠ fo'.filename) :
    pathPlace fs (updateTarget o fo) ∉ updatePlaces o fs fo' := by
  rintro (htarget | hlog)
  · exact hne (h.targets fo hfo fo' hfo' htarget)
  · exact h.log (List.mem_map.mpr ⟨fo, hfo, hlog⟩)

theorem JobOf.targetIn {ds : DataStruct} {cwd : Location} (hjob : JobOf o.localRoot fo ds)
    (hcwd : cwd = fs.cwd) : TargetIn Set.univ (updatePlaces o fs fo) cwd ds.target := by
  rw [hjob.target_eq, hcwd]
  exact ⟨.inl rfl, fun _ _ => Set.mem_univ _⟩

/-- A success leaves the file in place. -/
theorem StoredBy.inPlace {h : Handling} (hs : StoredBy o env fs lists fo h) :
    InPlace o env fs lists fo h.fs := by
  obtain ⟨n, hn, -, hk⟩ := Handling.lookup_regular hs.success
  rw [hs.job.target_eq] at hn
  exact ⟨h, hs, n, hn, hk⟩

/-- What is done for one update leaves the others. -/
theorem Progress.other {fo' : FileObject} (hw : Progress o env fs lists w)
    (hapart : TargetsApart o env fs lists) (hfo : fo ∈ filesOf (lists.updates o env fs))
    (hfo' : fo' ∈ filesOf (lists.updates o env fs)) (hne : fo.filename ≠ fo'.filename)
    (ht : Touches newDirectory Set.univ (updatePlaces o fs fo') ∅ w.fs gs) :
    (fo.filename ∈ completedFiles w.trace → InPlace o env fs lists fo gs) ∧
      (fo.filename ∉ completedFiles w.trace →
        AsBefore fs gs (pathPlace fs (updateTarget o fo))) := by
  have hnot := hapart.not_mem hfo hfo' hne
  refine ⟨fun hm => (hw.completed fo hfo hm).touches ht (avoids_empty _ _) ?_, fun hm => ?_⟩
  · rwa [hw.touched.pathPlace_eq]
  · exact (hw.others fo hfo hm).trans (.of_touches ht hnot)

/-- The places of the list and the log. -/
def ownPlaces (o : Options) (fs : FileSystem) : Set Location :=
  {pathPlace fs o.localWfut, pathPlace fs o.tmpWfut}

theorem TargetsApart.not_own (h : TargetsApart o env fs lists)
    (hfo : fo ∈ filesOf (lists.updates o env fs)) :
    pathPlace fs (updateTarget o fo) ∉ ownPlaces o fs := by
  rintro (hlist | hlog)
  · exact h.list (List.mem_map.mpr ⟨fo, hfo, hlist⟩)
  · exact h.log (List.mem_map.mpr ⟨fo, hfo, hlog⟩)

/-- What is written to the list and the log keeps what is in place. -/
theorem InPlace.own {D : Set Location} (h : InPlace o env fs lists fo gs)
    (hapart : TargetsApart o env fs lists) (hfo : fo ∈ filesOf (lists.updates o env fs))
    (hcwd : gs.cwd = fs.cwd)
    (ht : Touches newDirectory D (ownPlaces o fs) {pathPlace fs o.tmpWfut} gs fs') :
    InPlace o env fs lists fo fs' := by
  apply h.touches ht
  · rw [hcwd]
    exact hapart.way fo hfo
  · rw [pathPlace_of_cwd hcwd]
    exact hapart.not_own hfo

theorem record_touches_own {g : TextWrite} (hcwd : gs.cwd = fs.cwd) :
    Touches newDirectory ∅ (ownPlaces o fs) {pathPlace fs o.tmpWfut} gs
      (recordUpdateFile g fo o.tmpWfut gs) :=
  recordUpdateFile_touches g fo (.inr (pathPlace_of_cwd hcwd _))

theorem save_touches_own {g : TextWrite} {text : Bytes} (hcwd : gs.cwd = fs.cwd) :
    Touches newDirectory ∅ (ownPlaces o fs) {pathPlace fs o.tmpWfut} gs
      (writeText g text o.localWfut gs) :=
  writeText_touches g text (.inl (pathPlace_of_cwd hcwd _))

theorem finish_touches_own (localList : ChannelFileList) (hcwd : gs.cwd = fs.cwd) :
    Touches newDirectory ∅ (ownPlaces o fs) {pathPlace fs o.tmpWfut} gs
      (finish o env localList gs) :=
  finish_touches localList (.inl (pathPlace_of_cwd hcwd _)) (.inr (pathPlace_of_cwd hcwd _))
    (pathPlace_of_cwd hcwd _)

theorem Progress.turn (hw : Progress o env fs lists w) (hapart : TargetsApart o env fs lists)
    (ht : Turn o env fs lists w w') : Progress o env fs lists w' := by
  have htouched := hw.touched.turn ht
  cases ht with
  | quiet same trace =>
      refine ⟨htouched, ?_, ?_⟩
      · rw [same, trace]
        exact hw.completed
      · rw [same, trace]
        exact hw.others
  | failed p h handled before trace failure after completed =>
      obtain ⟨fo', hfo', hjob⟩ := handled.job
      have hnew : fo'.filename ∉ completedFiles w.trace := by
        rw [← hjob.filename, ← trace]
        exact handled.once.live p h.ds handled.live
      have hhandling := @Handling.touches _ _ ∅ h
        (hjob.targetIn (congrArg FileSystem.cwd before |>.trans hw.touched.ahead.cwd))
      rw [before] at hhandling
      refine ⟨htouched, fun fo hfo hm => ?_, fun fo hfo hm => ?_⟩
      · rw [completed] at hm
        have hne : fo.filename ≠ fo'.filename := fun heq => hnew (heq ▸ hm)
        rw [after]
        exact (hw.other hapart hfo hfo' hne hhandling).1 hm
      · rw [completed] at hm
        have hfailed := Handling.asBefore failure (pathPlace fs (updateTarget o fo))
        rw [before] at hfailed
        rw [after]
        exact (hw.others fo hfo hm).trans hfailed
  | stored p h fo' handled before trace success hfo' job after completed =>
      have hhandling := @Handling.touches _ _ ∅ h
        (job.targetIn (congrArg FileSystem.cwd before |>.trans hw.touched.ahead.cwd))
      rw [before] at hhandling
      have hcwd := hhandling.ahead.cwd.trans hw.touched.ahead.cwd
      have hboth := hhandling.trans (recordUpdateFile_touches (env.logs w.trace.length) fo'
        (.inr (pathPlace_of_cwd hcwd o.tmpWfut)))
      rw [← after] at hboth
      refine ⟨htouched, fun fo hfo hm => ?_, fun fo hfo hm => ?_⟩
      · by_cases hsame : fo.filename = fo'.filename
        · obtain rfl : fo = fo' := by
            have hlisted := mem_filesOf.mp hfo
            rw [hsame, mem_filesOf.mp hfo', Option.some.injEq] at hlisted
            exact hlisted.symm
          have hplace : InPlace o env fs lists fo h.fs :=
            StoredBy.inPlace ⟨⟨p, handled⟩, success, job⟩
          rw [after]
          exact hplace.own hapart hfo hcwd (record_touches_own hcwd)
        · rw [completed, List.mem_append, List.mem_singleton] at hm
          exact (hw.other hapart hfo hfo' hsame hboth).1 (hm.resolve_right hsame)
      · rw [completed, List.mem_append, List.mem_singleton, not_or] at hm
        exact (hw.other hapart hfo hfo' hm.2 hboth).2 hm.1

theorem progress_of_turns (hapart : TargetsApart o env fs lists)
    (h : ReflTransGen (Turn o env fs lists) (lists.queued o env fs) w) :
    Progress o env fs lists w := by
  induction h with
  | refl => exact progress_queued
  | tail _ hturn ih => exact ih.turn hapart hturn

/-- What a message finds. -/
theorem Handles.progress {p : Ptr} {h : Handling} (hh : Handles o env fs lists p h)
    (hapart : TargetsApart o env fs lists) : Progress o env fs lists h.state := by
  obtain ⟨v, hturns, hfs, htrace⟩ := hh.turns
  exact (progress_of_turns hapart hturns).turn hapart (.quiet hfs htrace)

/-- While the file of a message is stored, what was completed before stays in place. -/
theorem Handles.kept {p : Ptr} {h : Handling} {fo' : FileObject} (hh : Handles o env fs lists p h)
    (hapart : TargetsApart o env fs lists) (hfo : fo ∈ filesOf (lists.updates o env fs))
    (hm : fo.filename ∈ completedFiles h.state.trace)
    (hfo' : fo' ∈ filesOf (lists.updates o env fs)) (hjob : JobOf o.localRoot fo' h.ds)
    (ht : Touches newDirectory Set.univ (updatePlaces o fs fo') ∅ h.state.fs gs) :
    InPlace o env fs lists fo gs := by
  have hne : fo.filename ≠ fo'.filename := by
    rintro heq
    rw [heq, ← hjob.filename] at hm
    exact hh.once.live p h.ds hh.live hm
  exact ((hh.progress hapart).other hapart hfo hfo' hne ht).1 hm

end Progress

/-! ## Finished runs -/

section Finished

variable {o : Options} {env : Environment} {fs fs' : FileSystem} {lists : Loaded} {w : World}
  {fo : FileObject}

theorem Options.separated (o : Options) : o.localRoot.getLast? = some separator :=
  List.getLast?_concat ..

/-- The file stands where the next run looks for it. -/
theorem holdsExactly_updateTarget {content : Bytes} :
    HoldsExactly fs (updateTarget o fo) content ↔
      HoldsExactly fs (o.localRoot ++ fo.filename) content := by
  rw [HoldsExactly, HoldsExactly, FileSystem.lookup, FileSystem.lookup, updateTarget,
    resolve_target o.separated]

/-- The transfer, of which nothing was lost on the way: curl reports a transfer whose data was
once refused as an error, and the copy is complete. -/
structure Undisturbed (h : Handling) (e : EasyHandle) : Prop where
  transfer : h.state.easy h.msg.handle = some e
  refusal : e.writeFailed = true → h.msg.result ≠ .ok
  stored : StoresAll h.msg.storage h.ds.fp

theorem StoredBy.received {h : Handling} {e : EasyHandle} (hs : StoredBy o env fs lists fo h)
    (he : Undisturbed h e) : Received h.ds e := by
  obtain ⟨p, hh⟩ := hs.handled
  have hfed : Fed h.state :=
    ((fed_init _ fs).updateChannel _ _).moves (calm_toolEmit env _ _) hh.moves
  have hlive := hh.live
  obtain ⟨_, _, _, _, -, -, _, _, _, _, -, -, -, -, hpriv, -⟩ := hh
  have hhandle : e.priv = p := by
    rw [World.easyGetinfoPrivate, he.transfer] at hpriv
    exact Except.ok.inj hpriv
  have hkey := hfed.wired h.msg.handle e he.transfer
  rw [hhandle] at hkey
  have hok : e.writeFailed = false := by
    by_contra hfail
    exact he.refusal (by simpa using hfail) (Handling.arrived hs.success).2.1
  exact hfed.intact p h.ds e hlive (hkey ▸ he.transfer) hok

/-- What was stored is what was received, with the checksum of the server. -/
theorem StoredBy.body {h : Handling} {e : EasyHandle} (hs : StoredBy o env fs lists fo h)
    (he : Undisturbed h e) :
    copiedContent h.msg.storage h.ds.fp = e.body ∧ (fo.crc32 = 0 ∨ crc32 0 e.body = fo.crc32) := by
  have hrec := hs.received he
  refine ⟨by rw [(copiedContent_eq_iff _ _).mpr he.stored, hrec.content], ?_⟩
  have hcrc := (Handling.arrived hs.success).2.2
  rw [hs.job.expectedCrc32, hrec.crc] at hcrc
  exact hcrc.imp_right Eq.symm

/-- A run that gets to its end has updated what it calls completed: the file stands where the
next run looks for it, as it was stored, and with the checksum of the server unless something
was lost on the way. All other updates are as they were. -/
theorem finished_run (o : Options) (env : Environment) (fs fs' : FileSystem) (status : Int32)
    (lists : Loaded) (w : World) (hmain : main o env fs = .ok (status, fs'))
    (hlooped : Looped o env fs lists w) (hapart : TargetsApart o env fs lists) :
    ∀ fo ∈ filesOf (lists.updates o env fs),
      (fo.filename ∈ completedFiles w.trace → ∃ h, StoredBy o env fs lists fo h ∧
        HoldsExactly fs' (o.localRoot ++ fo.filename) (copiedContent h.msg.storage h.ds.fp) ∧
        ∀ e, Undisturbed h e →
          HoldsExactly fs' (o.localRoot ++ fo.filename) e.body ∧
            (fo.crc32 = 0 ∨ crc32 0 e.body = fo.crc32)) ∧
      (fo.filename ∉ completedFiles w.trace →
        AsBefore fs fs' (pathPlace fs (o.localRoot ++ fo.filename))) := by
  intro fo hfo
  have hw := progress_of_turns hapart hlooped.turns
  obtain ⟨-, rfl⟩ := main_eq_ok hmain hlooped
  have hcwd := hw.touched.ahead.cwd
  have hfinish := @finish_touches_own o env fs w.fs (lists.final o env fs w) hcwd
  constructor
  · intro hm
    obtain ⟨h, hs, hholds⟩ := (hw.completed fo hfo hm).own hapart hfo hcwd hfinish
    rw [holdsExactly_updateTarget] at hholds
    refine ⟨h, hs, hholds, fun e he => ?_⟩
    obtain ⟨hbody, hcrc⟩ := hs.body he
    exact ⟨hbody ▸ hholds, hcrc⟩
  · intro hm
    have hbefore := (hw.others fo hfo hm).trans (.of_touches hfinish (hapart.not_own hfo))
    rwa [updateTarget, pathPlace_target o.separated] at hbefore

end Finished

/-! ## One byte -/

/-- The channel `c` with a file of one byte. -/
def oneByteChannel : ChannelFileList :=
  (ChannelFileList.empty.setName (ascii "c")).addFile oneByte

/-- The byte arrives. -/
def oneByteEnvironment : Environment :=
  { offering (ascii "c") oneByteChannel { put := 1000 } with
    polls := [{ running := 0 },
      { writes := [{ handle := 0, buffer := ascii "y", room := 1 }], running := 0,
        done := [{ handle := 0 }] }] }

theorem loadLists_oneByte :
    loadLists (underP (ascii "c")) oneByteEnvironment .empty =
      .ok (some (offeredTo (ascii "c") oneByteChannel)) := by
  have hplain : restored oneByteChannel = oneByteChannel := restored_single rfl (by decide +kernel)
  have hload := @loadLists_offered (underP (ascii "c")) oneByteEnvironment .empty (ascii "c") .empty
    oneByteChannel (readsAs_toOption TinyXml.parse) (nameSurvives_of_plain (by decide +kernel)) rfl
    rfl rfl (by decide) rfl
  rw [hload, hplain]
  rfl

theorem finished_run_oneByte :
    ∃ fs' lists w, main (underP (ascii "c")) oneByteEnvironment .empty = .ok (0, fs') ∧
      Looped (underP (ascii "c")) oneByteEnvironment .empty lists w ∧
      oneByte ∈ filesOf (lists.updates (underP (ascii "c")) oneByteEnvironment .empty) ∧
      readFile fs' (ascii "p/c/x") = some (ascii "y") ∧
      ∃ h, StoredBy (underP (ascii "c")) oneByteEnvironment .empty lists oneByte h ∧
        HoldsExactly fs' (ascii "p/c/x") (copiedContent h.msg.storage h.ds.fp) := by
  have hrun : ∃ fs' lists w, main (underP (ascii "c")) oneByteEnvironment .empty = .ok (0, fs') ∧
      Looped (underP (ascii "c")) oneByteEnvironment .empty lists w ∧
      filesOf (lists.updates (underP (ascii "c")) oneByteEnvironment .empty) = [oneByte] ∧
      readFile fs' (ascii "p/c/x") = some (ascii "y") ∧
      completedFiles w.trace = [ascii "x"] :=
    ⟨_, _, _, (main_of_loaded loadLists_oneByte).trans rfl, ⟨loadLists_oneByte, rfl⟩, rfl,
      by decide, by decide⟩
  obtain ⟨fs', lists, w, hmain, hlooped, hfiles, hread, hcompleted⟩ := hrun
  have hapart : TargetsApart (underP (ascii "c")) oneByteEnvironment .empty lists := by
    constructor
    case targets =>
      rw [hfiles]
      simp
    case list =>
      rw [Loaded.targets, hfiles]
      decide
    case log =>
      rw [Loaded.targets, hfiles]
      decide
    case way =>
      rw [hfiles, List.forall_mem_singleton]
      exact avoids_of_not_mem_reached (by decide)
  have hlisted :
      oneByte ∈ filesOf (lists.updates (underP (ascii "c")) oneByteEnvironment .empty) := by
    simp [hfiles]
  have hdone : oneByte.filename ∈ completedFiles w.trace := by
    rw [hcompleted]
    exact List.mem_singleton.mpr rfl
  obtain ⟨h, hstored, hholds, -⟩ :=
    (finished_run _ oneByteEnvironment .empty fs' 0 lists w hmain hlooped hapart oneByte hlisted).1
      hdone
  exact ⟨fs', lists, w, hmain, hlooped, hlisted, hread, h, hstored, hholds⟩

end LibWfut
