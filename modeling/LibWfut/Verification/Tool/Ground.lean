import LibWfut.Verification.Files.Ahead
import LibWfut.Verification.Io.Agreement
import LibWfut.Verification.Tool.Saving

/-! # The ground of a run

What a run of the tool depends on are the places that its paths reach. On trees that agree
there, or where only directories it would make itself are there already, it does the same. -/

namespace LibWfut

open FileTree Machine Relation

/-! ## The places of a run -/

/-- The lists of this computer. -/
def listPaths (o : Options) (env : Environment) (fs : FileSystem) : List Bytes :=
  [o.localWfut, o.tmpWfut] ++
    match loadList env o.localWfut o.channel fs with
    | .ok (some (channel, _)) => if o.systemPath = [] then [] else [o.systemWfut channel]
    | _ => []

/-- The paths of files that `calculateUpdates` reads. -/
def Loaded.readPaths (lists : Loaded) (o : Options) : List Bytes :=
  lists.server.getFiles.toList.filterMap fun e =>
    match lists.localList.getFiles[e.1]? with
    | none => none
    | some loc =>
      if e.2.deleted ∨ loc.version < e.2.version then none
      else some (o.localRoot ++ cStr loc.filename)

/-- The targets of the updates, with the directories above them. -/
def targetPaths (updates : ChannelFileList) (pathPrefix : Bytes) : List Bytes :=
  (filesOf updates).flatMap fun fo =>
    (pathPrefix ++ ascii "/" ++ fo.filename) :: parentPaths (pathPrefix ++ ascii "/" ++ fo.filename)

/-- The paths that a run of `main` passes to the system. -/
def usedPaths (o : Options) (env : Environment) (fs : FileSystem) : List Bytes :=
  listPaths o env fs ++
    match loadLists o env fs with
    | .ok (some lists) => lists.readPaths o ++ targetPaths (lists.updates o env fs) o.localRoot
    | _ => []

/-- The places they reach. -/
def footprint (o : Options) (env : Environment) (fs : FileSystem) : List Location :=
  (usedPaths o env fs).flatMap fun path => reached fs.cwd (cStr path)

/-- A directory on the way to the local path, which the run makes itself if it is missing. It
stands above the directory of the channel and above every list that is reached through it. -/
structure SharedDirectory (o : Options) (env : Environment) (fs : FileSystem) (l : Location) :
    Prop where
  prefixed : ∃ q ∈ parentPaths (o.localPath ++ [separator]), place fs.cwd q = l
  channel : Below l (place fs.cwd o.localRoot)
  lists : ∀ q ∈ listPaths o env fs, l ∈ reached fs.cwd (cStr q) → Below l (place fs.cwd (cStr q))
  log : Below l (place fs.cwd (cStr o.tmpWfut))
  granted : ∀ r ∈ env.polls, ∀ m ∈ r.done, ∀ q, m.storage.mkdirOk q = true

/-- Whether a directory at the path of the log is removed depends on its entries as well, and
`wfut.xml` may be reached through it. -/
def ground (o : Options) (env : Environment) (fs : FileSystem) : Set Location :=
  {l | l ∈ footprint o env fs ∨ ThroughLog o fs ∧ ∃ c, l = pathPlace fs o.tmpWfut ++ [c]}

/-- The second tree has the places of a run as the first has them, apart from shared
directories made ahead. -/
def SameGround (o : Options) (env : Environment) (fs fs' : FileSystem) : Prop :=
  Ahead newDirectory {l | SharedDirectory o env fs l} (ground o env fs) fs fs'

theorem pathCovered_of_used {o : Options} {env : Environment} {fs : FileSystem} {path : Bytes}
    (h : path ∈ usedPaths o env fs) : PathCovered (ground o env fs) fs.cwd path :=
  fun _ hl => .inl (List.mem_flatMap.mpr ⟨path, h, hl⟩)

section Paths

variable {o : Options} {env : Environment} {fs : FileSystem} {lists : Loaded}

theorem localWfut_listed : o.localWfut ∈ listPaths o env fs := by
  simp [listPaths]

theorem tmpWfut_listed : o.tmpWfut ∈ listPaths o env fs := by
  simp [listPaths]

theorem systemWfut_listed {channel : Bytes} {files : ChannelFileList}
    (h : loadList env o.localWfut o.channel fs = .ok (some (channel, files)))
    (hs : o.systemPath ≠ []) : o.systemWfut channel ∈ listPaths o env fs := by
  simp [listPaths, h, hs]

theorem listPaths_used {path : Bytes} (h : path ∈ listPaths o env fs) :
    path ∈ usedPaths o env fs :=
  List.mem_append_left _ h

theorem readPaths_used (h : loadLists o env fs = .ok (some lists)) {path : Bytes}
    (hp : path ∈ lists.readPaths o) : path ∈ usedPaths o env fs := by
  simp [usedPaths, h, hp]

theorem targetPaths_used (h : loadLists o env fs = .ok (some lists)) {path : Bytes}
    (hp : path ∈ targetPaths (lists.updates o env fs) o.localRoot) :
    path ∈ usedPaths o env fs := by
  simp [usedPaths, h, hp]

/-- Whatever is stored or read for the channel is reached through its directory. -/
theorem passes_localRoot (o : Options) (cwd : Location) (f : Bytes) :
    Passes cwd (cStr (o.localRoot ++ f)) (place cwd o.localRoot) := by
  obtain ⟨-, hchannel, hpath, -⟩ := o.terminated
  have hbase : o.localPath ++ ascii "/" ++ o.channel ≠ [] := by simp [ascii]
  have hroot : o.localRoot = (o.localPath ++ ascii "/" ++ o.channel) ++ [separator] := rfl
  have hzero : 0 ∉ o.localRoot := by
    simp [Options.localRoot, hchannel, hpath, ascii]
  rw [cStr_append_of_not_mem hzero, hroot, place_append_separator hbase, List.append_assoc]
  exact passes_append hbase (cStr f)

theorem SharedDirectory.not_self {l : Location} (h : SharedDirectory o env fs l) :
    l ≠ place fs.cwd o.localRoot := by
  rintro rfl
  exact h.channel.2 rfl

end Paths

section Ground

variable {o : Options} {env : Environment} {fs fs' : FileSystem} {lists : Loaded}

/-- Where no directory stands at the path of the log, nothing stands below. -/
theorem sameGround_of_footprint (hcwd : fs'.cwd = fs.cwd)
    (hleft : ∀ l ∈ footprint o env fs, fs'.node l = fs.node l ∨
      SharedDirectory o env fs l ∧ fs.node l = none ∧ fs'.node l = some newDirectory)
    (hentries : ThroughLog o fs → fs.isDir (pathPlace fs o.tmpWfut) = true → ∀ c,
      fs'.node (pathPlace fs o.tmpWfut ++ [c]) = fs.node (pathPlace fs o.tmpWfut ++ [c])) :
    SameGround o env fs fs' := by
  refine ⟨hcwd, fun l hl => ?_⟩
  rcases hl with hl | ⟨hthrough, c, rfl⟩
  · exact hleft l hl
  · left
    by_cases hdir : fs.isDir (pathPlace fs o.tmpWfut) = true
    · exact hentries hthrough hdir c
    · have hlog : fs'.node (pathPlace fs o.tmpWfut) = fs.node (pathPlace fs o.tmpWfut) := by
        have hmem : pathPlace fs o.tmpWfut ∈ footprint o env fs :=
          List.mem_flatMap.mpr
            ⟨o.tmpWfut, listPaths_used tmpWfut_listed, place_mem_reached ..⟩
        rcases hleft _ hmem with heq | ⟨hshared, -⟩
        · exact heq
        · exact absurd rfl hshared.log.2
      have hnone : ∀ gs : FileSystem,
          gs.node (pathPlace fs o.tmpWfut) = fs.node (pathPlace fs o.tmpWfut) →
          gs.node (pathPlace fs o.tmpWfut ++ [c]) = none := by
        intro gs hgs
        by_contra hne
        have hparent := gs.parent_isDir _ c hne
        rw [hgs] at hparent
        exact hdir hparent
      rw [hnone fs' hlog, hnone fs rfl]

/-! ## Loading and deciding -/

theorem SameGround.lookup_listed (h : SameGround o env fs fs') {path : Bytes}
    (hp : path ∈ listPaths o env fs) : fs'.lookup (cStr path) = fs.lookup (cStr path) :=
  Ahead.lookup h (pathCovered_of_used (listPaths_used hp)) fun _ hl => hl.lists path hp

/-- Below the directory of the channel everything is missing when a shared directory is. -/
theorem SameGround.lookup_below (h : SameGround o env fs fs') {f : Bytes}
    (hp : o.localRoot ++ f ∈ usedPaths o env fs) :
    fs'.lookup (cStr (o.localRoot ++ f)) = fs.lookup (cStr (o.localRoot ++ f)) := by
  have hc := pathCovered_of_used hp
  rcases Ahead.agreeOn_or_missing h with hagree | hmiss
  · exact hagree.lookup hc
  · have hpass := passes_localRoot o fs.cwd f
    obtain ⟨hnone, hnone'⟩ := Ahead.resolve_eq_none h hmiss hpass
      (hc _ (mem_reached_of_passes hpass)) (fun hl => hl.not_self rfl) fun l hl => hl.channel.1
    rw [FileSystem.lookup, FileSystem.lookup, hnone, hnone']
    rfl

theorem loadList_congr {path : Bytes} (h : fs'.lookup (cStr path) = fs.lookup (cStr path))
    (channel : Bytes) : loadList env path channel fs' = loadList env path channel fs := by
  rw [loadList, loadList, osExists_congr h, getLocalList_congr h]

theorem mergeTmp_congr {path : Bytes} (h : fs'.lookup (cStr path) = fs.lookup (cStr path))
    (files : ChannelFileList) : mergeTmp env path files fs' = mergeTmp env path files fs := by
  rw [mergeTmp, mergeTmp, osExists_congr h, getLocalList_congr h]

/-- On the same ground the same lists are loaded. -/
theorem SameGround.loadLists_eq (h : SameGround o env fs fs') :
    loadLists o env fs' = loadLists o env fs := by
  have hlocal : loadList env o.localWfut o.channel fs' = loadList env o.localWfut o.channel fs :=
    loadList_congr (h.lookup_listed localWfut_listed) o.channel
  unfold loadLists
  rw [hlocal]
  cases hload : loadList env o.localWfut o.channel fs with
  | error f => rfl
  | ok found =>
      cases found with
      | none => rfl
      | some found =>
          obtain ⟨channel, files⟩ := found
          have hmerge : mergeTmp env o.tmpWfut files fs' = mergeTmp env o.tmpWfut files fs :=
            mergeTmp_congr (h.lookup_listed tmpWfut_listed) files
          have hsystem : loadSystem o env channel fs' = loadSystem o env channel fs := by
            unfold loadSystem
            split
            · rfl
            · rename_i hs
              exact loadList_congr (h.lookup_listed (systemWfut_listed hload hs)) channel
          simp only [ok_bind, hmerge, hsystem]

/-- And the same updates are found. -/
theorem SameGround.updates_eq (h : SameGround o env fs fs')
    (hlists : loadLists o env fs = .ok (some lists)) :
    lists.updates o env fs' = lists.updates o env fs := by
  unfold Loaded.updates
  rw [calculateUpdates_snd, calculateUpdates_snd]
  congr 2
  apply List.filter_congr
  intro e he
  congr 1
  unfold reasonFor updateReason
  cases hdel : e.2.deleted with
  | true => rfl
  | false =>
      cases hloc : lists.localList.getFiles[e.1]? with
      | none => rfl
      | some loc =>
          by_cases hv : loc.version < e.2.version
          · simp [hv]
          · have hread : o.localRoot ++ cStr loc.filename ∈ lists.readPaths o :=
              List.mem_filterMap.mpr ⟨e, he, by simp [hloc, hdel, hv]⟩
            simp only [calcCRC32_congr (h.lookup_below (readPaths_used hlists hread))]

/-! ## Downloading -/

theorem updateChannel_frame (updates : ChannelFileList) (urlPrefix pathPrefix : Bytes)
    (w : World) (fs : FileSystem) :
    updateChannel updates urlPrefix pathPrefix { w with fs := fs } =
      { updateChannel updates urlPrefix pathPrefix w with fs := fs } := by
  rw [updateChannel_eq, updateChannel_eq]
  induction filesOf updates generalizing w with
  | nil => rfl
  | cons f files ih =>
      rw [List.foldl_cons, List.foldl_cons, ← ih]
      congr 1
      unfold queueUpdate
      split
      · rfl
      · exact queueFile_frame ..

theorem queued_fs : (lists.queued o env fs).fs = fs :=
  congrArg World.fs (updateChannel_frame (lists.updates o env fs) _ _ (World.init _ fs) fs)

theorem updateChannel_msgs (updates : ChannelFileList) (urlPrefix pathPrefix : Bytes)
    (w : World) : (updateChannel updates urlPrefix pathPrefix w).msgs = w.msgs := by
  rw [updateChannel_eq]
  induction filesOf updates generalizing w with
  | nil => rfl
  | cons f files ih =>
      rw [List.foldl_cons, ih]
      unfold queueUpdate
      split
      · rfl
      · unfold queueFile
        split <;> rfl

theorem SameGround.queued_eq (h : SameGround o env fs fs')
    (hlists : loadLists o env fs = .ok (some lists)) :
    lists.queued o env fs' = { lists.queued o env fs with fs := fs' } := by
  rw [Loaded.queued, Loaded.queued, h.updates_eq hlists]
  exact updateChannel_frame _ _ _ (World.init defaultMaxDownloads fs) fs'

/-- The trees while the run goes on. -/
def Running (o : Options) (env : Environment) (fs : FileSystem) (gs gs' : FileSystem) : Prop :=
  gs.cwd = fs.cwd ∧
    Ahead newDirectory {l | SharedDirectory o env fs l} (ground o env fs) gs gs'

/-- The trees once something was stored. -/
def Together (o : Options) (env : Environment) (fs : FileSystem) (gs gs' : FileSystem) : Prop :=
  gs.cwd = fs.cwd ∧ AgreeOn (ground o env fs) gs gs'

/-- The message grants every `mkdir`, if there are directories that may have been made
ahead. -/
def Granting (o : Options) (env : Environment) (fs : FileSystem) (m : CurlMsg) : Prop :=
  {l | SharedDirectory o env fs l}.Nonempty → ∀ q, m.storage.mkdirOk q = true

theorem granting_of_polls {r : PollReport} (hr : r ∈ env.polls) {m : CurlMsg} (hm : m ∈ r.done) :
    Granting o env fs m := by
  rintro ⟨l, hl⟩ q
  exact hl.granted r hr m hm q

theorem standsBelow_target (hlists : loadLists o env fs = .ok (some lists)) {fo : FileObject}
    (hfo : fo ∈ filesOf (lists.updates o env fs)) :
    StandsBelow {l | SharedDirectory o env fs l} (ground o env fs) fs.cwd o.localPath
      (o.localRoot ++ ascii "/" ++ fo.filename) := by
  have hused : ∀ q ∈ (o.localRoot ++ ascii "/" ++ fo.filename) ::
      parentPaths (o.localRoot ++ ascii "/" ++ fo.filename),
      PathCovered (ground o env fs) fs.cwd q := by
    intro q hq
    exact pathCovered_of_used (targetPaths_used hlists (List.mem_flatMap.mpr ⟨fo, hfo, hq⟩))
  constructor
  case covered =>
    exact ⟨hused _ (List.mem_cons_self ..), fun q hq => hused q (List.mem_cons_of_mem _ hq)⟩
  case terminated => exact o.terminated.2.2.1
  case continued =>
    refine ⟨o.channel ++ ascii "/" ++ ascii "/" ++ fo.filename, ?_⟩
    simp [Options.localRoot, ascii, separator]
  case made => exact fun l hl => hl.prefixed
  case passes =>
    refine ⟨place fs.cwd o.localRoot, ?_, fun hl => hl.not_self rfl, fun l hl => hl.channel.1⟩
    rw [List.append_assoc]
    exact passes_localRoot ..

theorem worldAlike_queued (hlists : loadLists o env fs = .ok (some lists)) :
    WorldAlike (Running o env fs) (Together o env fs) (Granting o env fs)
      (lists.queued o env fs) := by
  constructor
  case msgs =>
    have hmsgs : (lists.queued o env fs).msgs = [] := updateChannel_msgs ..
    simp [hmsgs]
  case stores =>
    intro p ds hp m hm
    rcases updateChannel_live hp with hold | ⟨fo, hfo, -, hjob⟩
    · simp [World.init] at hold
    · have htarget : ds.target = o.localRoot ++ ascii "/" ++ fo.filename := by
        rw [DataStruct.target, hjob.path, hjob.filename]
      rw [htarget]
      rintro d gs gs' hd ⟨hcwd, hahead⟩
      have hb := standsBelow_target hlists (mem_filesOf.mpr hfo)
      rw [← hcwd, ← hd] at hb
      obtain ⟨herr, hafter, hclose⟩ := finishTransfer_ahead m d hahead hb hm
      have hcwd' : (finishTransfer m d gs).2.cwd = fs.cwd :=
        (Handling.mk (World.init 0 gs) m d).grows.cwd.trans hcwd
      exact ⟨herr, ⟨hcwd', hafter⟩, fun hnone => ⟨hcwd', hclose hnone⟩⟩

theorem recordUpdateFile_cwd (g : TextWrite) (fo : FileObject) (path : Bytes)
    (fs : FileSystem) : (recordUpdateFile g fo path fs).cwd = fs.cwd := by
  unfold recordUpdateFile
  split
  · unfold appendText
    split
    · rfl
    · split
      · split
        · exact FileSystem.cwd_setContent ..
        · rfl
      · rfl
  · exact writeText_cwd ..

theorem toolEmit_agrees (updates : ChannelFileList) :
    EmitAgrees (Running o env fs) (Together o env fs) (toolEmit env updates o.tmpWfut) := by
  intro e w w' h hclose
  unfold toolEmit
  cases e with
  | queued p r u f =>
      obtain ⟨gs, rfl, hrun⟩ := h
      exact .ok ⟨gs, rfl, hrun⟩
  | failed p u f message =>
      obtain ⟨gs, rfl, hrun⟩ := h
      exact .ok ⟨gs, rfl, hrun⟩
  | complete p u f =>
      obtain ⟨gs, rfl, hcwd, hagree⟩ := hclose rfl
      simp only
      cases updates.getFiles[f]? with
      | none => exact .error _
      | some fo =>
          have hc := pathCovered_of_used (listPaths_used (@tmpWfut_listed o env fs))
          rw [← hcwd] at hc
          refine .ok ⟨_, rfl, ?_, .of_agreeOn (recordUpdateFile_agree _ fo hagree hc)⟩
          exact (recordUpdateFile_cwd ..).trans hcwd

theorem pollLoop_agrees {R Q : FileSystem → FileSystem → Prop} {Ok : CurlMsg → Prop} {emit : Emit}
    (hemit : EmitAgrees R Q emit) (hcalm : Calm emit) {rs : List PollReport}
    (hok : ∀ r ∈ rs, ∀ m ∈ r.done, Ok m) {w w' : World}
    (ht : Traced w) (hc : WorldAlike R Q Ok w) (h : Agrees R w w') :
    Related (Agrees R) (pollLoop emit rs w) (pollLoop emit rs w') := by
  induction rs generalizing w w' with
  | nil => exact .error _
  | cons r rs ih =>
      have hr := hok r (List.mem_cons_self ..)
      refine (poll_agrees hemit hcalm r hr ht hc h).bind ?_
      rintro ⟨n, v⟩ ⟨n', v'⟩ hv - ⟨hn, hcv, hvv⟩
      obtain rfl : n = n' := hn
      simp only
      split
      · exact .ok hvv
      · exact ih (fun q hq => hok q (List.mem_cons_of_mem _ hq))
          (ht.moves hcalm.requeues (poll_moves hcalm.requeues ht hv)) hcv hvv

/-! ## The end of a run -/

theorem finish_agree {S : Set Location} (h : AgreeOn S fs fs')
    (hlocal : PathCovered S fs.cwd o.localWfut) (htmp : PathCovered S fs.cwd o.tmpWfut)
    (hbelow : ∀ c, pathPlace fs o.tmpWfut ++ [c] ∈ S) (localList : ChannelFileList) :
    AgreeOn S (finish o env localList fs) (finish o env localList fs') := by
  have hsave : AgreeOn S (afterSave o env localList fs) (afterSave o env localList fs') :=
    writeText_agree _ _ h hlocal
  have hcwd := @afterSave_cwd o env localList fs
  have htmp' : PathCovered S (afterSave o env localList fs).cwd o.tmpWfut := by rwa [hcwd]
  change AgreeOn S
    (if osExists (afterSave o env localList fs) o.tmpWfut then
      removeFile env.removeOk o.tmpWfut (afterSave o env localList fs)
      else afterSave o env localList fs)
    (if osExists (afterSave o env localList fs') o.tmpWfut then
      removeFile env.removeOk o.tmpWfut (afterSave o env localList fs')
      else afterSave o env localList fs')
  rw [osExists_agree hsave htmp']
  split
  · refine removeFile_agree _ hsave htmp' fun _ c => ?_
    rw [pathPlace, hcwd]
    exact hbelow c
  · exact hsave

theorem finish_cwd (localList : ChannelFileList) :
    (finish o env localList fs).cwd = fs.cwd := by
  have hsave := @afterSave_cwd o env localList fs
  change (if osExists (afterSave o env localList fs) o.tmpWfut then
    removeFile env.removeOk o.tmpWfut (afterSave o env localList fs)
    else afterSave o env localList fs).cwd = fs.cwd
  split
  · rw [← hsave]
    unfold removeFile
    split
    · rfl
    · split
      · exact FileSystem.cwd_remove ..
      · rfl
  · exact hsave

theorem writeText_of_unresolved (g : TextWrite) (text : Bytes) {path : Bytes} {fs : FileSystem}
    (h : fs.resolve (cStr path) = none) : writeText g text path fs = fs := by
  unfold writeText fopenWrite
  rw [h]

/-- Where the lists can neither be saved nor logged, nothing happens. -/
theorem finish_of_unresolved (localList : ChannelFileList)
    (hlocal : fs.resolve (cStr o.localWfut) = none) (htmp : fs.lookup (cStr o.tmpWfut) = none) :
    finish o env localList fs = fs := by
  have hsave : afterSave o env localList fs = fs := writeText_of_unresolved _ _ hlocal
  change (if osExists (afterSave o env localList fs) o.tmpWfut then
    removeFile env.removeOk o.tmpWfut (afterSave o env localList fs)
    else afterSave o env localList fs) = fs
  rw [hsave, osExists, htmp]
  rfl

/-- In the end both have the same `wfut.xml`. -/
theorem Running.lookup_finish {gs gs' : FileSystem} (h : Running o env fs gs gs')
    (localList : ChannelFileList) :
    (finish o env localList gs').lookup (cStr o.localWfut) =
      (finish o env localList gs).lookup (cStr o.localWfut) := by
  obtain ⟨hcwd, hahead⟩ := h
  have hlocal := pathCovered_of_used (listPaths_used (@localWfut_listed o env fs))
  have htmp := pathCovered_of_used (listPaths_used (@tmpWfut_listed o env fs))
  rw [← hcwd] at hlocal htmp
  rcases hahead.agreeOn_or_missing with hagree | hmiss
  · by_cases hthrough : ThroughLog o gs
    · have hbelow : ∀ c, pathPlace gs o.tmpWfut ++ [c] ∈ ground o env fs := by
        intro c
        rw [ThroughLog, pathPlace, hcwd] at hthrough
        rw [pathPlace, hcwd]
        exact .inr ⟨hthrough, c, rfl⟩
      have hfinish := @finish_agree o env gs gs' _ hagree hlocal htmp hbelow localList
      apply hfinish.lookup
      rw [finish_cwd]
      exact hlocal
    · have hthrough' : ¬ThroughLog o gs' := by
        rwa [ThroughLog, pathPlace, hahead.cwd]
      have hsave : AgreeOn (ground o env fs) (afterSave o env localList gs)
          (afterSave o env localList gs') := writeText_agree _ _ hagree hlocal
      rw [lookup_finish_of_not_throughLog hthrough, lookup_finish_of_not_throughLog hthrough']
      apply hsave.lookup
      rw [afterSave_cwd]
      exact hlocal
  · have hpass := passes_localRoot o gs.cwd channelFile
    obtain ⟨hnone, hnone'⟩ := hahead.resolve_eq_none hmiss hpass
      (hlocal _ (mem_reached_of_passes hpass))
      (fun hl => hl.not_self (by rw [hcwd])) fun l hl => hcwd ▸ hl.channel.1
    obtain ⟨l, hl, hD, hmissing⟩ := hmiss
    have hlog : Below l (place gs.cwd (cStr o.tmpWfut)) := hcwd ▸ hD.log
    have hnode := hahead.node_eq_none hmissing hlog.1 (htmp _ (place_mem_reached ..))
      fun hself => hself.log.2 (by rw [hcwd])
    have hlost := FileSystem.lookup_eq_none hnode.1
    have hlost' := FileSystem.lookup_eq_none (hahead.cwd ▸ hnode.2)
    rw [finish_of_unresolved localList hnone hlost, finish_of_unresolved localList hnone' hlost',
      FileSystem.lookup, FileSystem.lookup]
    have hpath : o.localWfut = o.localRoot ++ channelFile := rfl
    rw [hpath, hnone, hnone']
    rfl

/-- Shutting down does not look at the tree. -/
theorem shutdown_frame (w : World) (fs fs' : FileSystem) :
    Related (fun _ _ => True) (Session.shutdown ⟨true, { w with fs := fs }⟩)
      (Session.shutdown ⟨true, { w with fs := fs' }⟩) := by
  have hloop : ∀ g, Session.shutdown ⟨true, { w with fs := g }⟩ =
      (shutdownLoop w.files.size w.multiCleanup).bind fun v =>
        .ok ⟨false, { v with trace := [], fs := g }⟩ := by
    intro g
    change (shutdownLoop w.files.size { w.multiCleanup with fs := g }).bind _ = _
    rw [shutdownLoop_frame]
    cases shutdownLoop w.files.size w.multiCleanup with
    | error f => rfl
    | ok v => rfl
  rw [hloop, hloop]
  cases shutdownLoop w.files.size w.multiCleanup with
  | error f => exact .error f
  | ok v => exact .ok trivial

/-- On the same ground `main` returns the same and leaves the same `wfut.xml`. -/
theorem SameGround.main_related (h : SameGround o env fs fs') :
    Related (fun a b => a.1 = b.1 ∧
        b.2.lookup (cStr o.localWfut) = a.2.lookup (cStr o.localWfut))
      (main o env fs) (main o env fs') := by
  unfold main
  rw [h.loadLists_eq]
  cases hlists : loadLists o env fs with
  | error f => exact .error f
  | ok found =>
      cases found with
      | none => exact .ok ⟨rfl, h.lookup_listed localWfut_listed⟩
      | some lists =>
          simp only [ok_bind]
          unfold update
          rw [h.updates_eq hlists]
          have hstart : Agrees (Running o env fs) (lists.queued o env fs)
              (lists.queued o env fs') :=
            ⟨fs', h.queued_eq hlists, by rw [queued_fs], by rw [queued_fs]; exact h⟩
          refine (pollLoop_agrees (toolEmit_agrees _) (calm_toolEmit env _ _)
            (fun r hr m hm => granting_of_polls hr hm) traced_queued (worldAlike_queued hlists)
            hstart).bind ?_
          rintro w _ - - ⟨g, rfl, hrun⟩
          simp only
          refine (shutdown_frame w _ _).bind ?_
          intro _ _ _ _ _
          exact .ok ⟨rfl, hrun.lookup_finish _⟩

end Ground

end LibWfut
