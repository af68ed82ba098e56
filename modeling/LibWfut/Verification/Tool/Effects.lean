import LibWfut.Verification.Tool.Turns

/-! # What a run touches

However far a run gets, it writes to the targets of its updates, to its list and to its log,
and makes the directories that `createParentDirs` tries for the targets. Everything else stays. -/

namespace LibWfut

open FileTree Machine Relation

/-! ## The operations -/

section Operations

variable {D F R : Set Location} {fs fs' : FileSystem} {path : Bytes} {l : Location}

theorem pathPlace_of_cwd (h : fs'.cwd = fs.cwd) (path : Bytes) :
    pathPlace fs' path = pathPlace fs path :=
  congrArg (fun cwd => place cwd (cStr path)) h

theorem Stored.touches {env : Storage} {content : Bytes} (h : Stored env fs l content fs')
    (hl : l ∈ F) : Touches newDirectory D F R fs fs' where
  ahead := by
    refine ⟨h.grows.cwd, fun m hm => .inl (h.others m ?_)⟩
    rintro rfl
    exact hm hl
  dirs m hm := .inl (h.isDir m ▸ hm)
  kept m _ n hn := by
    obtain ⟨n', hn', hdir, -⟩ := h.grows.kept m n hn
    exact ⟨n', hn', hdir⟩

theorem mem_of_mem_madeDirs {s : Storage} {ps : List Bytes} {q : Bytes}
    (h : q ∈ madeDirs s ps fs) : q ∈ ps := by
  induction ps generalizing fs with
  | nil => simp [madeDirs] at h
  | cons p ps ih =>
      unfold madeDirs at h
      split at h
      · exact List.mem_cons_of_mem p (ih h)
      · split at h
        split at h
        · simp at h
        · rcases List.mem_cons.mp h with rfl | h
          · exact List.mem_cons_self ..
          · exact List.mem_cons_of_mem p (ih h)

theorem makeDirs_touches (env : Storage) {ps : List Bytes}
    (hps : ∀ q ∈ ps, pathPlace fs q ∈ D) :
    Touches newDirectory D F R fs (makeDirs env ps fs).2 where
  ahead := by
    refine ⟨makeDirs_cwd .., fun m _ => ?_⟩
    rw [makeDirs_node]
    split
    · rename_i hmade
      obtain ⟨q, hq, rfl⟩ := List.mem_map.mp hmade
      exact .inr ⟨hps q (mem_of_mem_madeDirs hq), node_of_mem_madeDirs hq, rfl⟩
    · exact .inl rfl
  dirs m hm := by
    rcases (makeDirs_grows env ps fs).isDir_iff.mp hm with hold | hmade
    · exact .inl hold
    · obtain ⟨q, hq, rfl⟩ := List.mem_map.mp hmade
      exact .inr (hps q (mem_of_mem_madeDirs hq))
  kept m _ n hn := by
    obtain ⟨n', hn', hdir, -⟩ := (makeDirs_grows env ps fs).kept m n hn
    exact ⟨n', hn', hdir⟩

/-- The places of a target and of the directories made for it. -/
structure TargetIn (D F : Set Location) (cwd : Location) (target : Bytes) : Prop where
  itself : place cwd (cStr target) ∈ F
  above : ∀ q ∈ parentPaths target, place cwd (cStr q) ∈ D

theorem createParentDirs_touches (env : Storage) {target : Bytes}
    (ht : TargetIn D F fs.cwd target) :
    Touches newDirectory D F R fs (createParentDirs env target fs).2 := by
  rw [createParentDirs_eq]
  exact makeDirs_touches env ht.above

theorem copyFile_touches (env : Storage) (fp : Option Bytes) {target : Bytes}
    (ht : TargetIn D F fs.cwd target) :
    Touches newDirectory D F R fs (copyFile env fp target fs).2 := by
  have hdirs : Touches newDirectory D F R fs (createParentDirs env target fs).2 :=
    createParentDirs_touches env ht
  rcases copyFile_cases env fp target fs with heq | ⟨l, fs', hl, hstored, heq⟩
  · rw [heq]
    exact hdirs
  · rw [heq]
    exact hdirs.trans (hstored.touches (eq_pathPlace_of_resolve hl ▸ ht.itself))

theorem osSetExecutable_touches (env : Storage) {target : Bytes}
    (ht : place fs.cwd (cStr target) ∈ F) :
    Touches newDirectory D F R fs (osSetExecutable env target fs) := by
  rcases osSetExecutable_cases env target fs with heq | ⟨l, hl, -, heq⟩
  · rw [heq]
    exact .refl fs
  · rw [heq]
    exact .modify (FileSystem.resolve_eq_some hl ▸ ht) ..

theorem Handling.touches {h : Handling} (ht : TargetIn D F h.state.fs.cwd h.ds.target) :
    Touches newDirectory D F R h.state.fs h.fs := by
  unfold Handling.fs
  by_cases ha : Arrived h.msg h.ds
  · have hcopy : Touches newDirectory D F R h.state.fs
        (copyFile h.msg.storage h.ds.fp h.ds.target h.state.fs).2 :=
      copyFile_touches h.msg.storage h.ds.fp ht
    rw [finishTransfer_of ha]
    simp only
    split
    · exact hcopy.trans (osSetExecutable_touches _ (hcopy.ahead.cwd ▸ ht.itself))
    · exact hcopy
  · obtain ⟨message, heq⟩ := finishTransfer_of_not ha
    rw [heq]
    exact .refl _

/-- A transfer that is cut off while it is stored touches no more. -/
theorem Storing.touches {h : Handling} (ht : TargetIn D F h.state.fs.cwd h.ds.target)
    (hs : Storing h fs) : Touches newDirectory D F R h.state.fs fs := by
  cases hs with
  | directories k arrived =>
      exact makeDirs_touches _ fun q hq => ht.above q (List.mem_of_mem_take hq)
  | @content k l gs arrived opened =>
      obtain ⟨hl, hstored⟩ := fopenWrite_eq_some opened
      exact (createParentDirs_touches _ ht).trans
        ((hstored.setContent _).touches (eq_pathPlace_of_resolve hl ▸ ht.itself))
  | done => exact Handling.touches ht

theorem writeText_touches (g : TextWrite) (text : Bytes) (hpath : pathPlace fs path ∈ F) :
    Touches newDirectory D F R fs (writeText g text path fs) := by
  rcases writeText_cases g text path fs with ⟨-, heq⟩ | ⟨l, hl, -, hstored⟩
  · rw [heq]
    exact .refl fs
  · exact hstored.touches (FileSystem.resolve_eq_some hl ▸ hpath)

theorem appendText_touches (g : TextWrite) (text : Bytes) (hpath : pathPlace fs path ∈ F) :
    Touches newDirectory D F R fs (appendText g text path fs) := by
  unfold appendText
  split
  · exact .refl fs
  · rename_i l hl
    have hF : l ∈ F := FileSystem.resolve_eq_some hl ▸ hpath
    split
    · split
      · exact .modify hF ..
      · exact .refl fs
    · exact .refl fs

theorem recordUpdateFile_touches (g : TextWrite) (fo : FileObject)
    (hpath : pathPlace fs path ∈ F) :
    Touches newDirectory D F R fs (recordUpdateFile g fo path fs) := by
  unfold recordUpdateFile
  split
  · exact appendText_touches g _ hpath
  · exact writeText_touches g _ hpath

theorem removeFile_touches (removeOk : Bool) (hpath : pathPlace fs path ∈ F)
    (hgone : pathPlace fs path ∈ R) :
    Touches newDirectory D F R fs (removeFile removeOk path fs) := by
  unfold removeFile
  split
  · exact .refl fs
  · rename_i l hl
    have hplace : pathPlace fs path = l := FileSystem.resolve_eq_some hl
    rw [hplace] at hpath hgone
    split
    · exact .remove hpath hgone
    · exact .refl fs

theorem finish_touches {o : Options} {env : Environment} (localList : ChannelFileList)
    (hlist : pathPlace fs o.localWfut ∈ F) (hlog : pathPlace fs o.tmpWfut ∈ F)
    (hgone : pathPlace fs o.tmpWfut ∈ R) :
    Touches newDirectory D F R fs (finish o env localList fs) := by
  have hsave : Touches newDirectory D F R fs (afterSave o env localList fs) :=
    writeText_touches _ _ hlist
  have hplace := pathPlace_of_cwd hsave.ahead.cwd o.tmpWfut
  change Touches newDirectory D F R fs (if osExists (afterSave o env localList fs) o.tmpWfut then
    removeFile env.removeOk o.tmpWfut (afterSave o env localList fs)
    else afterSave o env localList fs)
  split
  · exact hsave.trans (removeFile_touches _ (hplace ▸ hlog) (hplace ▸ hgone))
  · exact hsave

end Operations

/-! ## The run -/

section Run

variable {o : Options} {env : Environment} {fs fs' : FileSystem} {lists : Loaded} {w w' : World}

/-- Where `poll` stores an update. -/
def updateTarget (o : Options) (fo : FileObject) : Bytes :=
  o.localRoot ++ ascii "/" ++ fo.filename

/-- The places of the targets. -/
def Loaded.targets (lists : Loaded) (o : Options) (env : Environment) (fs : FileSystem) :
    List Location :=
  (filesOf (lists.updates o env fs)).map fun fo => pathPlace fs (updateTarget o fo)

/-- The places where `createParentDirs` makes directories for the targets. They need not be above
the targets: a prefix may end before a backslash, or be cut at a NUL. -/
def Loaded.above (lists : Loaded) (o : Options) (env : Environment) (fs : FileSystem) :
    List Location :=
  (filesOf (lists.updates o env fs)).flatMap fun fo =>
    (parentPaths (updateTarget o fo)).map (pathPlace fs)

/-- The places of the list, the log and the targets. -/
def Loaded.written (lists : Loaded) (o : Options) (env : Environment) (fs : FileSystem) :
    List Location :=
  pathPlace fs o.localWfut :: pathPlace fs o.tmpWfut :: lists.targets o env fs

/-- What a run may touch. -/
def Loaded.Touched (lists : Loaded) (o : Options) (env : Environment) (fs fs' : FileSystem) :
    Prop :=
  Touches newDirectory {l | l ∈ lists.above o env fs} {l | l ∈ lists.written o env fs}
    {pathPlace fs o.tmpWfut} fs fs'

theorem JobOf.target_eq {fo : FileObject} {ds : DataStruct} (h : JobOf o.localRoot fo ds) :
    ds.target = updateTarget o fo := by
  rw [DataStruct.target, h.path, h.filename]
  rfl

theorem targetIn_update {fo : FileObject} (hfo : fo ∈ filesOf (lists.updates o env fs)) :
    TargetIn {l | l ∈ lists.above o env fs} {l | l ∈ lists.targets o env fs} fs.cwd
      (updateTarget o fo) where
  itself := List.mem_map.mpr ⟨fo, hfo, rfl⟩
  above _ hq := List.mem_flatMap.mpr ⟨fo, hfo, List.mem_map_of_mem hq⟩

/-- A message that is handled is about an update. -/
theorem Handles.targetIn {p : Ptr} {h : Handling} (hh : Handles o env fs lists p h)
    (hcwd : h.state.fs.cwd = fs.cwd) :
    TargetIn {l | l ∈ lists.above o env fs} {l | l ∈ lists.targets o env fs} h.state.fs.cwd
      h.ds.target := by
  obtain ⟨fo, hfo, hjob⟩ := hh.job
  rw [hjob.target_eq, hcwd]
  exact targetIn_update hfo

theorem TargetIn.written {cwd : Location} {target : Bytes}
    (h : TargetIn {l | l ∈ lists.above o env fs} {l | l ∈ lists.targets o env fs} cwd target) :
    TargetIn {l | l ∈ lists.above o env fs} {l | l ∈ lists.written o env fs} cwd target where
  itself := List.mem_cons_of_mem _ (List.mem_cons_of_mem _ h.itself)
  above := h.above

theorem Loaded.Touched.pathPlace_eq (h : lists.Touched o env fs fs') (path : Bytes) :
    pathPlace fs' path = pathPlace fs path :=
  pathPlace_of_cwd h.ahead.cwd path

theorem Loaded.Touched.record (h : lists.Touched o env fs fs') (g : TextWrite)
    (fo : FileObject) : lists.Touched o env fs (recordUpdateFile g fo o.tmpWfut fs') := by
  apply h.trans
  apply recordUpdateFile_touches
  rw [h.pathPlace_eq]
  exact List.mem_cons_of_mem _ (List.mem_cons_self ..)

theorem Loaded.Touched.save (h : lists.Touched o env fs fs') (g : TextWrite) (text : Bytes) :
    lists.Touched o env fs (writeText g text o.localWfut fs') := by
  apply h.trans
  apply writeText_touches
  rw [h.pathPlace_eq]
  exact List.mem_cons_self ..

theorem Loaded.Touched.finish (h : lists.Touched o env fs fs') (localList : ChannelFileList) :
    lists.Touched o env fs (LibWfut.finish o env localList fs') := by
  apply h.trans
  apply finish_touches
  · rw [h.pathPlace_eq]
    exact List.mem_cons_self ..
  · rw [h.pathPlace_eq]
    exact List.mem_cons_of_mem _ (List.mem_cons_self ..)
  · exact h.pathPlace_eq o.tmpWfut

theorem Loaded.Touched.handles (hstate : lists.Touched o env fs fs') {p : Ptr} {h : Handling}
    (hh : Handles o env fs lists p h) (hfs : h.state.fs = fs') : lists.Touched o env fs h.fs := by
  subst hfs
  exact hstate.trans (Handling.touches (hh.targetIn hstate.ahead.cwd).written)

theorem Loaded.Touched.turn (h : lists.Touched o env fs w.fs) (ht : Turn o env fs lists w w') :
    lists.Touched o env fs w'.fs := by
  cases ht with
  | quiet same =>
      rw [same]
      exact h
  | failed p k handled before trace failure after =>
      rw [after]
      exact h.handles handled before
  | stored p k fo handled before trace success listed job after =>
      rw [after]
      exact (h.handles handled before).record ..

theorem touched_of_turns (h : ReflTransGen (Turn o env fs lists) (lists.queued o env fs) w) :
    lists.Touched o env fs w.fs := by
  induction h with
  | refl =>
      rw [queued_fs]
      exact .refl fs
  | tail _ hturn ih => exact ih.turn hturn

theorem Handles.touched {p : Ptr} {h : Handling} (hh : Handles o env fs lists p h) :
    lists.Touched o env fs h.state.fs := by
  obtain ⟨v, hturns, hfs, -⟩ := hh.turns
  rw [hfs]
  exact touched_of_turns hturns

/-- However far a run gets, only the targets of its updates, its list and its log are written,
directories are made only where `createParentDirs` tries to, and nothing but the log is removed. -/
theorem run_touches (o : Options) (env : Environment) (fs fs' : FileSystem)
    (h : CutOff o env fs fs') :
    fs' = fs ∨ ∃ lists, loadLists o env fs = .ok (some lists) ∧ lists.Touched o env fs fs' := by
  cases h with
  | loading => exact .inl rfl
  | @polling lists w w₁ v before after r k loaded polls looping performed drained =>
      have hbefore := @turns_of_looping o env fs lists _ _ [] before (r :: after) polls rfl looping
      have hturns := hbefore.trans (turns_of_performed polls looping performed drained)
      exact .inr ⟨lists, loaded, touched_of_turns hturns⟩
  | @storing lists w before after r p h _ loaded polls looping handled stored =>
      have hh : Handles o env fs lists p h := ⟨before, r, after, w, polls, looping, handled⟩
      have hstate := hh.touched
      exact .inr ⟨lists, loaded,
        hstate.trans (stored.touches (hh.targetIn hstate.ahead.cwd).written)⟩
  | @logging lists w before after r p h fo g loaded polls looping handled success listed short =>
      have hh : Handles o env fs lists p h := ⟨before, r, after, w, polls, looping, handled⟩
      exact .inr ⟨lists, loaded, (hh.touched.handles hh rfl).record g fo⟩
  | @saving lists w g looped short =>
      exact .inr ⟨lists, looped.loaded, (touched_of_turns looped.turns).save ..⟩
  | finished returned =>
      rcases main_cases returned with ⟨-, -, rfl⟩ | ⟨lists, w, looped, -, rfl⟩
      · exact .inl rfl
      · exact .inr ⟨lists, looped.loaded, (touched_of_turns looped.turns).finish _⟩

end Run

theorem run_touches_finished :
    ∃ fs', main (underP (ascii "a")) otherChannel .empty = .ok (0, fs') ∧
      (fs' = .empty ∨ ∃ lists,
        loadLists (underP (ascii "a")) otherChannel .empty = .ok (some lists) ∧
        lists.Touched (underP (ascii "a")) otherChannel .empty fs') :=
  have hmain := main_of_loaded loadLists_otherChannel
  ⟨_, hmain.trans rfl, run_touches _ _ _ _ (.finished (hmain.trans rfl))⟩

/-! ## Two channels -/

/-- The places of a run on another channel keep out of the places of this one, but for the log,
and the directories it may have to make are shared. -/
structure KeepsOut (o : Options) (env : Environment) (fs : FileSystem) (other : Options)
    (env' : Environment) (lists : Loaded) : Prop where
  written : ∀ l ∈ footprint o env fs, l ∈ lists.written other env' fs →
    l = pathPlace fs o.tmpWfut
  above : ∀ l ∈ footprint o env fs, l ∈ lists.above other env' fs → fs.node l = none →
    SharedDirectory o env fs l

/-- Two channels whose places are apart share the log only: a run on one of them, cut off
anywhere or complete, that leaves the log as it found it does not show in a run on the other. -/
theorem channels_independent (o other : Options) (env env' : Environment) (fs fs' : FileSystem)
    (hcut : CutOff other env' fs fs')
    (hapart : ∀ lists, loadLists other env' fs = .ok (some lists) →
      KeepsOut o env fs other env' lists)
    (hlog : fs'.node (pathPlace fs o.tmpWfut) = fs.node (pathPlace fs o.tmpWfut))
    (hentries : ThroughLog o fs → fs.isDir (pathPlace fs o.tmpWfut) = true → ∀ c,
      fs'.node (pathPlace fs o.tmpWfut ++ [c]) = fs.node (pathPlace fs o.tmpWfut ++ [c])) :
    SameRun o env fs fs' := by
  refine (sameGround_of_footprint hcut.cwd (fun l hl => ?_) hentries).sameRun
  rcases run_touches other env' fs fs' hcut with rfl | ⟨lists, hlists, htouched⟩
  · exact .inl rfl
  · have hout := hapart lists hlists
    by_cases hplace : l = pathPlace fs o.tmpWfut
    · rw [hplace]
      exact .inl hlog
    · rcases htouched.ahead.node l fun hw => hplace (hout.written l hl hw) with
        heq | ⟨hD, hnone, hd⟩
      · exact .inl heq
      · exact .inr ⟨hout.above l hl hD hnone, hnone, hd⟩

/-- The run on `a` gets to its end and removes its log. -/
theorem channels_independent_finished :
    ∃ fs', main (underP (ascii "a")) otherChannel .empty = .ok (0, fs') ∧
      SameRun (underP (ascii "c")) (oneFileEnvironment { put := 1000 }) .empty fs' := by
  have hplaces : ∀ l ∈ [ascii "p/c/wfut.xml", ascii "p/tempwfut.xml", ascii "p/c//x", ascii "p",
        ascii "p/c", ascii "p/c/"].flatMap fun path => reached [] (cStr path),
      (l ∈ (offeredTo (ascii "a") channelA).written (underP (ascii "a")) otherChannel .empty →
        l = pathPlace .empty (underP (ascii "c")).tmpWfut) ∧
      (l ∈ (offeredTo (ascii "a") channelA).above (underP (ascii "a")) otherChannel .empty →
        FileSystem.empty.node l = none → l = [ascii "p"]) := by decide
  have hmain := main_of_loaded loadLists_otherChannel
  refine ⟨_, hmain.trans rfl, channels_independent _ (underP (ascii "a")) _ otherChannel _ _
    (.finished (hmain.trans rfl)) ?_ (by decide) fun _ hdir => absurd hdir (by decide)⟩
  intro lists hlists
  obtain rfl : offeredTo (ascii "a") channelA = lists := by
    rw [loadLists_otherChannel] at hlists
    exact Option.some.inj (Except.ok.inj hlists)
  constructor
  case written =>
    intro l hl
    rw [footprint_oneFile] at hl
    exact (hplaces l hl).1
  case above =>
    intro l hl hm hnone
    rw [footprint_oneFile] at hl
    rw [(hplaces l hl).2 hm hnone]
    exact sharedDirectory_p

end LibWfut
