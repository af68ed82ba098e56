import LibWfut.Verification.Tool.Crashes
import LibWfut.Verification.Tool.Results

/-! # Interrupted runs

Runs on one channel, one after the other, each of them cut off anywhere or complete. The first
log that one of them leaves is the end of all updates. -/

namespace LibWfut

open FileTree Machine TinyXml Relation

/-! ## The log in the tree -/

section Log

variable {path target : Bytes} {fs fs' : FileSystem} {g : TextWrite} {fo : FileObject}
  {files : List FileObject}

/-- The log has the records of these files, and there is none while there is no file. -/
def LogOf (path : Bytes) (files : List FileObject) (fs : FileSystem) : Prop :=
  (files = [] ∧ fs.node (pathPlace fs path) = none) ∨
    HoldsExactly fs path (logHeader ++ files.flatMap logRecord)

/-- Nothing stands at the place of the log, or the start of a log does. -/
def LogStarted (path : Bytes) (files : List FileObject) (fs : FileSystem) : Prop :=
  fs.node (pathPlace fs path) = none ∨
    ∃ t : Bytes, HoldsExactly fs path t ∧ t <+: logHeader ++ files.flatMap logRecord

theorem LogOf.started (h : LogOf path files fs) : LogStarted path files fs := by
  rcases h with ⟨-, hnone⟩ | hlog
  · exact .inl hnone
  · exact .inr ⟨_, hlog, List.prefix_rfl⟩

/-- A log stays while other places are touched. -/
theorem LogOf.touches {D F : Set Location} (h : LogOf path files fs)
    (ht : Touches newDirectory D F ∅ fs fs') (hF : pathPlace fs path ∉ F)
    (hD : pathPlace fs path ∉ D) : LogOf path files fs' := by
  rcases h with ⟨hnil, hnone⟩ | hlog
  · left
    rw [pathPlace_of_cwd ht.ahead.cwd]
    rcases ht.ahead.node _ hF with heq | ⟨hmem, -⟩
    · exact ⟨hnil, heq.trans hnone⟩
    · exact absurd hmem hD
  · exact .inr (hlog.touches ht (avoids_empty _ _) hF)

/-- What is kept of a record goes behind the whole ones. -/
theorem LogOf.record (h : LogOf path files fs) :
    recordUpdateFile g fo path fs = fs ∨
      (files = [] ∧
        HoldsExactly (recordUpdateFile g fo path fs) path (g.kept (logHeader ++ logRecord fo))) ∨
      HoldsExactly (recordUpdateFile g fo path fs) path
        (logHeader ++ files.flatMap logRecord ++ g.kept (logRecord fo)) := by
  unfold recordUpdateFile
  rcases h with ⟨hnil, hnone⟩ | ⟨n, hn, hkind⟩
  · have hexists : osExists fs path = false := by
      rw [osExists, FileSystem.lookup_eq_none hnone]
      rfl
    rw [hexists, if_neg (by simp)]
    rcases writeText_cases g (logHeader ++ logRecord fo) path fs with ⟨-, heq⟩ | ⟨l, hl, hopen, -⟩
    · exact .inl heq
    · right; left
      rw [holdsExactly_writeText, if_pos hopen]
      exact ⟨hnil, rfl⟩
  · have hexists : osExists fs path = true := by
      rw [osExists, hn]
      rfl
    rw [if_pos hexists]
    obtain ⟨l, hl, hnode⟩ := Option.bind_eq_some_iff.mp hn
    unfold appendText
    rw [hl]
    simp only [hnode, Option.map_some, hkind]
    split
    · have hset := FileSystem.node_setContent_self hnode hkind
        (logHeader ++ files.flatMap logRecord ++ g.kept (logRecord fo))
      refine .inr (.inr ⟨{ n with kind := _ }, ?_, rfl⟩)
      rw [FileSystem.lookup, FileSystem.resolve_congr (FileSystem.cwd_setContent ..)
        (fun m => FileSystem.isDir_setContent fs l m _), hl, Option.bind_some]
      exact hset
    · exact .inl rfl

/-- A record that is granted in full makes the log one record longer. -/
theorem LogOf.record_whole (h : LogOf path files fs) (hlost : g.lost = 0)
    (hput : (logHeader ++ logRecord fo).length ≤ g.put) :
    LogOf path files (recordUpdateFile g fo path fs) ∨
      LogOf path (files ++ [fo]) (recordUpdateFile g fo path fs) := by
  have hrecord : (logRecord fo).length ≤ g.put := by
    rw [List.length_append] at hput
    omega
  rcases @LogOf.record _ _ g fo _ h with heq | ⟨rfl, hlog⟩ | hlog
  · rw [heq]
    exact .inl h
  · rw [kept_of_length_le hput hlost] at hlog
    exact .inr (.inr (by simpa using hlog))
  · rw [kept_of_length_le hrecord hlost] at hlog
    exact .inr (.inr (by simpa using hlog))

/-- A record that is cut off leaves the start of a log. -/
theorem LogOf.record_cut (h : LogOf path files fs) (hkept : ∀ text, g.kept text <+: text) :
    LogStarted path (files ++ [fo]) (recordUpdateFile g fo path fs) := by
  have hflat : logHeader ++ (files ++ [fo]).flatMap logRecord =
      logHeader ++ files.flatMap logRecord ++ logRecord fo := by
    simp
  rcases @LogOf.record _ _ g fo _ h with heq | ⟨rfl, hlog⟩ | hlog
  · rw [heq]
    rcases h with ⟨-, hnone⟩ | hlog
    · exact .inl hnone
    · exact .inr ⟨_, hlog, hflat ▸ List.prefix_append ..⟩
  · exact .inr ⟨_, hlog, by simpa using hkept _⟩
  · exact .inr ⟨_, hlog, hflat ▸ (List.prefix_append_right_inj _).mpr (hkept _)⟩

end Log

/-! ## The log in a run -/

section Run

variable {o : Options} {env : Environment} {fs fs' : FileSystem} {lists : Loaded} {w w' : World}

/-- What a run may count on: its records are granted in full, and no download is about the
log. -/
structure LogSafe (o : Options) (env : Environment) (fs : FileSystem) (lists : Loaded) : Prop where
  granted : ∀ (f : Bytes) (fo : FileObject), (lists.updates o env fs).getFiles[f]? = some fo →
    ∀ n, (env.logs n).lost = 0 ∧ (logHeader ++ logRecord fo).length ≤ (env.logs n).put
  apart : ∀ q ∈ targetPaths (lists.updates o env fs) o.localRoot,
    pathPlace fs q ≠ pathPlace fs o.tmpWfut

theorem LogSafe.not_mem (hs : LogSafe o env fs lists) :
    pathPlace fs o.tmpWfut ∉ lists.targets o env fs ∧
      pathPlace fs o.tmpWfut ∉ lists.above o env fs := by
  constructor
  · intro hm
    obtain ⟨fo, hfo, heq⟩ := List.mem_map.mp hm
    exact hs.apart _ (List.mem_flatMap.mpr ⟨fo, hfo, List.mem_cons_self ..⟩) heq
  · intro hm
    obtain ⟨fo, hfo, hm⟩ := List.mem_flatMap.mp hm
    obtain ⟨q, hq, heq⟩ := List.mem_map.mp hm
    exact hs.apart q (List.mem_flatMap.mpr ⟨fo, hfo, List.mem_cons_of_mem _ hq⟩) heq

/-- What is stored for an update leaves the log alone. -/
theorem LogSafe.touches {files : List FileObject} (hs : LogSafe o env fs lists)
    (hlog : LogOf o.tmpWfut files fs') (hcwd : fs'.cwd = fs.cwd) {gs : FileSystem}
    (ht : Touches newDirectory {l | l ∈ lists.above o env fs} {l | l ∈ lists.targets o env fs} ∅
      fs' gs) : LogOf o.tmpWfut files gs := by
  have hplace := pathPlace_of_cwd hcwd o.tmpWfut
  exact hlog.touches ht (hplace ▸ hs.not_mem.1) (hplace ▸ hs.not_mem.2)

/-- The records of the log are those of completed updates. -/
structure Logged (o : Options) (env : Environment) (fs : FileSystem) (lists : Loaded)
    (files : List FileObject) (w : World) : Prop where
  cwd : w.fs.cwd = fs.cwd
  log : LogOf o.tmpWfut files w.fs
  listed : ∀ fo ∈ files, fo ∈ filesOf (lists.updates o env fs)
  completed : ∀ fo ∈ files, fo.filename ∈ completedFiles w.trace

section Logged

variable {files : List FileObject}

theorem logged_queued (hstart : fs.node (pathPlace fs o.tmpWfut) = none) :
    Logged o env fs lists [] (lists.queued o env fs) := by
  constructor
  case cwd => rw [queued_fs]
  case log =>
    rw [queued_fs]
    exact .inl ⟨rfl, hstart⟩
  case listed => simp
  case completed => simp

/-- Handling a message leaves the log alone. -/
theorem Logged.handles (hw : Logged o env fs lists files w) (hs : LogSafe o env fs lists) {p : Ptr}
    {h : Handling} (hh : Handles o env fs lists p h) (hfs : h.state.fs = w.fs) :
    LogOf o.tmpWfut files h.fs ∧ h.fs.cwd = fs.cwd := by
  have hcwd : h.state.fs.cwd = fs.cwd := hfs ▸ hw.cwd
  have htouches := @Handling.touches _ _ ∅ _ (hh.targetIn hcwd)
  exact ⟨hs.touches (hfs ▸ hw.log) hcwd htouches, htouches.ahead.cwd.trans hcwd⟩

/-- A turn keeps the log or adds the record of the file that it completes. -/
theorem Logged.turn (hw : Logged o env fs lists files w) (hs : LogSafe o env fs lists)
    (ht : Turn o env fs lists w w') : ∃ files', Logged o env fs lists files' w' := by
  cases ht with
  | quiet same trace =>
      refine ⟨files, by rw [same, hw.cwd], by rw [same]; exact hw.log, hw.listed, ?_⟩
      rw [trace]
      exact hw.completed
  | failed p h handled before trace failure after completed =>
      obtain ⟨hlog, hcwd⟩ := hw.handles hs handled before
      refine ⟨files, by rw [after, hcwd], by rw [after]; exact hlog, hw.listed, ?_⟩
      rw [completed]
      exact hw.completed
  | stored p h fo handled before trace success hfo job after completed =>
      obtain ⟨hlog, hcwd⟩ := hw.handles hs handled before
      obtain ⟨hlost, hput⟩ := hs.granted fo.filename fo (mem_filesOf.mp hfo) w.trace.length
      have hkept : ∀ g ∈ files, g.filename ∈ completedFiles w'.trace := by
        intro g hg
        rw [completed]
        exact List.mem_append_left _ (hw.completed g hg)
      have hcwd' : w'.fs.cwd = fs.cwd := by rw [after, recordUpdateFile_cwd, hcwd]
      rcases hlog.record_whole hlost hput with hsame | hone
      · exact ⟨files, hcwd', by rw [after]; exact hsame, hw.listed, hkept⟩
      · refine ⟨files ++ [fo], hcwd', by rw [after]; exact hone, ?_, ?_⟩
        · exact List.forall_mem_append.mpr ⟨hw.listed, by simpa using hfo⟩
        · exact List.forall_mem_append.mpr ⟨hkept, by simp [completed]⟩

theorem logged_of_turns (hstart : fs.node (pathPlace fs o.tmpWfut) = none)
    (hs : LogSafe o env fs lists)
    (h : ReflTransGen (Turn o env fs lists) (lists.queued o env fs) w) :
    ∃ files, Logged o env fs lists files w := by
  induction h with
  | refl => exact ⟨[], logged_queued hstart⟩
  | tail _ hturn ih =>
      obtain ⟨files, hw⟩ := ih
      exact hw.turn hs hturn

end Logged

/-! ## The log and the files -/

/-- The log is the start of the records of files that are in place. -/
def LogBehind (o : Options) (env : Environment) (fs : FileSystem) (lists : Loaded)
    (gs : FileSystem) : Prop :=
  ∃ files, LogStarted o.tmpWfut files gs ∧ ∀ fo ∈ files,
    fo ∈ filesOf (lists.updates o env fs) ∧
      (TargetsApart o env fs lists → InPlace o env fs lists fo gs)

theorem behind_of_turns (hstart : fs.node (pathPlace fs o.tmpWfut) = none)
    (hs : LogSafe o env fs lists)
    (h : ReflTransGen (Turn o env fs lists) (lists.queued o env fs) w) :
    LogBehind o env fs lists w.fs := by
  obtain ⟨files, hw⟩ := logged_of_turns hstart hs h
  refine ⟨files, hw.log.started, fun fo hfo => ⟨hw.listed fo hfo, fun hapart => ?_⟩⟩
  exact (progress_of_turns hapart h).completed fo (hw.listed fo hfo) (hw.completed fo hfo)

theorem Handles.logged {p : Ptr} {h : Handling} (hh : Handles o env fs lists p h)
    (hstart : fs.node (pathPlace fs o.tmpWfut) = none) (hs : LogSafe o env fs lists) :
    ∃ files, Logged o env fs lists files h.state := by
  obtain ⟨v, hturns, hfs, htrace⟩ := hh.turns
  obtain ⟨files, hv⟩ := logged_of_turns hstart hs hturns
  exact hv.turn hs (.quiet hfs htrace)

/-- While a file is stored the log keeps behind. -/
theorem Handles.behind_storing {p : Ptr} {h : Handling} (hh : Handles o env fs lists p h)
    (hstart : fs.node (pathPlace fs o.tmpWfut) = none) (hs : LogSafe o env fs lists)
    (stored : Storing h fs') : LogBehind o env fs lists fs' := by
  obtain ⟨files, hw⟩ := hh.logged hstart hs
  obtain ⟨fo', hfo', hjob⟩ := hh.job
  have hlog := hs.touches hw.log hw.cwd (stored.touches (hh.targetIn hw.cwd))
  refine ⟨files, hlog.started, fun fo hfo => ⟨hw.listed fo hfo, fun hapart => ?_⟩⟩
  exact hh.kept hapart (hw.listed fo hfo) (hw.completed fo hfo) hfo' hjob
    (stored.touches (hjob.targetIn hw.cwd))

/-- While a record is written its file is in place. -/
theorem Handles.behind_logging {p : Ptr} {h : Handling} {fo : FileObject} {g : TextWrite}
    (hh : Handles o env fs lists p h) (hstart : fs.node (pathPlace fs o.tmpWfut) = none)
    (hs : LogSafe o env fs lists) (success : h.error = none)
    (listed : (lists.updates o env fs).getFiles[h.ds.filename]? = some fo)
    (hkept : ∀ text, g.kept text <+: text) :
    LogBehind o env fs lists (recordUpdateFile g fo o.tmpWfut h.fs) := by
  obtain ⟨files, hw⟩ := hh.logged hstart hs
  obtain ⟨fo', hfo', hjob⟩ := hh.job
  obtain rfl : fo' = fo := by
    rw [hjob.filename] at listed
    exact Option.some.inj ((mem_filesOf.mp hfo').symm.trans listed)
  obtain ⟨hlog, hcwd⟩ := hw.handles hs hh rfl
  have hown := @record_touches_own o fs h.fs fo' g hcwd
  refine ⟨files ++ [fo'], hlog.record_cut hkept, List.forall_mem_append.mpr ⟨?_, ?_⟩⟩
  · refine fun fo hfo => ⟨hw.listed fo hfo, fun hapart => ?_⟩
    have hplace := hh.kept hapart (hw.listed fo hfo) (hw.completed fo hfo) hfo' hjob
      (Handling.touches (hjob.targetIn hw.cwd))
    exact hplace.own hapart (hw.listed fo hfo) hcwd hown
  · rw [List.forall_mem_singleton]
    refine ⟨hfo', fun hapart => ?_⟩
    have hplace : InPlace o env fs lists fo' h.fs := StoredBy.inPlace ⟨⟨p, hh⟩, success, hjob⟩
    exact hplace.own hapart hfo' hcwd hown

theorem removeFile_started {removeOk : Bool} {path : Bytes} {files : List FileObject}
    {gs : FileSystem} (h : LogOf path files gs) :
    LogStarted path files (removeFile removeOk path gs) := by
  rcases removeFile_cases removeOk path gs with ⟨⟨-, -, hr⟩, heq⟩ | ⟨-, heq⟩
  · left
    rw [heq, pathPlace_of_cwd (FileSystem.cwd_remove ..), FileSystem.node_remove, if_pos ⟨rfl, hr⟩]
  · rw [heq]
    exact h.started

/-- The list is written beside the log. -/
theorem LogOf.save {files : List FileObject} (hlog : LogOf o.tmpWfut files fs) {g : TextWrite}
    {text : Bytes} : LogOf o.tmpWfut files (writeText g text o.localWfut fs) := by
  have htouches : Touches newDirectory ∅ {pathPlace fs o.localWfut} ∅ fs
      (writeText g text o.localWfut fs) := writeText_touches g text rfl
  exact hlog.touches htouches (o.place_ne fs.cwd) (Set.notMem_empty _)

theorem LogOf.finish {files : List FileObject} (hlog : LogOf o.tmpWfut files fs)
    (localList : ChannelFileList) :
    LogStarted o.tmpWfut files (LibWfut.finish o env localList fs) := by
  have hsave : LogOf o.tmpWfut files (afterSave o env localList fs) := hlog.save
  change LogStarted o.tmpWfut files (if osExists (afterSave o env localList fs) o.tmpWfut then
    removeFile env.removeOk o.tmpWfut (afterSave o env localList fs)
    else afterSave o env localList fs)
  split
  · exact removeFile_started hsave
  · exact hsave.started

/-- Nothing at the end of a run gets the log ahead of the files. -/
theorem Looped.behind {gs : FileSystem} (looped : Looped o env fs lists w)
    (hstart : fs.node (pathPlace fs o.tmpWfut) = none) (hs : LogSafe o env fs lists)
    (hlog : ∀ files, LogOf o.tmpWfut files w.fs → LogStarted o.tmpWfut files gs)
    (ht : Touches newDirectory ∅ (ownPlaces o fs) {pathPlace fs o.tmpWfut} w.fs gs) :
    LogBehind o env fs lists gs := by
  obtain ⟨files, hw⟩ := logged_of_turns hstart hs looped.turns
  refine ⟨files, hlog files hw.log, fun fo hfo => ⟨hw.listed fo hfo, fun hapart => ?_⟩⟩
  have hplace := (progress_of_turns hapart looped.turns).completed fo (hw.listed fo hfo)
    (hw.completed fo hfo)
  exact hplace.own hapart (hw.listed fo hfo) hw.cwd ht

/-- However far a run got, there is no log or it has records of files in place only. -/
theorem CutOff.log (hcut : CutOff o env fs fs')
    (hstart : fs.node (pathPlace fs o.tmpWfut) = none)
    (hsafe : ∀ lists, loadLists o env fs = .ok (some lists) → LogSafe o env fs lists) :
    fs'.node (pathPlace fs' o.tmpWfut) = none ∨
      ∃ lists, loadLists o env fs = .ok (some lists) ∧ LogBehind o env fs lists fs' := by
  cases hcut with
  | loading => exact .inl hstart
  | @polling lists w w₁ v before after r k loaded polls looping performed drained =>
      have hbefore := @turns_of_looping o env fs lists _ _ [] before (r :: after) polls rfl looping
      have hturns := hbefore.trans (turns_of_performed polls looping performed drained)
      exact .inr ⟨lists, loaded, behind_of_turns hstart (hsafe lists loaded) hturns⟩
  | @storing lists w before after r p h _ loaded polls looping handled stored =>
      have hh : Handles o env fs lists p h := ⟨before, r, after, w, polls, looping, handled⟩
      exact .inr ⟨lists, loaded, hh.behind_storing hstart (hsafe lists loaded) stored⟩
  | @logging lists w before after r p h fo g loaded polls looping handled success listed short =>
      have hh : Handles o env fs lists p h := ⟨before, r, after, w, polls, looping, handled⟩
      refine .inr ⟨lists, loaded, hh.behind_logging hstart (hsafe lists loaded) success listed ?_⟩
      exact fun text => (short.kept text).trans ((List.take_prefix ..).trans (List.take_prefix ..))
  | @saving lists w g looped short =>
      have hs := hsafe lists looped.loaded
      refine .inr ⟨lists, looped.loaded, looped.behind hstart hs (fun files hlog => ?_) ?_⟩
      · exact hlog.save.started
      · exact save_touches_own looped.cwd
  | finished returned =>
      rcases main_cases returned with ⟨-, -, rfl⟩ | ⟨lists, w, looped, -, rfl⟩
      · exact .inl hstart
      · have hs := hsafe lists looped.loaded
        refine .inr ⟨lists, looped.loaded, looped.behind hstart hs (fun files hlog => ?_) ?_⟩
        · exact hlog.finish _
        · exact finish_touches_own _ looped.cwd

/-- At whatever point a run is cut off, what there is of the log is the start of the records of
files that stand in place, each stored by a message of this run. -/
theorem log_behind_files (o : Options) (env : Environment) (fs fs' : FileSystem)
    (hcut : CutOff o env fs fs') (hstart : fs.node (pathPlace fs o.tmpWfut) = none)
    (hsafe : ∀ lists, loadLists o env fs = .ok (some lists) →
      LogSafe o env fs lists ∧ TargetsApart o env fs lists) :
    fs'.node (pathPlace fs' o.tmpWfut) = none ∨
      ∃ (lists : Loaded) (files : List FileObject) (t : Bytes),
        loadLists o env fs = .ok (some lists) ∧ HoldsExactly fs' o.tmpWfut t ∧
        t <+: logHeader ++ files.flatMap logRecord ∧
        ∀ fo ∈ files, fo ∈ filesOf (lists.updates o env fs) ∧ InPlace o env fs lists fo fs' := by
  rcases hcut.log hstart fun lists hlists => (hsafe lists hlists).1 with
    hnone | ⟨lists, hlists, files, hnone | ⟨t, hlog, ht⟩, hfiles⟩
  · exact .inl hnone
  · exact .inl hnone
  · refine .inr ⟨lists, files, t, hlists, hlog, ht, fun fo hfo => ?_⟩
    obtain ⟨hlisted, hplace⟩ := hfiles fo hfo
    exact ⟨hlisted, hplace (hsafe lists hlists).2⟩

/-- A run that finds a torn file leaves it, however far it gets. -/
theorem CutOff.of_torn (hcut : CutOff o env fs fs') (henv : UsesTinyXml env)
    (htorn : Torn o fs) : fs' = fs := by
  have hnone : ∀ {lists : Loaded}, loadLists o env fs ≠ .ok (some lists) := by
    intro lists hlists
    have hfound := loadLists_of_torn henv htorn hlists
    simp at hfound
  cases hcut with
  | loading => rfl
  | polling k loaded => exact absurd loaded hnone
  | storing loaded => exact absurd loaded hnone
  | logging loaded => exact absurd loaded hnone
  | saving looped => exact absurd looped.loaded hnone
  | finished returned => exact (main_of_torn henv htorn returned).2

end Run

/-! ## Histories -/

/-- A run with TinyXML, cut off anywhere or complete. A log that it leaves does not end where
TinyXML asserts. -/
structure Ran (o : Options) (env : Environment) (fs fs' : FileSystem) : Prop where
  reader : UsesTinyXml env
  safe : ∀ lists, loadLists o env fs = .ok (some lists) → LogSafe o env fs lists
  cut : CutOff o env fs fs'
  blank : ∀ t ∈ blankStarts, ¬HoldsExactly fs' o.tmpWfut t

/-- Runs on one channel, one after the other, whatever the server offers to each. -/
def UpdateHistory (o : Options) : FileSystem → FileSystem → Prop :=
  ReflTransGen fun fs fs' => ∃ env, Ran o env fs fs'

/-- Every run of a history finds no log or the start of one. -/
theorem UpdateHistory.log {o : Options} {fs gs : FileSystem} (h : UpdateHistory o fs gs)
    (hstart : fs.node (pathPlace fs o.tmpWfut) = none) :
    gs.node (pathPlace gs o.tmpWfut) = none ∨ Torn o gs := by
  induction h with
  | refl => exact .inl hstart
  | tail _ hran ih =>
      obtain ⟨env, hran⟩ := hran
      rcases ih with hnone | htorn
      · rcases hran.cut.log hnone hran.safe with hnone' | ⟨lists, -, files, hstarted, -⟩
        · exact .inl hnone'
        · rcases hstarted with hnone' | ⟨t, hlog, ht⟩
          · exact .inl hnone'
          · exact .inr (.log hlog ht fun hblank => hran.blank t hblank hlog)
      · rw [hran.cut.of_torn hran.reader htorn]
        exact .inr htorn

/-- The log is there so that a run can take up what an interrupted one has completed. No run
ever does: in every history that starts without a log, the first log that is left stays for
good, nothing is changed any more, and every run that returns has failed. -/
theorem log_ends_updates (o : Options) (fs gs : FileSystem)
    (hstart : fs.node (pathPlace fs o.tmpWfut) = none) (h : UpdateHistory o fs gs)
    (hlog : osExists gs o.tmpWfut = true) :
    (∀ gs', UpdateHistory o gs gs' → gs' = gs) ∧
      ∀ env status gs', UsesTinyXml env → main o env gs = .ok (status, gs') →
        status = 1 ∧ gs' = gs := by
  have htorn : Torn o gs := by
    rcases h.log hstart with hnone | htorn
    · have hlost := FileSystem.lookup_eq_none hnone
      rw [osExists, hlost] at hlog
      simp at hlog
    · exact htorn
  refine ⟨fun gs' hgs => ?_, fun env status gs' henv hmain => main_of_torn henv htorn hmain⟩
  induction hgs with
  | refl => rfl
  | tail _ hran ih =>
      obtain ⟨env, hran⟩ := hran
      rw [ih] at hran
      exact hran.cut.of_torn hran.reader htorn

/-! ## One file, cut off behind its record -/

theorem logSafe_tinyXmlEnvironment :
    LogSafe (underP (ascii "c")) tinyXmlEnvironment .empty oneFileLoaded := by
  constructor
  case granted =>
    intro f fo hfo n
    have hmem : fo ∈ [emptyFile (ascii "x")] :=
      (mem_filesOf (l := oneFileLoaded.updates (underP (ascii "c")) tinyXmlEnvironment .empty)).mpr
        ((ChannelFileList.keyed _ f fo hfo).symm ▸ hfo)
    have hlength : (logHeader ++ logRecord (emptyFile (ascii "x"))).length ≤ 1000 := by
      decide +kernel
    rw [List.mem_singleton.mp hmem]
    exact ⟨rfl, hlength⟩
  case apart =>
    have htargets : ∀ q ∈ [ascii "p/c//x", ascii "p", ascii "p/c", ascii "p/c/"],
        pathPlace .empty q ≠ pathPlace .empty (underP (ascii "c")).tmpWfut := by decide
    exact htargets

/-- The run stops before curl is asked again, and leaves the log with one record. -/
theorem ran_tinyXmlEnvironment :
    ∃ fs', Ran (underP (ascii "c")) tinyXmlEnvironment .empty fs' ∧
      HoldsExactly fs' (underP (ascii "c")).tmpWfut
        (logHeader ++ logRecord (emptyFile (ascii "x"))) := by
  have hrun : ∃ w w₁ v,
      Looping (toolEmit tinyXmlEnvironment (oneFileLoaded.updates (underP (ascii "c"))
        tinyXmlEnvironment .empty) (underP (ascii "c")).tmpWfut)
        (oneFileLoaded.queued (underP (ascii "c")) tinyXmlEnvironment .empty) [{ running := 0 }] w ∧
      w.multiPerform succeeds = .ok w₁ ∧
      drain (toolEmit tinyXmlEnvironment (oneFileLoaded.updates (underP (ascii "c"))
        tinyXmlEnvironment .empty) (underP (ascii "c")).tmpWfut) 1 w₁ = .ok v ∧
      ∃ n, v.fs.lookup (cStr (underP (ascii "c")).tmpWfut) = some n ∧
        n.kind = .regular (TextWrite.kept { put := 1000 }
          (logHeader ++ logRecord (emptyFile (ascii "x")))) :=
    ⟨_, _, _, ⟨_, _, rfl, by decide, rfl⟩, rfl, rfl, _, rfl, rfl⟩
  obtain ⟨w, w₁, v, looping, performed, drained, n, hn, hk⟩ := hrun
  have hkept : TextWrite.kept { put := 1000 } (logHeader ++ logRecord (emptyFile (ascii "x"))) =
      logHeader ++ logRecord (emptyFile (ascii "x")) :=
    kept_of_length_le (by decide +kernel) rfl
  rw [hkept] at hk
  refine ⟨v.fs, ⟨usesTinyXml_tinyXmlEnvironment, ?_, ?_, ?_⟩, n, hn, hk⟩
  · intro lists hlists
    rw [loadLists_oneFile, Except.ok.injEq, Option.some.injEq] at hlists
    rw [← hlists]
    exact logSafe_tinyXmlEnvironment
  · exact .polling 1 (loadLists_oneFile _) rfl looping performed drained
  · rintro t ht ⟨k, hk', hkind⟩
    obtain rfl : n = k := Option.some.inj (hn.symm.trans hk')
    rw [hk, Kind.regular.injEq] at hkind
    rw [← hkind] at ht
    revert ht
    decide

theorem targetsApart_tinyXmlEnvironment :
    TargetsApart (underP (ascii "c")) tinyXmlEnvironment .empty oneFileLoaded := by
  constructor
  case targets =>
    intro fo hfo fo' hfo' _
    have hone : ∀ f ∈ filesOf (oneFileLoaded.updates (underP (ascii "c")) tinyXmlEnvironment
        .empty), f = emptyFile (ascii "x") := fun f hf => List.mem_singleton.mp hf
    rw [hone fo hfo, hone fo' hfo']
  case list => decide
  case log => decide
  case way =>
    intro fo hfo
    rw [List.mem_singleton.mp hfo]
    exact avoids_of_not_mem_reached (by decide)

theorem log_behind_files_tinyXml :
    ∃ fs', CutOff (underP (ascii "c")) tinyXmlEnvironment .empty fs' ∧
      (fs'.node (pathPlace fs' (underP (ascii "c")).tmpWfut) = none ∨
        ∃ (lists : Loaded) (files : List FileObject) (t : Bytes),
          loadLists (underP (ascii "c")) tinyXmlEnvironment .empty = .ok (some lists) ∧
          HoldsExactly fs' (underP (ascii "c")).tmpWfut t ∧
          t <+: logHeader ++ files.flatMap logRecord ∧
          ∀ fo ∈ files,
            fo ∈ filesOf (lists.updates (underP (ascii "c")) tinyXmlEnvironment .empty) ∧
            InPlace (underP (ascii "c")) tinyXmlEnvironment .empty lists fo fs') := by
  obtain ⟨fs', hran, -⟩ := ran_tinyXmlEnvironment
  refine ⟨fs', hran.cut, log_behind_files _ _ _ _ hran.cut rfl fun lists hlists => ?_⟩
  rw [loadLists_oneFile, Except.ok.injEq, Option.some.injEq] at hlists
  rw [← hlists]
  exact ⟨logSafe_tinyXmlEnvironment, targetsApart_tinyXmlEnvironment⟩

theorem log_ends_updates_tinyXml :
    ∃ gs, osExists gs (underP (ascii "c")).tmpWfut = true ∧
      UpdateHistory (underP (ascii "c")) .empty gs ∧
      (∀ gs', UpdateHistory (underP (ascii "c")) gs gs' → gs' = gs) ∧
      ∀ env status gs', UsesTinyXml env → main (underP (ascii "c")) env gs = .ok (status, gs') →
        status = 1 ∧ gs' = gs := by
  obtain ⟨gs, hran, hlog⟩ := ran_tinyXmlEnvironment
  have hexists := osExists_of_holdsExactly hlog
  have hhistory : UpdateHistory (underP (ascii "c")) .empty gs := .single ⟨_, hran⟩
  exact ⟨gs, hexists, hhistory,
    log_ends_updates (underP (ascii "c")) .empty gs rfl hhistory hexists⟩

end LibWfut
