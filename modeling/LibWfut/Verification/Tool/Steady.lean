import LibWfut.Verification.Tool.Crashes

/-! # Runs that settle

A run that has completed and saved everything leaves nothing to do, and the runs after it find
so: they return 0 and, from the second on, change nothing at all. -/

namespace LibWfut

open FileTree Machine TinyXml

/-! ## Lists -/

section Lists

variable {server system l localList : ChannelFileList} {pathPrefix : Bytes} {fs fs' : FileSystem}

/-- The filenames that come back from a saved list. -/
def LegibleNames (l : ChannelFileList) : Prop :=
  ∀ (k : Bytes) (f : FileObject), l.fileMap[k]? = some f → ∀ c ∈ k, c < 128 ∨ c = 255

/-- With such names every entry comes back. -/
theorem getElem?_restored (h : LegibleNames l) (k : Bytes) :
    (restored l).getFiles[k]? = l.getFiles[k]?.map reread := by
  rw [restored, ChannelFileList.getFiles, fileMap_addFiles]
  apply OrderedMap.getElem?_insertAll_map
  intro k' f hf
  have hname : f.filename = k' := l.keyed k' f hf
  rw [reread, hname]
  exact Encoder.map_legible_eq_self_iff.mpr (h k' f hf)

/-- `calculateUpdates` finds nothing to do. -/
def NothingToDo (server system localList : ChannelFileList) (pathPrefix : Bytes)
    (fs : FileSystem) : Prop :=
  ∀ (got : Bytes → ℕ → ℕ) (f : Bytes) (o : FileObject), server.getFiles[f]? = some o →
    (reasonFor got system localList pathPrefix fs f o).adds = false

theorem NothingToDo.offered_eq (h : NothingToDo server system localList pathPrefix fs)
    (got : Bytes → ℕ → ℕ) : offered got server system localList pathPrefix fs = .empty := by
  have hnil : server.fileMap.toList.filter
      (fun e => (reasonFor got system localList pathPrefix fs e.1 e.2).adds) = [] := by
    rw [List.filter_eq_nil_iff]
    intro e he
    have hentry := Std.ExtTreeMap.mem_toList_iff_getElem?_eq_some.mp he
    simp [h got e.1 e.2 hentry]
  rw [offered, calculateUpdates_snd, hnil]
  rfl

/-- Only what can be opened, and the versions, decide. -/
theorem NothingToDo.congr {localList' : ChannelFileList}
    (h : NothingToDo server system localList pathPrefix fs)
    (hfiles : localList'.getFiles = localList.getFiles)
    (hopens : ∀ path : Bytes, fs'.opens path = fs.opens path) :
    NothingToDo server system localList' pathPrefix fs' := by
  intro got f o ho
  have hbefore := h got f o ho
  rw [reasonFor, adds_updateReason] at hbefore ⊢
  rw [hfiles]
  simp only [hopens]
  exact hbefore

/-- The list that a run saves when it has found a saved list and nothing to do. -/
def again (server l : ChannelFileList) : ChannelFileList :=
  (restored l).setName server.getName

theorem getFiles_restored_again : (restored (again server l)).getFiles = (restored l).getFiles := by
  have hsame : (filesOf (restored l)).map reread = filesOf (restored l) :=
    (List.map_congr_left fun f hf => mem_restored hf).trans (List.map_id _)
  have hfiles : filesOf (again server l) = filesOf (restored l) := filesOf_setName ..
  rw [restored, hfiles, hsame]
  change (addFiles _ _).fileMap = (restored l).fileMap
  rw [fileMap_addFiles]
  exact OrderedMap.insertAll_values (restored l).keyed

/-- It is saved as it is from then on. -/
theorem again_again : again server (again server l) = again server l := by
  apply ChannelFileList.ext
  · rfl
  · exact getFiles_restored_again

end Lists

/-! ## One run -/

section Run

variable {o : Options} {env : Environment} {fs fs' : FileSystem} {lists : Loaded}
  {server system l : ChannelFileList}

/-- A saved list that is found is the local list. -/
theorem loadLists_localList {files : ChannelFileList}
    (h : loadLists o env fs = .ok (some lists)) (hthere : osExists fs o.localWfut = true)
    (hlocal : getLocalList env o.localWfut fs = .ok (0, files))
    (hlog : osExists fs o.tmpWfut = false) : lists.localList = files := by
  have hlist : ∃ channel, loadList env o.localWfut o.channel fs = .ok (some (channel, files)) := by
    rw [loadList, if_pos hthere, hlocal]
    exact ⟨_, rfl⟩
  obtain ⟨channel, hlist⟩ := hlist
  have hmerge : mergeTmp env o.tmpWfut files fs = .ok (some files) := by
    rw [mergeTmp, if_neg (by simp [hlog])]
  unfold loadLists at h
  simp only [hlist, ok_bind, hmerge] at h
  obtain ⟨found, -, h⟩ := bind_eq_ok h
  cases found with
  | none => simp at h
  | some found =>
      simp only [loadServer] at h
      split at h
      · simp at h
      · obtain ⟨sent, -, h⟩ := bind_eq_ok h
        rw [Except.ok.injEq, Option.map_eq_some_iff] at h
        obtain ⟨sent', -, rfl⟩ := h
        rfl

/-- When there is nothing to download the list is saved, and that is all. -/
theorem main_of_idle {rest : List PollReport} (hlists : loadLists o env fs = .ok (some lists))
    (hnone : lists.updates o env fs = .empty) (hidle : env.polls = { running := 0 } :: rest) :
    main o env fs =
      .ok (0, finish o env (lists.localList.setName lists.server.getName) fs) := by
  have hqueued : lists.queued o env fs = World.init defaultMaxDownloads fs := by
    rw [Loaded.queued, hnone]
    rfl
  have hpoll : poll (toolEmit env .empty o.tmpWfut) { running := 0 }
      (World.init defaultMaxDownloads fs) = .ok (0, World.init defaultMaxDownloads fs) := by
    have hperform : (World.init defaultMaxDownloads fs).multiPerform { running := 0 } =
        .ok (World.init defaultMaxDownloads fs) := rfl
    have hdrain : drain (toolEmit env .empty o.tmpWfut)
        (World.init defaultMaxDownloads fs).msgs.length (World.init defaultMaxDownloads fs) =
        .ok (World.init defaultMaxDownloads fs) := rfl
    unfold poll
    simp only [hperform, hdrain, ok_bind]
    split
    · exact attachLoop_nil rfl
    · rfl
  have hloop : pollLoop (toolEmit env .empty o.tmpWfut) env.polls
      (World.init defaultMaxDownloads fs) = .ok (World.init defaultMaxDownloads fs) := by
    rw [hidle]
    simp only [pollLoop, hpoll, ok_bind]
    rfl
  unfold main
  simp only [hlists, ok_bind]
  unfold update
  simp only [hnone, hqueued, hloop, ok_bind]
  rfl

/-- Saving in full, over a file that is there. -/
theorem afterSave_of_full {n : Node} (hn : fs.node (pathPlace fs o.localWfut) = some n)
    (hres : fs.resolve (cStr o.localWfut) = some (pathPlace fs o.localWfut))
    (hsaved : SavedInFull o env l fs) :
    afterSave o env l fs =
      fs.setContent (pathPlace fs o.localWfut) (env.print (fileListDocument l)) := by
  unfold SavedInFull at hsaved
  unfold afterSave writeText
  by_cases hopen : (fopenWrite env.save.storage fs o.localWfut).isSome = true
  · rw [if_pos hopen] at hsaved
    obtain ⟨⟨m, gs⟩, hgs⟩ := Option.isSome_iff_exists.mp hopen
    have hopened := hgs
    simp only [fopenWrite, hres, hn] at hopened
    split at hopened
    · obtain ⟨rfl, rfl⟩ := Prod.mk.inj (Option.some.inj hopened)
      simp only [hgs, hsaved, FileSystem.setContent_setContent]
    · simp at hopened
  · rw [if_neg hopen] at hsaved
    rw [Option.not_isSome_iff_eq_none] at hopen
    obtain ⟨n', hn', hk'⟩ := hsaved
    rw [FileSystem.lookup, hres, Option.bind_some] at hn'
    rw [hopen, FileSystem.setContent_eq_self hn' hk']

theorem readFile_of_opens {path content : Bytes} (hheld : HoldsExactly fs path content)
    (hopens : fs.opens (cStr path) = true) : readFile fs path = some content := by
  obtain ⟨n, hn, hk⟩ := hheld
  rw [FileSystem.opens, hn, Option.any_some] at hopens
  rw [readFile, fopenRead, hn, Option.filter_some, if_pos hopens, Option.bind_some]
  simp only [hk]

/-- A run does not get past a list that it cannot open. -/
theorem readFile_of_loaded {content : Bytes} (h : loadLists o env fs = .ok (some lists))
    (hheld : HoldsExactly fs o.localWfut content) :
    readFile fs o.localWfut = some content := by
  refine readFile_of_opens hheld ?_
  by_contra hopens
  have hthere := osExists_of_holdsExactly hheld
  obtain ⟨n, hn, -⟩ := hheld
  rw [FileSystem.opens, hn, Option.any_some] at hopens
  have htext : loadText env o.localWfut fs = .ok none := by
    rw [loadText, fopenRead, hn, Option.filter_some, if_neg hopens]
  have hlist : loadList env o.localWfut o.channel fs = .ok none := by
    rw [loadList, if_pos hthere, getLocalList, htext]
    rfl
  unfold loadLists at h
  rw [hlist] at h
  cases h

theorem finish_of_unlogged (hlog : osExists fs o.tmpWfut = false) :
    finish o env l fs = afterSave o env l fs := by
  have hlog' : osExists (afterSave o env l fs) o.tmpWfut = false := by
    rw [osExists, lookup_tmp_afterSave, ← osExists, hlog]
  change (if osExists (afterSave o env l fs) o.tmpWfut then
    removeFile env.removeOk o.tmpWfut (afterSave o env l fs) else afterSave o env l fs) = _
  rw [hlog', if_neg (by simp)]

end Run

/-! ## Trees at rest -/

section Rest

variable {o : Options} {env : Environment} {fs : FileSystem} {server system l : ChannelFileList}

theorem readFile_eq_some {path content : Bytes} (h : readFile fs path = some content) :
    ∃ n, fs.resolve (cStr path) = some (pathPlace fs path) ∧
      fs.node (pathPlace fs path) = some n ∧ n.readable = true ∧ n.kind = .regular content := by
  obtain ⟨n, hn, hcontent⟩ := Option.bind_eq_some_iff.mp h
  obtain ⟨hlookup, hreadable⟩ := Option.filter_eq_some_iff.mp hn
  obtain ⟨m, hm, hnode⟩ := Option.bind_eq_some_iff.mp hlookup
  have hplace : pathPlace fs path = m := FileSystem.resolve_eq_some hm
  rw [hplace]
  refine ⟨n, hm, hnode, hreadable, ?_⟩
  cases hk : n.kind with
  | directory => simp [hk] at hcontent
  | regular content' => simpa [hk] using hcontent

/-- A saved list can be read, there is no log, and nothing is to be done. -/
structure AtRest (o : Options) (server system l : ChannelFileList) (fs : FileSystem) : Prop where
  list : readFile fs o.localWfut = some (fileListText l)
  log : osExists fs o.tmpWfut = false
  name : NameSurvives l
  named : l.name = server.name
  nothingToDo : NothingToDo server system (restored l) o.localRoot fs

/-- The run reads with TinyXML, gets the same two lists, has nothing from curl and can save these
files. -/
structure Quiet (o : Options) (server system files : ChannelFileList) (fs : FileSystem)
    (env : Environment) : Prop where
  reader : UsesTinyXml env
  lists : ∃ lists, loadLists o env fs = .ok (some lists) ∧ lists.server = server ∧
    lists.system = system
  idle : ∃ rest, env.polls = { running := 0 } :: rest
  saved : SavedInFull o env files fs

/-- The tree with the list saved again. -/
def resaved (o : Options) (server l : ChannelFileList) (fs : FileSystem) : FileSystem :=
  fs.setContent (pathPlace fs o.localWfut) (fileListText (again server l))

/-- A quiet run succeeds and saves the list again. -/
theorem AtRest.main_eq (h : AtRest o server system l fs)
    (hq : Quiet o server system (again server l) fs env) :
    main o env fs = .ok (0, resaved o server l fs) := by
  obtain ⟨lists, hlists, rfl, rfl⟩ := hq.lists
  obtain ⟨rest, hidle⟩ := hq.idle
  obtain ⟨n, hres, hnode, -, -⟩ := readFile_eq_some h.list
  have hthere := osExists_of_readFile h.list
  have hread : getLocalList env o.localWfut fs = .ok (0, restored l) := by
    rw [getLocalList, loadText_of_readFile h.list, ok_bind]
    exact parseFileList_saved hq.reader.load _ h.name
  have hlocal := loadLists_localList hlists hthere hread h.log
  have hnone : lists.updates o env fs = .empty := by
    have hoffered := h.nothingToDo.offered_eq env.got
    rw [← hlocal] at hoffered
    exact hoffered
  have hagain : (restored l).setName lists.server.getName = again lists.server l := rfl
  rw [main_of_idle hlists hnone hidle, hlocal, hagain, finish_of_unlogged h.log,
    afterSave_of_full hnode hres hq.saved, hq.reader.print]
  rfl

theorem opens_setContent (fs : FileSystem) (m : Location) (content path : Bytes) :
    (fs.setContent m content).opens path = fs.opens path := by
  have hresolve : (fs.setContent m content).resolve path = fs.resolve path :=
    FileSystem.resolve_congr (FileSystem.cwd_setContent ..)
      (fun k => FileSystem.isDir_setContent fs m k content) path
  rw [FileSystem.opens, FileSystem.opens, FileSystem.lookup, FileSystem.lookup, hresolve]
  cases fs.resolve path with
  | none => rfl
  | some k =>
      rw [Option.bind_some, Option.bind_some, FileSystem.setContent, FileSystem.node_modify]
      split
      · rename_i hk
        rw [hk]
        cases hn : fs.node m with
        | none => rfl
        | some n => cases hkind : n.kind <;> simp [hkind]
      · rfl

/-- What the run leaves is settled as well. -/
theorem AtRest.resaved (h : AtRest o server system l fs) :
    AtRest o server system (again server l) (resaved o server l fs) := by
  obtain ⟨n, hres, hnode, hreadable, hk⟩ := readFile_eq_some h.list
  have hresolve : ∀ path : Bytes,
      (LibWfut.resaved o server l fs).resolve path = fs.resolve path :=
    FileSystem.resolve_congr (FileSystem.cwd_setContent ..)
      fun k => FileSystem.isDir_setContent fs _ k _
  constructor
  case list =>
    have hset := FileSystem.node_setContent_self hnode hk (fileListText (again server l))
    rw [readFile, fopenRead, FileSystem.lookup, hresolve, hres, Option.bind_some,
      LibWfut.resaved, hset, Option.filter_some, if_pos hreadable]
    rfl
  case log =>
    have hother : (LibWfut.resaved o server l fs).lookup (cStr o.tmpWfut) =
        fs.lookup (cStr o.tmpWfut) := by
      apply FileSystem.lookup_congr (FileSystem.cwd_setContent ..)
        (fun k => FileSystem.isDir_setContent fs _ k _)
      exact FileSystem.node_setContent_of_ne fs (o.place_ne fs.cwd) _
    rw [osExists, hother, ← osExists, h.log]
  case name =>
    have hname : again server l = (again server l).setName l.name := by
      rw [h.named]
      rfl
    exact ⟨by rw [hname]; exact h.name.aligned, by rw [hname]; exact h.name.unreferenced⟩
  case named => rfl
  case nothingToDo =>
    apply h.nothingToDo.congr getFiles_restored_again
    exact fun path => opens_setContent fs _ _ path

/-- From then on a run changes nothing. -/
theorem resaved_resaved :
    resaved o server (again server l) (resaved o server l fs) = resaved o server l fs := by
  have hplace : pathPlace (resaved o server l fs) o.localWfut = pathPlace fs o.localWfut := rfl
  rw [resaved, hplace, again_again, resaved, FileSystem.setContent_setContent]

/-- Quiet runs on a tree that they do not change. -/
theorem AtRest.run_again (h : AtRest o server system l fs)
    (hsame : LibWfut.resaved o server l fs = fs)
    {envs : List Environment} {statuses : List Int32}
    (hq : Permitted (toolStep o)
      (fun s env => Quiet o server system (again server l) s.2 env) (statuses, fs) envs) :
    run (toolStep o) (statuses, fs) envs =
      .ok (statuses ++ List.replicate envs.length 0, fs) := by
  induction envs generalizing statuses with
  | nil => simp
  | cons env envs ih =>
      have hstep : toolStep o (statuses, fs) env = .ok (statuses ++ [0], fs) := by
        rw [toolStep, h.main_eq hq.1, hsame]
        rfl
      rw [run_cons_of_ok _ hstep, ih (hq.2 _ hstep)]
      simp [List.replicate_succ]

/-- Quiet runs all succeed, and only the first of them may change the tree, by saving the list
again. -/
theorem AtRest.runs_eq (h : AtRest o server system l fs) {envs : List Environment}
    (hq : Permitted (toolStep o)
      (fun s env => Quiet o server system (again server l) s.2 env) ([], fs) (env :: envs)) :
    runs o (env :: envs) fs =
      .ok (List.replicate (envs.length + 1) 0, LibWfut.resaved o server l fs) := by
  have hstep : toolStep o ([], fs) env = .ok ([0], LibWfut.resaved o server l fs) := by
    rw [toolStep, h.main_eq hq.1]
    rfl
  have hrest := hq.2 _ hstep
  rw [← again_again] at hrest
  rw [runs, run_cons_of_ok _ hstep, h.resaved.run_again resaved_resaved hrest]
  rfl

end Rest

/-! ## A run that has done everything -/

section Done

variable {o : Options} {env : Environment} {fs fs' : FileSystem} {status : Int32}
  {lists : Loaded} {w : World}

theorem tally_name (updates : ChannelFileList) (trace : List Event) :
    (lists.tally updates trace).localList.name = lists.server.name := by
  have hfold : ∀ t : Tally,
      (trace.foldl (Tally.handle updates) t).localList.name = t.localList.name := by
    induction trace with
    | nil => exact fun t => rfl
    | cons e trace ih =>
        intro t
        rw [List.foldl_cons, ih]
        cases e with
        | queued p r u f => rfl
        | failed p u f message => rfl
        | complete p u f =>
            simp only [Tally.handle]
            split
            · rfl
            · exact ChannelFileList.name_addFile ..
  exact hfold _

/-- A file that is no update keeps its entry. -/
theorem tally_other {updates : ChannelFileList} {f : Bytes} (hf : updates.getFiles[f]? = none)
    (trace : List Event) :
    (lists.tally updates trace).localList.getFiles[f]? = lists.localList.getFiles[f]? := by
  have hfold : ∀ t : Tally, (trace.foldl (Tally.handle updates) t).localList.getFiles[f]? =
      t.localList.getFiles[f]? := by
    induction trace with
    | nil => exact fun t => rfl
    | cons e trace ih =>
        intro t
        rw [List.foldl_cons, ih]
        cases e with
        | queued p r u g => rfl
        | failed p u g message => rfl
        | complete p u g =>
            simp only [Tally.handle]
            cases hg : updates.getFiles[g]? with
            | none => rfl
            | some go =>
                have hgo := updates.keyed g go hg
                have hne : f ≠ go.filename := by
                  rintro rfl
                  rw [hgo, hg] at hf
                  simp at hf
                simp only [getElem?_addFile, if_neg hne]
  exact hfold _

/-- The run has completed its updates and saved the list where it is still found, and the names in
it come back. -/
structure Done (o : Options) (env : Environment) (fs : FileSystem) (lists : Loaded) (w : World)
    (fs' : FileSystem) : Prop where
  looped : Looped o env fs lists w
  print : env.print = savedText
  completed : ∀ f : Bytes, (lists.updates o env fs).getFiles[f]? ≠ none → f ∈ completedFiles w.trace
  saved : SavedInFull o env (lists.final o env fs w) w.fs
  found : LogGoes o env w.fs → ¬ThroughLog o w.fs
  log : osExists fs' o.tmpWfut = false
  name : NameSurvives (lists.final o env fs w)
  legible : LegibleNames (lists.final o env fs w)

theorem Done.list (h : Done o env fs lists w fs') (hmain : main o env fs = .ok (status, fs')) :
    HoldsExactly fs' o.localWfut (fileListText (lists.final o env fs w)) := by
  obtain ⟨-, rfl⟩ := main_eq_ok hmain h.looped
  rw [fileListText, ← h.print]
  exact holdsExactly_finish.mpr ⟨h.saved, h.found⟩

/-- A completed update has its new entry in the list, and a file that was no update has an entry
that is new enough, or is in the system. -/
theorem Done.final_cases (h : Done o env fs lists w fs') {f : Bytes} {fo : FileObject}
    (hfo : lists.server.getFiles[f]? = some fo) (hdel : fo.deleted = false) :
    (∃ loc, (lists.final o env fs w).getFiles[f]? = some loc ∧ ¬loc.version < fo.version) ∨
      (lists.final o env fs w).getFiles[f]? = none ∧
        (lists.system.getFiles[f]?.all fun s => decide (s.version < fo.version)) = false := by
  have hoffered : (lists.updates o env fs).getFiles[f]? = (some fo).filter fun o' =>
      (reasonFor env.got lists.system lists.localList o.localRoot fs f o').adds := by
    rw [← hfo]
    exact offered_getElem? f
  cases hup : (lists.updates o env fs).getFiles[f]? with
  | some up =>
      left
      have hfinal : (lists.final o env fs w).getFiles[f]? = some up := by
        rw [Loaded.final, tally_localList _ _ _ hup, if_pos (h.completed f (by simp [hup]))]
      rw [hup] at hoffered
      obtain ⟨heq, -⟩ := Option.filter_eq_some_iff.mp hoffered.symm
      rw [← Option.some.inj heq] at hfinal
      exact ⟨fo, hfinal, Int32.lt_irrefl⟩
  | none =>
      have hfinal : (lists.final o env fs w).getFiles[f]? = lists.localList.getFiles[f]? :=
        tally_other hup w.trace
      have hfirst : (reasonFor env.got lists.system lists.localList o.localRoot fs f fo).adds =
          false := by
        rw [hup, Option.filter_some] at hoffered
        split at hoffered
        · simp at hoffered
        · rename_i hadds
          simpa using hadds
      rw [reasonFor, adds_updateReason, hdel] at hfirst
      cases hloc : lists.localList.getFiles[f]? with
      | none =>
          right
          simp only [hloc, Bool.not_false, Bool.true_and] at hfirst
          exact ⟨by rw [hfinal, hloc], hfirst⟩
      | some loc =>
          left
          simp only [hloc, Bool.not_false, Bool.true_and, Bool.or_eq_false_iff,
            decide_eq_false_iff_not] at hfirst
          exact ⟨loc, by rw [hfinal, hloc], hfirst.1⟩

/-- Then the next run has nothing to do exactly when every file of the server that is in the
list can be opened. -/
theorem Done.nothingToDo_iff (h : Done o env fs lists w fs') :
    NothingToDo lists.server lists.system (restored (lists.final o env fs w)) o.localRoot fs' ↔
      ∀ (f : Bytes) (fo : FileObject), lists.server.getFiles[f]? = some fo → fo.deleted = false →
        (lists.final o env fs w).getFiles[f]? ≠ none →
        fs'.opens (cStr (o.localRoot ++ f)) = true := by
  have hone : ∀ (got : Bytes → ℕ → ℕ) (f : Bytes) (fo : FileObject),
      lists.server.getFiles[f]? = some fo →
      ((reasonFor got lists.system (restored (lists.final o env fs w)) o.localRoot fs' f fo).adds =
        false ↔ (fo.deleted = false → (lists.final o env fs w).getFiles[f]? ≠ none →
          fs'.opens (cStr (o.localRoot ++ f)) = true)) := by
    intro got f fo hfo
    rw [reasonFor, adds_updateReason, getElem?_restored h.legible]
    cases hdel : fo.deleted with
    | true => simp
    | false =>
        rcases h.final_cases hfo hdel with ⟨loc, hloc, hnew⟩ | ⟨hnone, hsystem⟩
        · have hname : (reread loc).filename = f := by
            rw [reread, (lists.final o env fs w).keyed f loc hloc]
            exact Encoder.map_legible_eq_self_iff.mpr (h.legible f loc hloc)
          have hversion : (reread loc).version = loc.version := rfl
          simp [hloc, hname, hversion, hnew]
        · simp [hnone, hsystem]
  constructor
  · exact fun hup f fo hfo => (hone wholeBlocks f fo hfo).mp (hup wholeBlocks f fo hfo)
  · exact fun hopens got f fo hfo => (hone got f fo hfo).mpr (hopens f fo hfo)

/-- A run that has done everything is the last one with anything to do: if the files can be
opened, every later run for which the server and the system have the same lists returns 0, and
only the first of them may change the tree, by saving the list again. Otherwise the next run
has something to do. -/
theorem runs_settle (o : Options) (env : Environment) (fs fs' : FileSystem) (status : Int32)
    (lists : Loaded) (w : World) (hmain : main o env fs = .ok (status, fs'))
    (hdone : Done o env fs lists w fs') :
    (NothingToDo lists.server lists.system (restored (lists.final o env fs w)) o.localRoot fs' ↔
      ∀ (f : Bytes) (fo : FileObject), lists.server.getFiles[f]? = some fo → fo.deleted = false →
        (lists.final o env fs w).getFiles[f]? ≠ none →
        fs'.opens (cStr (o.localRoot ++ f)) = true) ∧
    (NothingToDo lists.server lists.system (restored (lists.final o env fs w)) o.localRoot fs' →
      ∀ env₁ envs, Permitted (toolStep o) (fun s env' => Quiet o lists.server lists.system
          (again lists.server (lists.final o env fs w)) s.2 env') ([], fs') (env₁ :: envs) →
        runs o (env₁ :: envs) fs' = .ok (List.replicate (envs.length + 1) 0,
          resaved o lists.server (lists.final o env fs w) fs')) := by
  refine ⟨hdone.nothingToDo_iff, fun hup env₁ envs hquiet => ?_⟩
  obtain ⟨lists', hlists, -⟩ := hquiet.1.lists
  have hrest : AtRest o lists.server lists.system (lists.final o env fs w) fs' :=
    ⟨readFile_of_loaded hlists (hdone.list hmain), hdone.log, hdone.name, tally_name _ _, hup⟩
  exact hrest.runs_eq hquiet

end Done

/-! ## One file, and then none -/

/-- Nothing comes from curl. -/
def idleEnvironment : Environment :=
  { tinyXmlEnvironment with polls := [{ running := 0 }] }

theorem eq_of_mem_channelC {f : Bytes} {fo : FileObject} (h : channelC.getFiles[f]? = some fo) :
    f = ascii "x" ∧ fo = emptyFile (ascii "x") := by
  have hname : fo.filename = f := channelC.keyed f fo h
  rw [← hname] at h
  have hmem : fo ∈ [emptyFile (ascii "x")] := mem_filesOf.mpr h
  rw [← hname, List.mem_singleton.mp hmem]
  exact ⟨rfl, rfl⟩

/-- The run on the empty tree. -/
theorem done_tinyXmlEnvironment :
    ∃ fs' w, main (underP (ascii "c")) tinyXmlEnvironment .empty = .ok (0, fs') ∧
      oneFileLoaded.final (underP (ascii "c")) tinyXmlEnvironment .empty w = channelC ∧
      Done (underP (ascii "c")) tinyXmlEnvironment .empty oneFileLoaded w fs' ∧
      fs'.opens (cStr (underP (ascii "c")).localWfut) = true ∧
      (fopenWrite idleEnvironment.save.storage fs' (underP (ascii "c")).localWfut).isSome = true ∧
      fs'.opens (cStr ((underP (ascii "c")).localRoot ++ ascii "x")) = true := by
  have hrun : ∃ fs' w,
      update (underP (ascii "c")) tinyXmlEnvironment .empty oneFileLoaded = .ok (0, fs') ∧
      pollLoop (toolEmit tinyXmlEnvironment (oneFileLoaded.updates (underP (ascii "c"))
        tinyXmlEnvironment .empty) (underP (ascii "c")).tmpWfut) tinyXmlEnvironment.polls
        (oneFileLoaded.queued (underP (ascii "c")) tinyXmlEnvironment .empty) = .ok w ∧
      completedFiles w.trace = [ascii "x"] ∧
      oneFileLoaded.final (underP (ascii "c")) tinyXmlEnvironment .empty w = channelC ∧
      (fopenWrite tinyXmlEnvironment.save.storage w.fs (underP (ascii "c")).localWfut).isSome =
        true ∧
      w.fs.cwd = [] ∧ osExists fs' (underP (ascii "c")).tmpWfut = false ∧
      fs'.opens (cStr (underP (ascii "c")).localWfut) = true ∧
      (fopenWrite idleEnvironment.save.storage fs' (underP (ascii "c")).localWfut).isSome = true ∧
      fs'.opens (cStr ((underP (ascii "c")).localRoot ++ ascii "x")) = true :=
    ⟨_, _, rfl, rfl, rfl, rfl, rfl, rfl, rfl, rfl, rfl, rfl⟩
  obtain ⟨fs', w, hupdate, hloop, htrace, hfinal, hopen, hcwd, hlog, hopens, hagain, hfile⟩ := hrun
  have hmain : main (underP (ascii "c")) tinyXmlEnvironment .empty = .ok (0, fs') := by
    unfold main
    simp only [loadLists_oneFile _, ok_bind, hupdate]
  refine ⟨fs', w, hmain, hfinal, ?_, hopens, hagain, hfile⟩
  constructor
  case looped => exact ⟨loadLists_oneFile _, hloop⟩
  case print => rfl
  case completed =>
    intro f hf
    obtain ⟨fo, hfo⟩ := Option.ne_none_iff_exists'.mp hf
    have hone : (oneFileLoaded.updates (underP (ascii "c")) tinyXmlEnvironment .empty).getFiles =
        channelC.getFiles := rfl
    rw [hone] at hfo
    rw [htrace, (eq_of_mem_channelC hfo).1]
    exact List.mem_singleton_self _
  case saved =>
    rw [SavedInFull, if_pos hopen, hfinal]
    exact kept_of_length_le (by decide +kernel) rfl
  case found =>
    intro _ hthrough
    have hreached := mem_reached_of_passes hthrough
    rw [pathPlace, hcwd] at hreached
    revert hreached
    decide
  case log => exact hlog
  case name =>
    rw [hfinal]
    exact nameSurvives_channelC
  case legible =>
    rw [hfinal]
    intro k f hf
    rw [(eq_of_mem_channelC hf).1]
    decide +kernel

theorem runs_settle_tinyXml :
    ∃ fs', main (underP (ascii "c")) tinyXmlEnvironment .empty = .ok (0, fs') ∧
      runs (underP (ascii "c")) [idleEnvironment] fs' =
        .ok ([0], resaved (underP (ascii "c")) channelC channelC fs') := by
  obtain ⟨fs', w, hmain, hfinal, hdone, hopens, hagain, hfile⟩ := done_tinyXmlEnvironment
  have hsettle := runs_settle (underP (ascii "c")) tinyXmlEnvironment .empty fs' 0 oneFileLoaded w
    hmain hdone
  refine ⟨fs', hmain, ?_⟩
  have hlist := readFile_of_opens (hdone.list hmain) hopens
  rw [hfinal] at hsettle hlist
  have hserver : again oneFileLoaded.server channelC = channelC := by
    rw [again, restored_channelC]
    rfl
  have hup := hsettle.1.mpr fun f fo hfo _ _ => by
    rw [(eq_of_mem_channelC hfo).1]
    exact hfile
  have hlocal : loadList tinyXmlEnvironment (underP (ascii "c")).localWfut (ascii "c") fs' =
      .ok (some (ascii "c", channelC)) := by
    have hread : getLocalList tinyXmlEnvironment (underP (ascii "c")).localWfut fs' =
        .ok (0, channelC) := by
      rw [getLocalList, loadText_of_readFile hlist, ok_bind,
        parseFileList_saved usesTinyXml_tinyXmlEnvironment.load _ nameSurvives_channelC,
        restored_channelC]
    rw [loadList, if_pos (osExists_of_readFile hlist), hread]
    rfl
  have hquiet : Quiet (underP (ascii "c")) oneFileLoaded.server oneFileLoaded.system
      (again oneFileLoaded.server channelC) fs' idleEnvironment := by
    constructor
    case reader => exact ⟨readsAs_toOption loadFile, readsAs_toOption TinyXml.parse, rfl⟩
    case lists =>
      have hload := @loadLists_channelC idleEnvironment fs' channelC
        (readsAs_toOption TinyXml.parse) rfl rfl hlocal hdone.log
      exact ⟨_, hload, rfl, rfl⟩
    case idle => exact ⟨[], rfl⟩
    case saved =>
      rw [SavedInFull, if_pos hagain, hserver]
      exact kept_of_length_le (by decide +kernel) rfl
  have hruns := hsettle.2 hup idleEnvironment [] ⟨hquiet, fun _ _ => trivial⟩
  exact hruns

end LibWfut
