import LibWfut.Verification.Tool.Offers
import LibWfut.Verification.Download.Complete

/-! # Saving and cleaning up

At the end of a run `main` saves the local list and removes the log, whether or not the
list could be saved. -/

namespace LibWfut

open FileTree Machine

/-! ## Two files -/

/-- The last component of both paths of `main` is a proper name. -/
theorem place_ends {p name : Bytes} (hzero : 0 ∉ p ++ ascii "/" ++ name)
    (hname : separator ∉ name) (hproper : name ≠ [] ∧ name ≠ dot ∧ name ≠ dotdot)
    (cwd : Location) : ∃ l, place cwd (cStr (p ++ ascii "/" ++ name)) = l ++ [name] := by
  rw [cStr_eq_self_iff.mpr hzero, List.append_assoc]
  exact place_child hname hproper cwd p

theorem Options.place_localWfut (o : Options) (cwd : Location) :
    ∃ l, place cwd (cStr o.localWfut) = l ++ [channelFile] := by
  apply place_ends
  · have hslash : 0 ∉ ascii "/" := by decide
    have hfile : 0 ∉ channelFile := by decide
    simp [o.terminated, hslash, hfile]
  · decide
  · decide

theorem Options.place_tmpWfut (o : Options) (cwd : Location) :
    ∃ l, place cwd (cStr o.tmpWfut) = l ++ [tmpFile] := by
  apply place_ends
  · have hslash : 0 ∉ ascii "/" := by decide
    have hfile : 0 ∉ tmpFile := by decide
    simp [o.terminated, hslash, hfile]
  · decide
  · decide

/-- The list and the log are two files. -/
theorem Options.place_ne (o : Options) (cwd : Location) :
    place cwd (cStr o.tmpWfut) ≠ place cwd (cStr o.localWfut) := by
  obtain ⟨l, hl⟩ := o.place_localWfut cwd
  obtain ⟨l', hl'⟩ := o.place_tmpWfut cwd
  rw [hl, hl']
  intro heq
  have hlast := (List.append_inj' heq rfl).2
  revert hlast
  decide

/-! ## Writing and removing -/

section Files

variable {g : TextWrite} {text path other content : Bytes} {fs : FileSystem}

/-- Writing a text fails without a trace or stores what is kept of it. -/
theorem writeText_cases (g : TextWrite) (text path : Bytes) (fs : FileSystem) :
    (fopenWrite g.storage fs path = none ∧ writeText g text path fs = fs) ∨
      ∃ l, fs.resolve (cStr path) = some l ∧ (fopenWrite g.storage fs path).isSome = true ∧
        Stored g.storage fs l (g.kept text) (writeText g text path fs) := by
  unfold writeText
  cases hopen : fopenWrite g.storage fs path with
  | none => exact .inl ⟨rfl, rfl⟩
  | some opened =>
      obtain ⟨hl, hstored⟩ := fopenWrite_eq_some hopen
      exact .inr ⟨opened.1, hl, rfl, hstored.setContent _⟩

@[simp] theorem writeText_cwd (g : TextWrite) (text path : Bytes) (fs : FileSystem) :
    (writeText g text path fs).cwd = fs.cwd := by
  rcases writeText_cases g text path fs with ⟨-, heq⟩ | ⟨l, -, -, hstored⟩
  · rw [heq]
  · exact hstored.grows.cwd

/-- The file holds what is kept of the text, or what it held before. -/
theorem holdsExactly_writeText :
    HoldsExactly (writeText g text path fs) path content ↔
      if (fopenWrite g.storage fs path).isSome then g.kept text = content
      else HoldsExactly fs path content := by
  rcases writeText_cases g text path fs with ⟨hopen, heq⟩ | ⟨l, hl, hopen, hstored⟩
  · simp [hopen, heq]
  · obtain ⟨n, hn, hk, -⟩ := hstored.node
    rw [if_pos hopen, HoldsExactly, hstored.lookup hl, hn]
    simp [hk]

/-- No other file is changed. -/
theorem lookup_writeText
    (h : place fs.cwd (cStr other) ≠ place fs.cwd (cStr path)) :
    (writeText g text path fs).lookup (cStr other) = fs.lookup (cStr other) := by
  rcases writeText_cases g text path fs with ⟨-, heq⟩ | ⟨l, hl, -, hstored⟩
  · rw [heq]
  · apply FileSystem.lookup_congr hstored.grows.cwd hstored.isDir
    apply hstored.others
    rwa [← FileSystem.resolve_eq_some hl]

theorem not_holdsExactly (h : osExists fs path = false) : ¬HoldsExactly fs path content := by
  rintro ⟨n, hn, -⟩
  simp [osExists, hn] at h

/-- Can what stands at the path be removed? -/
def Removable (removeOk : Bool) (path : Bytes) (fs : FileSystem) : Prop :=
  removeOk = true ∧ osExists fs path = true ∧ fs.removable (pathPlace fs path) = true

/-- A file is removed, or nothing happens. -/
theorem removeFile_cases (removeOk : Bool) (path : Bytes) (fs : FileSystem) :
    (Removable removeOk path fs ∧
      removeFile removeOk path fs = fs.remove (pathPlace fs path)) ∨
      (¬Removable removeOk path fs ∧ removeFile removeOk path fs = fs) := by
  unfold removeFile
  by_cases hr : Removable removeOk path fs
  · have hok := hr.1
    have hexists := hr.2.1
    cases hl : fs.resolve (cStr path) with
    | none => simp [osExists, FileSystem.lookup, hl] at hexists
    | some l =>
        have hplace : pathPlace fs path = l := FileSystem.resolve_eq_some hl
        refine .inl ⟨hr, ?_⟩
        simp only [hok, ite_true, hplace]
  · refine .inr ⟨hr, ?_⟩
    split
    · rfl
    · rename_i l hl
      split
      · rename_i hok
        apply FileSystem.remove_of_not_removable
        intro hrem
        have hplace : pathPlace fs path = l := FileSystem.resolve_eq_some hl
        refine hr ⟨hok, ?_, hplace ▸ hrem⟩
        obtain ⟨n, hn, -⟩ := FileSystem.removable_iff.mp hrem
        rw [osExists, FileSystem.lookup, hl, Option.bind_some, hn]
        rfl
      · rfl

/-- A new file keeps the directory that it stands in, and no other. -/
theorem Stored.removable_iff {env : Storage} {fs' : FileSystem} {l m : Location}
    (h : Stored env fs l content fs') (hl : l ≠ []) (hm : m ≠ l) :
    fs'.removable m = true ↔ fs.removable m = true ∧ l.dropLast ≠ m := by
  obtain ⟨k, hk, -⟩ := h.node
  have hnode : fs'.node m = fs.node m := h.others m hm
  have hcwd := h.grows.cwd
  constructor
  · intro hr
    have hother : ∀ c, m ++ [c] ≠ l := by
      rintro c rfl
      rw [FileSystem.below_removable hr c] at hk
      simp at hk
    have hparent : l.dropLast ≠ m := fun heq =>
      hother _ ((FileSystem.concat_eq_iff hl _).mpr ⟨heq.symm, rfl⟩)
    obtain ⟨n, hn, hn'⟩ := FileSystem.removable_iff.mp hr
    refine ⟨FileSystem.removable_iff.mpr ⟨n, hnode ▸ hn, ?_⟩, hparent⟩
    rw [hcwd] at hn'
    exact hn'.imp_right fun hempty => ⟨fun c => by rw [← h.others _ (hother c), hempty.1], hempty.2⟩
  · rintro ⟨hr, hparent⟩
    have hother : ∀ c, m ++ [c] ≠ l := fun c heq =>
      hparent ((FileSystem.concat_eq_iff hl c).mp heq).1.symm
    obtain ⟨n, hn, hn'⟩ := FileSystem.removable_iff.mp hr
    refine FileSystem.removable_iff.mpr ⟨n, hnode.trans hn, ?_⟩
    rw [hcwd]
    exact hn'.imp_right fun hempty => ⟨fun c => by rw [h.others _ (hother c), hempty.1], hempty.2⟩

end Files

/-! ## What is remembered of a completed file -/

/-- The record of the file stands in the log. -/
def InLog (fs : FileSystem) (path : Bytes) (fo : FileObject) : Prop :=
  ∃ content, HoldsExactly fs path content ∧ logRecord fo <:+: content

/-- The file holds the complete document of a list with this entry. -/
def InSavedList (print : Document → Bytes) (fs : FileSystem) (path : Bytes) (fo : FileObject) :
    Prop :=
  ∃ l : ChannelFileList, l.getFiles[fo.filename]? = some fo ∧
    HoldsExactly fs path (print (fileListDocument l))

/-- Nothing is forgotten from the end of the poll loop, in the state `w`, to the end of `main`,
which leaves the files `fs'`. -/
structure Remembered (o : Options) (env : Environment) (fs : FileSystem) (lists : Loaded)
    (w : World) (fs' : FileSystem) : Prop where
  /-- If `tempwfut.xml` is removed, `wfut.xml` holds the complete local list. -/
  saved : osExists w.fs o.tmpWfut = true → osExists fs' o.tmpWfut = false →
    HoldsExactly fs' o.localWfut (env.print (fileListDocument (lists.final o env fs w)))
  /-- Every completed file is recorded in one of the two, with its new entry. -/
  recorded : ∀ f ∈ completedFiles w.trace, ∀ fo, (lists.updates o env fs).getFiles[f]? = some fo →
    InSavedList env.print fs' o.localWfut fo ∨ InLog fs' o.tmpWfut fo

/-- The document of the local list is written in full, or stands there already if `wfut.xml`
cannot be opened. -/
def SavedInFull (o : Options) (env : Environment) (localList : ChannelFileList)
    (fs : FileSystem) : Prop :=
  if (fopenWrite env.save.storage fs o.localWfut).isSome then
    env.save.kept (env.print (fileListDocument localList)) =
      env.print (fileListDocument localList)
  else HoldsExactly fs o.localWfut (env.print (fileListDocument localList))

/-- Another list with this entry is what the failed save leaves. -/
def StillListed (o : Options) (env : Environment) (localList : ChannelFileList)
    (fs : FileSystem) (fo : FileObject) : Prop :=
  if (fopenWrite env.save.storage fs o.localWfut).isSome then
    ∃ l : ChannelFileList, l.getFiles[fo.filename]? = some fo ∧
      env.save.kept (env.print (fileListDocument localList)) = env.print (fileListDocument l)
  else InSavedList env.print fs o.localWfut fo

section Finish

variable {o : Options} {env : Environment} {localList : ChannelFileList} {fs : FileSystem}

/-- The files after the save. -/
def afterSave (o : Options) (env : Environment) (localList : ChannelFileList)
    (fs : FileSystem) : FileSystem :=
  writeText env.save (env.print (fileListDocument localList)) o.localWfut fs

theorem holdsExactly_afterSave {content : Bytes} :
    HoldsExactly (afterSave o env localList fs) o.localWfut content ↔
      if (fopenWrite env.save.storage fs o.localWfut).isSome then
        env.save.kept (env.print (fileListDocument localList)) = content
      else HoldsExactly fs o.localWfut content :=
  holdsExactly_writeText

theorem lookup_tmp_afterSave :
    (afterSave o env localList fs).lookup (cStr o.tmpWfut) = fs.lookup (cStr o.tmpWfut) :=
  lookup_writeText (o.place_ne fs.cwd)

theorem inSavedList_afterSave {fo : FileObject} :
    InSavedList env.print (afterSave o env localList fs) o.localWfut fo ↔
      StillListed o env localList fs fo := by
  unfold InSavedList StillListed
  simp only [holdsExactly_afterSave]
  split
  · rfl
  · rfl

theorem inLog_congr {fs' : FileSystem} {path : Bytes} {fo : FileObject}
    (h : fs'.lookup (cStr path) = fs.lookup (cStr path)) :
    InLog fs' path fo ↔ InLog fs path fo := by
  simp only [InLog, HoldsExactly, h]

/-- `wfut.xml` is saved into a directory that stands at the path of the log. -/
def SavedInside (o : Options) (env : Environment) (fs : FileSystem) : Prop :=
  (fopenWrite env.save.storage fs o.localWfut).isSome = true ∧
    (pathPlace fs o.localWfut).dropLast = pathPlace fs o.tmpWfut

/-- The log is removed behind the save. -/
def LogGoes (o : Options) (env : Environment) (fs : FileSystem) : Prop :=
  Removable env.removeOk o.tmpWfut fs ∧ ¬SavedInside o env fs

/-- The path of `wfut.xml` leads through the place of the log, as with the channel
`tempwfut.xml/../c`. -/
def ThroughLog (o : Options) (fs : FileSystem) : Prop :=
  Passes fs.cwd (cStr o.localWfut) (pathPlace fs o.tmpWfut)

theorem afterSave_cwd : (afterSave o env localList fs).cwd = fs.cwd :=
  writeText_cwd ..

theorem removable_afterSave :
    Removable env.removeOk o.tmpWfut (afterSave o env localList fs) ↔ LogGoes o env fs := by
  have hexists : osExists (afterSave o env localList fs) o.tmpWfut = osExists fs o.tmpWfut := by
    rw [osExists, lookup_tmp_afterSave, ← osExists]
  have hplace : pathPlace (afterSave o env localList fs) o.tmpWfut = pathPlace fs o.tmpWfut :=
    congrArg (fun cwd => place cwd (cStr o.tmpWfut)) afterSave_cwd
  rw [LogGoes, Removable, Removable, hexists, hplace]
  rcases writeText_cases env.save (env.print (fileListDocument localList)) o.localWfut fs with
    ⟨hopen, heq⟩ | ⟨l, hl, hopen, hstored⟩
  · rw [afterSave, heq]
    simp [SavedInside, hopen]
  · have hlist : pathPlace fs o.localWfut = l := FileSystem.resolve_eq_some hl
    have hne : l ≠ [] := by
      obtain ⟨m, hm⟩ := o.place_localWfut fs.cwd
      rw [← hlist, pathPlace, hm]
      simp
    rw [afterSave, hstored.removable_iff hne (hlist ▸ o.place_ne fs.cwd), SavedInside, hlist]
    simp only [hopen, true_and, ne_eq]
    tauto

/-- The log goes when it can be removed, whatever the save did. -/
theorem finish_cases (o : Options) (env : Environment) (localList : ChannelFileList)
    (fs : FileSystem) :
    (LogGoes o env fs ∧
      (afterSave o env localList fs).removable (pathPlace fs o.tmpWfut) = true ∧
      finish o env localList fs =
        (afterSave o env localList fs).remove (pathPlace fs o.tmpWfut)) ∨
      (¬LogGoes o env fs ∧ finish o env localList fs = afterSave o env localList fs) := by
  have hfinish : finish o env localList fs =
      if osExists (afterSave o env localList fs) o.tmpWfut then
        removeFile env.removeOk o.tmpWfut (afterSave o env localList fs)
      else afterSave o env localList fs := rfl
  have hplace : pathPlace (afterSave o env localList fs) o.tmpWfut = pathPlace fs o.tmpWfut :=
    congrArg (fun cwd => place cwd (cStr o.tmpWfut)) afterSave_cwd
  rw [hfinish]
  rcases removeFile_cases env.removeOk o.tmpWfut (afterSave o env localList fs) with
    ⟨hr, heq⟩ | ⟨hr, heq⟩
  · rw [if_pos hr.2.1, heq, hplace]
    exact .inl ⟨removable_afterSave.mp hr, hplace ▸ hr.2.2, rfl⟩
  · refine .inr ⟨fun h => hr (removable_afterSave.mpr h), ?_⟩
    rw [heq, ite_self]

/-- Removing the log takes away the list only if its path leads through the log. -/
theorem lookup_removed (hthrough : ¬ThroughLog o fs) :
    ((afterSave o env localList fs).remove (pathPlace fs o.tmpWfut)).lookup (cStr o.localWfut) =
      (afterSave o env localList fs).lookup (cStr o.localWfut) := by
  have hcwd := @afterSave_cwd o env localList fs
  apply FileSystem.lookup_remove_of_not
  · rw [hcwd]
    exact (o.place_ne _).symm
  · rwa [hcwd]

theorem holdsExactly_removed {content : Bytes}
    (hrem : (afterSave o env localList fs).removable (pathPlace fs o.tmpWfut) = true) :
    HoldsExactly ((afterSave o env localList fs).remove (pathPlace fs o.tmpWfut)) o.localWfut
        content ↔
      HoldsExactly (afterSave o env localList fs) o.localWfut content ∧ ¬ThroughLog o fs := by
  by_cases hthrough : ThroughLog o fs
  · have hcwd := @afterSave_cwd o env localList fs
    rw [HoldsExactly, FileSystem.lookup_remove_eq_none hrem (.inr (by rwa [hcwd]))]
    simp [hthrough]
  · rw [HoldsExactly, lookup_removed hthrough, ← HoldsExactly]
    simp [hthrough]

/-- Otherwise the end of the run leaves the list as the save did. -/
theorem lookup_finish_of_not_throughLog (hthrough : ¬ThroughLog o fs) :
    (finish o env localList fs).lookup (cStr o.localWfut) =
      (afterSave o env localList fs).lookup (cStr o.localWfut) := by
  rcases finish_cases o env localList fs with ⟨-, -, heq⟩ | ⟨-, heq⟩
  · rw [heq, lookup_removed hthrough]
  · rw [heq]

/-- When the run is over the list is there and found. -/
theorem holdsExactly_finish :
    HoldsExactly (finish o env localList fs) o.localWfut
        (env.print (fileListDocument localList)) ↔
      SavedInFull o env localList fs ∧ (LogGoes o env fs → ¬ThroughLog o fs) := by
  rw [SavedInFull, ← holdsExactly_afterSave]
  rcases finish_cases o env localList fs with ⟨hr, hrem, heq⟩ | ⟨hr, heq⟩
  · rw [heq, holdsExactly_removed hrem]
    simp [hr]
  · rw [heq]
    simp [hr]

end Finish

section Run

variable {o : Options} {env : Environment} {fs fs' : FileSystem} {status : Int32}
  {lists : Loaded} {w : World}

/-- Every completed file has its new entry in the list that is saved. -/
theorem final_of_completed {f : Bytes} {fo : FileObject} (hf : f ∈ completedFiles w.trace)
    (hfo : (lists.updates o env fs).getFiles[f]? = some fo) :
    (lists.final o env fs w).getFiles[fo.filename]? = some fo := by
  rw [(lists.updates o env fs).keyed f fo hfo, Loaded.final, tally_localList lists _ w.trace hfo,
    if_pos hf]

/-- Where the log goes, only the complete list helps. -/
theorem remembered_iff_of_logGoes (hgoes : LogGoes o env w.fs) :
    Remembered o env fs lists w (finish o env (lists.final o env fs w) w.fs) ↔
      HoldsExactly (finish o env (lists.final o env fs w) w.fs) o.localWfut
        (env.print (fileListDocument (lists.final o env fs w))) := by
  have hgone : osExists (finish o env (lists.final o env fs w) w.fs) o.tmpWfut = false := by
    rcases finish_cases o env (lists.final o env fs w) w.fs with ⟨-, hrem, heq⟩ | ⟨hr, -⟩
    · have hplace : place (afterSave o env (lists.final o env fs w) w.fs).cwd (cStr o.tmpWfut) =
          pathPlace w.fs o.tmpWfut := by
        rw [afterSave_cwd]
        rfl
      rw [heq, osExists, FileSystem.lookup_remove_eq_none hrem (.inl hplace)]
      rfl
    · exact absurd hgoes hr
  constructor
  · exact fun h => h.saved hgoes.1.2.1 hgone
  · intro hsaved
    refine ⟨fun _ _ => hsaved, ?_⟩
    intro f hf fo hfo
    exact .inl ⟨_, final_of_completed hf hfo, hsaved⟩

/-- Where it stays, every completed file may be recorded in either place. -/
theorem remembered_iff_of_logStays :
    Remembered o env fs lists w (afterSave o env (lists.final o env fs w) w.fs) ↔
      ∀ f ∈ completedFiles w.trace, ∀ fo, (lists.updates o env fs).getFiles[f]? = some fo →
        StillListed o env (lists.final o env fs w) w.fs fo ∨ InLog w.fs o.tmpWfut fo := by
  have hiff : ∀ fo, InSavedList env.print (afterSave o env (lists.final o env fs w) w.fs)
        o.localWfut fo ∨ InLog (afterSave o env (lists.final o env fs w) w.fs) o.tmpWfut fo ↔
      StillListed o env (lists.final o env fs w) w.fs fo ∨ InLog w.fs o.tmpWfut fo :=
    fun fo => or_congr inSavedList_afterSave (inLog_congr lookup_tmp_afterSave)
  constructor
  · exact fun h f hf fo hfo => (hiff fo).mp (h.recorded f hf fo hfo)
  · intro hall
    constructor
    case saved =>
      intro hthere hgone
      rw [osExists, lookup_tmp_afterSave, ← osExists, hthere] at hgone
      simp at hgone
    case recorded => exact fun f hf fo hfo => (hiff fo).mpr (hall f hf fo hfo)

end Run

/-- In every run of `main` that gets behind its poll loop, nothing is forgotten exactly when the
save is complete, and not cut off from its path, or the log stays and every completed file is in
it or still listed in what the save leaves. -/
theorem downloads_remembered (o : Options) (env : Environment) (fs fs' : FileSystem)
    (status : Int32) (lists : Loaded) (w : World) (hmain : main o env fs = .ok (status, fs'))
    (hlooped : Looped o env fs lists w) :
    Remembered o env fs lists w fs' ↔
      (SavedInFull o env (lists.final o env fs w) w.fs ∧
          (LogGoes o env w.fs → ¬ThroughLog o w.fs)) ∨
        ¬LogGoes o env w.fs ∧
          ∀ f ∈ completedFiles w.trace, ∀ fo, (lists.updates o env fs).getFiles[f]? = some fo →
            StillListed o env (lists.final o env fs w) w.fs fo ∨ InLog w.fs o.tmpWfut fo := by
  obtain ⟨-, rfl⟩ := main_eq_ok hmain hlooped
  rcases finish_cases o env (lists.final o env fs w) w.fs with ⟨hr, -⟩ | ⟨hr, heq⟩
  · rw [remembered_iff_of_logGoes hr, holdsExactly_finish]
    simp [hr]
  · rw [heq, remembered_iff_of_logStays]
    constructor
    · exact fun hall => .inr ⟨hr, hall⟩
    · rintro (⟨hsaved, -⟩ | ⟨-, hall⟩)
      · intro f hf fo hfo
        exact .inl (inSavedList_afterSave.mp
          ⟨_, final_of_completed hf hfo, holdsExactly_afterSave.mpr hsaved⟩)
      · exact hall

/-! ## One file -/

theorem downloads_remembered_saved :
    ∃ fs' lists w,
      main (underP (ascii "c")) (oneFileEnvironment { put := 1000 }) .empty = .ok (0, fs') ∧
      Looped (underP (ascii "c")) (oneFileEnvironment { put := 1000 }) .empty lists w ∧
      completedFiles w.trace = [ascii "x"] ∧
      (Remembered (underP (ascii "c")) (oneFileEnvironment { put := 1000 }) .empty lists w fs' ↔
        (SavedInFull (underP (ascii "c")) (oneFileEnvironment { put := 1000 })
            (lists.final (underP (ascii "c")) (oneFileEnvironment { put := 1000 }) .empty w) w.fs ∧
            (LogGoes (underP (ascii "c")) (oneFileEnvironment { put := 1000 }) w.fs →
              ¬ThroughLog (underP (ascii "c")) w.fs)) ∨
          ¬LogGoes (underP (ascii "c")) (oneFileEnvironment { put := 1000 }) w.fs ∧
            ∀ f ∈ completedFiles w.trace, ∀ fo, (lists.updates (underP (ascii "c"))
                (oneFileEnvironment { put := 1000 }) .empty).getFiles[f]? = some fo →
              StillListed (underP (ascii "c")) (oneFileEnvironment { put := 1000 })
                  (lists.final (underP (ascii "c")) (oneFileEnvironment { put := 1000 }) .empty w)
                  w.fs fo ∨
                InLog w.fs (underP (ascii "c")).tmpWfut fo) := by
  have hload := loadLists_oneFile { put := 1000 }
  refine ⟨_, _, _, (main_of_loaded hload).trans rfl, ⟨hload, rfl⟩, rfl, ?_⟩
  exact downloads_remembered _ (oneFileEnvironment { put := 1000 }) .empty _ 0 _ _
    ((main_of_loaded hload).trans rfl) ⟨hload, rfl⟩

/-- When `wfut.xml` cannot be opened, the log is removed all the same, and `main` returns 0. -/
theorem downloads_remembered_forgotten :
    ∃ fs' lists w,
      main (underP (ascii "c")) (oneFileEnvironment { openOk := false, put := 0 }) .empty =
        .ok (0, fs') ∧
      Looped (underP (ascii "c")) (oneFileEnvironment { openOk := false, put := 0 }) .empty lists
        w ∧
      completedFiles w.trace = [ascii "x"] ∧
      osExists w.fs (underP (ascii "c")).tmpWfut = true ∧
      osExists fs' (underP (ascii "c")).tmpWfut = false ∧
      osExists fs' (underP (ascii "c")).localWfut = false ∧
      ¬Remembered (underP (ascii "c")) (oneFileEnvironment { openOk := false, put := 0 }) .empty
        lists w fs' := by
  have hload := loadLists_oneFile { openOk := false, put := 0 }
  refine ⟨_, _, _, (main_of_loaded hload).trans rfl, ⟨hload, rfl⟩, rfl, by decide, by decide,
    by decide, ?_⟩
  exact fun h => not_holdsExactly (by decide) (h.saved (by decide) (by decide))

end LibWfut
