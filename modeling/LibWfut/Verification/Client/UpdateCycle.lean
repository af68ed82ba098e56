import LibWfut.Model.Tool
import LibWfut.Verification.Client.Updates
import LibWfut.Verification.Download.Handling

/-! # The update cycle

Decide what to download, download it with any subset failing, and decide again. -/

namespace LibWfut

open FileTree Encoder Machine

/-- The lists, the prefixes and the state that an update cycle starts from. -/
structure UpdateCycle where
  server : ChannelFileList
  system : ChannelFileList
  localList : ChannelFileList
  urlPrefix : Bytes
  pathPrefix : Bytes
  world : World

namespace UpdateCycle

variable (c : UpdateCycle) (got : Bytes → ℕ → ℕ)

/-- The first list of updates. -/
def first : ChannelFileList :=
  offered got c.server c.system c.localList c.pathPrefix c.world.fs

/-- The state after its files were queued. -/
def queued : World :=
  updateChannel (c.first got) c.urlPrefix c.pathPrefix c.world

/-- The list of updates for another local list and other files. -/
def second (localList : ChannelFileList) (fs : FileSystem) : ChannelFileList :=
  offered got c.server c.system localList c.pathPrefix fs

/-- The cycle starts with an empty queue, the prefix ends with a separator, and the files
and their URLs are told apart. -/
structure Valid : Prop where
  reached : ∃ n fs ops, Permitted step Op.Allowed (World.init n fs) ops ∧
    run step (World.init n fs) ops = .ok c.world
  empty : c.world.files = ∅
  separated : c.pathPrefix.getLast? = some separator
  places : Set.InjOn (fun f => pathPlace c.world.fs (c.pathPrefix ++ f))
    {f | (c.first got).getFiles[f]? ≠ none}
  urls : Set.InjOn (fun f => encodeURL (fileUrl (c.first got) c.urlPrefix f))
    {f | (c.first got).getFiles[f]? ≠ none}

/-- The second list has exactly the files of the first without a signal of success. -/
def Converges (updates updates' : ChannelFileList) (completed : List Bytes) : Prop :=
  ∀ f : Bytes, updates'.getFiles[f]? = if f ∈ completed then none else updates.getFiles[f]?

/-- What the messages of the polls have to respect: what is stored can be read, and the
directories that are made do not lead to something readable at the path of a missing file
that is not completed. -/
structure Respected (hs : List Handling) : Prop where
  readable : ∀ h ∈ hs, h.error = none → h.readable = true
  missing : ∀ (f : Bytes) (o : FileObject), c.server.getFiles[f]? = some o →
    reasonFor got c.system c.localList c.pathPrefix c.world.fs f o = .missing →
    f ∉ hs.filterMap Handling.completed →
    ¬c.world.fs.OpensWith (hs.flatMap Handling.made) (cStr (c.pathPrefix ++ f))

end UpdateCycle

/-! ## The two paths of a file -/

/-- `poll` and `calculateUpdates` put the path of a file together differently. -/
theorem cStr_target {pathPrefix : Bytes} (h : pathPrefix.getLast? = some separator)
    (f : Bytes) : ∃ p q, cStr (pathPrefix ++ f) = p ++ separator :: q ∧
      cStr (pathPrefix ++ ascii "/" ++ f) = p ++ separator :: separator :: q ∨
      cStr (pathPrefix ++ ascii "/" ++ f) = cStr (pathPrefix ++ f) := by
  obtain ⟨p, rfl⟩ := List.getLast?_eq_some_iff.mp h
  have hslash : ascii "/" = [separator] := rfl
  by_cases hzero : 0 ∈ p ++ [separator]
  · refine ⟨[], [], .inr ?_⟩
    rw [List.append_assoc _ (ascii "/"), cStr_append_of_mem hzero, cStr_append_of_mem hzero]
  · refine ⟨p, cStr f, .inl ⟨?_, ?_⟩⟩
    · rw [cStr_append_of_not_mem hzero, List.append_assoc, List.singleton_append]
    · have hzero' : 0 ∉ p ++ [separator] ++ ascii "/" := by
        rw [hslash, List.mem_append, not_or]
        exact ⟨hzero, by decide⟩
      rw [cStr_append_of_not_mem hzero', hslash]
      simp

theorem resolve_target {pathPrefix : Bytes} (h : pathPrefix.getLast? = some separator)
    (fs : FileSystem) (f : Bytes) :
    fs.resolve (cStr (pathPrefix ++ ascii "/" ++ f)) = fs.resolve (cStr (pathPrefix ++ f)) := by
  obtain ⟨p, q, ⟨hp, hq⟩ | heq⟩ := cStr_target h f
  · rw [hp, hq, FileSystem.resolve_separator_separator]
  · rw [heq]

theorem pathPlace_target {pathPrefix : Bytes} (h : pathPrefix.getLast? = some separator)
    (fs : FileSystem) (f : Bytes) :
    pathPlace fs (pathPrefix ++ ascii "/" ++ f) = pathPlace fs (pathPrefix ++ f) := by
  obtain ⟨p, q, ⟨hp, hq⟩ | heq⟩ := cStr_target h f
  · rw [pathPlace, pathPlace, hp, hq, place_separator_separator]
  · rw [pathPlace, pathPlace, heq]

/-! ## The local list -/

theorem foldlM_onDownloadComplete {updates : ChannelFileList} {completed : List Bytes}
    (h : ∀ f ∈ completed, updates.getFiles[f]? ≠ none) (s : ChannelFileList × Option Bytes) :
    ∃ s', completed.foldlM (onDownloadComplete updates) s = some s' ∧
      ∀ f : Bytes, s'.1.getFiles[f]? =
        if f ∈ completed then updates.getFiles[f]? else s.1.getFiles[f]? := by
  induction completed generalizing s with
  | nil => exact ⟨s, rfl, fun f => by simp⟩
  | cons g completed ih =>
      obtain ⟨o, ho⟩ := Option.ne_none_iff_exists'.mp (h g (List.mem_cons_self ..))
      have hname : o.filename = g := updates.keyed g o ho
      obtain ⟨s', hs', hmap⟩ := ih (fun f hf => h f (List.mem_cons_of_mem _ hf))
        (s.1.addFile o, some (recordUpdate o s.2))
      refine ⟨s', ?_, ?_⟩
      · simp only [List.foldlM_cons, onDownloadComplete, ho]
        exact hs'
      · intro f
        rw [hmap]
        by_cases hf : f ∈ completed
        · simp [hf]
        · by_cases hfg : f = g
          · subst hfg
            simpa [hf, ChannelFileList.getFiles, hname] using ho.symm
          · have hcmp : compare o.filename f ≠ .eq :=
              fun heq => hfg ((Std.LawfulEqCmp.eq_of_compare heq).symm.trans hname)
            simp [hf, hfg, ChannelFileList.getFiles, Std.ExtTreeMap.getElem?_insert, hcmp]

/-! ## One file in the two lists -/

section Compare

variable {c : UpdateCycle} {got got' : Bytes → ℕ → ℕ} {localList : ChannelFileList}
  {completed : List Bytes} {fs : FileSystem}

/-- What the signals of success made of the local list. -/
def UpdateCycle.Merged (c : UpdateCycle) (got : Bytes → ℕ → ℕ) (completed : List Bytes)
    (localList : ChannelFileList) : Prop :=
  ∀ f : Bytes, localList.getFiles[f]? =
    if f ∈ completed then (c.first got).getFiles[f]? else c.localList.getFiles[f]?

/-- A completed file is not offered again exactly when it can be opened. -/
theorem UpdateCycle.second_completed (hmerged : c.Merged got completed localList) {f : Bytes}
    (hlisted : (c.first got).getFiles[f]? ≠ none) (hf : f ∈ completed) :
    (c.second got' localList fs).getFiles[f]? = none ↔
      fs.opens (cStr (c.pathPrefix ++ f)) = true := by
  obtain ⟨o, ho⟩ := Option.ne_none_iff_exists'.mp hlisted
  have hlocal := hmerged f
  rw [if_pos hf, ho] at hlocal
  have hname : o.filename = f := (c.first got).keyed f o ho
  rw [first, ChannelFileList.getFiles, offered_getElem?, Option.filter_eq_some_iff] at ho
  obtain ⟨hserver, hadds⟩ := ho
  rw [reasonFor, adds_updateReason, Bool.and_eq_true, Bool.not_eq_true'] at hadds
  rw [second, ChannelFileList.getFiles, offered_getElem?, hserver]
  simp [reasonFor, adds_updateReason, hlocal, hadds.1, hname]

/-- Any other file is offered as before, unless it was missing and can be opened now. -/
theorem UpdateCycle.second_other (hmerged : c.Merged got completed localList) {f : Bytes}
    (hf : f ∉ completed) (hopens : c.world.fs.opens (cStr (c.pathPrefix ++ f)) = true →
      fs.opens (cStr (c.pathPrefix ++ f)) = true) :
    (c.second got' localList fs).getFiles[f]? = (c.first got).getFiles[f]? ↔
      ∀ o, c.server.getFiles[f]? = some o →
        reasonFor got c.system c.localList c.pathPrefix c.world.fs f o = .missing →
        fs.opens (cStr (c.pathPrefix ++ f)) = false := by
  have hlocal := hmerged f
  rw [if_neg hf] at hlocal
  simp only [first, second, ChannelFileList.getFiles, offered_getElem?, reasonFor,
    adds_updateReason, updateReason_eq_missing_iff]
  simp only [ChannelFileList.getFiles] at hlocal
  cases c.server.fileMap[f]? with
  | none => simp
  | some o =>
      rw [hlocal]
      cases hloc : c.localList.fileMap[f]? with
      | none => simp
      | some l =>
          have hname : l.filename = f := c.localList.keyed f l hloc
          cases hdel : o.deleted with
          | true => simp [Option.filter, hdel]
          | false =>
              by_cases hv : l.version < o.version
              · simp [Option.filter, hdel, hv]
              · cases hold : c.world.fs.opens (cStr (c.pathPrefix ++ f)) with
                | true => simp [hname, hold, hopens hold]
                | false =>
                    cases hnew : fs.opens (cStr (c.pathPrefix ++ f)) with
                    | true => simp [Option.filter, hdel, hv, hname, hold, hnew]
                    | false => simp [hname, hold, hnew]

end Compare

/-! ## The downloads of a cycle -/

theorem mem_completed {hs : List Handling} {f : Bytes} :
    f ∈ hs.filterMap Handling.completed ↔ ∃ k ∈ hs, k.error = none ∧ k.ds.filename = f := by
  simp only [List.mem_filterMap, Handling.completed]
  constructor
  · rintro ⟨k, hk, hf⟩
    split at hf
    · rename_i herr
      exact ⟨k, hk, herr, Option.some.inj hf⟩
    · simp at hf
  · rintro ⟨k, hk, herr, rfl⟩
    exact ⟨k, hk, by simp [herr]⟩

namespace UpdateCycle

section Cycle

variable {c : UpdateCycle} {got : Bytes → ℕ → ℕ} {hs : List Handling} {w : World}

theorem listed_of_missing {f : Bytes} {o : FileObject} (ho : c.server.getFiles[f]? = some o)
    (hreason : reasonFor got c.system c.localList c.pathPrefix c.world.fs f o = .missing) :
    (c.first got).getFiles[f]? ≠ none := by
  rw [ChannelFileList.getFiles] at ho
  rw [first, ChannelFileList.getFiles, offered_getElem?, ho]
  simp [Option.filter, hreason, UpdateReason.adds]

theorem Valid.idle (h : c.Valid got) : Idle c.world := by
  obtain ⟨n, fs, ops, hp, hrun⟩ := h.reached
  exact keeps_idle.run_inv (idle_init n fs) hp hrun

theorem Valid.queued (h : c.Valid got) :
    Idle (c.queued got) ∧ (c.queued got).fs = c.world.fs ∧
      ∀ p ds, (c.queued got).heap p = some ds →
        ds.path = c.pathPrefix ∧ (c.first got).getFiles[ds.filename]? ≠ none :=
  updateChannel_ok h.idle h.empty h.urls

variable (h : c.Valid got) (hd : Downloads hs (c.queued got) w)

include h hd

/-- Every message is about a file of the first list. -/
theorem listed {k : Handling} (hk : k ∈ hs) :
    k.ds.path = c.pathPrefix ∧ (c.first got).getFiles[k.ds.filename]? ≠ none := by
  obtain ⟨p, d, hp, hpath, hname⟩ := hd.known k hk
  rw [← hpath, ← hname]
  exact h.queued.2.2 p d hp

theorem completed_listed {f : Bytes} (hf : f ∈ hs.filterMap Handling.completed) :
    (c.first got).getFiles[f]? ≠ none := by
  obtain ⟨k, hk, -, rfl⟩ := mem_completed.mp hf
  exact (listed h hd hk).2

/-- What was stored is found where `calculateUpdates` looks. -/
theorem opens_completed {k : Handling} (hk : k ∈ hs) (herr : k.error = none) :
    w.fs.opens (cStr (c.pathPrefix ++ k.ds.filename)) = k.readable := by
  obtain ⟨n, hn, hr⟩ := hd.lookup k hk herr
  rw [FileSystem.lookup, DataStruct.target, (listed h hd hk).1, resolve_target h.separated] at hn
  rw [FileSystem.opens, FileSystem.lookup, hn, Option.any_some, hr]

/-- No file is stored at the place of a file that is not completed. -/
theorem not_mem_stored {f : Bytes} (hlisted : (c.first got).getFiles[f]? ≠ none)
    (hf : f ∉ hs.filterMap Handling.completed) :
    place (c.queued got).fs.cwd (cStr (c.pathPrefix ++ f)) ∉ hs.flatMap Handling.stored := by
  intro hm
  obtain ⟨k, hk, hplace⟩ := List.mem_flatMap.mp hm
  rw [Handling.stored] at hplace
  split at hplace
  · rename_i herr
    have heq := List.mem_singleton.mp hplace
    rw [Handling.place, pathPlace, hd.cwd k hk, DataStruct.target, (listed h hd hk).1,
      h.queued.2.1] at heq
    have hsame := heq.trans (pathPlace_target h.separated c.world.fs k.ds.filename)
    have hname := h.places hlisted (listed h hd hk).2 hsame
    exact hf (mem_completed.mpr ⟨k, hk, herr, hname.symm⟩)
  · simp at hplace

/-- A file that is not completed can be opened when the new directories lead to it. -/
theorem opens_other {f : Bytes} (hlisted : (c.first got).getFiles[f]? ≠ none)
    (hf : f ∉ hs.filterMap Handling.completed) :
    w.fs.opens (cStr (c.pathPrefix ++ f)) = true ↔
      c.world.fs.OpensWith (hs.flatMap Handling.made) (cStr (c.pathPrefix ++ f)) := by
  rw [hd.grows.opens_iff (not_mem_stored h hd hlisted hf), h.queued.2.1]

/-- The second list is the right one exactly when the messages respect the files. -/
theorem converges_iff {got' : Bytes → ℕ → ℕ} {localList : ChannelFileList}
    (hmerged : c.Merged got (hs.filterMap Handling.completed) localList) :
    Converges (c.first got) (c.second got' localList w.fs) (hs.filterMap Handling.completed) ↔
      c.Respected got hs := by
  have hkeep : ∀ f : Bytes, c.world.fs.opens (cStr (c.pathPrefix ++ f)) = true →
      w.fs.opens (cStr (c.pathPrefix ++ f)) = true := by
    intro f ho
    rw [← h.queued.2.1] at ho
    exact hd.grows.opens ho
  constructor
  · intro hconv
    constructor
    case readable =>
      intro k hk herr
      have hf := mem_completed.mpr ⟨k, hk, herr, rfl⟩
      have hnone := hconv k.ds.filename
      rw [if_pos hf, second_completed hmerged (listed h hd hk).2 hf,
        opens_completed h hd hk herr] at hnone
      exact hnone
    case missing =>
      intro f o ho hreason hf hopens
      have hlisted := listed_of_missing ho hreason
      have hsame := hconv f
      rw [if_neg hf, second_other hmerged hf (hkeep f)] at hsame
      have hclosed := hsame o ho hreason
      rw [(opens_other h hd hlisted hf).mpr hopens] at hclosed
      simp at hclosed
  · intro hresp f
    by_cases hf : f ∈ hs.filterMap Handling.completed
    · obtain ⟨k, hk, herr, rfl⟩ := mem_completed.mp hf
      rw [if_pos hf, second_completed hmerged (listed h hd hk).2 hf, opens_completed h hd hk herr]
      exact hresp.readable k hk herr
    · rw [if_neg hf, second_other hmerged hf (hkeep f)]
      intro o ho hreason
      have hlisted := listed_of_missing ho hreason
      by_contra hopen
      rw [Bool.not_eq_false] at hopen
      exact hresp.missing f o ho hreason hf ((opens_other h hd hlisted hf).mp hopen)

end Cycle

end UpdateCycle

/-- However many polls were made and whichever downloads failed, the next list of updates
has what is left of the first one, exactly when the messages of the polls respect it. -/
theorem update_cycle (c : UpdateCycle) (got got' : Bytes → ℕ → ℕ) (h : c.Valid got)
    (tmpfile : Option Bytes) (rs : List PollReport)
    (hrs : Permitted step Op.Allowed (c.queued got) (rs.map Op.poll)) :
    ∃ w s, run step (c.queued got) (rs.map Op.poll) = .ok w ∧
      (completedBetween (c.queued got) w).foldlM (onDownloadComplete (c.first got))
        (c.localList, tmpfile) = some s ∧
      (UpdateCycle.Converges (c.first got) (c.second got' s.1 w.fs)
          (completedBetween (c.queued got) w) ↔
        c.Respected got (pollHandlings (c.queued got) rs)) := by
  obtain ⟨w, hw, hd⟩ := run_polls h.queued.1 hrs
  obtain ⟨s, hs, hmerged⟩ := foldlM_onDownloadComplete
    (fun f hf => UpdateCycle.completed_listed h hd hf) (c.localList, tmpfile)
  refine ⟨w, s, hw, ?_, ?_⟩
  · rw [hd.completedBetween_eq, hs]
  · rw [hd.completedBetween_eq]
    exact UpdateCycle.converges_iff h hd hmerged

/-! ## A directory in the place of a file -/

def emptyFile (filename : Bytes) : FileObject where
  filename := filename
  version := 1
  crc32 := 0
  size := 0
  execute := false
  deleted := false

/-- `a` is in the local list but missing on disk, and the prefix leads through `a`. -/
def detour : UpdateCycle where
  server := ChannelFileList.empty.addFile (emptyFile (ascii "a"))
  system := .empty
  localList := ChannelFileList.empty.addFile (emptyFile (ascii "a"))
  urlPrefix := ascii "http://h"
  pathPrefix := ascii "a/../"
  world := World.init 2 .empty

/-- The transfer of `a` succeeds. -/
def detourPolls : List PollReport :=
  [{ running := 0 }, { running := 0, done := [{ handle := 0 }] }]

def wholeBlocks : Bytes → ℕ → ℕ :=
  fun _ _ => crcBufferSize

theorem detour_listed {f : Bytes} (hf : (detour.first wholeBlocks).getFiles[f]? ≠ none) :
    f = ascii "a" := by
  by_contra hne
  apply hf
  rw [UpdateCycle.first, ChannelFileList.getFiles, offered_getElem?]
  simp [detour, emptyFile, ChannelFileList.empty, Ne.symm hne]

theorem valid_detour : detour.Valid wholeBlocks where
  reached := ⟨2, .empty, [], trivial, rfl⟩
  empty := rfl
  separated := rfl
  places := fun _ hf _ hg _ => (detour_listed hf).trans (detour_listed hg).symm
  urls := fun _ hf _ hg _ => (detour_listed hf).trans (detour_listed hg).symm

theorem detourPolls_permitted :
    Permitted step Op.Allowed (detour.queued wholeBlocks) (detourPolls.map Op.poll) := by
  refine ⟨⟨by simp, by simp, by simp⟩, ?_⟩
  rintro _ ⟨⟩
  refine ⟨⟨by simp, ?_, by decide⟩, fun _ _ => trivial⟩
  decide

theorem update_cycle_of_detour :
    ∃ w s, run step (detour.queued wholeBlocks) (detourPolls.map Op.poll) = .ok w ∧
      (completedBetween (detour.queued wholeBlocks) w).foldlM
        (onDownloadComplete (detour.first wholeBlocks)) (detour.localList, none) = some s ∧
      (UpdateCycle.Converges (detour.first wholeBlocks) (detour.second wholeBlocks s.1 w.fs)
          (completedBetween (detour.queued wholeBlocks) w) ↔
        detour.Respected wholeBlocks (pollHandlings (detour.queued wholeBlocks) detourPolls)) :=
  update_cycle detour wholeBlocks wholeBlocks valid_detour none detourPolls detourPolls_permitted

/-- On the way to `a` a directory is made in its place, so the copy fails, but the directory
passes for the file, and `a` is not offered again. -/
theorem update_cycle_detour :
    detour.Valid wholeBlocks ∧
      Permitted step Op.Allowed (detour.queued wholeBlocks) (detourPolls.map Op.poll) ∧
      ∃ w s, run step (detour.queued wholeBlocks) (detourPolls.map Op.poll) = .ok w ∧
        w.files = ∅ ∧
        (detour.first wholeBlocks).getFiles[ascii "a"]? = some (emptyFile (ascii "a")) ∧
        completedBetween (detour.queued wholeBlocks) w = [] ∧
        [].foldlM (onDownloadComplete (detour.first wholeBlocks)) (detour.localList, none) =
          some s ∧
        ¬UpdateCycle.Converges (detour.first wholeBlocks) (detour.second wholeBlocks s.1 w.fs)
          [] := by
  refine ⟨valid_detour, detourPolls_permitted, ?_⟩
  obtain ⟨w, hw, -⟩ := run_polls valid_detour.queued.1 detourPolls_permitted
  have hfacts : (run step (detour.queued wholeBlocks) (detourPolls.map Op.poll)).map
      (fun w => (w.files.isEmpty, completedBetween (detour.queued wholeBlocks) w,
        w.fs.opens (cStr (detour.pathPrefix ++ ascii "a")))) = .ok (true, [], true) := rfl
  rw [hw, Except.map, Except.ok.injEq, Prod.mk.injEq, Prod.mk.injEq] at hfacts
  obtain ⟨hempty, hcompleted, hopens⟩ := hfacts
  have hlisted : (detour.first wholeBlocks).getFiles[ascii "a"]? =
      some (emptyFile (ascii "a")) := rfl
  refine ⟨w, (detour.localList, none), hw, Std.ExtTreeMap.isEmpty_iff.mp hempty, hlisted,
    hcompleted, rfl, ?_⟩
  intro hconv
  have hmerged : detour.Merged wholeBlocks [] detour.localList := fun f => by simp
  have hsame := hconv (ascii "a")
  rw [if_neg List.not_mem_nil,
    UpdateCycle.second_other hmerged List.not_mem_nil fun _ => hopens] at hsame
  have hclosed := hsame (emptyFile (ascii "a")) rfl rfl
  exact absurd (hopens.symm.trans hclosed) (by decide)

end LibWfut
