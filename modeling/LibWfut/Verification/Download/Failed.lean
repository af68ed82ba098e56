import LibWfut.Library.Footprint
import LibWfut.Verification.Download.Handling

/-! # Failed downloads

`poll` sets the execute bits of the target whatever became of the copy, and the directories
made for a target need not be above it. Other downloads of the poll may share the place. -/

namespace LibWfut

open FileTree List Machine

/-- Away from the target, only directories on the way to it are new. -/
def OnlyParents (fs fs' : FileSystem) (target : Bytes) : Prop :=
  ∀ l, l ≠ pathPlace fs target → fs'.node l = fs.node l ∨
    (fs.node l = none ∧ fs'.node l = some newDirectory ∧ Passes fs.cwd (cStr target) l)

/-- What a signal of failure promises: the whole poll, which finds the files `fs` and leaves
`fs'`, changes nothing at the target, and the message made directories on the way only. -/
def FailedRight (fs fs' : FileSystem) (v v' : World) (m : CurlMsg) (ds : DataStruct) : Prop :=
  ∀ message, v'.trace = v.trace ++ [.failed m.handle ds.url ds.filename message] →
    fs'.node (pathPlace fs ds.target) = fs.node (pathPlace fs ds.target) ∧
      OnlyParents v.fs v'.fs ds.target

/-- Nothing is made at a place where nothing stands. A file gets its own content back from the
last copy to it, and what stands there has the execute bits before they are set. -/
def KeptAt (hs : List Handling) (fs : FileSystem) (l : Location) : Prop :=
  match fs.node l with
  | none => ∀ h ∈ hs, l ∉ h.made ∧ h.contentAt l = none
  | some n =>
    (∀ content ∈ (hs.filterMap fun h => h.contentAt l).getLast?, n.kind = .regular content) ∧
      ((∃ h ∈ hs, h.SetsBits l) → n.mode ||| executeBits = n.mode)

/-- The path names this directory above the target: it goes on with a `/`, and the system reads
that far. -/
def NamesParent (target p : Bytes) : Prop :=
  p ≠ [] ∧ p ++ [separator] <+: cStr target

/-- Away from the target, every `mkdir` that succeeds is for such a directory. -/
def MakesNamedParents (env : Storage) (target : Bytes) (fs : FileSystem) : Prop :=
  ∀ p ∈ madeDirs env (parentPaths target) fs, pathPlace fs p ≠ pathPlace fs target →
    ∃ q, NamesParent target q ∧ place fs.cwd q = pathPlace fs p

/-- What must hold of the messages of a poll if one of them fails. -/
def LeavesAlone (fs : FileSystem) (hs : List Handling) (h : Handling) : Prop :=
  ¬h.Copied → KeptAt hs fs (pathPlace fs h.ds.target) ∧
    (Arrived h.msg h.ds → MakesNamedParents h.msg.storage h.ds.target h.state.fs)

/-! ## One place -/

section Place

variable {hs : List Handling} {w w' : World} {l : Location}

/-- Of many messages the last copy counts, and any that sets the bits. -/
theorem foldl_leaves (hs : List Handling) (l : Location) (n : Node) :
    hs.foldl (Handling.leaves l) n =
      { n with
        kind := (hs.filterMap fun h => h.contentAt l).getLast?.elim n.kind .regular
        mode := if ∃ h ∈ hs, h.SetsBits l then n.mode ||| executeBits else n.mode } := by
  induction hs using List.reverseRecOn with
  | nil => simp
  | append_singleton hs h ih =>
      rw [List.foldl_append, ih, List.foldl_cons, List.foldl_nil, Handling.leaves]
      congr 1
      · rw [List.filterMap_append]
        cases hc : h.contentAt l <;> simp [hc]
      · by_cases hb : h.SetsBits l
        · by_cases hbs : ∃ h ∈ hs, h.SetsBits l
          · simp [hb, hbs, BitVec.or_assoc]
          · simp [hb, hbs]
        · simp [hb]

theorem elim_regular_eq_iff {content : Option Bytes} {k : Kind} :
    content.elim k .regular = k ↔ ∀ c ∈ content, k = .regular c := by
  cases content with
  | none => simp
  | some c => simp [eq_comm]

theorem Downloads.node_eq_none_iff (h : Downloads hs w w') (hn : w.fs.node l = none) :
    w'.fs.node l = none ↔ ∀ k ∈ hs, l ∉ k.made ∧ k.contentAt l = none := by
  simp only [Handling.contentAt_eq_none_iff]
  constructor
  · intro hnone k hk
    constructor
    · intro hm
      obtain ⟨n, hn', -⟩ := h.grows.dir l (List.mem_flatMap.mpr ⟨k, hk, hm⟩)
      rw [hnone] at hn'
      simp at hn'
    · intro hm
      obtain ⟨n, hn', -⟩ := h.grows.file l (List.mem_flatMap.mpr ⟨k, hk, hm⟩)
      rw [hnone] at hn'
      simp at hn'
  · intro hall
    by_contra hne
    rcases h.grows.added l hne with hold | hm | hm
    · exact hold hn
    · obtain ⟨k, hk, hm⟩ := List.mem_flatMap.mp hm
      exact (hall k hk).1 hm
    · obtain ⟨k, hk, hm⟩ := List.mem_flatMap.mp hm
      exact (hall k hk).2 hm

/-- A poll leaves a place as it is exactly when its messages do so together. -/
theorem Downloads.keptAt_iff (h : Downloads hs w w') :
    w'.fs.node l = w.fs.node l ↔ KeptAt hs w.fs l := by
  unfold KeptAt
  cases hn : w.fs.node l with
  | none => exact h.node_eq_none_iff hn
  | some n =>
      simp only [h.node l n hn, Option.some.injEq, foldl_leaves, ← elim_regular_eq_iff]
      cases n
      simp

end Place

/-! ## The directories -/

section Directories

variable {env : Storage} {target : Bytes} {fs fs' : FileSystem}

/-- A path leads through the directories that it names, but for the one it starts from. -/
theorem passes_iff_namesParent {l : Location} (hl : fs.node l = none) :
    Passes fs.cwd (cStr target) l ↔ ∃ q, NamesParent target q ∧ place fs.cwd q = l := by
  constructor
  · intro hpass
    rcases passes_cases hpass with rfl | ⟨q, r, hq, htarget, hplace⟩
    · have hdir := fs.isDir_start (cStr target)
      rw [FileSystem.isDir, hl] at hdir
      simp at hdir
    · exact ⟨q, ⟨hq, r, by rw [htarget, List.append_assoc, List.singleton_append]⟩, hplace⟩
  · rintro ⟨q, ⟨hq, r, htarget⟩, rfl⟩
    rw [← htarget, List.append_assoc, List.singleton_append]
    exact passes_append hq r

/-- What is new away from the target are the directories made. -/
theorem onlyParents_iff
    (h : ∀ l, l ≠ pathPlace fs target →
      fs'.node l = (createParentDirs env target fs).2.node l) :
    OnlyParents fs fs' target ↔ MakesNamedParents env target fs := by
  constructor
  · intro honly p hp hne
    have hnone := node_of_mem_madeDirs hp
    have hmade : fs'.node (pathPlace fs p) = some newDirectory := by
      rw [h _ hne, createParentDirs_node, if_pos (List.mem_map_of_mem hp)]
    rcases honly _ hne with hsame | ⟨-, -, hpass⟩
    · rw [hsame, hnone] at hmade
      simp at hmade
    · exact (passes_iff_namesParent hnone).mp hpass
  · intro hmakes l hl
    rw [h l hl, createParentDirs_node]
    split
    · rename_i hm
      obtain ⟨p, hp, rfl⟩ := List.mem_map.mp hm
      have hnone := node_of_mem_madeDirs hp
      exact .inr ⟨hnone, rfl, (passes_iff_namesParent hnone).mpr (hmakes p hp hl)⟩
    · exact .inl rfl

end Directories

/-! ## Failing downloads -/

section Failing

variable {h : Handling}

/-- What a failed copy leaves away from the target. -/
theorem Handling.node_of_copy_failed (ha : Arrived h.msg h.ds) (hfail : ¬h.Copied) {l : Location}
    (hl : l ≠ h.place) :
    h.fs.node l = (createParentDirs h.msg.storage h.ds.target h.state.fs).2.node l := by
  have hcopy : copyFile h.msg.storage h.ds.fp h.ds.target h.state.fs =
      (1, (createParentDirs h.msg.storage h.ds.target h.state.fs).2) := by
    rcases copyFile_cases h.msg.storage h.ds.fp h.ds.target h.state.fs with
      heq | ⟨m, fs', -, -, heq⟩
    · exact heq
    · exact absurd ⟨ha, by rw [heq]⟩ hfail
  rw [Handling.fs, finishTransfer_of ha, hcopy]
  by_cases hx : h.ds.executable = true
  · simp only [hx, ite_true]
    rw [osSetExecutable_node, if_neg]
    rintro ⟨-, hresolve⟩
    exact hl (eq_pathPlace_of_resolve hresolve)
  · simp [hx]

theorem Handling.onlyParents_iff (hfail : ¬h.Copied) :
    OnlyParents h.state.fs h.fs h.ds.target ↔
      (Arrived h.msg h.ds → MakesNamedParents h.msg.storage h.ds.target h.state.fs) := by
  by_cases ha : Arrived h.msg h.ds
  · rw [LibWfut.onlyParents_iff fun l hl => node_of_copy_failed ha hfail hl]
    simp [ha]
  · obtain ⟨message, heq⟩ := finishTransfer_of_not ha
    have hsame : h.fs = h.state.fs := by rw [Handling.fs, heq]
    have honly : OnlyParents h.state.fs h.fs h.ds.target := fun l _ => .inl (by rw [hsame])
    simp [ha, honly]

/-- A signal of failure is right exactly when the messages of its poll leave the target alone. -/
theorem Handled.failedRight_iff {w w' v v' : World} {m : CurlMsg} {ds : DataStruct}
    {rest : List CurlMsg} {hs : List Handling} (h : Handled v m ds rest v')
    (hd : Downloads hs w w') :
    FailedRight w.fs w'.fs v v' m ds ↔ LeavesAlone w.fs hs ⟨v, m, ds⟩ := by
  have htrace : ∀ message,
      v'.trace = v.trace ++ [.failed m.handle ds.url ds.filename message] ↔
        (Handling.mk v m ds).error = some message := by
    intro message
    rw [h.trace, List.append_cancel_left_eq, Handling.error]
    cases (finishTransfer m ds v.fs).1 <;> simp [outcome]
  have hfs : v'.fs = (Handling.mk v m ds).fs := h.fs
  simp only [FailedRight, LeavesAlone, htrace, hfs, hd.keptAt_iff]
  by_cases hcopied : (Handling.mk v m ds).Copied
  · have hnone := (Handling.error_eq_none_iff _).mpr hcopied
    simp [hnone, hcopied]
  · have hsome : (Handling.mk v m ds).error ≠ none :=
      fun hnone => hcopied ((Handling.error_eq_none_iff _).mp hnone)
    obtain ⟨message, heq⟩ := Option.ne_none_iff_exists'.mp hsome
    rw [← Handling.onlyParents_iff hcopied]
    simp [heq, hcopied]

/-- A poll, and the handling of one of its messages. -/
theorem poll_split {w : World} (hidle : Idle w) {r : PollReport} (hr : r.Delivered w) :
    ∃ w₁ k w₂, w.multiPerform r = .ok w₁ ∧ poll signal r w = .ok (k, w₂) ∧
      Downloads (handlings w₁ r.done) w w₂ ∧
      ∀ before m rest, r.done = before ++ m :: rest →
        ∃ v v' ds, drain signal before.length w₁ = .ok v ∧
          drain signal (before.length + 1) w₁ = .ok v' ∧ w₁.heap m.handle = some ds ∧
          v.heap m.handle = some ds ∧ Handled v m ds rest v' := by
  obtain ⟨w₀, -, -, -, hperf, hinv⟩ := multiPerform_ok hidle.inv hidle.msgs hr
  obtain ⟨v, k, w₂, hv, hpoll, -, hdown⟩ := poll_downloads hidle hr
  rw [hperf, Except.ok.injEq] at hv
  subst hv
  refine ⟨_, k, w₂, hperf, hpoll, hdown, ?_⟩
  intro before m rest hdone
  obtain ⟨v, v', ds, hv, hv', hds, hvds, -, hone⟩ :=
    drain_split (w := { w₀ with msgs := r.done }) hinv hdone
  exact ⟨v, v', ds, hv, hv', hds, hvds, hone⟩

end Failing

/-- In every poll of every run, a failing download leaves its target alone exactly when no
message of the poll changes what stands there, and a failed copy makes directories on the way
only. -/
theorem failed_download (n : Int32) (fs : FileSystem) (ops : List Op)
    (h : Permitted step Op.Allowed (World.init n fs) ops) :
    ∃ w, run step (World.init n fs) ops = .ok w ∧
      ∀ r, r.Delivered w → ∃ w₁ k w₂, w.multiPerform r = .ok w₁ ∧
        poll signal r w = .ok (k, w₂) ∧
        ∀ before m rest, r.done = before ++ m :: rest →
          ∃ v v' ds, drain signal before.length w₁ = .ok v ∧
            drain signal (before.length + 1) w₁ = .ok v' ∧ v.heap m.handle = some ds ∧
            (FailedRight w.fs w₂.fs v v' m ds ↔
              LeavesAlone w.fs (handlings w₁ r.done) ⟨v, m, ds⟩) := by
  obtain ⟨w, hw, hidle⟩ := keeps_idle.run_ok (idle_init n fs) h
  refine ⟨w, hw, ?_⟩
  intro r hd
  obtain ⟨w₁, k, w₂, hperf, hpoll, hdown, hsplit⟩ := poll_split hidle hd
  refine ⟨w₁, k, w₂, hperf, hpoll, ?_⟩
  intro before m rest hr
  obtain ⟨v, v', ds, hv, hv', -, hvds, hone⟩ := hsplit before m rest hr
  exact ⟨v, v', ds, hv, hv', hvds, hone.failedRight_iff hdown⟩

/-- A directory `d` with an ordinary file `f`. -/
def oldFile : FileSystem :=
  (FileSystem.empty.create [ascii "d"] newDirectory).create [ascii "d", ascii "f"]
    ⟨.regular (ascii "old"), 0o644, true⟩

/-- The download of an executable `d/f` that is attached to curl. -/
def executableRunning : List Op :=
  [.queueFile (ascii "d") (ascii "f") (ascii "http://h/f") 0 true, .poll { running := 0 }]

/-- Its job. -/
def executableJob : DataStruct :=
  newDataStruct (ascii "d") (ascii "f") (ascii "http://h/f") 0 true 0

theorem executableRunning_permitted :
    Permitted step Op.Allowed (World.init 1 oldFile) executableRunning := by
  refine ⟨fun _ => by decide, ?_⟩
  rintro _ ⟨⟩
  exact ⟨⟨by simp, by simp, by simp⟩, fun _ _ => trivial⟩

theorem failed_download_executableRunning :
    ∃ w, run step (World.init 1 oldFile) executableRunning = .ok w ∧
      ∀ r, r.Delivered w → ∃ w₁ k w₂, w.multiPerform r = .ok w₁ ∧
        poll signal r w = .ok (k, w₂) ∧
        ∀ before m rest, r.done = before ++ m :: rest →
          ∃ v v' ds, drain signal before.length w₁ = .ok v ∧
            drain signal (before.length + 1) w₁ = .ok v' ∧ v.heap m.handle = some ds ∧
            (FailedRight w.fs w₂.fs v v' m ds ↔
              LeavesAlone w.fs (handlings w₁ r.done) ⟨v, m, ds⟩) :=
  failed_download 1 oldFile executableRunning executableRunning_permitted

/-- A message of success for a target that cannot be opened. -/
def writeProtected : CurlMsg :=
  { handle := 0, storage := { openOk := false } }

def writeProtectedPoll : PollReport :=
  { running := 0, done := [writeProtected] }

/-- A target that could not be replaced becomes executable. -/
theorem failed_download_writeProtected :
    ∃ w, run step (World.init 1 oldFile) executableRunning = .ok w ∧
      writeProtectedPoll.Delivered w ∧
      ∃ w₁ k w₂ v' ds, w.multiPerform writeProtectedPoll = .ok w₁ ∧
        poll signal writeProtectedPoll w = .ok (k, w₂) ∧ drain signal 1 w₁ = .ok v' ∧
        w₁.heap 0 = some ds ∧ ¬FailedRight w.fs w₂.fs w₁ v' writeProtected ds := by
  obtain ⟨w, hw, hidle⟩ := keeps_idle.run_ok (idle_init _ _) executableRunning_permitted
  have hfacts : (run step (World.init 1 oldFile) executableRunning).map
      (fun w => (w.attached, w.fs)) = .ok ([0], oldFile) := rfl
  rw [hw, Except.map, Except.ok.injEq, Prod.mk.injEq] at hfacts
  obtain ⟨hattached, hfs⟩ := hfacts
  have hd : writeProtectedPoll.Delivered w := by
    constructor <;> simp [writeProtectedPoll, writeProtected, hattached]
  obtain ⟨w₁, k, w₂, hperf, hpoll, hdown, hsplit⟩ := poll_split hidle hd
  obtain ⟨v, v', ds, hv, hv', -, hds, hone⟩ := hsplit [] writeProtected [] rfl
  cases hv
  have hdrain : drain signal 1 w₁ = .ok v' := hv'
  have hjob : (run step (World.init 1 oldFile) executableRunning >>= fun w =>
      w.multiPerform writeProtectedPoll).map (fun v => (v.heap 0, v.fs)) =
      .ok (some executableJob, oldFile) := rfl
  rw [hw, ok_bind, hperf, Except.map, Except.ok.injEq, Prod.mk.injEq] at hjob
  obtain ⟨hheap, hfs₁⟩ := hjob
  obtain rfl : executableJob = ds := Option.some.inj (hheap.symm.trans hds)
  refine ⟨w, hw, hd, w₁, k, w₂, v', _, hperf, hpoll, hdrain, hds, ?_⟩
  intro h
  have hmem : Handling.mk w₁ writeProtected executableJob ∈
      handlings w₁ writeProtectedPoll.done := by
    simp [handlings, writeProtectedPoll, hds, hdrain]
  have hfail : (copyFile writeProtected.storage none executableJob.target oldFile).1 ≠ 0 := by
    decide
  have hresolve : (createParentDirs writeProtected.storage executableJob.target oldFile).2.resolve
      (cStr executableJob.target) = some [ascii "d", ascii "f"] := by
    decide
  have hcopied : ¬(Handling.mk w₁ writeProtected executableJob).Copied := by
    intro hc
    apply hfail
    rw [← hfs₁]
    exact hc.2
  have hbits : (Handling.mk w₁ writeProtected executableJob).SetsBits
      [ascii "d", ascii "f"] := by
    rw [← hfs₁] at hresolve
    exact ⟨⟨rfl, rfl, .inl rfl⟩, rfl, rfl, hresolve⟩
  have hkept := ((hone.failedRight_iff hdown).mp h hcopied).1
  rw [hfs] at hkept
  have hmode := hkept.2 ⟨_, hmem, hbits⟩
  revert hmode
  decide

end LibWfut
