import LibWfut.Verification.Io.Quiet

/-! # The life of an `IO` object

Between `init` and `shutdown` the queue keeps its invariant. `shutdown` releases every
download without a signal and leaves the waiting handles in `m_handles`. -/

namespace LibWfut

open Machine

/-! ## Shutting down -/

/-- What the loop of `shutdown` relies on: registry and memory agree, whatever curl and the
queue hold. -/
structure Owns (w : World) : Prop where
  entry : ∀ u p, w.files[u]? = some p → ∃ ds, w.heap p = some ds ∧ ds.url = u
  registered : ∀ p ds, w.heap p = some ds → w.files[ds.url]? = some p
  handle : ∀ p ds, w.heap p = some ds → ds.handle = some p ∧ ∃ e, w.easy p = some e
  released : ∀ p, w.heap p = none → w.easy p = none

theorem Registry.owns {w : World} (h : Registry [] w) : Owns w.multiCleanup := by
  constructor
  case entry => exact h.entry
  case registered => exact h.registered
  case handle =>
    intro p ds hp
    obtain ⟨hh, e, he, -⟩ := h.own_handle hp (by simp)
    exact ⟨hh, e, he⟩
  case released => exact h.released

section Loop

variable {w : World} {u : Bytes} {p : Ptr}

theorem Owns.discard (h : Owns w) {ds : DataStruct} (hp : w.heap p = some ds) :
    Owns (w.discard p ds.url) := by
  constructor
  case entry => exact fun k q hk => World.entry_discard h.entry hp hk
  case registered => exact fun q d hd => World.registered_discard h.registered hp hd
  case handle =>
    intro q d hd
    have hqp : q ≠ p := World.ne_of_heap_discard (by rw [hd]; simp)
    rw [World.heap_discard_of_ne hqp] at hd
    simpa [World.discard, hqp] using h.handle q d hd
  case released => exact fun q hq => World.released_discard h.released ds.url hq

/-- One turn of the loop releases the first download. -/
theorem shutdownFirst_eq (h : Owns w) (hf : OrderedMap.first w.files = some (u, p)) :
    ∃ ds, w.heap p = some ds ∧ ds.url = u ∧ shutdownFirst u p w = .ok (w.discard p u) := by
  have hu := OrderedMap.getElem?_of_first hf
  obtain ⟨ds, hp, rfl⟩ := h.entry u p hu
  obtain ⟨hh, e, he⟩ := h.handle p ds hp
  refine ⟨ds, hp, rfl, ?_⟩
  unfold shutdownFirst
  rw [World.deref_eq hp, ok_bind]
  simp only [hh, World.easyCleanup_eq he, ok_bind, World.deref, World.store,
    Function.update_self, World.delete, Function.update_idem, World.eraseEntry, hu]
  rfl

/-- The state that the loop of `shutdown` leaves. -/
structure Emptied (w w' : World) : Prop where
  files : w'.files = ∅
  heap : w'.heap = fun _ => none
  easy : w'.easy = fun _ => none
  handles : w'.handles = w.handles
  attached : w'.attached = w.attached
  msgs : w'.msgs = w.msgs
  numToProcess : w'.numToProcess = w.numToProcess

theorem Owns.emptied (h : Owns w) (hf : OrderedMap.first w.files = none) : Emptied w w := by
  have hnone : ∀ q, w.heap q = none := by
    intro q
    by_contra hlive
    obtain ⟨d, hd⟩ := Option.ne_none_iff_exists'.mp hlive
    have hreg := h.registered q d hd
    rw [OrderedMap.first_eq_none hf] at hreg
    simp at hreg
  constructor
  case files => exact OrderedMap.eq_empty_of_first hf
  case heap => exact funext hnone
  case easy => exact funext fun q => h.released q (hnone q)
  all_goals rfl

theorem shutdownLoop_ok (h : Owns w) {fuel : ℕ} (hfuel : w.files.size ≤ fuel) :
    ∃ w', shutdownLoop fuel w = .ok w' ∧ Emptied w w' := by
  induction fuel generalizing w with
  | zero =>
      have hempty := Std.ExtTreeMap.eq_empty_iff_size_eq_zero.mpr (Nat.le_zero.mp hfuel)
      have hf : OrderedMap.first w.files = none := by simp [hempty, OrderedMap.first]
      exact ⟨w, by simp only [shutdownLoop, hf], h.emptied hf⟩
  | succ fuel ih =>
      cases hf : OrderedMap.first w.files with
      | none => exact ⟨w, by simp only [shutdownLoop, hf], h.emptied hf⟩
      | some e =>
          obtain ⟨u, p⟩ := e
          obtain ⟨ds, hp, rfl, hfirst⟩ := shutdownFirst_eq h hf
          have hsize := OrderedMap.size_erase_add_one (OrderedMap.getElem?_of_first hf)
          have hle : (w.discard p ds.url).files.size ≤ fuel := by
            change (w.files.erase ds.url).size ≤ fuel
            omega
          obtain ⟨w', hw', hempty⟩ := ih (h.discard hp) hle
          refine ⟨w', ?_, { hempty with }⟩
          simp only [shutdownLoop, hf, hfirst]
          exact hw'

end Loop

/-! ## What holds over the life -/

/-- The handle belongs to a download in `m_files`. -/
def Registered (w : World) (k : Handle) : Prop :=
  ∃ (u : Bytes) (p : Ptr) (ds : DataStruct), w.files[u]? = some p ∧ w.heap p = some ds ∧
    ds.handle = some k

/-- The state of a fresh object; `fresh` only counts, so that no pointer or handle comes
back. -/
def LikeNew (n : Int32) (w : World) : Prop :=
  ∃ fs k, w = { World.init n fs with fresh := k }

/-- Every handle in `m_handles` or in curl, and every easy handle not released, belongs to a
registered download, and `init` always finds a fresh object. -/
structure Sound (n : Int32) (s : Session) : Prop where
  pool : ∀ k ∈ s.world.handles ++ s.world.attached, Registered s.world k
  alive : ∀ k, s.world.easy k ≠ none → Registered s.world k
  restored : s.initialised = false → LikeNew n s.world

/-- The calls between `init` and `shutdown` that are permitted. -/
def SessionOp.Allowed (s : Session) : SessionOp → Prop
  | .init => s.initialised = false
  | .shutdown => s.initialised = true
  | .call op => s.initialised = true ∧ op.Allowed s.world ∧ ∀ i, op ≠ .setMaxDownloads i

/-- `shutdown` is called when nothing waits. -/
def SessionOp.Drained (s : Session) (op : SessionOp) : Prop :=
  op = .shutdown → s.world.handles = []

/-- The handles that an operation looks up, attaches, removes or cleans up. -/
def SessionOp.Uses (s : Session) (k : Handle) : SessionOp → Prop
  | .init => False
  | .shutdown => Registered s.world k
  | .call (.queueFile ..) => False
  | .call (.poll r) => k ∈ r.writes.map WriteCall.handle ∨ k ∈ r.done.map CurlMsg.handle ∨
      k ∈ s.world.handles.take (capacity s.world r)
  | .call (.abortDownload url) => ∃ p ds, s.world.files[url]? = some p ∧
      s.world.heap p = some ds ∧ ds.handle = some k
  | .call .abortAll => Registered s.world k
  | .call (.setMaxDownloads _) => False

/-! ## The invariant over the life -/

/-- An object is always between two calls, and like new when it is not initialised. -/
structure Kept (n : Int32) (s : Session) : Prop where
  idle : Idle s.world
  limit : s.world.numToProcess = n
  restored : s.initialised = false → LikeNew n s.world

theorem LikeNew.idle {n : Int32} {w : World} (h : LikeNew n w) : Idle w := by
  obtain ⟨fs, k, rfl⟩ := h
  have hinit := inv_init n fs
  refine ⟨⟨{ hinit.registry with unborn := fun _ _ => rfl }, ?_⟩, rfl⟩
  exact { hinit.history with born := by simp [World.init], unborn := fun _ _ => rfl }

theorem LikeNew.kept {n : Int32} {s : Session} (h : LikeNew n s.world) : Kept n s := by
  refine ⟨h.idle, ?_, fun _ => h⟩
  obtain ⟨fs, k, hw⟩ := h
  rw [hw]
  rfl

theorem likeNew_init (n : Int32) (fs : FileTree.FileSystem) : LikeNew n (World.init n fs) :=
  ⟨fs, 0, rfl⟩

section Step

variable {n : Int32} {s s' : Session}

/-- A live handle is the handle of a registered download. -/
theorem Registry.registered_handle {w : World} (h : Registry [] w) {k : Handle}
    (hk : w.heap k ≠ none) : Registered w k := by
  obtain ⟨ds, hds⟩ := Option.ne_none_iff_exists'.mp hk
  exact ⟨ds.url, k, ds, h.registered k ds hds, hds, (h.own_handle hds (by simp)).1⟩

theorem Kept.sound (h : Kept n s) : Sound n s := by
  have hr := h.idle.inv.registry
  constructor
  case pool =>
    intro k hk
    exact hr.registered_handle ((hr.pool k).mp hk).1
  case alive =>
    intro k hk
    apply hr.registered_handle
    exact fun hnone => hk (hr.released k hnone)
  case restored => exact h.restored

theorem shutdown_eq (h : Kept n s) (hi : s.initialised = true) :
    ∃ w, Emptied s.world.multiCleanup w ∧
      s.shutdown = .ok { initialised := false, world := { w with trace := [] } } := by
  have howns := h.idle.inv.registry.owns
  obtain ⟨w, hw, hempty⟩ := shutdownLoop_ok howns le_rfl
  refine ⟨w, hempty, ?_⟩
  have hloop : shutdownLoop s.world.files.size s.world.multiCleanup = .ok w := hw
  simp only [Session.shutdown, hi, ite_true, hloop, ok_bind]

/-- With nothing waiting `shutdown` leaves a fresh object. -/
theorem Emptied.likeNew {w w' : World} (h : Emptied w.multiCleanup w') (hw : w.handles = [])
    (hn : w.numToProcess = n) : LikeNew n { w' with trace := [] } := by
  refine ⟨w'.fs, w'.fresh, ?_⟩
  obtain ⟨files, handles, num, heap, easy, fresh, attached, msgs, fs, trace⟩ := w'
  obtain ⟨hfiles, hheap, heasy, hhandles, hattached, hmsgs, hnum⟩ := h
  simp only [World.multiCleanup] at hfiles hheap heasy hhandles hattached hmsgs hnum
  subst hfiles hheap heasy hattached hmsgs
  simp only [World.init, hhandles, hw, hnum, hn]

theorem Emptied.sound_iff {w w' : World} (h : Emptied w.multiCleanup w')
    (hn : w.numToProcess = n) :
    Sound n { initialised := false, world := { w' with trace := [] } } ↔ w.handles = [] := by
  constructor
  · intro hs
    have hhandles : w'.handles = w.handles := h.handles
    cases hw : w.handles with
    | nil => rfl
    | cons k rest =>
        obtain ⟨u, p, ds, hu, -⟩ := hs.pool k (by simp [hhandles, hw])
        simp [h.files] at hu
  · intro hw
    exact (LikeNew.kept (s := ⟨false, _⟩) (h.likeNew hw hn)).sound

/-- Every permitted operation ends; the invariant is kept exactly when a shutdown finds
nothing waiting. -/
theorem sessionStep_ok (h : Kept n s) {op : SessionOp} (hop : op.Allowed s) :
    ∃ s', sessionStep s op = .ok s' ∧ (Sound n s' ↔ op.Drained s) ∧
      (op.Drained s → Kept n s') := by
  cases op with
  | init =>
      have hinit : s.initialised = false := hop
      have hs : Kept n { s with initialised := true } :=
        ⟨h.idle, h.limit, fun hfalse => absurd hfalse (by simp)⟩
      refine ⟨_, ?_, iff_of_true hs.sound (by simp [SessionOp.Drained]), fun _ => hs⟩
      simp [sessionStep, Session.init, hinit]
  | shutdown =>
      obtain ⟨w, hempty, hs⟩ := shutdown_eq h hop
      refine ⟨_, hs, ?_, fun hd => (hempty.likeNew (hd rfl) h.limit).kept⟩
      rw [hempty.sound_iff h.limit]
      simp [SessionOp.Drained]
  | call op =>
      obtain ⟨hi, hallowed, hset⟩ := hop
      obtain ⟨w, hw, hidle⟩ := keeps_idle s.world op h.idle hallowed
      have hs : Kept n { s with world := w } := by
        refine ⟨hidle, ?_, fun hfalse => absurd (hi.symm.trans hfalse) (by simp)⟩
        exact (numToProcess_eq h.idle hallowed hset hw).trans h.limit
      refine ⟨_, ?_, iff_of_true hs.sound (by simp [SessionOp.Drained]), fun _ => hs⟩
      simp only [sessionStep, hw, ok_bind]

/-- An operation uses handles of registered downloads only. -/
theorem Kept.uses (h : Kept n s) {op : SessionOp} (hop : op.Allowed s) {k : Handle}
    (hk : op.Uses s k) : Registered s.world k := by
  have hpool := h.sound.pool
  cases op with
  | init => exact hk.elim
  | shutdown => exact hk
  | call op =>
      cases op with
      | queueFile path filename url crc exec => exact hk.elim
      | poll r =>
          have hr : r.Delivered s.world := hop.2.1
          apply hpool k
          rcases hk with hk | hk | hk
          · obtain ⟨c, hc, rfl⟩ := List.mem_map.mp hk
            exact List.mem_append_right _ (hr.writes c hc)
          · obtain ⟨m, hm, rfl⟩ := List.mem_map.mp hk
            exact List.mem_append_right _ (hr.done m hm)
          · exact List.mem_append_left _ (List.mem_of_mem_take hk)
      | abortDownload url =>
          obtain ⟨p, ds, hu, hp, hh⟩ := hk
          exact ⟨url, p, ds, hu, hp, hh⟩
      | abortAll => exact hk
      | setMaxDownloads i => exact hk.elim

end Step

/-- Over the whole life of an object no stale handle is used or left behind, as long as
nothing waits whenever it is shut down; a shutdown with waiting downloads always leaves
stale handles. -/
theorem sessions (n : Int32) (fs : FileTree.FileSystem) (ops : List SessionOp)
    (h : Permitted sessionStep (fun s op => op.Allowed s ∧ op.Drained s) (Session.new n fs) ops) :
    ∃ s, run sessionStep (Session.new n fs) ops = .ok s ∧ Sound n s ∧
      ∀ op, op.Allowed s → (∀ k, op.Uses s k → Registered s.world k) ∧
        ∃ s', sessionStep s op = .ok s' ∧ (Sound n s' ↔ op.Drained s) := by
  have hkeeps : Keeps sessionStep (fun s op => op.Allowed s ∧ op.Drained s) (Kept n) := by
    intro s op hs hop
    obtain ⟨s', hs', -, hkept⟩ := sessionStep_ok hs hop.1
    exact ⟨s', hs', hkept hop.2⟩
  have hnew : Kept n (Session.new n fs) := (likeNew_init n fs).kept
  obtain ⟨s, hs, hkept⟩ := hkeeps.run_ok hnew h
  refine ⟨s, hs, hkept.sound, ?_⟩
  intro op hop
  obtain ⟨s', hs', hiff, -⟩ := sessionStep_ok hkept hop
  exact ⟨fun k hk => hkept.uses hop hk, s', hs', hiff⟩

theorem sessions_started :
    ∃ s, run sessionStep (Session.new 1 .empty)
        [.init, .call (.queueFile (ascii "d") (ascii "a") (ascii "http://h/a") 0 false),
          .call (.poll { running := 0 }), .shutdown, .init] = .ok s ∧ Sound 1 s ∧
      ∀ op, op.Allowed s → (∀ k, op.Uses s k → Registered s.world k) ∧
        ∃ s', sessionStep s op = .ok s' ∧ (Sound 1 s' ↔ op.Drained s) := by
  apply sessions
  refine ⟨⟨rfl, nofun⟩, ?_⟩
  rintro _ ⟨⟩
  refine ⟨⟨⟨rfl, fun _ => by decide, nofun⟩, nofun⟩, ?_⟩
  rintro _ ⟨⟩
  refine ⟨⟨⟨rfl, ⟨by simp, by simp, by simp⟩, nofun⟩, nofun⟩, ?_⟩
  rintro _ ⟨⟩
  refine ⟨⟨rfl, fun _ => by decide⟩, ?_⟩
  rintro _ ⟨⟩
  exact ⟨⟨rfl, nofun⟩, fun _ _ => trivial⟩

/-- A download that still waits at the shutdown leaves its handle behind, and the first poll
after the next `init` hands it to curl. -/
theorem sessions_waiting :
    Permitted sessionStep SessionOp.Allowed (Session.new 1 .empty)
        [.init, .call (.queueFile (ascii "d") (ascii "a") (ascii "http://h/a") 0 false),
          .shutdown, .init, .call (.poll { running := 0 })] ∧
      (∃ s, run sessionStep (Session.new 1 .empty)
          [.init, .call (.queueFile (ascii "d") (ascii "a") (ascii "http://h/a") 0 false),
            .shutdown] = .ok s ∧ s.world.handles = [0] ∧ ¬Sound 1 s) ∧
      run sessionStep (Session.new 1 .empty)
          [.init, .call (.queueFile (ascii "d") (ascii "a") (ascii "http://h/a") 0 false),
            .shutdown, .init, .call (.poll { running := 0 })] = .error .useAfterFree := by
  refine ⟨⟨rfl, ?_⟩, ⟨_, rfl, by decide, ?_⟩, rfl⟩
  · rintro _ ⟨⟩
    refine ⟨⟨rfl, fun _ => by decide, nofun⟩, ?_⟩
    rintro _ ⟨⟩
    refine ⟨rfl, ?_⟩
    rintro _ ⟨⟩
    refine ⟨rfl, ?_⟩
    rintro _ ⟨⟩
    exact ⟨⟨rfl, ⟨by simp, by simp, by simp⟩, nofun⟩, fun _ _ => trivial⟩
  · intro hs
    obtain ⟨u, p, ds, hu, -⟩ := hs.pool 0 (by decide)
    have hnone : (∅ : FileTable)[u]? = some p := hu
    simp at hnone

end LibWfut
