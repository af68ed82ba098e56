import LibWfut.Model.Io
import Mathlib.Data.List.Basic

/-! # The invariant of the download queue

A download is *live* while its `DataStruct` is allocated. While a signal is delivered
the downloads it concerns have left the queue and curl but are still registered; they
are listed in `busy`, which is empty between two calls. -/

namespace LibWfut

open Encoder

/-! ## Signals in the history -/

def Event.signals (p : Ptr) : Event → Bool
  | .queued .. => false
  | .complete q _ _ => q = p
  | .failed q _ _ _ => q = p

/-- The URL and filename a signal passes to the handlers. -/
def Event.args : Event → Bytes × Bytes
  | .queued _ _ u f => (u, f)
  | .complete _ u f => (u, f)
  | .failed _ u f _ => (u, f)

def signalsOf (p : Ptr) (trace : List Event) : List Event :=
  trace.filter (Event.signals p)

/-- Exactly one signal, with these arguments. -/
def SignalledOnce (p : Ptr) (u f : Bytes) (trace : List Event) : Prop :=
  ∃ e, signalsOf p trace = [e] ∧ e.args = (u, f)

theorem signalsOf_append (p : Ptr) (xs ys : List Event) :
    signalsOf p (xs ++ ys) = signalsOf p xs ++ signalsOf p ys :=
  List.filter_append ..

theorem signalsOf_singleton_self {p : Ptr} {e : Event} (h : e.signals p = true) :
    signalsOf p [e] = [e] := by
  simp [signalsOf, h]

theorem signalsOf_singleton_of_not {p : Ptr} {e : Event} (h : e.signals p = false) :
    signalsOf p [e] = [] := by
  simp [signalsOf, h]

theorem Event.signals_of_ne {p q : Ptr} {e : Event} (h : e.signals p = true) (hne : q ≠ p) :
    e.signals q = false := by
  cases e <;> simp_all [Event.signals, eq_comm]

/-- The accepted downloads in the order of their acceptance. -/
def accepted (trace : List Event) : List Ptr :=
  trace.filterMap fun
    | .queued p _ _ _ => some p
    | _ => none

theorem accepted_append (xs ys : List Event) :
    accepted (xs ++ ys) = accepted xs ++ accepted ys :=
  List.filterMap_append ..

theorem mem_accepted {p : Ptr} {trace : List Event} :
    p ∈ accepted trace ↔ ∃ r u f, .queued p r u f ∈ trace := by
  simp only [accepted, List.mem_filterMap]
  constructor
  · rintro ⟨e, he, hp⟩
    cases e with
    | queued q r u f =>
        simp only [Option.some.injEq] at hp
        subst hp
        exact ⟨r, u, f, he⟩
    | complete q u f => simp at hp
    | failed q u f message => simp at hp
  · rintro ⟨r, u, f, he⟩
    exact ⟨_, he, rfl⟩

theorem accepted_signal {p : Ptr} {e : Event} (h : e.signals p = true) : accepted [e] = [] := by
  cases e with
  | queued q r u f => simp [Event.signals] at h
  | complete q u f => rfl
  | failed q u f message => rfl

/-- A signal is not the acceptance of a download. -/
theorem Event.ne_queued {p q : Ptr} {e : Event} (h : e.signals p = true) {r u f : Bytes} :
    Event.queued q r u f ≠ e := by
  rintro rfl
  simp [Event.signals] at h

/-! ## The two halves of the invariant -/

/-- The registry, the queue and curl agree on the live downloads. -/
structure Registry (busy : List Ptr) (w : World) : Prop where
  entry : ∀ u p, w.files[u]? = some p → ∃ ds, w.heap p = some ds ∧ ds.url = u
  registered : ∀ p ds, w.heap p = some ds → w.files[ds.url]? = some p
  handle : ∀ p ds, w.heap p = some ds →
    (ds.handle = some p ∧ ∃ e, w.easy p = some e ∧ e.priv = p) ∨
      (p ∈ busy ∧ ds.handle = none ∧ w.easy p = none)
  pool : ∀ p, p ∈ w.handles ++ w.attached ↔ w.heap p ≠ none ∧ p ∉ busy
  nodup : (w.handles ++ w.attached).Nodup
  msgs_attached : ∀ m ∈ w.msgs, m.handle ∈ w.attached
  msgs_nodup : (w.msgs.map CurlMsg.handle).Nodup
  released : ∀ p, w.heap p = none → w.easy p = none
  unborn : ∀ p, w.fresh ≤ p → w.heap p = none
  busy_live : ∀ p ∈ busy, w.heap p ≠ none

/-- Every accepted download has had its signal exactly when it has left the queue. -/
structure History (busy : List Ptr) (w : World) : Prop where
  accepted : ∀ p ds, w.heap p = some ds →
    ∃ raw, .queued p raw ds.url ds.filename ∈ w.trace ∧ ds.url = encodeURL raw
  unique : ∀ p r u f r' u' f', .queued p r u f ∈ w.trace → .queued p r' u' f' ∈ w.trace →
    r = r' ∧ u = u' ∧ f = f'
  born : ∀ p r u f, .queued p r u f ∈ w.trace → p < w.fresh
  quiet : ∀ p, w.heap p ≠ none → p ∉ busy → signalsOf p w.trace = []
  unborn : ∀ p, w.fresh ≤ p → signalsOf p w.trace = []
  told : ∀ p r u f, .queued p r u f ∈ w.trace → w.heap p = none ∨ p ∈ busy →
    SignalledOnce p u f w.trace

structure Inv (busy : List Ptr) (w : World) : Prop where
  registry : Registry busy w
  history : History busy w

theorem inv_init (n : Int32) (fs : FileTree.FileSystem) : Inv [] (World.init n fs) := by
  constructor
  · constructor <;> simp [World.init]
  · constructor <;> simp [World.init, signalsOf]

/-! ## Consequences -/

namespace Registry

variable {busy : List Ptr} {w : World}

theorem lt_fresh (h : Registry busy w) {p : Ptr} (hp : w.heap p ≠ none) : p < w.fresh := by
  by_contra hlt
  exact hp (h.unborn p (Nat.le_of_not_gt hlt))

/-- A download outside `busy` waits or is attached, and owns its handle. -/
theorem own_handle (h : Registry busy w) {p : Ptr} {ds : DataStruct} (hp : w.heap p = some ds)
    (hb : p ∉ busy) : ds.handle = some p ∧ ∃ e, w.easy p = some e ∧ e.priv = p := by
  rcases h.handle p ds hp with ho | ⟨hb', -⟩
  · exact ho
  · exact absurd hb' hb

theorem easy_of_pool (h : Registry busy w) {p : Ptr} (hp : p ∈ w.handles ++ w.attached) :
    ∃ ds e, w.heap p = some ds ∧ p ∉ busy ∧ ds.handle = some p ∧
      w.easy p = some e ∧ e.priv = p := by
  obtain ⟨hlive, hb⟩ := (h.pool p).mp hp
  obtain ⟨ds, hds⟩ := Option.ne_none_iff_exists'.mp hlive
  obtain ⟨hh, e, he, hpriv⟩ := h.own_handle hds hb
  exact ⟨ds, e, hds, hb, hh, he, hpriv⟩

theorem disjoint (h : Registry busy w) {p : Ptr} (hw : p ∈ w.handles) : p ∉ w.attached :=
  fun ha => (List.nodup_append.mp h.nodup).2.2 p hw p ha rfl

/-- Two live downloads are registered under different keys. -/
theorem url_injective (h : Registry busy w) {p q : Ptr} {ds ds' : DataStruct}
    (hp : w.heap p = some ds) (hq : w.heap q = some ds') (hu : ds.url = ds'.url) : p = q := by
  have hp' := h.registered p ds hp
  rw [hu, h.registered q ds' hq] at hp'
  exact (Option.some.inj hp').symm

end Registry

/-! ## Queuing -/

/-- What the caller has to respect: an accepted URL must not collide with a registered
key once it is encoded. -/
def NoCollision (w : World) (url : Bytes) : Prop :=
  w.files[url]? = none → w.files[encodeURL url]? = none

section Queue

variable {busy : List Ptr} {w : World} {path filename url : Bytes} {crc : ULong} {exec : Bool}

theorem queueFile_refused (h : w.files[url]? ≠ none) :
    queueFile path filename url crc exec w = (1, w) := by
  obtain ⟨p, hp⟩ := Option.ne_none_iff_exists'.mp h
  simp only [queueFile, hp]

theorem queueFile_accepted (h : w.files[url]? = none) :
    (queueFile path filename url crc exec w).1 = 0 := by
  simp only [queueFile, h]

/-- The download a call of `queueFile` registers. -/
def newDataStruct (path filename url : Bytes) (crc : ULong) (exec : Bool) (p : Ptr) :
    DataStruct where
  filename := filename
  path := path
  url := encodeURL url
  executable := exec
  fp := none
  actualCrc32 := crc32 0 []
  expectedCrc32 := crc
  handle := some p

/-- The state after an accepted call. -/
def World.enqueue (w : World) (url : Bytes) (ds : DataStruct) : World :=
  { w with
    fresh := w.fresh + 1
    heap := Function.update w.heap w.fresh (some ds)
    easy := Function.update w.easy w.fresh (some { url := ds.url, priv := w.fresh })
    files := w.files.insert ds.url w.fresh
    handles := w.handles ++ [w.fresh]
    trace := w.trace ++ [.queued w.fresh url ds.url ds.filename] }

theorem queueFile_state (h : w.files[url]? = none) :
    (queueFile path filename url crc exec w).2 =
      w.enqueue url (newDataStruct path filename url crc exec w.fresh) := by
  simp only [queueFile, h]
  rfl

theorem Registry.enqueue (h : Registry busy w) {ds : DataStruct}
    (hfree : w.files[ds.url]? = none) (hh : ds.handle = some w.fresh) :
    Registry busy (w.enqueue url ds) := by
  have hnone : w.heap w.fresh = none := h.unborn _ le_rfl
  have hbusy : w.fresh ∉ busy := fun hb => h.busy_live _ hb hnone
  have hpool : w.fresh ∉ w.handles ++ w.attached := by
    rw [h.pool]
    simp [hnone]
  simp only [List.mem_append, not_or] at hpool
  constructor
  case entry =>
    intro u p hu
    simp only [World.enqueue, Std.ExtTreeMap.getElem?_insert] at hu ⊢
    split at hu
    · rename_i heq
      cases hu
      exact ⟨ds, by simp, Std.LawfulEqCmp.eq_of_compare heq⟩
    · obtain ⟨ds', hds', hu'⟩ := h.entry u p hu
      have hne : p ≠ w.fresh := by
        rintro rfl
        rw [hnone] at hds'
        simp at hds'
      exact ⟨ds', by simpa [hne] using hds', hu'⟩
  case registered =>
    intro p ds' hp
    simp only [World.enqueue, Std.ExtTreeMap.getElem?_insert, Function.update_apply] at hp ⊢
    by_cases hne : p = w.fresh
    · subst hne
      simp only [ite_true, Option.some.injEq] at hp
      simp [hp]
    · rw [if_neg hne] at hp
      have hreg := h.registered p ds' hp
      rw [if_neg]
      · exact hreg
      · intro heq
        rw [← Std.LawfulEqCmp.eq_of_compare heq, hfree] at hreg
        simp at hreg
  case handle =>
    intro p ds' hp
    simp only [World.enqueue, Function.update_apply] at hp ⊢
    by_cases hne : p = w.fresh
    · subst hne
      simp only [ite_true, Option.some.injEq] at hp
      subst hp
      exact .inl ⟨hh, { url := ds.url, priv := w.fresh }, by simp, rfl⟩
    · rw [if_neg hne] at hp ⊢
      exact h.handle p ds' hp
  case pool =>
    intro p
    have hp := h.pool p
    simp only [List.mem_append] at hp
    simp only [World.enqueue, Function.update_apply, List.mem_append, List.mem_singleton]
    by_cases hne : p = w.fresh
    · subst hne
      simp [hbusy]
    · simp [hne, ← hp]
  case nodup =>
    have hn := h.nodup
    simp only [World.enqueue, List.append_assoc, List.singleton_append]
    exact (List.perm_middle.nodup_iff).mpr
      (List.nodup_cons.mpr ⟨by simpa using hpool, hn⟩)
  case msgs_attached => exact h.msgs_attached
  case msgs_nodup => exact h.msgs_nodup
  case released =>
    intro p hp
    simp only [World.enqueue, Function.update_apply] at hp ⊢
    split at hp
    · simp at hp
    · rename_i hne
      rw [if_neg hne]
      exact h.released p hp
  case unborn =>
    intro p hp
    have hlt : w.fresh < p := hp
    simp only [World.enqueue, Function.update_apply]
    rw [if_neg (Nat.ne_of_gt hlt)]
    exact h.unborn p hlt.le
  case busy_live =>
    intro p hp
    have hne : p ≠ w.fresh := fun heq => hbusy (heq ▸ hp)
    simpa [World.enqueue, hne] using h.busy_live p hp

theorem History.enqueue (hr : Registry busy w) (h : History busy w) {ds : DataStruct}
    (hurl : ds.url = encodeURL url) : History busy (w.enqueue url ds) := by
  have hnone : w.heap w.fresh = none := hr.unborn _ le_rfl
  have hbusy : w.fresh ∉ busy := fun hb => hr.busy_live _ hb hnone
  have hsignals : ∀ p, signalsOf p (w.enqueue url ds).trace = signalsOf p w.trace := by
    intro p
    simp [World.enqueue, signalsOf, Event.signals]
  have hold : ∀ {p r u f}, p ≠ w.fresh →
      Event.queued p r u f ∈ (w.enqueue url ds).trace → Event.queued p r u f ∈ w.trace := by
    intro p r u f hne hm
    simpa [World.enqueue, hne] using hm
  have hnew : ∀ {r u f}, Event.queued w.fresh r u f ∈ (w.enqueue url ds).trace →
      r = url ∧ u = ds.url ∧ f = ds.filename := by
    intro r u f hm
    rcases List.mem_append.mp hm with hm | hm
    · exact absurd (h.born _ _ _ _ hm) (lt_irrefl _)
    · simpa using hm
  constructor
  case accepted =>
    intro p ds' hp
    simp only [World.enqueue, Function.update_apply] at hp ⊢
    split at hp
    · rename_i heq
      cases hp
      exact ⟨url, by simp [heq], hurl⟩
    · obtain ⟨raw, hm, hu⟩ := h.accepted p ds' hp
      exact ⟨raw, List.mem_append_left _ hm, hu⟩
  case unique =>
    intro p r u f r' u' f' hm hm'
    by_cases hne : p = w.fresh
    · subst hne
      obtain ⟨rfl, rfl, rfl⟩ := hnew hm
      obtain ⟨rfl, rfl, rfl⟩ := hnew hm'
      exact ⟨rfl, rfl, rfl⟩
    · exact h.unique p r u f r' u' f' (hold hne hm) (hold hne hm')
  case born =>
    intro p r u f hm
    by_cases hne : p = w.fresh
    · simp [hne, World.enqueue]
    · exact Nat.lt_succ_of_lt (h.born p r u f (hold hne hm))
  case quiet =>
    intro p hp hb
    rw [hsignals]
    by_cases hne : p = w.fresh
    · exact hne ▸ h.unborn _ le_rfl
    · exact h.quiet p (by simpa [World.enqueue, hne] using hp) hb
  case unborn =>
    intro p hp
    rw [hsignals]
    exact h.unborn p (Nat.le_of_succ_le hp)
  case told =>
    intro p r u f hm hp
    have hne : p ≠ w.fresh := by
      rintro rfl
      simp [World.enqueue, hbusy] at hp
    unfold SignalledOnce
    rw [hsignals]
    exact h.told p r u f (hold hne hm) (by simpa [World.enqueue, hne] using hp)

/-- Queuing keeps the invariant, also while a signal is delivered. -/
theorem Inv.queueFile (h : Inv busy w) (hc : NoCollision w url) :
    Inv busy (queueFile path filename url crc exec w).2 := by
  by_cases hu : w.files[url]? = none
  · rw [queueFile_state hu]
    exact ⟨h.registry.enqueue (hc hu) rfl, h.history.enqueue h.registry rfl⟩
  · rw [queueFile_refused hu]
    exact h

end Queue

/-! ## A download leaves the queue -/

/-- The state in which the final signal of `p` is sent: it has left the queue and curl,
its `DataStruct` holds `ds`, and `easy` are the easy handles left. -/
def World.withdraw (w : World) (p : Ptr) (ds : DataStruct)
    (easy : Handle → Option EasyHandle) : World :=
  { w with
    handles := w.handles.erase p
    attached := w.attached.erase p
    msgs := w.msgs.filter fun m => m.handle ≠ p
    heap := Function.update w.heap p (some ds)
    easy := easy }

section Withdraw

variable {busy : List Ptr} {w : World} {p : Ptr} {ds ds' : DataStruct}

theorem Registry.withdraw (h : Registry busy w) (hp : w.heap p = some ds)
    (hurl : ds'.url = ds.url)
    {easy : Handle → Option EasyHandle} (heasy : ∀ q, q ≠ p → easy q = w.easy q)
    (hh : (ds'.handle = some p ∧ ∃ e, easy p = some e ∧ e.priv = p) ∨
      (ds'.handle = none ∧ easy p = none)) :
    Registry (p :: busy) (w.withdraw p ds' easy) := by
  have hheap : ∀ q, q ≠ p → (w.withdraw p ds' easy).heap q = w.heap q := by
    intro q hq
    simp [World.withdraw, hq]
  have hself : (w.withdraw p ds' easy).heap p = some ds' := by simp [World.withdraw]
  constructor
  case entry =>
    intro u q hu
    obtain ⟨d, hd, hdu⟩ := h.entry u q hu
    by_cases hq : q = p
    · subst hq
      rw [hp] at hd
      cases hd
      exact ⟨ds', hself, hurl.trans hdu⟩
    · exact ⟨d, by rw [hheap q hq, hd], hdu⟩
  case registered =>
    intro q d hd
    by_cases hq : q = p
    · subst hq
      rw [hself] at hd
      cases hd
      rw [hurl]
      exact h.registered _ _ hp
    · rw [hheap q hq] at hd
      exact h.registered q d hd
  case handle =>
    intro q d hd
    by_cases hq : q = p
    · subst hq
      rw [hself] at hd
      cases hd
      rcases hh with hh | hh
      · exact .inl hh
      · exact .inr ⟨by simp, hh⟩
    · rw [hheap q hq] at hd
      simp only [World.withdraw, heasy q hq, List.mem_cons, hq, false_or]
      exact h.handle q d hd
  case pool =>
    intro q
    have hq := h.pool q
    obtain ⟨hnw, hna, -⟩ := List.nodup_append.mp h.nodup
    simp only [List.mem_append] at hq
    simp only [World.withdraw, List.mem_append, hnw.mem_erase_iff, hna.mem_erase_iff,
      List.mem_cons, not_or, Function.update_apply]
    by_cases hqp : q = p
    · simp [hqp]
    · simp [hqp, ← hq]
  case nodup => exact h.nodup.sublist (List.erase_sublist.append List.erase_sublist)
  case msgs_attached =>
    intro m hm
    obtain ⟨hm, hne⟩ := List.mem_filter.mp hm
    exact (List.mem_erase_of_ne (by simpa using hne)).mpr (h.msgs_attached m hm)
  case msgs_nodup => exact h.msgs_nodup.sublist (List.filter_sublist.map _)
  case released =>
    intro q hq
    have hqp : q ≠ p := by
      rintro rfl
      rw [hself] at hq
      simp at hq
    rw [hheap q hqp] at hq
    exact (heasy q hqp).trans (h.released q hq)
  case unborn =>
    intro q hq
    have hqp : q ≠ p := by
      rintro rfl
      rw [h.unborn _ hq] at hp
      simp at hp
    rw [hheap q hqp]
    exact h.unborn q hq
  case busy_live =>
    intro q hq
    by_cases hqp : q = p
    · rw [hqp, hself]
      simp
    · rw [hheap q hqp]
      rcases List.mem_cons.mp hq with hq | hq
      · exact absurd hq hqp
      · exact h.busy_live q hq

theorem History.withdraw (hr : Registry busy w) (h : History busy w) (hp : w.heap p = some ds)
    (hb : p ∉ busy) (hurl : ds'.url = ds.url) (hname : ds'.filename = ds.filename)
    (easy : Handle → Option EasyHandle) {e : Event} (he : e.signals p = true)
    (hargs : e.args = (ds.url, ds.filename)) :
    History (p :: busy) ((w.withdraw p ds' easy).log e) := by
  have hmem : ∀ {q r u f}, Event.queued q r u f ∈ w.trace ++ [e] ↔
      Event.queued q r u f ∈ w.trace := by
    intro q r u f
    simp [Event.ne_queued he]
  have hsame : ∀ {q}, q ≠ p → signalsOf q (w.trace ++ [e]) = signalsOf q w.trace := by
    intro q hq
    rw [signalsOf_append, signalsOf_singleton_of_not (Event.signals_of_ne he hq),
      List.append_nil]
  have hheap : ∀ q, q ≠ p → (w.withdraw p ds' easy).heap q = w.heap q := by
    intro q hq
    simp [World.withdraw, hq]
  constructor
  case accepted =>
    intro q d hd
    by_cases hq : q = p
    · subst hq
      have hd' : ds' = d := by simpa [World.log, World.withdraw] using hd
      subst hd'
      obtain ⟨raw, hm, hu⟩ := h.accepted _ _ hp
      exact ⟨raw, hmem.mpr (by rwa [hurl, hname]), hurl.trans hu⟩
    · obtain ⟨raw, hm, hu⟩ := h.accepted q d ((hheap q hq).symm.trans hd)
      exact ⟨raw, hmem.mpr hm, hu⟩
  case unique =>
    intro q r u f r' u' f' hm hm'
    exact h.unique q r u f r' u' f' (hmem.mp hm) (hmem.mp hm')
  case born =>
    intro q r u f hm
    exact h.born q r u f (hmem.mp hm)
  case quiet =>
    intro q hlive hq
    simp only [List.mem_cons, not_or] at hq
    refine (hsame hq.1).trans (h.quiet q ?_ hq.2)
    intro hnone
    exact hlive ((hheap q hq.1).trans hnone)
  case unborn =>
    intro q hq
    have hqp : q ≠ p := by
      rintro rfl
      exact absurd (hr.lt_fresh (by simp [hp])) (Nat.not_lt.mpr hq)
    exact (hsame hqp).trans (h.unborn q hq)
  case told =>
    intro q r u f hm hq
    unfold SignalledOnce
    by_cases hqp : q = p
    · subst hqp
      obtain ⟨raw, hm', -⟩ := h.accepted _ _ hp
      obtain ⟨-, rfl, rfl⟩ := h.unique _ _ _ _ _ _ _ (hmem.mp hm) hm'
      refine ⟨e, ?_, hargs⟩
      change signalsOf q (w.trace ++ [e]) = [e]
      rw [signalsOf_append, h.quiet q (by simp [hp]) hb, signalsOf_singleton_self he]
      rfl
    · change ∃ e', signalsOf q (w.trace ++ [e]) = [e'] ∧ _
      rw [hsame hqp]
      refine h.told q r u f (hmem.mp hm) ?_
      rcases hq with hq | hq
      · exact .inl ((hheap q hqp).symm.trans hq)
      · exact .inr ((List.mem_cons.mp hq).resolve_left hqp)

/-- Withdrawing a download and sending its signal moves it to `busy`. -/
theorem Inv.withdraw (h : Inv busy w) (hp : w.heap p = some ds) (hb : p ∉ busy)
    (hurl : ds'.url = ds.url) (hname : ds'.filename = ds.filename)
    {easy : Handle → Option EasyHandle} (heasy : ∀ q, q ≠ p → easy q = w.easy q)
    (hh : (ds'.handle = some p ∧ ∃ e, easy p = some e ∧ e.priv = p) ∨
      (ds'.handle = none ∧ easy p = none))
    {e : Event} (he : e.signals p = true) (hargs : e.args = (ds.url, ds.filename)) :
    Inv (p :: busy) ((w.withdraw p ds' easy).log e) := by
  have hr := h.registry.withdraw hp hurl heasy hh
  exact ⟨{ hr with }, h.history.withdraw h.registry hp hb hurl hname easy he hargs⟩

end Withdraw

/-! ## A download is released -/

/-- The state after the release of `p`, registered under `u`. -/
def World.discard (w : World) (p : Ptr) (u : Bytes) : World :=
  { w with
    files := w.files.erase u
    easy := Function.update w.easy p none
    heap := Function.update w.heap p none }

section Discard

variable {busy : List Ptr} {w : World} {p : Ptr} {ds : DataStruct}

theorem World.heap_discard_of_ne {q : Ptr} (hq : q ≠ p) (u : Bytes) :
    (w.discard p u).heap q = w.heap q := by
  simp [World.discard, hq]

@[simp] theorem World.heap_discard_self (u : Bytes) : (w.discard p u).heap p = none := by
  simp [World.discard]

/-- What lives after a release was another download. -/
theorem World.ne_of_heap_discard {q : Ptr} {u : Bytes} (hq : (w.discard p u).heap q ≠ none) :
    q ≠ p := by
  rintro rfl
  exact hq (World.heap_discard_self u)

/-- The entries that a release leaves are those of the other downloads. -/
theorem World.entry_discard
    (h : ∀ u q, w.files[u]? = some q → ∃ d, w.heap q = some d ∧ d.url = u)
    (hp : w.heap p = some ds) {u : Bytes} {q : Ptr}
    (hu : (w.discard p ds.url).files[u]? = some q) :
    ∃ d, (w.discard p ds.url).heap q = some d ∧ d.url = u := by
  simp only [World.discard, Std.ExtTreeMap.getElem?_erase] at hu
  split at hu
  · simp at hu
  · rename_i hne
    obtain ⟨d, hd, hdu⟩ := h u q hu
    have hqp : q ≠ p := by
      rintro rfl
      rw [hp] at hd
      cases hd
      exact hne (by simp [hdu])
    exact ⟨d, by rw [World.heap_discard_of_ne hqp, hd], hdu⟩

/-- The other downloads keep their entries. -/
theorem World.registered_discard (h : ∀ q d, w.heap q = some d → w.files[d.url]? = some q)
    (hp : w.heap p = some ds) {q : Ptr} {d : DataStruct}
    (hd : (w.discard p ds.url).heap q = some d) :
    (w.discard p ds.url).files[d.url]? = some q := by
  have hqp : q ≠ p := World.ne_of_heap_discard (by rw [hd]; simp)
  rw [World.heap_discard_of_ne hqp] at hd
  simp only [World.discard, Std.ExtTreeMap.getElem?_erase]
  rw [if_neg]
  · exact h q d hd
  · intro heq
    have hreg := h q d hd
    rw [← Std.LawfulEqCmp.eq_of_compare heq, h p ds hp] at hreg
    exact hqp (Option.some.inj hreg).symm

/-- What is not live has no easy handle either. -/
theorem World.released_discard (h : ∀ q, w.heap q = none → w.easy q = none) (u : Bytes) {q : Ptr}
    (hq : (w.discard p u).heap q = none) : (w.discard p u).easy q = none := by
  by_cases hqp : q = p
  · simp [World.discard, hqp]
  · rw [World.heap_discard_of_ne hqp] at hq
    simpa [World.discard, hqp] using h q hq

theorem Registry.discard (h : Registry (p :: busy) w) (hp : w.heap p = some ds) (hb : p ∉ busy) :
    Registry busy (w.discard p ds.url) := by
  constructor
  case entry => exact fun u q hu => World.entry_discard h.entry hp hu
  case registered => exact fun q d hd => World.registered_discard h.registered hp hd
  case handle =>
    intro q d hd
    have hqp : q ≠ p := World.ne_of_heap_discard (by rw [hd]; simp)
    rw [World.heap_discard_of_ne hqp] at hd
    rcases h.handle q d hd with ho | ⟨hq, ho⟩
    · exact .inl (by simpa [World.discard, hqp] using ho)
    · exact .inr ⟨(List.mem_cons.mp hq).resolve_left hqp,
        by simpa [World.discard, hqp] using ho⟩
  case pool =>
    intro q
    have hq := h.pool q
    simp only [List.mem_cons, not_or] at hq
    change q ∈ w.handles ++ w.attached ↔ _
    rw [hq]
    by_cases hqp : q = p
    · simp [hqp]
    · simp [hqp, World.heap_discard_of_ne hqp]
  case nodup => exact h.nodup
  case msgs_attached => exact h.msgs_attached
  case msgs_nodup => exact h.msgs_nodup
  case released => exact fun q hq => World.released_discard h.released ds.url hq
  case unborn =>
    intro q hq
    by_cases hqp : q = p
    · rw [hqp, World.heap_discard_self]
    · rw [World.heap_discard_of_ne hqp]
      exact h.unborn q hq
  case busy_live =>
    intro q hq
    have hqp : q ≠ p := fun heq => hb (heq ▸ hq)
    rw [World.heap_discard_of_ne hqp]
    exact h.busy_live q (List.mem_cons_of_mem _ hq)

theorem History.discard (h : History (p :: busy) w) (u : Bytes) :
    History busy (w.discard p u) := by
  constructor
  case accepted =>
    intro q d hd
    have hqp : q ≠ p := World.ne_of_heap_discard (by rw [hd]; simp)
    exact h.accepted q d ((World.heap_discard_of_ne hqp u).symm.trans hd)
  case unique => exact h.unique
  case born => exact h.born
  case quiet =>
    intro q hq hqb
    have hqp := World.ne_of_heap_discard hq
    rw [World.heap_discard_of_ne hqp] at hq
    exact h.quiet q hq (by simp [hqp, hqb])
  case unborn => exact h.unborn
  case told =>
    intro q r v f hm hq
    refine h.told q r v f hm ?_
    by_cases hqp : q = p
    · exact .inr (by simp [hqp])
    · rcases hq with hq | hq
      · exact .inl ((World.heap_discard_of_ne hqp u).symm.trans hq)
      · exact .inr (List.mem_cons_of_mem _ hq)

theorem Inv.discard (h : Inv (p :: busy) w) (hp : w.heap p = some ds) (hb : p ∉ busy) :
    Inv busy (w.discard p ds.url) :=
  ⟨h.registry.discard hp hb, h.history.discard ds.url⟩

end Discard

end LibWfut
