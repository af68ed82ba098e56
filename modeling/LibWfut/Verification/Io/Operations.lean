import LibWfut.Verification.Io.Invariant
import Mathlib.Data.List.Nodup

/-! # What one operation does

Every operation that ends a download withdraws it from the queue, sends its signal and
releases it. The lemmas are stated for any delivery of signals that keeps the
invariant, so that they hold with handlers that call back as well. -/

namespace LibWfut

open List Machine

namespace World

theorem deref_eq {w : World} {p : Ptr} {ds : DataStruct} (h : w.heap p = some ds) :
    w.deref p = .ok ds := by
  simp only [deref, h]

theorem delete_eq {w : World} {p : Ptr} {ds : DataStruct} (h : w.heap p = some ds) :
    w.delete p = .ok { w with heap := Function.update w.heap p none } := by
  simp only [delete, h]

theorem eraseEntry_eq {w : World} {k : Bytes} {p : Ptr} (h : w.files[k]? = some p) :
    w.eraseEntry k = .ok { w with files := w.files.erase k } := by
  simp only [eraseEntry, h]

theorem easyCleanup_eq {w : World} {p : Handle} {e : EasyHandle} (h : w.easy p = some e) :
    w.easyCleanup p = .ok { w with easy := Function.update w.easy p none } := by
  simp only [easyCleanup, h]

theorem multiRemoveHandle_eq {w : World} {p : Handle} {e : EasyHandle}
    (h : w.easy p = some e) :
    w.multiRemoveHandle p = .ok
      { w with
        attached := w.attached.erase p
        msgs := w.msgs.filter fun m => m.handle ≠ p } := by
  simp only [multiRemoveHandle, h]

/-- The downloads that have not left the queue. -/
def pending (w : World) : ℕ := w.handles.length + w.attached.length

end World

/-! ## Deliveries -/

/-- Downloads outside `busy` may leave; nothing else happens. -/
structure Shrinks (busy : List Ptr) (w w' : World) : Prop where
  heap : ∀ p, w'.heap p = w.heap p ∨ (w'.heap p = none ∧ p ∉ busy)
  easy : ∀ p ∈ busy, w'.easy p = w.easy p
  handles : w'.handles <+ w.handles
  attached : w'.attached <+ w.attached
  msgs : w'.msgs <+ w.msgs
  kept : ∀ m ∈ w.msgs, w'.heap m.handle ≠ none → m ∈ w'.msgs
  fresh : w'.fresh = w.fresh
  numToProcess : w'.numToProcess = w.numToProcess
  trace : w.trace <+: w'.trace
  accepted : accepted w'.trace = accepted w.trace

namespace Shrinks

variable {busy : List Ptr} {w w' w'' : World}

theorem refl (busy : List Ptr) (w : World) : Shrinks busy w w :=
  ⟨fun _ => .inl rfl, fun _ _ => rfl, .refl _, .refl _, .refl _, fun _ hm _ => hm, rfl, rfl,
    List.prefix_rfl, rfl⟩

theorem trans (h : Shrinks busy w w') (h' : Shrinks busy w' w'') : Shrinks busy w w'' where
  heap := by
    intro p
    rcases h'.heap p with hp | hp
    · rw [hp]
      exact h.heap p
    · exact .inr hp
  easy p hp := (h'.easy p hp).trans (h.easy p hp)
  handles := h'.handles.trans h.handles
  attached := h'.attached.trans h.attached
  msgs := h'.msgs.trans h.msgs
  kept := by
    intro m hm hlive
    refine h'.kept m (h.kept m hm ?_) hlive
    intro hnone
    rcases h'.heap m.handle with hp | ⟨hp, -⟩
    · exact hlive (hp.trans hnone)
    · exact hlive hp
  fresh := h'.fresh.trans h.fresh
  numToProcess := h'.numToProcess.trans h.numToProcess
  trace := h.trace.trans h'.trace
  accepted := h'.accepted.trans h.accepted

theorem heap_busy (h : Shrinks busy w w') {p : Ptr} (hp : p ∈ busy) :
    w'.heap p = w.heap p := by
  rcases h.heap p with h | ⟨-, hb⟩
  · exact h
  · exact absurd hp hb

theorem heap_some (h : Shrinks busy w w') {p : Ptr} {ds : DataStruct}
    (hp : w'.heap p = some ds) : w.heap p = some ds := by
  rcases h.heap p with h | ⟨hn, -⟩
  · rw [← h, hp]
  · rw [hn] at hp
    simp at hp

theorem pending_le (h : Shrinks busy w w') : w'.pending ≤ w.pending :=
  Nat.add_le_add h.handles.length_le h.attached.length_le

/-- No entry of the registry is new. -/
theorem files_some {busy' : List Ptr} (h : Shrinks busy w w') (hr : Registry busy' w)
    (hr' : Registry busy' w') {u : Bytes} {p : Ptr} (hu : w'.files[u]? = some p) :
    w.files[u]? = some p := by
  obtain ⟨ds, hds, rfl⟩ := hr'.entry u p hu
  exact hr.registered p ds (h.heap_some hds)

end Shrinks

/-- A delivery that keeps the invariant while fewer than `bound` downloads are in the
queue. -/
def Delivers (emit : Emit) (bound : ℕ) : Prop :=
  ∀ busy w e, Inv busy (w.log e) → w.pending < bound →
    ∃ w', emit e w = .ok w' ∧ Inv busy w' ∧ Shrinks busy (w.log e) w'

theorem delivers_signal (bound : ℕ) : Delivers signal bound :=
  fun busy w e hi _ => ⟨w.log e, rfl, hi, .refl busy _⟩

/-! ## Withdraw, signal, release -/

section Retire

variable {busy : List Ptr} {w : World} {p : Ptr} {ds ds' : DataStruct}
  {easy : Handle → Option EasyHandle} {e : Event} {emit : Emit} {bound : ℕ}

theorem Registry.mem_pool (h : Registry busy w) (hp : w.heap p = some ds) (hb : p ∉ busy) :
    p ∈ w.handles ++ w.attached :=
  (h.pool p).mpr ⟨by simp [hp], hb⟩

/-- A withdrawn download was waiting or attached, but not both. -/
theorem Registry.pending_withdraw (h : Registry busy w) (hp : w.heap p = some ds)
    (hb : p ∉ busy) (ds' : DataStruct) (easy : Handle → Option EasyHandle) :
    (w.withdraw p ds' easy).pending + 1 = w.pending := by
  have hm := h.mem_pool hp hb
  simp only [World.pending, World.withdraw]
  rcases List.mem_append.mp hm with hw | ha
  · rw [List.erase_of_not_mem (h.disjoint hw)]
    have := List.length_erase_add_one hw
    omega
  · have hw : p ∉ w.handles := fun hw => h.disjoint hw ha
    rw [List.erase_of_not_mem hw]
    have := List.length_erase_add_one ha
    omega

/-- The common course of all operations that end a download `p`. -/
structure Retired (busy : List Ptr) (w : World) (p : Ptr) (ds' : DataStruct)
    (easy : Handle → Option EasyHandle) (e : Event) (w₂ : World) : Prop where
  inv : Inv (p :: busy) w₂
  shrinks : Shrinks (p :: busy) ((w.withdraw p ds' easy).log e) w₂
  inv_discard : Inv busy (w₂.discard p ds'.url)
  shrinks_discard : Shrinks busy w (w₂.discard p ds'.url)

theorem Retired.heap_eq {w₂ : World} (h : Retired busy w p ds' easy e w₂) :
    w₂.heap p = some ds' := by
  rw [h.shrinks.heap_busy (by simp)]
  simp [World.log, World.withdraw]

theorem Retired.easy_eq {w₂ : World} (h : Retired busy w p ds' easy e w₂) :
    w₂.easy p = easy p :=
  h.shrinks.easy p (by simp)

theorem Retired.files_eq {w₂ : World} (h : Retired busy w p ds' easy e w₂) :
    w₂.files[ds'.url]? = some p :=
  h.inv.registry.registered p ds' h.heap_eq

theorem Inv.retire (h : Inv busy w) (hd : Delivers emit bound) (hbound : w.pending ≤ bound)
    (hp : w.heap p = some ds) (hb : p ∉ busy)
    (ds' : DataStruct) (easy : Handle → Option EasyHandle)
    (hurl : ds'.url = ds.url) (hname : ds'.filename = ds.filename)
    (heasy : ∀ q, q ≠ p → easy q = w.easy q)
    (hh : (ds'.handle = some p ∧ ∃ e, easy p = some e ∧ e.priv = p) ∨
      (ds'.handle = none ∧ easy p = none))
    (he : e.signals p = true) (hargs : e.args = (ds.url, ds.filename)) :
    ∃ w₂, emit e (w.withdraw p ds' easy) = .ok w₂ ∧ Retired busy w p ds' easy e w₂ := by
  have hpend := h.registry.pending_withdraw hp hb ds' easy
  obtain ⟨w₂, hemit, hinv, hshr⟩ := hd (p :: busy) (w.withdraw p ds' easy) e
    (h.withdraw hp hb hurl hname heasy hh he hargs) (by omega)
  have hheap : w₂.heap p = some ds' := by
    rw [hshr.heap_busy (by simp)]
    simp [World.log, World.withdraw]
  refine ⟨w₂, hemit, hinv, hshr, hinv.discard hheap hb, ?_⟩
  constructor
  case heap =>
    intro q
    by_cases hq : q = p
    · subst hq
      exact .inr ⟨by simp [World.discard], hb⟩
    · rcases hshr.heap q with hs | ⟨hn, hq'⟩
      · exact .inl (by simpa [World.discard, World.log, World.withdraw, hq] using hs)
      · exact .inr ⟨by simp [World.discard, hq, hn], fun hb' => hq' (by simp [hb'])⟩
  case easy =>
    intro q hq
    have hqp : q ≠ p := fun heq => hb (heq ▸ hq)
    have hs := hshr.easy q (List.mem_cons_of_mem _ hq)
    simpa [World.discard, World.log, World.withdraw, hqp, heasy q hqp] using hs
  case handles => exact hshr.handles.trans List.erase_sublist
  case attached => exact hshr.attached.trans List.erase_sublist
  case msgs => exact hshr.msgs.trans List.filter_sublist
  case kept =>
    intro m hm hlive
    have hmp : m.handle ≠ p := by
      intro heq
      simp [World.discard, heq] at hlive
    refine hshr.kept m (List.mem_filter.mpr ⟨hm, by simpa using hmp⟩) ?_
    simpa [World.discard, hmp] using hlive
  case fresh => exact hshr.fresh
  case numToProcess => exact hshr.numToProcess
  case trace => exact (List.prefix_append _ _).trans hshr.trace
  case accepted =>
    refine hshr.accepted.trans ?_
    change LibWfut.accepted (w.trace ++ [e]) = _
    rw [accepted_append, accepted_signal he, List.append_nil]

end Retire

/-! ## Aborting -/

section Abort

variable {busy : List Ptr} {w : World} {p : Ptr} {ds : DataStruct} {emit : Emit} {bound : ℕ}

/-- What `abortDownload(DataStruct*)` leaves in the `DataStruct`. -/
def DataStruct.aborted (ds : DataStruct) : DataStruct :=
  { ds with handle := none, fp := none }

def World.withdrawAborted (w : World) (p : Ptr) (ds : DataStruct) : World :=
  w.withdraw p ds.aborted (Function.update w.easy p none)

def abortedEvent (p : Ptr) (ds : DataStruct) : Event :=
  .failed p ds.url ds.filename (ascii "Aborted")

theorem Registry.filter_msgs (h : Registry busy w) (hp : p ∉ w.attached) :
    (w.msgs.filter fun m => m.handle ≠ p) = w.msgs := by
  apply List.filter_eq_self.mpr
  intro m hm
  simp only [ne_eq, decide_not, Bool.not_eq_eq_eq_not, Bool.not_true, decide_eq_false_iff_not]
  rintro rfl
  exact hp (h.msgs_attached m hm)

theorem releaseTransfer_eq (h : Registry busy w) (hp : w.heap p = some ds) (hb : p ∉ busy) :
    releaseTransfer p w = .ok (w.withdrawAborted p ds) := by
  obtain ⟨hh, e, he, -⟩ := h.own_handle hp hb
  unfold releaseTransfer
  rw [World.deref_eq hp]
  simp only [ok_bind, hh]
  by_cases hw : p ∈ w.handles
  · have ha := h.disjoint hw
    have he' : ({ w with handles := w.handles.erase p } : World).easy p = some e := he
    simp only [hw, ite_true, ok_bind, World.easyCleanup_eq he']
    simp only [World.store, World.deref, Function.update_self, ok_bind, Function.update_idem,
      World.withdrawAborted, World.withdraw, List.erase_of_not_mem ha, h.filter_msgs ha,
      DataStruct.aborted]
  · simp only [hw, ite_false, World.multiRemoveHandle_eq he, ok_bind]
    have he' : ({ w with
        attached := w.attached.erase p
        msgs := w.msgs.filter fun m => m.handle ≠ p } : World).easy p = some e := he
    rw [World.easyCleanup_eq he']
    simp only [World.store, World.deref, Function.update_self, ok_bind, Function.update_idem,
      World.withdrawAborted, World.withdraw, List.erase_of_not_mem hw, DataStruct.aborted]

theorem abortDataStruct_eq (h : Registry busy w) (hp : w.heap p = some ds) (hb : p ∉ busy) :
    abortDataStruct emit p w = emit (abortedEvent p ds) (w.withdrawAborted p ds) := by
  unfold abortDataStruct
  rw [releaseTransfer_eq h hp hb]
  have hheap : (w.withdrawAborted p ds).heap p = some ds.aborted := by
    simp [World.withdrawAborted, World.withdraw]
  rw [ok_bind, World.deref_eq hheap]
  rfl

theorem Inv.retire_aborted (h : Inv busy w) (hd : Delivers emit bound)
    (hbound : w.pending ≤ bound) (hp : w.heap p = some ds) (hb : p ∉ busy) :
    ∃ w₂, abortDataStruct emit p w = .ok w₂ ∧
      Retired busy w p ds.aborted (Function.update w.easy p none) (abortedEvent p ds) w₂ := by
  rw [abortDataStruct_eq h.registry hp hb]
  exact h.retire hd hbound hp hb _ _ rfl rfl (fun q hq => Function.update_of_ne hq ..)
    (.inr ⟨rfl, Function.update_self ..⟩) (by simp [abortedEvent, Event.signals]) rfl

/-- The two releases after an aborted signal are those of `discard`. -/
theorem Retired.delete_erase {w₂ : World}
    (h : Retired busy w p ds.aborted (Function.update w.easy p none) (abortedEvent p ds) w₂) :
    (w₂.delete p >>= fun w => w.eraseEntry ds.url) = .ok (w₂.discard p ds.url) := by
  have heasy : w₂.easy p = none := h.easy_eq.trans (Function.update_self ..)
  rw [World.delete_eq h.heap_eq, ok_bind]
  have hf : ({ w₂ with heap := Function.update w₂.heap p none } : World).files[ds.url]? =
      some p := h.files_eq
  rw [World.eraseEntry_eq hf]
  simp only [World.discard]
  rw [← heasy, Function.update_eq_self]

/-- Aborting one registered download outside `busy`. -/
theorem abortDownload_ok (h : Inv busy w) (hd : Delivers emit bound)
    (hbound : w.pending ≤ bound) {url : Bytes} (hu : w.files[url]? = some p) (hb : p ∉ busy) :
    ∃ w', abortDownload emit url w = .ok w' ∧ Inv busy w' ∧ Shrinks busy w w' ∧
      w'.heap p = none := by
  obtain ⟨ds, hp, rfl⟩ := h.registry.entry url p hu
  obtain ⟨w₂, hemit, hret⟩ := h.retire_aborted hd hbound hp hb
  refine ⟨w₂.discard p ds.url, ?_, hret.inv_discard, hret.shrinks_discard, ?_⟩
  · simp only [abortDownload, hu, hemit, ok_bind]
    exact hret.delete_erase
  · simp [World.discard]

theorem abortDownload_absent {url : Bytes} (hu : w.files[url]? = none) :
    abortDownload emit url w = .ok w := by
  simp only [abortDownload, hu]

end Abort

/-! ## Aborting everything -/

section AbortAll

variable {busy : List Ptr} {w : World} {p : Ptr} {emit : Emit} {bound : ℕ}

/-- While the signal of `p` is delivered no key is registered that was not before. -/
theorem Retired.files_subset {ds ds' : DataStruct} {easy : Handle → Option EasyHandle}
    {e : Event} {w₂ : World} (h : Retired busy w p ds' easy e w₂) (hr : Registry busy w)
    (hp : w.heap p = some ds) (hurl : ds'.url = ds.url) (k : Bytes)
    (hk : w₂.files[k]? ≠ none) : w.files[k]? ≠ none := by
  obtain ⟨q, hq⟩ := Option.ne_none_iff_exists'.mp hk
  obtain ⟨d, hd, rfl⟩ := h.inv.registry.entry k q hq
  by_cases hqp : q = p
  · subst hqp
    rw [h.heap_eq, Option.some.injEq] at hd
    rw [← hd, hurl, hr.registered _ _ hp]
    simp
  · have hd' := h.shrinks.heap_some hd
    simp only [World.log, World.withdraw, Function.update_of_ne hqp] at hd'
    rw [hr.registered q d hd']
    simp

/-- One turn of the loop in `abortAll`: the first entry is still the first one when it
is erased. -/
theorem abortFirst_ok (h : Inv [] w) (hd : Delivers emit bound) (hbound : w.pending ≤ bound)
    {u : Bytes} (hf : OrderedMap.first w.files = some (u, p)) :
    ∃ w', abortFirst emit p w = .ok w' ∧ Inv [] w' ∧ Shrinks [] w w' ∧
      w'.heap p = none ∧ w'.pending < w.pending := by
  obtain ⟨ds, hp, rfl⟩ := h.registry.entry u p (OrderedMap.getElem?_of_first hf)
  obtain ⟨w₂, hemit, hret⟩ := h.retire_aborted hd hbound hp (by simp)
  have hfirst : OrderedMap.first w₂.files = some (ds.url, p) :=
    OrderedMap.first_of_subset hf hret.files_eq
      (hret.files_subset h.registry hp rfl)
  refine ⟨w₂.discard p ds.url, ?_, hret.inv_discard, hret.shrinks_discard, ?_, ?_⟩
  · have hrel := hret.delete_erase
    rw [World.delete_eq hret.heap_eq, ok_bind] at hrel
    simp only [abortFirst, hemit, ok_bind, World.delete_eq hret.heap_eq, hfirst]
    exact hrel
  · simp [World.discard]
  · have hpend := h.registry.pending_withdraw hp (by simp) ds.aborted
      (Function.update w.easy p none)
    have hle : w₂.pending ≤ (w.withdraw p ds.aborted (Function.update w.easy p none)).pending :=
      hret.shrinks.pending_le
    change w₂.pending < w.pending
    omega

theorem abortAll_ok (h : Inv [] w) (hd : Delivers emit bound) (hbound : w.pending ≤ bound)
    {fuel : ℕ} (hfuel : w.pending ≤ fuel) :
    ∃ w', abortAll emit fuel w = .ok w' ∧ Inv [] w' ∧ Shrinks [] w w' ∧
      ∀ q, w'.heap q = none := by
  induction fuel generalizing w with
  | zero =>
      have hempty : ∀ q, w.heap q = none := by
        intro q
        by_contra hlive
        have hm := (h.registry.pool q).mpr ⟨hlive, by simp⟩
        have hlen := List.length_pos_of_mem hm
        simp only [World.pending, List.length_append] at hfuel hlen
        omega
      refine ⟨w, ?_, h, .refl _ _, hempty⟩
      cases hf : OrderedMap.first w.files with
      | none => simp only [abortAll, hf]
      | some e =>
          obtain ⟨d, hdp, -⟩ := h.registry.entry e.1 e.2 (OrderedMap.getElem?_of_first hf)
          rw [hempty] at hdp
          simp at hdp
  | succ fuel ih =>
      cases hf : OrderedMap.first w.files with
      | none =>
          refine ⟨w, by simp only [abortAll, hf], h, .refl _ _, ?_⟩
          intro q
          by_contra hlive
          obtain ⟨d, hdq⟩ := Option.ne_none_iff_exists'.mp hlive
          have hreg := h.registry.registered q d hdq
          rw [OrderedMap.first_eq_none hf] at hreg
          simp at hreg
      | some e =>
          obtain ⟨w₁, hw₁, hinv₁, hshr₁, -, hlt⟩ := abortFirst_ok h hd hbound hf
          obtain ⟨w', hw', hinv', hshr', hnone⟩ := ih hinv₁ (by omega) (by omega)
          refine ⟨w', ?_, hinv', hshr₁.trans hshr', hnone⟩
          simp only [abortAll, hf, hw₁]
          exact hw'

/-- The registry has one entry for each download in the queue or in curl. -/
theorem Registry.size_files (h : Registry [] w) : w.files.size = w.pending := by
  have hperm : (w.files.toList.map Prod.snd).Perm (w.handles ++ w.attached) := by
    apply (List.perm_ext_iff_of_nodup ?_ h.nodup).mpr
    · intro q
      rw [h.pool]
      simp only [List.mem_map, Prod.exists, exists_eq_right,
        Std.ExtTreeMap.mem_toList_iff_getElem?_eq_some, List.not_mem_nil, not_false_eq_true,
        and_true]
      constructor
      · rintro ⟨u, hu⟩
        obtain ⟨d, hd, -⟩ := h.entry u q hu
        simp [hd]
      · intro hlive
        obtain ⟨d, hd⟩ := Option.ne_none_iff_exists'.mp hlive
        exact ⟨d.url, h.registered q d hd⟩
    · have hkeys := Std.ExtTreeMap.ordered_keys_toList (t := w.files)
      refine List.Nodup.map_on ?_ (hkeys.imp ?_)
      · rintro ⟨u, q⟩ hu ⟨u', q'⟩ hu' heq
        simp only at heq
        subst heq
        rw [Std.ExtTreeMap.mem_toList_iff_getElem?_eq_some] at hu hu'
        obtain ⟨d, hd, rfl⟩ := h.entry u q hu
        obtain ⟨d', hd', rfl⟩ := h.entry u' q hu'
        rw [hd, Option.some.injEq] at hd'
        rw [hd']
      · rintro a b hlt rfl
        simp at hlt
  rw [← Std.ExtTreeMap.length_toList, ← List.length_map (f := Prod.snd), hperm.length_eq,
    List.length_append, World.pending]

end AbortAll

end LibWfut
