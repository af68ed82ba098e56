import LibWfut.Verification.Io.LifeCycle

/-! # Duplicate detection

`queueFile` looks a URL up as it was passed and registers it encoded. -/

namespace LibWfut

open Encoder Machine

/-- A download that was queued with this very string is live. -/
def LiveQueued (w : World) (url : Bytes) : Prop :=
  ∃ p key filename, .queued p url key filename ∈ w.trace ∧ w.heap p ≠ none

/-- One new `DataStruct` is registered, its handle waits last, and every entry of the
registry is kept. -/
def RegistersOne (w w' : World) : Prop :=
  ∃ p ds h, w.heap p = none ∧ w'.heap p = some ds ∧ ds.handle = some h ∧
    w'.handles = w.handles ++ [h] ∧
    ∀ k q, w'.files[k]? = some q ↔ w.files[k]? = some q ∨ k = ds.url ∧ q = p

/-- What a call of `queueFile` promises about duplicates. -/
structure DuplicateCheck (w : World) (path filename url : Bytes) (crc : ULong)
    (exec : Bool) : Prop where
  duplicate : LiveQueued w url →
    (queueFile path filename url crc exec w).1 = 1 ∧
      (queueFile path filename url crc exec w).2.files = w.files ∧
      (queueFile path filename url crc exec w).2.handles = w.handles
  new : ¬LiveQueued w url →
    (queueFile path filename url crc exec w).1 = 0 ∧
      RegistersOne w (queueFile path filename url crc exec w).2

/-- The URL and its encoding give the same answer: either a live download was queued with
it and it is itself a key, or neither is a key. -/
def Unambiguous (w : World) (url : Bytes) : Prop :=
  (LiveQueued w url ∧ w.files[url]? ≠ none) ∨
    (w.files[url]? = none ∧ w.files[encodeURL url]? = none)

section Queue

variable {w : World} {path filename url : Bytes} {crc : ULong} {exec : Bool}

/-- A live download is registered under the encoding of what it was queued with. -/
theorem Idle.registered_encoded (h : Idle w) (hlive : LiveQueued w url) :
    w.files[encodeURL url]? ≠ none := by
  obtain ⟨p, key, name, hm, hp⟩ := hlive
  obtain ⟨ds, hds⟩ := Option.ne_none_iff_exists'.mp hp
  obtain ⟨raw, hm', hurl⟩ := h.inv.history.accepted p ds hds
  obtain ⟨rfl, -, -⟩ := h.inv.history.unique _ _ _ _ _ _ _ hm hm'
  rw [← hurl, h.inv.registry.registered p ds hds]
  simp

theorem registersOne_enqueue (h : Idle w) (hu : w.files[url]? = none)
    (hkey : w.files[encodeURL url]? = none) :
    RegistersOne w (queueFile path filename url crc exec w).2 := by
  rw [queueFile_state hu]
  refine ⟨w.fresh, newDataStruct path filename url crc exec w.fresh, w.fresh,
    h.inv.registry.unborn _ le_rfl, by simp [World.enqueue], rfl, rfl, ?_⟩
  intro k q
  simp only [World.enqueue, newDataStruct, Std.ExtTreeMap.getElem?_insert]
  by_cases hk : encodeURL url = k
  · subst hk
    simp [hkey, eq_comm]
  · have hcmp : compare (encodeURL url) k ≠ .eq :=
      fun heq => hk (Std.LawfulEqCmp.eq_of_compare heq)
    simp [hcmp, Ne.symm hk]

/-- A collision overwrites the entry of a live download. -/
theorem not_registersOne_of_collision (h : Idle w) (hu : w.files[url]? = none)
    (hkey : w.files[encodeURL url]? ≠ none) :
    ¬RegistersOne w (queueFile path filename url crc exec w).2 := by
  rintro ⟨p, ds, -, -, -, -, -, hfiles⟩
  rw [queueFile_state hu] at hfiles
  obtain ⟨q, hq⟩ := Option.ne_none_iff_exists'.mp hkey
  obtain ⟨d, hd, -⟩ := h.inv.registry.entry _ q hq
  have hkept := (hfiles (encodeURL url) q).mpr (.inl hq)
  have hlost : w.fresh = q := by
    simpa [World.enqueue, newDataStruct] using hkept
  rw [← hlost, h.inv.registry.unborn _ le_rfl] at hd
  simp at hd

/-- `queueFile` keeps its promise exactly on unambiguous URLs. -/
theorem duplicateCheck_iff (h : Idle w) :
    DuplicateCheck w path filename url crc exec ↔ Unambiguous w url := by
  constructor
  · intro hc
    by_cases hu : w.files[url]? = none
    · refine .inr ⟨hu, ?_⟩
      by_contra hkey
      have hlive : ¬LiveQueued w url := by
        intro hlive
        have hone := (hc.duplicate hlive).1
        rw [queueFile_accepted hu] at hone
        simp at hone
      exact not_registersOne_of_collision h hu hkey (hc.new hlive).2
    · refine .inl ⟨?_, hu⟩
      by_contra hlive
      have hzero := (hc.new hlive).1
      rw [queueFile_refused hu] at hzero
      simp at hzero
  · rintro (⟨hlive, hu⟩ | ⟨hu, hkey⟩)
    · refine ⟨fun _ => ?_, fun hn => absurd hlive hn⟩
      rw [queueFile_refused hu]
      exact ⟨rfl, rfl, rfl⟩
    · refine ⟨fun hlive => absurd hkey (h.registered_encoded hlive), fun _ => ?_⟩
      exact ⟨queueFile_accepted hu, registersOne_enqueue h hu hkey⟩

end Queue

/-- After a run without collisions the duplicate check is right exactly on unambiguous
URLs, and no two live downloads share a key. -/
theorem duplicate_check (n : Int32) (fs : FileTree.FileSystem) (ops : List Op)
    (h : Permitted step Op.Allowed (World.init n fs) ops) :
    ∃ w, run step (World.init n fs) ops = .ok w ∧
      (∀ path filename url crc exec,
        DuplicateCheck w path filename url crc exec ↔ Unambiguous w url) ∧
      ∀ p q ds ds', w.heap p = some ds → w.heap q = some ds' → ds.url = ds'.url → p = q := by
  obtain ⟨w, hw, hidle⟩ := keeps_idle.run_ok (idle_init n fs) h
  refine ⟨w, hw, fun path filename url crc exec => duplicateCheck_iff hidle, ?_⟩
  exact fun p q ds ds' hp hq hurl => hidle.inv.registry.url_injective hp hq hurl

theorem duplicate_check_one_queued :
    ∃ w, run step (World.init 1 .empty)
        [.queueFile (ascii "d") (ascii "f") (ascii "http://h/f") 0 false] = .ok w ∧
      (∀ path filename url crc exec,
        DuplicateCheck w path filename url crc exec ↔ Unambiguous w url) ∧
      ∀ p q ds ds', w.heap p = some ds → w.heap q = some ds' → ds.url = ds'.url → p = q := by
  apply duplicate_check
  exact ⟨fun _ => by decide, fun _ _ => trivial⟩

/-- A URL with a space is queued twice, and the second call overwrites the first
entry. -/
theorem duplicate_check_space :
    ∃ w, run step (World.init 1 .empty)
        [.queueFile (ascii "d") (ascii "a b") (ascii "http://h/a b") 0 false] = .ok w ∧
      ¬DuplicateCheck w (ascii "d") (ascii "a b") (ascii "http://h/a b") 0 false := by
  refine ⟨_, rfl, fun hc => ?_⟩
  have hlive : LiveQueued (queueFile (ascii "d") (ascii "a b") (ascii "http://h/a b") 0 false
      (World.init 1 .empty)).2 (ascii "http://h/a b") :=
    ⟨0, ascii "http://h/a%20b", ascii "a b", by decide, by decide⟩
  have hone := (hc.duplicate hlive).1
  revert hone
  decide

end LibWfut
