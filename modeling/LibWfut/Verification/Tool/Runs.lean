import LibWfut.Model.Main
import LibWfut.Verification.Client.Updates
import LibWfut.Verification.Download.Handling

/-! # Runs of the tool

What `main` computes from the signals of its poll loop. -/

namespace LibWfut

open FileTree Machine Relation

/-! ## The loop -/

theorem calm_toolEmit (env : Environment) (updates : ChannelFileList) (tmpfile : Bytes) :
    Calm (toolEmit env updates tmpfile) := by
  intro e w w' h
  unfold toolEmit at h
  split at h
  · split at h
    · simp at h
    · exact ⟨_, (Except.ok.inj h).symm⟩
  · exact ⟨w.fs, (Except.ok.inj h).symm⟩

theorem pollLoop_moves {emit : Emit} (hd : Calm emit) {rs : List PollReport} {w w' : World}
    (ht : Traced w) (h : pollLoop emit rs w = .ok w') : ReflTransGen (Move emit) w w' := by
  induction rs generalizing w with
  | nil => simp [pollLoop] at h
  | cons r rs ih =>
      obtain ⟨⟨n, w₁⟩, hpoll, h⟩ := bind_eq_ok h
      have hmoves := poll_moves hd.requeues ht hpoll
      simp only at h
      split at h
      · rw [← Except.ok.inj h]
        exact hmoves
      · exact hmoves.trans (ih (ht.moves hd.requeues hmoves) h)

theorem traced_queued {o : Options} {env : Environment} {fs : FileSystem} {lists : Loaded} :
    Traced (lists.queued o env fs) :=
  (traced_init _ fs).updateChannel ..

/-- `main` has loaded its lists and is behind its poll loop. -/
structure Looped (o : Options) (env : Environment) (fs : FileSystem) (lists : Loaded)
    (w : World) : Prop where
  loaded : loadLists o env fs = .ok (some lists)
  loop : pollLoop (toolEmit env (lists.updates o env fs) o.tmpWfut) env.polls
    (lists.queued o env fs) = .ok w

/-- The local list that `main` saves. -/
def Loaded.final (lists : Loaded) (o : Options) (env : Environment) (fs : FileSystem)
    (w : World) : ChannelFileList :=
  (lists.tally (lists.updates o env fs) w.trace).localList

/-- A call of `main` gives up early or gets to its end. -/
theorem main_cases {o : Options} {env : Environment} {fs fs' : FileSystem} {status : Int32}
    (h : main o env fs = .ok (status, fs')) :
    (loadLists o env fs = .ok none ∧ status = 1 ∧ fs' = fs) ∨
      ∃ lists w, Looped o env fs lists w ∧
        status = (lists.tally (lists.updates o env fs) w.trace).error ∧
        fs' = finish o env (lists.final o env fs w) w.fs := by
  obtain ⟨lists, hlists, h⟩ := bind_eq_ok h
  cases lists with
  | none =>
      obtain ⟨rfl, rfl⟩ := Prod.mk.inj (Except.ok.inj h)
      exact .inl ⟨hlists, rfl, rfl⟩
  | some lists =>
      obtain ⟨w, hw, h⟩ := bind_eq_ok h
      obtain ⟨s, -, h⟩ := bind_eq_ok h
      obtain ⟨rfl, rfl⟩ := Prod.mk.inj (Except.ok.inj h)
      exact .inr ⟨lists, w, ⟨hlists, hw⟩, rfl, rfl⟩

theorem main_eq_ok {o : Options} {env : Environment} {fs fs' : FileSystem} {status : Int32}
    {lists : Loaded} {w : World} (h : main o env fs = .ok (status, fs'))
    (hp : Looped o env fs lists w) :
    status = (lists.tally (lists.updates o env fs) w.trace).error ∧
      fs' = finish o env (lists.final o env fs w) w.fs := by
  rcases main_cases h with ⟨hnone, -, -⟩ | ⟨lists', w', hp', hstatus, hfs⟩
  · have hsame := hp.loaded.symm.trans hnone
    simp at hsame
  · have hlists := hp.loaded.symm.trans hp'.loaded
    rw [Except.ok.injEq, Option.some.injEq] at hlists
    subst hlists
    have hw := Except.ok.inj (hp.loop.symm.trans hp'.loop)
    subst hw
    exact ⟨hstatus, hfs⟩

/-! ## The handlers -/

/-- The files whose success was signalled, in the order of the signals. -/
def completedFiles (trace : List Event) : List Bytes :=
  trace.filterMap completedFile

/-- The number of errors never changes. -/
theorem tally_error (lists : Loaded) (updates : ChannelFileList) (trace : List Event) :
    (lists.tally updates trace).error = 0 := by
  have hfold : ∀ t : Tally, (trace.foldl (Tally.handle updates) t).error = t.error := by
    induction trace with
    | nil => exact fun t => rfl
    | cons e trace ih =>
        intro t
        rw [List.foldl_cons, ih]
        cases e with
        | queued p r u f => rfl
        | complete p u f =>
            simp only [Tally.handle]
            split <;> rfl
        | failed p u f message => rfl
  exact hfold _

theorem getElem?_addFile (l : ChannelFileList) (fo : FileObject) (f : Bytes) :
    (l.addFile fo).getFiles[f]? = if f = fo.filename then some fo else l.getFiles[f]? := by
  rw [ChannelFileList.getFiles, ChannelFileList.fileMap_addFile, Std.ExtTreeMap.getElem?_insert]
  by_cases hf : f = fo.filename
  · subst hf
    simp
  · have hcmp : compare fo.filename f ≠ .eq :=
      fun heq => hf (Std.LawfulEqCmp.eq_of_compare heq).symm
    rw [if_neg hcmp, if_neg hf]
    rfl

/-- The local list has the new entries of the completed files and the old ones of all others. -/
theorem tally_localList (lists : Loaded) (updates : ChannelFileList) (trace : List Event)
    {f : Bytes} {fo : FileObject} (hf : updates.getFiles[f]? = some fo) :
    (lists.tally updates trace).localList.getFiles[f]? =
      if f ∈ completedFiles trace then some fo else lists.localList.getFiles[f]? := by
  have hname := updates.keyed f fo hf
  have hfold : ∀ t : Tally, (trace.foldl (Tally.handle updates) t).localList.getFiles[f]? =
      if f ∈ completedFiles trace then some fo else t.localList.getFiles[f]? := by
    induction trace with
    | nil => exact fun t => rfl
    | cons e trace ih =>
        intro t
        rw [List.foldl_cons, ih]
        cases e with
        | queued p r u g => rfl
        | failed p u g message => rfl
        | complete p u g =>
            have hcons : completedFiles (.complete p u g :: trace) = g :: completedFiles trace :=
              rfl
            rw [hcons]
            by_cases hm : f ∈ completedFiles trace
            · simp [hm]
            · by_cases hg : f = g
              · subst hg
                simp [Tally.handle, hm, hf, getElem?_addFile, hname]
              · simp only [Tally.handle, hm, hg, List.mem_cons, or_self, if_false]
                cases hup : updates.getFiles[g]? with
                | none => rfl
                | some go =>
                    have hgo := updates.keyed g go hup
                    simp [getElem?_addFile, hgo, hg]
  exact hfold _

end LibWfut
