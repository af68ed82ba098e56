import Mathlib.Data.Set.Function
import LibWfut.Model.Client
import LibWfut.Verification.FileList.Lists
import LibWfut.Verification.Io.Quiet
import LibWfut.Verification.Io.Returned

/-! # The updates of a channel

Which files `calculateUpdates` adds, and what `updateChannel` queues. -/

namespace LibWfut

open FileTree Encoder Machine

/-! ## Deciding -/

/-- The files that `calculateUpdates` adds to an empty list. -/
def offered (got : Bytes → ℕ → ℕ) (server system localList : ChannelFileList)
    (pathPrefix : Bytes) (fs : FileSystem) : ChannelFileList :=
  (calculateUpdates got server system localList .empty pathPrefix fs).2

/-- Why the file of the server under `k` needs an update. -/
def reasonFor (got : Bytes → ℕ → ℕ) (system localList : ChannelFileList) (pathPrefix : Bytes)
    (fs : FileSystem) (k : Bytes) (serverObj : FileObject) : UpdateReason :=
  updateReason got serverObj system.getFiles[k]? localList.getFiles[k]? pathPrefix fs

section Decide

variable {got : Bytes → ℕ → ℕ} {server system localList : ChannelFileList}
  {pathPrefix : Bytes} {fs : FileSystem}

/-- The loop adds the files whose reason says so, one after the other. -/
theorem foldl_addFile (reason : Bytes × FileObject → UpdateReason)
    (es : List (Bytes × FileObject)) (s : List (Bytes × UpdateReason) × ChannelFileList) :
    (es.foldl (fun s e => (s.1 ++ [(e.2.filename, reason e)],
        if (reason e).adds then s.2.addFile e.2 else s.2)) s).2 =
      addFiles s.2 ((es.filter fun e => (reason e).adds).map Prod.snd) := by
  induction es generalizing s with
  | nil => rfl
  | cons e es ih =>
      rw [List.foldl_cons, ih]
      by_cases hadds : (reason e).adds = true
      · rw [List.filter_cons_of_pos (by simpa using hadds)]
        simp only [hadds, ite_true]
        rfl
      · rw [List.filter_cons_of_neg (by simpa using hadds)]
        simp only [hadds]
        rfl

theorem calculateUpdates_snd (updates : ChannelFileList) :
    (calculateUpdates got server system localList updates pathPrefix fs).2 =
      addFiles updates ((server.fileMap.toList.filter fun e =>
        (reasonFor got system localList pathPrefix fs e.1 e.2).adds).map Prod.snd) :=
  foldl_addFile (fun e => reasonFor got system localList pathPrefix fs e.1 e.2) _ ([], updates)

/-- The loop emits one signal per entry, in the order of the map. -/
theorem foldl_signals (reason : Bytes × FileObject → UpdateReason)
    (es : List (Bytes × FileObject)) (s : List (Bytes × UpdateReason) × ChannelFileList) :
    (es.foldl (fun s e => (s.1 ++ [(e.2.filename, reason e)],
        if (reason e).adds then s.2.addFile e.2 else s.2)) s).1 =
      s.1 ++ es.map fun e => (e.2.filename, reason e) := by
  induction es generalizing s with
  | nil => simp
  | cons e es ih =>
      rw [List.foldl_cons, ih, List.map_cons, List.append_assoc, List.singleton_append]

theorem calculateUpdates_fst (updates : ChannelFileList) :
    (calculateUpdates got server system localList updates pathPrefix fs).1 =
      server.fileMap.toList.map fun e =>
        (e.2.filename, reasonFor got system localList pathPrefix fs e.1 e.2) := by
  have hfold := foldl_signals (fun e => reasonFor got system localList pathPrefix fs e.1 e.2)
    server.fileMap.toList ([], updates)
  rw [List.nil_append] at hfold
  exact hfold

/-- An entry of the map stands under the name of its file. -/
theorem key_of_mem_toList {l : ChannelFileList} {e : Bytes × FileObject}
    (he : e ∈ l.fileMap.toList) : e.2.filename = e.1 :=
  l.keyed _ _ (Std.ExtTreeMap.mem_toList_iff_getElem?_eq_some.mp he)

/-- Every file of the server gets one signal, with its reason. -/
theorem mem_calculateUpdates_iff {updates : ChannelFileList} {o : FileObject}
    (ho : server.getFiles[o.filename]? = some o) {reason : UpdateReason} :
    (o.filename, reason) ∈
        (calculateUpdates got server system localList updates pathPrefix fs).1 ↔
      reasonFor got system localList pathPrefix fs o.filename o = reason := by
  rw [calculateUpdates_fst, List.mem_map]
  constructor
  · rintro ⟨e, he, heq⟩
    obtain ⟨hfile, hreason⟩ := Prod.mk.inj heq
    have hkey := key_of_mem_toList he
    have hentry := Std.ExtTreeMap.mem_toList_iff_getElem?_eq_some.mp he
    rw [← hkey, hfile] at hentry
    have hobj : e.2 = o := Option.some.inj (hentry.symm.trans ho)
    rw [← hreason, ← hkey, hobj]
  · intro hreason
    exact ⟨(o.filename, o), Std.ExtTreeMap.mem_toList_iff_getElem?_eq_some.mpr ho,
      by rw [hreason]⟩

/-- A file is offered when its reason says so. -/
theorem offered_getElem? (k : Bytes) :
    (offered got server system localList pathPrefix fs).fileMap[k]? =
      server.fileMap[k]?.filter fun o =>
        (reasonFor got system localList pathPrefix fs k o).adds := by
  rw [offered, calculateUpdates_snd, fileMap_addFiles]
  exact OrderedMap.getElem?_insertAll_filter server.keyed _ k

/-- `calculateUpdates` gets a checksum of everything that can be opened. -/
theorem calcCRC32_cases (reads : ℕ → ℕ) (fs : FileSystem) (pathPrefix filename : Bytes) :
    (calcCRC32 reads fs (pathPrefix ++ cStr filename) = none ∧
        fs.opens (cStr (pathPrefix ++ filename)) = false) ∨
      ∃ crc, calcCRC32 reads fs (pathPrefix ++ cStr filename) = some crc ∧
        fs.opens (cStr (pathPrefix ++ filename)) = true := by
  unfold calcCRC32 fopenRead FileSystem.opens
  rw [cStr_append_cStr]
  cases fs.lookup (cStr (pathPrefix ++ filename)) with
  | none => simp
  | some n =>
      cases hr : n.readable with
      | false => simp [Option.filter, hr]
      | true => cases hk : n.kind <;> simp [Option.filter, hr, hk]

/-- Only the versions decide about a file without an entry in the local list, and a file
with one is also offered if it cannot be opened. -/
theorem adds_updateReason (o : FileObject) (sys loc : Option FileObject) :
    (updateReason got o sys loc pathPrefix fs).adds = (!o.deleted &&
      match loc with
      | none => sys.all fun s => decide (s.version < o.version)
      | some l => decide (l.version < o.version) ||
          !fs.opens (cStr (pathPrefix ++ l.filename))) := by
  unfold updateReason
  cases hdel : o.deleted with
  | true => rfl
  | false =>
      cases loc with
      | none =>
          cases sys with
          | none => rfl
          | some s =>
              by_cases hv : s.version < o.version
              · simp [hv, UpdateReason.adds]
              · simp [hv, UpdateReason.adds]
      | some l =>
          by_cases hv : l.version < o.version
          · simp [hv, UpdateReason.adds]
          · rcases calcCRC32_cases (got (pathPrefix ++ cStr l.filename)) fs pathPrefix
                l.filename with
              ⟨hcrc, hopens⟩ | ⟨crc, hcrc, hopens⟩
            · simp [hv, hcrc, hopens, UpdateReason.adds]
            · by_cases hcmp : crc = o.crc32
              · simp [hv, hcrc, hopens, hcmp, UpdateReason.adds]
              · simp [hv, hcrc, hopens, hcmp, UpdateReason.adds]

theorem updateReason_eq_missing_iff (o : FileObject) (sys loc : Option FileObject) :
    updateReason got o sys loc pathPrefix fs = .missing ↔ o.deleted = false ∧
      ∃ l, loc = some l ∧ ¬l.version < o.version ∧
        fs.opens (cStr (pathPrefix ++ l.filename)) = false := by
  unfold updateReason
  cases hdel : o.deleted with
  | true => simp
  | false =>
      cases loc with
      | none =>
          cases sys with
          | none => simp
          | some s => by_cases hv : s.version < o.version <;> simp [hv]
      | some l =>
          by_cases hv : l.version < o.version
          · simp [hv]
          · rcases calcCRC32_cases (got (pathPrefix ++ cStr l.filename)) fs pathPrefix
                l.filename with
              ⟨hcrc, hopens⟩ | ⟨crc, hcrc, hopens⟩
            · simp [hv, hcrc, hopens, Int32.not_lt.mp hv]
            · by_cases hcmp : crc = o.crc32
              · simp [hv, hcrc, hopens, hcmp]
              · simp [hv, hcrc, hopens, hcmp]

end Decide

/-! ## Queueing -/

/-- The live downloads are of these files. -/
structure Queues (updates : ChannelFileList) (urlPrefix pathPrefix : Bytes) (names : List Bytes)
    (w : World) : Prop where
  idle : Idle w
  live : ∀ p ds, w.heap p = some ds → ds.path = pathPrefix ∧ ds.filename ∈ names ∧
    ds.url = encodeURL (fileUrl updates urlPrefix ds.filename)

section Queue

variable {updates : ChannelFileList} {urlPrefix pathPrefix : Bytes} {w : World}

theorem Queues.mono {names names' : List Bytes}
    (h : Queues updates urlPrefix pathPrefix names w) (hsub : ∀ f ∈ names, f ∈ names') :
    Queues updates urlPrefix pathPrefix names' w := by
  refine ⟨h.idle, ?_⟩
  intro p ds hp
  obtain ⟨hpath, hname, hurl⟩ := h.live p ds hp
  exact ⟨hpath, hsub _ hname, hurl⟩

theorem Queues.queueFile {names : List Bytes} (h : Queues updates urlPrefix pathPrefix names w)
    {o : FileObject} (hnew : ∀ f ∈ names,
      encodeURL (fileUrl updates urlPrefix f) ≠ encodeURL (fileUrl updates urlPrefix o.filename)) :
    Queues updates urlPrefix pathPrefix (o.filename :: names)
        (queueFile pathPrefix o.filename (fileUrl updates urlPrefix o.filename) o.crc32
          o.execute w).2 ∧
      (queueFile pathPrefix o.filename (fileUrl updates urlPrefix o.filename) o.crc32
        o.execute w).2.fs = w.fs := by
  have hfree : NoCollision w (fileUrl updates urlPrefix o.filename) := by
    intro _
    by_contra hkey
    obtain ⟨q, hq⟩ := Option.ne_none_iff_exists'.mp hkey
    obtain ⟨d, hd, hurl⟩ := h.idle.inv.registry.entry _ q hq
    obtain ⟨-, hname, hurl'⟩ := h.live q d hd
    exact hnew d.filename hname (hurl'.symm.trans hurl)
  obtain ⟨w', hw', hidle⟩ := keeps_idle w
    (.queueFile pathPrefix o.filename (fileUrl updates urlPrefix o.filename) o.crc32 o.execute)
    h.idle hfree
  simp only [step, call, Except.ok.injEq] at hw'
  subst hw'
  by_cases hu : w.files[fileUrl updates urlPrefix o.filename]? = none
  · refine ⟨⟨hidle, ?_⟩, by rw [queueFile_state hu]; rfl⟩
    intro p ds hp
    rw [queueFile_state hu] at hp
    simp only [World.enqueue, Function.update_apply] at hp
    split at hp
    · rw [Option.some.injEq] at hp
      rw [← hp]
      exact ⟨rfl, List.mem_cons_self .., rfl⟩
    · obtain ⟨hpath, hname, hurl⟩ := h.live p ds hp
      exact ⟨hpath, List.mem_cons_of_mem _ hname, hurl⟩
  · rw [queueFile_refused hu]
    exact ⟨h.mono fun f hf => List.mem_cons_of_mem _ hf, rfl⟩

/-- One turn of the loop in `updateChannel`. -/
def queueUpdate (updates : ChannelFileList) (urlPrefix pathPrefix : Bytes) (w : World)
    (f : FileObject) : World :=
  if f.deleted then w
  else
    (queueFile pathPrefix f.filename (fileUrl updates urlPrefix f.filename) f.crc32 f.execute
      w).2

theorem updateChannel_eq :
    updateChannel updates urlPrefix pathPrefix w =
      (filesOf updates).foldl (queueUpdate updates urlPrefix pathPrefix) w := by
  rw [filesOf, List.foldl_map]
  rfl

theorem nodup_filesOf (l : ChannelFileList) : ((filesOf l).map FileObject.filename).Nodup := by
  have hnames : (filesOf l).map FileObject.filename = l.fileMap.toList.map Prod.fst := by
    rw [filesOf, List.map_map]
    apply List.map_congr_left
    rintro ⟨k, f⟩ he
    exact l.keyed k f (Std.ExtTreeMap.mem_toList_iff_getElem?_eq_some.mp he)
  rw [hnames, List.Nodup, List.pairwise_map]
  refine Std.ExtTreeMap.distinct_keys_toList.imp ?_
  intro a b hne heq
  exact hne (heq ▸ Std.ReflCmp.compare_self)

theorem Queues.queueUpdate {names : List Bytes}
    (h : Queues updates urlPrefix pathPrefix names w) {o : FileObject}
    (hnew : ∀ f ∈ names,
      encodeURL (fileUrl updates urlPrefix f) ≠ encodeURL (fileUrl updates urlPrefix o.filename)) :
    Queues updates urlPrefix pathPrefix (o.filename :: names)
        (queueUpdate updates urlPrefix pathPrefix w o) ∧
      (LibWfut.queueUpdate updates urlPrefix pathPrefix w o).fs = w.fs := by
  unfold LibWfut.queueUpdate
  split
  · exact ⟨h.mono fun f hf => List.mem_cons_of_mem _ hf, rfl⟩
  · exact h.queueFile hnew

theorem Queues.foldl {names : List Bytes} (h : Queues updates urlPrefix pathPrefix names w)
    {fs : List FileObject} (hurls : Set.InjOn (fun f => encodeURL (fileUrl updates urlPrefix f))
      {f | f ∈ fs.map FileObject.filename ++ names})
    (hnodup : (fs.map FileObject.filename ++ names).Nodup) :
    Queues updates urlPrefix pathPrefix (fs.map FileObject.filename ++ names)
        (fs.foldl (LibWfut.queueUpdate updates urlPrefix pathPrefix) w) ∧
      (fs.foldl (LibWfut.queueUpdate updates urlPrefix pathPrefix) w).fs = w.fs := by
  induction fs generalizing names w with
  | nil => exact ⟨h, rfl⟩
  | cons o fs ih =>
      have hperm : (fs.map FileObject.filename ++ o.filename :: names).Perm
          ((o :: fs).map FileObject.filename ++ names) := List.perm_middle
      have hnew : ∀ f ∈ names, encodeURL (fileUrl updates urlPrefix f) ≠
          encodeURL (fileUrl updates urlPrefix o.filename) := by
        intro f hf heq
        have hsame := hurls (List.mem_append_right _ hf) (List.mem_cons_self ..) heq
        rw [List.map_cons, List.cons_append, List.nodup_cons] at hnodup
        exact hnodup.1 (List.mem_append_right _ (hsame ▸ hf))
      obtain ⟨hone, hfs⟩ := h.queueUpdate hnew
      obtain ⟨hall, hfs'⟩ := ih hone (hurls.mono fun f hf => hperm.subset hf)
        (hperm.nodup_iff.mpr hnodup)
      exact ⟨hall.mono fun f hf => hperm.subset hf, hfs'.trans hfs⟩

/-- On an empty queue `updateChannel` queues files of the list only. -/
theorem updateChannel_ok (h : Idle w) (hempty : w.files = ∅)
    (hurls : Set.InjOn (fun f => encodeURL (fileUrl updates urlPrefix f))
      {f | updates.getFiles[f]? ≠ none}) :
    Idle (updateChannel updates urlPrefix pathPrefix w) ∧
      (updateChannel updates urlPrefix pathPrefix w).fs = w.fs ∧
      ∀ p ds, (updateChannel updates urlPrefix pathPrefix w).heap p = some ds →
        ds.path = pathPrefix ∧ updates.getFiles[ds.filename]? ≠ none := by
  have hlisted : ∀ f ∈ (filesOf updates).map FileObject.filename,
      updates.getFiles[f]? ≠ none := by
    intro f hf
    obtain ⟨o, ho, rfl⟩ := List.mem_map.mp hf
    rw [ChannelFileList.getFiles, mem_filesOf.mp ho]
    simp
  have hstart : Queues updates urlPrefix pathPrefix [] w := by
    refine ⟨h, ?_⟩
    intro p ds hp
    have hkey := h.inv.registry.registered p ds hp
    simp [hempty] at hkey
  have hnodup : ((filesOf updates).map FileObject.filename ++ []).Nodup := by
    simpa using nodup_filesOf updates
  have hdistinct : Set.InjOn (fun f => encodeURL (fileUrl updates urlPrefix f))
      {f | f ∈ (filesOf updates).map FileObject.filename ++ []} :=
    hurls.mono fun f hf => hlisted f (by simpa using hf)
  rw [updateChannel_eq]
  obtain ⟨hq, hfs⟩ := hstart.foldl hdistinct hnodup
  refine ⟨hq.idle, hfs, ?_⟩
  intro p ds hp
  obtain ⟨hpath, hname, -⟩ := hq.live p ds hp
  exact ⟨hpath, hlisted _ (by simpa using hname)⟩

end Queue

/-! ## Queueing anything -/

/-- What a download has to do with a file of a channel. -/
structure JobOf (pathPrefix : Bytes) (o : FileObject) (ds : DataStruct) : Prop where
  path : ds.path = pathPrefix
  filename : ds.filename = o.filename
  expectedCrc32 : ds.expectedCrc32 = o.crc32

theorem JobOf.sameJob {pathPrefix : Bytes} {o : FileObject} {ds ds' : DataStruct}
    (h : JobOf pathPrefix o ds) (hjob : ds.SameJob ds') : JobOf pathPrefix o ds' :=
  ⟨hjob.path.trans h.path, hjob.filename.trans h.filename,
    hjob.expectedCrc32.trans h.expectedCrc32⟩

section Live

variable {pathPrefix : Bytes} {w : World}

theorem queueFile_live {filename url : Bytes} {crc : ULong} {exec : Bool} {p : Ptr}
    {ds : DataStruct} (hp : (queueFile pathPrefix filename url crc exec w).2.heap p = some ds) :
    w.heap p = some ds ∨
      p = w.fresh ∧ ds = newDataStruct pathPrefix filename url crc exec p := by
  by_cases hu : w.files[url]? = none
  · rw [queueFile_state hu] at hp
    simp only [World.enqueue, Function.update_apply] at hp
    split at hp
    · rename_i hfresh
      rw [← Option.some.inj hp, hfresh]
      exact .inr ⟨rfl, rfl⟩
    · exact .inl hp
  · rw [queueFile_refused hu] at hp
    exact .inl hp

/-- What `updateChannel` adds are downloads of files of the list that are not deleted. -/
theorem updateChannel_live {updates : ChannelFileList} {urlPrefix : Bytes} {p : Ptr}
    {ds : DataStruct} (hp : (updateChannel updates urlPrefix pathPrefix w).heap p = some ds) :
    w.heap p = some ds ∨ ∃ o, updates.getFiles[o.filename]? = some o ∧ o.deleted = false ∧
      JobOf pathPrefix o ds := by
  have hfold : ∀ (fs : List FileObject) (w : World),
      (fs.foldl (queueUpdate updates urlPrefix pathPrefix) w).heap p = some ds →
      w.heap p = some ds ∨ ∃ o ∈ fs, o.deleted = false ∧ JobOf pathPrefix o ds := by
    intro fs
    induction fs with
    | nil => exact fun w h => .inl h
    | cons o fs ih =>
        intro w h
        rcases ih _ h with hone | ⟨o', ho', hrest⟩
        · unfold queueUpdate at hone
          split at hone
          · exact .inl hone
          · rename_i hdel
            rcases queueFile_live hone with hold | ⟨-, rfl⟩
            · exact .inl hold
            · exact .inr ⟨o, List.mem_cons_self .., by simpa using hdel, rfl, rfl, rfl⟩
        · exact .inr ⟨o', List.mem_cons_of_mem _ ho', hrest⟩
  rw [updateChannel_eq] at hp
  rcases hfold _ w hp with hold | ⟨o, ho, hrest⟩
  · exact .inl hold
  · exact .inr ⟨o, mem_filesOf.mp ho, hrest⟩

theorem Traced.updateChannel (h : Traced w) (updates : ChannelFileList) (urlPrefix : Bytes) :
    Traced (updateChannel updates urlPrefix pathPrefix w) := by
  rw [updateChannel_eq]
  induction filesOf updates generalizing w with
  | nil => exact h
  | cons o fs ih =>
      apply ih
      unfold queueUpdate
      split
      · exact h
      · exact h.queueFile

end Live

end LibWfut
