import LibWfut.Model.FileIO
import LibWfut.Verification.Client.UpdateCycle

/-! # Where downloads are written

Nothing between the filename attribute and the copy looks at the directories a filename
leads through. -/

namespace LibWfut

open FileTree Machine Relation

/-! ## Written paths -/

/-- The paths that are opened for writing or made executable while a message is handled. -/
def Handling.touched (h : Handling) : List Bytes :=
  if Arrived h.msg h.ds then
    let copy := copyFile h.msg.storage h.ds.fp h.ds.target h.state.fs
    (if copy.1 = 0 then [h.ds.target] else []) ++
      if h.ds.executable ∧ h.msg.storage.chmodOk ∧ osExists copy.2 h.ds.target then [h.ds.target]
      else []
  else []

theorem Handling.eq_target {h : Handling} {t : Bytes} (ht : t ∈ h.touched) : t = h.ds.target := by
  unfold touched at ht
  split at ht
  · rcases List.mem_append.mp ht with ht | ht
    · split at ht
      · exact List.mem_singleton.mp ht
      · simp at ht
    · split at ht
      · exact List.mem_singleton.mp ht
      · simp at ht
  · simp at ht

/-- Nothing else changes, apart from the directories that are made. -/
theorem Handling.node_eq_of_not_touched (h : Handling) {l : Location} (hmade : l ∉ h.made)
    (ht : ∀ t ∈ h.touched, pathPlace h.state.fs t ≠ l) : h.fs.node l = h.state.fs.node l := by
  have hcontent : h.contentAt l = none := by
    rw [contentAt, if_neg]
    rintro ⟨⟨ha, hok⟩, hplace⟩
    exact ht h.ds.target (by simp [touched, ha, hok]) hplace
  cases hn : h.state.fs.node l with
  | none =>
      by_contra hne
      rcases h.grows.added l hne with hold | hm | hm
      · exact hold hn
      · exact hmade hm
      · exact (h.contentAt_eq_none_iff l).mp hcontent hm
  | some n =>
      -- A node that is there makes the target one of the touched paths.
      have hbits : ¬h.SetsBits l := by
        rintro ⟨ha, hx, hok, hl⟩
        have hexists : osExists (copyFile h.msg.storage h.ds.fp h.ds.target h.state.fs).2
            h.ds.target = true := by
          rw [osExists, FileSystem.lookup, copyFile_resolve, hl, Option.bind_some,
            node_copyFile ha hn]
          rfl
        exact ht h.ds.target (by simp [touched, ha, hx, hok, hexists])
          (eq_pathPlace_of_resolve hl).symm
      rw [node_of_some hn, leaves, hcontent, if_neg hbits]
      rfl

/-! ## The place of a target -/

/-- The place a path names lies strictly below the one the prefix names. -/
def BelowPrefix (cwd : Location) (pathPrefix path : Bytes) : Prop :=
  Below (place cwd (cStr pathPrefix)) (place cwd (cStr path))

instance (cwd : Location) (pathPrefix path : Bytes) :
    Decidable (BelowPrefix cwd pathPrefix path) :=
  inferInstanceAs (Decidable (Below _ _))

/-- The components of the filename, up to its first NUL, lead from where `poll` appends them to
a place strictly below the prefix. An empty prefix makes the target absolute, and a NUL in
the prefix hides the filename. -/
def StaysBelow (cwd : Location) (pathPrefix filename : Bytes) : Prop :=
  0 ∉ pathPrefix ∧ Below (place cwd pathPrefix)
    (((cStr filename).splitOn separator).foldl next
      (if pathPrefix = [] then [] else place cwd pathPrefix))

theorem belowPrefix_target_iff (cwd : Location) (pathPrefix filename : Bytes) :
    BelowPrefix cwd pathPrefix (pathPrefix ++ ascii "/" ++ filename) ↔
      StaysBelow cwd pathPrefix filename := by
  have hslash : ascii "/" = [separator] := rfl
  unfold BelowPrefix StaysBelow
  by_cases hzero : 0 ∈ pathPrefix
  · rw [List.append_assoc, cStr_append_of_mem hzero]
    simp [hzero, Below]
  · have hjoined : 0 ∉ pathPrefix ++ ascii "/" := by
      rw [List.mem_append, not_or]
      exact ⟨hzero, by decide⟩
    rw [cStr_append_of_not_mem hjoined, cStr_eq_self_iff.mpr hzero, hslash, List.append_assoc,
      List.singleton_append]
    by_cases hempty : pathPrefix = []
    · rw [hempty, List.nil_append, place_separator_cons]
      simp
    · rw [place_append hempty, if_neg hempty]
      simp [hzero]

/-! ## Runs -/

section Run

variable {c : UpdateCycle} {got : Bytes → ℕ → ℕ} {n : Int32} {fs : FileSystem}

theorem polls_moves {w w' : World} {rs : List PollReport} (ht : Traced w)
    (h : run step w (rs.map .poll) = .ok w') : ReflTransGen (Move signal) w w' := by
  induction rs generalizing w with
  | nil => rw [← Except.ok.inj h]
  | cons r rs ih =>
      obtain ⟨w₁, hw₁, h⟩ := run_cons_eq_ok _ h
      obtain ⟨⟨k, w₂⟩, hpoll, rfl⟩ := map_eq_ok hw₁
      exact (poll_moves requeues_signal ht hpoll).trans
        (ih (ht.call requeues_signal hw₁) h)

/-- Every message is about a file that was offered. -/
theorem handled_offered (hnew : c.world = World.init n fs) {rs : List PollReport} {w : World}
    (hrun : run step (c.queued got) (rs.map .poll) = .ok w) {r : PollReport} {p : Ptr}
    {h : Handling} (hh : HandledIn signal w r p h) :
    ∃ o, c.server.getFiles[o.filename]? = some o ∧
      (c.first got).getFiles[o.filename]? = some o ∧ JobOf c.pathPrefix o h.ds := by
  have hstart : Traced c.world := by
    rw [hnew]
    exact traced_init n fs
  have hqueued : Traced (c.queued got) := hstart.updateChannel ..
  have hmoves := polls_moves hqueued hrun
  obtain ⟨ds, hp, hjob⟩ := hh.job calm_signal (hqueued.moves requeues_signal hmoves)
  obtain ⟨ds₀, hp₀, hjob₀⟩ := continues_of_moves calm_signal hmoves p ds hp
  rcases updateChannel_live hp₀ with hold | ⟨o, ho, -, hof⟩
  · rw [hnew] at hold
    simp [World.init] at hold
  · have hserver := ho
    rw [UpdateCycle.first, ChannelFileList.getFiles, offered_getElem?,
      Option.filter_eq_some_iff] at hserver
    exact ⟨o, hserver.1, ho, (hof.sameJob hjob₀).sameJob hjob⟩

/-- In every run of polls, what a message writes is the target of an offered file, and it lies
below the prefix exactly when the filename stays below it. Apart from that it only makes
directories. -/
theorem containment (c : UpdateCycle) (got : Bytes → ℕ → ℕ) (n : Int32) (fs : FileSystem)
    (hnew : c.world = World.init n fs) (rs : List PollReport) (w : World)
    (hrun : run step (c.queued got) (rs.map .poll) = .ok w) (r : PollReport) (p : Ptr)
    (h : Handling) (hh : HandledIn signal w r p h) :
    (∃ o, c.server.getFiles[o.filename]? = some o ∧
      (c.first got).getFiles[o.filename]? = some o ∧ JobOf c.pathPrefix o h.ds ∧
      ∀ t ∈ h.touched, BelowPrefix fs.cwd c.pathPrefix t ↔
        StaysBelow fs.cwd c.pathPrefix o.filename) ∧
    ((∀ o : FileObject, (c.first got).getFiles[o.filename]? = some o →
        StaysBelow fs.cwd c.pathPrefix o.filename) →
      ∀ t ∈ h.touched, BelowPrefix fs.cwd c.pathPrefix t) ∧
    ∀ l, l ∉ h.made → (∀ t ∈ h.touched, pathPlace h.state.fs t ≠ l) →
      h.fs.node l = h.state.fs.node l := by
  obtain ⟨o, hserver, ho, hjob⟩ := handled_offered hnew hrun hh
  have hiff : ∀ t ∈ h.touched, BelowPrefix fs.cwd c.pathPrefix t ↔
      StaysBelow fs.cwd c.pathPrefix o.filename := by
    intro t ht
    rw [Handling.eq_target ht, DataStruct.target, hjob.path, hjob.filename]
    exact belowPrefix_target_iff ..
  refine ⟨⟨o, hserver, ho, hjob, hiff⟩, fun hall t ht => (hiff t ht).mpr (hall o ho), ?_⟩
  exact fun l hmade ht => h.node_eq_of_not_touched hmade ht

end Run

/-! ## A way out -/

/-- What a server may send: one file with this filename attribute. -/
def oneFileDocument (filename : Bytes) : Document :=
  [.element tagFilelist [(tagDir, ascii "c")]
    [.element tagFile [(tagFilename, filename), (tagVersion, ascii "1"), (tagCrc32, ascii "0"),
      (tagSize, ascii "0")] []]]

/-- A client without lists of its own, which updates into `d`. -/
def intoD (filename : Bytes) : UpdateCycle where
  server := (ChannelFileList.empty.setName (ascii "c")).addFile (emptyFile filename)
  system := .empty
  localList := .empty
  urlPrefix := ascii "http://h/c"
  pathPrefix := ascii "d"
  world := World.init 1 .empty

/-- The one download succeeds. -/
def succeeds : PollReport :=
  { running := 0, done := [{ handle := 0 }] }

/-- The state in which the message about it is handled. -/
def intoDHandling (filename : Bytes) (w : World) : Handling where
  state := { w with msgs := [] }
  msg := { handle := 0 }
  ds := newDataStruct (ascii "d") filename (ascii "http://h/c/" ++ filename) 0 false 0

theorem parse_oneFileDocument {filename name : Bytes}
    (h : parseFile [(tagFilename, filename), (tagVersion, ascii "1"), (tagCrc32, ascii "0"),
      (tagSize, ascii "0")] (emptyFile []) = .ok (emptyFile name)) :
    parseFileListXML (fun _ => some (oneFileDocument filename)) (fun _ => emptyFile []) [] .empty =
      .ok (0, (intoD name).server) := by
  have hdir : getAttribute [(tagDir, ascii "c")] tagDir = some (ascii "c") := rfl
  have hvisited : visited [.element tagFile [(tagFilename, filename), (tagVersion, ascii "1"),
      (tagCrc32, ascii "0"), (tagSize, ascii "0")] []] = [[(tagFilename, filename),
        (tagVersion, ascii "1"), (tagCrc32, ascii "0"), (tagSize, ascii "0")]] := rfl
  have hinit : ({ emptyFile [] with filename := [] } : FileObject) = emptyFile [] := rfl
  have hroot : (oneFileDocument filename).find? (hasValue tagFilelist) =
      (oneFileDocument filename).head? := rfl
  rw [parseFileListXML, parseDocument]
  simp only [hroot]
  simp only [oneFileDocument, List.head?_cons, parseFiles, hdir, hvisited, parseElements, hinit, h,
    ok_bind]
  rfl

theorem containment_inside :
    ∃ w, run step ((intoD (ascii "x")).queued wholeBlocks) [.poll { running := 0 }] = .ok w ∧
      HandledIn signal w succeeds 0 (intoDHandling (ascii "x") w) ∧
      (intoDHandling (ascii "x") w).touched = [ascii "d/x"] ∧
      ((∃ o, (intoD (ascii "x")).server.getFiles[o.filename]? = some o ∧
        ((intoD (ascii "x")).first wholeBlocks).getFiles[o.filename]? = some o ∧
        JobOf (ascii "d") o (intoDHandling (ascii "x") w).ds ∧
        ∀ t ∈ (intoDHandling (ascii "x") w).touched, BelowPrefix [] (ascii "d") t ↔
          StaysBelow [] (ascii "d") o.filename) ∧
      ((∀ o : FileObject, ((intoD (ascii "x")).first wholeBlocks).getFiles[o.filename]? = some o →
          StaysBelow [] (ascii "d") o.filename) →
        ∀ t ∈ (intoDHandling (ascii "x") w).touched, BelowPrefix [] (ascii "d") t) ∧
      ∀ l, l ∉ (intoDHandling (ascii "x") w).made →
        (∀ t ∈ (intoDHandling (ascii "x") w).touched,
          pathPlace (intoDHandling (ascii "x") w).state.fs t ≠ l) →
        (intoDHandling (ascii "x") w).fs.node l =
          (intoDHandling (ascii "x") w).state.fs.node l) := by
  refine ⟨_, rfl, ⟨_, 0, _, [], rfl, rfl, rfl, rfl, rfl, rfl⟩, by decide, ?_⟩
  exact containment (intoD (ascii "x")) wholeBlocks 1 .empty rfl [{ running := 0 }] _ rfl succeeds
    0 _ ⟨_, 0, _, [], rfl, rfl, rfl, rfl, rfl, rfl⟩

/-- The separator of `..%2Fx` appears only after decoding, and the file is written beside the
directory of the channel. -/
theorem containment_parent :
    parseFileListXML (fun _ => some (oneFileDocument (ascii "..%2Fx")))
        (fun _ => emptyFile []) [] .empty = .ok (0, (intoD (ascii "../x")).server) ∧
      ∃ w, run step ((intoD (ascii "../x")).queued wholeBlocks) [.poll { running := 0 }] = .ok w ∧
        HandledIn signal w succeeds 0 (intoDHandling (ascii "../x") w) ∧
        ascii "d/../x" ∈ (intoDHandling (ascii "../x") w).touched ∧
        ¬BelowPrefix [] (ascii "d") (ascii "d/../x") ∧
        ((intoDHandling (ascii "../x") w).fs.node [ascii "x"]).isSome := by
  refine ⟨parse_oneFileDocument (by decide +kernel), _, rfl, ?_, by decide, by decide, by decide⟩
  exact ⟨_, 0, _, [], rfl, rfl, rfl, rfl, rfl, rfl⟩

end LibWfut
