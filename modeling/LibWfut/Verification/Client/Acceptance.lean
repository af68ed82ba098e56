import LibWfut.Verification.Client.Containment
import LibWfut.Verification.Download.Complete

/-! # Downloads that are accepted later

`poll` and `calculateUpdates` decide independently which file a prefix and a filename
denote, and when its checksum is right. -/

namespace LibWfut

open FileTree Machine Relation

/-! ## Checksums of files -/

/-- What a node delivers when it is read. -/
def readableBytes (n : Node) : Bytes :=
  match n.kind with
  | .directory => []
  | .regular content => content

/-- The checksum is that of what stands at the path, if it can be read. -/
theorem calcCRC32_eq_some_iff {got : ℕ → ℕ} (hgot : ∀ turn, 0 < got turn) {fs : FileSystem}
    {path : Bytes} {crc : ULong} :
    calcCRC32 got fs path = some crc ↔ ∃ n, fs.lookup (cStr path) = some n ∧
      n.readable = true ∧ crc32 0 (readableBytes n) = crc := by
  unfold calcCRC32 fopenRead
  cases fs.lookup (cStr path) with
  | none => simp
  | some n =>
      cases hr : n.readable with
      | false => simp [Option.filter, hr]
      | true =>
          cases hk : n.kind with
          | directory => simp [Option.filter, hr, hk, readableBytes]
          | regular content =>
              have hread := readsAll_of_pos (by decide : 0 < crcBufferSize) hgot 0 content
              have hloop := hread.calcLoop 0 [] (Nat.le_refl content.length)
              rw [List.nil_append] at hloop
              simp [Option.filter, hr, hk, readableBytes, hloop]

/-! ## What `calculateUpdates` signals -/

/-- A file with its own entry in the local list needs no update exactly when what its name
leads to has the checksum of the entry. -/
theorem reasonFor_eq_none_iff {got : Bytes → ℕ → ℕ} (hgot : ∀ path turn, 0 < got path turn)
    {system localList : ChannelFileList} {pathPrefix : Bytes} {fs : FileSystem}
    {o : FileObject} (hdel : o.deleted = false)
    (hlocal : localList.getFiles[o.filename]? = some o) :
    reasonFor got system localList pathPrefix fs o.filename o = .none ↔
      ∃ n, fs.lookup (cStr (pathPrefix ++ o.filename)) = some n ∧ n.readable = true ∧
        crc32 0 (readableBytes n) = o.crc32 := by
  rw [← cStr_append_cStr, ← calcCRC32_eq_some_iff (hgot (pathPrefix ++ cStr o.filename))]
  simp only [reasonFor, updateReason, hdel, hlocal, Int32.lt_irrefl, if_false]
  cases calcCRC32 (got (pathPrefix ++ cStr o.filename)) fs (pathPrefix ++ cStr o.filename) with
  | none => simp
  | some crc => by_cases hcrc : crc = o.crc32 <;> simp [hcrc]

/-! ## Downloads and their transfers -/

/-- Every transfer belongs to the download of its number, and has all the data it was not
refused. -/
structure Fed (w : World) : Prop where
  wired : ∀ k e, w.easy k = some e → e.priv = k
  intact : Intact w

theorem fed_init (n : Int32) (fs : FileSystem) : Fed (World.init n fs) where
  wired k e he := by simp [World.init] at he
  intact := intact_init n fs

section Fed

variable {w w' : World} {emit : Emit} {p : Ptr} {ds : DataStruct} {e : Event}

theorem Fed.of_subset (h : Fed w) (hheap : ∀ p ds, w'.heap p = some ds → w.heap p = some ds)
    (heasy : ∀ k e, w'.easy k = some e → w.easy k = some e) : Fed w' where
  wired k e he := h.wired k e (heasy k e he)
  intact := h.intact.of_subset hheap heasy

theorem Fed.queueFile (h : Fed w) {path filename url : Bytes} {crc : ULong} {exec : Bool} :
    Fed (queueFile path filename url crc exec w).2 where
  wired := by
    intro k e he
    by_cases hu : w.files[url]? = none
    · rw [queueFile_state hu] at he
      simp only [World.enqueue, Function.update_apply] at he
      split at he
      · rename_i hk
        rw [← Option.some.inj he, hk]
      · exact h.wired k e he
    · rw [queueFile_refused hu] at he
      exact h.wired k e he
  intact := h.intact.queueFile

theorem Fed.performWrite (h : Fed w) {c : WriteCall} (hw : w.performWrite c = .ok w') :
    Fed w' := by
  obtain ⟨e, ds, he, hp, rfl⟩ := performWrite_eq_ok hw
  have hpriv := h.wired c.handle e he
  rw [hpriv] at hp ⊢
  refine ⟨?_, h.intact.receive hp he⟩
  intro k e' he'
  simp only [Function.update_apply] at he'
  split at he'
  · rename_i hk
    rw [← Option.some.inj he', hk]
    exact hpriv
  · exact h.wired k e' he'

/-- A download that leaves takes nothing from the others. -/
theorem Fed.retires (h : Fed w) (hd : Calm emit) {fs : FileSystem}
    (hr : Retires emit w p ds e fs w') : Fed w' := by
  obtain ⟨w₁, w₂, hclose, hemit, hdrop⟩ := hr
  obtain ⟨fs', rfl⟩ := hd e w₁ w₂ hemit
  obtain ⟨ds', -, hheap⟩ := hclose.heap
  refine h.of_subset ?_ fun k e' he' => hclose.easy k e' (hdrop.easy k e' he')
  intro q d hq
  rw [hdrop.heap] at hq
  by_cases hqp : q = p
  · simp [hqp] at hq
  · rw [Function.update_of_ne hqp] at hq
    change w₁.heap q = some d at hq
    rwa [hheap, Function.update_of_ne hqp] at hq

theorem Fed.move (h : Fed w) (hd : Calm emit) (hm : Move emit w w') : Fed w' := by
  cases hm with
  | write c hw => exact h.performWrite hw
  | shift hs =>
      refine h.of_subset ?_ ?_
      · exact fun q d hq => hs.heap ▸ hq
      · exact fun k e' he' => hs.easy ▸ he'
  | finish m hf =>
      obtain ⟨p, ds, hr⟩ := hf
      exact h.retires hd hr
  | abort ha =>
      obtain ⟨p, ds, -, hr⟩ := ha
      exact h.retires hd hr

theorem Fed.moves (h : Fed w) (hd : Calm emit) (hm : ReflTransGen (Move emit) w w') :
    Fed w' := by
  induction hm with
  | refl => exact h
  | tail hmoves hmove ih => exact ih.move hd hmove

end Fed

/-! ## Runs of calls -/

/-- What every call keeps of the state before it. -/
structure Follows (w w' : World) : Prop where
  traced : Traced w'
  fed : Fed w'
  fresh : w.fresh ≤ w'.fresh
  job : ∀ p ds', p < w.fresh → w'.heap p = some ds' → ∃ ds, w.heap p = some ds ∧ ds.SameJob ds'

section Follows

variable {w w' w'' : World}

theorem Follows.refl (ht : Traced w) (hf : Fed w) : Follows w w where
  traced := ht
  fed := hf
  fresh := Nat.le_refl _
  job _ ds _ hp := ⟨ds, hp, .refl ds⟩

theorem Follows.trans (h : Follows w w') (h' : Follows w' w'') : Follows w w'' where
  traced := h'.traced
  fed := h'.fed
  fresh := h.fresh.trans h'.fresh
  job := (KeepsJobs.trans ⟨h.fresh, h.job⟩ ⟨h'.fresh, h'.job⟩).live

theorem follows_step (ht : Traced w) (hf : Fed w) {op : Op} (h : step w op = .ok w') :
    Follows w w' := by
  obtain ⟨hfresh, hjob⟩ := keepsJobs_call calm_signal ht h
  refine ⟨ht.call requeues_signal h, ?_, hfresh, hjob⟩
  rcases call_cases requeues_signal ht h with ⟨path, filename, url, crc, exec, -, rfl⟩ | hmoves
  · exact hf.queueFile
  · exact hf.moves calm_signal hmoves

theorem follows_run (ht : Traced w) (hf : Fed w) {ops : List Op} (h : run step w ops = .ok w') :
    Follows w w' := by
  induction ops generalizing w with
  | nil =>
      rw [← Except.ok.inj h]
      exact .refl ht hf
  | cons op ops ih =>
      obtain ⟨w₁, hw₁, h⟩ := run_cons_eq_ok _ h
      have hone := follows_step ht hf hw₁
      exact hone.trans (ih hone.traced hone.fed h)

end Follows

/-! ## Queueing through the client -/

/-- The client queues the file `o` of the server, alone or with a whole channel. -/
inductive ClientQueues (pathPrefix : Bytes) (o : FileObject) (w : World) : World → Prop
  | channel (updates : ChannelFileList) (urlPrefix : Bytes)
      (listed : updates.getFiles[o.filename]? = some o) :
      ClientQueues pathPrefix o w (updateChannel updates urlPrefix pathPrefix w)
  | file (urlPrefix : Bytes) : ClientQueues pathPrefix o w (updateFile o urlPrefix pathPrefix w)

section Client

variable {pathPrefix : Bytes} {o : FileObject} {w w' : World}

theorem Fed.updateChannel (h : Fed w) (updates : ChannelFileList) (urlPrefix : Bytes) :
    Fed (updateChannel updates urlPrefix pathPrefix w) := by
  rw [updateChannel_eq]
  induction filesOf updates generalizing w with
  | nil => exact h
  | cons o fs ih =>
      apply ih
      unfold queueUpdate
      split
      · exact h
      · exact h.queueFile

/-- The download that the client adds for the file is one of this file. -/
theorem ClientQueues.jobOf (h : ClientQueues pathPrefix o w w') {p : Ptr} {ds : DataStruct}
    (hnew : w.heap p = none) (hp : w'.heap p = some ds) (hname : ds.filename = o.filename) :
    JobOf pathPrefix o ds := by
  cases h with
  | channel updates urlPrefix listed =>
      rcases updateChannel_live hp with hold | ⟨o', ho', -, hjob⟩
      · rw [hnew] at hold
        simp at hold
      · have hsame : o'.filename = o.filename := hjob.filename.symm.trans hname
        rw [hsame, listed, Option.some.injEq] at ho'
        rwa [ho']
  | file urlPrefix =>
      unfold updateFile at hp
      split at hp
      · rw [hnew] at hp
        simp at hp
      · rcases queueFile_live hp with hold | ⟨-, rfl⟩
        · rw [hnew] at hold
          simp at hold
        · exact ⟨rfl, rfl, rfl⟩

theorem ClientQueues.keeps (h : ClientQueues pathPrefix o w w') (ht : Traced w) (hf : Fed w) :
    Traced w' ∧ Fed w' := by
  cases h with
  | channel updates urlPrefix listed =>
      exact ⟨ht.updateChannel updates urlPrefix, hf.updateChannel updates urlPrefix⟩
  | file urlPrefix =>
      unfold updateFile
      split
      · exact ⟨ht, hf⟩
      · exact ⟨ht.queueFile, hf.queueFile⟩

end Client

/-! ## From the signal to the next decision -/

/-- In a run of the object the client queues the file and `poll` signals its success, with
`e` as the transfer. curl reports a transfer whose data was once refused as an error. -/
structure CompletedByClient (pathPrefix : Bytes) (o : FileObject) (h : Handling)
    (e : EasyHandle) : Prop where
  reached : ∃ n fs before w w₁ p ds between w₂ r, run step (World.init n fs) before = .ok w ∧
    ClientQueues pathPrefix o w w₁ ∧ w.heap p = none ∧ w₁.heap p = some ds ∧
    ds.filename = o.filename ∧ run step w₁ between = .ok w₂ ∧ HandledIn signal w₂ r p h
  success : h.error = none
  transfer : h.state.easy h.msg.handle = some e
  refusal : e.writeFailed = true → h.msg.result ≠ .ok

/-- The path `calculateUpdates` reads and the path `poll` writes lead to the same place. -/
def SamePath (pathPrefix filename : Bytes) (fs : FileSystem) : Prop :=
  fs.resolve (cStr (pathPrefix ++ filename)) =
    fs.resolve (cStr (pathPrefix ++ ascii "/" ++ filename))

/-- When the stored file is readable and the copy of a body with the checksum of the server is
complete, or something else has that checksum. -/
def Acceptable (pathPrefix : Bytes) (o : FileObject) (h : Handling) (e : EasyHandle)
    (fs : FileSystem) : Prop :=
  (SamePath pathPrefix o.filename fs → h.readable = true ∧
    (StoresAll h.msg.storage h.ds.fp → o.crc32 ≠ 0 ∨ crc32 0 e.body = 0) ∧
    (¬StoresAll h.msg.storage h.ds.fp →
      crc32 0 (copiedContent h.msg.storage h.ds.fp) = o.crc32)) ∧
  (¬SamePath pathPrefix o.filename fs →
    ∃ n, fs.lookup (cStr (pathPrefix ++ o.filename)) = some n ∧ n.readable = true ∧
      crc32 0 (readableBytes n) = o.crc32)

theorem Handling.arrived {h : Handling} (herr : h.error = none) : Arrived h.msg h.ds := by
  rcases h.cases with ⟨-, hne, -⟩ | ⟨-, hne, -⟩ | ⟨ha, -⟩
  · exact absurd herr hne
  · exact absurd herr hne
  · exact ha

/-- After a signal of success the target holds what the copy left in it. -/
theorem Handling.lookup_regular {h : Handling} (herr : h.error = none) :
    ∃ n, h.fs.lookup (cStr h.ds.target) = some n ∧ n.readable = h.readable ∧
      n.kind = .regular (copiedContent h.msg.storage h.ds.fp) := by
  obtain ⟨n, hn, hr⟩ := h.lookup herr
  refine ⟨n, hn, hr, ?_⟩
  have ha := Handling.arrived herr
  obtain ⟨w, m, ds⟩ := h
  simp only [error, Handling.fs, finishTransfer_of ha] at herr hn ⊢
  have hok : (copyFile m.storage ds.fp ds.target w.fs).1 = 0 := by
    by_contra hne
    simp [hne] at herr
  have hholds : HoldsExactly (if ds.executable then osSetExecutable m.storage ds.target
      (copyFile m.storage ds.fp ds.target w.fs).2 else
        (copyFile m.storage ds.fp ds.target w.fs).2) ds.target
      (copiedContent m.storage ds.fp) := by
    split
    · rw [holdsExactly_osSetExecutable, holdsExactly_copyFile hok]
    · rw [holdsExactly_copyFile hok]
  obtain ⟨n', hn', hk⟩ := hholds
  rw [hn, Option.some.injEq] at hn'
  rw [hn', hk]

namespace CompletedByClient

variable {pathPrefix : Bytes} {o : FileObject} {h : Handling} {e : EasyHandle}

theorem job (hc : CompletedByClient pathPrefix o h e) :
    JobOf pathPrefix o h.ds ∧ Received h.ds e := by
  obtain ⟨n, fs, before, w, w₁, p, ds, between, w₂, r, hbefore, hqueue, hnew, hp, hname, hbetween,
    hh⟩ := hc.reached
  have hstart := follows_run (traced_init n fs) (fed_init n fs) hbefore
  obtain ⟨ht₁, hf₁⟩ := hqueue.keeps hstart.traced hstart.fed
  have hrun := follows_run ht₁ hf₁ hbetween
  obtain ⟨d, hd, hjob⟩ := hh.job calm_signal hrun.traced
  obtain ⟨d₁, hd₁, hjob₁⟩ := hrun.job p d (ht₁.lt_fresh hp) hd
  rw [hp, Option.some.injEq] at hd₁
  subst hd₁
  refine ⟨((hqueue.jobOf hnew hp hname).sameJob hjob₁).sameJob hjob, ?_⟩
  have hfed := hrun.fed.moves calm_signal (hh.moves requeues_signal hrun.traced)
  obtain ⟨-, -, -, -, -, -, -, -, hpriv, hlive⟩ := hh
  have hhandle : e.priv = p := by
    rw [World.easyGetinfoPrivate, hc.transfer] at hpriv
    exact Except.ok.inj hpriv
  have hkey := hfed.wired h.msg.handle e hc.transfer
  rw [hhandle] at hkey
  have hok : e.writeFailed = false := by
    by_contra hfail
    exact hc.refusal (by simpa using hfail) (Handling.arrived hc.success).2.1
  refine hfed.intact p h.ds e hlive ?_ hok
  rw [hkey]
  exact hc.transfer

/-- The checksum of what was stored. -/
theorem crc32_copied (hc : CompletedByClient pathPrefix o h e)
    (hall : StoresAll h.msg.storage h.ds.fp) :
    crc32 0 (copiedContent h.msg.storage h.ds.fp) = o.crc32 ↔
      o.crc32 ≠ 0 ∨ crc32 0 e.body = 0 := by
  obtain ⟨hjob, hrec⟩ := hc.job
  have hcrc := (Handling.arrived hc.success).2.2
  rw [hjob.expectedCrc32, hrec.crc] at hcrc
  rw [(copiedContent_eq_iff _ _).mpr hall, hrec.content]
  constructor
  · intro heq
    by_cases hzero : o.crc32 = 0
    · exact .inr (heq.trans hzero)
    · exact .inl hzero
  · intro hright
    rcases hcrc with hzero | heq
    · rw [hzero]
      exact hright.resolve_left (absurd hzero)
    · exact heq.symm

end CompletedByClient

/-- After the run in which the file was completed, the next decision about the same server list
accepts it exactly when it is acceptable; both paths agree when the prefix ends with a
separator. -/
theorem accepted_later (pathPrefix : Bytes) (o : FileObject) (h : Handling) (e : EasyHandle)
    (hc : CompletedByClient pathPrefix o h e) (hdel : o.deleted = false)
    (got : Bytes → ℕ → ℕ) (hgot : ∀ path turn, 0 < got path turn)
    (server system localList updates : ChannelFileList)
    (hserver : server.getFiles[o.filename]? = some o)
    (hlocal : localList.getFiles[o.filename]? = some o) (fs : FileSystem)
    (huntouched : fs.lookup (cStr h.ds.target) = h.fs.lookup (cStr h.ds.target)) :
    (pathPrefix.getLast? = some separator → SamePath pathPrefix o.filename fs) ∧
    ((o.filename, UpdateReason.none) ∈
        (calculateUpdates got server system localList updates pathPrefix fs).1 ↔
      Acceptable pathPrefix o h e fs) := by
  refine ⟨fun hsep => (resolve_target hsep fs o.filename).symm, ?_⟩
  rw [mem_calculateUpdates_iff hserver, reasonFor_eq_none_iff hgot hdel hlocal]
  by_cases hsame : SamePath pathPrefix o.filename fs
  · obtain ⟨n, hn, hr, hk⟩ := Handling.lookup_regular hc.success
    have htarget : h.ds.target = pathPrefix ++ ascii "/" ++ o.filename := by
      rw [DataStruct.target, hc.job.1.path, hc.job.1.filename]
    have hlookup : fs.lookup (cStr (pathPrefix ++ o.filename)) = some n := by
      rw [FileSystem.lookup, hsame, ← htarget, ← hn, ← huntouched]
      rfl
    have hbytes : readableBytes n = copiedContent h.msg.storage h.ds.fp := by
      rw [readableBytes, hk]
    rw [hlookup]
    simp only [Option.some.injEq, exists_eq_left', hbytes, hr, Acceptable, hsame, true_implies,
      not_true_eq_false, false_implies, and_true]
    by_cases hall : StoresAll h.msg.storage h.ds.fp
    · simp [hall, hc.crc32_copied hall]
    · simp [hall]
  · simp [Acceptable, hsame]

/-! ## With and without a separator -/

/-- A file of one byte. -/
def oneByte : FileObject :=
  { emptyFile (ascii "x") with crc32 := crc32 0 (ascii "y") }

def listOfOneByte : ChannelFileList :=
  ChannelFileList.empty.addFile oneByte

/-- The client queues it, and the byte arrives. -/
def oneByteRun (pathPrefix : Bytes) : Except Fault World :=
  run step (updateFile oneByte (ascii "http://h") pathPrefix (World.init 1 .empty))
    [.poll { running := 0 },
      .poll { writes := [{ handle := 0, buffer := ascii "y", room := 1 }], running := 1 }]

def oneByteTransfer : EasyHandle where
  url := ascii "http://h/x"
  priv := 0
  body := ascii "y"

/-- The handling of the message of success. -/
def oneByteHandling (pathPrefix : Bytes) (w : World) : Handling where
  state := { w with msgs := [] }
  msg := { handle := 0 }
  ds :=
    { newDataStruct pathPrefix (ascii "x") (ascii "http://h/x") (crc32 0 (ascii "y")) false 0 with
      fp := some (ascii "y")
      actualCrc32 := crc32 (crc32 0 []) (ascii "y") }

theorem oneByte_completed {pathPrefix : Bytes} {w : World} (hw : oneByteRun pathPrefix = .ok w)
    (hheap : w.heap 0 = some (oneByteHandling pathPrefix w).ds)
    (heasy : w.easy 0 = some oneByteTransfer) (hmsgs : w.msgs = [])
    (herr : (oneByteHandling pathPrefix w).error = none) :
    CompletedByClient pathPrefix oneByte (oneByteHandling pathPrefix w) oneByteTransfer := by
  refine ⟨⟨1, .empty, [], _, _, 0, _, _, w, succeeds, rfl, .file (ascii "http://h"), rfl, rfl, rfl,
    hw, ?_⟩, herr, heasy, fun hfail => absurd hfail (by decide)⟩
  refine ⟨{ w with msgs := w.msgs ++ succeeds.done }, 0, _, [], rfl, rfl, ?_, rfl, ?_, hheap⟩
  · simp only [hmsgs]
    rfl
  · have hpriv : (oneByteHandling pathPrefix w).state.easy 0 = some oneByteTransfer := heasy
    simp only [World.easyGetinfoPrivate, oneByteHandling] at hpriv ⊢
    rw [hpriv]
    rfl

theorem accepted_later_separated :
    ∃ w, oneByteRun (ascii "d/") = .ok w ∧
      CompletedByClient (ascii "d/") oneByte (oneByteHandling (ascii "d/") w) oneByteTransfer ∧
      ((ascii "d/").getLast? = some separator → SamePath (ascii "d/") (ascii "x")
        (oneByteHandling (ascii "d/") w).fs) ∧
      ((ascii "x", UpdateReason.none) ∈ (calculateUpdates wholeBlocks listOfOneByte .empty
          listOfOneByte .empty (ascii "d/") (oneByteHandling (ascii "d/") w).fs).1 ↔
        Acceptable (ascii "d/") oneByte (oneByteHandling (ascii "d/") w) oneByteTransfer
          (oneByteHandling (ascii "d/") w).fs) := by
  refine ⟨_, rfl, ?_⟩
  have hc : CompletedByClient (ascii "d/") oneByte (oneByteHandling (ascii "d/") _)
      oneByteTransfer := oneByte_completed rfl rfl rfl rfl (by decide)
  exact ⟨hc, accepted_later _ oneByte _ _ hc rfl wholeBlocks (fun _ _ => Nat.succ_pos _)
    listOfOneByte .empty listOfOneByte .empty rfl rfl _ rfl⟩

/-- Without a separator `poll` writes `d/x` and `calculateUpdates` reads `dx`. -/
theorem accepted_later_missing :
    ∃ w, oneByteRun (ascii "d") = .ok w ∧
      CompletedByClient (ascii "d") oneByte (oneByteHandling (ascii "d") w) oneByteTransfer ∧
      listOfOneByte.getFiles[ascii "x"]? = some oneByte ∧ oneByte.deleted = false ∧
      (calculateUpdates wholeBlocks listOfOneByte .empty listOfOneByte .empty (ascii "d")
        (oneByteHandling (ascii "d") w).fs).1 = [(ascii "x", .missing)] :=
  ⟨_, rfl, oneByte_completed rfl rfl rfl rfl (by decide), rfl, rfl, rfl⟩

end LibWfut
