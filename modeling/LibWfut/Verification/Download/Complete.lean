import LibWfut.Verification.Io.Quiet
import LibWfut.Verification.Files.Checksums
import LibWfut.Verification.Files.Copy

/-! # Completed downloads

As long as curl is never refused a write, the temporary file of a download holds the
body received so far, and the checksum is that of the body. What reaches the target is
another matter. -/

namespace LibWfut

open FileTree List Machine

/-! ## The temporary file -/

/-- The temporary file and the checksum are those of the body. -/
structure Received (ds : DataStruct) (e : EasyHandle) : Prop where
  content : ds.fp.getD [] = e.body
  crc : ds.actualCrc32 = crc32 0 e.body

theorem Received.writeData {ds : DataStruct} {e : EasyHandle} (h : Received ds e)
    {c : WriteCall} (hok : (e.receive c (writeData c ds).1).writeFailed = false) :
    Received (writeData c ds).2 (e.receive c (writeData c ds).1) := by
  have hfull : c.buffer.length ≤ (LibWfut.writeData c ds).1 := by
    simp only [EasyHandle.receive, Bool.or_eq_false_iff, decide_eq_false_iff_not, not_lt] at hok
    exact hok.2
  have hbody : (e.receive c (LibWfut.writeData c ds).1).body = e.body ++ c.buffer := rfl
  obtain ⟨hcontent, hcrc⟩ := h
  unfold LibWfut.writeData at hfull ⊢
  cases hfp : ds.fp with
  | none =>
      rw [hfp, Option.getD_none] at hcontent
      by_cases htmp : c.tmpfileOk = true
      · simp only [hfp, htmp, ite_true] at hfull ⊢
        constructor
        · simp only [Option.getD_some, EasyHandle.receive, ← hcontent, List.nil_append]
          exact List.take_of_length_le hfull
        · simp only [EasyHandle.receive, ← hcontent, crc32_append]
      · simp only [hfp, htmp] at hfull ⊢
        have hnil : c.buffer = [] := List.length_eq_zero_iff.mp (Nat.le_zero.mp hfull)
        constructor
        · simp [EasyHandle.receive, hfp, hnil, hcontent]
        · simp [EasyHandle.receive, hnil, hcrc]
  | some file =>
      rw [hfp, Option.getD_some] at hcontent
      simp only [hfp] at hfull ⊢
      constructor
      · simp only [Option.getD_some, EasyHandle.receive, hcontent]
        rw [List.take_of_length_le hfull]
      · simp only [EasyHandle.receive, hcrc, crc32_append]

/-- Every transfer that was never refused a write has all it received. -/
def Intact (w : World) : Prop :=
  ∀ p ds e, w.heap p = some ds → w.easy p = some e → e.writeFailed = false → Received ds e

theorem intact_init (n : Int32) (fs : FileSystem) : Intact (World.init n fs) := by
  intro p ds e hp
  simp [World.init] at hp

section Keep

variable {w w' : World}

/-- Losing downloads loses no data of the others. -/
theorem Intact.of_subset (h : Intact w) (hheap : ∀ p ds, w'.heap p = some ds → w.heap p = some ds)
    (heasy : ∀ p e, w'.easy p = some e → w.easy p = some e) : Intact w' :=
  fun p ds e hp he hok => h p ds e (hheap p ds hp) (heasy p e he) hok

theorem Intact.queueFile (h : Intact w) {path filename url : Bytes} {crc : ULong}
    {exec : Bool} : Intact (queueFile path filename url crc exec w).2 := by
  by_cases hu : w.files[url]? = none
  · rw [queueFile_state hu]
    intro p ds e hp he hok
    simp only [World.enqueue, Function.update_apply] at hp he
    by_cases hpf : p = w.fresh
    · rw [if_pos hpf, Option.some.injEq] at hp he
      subst hp he
      exact ⟨rfl, rfl⟩
    · rw [if_neg hpf] at hp he
      exact h p ds e hp he hok
  · rw [queueFile_refused hu]
    exact h

theorem Intact.receive (h : Intact w) {c : WriteCall} {ds : DataStruct} {e : EasyHandle}
    (hp : w.heap c.handle = some ds) (he : w.easy c.handle = some e) :
    Intact (w.receive c ds e) := by
  intro p ds' e' hp' he' hok
  simp only [World.receive, Function.update_apply] at hp' he'
  by_cases hpc : p = c.handle
  · rw [if_pos hpc, Option.some.injEq] at hp' he'
    subst hp' he'
    refine (h c.handle ds e hp he ?_).writeData hok
    simp only [EasyHandle.receive, Bool.or_eq_false_iff] at hok
    exact hok.1
  · rw [if_neg hpc] at hp' he'
    exact h p ds' e' hp' he' hok

theorem Intact.run_performWrite (hinv : Inv [] w) (h : Intact w) {cs : List WriteCall}
    (hc : ∀ c ∈ cs, c.handle ∈ w.attached) (hrun : run World.performWrite w cs = .ok w') :
    Intact w' := by
  induction cs generalizing w with
  | nil =>
      rw [run_nil, Except.ok.injEq] at hrun
      rwa [← hrun]
  | cons c cs ih =>
      obtain ⟨ds, e, hds, he, hpriv, hh, hw⟩ := performWrite_eq hinv.registry (hc c (by simp))
      rw [run_cons_of_ok _ hw] at hrun
      exact ih (hinv.receive hds hpriv hh) (h.receive hds he)
        (fun d hd => hc d (by simp [hd])) hrun

theorem Intact.step (hidle : Idle w) (h : Intact w) {op : Op} (hop : op.Allowed w)
    (hs : step w op = .ok w') : Intact w' := by
  cases op with
  | queueFile path filename url crc exec =>
      simp only [LibWfut.step, call, Except.ok.injEq] at hs
      rw [← hs]
      exact h.queueFile
  | poll r =>
      obtain ⟨n, w₂, hw₂, hpoll⟩ := poll_signal hidle hop
      simp only [LibWfut.step, call, hw₂, Except.map, Except.ok.injEq] at hs
      subst hs
      obtain ⟨w₁, hrun, hheap, heasy⟩ := hpoll.received
      refine (h.run_performWrite hidle.inv hop.writes hrun).of_subset ?_ ?_
      · intro p ds hp
        rw [hheap] at hp
        split at hp
        · simp at hp
        · exact hp
      · intro p e he
        rw [heasy] at he
        split at he
        · simp at he
        · exact he
  | abortDownload url =>
      simp only [LibWfut.step, call] at hs
      cases hu : w.files[url]? with
      | none =>
          rw [abortDownload_absent hu, Except.ok.injEq] at hs
          rwa [← hs]
      | some q =>
          obtain ⟨ds, hq, -⟩ := hidle.inv.registry.entry url q hu
          rw [abortDownload_signal hidle.inv hu hq, Except.ok.injEq] at hs
          subst hs
          refine h.of_subset ?_ ?_
          · intro p d hp
            rw [World.heap_aborted] at hp
            split at hp
            · simp at hp
            · exact hp
          · intro p e he
            by_cases hpq : p = q
            · simp [World.aborted, World.discard, hpq] at he
            · simpa [World.aborted, World.discard, World.withdrawAborted, World.withdraw,
                World.log, hpq] using he
  | abortAll =>
      obtain ⟨w₁, hw₁, -, -, hnone⟩ := abortAll_ok hidle.inv (delivers_signal _) le_rfl
        hidle.inv.registry.size_files.ge
      simp only [LibWfut.step, call, hw₁, Except.ok.injEq] at hs
      intro p ds e hp
      rw [← hs, hnone] at hp
      simp at hp
  | setMaxDownloads i =>
      simp only [LibWfut.step, call, Except.ok.injEq] at hs
      rw [← hs]
      exact h

end Keep

theorem keeps_intact : Keeps step Op.Allowed (fun w => Idle w ∧ Intact w) := by
  rintro w op ⟨hidle, h⟩ hop
  obtain ⟨w', hw', hidle'⟩ := keeps_idle w op hidle hop
  exact ⟨w', hw', hidle', h.step hidle hop hw'⟩

/-! ## The target -/

/-- The file at a path has exactly this content. -/
def HoldsExactly (fs : FileSystem) (path content : Bytes) : Prop :=
  ∃ n, fs.lookup (cStr path) = some n ∧ n.kind = .regular content

theorem Stored.lookup {env : Storage} {fs fs' : FileSystem} {l : Location}
    {content path : Bytes} (h : Stored env fs l content fs')
    (hl : fs.resolve (cStr path) = some l) :
    fs'.lookup (cStr path) = fs'.node l := by
  rw [FileSystem.lookup, FileSystem.resolve_congr h.grows.cwd h.isDir, hl]
  rfl

theorem holdsExactly_osSetExecutable {env : Storage} {fs : FileSystem}
    {path file content : Bytes} :
    HoldsExactly (osSetExecutable env file fs) path content ↔ HoldsExactly fs path content := by
  rcases osSetExecutable_cases env file fs with heq | ⟨l, -, -, heq⟩
  · rw [heq]
  · rw [heq]
    have hresolve : (fs.addMode l executeBits).resolve (cStr path) = fs.resolve (cStr path) :=
      FileSystem.resolve_congr (FileSystem.cwd_addMode fs l executeBits)
        (fun m => FileSystem.isDir_addMode fs l m executeBits) _
    simp only [HoldsExactly, FileSystem.lookup, hresolve]
    cases fs.resolve (cStr path) with
    | none => simp
    | some m =>
        simp only [Option.bind_some, FileSystem.node_addMode]
        by_cases hm : m = l
        · subst hm
          cases fs.node m <;> simp
        · simp [hm]

/-- The target holds what the copy left in it. -/
theorem holdsExactly_copyFile {env : Storage} {fp : Option Bytes} {target content : Bytes}
    {fs : FileSystem} (hok : (copyFile env fp target fs).1 = 0) :
    HoldsExactly (copyFile env fp target fs).2 target content ↔
      copiedContent env fp = content := by
  rcases copyFile_cases env fp target fs with heq | ⟨l, fs', hl, hstored, heq⟩
  · rw [heq] at hok
    simp at hok
  · obtain ⟨n, hn, hk, -⟩ := hstored.node
    rw [heq, HoldsExactly, hstored.lookup hl, hn]
    simp [hk]

/-- What a signal of success promises: the target holds the body, and its checksum is the
expected one if there is one. -/
def CompletedRight (v v' : World) (m : CurlMsg) (ds : DataStruct) (e : EasyHandle) : Prop :=
  v'.trace = v.trace ++ [.complete m.handle ds.url ds.filename] →
    HoldsExactly v'.fs ds.target e.body ∧
      (ds.expectedCrc32 = 0 ∨ crc32 0 e.body = ds.expectedCrc32)

/-- A copy that is made is made in full. -/
def CopyComplete (v : World) (m : CurlMsg) (ds : DataStruct) : Prop :=
  Arrived m ds → (copyFile m.storage ds.fp ds.target v.fs).1 = 0 → StoresAll m.storage ds.fp

theorem Handled.completedRight_iff {v v' : World} {m : CurlMsg} {ds : DataStruct}
    {rest : List CurlMsg} {e : EasyHandle} (h : Handled v m ds rest v')
    (hrec : m.result = .ok → Received ds e) :
    CompletedRight v v' m ds e ↔ CopyComplete v m ds := by
  have htrace : v'.trace = v.trace ++ [.complete m.handle ds.url ds.filename] ↔
      (finishTransfer m ds v.fs).1 = none := by
    rw [h.trace, List.append_cancel_left_eq]
    cases (finishTransfer m ds v.fs).1 <;> simp [outcome]
  rw [CompletedRight, CopyComplete, htrace]
  by_cases ha : Arrived m ds
  · have hr := hrec ha.2.1
    have hcrc : ds.expectedCrc32 = 0 ∨ crc32 0 e.body = ds.expectedCrc32 := by
      rw [← hr.crc]
      exact ha.2.2.imp_right Eq.symm
    have hfs : HoldsExactly v'.fs ds.target e.body ↔
        HoldsExactly (copyFile m.storage ds.fp ds.target v.fs).2 ds.target e.body := by
      rw [h.fs, finishTransfer_of ha]
      by_cases hx : ds.executable = true
      · simp only [hx, ite_true]
        exact holdsExactly_osSetExecutable
      · simp only [hx]
        rfl
    rw [finishTransfer_of ha, hfs]
    by_cases hok : (copyFile m.storage ds.fp ds.target v.fs).1 = 0
    · have hcopy : HoldsExactly (copyFile m.storage ds.fp ds.target v.fs).2 ds.target e.body ↔
          StoresAll m.storage ds.fp := by
        rw [holdsExactly_copyFile hok, ← hr.content, copiedContent_eq_iff]
      simp [ha, hok, hcopy, hcrc]
    · simp [hok]
  · obtain ⟨message, hfail⟩ := finishTransfer_of_not ha
    simp [hfail, ha]

/-- curl reports a transfer whose data was once refused as an error. -/
def PollReport.ReportsRefusals (w : World) (r : PollReport) : Prop :=
  ∀ w₁, run World.performWrite w r.writes = .ok w₁ →
    ∀ m ∈ r.done, ∀ e, w₁.easy m.handle = some e → e.writeFailed = true → m.result ≠ .ok

/-- In every poll of every run, a signal of success is right about the target exactly when
the copy to the target was complete. -/
theorem completed_download (n : Int32) (fs : FileSystem) (ops : List Op)
    (h : Permitted step Op.Allowed (World.init n fs) ops) :
    ∃ w, run step (World.init n fs) ops = .ok w ∧
      ∀ r, r.Delivered w → r.ReportsRefusals w →
        ∃ w₁, w.multiPerform r = .ok w₁ ∧
          ∀ before m rest, r.done = before ++ m :: rest →
            ∃ v v' ds e, drain signal before.length w₁ = .ok v ∧
              drain signal (before.length + 1) w₁ = .ok v' ∧
              v.heap m.handle = some ds ∧ v.easy m.handle = some e ∧
              (CompletedRight v v' m ds e ↔ CopyComplete v m ds) := by
  obtain ⟨w, hw, hidle, hint⟩ := keeps_intact.run_ok ⟨idle_init n fs, intact_init n fs⟩ h
  refine ⟨w, hw, ?_⟩
  intro r hd href
  obtain ⟨w₁, hrun, hrec, hinv₁, hperf, hinv⟩ := multiPerform_ok hidle.inv hidle.msgs hd
  refine ⟨_, hperf, ?_⟩
  intro before m rest hr
  obtain ⟨v, v', ds, hv, hv', hds, hvds, heasy, hone⟩ :=
    drain_split (w := { w₁ with msgs := r.done }) hinv hr
  have hm : m ∈ r.done := by simp [hr]
  have ha : m.handle ∈ w₁.attached := by
    rw [hrec.attached]
    exact hd.done m hm
  obtain ⟨-, e, -, -, -, he, -⟩ :=
    hinv₁.registry.easy_of_pool (List.mem_append_right _ ha)
  refine ⟨v, v', ds, e, hv, hv', hvds, heasy.trans he, hone.completedRight_iff ?_⟩
  intro hok
  refine hint.run_performWrite hidle.inv hd.writes hrun m.handle ds e hds he ?_
  by_contra hfail
  exact href w₁ hrun m hm e he (by simpa using hfail) hok

/-- One download that is attached to curl. -/
def oneRunning : List Op :=
  [.queueFile (ascii "d") (ascii "f") (ascii "http://h/f") 0 false, .poll { running := 0 }]

theorem oneRunning_permitted : Permitted step Op.Allowed (World.init 1 .empty) oneRunning := by
  refine ⟨fun _ => by decide, ?_⟩
  rintro _ ⟨⟩
  exact ⟨⟨by simp, by simp, by simp⟩, fun _ _ => trivial⟩

theorem completed_download_oneRunning :
    ∃ w, run step (World.init 1 .empty) oneRunning = .ok w ∧
      ∀ r, r.Delivered w → r.ReportsRefusals w →
        ∃ w₁, w.multiPerform r = .ok w₁ ∧
          ∀ before m rest, r.done = before ++ m :: rest →
            ∃ v v' ds e, drain signal before.length w₁ = .ok v ∧
              drain signal (before.length + 1) w₁ = .ok v' ∧
              v.heap m.handle = some ds ∧ v.easy m.handle = some e ∧
              (CompletedRight v v' m ds e ↔ CopyComplete v m ds) :=
  completed_download 1 .empty oneRunning oneRunning_permitted

/-- A message of success for a file that cannot be written any more. -/
def diskFull : CurlMsg :=
  { handle := 0, storage := { block := fun _ => ⟨bufferSize, 0⟩ } }

def diskFullPoll : PollReport :=
  { writes := [{ handle := 0, buffer := ascii "x", room := 1 }], running := 0, done := [diskFull] }

/-- On a full disk a download of one byte completes with an empty file. -/
theorem completed_download_diskFull :
    ∃ w, run step (World.init 1 .empty) oneRunning = .ok w ∧
      diskFullPoll.Delivered w ∧ diskFullPoll.ReportsRefusals w ∧
      ∃ v v' ds e, w.multiPerform diskFullPoll = .ok v ∧ drain signal 1 v = .ok v' ∧
        v.heap 0 = some ds ∧ v.easy 0 = some e ∧ ¬CompletedRight v v' diskFull ds e := by
  obtain ⟨w, hw, hidle, -⟩ :=
    keeps_intact.run_ok ⟨idle_init _ _, intact_init _ _⟩ oneRunning_permitted
  have hattached : w.attached = [0] := by
    have hfacts : (run step (World.init 1 .empty) oneRunning).map World.attached = .ok [0] := rfl
    rw [hw] at hfacts
    exact Except.ok.inj hfacts
  have hd : diskFullPoll.Delivered w := by
    constructor <;> simp [diskFullPoll, diskFull, hattached]
  obtain ⟨w₁, hrun, -, -, hperf, hinv⟩ := multiPerform_ok hidle.inv hidle.msgs hd
  obtain ⟨v, v', ds, hv, hv', hds, -, -, hone⟩ :=
    drain_split (w := { w₁ with msgs := diskFullPoll.done }) hinv (List.nil_append _).symm
  cases hv
  have hfacts : (run step (World.init 1 .empty) oneRunning >>= fun w =>
      run World.performWrite w diskFullPoll.writes).map (fun v => (v.heap 0, v.easy 0, v.fs)) =
      .ok (some
          { newDataStruct (ascii "d") (ascii "f") (ascii "http://h/f") 0 false 0 with
            fp := some (ascii "x"), actualCrc32 := crc32 (crc32 0 []) (ascii "x") },
        some { url := ascii "http://h/f", priv := 0, body := ascii "x" }, .empty) := rfl
  rw [hw, ok_bind, hrun, Except.map, Except.ok.injEq, Prod.mk.injEq, Prod.mk.injEq] at hfacts
  obtain ⟨hheap, heasy, hfs⟩ := hfacts
  have hheap' : w₁.heap 0 = some ds := hds
  rw [hheap', Option.some.injEq] at hheap
  refine ⟨w, hw, hd, ?_, _, v', ds, _, hperf, hv', hds, heasy, ?_⟩
  · intro w₂ hw₂ m hm e he hfail
    rw [hrun, Except.ok.injEq] at hw₂
    rw [← hw₂, List.mem_singleton.mp hm, show diskFull.handle = 0 from rfl, heasy,
      Option.some.injEq] at he
    rw [← he] at hfail
    simp at hfail
  · intro h
    have hrec : Received ds { url := ascii "http://h/f", priv := 0, body := ascii "x" } := by
      rw [hheap]
      exact ⟨rfl, by simp [crc32_append]⟩
    have hcopy := (hone.completedRight_iff fun _ => hrec).mp h
    rw [hheap] at hcopy
    have hstores := hcopy ⟨rfl, rfl, .inl rfl⟩ (by rw [hfs]; decide) (ascii "x") rfl
    simp [CopiesAll, diskFull, bufferSize, ascii] at hstores

end LibWfut
