import LibWfut.Verification.Client.Updates

/-! # Queueing a channel file by file

`updateChannel` passes on whether a file is executable, `updateFile` does not. -/

namespace LibWfut

open FileTree Encoder

/-- `updateFile` for every file of the list, in the order of the names. -/
def updateFiles (updates : ChannelFileList) (urlPrefix pathPrefix : Bytes) (w : World) : World :=
  (filesOf updates).foldl
    (fun w f => updateFile f (urlPrefix ++ updates.getName) pathPrefix w) w

/-- The files that the queue accepts one after the other, when these keys are registered:
those that are not deleted and whose URL is neither registered nor the encoding of an
accepted one. -/
def acceptedFiles (urlOf : Bytes → Bytes) : (Bytes → Bool) → List FileObject → List FileObject
  | _, [] => []
  | registered, f :: fs =>
    if f.deleted || registered (urlOf f.filename) then acceptedFiles urlOf registered fs
    else
      f :: acceptedFiles urlOf
        (fun k => registered k || k == encodeURL (urlOf f.filename)) fs

namespace World

/-- The keys of `m_files`. -/
def registered (w : World) (k : Bytes) : Bool :=
  w.files[k]?.isSome

theorem registered_eq_false {w : World} {k : Bytes} :
    w.registered k = false ↔ w.files[k]? = none := by
  rw [registered, Option.isSome_eq_false_iff, Option.isNone_iff_eq_none]

theorem registered_enqueue (w : World) (url : Bytes) (ds : DataStruct) :
    (w.enqueue url ds).registered = fun k => w.registered k || k == ds.url := by
  funext k
  simp only [registered, enqueue, Std.ExtTreeMap.getElem?_insert]
  by_cases hk : k = ds.url
  · simp [hk]
  · have hcmp : compare ds.url k ≠ .eq :=
      fun heq => hk (Std.LawfulEqCmp.eq_of_compare heq).symm
    simp [hcmp, hk]

/-- The state but for what is to be executable. -/
def withoutFlags (w : World) : World :=
  { w with heap := fun p => (w.heap p).map fun ds => { ds with executable := false } }

end World

section Queue

variable {updates : ChannelFileList} {urlPrefix pathPrefix : Bytes} {w : World}

theorem withoutFlags_queueFile {filename url : Bytes} {crc : ULong} {exec : Bool} :
    (queueFile pathPrefix filename url crc exec w).2.withoutFlags =
      (queueFile pathPrefix filename url crc false w.withoutFlags).2 := by
  by_cases hu : w.files[url]? = none
  · have hu' : w.withoutFlags.files[url]? = none := hu
    rw [queueFile_state hu, queueFile_state hu']
    simp only [World.enqueue, World.withoutFlags, newDataStruct, World.mk.injEq, true_and,
      and_true]
    funext p
    by_cases hp : p = w.fresh
    · simp [hp]
    · simp [hp]
  · have hu' : w.withoutFlags.files[url]? ≠ none := hu
    rw [queueFile_refused hu, queueFile_refused hu']

/-- Both ways queue the same downloads but for their flags. -/
theorem withoutFlags_foldl (fs : List FileObject) {v : World}
    (h : w.withoutFlags = v.withoutFlags) :
    (fs.foldl (queueUpdate updates urlPrefix pathPrefix) w).withoutFlags =
      (fs.foldl (fun v f => updateFile f (urlPrefix ++ updates.getName) pathPrefix v)
        v).withoutFlags := by
  induction fs generalizing w v with
  | nil => exact h
  | cons f fs ih =>
      apply ih
      unfold queueUpdate updateFile
      by_cases hdel : f.deleted = true
      · simpa only [hdel, ite_true] using h
      · simp only [hdel]
        rw [if_neg Bool.false_ne_true, if_neg Bool.false_ne_true, withoutFlags_queueFile,
          withoutFlags_queueFile, h]
        rfl

/-! ## The flag that is lost -/

theorem keepsQueued_foldl {step : World → FileObject → World}
    (hstep : ∀ w f, KeepsQueued w (step w f)) (fs : List FileObject) (w : World) :
    KeepsQueued w (fs.foldl step w) := by
  induction fs generalizing w with
  | nil => exact .refl w
  | cons f fs ih => exact (hstep w f).trans (ih (step w f))

/-- A download that was just queued is still there when more files are queued. -/
theorem heap_foldl_enqueue {step : World → FileObject → World}
    (hstep : ∀ w f, KeepsQueued w (step w f)) (fs : List FileObject) (w : World) (url : Bytes)
    (ds : DataStruct) : (fs.foldl step (w.enqueue url ds)).heap w.fresh = some ds := by
  have hlt : w.fresh < (w.enqueue url ds).fresh := Nat.lt_succ_self _
  rw [(keepsQueued_foldl hstep fs _).heap w.fresh hlt]
  simp [World.enqueue]

theorem keepsQueued_queueUpdate (w : World) (f : FileObject) :
    KeepsQueued w (queueUpdate updates urlPrefix pathPrefix w f) := by
  unfold queueUpdate
  split
  · exact .refl w
  · exact keepsQueued_queueFile ..

theorem keepsQueued_updateFile (w : World) (f : FileObject) :
    KeepsQueued w (updateFile f urlPrefix pathPrefix w) := by
  unfold updateFile
  split
  · exact .refl w
  · exact keepsQueued_queueFile ..

/-- The two ways part at the first file that is accepted as an executable. -/
theorem foldl_eq_foldl_iff (fs : List FileObject) (w : World) :
    fs.foldl (queueUpdate updates urlPrefix pathPrefix) w =
        fs.foldl (fun w f => updateFile f (urlPrefix ++ updates.getName) pathPrefix w) w ↔
      ∀ f ∈ acceptedFiles (fileUrl updates urlPrefix) w.registered fs, f.execute = false := by
  induction fs generalizing w with
  | nil => simp [acceptedFiles]
  | cons f fs ih =>
      rw [List.foldl_cons, List.foldl_cons, acceptedFiles]
      by_cases hskip : f.deleted = true ∨ w.registered (fileUrl updates urlPrefix f.filename) = true
      · have hone : queueUpdate updates urlPrefix pathPrefix w f = w ∧
            updateFile f (urlPrefix ++ updates.getName) pathPrefix w = w := by
          by_cases hdel : f.deleted = true
          · simp [queueUpdate, updateFile, hdel]
          · have hreg := hskip.resolve_left hdel
            have hrefused : w.files[fileUrl updates urlPrefix f.filename]? ≠ none := by
              intro hnone
              rw [World.registered_eq_false.mpr hnone] at hreg
              simp at hreg
            rw [queueUpdate, if_neg hdel, queueFile_refused hrefused, updateFile, if_neg hdel]
            refine ⟨rfl, ?_⟩
            exact congrArg Prod.snd (queueFile_refused hrefused)
        rw [hone.1, hone.2, if_pos (by simpa using hskip), ih]
      · simp only [not_or, Bool.not_eq_true] at hskip
        obtain ⟨hdel, hreg⟩ := hskip
        have hfree := World.registered_eq_false.mp hreg
        have hchannel : queueUpdate updates urlPrefix pathPrefix w f =
            w.enqueue (fileUrl updates urlPrefix f.filename)
              (newDataStruct pathPrefix f.filename (fileUrl updates urlPrefix f.filename) f.crc32
                f.execute w.fresh) := by
          rw [queueUpdate, if_neg (by simp [hdel]), queueFile_state hfree]
        have hsingle : updateFile f (urlPrefix ++ updates.getName) pathPrefix w =
            w.enqueue (fileUrl updates urlPrefix f.filename)
              (newDataStruct pathPrefix f.filename (fileUrl updates urlPrefix f.filename) f.crc32
                false w.fresh) := by
          rw [updateFile, if_neg (by simp [hdel])]
          exact queueFile_state hfree
        rw [hchannel, hsingle, if_neg (by simp [hdel, hreg])]
        cases hexec : f.execute with
        | false =>
            rw [ih, World.registered_enqueue]
            simp [hexec, newDataStruct]
        | true =>
            constructor
            · intro heq
              have hheap := congrArg (fun w' => w'.heap w.fresh) heq
              simp only [heap_foldl_enqueue keepsQueued_queueUpdate,
                heap_foldl_enqueue keepsQueued_updateFile] at hheap
              simp [newDataStruct] at hheap
            · intro hall
              rw [hall f (List.mem_cons_self ..)] at hexec
              simp at hexec

/-- Queueing a channel leaves the state that queueing its files one by one leaves exactly
when no file is accepted as an executable, and the two states never differ in more than
the flags. -/
theorem one_by_one (updates : ChannelFileList) (urlPrefix pathPrefix : Bytes) (w : World) :
    (updateChannel updates urlPrefix pathPrefix w).withoutFlags =
        (updateFiles updates urlPrefix pathPrefix w).withoutFlags ∧
      (updateChannel updates urlPrefix pathPrefix w = updateFiles updates urlPrefix pathPrefix w ↔
        ∀ f ∈ acceptedFiles (fileUrl updates urlPrefix) w.registered (filesOf updates),
          f.execute = false) := by
  rw [updateChannel_eq, updateFiles]
  exact ⟨withoutFlags_foldl _ rfl, foldl_eq_foldl_iff _ w⟩

end Queue

/-- A channel with one executable. -/
def executableChannel : ChannelFileList :=
  (ChannelFileList.empty.setName (ascii "c")).addFile
    { filename := ascii "x"
      version := 1
      crc32 := 0
      size := 0
      execute := true
      deleted := false }

theorem one_by_one_executable :
    updateChannel executableChannel (ascii "http://h/") (ascii "d") (World.init 1 .empty) ≠
      updateFiles executableChannel (ascii "http://h/") (ascii "d") (World.init 1 .empty) := by
  intro heq
  have hflag := congrArg (fun w => (w.heap 0).map DataStruct.executable) heq
  revert hflag
  decide

end LibWfut
