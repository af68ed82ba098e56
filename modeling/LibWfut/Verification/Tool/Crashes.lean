import LibWfut.Verification.Tool.Independence
import LibWfut.Verification.Xml.Torn

/-! # Runs after a crash

What a crash leaves of `wfut.xml` or `tempwfut.xml` is not read as a list, and no later run
gets past it. -/

namespace LibWfut

open FileTree Machine TinyXml

/-- A run of the tool, which returns a status and leaves a tree. -/
def toolStep (o : Options) (s : List Int32 × FileSystem) (env : Environment) :
    Except Fault (List Int32 × FileSystem) :=
  (main o env s.2).map fun r => (s.1 ++ [r.1], r.2)

/-- Runs of the tool, one after the other: what they return and what they leave. -/
def runs (o : Options) (envs : List Environment) (fs : FileSystem) :
    Except Fault (List Int32 × FileSystem) :=
  run (toolStep o) ([], fs) envs

/-! ## Reading what is no list -/

section Reading

variable {env : Environment} {fs : FileSystem} {path t : Bytes}

theorem osExists_of_holdsExactly (h : HoldsExactly fs path t) : osExists fs path = true := by
  obtain ⟨n, hn, -⟩ := h
  rw [osExists, hn]
  rfl

/-- A file without a list is as good as one that cannot be read. -/
theorem getLocalList_of_noList (henv : UsesTinyXml env) (hfs : HoldsExactly fs path t)
    (ht : NoList t) : getLocalList env path fs = .ok (1, .empty) := by
  obtain ⟨n, hn, hk⟩ := hfs
  have hfile : loadText env path fs = .ok none ∨ loadText env path fs = .ok (some t) := by
    unfold loadText fopenRead
    rw [hn, Option.filter_some]
    cases n.readable with
    | true => exact .inr (by simp [hk])
    | false => exact .inl rfl
  rw [getLocalList]
  rcases hfile with hnone | hsome
  · rw [hnone]
    rfl
  · rw [hsome, ok_bind, parseFileList, Option.bind_some]
    rcases ht with herror | ⟨nodes, hok, hfind⟩
    · rw [henv.load.error t herror]
      rfl
    · rw [henv.load.ok t nodes hok]
      simp only [parseDocument, hfind]

theorem loadList_of_noList (henv : UsesTinyXml env) (hfs : HoldsExactly fs path t)
    (ht : NoList t) (channel : Bytes) : loadList env path channel fs = .ok none := by
  rw [loadList, if_pos (osExists_of_holdsExactly hfs), getLocalList_of_noList henv hfs ht]
  rfl

theorem mergeTmp_of_noList (henv : UsesTinyXml env) (hfs : HoldsExactly fs path t)
    (ht : NoList t) (files : ChannelFileList) : mergeTmp env path files fs = .ok none := by
  rw [mergeTmp, if_pos (osExists_of_holdsExactly hfs), getLocalList_of_noList henv hfs ht]
  rfl

end Reading

/-! ## Files that are cut off -/

/-- A file of the tool holds only the start of what was to be written. -/
inductive Torn (o : Options) (fs : FileSystem) : Prop
  | list {l : ChannelFileList} {t : Bytes} (holds : HoldsExactly fs o.localWfut t)
      (survives : NameSurvives l) (start : t <+: fileListText l)
      (short : t.length + 1 < (fileListText l).length) (complete : Complete t)
      (blank : t ∉ blankStarts) : Torn o fs
  | log {completed : List FileObject} {t : Bytes} (holds : HoldsExactly fs o.tmpWfut t)
      (start : t <+: logHeader ++ completed.flatMap logRecord) (blank : t ∉ blankStarts) :
      Torn o fs

/-- A run gives up before it decides. -/
theorem loadLists_of_torn {o : Options} {env : Environment} {fs : FileSystem}
    {lists : Option Loaded} (henv : UsesTinyXml env) (htorn : Torn o fs)
    (h : loadLists o env fs = .ok lists) : lists = none := by
  unfold loadLists at h
  cases htorn with
  | list holds survives start short complete blank =>
      rw [loadList_of_noList henv holds (noList_save survives start short complete blank)] at h
      exact (Except.ok.inj h).symm
  | log holds start blank =>
      have hmerge := mergeTmp_of_noList henv holds (noList_log start blank)
      obtain ⟨found, -, h⟩ := bind_eq_ok h
      cases found with
      | none => exact (Except.ok.inj h).symm
      | some found =>
          simp only [hmerge, ok_bind] at h
          exact (Except.ok.inj h).symm

/-- It leaves everything as it is. -/
theorem main_of_torn {o : Options} {env : Environment} {fs fs' : FileSystem} {status : Int32}
    (henv : UsesTinyXml env) (htorn : Torn o fs) (h : main o env fs = .ok (status, fs')) :
    status = 1 ∧ fs' = fs := by
  obtain ⟨lists, hlists, h⟩ := bind_eq_ok h
  rw [loadLists_of_torn henv htorn hlists] at h
  obtain ⟨rfl, rfl⟩ := Prod.mk.inj (Except.ok.inj h)
  exact ⟨rfl, rfl⟩

/-- Once a crash has cut off the list or the log, runs that return have returned 1 and changed
nothing, whatever the server offers. -/
theorem torn_files_block (o : Options) (fs fs' : FileSystem) (htorn : Torn o fs)
    (envs : List Environment) (henvs : ∀ env ∈ envs, UsesTinyXml env) (statuses : List Int32)
    (h : runs o envs fs = .ok (statuses, fs')) : (∀ s ∈ statuses, s = 1) ∧ fs' = fs := by
  have hstep : ∀ s env s', (∀ r ∈ s.1, r = 1) ∧ s.2 = fs → UsesTinyXml env →
      toolStep o s env = .ok s' → (∀ r ∈ s'.1, r = 1) ∧ s'.2 = fs := by
    rintro ⟨done, gs⟩ env s' ⟨hdone, rfl⟩ henv hs'
    obtain ⟨⟨status, gs'⟩, hmain, rfl⟩ := map_eq_ok hs'
    obtain ⟨rfl, hsame⟩ := main_of_torn henv htorn hmain
    refine ⟨fun r hr => ?_, hsame⟩
    rcases List.mem_append.mp hr with hr | hr
    · exact hdone r hr
    · exact List.mem_singleton.mp hr
  exact run_preserves (toolStep o) hstep ⟨by simp, rfl⟩ henvs h

/-! ## A log without a record -/

/-- A log that was cut off in its header. -/
def tornTree : FileSystem :=
  writeText { put := 30 } (logHeader ++ logRecord (emptyFile (ascii "x")))
    (underP (ascii "c")).tmpWfut (FileSystem.empty.create [ascii "p"] newDirectory)

theorem torn_tornTree : Torn (underP (ascii "c")) tornTree :=
  @Torn.log (underP (ascii "c")) tornTree [emptyFile (ascii "x")]
    ((logHeader ++ logRecord (emptyFile (ascii "x"))).take 30) ⟨_, rfl, rfl⟩
    (by simpa using List.take_prefix ..) (by decide)

theorem main_tornTree :
    main (underP (ascii "c")) tinyXmlEnvironment tornTree = .ok (1, tornTree) := by
  have hlist : loadList tinyXmlEnvironment (underP (ascii "c")).localWfut
      (underP (ascii "c")).channel tornTree = .ok (some (ascii "c", .empty)) := rfl
  have hlog : NoList ((logHeader ++ logRecord (emptyFile (ascii "x"))).take 30) :=
    @noList_log [emptyFile (ascii "x")] _ (by simpa using List.take_prefix ..) (by decide)
  have hload : loadLists (underP (ascii "c")) tinyXmlEnvironment tornTree = .ok none := by
    unfold loadLists
    rw [hlist]
    simp only [ok_bind]
    rw [mergeTmp_of_noList usesTinyXml_tinyXmlEnvironment ⟨_, rfl, rfl⟩ hlog]
    rfl
  unfold main
  rw [hload]
  rfl

/-- Two runs, which the server would have given one file. -/
theorem torn_files_block_tornTree :
    ∃ statuses fs', runs (underP (ascii "c")) [tinyXmlEnvironment, tinyXmlEnvironment] tornTree =
        .ok (statuses, fs') ∧
      statuses.length = 2 ∧ (∀ s ∈ statuses, s = 1) ∧ fs' = tornTree := by
  have hruns : runs (underP (ascii "c")) [tinyXmlEnvironment, tinyXmlEnvironment] tornTree =
      .ok ([1, 1], tornTree) := by
    simp only [runs, run_cons, run_nil, toolStep, main_tornTree, Except.map, Except.bind,
      List.nil_append, List.singleton_append]
  refine ⟨[1, 1], tornTree, hruns, rfl, ?_⟩
  exact torn_files_block (underP (ascii "c")) tornTree tornTree torn_tornTree
    [tinyXmlEnvironment, tinyXmlEnvironment] (by simp [usesTinyXml_tinyXmlEnvironment]) [1, 1] hruns

end LibWfut
