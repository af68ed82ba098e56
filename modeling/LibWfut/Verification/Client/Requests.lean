import LibWfut.Verification.Client.SingleFiles
import LibWfut.Verification.Encoding.Urls

/-! # The requests of a channel

`updateChannel` puts a filename into a URL as it is, and only then is the URL escaped, as a
whole. A question mark in a filename is still one in the URL. -/

namespace LibWfut

open Encoder

/-! ## Prefixes and paths -/

def isSchemeChar (c : UInt8) : Bool :=
  isAlnum c ∨ c ∈ ascii "+-."

/-- The text `scheme://host/path`; `path` is what follows the slash. -/
structure UrlPrefix where
  scheme : Bytes
  host : Bytes
  path : Bytes
  scheme_ne : scheme ≠ []
  scheme_chars : ∀ c ∈ scheme, isSchemeChar c = true
  host_chars : ∀ c ∈ [Uri.slash, Uri.question, Uri.hash], c ∉ host
  path_chars : ∀ c ∈ [Uri.question, Uri.hash], c ∉ path

def UrlPrefix.text (u : UrlPrefix) : Bytes :=
  u.scheme ++ Uri.colon :: Uri.slash :: Uri.slash :: (u.host ++ Uri.slash :: u.path)

/-- What stands behind the host in the URL of a file. -/
def UrlPrefix.pathOf (u : UrlPrefix) (channel filename : Bytes) : Bytes :=
  u.path ++ channel ++ ascii "/" ++ filename

/-- The path of a URL, as the server reads it. -/
def serverPath (url : Bytes) : Option Bytes :=
  Uri.decode (Uri.parse url).path

/-- The URL asks for the path of the file, and for nothing else. -/
structure OwnPath (u : UrlPrefix) (channel filename url : Bytes) : Prop where
  query : (Uri.parse url).query = none
  fragment : (Uri.parse url).fragment = none
  path : serverPath url = some (Uri.slash :: u.pathOf channel filename)

def SevenBit (s : Bytes) : Prop :=
  ∀ c ∈ s, c < 128

instance (s : Bytes) : Decidable (SevenBit s) :=
  List.decidableBAll _ s

/-! ## The URL of a file -/

theorem upperHexDigit_delimiters : ∀ d < 16,
    upperHexDigit d ∉ [Uri.slash, Uri.question, Uri.hash] := by
  decide

/-- Escapes consist of characters that delimit nothing. -/
theorem eq_of_mem_encodeURLChar {c d : UInt8} (hc : c ∈ [Uri.slash, Uri.question, Uri.hash])
    (h : c ∈ encodeURLChar d) : d = c ∧ passesThrough c = true := by
  rcases encodeURLChar_cases d with ⟨henc, hpass, -⟩ | henc
  · rw [henc, List.mem_singleton] at h
    subst h
    exact ⟨rfl, hpass⟩
  · have hlt := (legible d).toNat_lt
    have hpercent : Uri.percent ∉ [Uri.slash, Uri.question, Uri.hash] := by decide
    simp only [henc, List.mem_cons, List.not_mem_nil, or_false] at h
    rcases h with rfl | rfl | rfl
    · exact absurd hc hpercent
    · exact absurd hc (upperHexDigit_delimiters _ (by omega))
    · exact absurd hc (upperHexDigit_delimiters _ (by omega))

theorem encodeURLChar_scheme_all : ∀ n < 256, isSchemeChar n.toUInt8 = true →
    encodeURLChar n.toUInt8 = [n.toUInt8] ∧
      n.toUInt8 ∉ [Uri.colon, Uri.slash, Uri.question, Uri.hash] := by
  decide +kernel

theorem hash_not_mem_encodeURL (s : Bytes) : Uri.hash ∉ encodeURL s := by
  intro h
  obtain ⟨d, -, hd⟩ := List.mem_flatMap.mp h
  have hpass := (eq_of_mem_encodeURLChar (by simp) hd).2
  revert hpass
  decide

theorem not_mem_encodeURL {c : UInt8} (hc : c ∈ [Uri.slash, Uri.question, Uri.hash]) {s : Bytes}
    (h : c ∉ s) : c ∉ encodeURL s := by
  intro hmem
  obtain ⟨d, hd, hmem⟩ := List.mem_flatMap.mp hmem
  exact h ((eq_of_mem_encodeURLChar hc hmem).1 ▸ hd)

theorem encodeURL_scheme {s : Bytes} (h : ∀ c ∈ s, isSchemeChar c = true) :
    encodeURL s = s := by
  induction s with
  | nil => rfl
  | cons c s ih =>
      have hone := encodeURLChar_scheme_all c.toNat c.toNat_lt
      have hc : encodeURLChar c = [c] := by
        simpa using (hone (by simpa using h c (List.mem_cons_self ..))).1
      have hs := ih fun d hd => h d (List.mem_cons_of_mem _ hd)
      rw [encodeURL, List.flatMap_cons, hc, List.singleton_append]
      exact congrArg _ hs

theorem cut_encodeURL (s : Bytes) : Uri.cut Uri.question (encodeURL s) =
    (encodeURL (Uri.cut Uri.question s).1, (Uri.cut Uri.question s).2.map encodeURL) :=
  Uri.cut_flatMap (by decide) (fun _ hd hmem => hd (eq_of_mem_encodeURLChar (by simp) hmem).1) s

section Parse

variable (u : UrlPrefix) (channel filename : Bytes)

/-- The encoded URL of a file has the scheme and the encoded host of the prefix. A question
mark behind these is where its query begins. -/
theorem parse_encodeURL : Uri.parse (encodeURL (u.text ++ channel ++ ascii "/" ++ filename)) =
    { scheme := some u.scheme, authority := some (encodeURL u.host),
      path := Uri.slash :: encodeURL (Uri.cut Uri.question (u.pathOf channel filename)).1,
      query := (Uri.cut Uri.question (u.pathOf channel filename)).2.map encodeURL,
      fragment := none } := by
  have htext : encodeURL (u.text ++ channel ++ ascii "/" ++ filename) =
      u.scheme ++ Uri.colon :: Uri.slash :: Uri.slash ::
        (encodeURL u.host ++ Uri.slash :: encodeURL (u.pathOf channel filename)) := by
    have hscheme := encodeURL_scheme u.scheme_chars
    have hcolon : encodeURLChar Uri.colon = [Uri.colon] := by decide
    have hslash : encodeURLChar Uri.slash = [Uri.slash] := by decide
    simp only [encodeURL, UrlPrefix.text, UrlPrefix.pathOf, List.flatMap_append,
      List.flatMap_cons, List.append_assoc, List.cons_append, hcolon, hslash, List.nil_append]
    rw [show u.scheme.flatMap encodeURLChar = u.scheme from hscheme]
  have hdelim : ∀ c ∈ [Uri.colon, Uri.slash, Uri.question, Uri.hash], c ∉ u.scheme := by
    intro c hc hmem
    have hone := encodeURLChar_scheme_all c.toNat c.toNat_lt
    exact (hone (by simpa using u.scheme_chars c hmem)).2 (by simpa using hc)
  have hhost : ∀ c ∈ [Uri.slash, Uri.question, Uri.hash], c ∉ encodeURL u.host := by
    intro c hc
    by_cases hhash : c = Uri.hash
    · rw [hhash]
      exact hash_not_mem_encodeURL _
    · exact not_mem_encodeURL (by simpa [hhash] using hc) (u.host_chars c hc)
  rw [htext, Uri.parse_generic u.scheme_ne hdelim hhost (hash_not_mem_encodeURL _),
    cut_encodeURL]

theorem serverPath_encodeURL :
    serverPath (encodeURL (u.text ++ channel ++ ascii "/" ++ filename)) =
      some (Uri.slash :: (Uri.cut Uri.question (u.pathOf channel filename)).1.map legible) := by
  rw [serverPath, parse_encodeURL]
  simp only
  rw [Uri.decode_plain (by decide), decode_encodeURL, Option.map_some]

theorem question_not_mem_pathOf :
    Uri.question ∉ u.pathOf channel filename ↔
      Uri.question ∉ channel ∧ Uri.question ∉ filename := by
  have hpath := u.path_chars Uri.question (by simp)
  have hslash : Uri.question ∉ ascii "/" := by decide
  simp [UrlPrefix.pathOf, hpath, hslash, not_or]

variable {filename}

/-- A file is asked for by its own path exactly when no question mark ends that path early
and every byte of it is escaped legibly. -/
theorem ownPath_iff (hf : SevenBit filename) :
    OwnPath u channel filename (encodeURL (u.text ++ channel ++ ascii "/" ++ filename)) ↔
      Uri.question ∉ channel ∧ Uri.question ∉ filename ∧
        ∀ c ∈ u.path ++ channel, c < 128 ∨ c = 255 := by
  have hbytes : (u.pathOf channel filename).map legible = u.pathOf channel filename ↔
      ∀ c ∈ u.path ++ channel, c < 128 ∨ c = 255 := by
    have hslash : SevenBit (ascii "/") := by decide
    rw [map_legible_eq_self_iff, UrlPrefix.pathOf]
    constructor
    · intro h c hc
      exact h c (List.mem_append_left _ (List.mem_append_left _ hc))
    · intro h c hc
      rcases List.mem_append.mp hc with hc | hc
      · rcases List.mem_append.mp hc with hc | hc
        · exact h c hc
        · exact .inl (hslash c hc)
      · exact .inl (hf c hc)
  rw [← and_assoc, ← question_not_mem_pathOf u, ← hbytes]
  constructor
  · intro h
    have hquery := h.query
    rw [parse_encodeURL, Option.map_eq_none_iff, Uri.cut_eq_none_iff] at hquery
    have hpath := h.path
    rw [serverPath_encodeURL, Uri.cut_of_not_mem hquery, Option.some.injEq, List.cons.injEq]
      at hpath
    exact ⟨hquery, hpath.2⟩
  · rintro ⟨hquery, hpath⟩
    constructor
    case query =>
      rw [parse_encodeURL, Uri.cut_of_not_mem hquery]
      rfl
    case fragment => rw [parse_encodeURL]
    case path => rw [serverPath_encodeURL, Uri.cut_of_not_mem hquery, hpath]

/-- Two files are asked for by two paths exactly when they differ before a question mark. -/
theorem serverPath_ne_iff {filename' : Bytes} (hf : SevenBit filename)
    (hf' : SevenBit filename') :
    serverPath (encodeURL (u.text ++ channel ++ ascii "/" ++ filename)) ≠
        serverPath (encodeURL (u.text ++ channel ++ ascii "/" ++ filename')) ↔
      Uri.question ∉ channel ∧
        (Uri.cut Uri.question filename).1 ≠ (Uri.cut Uri.question filename').1 := by
  have hpath := u.path_chars Uri.question (by simp)
  have hlegible : ∀ {f : Bytes}, SevenBit f →
      (Uri.cut Uri.question f).1.map legible = (Uri.cut Uri.question f).1 := by
    intro f h
    rw [map_legible_eq_self_iff]
    exact fun c hc => .inl (h c ((List.takeWhile_prefix _).subset hc))
  rw [serverPath_encodeURL, serverPath_encodeURL, ne_eq, Option.some.injEq, List.cons.injEq,
    eq_self_iff_true, true_and]
  by_cases hname : Uri.question ∈ channel
  · have hbefore : ∀ f, (Uri.cut Uri.question (u.pathOf channel f)).1 =
        (Uri.cut Uri.question (u.path ++ channel)).1 := by
      intro f
      rw [UrlPrefix.pathOf, List.append_assoc _ (ascii "/"),
        Uri.cut_append_of_mem (List.mem_append_right _ hname)]
    simp [hbefore, hname]
  · have hbefore : ∀ f, (Uri.cut Uri.question (u.pathOf channel f)).1 =
        u.path ++ channel ++ ascii "/" ++ (Uri.cut Uri.question f).1 := by
      intro f
      have hfront : Uri.question ∉ u.path ++ channel ++ ascii "/" := by
        have hslash : Uri.question ∉ ascii "/" := by decide
        simp [hpath, hname, hslash]
      rw [UrlPrefix.pathOf, Uri.cut_append hfront]
    have hmap : ∀ {f : Bytes}, SevenBit f →
        (Uri.cut Uri.question (u.pathOf channel f)).1.map legible =
          (u.path ++ channel ++ ascii "/").map legible ++ (Uri.cut Uri.question f).1 := by
      intro f h
      rw [hbefore, List.map_append, hlegible h]
    rw [hmap hf, hmap hf', List.append_cancel_left_eq]
    simp [hname]

end Parse

/-! ## The requests -/

/-- A call made this download. -/
structure Added (w w' : World) (p : Ptr) (ds : DataStruct) : Prop where
  absent : w.heap p = none
  heap : w'.heap p = some ds

section Requests

variable {updates : ChannelFileList} {urlPrefix pathPrefix : Bytes} {w : World}

theorem Added.queueFile {filename url : Bytes} {crc : ULong} {exec : Bool} {p : Ptr}
    {ds : DataStruct}
    (h : Added w (LibWfut.queueFile pathPrefix filename url crc exec w).2 p ds) :
    p = w.fresh ∧ ds.filename = filename ∧
      (LibWfut.queueFile pathPrefix filename url crc exec w).2.fresh = p + 1 ∧
      ∃ e, (LibWfut.queueFile pathPrefix filename url crc exec w).2.easy p = some e ∧
        e.url = encodeURL url := by
  by_cases hu : w.files[url]? = none
  · have hreg : Registers w (encodeURL url) (encodeURL url)
        (LibWfut.queueFile pathPrefix filename url crc exec w).2 := registers_queueFile hu
    obtain ⟨e, he, hurl⟩ := hreg.easy
    rcases queueFile_live h.heap with hp | ⟨rfl, rfl⟩
    · rw [h.absent] at hp
      simp at hp
    · refine ⟨rfl, rfl, ?_, e, he, hurl⟩
      rw [queueFile_state hu]
      rfl
  · have hp := h.heap
    rw [queueFile_refused hu, h.absent] at hp
    simp at hp

/-- Every download that the loop adds has a handle for the URL of its file. -/
theorem Added.foldl {fs : List FileObject} {p : Ptr} {ds : DataStruct}
    (h : Added w (fs.foldl (queueUpdate updates urlPrefix pathPrefix) w) p ds) :
    ∃ e, (fs.foldl (queueUpdate updates urlPrefix pathPrefix) w).easy p = some e ∧
      e.url = encodeURL (fileUrl updates urlPrefix ds.filename) := by
  induction fs generalizing w with
  | nil =>
      have habsent := h.absent
      rw [List.foldl_nil] at h
      rw [h.heap] at habsent
      simp at habsent
  | cons o fs ih =>
      rw [List.foldl_cons] at h ⊢
      cases hp : (queueUpdate updates urlPrefix pathPrefix w o).heap p with
      | none => exact ih ⟨hp, h.heap⟩
      | some d =>
          have hdel : ¬o.deleted = true := by
            intro hdel
            rw [queueUpdate, if_pos hdel, h.absent] at hp
            simp at hp
          have hone : queueUpdate updates urlPrefix pathPrefix w o =
              (LibWfut.queueFile pathPrefix o.filename (fileUrl updates urlPrefix o.filename)
                o.crc32 o.execute w).2 := by
            rw [queueUpdate, if_neg hdel]
          have hkept : KeepsQueued (queueUpdate updates urlPrefix pathPrefix w o)
              (fs.foldl (queueUpdate updates urlPrefix pathPrefix)
                (queueUpdate updates urlPrefix pathPrefix w o)) :=
            keepsQueued_foldl keepsQueued_queueUpdate fs _
          rw [hone] at hp hkept h ⊢
          obtain ⟨-, hname, hfresh, e, he, hurl⟩ := Added.queueFile ⟨h.absent, hp⟩
          have hlt := (Nat.lt_succ_self p).trans_eq hfresh.symm
          have hheap := h.heap
          rw [hkept.heap p hlt, hp, Option.some.injEq] at hheap
          rw [hkept.easy p hlt, ← hheap, hname]
          exact ⟨e, he, hurl⟩

theorem Added.updateChannel {p : Ptr} {ds : DataStruct}
    (h : Added w (LibWfut.updateChannel updates urlPrefix pathPrefix w) p ds) :
    ∃ e, (LibWfut.updateChannel updates urlPrefix pathPrefix w).easy p = some e ∧
      e.url = encodeURL (fileUrl updates urlPrefix ds.filename) := by
  rw [updateChannel_eq] at h ⊢
  exact h.foldl

end Requests

/-- Every file that `updateChannel` queues is requested from its own path exactly when
neither it nor the channel contains a question mark and every other byte is escaped
legibly, and two files from two paths exactly when they differ before a question mark. -/
theorem own_paths (u : UrlPrefix) (updates : ChannelFileList) (pathPrefix : Bytes) (w : World)
    {p p' : Ptr} {ds ds' : DataStruct}
    (h : Added w (updateChannel updates u.text pathPrefix w) p ds)
    (h' : Added w (updateChannel updates u.text pathPrefix w) p' ds')
    (hf : SevenBit ds.filename) (hf' : SevenBit ds'.filename) :
    ∃ e e', (updateChannel updates u.text pathPrefix w).easy p = some e ∧
      (updateChannel updates u.text pathPrefix w).easy p' = some e' ∧
      (OwnPath u updates.getName ds.filename e.url ↔
        Uri.question ∉ updates.getName ∧ Uri.question ∉ ds.filename ∧
          ∀ c ∈ u.path ++ updates.getName, c < 128 ∨ c = 255) ∧
      (serverPath e.url ≠ serverPath e'.url ↔
        Uri.question ∉ updates.getName ∧
          (Uri.cut Uri.question ds.filename).1 ≠ (Uri.cut Uri.question ds'.filename).1) := by
  obtain ⟨e, he, hurl⟩ := h.updateChannel
  obtain ⟨e', he', hurl'⟩ := h'.updateChannel
  refine ⟨e, e', he, he', ?_, ?_⟩
  · rw [hurl]
    exact ownPath_iff u updates.getName hf
  · rw [hurl, hurl']
    exact serverPath_ne_iff u updates.getName hf hf'

/-- `http://h/` -/
def hostRoot : UrlPrefix where
  scheme := ascii "http"
  host := ascii "h"
  path := []
  scheme_ne := by decide
  scheme_chars := by decide +kernel
  host_chars := by decide +kernel
  path_chars := by decide +kernel

/-- A channel with two files. -/
def twoFiles (f f' : Bytes) : ChannelFileList :=
  let file (f : Bytes) : FileObject :=
    { filename := f
      version := 1
      crc32 := 0
      size := 0
      execute := false
      deleted := false }
  ((ChannelFileList.empty.setName (ascii "c")).addFile (file f)).addFile (file f')

theorem own_paths_twoFiles :
    ∃ (ds ds' : DataStruct) (e e' : EasyHandle), ds.filename = ascii "x" ∧ ds'.filename = ascii "y" ∧
      (updateChannel (twoFiles (ascii "x") (ascii "y")) hostRoot.text (ascii "d")
        (World.init 2 .empty)).easy 0 = some e ∧
      (updateChannel (twoFiles (ascii "x") (ascii "y")) hostRoot.text (ascii "d")
        (World.init 2 .empty)).easy 1 = some e' ∧
      (OwnPath hostRoot (ascii "c") ds.filename e.url ↔
        Uri.question ∉ ascii "c" ∧ Uri.question ∉ ds.filename ∧
          ∀ c ∈ hostRoot.path ++ ascii "c", c < 128 ∨ c = 255) ∧
      (serverPath e.url ≠ serverPath e'.url ↔
        Uri.question ∉ ascii "c" ∧
          (Uri.cut Uri.question ds.filename).1 ≠ (Uri.cut Uri.question ds'.filename).1) := by
  obtain ⟨e, e', h⟩ := own_paths hostRoot (twoFiles (ascii "x") (ascii "y")) (ascii "d")
    (World.init 2 .empty) (show Added _ _ 0 _ from ⟨rfl, rfl⟩)
    (show Added _ _ 1 _ from ⟨rfl, rfl⟩) (by decide) (by decide)
  exact ⟨_, _, e, e', rfl, rfl, h⟩

/-- Two files of a channel that are requested from one path, with two queries. -/
theorem own_paths_question :
    ∃ (ds ds' : DataStruct) (e e' : EasyHandle),
      (updateChannel (twoFiles (ascii "a?b") (ascii "a?c")) hostRoot.text (ascii "d")
        (World.init 2 .empty)).heap 0 = some ds ∧ ds.filename = ascii "a?b" ∧
      (updateChannel (twoFiles (ascii "a?b") (ascii "a?c")) hostRoot.text (ascii "d")
        (World.init 2 .empty)).heap 1 = some ds' ∧ ds'.filename = ascii "a?c" ∧
      (updateChannel (twoFiles (ascii "a?b") (ascii "a?c")) hostRoot.text (ascii "d")
        (World.init 2 .empty)).easy 0 = some e ∧
      (updateChannel (twoFiles (ascii "a?b") (ascii "a?c")) hostRoot.text (ascii "d")
        (World.init 2 .empty)).easy 1 = some e' ∧
      ¬OwnPath hostRoot (ascii "c") ds.filename e.url ∧
      serverPath e.url = serverPath e'.url := by
  refine ⟨_, _, _, _, rfl, rfl, rfl, rfl, rfl, rfl, ?_, ?_⟩
  · intro h
    have hquery := h.query
    revert hquery
    decide +kernel
  · decide +kernel

end LibWfut
