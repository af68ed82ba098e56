import LibWfut.Library.Uri
import LibWfut.Verification.FileList.Codec
import LibWfut.Verification.Io.Invariant

/-! # The encoding of URLs

`encodeURL` escapes what is no character of a URL, and `queueFile` uses its result both as
the key of a download and as the URL to fetch. -/

namespace LibWfut

open Encoder

/-! ## Single characters -/

/-- The characters that `encodeURL` leaves alone. -/
def passesThrough (c : UInt8) : Bool :=
  isAlnum c ∨ c ∈ ascii "-_.|~*'()" ∨ c ∈ ascii ";/?:@&=+$,"

theorem passesThrough_plain_all : ∀ n < 256, passesThrough n.toUInt8 = true →
    n.toUInt8 ≠ Uri.percent ∧ n.toUInt8 < 128 := by
  decide +kernel

/-- What passes through is no percent sign and no byte from 128 on. -/
theorem passesThrough_plain {c : UInt8} (h : passesThrough c = true) :
    c ≠ Uri.percent ∧ c < 128 := by
  simpa using passesThrough_plain_all c.toNat c.toNat_lt (by simpa using h)

theorem encodeURLChar_eq (c : UInt8) :
    encodeURLChar c = if passesThrough c = true then [c] else escape c := by
  unfold encodeURLChar passesThrough
  by_cases halnum : isAlnum c = true
  · simp [halnum]
  · by_cases hmark : c ∈ ascii "-_.|~*'()"
    · simp [hmark]
    · by_cases hreserved : c ∈ ascii ";/?:@&=+$,"
      · simp [hmark, hreserved]
      · simp [halnum, hmark, hreserved]

/-- A character passes through, or what is legible of it is escaped. -/
theorem encodeURLChar_cases (c : UInt8) :
    (encodeURLChar c = [c] ∧ passesThrough c = true ∧ c ≠ Uri.percent ∧ c < 128) ∨
      encodeURLChar c =
        [Uri.percent, upperHexDigit ((legible c).toNat / 16),
          upperHexDigit ((legible c).toNat % 16)] := by
  by_cases h : passesThrough c = true
  · exact .inl ⟨by rw [encodeURLChar_eq, if_pos h], h, passesThrough_plain h⟩
  · exact .inr (by rw [encodeURLChar_eq, if_neg h, escape_eq]; rfl)

theorem upperHexDigit_value : ∀ d < 16, Uri.isUpperHexDigit (upperHexDigit d) = true ∧
    Uri.hexValue (upperHexDigit d) = some d := by
  decide

theorem escaped_encodeURLChar (c : UInt8) : Uri.Escaped passesThrough (encodeURLChar c) := by
  rcases encodeURLChar_cases c with ⟨henc, hpass, -⟩ | henc
  · rw [henc]
    exact .plain hpass .nil
  · have hlt := (legible c).toNat_lt
    rw [henc]
    exact .escape (upperHexDigit_value _ (by omega)).1 (upperHexDigit_value _ (by omega)).1 .nil

/-- Percent-decoding reads an encoded character back as what is legible of it. -/
theorem decode_encodeURLChar (c : UInt8) (rest : Bytes) :
    Uri.decode (encodeURLChar c ++ rest) = (Uri.decode rest).map (legible c :: ·) := by
  rcases encodeURLChar_cases c with ⟨henc, -, hpercent, hlow⟩ | henc
  · have hleg : legible c = c := legible_eq_self_iff.mpr (.inl hlow)
    rw [henc, hleg, List.singleton_append, Uri.decode_plain hpercent]
  · have hlt := (legible c).toNat_lt
    have hvalue : 16 * ((legible c).toNat / 16) + (legible c).toNat % 16 =
        (legible c).toNat := Nat.div_add_mod ..
    rw [henc]
    simp only [List.cons_append, List.nil_append]
    rw [Uri.decode_escape (upperHexDigit_value _ (by omega)).2
      (upperHexDigit_value _ (by omega)).2, hvalue]
    simp

/-! ## Whole URLs -/

theorem escaped_encodeURL (url : Bytes) : Uri.Escaped passesThrough (encodeURL url) :=
  Uri.escaped_flatMap escaped_encodeURLChar url

theorem decode_encodeURL (url : Bytes) : Uri.decode (encodeURL url) = some (url.map legible) :=
  Uri.decode_flatMap decode_encodeURLChar url

/-- All bytes from 128 on are escaped alike. -/
theorem encodeURLChar_legible (c : UInt8) : encodeURLChar (legible c) = encodeURLChar c := by
  by_cases hc : c < 128
  · rw [legible, if_pos hc]
  · have hescape : ∀ d : UInt8, ¬d < 128 → encodeURLChar d = escape d := by
      intro d hd
      rw [encodeURLChar_eq, if_neg fun h => hd (passesThrough_plain h).2]
    have hlegible : ¬legible c < 128 := by
      rw [legible, if_neg hc]
      decide
    rw [hescape c hc, hescape _ hlegible, escape_eq, escape_eq, legible_legible]

/-- Nothing but what is legible gets into an encoded URL. -/
theorem encodeURL_map_legible (url : Bytes) : encodeURL (url.map legible) = encodeURL url := by
  rw [encodeURL, encodeURL, List.flatMap_map]
  exact List.flatMap_congr fun c _ => encodeURLChar_legible c

theorem encodeURL_eq_iff {url url' : Bytes} :
    encodeURL url = encodeURL url' ↔ url.map legible = url'.map legible := by
  constructor
  · intro h
    have hdecoded := decode_encodeURL url
    rw [h, decode_encodeURL, Option.some.injEq] at hdecoded
    exact hdecoded.symm
  · intro h
    rw [← encodeURL_map_legible url, h, encodeURL_map_legible]

/-! ## Keys and requests -/

/-- The new download of `w'` is registered under this key, and curl is to fetch this
URL. -/
structure Registers (w : World) (key request : Bytes) (w' : World) : Prop where
  files : w'.files = w.files.insert key w.fresh
  easy : ∃ e, w'.easy w.fresh = some e ∧ e.url = request

theorem registers_queueFile {w : World} {path filename url : Bytes} {crc : ULong} {exec : Bool}
    (h : w.files[url]? = none) :
    Registers w (encodeURL url) (encodeURL url)
      (queueFile path filename url crc exec w).2 := by
  rw [queueFile_state h]
  exact ⟨rfl, { url := encodeURL url, priv := w.fresh }, by simp [World.enqueue, newDataStruct],
    rfl⟩

/-- The key and the request of a download do not depend on which of the bytes from 128 on
occurs in its URL, but on everything else. -/
theorem url_encoding (url url' : Bytes) (w w' : World) (hw : w.files[url]? = none)
    (hw' : w'.files[url']? = none) (path path' filename filename' : Bytes) (crc crc' : ULong)
    (exec exec' : Bool) :
    Uri.Escaped passesThrough (encodeURL url) ∧
      (Uri.decode (encodeURL url) = some url ↔ ∀ c ∈ url, c < 128 ∨ c = 255) ∧
      ∃ key request key' request',
        Registers w key request (queueFile path filename url crc exec w).2 ∧
        Registers w' key' request' (queueFile path' filename' url' crc' exec' w').2 ∧
        (key ≠ key' ∧ Uri.decode request ≠ Uri.decode request' ↔
          url.map legible ≠ url'.map legible) := by
  refine ⟨escaped_encodeURL url, ?_, _, _, _, _, registers_queueFile hw,
    registers_queueFile hw', ?_⟩
  · rw [decode_encodeURL, Option.some.injEq, map_legible_eq_self_iff]
  · rw [decode_encodeURL, decode_encodeURL, ne_eq, encodeURL_eq_iff, ne_eq, Option.some.injEq,
      and_self]

theorem url_encoding_distinct :
    Uri.Escaped passesThrough (encodeURL (ascii "http://h/a")) ∧
      (Uri.decode (encodeURL (ascii "http://h/a")) = some (ascii "http://h/a") ↔
        ∀ c ∈ ascii "http://h/a", c < 128 ∨ c = 255) ∧
      ∃ key request key' request',
        Registers (World.init 1 .empty) key request
          (queueFile [] [] (ascii "http://h/a") 0 false (World.init 1 .empty)).2 ∧
        Registers (World.init 1 .empty) key' request'
          (queueFile [] [] (ascii "http://h/b") 0 false (World.init 1 .empty)).2 ∧
        (key ≠ key' ∧ Uri.decode request ≠ Uri.decode request' ↔
          (ascii "http://h/a").map legible ≠ (ascii "http://h/b").map legible) :=
  url_encoding _ _ (World.init 1 .empty) (World.init 1 .empty) (by simp [World.init])
    (by simp [World.init]) [] [] [] [] 0 0 false false

/-- Two URLs with the same key and the same request. -/
theorem url_encoding_highBytes :
    encodeURL (ascii "http://h/" ++ [128]) = encodeURL (ascii "http://h/" ++ [129]) ∧
      Uri.decode (encodeURL (ascii "http://h/" ++ [128])) ≠ some (ascii "http://h/" ++ [128]) := by
  decide +kernel

end LibWfut
