import LibWfut.Model.Types

/-! # The string codecs of `Encoder` -/

namespace LibWfut.Encoder

/-- The comparisons of `char` against letters and digits: a byte from 128 on is a
negative `char` and passes none of them. -/
def isAlnum (c : UInt8) : Bool :=
  (97 ≤ c ∧ c ≤ 122) ∨ (65 ≤ c ∧ c ≤ 90) ∨ (48 ≤ c ∧ c ≤ 57)

/-- A `char` passed to a variadic function: promoted to `int` with its sign, then read
as `unsigned int` by the `X` conversion. -/
def promote (c : UInt8) : ℕ :=
  if c < 128 then c.toNat else 2 ^ 32 - 256 + c.toNat

def upperHexDigit (d : ℕ) : UInt8 :=
  if d < 10 then (48 + d).toUInt8 else (55 + d).toUInt8

/-- `%2.2X`: upper-case hexadecimal with at least two digits. -/
def hex22 (n : ℕ) : Bytes :=
  let digits := (List.range 8).reverse.map fun i => n / 16 ^ i % 16
  let significant := digits.dropWhile (· = 0)
  (List.replicate (2 - significant.length) 0 ++ significant).map upperHexDigit

/-- `snprintf(buf, 4, "%%%2.2X", c)`: the buffer keeps three characters. -/
def escape (c : UInt8) : Bytes :=
  (37 :: hex22 (promote c)).take 3

def encodeStringChar (c : UInt8) : Bytes :=
  if isAlnum c then [c]
  else if c ∈ ascii "-_.*" then [c]
  else if c = 32 then [43]
  else escape c

def encodeString (str : Bytes) : Bytes :=
  str.flatMap encodeStringChar

def encodeURLChar (c : UInt8) : Bytes :=
  if isAlnum c then [c]
  else if c ∈ ascii "-_.|~*'()" then [c]
  else if c ∈ ascii ";/?:@&=+$," then [c]
  else escape c

def encodeURL (str : Bytes) : Bytes :=
  str.flatMap encodeURLChar

/-! ## Decoding -/

def isSpace (c : UInt8) : Bool :=
  c = 32 ∨ (9 ≤ c ∧ c ≤ 13)

def hexValue (c : UInt8) : Option ℕ :=
  if 48 ≤ c ∧ c ≤ 57 then some (c.toNat - 48)
  else if 65 ≤ c ∧ c ≤ 70 then some (c.toNat - 55)
  else if 97 ≤ c ∧ c ≤ 102 then some (c.toNat - 87)
  else none

/-- The digits of a hexadecimal number within a field width. -/
def scanHexDigits : ℕ → Bytes → List ℕ
  | 0, _ => []
  | _, [] => []
  | w + 1, c :: cs =>
    match hexValue c with
    | some d => d :: scanHexDigits w cs
    | none => []

/-- `sscanf(buf, "%%%2x", &u)` on text that starts with a percent sign: `none` when
nothing is assigned to `u`. White space before the number does not count towards the
two characters; a sign or a `0x` prefix does, and glibc takes the zero of a prefix that is
cut off for a number. -/
def scanPercent2x (buf : Bytes) : Option UInt32 :=
  let field := (buf.drop 1).dropWhile isSpace
  let negative := field.head? = some 45
  let signed := field.head? = some 45 ∨ field.head? = some 43
  let width := if signed then 1 else 2
  let digits := scanHexDigits width (if signed then field.drop 1 else field)
  if digits = [] then none
  else
    let n := digits.foldl (fun v d => 16 * v + d) 0
    some (if negative then 0 - n.toUInt32 else n.toUInt32)

/-- The loop of `decodeString`; `i += 2` drops the two characters behind a percent
sign whatever they are. -/
def decodeString : Bytes → Except Fault Bytes
  | [] => .ok []
  | c :: cs =>
    if c = 37 then
      match scanPercent2x (cStr (c :: cs)) with
      | none => .error .unassigned
      | some u =>
        match cs with
        | _ :: _ :: rest => (decodeString rest).map (u.toUInt8 :: ·)
        | _ => .ok [u.toUInt8]
    else if c = 43 then (decodeString cs).map (32 :: ·)
    else (decodeString cs).map (c :: ·)

/-! ## The loop over an index -/

/-- The body of the loop of `decodeString` at the character `c` of index `i`, and `++i`. -/
def decodeTurn (str : Bytes) (i : ℕ) (out : Bytes) (c : UInt8) : Except Fault (ℕ × Bytes) :=
  if c = 37 then
    let buf := cStr (str.drop i)
    match scanPercent2x buf with
    | none => .error .unassigned
    | some u => .ok (i + 2 + 1, out ++ [u.toUInt8])
  else if c = 43 then .ok (i + 1, out ++ [32])
  else .ok (i + 1, out ++ [c])

/-- The loop of `decodeString` from index `i` on, in so many turns at most. -/
def decodeLoop (str : Bytes) : ℕ → ℕ → Bytes → Except Fault Bytes
  | 0, _, _ => .error .outOfFuel
  | fuel + 1, i, out =>
    match str[i]? with
    | none => .ok out
    | some c =>
      match decodeTurn str i out c with
      | .error f => .error f
      | .ok (i, out) => decodeLoop str fuel i out

end LibWfut.Encoder
