import Mathlib.Tactic

/-!
# Rust text

The functions of the standard library that a text file parser uses, on lists of characters.

* `fromUtf8`: `core::str::from_utf8`, by a decoder that reads one byte at a time;
* `lines`, `trim`, `splitWhitespace`: the methods of `str` of these names;
* `parseU32`, `parseU64`: `str::parse::<u32>` and `str::parse::<u64>`.
-/

namespace CypheraKernel.Text

/-! ### UTF-8 -/

/-- An unfinished character: the number of continuation bytes still owed, the least and the greatest
value of the next one, and the bits read so far. -/
structure Pending where
  (owed lo hi bits : ℕ)

/-- What a leading byte above `0x7f` starts.  The bounds on the second byte exclude overlong forms,
surrogates and values above `0x10ffff`. -/
def leadByte (b : ℕ) : Option Pending :=
  if 0xc2 ≤ b ∧ b ≤ 0xdf then some ⟨0, 0x80, 0xbf, b % 32⟩
  else if b = 0xe0 then some ⟨1, 0xa0, 0xbf, 0⟩
  else if b = 0xed then some ⟨1, 0x80, 0x9f, 13⟩
  else if 0xe1 ≤ b ∧ b ≤ 0xef then some ⟨1, 0x80, 0xbf, b % 16⟩
  else if b = 0xf0 then some ⟨2, 0x90, 0xbf, 0⟩
  else if 0xf1 ≤ b ∧ b ≤ 0xf3 then some ⟨2, 0x80, 0xbf, b % 8⟩
  else if b = 0xf4 then some ⟨2, 0x80, 0x8f, 4⟩
  else none

/-- Decode bytes, the character `pending` having been started. -/
def decode : Option Pending → List UInt8 → Option (List Char)
  | none, [] => some []
  | some _, [] => none
  | none, b :: bs =>
    if b.toNat < 0x80 then (decode none bs).map (Char.ofNat b.toNat :: ·)
    else (leadByte b.toNat).bind fun p => decode (some p) bs
  | some p, b :: bs =>
    if p.lo ≤ b.toNat ∧ b.toNat ≤ p.hi then
      let bits := p.bits * 64 + b.toNat % 64
      match p.owed with
      | 0 => (decode none bs).map (Char.ofNat bits :: ·)
      | n + 1 => decode (some ⟨n, 0x80, 0xbf, bits⟩) bs
    else none

def fromUtf8 (bs : List UInt8) : Option (List Char) := decode none bs

example : fromUtf8 [0x61, 0xc3, 0xa9, 0xe2, 0x82, 0xac] = some ['a', 'é', '€'] := by decide
example : fromUtf8 [0xc0, 0x80] = none := by decide

/-! ### Lines and words -/

/-- The `White_Space` characters. -/
def isWhitespace (c : Char) : Bool :=
  let n := c.toNat
  (9 ≤ n ∧ n ≤ 13) ∨ n = 0x20 ∨ n = 0x85 ∨ n = 0xa0 ∨ n = 0x1680 ∨ (0x2000 ≤ n ∧ n ≤ 0x200a) ∨
    n = 0x2028 ∨ n = 0x2029 ∨ n = 0x202f ∨ n = 0x205f ∨ n = 0x3000

variable (s : List Char)

def trim : List Char :=
  ((s.dropWhile isWhitespace).reverse.dropWhile isWhitespace).reverse

/-- A line end takes one carriage return before it along; the line is held in reverse. -/
def stripCr : List Char → List Char
  | '\r' :: cs => cs
  | cs => cs

/-- The lines of a text, `cur` being the reversed beginning of the current one. -/
def linesFrom (cur : List Char) : List Char → List (List Char)
  | [] => if cur.isEmpty then [] else [cur.reverse]
  | c :: cs =>
    if c = '\n' then (stripCr cur).reverse :: linesFrom [] cs else linesFrom (c :: cur) cs

def lines : List (List Char) := linesFrom [] s

/-- The words of a text, `cur` being the reversed beginning of the current one. -/
def wordsFrom (cur : List Char) : List Char → List (List Char)
  | [] => if cur.isEmpty then [] else [cur.reverse]
  | c :: cs =>
    if isWhitespace c then
      if cur.isEmpty then wordsFrom [] cs else cur.reverse :: wordsFrom [] cs
    else wordsFrom (c :: cur) cs

def splitWhitespace : List (List Char) := wordsFrom [] s

/-- The ASCII white space characters: tab, line feed, form feed, carriage return and blank. -/
def isAsciiWhitespace (c : Char) : Bool := c ∈ ['\t', '\n', Char.ofNat 0x0c, '\r', ' ']

/-- `split_ascii_whitespace`. -/
def splitAsciiWhitespace : List (List Char) :=
  (s.splitOnP isAsciiWhitespace).filter fun w => !w.isEmpty

/-! ### Numbers -/

/-- Decimal digits, with an overflow check after each. -/
def parseDigits : Option UInt32 :=
  (s.foldlM (fun acc d =>
    if '0' ≤ d ∧ d ≤ '9' ∧ acc * 10 + (d.toNat - '0'.toNat) < 2 ^ 32 then
      some (acc * 10 + (d.toNat - '0'.toNat))
    else none) 0).map UInt32.ofNat

/-- `parse::<u32>`: a sign `+` is accepted before at least one digit. -/
def parseU32 : List Char → Option UInt32
  | [] => none
  | ['+'] => none
  | '+' :: ds => parseDigits ds
  | ds => parseDigits ds

/-- `parse::<u64>`. -/
def parseU64 : Option ℕ :=
  let ds := match s with
    | '+' :: ds => ds
    | ds => ds
  if ds.isEmpty then none
  else ds.foldlM (fun acc d =>
    if '0' ≤ d ∧ d ≤ '9' ∧ acc * 10 + (d.toNat - '0'.toNat) < 2 ^ 64 then
      some (acc * 10 + (d.toNat - '0'.toNat))
    else none) 0

example : parseU32 "+4294967295".toList = some 4294967295 := by decide
example : parseU32 "4294967296".toList = none := by decide

end CypheraKernel.Text
