import Mathlib.Tactic

/-!
# Numbers as decimal text

Model of the conversions of `kernel/src/badgelib/num_to_str.c` that the formatter uses. They
work by double dabble: the bits of the number are shifted into a row of decimal digits of four
bits each, and before each shift three is added to every digit of five or more.
-/

namespace BadgerOS.Format

/-- Bytes of text. -/
abbrev Text := List UInt8

/-- `'0' + digit`. -/
def digitChar (digit : ℕ) : UInt8 := '0'.toUInt8 + UInt8.ofNat digit

/-- The `n` digits of a row, the most significant one first (lines 30–32). -/
def rowText {w : ℕ} (buf : BitVec w) (n : ℕ) : Text :=
  (List.range n).map fun i => digitChar ((buf >>> (4 * (n - 1 - i))) &&& 15#w).toNat

/-- The digits to which three is added: a bit for each digit of five or more (line 22). -/
def dabbleMask {w : ℕ} (buf : BitVec w) : BitVec w :=
  ((buf ||| (buf >>> 1)) &&& (buf >>> 2)) ||| (buf >>> 3)

/-- The loop of `num_uint16_to_str` (lines 21–27). -/
def dabble16 : ℕ → BitVec 32 → BitVec 16 → BitVec 32
  | 0, buf, _ => buf
  | n + 1, buf, val =>
    let buf := buf + (dabbleMask buf &&& 0x11111#32) * 3#32
    let buf := (buf <<< 1) ||| (val >>> 15).setWidth 32
    dabble16 n buf (val <<< 1)

/-- `num_uint16_to_str` (lines 14–33). -/
def numUint16ToStr (val : BitVec 16) : Text :=
  rowText (dabble16 13 ((val >>> 13).setWidth 32) (val <<< 3)) 5

/-- The loop of `num_uint32_to_str` (lines 44–50). -/
def dabble32 : ℕ → BitVec 64 → BitVec 32 → BitVec 64
  | 0, buf, _ => buf
  | n + 1, buf, val =>
    let buf := buf + (dabbleMask buf &&& 0x1111111111#64) * 3#64
    let buf := (buf <<< 1) ||| (val >>> 31).setWidth 64
    dabble32 n buf (val <<< 1)

/-- `num_uint32_to_str` (lines 37–56). -/
def numUint32ToStr (val : BitVec 32) : Text :=
  rowText (dabble32 29 ((val >>> 29).setWidth 64) (val <<< 3)) 10

/-- The loop of `num_uint64_to_str` (lines 68–81), with a row in two parts. -/
def dabble64 : ℕ → BitVec 16 → BitVec 64 → BitVec 64 → BitVec 16 × BitVec 64
  | 0, bufHi, bufLo, _ => (bufHi, bufLo)
  | n + 1, bufHi, bufLo, val =>
    let bufLo := bufLo + (dabbleMask bufLo &&& 0x1111111111111111#64) * 3#64
    let bufHi := bufHi + (dabbleMask bufHi &&& 0x1111#16) * 3#16
    let bufHi := (bufHi <<< 1) ||| (bufLo >>> 63).setWidth 16
    let bufLo := (bufLo <<< 1) ||| (val >>> 63)
    dabble64 n bufHi bufLo (val <<< 1)

/-- `num_uint64_to_str` (lines 60–90). -/
def numUint64ToStr (val : BitVec 64) : Text :=
  let (bufHi, bufLo) := dabble64 61 0 (val >>> 61) (val <<< 3)
  rowText bufHi 4 ++ rowText bufLo 16

/-- `num_uint_to_str` (lines 96–121): the 20 digits and the number of those behind the leading
    zeros. -/
def numUintToStr (val : BitVec 64) : Text × ℕ :=
  let (outbuf, bufDigits) :=
    if val &&& 0xffffffffffff0000#64 = 0 then
      (List.replicate 15 '0'.toUInt8 ++ numUint16ToStr (val.setWidth 16), 5)
    else if val &&& 0xffffffff00000000#64 = 0 then
      (List.replicate 10 '0'.toUInt8 ++ numUint32ToStr (val.setWidth 32), 10)
    else (numUint64ToStr val, 20)
  (outbuf, ((outbuf.drop (20 - bufDigits)).dropWhile (· = '0'.toUInt8)).length)

/-- The last `n` of the 20 digits. -/
def lastDigits (buf : Text) (n : ℕ) : Text := buf.drop (20 - n)

/-- `int_to_cstr_packed` (lines 187–212) into a buffer of `size` bytes: what it writes, up to
    the length that it returns. -/
def intToCstrPacked (val : BitVec 64) (size : ℕ) : Text :=
  if size = 0 then []
  else
    let sign := val.msb
    let (buf, digits) := numUintToStr (if sign then -val else val)
    let digits := if digits = 0 then 1 else digits
    let room := size - sign.toNat
    let copySize := if digits < room then digits else room
    (if sign then ['-'.toUInt8] else []) ++ lastDigits buf copySize

/-- `uint_to_cstr_packed` (lines 217–240) into a buffer of `size` bytes. -/
def uintToCstrPacked (val : BitVec 64) (size : ℕ) : Text :=
  if size = 0 then []
  else if size = 1 then ['0'.toUInt8 ||| UInt8.ofNat (val.toNat % 10)]
  else
    let (buf, digits) := numUintToStr val
    let digits := if digits = 0 then 1 else digits
    let copySize := if digits < size then digits else size
    lastDigits buf copySize

example : intToCstrPacked (BitVec.ofInt 64 (-1203)) 21 = "-1203".toUTF8.toList := by decide +kernel

end BadgerOS.Format
