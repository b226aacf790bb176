import BadgerOS.Badgelib.NumToStr
import BadgerOS.Lib.Frame

/-!
# The formatter

Model of `format_str_va` (`kernel/src/badgelib/badge_format_str.c`) for riscv64, where `char` is
unsigned, `long` and `long long` have 64 bits, and an argument takes a word of 64 bits. The
callback receives chunks of text, and its answer may depend on all chunks so far. The model of
the loop gets fuel, since the loop need not end.

`cstr_prefix_equals_case` of badgelib is taken as it is named: it ignores the case of letters.
-/

namespace BadgerOS.Format

/-! ## Specifiers -/

/-- `format_str_type_t` (line 41). -/
inductive FmtType
  | char
  | short
  | int
  | long
  | llong
  deriving DecidableEq, Repr

/-- `format_str_spec_t` (lines 44–49). -/
inductive FmtSpec
  | dec
  | hex
  | octal
  | char
  deriving DecidableEq, Repr

/-- `format_str_mult_t` (lines 52–56). -/
inductive FmtMult
  | one
  | nul
  | arr
  deriving DecidableEq, Repr

/-- What a format specifier says (lines 269–275). The joiner is `none` for a null pointer. -/
structure Specifier where
  type : FmtType
  spec : FmtSpec
  mult : FmtMult
  lowercase : Bool
  isSigned : Bool
  joiner : Option Text
  deriving DecidableEq, Repr

/-- `fmt_type_size` (lines 60–65). -/
def FmtType.size : FmtType → ℕ
  | .char => 1
  | .short => 2
  | .int => 4
  | .long | .llong => 8

/-- `lower` (line 76). -/
def lower (c : UInt8) : UInt8 := c ||| 0x20

/-- The character at an index of a text. -/
def charAt (text : Text) (i : ℕ) : UInt8 := text.getD i 0

/-- The comparison with a keyword in `format_str_parse_type`: the length and the characters with
    their lowercase bits. -/
def isWord (word : String) (substr : Text) (length : ℕ) : Bool :=
  length = word.length && (substr.take length).map lower = word.toUTF8.toList

/-- `format_str_parse_type` (lines 82–168): the type and whether it is signed. -/
def formatStrParseType (substr : Text) (length : ℕ) : Option (FmtType × Bool) :=
  let first := lower (charAt substr 0)
  let sized := first = 'u'.toUInt8 ∨ first = 'i'.toUInt8
  let digits := (substr.take length).drop 1
  if sized ∧ digits = ['8'.toUInt8] then some (.char, first = 'i'.toUInt8)
  else if sized ∧ digits = ['1'.toUInt8, '6'.toUInt8] then some (.short, first = 'i'.toUInt8)
  else if sized ∧ digits = ['3'.toUInt8, '2'.toUInt8] then some (.int, first = 'i'.toUInt8)
  else if sized ∧ digits = ['6'.toUInt8, '4'.toUInt8] then some (.llong, first = 'i'.toUInt8)
  else if isWord "size" substr length then some (.llong, false)
  else if isWord "ptrdiff" substr length then some (.llong, true)
  else
    let isSigned : Bool := first ≠ 'u'.toUInt8
    let substr := if isSigned then substr else substr.drop 1
    let length := if isSigned then length else length - 1
    if length < 3 then none
    else if isWord "llong" substr length then some (.llong, isSigned)
    else if isWord "long" substr length then some (.long, isSigned)
    else if isWord "int" substr length then some (.int, isSigned)
    else if isWord "short" substr length then some (.short, isSigned)
    else if isWord "char" substr length then some (.char, isSigned)
    else none

/-- A letter in lowercase. -/
def toLower (c : UInt8) : UInt8 :=
  if 'A'.toUInt8 ≤ c ∧ c ≤ 'Z'.toUInt8 then c + 0x20 else c

/-- `length == n && cstr_prefix_equals_case(substr, word, n)`. -/
def isWordCase (word : String) (substr : Text) (length : ℕ) : Bool :=
  length = word.length && (substr.take length).map toLower = word.toUTF8.toList

/-- `format_str_parse_mult` (lines 171–187). -/
def formatStrParseMult (substr : Text) (length : ℕ) : Option FmtMult :=
  if isWordCase "array" substr length || isWordCase "arr" substr length then some .arr
  else if isWordCase "null" substr length || isWordCase "nul" substr length then some .nul
  else none

/-- `mem_index` in the whole text. -/
def memIndex (text : Text) (c : UInt8) : Option ℕ := text.findIdx? (· = c)

/-- The format letter (lines 315–322). -/
def parseLetter (c : UInt8) : Option FmtSpec :=
  if lower c = 'd'.toUInt8 then some .dec
  else if lower c = 'x'.toUInt8 then some .hex
  else if lower c = 'o'.toUInt8 ∨ lower c = 'q'.toUInt8 then some .octal
  else if lower c = 'c'.toUInt8 then some .char
  else none

/-- The type at the start of a specifier (lines 300–309): what follows it, the type and its sign. -/
def parseTypePart (substr : Text) : Option (Text × FmtType × Bool) :=
  match memIndex substr ';'.toUInt8 with
  | none => some (substr, .int, true)
  | some delim =>
    if delim = 1 then some (substr, .int, true)
    else (formatStrParseType substr delim).map fun type => (substr.drop (delim + 1), type)

/-- The multiple and the joiner at the end of a specifier (lines 325–345). -/
def parseMultPart (substr : Text) : Option (FmtMult × Option Text) :=
  match memIndex substr ';'.toUInt8 with
  | none => if substr.length = 1 then some (.one, none) else none
  | some delim =>
    let substr := substr.drop (delim + 1)
    match memIndex substr ';'.toUInt8 with
    | some delim =>
      (formatStrParseMult substr delim).map fun mult => (mult, some (substr.drop (delim + 1)))
    | none => (formatStrParseMult substr substr.length).map fun mult => (mult, none)

/-- A specifier other than the aliases (lines 295–346). -/
def parseGeneral (substr : Text) : Option Specifier :=
  match parseTypePart substr with
  | none => none
  | some (substr, type, isSigned) =>
    match substr with
    | [] => none
    | letter :: _ =>
      match parseLetter letter, parseMultPart substr with
      | some spec, some (mult, joiner) =>
        some ⟨type, spec, mult, (letter &&& 0x20) ≠ 0, isSigned, joiner⟩
      | _, _ => none

/-- The aliases `cs` and `ls` (lines 278–294). -/
def stringSpecifier (mult : FmtMult) : Specifier := ⟨.char, .char, mult, true, false, none⟩

/-- The specifier at the start of a text, and the index of its closing bracket (lines
    260–346). `none` stands for `illegal_format`. -/
def parseSpecifier (text : Text) : Option (Specifier × ℕ) :=
  match memIndex text '\x7d'.toUInt8 with
  | none => none
  | some fmtEnd =>
    let isAlias (letter : Char) : Prop :=
      fmtEnd = 4 ∧ lower (charAt text 2) = letter.toUInt8 ∧ lower (charAt text 3) = 's'.toUInt8
    if charAt text 1 ≠ '\x7b'.toUInt8 then none
    else if isAlias 'c' then some (stringSpecifier .nul, fmtEnd)
    else if isAlias 'l' then some (stringSpecifier .arr, fmtEnd)
    else (parseGeneral ((text.take fmtEnd).drop 2)).map fun spec => (spec, fmtEnd)

/-! ## Output -/

/-- `hextab`. -/
def hexChar (digit : ℕ) : UInt8 :=
  if digit < 10 then '0'.toUInt8 + UInt8.ofNat digit else 'A'.toUInt8 + UInt8.ofNat (digit - 10)

/-- The lowest `n` digits of `bits` bits, the most significant one first. -/
def valueDigits (value : ℤ) (bits n : ℕ) : List ℕ :=
  (List.range n).map fun i => ((value >>> (bits * (n - 1 - i))) % 2 ^ bits).toNat

/-- The text that `format_str_output` (lines 190–241) gives to the callback. -/
def formatStrOutput (type : FmtType) (spec : FmtSpec) (isSigned lowercase : Bool) (value : ℤ) :
    Text :=
  match spec with
  | .char => [UInt8.ofNat (value % 256).toNat]
  | .hex =>
    (valueDigits value 4 (type.size * 2)).map fun digit =>
      hexChar digit ||| (if lowercase then 0x20 else 0)
  | .octal =>
    (valueDigits value 3 ((type.size * 8 - 1) / 3 + 1)).map fun digit =>
      '0'.toUInt8 ||| UInt8.ofNat digit
  | .dec =>
    if isSigned then intToCstrPacked (BitVec.ofInt 64 value) 21
    else uintToCstrPacked (BitVec.ofInt 64 value) 21

/-- The chunks that the callback has received, and whether it has accepted all of them. -/
structure Sink where
  out : List Text
  ok : Bool
  deriving DecidableEq, Repr

/-- A call of the callback, unless an earlier one has returned false. -/
def Sink.emit (accept : List Text → Bool) (sink : Sink) (chunk : Text) : Sink :=
  if sink.ok then ⟨sink.out ++ [chunk], accept (sink.out ++ [chunk])⟩ else sink

/-- The `n`-bit two's complement number with the given low bits. -/
def toSigned (bits n : ℕ) : ℤ := (BitVec.ofNat bits n).toInt

/-- `fmt_type_index` (lines 67–72). A `char` is unsigned. -/
def fmtTypeIndex (type : FmtType) (mem : ℕ → UInt8) (ptr i : ℕ) : ℤ :=
  let word := Frame.read mem type.size (ptr + i * type.size)
  match type with
  | .char => word
  | _ => toSigned (8 * type.size) word

/-- A single value of the given type from an argument (lines 396–428). -/
def argValue (type : FmtType) (isSigned : Bool) (arg : ℕ) : ℤ :=
  match type with
  | .long | .llong => toSigned 64 arg
  | _ => if isSigned then toSigned (8 * type.size) arg else arg % 2 ^ (8 * type.size)

/-- The number of elements before the first zero, looked for among the first `fuel`. -/
def nulLength (type : FmtType) (mem : ℕ → UInt8) (ptr fuel : ℕ) : Option ℕ :=
  (List.range fuel).find? fun i => fmtTypeIndex type mem ptr i = 0

/-- The bytes of a string. -/
def bytesAt (mem : ℕ → UInt8) (ptr length : ℕ) : Text :=
  (List.range length).map fun i => mem (ptr + i)

/-- The loops over `length` elements (lines 360–376 and 388–394), with the joiner between the
    elements. -/
def emitElements (accept : List Text → Bool) (s : Specifier) (mem : ℕ → UInt8) (ptr length : ℕ)
    (joiner : Option Text) (sink : Sink) : Sink :=
  (List.range length).foldl (fun sink i =>
    let sink := match i, joiner with
      | 0, _ | _, none => sink
      | _, some joiner => sink.emit accept joiner
    sink.emit accept
      (formatStrOutput s.type s.spec s.isSigned s.lowercase (fmtTypeIndex s.type mem ptr i))) sink

/-- The output of a specifier (lines 349–432): the callback's state and the arguments that are
    left. An array without end finds no zero with any fuel. -/
def emitSpecifier (accept : List Text → Bool) (mem : ℕ → UInt8) (fuel : ℕ) (s : Specifier)
    (args : List ℕ) (sink : Sink) : Option (Sink × List ℕ) :=
  let isString := s.spec = .char ∧ s.type = .char ∧ s.joiner = none
  let ptr := args.headD 0
  match s.mult with
  | .arr =>
    let length := args.tail.headD 0
    -- The callback gets the joiner of an array even if it is a null pointer of length zero.
    if isString then some (sink.emit accept (bytesAt mem ptr length), args.drop 2)
    else
      some (emitElements accept s mem ptr length (some (s.joiner.getD [])) sink, args.drop 2)
  | .nul =>
    (nulLength s.type mem ptr fuel).map fun length =>
      if isString then (sink.emit accept (bytesAt mem ptr length), args.drop 1)
      else (emitElements accept s mem ptr length s.joiner sink, args.drop 1)
  | .one =>
    some (sink.emit accept (formatStrOutput s.type s.spec s.isSigned s.lowercase
      (argValue s.type s.isSigned (args.headD 0))), args.drop 1)

/-! ## The loop -/

/-- The percent sign. -/
def percentSign : UInt8 := '%'.toUInt8

/-- The loop of `format_str_va` (lines 248–443) on the rest of the message. `none` stands for
    fuel that has run out. -/
def formatLoop (accept : List Text → Bool) (mem : ℕ → UInt8) :
    ℕ → Text → List ℕ → Sink → Option (Bool × List Text)
  | 0, _, _, _ => none
  | fuel + 1, text, args, sink =>
    if text = [] then some (true, sink.out)
    else if charAt text 0 = percentSign ∧ 1 < text.length ∧ charAt text 1 = percentSign then
      let sink := sink.emit accept [percentSign]
      if sink.ok then formatLoop accept mem fuel (text.drop 2) args sink
      else some (false, sink.out)
    else if charAt text 0 = percentSign ∧ 3 < text.length then
      match parseSpecifier text with
      | none =>
        let sink := sink.emit accept text
        some (sink.ok, sink.out)
      | some (spec, fmtEnd) =>
        match emitSpecifier accept mem fuel spec args sink with
        | none => none
        | some (sink, args) =>
          if sink.ok then formatLoop accept mem fuel (text.drop (fmtEnd + 1)) args sink
          else some (false, sink.out)
    else
      -- Normal text up to the next percent sign.
      let sink := sink.emit accept (text.takeWhile (· ≠ percentSign))
      if sink.ok then formatLoop accept mem fuel (text.dropWhile (· ≠ percentSign)) args sink
      else some (false, sink.out)

/-- `format_str_va` (lines 244–451): what it returns and the chunks for the callback. -/
def formatStrVa (accept : List Text → Bool) (mem : ℕ → UInt8) (fuel : ℕ) (msg : Text)
    (args : List ℕ) : Option (Bool × List Text) :=
  formatLoop accept mem fuel msg args ⟨[], true⟩

end BadgerOS.Format
