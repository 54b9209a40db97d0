import Fabrication.Decimal.Basic

/-!
# Reading decimals

`Decimal.parse?` reads the plain notation, one character at a time:

* a sign `-` or `+` may stand first; a point may stand once; an underscore may stand
  anywhere after the first digit and is skipped;
* the scale is the number of digits after the point, so `"0.0360000"` keeps its seven
  places;
* while the mantissa is small the digits are simply taken; once it is large, a digit that
  would carry it to `2^96` ends the reading: before the point this is an overflow, after it
  the digit rounds the mantissa (half up);
* after the 28th place the next character rounds the mantissa the same way: for a small
  mantissa an underscore there counts as zero, a large one is rounded by the next digit
  past any underscores; a mantissa that rounding carries to `2^96` loses its last digit;
* the digits after the one that rounds are not kept, but they must be digits or
  underscores;
* a zero reads as positive zero.

`Decimal.parseScientific?` also takes an exponent after the first `e` or `E`: the part
before it is read as above, and the exponent, at most 28, moves the point; a negative one
that would pass 28 places rounds the mantissa, half away from zero, to 28 places, keeping
the sign even when the mantissa rounds to zero. When
neither reading succeeds, the reason given is that of the plain reading.
-/

namespace Fabrication

namespace Decimal

/-- Why a text is not a decimal. -/
inductive ReadError where
  | empty
  | unknownCharacter
  | twoPoints
  | leadingSeparator
  | noDigits
  | tooManyDigits
  | roundingOverflow
  deriving DecidableEq, Repr

/-- A short description of a reading error. -/
def ReadError.describe : ReadError → String
  | .empty => "empty"
  | .unknownCharacter => "unknown character"
  | .twoPoints => "two decimal points"
  | .leadingSeparator => "must start lead with a number"
  | .noDigits => "no digits found"
  | .tooManyDigits => "overflow from too many digits"
  | .roundingOverflow => "overflow from mantissa after rounding"

/-- What has been read so far: a point, a minus sign, a digit. -/
structure ReadState where
  point : Bool := false
  negative : Bool := false
  hasDigit : Bool := false

def misplaced (c : Char) : ReadError :=
  if c == '.' then .twoPoints else if c == '_' then .leadingSeparator else .unknownCharacter

def digitValue (c : Char) : Nat := c.toNat - '0'.toNat

/-- The mantissa from which digits are read as a large mantissa. -/
def wideFrom : Nat := (Nat.pow 2 64 - 1) / 10 - 255

/-- The decimal read, once the text or the reading ends; a scale past 28 wraps around. -/
def finish (st : ReadState) (data scale : Nat) : Except ReadError Decimal :=
  if !st.hasDigit then .error .noDigits
  else .ok ⟨st.negative && data != 0, data, scale % (maxScale + 1)⟩

/-- The mantissa rounded half up by a digit: a mantissa carried to `2^96` loses its last
digit, which a whole number cannot. -/
def roundBy (st : ReadState) (data scale digit : Nat) : Except ReadError Decimal :=
  if digit ≥ 5 then
    if data + 1 ≥ mantissaBound then
      if scale == 0 then .error .roundingOverflow
      else finish st ((data + 1 + 4) / 10) (scale - 1)
    else finish st (data + 1) scale
  else finish st data scale

/-- Round the mantissa by the text after the last digit kept, whose rest must be digits and
underscores. A small mantissa is rounded by the first character, an underscore counting as
zero; a large one by the first digit past any underscores. -/
def roundAt (st : ReadState) (data scale : Nat) (rest : List Char) (large : Bool) :
    Except ReadError Decimal :=
  let rest := if large then rest.dropWhile (· == '_') else rest
  match rest with
  | [] => finish st data scale
  | c :: tail =>
    if !(c.isDigit || c == '_') then .error (misplaced c)
    else
      match tail.find? (fun t => !(t.isDigit || t == '_')) with
      | some t => .error (misplaced t)
      | none => roundBy st data scale (if c == '_' then 0 else digitValue c)

/-- Characters read into a large mantissa. -/
def readWide (st : ReadState) : List Char → Nat → Nat → Except ReadError Decimal
  | [], data, scale => finish st data scale
  | c :: rest, data, scale =>
    if c.isDigit then
      let next := data * 10 + digitValue c
      if next ≥ mantissaBound then
        if st.point then roundAt st data scale (c :: rest) true else .error .tooManyDigits
      else
        let scale := if st.point then scale + 1 else scale
        if st.point && scale ≥ maxScale && !rest.isEmpty then roundAt st next scale rest true
        else readWide st rest next scale
    else if c == '.' && !st.point then readWide { st with point := true } rest data scale
    else if c == '_' then readWide st rest data scale
    else .error (misplaced c)

/-- Characters read into a small mantissa; `first` marks the first character. -/
def readNarrow (st : ReadState) (first : Bool) : List Char → Nat → Nat → Except ReadError Decimal
  | [], data, scale => finish st data scale
  | c :: rest, data, scale =>
    if c.isDigit then
      let data := data * 10 + digitValue c
      let scale := if st.point then scale + 1 else 0
      let st := { st with hasDigit := true }
      if rest.isEmpty then finish st data scale
      else if st.point && scale ≥ maxScale then roundAt st data scale rest false
      else if data ≥ wideFrom then readWide st rest data scale
      else readNarrow st false rest data scale
    else if c == '.' && !st.point then readNarrow { st with point := true } false rest data scale
    else if first && c == '-' then readNarrow { st with negative := true } false rest data scale
    else if first && c == '+' then readNarrow st false rest data scale
    else if c == '_' && st.hasDigit then readNarrow st false rest data scale
    else .error (misplaced c)

def parse? (text : String) : Except ReadError Decimal :=
  match text.toList with
  | [] => .error .empty
  | cs => readNarrow {} true cs 0 0

/-- An unsigned 32-bit number: digits after an optional `+`. -/
def readExponent (cs : List Char) : Option Nat :=
  let cs := match cs with
    | '+' :: rest => rest
    | _ => cs
  if cs.isEmpty || !cs.all Char.isDigit then none
  else
    let n := cs.foldl (fun n c => n * 10 + digitValue c) 0
    if n < Nat.pow 2 32 then some n else none

/-- Read a decimal in exponent notation: the plain part, `e` or `E`, and the exponent. -/
def scientific? (text : String) : Option Decimal :=
  let cs := text.toList
  match cs.findIdx? (fun c => c == 'e' || c == 'E') with
  | none => none
  | some i =>
    match parse? (String.ofList (cs.take i)) with
    | .error _ => none
    | .ok base =>
      match cs.drop (i + 1) with
      | '-' :: rest => do
        let k ← readExponent rest
        if k > maxScale then none
        else if base.scale + k ≤ maxScale then some { base with scale := base.scale + k }
        else
          some ⟨base.negative, divPow10HalfUp base.mantissa (base.scale + k - maxScale), maxScale⟩
      | rest => do
        let k ← readExponent rest
        if k ≤ base.scale then some { base with scale := base.scale - k }
        else if k > maxScale then none
        else
          let m := base.mantissa * Nat.pow 10 (k - base.scale)
          if m < mantissaBound then some ⟨base.negative && m != 0, m, 0⟩ else none

/-- Read a decimal in plain notation or, failing that, in exponent notation; the error is
that of the plain reading. -/
def parseScientific? (text : String) : Except ReadError Decimal :=
  match parse? text with
  | .ok d => .ok d
  | .error e =>
    match scientific? text with
    | some d => .ok d
    | none => .error e

end Decimal

end Fabrication
