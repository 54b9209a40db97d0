import Fabrication.Config
import Fabrication.Decimal.Parse
import Fabrication.Json.Number
import Fabrication.Text.Quoted

/-!
# Reading configuration text

A configuration is a JSON object whose members are settings (unknown members are skipped,
missing ones keep their defaults), or a JSON array of the settings in their fixed order. The
reader works through the text once, decoding each value as its setting demands, and stops at
the first problem. A problem is reported with its place, `at line L column C`, where the
column counts bytes: a problem with a value already read is placed after it, and a problem
with the next byte is placed on it.

Settings and their kinds, in order: `child_build_efficiency`, `child_convert_efficiency`,
`child_time_efficiency` (8-bit counts), `max_job_duration_secs` (a count or `null`),
`split_strategy` (`Even`, `Fill`), `include_copy_steps` (a Boolean), `max_depth` (a 32-bit
count), `sales_tax_rate` (a decimal), `fallback_cost_ratio` (a decimal or `null`) and
`match_adaptation` (`OnAnyDifference`, `OnOvershoot`, `Never`). A decimal may be written as
a string, in plain or exponent notation, or as a number.
-/

namespace Fabrication

namespace ConfigText

/-- The unread bytes and the place of the last byte read. -/
structure Cursor where
  rest : List UInt8
  line : Nat := 1
  col : Nat := 0

abbrev Reader := StateT Cursor (Except String)

def Cursor.next (c : Cursor) : Cursor :=
  match c.rest with
  | [] => c
  | b :: r => if b == 10 then ⟨r, c.line + 1, 0⟩ else ⟨r, c.line, c.col + 1⟩

/-- A problem placed after the last byte read. -/
def failHere {α : Type} (msg : String) : Reader α := fun c =>
  .error s!"{msg} at line {c.line} column {c.col}"

/-- A problem placed on the next byte. -/
def failNext {α : Type} (msg : String) : Reader α := fun c =>
  let n := c.next
  .error s!"{msg} at line {n.line} column {n.col}"

def peek : Reader (Option UInt8) := fun c => .ok (c.rest.head?, c)

def eat : Reader Unit := fun c => .ok ((), c.next)

def nextByte : Reader (Option UInt8) := fun c => .ok (c.rest.head?, c.next)

/-- Skip whitespace and look at the byte after it. -/
def peekBlank : Reader (Option UInt8) := fun c =>
  let rec go (c : Cursor) (fuel : Nat) : Cursor :=
    match fuel, c.rest with
    | fuel + 1, b :: _ => if b == 32 || b == 10 || b == 9 || b == 13 then go c.next fuel else c
    | _, _ => c
  let c := go c c.rest.length
  .ok (c.rest.head?, c)

def isDigit (b : UInt8) : Bool := 48 ≤ b && b ≤ 57

def byte (c : Char) : UInt8 := c.toNat.toUInt8

/-- Read the rest of an expected word. -/
def readWordRest (word : List Char) : Reader Unit :=
  word.forM fun ch => do
    match ← nextByte with
    | none => failHere "EOF while parsing a value"
    | some b => if b != byte ch then failHere "expected ident" else pure ()

/-- The value of a hexadecimal digit byte. -/
def hexDigit (b : UInt8) : Option Nat :=
  if isDigit b then some (b.toNat - 48)
  else if 97 ≤ b && b ≤ 102 then some (b.toNat - 87)
  else if 65 ≤ b && b ≤ 70 then some (b.toNat - 55)
  else none

/-- Four hexadecimal digits of an escape. -/
def readHex : Reader Nat := fun c =>
  match c.rest with
  | a :: b :: d :: e :: _ =>
    let after := c.next.next.next.next
    let line := after.line
    let col := after.col
    match hexDigit a, hexDigit b, hexDigit d, hexDigit e with
    | some va, some vb, some vd, some ve => .ok (((va * 16 + vb) * 16 + vd) * 16 + ve, after)
    | _, _, _, _ => .error s!"invalid escape at line {line} column {col}"
  | _ =>
    let rec toEnd (c : Cursor) : Nat → Cursor
      | 0 => c
      | n + 1 => toEnd c.next n
    let atEnd := toEnd c c.rest.length
    let line := atEnd.line
    let col := atEnd.col
    .error s!"EOF while parsing a string at line {line} column {col}"

def utf8 (n : Nat) : List UInt8 := (Char.ofNat n).toString.toUTF8.toList

/-- A `\u` escape, possibly a surrogate pair. -/
def readUnicodeEscape : Reader (List UInt8) := do
  let n ← readHex
  if 0xDC00 ≤ n && n ≤ 0xDFFF then failHere "lone leading surrogate in hex escape"
  else if n < 0xD800 || n > 0xDBFF then pure (utf8 n)
  else
    match ← peek with
    | none => failHere "EOF while parsing a string"
    | some b =>
      eat
      if b != byte '\\' then failHere "unexpected end of hex escape"
      else
        match ← peek with
        | none => failHere "EOF while parsing a string"
        | some b =>
          eat
          if b != byte 'u' then failHere "unexpected end of hex escape"
          else
            let n2 ← readHex
            if n2 < 0xDC00 || n2 > 0xDFFF then failHere "lone leading surrogate in hex escape"
            else pure (utf8 (0x10000 + (n - 0xD800) * 0x400 + (n2 - 0xDC00)))

/-- The bytes of a string after its opening quote, the closing quote read. When the string
is only `skipping`, escapes are checked for form only and a control character is refused
before it is read. -/
def readStringBytes (skipping : Bool) : Nat → List UInt8 → Reader (List UInt8)
  | 0, _ => failHere "EOF while parsing a string"
  | fuel + 1, acc => do
    match ← peek with
    | none => failHere "EOF while parsing a string"
    | some b =>
      if skipping && b < 32 && b != byte '"' && b != byte '\\' then
        failHere "control character (\\u0000-\\u001F) found while parsing a string"
      eat
      if b == byte '"' then pure acc.reverse
      else if b == byte '\\' then
        match ← nextByte with
        | none => failHere "EOF while parsing a string"
        | some e =>
          let simple := [('"', '"'), ('\\', '\\'), ('/', '/'), ('b', Char.ofNat 8),
            ('f', Char.ofNat 12), ('n', '\n'), ('r', '\r'), ('t', '\t')]
          match simple.find? (fun p => byte p.1 == e) with
          | some (_, ch) => readStringBytes skipping fuel (byte ch :: acc)
          | none =>
            if e == byte 'u' then
              if skipping then do
                let _ ← readHex
                readStringBytes skipping fuel acc
              else
                let bs ← readUnicodeEscape
                readStringBytes skipping fuel (bs.reverse ++ acc)
            else failHere "invalid escape"
      else if b < 32 then failHere "control character (\\u0000-\\u001F) found while parsing a string"
      else readStringBytes skipping fuel (b :: acc)

def readString : Reader String := do
  let c ← get
  let bs ← readStringBytes false (c.rest.length + 1) []
  pure ((String.fromUTF8? (ByteArray.mk bs.toArray)).getD "")

def skipString : Reader Unit := do
  let c ← get
  let _ ← readStringBytes true (c.rest.length + 1) []
  pure ()

abbrev Number := Json.Number

/-- Digits while they last, their values in order after `acc` reversed. -/
def readDigits : Nat → List Nat → Reader (List Nat)
  | 0, acc => pure acc.reverse
  | fuel + 1, acc => do
    match ← peek with
    | some b => if isDigit b then do eat; readDigits fuel ((b.toNat - 48) :: acc) else pure acc.reverse
    | none => pure acc.reverse

/-- The exponent part after `e` or `E`: its sign (`true` for positive), its digits, and the
place of the byte before the digits. -/
def readExponentPart : Reader (Bool × List Nat × Cursor) := do
  eat
  let positive ← do
    match ← peek with
    | some b => if b == byte '+' then do eat; pure true else if b == byte '-' then do eat; pure false else pure true
    | none => pure true
  let before ← get
  match ← nextByte with
  | none => failHere "invalid number"
  | some b =>
    if !isDigit b then failHere "invalid number"
    else
      let c ← get
      let ds ← readDigits c.rest.length [b.toNat - 48]
      pure (positive, ds, before)

/-- A number after its sign: digits, then fraction and exponent, valued as `Json.Number`
values them. A number without a value is refused where the reading finds it, unless the
number is only `skipping`. -/
def readUnsignedNumber (negative skipping : Bool) : Reader Number := do
  match ← nextByte with
  | none => failHere "invalid number"
  | some b =>
    if !isDigit b then failHere "invalid number"
    else
      let c ← get
      let whole ← if b == byte '0' then do
          match ← peek with
          | some d => if isDigit d then failNext "invalid number" else pure [0]
          | none => pure [0]
        else readDigits c.rest.length [b.toNat - 48]
      let fraction ← do
        match ← peek with
        | some d =>
          if d == byte '.' then do
            eat
            let c ← get
            let ds ← readDigits c.rest.length []
            if ds.isEmpty then failNext "invalid number" else pure ds
          else pure []
        | none => pure []
      let exponent ← do
        match ← peek with
        | some e =>
          if e == byte 'e' || e == byte 'E' then some <$> readExponentPart else pure none
        | none => pure none
      let parts : Json.NumberParts :=
        { negative, whole, fraction, exponent := exponent.map fun (p, ds, _) => (p, ds) }
      if skipping then pure (.unsigned 0)
      else
        match Json.Number.ofParts parts with
        | .ok n => pure n
        | .error .outOfRange => failHere "number out of range"
        | .error (.exponentTooLong k) =>
          match exponent with
          | some (_, _, mark) =>
            let line := mark.line
            let col := mark.col + k
            fun _ => .error s!"number out of range at line {line} column {col}"
          | none => failHere "number out of range"

/-- A number, its first byte being a digit or a minus sign. -/
def readNumberAs (skipping : Bool) : Reader Number := do
  match ← peek with
  | some b =>
    if b == byte '-' then do eat; readUnsignedNumber true skipping
    else readUnsignedNumber false skipping
  | none => failHere "EOF while parsing a value"

def readNumber : Reader Number := readNumberAs false

/-- How a problem names what was found. -/
def Number.describe : Number → String
  | .unsigned n => s!"integer `{n}`"
  | .signed n => s!"integer `{n}`"
  | .float x =>
    let t := x.jsonText
    s!"floating point `{t}`"

def invalidType {α : Type} (what expected : String) : Reader α :=
  failHere s!"invalid type: {what}, expected {expected}"

/-- Skip a value of any kind. -/
def skipValue : Nat → Reader Unit
  | 0 => failHere "recursion limit exceeded"
  | fuel + 1 => do
    match ← peekBlank with
    | none => failNext "EOF while parsing a value"
    | some b =>
      if b == byte 'n' then do eat; readWordRest "ull".toList
      else if b == byte 't' then do eat; readWordRest "rue".toList
      else if b == byte 'f' then do eat; readWordRest "alse".toList
      else if b == byte '-' || isDigit b then do let _ ← readNumberAs true; pure ()
      else if b == byte '"' then do eat; skipString
      else if b == byte '[' then do
        eat
        match ← peekBlank with
        | some e => if e == byte ']' then eat else skipItems fuel
        | none => failNext "EOF while parsing a list"
      else if b == byte '\x7b' then do
        eat
        match ← peekBlank with
        | some e => if e == byte '\x7d' then eat else skipMembers fuel
        | none => failNext "EOF while parsing an object"
      else failNext "expected value"
where
  /-- Items of a list, the first one present. -/
  skipItems : Nat → Reader Unit
    | 0 => failHere "recursion limit exceeded"
    | fuel + 1 => do
      skipValue fuel
      match ← peekBlank with
      | none => failNext "EOF while parsing a list"
      | some b =>
        if b == byte ',' then do
          eat
          match ← peekBlank with
          | some e => if e == byte ']' then failNext "expected value" else skipItems fuel
          | none => failNext "EOF while parsing a value"
        else if b == byte ']' then eat
        else failNext "expected `,` or `]`"
  /-- Members of an object, the first one present. -/
  skipMembers : Nat → Reader Unit
    | 0 => failHere "recursion limit exceeded"
    | fuel + 1 => do
      match ← peekBlank with
      | none => failNext "EOF while parsing an object"
      | some b =>
        if b != byte '"' then failNext "key must be a string"
        else
          eat
          skipString
          match ← peekBlank with
          | none => failNext "EOF while parsing an object"
          | some c =>
            if c != byte ':' then failNext "expected `:`"
            else
              eat
              skipValue fuel
              match ← peekBlank with
              | none => failNext "EOF while parsing an object"
              | some d =>
                if d == byte ',' then do
                  eat
                  skipMembers fuel
                else if d == byte '\x7d' then eat
                else failNext "expected `,` or `\x7d`"

/-- A value of the wrong kind, read whole (scalars) so that the problem is placed after it;
a list or object is not read and the problem is placed before it. -/
def wrongValue {α : Type} (expected : String) : Reader α := do
  match ← peekBlank with
  | none => failNext "EOF while parsing a value"
  | some b =>
    if b == byte 'n' then do eat; readWordRest "ull".toList; invalidType "null" expected
    else if b == byte 't' then do eat; readWordRest "rue".toList; invalidType "boolean `true`" expected
    else if b == byte 'f' then do eat; readWordRest "alse".toList; invalidType "boolean `false`" expected
    else if b == byte '-' || isDigit b then do
      let n ← readNumber
      invalidType n.describe expected
    else if b == byte '"' then do
      eat
      let s ← readString
      invalidType ("string " ++ Text.quoted s) expected
    else if b == byte '[' then invalidType "sequence" expected
    else if b == byte '\x7b' then invalidType "map" expected
    else failNext "expected value"

/-- A whole number below `bound`, named `kind` in problems. -/
def readCount (bound : Nat) (kind : String) : Reader Nat := do
  match ← peekBlank with
  | none => failNext "EOF while parsing a value"
  | some b =>
    if b == byte '-' || isDigit b then do
      match ← readNumber with
      | .unsigned n => if n < bound then pure n else failHere s!"invalid value: integer `{n}`, expected {kind}"
      | .signed n => failHere s!"invalid value: integer `{n}`, expected {kind}"
      | .float x =>
        let t := x.jsonText
        failHere s!"invalid type: floating point `{t}`, expected {kind}"
    else wrongValue kind

/-- A Boolean. -/
def readBool : Reader Bool := do
  match ← peekBlank with
  | some b =>
    if b == byte 't' then do eat; readWordRest "rue".toList; pure true
    else if b == byte 'f' then do eat; readWordRest "alse".toList; pure false
    else wrongValue "a boolean"
  | none => failNext "EOF while parsing a value"

def decimalKind : String := "a Decimal type representing a fixed-point number"

/-- A decimal: a string in plain or exponent notation, or a number. -/
def readDecimal : Reader Decimal := do
  match ← peekBlank with
  | none => failNext "EOF while parsing a value"
  | some b =>
    if b == byte '"' then do
      eat
      let s ← readString
      match Decimal.parseScientific? s with
      | .ok d => pure d
      | .error _ =>
        let q := Text.quoted s
        failHere s!"invalid value: string {q}, expected {decimalKind}"
    else if b == byte '-' || isDigit b then do
      match ← readNumber with
      | .unsigned n => pure (Decimal.ofNat n)
      | .signed n => pure (Decimal.ofInt n)
      | .float x =>
        match Decimal.parse? x.plainText with
        | .ok d => pure d
        | .error _ =>
          let t := x.jsonText
          failHere s!"invalid value: floating point `{t}`, expected {decimalKind}"
    else if b == byte '[' then do
      -- the end of the list is looked for before the problem is placed: a closing bracket
      -- is read, and so is a comma with the blanks after it
      eat
      match ← peekBlank with
      | some e =>
        if e == byte ']' then eat
        else if e == byte ',' then do eat; let _ ← peekBlank; pure ()
        else pure ()
      | none => pure ()
      failHere s!"invalid type: sequence, expected {decimalKind}"
    else if b == byte '\x7b' then do
      -- the end of the object is looked for before the problem is placed
      eat
      match ← peekBlank with
      | some e => if e == byte '\x7d' then eat else pure ()
      | none => pure ()
      failHere s!"invalid type: map, expected {decimalKind}"
    else wrongValue decimalKind

def readOptional {α : Type} (r : Reader α) : Reader (Option α) := do
  match ← peekBlank with
  | some b => if b == byte 'n' then do eat; readWordRest "ull".toList; pure none else some <$> r
  | none => some <$> r

/-- The problem text for a name that is not among the variants. -/
def unknownVariant (name : String) (variants : List String) : String :=
  let quoted := variants.map fun v => "`" ++ v ++ "`"
  let expected := match quoted with
    | [a] => "expected " ++ a
    | [a, b] => "expected " ++ a ++ " or " ++ b
    | _ => "expected one of " ++ ", ".intercalate quoted
  "unknown variant `" ++ name ++ "`, " ++ expected

/-- One of named variants, written as a string or as an object `{"Name": null}`. -/
def readVariant {α : Type} (variants : List String) (pick : String → Option α) : Reader α := do
  match ← peekBlank with
  | none => failNext "EOF while parsing a value"
  | some b =>
    if b == byte '"' then do
      eat
      let s ← readString
      match pick s with
      | some v => pure v
      | none => failHere (unknownVariant s variants)
    else if b == byte '\x7b' then do
      eat
      match ← peekBlank with
      | some q =>
        if q != byte '"' then wrongValue "variant identifier"
        else
          eat
          let s ← readString
          match pick s with
          | none => failHere (unknownVariant s variants)
          | some v =>
            match ← peekBlank with
            | some c =>
              if c != byte ':' then failNext "expected `:`"
              else
                eat
                match ← peekBlank with
                | some n =>
                  if n == byte 'n' then do
                    eat
                    readWordRest "ull".toList
                    match ← peekBlank with
                    | some e => if e == byte '\x7d' then do eat; pure v else failHere "expected value"
                    | none => failHere "EOF while parsing an object"
                  else wrongValue "unit"
                | none => failNext "EOF while parsing a value"
            | none => failNext "EOF while parsing an object"
      | none => failNext "EOF while parsing a value"
    else failNext "expected value"

def settingNames : List String :=
  ["child_build_efficiency", "child_convert_efficiency", "child_time_efficiency",
    "max_job_duration_secs", "split_strategy", "include_copy_steps", "max_depth",
    "sales_tax_rate", "fallback_cost_ratio", "match_adaptation"]

/-- Read the value of the `i`-th setting into a configuration. -/
def readSetting (i : Nat) (cfg : EngineConfig) : Reader EngineConfig :=
  match i with
  | 0 => do
    let v ← readCount 256 "u8"
    pure { cfg with childBuildEfficiency := v }
  | 1 => do
    let v ← readCount 256 "u8"
    pure { cfg with childConvertEfficiency := v }
  | 2 => do
    let v ← readCount 256 "u8"
    pure { cfg with childTimeEfficiency := v }
  | 3 => do
    let v ← readOptional (readCount (Nat.pow 2 64) "u64")
    pure { cfg with maxJobDuration := v }
  | 4 => do
    let v ← readVariant ["Even", "Fill"] SplitStrategy.ofName?
    pure { cfg with splitStrategy := v }
  | 5 => do
    let v ← readBool
    pure { cfg with includeCopySteps := v }
  | 6 => do
    let v ← readCount (Nat.pow 2 32) "u32"
    pure { cfg with maxDepth := v }
  | 7 => do
    let v ← readDecimal
    pure { cfg with salesTaxRate := v }
  | 8 => do
    let v ← readOptional readDecimal
    pure { cfg with fallbackCostRatio := v }
  | _ => do
    let v ← readVariant ["OnAnyDifference", "OnOvershoot", "Never"] MatchPolicy.ofName?
    pure { cfg with matchPolicy := v }

/-- The members of an object form, after its opening brace; `seen` lists settings read. -/
def readMembers : Nat → EngineConfig → List Nat → Bool → Reader EngineConfig
  | 0, _, _, _ => failHere "recursion limit exceeded"
  | fuel + 1, cfg, seen, first => do
    match ← peekBlank with
    | none => failNext "EOF while parsing an object"
    | some b =>
      if b == byte '\x7d' then do eat; pure cfg
      else
        let start ← if b == byte ',' && !first then do
            eat
            peekBlank
          else if first then pure (some b)
          else failNext "expected `,` or `\x7d`"
        match start with
        | none => failNext "EOF while parsing a value"
        | some q =>
          if q == byte '"' then do
            eat
            let key ← readString
            let colon : Reader Unit := do
              match ← peekBlank with
              | some c => if c == byte ':' then eat else failNext "expected `:`"
              | none => failNext "EOF while parsing an object"
            match settingNames.idxOf? key with
            | some i =>
              if seen.contains i then do
                -- the closing brace, if it follows, is read before the problem is placed
                match ← peekBlank with
                | some e => if e == byte '\x7d' then eat else pure ()
                | none => pure ()
                failHere s!"duplicate field `{key}`"
              else do
                colon
                let cfg ← readSetting i cfg
                readMembers fuel cfg (i :: seen) false
            | none => do
              colon
              skipValue fuel
              readMembers fuel cfg seen false
          else if q == byte '\x7d' then failNext "trailing comma"
          else failNext "key must be a string"

/-- The items of a list form, after its opening bracket: settings in order, missing ones
keeping their defaults. -/
def readItems (cfg : EngineConfig) : Reader EngineConfig := do
  let rec go (i : Nat) (cfg : EngineConfig) (ended : Bool) (fuel : Nat) : Reader (EngineConfig × Bool) :=
    match fuel with
    | 0 => pure (cfg, ended)
    | fuel + 1 => do
      if ended then go (i + 1) cfg true fuel
      else
        match ← peekBlank with
        | none => failNext "EOF while parsing a list"
        | some b =>
          if b == byte ']' then go (i + 1) cfg true fuel
          else if i == 0 then do
            let cfg ← readSetting i cfg
            go (i + 1) cfg false fuel
          else if b == byte ',' then do
            eat
            match ← peekBlank with
            | some e =>
              if e == byte ']' then failNext "trailing comma"
              else do
                let cfg ← readSetting i cfg
                go (i + 1) cfg false fuel
            | none => failNext "EOF while parsing a value"
          else failNext "expected `,` or `]`"
  let (cfg, _) ← go 0 cfg false settingNames.length
  match ← peekBlank with
  | some b =>
    if b == byte ']' then do eat; pure cfg
    else if b == byte ',' then do
      eat
      match ← peekBlank with
      | some e => if e == byte ']' then failNext "trailing comma" else failNext "trailing characters"
      | none => failNext "trailing characters"
    else failNext "trailing characters"
  | none => failNext "EOF while parsing a list"

/-- A configuration in object or list form, then nothing but whitespace. -/
def readConfig : Reader EngineConfig := do
  let cfg ← do
    match ← peekBlank with
    | none => failNext "EOF while parsing a value"
    | some b =>
      if b == byte '\x7b' then do
        eat
        let c ← get
        readMembers (c.rest.length + 1) {} [] true
      else if b == byte '[' then do eat; readItems {}
      else wrongValue "struct EngineConfig"
  match ← peekBlank with
  | some _ => failNext "trailing characters"
  | none => pure cfg

end ConfigText

namespace EngineConfig

/-- Read a configuration from JSON text and check its ranges. -/
def ofText (text : String) : Except PlanError EngineConfig :=
  match ConfigText.readConfig.run ⟨text.toUTF8.toList, 1, 0⟩ with
  | .error msg => .error (.invalidInput (.configUnreadable msg))
  | .ok (cfg, _) => do
    cfg.validate
    pure cfg

end EngineConfig

end Fabrication
