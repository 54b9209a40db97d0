import Fabrication.Json
import Fabrication.Json.Number

/-!
# Reading JSON text

A recursive-descent reader for one JSON document. Whitespace is space, tab, line feed and
carriage return. Numbers follow the JSON grammar and take their values as `Json.Number`
reads them; a number without a value is refused. Escapes
`\uXXXX` may pair surrogates. Arrays and objects nest at most `maxNesting` deep. Anything
after the document other than whitespace is refused. Every nested value consumes at least one
character, so the length of the text bounds the descent.
-/

namespace Fabrication

namespace Json

def skipBlank : List Char → List Char
  | c :: cs => if c == ' ' || c == '\n' || c == '\t' || c == '\r' then skipBlank cs else c :: cs
  | [] => []

/-- The value of a hexadecimal digit. -/
def hexValue (c : Char) : Option Nat :=
  if c.isDigit then some (c.toNat - '0'.toNat)
  else if 'a' ≤ c && c ≤ 'f' then some (c.toNat - 'a'.toNat + 10)
  else if 'A' ≤ c && c ≤ 'F' then some (c.toNat - 'A'.toNat + 10)
  else none

/-- The value of four hexadecimal digits. -/
def hex4Value (a b c d : Char) : Option Nat := do
  let va ← hexValue a
  let vb ← hexValue b
  let vc ← hexValue c
  let vd ← hexValue d
  pure (((va * 16 + vb) * 16 + vc) * 16 + vd)

/-- The characters of a string after its opening quote, up to the closing quote. -/
def readString : List Char → List Char → Except String (String × List Char)
  | [], _ => .error "EOF while parsing a string"
  | '"' :: rest, acc => .ok (String.ofList acc.reverse, rest)
  | '\\' :: '"' :: r, acc => readString r ('"' :: acc)
  | '\\' :: '\\' :: r, acc => readString r ('\\' :: acc)
  | '\\' :: '/' :: r, acc => readString r ('/' :: acc)
  | '\\' :: 'b' :: r, acc => readString r (Char.ofNat 8 :: acc)
  | '\\' :: 'f' :: r, acc => readString r (Char.ofNat 12 :: acc)
  | '\\' :: 'n' :: r, acc => readString r ('\n' :: acc)
  | '\\' :: 'r' :: r, acc => readString r ('\r' :: acc)
  | '\\' :: 't' :: r, acc => readString r ('\t' :: acc)
  | '\\' :: 'u' :: a :: b :: c :: d :: '\\' :: 'u' :: e :: f :: g :: h :: r, acc =>
    match hex4Value a b c d, hex4Value e f g h with
    | some hi, some lo =>
      if 0xD800 ≤ hi && hi < 0xDC00 then
        if 0xDC00 ≤ lo && lo < 0xE000 then
          readString r (Char.ofNat (0x10000 + (hi - 0xD800) * 0x400 + (lo - 0xDC00)) :: acc)
        else .error "lone leading surrogate in hex escape"
      else if 0xDC00 ≤ hi && hi < 0xE000 then .error "lone trailing surrogate in hex escape"
      else readString ('\\' :: 'u' :: e :: f :: g :: h :: r) (Char.ofNat hi :: acc)
    | _, _ => .error "invalid escape"
  | '\\' :: 'u' :: a :: b :: c :: d :: r, acc =>
    match hex4Value a b c d with
    | some hi =>
      if 0xD800 ≤ hi && hi < 0xE000 then .error "lone surrogate in hex escape"
      else readString r (Char.ofNat hi :: acc)
    | none => .error "invalid escape"
  | '\\' :: _, _ => .error "invalid escape"
  | c :: rest, acc =>
    if c.toNat < 32 then .error "control character found while parsing a string"
    else readString rest (c :: acc)

def digitRun (cs : List Char) : List Nat × List Char :=
  ((cs.takeWhile Char.isDigit).map (·.toNat - '0'.toNat), cs.dropWhile Char.isDigit)

/-- The exponent of a number after its `e`: sign and digits, at least one. -/
def readExponentDigits (cs : List Char) : Except String ((Bool × List Nat) × List Char) :=
  let (positive, cs) := match cs with
    | '+' :: r => (true, r)
    | '-' :: r => (false, r)
    | r => (true, r)
  let (ds, r) := digitRun cs
  if ds.isEmpty then .error "invalid number" else .ok ((positive, ds), r)

/-- The written parts of a number at the start of a text, and the text after it: an optional
minus, digits without a leading zero, an optional fraction of at least one digit and an
optional exponent. -/
def readNumberParts (cs : List Char) : Except String (NumberParts × List Char) := do
  let (negative, cs) := match cs with
    | '-' :: r => (true, r)
    | r => (false, r)
  let (whole, cs) := digitRun cs
  if whole.isEmpty || (whole.length > 1 && whole.head? == some 0) then throw "invalid number"
  let (fraction, cs) ← match cs with
    | '.' :: r =>
      let (ds, r) := digitRun r
      if ds.isEmpty then throw "invalid number" else pure (ds, r)
    | r => pure ([], r)
  match cs with
  | e :: r =>
    if e == 'e' || e == 'E' then do
      let (x, r) ← readExponentDigits r
      pure ({ negative, whole, fraction, exponent := some x }, r)
    else pure ({ negative, whole, fraction, exponent := none }, cs)
  | [] => pure ({ negative, whole, fraction, exponent := none }, [])

/-- A number at the start of a text as a document. -/
def readNumber (cs : List Char) : Except String (Json × List Char) := do
  let (p, r) ← readNumberParts cs
  match Number.ofParts p with
  | .ok (.unsigned n) => pure (int n, r)
  | .ok (.signed n) => pure (int n, r)
  | .ok (.float x) => pure (float x, r)
  | .error _ => throw "number out of range"

def readWord (word : List Char) (v : Json) (cs : List Char) : Except String (Json × List Char) :=
  if word.isPrefixOf cs then .ok (v, cs.drop word.length) else .error "expected ident"

def maxNesting : Nat := 127

mutual

/-- One value after optional whitespace, inside `depth` arrays and objects; `fuel` bounds the
descent. -/
def readValue : Nat → Nat → List Char → Except String (Json × List Char)
  | 0, _, _ => .error "recursion limit exceeded"
  | fuel + 1, depth, cs =>
    match skipBlank cs with
    | [] => .error "EOF while parsing a value"
    | '"' :: rest => (readString rest []).map fun (s, r) => (str s, r)
    | '[' :: rest =>
      if depth ≥ maxNesting then .error "recursion limit exceeded"
      else
        match skipBlank rest with
        | ']' :: r => .ok (arr [], r)
        | _ => (readItems fuel (depth + 1) rest []).map fun (xs, r) => (arr xs, r)
    | '\x7b' :: rest =>
      if depth ≥ maxNesting then .error "recursion limit exceeded"
      else
        match skipBlank rest with
        | '\x7d' :: r => .ok (obj [], r)
        | _ => (readMembers fuel (depth + 1) rest []).map fun (ms, r) => (obj ms, r)
    | 't' :: _ => readWord "true".toList (bool true) (skipBlank cs)
    | 'f' :: _ => readWord "false".toList (bool false) (skipBlank cs)
    | 'n' :: _ => readWord "null".toList null (skipBlank cs)
    | c :: rest =>
      if c.isDigit || c == '-' then readNumber (c :: rest) else .error "expected value"

/-- Items of an array, after a value is known to follow. -/
def readItems : Nat → Nat → List Char → List Json → Except String (List Json × List Char)
  | 0, _, _, _ => .error "recursion limit exceeded"
  | fuel + 1, depth, cs, acc => do
    let (v, r) ← readValue fuel depth cs
    match skipBlank r with
    | ',' :: r' => readItems fuel depth r' (v :: acc)
    | ']' :: r' => .ok ((v :: acc).reverse, r')
    | [] => .error "EOF while parsing a list"
    | _ => .error "expected , or ]"

/-- Members of an object, after a member is known to follow. -/
def readMembers : Nat → Nat → List Char → List (String × Json) →
    Except String (List (String × Json) × List Char)
  | 0, _, _, _ => .error "recursion limit exceeded"
  | fuel + 1, depth, cs, acc =>
    match skipBlank cs with
    | '"' :: rest => do
      let (k, r) ← readString rest []
      match skipBlank r with
      | ':' :: r' => do
        let (v, r'') ← readValue fuel depth r'
        match skipBlank r'' with
        | ',' :: r3 => readMembers fuel depth r3 ((k, v) :: acc)
        | '\x7d' :: r3 => .ok (((k, v) :: acc).reverse, r3)
        | [] => .error "EOF while parsing an object"
        | _ => .error "expected , or \x7d"
      | [] => .error "EOF while parsing an object"
      | _ => .error "expected :"
    | [] => .error "EOF while parsing an object"
    | _ => .error "key must be a string"

end

def read? (text : String) : Except String Json := do
  let cs := text.toList
  let (v, rest) ← readValue (cs.length + 1) 0 cs
  if (skipBlank rest).isEmpty then pure v else .error "trailing characters"

end Json

end Fabrication
