import Fabrication.Json
import Fabrication.Decimal.Parse
import Fabrication.Text.Quoted
import Fabrication.Error
import Fabrication.Recipe
import Std.Data.HashMap
import Fabrication.Sort

/-!
# Reading requests and writing answers

Requests are JSON objects. A member that is missing or `null` takes its default; a required
member that is missing, a count of the wrong type or out of its range, or a float where a
decimal is expected makes the request unreadable. Counts are checked against their width:
64 bits for quantities and ids, 32 bits for material, recipe and skill ids, 8 bits for
efficiencies and skill levels. Decimals are strings, in plain or exponent notation, or whole
numbers. Flags must be Booleans and activities known names; names of things are lenient,
a value of another type counting as the default.

Identifiers made by the planner are written as labels `new0`, `new1`, … in the order they are
first written in an answer; the table of labels lives as long as one request line, and a
later request may name an identifier by its label.
-/

namespace Fabrication

namespace Api

/-- Fresh identifiers in the order they received labels: label `newI` is the `I`-th of
`order`, and `index` finds the label of a fresh identifier. -/
structure Labels where
  order : Array Nat := #[]
  index : Std.HashMap Nat Nat := {}
  deriving Inhabited

abbrev Decode := Except String

abbrev Encode := StateM Labels

/-- Answering one request: reading it may fail; labels carry over from answer to answer. -/
abbrev Answer := StateT Labels (Except String)

def Answer.ofDecode {α : Type} (d : Decode α) : Answer α := fun l => d.map (·, l)

def Answer.ofEncode {α : Type} (e : Encode α) : Answer α := fun l => .ok (e.run l)

def currentLabels : Answer Labels := fun l => .ok (l, l)

/-- The member of an object, absent when missing or `null`. -/
def member? (j : Json) (key : String) : Option Json :=
  match j.field? key with
  | some Json.null => none
  | other => other

def required (j : Json) (key : String) : Decode Json :=
  match member? j key with
  | some v => pure v
  | none => throw s!"missing field {key}"

/-- A list read item by item. -/
def asList {α : Type} (f : Json → Decode α) : Json → Decode (List α)
  | .arr items => items.mapM f
  | other =>
    let t := other.render
    throw s!"is not a list: {t}"

def naming {α : Type} (key : String) (d : Decode α) : Decode α :=
  match d with
  | .error e => if e.startsWith "is not a list" then throw s!"field {key} {e}" else .error e
  | ok => ok

/-- A whole number below `bound`. -/
def asCount (bound : Nat) (j : Json) : Decode Nat :=
  match j with
  | .int n =>
    if n < 0 then throw s!"not an unsigned integer: {n}"
    else if n.toNat < bound then pure n.toNat
    else
      let width := if bound == 256 then "u8" else if bound == Nat.pow 2 32 then "u32" else "u64"
      throw s!"out of {width} range: {n}"
  | other =>
    let t := other.render
    throw s!"not an unsigned integer: {t}"

def asU64 : Json → Decode Nat := asCount (Nat.pow 2 64)

def asU32 : Json → Decode Nat := asCount (Nat.pow 2 32)

def asU8 : Json → Decode Nat := asCount 256

def getD {α : Type} (j : Json) (key : String) (f : Json → Decode α) (d : α) : Decode α :=
  match member? j key with
  | some v => naming key (f v)
  | none => pure d

def getOpt {α : Type} (j : Json) (key : String) (f : Json → Decode α) : Decode (Option α) :=
  match member? j key with
  | some v => some <$> naming key (f v)
  | none => pure none

def field {α : Type} (j : Json) (key : String) (f : Json → Decode α) : Decode α := do
  naming key (f (← required j key))

/-- A Boolean value. -/
def asBool : Json → Decode Bool
  | .bool b => pure b
  | other =>
    let t := other.render
    throw s!"not a boolean: {t}"

def flagD (j : Json) (key : String) (d : Bool) : Decode Bool := getD j key asBool d

/-- A Boolean member read leniently: only `true` sets it. -/
def switchOn (j : Json) (key : String) : Bool :=
  match member? j key with
  | some (.bool b) => b
  | _ => false

/-- A string value, or `d` for a value of another type. -/
def textOr (j : Json) (d : String) : String :=
  match j with
  | .str s => s
  | _ => d

/-- A string member, or `d` when it is missing or of another type. -/
def textD (j : Json) (key : String) (d : String) : String :=
  match member? j key with
  | some v => textOr v d
  | none => d

/-- A pair written as a two-item array. -/
def asPair {α β : Type} (f : Json → Decode α) (g : Json → Decode β) : Json → Decode (α × β)
  | .arr [a, b] => do pure (← f a, ← g b)
  | other =>
    let t := other.render
    throw s!"not a pair: {t}"

/-- A decimal: a string in plain or exponent notation, or a whole number. -/
def asDecimal : Json → Decode Decimal
  | .str s =>
    match Decimal.parseScientific? s with
    | .ok d => pure d
    | .error e =>
      let q := Text.quoted s
      let why := e.describe
      throw s!"bad decimal {q}: Invalid decimal: {why}"
  | .int n => pure (Decimal.ofInt n)
  | other =>
    let t := other.render
    throw s!"decimal must be a string or an integer: {t}"

/-- An activity named by a string. -/
def asActivity (j : Json) : Decode Activity :=
  match j with
  | .str s =>
    match Activity.ofName? s with
    | some a => pure a
    | none =>
      let t := j.render
      throw s!"bad activity: {t}"
  | other =>
    let t := other.render
    throw s!"bad activity: {t}"

def activityD (j : Json) (key : String) : Decode Activity := getD j key asActivity .build

def labelText (i : Nat) : String := s!"new{i}"

/-- The identifier a label names: exactly `newI` for a label `I` already handed out. -/
def labelled? (labels : Labels) (s : String) : Option Ident :=
  match (s.drop 3).toNat? with
  | some i =>
    if s == labelText i then (labels.order[i]?).map .fresh else none
  | none => none

/-- An identifier: a whole number given by the caller, or the label of one made earlier. -/
def asIdent (labels : Labels) (j : Json) : Decode Ident :=
  match j with
  | .int n => if n < 0 then throw s!"bad id: {n}" else pure (.given n.toNat)
  | .str s =>
    match labelled? labels s with
    | some id => pure id
    | none =>
      let q := Text.quoted s
      throw s!"unknown id label {q}"
  | other =>
    let t := other.render
    throw s!"bad id: {t}"

/-- The label number of a fresh identifier, handing out the next one if it has none yet. -/
def labelOf (k : Nat) : Encode Nat := do
  let l ← get
  match l.index[k]? with
  | some i => pure i
  | none =>
    set ({ order := l.order.push k, index := l.index.insert k l.order.size } : Labels)
    pure l.order.size

/-- An identifier as written in an answer. -/
def identJson : Ident → Encode Json
  | .given n => pure (.nat n)
  | .fresh k => do
    let i ← labelOf k
    pure (.str (labelText i))

/-- The text of an identifier inside a message. -/
def identText : Ident → Encode String
  | .given n => pure (Ident.uuidText n)
  | .fresh k => do
    let i ← labelOf k
    pure s!"new{i}"

/-- A set of identifiers: all labelled first, then given numbers ascending and labels by
number. -/
def identSet (ids : List Ident) : Encode Json := do
  let js ← ids.mapM identJson
  let given := sortBy (· ≤ ·) (js.filterMap fun j => match j with
    | .int n => some n
    | _ => none)
  let labels := sortBy (· ≤ ·) (js.filterMap fun j => match j with
    | .str s => (s.drop 3).toNat?
    | _ => none)
  pure (.arr (given.map .int ++ labels.map fun i => .str s!"new{i}"))

def single (key : String) (v : Json) : Json := .obj [(key, v)]

def decimalJson (d : Decimal) : Json := .str d.render

/-- An error answer for a refused request. -/
def planErrorJson (withRetryable : Bool) (e : PlanError) : Encode Json := do
  let idText ← match e with
    | .planNotFound i => identText i
    | .stepNotFound i => identText i
    | _ => pure ""
  let msg := e.message fun _ => idText
  let base := [("error", Json.str e.kind), ("message", Json.str msg)]
  pure (.obj (if withRetryable then base ++ [("retryable", .bool e.isRetryable)] else base))

def faultJson (f : Fault) : Json := .obj [("error", .str "panic"), ("message", .str f.message)]

def badInputJson (msg : String) : Json := .obj [("error", .str "BadInput"), ("message", .str msg)]

def failureJson (withRetryable : Bool) : Failure → Encode Json
  | .rejected e => planErrorJson withRetryable e
  | .fault f => pure (faultJson f)

/-- The answer for an outcome: its value written by `f`, or the error. -/
def outcomeJson {α : Type} (withRetryable : Bool) (o : Outcome α) (f : α → Encode Json) :
    Encode Json :=
  match o with
  | .ok a => f a
  | .error e => failureJson withRetryable e

/-- The answer for an outcome whose value is answered by `f`, which may read more of the
request: a failed outcome is answered before anything more is read. -/
def outcomeAnswer {α : Type} (withRetryable : Bool) (o : Outcome α) (f : α → Answer Json) :
    Answer Json :=
  match o with
  | .ok a => f a
  | .error e => Answer.ofEncode (failureJson withRetryable e)

def faultOr {α : Type} (o : Except Fault α) (f : α → Json) : Json :=
  match o with
  | .ok a => f a
  | .error e => faultJson e

end Api

end Fabrication
