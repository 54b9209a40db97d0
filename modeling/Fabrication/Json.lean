import Fabrication.Double

/-!
# JSON documents

The planner talks JSON: requests come in and answers go out as one document per line. A
number is a whole number of 64 bits (`int`) or a double (`float`), as `Json.Number` reads
them. Objects keep their members in the order they were written.

`Json.render` writes a document on one line: strings are quoted with `"` and `\` escaped,
control characters written as `\n`, `\t`, `\r`, `\b`, `\f` or `\u00XX`, and doubles
spelt by `Double.jsonText`.
-/

namespace Fabrication

/-- A JSON document. -/
inductive Json where
  | null
  | bool (b : Bool)
  | int (n : Int)
  | float (x : Double)
  | str (s : String)
  | arr (items : List Json)
  | obj (members : List (String × Json))
  deriving Repr, Inhabited

namespace Json

def hex4 (n : Nat) : String :=
  let ds := Nat.toDigits 16 n
  String.ofList (List.replicate (4 - ds.length) '0' ++ ds)

/-- A character as it appears inside a quoted string. -/
def escapeChar (c : Char) : String :=
  if c == '"' then "\\\""
  else if c == '\\' then "\\\\"
  else if c == '\n' then "\\n"
  else if c == '\t' then "\\t"
  else if c == '\r' then "\\r"
  else if c.toNat == 8 then "\\b"
  else if c.toNat == 12 then "\\f"
  else if c.toNat < 32 then "\\u" ++ hex4 c.toNat
  else c.toString

def quote (s : String) : String := "\"" ++ String.join (s.toList.map escapeChar) ++ "\""

def quoteInto (out s : String) : String :=
  (s.foldl (fun acc c => acc ++ escapeChar c) (out.push '"')).push '"'

mutual

/-- Append the text of a document, on one line, to a text. -/
def renderInto (out : String) : Json → String
  | null => out ++ "null"
  | bool b => out ++ (if b then "true" else "false")
  | int n => out ++ toString n
  | float x => out ++ x.jsonText
  | str s => quoteInto out s
  | arr items => (renderItemsInto (out.push '[') items).push ']'
  | obj members => (renderMembersInto (out.push '\x7b') members).push '\x7d'

def renderItemsInto (out : String) : List Json → String
  | [] => out
  | [x] => renderInto out x
  | x :: xs => renderItemsInto ((renderInto out x).push ',') xs

def renderMembersInto (out : String) : List (String × Json) → String
  | [] => out
  | [(k, v)] => renderInto ((quoteInto out k).push ':') v
  | (k, v) :: rest => renderMembersInto ((renderInto ((quoteInto out k).push ':') v).push ',') rest

end

def render (j : Json) : String := renderInto "" j

/-- Insert a member into members sorted by key, replacing one with the same key. -/
def insertMember (m : String × Json) : List (String × Json) → List (String × Json)
  | [] => [m]
  | x :: xs =>
    if x.1 == m.1 then m :: xs
    else if m.1 < x.1 then m :: x :: xs
    else x :: insertMember m xs

mutual

/-- The document with object members sorted by key, a repeated key keeping its last value. -/
def sortKeys : Json → Json
  | arr items => arr (sortItems items)
  | obj members => obj ((sortMembers members).foldl (fun acc m => insertMember m acc) [])
  | j => j

def sortItems : List Json → List Json
  | [] => []
  | x :: xs => sortKeys x :: sortItems xs

def sortMembers : List (String × Json) → List (String × Json)
  | [] => []
  | (k, v) :: rest => (k, sortKeys v) :: sortMembers rest

end

mutual

def size : Json → Nat
  | arr items => 1 + sizeItems items
  | obj members => 1 + sizeMembers members
  | _ => 1

def sizeItems : List Json → Nat
  | [] => 0
  | x :: xs => size x + sizeItems xs

def sizeMembers : List (String × Json) → Nat
  | [] => 0
  | (_, v) :: rest => size v + sizeMembers rest

end

/-- The value of a member; the last one wins when a key is repeated. -/
def field? (j : Json) (key : String) : Option Json :=
  match j with
  | obj members => (members.reverse.find? (·.1 == key)).map (·.2)
  | _ => none

def nat (n : Nat) : Json := int n

def nats (ns : List Nat) : Json := arr (ns.map nat)

def opt {α : Type} (f : α → Json) : Option α → Json
  | some a => f a
  | none => null

end Json

end Fabrication
