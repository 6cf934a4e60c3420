import TypedBlocks.Decimal.Format

/-!
# JSON

Trees of data and their JSON text, laid out with one item a line and two spaces for each level.
Records keep the order of their fields.
-/
namespace TypedBlocks

inductive Json where
  | null
  | bool (b : Bool)
  /-- A number that counts or identifies something. -/
  | count (n : Nat)
  /-- An integer of a program. -/
  | integer (n : Int64)
  | real (x : Float)
  | str (s : String)
  | list (items : List Json)
  | record (fields : List (String × Json))

namespace Json

/-- A value or, in its absence, `null`. -/
def option {α : Type} (f : α → Json) : Option α → Json
  | none => null
  | some a => f a

def listOf {α : Type} (f : α → Json) (xs : List α) : Json := list (xs.map f)

/-- One alternative of several, with the name of the alternative as the only key. -/
def tagged (tag : String) (payload : Json) : Json := record [(tag, payload)]

/-- Quotes, backslashes and control characters are escaped; everything else stands for itself. -/
def escape (c : Char) : String :=
  match c with
  | '"' => "\\\""
  | '\\' => "\\\\"
  | '\n' => "\\n"
  | '\r' => "\\r"
  | '\t' => "\\t"
  | '\x08' => "\\b"
  | '\x0c' => "\\f"
  | c =>
    if c.toNat < 0x20 then
      "\\u00" ++ String.ofList [Nat.digitChar (c.toNat / 16), Nat.digitChar (c.toNat % 16)]
    else String.singleton c

def quoted (s : String) : String := "\"" ++ String.join (s.toList.map escape) ++ "\""

/-- A line break and the indentation of the next line. -/
def newLine (level : Nat) : String := "\n" ++ String.ofList (List.replicate (2 * level) ' ')

mutual

/-- The text of a tree that stands at a level of nesting. -/
def render (level : Nat) : Json → String
  | null => "null"
  | bool true => "true"
  | bool false => "false"
  | count n => toString n
  | integer n => toString n.toInt
  | real x => Decimal.Format.json.text x
  | str s => quoted s
  | list [] => "[]"
  | list (item :: items) =>
    "[" ++ newLine (level + 1) ++ item.render (level + 1) ++ renderItems (level + 1) items ++
      newLine level ++ "]"
  | record [] => "\x7b\x7d"
  | record (field :: fields) =>
    "\x7b" ++ newLine (level + 1) ++ renderField (level + 1) field ++
      renderFields (level + 1) fields ++ newLine level ++ "\x7d"

def renderItems (level : Nat) : List Json → String
  | [] => ""
  | item :: items => "," ++ newLine level ++ item.render level ++ renderItems level items

def renderField (level : Nat) : String × Json → String
  | (key, value) => quoted key ++ ": " ++ value.render level

def renderFields (level : Nat) : List (String × Json) → String
  | [] => ""
  | field :: fields =>
    "," ++ newLine level ++ renderField level field ++ renderFields level fields

end

/-- The text of a whole tree. -/
def pretty (j : Json) : String := j.render 0

end Json

end TypedBlocks
