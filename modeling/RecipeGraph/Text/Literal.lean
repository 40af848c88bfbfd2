import RecipeGraph.Text.Quoted

/-!
Values written out in full. A record stands as its name with its fields in brackets, every text
in quotes; a text that stands alone goes without them.
-/
namespace RecipeGraph.Text

inductive Literal
  | absent
  | number (value : Int)
  | text (text : String)
  /-- A word of a source: a text that is written out with its kind. -/
  | word (kind text : String)
  | tuple (items : List Literal)
  | list (items : List Literal)
  | table (entries : List (String × String))
  | record (name : String) (fields : List (String × Literal))
  deriving Inhabited

namespace Literal

def listed (items : List String) : String :=
  ", ".intercalate items

/-- A tuple of one item keeps a comma, which tells it from the item in brackets. -/
def tupled : List String → String
  | [item] => "(" ++ item ++ ",)"
  | items => "(" ++ listed items ++ ")"

def entryText (entry : String × String) : String :=
  quoted entry.1 ++ ": " ++ quoted entry.2

mutual

def inspect : Literal → String
  | absent => "None"
  | number value => toString value
  | text value => quoted value
  | word kind value => "Token(" ++ quoted kind ++ ", " ++ quoted value ++ ")"
  | tuple items => tupled (inspectAll items)
  | list items => "[" ++ listed (inspectAll items) ++ "]"
  | table entries => "\x7b" ++ listed (entries.map entryText) ++ "\x7d"
  | record name fields => name ++ "(" ++ listed (inspectFields fields) ++ ")"

def inspectAll : List Literal → List String
  | [] => []
  | item :: rest => inspect item :: inspectAll rest

def inspectFields : List (String × Literal) → List String
  | [] => []
  | (name, value) :: rest => (name ++ "=" ++ inspect value) :: inspectFields rest

end

/-- How a value reads where a text is expected. -/
def shown : Literal → String
  | text value | word _ value => value
  | other => other.inspect

/-- The items that a value falls into: a text into its characters, a record into the items of
its lists. -/
def items : Literal → List Literal
  | text value | word _ value => value.toList.map fun c => text c.toString
  | tuple items | list items => items
  | record _ fields => fields.flatMap fun field =>
      match field.2 with
      | list items => items
      | _ => []
  | absent | number _ | table _ => []

def orAbsent : Option Literal → Literal
  | some value => value
  | none => absent

def ofTexts (texts : List String) : Literal :=
  tuple (texts.map text)

end Literal

end RecipeGraph.Text
