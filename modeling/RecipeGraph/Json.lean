import RecipeGraph.Text.Quoted
import RecipeGraph.OrderedMap

/-!
JSON documents whose objects keep the order of their fields, and their written form: fields and
items on lines of their own, two spaces deeper than what holds them.
-/
namespace RecipeGraph

inductive Json
  | null
  | bool (value : Bool)
  | int (value : Int)
  | text (value : String)
  | array (items : List Json)
  | object (fields : List (String × Json))
  deriving Inhabited

namespace Json

def texts (values : List String) : Json :=
  array (values.map text)

def ofTexts (m : OrderedMap String) : Json :=
  object (m.entries.map fun entry => (entry.1, text entry.2))

def ofNat (n : Nat) : Json :=
  int (Int.ofNat n)

def textOrNull : Option String → Json
  | none => null
  | some value => text value

def lineStart (depth : Nat) : String :=
  "\n" ++ String.ofList (List.replicate (2 * depth) ' ')

mutual

def renderAt (depth : Nat) : Json → String
  | null => "null"
  | bool value => if value then "true" else "false"
  | int value => toString value
  | text value => Text.quotedPlain value
  | array [] => "[]"
  | array (item :: items) =>
      "[" ++ lineStart (depth + 1) ++ renderAt (depth + 1) item ++
        renderItems (depth + 1) items ++ lineStart depth ++ "]"
  | object [] => "\x7b\x7d"
  | object ((name, value) :: fields) =>
      "\x7b" ++ lineStart (depth + 1) ++ Text.quotedPlain name ++ ": " ++
        renderAt (depth + 1) value ++ renderFields (depth + 1) fields ++ lineStart depth ++ "\x7d"

def renderItems (depth : Nat) : List Json → String
  | [] => ""
  | item :: items => "," ++ lineStart depth ++ renderAt depth item ++ renderItems depth items

def renderFields (depth : Nat) : List (String × Json) → String
  | [] => ""
  | (name, value) :: fields =>
      "," ++ lineStart depth ++ Text.quotedPlain name ++ ": " ++ renderAt depth value ++
        renderFields depth fields

end

def render (document : Json) : String :=
  renderAt 0 document

end Json

/-- A map of texts on one line, in ASCII. -/
def OrderedMap.renderAscii (m : OrderedMap String) : String :=
  "\x7b" ++ ", ".intercalate (m.entries.map fun entry =>
    Text.quotedAscii entry.1 ++ ": " ++ Text.quotedAscii entry.2) ++ "\x7d"

end RecipeGraph
