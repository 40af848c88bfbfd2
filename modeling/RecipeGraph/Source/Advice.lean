import RecipeGraph.Text.Lines
import RecipeGraph.Text.Order
import RecipeGraph.Text.Quoted
import RecipeGraph.Text.Slice

/-!
What is said to someone whose text is no recipe: where it goes wrong, the line in question, and
advice on the usual slips: a bracket left open, two statements on one line, a property without
its value, a quote without its partner. Terminals are known here by their names alone.
-/
namespace RecipeGraph.Source

open Text

/-- The word complained about. A word without characters counts as the end of the text when
advice is chosen, but is still called by its kind. -/
structure Word where
  kind : String
  text : String
  line : Int
  column : Int

inductive Complaint
  | word (word : Word) (expected : List String)
  | character (char : Char) (line column : Int)
  | plain (text : String)

namespace Advice

def placeText (filename : String) (line column : Int) : String :=
  filename ++ ":" ++ toString (max line 1) ++ ":" ++ toString (max column 1)

/-- The shown line of that number, or the last one if there is no such line. -/
def lineNumbered (source : String) (number : Int) : String :=
  let lines := linesOf source
  if 1 ≤ number ∧ number ≤ lines.length then lines[(number - 1).toNat]?.getD ""
  else lines.getLast?.getD ""

/-- The shown lines around a line, at most so many on each side. -/
def linesAround (source : String) (number : Int) (reach : Int) : List String :=
  let lines := linesOf source
  slice lines (max 0 (number - 1 - reach)) (min lines.length (number + reach))

def markerAt (column : Int) : String :=
  String.ofList (List.replicate (column - 1).toNat ' ') ++ "^"

/-- How the terminals are called in a list of what was expected. -/
def friendlyName (name : String) : String :=
  match name with
  | "_NL" => "line break"
  | "SEMICOLON" => "';'"
  | "IDENTIFIER" => "identifier"
  | "PROPERTY_NAME" => "style property"
  | "STYLE_VALUE" => "style value"
  | "STRING_LITERAL" => "quoted string"
  | "_LPAR" => "'('"
  | "_RPAR" => "')'"
  | "_LSQB" => "'['"
  | "_RSQB" => "']'"
  | "_LBRACE" => "'\x7b'"
  | "_RBRACE" => "'\x7d'"
  | "COMMA" => "','"
  | "EQUAL" => "'='"
  | "DOT" => "'.'"
  | "COLON" => "':'"
  | "HASH" => "'#'"
  | "PERCENT" => "'%'"
  | "AT" => "'@'"
  | other => other

def describe (word : Word) : String :=
  if word.kind = "$END" then "end of input"
  else if word.kind = "_NL" then "line break"
  else quoted word.text

def kindForAdvice (word : Word) : String :=
  if word.text = "" then "$END" else word.kind

def missingCloser? (expected : List String) : Option String :=
  if "_RPAR" ∈ expected then some ")"
  else if "_RBRACE" ∈ expected then some "\x7d"
  else if "_RSQB" ∈ expected then some "]"
  else none

def statementCanEnd (expected : List String) : Bool :=
  expected.contains "SEMICOLON" && !expected.contains "_RBRACE"

def lacksStyleValue (expected : List String) : Bool :=
  expected.contains "STYLE_VALUE" && !expected.contains "PROPERTY_NAME"

def separates (kind : String) : Bool :=
  kind = "_NL" || kind = "SEMICOLON" || kind = "$END"

/-- A line break is awaited everywhere, so it is only worth naming where a statement can end. -/
def relevant (expected : List String) : List String :=
  if statementCanEnd expected then expected else expected.filter (· ≠ "_NL")

def unclosed (place closer line : String) : String :=
  "error: " ++ place ++ ": Input ended before a closing '" ++ closer ++ "'.\n" ++
    "    " ++ line ++ "\n" ++
    "\nEvery '(', '\x7b' and '[' needs a matching ')', '\x7d' or ']'.\n" ++
    "Example:\n" ++
    "    g(f(x))\x7b#style\x7d"

def missingSeparator (place : String) (word : Word) (line : String) : String :=
  "error: " ++ place ++ ": Unexpected " ++ describe word ++ ".\n" ++
    "    " ++ line ++ "\n" ++
    "    " ++ markerAt word.column ++ " a new statement starts here\n" ++
    "\nSeparate statements with a line break or ';':\n" ++
    "    x = f(); g(x)"

def missingStyleValue (place line : String) : String :=
  "error: " ++ place ++ ": Style property is missing its value.\n" ++
    "    " ++ line ++ "\n" ++
    "\nWrite the value after ':' (several values are separated by ','):\n" ++
    "    f()\x7bcolor: red; font: \"Fira Sans\", mono\x7d"

def unclosedString (place line : String) (column : Int) (quote : String) : String :=
  "error: " ++ place ++ ": String literal is never closed.\n" ++
    "    " ++ line ++ "\n" ++
    "    " ++ markerAt column ++ " opened here\n" ++
    "\nClose the string with " ++ quote ++ " on the same line:\n" ++
    "    x = @" ++ quote ++ "lib/steps.fiz" ++ quote

/-- Three lines or more are shown with the second one marked. -/
def contextBlock (line : String) (around : List String) : String :=
  if 3 ≤ around.length then
    "\nContext:\n" ++ String.join (around.mapIdx fun index shown =>
      (if index = 1 then ">>>" else "  ") ++ " " ++ shown ++ "\n")
  else "    " ++ line ++ "\n"

/-- At most five of the expected words are named. -/
def expectedLine (expected : List String) : String :=
  match (sortedDistinct expected).map friendlyName with
  | [] => ""
  | names =>
      "\nExpected: " ++ ", ".intercalate (names.take 5) ++
        (if 5 < names.length then s!" (and {names.length - 5} more)" else "")

def unexpectedWord (place : String) (word : Word) (line : String) (around expected : List String) :
    String :=
  "error: " ++ place ++ ": Unexpected " ++ describe word ++ "\n" ++ contextBlock line around ++
    expectedLine expected

def unexpectedCharacter (place : String) (char : Char) (line : String) (column : Int) : String :=
  "error: " ++ place ++ ": Unexpected character " ++ quoted char.toString ++ "\n" ++
    "    " ++ line ++ "\n" ++
    "    " ++ markerAt column ++ " here\n" ++
    "\nCheck for:\n" ++
    "  - identifiers starting with a digit\n" ++
    "  - style values outside a '\x7b...\x7d' block\n"

def forWord (word : Word) (expected : List String) (source filename : String) : String :=
  let place := placeText filename word.line word.column
  let line := lineNumbered source word.line
  let expected := relevant expected
  let kind := kindForAdvice word
  match (if kind = "$END" then missingCloser? expected else none) with
  | some closer => unclosed place closer line
  | none =>
      if lacksStyleValue expected then missingStyleValue place line
      else if statementCanEnd expected && !separates kind then missingSeparator place word line
      else unexpectedWord place word line (linesAround source word.line 1) expected

def forCharacter (char : Char) (lineNumber column : Int) (source filename : String) : String :=
  let place := placeText filename lineNumber column
  let line := lineNumbered source lineNumber
  if char = '"' ∨ char = '\'' then unclosedString place line column char.toString
  else unexpectedCharacter place char line column

end Advice

def Complaint.message (complaint : Complaint) (source filename : String) : String :=
  match complaint with
  | .word found expected => Advice.forWord found expected source filename
  | .character char line column => Advice.forCharacter char line column source filename
  | .plain text => "error: " ++ filename ++ ": " ++ text

end RecipeGraph.Source
