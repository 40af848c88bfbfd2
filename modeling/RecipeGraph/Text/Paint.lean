/-!
Colours on a terminal: control sequences around the text, and texts without them. A control
sequence is an escape, a bracket, any parameters, any intermediates and one final character, each
from a range of ASCII of its own.
-/
namespace RecipeGraph.Text

inductive Colour
  | red | green | yellow | cyan
  deriving DecidableEq, Repr

def Colour.code : Colour → String
  | red => "31"
  | green => "32"
  | yellow => "33"
  | cyan => "36"

def Colour.paint (colour : Colour) (text : String) : String :=
  "\x1b[" ++ colour.code ++ "m" ++ text ++ "\x1b[0m"

def isParameter (c : Char) : Bool :=
  '0' ≤ c && c ≤ '?'

def isIntermediate (c : Char) : Bool :=
  ' ' ≤ c && c ≤ '/'

def isFinal (c : Char) : Bool :=
  '@' ≤ c && c ≤ '~'

/-- How many characters after an escape belong to its control sequence. -/
def controlLength? : List Char → Option Nat
  | '[' :: rest =>
      let (parameters, rest) := rest.span isParameter
      let (intermediates, rest) := rest.span isIntermediate
      match rest with
      | c :: _ =>
          if isFinal c then some (parameters.length + intermediates.length + 2) else none
      | [] => none
  | _ => none

/-- Leaves out the given number of characters and then every control sequence. -/
def unpaintFrom : Nat → List Char → List Char
  | _, [] => []
  | skipped + 1, _ :: rest => unpaintFrom skipped rest
  | 0, c :: rest =>
      if c = '\x1b' then
        match controlLength? rest with
        | some length => unpaintFrom length rest
        | none => c :: unpaintFrom 0 rest
      else c :: unpaintFrom 0 rest

def unpaint (text : String) : String :=
  String.ofList (unpaintFrom 0 text.toList)

end RecipeGraph.Text
