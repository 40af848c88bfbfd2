import RecipeGraph.Text.CharClass

/-!
Lines of a text, in two ways that need not agree. A line number counts the line feeds before a
place; the shown lines are cut at every Unicode line break, where a carriage return and the line
feed after it are one break. No line follows a break that ends the text.
-/
namespace RecipeGraph.Text

def splitLines : List Char → List (List Char)
  | [] => []
  | '\r' :: '\n' :: rest => [] :: splitLines rest
  | c :: rest =>
      if isLineBreak c then [] :: splitLines rest
      else
        match splitLines rest with
        | [] => [[c]]
        | line :: lines => (c :: line) :: lines

def linesOf (text : String) : List String :=
  (splitLines text.toList).map String.ofList

/-- An offset moved into the text. -/
def clampOffset (text : String) (offset : Int) : Nat :=
  min offset.toNat text.length

/-- The line of an offset, counted from one. -/
def lineAt (text : String) (offset : Int) : Nat :=
  ((text.toList.take (clampOffset text offset)).count '\n') + 1

/-- The column of an offset, counted from one after the last line feed before it. -/
def columnAt (text : String) (offset : Int) : Nat :=
  ((text.toList.take (clampOffset text offset)).reverse.takeWhile (· ≠ '\n')).length + 1

/-- A line feed stands for every line end: a carriage return, with the line feed after it if
there is one, is read as one line feed. -/
def joinLineEnds : List Char → List Char
  | [] => []
  | '\r' :: '\n' :: rest => '\n' :: joinLineEnds rest
  | '\r' :: rest => '\n' :: joinLineEnds rest
  | c :: rest => c :: joinLineEnds rest

def readText (text : String) : String :=
  String.ofList (joinLineEnds text.toList)

end RecipeGraph.Text
