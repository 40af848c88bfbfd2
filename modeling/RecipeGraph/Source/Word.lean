import RecipeGraph.Text.CharClass
import RecipeGraph.Grammar.Terminal

/-!
How each terminal is spelled. A spelling splits the characters ahead into a word, never empty,
and the rest; of the terminals allowed at a place the first one that matches wins, not the one
with the longest word.
-/
namespace RecipeGraph.Source

open Grammar Text

abbrev Split := Option (List Char × List Char)

/-- The longest stretch of characters of a class, after a first character of another. -/
def splitRun (first later : Char → Bool) : List Char → Split
  | [] => none
  | c :: rest => if first c then some (c :: rest.takeWhile later, rest.dropWhile later) else none

def splitMark (mark : Char) : List Char → Split
  | [] => none
  | c :: rest => if c = mark then some ([c], rest) else none

/-- What follows the opening quote up to the closing one, on one line. A backslash takes the
next character with it. -/
def splitQuoted (quote : Char) : List Char → Split
  | [] => none
  | c :: rest =>
      if c = quote then some ([c], rest)
      else if c = '\n' then none
      else if c = '\\' then
        match rest with
        | [] => none
        | d :: rest =>
            if d = '\n' then none
            else (splitQuoted quote rest).map fun split => (c :: d :: split.1, split.2)
      else (splitQuoted quote rest).map fun split => (c :: split.1, split.2)

def splitString : List Char → Split
  | '"' :: rest => (splitQuoted '"' rest).map fun split => ('"' :: split.1, split.2)
  | '\'' :: rest => (splitQuoted '\'' rest).map fun split => ('\'' :: split.1, split.2)
  | _ => none

/-- Line feeds, each with the carriage return before it, and the blanks that follow them. -/
def splitBreaks : List Char → List Char × List Char
  | '\r' :: '\n' :: rest =>
      let split := splitBreaks rest
      ('\r' :: '\n' :: split.1, split.2)
  | c :: rest =>
      if c = '\n' ∨ c = '\t' ∨ c = ' ' then
        let split := splitBreaks rest
        (c :: split.1, split.2)
      else ([], c :: rest)
  | [] => ([], [])

def splitNewline : List Char → Split
  | '\n' :: rest => some (splitBreaks ('\n' :: rest))
  | '\r' :: '\n' :: rest => some (splitBreaks ('\r' :: '\n' :: rest))
  | _ => none

def splitLineComment : List Char → Split
  | '/' :: '/' :: rest =>
      some ('/' :: '/' :: rest.takeWhile (· ≠ '\n'), rest.dropWhile (· ≠ '\n'))
  | _ => none

/-- A comment ends at the first end mark after its start. -/
def splitCommentTail : List Char → Split
  | '*' :: '/' :: rest => some (['*', '/'], rest)
  | c :: rest => (splitCommentTail rest).map fun split => (c :: split.1, split.2)
  | [] => none

def splitBlockComment : List Char → Split
  | '/' :: '*' :: rest => (splitCommentTail rest).map fun split => ('/' :: '*' :: split.1, split.2)
  | _ => none

def isBlankChar (c : Char) : Bool :=
  c = '\t' || c = ' ' || c = '\x0c' || c = '\r'

def isPropertyChar (c : Char) : Bool :=
  isWordChar c || c = '-'

def isValueChar (c : Char) : Bool :=
  !isSpace c && c ≠ ',' && c ≠ ';' && c ≠ '\x7b' && c ≠ '\x7d'

def isValueStart (c : Char) : Bool :=
  isValueChar c && c ≠ '"' && c ≠ '\''

def split? : Terminal → List Char → Split
  | .stringLiteral, chars => splitString chars
  | .styleValue, chars => splitRun isValueStart isValueChar chars
  | .blockComment, chars => splitBlockComment chars
  | .propertyName, chars => splitRun isWordStart isPropertyChar chars
  | .newline, chars => splitNewline chars
  | .identifier, chars => splitRun isWordStart isWordChar chars
  | .lineComment, chars => splitLineComment chars
  | .blank, chars => splitRun isBlankChar isBlankChar chars
  | terminal, chars => terminal.mark?.bind fun mark => splitMark mark chars

/-- A word that was recognised ahead, and what is left after it. -/
structure Match where
  kind : Terminal
  word : List Char
  rest : List Char

def firstMatch? (allowed : Terminal → Bool) (chars : List Char) : Option Match :=
  Terminal.lexical.findSome? fun kind =>
    if allowed kind then (split? kind chars).map fun split => ⟨kind, split.1, split.2⟩ else none

end RecipeGraph.Source
