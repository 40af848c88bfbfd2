import RecipeGraph.Grammar.Automaton
import RecipeGraph.Source.Word
import RecipeGraph.Source.Brackets

/-!
Reading a text word by word into the automaton. Only words that the automaton can take at that
moment are looked for, besides line breaks and what may stand anywhere. Where none of them
matches, any word at all is tried, to name what stands there instead.
-/
namespace RecipeGraph.Source

open Grammar

structure Cursor where
  rest : List Char
  offset : Nat := 0
  line : Nat := 1
  column : Nat := 1

/-- The line and column after a character. -/
def stepPlace (place : Nat × Nat) (c : Char) : Nat × Nat :=
  if c = '\n' then (place.1 + 1, 1) else (place.1, place.2 + 1)

namespace Cursor

def advance (cursor : Cursor) (found : Match) : Cursor :=
  let place := found.word.foldl stepPlace (cursor.line, cursor.column)
  ⟨found.rest, cursor.offset + found.word.length, place.1, place.2⟩

def token (cursor : Cursor) (kind : Terminal) (word : List Char) : Token :=
  ⟨kind, String.ofList word, cursor.offset, cursor.offset + word.length, cursor.line,
   cursor.column⟩

end Cursor

/-- Why a text is no recipe: a word that nothing can go on with, with what could have come, or a
character that no word begins with. -/
inductive Rejection
  | word (token : Token) (expected : List Terminal)
  | character (char : Char) (offset line column : Nat)

structure Reader where
  cursor : Cursor
  brackets : Brackets := []
  stack : Stack := []
  last : Option Token := none

namespace Reader

inductive Progress
  | next (reader : Reader)
  | done (tree : Derivation)
  | failed (rejection : Rejection)

def start (text : String) : Reader :=
  { cursor := { rest := text.toList } }

/-- The words that may come next in a state of the automaton, apart from skipped ones. -/
def awaits (state : Nat) (kind : Terminal) : Bool :=
  kind = .newline || (action? state kind).isSome

def allows (state : Nat) (kind : Terminal) : Bool :=
  kind.isSkipped || awaits state kind

def feed (reader : Reader) (token : Token) : Progress :=
  match reader.stack.feed token with
  | .shifted stack => .next { reader with stack := stack, last := some token }
  | .accepted tree => .done tree
  | .refused state => .failed (.word token (expectedIn state))

/-- The end of the text is a word without characters where the last word stands. -/
def endToken (reader : Reader) : Token :=
  match reader.last with
  | some token => { token with kind := .endOfText, text := "" }
  | none => ⟨.endOfText, "", 0, 0, 1, 1⟩

/-- A value that is one mark and nothing else is named for the mark. -/
def nameFor (kind : Terminal) (word : List Char) : Terminal :=
  match kind, word with
  | .styleValue, [c] => (Terminal.lexical.find? fun mark => mark.mark? = some c).getD kind
  | _, _ => kind

/-- What stands where no awaited word matches. -/
def stray (reader : Reader) (c : Char) : Rejection :=
  let cursor := reader.cursor
  match firstMatch? (fun _ => true) cursor.rest with
  | some found =>
      .word (cursor.token (nameFor found.kind found.word) found.word)
        (Terminal.lexical.filter (awaits reader.stack.state))
  | none => .character c cursor.offset cursor.line cursor.column

def step (reader : Reader) : Progress :=
  match reader.cursor.rest with
  | [] => reader.feed reader.endToken
  | c :: _ =>
      match firstMatch? (allows reader.stack.state) reader.cursor.rest with
      | none => .failed (reader.stray c)
      | some found =>
          let moved := { reader with cursor := reader.cursor.advance found }
          if found.kind.isSkipped || reader.brackets.drops found.kind then .next moved
          else
            { moved with brackets := reader.brackets.pass found.kind }.feed
              (reader.cursor.token found.kind found.word)

/-- Every step but the last takes at least one character, so a text is read in one step more
than it has characters. -/
def run : Nat → Reader → Except Rejection Derivation
  | 0, reader => .error (.word reader.endToken (expectedIn reader.stack.state))
  | steps + 1, reader =>
      match reader.step with
      | .next reader => run steps reader
      | .done tree => .ok tree
      | .failed rejection => .error rejection

end Reader

/-- The derivation of a text, or the first place where it stops being one of a recipe. -/
def derive (text : String) : Except Rejection Derivation :=
  Reader.run (text.length + 1) (Reader.start text)

end RecipeGraph.Source
