/-!
The terminals of the recipe language: what the words of a text are sorted into before they are
put together. The end of the text is a terminal of its own.
-/
namespace RecipeGraph.Grammar

inductive Terminal
  | stringLiteral | styleValue | blockComment | propertyName | newline | identifier | lineComment
  | blank | atSign | colon | comma | dot | equal | hash | percent | semicolon
  | leftBrace | leftParen | leftBracket | rightBrace | rightParen | rightBracket | endOfText
  deriving DecidableEq, Repr

namespace Terminal

/-- The terminals that words are tried against, in this order. -/
def lexical : List Terminal :=
  [stringLiteral, styleValue, blockComment, propertyName, newline, identifier, lineComment, blank,
   atSign, colon, comma, dot, equal, hash, percent, semicolon, leftBrace, leftParen, leftBracket,
   rightBrace, rightParen, rightBracket]

def all : List Terminal := lexical ++ [endOfText]

def name : Terminal → String
  | stringLiteral => "STRING_LITERAL"
  | styleValue => "STYLE_VALUE"
  | blockComment => "BLOCK_COMMENT"
  | propertyName => "PROPERTY_NAME"
  | newline => "_NL"
  | identifier => "IDENTIFIER"
  | lineComment => "LINE_COMMENT"
  | blank => "__IGNORE_0"
  | atSign => "AT"
  | colon => "COLON"
  | comma => "COMMA"
  | dot => "DOT"
  | equal => "EQUAL"
  | hash => "HASH"
  | percent => "PERCENT"
  | semicolon => "SEMICOLON"
  | leftBrace => "_LBRACE"
  | leftParen => "_LPAR"
  | leftBracket => "_LSQB"
  | rightBrace => "_RBRACE"
  | rightParen => "_RPAR"
  | rightBracket => "_RSQB"
  | endOfText => "$END"

/-- The fixed text of a mark; the other terminals have none. -/
def mark? : Terminal → Option Char
  | atSign => some '@'
  | colon => some ':'
  | comma => some ','
  | dot => some '.'
  | equal => some '='
  | hash => some '#'
  | percent => some '%'
  | semicolon => some ';'
  | leftBrace => some '\x7b'
  | leftParen => some '('
  | leftBracket => some '['
  | rightBrace => some '\x7d'
  | rightParen => some ')'
  | rightBracket => some ']'
  | _ => none

/-- Words that may stand anywhere and mean nothing. -/
def isSkipped : Terminal → Bool
  | blank | lineComment | blockComment => true
  | _ => false

/-- Words whose text the syntax tree keeps. -/
def isKept : Terminal → Bool
  | identifier | propertyName | styleValue | stringLiteral => true
  | _ => false

end Terminal

end RecipeGraph.Grammar
