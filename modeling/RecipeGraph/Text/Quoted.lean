import RecipeGraph.Text.CharClass

/-!
Two ways to show a text on one line. In a message it stands between single quotes, or double
ones if it holds a single quote and no double one, with its unprintable characters escaped. In a
listing it stands between double quotes, and all but printable ASCII is escaped in units of
sixteen bits.
-/
namespace RecipeGraph.Text

def hexDigits (width value : Nat) : List Char :=
  let digits := Nat.toDigits 16 value
  List.replicate (width - digits.length) '0' ++ digits

/-- The shortest of the three hexadecimal escapes that holds the code point. -/
def hexEscape (code : Nat) : List Char :=
  if code < 0x100 then '\\' :: 'x' :: hexDigits 2 code
  else if code < 0x10000 then '\\' :: 'u' :: hexDigits 4 code
  else '\\' :: 'U' :: hexDigits 8 code

def quotedChar (quote c : Char) : List Char :=
  if c = quote || c = '\\' then ['\\', c]
  else if c = '\n' then ['\\', 'n']
  else if c = '\r' then ['\\', 'r']
  else if c = '\t' then ['\\', 't']
  else if isPrintable c then [c]
  else hexEscape c.toNat

def quoteFor (text : List Char) : Char :=
  if '\'' ∈ text ∧ '"' ∉ text then '"' else '\''

def quoted (text : String) : String :=
  let chars := text.toList
  let quote := quoteFor chars
  String.ofList (quote :: chars.flatMap (quotedChar quote) ++ [quote])

/-- The escape of a character by units of sixteen bits: two for a code point above 0xffff. -/
def unitEscape (code : Nat) : List Char :=
  if code < 0x10000 then '\\' :: 'u' :: hexDigits 4 code
  else
    let offset := code - 0x10000
    ('\\' :: 'u' :: hexDigits 4 (0xd800 + offset / 0x400)) ++
      ('\\' :: 'u' :: hexDigits 4 (0xdc00 + offset % 0x400))

/-- The escapes that a JSON text writes in short form. -/
def shortEscape? (c : Char) : Option (List Char) :=
  if c = '"' then some ['\\', '"']
  else if c = '\\' then some ['\\', '\\']
  else if c = '\n' then some ['\\', 'n']
  else if c = '\r' then some ['\\', 'r']
  else if c = '\t' then some ['\\', 't']
  else if c = '\x08' then some ['\\', 'b']
  else if c = '\x0c' then some ['\\', 'f']
  else none

def asciiChar (c : Char) : List Char :=
  match shortEscape? c with
  | some escape => escape
  | none => if 0x20 ≤ c.toNat ∧ c.toNat ≤ 0x7e then [c] else unitEscape c.toNat

def quotedAscii (text : String) : String :=
  String.ofList ('"' :: text.toList.flatMap asciiChar ++ ['"'])

/-- Only what a JSON text may not hold is escaped: the quote, the backslash and the controls. -/
def plainChar (c : Char) : List Char :=
  match shortEscape? c with
  | some escape => escape
  | none => if 0x20 ≤ c.toNat then [c] else unitEscape c.toNat

def quotedPlain (text : String) : String :=
  String.ofList ('"' :: text.toList.flatMap plainChar ++ ['"'])

end RecipeGraph.Text
