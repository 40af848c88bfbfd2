import RecipeGraph.Package.Host
import RecipeGraph.Text.Blank
import RecipeGraph.Text.Quoted

/-!
Web addresses. An address is taken apart at its punctuation, which always succeeds; a part that
cannot be what its place says is a flaw, and of several flaws the first in the order of reading
counts. Nobody is asked for the page of a flawed address. A host beyond ASCII is taken as it is.
-/
namespace RecipeGraph.Package

structure Address where
  /-- The whole address as it is written. -/
  text : String
  scheme : String
  user : String
  host : String
  port : String
  path : String
  query : Option String
  deriving Repr

namespace Address

inductive Flaw
  | tooLong
  | control (c : Char) (place : Nat)
  | notDotted (host : String)
  | notColon (host : String)
  | notPort (port : String)
  /-- Without a scheme and a host, a path may not look as if it started with a host. -/
  | twoSlashes
  /-- Without a scheme and a host, a path may not look as if it followed a scheme. -/
  | leadingColon
  deriving DecidableEq, Repr

def Flaw.message : Flaw → String
  | tooLong => "URL too long"
  | control c place =>
      "Invalid non-printable ASCII character in URL, " ++ Text.quoted (String.singleton c) ++
        " at position " ++ toString place ++ "."
  | notDotted host => "Invalid IPv4 address: " ++ Text.quoted host
  | notColon host => "Invalid IPv6 address: " ++ Text.quoted host
  | notPort port => "Invalid port: " ++ Text.quoted port
  | twoSlashes => "Relative URLs cannot have a path starting with '//'"
  | leadingColon => "Relative URLs cannot have a path starting with ':'"

def isSchemeChar (c : Char) : Bool :=
  c.isAlphanum || c = '+' || c = '-' || c = '.'

/-- The scheme before a colon, and what follows the two. A scheme starts with a letter; before a
colon at the very start it is empty. -/
def splitScheme (text : List Char) : List Char × List Char :=
  match text.span isSchemeChar with
  | (scheme, ':' :: rest) =>
      if scheme.head?.all Char.isAlpha then (scheme, rest) else ([], text)
  | _ => ([], text)

/-- What stands after two slashes up to the path. -/
def splitAuthority : List Char → List Char × List Char
  | '/' :: '/' :: rest => rest.span fun c => c ≠ '/' && c ≠ '?' && c ≠ '#'
  | text => ([], text)

/-- What stands before and after the last mark. Without a mark all stands after it. -/
def splitAtLast (mark : Char) (text : List Char) : List Char × List Char :=
  match text.reverse.span (· ≠ mark) with
  | (after, _ :: before) => (before.reverse, after.reverse)
  | _ => ([], text)

/-- A host in brackets goes up to the last closing one, any other up to the first colon. -/
def splitHost (text : List Char) : List Char × List Char :=
  if text.head? = some '[' && text.contains ']' then
    let (opened, rest) := splitAtLast ']' text
    (opened ++ [']'], rest)
  else text.span (· ≠ ':')

def dropColon : List Char → List Char
  | ':' :: rest => rest
  | text => text

def queryOf : List Char → Option String
  | '?' :: rest => some (String.ofList (rest.takeWhile (· ≠ '#')))
  | _ => none

/-- Takes an address apart. -/
def split (text : String) : Address :=
  let (scheme, rest) := splitScheme text.toList
  let (authority, rest) := splitAuthority rest
  let (user, place) := splitAtLast '@' authority
  let (host, port) := splitHost place
  let (path, rest) := rest.span fun c => c ≠ '?' && c ≠ '#'
  { text := text
    scheme := String.ofList scheme
    user := String.ofList user
    host := String.ofList host
    port := String.ofList (dropColon port)
    path := String.ofList path
    query := queryOf rest }

/-- The characters that an address stays within. -/
def lengthLimit : Nat := 65536

/-- The digits that a port stays within. -/
def portDigitLimit : Nat := 4300

def isControl (c : Char) : Bool :=
  c.toNat < 0x20 || c.toNat = 0x7f

def dropSign : List Char → List Char
  | '+' :: rest => rest
  | '-' :: rest => rest
  | text => text

/-- A whole number in decimal digits of any script, with blanks around it, a sign, and single
underscores between digits. -/
def isPort (port : String) : Bool :=
  let digits := String.ofList (dropSign (Text.stripBlanks port).toList)
  let groups := digits.splitOn "_"
  groups.all (fun group => group ≠ "" && group.toList.all Text.isDecimalDigit) &&
    totalOf String.length groups ≤ portDigitLimit

def lengthFlaw? (address : Address) : Option Flaw :=
  if lengthLimit < address.text.length then some .tooLong else none

def controlFlaw? (address : Address) : Option Flaw :=
  let chars := address.text.toList
  (chars.find? isControl).map fun c => .control c (chars.idxOf c)

def hostFlaw? (address : Address) : Option Flaw :=
  let host := address.host
  if Host.looksDotted host then
    if Host.isDotted host then none else some (.notDotted host)
  else if host.startsWith "[" && host.endsWith "]" then
    if Host.isColon (String.ofList (host.toList.drop 1).dropLast) then none
    else some (.notColon host)
  else none

def portFlaw? (address : Address) : Option Flaw :=
  if address.port = "" || isPort address.port then none else some (.notPort address.port)

/-- Does the address say where its path starts, by a scheme or by a host? -/
def isRooted (address : Address) : Bool :=
  address.scheme ≠ "" || address.user ≠ "" || address.host ≠ "" || address.port ≠ ""

def pathFlaw? (address : Address) : Option Flaw :=
  if address.isRooted then none
  else if address.path.startsWith "//" then some .twoSlashes
  else if address.path.startsWith ":" then some .leadingColon
  else none

/-- The flaws of an address in the order of reading. -/
def flaws (address : Address) : List Flaw :=
  [address.lengthFlaw?, address.controlFlaw?, address.hostFlaw?, address.portFlaw?,
    address.pathFlaw?].filterMap id

def ofText (text : String) : Except Flaw Address :=
  match (split text).flaws with
  | [] => .ok (split text)
  | flaw :: _ => .error flaw

/-- Does the address lead to a host in a way that is known? -/
def isComplete (address : Address) : Bool :=
  address.scheme ≠ "" && address.host ≠ ""

/-- Two dots undo the name before them, if there is one below the top. -/
def enter (names : List String) (name : String) : List String :=
  if name = "." then names
  else if name = ".." then (if names = [""] then names else names.dropLast)
  else names ++ [name]

def walked (path : String) : String :=
  "/".intercalate ((path.splitOn "/").foldl enter [])

/-- A character, or its bytes after percent signs if it is marked or no visible ASCII. -/
def escapeChar (marked : List Char) (c : Char) : List Char :=
  if 0x20 < c.toNat ∧ c.toNat < 0x7f ∧ c ∉ marked then [c]
  else (String.utf8EncodeChar c).flatMap fun byte =>
    '%' :: (Text.hexDigits 2 byte.toNat).map Char.toUpper

def escape (marked : List Char) (text : String) : List Char :=
  text.toList.flatMap (escapeChar marked)

def queryMarks : List Char := ['"', '#', '<', '>']

def pathMarks : List Char := queryMarks ++ ['?', '\x60', '\x7b', '\x7d']

/-- What a host is asked for: the path from its top and the query. -/
def target (address : Address) : String :=
  let path := if address.isRooted then walked address.path else address.path
  let query := address.query.elim [] fun query => '?' :: escape queryMarks query
  String.ofList ('/' :: (escape pathMarks path).dropWhile (· = '/') ++ query)

end Address

end RecipeGraph.Package
