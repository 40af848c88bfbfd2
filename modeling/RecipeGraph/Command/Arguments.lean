/-!
The command line: what may be asked for, and how it is read from the words of the line. Options
of the line itself come before the name of an order. Options and files of an order may be mixed;
after two dashes every word is a file.
-/
namespace RecipeGraph

structure Options where
  /-- Where the graph is written as a document. -/
  document : Option String := none
  showStatements : Bool := false
  showGraph : Bool := false
  /-- Do warnings count as errors? -/
  strict : Bool := false
  report : Bool := false
  verbose : Bool := false
  deriving Repr

inductive Command
  | help
  | version
  /-- Compiles the file named; there should be one. -/
  | compile (files : List String) (options : Options)
  | check (files : List String)
  deriving Repr

inductive Misuse
  | unknownCommand (name : String)
  | unknownOption (name : String)
  | valueMissing (name : String)
  | valueUnwanted (name : String)
  | fileMissing
  | extraWords (words : List String)
  | noSuchFile (file : String)
  | fileIsFolder (file : String)
  deriving Repr

def Misuse.message : Misuse → String
  | unknownCommand name => "No such command '" ++ name ++ "'."
  | unknownOption name => "No such option: " ++ name
  | valueMissing name => "Option '" ++ name ++ "' requires an argument."
  | valueUnwanted name => "Option '" ++ name ++ "' does not take a value."
  | fileMissing => "Missing argument 'FILE'."
  | extraWords words =>
      "Got unexpected extra argument" ++ (if words.length = 1 then "" else "s") ++ " (" ++
        " ".intercalate words ++ ")"
  | noSuchFile file => "Invalid value for 'FILE': File '" ++ file ++ "' does not exist."
  | fileIsFolder file => "Invalid value for 'FILE': File '" ++ file ++ "' is a directory."

/-- What was asked for so far while words are read. -/
structure Request where
  help : Bool := false
  version : Bool := false
  options : Options := {}

/-- What an option does to a request. -/
inductive Setting
  | flag (set : Request → Request)
  /-- The option needs a value. -/
  | value (set : String → Request → Request)

/-- The options that a line may ask for at some point, by name. -/
abbrev Settings := String → Option Setting

namespace Settings

/-- The option that every line and every order has. -/
def basic : Settings
  | "--help" => some (.flag fun asked => { asked with help := true })
  | _ => none

/-- The options before an order. -/
def ofLine : Settings
  | "--version" => some (.flag fun asked => { asked with version := true })
  | name => basic name

/-- The options of an order to compile. -/
def ofCompile : Settings
  | "--json" => some (.value fun path asked => { asked with options.document := some path })
  | "--dump-ast" => some (.flag fun asked => { asked with options.showStatements := true })
  | "--dump-dag" => some (.flag fun asked => { asked with options.showGraph := true })
  | "--strict" => some (.flag fun asked => { asked with options.strict := true })
  | "--report" => some (.flag fun asked => { asked with options.report := true })
  | "--verbose" => some (.flag fun asked => { asked with options.verbose := true })
  | name => basic name

end Settings

/-- The name of an option, and its value if it follows an equals sign. -/
def splitOption (word : String) : String × Option String :=
  match word.splitOn "=" with
  | name :: first :: more => (name, some ("=".intercalate (first :: more)))
  | _ => (word, none)

namespace Command

def isOption (word : String) : Bool :=
  word.startsWith "-" && word ≠ "-"

/-- Reads options into a request. The words that are none are kept, in order: at the first of
them the reading ends unless options may be mixed with other words, and two dashes end it in any
case. The value of an option may be any word. -/
def readWords (settings : Settings) (mixed : Bool) (asked : Request) (kept : List String) :
    List String → Except Misuse (Request × List String)
  | [] => .ok (asked, kept)
  | word :: rest =>
      if word = "--" then .ok (asked, kept ++ rest)
      else if isOption word then
        let (name, value?) := splitOption word
        match settings name, value?, rest with
        | none, _, _ => .error (.unknownOption name)
        | some (.flag set), none, rest => readWords settings mixed (set asked) kept rest
        | some (.flag _), some _, _ => .error (.valueUnwanted name)
        | some (.value set), some value, rest =>
            readWords settings mixed (set value asked) kept rest
        | some (.value set), none, value :: rest =>
            readWords settings mixed (set value asked) kept rest
        | some (.value _), none, [] => .error (.valueMissing name)
      else if mixed then readWords settings mixed asked (kept ++ [word]) rest
      else .ok (asked, kept ++ word :: rest)

/-- The command of an order with the words after its name. A wish for help counts for more than
all else that the words say, once they can be read. -/
def ofOrder (settings : Settings) (command : List String → Options → Command)
    (words : List String) : Except Misuse Command := do
  let (asked, files) ← readWords settings true {} [] words
  return if asked.help then help else command files asked.options

def orders : List (String × (List String → Except Misuse Command)) :=
  [("compile", ofOrder .ofCompile compile), ("check", ofOrder .basic fun files _ => check files)]

/-- Reads a line. A wish for the version is met before the words of the order are read, but the
order has to be known. -/
def ofWords (words : List String) : Except Misuse Command := do
  let (asked, rest) ← readWords .ofLine false {} [] words
  if asked.help then return help
  match rest with
  | [] => return if asked.version then version else help
  | name :: rest =>
      match orders.lookup name with
      | none => .error (.unknownCommand name)
      | some order => if asked.version then return version else order rest

end Command

end RecipeGraph
