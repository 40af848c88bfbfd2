import RecipeGraph.Command.Run
import RecipeGraph.Compile.Identifier
import Std.Time.Format

/-!
The program. Files are read before the command is carried out: the file it names and every file
that the packages in it lead to. What the outcome says is then printed and written. The web is
not reached.
-/
namespace RecipeGraph.Program

open Files

def troubleOf : IO.Error → Trouble
  | .inappropriateType none _ _ => .isFolder
  | .inappropriateType (some _) _ _ => .notFolder
  | .invalidArgument .. => .nameTooLong
  | _ => .missing

def readFile (route : Route) : IO (Except Trouble String) := do
  if '\x00' ∈ route.render.toList then return .error .nullCharacter
  match ← (IO.FS.readFile route.render).toBaseIO with
  | .ok text => return .ok (Text.readText text)
  | .error error => return .error (troubleOf error)

/-- What reading gave for every route read. -/
abbrev Readings := List (Route × Except Trouble String)

def readingAt (readings : Readings) (route : Route) : Except Trouble String :=
  (readings.find? (·.1 = route)).elim (.error .missing) (·.2)

/-- The routes of the packages that a text names, as seen from a folder. -/
def routesIn (base : Route) (text : String) : List Route :=
  let built := Recipe.ofText text Source.unnamed
  (Recipe.packages built.recipe.statements).filterMap fun location =>
    if Package.isOnline location then none else some ((Route.ofText location).under base)

partial def readAll (base : Route) (readings : Readings) : List Route → IO Readings
  | [] => return readings
  | route :: pending => do
      if readings.any (·.1 = route) then readAll base readings pending
      else
        let reading ← readFile route
        let further := match reading with
          | .ok text => routesIn base text
          | .error _ => []
        readAll base ((route, reading) :: readings) (pending ++ further)

def lengthOf : Except Trouble String → Nat
  | .ok text => text.length
  | .error _ => 0

def libraryOf (readings : Readings) (base : Route) : Package.Library :=
  ⟨Package.fetch {} (readingAt readings) base, totalOf (lengthOf ·.2) readings + 1⟩

def fileOf : Command → List Route
  | .compile files _ | .check files => (files.take 1).map Route.ofText
  | _ => []

def seed : IO Nat := do
  let bytes ← IO.getRandomBytes 16
  return bytes.toList.foldl (fun n byte => n * 256 + byte.toNat) 0

def timeNow : IO String := do
  let now ← Std.Time.Timestamp.now
  return (Std.Time.DateTime.ofTimestampWithZone now .UTC).format
    "uuuu-MM-dd'T'HH:mm:ss.SSSSSSxxx"

def surroundingsFor (words : List String) : IO Command.Surroundings := do
  let routes := match Command.ofWords words with
    | .ok command => fileOf command
    | .error _ => []
  let base := (routes.head?.map Route.parent).getD (Route.ofText "")
  let readings ← readAll base [] routes
  let start ← seed
  return {
    read := readingAt readings
    library := libraryOf readings
    idOf := Compile.identifiersFrom start
    time := ← timeNow
    coloured := ← (← IO.getStdout).isTty }

def writeDocument (outcome : Command.Outcome) : IO Command.Outcome := do
  match outcome.document with
  | none => return outcome
  | some (route, text) =>
      match ← (IO.FS.writeFile route.render text).toBaseIO with
      | .ok () => return outcome
      | .error error =>
          IO.eprintln (toString error)
          return outcome.unwritten

end RecipeGraph.Program

def main (words : List String) : IO UInt32 := do
  let surroundings ← RecipeGraph.Program.surroundingsFor words
  let outcome := RecipeGraph.Command.runWords surroundings words
  IO.print outcome.output
  IO.eprint outcome.errors
  let outcome ← RecipeGraph.Program.writeDocument outcome
  return outcome.status.toUInt32
