import RecipeGraph.Command.Arguments
import RecipeGraph.Compile.Export
import RecipeGraph.Package.Fetch
import RecipeGraph.Recipe.Dump
import RecipeGraph.Recipe.Packages
import RecipeGraph.Report
import RecipeGraph.Text.Blank
import RecipeGraph.Text.Paint

/-!
Carrying out a command. Nothing is printed or written here: the outcome says what goes to the
two outputs, what is to be written to which file, and the exit status.
-/
namespace RecipeGraph.Command

open Files Compile Text

structure Surroundings where
  read : Route → Except Trouble String
  /-- The packages as seen from a folder. -/
  library : Route → Package.Library
  idOf : Nat → String
  time : String
  /-- Can the outputs show colours? -/
  coloured : Bool

structure Outcome where
  status : Nat := 0
  output : String := ""
  errors : String := ""
  /-- A document, and the route of the file it is to be written to. -/
  document : Option (Route × String) := none

/-- The outcome when the document cannot be written. -/
def Outcome.unwritten (outcome : Outcome) : Outcome :=
  { outcome with status := 1, document := none }

def line (surroundings : Surroundings) (text : String) : String :=
  (if surroundings.coloured then text else unpaint text) ++ "\n"

def say (surroundings : Surroundings) (outcome : Outcome) (text : String) : Outcome :=
  { outcome with output := outcome.output ++ line surroundings text }

def complain (surroundings : Surroundings) (outcome : Outcome) (text : String) : Outcome :=
  { outcome with errors := outcome.errors ++ line surroundings text }

def usage : String :=
  "Usage: fizgraph --version\n" ++
    "       fizgraph compile FILE [--json PATH] [--dump-ast] [--dump-dag] [--strict]\n" ++
    "                             [--report] [--verbose]\n" ++
    "       fizgraph check FILE"

def colourOf : Severity → Colour
  | .error => .red
  | .warning => .yellow
  | .info | .hint => .cyan

/-- The lines of a diagnostic: the first says where and what, the further ones are set in. -/
def diagnosticLines (source filename : String) (diagnostic : Diagnostic) : List String :=
  let place := filename ++ s!":{lineAt source diagnostic.extent.start}" ++
    s!":{columnAt source diagnostic.extent.start}: "
  let label := "[" ++ diagnostic.severity.name.toUpper ++ "] (" ++ diagnostic.origin.name ++ ") "
  match (stripBlanks diagnostic.message).splitOn "\n" with
  | [] => [place ++ label]
  | first :: further => (place ++ label ++ first) :: further.map ("  " ++ ·)

def complainAbout (surroundings : Surroundings) (source filename : String) (outcome : Outcome)
    (diagnostic : Diagnostic) : Outcome :=
  ((diagnosticLines source filename diagnostic).map (colourOf diagnostic.severity).paint).foldl
    (complain surroundings) outcome

def statementLines (compilation : Compilation) : List String :=
  compilation.recipe.toNode.dump ::
    (Recipe.packages compilation.recipe.statements).map ("Imports: " ++ ·)

/-- Does the compilation fail the command? -/
def fails (options : Options) (compilation : Compilation) : Bool :=
  Diagnostic.hasErrors compilation.diagnostics ||
    (options.strict && Diagnostic.hasWarnings compilation.diagnostics)

def runCompile (surroundings : Surroundings) (options : Options) (route : Route)
    (source : String) : Outcome :=
  let compiler : Compiler := ⟨surroundings.idOf, surroundings.library route.parent⟩
  let compilation := (compiler.compile source route.render [] {}).1
  let shown :=
    (if options.showStatements then statementLines compilation else []) ++
      (if options.showGraph then [compilation.scope.dump] else [])
  let told := shown.foldl (say surroundings) {}
  let told := compilation.diagnostics.foldl (complainAbout surroundings source route.render) told
  let told :=
    if options.report && !compilation.diagnostics.isEmpty then
      complain surroundings told (Report.render source compilation.diagnostics)
    else told
  { told with
    status := if fails options compilation then 1 else 0
    document := (options.document.filter (· ≠ "")).map fun path =>
      (Route.ofText path, (compilation.toJson surroundings.time).render) }

def runCheck (surroundings : Surroundings) (route : Route) (source : String) : Outcome :=
  match Source.parse source route.render with
  | .ok _ => say surroundings {} (Colour.green.paint "OK")
  | .error fault =>
      complain surroundings { status := 1 } (Colour.red.paint fault.message)

def misused (surroundings : Surroundings) (misuse : Misuse) : Outcome :=
  complain surroundings { status := 2 } (usage ++ "\n\nError: " ++ misuse.message)

/-- The outcome when a word can be no route. -/
def brokenDown : Outcome :=
  { status := 1 }

/-- Reads the one file of a command and goes on with its text. Before it is noted that there are
more files, the first is looked for. -/
def withFile (surroundings : Surroundings) (next : Route → String → Outcome) :
    List String → Outcome
  | [] => misused surroundings .fileMissing
  | file :: extra =>
      match surroundings.read (Route.ofText file) with
      | .error .nullCharacter => brokenDown
      | .error .isFolder => misused surroundings (.fileIsFolder file)
      | .error _ => misused surroundings (.noSuchFile file)
      | .ok source =>
          if !namesFile file then misused surroundings (.noSuchFile file)
          else if extra ≠ [] then misused surroundings (.extraWords extra)
          else next (Route.ofText file) source

/-- Can the document be written to the place asked for, as far as its name goes? -/
def documentNamed (options : Options) : Bool :=
  options.document.all fun path => '\x00' ∉ path.toList

def run (surroundings : Surroundings) : Command → Outcome
  | help => say surroundings {} usage
  | version => say surroundings {} ("fizgraph v" ++ Compile.version)
  | compile files options =>
      if documentNamed options then withFile surroundings (runCompile surroundings options) files
      else brokenDown
  | check files => withFile surroundings (runCheck surroundings) files

def runWords (surroundings : Surroundings) (words : List String) : Outcome :=
  match ofWords words with
  | .ok command => run surroundings command
  | .error misuse => misused surroundings misuse

end RecipeGraph.Command
