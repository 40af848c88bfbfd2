import RecipeGraph.Json
import RecipeGraph.Span

/-!
What can be wrong with a recipe, as values: the problem and the stretch of text it concerns.
Every problem of the language itself is an error; only a custom one may be less severe.
-/
namespace RecipeGraph

abbrev Path := List String

def Path.render (path : Path) : String :=
  ".".intercalate path

inductive Severity
  | error | warning | info | hint
  deriving DecidableEq, Repr

def Severity.name : Severity → String
  | error => "error"
  | warning => "warning"
  | info => "info"
  | hint => "hint"

/-- The part of the work in which a problem shows. -/
inductive Origin
  | wording | reference | package | internal
  deriving DecidableEq, Repr

def Origin.name : Origin → String
  | wording => "Syntax"
  | reference => "Reference"
  | package => "Import"
  | internal => "Internal"

inductive Problem
  /-- A text that is no recipe. -/
  | malformedSource (detail : String)
  | incompleteAssignment (side : String)
  | undefinedVariable (path : Path)
  | undefinedAliasTarget (path : Path) (target : String)
  | undefinedStyleTag (path : Path)
  | importFailed (location reason : String)
  | unknownNodeKind (kind : String)
  /-- A problem of someone else's; without a wording it cannot be shown. -/
  | custom (severity : Severity) (origin : Origin) (wording : Option String)
  deriving DecidableEq, Repr

namespace Problem

def kind : Problem → String
  | malformedSource _ => "MalformedSource"
  | incompleteAssignment _ => "IncompleteAssignment"
  | undefinedVariable _ => "UndefinedVariable"
  | undefinedAliasTarget .. => "UndefinedAliasTarget"
  | undefinedStyleTag _ => "UndefinedStyleTag"
  | importFailed .. => "ImportFailed"
  | unknownNodeKind _ => "UnknownNodeKind"
  | custom .. => "Custom"

def severity : Problem → Severity
  | custom severity _ _ => severity
  | _ => .error

def origin : Problem → Origin
  | malformedSource _ | incompleteAssignment _ => .wording
  | undefinedVariable _ | undefinedAliasTarget .. | undefinedStyleTag _ => .reference
  | importFailed .. => .package
  | unknownNodeKind _ => .internal
  | custom _ origin _ => origin

def isWorded : Problem → Bool
  | custom _ _ none => false
  | _ => true

def message : Problem → String
  | malformedSource detail => detail
  | incompleteAssignment side => "Assignment missing " ++ side ++ " hand side"
  | undefinedVariable path => "Variable '" ++ path.render ++ "' not found"
  | undefinedAliasTarget path target =>
      "Variable '" ++ path.render ++ "' not found for alias '" ++ target ++ "'"
  | undefinedStyleTag path => "Style tag '" ++ path.render ++ "' not found"
  | importFailed _ reason => "Import failed: " ++ reason
  | unknownNodeKind kind => "Unknown node type '" ++ kind ++ "'"
  | custom _ _ wording => wording.getD ""

end Problem

structure Diagnostic where
  extent : Span
  problem : Problem
  deriving DecidableEq, Repr

def Span.toJson (span : Span) : Json :=
  .object [("from", .int span.start), ("to", .int span.stop)]

def Span.orNull : Option Span → Json
  | none => .null
  | some span => span.toJson

namespace Diagnostic

def message (diagnostic : Diagnostic) : String :=
  diagnostic.problem.message

def severity (diagnostic : Diagnostic) : Severity :=
  diagnostic.problem.severity

def origin (diagnostic : Diagnostic) : Origin :=
  diagnostic.problem.origin

def toJson (diagnostic : Diagnostic) : Json :=
  .object
    [("position", diagnostic.extent.toJson),
     ("message", .text diagnostic.message),
     ("severity", .text diagnostic.severity.name),
     ("source", .text diagnostic.origin.name)]

def withSeverity (severity : Severity) (diagnostics : List Diagnostic) : List Diagnostic :=
  diagnostics.filter (·.severity = severity)

def withOrigin (origin : Origin) (diagnostics : List Diagnostic) : List Diagnostic :=
  diagnostics.filter (·.origin = origin)

def hasErrors (diagnostics : List Diagnostic) : Bool :=
  diagnostics.any (·.severity = .error)

def hasWarnings (diagnostics : List Diagnostic) : Bool :=
  diagnostics.any (·.severity = .warning)

def listed (diagnostic : Diagnostic) : List String :=
  ["(" ++ diagnostic.origin.name ++ ") " ++ diagnostic.extent.render ++ ": " ++ diagnostic.message,
   ""]

def sectionOf (title : String) (severity : Severity) (diagnostics : List Diagnostic) : List String :=
  match withSeverity severity diagnostics with
  | [] => []
  | selected => title :: selected.flatMap listed

/-- All diagnostics, the severe ones first and those of one severity in their own order. -/
def listing (diagnostics : List Diagnostic) : String :=
  "\n".intercalate
    (sectionOf "=== ERRORS ===" .error diagnostics ++
      sectionOf "=== WARNINGS ===" .warning diagnostics ++
      sectionOf "=== INFO ===" .info diagnostics ++
      sectionOf "=== HINTS ===" .hint diagnostics)

end Diagnostic

end RecipeGraph
