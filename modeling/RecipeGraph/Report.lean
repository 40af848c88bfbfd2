import RecipeGraph.Diagnostic
import RecipeGraph.Text.Lines

/-!
Diagnostics with the lines of the text they concern.
-/
namespace RecipeGraph.Report

open Text

/-- The shown lines from the line of one offset to the line of another. -/
def snippet (source : String) (start stop : Int) : String :=
  let first := lineAt source start
  let last := lineAt source stop
  "\n".intercalate (((linesOf source).take last).drop (first - 1))

def block (source : String) (diagnostic : Diagnostic) : String :=
  let start := diagnostic.extent.start
  let stop := diagnostic.extent.stop
  "\n\n".intercalate
    ["Severity: " ++ diagnostic.severity.name,
     "Source: " ++ diagnostic.origin.name,
     "Message: " ++ diagnostic.message,
     s!"Location: from {start} to {stop}",
     s!"Lines: {lineAt source start}-{lineAt source stop}",
     "Code:\n" ++ snippet source start stop]

def render (source : String) (diagnostics : List Diagnostic) : String :=
  "\n\n".intercalate (diagnostics.map (block source))

end RecipeGraph.Report
