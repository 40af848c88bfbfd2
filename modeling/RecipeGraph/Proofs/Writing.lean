import RecipeGraph.Proofs.LoweringCases
import RecipeGraph.Source.Word

/-!
Recipes written down. Every statement has a line of its own, and what it consists of is put in the
brackets of the language. Values and locations are quoted, and a line feed in a value is written as
a backslash and an n. A recipe can be written down if its parts are of the kinds that belong where
they are, and its names, keys and texts can be spelled.
-/
namespace RecipeGraph.Recipe

open Grammar Source

/-- A line feed is written as a backslash and an n. -/
def escapeBreaks : List Char → List Char
  | [] => []
  | c :: rest => if c = '\n' then '\\' :: 'n' :: escapeBreaks rest else c :: escapeBreaks rest

def quotedText (text : String) : String :=
  "\"" ++ String.ofList (escapeBreaks text.toList) ++ "\""

def propertyText (entry : String × String) : String :=
  entry.1 ++ ": " ++ quotedText entry.2 ++ ";"

def pathText (path : Path) : String :=
  ".".intercalate path

def bracketed (texts : List String) : String :=
  "(" ++ ", ".intercalate texts ++ ")"

def braced (texts : List String) : String :=
  "\x7b" ++ String.join (texts.map (" " ++ ·)) ++ " \x7d"

def lines (texts : List String) : String :=
  String.join (texts.map (· ++ "\n"))

/-- The terminal takes the whole of the text. -/
def isSpelled (kind : Terminal) (text : String) : Bool :=
  split? kind text.toList = some (text.toList, [])

def isPath (path : Path) : Bool :=
  !path.isEmpty && path.all (isSpelled .identifier)

/-- The text can be put between double quotes. -/
def isQuotable (text : String) : Bool :=
  text.toList.all fun c => c ≠ '"' && c ≠ '\\'

namespace Node

/-- What may be assigned. -/
def isRightSide (node : Node) : Bool :=
  node.isBuilt || node.isVariable

def isTarget : Node → Bool
  | target .. => true
  | _ => false

def isStyle : Node → Bool
  | style .. => true
  | _ => false

def isStyleTag : Node → Bool
  | styleTag .. => true
  | _ => false

mutual

def written : Node → String
  | call name args styling _ => name ++ bracketed (allWritten args) ++ shownWritten styling
  | .variable path _ => pathText path
  | assignment targets value _ =>
      ", ".intercalate (allWritten targets) ++ " = " ++ shownWritten value
  | scope name body _ args _ styling _ =>
      name ++ "[\n" ++ lines (allWritten body) ++ "]" ++
        (if args.isEmpty then "" else bracketed (allWritten args)) ++ shownWritten styling
  | package location label _ => label.elim "" (· ++ " ") ++ "@ " ++ quotedText location
  | namedStyle name own _ => "#" ++ name ++ written own
  | styleBinding keyword tags _ => "%" ++ keyword ++ braced (allWritten tags)
  | target name styling _ => name ++ shownWritten styling
  | style properties tags _ => braced (properties.entries.map propertyText ++ allWritten tags)
  | styleTag path _ => "#" ++ pathText path
  | valueList values _ => ", ".intercalate (allWritten values)
  | statementList statements _ => "\n" ++ lines (allWritten statements)
  | recipe statements _ => lines (allWritten statements)

def shownWritten : Option Node → String
  | none => ""
  | some node => written node

def allWritten : List Node → List String
  | [] => []
  | node :: rest => written node :: allWritten rest

end

mutual

def isWritable : Node → Bool
  | call name args styling _ =>
      isSpelled .identifier name && args.all isArgument && allWritable args &&
        styling.all isStyle && shownWritable styling
  | .variable path _ | styleTag path _ => isPath path
  | assignment targets value _ =>
      !targets.isEmpty && targets.all isTarget && allWritable targets && value.any isRightSide &&
        shownWritable value
  | scope name body _ args _ styling _ =>
      (name = "" || isSpelled .identifier name) && body.all isStatement && allWritable body &&
        args.all isArgument && allWritable args && styling.all isStyle && shownWritable styling
  | package location label _ =>
      isQuotable location && !location.toList.contains '\n' && label.all (isSpelled .identifier)
  | namedStyle name own _ => isSpelled .identifier name && isStyle own && isWritable own
  | styleBinding keyword tags _ =>
      isSpelled .identifier keyword && tags.all isStyleTag && allWritable tags
  | target name styling _ =>
      isSpelled .identifier name && styling.all isStyle && shownWritable styling
  | style properties tags _ =>
      decide properties.keys.Nodup &&
        properties.entries.all (fun entry =>
          isSpelled .propertyName entry.1 && isQuotable entry.2) &&
        tags.all isStyleTag && allWritable tags
  | valueList values _ => !values.isEmpty && values.all isArgument && allWritable values
  | statementList statements _ | recipe statements _ =>
      statements.all isStatement && allWritable statements

def shownWritable : Option Node → Bool
  | none => true
  | some node => isWritable node

def allWritable : List Node → Bool
  | [] => true
  | node :: rest => isWritable node && allWritable rest

end

/-- A scope with a call in it is assigned, and a style has a property with two lines. -/
example : written (.recipe [assignment [target "a" none none]
      (some (scope "n" [call "f" [.variable ["x", "y"] none] none none] none [] none none none))
      none, namedStyle "s" (style ⟨[("label", "b\nc")]⟩ [styleTag ["t"] none] none) none] none) =
    "a = n[\nf(x.y)\n]\n#s\x7b label: \"b\\nc\"; #t \x7d\n" := by
  decide +kernel

end Node

end RecipeGraph.Recipe
