import RecipeGraph.Recipe.Part

/-!
The recipe that a syntax tree stands for. Every rule makes one part of what its children made;
a rule that nobody knows is reported and leaves a gap. Words are read from the source text at
their extent; without a source, or without an extent, a word is its own text.
-/
namespace RecipeGraph.Recipe

open Source Grammar RecipeGraph.Recipe.Part

/-- The property that the loose texts of a style block become. -/
def descriptionProperty : String := "description"

def stripQuotes (text : String) : String :=
  match text.toList with
  | first :: rest =>
      if (first = '"' ∨ first = '\'') ∧ rest.getLast? = some first then
        String.ofList rest.dropLast
      else text
  | [] => text

/-- A backslash and an n stand for a line feed. -/
def unescapeBreaks : List Char → List Char
  | '\\' :: 'n' :: rest => '\n' :: unescapeBreaks rest
  | c :: rest => c :: unescapeBreaks rest
  | [] => []

def cleanValue (text : String) : String :=
  String.ofList (unescapeBreaks (stripQuotes text).toList)

def lastOf {α : Type} (pick : Part → Option α) (parts : List Part) : Option α :=
  (parts.filterMap pick).getLast?

def firstOf {α : Type} (pick : Part → Option α) (parts : List Part) : Option α :=
  (parts.filterMap pick).head?

def firstName (source : List Char) (pieces : List Piece) : String :=
  (pieces.head?.map (Piece.name source)).getD ""

def firstPath (pieces : List Piece) : Path :=
  (pieces.head?.map Piece.segments).getD []

/-- Of two values for one property the later one holds, at the place of the earlier. The
description comes last, put together from all loose texts. -/
def propertiesOf (parts : List Part) : OrderedMap String :=
  let given : OrderedMap String := .ofList (parts.filterMap property?)
  match parts.filterMap description? with
  | [] => given
  | texts => given.insert descriptionProperty ("\n".intercalate texts)

def packageOf (source : List Char) (parts : List Part) (extent : Option Span) : Node :=
  let words := parts.filterMap word?
  let label := (words.filter (·.kind = Terminal.identifier.name)).getLast?
  let literals := words.filter (·.kind ≠ Terminal.identifier.name)
  .packageNamed ("\n".intercalate (literals.map fun leaf => stripQuotes (wordText source leaf)))
    (label.map (wordText source)) extent

/-- The part that a rule makes of the pieces of its children. -/
def partOf (source : List Char) (rule : Rule) (pieces : List Piece) (extent : Option Span) :
    Part :=
  let parts := pieces.map (·.part)
  let rest := parts.drop 1
  let name := firstName source pieces
  match rule with
  | .recipe =>
      node (.recipe (parts.filterMap node?) (some (extent.getD ⟨0, source.length⟩)))
  | .body => node (.statementList (parts.filterMap node?) extent)
  | .argList => node (.valueList (parts.filterMap node?) extent)
  | .call =>
      node (.call name (((lastOf values? rest).map (·.1)).getD []) (lastOf style? rest) extent)
  | .assignment =>
      node (.assignment (parts.filterMap target?) (lastOf rightSide? parts) extent)
  | .target => node (.target name (firstOf style? rest) extent)
  | .reference => node (.variable (firstPath pieces) extent)
  | .qualifiedName => path (pieces.map (Piece.name source))
  | .scope =>
      let body := (lastOf statements? parts).getD ([], none)
      let args := (lastOf values? parts).getD ([], none)
      let name := ((lastOf word? parts).map (wordText source)).getD ""
      node (.scope name body.1 body.2 args.1 args.2 (lastOf style? parts) extent)
  | .package => node (packageOf source parts extent)
  | .namedStyle =>
      node (.namedStyle name ((firstOf style? rest).getD (.style {} [] none)) extent)
  | .styleBinding => node (.styleBinding name ((lastOf tags? rest).getD []) extent)
  | .styleBlock => node (.style (propertiesOf parts) (parts.filterMap styleTag?) extent)
  | .tagBlock => tags (parts.filterMap styleTag?)
  | .property => property name (",".intercalate (rest.map valueText))
  | .propertyValue => value (cleanValue name)
  | .styleTag => node (.styleTag (firstPath pieces) extent)
  | .description => description (cleanValue name)

def unknownRule (rule : String) (extent : Option Span) : Diagnostic :=
  ⟨extent.getD .origin, .unknownNodeKind rule⟩

mutual

def pieceOfTree (source : List Char) : Tree → Piece × List Diagnostic
  | .leaf leaf => (.of [] (word leaf), [])
  | .branch name children extent =>
      let below := piecesOfTrees source children
      match Rule.ofName? name with
      | some rule => (.of below.1 (partOf source rule below.1 extent), below.2)
      | none => (.of below.1 gap, below.2 ++ [unknownRule name extent])

def piecesOfTrees (source : List Char) : List Tree → List Piece × List Diagnostic
  | [] => ([], [])
  | tree :: rest =>
      let first := pieceOfTree source tree
      let others := piecesOfTrees source rest
      (first.1 :: others.1, first.2 ++ others.2)

end

/-- A recipe with what was found wrong on the way to it. -/
structure Built where
  recipe : Recipe
  diagnostics : List Diagnostic

def treeName : Tree → String
  | .leaf leaf => leaf.text
  | .branch rule _ _ => rule

/-- A tree that is no recipe is reported as such and counts as a recipe without statements. -/
def ofTree (tree : Tree) (source : String) : Built :=
  let made := pieceOfTree source.toList tree
  match made.1.part with
  | node (.recipe statements extent) => ⟨⟨statements, extent⟩, made.2⟩
  | _ => ⟨⟨[], some ⟨0, source.length⟩⟩, made.2 ++ [unknownRule (treeName tree) none]⟩

end RecipeGraph.Recipe
