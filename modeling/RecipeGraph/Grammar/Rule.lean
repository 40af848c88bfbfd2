import RecipeGraph.Grammar.Terminal

/-!
The grammar of recipes. A rule names a node of the syntax tree; the other nonterminals only
group what their parent takes over, such as the repetitions, which grow to the left.
-/
namespace RecipeGraph.Grammar

inductive Rule
  | recipe | call | argList | assignment | target | reference | qualifiedName | scope | body
  | package | namedStyle | styleBinding | styleBlock | tagBlock | property | propertyValue
  | styleTag | description
  deriving DecidableEq, Repr

namespace Rule

def all : List Rule :=
  [recipe, call, argList, assignment, target, reference, qualifiedName, scope, body, package,
   namedStyle, styleBinding, styleBlock, tagBlock, property, propertyValue, styleTag, description]

def name : Rule → String
  | recipe => "recipe"
  | call => "call"
  | argList => "arg_list"
  | assignment => "assignment"
  | target => "lhs_variable"
  | reference => "rhs_variable"
  | qualifiedName => "qualifiable_identifier"
  | scope => "namespace"
  | body => "statement_list"
  | package => "package_import"
  | namedStyle => "style_tag_declaration"
  | styleBinding => "style_binding"
  | styleBlock => "style_arg_list"
  | tagBlock => "style_tag_list"
  | property => "style_declaration"
  | propertyValue => "style_value"
  | styleTag => "style_tag"
  | description => "description"

def ofName? (name : String) : Option Rule :=
  all.find? (·.name = name)

end Rule

inductive Nonterminal
  | rule (rule : Rule)
  | separator | statement | value | rightSide
  | statements | moreArgs | moreTargets | moreSegments | locations | styleItems | tagItems
  | moreValues
  deriving DecidableEq, Repr

def Nonterminal.all : List Nonterminal :=
  Rule.all.map .rule ++
    [.separator, .statement, .value, .rightSide, .statements, .moreArgs, .moreTargets,
     .moreSegments, .locations, .styleItems, .tagItems, .moreValues]

inductive Symbol
  | terminal (terminal : Terminal)
  | nonterminal (nonterminal : Nonterminal)
  deriving DecidableEq, Repr

structure Production where
  head : Nonterminal
  body : List Symbol
  deriving DecidableEq, Repr

/-- Every way to choose one piece of each part, the first part varying slowest. -/
def sequences (parts : List (List (List Symbol))) : List (List Symbol) :=
  parts.foldr (fun pieces tails => pieces.flatMap fun piece => tails.map (piece ++ ·)) [[]]

/-- The bodies of a head, in a fixed order. An optional part gives one body with and one
without it. -/
def bodies (head : Nonterminal) : List (List Symbol) :=
  let t := Symbol.terminal
  let n := Symbol.nonterminal
  let r := fun (rule : Rule) => Symbol.nonterminal (.rule rule)
  match head with
  | .rule .recipe =>
      [[n .statements, n .statement], [n .statements], [n .statement], []]
  | .rule .call =>
      sequences
        [[[t .identifier, t .leftParen]], [[r .argList], []], [[t .rightParen]],
         [[r .styleBlock], []]]
  | .rule .argList =>
      [[n .value, n .moreArgs], [n .value]]
  | .rule .assignment =>
      [[r .target, n .moreTargets, t .equal, n .rightSide], [r .target, t .equal, n .rightSide]]
  | .rule .target =>
      [[t .identifier, r .styleBlock], [t .identifier]]
  | .rule .reference =>
      [[r .qualifiedName]]
  | .rule .qualifiedName =>
      [[t .identifier, n .moreSegments], [t .identifier]]
  | .rule .scope =>
      sequences
        [[[t .identifier], []],
         [[t .leftBracket, r .body, t .rightBracket]],
         [[t .leftParen, r .argList, t .rightParen], [t .leftParen, t .rightParen], []],
         [[r .styleBlock], []]]
  | .rule .body =>
      [[n .statements, n .statement], [n .statements], [n .statement], []]
  | .rule .package =>
      [[t .identifier, t .atSign, n .locations], [t .atSign, n .locations]]
  | .rule .namedStyle =>
      [[t .hash, t .identifier, r .styleBlock], [t .hash, t .identifier]]
  | .rule .styleBinding =>
      [[t .percent, t .identifier, r .tagBlock], [t .percent, t .identifier]]
  | .rule .styleBlock =>
      [[t .leftBrace, n .styleItems, t .rightBrace], [t .leftBrace, t .rightBrace]]
  | .rule .tagBlock =>
      [[t .leftBrace, n .tagItems, t .rightBrace], [t .leftBrace, t .rightBrace]]
  | .rule .property =>
      [[t .propertyName, t .colon, r .propertyValue, n .moreValues],
       [t .propertyName, t .colon, r .propertyValue]]
  | .rule .propertyValue =>
      [[t .styleValue], [t .stringLiteral]]
  | .rule .styleTag =>
      [[t .hash, r .qualifiedName]]
  | .rule .description =>
      [[t .stringLiteral]]
  | .separator =>
      [[t .newline], [t .semicolon]]
  | .statement =>
      [[r .call], [r .assignment], [r .reference], [r .scope], [r .package], [r .namedStyle],
       [r .styleBinding]]
  | .value =>
      [[r .call], [r .reference]]
  | .rightSide =>
      [[r .call], [r .reference], [r .scope], [r .package]]
  | .statements =>
      [[n .statement, n .separator], [n .separator], [n .statements, n .statement, n .separator],
       [n .statements, n .separator]]
  | .moreArgs =>
      [[t .comma, n .value], [n .moreArgs, t .comma, n .value]]
  | .moreTargets =>
      [[t .comma, r .target], [n .moreTargets, t .comma, r .target]]
  | .moreSegments =>
      [[t .dot, t .identifier], [n .moreSegments, t .dot, t .identifier]]
  | .locations =>
      [[t .stringLiteral], [n .locations, t .stringLiteral]]
  | .styleItems =>
      [[r .property], [r .styleTag], [r .description], [t .semicolon], [n .styleItems,
       r .property], [n .styleItems, r .styleTag], [n .styleItems, r .description],
       [n .styleItems, t .semicolon]]
  | .tagItems =>
      [[r .styleTag], [t .semicolon], [n .tagItems, r .styleTag], [n .tagItems, t .semicolon]]
  | .moreValues =>
      [[t .comma, r .propertyValue], [n .moreValues, t .comma, r .propertyValue]]

def productions : List Production :=
  Nonterminal.all.flatMap fun head => (bodies head).map fun body => ⟨head, body⟩

end RecipeGraph.Grammar
