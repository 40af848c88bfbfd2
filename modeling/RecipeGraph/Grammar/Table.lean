import RecipeGraph.Grammar.Rule

/-!
The parse table of the grammar: one row for each state of its automaton with one word of
lookahead, states with the same items merged. A row says where a terminal leads, which
production is complete before which terminals, and where a nonterminal leads. State 0 is the
start, and a whole recipe leads from it to the accepting state.
-/
namespace RecipeGraph.Grammar

structure Row where
  shifts : List (Terminal × Nat)
  /-- Numbers of productions, each with the terminals before which it is complete. -/
  reductions : List (Nat × List Terminal)
  jumps : List (Nonterminal × Nat)

def acceptingState : Nat := 1

def rows : List Row :=
  [
    ⟨[(.newline, 12), (.identifier, 14), (.atSign, 18), (.hash, 19), (.percent, 20), (.semicolon,
      13), (.leftBracket, 17)],
     [(3, [.endOfText])],
     [(.rule .recipe, 1), (.statements, 2), (.statement, 3), (.separator, 4), (.rule .call, 5),
      (.rule .assignment, 6), (.rule .reference, 7), (.rule .scope, 8), (.rule .package, 9),
      (.rule .namedStyle, 10), (.rule .styleBinding, 11), (.rule .target, 15),
      (.rule .qualifiedName, 16)]⟩,
    ⟨[], [], []⟩,
    ⟨[(.newline, 12), (.identifier, 14), (.atSign, 18), (.hash, 19), (.percent, 20), (.semicolon,
      13), (.leftBracket, 17)],
     [(1, [.endOfText])],
     [(.statement, 21), (.separator, 22), (.rule .call, 5), (.rule .assignment, 6),
      (.rule .reference, 7), (.rule .scope, 8), (.rule .package, 9), (.rule .namedStyle, 10),
      (.rule .styleBinding, 11), (.rule .target, 15), (.rule .qualifiedName, 16)]⟩,
    ⟨[(.newline, 12), (.semicolon, 13)], [(2, [.endOfText])], [(.separator, 23)]⟩,
    ⟨[],
     [(65, [.newline, .identifier, .atSign, .hash, .percent, .semicolon, .leftBracket,
      .rightBracket, .endOfText])],
     []⟩,
    ⟨[], [(51, [.newline, .semicolon, .rightBracket, .endOfText])], []⟩,
    ⟨[], [(52, [.newline, .semicolon, .rightBracket, .endOfText])], []⟩,
    ⟨[], [(53, [.newline, .semicolon, .rightBracket, .endOfText])], []⟩,
    ⟨[], [(54, [.newline, .semicolon, .rightBracket, .endOfText])], []⟩,
    ⟨[], [(55, [.newline, .semicolon, .rightBracket, .endOfText])], []⟩,
    ⟨[], [(56, [.newline, .semicolon, .rightBracket, .endOfText])], []⟩,
    ⟨[], [(57, [.newline, .semicolon, .rightBracket, .endOfText])], []⟩,
    ⟨[],
     [(49, [.newline, .identifier, .atSign, .hash, .percent, .semicolon, .leftBracket,
      .rightBracket, .endOfText])],
     []⟩,
    ⟨[],
     [(50, [.newline, .identifier, .atSign, .hash, .percent, .semicolon, .leftBracket,
      .rightBracket, .endOfText])],
     []⟩,
    ⟨[(.atSign, 28), (.dot, 30), (.leftBrace, 29), (.leftParen, 24), (.leftBracket, 27)],
     [(13, [.comma, .equal]), (16, [.newline, .semicolon, .rightBracket, .endOfText])],
     [(.rule .styleBlock, 25), (.moreSegments, 26)]⟩,
    ⟨[(.comma, 33), (.equal, 32)], [], [(.moreTargets, 31)]⟩,
    ⟨[], [(14, [.newline, .comma, .semicolon, .rightParen, .rightBracket, .endOfText])], []⟩,
    ⟨[(.newline, 12), (.identifier, 14), (.atSign, 18), (.hash, 19), (.percent, 20), (.semicolon,
      13), (.leftBracket, 17)],
     [(32, [.rightBracket])],
     [(.rule .body, 34), (.statements, 35), (.statement, 36), (.separator, 4), (.rule .call, 5),
      (.rule .assignment, 6), (.rule .reference, 7), (.rule .scope, 8), (.rule .package, 9),
      (.rule .namedStyle, 10), (.rule .styleBinding, 11), (.rule .target, 15),
      (.rule .qualifiedName, 16)]⟩,
    ⟨[(.stringLiteral, 38)], [], [(.locations, 37)]⟩,
    ⟨[(.identifier, 39)], [], []⟩,
    ⟨[(.identifier, 40)], [], []⟩,
    ⟨[(.newline, 12), (.semicolon, 13)], [(0, [.endOfText])], [(.separator, 41)]⟩,
    ⟨[],
     [(67, [.newline, .identifier, .atSign, .hash, .percent, .semicolon, .leftBracket,
      .rightBracket, .endOfText])],
     []⟩,
    ⟨[],
     [(64, [.newline, .identifier, .atSign, .hash, .percent, .semicolon, .leftBracket,
      .rightBracket, .endOfText])],
     []⟩,
    ⟨[(.identifier, 47), (.rightParen, 43)],
     [],
     [(.rule .argList, 42), (.value, 44), (.rule .call, 45), (.rule .reference, 46),
      (.rule .qualifiedName, 16)]⟩,
    ⟨[], [(12, [.comma, .equal])], []⟩,
    ⟨[(.dot, 48)],
     [(15, [.stringLiteral, .propertyName, .newline, .comma, .hash, .semicolon, .rightBrace,
      .rightParen, .rightBracket, .endOfText])],
     []⟩,
    ⟨[(.newline, 12), (.identifier, 14), (.atSign, 18), (.hash, 19), (.percent, 20), (.semicolon,
      13), (.leftBracket, 17)],
     [(32, [.rightBracket])],
     [(.rule .body, 49), (.statements, 35), (.statement, 36), (.separator, 4), (.rule .call, 5),
      (.rule .assignment, 6), (.rule .reference, 7), (.rule .scope, 8), (.rule .package, 9),
      (.rule .namedStyle, 10), (.rule .styleBinding, 11), (.rule .target, 15),
      (.rule .qualifiedName, 16)]⟩,
    ⟨[(.stringLiteral, 38)], [], [(.locations, 50)]⟩,
    ⟨[(.stringLiteral, 59), (.propertyName, 57), (.hash, 58), (.semicolon, 56), (.rightBrace, 52)],
     [],
     [(.styleItems, 51), (.rule .property, 53), (.rule .styleTag, 54), (.rule .description, 55)]⟩,
    ⟨[(.identifier, 60)], [], []⟩,
    ⟨[(.comma, 62), (.equal, 61)], [], []⟩,
    ⟨[(.identifier, 68), (.atSign, 18), (.leftBracket, 17)],
     [],
     [(.rightSide, 63), (.rule .call, 64), (.rule .reference, 65), (.rule .scope, 66),
      (.rule .package, 67), (.rule .qualifiedName, 16)]⟩,
    ⟨[(.identifier, 70)], [], [(.rule .target, 69)]⟩,
    ⟨[(.rightBracket, 71)], [], []⟩,
    ⟨[(.newline, 12), (.identifier, 14), (.atSign, 18), (.hash, 19), (.percent, 20), (.semicolon,
      13), (.leftBracket, 17)],
     [(30, [.rightBracket])],
     [(.statement, 72), (.separator, 22), (.rule .call, 5), (.rule .assignment, 6),
      (.rule .reference, 7), (.rule .scope, 8), (.rule .package, 9), (.rule .namedStyle, 10),
      (.rule .styleBinding, 11), (.rule .target, 15), (.rule .qualifiedName, 16)]⟩,
    ⟨[(.newline, 12), (.semicolon, 13)], [(31, [.rightBracket])], [(.separator, 23)]⟩,
    ⟨[(.stringLiteral, 73)], [(34, [.newline, .semicolon, .rightBracket, .endOfText])], []⟩,
    ⟨[], [(74, [.stringLiteral, .newline, .semicolon, .rightBracket, .endOfText])], []⟩,
    ⟨[(.leftBrace, 29)],
     [(36, [.newline, .semicolon, .rightBracket, .endOfText])],
     [(.rule .styleBlock, 74)]⟩,
    ⟨[(.leftBrace, 76)],
     [(38, [.newline, .semicolon, .rightBracket, .endOfText])],
     [(.rule .tagBlock, 75)]⟩,
    ⟨[],
     [(66, [.newline, .identifier, .atSign, .hash, .percent, .semicolon, .leftBracket,
      .rightBracket, .endOfText])],
     []⟩,
    ⟨[(.rightParen, 77)], [], []⟩,
    ⟨[(.leftBrace, 29)],
     [(7, [.newline, .comma, .semicolon, .rightParen, .rightBracket, .endOfText])],
     [(.rule .styleBlock, 78)]⟩,
    ⟨[(.comma, 80)], [(9, [.rightParen])], [(.moreArgs, 79)]⟩,
    ⟨[], [(58, [.comma, .rightParen])], []⟩,
    ⟨[], [(59, [.comma, .rightParen])], []⟩,
    ⟨[(.dot, 30), (.leftParen, 24)], [(16, [.comma, .rightParen])], [(.moreSegments, 26)]⟩,
    ⟨[(.identifier, 81)], [], []⟩,
    ⟨[(.rightBracket, 82)], [], []⟩,
    ⟨[(.stringLiteral, 73)], [(33, [.newline, .semicolon, .rightBracket, .endOfText])], []⟩,
    ⟨[(.stringLiteral, 59), (.propertyName, 57), (.hash, 58), (.semicolon, 87), (.rightBrace, 83)],
     [],
     [(.rule .property, 84), (.rule .styleTag, 85), (.rule .description, 86)]⟩,
    ⟨[],
     [(40, [.newline, .comma, .equal, .semicolon, .rightParen, .rightBracket, .endOfText])],
     []⟩,
    ⟨[], [(76, [.stringLiteral, .propertyName, .hash, .semicolon, .rightBrace])], []⟩,
    ⟨[], [(77, [.stringLiteral, .propertyName, .hash, .semicolon, .rightBrace])], []⟩,
    ⟨[], [(78, [.stringLiteral, .propertyName, .hash, .semicolon, .rightBrace])], []⟩,
    ⟨[], [(79, [.stringLiteral, .propertyName, .hash, .semicolon, .rightBrace])], []⟩,
    ⟨[(.colon, 88)], [], []⟩,
    ⟨[(.identifier, 90)], [], [(.rule .qualifiedName, 89)]⟩,
    ⟨[], [(48, [.stringLiteral, .propertyName, .hash, .semicolon, .rightBrace])], []⟩,
    ⟨[],
     [(72, [.stringLiteral, .propertyName, .newline, .comma, .dot, .hash, .semicolon, .rightBrace,
      .rightParen, .rightBracket, .endOfText])],
     []⟩,
    ⟨[(.identifier, 68), (.atSign, 18), (.leftBracket, 17)],
     [],
     [(.rightSide, 91), (.rule .call, 64), (.rule .reference, 65), (.rule .scope, 66),
      (.rule .package, 67), (.rule .qualifiedName, 16)]⟩,
    ⟨[(.identifier, 70)], [], [(.rule .target, 92)]⟩,
    ⟨[], [(11, [.newline, .semicolon, .rightBracket, .endOfText])], []⟩,
    ⟨[], [(60, [.newline, .semicolon, .rightBracket, .endOfText])], []⟩,
    ⟨[], [(61, [.newline, .semicolon, .rightBracket, .endOfText])], []⟩,
    ⟨[], [(62, [.newline, .semicolon, .rightBracket, .endOfText])], []⟩,
    ⟨[], [(63, [.newline, .semicolon, .rightBracket, .endOfText])], []⟩,
    ⟨[(.atSign, 28), (.dot, 30), (.leftParen, 24), (.leftBracket, 27)],
     [(16, [.newline, .semicolon, .rightBracket, .endOfText])],
     [(.moreSegments, 26)]⟩,
    ⟨[], [(70, [.comma, .equal])], []⟩,
    ⟨[(.leftBrace, 29)], [(13, [.comma, .equal])], [(.rule .styleBlock, 25)]⟩,
    ⟨[(.leftBrace, 29), (.leftParen, 93)],
     [(28, [.newline, .semicolon, .rightBracket, .endOfText])],
     [(.rule .styleBlock, 94)]⟩,
    ⟨[(.newline, 12), (.semicolon, 13)], [(29, [.rightBracket])], [(.separator, 41)]⟩,
    ⟨[], [(75, [.stringLiteral, .newline, .semicolon, .rightBracket, .endOfText])], []⟩,
    ⟨[], [(35, [.newline, .semicolon, .rightBracket, .endOfText])], []⟩,
    ⟨[], [(37, [.newline, .semicolon, .rightBracket, .endOfText])], []⟩,
    ⟨[(.hash, 58), (.semicolon, 98), (.rightBrace, 96)],
     [],
     [(.tagItems, 95), (.rule .styleTag, 97)]⟩,
    ⟨[(.leftBrace, 29)],
     [(5, [.newline, .comma, .semicolon, .rightParen, .rightBracket, .endOfText])],
     [(.rule .styleBlock, 99)]⟩,
    ⟨[], [(6, [.newline, .comma, .semicolon, .rightParen, .rightBracket, .endOfText])], []⟩,
    ⟨[(.comma, 100)], [(8, [.rightParen])], []⟩,
    ⟨[(.identifier, 47)],
     [],
     [(.value, 101), (.rule .call, 45), (.rule .reference, 46), (.rule .qualifiedName, 16)]⟩,
    ⟨[],
     [(73, [.stringLiteral, .propertyName, .newline, .comma, .dot, .hash, .semicolon, .rightBrace,
      .rightParen, .rightBracket, .endOfText])],
     []⟩,
    ⟨[(.leftBrace, 29), (.leftParen, 102)],
     [(22, [.newline, .semicolon, .rightBracket, .endOfText])],
     [(.rule .styleBlock, 103)]⟩,
    ⟨[],
     [(39, [.newline, .comma, .equal, .semicolon, .rightParen, .rightBracket, .endOfText])],
     []⟩,
    ⟨[], [(80, [.stringLiteral, .propertyName, .hash, .semicolon, .rightBrace])], []⟩,
    ⟨[], [(81, [.stringLiteral, .propertyName, .hash, .semicolon, .rightBrace])], []⟩,
    ⟨[], [(82, [.stringLiteral, .propertyName, .hash, .semicolon, .rightBrace])], []⟩,
    ⟨[], [(83, [.stringLiteral, .propertyName, .hash, .semicolon, .rightBrace])], []⟩,
    ⟨[(.stringLiteral, 106), (.styleValue, 105)], [], [(.rule .propertyValue, 104)]⟩,
    ⟨[], [(47, [.stringLiteral, .propertyName, .hash, .semicolon, .rightBrace])], []⟩,
    ⟨[(.dot, 30)],
     [(16, [.stringLiteral, .propertyName, .hash, .semicolon, .rightBrace])],
     [(.moreSegments, 26)]⟩,
    ⟨[], [(10, [.newline, .semicolon, .rightBracket, .endOfText])], []⟩,
    ⟨[], [(71, [.comma, .equal])], []⟩,
    ⟨[(.identifier, 47), (.rightParen, 108)],
     [],
     [(.rule .argList, 107), (.value, 44), (.rule .call, 45), (.rule .reference, 46),
      (.rule .qualifiedName, 16)]⟩,
    ⟨[], [(27, [.newline, .semicolon, .rightBracket, .endOfText])], []⟩,
    ⟨[(.hash, 58), (.semicolon, 111), (.rightBrace, 109)], [], [(.rule .styleTag, 110)]⟩,
    ⟨[], [(42, [.newline, .semicolon, .rightBracket, .endOfText])], []⟩,
    ⟨[], [(84, [.hash, .semicolon, .rightBrace])], []⟩,
    ⟨[], [(85, [.hash, .semicolon, .rightBrace])], []⟩,
    ⟨[], [(4, [.newline, .comma, .semicolon, .rightParen, .rightBracket, .endOfText])], []⟩,
    ⟨[(.identifier, 47)],
     [],
     [(.value, 112), (.rule .call, 45), (.rule .reference, 46), (.rule .qualifiedName, 16)]⟩,
    ⟨[], [(68, [.comma, .rightParen])], []⟩,
    ⟨[(.identifier, 47), (.rightParen, 114)],
     [],
     [(.rule .argList, 113), (.value, 44), (.rule .call, 45), (.rule .reference, 46),
      (.rule .qualifiedName, 16)]⟩,
    ⟨[], [(21, [.newline, .semicolon, .rightBracket, .endOfText])], []⟩,
    ⟨[(.comma, 116)],
     [(44, [.stringLiteral, .propertyName, .hash, .semicolon, .rightBrace])],
     [(.moreValues, 115)]⟩,
    ⟨[], [(45, [.stringLiteral, .propertyName, .comma, .hash, .semicolon, .rightBrace])], []⟩,
    ⟨[], [(46, [.stringLiteral, .propertyName, .comma, .hash, .semicolon, .rightBrace])], []⟩,
    ⟨[(.rightParen, 117)], [], []⟩,
    ⟨[(.leftBrace, 29)],
     [(26, [.newline, .semicolon, .rightBracket, .endOfText])],
     [(.rule .styleBlock, 118)]⟩,
    ⟨[], [(41, [.newline, .semicolon, .rightBracket, .endOfText])], []⟩,
    ⟨[], [(86, [.hash, .semicolon, .rightBrace])], []⟩,
    ⟨[], [(87, [.hash, .semicolon, .rightBrace])], []⟩,
    ⟨[], [(69, [.comma, .rightParen])], []⟩,
    ⟨[(.rightParen, 119)], [], []⟩,
    ⟨[(.leftBrace, 29)],
     [(20, [.newline, .semicolon, .rightBracket, .endOfText])],
     [(.rule .styleBlock, 120)]⟩,
    ⟨[(.comma, 121)],
     [(43, [.stringLiteral, .propertyName, .hash, .semicolon, .rightBrace])],
     []⟩,
    ⟨[(.stringLiteral, 106), (.styleValue, 105)], [], [(.rule .propertyValue, 122)]⟩,
    ⟨[(.leftBrace, 29)],
     [(24, [.newline, .semicolon, .rightBracket, .endOfText])],
     [(.rule .styleBlock, 123)]⟩,
    ⟨[], [(25, [.newline, .semicolon, .rightBracket, .endOfText])], []⟩,
    ⟨[(.leftBrace, 29)],
     [(18, [.newline, .semicolon, .rightBracket, .endOfText])],
     [(.rule .styleBlock, 124)]⟩,
    ⟨[], [(19, [.newline, .semicolon, .rightBracket, .endOfText])], []⟩,
    ⟨[(.stringLiteral, 106), (.styleValue, 105)], [], [(.rule .propertyValue, 125)]⟩,
    ⟨[], [(88, [.stringLiteral, .propertyName, .comma, .hash, .semicolon, .rightBrace])], []⟩,
    ⟨[], [(23, [.newline, .semicolon, .rightBracket, .endOfText])], []⟩,
    ⟨[], [(17, [.newline, .semicolon, .rightBracket, .endOfText])], []⟩,
    ⟨[], [(89, [.stringLiteral, .propertyName, .comma, .hash, .semicolon, .rightBrace])], []⟩]

end RecipeGraph.Grammar
