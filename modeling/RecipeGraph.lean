import RecipeGraph.Compile.InPlace
import RecipeGraph.Compile.Survey
import RecipeGraph.Compile.Workshop
import RecipeGraph.Graph.Hierarchy
import RecipeGraph.Graph.Records
import RecipeGraph.Main
import RecipeGraph.Recipe.Positions
import RecipeGraph.Proofs.Maps
import RecipeGraph.Proofs.Trees
import RecipeGraph.Proofs.Lookup
import RecipeGraph.Proofs.LoweringMoves
import RecipeGraph.Proofs.Sessions
import RecipeGraph.Proofs.FlowOrder
import RecipeGraph.Proofs.Elements
import RecipeGraph.Proofs.References
import RecipeGraph.Proofs.Scoping
import RecipeGraph.Proofs.LexicalScope
import RecipeGraph.Proofs.RegularScopes
import RecipeGraph.Proofs.Progress
import RecipeGraph.Proofs.Parallel
import RecipeGraph.Proofs.ParallelLowering
import RecipeGraph.Proofs.Bonds
import RecipeGraph.Proofs.Inclusion
import RecipeGraph.Proofs.Naming
import RecipeGraph.Proofs.Identity
import RecipeGraph.Proofs.Upkeep
import RecipeGraph.Proofs.Uniqueness
import RecipeGraph.Proofs.Copies
import RecipeGraph.Proofs.Cache
import RecipeGraph.Proofs.Renumbering
import RecipeGraph.Proofs.Dependence
import RecipeGraph.Proofs.Ledger
import RecipeGraph.Proofs.Meaning
import RecipeGraph.Proofs.Comparison
import RecipeGraph.Proofs.ComparedLowering
import RecipeGraph.Proofs.Bookkeeping
import RecipeGraph.Proofs.Foresight
import RecipeGraph.Proofs.OwnLoading
import RecipeGraph.Proofs.RequestOrder
import RecipeGraph.Proofs.Transparency
import RecipeGraph.Proofs.Duplication
import RecipeGraph.Proofs.FetchOrder
import RecipeGraph.Proofs.Acceptance
import RecipeGraph.Proofs.ReadingSteps
import RecipeGraph.Proofs.Viability
import RecipeGraph.Proofs.HiddenBreaks
import RecipeGraph.Proofs.Comments
import RecipeGraph.Proofs.ReadingBack
import RecipeGraph.Proofs.ProperRecipes
import RecipeGraph.Proofs.Nesting
import RecipeGraph.Proofs.Inventory
import RecipeGraph.Proofs.SameBinding
import RecipeGraph.Proofs.Ancestry
import RecipeGraph.Proofs.NameMaps
import RecipeGraph.Proofs.Extension
import RecipeGraph.Proofs.Stability
import RecipeGraph.Proofs.SideBySide
import RecipeGraph.Proofs.Notes
import RecipeGraph.Proofs.Surroundings
import RecipeGraph.Proofs.Endurance
import RecipeGraph.Proofs.Isolation
import RecipeGraph.Proofs.Repetition
import RecipeGraph.Proofs.Reach
import RecipeGraph.Proofs.Depiction
import RecipeGraph.Proofs.Duplicates
import RecipeGraph.Proofs.Belongings
import RecipeGraph.Proofs.Absorption
import RecipeGraph.Proofs.Relocation
import RecipeGraph.Proofs.Ownership
import RecipeGraph.Proofs.Giving
import RecipeGraph.Proofs.Archives
import RecipeGraph.Proofs.Regions
import RecipeGraph.Proofs.Independence
import RecipeGraph.Proofs.Annexes
import RecipeGraph.Proofs.Seclusion
import RecipeGraph.Proofs.Standpoint
import RecipeGraph.Proofs.Likeness
import RecipeGraph.Proofs.InPlaceLowering
import RecipeGraph.Proofs.Locations
import RecipeGraph.Proofs.Referrals
import RecipeGraph.Proofs.Quotations
import RecipeGraph.Proofs.SourceOrder
import RecipeGraph.Proofs.Cascade
import RecipeGraph.Proofs.ShownLines
import RecipeGraph.Proofs.OpenBrackets
import RecipeGraph.Proofs.ClosingAdvice
import RecipeGraph.Proofs.Separators
import RecipeGraph.Proofs.Separating
import RecipeGraph.Proofs.SeparatorAdvice
import RecipeGraph.Proofs.NamedPackages
import RecipeGraph.Proofs.Census
import RecipeGraph.Proofs.Awaiting
import RecipeGraph.Proofs.Lossless
import RecipeGraph.Proofs.Clearing
