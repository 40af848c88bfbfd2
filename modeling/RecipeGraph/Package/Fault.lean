import RecipeGraph.Package.Address

/-!
Why a package could not be brought in.
-/
namespace RecipeGraph.Package

inductive Fault
  /-- The package is being brought in already, further out. -/
  | circular (location : String)
  | extension (location : String)
  | unfetched (location reason : String)
  /-- The location is a web address with a flaw. -/
  | misaddressed (flaw : Address.Flaw)
  /-- The fetching broke down with a message of its own. -/
  | broken (text : String)
  /-- The package is being compiled by someone who does not count as further out. -/
  | loading (location : String)
  deriving DecidableEq, Repr

def fileExtension : String := ".fiz"

def Fault.message : Fault → String
  | circular location => "Circular import of package '" ++ location ++ "'"
  | extension location =>
      "Package '" ++ location ++ "' missing file extension " ++ fileExtension
  | unfetched location reason =>
      "Failed to fetch package from '" ++ location ++ "': " ++ reason
  | misaddressed flaw => flaw.message
  | broken text => text
  | loading location => "Package '" ++ location ++ "' is still loading"

/-- Why no request is made at all: the location is on the way to itself, or is no package. -/
def refusal? (location : String) (chain : List String) : Option Fault :=
  if location ∈ chain then some (.circular location)
  else if location.endsWith fileExtension then none
  else some (.extension location)

end RecipeGraph.Package
