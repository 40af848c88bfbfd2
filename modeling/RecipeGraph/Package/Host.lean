import RecipeGraph.Total

/-!
Hosts that are written as numbers. A dotted host is four decimal numbers of eight bits; a colon
host is eight hexadecimal groups of sixteen bits, where two colons stand for one or more groups
of zero and the last two groups may be written as a dotted host.
-/
namespace RecipeGraph.Package.Host

/-- A number of eight bits, written without leading zeros. -/
def isOctet (part : String) : Bool :=
  part.toNat?.any fun n => n ≤ 255 && toString n = part

def isDotted (host : String) : Bool :=
  let parts := host.splitOn "."
  parts.length = 4 && parts.all isOctet

/-- The lengths of the runs of digits before, between and after all other characters. -/
def digitRuns : List Char → List Nat
  | [] => [0]
  | c :: rest =>
      match digitRuns rest with
      | [] => []
      | length :: lengths =>
          if c.isDigit then (length + 1) :: lengths else 0 :: length :: lengths

/-- Is the host four numbers with one character of any kind between each two? A run of digits may
be one number, or more with one of its own digits between each two. -/
def looksDotted (host : String) : Bool :=
  let runs := digitRuns host.toList
  runs.all (0 < ·) && runs.length ≤ 4 && 4 ≤ totalOf (fun length => (length + 1) / 2) runs

def isHexDigit (c : Char) : Bool :=
  c.isDigit || ('a' ≤ c && c ≤ 'f') || ('A' ≤ c && c ≤ 'F')

def isGroup (part : String) : Bool :=
  1 ≤ part.length && part.length ≤ 4 && part.toList.all isHexDigit

/-- How many groups the parts between colons are, if they are groups; a dotted host at the end
counts as two. -/
def countGroups? : List String → Option Nat
  | [] => some 0
  | [last] => if isGroup last then some 1 else if isDotted last then some 2 else none
  | part :: rest => if isGroup part then (countGroups? rest).map (· + 1) else none

/-- The parts of a side of two colons, which may be left empty. -/
def sideParts (side : String) : List String :=
  if side = "" then [] else side.splitOn ":"

def isColonAddress (address : String) : Bool :=
  match address.splitOn "::" with
  | [whole] => countGroups? (whole.splitOn ":") = some 8
  | [left, right] =>
      (sideParts left).all isGroup &&
        (countGroups? (sideParts right)).any fun count => (sideParts left).length + count ≤ 7
  | _ => false

/-- A colon host may name a zone after a percent sign. -/
def isColon (host : String) : Bool :=
  match host.splitOn "%" with
  | [address] => isColonAddress address
  | [address, zone] => zone ≠ "" && isColonAddress address
  | _ => false

end RecipeGraph.Package.Host
