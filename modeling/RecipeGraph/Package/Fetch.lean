import RecipeGraph.Files.Folder
import RecipeGraph.Package.Web
import RecipeGraph.Package.World
import RecipeGraph.Total

/-!
Fetching the text of a package. A location that starts like a web address is asked for on the
web; any other is the route of a file as seen from a folder.
-/
namespace RecipeGraph.Package

open Files

/-- A reply to an address without a host is nobody's, so that it breaks the fetching down. -/
def receive (address : Address) (reply : Reply) : Except Fault String :=
  if reply.isResponse && !address.isComplete then
    .error (.broken ("unknown url type: " ++ Text.quoted address.target))
  else
    match reply.read with
    | .ok text => .ok text
    | .error reason => .error (.unfetched address.text reason)

def fetchOnline (web : Web) (location : String) : Except Fault String :=
  match Address.ofText location with
  | .error flaw => .error (.misaddressed flaw)
  | .ok address => receive address (web.ask address)

/-- Reads the file at a location as seen from the folder that the base leads to. A route that
cannot be one is no failure to fetch but a breakdown. -/
def fetchFile (read : Route → Except Trouble String) (base : Route) (location : String) :
    Except Fault String :=
  match read ((Route.ofText location).under base) with
  | .ok text => .ok text
  | .error .nullCharacter => .error (.broken Trouble.nullCharacter.message)
  | .error trouble => .error (.unfetched location trouble.message)

def isOnline (location : String) : Bool :=
  location.startsWith "http://" || location.startsWith "https://"

def fetch (web : Web) (read : Route → Except Trouble String) (base : Route) (location : String) :
    Except Fault String :=
  if isOnline location then fetchOnline web location else fetchFile read base location

/-- The library of a tree of files and of the web. Every package in it is named in some text, so
that packages nest no deeper than all texts together are long. -/
def Library.ofFolder (web : Web) (folder : Folder) (base : Route) : Library where
  fetch := Package.fetch web folder.read base
  depth := totalOf (·.2.length) folder.files + totalOf (·.2.body.length) web.pages + 1

end RecipeGraph.Package
