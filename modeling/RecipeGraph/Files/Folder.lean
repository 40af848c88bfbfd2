import RecipeGraph.Files.Route
import RecipeGraph.Text.Lines

/-!
A tree of files, given by the files alone: a folder is there when a file lies in it or below it.
Routes are walked name by name, and the first name that leads nowhere decides what went wrong.
-/
namespace RecipeGraph.Files

inductive Trouble
  | missing
  | isFolder
  | notFolder
  | nameTooLong
  | nullCharacter
  deriving DecidableEq, Repr

def Trouble.message : Trouble → String
  | missing => "No such file or directory"
  | isFolder => "Is a directory"
  | notFolder => "Not a directory"
  | nameTooLong => "File name too long"
  | nullCharacter => "embedded null byte"

/-- The bytes that a single name may have. -/
def nameLimit : Nat := 255

/-- The bytes that a whole route stays below. -/
def routeLimit : Nat := 4096

/-- Can a text lead to a file as it is written? A slash at its end, with or without a dot after
it, asks for a folder. -/
def namesFile (text : String) : Bool :=
  !text.endsWith "/" && !text.endsWith "/." && text.utf8ByteSize < routeLimit

structure Folder where
  /-- Every file with the names that lead to it. -/
  files : List (List String × String) := []

/-- Where a walk ends. -/
inductive Spot
  | folder
  | file (text : String)
  /-- Nothing is there, but the folder around is. -/
  | vacant
  deriving Repr

namespace Folder

def put (folder : Folder) (names : List String) (text : String) : Folder :=
  ⟨(names, text) :: folder.files.filter (·.1 ≠ names)⟩

def ofList (entries : List (String × String)) : Folder :=
  entries.foldl (fun folder entry => folder.put (Route.ofText entry.1).names entry.2) {}

def fileAt? (folder : Folder) (names : List String) : Option String :=
  folder.files.lookup names

def holdsFolder (folder : Folder) (names : List String) : Bool :=
  folder.files.any fun file => names.isPrefixOf file.1

/-- Walks on from a folder, which is named from the top of the tree. Above the top there are
folders only. The names of the place reached come with it. -/
def walk (folder : Folder) (here : Option (List String)) :
    List String → Except Trouble (Spot × List String)
  | [] => .ok (.folder, here.getD [])
  | name :: rest =>
      if nameLimit < name.utf8ByteSize then .error .nameTooLong
      else if name = ".." then
        walk folder
          (match here with
            | some (first :: further) => some (first :: further).dropLast
            | _ => none)
          rest
      else
        match here with
        | none => .error .missing
        | some names =>
            let next := names ++ [name]
            match folder.fileAt? next with
            | some text => if rest.isEmpty then .ok (.file text, next) else .error .notFolder
            | none =>
                if folder.holdsFolder next then walk folder (some next) rest
                else if rest.isEmpty then .ok (.vacant, next)
                else .error .missing

def locate (folder : Folder) (route : Route) : Except Trouble (Spot × List String) :=
  if '\x00' ∈ route.render.toList then .error .nullCharacter
  else if routeLimit ≤ route.render.utf8ByteSize then .error .nameTooLong
  else folder.walk (if route.absolute then none else some []) route.names

/-- The text of a file, with a line feed for every line end. -/
def read (folder : Folder) (route : Route) : Except Trouble String :=
  match folder.locate route with
  | .error trouble => .error trouble
  | .ok (.folder, _) => .error .isFolder
  | .ok (.vacant, _) => .error .missing
  | .ok (.file text, _) => .ok (Text.readText text)

def write (folder : Folder) (route : Route) (text : String) : Except Trouble Folder :=
  match folder.locate route with
  | .error trouble => .error trouble
  | .ok (.folder, _) => .error .isFolder
  | .ok (_, names) => .ok (folder.put names text)

end Folder

end RecipeGraph.Files
