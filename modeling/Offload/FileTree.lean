import Offload.Text.Path

/-!
# Trees of files

Directories and text files by their places. A place is the list of names on the way from the root. A path
leads from directory to directory: two dots go up from where the path has come to, so a path is of no use if
any part of it is missing, even one that two dots take back. Writing a file makes the directories above it.
-/

namespace Offload

structure FileTree where
  /-- Where paths start that do not start at the root. -/
  here : List String := []
  files : List (List String × String) := []
  directories : List (List String) := []
  deriving Inhabited

inductive WriteError where
  | unknownUser (cause : Text.UnknownUser)
  | directory (path : String)
  | file (path : String)
  deriving DecidableEq, Repr

def WriteError.message : WriteError → String
  | unknownUser cause => cause.message
  | directory path => "creating directory " ++ Text.quote path
  | file path => "writing " ++ Text.quote path

namespace FileTree

/-- The working directory and those above it are always there. -/
def isDirectory (t : FileTree) (place : List String) : Bool :=
  place == t.here.take place.length || t.directories.contains place

def isFile (t : FileTree) (place : List String) : Bool := (t.files.lookup place).isSome

def isName (name : String) : Bool := name.utf8ByteSize ≤ 255 && !name.toList.contains (Char.ofNat 0)

def start (t : FileTree) (path : String) : List String := if Text.isRooted path then [] else t.here

def partsOf (path : String) : List String := (Text.split '/' path.toList).map String.ofList

def walk (t : FileTree) (place : List String) : List String → Option (List String)
  | [] => some place
  | part :: parts =>
    if part = "" ∨ part = "." then t.walk place parts
    else if part = ".." then t.walk place.dropLast parts
    else if t.isDirectory (place ++ [part]) then t.walk (place ++ [part]) parts
    else none

/-- The place that a path gives to a file, whether or not it is there. No directory is such a place. -/
def filePlace? (t : FileTree) (path : String) : Option (List String) :=
  match (partsOf path).reverse with
  | [] => none
  | name :: above => do
    let place ← t.walk (t.start path) above.reverse
    let place := place ++ [name]
    if ["", ".", ".."].contains name || !isName name || t.isDirectory place then none else some place

def read? (t : FileTree) (path : String) : Option String := (t.filePlace? path).bind fun place => t.files.lookup place

/-- Makes the directories that are missing on the way, up to the first one that cannot be made. -/
def makeDirectories (t : FileTree) (place : List String) : List String → FileTree × Bool
  | [] => (t, true)
  | part :: parts =>
    if part = "" ∨ part = "." then t.makeDirectories place parts
    else if part = ".." then t.makeDirectories place.dropLast parts
    else if t.isDirectory (place ++ [part]) then t.makeDirectories (place ++ [part]) parts
    else if t.isFile (place ++ [part]) || !isName part then (t, false)
    else
      { t with directories := t.directories ++ [place ++ [part]] }.makeDirectories (place ++ [part]) parts

def writeFile? (t : FileTree) (path text : String) : Option FileTree :=
  (t.filePlace? path).map fun place =>
    { t with files := (place, text) :: t.files.filter (·.1 ≠ place) }

def openFile? (t : FileTree) (path : String) : Option FileTree :=
  if (t.read? path).isSome then some t else t.writeFile? path ""

/-- Writes a text and gives the path it was written to. Directories stay even if the file cannot be
written. -/
def writeText (t : FileTree) (home : String) (homeOf : String → Option String) (path text : String) :
    FileTree × Except WriteError String :=
  match Text.expandTilde home homeOf path with
  | .error e => (t, .error (.unknownUser e))
  | .ok path =>
    let above := Text.directory path
    match t.makeDirectories (t.start above) (partsOf above) with
    | (t, false) => (t, .error (.directory above))
    | (t, true) =>
      match t.writeFile? path text with
      | none => (t, .error (.file path))
      | some t => (t, .ok path)

end FileTree

end Offload
