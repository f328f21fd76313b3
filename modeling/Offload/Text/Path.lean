import Offload.Text.Quoted
import Offload.Text.Split

/-!
# Paths

Paths with slashes, cleaned of all that does not count: empty parts, single dots, and parts that two dots
take back. A tilde in front stands for a home directory.
-/

namespace Offload.Text

/-- Adds one part to the parts of a path, latest first. Two dots take the latest part back, and stay if
there is none, unless the path starts at the root. -/
def stepPath (rooted : Bool) (parts : List String) (part : String) : List String :=
  if part = "" ∨ part = "." then parts
  else if part = ".." then
    match parts with
    | [] => if rooted then [] else [".."]
    | latest :: rest => if latest = ".." then ".." :: parts else rest
  else part :: parts

def isRooted (path : String) : Bool := path.toList.head? = some '/'

def pathParts (path : String) : List String :=
  let parts := (split '/' path.toList).map String.ofList
  (parts.foldl (stepPath (isRooted path)) []).reverse

def cleanPath (path : String) : String :=
  let text := "/".intercalate (pathParts path)
  if isRooted path then "/" ++ text else if text.isEmpty then "." else text

def joinPath (front back : String) : String :=
  if front.isEmpty ∧ back.isEmpty then ""
  else if front.isEmpty then cleanPath back
  else cleanPath (front ++ "/" ++ back)

def directory (path : String) : String :=
  cleanPath (String.ofList (path.toList.reverse.dropWhile (· ≠ '/')).reverse)

structure UnknownUser where
  path : String
  user : String
  deriving DecidableEq, Repr

def UnknownUser.message (e : UnknownUser) : String :=
  "failed to lookup home directory for user in path " ++ quote e.path ++ ": user: unknown user " ++ e.user

def expandTilde (home : String) (homeOf : String → Option String) (path : String) :
    Except UnknownUser String :=
  match path.toList with
  | '~' :: rest =>
    let user := String.ofList (rest.takeWhile (· ≠ '/'))
    let back := String.ofList (rest.dropWhile (· ≠ '/'))
    if user.isEmpty then .ok (joinPath home back)
    else
      match homeOf user with
      | some h => .ok (joinPath h back)
      | none => .error ⟨path, user⟩
  | _ => .ok path

end Offload.Text
