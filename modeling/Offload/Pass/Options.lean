import Offload.Decimal.General
import Offload.Text.Numeral

/-!
# Options in scopes

Options are set for a scope and seen in all scopes below it, unless one of them sets its own value. A
scope is a path, such as `/first/inner`; the separator alone is the outermost scope.
-/

namespace Offload.Pass

inductive OptionValue where
  | str (value : String)
  | int (value : Int)
  | bool (value : Bool)
  | float (value : Float)
  | none
  deriving Inhabited

def OptionValue.kind : OptionValue → String
  | str _ => "string"
  | int _ => "int"
  | bool _ => "bool"
  | float _ => "float64"
  | none => "<nil>"

/-- Values by scope and key, each pair once. -/
structure Params where
  separator : String
  entries : List ((String × String) × OptionValue) := []
  deriving Inhabited

inductive OptionReadError where
  | unreadable (key text scope : String) (reader : Text.Reader) (cause : Text.NumeralError)
  | kind (key scope : String) (value : OptionValue) (reader : Text.Reader)

def readerKind : Text.Reader → String
  | .int => "an int"
  | .bool => "a bool"
  | .float => "a float"

def OptionReadError.message : OptionReadError → String
  | unreadable key text scope reader cause =>
    "option " ++ Text.quote key ++ "=" ++ Text.quote text ++ " in scope " ++ Text.quote scope ++ " is not " ++
      readerKind reader ++ ": " ++ cause.message reader (text.toList.map .char)
  | kind key scope value reader =>
    "option " ++ Text.quote key ++ " in scope " ++ Text.quote scope ++ " has type " ++ value.kind ++
      ", wanted " ++ readerKind reader

namespace Params

def join (p : Params) (parent child : String) : String :=
  if parent = p.separator then p.separator ++ child else parent ++ p.separator ++ child

def set (p : Params) (scope key : String) (value : OptionValue) : Params :=
  { p with entries := put p.entries }
where
  put : List ((String × String) × OptionValue) → List ((String × String) × OptionValue)
    | [] => [((scope, key), value)]
    | (k, v) :: rest => if k = (scope, key) then (k, value) :: rest else (k, v) :: put rest

def beforeLast (separator : List Char) : List Char → Option (List Char)
  | [] => if separator.isEmpty then some [] else none
  | c :: cs =>
    match beforeLast separator cs with
    | some front => some (c :: front)
    | none => if separator.isPrefixOf (c :: cs) then some [] else none

def outer (p : Params) (scope : String) : String :=
  match beforeLast p.separator.toList scope.toList with
  | none | some [] => p.separator
  | some front => String.ofList front

def getFrom (p : Params) (key : String) : Nat → String → Option OptionValue
  | 0, _ => .none
  | fuel + 1, scope =>
    match p.entries.lookup (scope, key) with
    | some value => some value
    | .none => if scope = p.separator ∨ scope = "" then .none else p.getFrom key fuel (p.outer scope)

/-- The value in a scope or the nearest scope around it. Every step outwards is to a shorter scope, or the
last one. -/
def get? (p : Params) (scope key : String) : Option OptionValue := p.getFrom key (scope.length + 2) scope

def getString (p : Params) (scope key default : String) : String :=
  match p.get? scope key with
  | some (.str s) => s
  | _ => default

/-- The default comes with every error. -/
def getInt (p : Params) (scope key : String) : Except OptionReadError (Option Int) :=
  match p.get? scope key with
  | .none => .ok .none
  | some (.int n) => .ok (some n)
  | some (.str s) =>
    match Text.parseInt s.toList with
    | .ok n => .ok (some n)
    | .error e => .error (.unreadable key s scope .int e)
  | some value => .error (.kind key scope value .int)

def getBool (p : Params) (scope key : String) : Except OptionReadError (Option Bool) :=
  match p.get? scope key with
  | .none => .ok .none
  | some (.bool b) => .ok (some b)
  | some (.str s) =>
    match Text.parseBool? s with
    | some b => .ok (some b)
    | .none => .error (.unreadable key s scope .bool .malformed)
  | some value => .error (.kind key scope value .bool)

def sorted (p : Params) : List ((String × String) × OptionValue) :=
  p.entries.mergeSort fun (a, _) (b, _) => a.1 < b.1 || (a.1 = b.1 && a.2 ≤ b.2)

end Params

structure Options where
  params : Params
  scope : String
  deriving Inhabited

namespace Options

def rootScope : String := "/"

def ofValues (name : String) (values : List (String × String)) : Options :=
  let params : Params := { separator := rootScope }
  let scope := params.join rootScope name
  { params := values.foldl (fun p (k, v) => p.set scope k (.str v)) params, scope }

def empty : Options := { params := { separator := rootScope }, scope := rootScope }

def string (o : Options) (key default : String) : String := o.params.getString o.scope key default

def int (o : Options) (key : String) (default : Int) : Except OptionReadError Int := do
  return (← o.params.getInt o.scope key).getD default

def bool (o : Options) (key : String) (default : Bool) : Except OptionReadError Bool := do
  return (← o.params.getBool o.scope key).getD default

end Options

end Offload.Pass
