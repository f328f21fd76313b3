import Offload.Text.Quoted

/-!
# Numerals and truth values

Reading integers and truth values from option texts. An integer is a sign or none and decimal digits; it
has to fit a 64-bit word. The digits are read from the left, and the first thing that goes wrong is
reported: a character that is no digit, or a value that no longer fits 64 bits.
-/

namespace Offload.Text

inductive NumeralError where
  | malformed
  | outOfRange
  deriving DecidableEq, Repr

def scanDigits : List Char → Nat → Except NumeralError Nat
  | [], n => .ok n
  | c :: cs, n =>
    if c.isDigit then
      let n := n * 10 + (c.toNat - '0'.toNat)
      if n < 18446744073709551616 then scanDigits cs n else .error .outOfRange
    else .error .malformed

private def unsigned (cs : List Char) : Except NumeralError Nat :=
  if cs.isEmpty then .error .malformed else scanDigits cs 0

def parseInt (s : List Char) : Except NumeralError Int := do
  let (negative, digits) := match s with
    | '+' :: r => (false, r)
    | '-' :: r => (true, r)
    | r => (false, r)
  let n ← unsigned digits
  if negative then
    if n ≤ 9223372036854775808 then pure (-(n : Int)) else .error .outOfRange
  else
    if n < 9223372036854775808 then pure (n : Int) else .error .outOfRange

/-! ## Literals -/

def scanBase (base : Nat) : List Char → Nat → Option Nat
  | [], n => some n
  | '_' :: cs, n => scanBase base cs n
  | c :: cs, n =>
    let digit :=
      if c.isDigit then c.toNat - '0'.toNat
      else if c.isAlpha then c.toLower.toNat - 'a'.toNat + 10
      else base
    if digit < base then scanBase base cs (n * base + digit) else none

/-- Whether every underscore stands between digits; `afterDigit` tells what comes in front. -/
def underscoresFit : Bool → List Char → Bool
  | _, [] => true
  | afterDigit, '_' :: cs => afterDigit && !cs.isEmpty && underscoresFit false cs
  | _, _ :: cs => underscoresFit true cs

/-- A number with its base in front: `0x`, `0o` or `0b`, or a zero for octal. Underscores may divide the
digits. -/
def parseNatLiteral? (cs : List Char) : Option Nat :=
  match cs with
  | [] => none
  | '0' :: c :: d :: rest =>
    match [('b', 2), ('o', 8), ('x', 16)].lookup c.toLower with
    | some base => if underscoresFit true (d :: rest) then scanBase base (d :: rest) 0 else none
    | none => if underscoresFit true (c :: d :: rest) then scanBase 8 (c :: d :: rest) 0 else none
  | '0' :: rest => if underscoresFit true rest then scanBase 8 rest 0 else none
  | _ => if underscoresFit false cs then scanBase 10 cs 0 else none

def parseIntLiteral? (cs : List Char) : Option Int :=
  let (negative, digits) := match cs with
    | '+' :: r => (false, r)
    | '-' :: r => (true, r)
    | r => (false, r)
  match parseNatLiteral? digits with
  | none => none
  | some n =>
    if negative then if n ≤ 9223372036854775808 then some (-(n : Int)) else none
    else if n < 9223372036854775808 then some n else none

/-! ## Truth values -/

def parseBool? (s : String) : Option Bool :=
  if ["1", "t", "T", "TRUE", "true", "True"].contains s then some true
  else if ["0", "f", "F", "FALSE", "false", "False"].contains s then some false
  else none

inductive Reader where
  | int
  | bool
  | float
  deriving DecidableEq, Repr

def Reader.name : Reader → String
  | .int => "strconv.Atoi"
  | .bool => "strconv.ParseBool"
  | .float => "strconv.ParseFloat"

def NumeralError.reason : NumeralError → String
  | .malformed => "invalid syntax"
  | .outOfRange => "value out of range"

def NumeralError.message (e : NumeralError) (reader : Reader) (text : List Piece) : String :=
  reader.name ++ ": parsing " ++ quotePieces text ++ ": " ++ e.reason

end Offload.Text
