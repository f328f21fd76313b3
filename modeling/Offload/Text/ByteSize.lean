import Offload.Text.Blank
import Offload.Text.Digit
import Offload.Text.Lower
import Offload.Text.Numeral

/-!
# Sizes in bytes

Sizes are written with binary units and two or three significant places, as in `4.0 KiB` or `64 MiB`. They
are read with decimal and binary units, in any mixture of upper and lower case, and with commas between
digits. No result depends on these texts: a limit that is read is any number that fits into a word.
-/

namespace Offload.Text

/-! ## Writing -/

def binaryUnits : List String := ["B", "KiB", "MiB", "GiB", "TiB", "PiB", "EiB"]

/-- The number of tenths, rounded to a whole number; a half goes to the even neighbour. -/
def wholeTenths (tenths : Nat) : Nat :=
  let q := tenths / 10
  let r := tenths % 10
  if 5 < r ∨ (r = 5 ∧ q % 2 = 1) then q + 1 else q

/-- A size with the largest unit that is not larger than it. Below ten units one decimal is kept. -/
def renderBytes (n : Nat) : String :=
  if n < 10 then toString n ++ " B"
  else
    let x := Float.ofNat n
    let e := (x.log / (1024.0 : Float).log).floor.toUInt64.toNat
    let tenths := (x / Float.ofNat (Nat.pow 1024 e) * 10 + 0.5).floor.toUInt64.toNat
    let unit := binaryUnits.getD e "EiB"
    if tenths < 100 then toString (tenths / 10) ++ "." ++ toString (tenths % 10) ++ " " ++ unit
    else toString (wholeTenths tenths) ++ " " ++ unit

/-! ## Reading -/

inductive ByteSizeError where
  | number (text : List Piece) (cause : NumeralError)
  | tooLarge (text : String)
  | unit (name : String)
  deriving DecidableEq, Repr

def ByteSizeError.message : ByteSizeError → String
  | number text cause => cause.message .float text
  | tooLarge text => "too large: " ++ text
  | unit name => "unhandled size name: " ++ name

/-- The units of one name: the decimal ones are powers of a thousand, the binary ones, with an `i`, of 1024. -/
def unitsOf (name : String) (power : Nat) : List (String × Nat) :=
  [(name, Nat.pow 1000 power), (name ++ "b", Nat.pow 1000 power), (name ++ "i", Nat.pow 1024 power),
    (name ++ "ib", Nat.pow 1024 power)]

def sizeUnits : List (String × Nat) :=
  [("", 1), ("b", 1)] ++ unitsOf "k" 1 ++ unitsOf "m" 2 ++ unitsOf "g" 3 ++ unitsOf "t" 4 ++ unitsOf "p" 5 ++
    unitsOf "e" 6

/-- The first `count` bytes of a text. A character that is cut leaves the bytes it has in front. -/
def firstBytes : Nat → List Char → List Piece
  | _, [] => []
  | count, c :: cs =>
    if c.utf8Size ≤ count then .char c :: firstBytes (count - c.utf8Size) cs
    else ((String.utf8EncodeChar c).take count).map .byte

def parseDecimal (ps : List Piece) : Except NumeralError Float :=
  let whole := ps.takeWhile (· ≠ .char '.')
  let fraction := (ps.drop whole.length).drop 1
  match digits whole, digits fraction with
  | some xs, some ys =>
    if xs.isEmpty && ys.isEmpty then .error .malformed
    else
      let mantissa := (xs ++ ys).foldl (fun n d => n * 10 + d) 0
      let x := Float.ofScientific mantissa true ys.length
      if x.isInf then .error .outOfRange else .ok x
  | _, _ => .error .malformed
where
  digits (ps : List Piece) : Option (List Nat) :=
    ps.mapM fun
      | .char c => if c.isDigit then some (c.toNat - '0'.toNat) else none
      | .byte _ => none

/-- The number of bytes that a text denotes: a number and a unit. The number is as many bytes of the text
as it has digits, points and commas in front; commas are then dropped. -/
def parseBytes (text : String) : Except ByteSizeError Nat :=
  let cs := text.toList
  let count := (cs.takeWhile fun c => isDecimalDigit c || c == '.' || c == ',').length
  let number := (firstBytes count cs).filter (· ≠ .char ',')
  match parseDecimal number with
  | .error e => .error (.number number e)
  | .ok x =>
    let name := lower (String.ofList (trim (cs.drop count)))
    match sizeUnits.lookup name with
    | none => .error (.unit name)
    | some unit =>
      let x := x * Float.ofNat unit
      if x ≥ 18446744073709551616.0 then .error (.tooLarge text) else .ok x.toUInt64.toNat

end Offload.Text
