/-!
# Shortest decimals

The fewest decimal digits that read back as a given double. A finite positive double is `m · 2^q`; the
reals that round to it form an interval around it, whose ends belong to it when `m` is even. For
1, 2, … 17 digits the two neighbours of the value on that decimal grid are tried in exact arithmetic:
the first grid with a hit wins, and of two hits the nearer one, the even one at equal distance.
-/

namespace Offload.Decimal

/-- The magnitude `mantissa · 2^exponent` of a finite double. `narrow` says that the next double
below is half as far away as the next one above. -/
structure Binary where
  mantissa : Nat
  exponent : Int
  narrow : Bool
  deriving Repr, DecidableEq

/-- A positive decimal `digits · 10^(scale)`, without trailing zeros in `digits`. -/
structure Scaled where
  digits : Nat
  scale : Int
  deriving Repr, DecidableEq

def Binary.ofBits (bits : UInt64) : Binary :=
  let fraction := (bits &&& 0xFFFFFFFFFFFFF).toNat
  let biased := ((bits >>> 52) &&& 0x7FF).toNat
  if biased = 0 then ⟨fraction, -1074, false⟩
  else ⟨fraction + 4503599627370496, (biased : Int) - 1075, fraction = 0 && 1 < biased⟩

/-- `x · 2^e · 10^(-s)` as a fraction: `x` is scaled by the first number and divided by the second. -/
def scaling (e s : Int) : Nat × Nat :=
  (Nat.pow 2 e.toNat * Nat.pow 10 (-s).toNat, Nat.pow 2 (-e).toNat * Nat.pow 10 s.toNat)

def digitCount (n : Nat) : Nat := (Nat.toDigits 10 n).length

/-- The exponent of the first decimal digit: `10^k ≤ m · 2^q < 10^(k+1)` for `m ≠ 0`. -/
def leadingExponent (b : Binary) : Int :=
  let (up, down) := scaling b.exponent 0
  let whole := b.mantissa * up / down
  if whole ≠ 0 then (digitCount whole : Int) - 1
  else
    -- The value is below one: shift it up by a power of ten that makes it an integer of known size.
    let shift := (-b.exponent).toNat
    (digitCount (b.mantissa * Nat.pow 10 shift / down) : Int) - 1 - shift

/-- The points of the grid `10^s` next to the value that lie in its rounding interval, nearest first. -/
def hits (b : Binary) (s : Int) : List Nat :=
  let (up, down) := scaling (b.exponent - 2) s
  let value := 4 * b.mantissa * up
  let low := (if b.narrow then 4 * b.mantissa - 1 else 4 * b.mantissa - 2) * up
  let high := (4 * b.mantissa + 2) * up
  let inside (c : Nat) : Bool :=
    if b.mantissa % 2 = 0 then low ≤ c * down && c * down ≤ high else low < c * down && c * down < high
  let c := value / down
  let toLower := value - c * down
  let toUpper := (c + 1) * down - value
  let lowerFirst := toLower < toUpper || (toLower = toUpper && c % 2 = 0)
  (if lowerFirst then [c, c + 1] else [c + 1, c]).filter inside

def trim (n : Nat) (s : Int) : Scaled :=
  if h : n ≠ 0 ∧ n % 10 = 0 then trim (n / 10) (s + 1) else ⟨n, s⟩
termination_by n
decreasing_by omega

/-- The shortest decimal that rounds to `b`, for a mantissa that is not zero. -/
def shortest (b : Binary) : Scaled :=
  let lead := leadingExponent b
  let grids := (List.range 17).map fun (n : Nat) => lead - n
  match grids.findSome? fun s => (hits b s).head?.map (trim · s) with
  | some d => d
  | none => trim b.mantissa 0

end Offload.Decimal
