/-!
# Machine words

Sizes, extents and indices are 64-bit two's complement words. They are kept as integers, and every
operation that can leave the range `[-2^63, 2^63)` brings its result back with `wrap`.
-/

namespace Offload.Word

/-- The integer of `[-2^63, 2^63)` that is congruent to `x` modulo `2^64`. -/
def wrap (x : Int) : Int :=
  if -9223372036854775808 ≤ x ∧ x < 9223372036854775808 then x else x.bmod 18446744073709551616

/-- A word is an integer that `wrap` leaves alone. -/
def InRange (x : Int) : Prop := -9223372036854775808 ≤ x ∧ x < 9223372036854775808

theorem wrap_of_inRange {x : Int} (h : InRange x) : wrap x = x := if_pos h

def add (a b : Int) : Int := wrap (a + b)

def sub (a b : Int) : Int := wrap (a - b)

def mul (a b : Int) : Int := wrap (a * b)

/-- Division toward zero. The divisor is not zero; the one quotient out of range wraps. -/
def quot (a b : Int) : Int := wrap (a.tdiv b)

def rem (a b : Int) : Int := a.tmod b

def floorDiv (a b : Int) : Int :=
  if rem a b ≠ 0 ∧ (decide (a < 0) != decide (b < 0)) then sub (quot a b) 1 else quot a b

def product (xs : List Int) : Int := xs.foldl mul 1

def toUnsigned (x : Int) : Nat := (x % 18446744073709551616).toNat

/-- The word whose unsigned reading is `n` modulo `2^64`. -/
def ofUnsigned (n : Nat) : Int := wrap (n % 18446744073709551616 : Nat)

end Offload.Word
