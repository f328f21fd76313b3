import Offload.Device.Memory

/-!
# Kernels

The kernel on a device multiplies a matrix of `rows · columns` elements with a vector. Matrix, vector and
result lie behind each other in main memory, four bytes to an element; several tasklets share the rows.
-/

namespace Offload.Device

def chunk : Nat := 128

def maxTasklets : Int := 24

def defaultTasklets : Int := 16

/-- The sizes that the host passes to a kernel, as unsigned 32-bit words. -/
structure Kernel where
  rows : Nat
  columns : Nat
  deriving DecidableEq, Repr

def word32 (n : Int) : Nat := (n % 4294967296).toNat

structure Layout where
  matrix : Nat
  vector : Nat
  result : Nat
  finish : Nat
  deriving DecidableEq, Repr

inductive KernelError where
  | tasklets (count : Int)
  | empty (kernel : Kernel)
  | chunks (columns : Nat)
  | tooLarge (bytes : Nat)
  deriving Repr

def KernelError.message : KernelError → String
  | tasklets n =>
    "invalid number of tasklets " ++ toString n ++ ", it must be between 1 and " ++ toString maxTasklets
  | empty k =>
    "invalid kernel arguments \x7bMSize:" ++ toString k.rows ++ " NSize:" ++ toString k.columns ++
      "\x7d: sizes must be > 0"
  | chunks n =>
    "rows of " ++ toString n ++ " elements must be a multiple of " ++ toString chunk ++
      " to be loaded in chunks"
  | tooLarge bytes =>
    "kernel operands use " ++ Text.renderBytes bytes ++ " of MRAM, only " ++
      Text.renderBytes mainMemory.toNat ++ " available: " ++ tooLargeText

namespace Kernel

def rowsPerTasklet (k : Kernel) (tasklets : Int) : Option Int :=
  if (k.rows : Int) < tasklets then some 1
  else if tasklets = 0 then none
  else some (Word.quot k.rows tasklets)

def singleLoad (k : Kernel) : Bool := k.columns ≤ chunk

def layout (k : Kernel) : Layout :=
  let wrap (n : Nat) : Nat := n % 18446744073709551616
  let matrix := k.rows * k.columns
  { matrix := 0
    vector := wrap (4 * matrix)
    result := wrap (4 * (matrix + k.columns))
    finish := wrap (4 * (matrix + k.columns + k.rows)) }

def validate (k : Kernel) (tasklets : Int) : Except KernelError Unit :=
  if tasklets ≤ 0 ∨ maxTasklets < tasklets then .error (.tasklets tasklets)
  else if k.rows = 0 ∨ k.columns = 0 then .error (.empty k)
  else if ¬k.singleLoad ∧ k.columns % chunk ≠ 0 then .error (.chunks k.columns)
  else if mainMemory.toNat < k.layout.finish then .error (.tooLarge k.layout.finish)
  else .ok ()

end Kernel

end Offload.Device
