import Offload.Shape
import Offload.Text.ByteSize

/-!
# The memory of a device

Every worker is a device with its own main memory. A buffer on it has to fit, or has to stay below a limit
set by the user.
-/

namespace Offload.Device

def mainMemory : Int := 67108864

structure BufferTooLarge where
  shape : Shape
  needed : Int
  limit : Int
  deriving Repr

def tooLargeText : String := "buffer doesn't fit in the DPU memory"

def BufferTooLarge.message (e : BufferTooLarge) : String :=
  "per-worker buffer " ++ e.shape.render ++ " needs " ++ Text.renderBytes (Word.toUnsigned e.needed) ++
    ", limit is " ++ Text.renderBytes (Word.toUnsigned e.limit) ++ ": " ++ tooLargeText

def checkBuffer (storage : Storage) (s : Shape) (limit : Int) :
    Except ShapeFault (Option BufferTooLarge) := do
  let limit := if limit ≤ 0 then mainMemory else limit
  let size := Word.ofUnsigned (← s.memory storage)
  return if limit < size then some ⟨s, size, limit⟩ else none

inductive LimitError where
  | unreadable (text : String) (cause : Text.ByteSizeError)
  | tooLarge (text : String)
  deriving Repr

def LimitError.message : LimitError → String
  | unreadable text cause => "invalid memory limit " ++ Text.quote text ++ ": " ++ cause.message
  | tooLarge text => "memory limit " ++ Text.quote text ++ " is too large"

def parseLimit (text : String) : Except LimitError Int :=
  match Text.parseBytes text with
  | .error e => .error (.unreadable text e)
  | .ok n => if n < 9223372036854775808 then .ok n else .error (.tooLarge text)

end Offload.Device
