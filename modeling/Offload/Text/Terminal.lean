import Offload.Text.Width

/-!
# Lines on a terminal

A terminal shows some characters of a line, carries out others, and takes the rest for commands that start
with an escape. A line is as wide as what is shown of it.
-/

namespace Offload.Text

inductive Mode where
  | text
  | escape
  | escapeRest
  | control
  | controlRest
  | string
  | system
  | device
  | deviceParameters
  | deviceRest
  | deviceData
  deriving DecidableEq, Repr

def Mode.afterHighByte (b : Nat) : Mode :=
  if b = 0x90 then .device
  else if b = 0x9B then .control
  else if b = 0x9D then .system
  else if b = 0x98 || b = 0x9E || b = 0x9F then .string
  else .text

def Mode.afterEscape (b : Nat) : Mode :=
  if b < 0x20 || b = 0x7F then .escape
  else if b < 0x30 then .escapeRest
  else if b = 0x50 then .device
  else if b = 0x58 || b = 0x5E || b = 0x5F then .string
  else if b = 0x5B then .control
  else if b = 0x5D then .system
  else .text

def Mode.next (m : Mode) (b : Nat) : Mode :=
  if b = 0x18 || b = 0x1A then .text
  else if b = 0x1B then if m = .device then .deviceData else .escape
  else
    match m with
    | .system => if b = 0x07 || b = 0x9C then .text else .system
    | .deviceData => if b = 0x9C then .text else .deviceData
    | _ =>
      if 0x80 ≤ b then afterHighByte b
      else
        match m with
        | .escape => afterEscape b
        | .escapeRest => if b < 0x30 || b = 0x7F then .escapeRest else .text
        | .control =>
          if b < 0x20 || (0x30 ≤ b && b < 0x40) || b = 0x7F then .control
          else if b < 0x30 then .controlRest
          else .text
        | .controlRest => if b < 0x30 || b = 0x7F then .controlRest else .text
        | .device =>
          if 0x08 ≤ b && b ≤ 0x0D then .deviceData
          else if b < 0x20 || b = 0x7F then .device
          else if b < 0x30 then .deviceRest
          else if b < 0x40 then .deviceParameters
          else .deviceData
        | .deviceParameters =>
          if b < 0x20 || (0x30 ≤ b && b < 0x40) || b = 0x7F then .deviceParameters
          else if b < 0x30 then .deviceRest
          else .deviceData
        | .deviceRest => if b < 0x30 || b = 0x7F then .deviceRest else .deviceData
        | m => m

def Mode.obeys (m : Mode) (b : Nat) : Bool :=
  match m with
  | .text => b < 0x20 && b ≠ 0x1B || b = 0x7F
  | .escape | .escapeRest | .control | .controlRest => b < 0x20 && b ≠ 0x1B
  | _ => b = 0x18 || b = 0x1A

def utf8Bytes (c : Char) : List Nat := (String.singleton c).toUTF8.toList.map UInt8.toNat

inductive Token where
  | shown (cluster : List Char)
  | obeyed (c : Char)
  | taken (c : Char)
  deriving DecidableEq, Repr

namespace Token

def chars : Token → List Char
  | shown cluster => cluster
  | obeyed c | taken c => [c]

def width : Token → Nat
  | shown cluster => clusterWidth cluster
  | obeyed _ | taken _ => 0

def isTaken : Token → Bool
  | taken _ => true
  | shown _ | obeyed _ => false

end Token

/-- The tokens of a line. A character beyond ASCII is shown with its cluster and ends every command, except
that the data of a command may hold it. -/
def tokensIn (m : Mode) : List Char → List Token
  | [] => []
  | c :: cs =>
    if c.toNat < 0x80 then
      let token :=
        if m = .text && 0x20 ≤ c.toNat && c.toNat < 0x7F then .shown [c]
        else if m.obeys c.toNat then .obeyed c
        else .taken c
      token :: tokensIn (m.next c.toNat) cs
    else if m = .system || m = .deviceData then .taken c :: tokensIn ((utf8Bytes c).foldl .next m) cs
    else
      let n := clusterTail c cs
      .shown (c :: cs.take n) :: tokensIn .text (cs.drop n)
termination_by cs => cs.length
decreasing_by all_goals simp only [List.length_cons, List.length_drop]; omega

def tokens (line : List Char) : List Token := tokensIn .text line

def width (line : List Char) : Nat := (tokens line).foldl (fun n t => n + t.width) 0

/-- The tokens that fit into a number of columns. Behind the first that does not fit, only commands stay. -/
def cutTokens : Nat → List Token → List Token
  | _, [] => []
  | room, t :: ts =>
    if t.width ≤ room then t :: cutTokens (room - t.width) ts else ts.filter Token.isTaken

def cut (columns : Nat) (line : List Char) : List Char :=
  if width line ≤ columns then line else (cutTokens columns (tokens line)).flatMap Token.chars

end Offload.Text
