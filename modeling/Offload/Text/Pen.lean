import Offload.Text.Split

/-!
# Pens

A pen is how a terminal writes: with which marks, in which colours, under which link. Commands in a text
change it. A text that is broken into lines puts the pen down at the end of a line and takes it up again.
-/

namespace Offload.Text

structure Pen where
  /-- Bold, faint, italic, the two kinds of blinking, reversed, concealed, struck through. -/
  marks : List Nat := []
  /-- The kind of underline, zero for none. -/
  underline : Nat := 0
  foreground : List Nat := []
  background : List Nat := []
  underlineColour : List Nat := []
  deriving DecidableEq, Repr

structure Parameter where
  value : Nat
  joined : Bool
  deriving DecidableEq, Repr

namespace Pen

def markCodes : List Nat := [1, 2, 3, 5, 6, 7, 8, 9]

def setMark (p : Pen) (code : Nat) : Pen :=
  { p with marks := markCodes.filter fun m => m = code || p.marks.contains m }

def clearMarks (p : Pen) (codes : List Nat) : Pen :=
  { p with marks := p.marks.filter fun m => !codes.contains m }

def colour? (code : Nat) : List Parameter → Option (List Nat × Nat)
  | kind :: r :: rest =>
    if kind.value = 5 then some ([code, 5, r.value % 256], 2)
    else if kind.value = 2 then
      match rest with
      | g :: b :: _ => some ([code, 2, r.value % 256, g.value % 256, b.value % 256], 4)
      | _ => none
    else none
  | _ => none

def after (p : Pen) (code : Nat) : Pen :=
  if code = 0 then {}
  else if markCodes.contains code then p.setMark code
  else if code = 4 then { p with underline := 1 }
  else if code = 22 then p.clearMarks [1, 2]
  else if code = 23 then p.clearMarks [3]
  else if code = 24 then { p with underline := 0 }
  else if code = 25 then p.clearMarks [5, 6]
  else if code = 27 then p.clearMarks [7]
  else if code = 28 then p.clearMarks [8]
  else if code = 29 then p.clearMarks [9]
  else if (30 ≤ code && code ≤ 37) || (90 ≤ code && code ≤ 97) then { p with foreground := [code] }
  else if code = 39 then { p with foreground := [] }
  else if (40 ≤ code && code ≤ 47) || (100 ≤ code && code ≤ 107) then { p with background := [code] }
  else if code = 49 then { p with background := [] }
  else if code = 59 then { p with underlineColour := [] }
  else p

def step (p : Pen) (first : Parameter) (later : List Parameter) : Pen × Nat :=
  if first.value = 38 || first.value = 48 || first.value = 58 then
    match colour? first.value later with
    | some (c, n) =>
      if first.value = 38 then ({ p with foreground := c }, n)
      else if first.value = 48 then ({ p with background := c }, n)
      else ({ p with underlineColour := c }, n)
    | none => (p, 0)
  else if first.value = 4 && first.joined && !later.isEmpty then
    let kind := (later.head?.map Parameter.value).getD 0
    if kind ≤ 5 then ({ p with underline := kind }, 1) else (p, 0)
  else (p.after first.value, 0)

def read (p : Pen) : List Parameter → Pen
  | [] => p
  | first :: later => read (p.step first later).1 (later.drop (p.step first later).2)
termination_by ps => ps.length
decreasing_by simp only [List.length_cons, List.length_drop]; omega

def leavesBlanks (p : Pen) : Bool := !p.marks.contains 7 && p.background.isEmpty && p.underline = 0

def putDown : String := "\x1b[m"

def takeUp (p : Pen) : String :=
  let underline := match p.underline with
    | 0 => []
    | 1 => ["4"]
    | n => ["4:" ++ toString n]
  let codes := p.marks.map toString ++ underline ++ p.foreground.map toString ++ p.background.map toString ++
    p.underlineColour.map toString
  "\x1b[" ++ ";".intercalate codes ++ "m"

end Pen

def parametersOf (text : List Char) (value : Nat := 0) : List Parameter :=
  match text with
  | [] => [⟨value, false⟩]
  | c :: cs =>
    if c = ';' then ⟨value, false⟩ :: parametersOf cs
    else if c = ':' then ⟨value, true⟩ :: parametersOf cs
    else parametersOf cs (value * 10 + (c.toNat - '0'.toNat))

structure Link where
  parameters : String := ""
  target : String := ""
  deriving DecidableEq, Repr

namespace Link

def read (l : Link) (data : List Char) : Link :=
  match split ';' data with
  | [_, parameters, target] => ⟨String.ofList parameters, String.ofList target⟩
  | _ => l

def takeUp (l : Link) : String := "\x1b]8;" ++ l.parameters ++ ";" ++ l.target ++ "\x07"

def putDown : String := takeUp {}

end Link

end Offload.Text
