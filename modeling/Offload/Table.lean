import Offload.Text.Wrap

/-!
# Tables

Tables of text with a title above them and lines around the cells. Headers are centred. Every column is
four wider than its widest text.
-/

namespace Offload

inductive Align where
  | left
  | center
  | right
  deriving DecidableEq, Repr

structure Column where
  header : String
  align : Align
  deriving DecidableEq, Repr

structure Row where
  cells : List String
  failed : Bool
  deriving DecidableEq, Repr

structure Table where
  title : String
  columns : List Column
  rows : List Row := []
  deriving DecidableEq, Repr

def Align.place (a : Align) (width : Nat) (line : List Char) : List Char :=
  let free := width - Text.width line
  let front := match a with
    | left => 0
    | center => free / 2
    | right => free
  List.replicate front ' ' ++ line ++ List.replicate (free - front) ' '

def Align.block (a : Align) (width : Nat) (lines : List (List Char)) : List (List Char) :=
  lines.map (a.place ((lines.map Text.width).foldl max width))

namespace Table

def addRow (t : Table) (failed : Bool) (cells : List String) : Table :=
  { t with rows := t.rows ++ [⟨cells.take t.columns.length, failed⟩] }

def failedCount (t : Table) : Nat := t.rows.countP Row.failed

def plainLines : List Char → List Char
  | '\r' :: '\n' :: cs => '\n' :: plainLines cs
  | c :: cs => c :: plainLines cs
  | [] => []

def shownText (text : String) : List Char :=
  plainLines (text.toList.flatMap fun c => if c = '\t' then List.replicate 4 ' ' else [c])

def textWidth (text : String) : Nat := ((Text.split '\n' text.toList).map Text.width).foldl max 0

def textHeight (width : Nat) (text : String) : Nat :=
  if width = 0 then 1
  else (Text.split '\n' (plainLines text.toList)).foldl (fun n line => n + Text.lineCount width line) 0

/-- A text in a box, with a margin on both sides. Lines that are too long are broken, and what still does
not fit is cut off. -/
def boxed (a : Align) (margin width height : Nat) (text : String) : List (List Char) :=
  let space := List.replicate margin ' '
  let lines := (Text.split '\n' (Text.wrap (width - 2 * margin) (shownText text))).map (space ++ · ++ space)
  let filled := lines ++ List.replicate (height - lines.length) []
  ((a.block width filled).map (Text.cut width)).take height

def renderTitle (title : String) : String :=
  let space := List.replicate 4 ' '
  let lines := (Text.split '\n' (shownText title)).map (space ++ · ++ space)
  "\n".intercalate ((Align.left.block 0 ([] :: lines ++ [[]])).map String.ofList)

def cellCount (t : Table) : Nat := (t.rows.map fun r => r.cells.length).foldl max 0

def textWidths (t : Table) : List Nat :=
  let texts := t.columns.map Column.header :: t.rows.map Row.cells
  (List.range t.columns.length).map fun c => (texts.map fun row => textWidth (row.getD c "")).foldl max 0

def renderRow (height : Nat) (boxes : List (List (List Char))) : List (List Char) :=
  let boxes := boxes.map (Align.left.block 0)
  (List.range height).map fun k =>
    '│' :: ['│'].intercalate (boxes.map fun box => box.getD k []) ++ ['│']

def rule (first middle last : Char) (widths : List Nat) : List Char :=
  first :: [middle].intercalate (widths.map fun w => List.replicate w '─') ++ [last]

def renderHeaders (t : Table) (widths : List Nat) : List (List Char) :=
  if t.columns.isEmpty then []
  else
    renderRow 1 ((t.columns.zip widths).map fun (c, w) => boxed .center 2 w 1 c.header) ++
      [rule '├' '┼' '┤' widths]

def renderCells (t : Table) (r : Row) : List (List Char) :=
  let cells := ((t.columns.zip t.textWidths).zipIdx.take t.cellCount).map fun ((c, w), k) =>
    (c.align, w, r.cells.getD k "")
  let height := (cells.map fun (_, w, text) => textHeight w text).foldl max 1
  renderRow height (cells.map fun (a, w, text) => boxed a 1 (w + 4) height text)

def renderBody (t : Table) : List String :=
  let widths := t.textWidths.map (· + 4)
  let lines := [rule '┌' '┬' '┐' widths] ++ t.renderHeaders widths ++ t.rows.flatMap t.renderCells ++
    [rule '└' '┴' '┘' widths]
  (Align.left.block 0 lines).map String.ofList

def render (t : Table) : String :=
  if t.rows.isEmpty then "" else renderTitle t.title ++ "\n" ++ "\n".intercalate t.renderBody

end Table

end Offload
