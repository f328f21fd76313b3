import Offload.Text.Blank
import Offload.Text.Pen
import Offload.Text.Terminal

/-!
# Breaking lines

A line that is too long is broken at blanks, after hyphens, or inside a word that is longer than a line.
`lineCount` says how many lines a line makes, and `wrap` breaks a text and keeps every line in the pen and
under the link that it would have had unbroken. The two differ in what they take for a blank: only `wrap`
keeps blanks beyond ASCII inside words, so that it may need fewer lines.
-/

namespace Offload.Text

/-! ## Counting lines -/

/-- A line that is being filled: columns that are filled, the blanks and the word that come next, whether
there is such a word at all, and how many lines are full. -/
structure Fill where
  column : Nat := 0
  blanks : Nat := 0
  word : Nat := 0
  inWord : Bool := false
  full : Nat := 0
  deriving DecidableEq, Repr

namespace Fill

def addBlanks (f : Fill) : Fill := { f with column := f.column + f.blanks, blanks := 0 }

def addWord (f : Fill) : Fill :=
  if f.inWord then { f.addBlanks with column := f.addBlanks.column + f.word, word := 0, inWord := false } else f

def breakIf (f : Fill) (limit : Nat) : Fill :=
  if limit < f.column + f.word + f.blanks then { f with column := 0, blanks := 0, full := f.full + 1 } else f

def addBlank (f : Fill) (size : Nat) : Fill := { f.addWord with blanks := f.addWord.blanks + size }

/-- Lengthens the word; one that `filled` says is long enough is put into the line first. -/
def lengthen (f : Fill) (limit width : Nat) (filled : Bool) : Fill :=
  let g := if filled then f.addWord else f
  { g with word := g.word + width, inWord := true }.breakIf limit

def addHyphen (f : Fill) (limit : Nat) : Fill :=
  let g := f.addBlanks
  if limit ≤ g.column + g.word then { g with word := g.word + 1, inWord := true }
  else { g.addWord with column := g.addWord.column + 1 }

/-- A control counts as a character here. A blank beyond ASCII counts as many columns as it has bytes. -/
def add (limit : Nat) (f : Fill) : Token → Fill
  | .taken _ => { f with inWord := true }
  | .obeyed c => if isBlank c then f.addBlank 1 else f.lengthen limit 1 (f.word = limit)
  | .shown cluster =>
    match cluster with
    | [] => f
    | c :: _ =>
      if c = '-' then f.addHyphen limit
      else if isBlank c && c.toNat ≠ 0xA0 then f.addBlank c.utf8Size
      else if c.toNat < 0x80 then f.lengthen limit 1 (f.word = limit)
      else f.lengthen limit (clusterWidth cluster) (limit < f.word + clusterWidth cluster)

end Fill

def lineCount (limit : Nat) (line : List Char) : Nat :=
  if limit = 0 then 1 else ((tokens line).foldl (Fill.add limit) {}).full + 1

/-! ## Breaking a text -/

structure Writing where
  pen : Pen := {}
  link : Link := {}
  deriving DecidableEq, Repr

namespace Writing

def putDown (w : Writing) : String :=
  (if w.pen = {} then "" else Pen.putDown) ++ (if w.link = {} then "" else Link.putDown)

def takeUp (w : Writing) : String :=
  (if w.link = {} then "" else w.link.takeUp) ++ (if w.pen = {} then "" else w.pen.takeUp)

end Writing

/-- How many characters behind an escape belong to its control sequence: parameters, characters that announce
the command, and the command. A sequence that breaks off has no command. -/
def controlLength (cs : List Char) : Nat × Option Char :=
  let marks := (cs.takeWhile fun c => '<' ≤ c && c ≤ '?').length
  let parameters := ((cs.drop marks).takeWhile fun c => c.isDigit || c = ';' || c = ':').length
  let announced := ((cs.drop (marks + parameters)).takeWhile fun c => ' ' ≤ c && c ≤ '/').length
  let n := marks + parameters + announced
  match cs[n]? with
  | some c => if '@' ≤ c && c ≤ '~' then (n + 1, some c) else (n, none)
  | none => (n, none)

/-- How many characters belong to a string of a command. It ends with an escape and a backslash, in a system
command also with a bell, and before any other character that cancels it. -/
def stringLength (system : Bool) : List Char → Nat
  | [] => 0
  | c :: cs =>
    if c.toNat = 0x1B then if cs.head? = some '\\' then 2 else 0
    else if c.toNat = 0x18 || c.toNat = 0x1A then 0
    else if system && c.toNat = 0x07 then 1
    else stringLength system cs + 1

def escapeLength (w : Writing) : List Char → Nat × Writing
  | [] => (0, w)
  | c :: cs =>
    if c = '[' then
      let (n, command) := controlLength cs
      let parameters := cs.take (n - 1)
      if command = some 'm' && parameters.all fun d => d.isDigit || d = ';' || d = ':' then
        (n + 1, { w with pen := w.pen.read (parametersOf parameters) })
      else (n + 1, w)
    else if c = 'P' then
      let (n, command) := controlLength cs
      (n + 1 + if command.isSome then stringLength false (cs.drop n) else 0, w)
    else if c = ']' then
      let n := stringLength true cs
      let data := cs.take n |>.takeWhile fun d => d.toNat ≠ 0x1B && d.toNat ≠ 0x07
      (n + 1, if data.takeWhile Char.isDigit = ['8'] then { w with link := w.link.read data } else w)
    else if c = 'X' || c = '^' || c = '_' then (stringLength false cs + 1, w)
    else
      let n := ((c :: cs).takeWhile fun d => ' ' ≤ d && d ≤ '/').length
      match (c :: cs)[n]? with
      | some d => if '0' ≤ d && d ≤ '~' then (n + 1, w) else (n, w)
      | none => (n, w)

/-- A text that is being broken: what is written, the blanks and the word that come next, and how the next
and the written text are written. -/
structure Breaking where
  written : List Char := []
  column : Nat := 0
  blanks : List Char := []
  word : List Char := []
  wordWidth : Nat := 0
  writing : Writing := {}
  current : Writing := {}
  deriving DecidableEq, Repr

namespace Breaking

def addBlanks (b : Breaking) : Breaking :=
  { b with written := b.written ++ b.blanks, column := b.column + b.blanks.length, blanks := [] }

def addWord (b : Breaking) : Breaking :=
  if b.word.isEmpty then b
  else
    let b := b.addBlanks
    { b with
      written := b.written ++ b.word, column := b.column + b.wordWidth, word := [], wordWidth := 0,
      current := b.writing }

def newLine (b : Breaking) : Breaking :=
  { b with
    written := b.written ++ b.current.putDown.toList ++ ['\n'] ++ b.current.takeUp.toList, column := 0,
    blanks := [] }

/-- Blanks at the end of a line stay if they fit. -/
def endLine (limit : Nat) (b : Breaking) : Breaking :=
  if b.wordWidth ≠ 0 then b.addWord
  else if limit < b.column + b.blanks.length then { b with column := 0, blanks := [] }.addWord
  else { b with written := b.written ++ b.blanks, blanks := [] }.addWord

def lengthen (limit : Nat) (b : Breaking) (cluster : List Char) (width : Nat) : Breaking :=
  let b := if limit < b.wordWidth + width then b.addWord else b
  let b := { b with word := b.word ++ cluster, wordWidth := b.wordWidth + width }
  if limit < b.column + b.wordWidth + b.blanks.length then b.newLine else b

def addPlain (limit : Nat) (b : Breaking) (c : Char) : Breaking :=
  if c = ' ' && b.writing.pen.leavesBlanks then
    let b := b.addWord
    { b with blanks := b.blanks ++ [c] }
  else if c = '-' then
    let b := b.addBlanks
    if b.column + b.wordWidth + 1 ≤ limit then
      let b := b.addWord
      { b with written := b.written ++ [c], column := b.column + 1 }
    else b.lengthen limit [c] 1
  else b.lengthen limit [c] 1

def add (limit : Nat) (b : Breaking) : List Char → Breaking
  | [] => b
  | c :: cs =>
    if c = '\n' then add limit (b.endLine limit).newLine cs
    else if c = '\t' then add limit { b.addWord with blanks := b.addWord.blanks ++ [c] } cs
    else if c.toNat = 0x1B then
      let (n, writing) := escapeLength b.writing cs
      add limit { b with word := b.word ++ c :: cs.take n, writing := writing } (cs.drop n)
    else if c.toNat < 0x20 || c.toNat = 0x7F then add limit { b with word := b.word ++ [c] } cs
    else if c.toNat < 0x80 then add limit (b.addPlain limit c) cs
    else
      let n := clusterTail c cs
      let cluster := c :: cs.take n
      let width := clusterWidth cluster
      if width = 0 then add limit { b with word := b.word ++ cluster } (cs.drop n)
      else add limit (b.lengthen limit cluster width) (cs.drop n)
termination_by cs => cs.length
decreasing_by all_goals simp only [List.length_cons, List.length_drop]; omega

end Breaking

/-- Breaks a text into lines of at most `limit` columns. Without a limit it stays as it is. -/
def wrap (limit : Nat) (text : List Char) : List Char :=
  if limit = 0 then text
  else
    let b := (({} : Breaking).add limit text).endLine limit
    b.written ++ (if b.current.link = {} then "" else Link.putDown).toList ++
      (if b.current.pen = {} then "" else Pen.putDown).toList

end Offload.Text
