import Offload.Text.Printable

/-!
# Quoted text

Text in double quotes, the way messages show names and options. Printable characters stand as they are;
a quote, a backslash and everything unprintable is escaped. A text that is not well formed is a list of
`Piece`s, in which the bytes that belong to no character are kept and shown in hexadecimal.
-/

namespace Offload.Text

/-- A character, or a byte that is part of none. -/
inductive Piece where
  | char (c : Char)
  | byte (b : UInt8)
  deriving DecidableEq, Repr

private def hexDigit (n : Nat) : Char := (Nat.toDigits 16 (n % 16)).headD '0'

def hex (width n : Nat) : String :=
  String.ofList ((List.range width).reverse.map fun i => hexDigit (n / Nat.pow 16 i))

private def named : List (Char × String) :=
  [('"', "\\\""), ('\\', "\\\\"), ('\x07', "\\a"), ('\x08', "\\b"), ('\x0c', "\\f"), ('\n', "\\n"),
    ('\r', "\\r"), ('\t', "\\t"), ('\x0b', "\\v")]

def escape (c : Char) : String :=
  match named.lookup c with
  | some s => s
  | none =>
    if isPrintable c then c.toString
    else if c.toNat < 0x80 then "\\x" ++ hex 2 c.toNat
    else if c.toNat < 0x10000 then "\\u" ++ hex 4 c.toNat
    else "\\U" ++ hex 8 c.toNat

def Piece.escape : Piece → String
  | .char c => Text.escape c
  | .byte b => "\\x" ++ hex 2 b.toNat

def quotePieces (ps : List Piece) : String := "\"" ++ String.join (ps.map Piece.escape) ++ "\""

def quote (s : String) : String := quotePieces (s.toList.map .char)

end Offload.Text
