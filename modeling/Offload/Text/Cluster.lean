import Offload.Text.Joining

/-!
# Clusters

A cluster is what a reader takes for one character. It is a character with all that joins it from behind.
-/

namespace Offload.Text

inductive Ending where
  | plain
  | carriageReturn
  | closed
  | leading
  | initial
  | vowel
  | final
  | picture
  | pictureJoiner
  | regional
  deriving DecidableEq, Repr

def Ending.of : Joining → Ending
  | .carriageReturn => .carriageReturn
  | .lineFeed | .control => .closed
  | .leading => .leading
  | .initial => .initial
  | .vowel | .openSyllable => .vowel
  | .final | .closedSyllable => .final
  | .picture => .picture
  | .regional => .regional
  | .other | .mark | .joiner | .spacing => .plain

def Ending.join? : Ending → Joining → Option Ending
  | .carriageReturn, .lineFeed => some .closed
  | .carriageReturn, _ | .closed, _ => none
  | _, .carriageReturn | _, .lineFeed | _, .control => none
  | .initial, .initial => some .initial
  | .initial, .vowel | .initial, .openSyllable => some .vowel
  | .initial, .closedSyllable => some .final
  | .vowel, .vowel => some .vowel
  | .vowel, .final | .final, .final => some .final
  | .picture, .mark => some .picture
  | .picture, .joiner => some .pictureJoiner
  | .pictureJoiner, .picture => some .picture
  | .regional, .regional => some .plain
  | _, .mark | _, .joiner | _, .spacing => some .plain
  | .leading, j => some (.of j)
  | _, _ => none

def joinedAfter (e : Ending) : List Char → Nat
  | [] => 0
  | c :: cs =>
    match e.join? (.of c) with
    | some next => joinedAfter next cs + 1
    | none => 0

def clusterTail (c : Char) (cs : List Char) : Nat := joinedAfter (.of (.of c)) cs

end Offload.Text
