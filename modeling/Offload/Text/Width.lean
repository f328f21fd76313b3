import Offload.Text.Cluster

/-!
# Width on a terminal

Ideographs and most pictures take two columns. Controls and marks take none. Everything else takes one,
except two dashes that are wider.
-/

namespace Offload.Text

def wideRuns : List Nat :=
  [
    4352,96,4538,2,13,2,190,4,3,1,2,1,521,2,21,2,50,12,43,1,19,1,13,1,8,2,17,2,5,2,8,1,5,1,21,1,7,2,1,1,4,1,2,1,7,1,4,
    2,28,1,35,1,1,1,4,3,1,1,61,3,24,1,14,1,859,2,51,1,4,1,810,26,1,89,12,214,26,12,4,63,2,86,2,103,5,43,1,94,1,84,12,
    47,1,40,8,7024,64,22157,3,55,1177,29,643,11172,8540,512,784,10,22,35,1,19,1,4,149,96,127,7,28665,5,11,2,14,6136,8,
    1238,42,9,8935,4,1,7,1,2,1,291,15,1,29,3,2,1,14,4,8,396,15624,1,202,1,190,1,2,10,101,3,13,44,4,9,7,2,14,6,154,33,
    12,9,1,70,1,22,12,43,4,5,12,17,3,1,3,71,1,1,1,187,2,63,13,4,1,24,18,1,26,2,13,1,86,85,48,70,6,1,3,3,2,3,4,4,11,2,7,
    9,227,12,4,1,283,47,1,10,1,185,112,13,3,9,7,46,1,7,8,14,4,9,7,9,1287,65534,2,65534]

def colouredRuns : List Nat :=
  [
    8986,2,205,4,3,1,2,1,521,2,21,2,50,12,43,1,19,1,13,1,8,2,17,2,5,2,8,1,5,1,21,1,7,2,1,1,4,1,2,1,7,1,4,2,28,1,35,1,1,
    1,4,3,1,1,61,3,24,1,14,1,859,2,51,1,4,1,115886,1,202,1,190,1,2,10,75,26,1,1,24,1,20,1,2,5,1,3,21,2,174,33,12,9,1,
    70,1,22,12,43,4,5,12,17,3,1,3,71,1,1,1,187,2,63,13,4,1,24,18,1,26,2,13,1,86,85,48,70,6,1,3,3,2,3,4,4,11,2,7,9,227,
    12,4,1,283,47,1,10,1,185,112,13,3,9,7,46,1,7,8,14,4,9,7,9]

def charWidth (c : Char) : Nat :=
  match Joining.of c with
  | .control | .carriageReturn | .lineFeed | .mark | .joiner => 0
  | .regional => 2
  | .picture => if inRuns colouredRuns c.toNat then 2 else 1
  | _ =>
    if c.toNat = 0x2E3A then 3
    else if c.toNat = 0x2E3B then 4
    else if inRuns wideRuns c.toNat then 2
    else 1

/-- The columns of a picture after a mark: one if the mark asks for text, two if it asks for colour. -/
def pictureWidth (width : Nat) (mark : Char) : Nat :=
  if mark.toNat = 0xFE0E then 1 else if mark.toNat = 0xFE0F then 2 else width

/-- The columns of a cluster. A flag and a syllable are as wide as their first character, a picture is so
unless a mark says otherwise, and in all other clusters the widths add up. -/
def clusterWidth : List Char → Nat
  | [] => 0
  | c :: cs =>
    match Joining.of c with
    | .picture => cs.foldl pictureWidth (charWidth c)
    | .regional | .initial => charWidth c
    | _ => cs.foldl (fun n d => n + charWidth d) (charWidth c)

end Offload.Text
