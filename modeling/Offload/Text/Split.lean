/-!
# Parts between separators
-/

namespace Offload.Text

def split (sep : Char) : List Char → List (List Char)
  | [] => [[]]
  | c :: cs =>
    if c = sep then [] :: split sep cs
    else
      match split sep cs with
      | [] => [[c]]
      | part :: rest => (c :: part) :: rest

end Offload.Text
