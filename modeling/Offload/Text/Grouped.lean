/-!
# Grouped digits
-/

namespace Offload.Text

/-- Puts a comma after every third digit; the lowest digit comes first. -/
def groupDigits : List Char → List Char
  | a :: b :: c :: d :: rest => a :: b :: c :: ',' :: groupDigits (d :: rest)
  | cs => cs

def renderGrouped (n : Nat) : String := String.ofList (groupDigits (toString n).toList.reverse).reverse

end Offload.Text
