import PhpTranspiler.Json
import PhpTranspiler.SyntaxTree

namespace PhpTranspiler

def fieldName? : Json → Option (Option String)
  | .null => some none
  | .text s => some (some s)
  | _ => none

mutual

/-- A node is the list of its kind, whether it is named, its field or null, the two ends of its
place, and its children. -/
def Node.ofJson? : Json → Option Node
  | .list [.text kind, .bool named, field, .integer start, .integer stop, .list children] =>
    (fieldName? field).bind fun field =>
      (Node.listOfJson? children).map (Node.mk kind named field ⟨start.toNat, stop.toNat⟩)
  | _ => none

def Node.listOfJson? : List Json → Option (List Node)
  | [] => some []
  | j :: js => (Node.ofJson? j).bind fun n => (Node.listOfJson? js).map (n :: ·)

end

end PhpTranspiler
