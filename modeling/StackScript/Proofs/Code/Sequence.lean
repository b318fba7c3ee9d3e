import StackScript.Proofs.Parsing.Ending
import StackScript.Proofs.Syntax.Joined

/-!
# The code of one program behind another

Two sequences one behind the other are compiled one after the other.  If nothing is given back
in the first of them, then its code is left at its end, and there the code of the second begins.
-/

namespace StackScript

namespace Statement

end Statement

/-! ## Code without returns -/

/-- The cell is a return. -/
def Cell.Returns : Cell → Prop
  | .op a => a.opcode = .return
  | _ => False

section

variable (locals : List LocalVariable)

end

end StackScript
