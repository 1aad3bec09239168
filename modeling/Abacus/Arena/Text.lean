import Abacus.Arena
import Abacus.Tree.Text

set_option autoImplicit false

/-!
# The written form of an arena

An arena is written as the tree that it stores.
-/

namespace Abacus.Arena

/-- The written form of the expression that an arena stores. -/
def text (a : Arena) (names : List String) : String :=
  match a.tree? with
  | some t => t.text names
  | none => ""

end Abacus.Arena
