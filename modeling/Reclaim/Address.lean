import Reclaim.Text

set_option autoImplicit false

namespace Reclaim

abbrev Address := Nat

/-- Zero stands for the null pointer wherever a pointer is read as a number. -/
def Address.ofNumber? (n : Nat) : Option Address :=
  if n = 0 then none else some n

def Address.describe (a : Option Address) : String :=
  Text.hexadecimal (a.getD 0)

end Reclaim
