import UCore.Machine

/-!
Contract: the multiplicative hash of `libs/hash.c`.

Owns: `hash32`.
-/

set_option autoImplicit false

namespace UCore.Libs

/-- A hash value of `bits` bits. -/
def hash32 (value bits : Nat) : Nat := u32 (value * 0x9e370001) / 2 ^ (32 - bits)

end UCore.Libs
