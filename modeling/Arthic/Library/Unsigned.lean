import Mathlib.Algebra.Group.Nat.Defs

namespace Arthic.Unsigned

-- Unsigned arithmetic of width w on natural numbers. A sum is written plainly and
-- reduced once; a difference borrows from the next power of two.
def wrap (w n : Nat) : Nat := n % 2^w
def wrapSub (w a b : Nat) : Nat := (a+2^w-b) % 2^w

theorem wrap_lt (w n : Nat) : wrap w n < 2^w := Nat.mod_lt n (Nat.two_pow_pos w)

theorem wrap_small (small : n < 2^w) : wrap w n = n := Nat.mod_eq_of_lt small

theorem wrapSub_small (ordered : b ≤ a) (small : a < 2^w) : wrapSub w a b = a-b := by
  have split : a+2^w-b = (a-b)+2^w := by omega
  rw [wrapSub,split,Nat.add_mod_right,Nat.mod_eq_of_lt (by omega)]

end Arthic.Unsigned
