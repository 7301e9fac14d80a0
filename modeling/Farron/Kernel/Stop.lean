import Mathlib.Algebra.Order.Ring.Nat

/-! How a kernel thread ends without returning. -/
namespace Farron

/-- Why the kernel stops: a panic, an access outside the object accessed, or a loop
that ran longer than its bound. -/
inductive Stop
  | panic (msg : String)
  | fault (what : String)
  | spin

end Farron
