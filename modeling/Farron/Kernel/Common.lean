import Mathlib.Algebra.Order.Ring.Nat
import Mathlib.Tactic.Common

/-! What the parts of the code have in common: words, constants, the states of a process.

Unsigned words are `Nat`, reduced by `u32` wherever the source's arithmetic can wrap; `int32` is
the conversion to a signed `int`. -/
namespace Farron

def u32 (n : Nat) : Nat := n % 2 ^ 32

/-- A 32-bit word read as a signed `int`. -/
def int32 (n : Nat) : Int := if n % 2 ^ 32 < 2 ^ 31 then (n % 2 ^ 32 : Nat) else (n % 2 ^ 32 : Nat) - 2 ^ 32

/-- A signed `int` stored in an unsigned word. -/
def ofInt (z : Int) : Nat := (z % 2 ^ 32).toNat

theorem u32_of_lt {n : Nat} (h : n < 2 ^ 32) : u32 n = n := Nat.mod_eq_of_lt h

theorem int32_of_lt {n : Nat} (h : n < 2 ^ 31) : int32 n = n := by
  have : n % 2 ^ 32 = n := Nat.mod_eq_of_lt (by omega)
  simp only [int32, this, if_pos h]

theorem ofInt_natCast {n : Nat} (h : n < 2 ^ 32) : ofInt n = n := by
  unfold ofInt
  omega

/-- `NOFILE`. -/
def nofile : Nat := 16

/-- `BSIZE`. -/
def bsize : Nat := 512

@[simp] theorem bsize_eq : bsize = 512 := rfl

def newline : UInt8 := 10

/-- `enum procstate`. -/
inductive ProcState
  | unused
  | sleeping
  | runnable
  | running
  | zombie
  deriving DecidableEq

end Farron
