import Mathlib.Algebra.Ring.Int.Defs

/-! The arithmetic of constant expressions in the patched AIDL compiler: `OverflowGuard<int64_t>` as
    `patches/aidl.patch` leaves it for Linux. -/

namespace BinderIdl.Compiler

/-- `OverflowGuard<int64_t>`: `mValue` and `mOverflowed`. -/
structure OverflowGuard where
  value : BitVec 64
  overflowed : Bool
deriving DecidableEq, Repr

inductive Operator where
  | add
  | sub
  | mul
deriving DecidableEq, Repr

/-- The result in infinite precision. -/
def Operator.exact : Operator → Int → Int → Int
  | .add, a, b => a + b
  | .sub, a, b => a - b
  | .mul, a, b => a * b

/-- `__builtin_*_overflow` with a result of type `int`: the result reduced to that type, and whether it did not fit. -/
def builtinOverflow (exact : Int) : BitVec 32 × Bool :=
  (BitVec.ofInt 32 exact, (BitVec.ofInt 32 exact).toInt != exact)

/-- `*reinterpret_cast<int*>(&out) = v`: the four bytes of `v` replace the lower half of `out`, on the little-endian
    machines that the compiler runs on; the upper half keeps what was there. -/
def storeInt (out : BitVec 64) (v : BitVec 32) : BitVec 64 := out.extractLsb' 32 32 ++ v

namespace OverflowGuard

/-- What the three operators do: `out` is what the uninitialised local holds before. The result is the returned value
    and the guard behind the call. -/
def apply (op : Operator) (g : OverflowGuard) (o out : BitVec 64) : BitVec 64 × OverflowGuard :=
  let (stored, overflowed) := builtinOverflow (op.exact g.value.toInt o.toInt)
  (storeInt out stored, { g with overflowed })

/-- `operator+` -/
def add (g : OverflowGuard) (o out : BitVec 64) : BitVec 64 × OverflowGuard := g.apply .add o out

/-- `operator-` -/
def sub (g : OverflowGuard) (o out : BitVec 64) : BitVec 64 × OverflowGuard := g.apply .sub o out

/-- `operator*` -/
def mul (g : OverflowGuard) (o out : BitVec 64) : BitVec 64 × OverflowGuard := g.apply .mul o out

end OverflowGuard

end BinderIdl.Compiler
