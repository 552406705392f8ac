import FoMPI.Accumulate.Op
import FoMPI.Foundation.Footprint

/-!
# Predefined operations on buffers

`foMPI_RMA_op` with its three pointers, for every datatype it has a case for. A field
of a C type is kept whole at the address of its first byte; the arithmetic of the C
types is the parameter `Machine`.
-/
namespace FoMPI.Combine
open FoMPI.Accumulate FoMPI.Foundation

/-- The predefined datatypes. `other` has no case in `foMPI_RMA_op`, for example `MPI_CHAR`. -/
inductive BasicType
  | integer (T : IntType)
  | float | double | real | doublePrecision | longDouble | real4 | real8 | real16
  | logical | cBool
  | complex | cComplex | cFloatComplex | cDoubleComplex | cLongDoubleComplex | doubleComplex
  | complex8 | complex16 | complex32
  | byte
  | twoReal | twoDoublePrecision | twoInteger
  | floatInt | doubleInt | longInt | twoInt | shortInt | longDoubleInt
  | other (bytes : ℕ)
  deriving DecidableEq

/-- What the macros leave of a type. -/
inductive Expansion
  /-- `m4_IF`s: a chain without a last `else`, if any, and one that ends in
  `return foMPI_OP_NOT_SUPPORTED`. -/
  | scalar (unfinished chain : List Op)
  /-- `m4_COMPSUMIF` and `m4_COMPPRODIF` -/
  | fortranComplex
  /-- `m4_C_COMPSUMIF` and `m4_C_COMPPRODIF` -/
  | cComplex
  /-- `m4_LOCIF`s -/
  | pair
  | missing
  deriving DecidableEq

namespace BasicType

def expansion : BasicType → Expansion
  | integer .integer | integer .integer1 | integer .integer2 | integer .integer4 | integer .integer8
  | integer .aint => .scalar [] fortranArms
  | integer .offset => .scalar [.min, .max, .sum, .prod, .band] [.bor, .bxor]
  | integer .count => .missing
  | integer _ => .scalar [] cArms
  | float | double | real | doublePrecision | longDouble | real4 | real8 | real16 =>
    .scalar [] [.min, .max, .sum, .prod]
  | logical | cBool => .scalar [.land, .lor, .lxor] []
  | complex | doubleComplex | complex8 | complex16 | complex32 => .fortranComplex
  | cComplex | cFloatComplex | cDoubleComplex | cLongDoubleComplex => .cComplex
  | byte => .scalar [] [.band, .bor, .bxor]
  | twoReal | twoDoublePrecision | twoInteger | floatInt | doubleInt | longInt | twoInt | shortInt
  | longDoubleInt => .pair
  | other _ => .missing

/-- `MPI_Type_size`. -/
def size : BasicType → ℕ
  | integer T => T.size
  | cBool | byte => 1
  | float | real | real4 | logical => 4
  | shortInt => 6
  | double | doublePrecision | real8 | complex | cComplex | cFloatComplex | complex8 | twoReal
  | twoInteger | floatInt | twoInt => 8
  | doubleInt | longInt => 12
  | longDouble | real16 | cDoubleComplex | doubleComplex | complex16 | twoDoublePrecision => 16
  | longDoubleInt => 20
  | cLongDoubleComplex | complex32 => 32
  | other bytes => bytes

/-- `sizeof` of the C type, the step of the pointers. -/
def extent : BasicType → ℕ
  | shortInt => 8
  | doubleInt | longInt => 16
  | longDoubleInt => 32
  | T => T.size

/-- The offset of `imag` or `rank`. -/
def second : BasicType → ℕ
  | shortInt | floatInt | twoInt | twoInteger | twoReal | complex | cComplex | cFloatComplex
  | complex8 => 4
  | longDoubleInt | cLongDoubleComplex | complex32 => 16
  | _ => 8

end BasicType

/-- The arithmetic of a C type, on what is stored. -/
structure Arith (V : Type*) where
  lt : V → V → Bool
  add : V → V → V
  sub : V → V → V
  mul : V → V → V
  band : V → V → V
  bor : V → V → V
  bxor : V → V → V
  isTrue : V → Bool
  ofBool : Bool → V

structure Machine (V : Type*) where
  /-- of the type, or of its first field -/
  arith : BasicType → Arith V
  /-- of the field `rank` -/
  rankLt : BasicType → V → V → Bool

/-- The buffers of a call. `buffer` is the one from `_foMPI_ALLOC`. -/
inductive Buffer
  | origin | result | buffer | target
  deriving DecidableEq

structure Loc where
  buffer : Buffer
  addr : ℤ
  deriving DecidableEq

def Loc.shift (p : Loc) (d : ℤ) : Loc := ⟨p.buffer, p.addr + d⟩

abbrev Memory (V : Type*) := Loc → V

variable {V : Type*}

/-- `*p = v`. -/
def Memory.store (m : Memory V) (p : Loc) (v : V) : Memory V := Function.update m p v

/-- `m4_OP_foMPI_*`: the value stored through `buf3`. -/
def Arith.m4Op (A : Arith V) (arg1 arg2 : V) : Op → Option V
  | .min => some (if A.lt arg2 arg1 then arg2 else arg1)
  | .max => some (if A.lt arg1 arg2 then arg2 else arg1)
  | .sum => some (A.add arg1 arg2)
  | .prod => some (A.mul arg1 arg2)
  | .land => some (A.ofBool (A.isTrue arg1 && A.isTrue arg2))
  | .band => some (A.band arg1 arg2)
  | .lor => some (A.ofBool (A.isTrue arg1 || A.isTrue arg2))
  | .bor => some (A.bor arg1 arg2)
  | .lxor => some (A.ofBool (!A.isTrue arg1 != !A.isTrue arg2))
  | .bxor => some (A.bxor arg1 arg2)
  | .maxloc | .minloc | .replace | .noOp => none

section Bodies
variable (M : Machine V) (T : BasicType) (p3 p1 p2 : Loc) (m : Memory V)

/-- The body of `m4_IF`. -/
def ifBody (op : Op) : Memory V :=
  match (M.arith T).m4Op (m p1) (m p2) op with
  | some value => m.store p3 value
  | none => m

/-- `m4_ARG3_VAL = …; m4_ARG3_RANK = …`, from one of the arguments. -/
def copyPair (p : Loc) : Memory V :=
  let m := m.store p3 (m p)
  m.store (p3.shift T.second) (m (p.shift T.second))

/-- The body of `m4_LOCIF(foMPI_MINLOC, …)`. -/
def minlocBody : Memory V :=
  if (M.arith T).lt (m p2) (m p1) then copyPair T p3 m p2
  else if (M.arith T).lt (m p1) (m p2) then copyPair T p3 m p1
  else if M.rankLt T (m (p2.shift T.second)) (m (p1.shift T.second)) then copyPair T p3 m p2
  else copyPair T p3 m p1

/-- The body of `m4_LOCIF(foMPI_MAXLOC, …)`. -/
def maxlocBody : Memory V :=
  if (M.arith T).lt (m p1) (m p2) then copyPair T p3 m p2
  else if (M.arith T).lt (m p2) (m p1) then copyPair T p3 m p1
  else if M.rankLt T (m (p1.shift T.second)) (m (p2.shift T.second)) then copyPair T p3 m p1
  else copyPair T p3 m p2

/-- The body of `m4_COMPSUMIF`. -/
def compSumBody : Memory V :=
  let A := M.arith T
  let m := m.store p3 (A.add (m p2) (m p1))
  m.store (p3.shift T.second) (A.add (m (p2.shift T.second)) (m (p1.shift T.second)))

/-- The body of `m4_COMPPRODIF`: `ptr3->real` is written before `ptr2->real` is read again. -/
def compProdBody : Memory V :=
  let A := M.arith T
  let m := m.store p3 (A.sub (A.mul (m p1) (m p2)) (A.mul (m (p1.shift T.second)) (m (p2.shift T.second))))
  m.store (p3.shift T.second)
    (A.add (A.mul (m p1) (m (p2.shift T.second))) (A.mul (m (p1.shift T.second)) (m p2)))

/-- The body of `m4_C_COMPSUMIF`. -/
def cCompSumBody : Memory V :=
  let A := M.arith T
  let real := A.add (m p2) (m p1)
  let imag := A.add (m (p2.shift T.second)) (m (p1.shift T.second))
  (m.store p3 real).store (p3.shift T.second) imag

/-- The body of `m4_C_COMPPRODIF`. -/
def cCompProdBody : Memory V :=
  let A := M.arith T
  let real := A.sub (A.mul (m p1) (m p2)) (A.mul (m (p1.shift T.second)) (m (p2.shift T.second)))
  let imag := A.add (A.mul (m p1) (m (p2.shift T.second))) (A.mul (m (p1.shift T.second)) (m p2))
  (m.store p3 real).store (p3.shift T.second) imag

/-- `for(i=0; i<count; i++)` around a body. -/
def loop (body : Loc → Loc → Loc → Memory V → Memory V) (count : ℕ) : Memory V :=
  runAll (fun (i : ℕ) m => body (p3.shift (i * T.extent)) (p1.shift (i * T.extent))
    (p2.shift (i * T.extent)) m) (List.range count) m

/-- `foMPI_RMA_op`: the memory afterwards, and the return code. -/
def rmaOp (op : Op) (count : ℕ) : Memory V × Code :=
  let run body := loop T p3 p1 p2 m body count
  match T.expansion with
  | .scalar unfinished chain =>
    let body p3 p1 p2 m := ifBody M T p3 p1 p2 m op
    let m := if op ∈ unfinished then run body else m
    if op ∈ chain then (loop T p3 p1 p2 m body count, .success) else (m, .opNotSupported)
  | .fortranComplex =>
    if op = .sum then (run (compSumBody M T), .success)
    else if op = .prod then (run (compProdBody M T), .success)
    else (m, .opNotSupported)
  | .cComplex =>
    if op = .sum then (run (cCompSumBody M T), .success)
    else if op = .prod then (run (cCompProdBody M T), .success)
    else (m, .opNotSupported)
  | .pair =>
    if op = .maxloc then (run (maxlocBody M T), .success)
    else if op = .minloc then (run (minlocBody M T), .success)
    else (m, .opNotSupported)
  | .missing => (m, .datatypeNotSupported)

end Bodies

section Words
variable {w : ℕ}

/-- Integer types of `w` bits; arithmetic wraps around. -/
def bitVecArith (signed : Bool) : Arith (BitVec w) where
  lt a b := less signed a b
  add := (· + ·)
  sub := (· - ·)
  mul := (· * ·)
  band := (· &&& ·)
  bor := (· ||| ·)
  bxor := (· ^^^ ·)
  isTrue a := a ≠ 0
  ofBool := Accumulate.ofBool

theorem bitVecArith_m4Op (signed : Bool) (arg1 arg2 : BitVec w) (op : Op) :
    (bitVecArith signed).m4Op arg1 arg2 op = Accumulate.m4Op signed arg1 arg2 op := by
  cases op <;> simp [Arith.m4Op, Accumulate.m4Op, bitVecArith]

end Words

end FoMPI.Combine
