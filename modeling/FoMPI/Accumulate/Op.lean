import Mathlib.Data.BitVec

/-!
# Predefined operations on integer types

`foMPI_RMA_op` on one element of the integer types it knows, the multi-language
ones included. `MPI_Type_size` gives the bytes of an element; signed arithmetic
wraps as the unsigned one does.
-/
namespace FoMPI.Accumulate

/-- `foMPI_Op`. -/
inductive Op
  | sum | prod | max | min | land | lor | lxor | band | bor | bxor | maxloc | minloc | replace | noOp
  deriving DecidableEq

/-- What `foMPI_RMA_op` and its callers return. -/
inductive Code
  | success | opNotSupported | datatypeNotSupported
  deriving DecidableEq

/-- The predefined integer types, in the order of `foMPI_RMA_op`. -/
inductive IntType
  | int | long | short | unsignedShort | unsigned | unsignedLong | longLongInt | longLong
  | unsignedLongLong | signedChar | unsignedChar | int8 | int16 | int32 | int64
  | uint8 | uint16 | uint32 | uint64
  | integer | integer1 | integer2 | integer4 | integer8
  | aint | offset | count
  deriving DecidableEq

namespace IntType

/-- `MPI_Type_size`. -/
def size : IntType → ℕ
  | signedChar | unsignedChar | int8 | uint8 | integer1 => 1
  | short | unsignedShort | int16 | uint16 | integer2 => 2
  | int | unsigned | int32 | uint32 | integer | integer4 => 4
  | long | unsignedLong | longLongInt | longLong | unsignedLongLong | int64 | uint64 | integer8
  | aint | offset | count => 8

def width (T : IntType) : ℕ := 8 * T.size

def isSigned : IntType → Bool
  | unsignedShort | unsigned | unsignedLong | unsignedLongLong | unsignedChar
  | uint8 | uint16 | uint32 | uint64 => false
  | _ => true

end IntType

section Arms
variable {w : ℕ}

def less (signed : Bool) (a b : BitVec w) : Bool := if signed then a.slt b else a.ult b

def ofBool (b : Bool) : BitVec w := if b then 1 else 0

/-- `m4_OP_foMPI_*`: the value stored in `buf3`. The last four have no integer arm. -/
def m4Op (signed : Bool) (arg1 arg2 : BitVec w) : Op → Option (BitVec w)
  | .min => some (if less signed arg2 arg1 then arg2 else arg1)
  | .max => some (if less signed arg1 arg2 then arg2 else arg1)
  | .sum => some (arg1 + arg2)
  | .prod => some (arg1 * arg2)
  | .land => some (ofBool (arg1 ≠ 0 && arg2 ≠ 0))
  | .band => some (arg1 &&& arg2)
  | .lor => some (ofBool (arg1 ≠ 0 || arg2 ≠ 0))
  | .bor => some (arg1 ||| arg2)
  | .lxor => some (ofBool ((arg1 = 0 : Bool) != (arg2 = 0 : Bool)))
  | .bxor => some (arg1 ^^^ arg2)
  | .maxloc => none
  | .minloc => none
  | .replace => none
  | .noOp => none

/-- A chain of `m4_IF`s in front of `return foMPI_OP_NOT_SUPPORTED`. -/
def m4Chain (arms : List Op) (signed : Bool) (op : Op) (buf3 buf1 buf2 : BitVec w) :
    BitVec w × Code :=
  if op ∈ arms then
    match m4Op signed buf1 buf2 op with
    | some value => (value, .success)
    | none => (buf3, .opNotSupported)
  else (buf3, .opNotSupported)

end Arms

/-- The arms of a C integer type. -/
def cArms : List Op := [.min, .max, .sum, .prod, .land, .band, .lor, .bor, .lxor, .bxor]

/-- The arms of a Fortran integer type and of `MPI_AINT`. -/
def fortranArms : List Op := [.min, .max, .sum, .prod, .band, .bor, .bxor]

/-- `foMPI_RMA_op` on one element: what `buf3` holds afterwards, and the return code. -/
def rmaOp (T : IntType) (op : Op) (buf3 buf1 buf2 : BitVec T.width) : BitVec T.width × Code :=
  match T with
  | .integer | .integer1 | .integer2 | .integer4 | .integer8 | .aint =>
    m4Chain fortranArms T.isSigned op buf3 buf1 buf2
  | .offset =>
    -- no `else` after the arm of `foMPI_BAND`: a second chain runs after the first
    let buf3 := (m4Chain [.min, .max, .sum, .prod, .band] T.isSigned op buf3 buf1 buf2).1
    m4Chain [.bor, .bxor] T.isSigned op buf3 buf1 buf2
  | .count => (buf3, .datatypeNotSupported)
  | _ => m4Chain cArms T.isSigned op buf3 buf1 buf2

section Sum
variable {T : IntType} (buf3 buf1 buf2 : BitVec T.width)

/-- Every integer type that has a case at all is summed up. -/
theorem rmaOp_sum (known : T ≠ .count) : (rmaOp T .sum buf3 buf1 buf2).1 = buf1 + buf2 := by
  cases T <;> first | rfl | contradiction

/-- Success is reported for all of them but `MPI_OFFSET`. -/
theorem rmaOp_sum_code (known : T ≠ .count) (whole : T ≠ .offset) :
    (rmaOp T .sum buf3 buf1 buf2).2 = .success := by
  cases T <;> first | rfl | contradiction

end Sum

end FoMPI.Accumulate
