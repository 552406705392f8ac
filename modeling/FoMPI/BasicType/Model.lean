import Mathlib.Data.List.Basic
import Mathlib.Tactic.Common

/-!
# `check_basic_type`

The check of an accumulate that a datatype is made of one predefined type. It takes the
datatype apart with `MPI_Type_get_envelope` and `MPI_Type_get_contents`, with a list of the types that it still has to
look at.
-/
namespace FoMPI.BasicType

/-- What `MPI_Type_get_envelope` returns besides the combiner. -/
structure Envelope where
  numIntegers : ℕ
  numAddresses : ℕ
  numDatatypes : ℕ

/-- The combiners that make a type of one other type, with the counts that their envelopes depend on. -/
inductive Combiner
  | dup
  | contiguous
  | vector
  | hvector
  | indexed (count : ℕ)
  | hindexed (count : ℕ)
  | indexedBlock (count : ℕ)
  | hindexedBlock (count : ℕ)
  | subarray (ndims : ℕ)
  | darray (ndims : ℕ)
  | resized

def Combiner.envelope : Combiner → Envelope
  | dup => ⟨0, 0, 1⟩
  | contiguous => ⟨1, 0, 1⟩
  | vector => ⟨3, 0, 1⟩
  | hvector => ⟨2, 1, 1⟩
  | indexed count => ⟨2 * count + 1, 0, 1⟩
  | hindexed count => ⟨count + 1, count, 1⟩
  | indexedBlock count => ⟨count + 2, 0, 1⟩
  | hindexedBlock count => ⟨2, count, 1⟩
  | subarray ndims => ⟨3 * ndims + 2, 0, 1⟩
  | darray ndims => ⟨4 * ndims + 4, 0, 1⟩
  | resized => ⟨0, 2, 1⟩

/-- `MPI_COMBINER_F90_REAL`, `MPI_COMBINER_F90_COMPLEX` and `MPI_COMBINER_F90_INTEGER`: of no other type -/
inductive F90
  | real
  | complex
  | integer

def F90.envelope : F90 → Envelope
  | real => ⟨2, 0, 0⟩
  | complex => ⟨2, 0, 0⟩
  | integer => ⟨1, 0, 0⟩

/-- A datatype over the predefined types `ν`. -/
inductive DataType (ν : Type)
  | named (x : ν)
  | f90 (kind : F90)
  | derived (combiner : Combiner) (oldtype : DataType ν)
  | struct (blocks : List (DataType ν))

namespace DataType

variable {ν : Type}

/-- `MPI_Type_get_envelope`; that of a struct of `c` blocks is `c + 1`, `c`, `c`. -/
def envelope : DataType ν → Envelope
  | named _ => ⟨0, 0, 0⟩
  | f90 kind => kind.envelope
  | derived combiner _ => combiner.envelope
  | struct blocks => ⟨blocks.length + 1, blocks.length, blocks.length⟩

/-- The datatypes of `MPI_Type_get_contents`. -/
def contents : DataType ν → List (DataType ν)
  | named _ => []
  | f90 _ => []
  | derived _ oldtype => [oldtype]
  | struct blocks => blocks

/-- `MPI_COMBINER_NAMED` -/
def isNamed : DataType ν → Bool
  | named _ => true
  | _ => false

mutual

/-- The predefined types that a datatype is made of. -/
def leaves : DataType ν → List ν
  | named x => [x]
  | f90 _ => []
  | derived _ oldtype => oldtype.leaves
  | struct blocks => blockLeaves blocks

def blockLeaves : List (DataType ν) → List ν
  | [] => []
  | block :: later => block.leaves ++ blockLeaves later

end

end DataType

/-- A handle: the argument of the call, that of a predefined type, or one that `MPI_Type_get_contents` has made for
a derived type. -/
inductive Handle
  | argument
  | predefined
  | obtained (k : ℕ)
  deriving DecidableEq

/-- The number of a handle that has to be freed. -/
def Handle.owned : Handle → Option ℕ
  | obtained k => some k
  | _ => none

/-- `dtype_list_t`, with the datatype that the handle is for. -/
structure Entry (ν : Type) where
  handle : Handle
  type : DataType ν

/-- `max_alloc`, and the entries for which the three arrays are allocated. -/
structure Room where
  maxAlloc : ℕ
  integers : ℕ
  addresses : ℕ
  datatypes : ℕ

namespace Room

/-- The first allocations, of one entry each: that of `array_int` has the size of a handle, which is no less than an
`int`. -/
def init : Room where
  maxAlloc := 1
  integers := 1
  addresses := 1
  datatypes := 1

/-- The reallocations before the contents are fetched. -/
def grow (r : Room) (numIntegers : ℕ) : Room :=
  if numIntegers > r.maxAlloc then
    { maxAlloc := numIntegers, integers := numIntegers, addresses := numIntegers, datatypes := numIntegers }
  else r

/-- The arrays have room for what `MPI_Type_get_contents` writes. -/
structure Holds (r : Room) (e : Envelope) : Prop where
  integers : e.numIntegers ≤ r.integers
  addresses : e.numAddresses ≤ r.addresses
  datatypes : e.numDatatypes ≤ r.datatypes

instance (r : Room) (e : Envelope) : Decidable (r.Holds e) :=
  decidable_of_iff (e.numIntegers ≤ r.integers ∧ e.numAddresses ≤ r.addresses ∧ e.numDatatypes ≤ r.datatypes)
    ⟨fun all => ⟨all.1, all.2.1, all.2.2⟩, fun holds => ⟨holds.1, holds.2, holds.3⟩⟩

end Room

/-- The variables of the function. `obtained`, `freed`, `calls` and `dropped` record the handles made by
`MPI_Type_get_contents` and passed to `MPI_Type_free`, the arrays and the envelope at each call of the former, and
the entries still queued when the list is cleaned up; `overrun` records that a call wrote past the end of an array. -/
structure State (ν : Type) where
  queue : List (Entry ν)
  basicType : Option ν
  flag : Bool
  room : Room
  next : ℕ
  obtained : List ℕ
  freed : List Handle
  calls : List (Room × Envelope)
  dropped : List (Entry ν)
  overrun : Bool

variable {ν : Type}

/-- `basicType` is `none` as long as `init` is 0. -/
def State.init (type : DataType ν) : State ν where
  queue := [⟨.argument, type⟩]
  basicType := none
  flag := true
  room := .init
  next := 0
  obtained := []
  freed := []
  calls := []
  dropped := []
  overrun := false

/-- `array_datatypes` after `MPI_Type_get_contents`: new handles for derived types. -/
def receive : ℕ → List (DataType ν) → List (Entry ν)
  | _, [] => []
  | k, t :: ts => ⟨if t.isNamed then .predefined else .obtained k, t⟩ :: receive (k + 1) ts

def owned (es : List (Entry ν)) : List ℕ := es.filterMap fun e => e.handle.owned

/-- A single datatype takes the place of the entry; otherwise the entry goes, and the datatypes are pushed. -/
def State.requeue (got rest : List (Entry ν)) : List (Entry ν) :=
  match got with
  | [e] => e :: rest
  | _ => got.foldl (fun queue e => e :: queue) rest

/-- The branch of the loop for a type that is not a predefined one, where the arrays have room for its contents. -/
def State.expand (s : State ν) (e : Entry ν) (rest : List (Entry ν)) : State ν :=
  let room := s.room.grow e.type.envelope.numIntegers
  let got := receive s.next e.type.contents
  { s with
    queue := requeue got rest
    room := room
    next := s.next + e.type.contents.length
    obtained := s.obtained ++ owned got
    freed := if e.handle ≠ .argument then s.freed ++ [e.handle] else s.freed
    calls := s.calls ++ [(room, e.type.envelope)] }

/-- Where they have not, `MPI_Type_get_contents` writes past them, and nothing is known of what the call does then. -/
def State.overwrite (s : State ν) (e : Entry ν) : State ν :=
  let room := s.room.grow e.type.envelope.numIntegers
  { s with
    queue := []
    room := room
    calls := s.calls ++ [(room, e.type.envelope)]
    overrun := true }

variable [DecidableEq ν]

/-- The body of the loop. The first predefined type stays in the list and is looked at again. -/
def step (s : State ν) : State ν :=
  match s.queue with
  | [] => s
  | e :: rest =>
    match e.type with
    | .named x =>
      match s.basicType with
      | none => { s with basicType := some x }
      | some b => if b ≠ x then { s with flag := false, queue := [], dropped := rest } else { s with queue := rest }
    | _ =>
      if (s.room.grow e.type.envelope.numIntegers).Holds e.type.envelope then s.expand e rest else s.overwrite e

/-- `while (datatype_list != NULL)`; `none` if the loop is not done after `fuel` tests. -/
def run : ℕ → State ν → Option (State ν)
  | 0, _ => none
  | fuel + 1, s => if s.queue.isEmpty then some s else run fuel (step s)

def checkBasicType (fuel : ℕ) (type : DataType ν) : Option (State ν) := run fuel (.init type)

end FoMPI.BasicType
