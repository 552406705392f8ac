import FoMPI.Foundation.Conversions
import FoMPI.Foundation.FreeList
import FoMPI.Foundation.Transition

/-!
# The handle tables of the Fortran bindings

A Fortran handle is an index of a table of windows or of requests. Free indices are kept in a linked
list; a table that has none left grows by 100 slots. Sizes and indices are `int`s.
-/
namespace FoMPI.Fortran

open FoMPI.Foundation

/-- A table of `glob_info`: `Fortran_Windows` or `Fortran_Requests` (`none` is the null pointer, `none` in a slot the
null handle), its size and its free list. -/
structure Table (ω : Type) where
  slots : Option (ℤ → Option ω)
  sz : ℤ
  free : List ℤ

/-- What `foMPI_Init` leaves. -/
def Table.init {ω : Type} : Table ω where
  slots := none
  sz := 100
  free := []

/-- The loop `for (i = top; i > stop; i--)` around `insert_free_elem`. -/
def insertLoop (free : List ℤ) : ℤ → ℕ → List ℤ
  | _, 0 => free
  | i, n + 1 => insertLoop (i :: free) (i - 1) n

/-- The indices above `stop`, up to `top`, go to the front of the list. -/
def insertAll (free : List ℤ) (top stop : ℤ) : List ℤ := insertLoop free top (top - stop).toNat

/-- `get_free_elem` -/
def getFreeElem : List ℤ → ℤ × List ℤ
  | [] => (-1, [])
  | index :: next => (index, next)

variable {ω ρ : Type}

/-- `get_winidx` and `get_reqidx`. The slots that are added hold nothing yet. -/
def Table.getIdx (t : Table ω) : ℤ × Table ω :=
  match t.slots with
  | none => (0, { t with slots := some fun _ => none, free := insertAll t.free (t.sz - 1) 0 })
  | some _ =>
    let (idx, free) := getFreeElem t.free
    if idx = -1 then
      let sz := asInt (t.sz + 100)
      (t.sz, { t with sz := sz, free := insertAll free (sz - 1) t.sz })
    else (idx, { t with free := free })

/-- A slot after the call that was given its address. -/
def Table.put (t : Table ω) (i : ℤ) (left : Option ω) : Table ω :=
  { t with slots := t.slots.map fun slots => Function.update slots i left }

/-- A table and the handles that the program holds. -/
structure Handles (ω : Type) where
  table : Table ω
  live : List ℤ

namespace Handles

/-- A creation: the new index is the handle, and its slot is filled. -/
def create (h : Handles ω) (object : ω) : Handles ω where
  table := h.table.getIdx.2.put h.table.getIdx.1 (some object)
  live := h.table.getIdx.1 :: h.live

/-- `insert_free_elem`, after which the handle is null. -/
def release (h : Handles ω) (i : ℤ) : Handles ω where
  table := { h.table with free := i :: h.table.free }
  live := h.live.erase i

def put (h : Handles ω) (i : ℤ) (left : Option ω) : Handles ω := { h with table := h.table.put i left }

end Handles

structure State (ω ρ : Type) where
  windows : Handles ω
  requests : Handles ρ

def State.init : State ω ρ where
  windows := ⟨.init, []⟩
  requests := ⟨.init, []⟩

/-- The calls of a program, with what the C function leaves in the slot, its result and the flag of a test. -/
inductive Action (ω ρ : Type)
  | winCreate (win : ω)
  | winFree (i : ℤ) (left : Option ω)
  | requestCreate (request : ρ)
  | requestFree (i : ℤ) (left : Option ρ)
  | wait (i : ℤ) (success : Bool) (left : Option ρ)
  | test (i : ℤ) (success flag : Bool) (left : Option ρ)

/-- The end of `fompi_wait`, `fompi_test` and `fompi_request_free`: a slot that is null gives its index back. -/
def Handles.complete (h : Handles ρ) (i : ℤ) (inspected : Bool) (left : Option ρ) : Handles ρ :=
  if inspected ∧ left.isNone then (h.put i left).release i else h.put i left

/-- Only live handles are passed. -/
def step (s : State ω ρ) : Action ω ρ → Option (State ω ρ)
  | .winCreate win => some { s with windows := s.windows.create win }
  | .winFree i left =>
    if i ∈ s.windows.live then some { s with windows := (s.windows.put i left).release i } else none
  | .requestCreate request => some { s with requests := s.requests.create request }
  | .requestFree i left =>
    if i ∈ s.requests.live then some { s with requests := s.requests.complete i true left } else none
  | .wait i success left =>
    if i ∈ s.requests.live then some { s with requests := s.requests.complete i success left } else none
  | .test i success flag left =>
    if i ∈ s.requests.live then some { s with requests := s.requests.complete i (success && flag) left } else none

end FoMPI.Fortran
