import Mathlib.Data.List.DropRight
import Mathlib.Tactic.Common

/-!
# Names of windows

A name is stored as a C string of at most `MPI_MAX_OBJECT_NAME` characters. The C binding copies
it to a buffer of the caller, the Fortran binding through a temporary of its own. Strings are
the bytes before the terminator; what is written includes it.
-/
namespace FoMPI.Window

/-- The string that a block of memory starts with, as `strlen` and `strcpy` see it. -/
def cString (block : List UInt8) : List UInt8 := block.takeWhile (· ≠ 0)

/-- What `strcpy` writes. -/
def terminated (s : List UInt8) : List UInt8 := s ++ [0]

/-- The results of the two calls of `foMPI_Win_set_name`. -/
inductive NameStatus
  | success | abbreviated
  deriving DecidableEq

/-- `foMPI_Win_set_name` of a string: the block in `win->name` and the value returned. -/
def setName (maxObjectName : ℕ) (winName : List UInt8) : List UInt8 × NameStatus :=
  if winName.length > maxObjectName then (terminated (winName.take maxObjectName), .abbreviated)
  else (terminated winName, .success)

/-- The result of `foMPI_Win_get_name`: what it writes to `win_name`, and `*resultlen`. -/
structure GotName where
  written : List UInt8
  resultlen : ℕ

/-- `foMPI_Win_get_name` -/
def getName : Option (List UInt8) → GotName
  | none => { written := [0], resultlen := 0 }
  | some block => { written := terminated (cString block), resultlen := (cString block).length }

/-- The loop that removes the padding, from the last character on. -/
def unpad : List UInt8 → List UInt8
  | [] => []
  | c :: before => if c = 32 then 0 :: unpad before else c :: before

/-- `c_win_name` after the loop in `fompi_win_set_name`. -/
def fortranCopy (winName : List UInt8) : List UInt8 := terminated (unpad winName.reverse).reverse

/-- `fompi_win_set_name` -/
def fortranSetName (maxObjectName : ℕ) (winName : List UInt8) : List UInt8 × NameStatus :=
  setName maxObjectName (cString (fortranCopy winName))

/-- The result of `fompi_win_get_name`: what is written to its temporary, and the caller's characters. -/
structure FortranName where
  temporary : List UInt8
  characters : List UInt8

/-- `fompi_win_get_name` for a variable of `len` characters. -/
def fortranGetName (name : Option (List UInt8)) (len : ℕ) : FortranName :=
  let got := getName name
  let minimum := if got.resultlen > len then len else got.resultlen
  { temporary := got.written
    characters := got.written.take minimum ++ List.replicate (len - minimum) 32 }

/-- How a name is given: a C string, or Fortran characters of any length with any padding. -/
inductive GivenName
  | c (s : List UInt8) (string : 0 ∉ s)
  | fortran (characters : List UInt8)

namespace GivenName

/-- The name meant: the padding of a Fortran name does not count, and a C string ends at a zero. -/
def name : GivenName → List UInt8
  | c s _ => s
  | fortran characters => cString (characters.rdropWhile (· = 32))

/-- The call that sets it. -/
def stored (maxObjectName : ℕ) : GivenName → List UInt8
  | c s _ => (setName maxObjectName s).1
  | fortran characters => (fortranSetName maxObjectName characters).1

end GivenName

/-- Names fit in both bindings: `foMPI_Win_get_name` stays in a buffer of `maxObjectName` bytes and
returns the longest prefix with room for the terminator, and `fompi_win_get_name` stays in its temporary of
`len + 1` bytes and returns that prefix, cut or padded to `len`. -/
structure NameFits (maxObjectName len : ℕ) (given : GivenName) : Prop where
  buffer : (getName (some (given.stored maxObjectName))).written.length ≤ maxObjectName
  prefix_written : cString (getName (some (given.stored maxObjectName))).written = given.name.take (maxObjectName - 1)
  resultlen : (getName (some (given.stored maxObjectName))).resultlen = (given.name.take (maxObjectName - 1)).length
  temporary : (fortranGetName (some (given.stored maxObjectName)) len).temporary.length ≤ len + 1
  characters : (fortranGetName (some (given.stored maxObjectName)) len).characters =
    (given.name.take (maxObjectName - 1)).take len ++
      List.replicate (len - (given.name.take (maxObjectName - 1)).length) 32

section Strings

variable {s block : List UInt8}

theorem zero_notMem_cString : 0 ∉ cString block := fun inside => by
  simpa using List.mem_takeWhile_imp inside

/-- What follows a terminator is not read. -/
theorem cString_append (s rest : List UInt8) : cString (s ++ 0 :: rest) = cString s := by
  induction s with
  | nil => rfl
  | cons c s ih =>
    rw [List.cons_append, cString, cString, List.takeWhile_cons, List.takeWhile_cons]
    split
    · exact congrArg _ ih
    · rfl

theorem cString_of_notMem (string : 0 ∉ s) : cString s = s := by
  refine List.takeWhile_eq_self_iff.mpr fun c inside => ?_
  have other : c ≠ 0 := fun zero => string (zero ▸ inside)
  simpa using other

theorem cString_terminated (string : 0 ∉ s) : cString (terminated s) = s := by
  rw [terminated, cString_append, cString_of_notMem string]

theorem length_terminated : (terminated s).length = s.length + 1 := by
  rw [terminated, List.length_append, List.length_singleton]

/-- The loop turns the padding into zeros and leaves the rest. -/
theorem unpad_eq (characters : List UInt8) :
    (unpad characters.reverse).reverse =
      characters.rdropWhile (· = 32) ++ List.replicate (characters.reverse.takeWhile (· = 32)).length 0 := by
  have loop (cs : List UInt8) :
      unpad cs = List.replicate (cs.takeWhile (· = 32)).length 0 ++ cs.dropWhile (· = 32) := by
    induction cs with
    | nil => rfl
    | cons c before ih =>
      by_cases blank : c = 32
      · simp [unpad, blank, ih, List.replicate_succ]
      · simp [unpad, blank]
  rw [loop, List.reverse_append, List.reverse_replicate, List.rdropWhile]

/-- The Fortran binding passes the name on without its padding. -/
theorem cString_fortranCopy (characters : List UInt8) :
    cString (fortranCopy characters) = cString (characters.rdropWhile (· = 32)) := by
  have zeros (n : ℕ) : List.replicate n (0 : UInt8) ++ [0] = 0 :: List.replicate n 0 := by
    rw [← List.replicate_succ', List.replicate_succ]
  rw [fortranCopy, terminated, unpad_eq, List.append_assoc, zeros, cString_append]

end Strings

section Fit

variable {maxObjectName len : ℕ} {given : GivenName}

theorem GivenName.zero_notMem_name (given : GivenName) : 0 ∉ given.name := by
  cases given with
  | c s string => exact string
  | fortran characters => exact zero_notMem_cString

/-- Both bindings store the name, cut to `maxObjectName` characters. -/
theorem GivenName.stored_eq (given : GivenName) :
    given.stored maxObjectName = terminated (given.name.take maxObjectName) := by
  have cut (s : List UInt8) : (setName maxObjectName s).1 = terminated (s.take maxObjectName) := by
    unfold setName
    split
    · rfl
    · rw [List.take_of_length_le (by omega)]
  cases given with
  | c s _ => exact cut s
  | fortran characters =>
    change (setName maxObjectName (cString (fortranCopy characters))).1 = _
    rw [cut, cString_fortranCopy]
    rfl

/-- The string that `foMPI_Win_get_name` finds. -/
theorem GivenName.cString_stored (given : GivenName) :
    cString (given.stored maxObjectName) = given.name.take maxObjectName := by
  rw [given.stored_eq, cString_terminated fun inside => given.zero_notMem_name (List.mem_of_mem_take inside)]

/-- `foMPI_Win_get_name` writes all that is stored. -/
theorem getName_stored :
    getName (some (given.stored maxObjectName)) =
      { written := terminated (given.name.take maxObjectName), resultlen := (given.name.take maxObjectName).length } := by
  rw [getName, given.cString_stored]

theorem fortranGetName_stored :
    fortranGetName (some (given.stored maxObjectName)) len =
      { temporary := terminated (given.name.take maxObjectName)
        characters := (given.name.take maxObjectName).take len ++
          List.replicate (len - (given.name.take maxObjectName).length) 32 } := by
  rw [fortranGetName, getName_stored]
  generalize given.name.take maxObjectName = s
  have minimum : (if s.length > len then len else s.length) = min len s.length := by
    split <;> omega
  have left : len - min len s.length = len - s.length := by omega
  have taken : (terminated s).take (min len s.length) = s.take len := by
    rw [terminated, List.take_append_of_le_length (by omega), List.take_eq_take_iff]
    omega
  simp only [minimum, left, taken]

/-- Names fit exactly if they are shorter than `MPI_MAX_OBJECT_NAME` and no longer than the Fortran
variable: the limit of the store does not count the terminator, and the limit of the
temporary is not looked at. -/
theorem nameFits_iff (maxObjectName len : ℕ) (given : GivenName) :
    NameFits maxObjectName len given ↔ given.name.length < maxObjectName ∧ given.name.length ≤ len := by
  constructor
  · rintro ⟨buffer, _, _, temporary, _⟩
    rw [getName_stored, length_terminated, List.length_take] at buffer
    rw [fortranGetName_stored, length_terminated, List.length_take] at temporary
    omega
  · rintro ⟨short, fits⟩
    have whole : given.name.take maxObjectName = given.name := List.take_of_length_le (by omega)
    have room : given.name.take (maxObjectName - 1) = given.name := List.take_of_length_le (by omega)
    constructor
    · rw [getName_stored, length_terminated, whole]
      omega
    · rw [getName_stored, whole, room, cString_terminated given.zero_notMem_name]
    · rw [getName_stored, whole, room]
    · rw [fortranGetName_stored, length_terminated, whole]
      omega
    · rw [fortranGetName_stored, whole, room]

/-- A C name of 128 characters where `MPI_MAX_OBJECT_NAME` is 128: the terminator is byte 129 of the
buffer. A Fortran variable of two characters for a name of four: the temporary has three bytes. -/
theorem nameFits_fails_at_limits :
    ¬NameFits 128 200 (.c (List.replicate 128 97) (by simp)) ∧ ¬NameFits 128 2 (.fortran [97, 98, 99, 100, 32]) := by
  refine ⟨fun fits => ?_, fun fits => ?_⟩
  · have buffer := fits.buffer
    rw [getName_stored, length_terminated, List.length_take, GivenName.name, List.length_replicate] at buffer
    exact absurd buffer (by decide)
  · have temporary := fits.temporary
    rw [fortranGetName_stored, length_terminated] at temporary
    exact absurd temporary (by decide)

end Fit

end FoMPI.Window
