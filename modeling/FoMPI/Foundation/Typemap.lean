import FoMPI.Foundation.Blocks
import Mathlib.Data.List.MinMax
import Mathlib.Data.Int.Interval
import Mathlib.Tactic.Linarith

/-!
# Type maps

A data type is a list of basic elements, each at a displacement, and an extent by which
one item of the type is apart from the next. Size, true extent and extent are different
quantities: elements may overlap, leave gaps and lie in any order, and the extent may be
set to anything. The packed stream of some items is what a serialisation of them would
visit, byte by byte.
-/
namespace FoMPI.Foundation

/-- A type with data in it. -/
structure Typemap where
  entries : List Block
  extent : ℤ
  nonempty : entries ≠ []
  positive : Positive entries

namespace Typemap

variable (d : Typemap)

def size : ℕ := total d.entries

def trueLb : ℤ := (d.entries.map Block.displ).min?.getD 0

def trueUb : ℤ := (d.entries.map fun b => b.displ + (b.blocklen : ℤ)).max?.getD 0

def trueExtent : ℤ := d.trueUb - d.trueLb

/-- The bytes of `count` items, in the order of the packed stream. -/
def stream (count : ℕ) : List ℤ :=
  (List.range count).flatMap fun i : ℕ => (bytes d.entries).map fun x => x + i * d.extent

/-- The part of the packed stream from byte `start` to the byte before `stop`. -/
def packed (count : ℕ) (start stop : ℤ) : List ℤ :=
  ((d.stream count).drop start.toNat).take (stop.toNat - start.toNat)

variable {d} {n : ℕ} {x : ℤ}

theorem size_pos : 0 < d.size := d.positive.total_pos d.nonempty

theorem length_stream (d : Typemap) (n : ℕ) : (d.stream n).length = n * d.size := by
  induction n with
  | zero => simp [stream]
  | succ n ih =>
    rw [stream] at ih ⊢
    rw [List.range_succ, List.flatMap_append, List.length_append, ih]
    simp only [List.flatMap_cons, List.flatMap_nil, List.append_nil, List.length_map, length_bytes, size]
    ring

theorem mem_bytes (mem : x ∈ bytes d.entries) : d.trueLb ≤ x ∧ x < d.trueUb := by
  obtain ⟨b, hb, hx⟩ := List.mem_flatMap.mp mem
  obtain ⟨k, lt, rfl⟩ := List.mem_map.mp hx
  have lt := List.mem_range.mp lt
  have lower : d.trueLb ≤ b.displ := by
    have here : b.displ ∈ d.entries.map Block.displ := List.mem_map_of_mem hb
    obtain ⟨m, hm⟩ := Option.isSome_iff_exists.mp (List.isSome_min?_of_mem here)
    rw [trueLb, hm]
    exact (List.min?_eq_some_iff.mp hm).2 _ here
  have upper : b.displ + b.blocklen ≤ d.trueUb := by
    have here : b.displ + b.blocklen ∈ d.entries.map fun b => b.displ + (b.blocklen : ℤ) :=
      List.mem_map.mpr ⟨b, hb, rfl⟩
    obtain ⟨m, hm⟩ := Option.isSome_iff_exists.mp (List.isSome_max?_of_mem here)
    rw [trueUb, hm]
    exact (List.max?_eq_some_iff.mp hm).2 _ here
  omega

/-- Items that lie one behind the other and share no byte take no more bytes than they span. -/
theorem size_le_span (forward : 0 ≤ d.extent) (apart : (d.stream n).Nodup) (some_items : 1 ≤ n) :
    (n * d.size : ℤ) ≤ (n - 1) * d.extent + d.trueExtent := by
  have inside : (d.stream n).toFinset ⊆ Finset.Ico d.trueLb (d.trueUb + (n - 1) * d.extent) := by
    intro x hx
    obtain ⟨i, hi, hx⟩ := List.mem_flatMap.mp (List.mem_toFinset.mp hx)
    obtain ⟨y, hy, rfl⟩ := List.mem_map.mp hx
    have bounds := mem_bytes hy
    have item : (i : ℤ) ≤ n - 1 := by
      have lt := List.mem_range.mp hi
      omega
    have front : 0 ≤ (i : ℤ) * d.extent := mul_nonneg (Int.natCast_nonneg i) forward
    have back : (i : ℤ) * d.extent ≤ (n - 1) * d.extent := mul_le_mul_of_nonneg_right item forward
    exact Finset.mem_Ico.mpr ⟨by omega, by omega⟩
  have count := Finset.card_le_card inside
  rw [List.toFinset_card_of_nodup apart, length_stream, Int.card_Ico] at count
  have positive : 0 < n * d.size := Nat.mul_pos some_items size_pos
  rw [trueExtent]
  omega

end Typemap

section Runs

/-- Bytes in a row gathered into blocks. -/
def runs : List ℤ → List Block
  | [] => []
  | x :: xs =>
    match runs xs with
    | [] => [⟨x, 1⟩]
    | b :: bs => if b.displ = x + 1 then ⟨x, b.blocklen + 1⟩ :: bs else ⟨x, 1⟩ :: b :: bs

theorem runs_positive (xs : List ℤ) : Positive (runs xs) := by
  induction xs with
  | nil => simp [runs, Positive]
  | cons x xs ih =>
    rw [runs]
    split
    · simp [Positive]
    · rename_i b bs found
      rw [found] at ih
      split
      · exact List.forall_mem_cons.mpr ⟨Nat.succ_pos _, ih.tail⟩
      · exact List.forall_mem_cons.mpr ⟨Nat.one_pos, ih⟩

theorem bytes_runs (xs : List ℤ) : bytes (runs xs) = xs := by
  induction xs with
  | nil => rfl
  | cons x xs ih =>
    have one : (Block.mk x 1).bytes = [x] := by simp [Block.bytes]
    rw [runs]
    split
    · rename_i found
      rw [found] at ih
      obtain rfl : [] = xs := ih
      rw [bytes_cons, one]
      rfl
    · rename_i b bs found
      rw [found] at ih
      split
      · rename_i next
        have longer := Block.bytes_split (b := ⟨x, b.blocklen + 1⟩) (Nat.le_add_left 1 b.blocklen)
        have rest : (⟨x + (1 : ℕ), b.blocklen + 1 - 1⟩ : Block) = b := by
          rw [Nat.add_sub_cancel, Nat.cast_one, ← next]
        rw [rest] at longer
        rw [bytes_cons, longer, List.append_assoc, ← bytes_cons, ih]
        simp
      · rw [bytes_cons, one, ih]
        rfl

end Runs

end FoMPI.Foundation
