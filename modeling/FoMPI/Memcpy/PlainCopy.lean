import FoMPI.Memcpy.Model

/-!
# `sse_memcpy` is a plain copy

The bytes before a block, the blocks and the trailer are copies one behind the other.
-/
namespace FoMPI.Memcpy

open FoMPI.Foundation

variable {β : Type*} {mem : ℤ → β} {aligned : Bool} {a dst src len : ℕ}

section Blocks

/-- The addresses that a move of the loop takes without a fault. -/
def Admitted (aligned : Bool) (a : ℕ) : Prop := aligned → a % 16 = 0

theorem Admitted.add (h : Admitted aligned a) {n : ℕ} (n16 : n % 16 = 0) : Admitted aligned (a + n) := by
  intro on
  have := h on
  omega

theorem loadXmm_eq (h : Admitted aligned a) : loadXmm aligned mem a = some (load mem a 16) :=
  if_neg fun faults => faults.2 (h faults.1)

theorem storeXmm_eq (h : Admitted aligned a) (xmm : List β) :
    storeXmm aligned mem a xmm = some (store mem a xmm) :=
  if_neg fun faults => faults.2 (h faults.1)

/-- The registers hold the bytes in order, 16 each. -/
theorem loadAll_eq {n : ℕ} (h : Admitted aligned a) :
    ∃ xmms, loadAll aligned mem a n = some xmms ∧ xmms.flatten = load mem a (16 * n) ∧
      ∀ xmm ∈ xmms, xmm.length = 16 := by
  induction n generalizing a with
  | zero => exact ⟨[], rfl, rfl, by simp⟩
  | succ n ih =>
    obtain ⟨others, loaded, flat, widths⟩ := ih (h.add (by rfl : 0x10 % 16 = 0))
    refine ⟨load mem a 16 :: others, by simp [loadAll, loadXmm_eq h, loaded], ?_, ?_⟩
    · have next : ((a + 0x10 : ℕ) : ℤ) = a + (16 : ℕ) := by push_cast; rfl
      have total : 16 * (n + 1) = 16 + 16 * n := by omega
      rw [List.flatten_cons, flat, total, load_append, next]
    · simpa using widths

theorem storeAll_eq {xmms : List (List β)} (h : Admitted aligned a) (widths : ∀ xmm ∈ xmms, xmm.length = 16) :
    storeAll aligned mem a xmms = some (store mem a xmms.flatten) := by
  induction xmms generalizing mem a with
  | nil => rfl
  | cons xmm others ih =>
    have width : xmm.length = 16 := widths xmm List.mem_cons_self
    have next : ((a + 0x10 : ℕ) : ℤ) = a + (xmm.length : ℕ) := by rw [width]; push_cast; rfl
    rw [storeAll, storeXmm_eq h, Option.bind_eq_bind, Option.bind_some,
      ih (h.add (by rfl : 0x10 % 16 = 0)) fun y later => widths y (List.mem_cons_of_mem _ later),
      List.flatten_cons, store_append, next]

/-- A block is a copy of 256 bytes, overlap or not: everything is read before anything is written. -/
theorem moveBlock_eq (dstOk : Admitted aligned dst) (srcOk : Admitted aligned src) :
    moveBlock aligned mem dst src = some (copied mem dst src 256) := by
  obtain ⟨xmms, loaded, flat, widths⟩ := @loadAll_eq _ mem aligned src 16 srcOk
  rw [moveBlock, loaded, Option.bind_eq_bind, Option.bind_some, storeAll_eq dstOk widths, flat, copied]

end Blocks

section Masks

theorem and_low (n : ℕ) : n &&& 0xf = n % 16 := Nat.and_two_pow_sub_one_eq_mod n 4

theorem and_byte (n : ℕ) : n &&& 0xff = n % 256 := Nat.and_two_pow_sub_one_eq_mod n 8

theorem sameOffset_iff : sameOffset dst src = true ↔ src % 16 = dst % 16 := by
  have low : (src ^^^ dst) &&& 0xf = src % 16 ^^^ dst % 16 := by
    rw [and_low]
    exact Nat.xor_mod_two_pow (n := 4)
  rw [sameOffset, decide_eq_true_iff, low, Nat.xor_eq_zero_iff]

theorem blocksEnd_eq (small : len < 2 ^ 64) : blocksEnd len = len - len % 256 := by
  have split : len - len % 256 = (len / 256) * 2 ^ 8 := by omega
  rw [split]
  refine Nat.eq_of_testBit_eq fun i => ?_
  have mask : 2 ^ 64 - 0x100 = (2 ^ 56 - 1) * 2 ^ 8 := by rfl
  have high : len / 256 = len >>> 8 := (Nat.shiftRight_eq_div_pow len 8).symm
  rw [blocksEnd, mask, Nat.testBit_and, Nat.testBit_mul_two_pow, Nat.testBit_mul_two_pow,
    Nat.testBit_two_pow_sub_one, high, Nat.testBit_shiftRight]
  by_cases below : 8 ≤ i
  · by_cases wide : i - 8 < 56
    · simp [below, wide]
    · have off : len.testBit i = false :=
        Nat.testBit_lt_two_pow (lt_of_lt_of_le small (Nat.pow_le_pow_right (by omega) (by omega)))
      simp [below, off]
  · simp [below]

end Masks

section Loop

/-- Source and destination of a copy of `n` bytes do not overlap. -/
def Apart (dst src n : ℕ) : Prop := src + n ≤ dst ∨ dst + n ≤ src

/-- The variables after `n` bytes have been copied. -/
def Vars.advance (v : Vars β) (n : ℕ) : Vars β :=
  { v with mem := copied v.mem v.dst v.src n, dst := v.dst + n, src := v.src + n }

@[simp] theorem advance_dst (v : Vars β) (n : ℕ) : (v.advance n).dst = v.dst + n := rfl

@[simp] theorem advance_src (v : Vars β) (n : ℕ) : (v.advance n).src = v.src + n := rfl

@[simp] theorem advance_len (v : Vars β) (n : ℕ) : (v.advance n).len = v.len := rfl

theorem advance_zero (v : Vars β) : v.advance 0 = v := rfl

/-- Copies one behind the other are one copy. -/
theorem copied_advance {n k : ℕ} (v : Vars β) (apart : Apart v.dst v.src (n + k)) :
    copied (v.advance n).mem (v.advance n).dst (v.advance n).src k = copied v.mem v.dst v.src (n + k) := by
  unfold Apart at apart
  unfold Vars.advance
  push_cast
  exact copied_copied fun y low high => by omega

theorem advance_advance {n k : ℕ} (v : Vars β) (apart : Apart v.dst v.src (n + k)) :
    (v.advance n).advance k = v.advance (n + k) := by
  rw [Vars.advance, copied_advance v apart]
  simp only [Vars.advance, Nat.add_assoc]

theorem asSizeT_of_small {k : ℕ} (small : k < 2 ^ 31) : ((k : ℤ) % 2 ^ 64).toNat = k := by omega

/-- With `n` blocks to go the loop copies them and ends, and its counter does not overflow. -/
theorem blockLoop_eq {n fuel k : ℕ} {v : Vars β} (short : v.len < 2 ^ 31) (togo : blocksEnd v.len = k + 256 * n)
    (dstOk : Admitted aligned v.dst) (srcOk : Admitted aligned v.src) (apart : Apart v.dst v.src (256 * n))
    (enough : n < fuel) : blockLoop aligned fuel k v = some (v.advance (256 * n)) := by
  have below : blocksEnd v.len < 2 ^ 31 := by
    have := @blocksEnd_eq v.len (by omega)
    omega
  induction n generalizing fuel k v with
  | zero =>
    obtain ⟨fuel, rfl⟩ := Nat.exists_eq_add_one_of_ne_zero (Nat.ne_of_gt enough)
    have done : ¬((k : ℤ) % 2 ^ 64).toNat < blocksEnd v.len := by
      rw [asSizeT_of_small (by omega)]
      omega
    rw [blockLoop, if_neg done, Nat.mul_zero, advance_zero]
  | succ n ih =>
    obtain ⟨fuel, rfl⟩ := Nat.exists_eq_add_one_of_ne_zero (show fuel ≠ 0 by omega)
    have more : ((k : ℤ) % 2 ^ 64).toNat < blocksEnd v.len := by
      rw [asSizeT_of_small (by omega)]
      omega
    have counter : ((k : ℤ) + 256).bmod (2 ^ 32) = ((k + 256 : ℕ) : ℤ) := by
      rw [Int.bmod_eq_of_le] <;> push_cast <;> omega
    have split : 256 * (n + 1) = 256 + 256 * n := by omega
    rw [split] at apart togo ⊢
    rw [blockLoop, if_pos more, moveBlock_eq dstOk srcOk, Option.bind_eq_bind, Option.bind_some, counter,
      ← advance_advance v apart]
    refine @ih fuel (k + 256) (v.advance 256) short ?_ (dstOk.add rfl) (srcOk.add rfl) ?_ (by omega) below
    · exact togo.trans (by omega)
    · rw [Apart, advance_dst, advance_src]
      unfold Apart at apart
      omega

theorem blockLoop_done {fuel : ℕ} {v : Vars β} (short : v.len < 256) (enough : 0 < fuel) :
    blockLoop aligned fuel 0 v = some v := by
  obtain ⟨fuel, rfl⟩ := Nat.exists_eq_add_one_of_ne_zero (Nat.ne_of_gt enough)
  have none : blocksEnd v.len = 0 := by
    rw [blocksEnd_eq (by omega)]
    omega
  rw [blockLoop, none, if_neg (Nat.not_lt_zero _)]

/-- From the start of a loop on, the rest is copied. -/
theorem trailer_blockLoop {fuel : ℕ} {v : Vars β} (short : v.len < 2 ^ 31)
    (ok : 256 ≤ v.len → Admitted aligned v.dst ∧ Admitted aligned v.src) (apart : Apart v.dst v.src v.len)
    (enough : v.len / 256 < fuel) :
    (blockLoop aligned fuel 0 v).map trailer = some (copied v.mem v.dst v.src v.len) := by
  have total : v.len = 256 * (v.len / 256) + v.len % 256 := by omega
  have looped : blockLoop aligned fuel 0 v = some (v.advance (256 * (v.len / 256))) := by
    by_cases long : 256 ≤ v.len
    · refine @blockLoop_eq _ _ _ _ 0 v short ?_ (ok long).1 (ok long).2 ?_ enough
      · rw [blocksEnd_eq (by omega)]
        omega
      · unfold Apart at *
        omega
    · have none : v.len / 256 = 0 := by omega
      rw [blockLoop_done (by omega) (by omega), none, Nat.mul_zero, advance_zero]
  rw [looped, Option.map_some, trailer, memcpy, and_byte, advance_len, copied_advance v (total ▸ apart), ← total]

end Loop

section Prologue

variable {v : Vars β}

/-- What the prologue copies. -/
def prologueBytes (v : Vars β) : ℕ := if v.src % 16 = 0 then 0 else min (16 - v.src % 16) v.len

theorem prologue_eq : prologue v = { v.advance (prologueBytes v) with len := v.len - prologueBytes v } := by
  rw [prologue, prologueBytes, and_low]
  by_cases onBoundary : v.src % 16 = 0
  · rw [if_neg (not_not.mpr onBoundary), if_pos onBoundary]
    rfl
  · have clipped : chunk v.src v.len = min (16 - v.src % 16) v.len := by
      rw [chunk, and_low]
      split <;> omega
    rw [if_pos onBoundary, if_neg onBoundary, clipped]
    rfl

theorem prologueBytes_le : prologueBytes v ≤ v.len := by
  unfold prologueBytes
  split <;> omega

/-- The source is on a boundary after the prologue unless the prologue copied everything. -/
theorem prologueBytes_boundary (more : prologueBytes v < v.len) : (v.src + prologueBytes v) % 16 = 0 := by
  unfold prologueBytes at *
  split at more <;> rename_i boundary
  · rw [if_pos boundary]
    exact boundary
  · rw [if_neg boundary]
    omega

/-- The aligned loop starts with both addresses on a boundary if it has a block to copy. -/
theorem prologue_aligned (same : v.src % 16 = v.dst % 16) (block : 0 < (prologue v).len) :
    (prologue v).dst % 16 = 0 ∧ (prologue v).src % 16 = 0 := by
  rw [prologue_eq] at *
  have := @prologueBytes_boundary _ v (Nat.lt_of_sub_pos block)
  simp only [advance_dst, advance_src]
  omega

end Prologue

/-- The copy of the whole call, in the state in which its loop is reached. -/
theorem sseMemcpy_eq {fuel : ℕ} (short : len < 2 ^ 31) (apart : Apart dst src len) (enough : len / 256 < fuel) :
    sseMemcpy fuel mem dst src len = some (copied mem dst src len) := by
  rw [sseMemcpy]
  split
  · rename_i same
    have before : prologueBytes (entry mem dst src len) ≤ len := prologueBytes_le
    have total : len = prologueBytes (entry mem dst src len) + (len - prologueBytes (entry mem dst src len)) := by
      omega
    generalize split : prologueBytes (entry mem dst src len) = n at *
    have copies : copied (prologue (entry mem dst src len)).mem (prologue (entry mem dst src len)).dst
        (prologue (entry mem dst src len)).src (prologue (entry mem dst src len)).len = copied mem dst src len := by
      rw [prologue_eq, split]
      exact (copied_advance (entry mem dst src len) (total ▸ apart)).trans (congrArg _ total.symm)
    rw [← copies]
    refine trailer_blockLoop ?_ (fun long => ?_) ?_ ?_
    · rw [prologue_eq, split]
      exact lt_of_le_of_lt (Nat.sub_le _ _) short
    · have boundary := @prologue_aligned _ (entry mem dst src len) (sameOffset_iff.mp same) (by omega)
      exact ⟨fun _ => boundary.1, fun _ => boundary.2⟩
    · rw [prologue_eq, split]
      simp only [advance_dst, advance_src, entry, Apart] at *
      omega
    · rw [prologue_eq, split]
      exact lt_of_le_of_lt (Nat.div_le_div_right (Nat.sub_le _ _)) enough
  · exact trailer_blockLoop short (fun _ => ⟨fun off => absurd off (by simp), fun off => absurd off (by simp)⟩)
      apart enough

/-- `sse_memcpy` of fewer than `2 ^ 31` bytes between ranges that do not overlap ends, for every
pair of alignments, with the bytes copied and every other address as it was, and the aligned
loop starts only between addresses on a 16-byte boundary. -/
theorem sseMemcpy_plain_copy (mem : ℤ → β) (dst src len : ℕ) (short : len < 2 ^ 31)
    (apart : src + len ≤ dst ∨ dst + len ≤ src) :
    (∀ fuel, len / 256 < fuel → ∃ mem', sseMemcpy fuel mem dst src len = some mem' ∧
      (∀ i : ℕ, i < len → mem' (dst + i) = mem (src + i)) ∧
      ∀ x : ℤ, x < dst ∨ dst + len ≤ x → mem' x = mem x) ∧
    (sameOffset dst src = true → 0 < blocksEnd (prologue (entry mem dst src len)).len →
      (prologue (entry mem dst src len)).dst % 16 = 0 ∧ (prologue (entry mem dst src len)).src % 16 = 0) := by
  constructor
  · intro fuel enough
    exact ⟨_, sseMemcpy_eq short apart enough, fun _ inside => copied_inside inside,
      fun _ outside => copied_outside outside⟩
  · intro same block
    refine prologue_aligned (sameOffset_iff.mp same) (Nat.pos_of_ne_zero fun empty => ?_)
    rw [empty] at block
    exact absurd block (by decide)

/-- 300 bytes, 12 bytes behind a boundary each. -/
theorem sseMemcpy_plain_copy_offset :
    ∃ mem', sseMemcpy 2 (fun x => x) 1036 12 300 = some mem' ∧ mem' 1037 = 13 ∧ mem' 5 = 5 := by
  obtain ⟨mem', done, inside, outside⟩ :=
    (sseMemcpy_plain_copy (fun x => x) 1036 12 300 (by decide) (by decide)).1 2 (by decide)
  exact ⟨mem', done, inside 1 (by decide), outside 5 (by decide)⟩

end FoMPI.Memcpy
