import Mathlib.Data.Int.Basic
import Mathlib.Algebra.BigOperators.Group.List.Basic
import Mathlib.Tactic.Ring

/-!
# Byte sequences described by blocks

A flattened data layout is a list of blocks, an offset and a length each. Two
layouts of the same total length are superposed by a list of chunks that walk
both of them, byte by byte.
-/
namespace FoMPI.Foundation

structure Block where
  displ : ℤ
  blocklen : ℕ
  deriving DecidableEq, Repr

/-- A piece that is contiguous on both sides. -/
structure Chunk where
  originOffset : ℤ
  targetOffset : ℤ
  size : ℕ
  deriving DecidableEq, Repr

def Block.bytes (b : Block) : List ℤ := (List.range b.blocklen).map fun k : ℕ => b.displ + k

/-- The byte offsets of a layout, in order. -/
def bytes (bs : List Block) : List ℤ := bs.flatMap Block.bytes

def total (bs : List Block) : ℕ := (bs.map Block.blocklen).sum

def Chunk.pairs (c : Chunk) : List (ℤ × ℤ) :=
  (List.range c.size).map fun k : ℕ => (c.originOffset + k, c.targetOffset + k)

/-- The byte pairs of a list of chunks, in order. -/
def pairs (cs : List Chunk) : List (ℤ × ℤ) := cs.flatMap Chunk.pairs

/-- Drop `m` bytes that lie in the first block. -/
def advance (m : ℕ) : List Block → List Block
  | [] => []
  | b :: bs => if b.blocklen = m then bs else ⟨b.displ + m, b.blocklen - m⟩ :: bs

/-- A layout as the transfer routines assume it: no block is empty. -/
def Positive (bs : List Block) : Prop := ∀ b ∈ bs, 0 < b.blocklen

@[simp] theorem bytes_cons (b : Block) (bs : List Block) :
    bytes (b :: bs) = b.bytes ++ bytes bs := rfl

@[simp] theorem total_cons (b : Block) (bs : List Block) :
    total (b :: bs) = b.blocklen + total bs := by
  simp [total]

theorem total_single (d : ℤ) (n : ℕ) : total [⟨d, n⟩] = n := Nat.add_zero n

@[simp] theorem pairs_cons (c : Chunk) (cs : List Chunk) : pairs (c :: cs) = c.pairs ++ pairs cs :=
  rfl

theorem pairs_append (cs ds : List Chunk) : pairs (cs ++ ds) = pairs cs ++ pairs ds := by
  simp [pairs]

@[simp] theorem Block.length_bytes (b : Block) : b.bytes.length = b.blocklen := by
  simp [Block.bytes]

theorem length_bytes (bs : List Block) : (bytes bs).length = total bs := by
  induction bs with
  | nil => rfl
  | cons b bs ih => rw [bytes_cons, List.length_append, b.length_bytes, ih, total_cons]

theorem Positive.tail {b : Block} {bs : List Block} (h : Positive (b :: bs)) : Positive bs :=
  fun b' hb => h b' (List.mem_cons_of_mem _ hb)

theorem Positive.head {b : Block} {bs : List Block} (h : Positive (b :: bs)) : 0 < b.blocklen :=
  h b List.mem_cons_self

theorem Positive.total_pos {bs : List Block} (h : Positive bs) (ne : bs ≠ []) : 0 < total bs := by
  cases bs with
  | nil => exact absurd rfl ne
  | cons b bs =>
    rw [total_cons]
    have := h.head
    omega

/-- A positive layout is exhausted exactly when nothing of it is left. -/
theorem Positive.eq_nil_of_total {bs : List Block} (h : Positive bs) (zero : total bs = 0) :
    bs = [] := by
  by_contra ne
  have := h.total_pos ne
  omega

section Advance
variable {b : Block} {bs : List Block} {m : ℕ}

theorem Positive.advance (h : Positive (b :: bs)) (le : m ≤ b.blocklen) :
    Positive (advance m (b :: bs)) := by
  rw [Foundation.advance]
  split
  · exact h.tail
  · intro b' hb
    obtain rfl | hb := List.mem_cons.mp hb
    · change 0 < b.blocklen - m
      omega
    · exact h.tail b' hb

theorem total_advance (le : m ≤ b.blocklen) :
    total (advance m (b :: bs)) + m = total (b :: bs) := by
  rw [advance]
  split
  · rw [total_cons]
    omega
  · rw [total_cons, total_cons]
    simp only
    omega

theorem length_advance_le : (advance m (b :: bs)).length ≤ (b :: bs).length := by
  rw [advance]
  split <;> simp

theorem length_advance_of_eq (eq : b.blocklen = m) : (advance m (b :: bs)).length = bs.length := by
  simp [advance, eq]

theorem Block.bytes_split (le : m ≤ b.blocklen) : b.bytes =
    (List.range m).map (fun k : ℕ => b.displ + k) ++
      Block.bytes ⟨b.displ + m, b.blocklen - m⟩ := by
  have split : List.range b.blocklen = List.range m ++ (List.range (b.blocklen - m)).map (m + ·) := by
    rw [← List.range_add, Nat.add_sub_cancel' le]
  rw [Block.bytes, split, List.map_append, List.map_map]
  congr 1
  apply List.map_congr_left
  intro k _
  simp only [Function.comp_apply, Nat.cast_add]
  ring

theorem bytes_advance (le : m ≤ b.blocklen) : bytes (b :: bs) =
    (List.range m).map (fun k : ℕ => b.displ + k) ++ bytes (advance m (b :: bs)) := by
  rw [advance]
  split
  · rename_i eq
    subst eq
    rfl
  · rw [bytes_cons, bytes_cons, b.bytes_split le, List.append_assoc]

/-- One chunk at the front of both layouts pairs their first bytes. -/
theorem zip_advance {a : Block} {as : List Block} (leA : m ≤ a.blocklen) (leB : m ≤ b.blocklen) :
    (bytes (a :: as)).zip (bytes (b :: bs)) = Chunk.pairs ⟨a.displ, b.displ, m⟩ ++
      (bytes (advance m (a :: as))).zip (bytes (advance m (b :: bs))) := by
  rw [bytes_advance leA, bytes_advance leB, List.zip_append (by simp)]
  congr 1
  rw [List.zip_map', Chunk.pairs]

theorem advance_eq_nil : advance m (b :: bs) = [] ↔ b.blocklen = m ∧ bs = [] := by
  rw [advance]
  split
  · rename_i eq
    exact ⟨fun h => ⟨eq, h⟩, fun h => h.2⟩
  · rename_i ne
    exact ⟨fun h => absurd h (List.cons_ne_nil _ _), fun h => absurd h.1 ne⟩

end Advance

/-- A chunk in two parts. -/
theorem Chunk.pairs_split {c : Chunk} {m : ℕ} (le : m ≤ c.size) : c.pairs =
    Chunk.pairs ⟨c.originOffset, c.targetOffset, m⟩ ++
      Chunk.pairs ⟨c.originOffset + m, c.targetOffset + m, c.size - m⟩ := by
  have split : List.range c.size = List.range m ++ (List.range (c.size - m)).map (m + ·) := by
    rw [← List.range_add, Nat.add_sub_cancel' le]
  rw [Chunk.pairs, split, List.map_append, List.map_map]
  congr 1
  apply List.map_congr_left
  intro k _
  simp only [Function.comp_apply, Nat.cast_add, add_assoc]

section Superposition
variable {a b : Block} {as bs : List Block} {m : ℕ}

/-- The largest chunk that both layouts begin with. -/
structure First (a : Block) (as : List Block) (b : Block) (bs : List Block) (m : ℕ) : Prop where
  positiveA : Positive (a :: as)
  positiveB : Positive (b :: bs)
  same : total (a :: as) = total (b :: bs)
  size : m = min a.blocklen b.blocklen

namespace First

theorem le_left (h : First a as b bs m) : m ≤ a.blocklen := h.size ▸ Nat.min_le_left _ _

theorem le_right (h : First a as b bs m) : m ≤ b.blocklen := h.size ▸ Nat.min_le_right _ _

theorem same_advance (h : First a as b bs m) :
    total (advance m (a :: as)) = total (advance m (b :: bs)) := by
  have left : total (advance m (a :: as)) + m = total (a :: as) := total_advance h.le_left
  have right : total (advance m (b :: bs)) + m = total (b :: bs) := total_advance h.le_right
  have := h.same
  omega

/-- Of two last blocks nothing is left. -/
theorem advance_last (h : First a as b bs m) (lastA : as = []) (lastB : bs = []) :
    advance m (a :: as) = [] ∧ advance m (b :: bs) = [] := by
  have same := h.same
  subst lastA lastB
  have equal : a.blocklen = b.blocklen := by simpa [total] using same
  have size := h.size
  rw [equal, Nat.min_self] at size
  exact ⟨advance_eq_nil.mpr ⟨equal.trans size.symm, rfl⟩, advance_eq_nil.mpr ⟨size.symm, rfl⟩⟩

/-- If another block follows on either side, something is left on both. -/
theorem advance_more (h : First a as b bs m) (more : ¬(as = [] ∧ bs = [])) :
    advance m (a :: as) ≠ [] := by
  intro empty
  have none : total (advance m (b :: bs)) = 0 := by rw [← h.same_advance, empty]; rfl
  have empty' := (h.positiveB.advance h.le_right).eq_nil_of_total none
  exact more ⟨(advance_eq_nil.mp empty).2, (advance_eq_nil.mp empty').2⟩

/-- Every chunk uses up a block of one side. -/
theorem length_lt (h : First a as b bs m) :
    (advance m (a :: as)).length + (advance m (b :: bs)).length <
      (a :: as).length + (b :: bs).length := by
  have left : (advance m (a :: as)).length ≤ (a :: as).length := length_advance_le
  have right : (advance m (b :: bs)).length ≤ (b :: bs).length := length_advance_le
  have size := h.size
  obtain le | le := le_total a.blocklen b.blocklen
  · rw [Nat.min_eq_left le] at size
    have : (advance m (a :: as)).length = as.length := length_advance_of_eq size.symm
    simp only [List.length_cons] at *
    omega
  · rw [Nat.min_eq_right le] at size
    have : (advance m (b :: bs)).length = bs.length := length_advance_of_eq size.symm
    simp only [List.length_cons] at *
    omega

end First

/-- Walk two layouts in step, always the largest chunk that both begin with. -/
def superpose : ℕ → List Block → List Block → List Chunk
  | fuel + 1, a :: as, b :: bs =>
    let m := min a.blocklen b.blocklen
    ⟨a.displ, b.displ, m⟩ :: superpose fuel (advance m (a :: as)) (advance m (b :: bs))
  | _, _, _ => []

/-- Layouts of one total length are superposed byte by byte. -/
theorem superpose_pairs (fuel : ℕ) {O T : List Block} (positiveO : Positive O)
    (positiveT : Positive T) (same : total O = total T) (enough : O.length + T.length ≤ fuel) :
    pairs (superpose fuel O T) = (bytes O).zip (bytes T) := by
  induction fuel generalizing O T with
  | zero =>
    obtain rfl : O = [] := List.length_eq_zero_iff.mp (by omega)
    rfl
  | succ fuel ih =>
    cases O with
    | nil => rfl
    | cons a as =>
      cases T with
      | nil => simp [superpose, pairs, bytes]
      | cons b bs =>
        have first : First a as b bs _ := ⟨positiveO, positiveT, same, rfl⟩
        have shorter := first.length_lt
        rw [superpose, pairs_cons, ih (positiveO.advance first.le_left)
          (positiveT.advance first.le_right) first.same_advance (by omega),
          zip_advance first.le_left first.le_right]

/-- What holds of the first chunk of two layouts, by an invariant that is kept when the chunk is used
up, holds of every chunk. -/
theorem superpose_forall {I : List Block → List Block → Prop} {P : Chunk → Prop}
    (first : ∀ a as b bs, I (a :: as) (b :: bs) → P ⟨a.displ, b.displ, min a.blocklen b.blocklen⟩)
    (next : ∀ a as b bs, I (a :: as) (b :: bs) →
      I (advance (min a.blocklen b.blocklen) (a :: as)) (advance (min a.blocklen b.blocklen) (b :: bs)))
    (fuel : ℕ) {O T : List Block} (start : I O T) : ∀ c ∈ superpose fuel O T, P c := by
  induction fuel generalizing O T with
  | zero => simp [superpose]
  | succ fuel ih =>
    cases O with
    | nil => simp [superpose]
    | cons a as =>
      cases T with
      | nil => simp [superpose]
      | cons b bs =>
        intro c mem
        rw [superpose] at mem
        obtain rfl | mem := List.mem_cons.mp mem
        · exact first a as b bs start
        · exact ih (next a as b bs start) c mem

/-- No chunk of a superposition is empty. -/
theorem superpose_positive (fuel : ℕ) {O T : List Block} (positiveO : Positive O) (positiveT : Positive T) :
    ∀ c ∈ superpose fuel O T, 0 < c.size := by
  refine superpose_forall (I := fun O T => Positive O ∧ Positive T) ?_ ?_ fuel ⟨positiveO, positiveT⟩
  · intro a as b bs positive
    exact Nat.lt_min.mpr ⟨positive.1.head, positive.2.head⟩
  · intro a as b bs positive
    exact ⟨positive.1.advance (Nat.min_le_left _ _), positive.2.advance (Nat.min_le_right _ _)⟩

/-- What holds of all bytes of the second layout holds of the second side of every chunk. -/
theorem superpose_forall_target {fuel : ℕ} {O T : List Block} (positiveO : Positive O)
    (positiveT : Positive T) (same : total O = total T) (enough : O.length + T.length ≤ fuel)
    (P : ℤ → Prop) :
    (∀ x ∈ bytes T, P x) ↔ ∀ c ∈ superpose fuel O T, ∀ k : ℕ, k < c.size → P (c.targetOffset + k) := by
  have side : (pairs (superpose fuel O T)).map Prod.snd = bytes T := by
    rw [superpose_pairs fuel positiveO positiveT same enough]
    exact List.map_snd_zip (by rw [length_bytes, length_bytes, same])
  rw [← side]
  constructor
  · intro all c mem k lt
    refine all _ (List.mem_map.mpr ⟨(c.originOffset + k, c.targetOffset + k), ?_, rfl⟩)
    exact List.mem_flatMap.mpr ⟨c, mem, List.mem_map.mpr ⟨k, List.mem_range.mpr lt, rfl⟩⟩
  · intro all x hx
    obtain ⟨p, hp, rfl⟩ := List.mem_map.mp hx
    obtain ⟨c, mem, hp⟩ := List.mem_flatMap.mp hp
    obtain ⟨k, lt, rfl⟩ := List.mem_map.mp hp
    exact all c mem k (List.mem_range.mp lt)

/-- A layout is superposed on itself block by block. -/
theorem superpose_self {fuel : ℕ} (L : List Block) (enough : L.length ≤ fuel) :
    superpose fuel L L = L.map fun b => ⟨b.displ, b.displ, b.blocklen⟩ := by
  induction L generalizing fuel with
  | nil => cases fuel <;> rfl
  | cons b L ih =>
    cases fuel with
    | zero => simp at enough
    | succ fuel =>
      have rest : advance b.blocklen (b :: L) = L := by simp [advance]
      rw [superpose, Nat.min_self, rest, ih (by simpa using enough)]
      rfl

end Superposition

section Tilings

def Chunk.hasTarget (c : Chunk) (x : ℤ) : Bool := c.targetOffset ≤ x ∧ x < c.targetOffset + c.size

/-- Chunks laid end to end on both sides, from `o` and `t` on, each with at least one byte and `n`
bytes together. -/
inductive Tiles : ℤ → ℤ → ℕ → List Chunk → Prop
  | nil (o t : ℤ) : Tiles o t 0 []
  | cons {o t : ℤ} {k n : ℕ} {cs : List Chunk} (pos : 0 < k) (rest : Tiles (o + k) (t + k) n cs) :
    Tiles o t (k + n) (⟨o, t, k⟩ :: cs)

namespace Tiles

variable {o t : ℤ} {n : ℕ} {cs : List Chunk}

/-- Each byte of the range is in one chunk, and no other byte is in any. -/
theorem once (h : Tiles o t n cs) (x : ℤ) :
    (cs.countP fun c => c.hasTarget x) = if t ≤ x ∧ x < t + n then 1 else 0 := by
  induction h with
  | nil o t => simp
  | @cons o t k n cs pos rest ih =>
    rw [List.countP_cons, ih]
    simp only [Chunk.hasTarget, decide_eq_true_eq, Nat.cast_add]
    split_ifs <;> omega

/-- Both sides have advanced by the same amount. -/
theorem advance_eq (h : Tiles o t n cs) : ∀ c ∈ cs, c.originOffset - o = c.targetOffset - t := by
  induction h with
  | nil o t => simp
  | @cons o t k n cs pos rest ih =>
    intro c hc
    obtain rfl | hc := List.mem_cons.mp hc
    · simp
    · have later := ih c hc
      omega

theorem positive (h : Tiles o t n cs) : ∀ c ∈ cs, 0 < c.size := by
  induction h with
  | nil o t => simp
  | cons pos rest ih => exact List.forall_mem_cons.mpr ⟨pos, ih⟩

theorem length_le (h : Tiles o t n cs) : cs.length ≤ n := by
  induction h with
  | nil o t => exact Nat.le_refl 0
  | cons pos rest ih =>
    rw [List.length_cons]
    omega

end Tiles

end Tilings

end FoMPI.Foundation
