import FoMPI.Foundation.Typemap
import Mathlib.Data.List.Chain

/-!
# Gathering blocks

The runs of a list of bytes are the only blocks with these bytes of which none is empty and none
begins where the one in front of it ends. Whoever adds one block after the other and merges
those that touch gathers the runs.
-/
namespace FoMPI.Foundation

def Block.stop (b : Block) : ℤ := b.displ + b.blocklen

/-- No block begins where the one in front of it ends. -/
def Separated (bs : List Block) : Prop := bs.IsChain fun a b => a.stop ≠ b.displ

/-- One more block; it makes the last one longer if it begins where that one ends. -/
def attach (bs : List Block) (b : Block) : List Block :=
  match bs.getLast? with
  | none => [b]
  | some a => if a.stop = b.displ then bs.dropLast ++ [⟨a.displ, a.blocklen + b.blocklen⟩] else bs ++ [b]

section Attach
variable {a b : Block} {bs cs : List Block}

theorem bytes_append : bytes (bs ++ cs) = bytes bs ++ bytes cs := List.flatMap_append

theorem Block.cons_bytes (x : ℤ) (n : ℕ) : (Block.mk x (n + 1)).bytes = x :: (Block.mk (x + 1) n).bytes := by
  simp only [Block.bytes, List.range_succ_eq_map, List.map_cons, Nat.cast_zero, add_zero, List.map_map]
  congr 1
  refine List.map_congr_left fun k _ => ?_
  simp only [Function.comp_apply, Nat.cast_succ]
  ring

theorem Block.bytes_joined (adjacent : a.stop = b.displ) :
    (Block.mk a.displ (a.blocklen + b.blocklen)).bytes = a.bytes ++ b.bytes := by
  have rest : Block.mk (a.displ + a.blocklen) (a.blocklen + b.blocklen - a.blocklen) = b := by
    rw [Nat.add_sub_cancel_left, ← Block.stop, adjacent]
  have split := Block.bytes_split (b := ⟨a.displ, a.blocklen + b.blocklen⟩) (Nat.le_add_right a.blocklen b.blocklen)
  rwa [rest] at split

theorem attach_concat : attach (cs ++ [a]) b =
    if a.stop = b.displ then cs ++ [⟨a.displ, a.blocklen + b.blocklen⟩] else cs ++ [a] ++ [b] := by
  simp [attach]

theorem attach_of_adjacent (last : bs.getLast? = some a) (adjacent : a.stop = b.displ) :
    (attach bs b).length = bs.length := by
  obtain ⟨cs, rfl⟩ := List.getLast?_eq_some_iff.mp last
  rw [attach_concat, if_pos adjacent, List.length_append, List.length_append]
  rfl

theorem attach_of_apart (apart : ∀ a, bs.getLast? = some a → a.stop ≠ b.displ) : attach bs b = bs ++ [b] := by
  unfold attach
  cases last : bs.getLast? with
  | none => rw [List.getLast?_eq_none_iff.mp last, List.nil_append]
  | some a => exact if_neg (apart a last)

theorem length_le_attach : bs.length ≤ (attach bs b).length := by
  by_cases touches : ∃ a, bs.getLast? = some a ∧ a.stop = b.displ
  · obtain ⟨a, last, adjacent⟩ := touches
    exact (attach_of_adjacent last adjacent).ge
  · rw [attach_of_apart fun a last adjacent => touches ⟨a, last, adjacent⟩, List.length_append]
    exact Nat.le_add_right _ _

theorem getLast_attach (bs : List Block) (b : Block) : ∃ c, (attach bs b).getLast? = some c ∧ c.stop = b.stop := by
  unfold attach
  cases last : bs.getLast? with
  | none => exact ⟨b, rfl, rfl⟩
  | some a =>
    by_cases adjacent : a.stop = b.displ
    · refine ⟨⟨a.displ, a.blocklen + b.blocklen⟩, by simp [adjacent], ?_⟩
      simp only [Block.stop] at adjacent ⊢
      omega
    · exact ⟨b, by simp [adjacent], rfl⟩

theorem bytes_attach : bytes (attach bs b) = bytes bs ++ b.bytes := by
  have one (c : Block) : bytes [c] = c.bytes := List.append_nil _
  obtain rfl | ⟨cs, a, rfl⟩ := List.eq_nil_or_concat' bs
  · exact one b
  · rw [attach_concat]
    split
    · rename_i adjacent
      rw [bytes_append, bytes_append, one, one, Block.bytes_joined adjacent, List.append_assoc]
    · rw [bytes_append, one]

theorem Positive.attach (positive : Positive bs) (pos : 0 < b.blocklen) : Positive (attach bs b) := by
  unfold Positive at *
  obtain rfl | ⟨cs, a, rfl⟩ := List.eq_nil_or_concat' bs
  · simpa [Foundation.attach] using pos
  · rw [attach_concat]
    simp only [List.forall_mem_append, List.forall_mem_singleton] at positive
    split
    · simp only [List.forall_mem_append, List.forall_mem_singleton]
      exact ⟨positive.1, Nat.add_pos_right _ pos⟩
    · simp only [List.forall_mem_append, List.forall_mem_singleton]
      exact ⟨positive, pos⟩

theorem Separated.attach (separated : Separated bs) : Separated (attach bs b) := by
  unfold Separated at *
  obtain rfl | ⟨cs, a, rfl⟩ := List.eq_nil_or_concat' bs
  · exact List.isChain_singleton b
  · rw [attach_concat]
    split
    · rw [List.isChain_append] at separated ⊢
      refine ⟨separated.1, List.isChain_singleton _, fun x hx y hy => ?_⟩
      obtain rfl : Block.mk a.displ (a.blocklen + b.blocklen) = y := by simpa using hy
      exact separated.2.2 x hx a rfl
    · rename_i apart
      refine List.isChain_append.mpr ⟨separated, List.isChain_singleton b, fun x hx y hy => ?_⟩
      obtain rfl : a = x := by simpa using hx
      obtain rfl : b = y := by simpa using hy
      exact apart

end Attach

section Unique
variable {b : Block} {bs : List Block} {x : ℤ} {xs ys : List ℤ}

theorem runs_separated (xs : List ℤ) : Separated (runs xs) := by
  unfold Separated
  induction xs with
  | nil => exact List.isChain_nil
  | cons x xs ih =>
    rw [runs]
    split
    · exact List.isChain_singleton _
    · rename_i b bs found
      rw [found] at ih
      split
      · rename_i next
        rw [List.isChain_cons] at ih ⊢
        refine ⟨fun c hc => ?_, ih.2⟩
        have apart := ih.1 c hc
        simp only [Block.stop, Nat.cast_add, Nat.cast_one] at apart ⊢
        omega
      · rename_i apart
        exact List.isChain_cons_cons.mpr ⟨fun same => apart same.symm, ih⟩

theorem runs_append (pos : 0 < b.blocklen) (apart : ∀ c, (runs ys).head? = some c → b.stop ≠ c.displ) :
    runs (b.bytes ++ ys) = b :: runs ys := by
  obtain ⟨x, n⟩ := b
  obtain ⟨n, rfl⟩ := Nat.exists_eq_add_one_of_ne_zero (Nat.ne_of_gt pos)
  clear pos
  induction n generalizing x with
  | zero =>
    rw [Block.cons_bytes, List.cons_append, runs]
    split
    · rename_i none
      rw [show (Block.mk (x + 1) 0).bytes = [] from rfl, List.nil_append] at none
      rw [none]
    · rename_i c cs found
      rw [show (Block.mk (x + 1) 0).bytes = [] from rfl, List.nil_append] at found
      have ne : c.displ ≠ x + 1 := fun same => apart c (by rw [found]; rfl) (by simp [Block.stop, same])
      rw [if_neg ne, found]
  | succ n ih =>
    have later : ∀ c, (runs ys).head? = some c → (Block.mk (x + 1) (n + 1)).stop ≠ c.displ := by
      intro c hc
      have ne := apart c hc
      simp only [Block.stop, Nat.cast_add, Nat.cast_one] at ne ⊢
      omega
    rw [Block.cons_bytes, List.cons_append, runs, ih (x + 1) later]
    exact if_pos rfl

/-- The runs are the only separated blocks with these bytes. -/
theorem runs_bytes (positive : Positive bs) (separated : Separated bs) : runs (bytes bs) = bs := by
  unfold Separated at separated
  induction bs with
  | nil => rfl
  | cons b bs ih =>
    rw [List.isChain_cons] at separated
    have rest := ih positive.tail separated.2
    rw [bytes_cons, runs_append positive.head, rest]
    intro c hc
    rw [rest] at hc
    exact separated.1 c hc

/-- One more block of bytes. -/
theorem runs_attach (pos : 0 < b.blocklen) (xs : List ℤ) : runs (xs ++ b.bytes) = attach (runs xs) b := by
  have same : bytes (attach (runs xs) b) = xs ++ b.bytes := by rw [bytes_attach, bytes_runs]
  rw [← same, runs_bytes ((runs_positive xs).attach pos) (runs_separated xs).attach]

theorem length_runs_le (xs ys : List ℤ) : (runs xs).length ≤ (runs (xs ++ ys)).length := by
  induction ys using List.reverseRecOn with
  | nil => rw [List.append_nil]
  | append_singleton ys y ih =>
    have one : (Block.mk y 1).bytes = [y] := by simp [Block.bytes]
    rw [← List.append_assoc, ← one, runs_attach Nat.one_pos]
    exact ih.trans length_le_attach

theorem head_runs (x : ℤ) (xs : List ℤ) : ∃ b bs, runs (x :: xs) = b :: bs ∧ b.displ = x := by
  rw [runs]
  split
  · exact ⟨_, _, rfl, rfl⟩
  · split <;> exact ⟨_, _, rfl, rfl⟩

/-- Runs in front of a byte that is not adjacent stay as they are. -/
theorem runs_append_of_apart (apart : ∀ a, (runs xs).getLast? = some a → a.stop ≠ x) (ys : List ℤ) :
    runs (xs ++ x :: ys) = runs xs ++ runs (x :: ys) := by
  have same : bytes (runs xs ++ runs (x :: ys)) = xs ++ x :: ys := by rw [bytes_append, bytes_runs, bytes_runs]
  have positive : Positive (runs xs ++ runs (x :: ys)) :=
    List.forall_mem_append.mpr ⟨runs_positive xs, runs_positive (x :: ys)⟩
  have separated : Separated (runs xs ++ runs (x :: ys)) := by
    refine List.isChain_append.mpr ⟨runs_separated xs, runs_separated (x :: ys), fun a ha b hb => ?_⟩
    obtain ⟨b', bs, found, displ⟩ := head_runs x ys
    obtain rfl : b' = b := by simpa [found] using hb
    rw [displ]
    exact apart a ha
  rw [← same, runs_bytes positive separated]

theorem total_runs (xs : List ℤ) : total (runs xs) = xs.length := by rw [← length_bytes, bytes_runs]

theorem Block.map_bytes {d : ℤ} (b : Block) : b.bytes.map (d + ·) = (Block.mk (d + b.displ) b.blocklen).bytes := by
  simp only [Block.bytes, List.map_map]
  refine List.map_congr_left fun k _ => ?_
  simp only [Function.comp_apply]
  ring

/-- Bytes that are moved have the same runs. -/
theorem runs_shift (d : ℤ) (xs : List ℤ) : runs (xs.map (d + ·)) = (runs xs).map fun b => ⟨d + b.displ, b.blocklen⟩ := by
  have moved : bytes ((runs xs).map fun b => ⟨d + b.displ, b.blocklen⟩) = xs.map (d + ·) := by
    conv_rhs => rw [← bytes_runs xs]
    simp only [bytes, List.flatMap_map, List.map_flatMap, Block.map_bytes]
  have positive : Positive ((runs xs).map fun b => Block.mk (d + b.displ) b.blocklen) :=
    List.forall_mem_map.mpr (runs_positive xs)
  have separated : Separated ((runs xs).map fun b => Block.mk (d + b.displ) b.blocklen) := by
    refine (List.isChain_map _).mpr ((runs_separated xs).imp fun a b apart same => apart ?_)
    simp only [Block.stop] at same ⊢
    omega
  rw [← moved, runs_bytes positive separated]

end Unique

end FoMPI.Foundation
