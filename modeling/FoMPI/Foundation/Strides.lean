import FoMPI.Foundation.Blocks
import Mathlib.Data.List.Nodup

/-!
# Elements in byte sequences

Where all blocks of a layout consist of whole elements of `w` bytes, the elements are
every `w`-th byte. What the superposition of two layouts says of bytes it then says of
elements.
-/
namespace FoMPI.Foundation

section EveryNth
variable {α β : Type*} {w : ℕ}

/-- Every `w`-th member of a list. -/
def everyNth (w : ℕ) (l : List α) : List α :=
  (List.range (l.length / w)).filterMap fun k => l[k * w]?

theorem everyNth_append (l l' : List α) (pos : 0 < w) (whole : w ∣ l.length) :
    everyNth w (l ++ l') = everyNth w l ++ everyNth w l' := by
  obtain ⟨n, len⟩ := whole
  have count : (l.length + l'.length) / w = n + l'.length / w := by
    rw [len, Nat.mul_add_div pos]
  have front : l.length / w = n := by rw [len, Nat.mul_div_cancel_left n pos]
  rw [everyNth, List.length_append, count, List.range_add, List.filterMap_append, List.filterMap_map,
    everyNth, front, everyNth]
  congr 1
  · refine List.filterMap_congr fun k hk => ?_
    have lt : k * w < l.length := by
      rw [len, Nat.mul_comm]
      exact Nat.mul_lt_mul_of_pos_left (List.mem_range.mp hk) pos
    rw [List.getElem?_append_left lt]
  · refine List.filterMap_congr fun k _ => ?_
    have shift : (n + k) * w = l.length + k * w := by rw [len, Nat.add_mul, Nat.mul_comm n w]
    simp only [Function.comp_apply, shift]
    rw [List.getElem?_append_right (Nat.le_add_right _ _), Nat.add_sub_cancel_left]

theorem everyNth_map (f : α → β) (l : List α) : everyNth w (l.map f) = (everyNth w l).map f := by
  rw [everyNth, List.length_map, everyNth, List.map_filterMap]
  exact List.filterMap_congr fun k _ => by rw [List.getElem?_map]

theorem everyNth_range (n : ℕ) (pos : 0 < w) : everyNth w (List.range (n * w)) = (List.range n).map (· * w) := by
  rw [everyNth, List.length_range, Nat.mul_div_cancel n pos, ← List.filterMap_eq_map]
  refine List.filterMap_congr fun k hk => ?_
  have lt : k * w < n * w := Nat.mul_lt_mul_of_pos_right (List.mem_range.mp hk) pos
  simp [List.getElem?_range lt]

theorem everyNth_zip {l : List α} {l' : List β} (same : l.length = l'.length) :
    everyNth w (l.zip l') = (everyNth w l).zip (everyNth w l') := by
  have left := everyNth_map (w := w) Prod.fst (l.zip l')
  have right := everyNth_map (w := w) Prod.snd (l.zip l')
  rw [List.map_fst_zip same.le] at left
  rw [List.map_snd_zip same.ge] at right
  rw [left, right, List.zip_map', List.map_id']

end EveryNth

section Elements
variable {w : ℕ}

/-- The elements of a chunk, as pairs of their first bytes. -/
def Chunk.elements (w : ℕ) (c : Chunk) : List (ℤ × ℤ) :=
  (List.range (c.size / w)).map fun k : ℕ => (c.originOffset + k * w, c.targetOffset + k * w)

def elementPairs (w : ℕ) (cs : List Chunk) : List (ℤ × ℤ) := cs.flatMap (Chunk.elements w)

def Block.elements (w : ℕ) (b : Block) : List ℤ := (List.range (b.blocklen / w)).map fun k : ℕ => b.displ + k * w

/-- The first bytes of the elements of a layout. -/
def elements (w : ℕ) (bs : List Block) : List ℤ := bs.flatMap (Block.elements w)

/-- All blocks consist of whole elements. -/
def Whole (w : ℕ) (bs : List Block) : Prop := ∀ b ∈ bs, w ∣ b.blocklen

theorem Chunk.elements_eq {c : Chunk} (pos : 0 < w) (whole : w ∣ c.size) : c.elements w = everyNth w c.pairs := by
  obtain ⟨n, len⟩ := whole
  rw [Nat.mul_comm] at len
  rw [Chunk.pairs, everyNth_map, len, everyNth_range n pos, Chunk.elements, len, Nat.mul_div_cancel n pos,
    List.map_map]
  refine List.map_congr_left fun k _ => ?_
  simp

theorem elementPairs_eq {cs : List Chunk} (pos : 0 < w) (whole : ∀ c ∈ cs, w ∣ c.size) :
    elementPairs w cs = everyNth w (pairs cs) := by
  induction cs with
  | nil => simp [elementPairs, pairs, everyNth]
  | cons c cs ih =>
    have first := whole c List.mem_cons_self
    rw [pairs_cons, everyNth_append _ _ pos (by simpa [Chunk.pairs] using first), ← Chunk.elements_eq pos first,
      ← ih fun d hd => whole d (List.mem_cons_of_mem _ hd)]
    rfl

/-- Bytes that are left over in the chunks are missing from the elements. -/
theorem length_elementPairs (cs : List Chunk) :
    (elementPairs w cs).length * w + (cs.map fun c => c.size % w).sum = (pairs cs).length := by
  induction cs with
  | nil => simp [elementPairs, pairs]
  | cons c cs ih =>
    have split : elementPairs w (c :: cs) = c.elements w ++ elementPairs w cs := rfl
    have first : (c.elements w).length * w + c.size % w = c.pairs.length := by
      simp only [Chunk.elements, Chunk.pairs, List.length_map, List.length_range]
      exact Nat.div_add_mod' c.size w
    rw [split, List.length_append, Nat.add_mul, List.map_cons, List.sum_cons, pairs_cons, List.length_append,
      ← first, ← ih]
    omega

/-- All elements are there exactly if the chunks consist of whole ones. -/
theorem length_elementPairs_iff {cs : List Chunk} {n : ℕ} (pos : 0 < w) (all : (pairs cs).length = n * w) :
    n ≤ (elementPairs w cs).length ↔ ∀ c ∈ cs, w ∣ c.size := by
  have length := length_elementPairs (w := w) cs
  rw [all] at length
  constructor
  · intro le c hc
    have none : (cs.map fun c => c.size % w).sum = 0 := by
      have := Nat.mul_le_mul_right w le
      omega
    exact Nat.dvd_of_mod_eq_zero (List.sum_eq_zero_iff_forall_eq_nat.mp none _ (List.mem_map_of_mem hc))
  · intro whole
    have none : (cs.map fun c => c.size % w).sum = 0 := by
      refine List.sum_eq_zero_iff_forall_eq_nat.mpr fun x hx => ?_
      obtain ⟨c, hc, rfl⟩ := List.mem_map.mp hx
      exact Nat.mod_eq_zero_of_dvd (whole c hc)
    rw [none, Nat.add_zero] at length
    exact (Nat.eq_of_mul_eq_mul_right pos length).ge

theorem Block.elements_eq {b : Block} (pos : 0 < w) (whole : w ∣ b.blocklen) : b.elements w = everyNth w b.bytes := by
  obtain ⟨n, len⟩ := whole
  rw [Nat.mul_comm] at len
  rw [Block.bytes, everyNth_map, len, everyNth_range n pos, Block.elements, len, Nat.mul_div_cancel n pos,
    List.map_map]
  refine List.map_congr_left fun k _ => ?_
  simp

theorem elements_eq {bs : List Block} (pos : 0 < w) (whole : Whole w bs) : elements w bs = everyNth w (bytes bs) := by
  induction bs with
  | nil => simp [elements, bytes, everyNth]
  | cons b bs ih =>
    have first := whole b List.mem_cons_self
    rw [bytes_cons, everyNth_append _ _ pos (by simpa using first), ← Block.elements_eq pos first,
      ← ih fun d hd => whole d (List.mem_cons_of_mem _ hd)]
    rfl

theorem bytes_single (size : ℕ) : bytes [⟨0, size⟩] = (List.range size).map fun k : ℕ => (k : ℤ) := by
  simp [bytes, Block.bytes]

theorem nodup_bytes_single (size : ℕ) : (bytes [⟨0, size⟩]).Nodup := by
  rw [bytes_single]
  exact List.Nodup.map Nat.cast_injective List.nodup_range

theorem length_elements {bs : List Block} (whole : Whole w bs) : (elements w bs).length * w = total bs := by
  induction bs with
  | nil => simp [elements, total]
  | cons b bs ih =>
    obtain ⟨n, len⟩ := whole b List.mem_cons_self
    have rest := ih fun d hd => whole d (List.mem_cons_of_mem _ hd)
    have first : (b.elements w).length * w = b.blocklen := by
      simp only [Block.elements, List.length_map, List.length_range]
      exact Nat.div_mul_cancel ⟨n, len⟩
    have split : elements w (b :: bs) = b.elements w ++ elements w bs := rfl
    rw [split, List.length_append, Nat.add_mul, first, rest, total_cons]

/-- The bytes of an element follow its first one. -/
theorem bytes_of_elements {bs : List Block} {e f : ℕ} {x : ℤ} (whole : Whole w bs)
    (at_e : (elements w bs)[e]? = some x) (lt : f < w) : (bytes bs)[e * w + f]? = some (x + f) := by
  induction bs generalizing e with
  | nil => simp [elements] at at_e
  | cons b bs ih =>
    obtain ⟨n, len⟩ := whole b List.mem_cons_self
    rw [Nat.mul_comm] at len
    have pos : 0 < w := Nat.lt_of_le_of_lt (Nat.zero_le f) lt
    have count : (b.elements w).length = n := by
      simp [Block.elements, len, Nat.mul_div_cancel n pos]
    have split : elements w (b :: bs) = b.elements w ++ elements w bs := rfl
    rw [split] at at_e
    rw [bytes_cons]
    by_cases front : e < n
    · rw [List.getElem?_append_left (by rw [count]; exact front)] at at_e
      have inside : e * w + f < b.blocklen := by
        rw [len]
        calc e * w + f < e * w + w := by omega
          _ = (e + 1) * w := (Nat.succ_mul e w).symm
          _ ≤ n * w := Nat.mul_le_mul_right w front
      rw [List.getElem?_append_left (by simpa using inside)]
      simp only [Block.elements, len, Nat.mul_div_cancel n pos, List.getElem?_map, List.getElem?_range front,
        Option.map_some, Option.some.injEq] at at_e
      simp only [Block.bytes, List.getElem?_map, List.getElem?_range inside, Option.map_some,
        Option.some.injEq, ← at_e]
      push_cast
      ring
    · obtain ⟨d, rfl⟩ := Nat.exists_eq_add_of_le (Nat.le_of_not_lt front)
      rw [List.getElem?_append_right (by rw [count]; exact Nat.le_add_right _ _), count,
        Nat.add_sub_cancel_left] at at_e
      have later := ih (fun d hd => whole d (List.mem_cons_of_mem _ hd)) at_e
      have past : (n + d) * w + f = b.bytes.length + (d * w + f) := by
        rw [b.length_bytes, len]
        ring
      rw [past, List.getElem?_append_right (Nat.le_add_right _ _), Nat.add_sub_cancel_left]
      exact later

end Elements

section Superposition
variable {w : ℕ}

theorem Whole.advance {b : Block} {bs : List Block} {m : ℕ} (whole : Whole w (b :: bs)) (dvd : w ∣ m) :
    Whole w (advance m (b :: bs)) := by
  intro c hc
  rw [Foundation.advance] at hc
  split at hc
  · exact whole c (List.mem_cons_of_mem _ hc)
  · obtain rfl | hc := List.mem_cons.mp hc
    · exact Nat.dvd_sub (whole b List.mem_cons_self) dvd
    · exact whole c (List.mem_cons_of_mem _ hc)

/-- Chunks of whole elements. -/
theorem superpose_dvd (fuel : ℕ) {O T : List Block} (wholeO : Whole w O) (wholeT : Whole w T) :
    ∀ c ∈ superpose fuel O T, w ∣ c.size := by
  have size (a b : Block) (as bs : List Block) (whole : Whole w (a :: as) ∧ Whole w (b :: bs)) :
      w ∣ min a.blocklen b.blocklen := by
    obtain le | le := le_total a.blocklen b.blocklen
    · rw [Nat.min_eq_left le]
      exact whole.1 a List.mem_cons_self
    · rw [Nat.min_eq_right le]
      exact whole.2 b List.mem_cons_self
  refine superpose_forall (I := fun O T => Whole w O ∧ Whole w T) ?_ ?_ fuel ⟨wholeO, wholeT⟩
  · intro a as b bs whole
    exact size a b as bs whole
  · intro a as b bs whole
    exact ⟨whole.1.advance (size a b as bs whole), whole.2.advance (size a b as bs whole)⟩

/-- Layouts of whole elements are superposed element by element. -/
theorem superpose_elements (fuel : ℕ) {O T : List Block} (pos : 0 < w) (wholeO : Whole w O)
    (wholeT : Whole w T) (positiveO : Positive O) (positiveT : Positive T) (same : total O = total T)
    (enough : O.length + T.length ≤ fuel) :
    elementPairs w (superpose fuel O T) = (elements w O).zip (elements w T) := by
  rw [elementPairs_eq pos (superpose_dvd fuel wholeO wholeT),
    superpose_pairs fuel positiveO positiveT same enough, everyNth_zip (by rw [length_bytes, length_bytes, same]),
    ← elements_eq pos wholeO, ← elements_eq pos wholeT]

end Superposition

end FoMPI.Foundation
