import FoMPI.Foundation.Blocks
import Mathlib.Order.Bounds.Basic
import Mathlib.Tactic.Positivity
import Mathlib.Tactic.GCongr

/-!
# Rows of items

Items of one kind that lie `extent` apart form a row, and a layout is a list of rows. Rows that go on
where the one in front of them ends may be joined to it. The bytes of a layout are those of one item,
at every place where an item begins.
-/
namespace FoMPI.Foundation

/-- So many items, the first one at `displ`. -/
structure Row where
  count : ℕ
  displ : ℤ
  deriving DecidableEq, Repr

/-- Where the items begin. -/
def Row.starts (extent : ℤ) (r : Row) : List ℤ := (List.range r.count).map fun j : ℕ => r.displ + j * extent

def starts (extent : ℤ) (rs : List Row) : List ℤ := rs.flatMap (Row.starts extent)

/-- The bytes of items that begin at these places. -/
def placed (item xs : List ℤ) : List ℤ := xs.flatMap fun x => item.map (x + ·)

section Starts
variable {extent d : ℤ} {a b n : ℕ} {r : Row} {rs : List Row}

@[simp] theorem Row.starts_zero : (Row.mk 0 d).starts extent = [] := rfl

@[simp] theorem Row.starts_one : (Row.mk 1 d).starts extent = [d] := by
  simp [Row.starts]

@[simp] theorem Row.length_starts : (r.starts extent).length = r.count := by
  simp [Row.starts]

@[simp] theorem starts_nil : starts extent [] = [] := rfl

@[simp] theorem starts_cons : starts extent (r :: rs) = r.starts extent ++ starts extent rs := rfl

theorem starts_singleton : starts extent [r] = r.starts extent := List.append_nil _

theorem length_starts : (starts extent rs).length = (rs.map Row.count).sum := by
  simp [starts, List.length_flatMap]

/-- A row that goes on where another one ends. -/
theorem Row.starts_add : (Row.mk (a + b) d).starts extent =
    (Row.mk a d).starts extent ++ (Row.mk b (d + a * extent)).starts extent := by
  simp only [Row.starts, List.range_add, List.map_append, List.map_map]
  congr 1
  refine List.map_congr_left fun j _ => ?_
  simp only [Function.comp_apply, Nat.cast_add]
  ring

theorem Row.starts_shift (x : ℤ) : (Row.mk n (x + d)).starts extent = ((Row.mk n d).starts extent).map (x + ·) := by
  simp only [Row.starts, List.map_map]
  refine List.map_congr_left fun j _ => ?_
  simp only [Function.comp_apply]
  ring

/-- Rows of `a` items, one behind the other. -/
theorem Row.starts_mul : (Row.mk (n * a) d).starts extent =
    ((Row.mk n d).starts (a * extent)).flatMap fun x => (Row.mk a x).starts extent := by
  induction n with
  | zero => simp
  | succ n ih =>
    rw [Nat.succ_mul, Row.starts_add, ih, Row.starts_add, List.flatMap_append, Row.starts_one,
      List.flatMap_singleton, Nat.cast_mul,
      mul_assoc]

/-- Empty rows may be left out. -/
theorem starts_filter : starts extent (rs.filter fun r => r.count ≠ 0) = starts extent rs := by
  induction rs with
  | nil => rfl
  | cons r rs ih =>
    by_cases empty : r.count = 0
    · obtain ⟨_, d⟩ := r
      obtain rfl : _ = 0 := empty
      rw [List.filter_cons_of_neg (by simp), ih, starts_cons, Row.starts_zero, List.nil_append]
    · rw [List.filter_cons_of_pos (by simpa using empty), starts_cons, ih, starts_cons]

end Starts

section Placed
variable {item xs ys : List ℤ} {x d : ℤ} {n k : ℕ}

@[simp] theorem placed_nil : placed item [] = [] := rfl

theorem placed_append : placed item (xs ++ ys) = placed item xs ++ placed item ys := List.flatMap_append

theorem length_placed : (placed item xs).length = xs.length * item.length := by
  simp [placed, List.length_flatMap]

theorem placed_zero : placed item [0] = item := by
  simp [placed]

/-- Single bytes. -/
theorem placed_byte : placed [0] xs = xs := by
  simp [placed, List.flatMap_singleton']

/-- Items that are made of items. -/
theorem placed_placed : placed (placed item ys) xs = placed item (xs.flatMap fun x => ys.map (x + ·)) := by
  simp only [placed, List.flatMap_assoc, List.map_flatMap, List.flatMap_map, List.map_map]
  congr 1
  funext x
  congr 1
  funext y
  refine List.map_congr_left fun z _ => ?_
  simp only [Function.comp_apply]
  ring

/-- Blocks without gaps between them are one block. -/
theorem placed_block : placed (Block.mk 0 n).bytes ((Row.mk k d).starts n) = (Block.mk d (k * n)).bytes := by
  have item (x : ℤ) : (Block.mk 0 n).bytes.map (x + ·) = (Row.mk n x).starts 1 := by
    simp [Block.bytes, Row.starts, Function.comp_def]
  have whole : (Block.mk d (k * n)).bytes = (Row.mk (k * n) d).starts 1 := by
    simp [Block.bytes, Row.starts]
  rw [whole, Row.starts_mul, mul_one, placed]
  congr 1
  funext x
  exact item x

end Placed

section Spans
variable {xs ys item : List ℤ} {lo hi lo' hi' : ℤ} {n : ℕ}

/-- The least and the greatest of some places. -/
structure Spans (xs : List ℤ) (lo hi : ℤ) : Prop where
  least : IsLeast {x | x ∈ xs} lo
  greatest : IsGreatest {x | x ∈ xs} hi

theorem Spans.append (front : Spans xs lo hi) (back : Spans ys lo' hi') :
    Spans (xs ++ ys) (min lo lo') (max hi hi') := by
  have both : {x | x ∈ xs ++ ys} = {x | x ∈ xs} ∪ {x | x ∈ ys} := by
    ext x
    exact List.mem_append
  exact ⟨both ▸ front.least.union back.least, both ▸ front.greatest.union back.greatest⟩

theorem Spans.placed (places : Spans xs lo hi) (bytes : Spans item lo' hi') :
    Spans (placed item xs) (lo + lo') (hi + hi') := by
  have mem (x y : ℤ) (hx : x ∈ xs) (hy : y ∈ item) : x + y ∈ Foundation.placed item xs :=
    List.mem_flatMap.mpr ⟨x, hx, List.mem_map_of_mem hy⟩
  refine ⟨⟨mem lo lo' places.least.1 bytes.least.1, fun z inside => ?_⟩,
    ⟨mem hi hi' places.greatest.1 bytes.greatest.1, fun z inside => ?_⟩⟩
  · obtain ⟨x, hx, inside⟩ := List.mem_flatMap.mp inside
    obtain ⟨y, hy, rfl⟩ := List.mem_map.mp inside
    exact add_le_add (places.least.2 hx) (bytes.least.2 hy)
  · obtain ⟨x, hx, inside⟩ := List.mem_flatMap.mp inside
    obtain ⟨y, hy, rfl⟩ := List.mem_map.mp inside
    exact add_le_add (places.greatest.2 hx) (bytes.greatest.2 hy)

/-- The first and the last item of a row, in the order that the sign of the extent gives them. -/
theorem Spans.row (d extent : ℤ) (some_items : 0 < n) :
    Spans ((Row.mk n d).starts extent) (d + min 0 (extent * (n - 1))) (d + max 0 (extent * (n - 1))) := by
  have mem (j : ℕ) (lt : j < n) : d + j * extent ∈ (Row.mk n d).starts extent :=
    List.mem_map.mpr ⟨j, List.mem_range.mpr lt, rfl⟩
  have first : d ∈ (Row.mk n d).starts extent := by simpa using mem 0 some_items
  have last : d + extent * (n - 1) ∈ (Row.mk n d).starts extent := by
    have inside := mem (n - 1) (by omega)
    rwa [Nat.cast_sub some_items, Nat.cast_one, mul_comm] at inside
  have between (j : ℕ) (lt : j < n) : min 0 (extent * (n - 1)) ≤ j * extent ∧
      j * extent ≤ max 0 (extent * (n - 1)) := by
    have le : (j : ℤ) ≤ n - 1 := by omega
    obtain forward | backward := le_total 0 extent
    · exact ⟨(min_le_left _ _).trans (by positivity), le_max_of_le_right (by rw [mul_comm]; gcongr)⟩
    · exact ⟨min_le_of_right_le (by rw [mul_comm extent]; exact mul_le_mul_of_nonpos_right le backward),
        le_max_of_le_left (mul_nonpos_of_nonneg_of_nonpos (Int.natCast_nonneg j) backward)⟩
  refine ⟨⟨?_, fun x inside => ?_⟩, ⟨?_, fun x inside => ?_⟩⟩
  · rcases min_choice 0 (extent * ((n : ℤ) - 1)) with least | least
    · rw [least, add_zero]
      exact first
    · rw [least]
      exact last
  · obtain ⟨j, lt, rfl⟩ := List.mem_map.mp inside
    exact add_le_add_right (between j (List.mem_range.mp lt)).1 d
  · rcases max_choice 0 (extent * ((n : ℤ) - 1)) with greatest | greatest
    · rw [greatest, add_zero]
      exact first
    · rw [greatest]
      exact last
  · obtain ⟨j, lt, rfl⟩ := List.mem_map.mp inside
    exact add_le_add_right (between j (List.mem_range.mp lt)).2 d

/-- The bounds of what turns out to be a row. -/
theorem Spans.eq_row {extent : ℤ} (spans : Spans xs lo hi) (some_items : 0 < n) (forward : 0 ≤ extent)
    (row : xs = (Row.mk n 0).starts extent) : lo = 0 ∧ hi = extent * (n - 1) := by
  have other := Spans.row 0 extent some_items
  have nonneg : 0 ≤ extent * ((n : ℤ) - 1) := mul_nonneg forward (by omega)
  rw [← row, min_eq_left nonneg, max_eq_right nonneg, add_zero, zero_add] at other
  exact ⟨spans.least.unique other.least, spans.greatest.unique other.greatest⟩

end Spans

section Marks
variable {α : Type*} [LinearOrder α] {xs : List (α × Bool)} {found : Bool} {x : α}

/-- The least of some values and one more. -/
theorem isLeast_insert {s : Set α} {x y : α} {take : Prop} [Decidable take] (least : IsLeast s x) (iff : take ↔ y < x) :
    IsLeast (insert y s) (if take then y else x) := by
  have lower : (if take then y else x) = min y x := by
    simp only [iff]
    split <;> rename_i lt
    · exact (min_eq_left lt.le).symm
    · exact (min_eq_right (not_lt.mp lt)).symm
  exact lower ▸ least.insert y

theorem isLeast_concat {xs : List α} {x y : α} {take : Prop} [Decidable take] (least : IsLeast {z | z ∈ xs} x)
    (iff : take ↔ y < x) :
    IsLeast {z | z ∈ xs ++ [y]} (if take then y else x) := by
  have more : {z | z ∈ xs ++ [y]} = insert y {z | z ∈ xs} := by
    ext z
    simp [or_comm]
  exact more ▸ isLeast_insert least iff

/-- The least of the marked values, or of all of them where none is marked. -/
structure LeastMarked (xs : List (α × Bool)) (found : Bool) (x : α) : Prop where
  found_iff : found = true ↔ ∃ y, (y, true) ∈ xs
  least : IsLeast {y | (y, found) ∈ xs} x

theorem LeastMarked.singleton (x : α) (mark : Bool) : LeastMarked [(x, mark)] mark x := by
  refine ⟨?_, by simp, fun y mem => ?_⟩
  · simp [eq_comm]
  · obtain ⟨rfl, -⟩ := Prod.mk.inj (List.mem_singleton.mp mem)
    exact le_rfl

/-- One more value: it is kept if it is the first that is marked, or less than what was kept and not behind that
one. -/
theorem LeastMarked.concat (kept : LeastMarked xs found x) (y : α) (mark : Bool) {take : Prop} [Decidable take]
    (iff : take ↔ (found = false ∧ y < x) ∨ (found = false ∧ mark = true) ∨ (mark = true ∧ y < x)) :
    LeastMarked (xs ++ [(y, mark)]) (if take ∧ mark = true then true else found) (if take then y else x) := by
  obtain ⟨found_iff, least⟩ := kept
  have more : {z | (z, mark) ∈ xs ++ [(y, mark)]} = insert y {z | (z, mark) ∈ xs} := by
    ext z
    simp [or_comm]
  cases found <;> cases mark
  · simp only [true_and, Bool.false_eq_true, and_false, false_and, or_false] at iff
    simp only [Bool.false_eq_true, and_false, if_false]
    refine ⟨?_, more ▸ isLeast_insert least iff⟩
    simpa using found_iff
  · simp only [true_and, and_true] at iff
    have taken : take := iff.mpr (.inr (.inl trivial))
    have none (z : α) : (z, true) ∉ xs := fun mem => Bool.false_ne_true (found_iff.mpr ⟨z, mem⟩)
    have only : {z | (z, true) ∈ xs ++ [(y, true)]} = {y} := by
      ext z
      simp [none]
    simp only [taken, true_and, if_true]
    refine ⟨?_, only ▸ isLeast_singleton⟩
    simp [none]
  · have kept : ¬take := by simp [iff]
    simp only [kept, false_and, if_false]
    refine ⟨?_, by simpa using least⟩
    simpa using found_iff
  · simp only [Bool.true_eq_false, false_and, true_and, false_or] at iff
    simp only [and_true, ite_self]
    refine ⟨?_, more ▸ isLeast_insert least iff⟩
    simp only [true_iff]
    exact ⟨y, by simp⟩

end Marks

end FoMPI.Foundation
