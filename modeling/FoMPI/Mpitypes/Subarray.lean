import FoMPI.Foundation.Arrays
import FoMPI.Mpitypes.Footprint

/-!
# Subarrays

`MPIT_Type_convert_subarray` writes a part of an array as vectors of vectors, between markers at the bounds of
the whole array. The type map lists the elements of the part in the order of the array.
-/
namespace FoMPI.Mpitypes
open FoMPI.Foundation

/-- `MPI_ORDER_FORTRAN` and `MPI_ORDER_C`. -/
inductive Order
  | fortran
  | c
  deriving DecidableEq, Repr

/-- The dimensions from the one that runs fastest on. -/
def Order.fastestFirst {α : Type} (order : Order) (dims : List α) : List α :=
  match order with
  | .fortran => dims
  | .c => dims.reverse

theorem Order.prod_fastestFirst {α : Type} (order : Order) (f : α → ℕ) (dims : List α) :
    ((order.fastestFirst dims).map f).prod = (dims.map f).prod := by
  cases order with
  | fortran => rfl
  | c => rw [Order.fastestFirst, List.map_reverse, List.prod_reverse]

theorem Order.mem_fastestFirst {α : Type} {order : Order} {dims : List α} {d : α} :
    d ∈ order.fastestFirst dims ↔ d ∈ dims := by
  cases order with
  | fortran => exact Iff.rfl
  | c => exact List.mem_reverse

/-- One dimension of a subarray. -/
structure Slice where
  size : ℕ
  subsize : ℕ
  start : ℕ
  deriving DecidableEq, Repr

section Convert
variable {ν : Type} (p : Predefined ν)

/-- The struct of `MPI_LB` at 0, a type and `MPI_UB`. A marker is the bound, unless one that is set in the type is
further out. -/
def bounded (disp ub : ℤ) (type : Datatype ν) : Datatype ν :=
  let struct := Datatype.struct 1 [⟨1, disp, ⟨0, Nat.one_pos⟩⟩] fun _ => type
  let tfp := struct.calcFootprint p
  let minLb := if tfp.hasStickyLb ∧ tfp.lb < 0 then tfp.lb else 0
  let maxUb := if tfp.hasStickyUb ∧ ub < tfp.ub then tfp.ub else ub
  .resized minLb (maxUb - minLb) struct

/-- The loop that adds up the starts, from sizes and starts; `size` is the product of the sizes in front. -/
def displacement (size : ℕ) : List (ℕ × ℕ) → ℕ
  | [] => 0
  | (n, start) :: rest => size * start + displacement (size * n) rest

/-- The loop over the dimensions behind the second one; `prev` is the size of the one in front, and `size` the
extent of one item of that. -/
def hvectors (tmp1 : Datatype ν) (size : ℤ) (prev : ℕ) : List Slice → Datatype ν
  | [] => tmp1
  | d :: ds => hvectors (.derived (.hvector d.subsize 1 (size * prev)) tmp1) (size * prev) d.size ds

/-- The vectors, for dimensions from the fastest one on. There is at least one. -/
def vectors (oldtype : Datatype ν) : List Slice → Option (Datatype ν)
  | [] => none
  | [d] => some (.derived (.contiguous d.subsize) oldtype)
  | d :: e :: ds => some (hvectors (.derived (.vector e.subsize d.subsize d.size) oldtype)
      (d.size * (oldtype.calcFootprint p).extent) e.size ds)

/-- `Type_convert_subarray`, whose two branches do the same from either end. -/
def convertSubarray (dims : List Slice) (order : Order) (oldtype : Datatype ν) : Option (Datatype ν) :=
  let ordered := order.fastestFirst dims
  let extent := (oldtype.calcFootprint p).extent
  (vectors p oldtype ordered).map (bounded p (displacement 1 (ordered.map fun d => (d.size, d.start)) * extent)
    (extent * (dims.map Slice.size).prod))

end Convert

section Items
variable {item : List ℤ} {extent : ℤ} {as : List Axis} {l : ℕ}

/-- The places of elements. -/
def scaled (extent : ℤ) (xs : List ℕ) : List ℤ := xs.map fun x : ℕ => x * extent

/-- Copies of a part along one more axis. -/
theorem placed_axis (n : ℕ) (ys : List ℕ) :
    placed (placed item (scaled extent (numbers as))) (scaled (volume as * extent) ys) =
      placed item (scaled extent (numbers (as ++ [⟨n, ys⟩]))) := by
  rw [placed_placed, numbers_concat]
  congr 1
  simp only [scaled, List.flatMap_map, List.map_flatMap, List.map_map]
  congr 1
  funext y
  refine List.map_congr_left fun x _ => ?_
  simp only [Function.comp_apply]
  push_cast
  ring

theorem mem_placed {xs : List ℤ} {x y : ℤ} (place : x ∈ xs) (byte : y ∈ item) : x + y ∈ placed item xs :=
  List.mem_flatMap.mpr ⟨x, place, List.mem_map.mpr ⟨y, byte, rfl⟩⟩

theorem placed_singleton (d : ℤ) (xs : List ℤ) : placed (placed item xs) [d] = placed item (xs.map (d + ·)) := by
  rw [placed_placed, List.flatMap_singleton]

/-- Elements that are moved by whole elements. -/
theorem scaled_shift (d : ℕ) (xs : List ℕ) :
    (scaled extent xs).map ((d * extent : ℤ) + ·) = scaled extent (xs.map (d + ·)) := by
  rw [scaled, scaled, List.map_map, List.map_map]
  refine List.map_congr_left fun x _ => ?_
  simp only [Function.comp_apply]
  push_cast
  ring

theorem starts_hvector (n : ℕ) (stride : ℤ) :
    starts extent ((Combiner.hvector n 1 stride).rows extent) = scaled stride (List.range n) := by
  simp only [Combiner.rows, starts, scaled, List.flatMap_map, Row.starts_one]
  exact List.map_eq_flatMap.symm

theorem starts_contiguous (n : ℕ) :
    starts extent ((Combiner.contiguous n).rows extent) = scaled extent (List.range n) := by
  simp [Combiner.rows, starts, scaled, Row.starts]

/-- Rows of the two axes that run fastest. -/
theorem starts_rows (m n k : ℕ) : starts extent ((Combiner.vector m n k).rows extent) =
    scaled extent (numbers [⟨k, List.range n⟩, ⟨l, List.range m⟩]) := by
  simp only [Combiner.rows, starts, Row.starts, scaled, numbers, List.flatMap_map, List.flatMap_singleton,
    List.map_flatMap, List.map_map]
  refine List.flatMap_congr fun i _ => List.map_congr_left fun j _ => ?_
  simp only [Function.comp_apply]
  push_cast
  ring

theorem displacement_eq (size : ℕ) (as : List (Axis × ℕ)) :
    displacement size (as.map fun pair => (pair.1.size, pair.2)) = size * firstNumber as := by
  induction as generalizing size with
  | nil => rfl
  | cons pair as ih =>
    obtain ⟨a, d⟩ := pair
    rw [List.map_cons, displacement, ih, firstNumber]
    ring

end Items

section Bounds
variable {ν : Type} {p : Predefined ν} {cfp : Footprint} {t oldtype : Datatype ν} {disp ub : ℤ}

theorem data_bounded : (bounded p disp ub t).data p = placed (t.data p) [disp] := by
  simp [bounded, Datatype.data]

/-- No bound is set. -/
def Footprint.Free (cfp : Footprint) : Prop := cfp.hasStickyLb = false ∧ cfp.hasStickyUb = false

theorem Footprint.Free.derived (free : cfp.Free) (c : Combiner) : (c.footprint cfp).Free := by
  have none : Footprint.zero.Free := ⟨rfl, rfl⟩
  have spread (size : ℕ) (lbUb : ℤ × ℤ) : (cfp.spread size lbUb).Free := free
  have blocks (rows : List Row) : (cfp.blocks rows).Free := by
    unfold Footprint.blocks
    split
    · exact none
    · exact spread _ _
  cases c with
  | contiguous count =>
    rw [Combiner.footprint]
    split
    · exact none
    · exact spread _ _
  | vector count blocklength stride =>
    rw [Combiner.footprint]
    split
    · exact none
    · exact spread _ _
  | hvector count blocklength stride =>
    rw [Combiner.footprint]
    split
    · exact none
    · exact spread _ _
  | indexedBlock blocklength displacements =>
    cases displacements with
    | nil => exact none
    | cons disp disps => exact spread _ _
  | indexed rows => exact blocks _
  | hindexed rows => exact blocks _

theorem Footprint.Free.pad (free : cfp.Free) : cfp.pad.Free := by
  unfold Footprint.pad Footprint.Free
  dsimp only
  rw [apply_ite Footprint.hasStickyLb, apply_ite Footprint.hasStickyUb, ite_self, ite_self]
  exact free

/-- The markers are the bounds where none is set in the type. -/
theorem extent_bounded (free : (t.calcFootprint p).Free) : ((bounded p disp ub t).calcFootprint p).extent = ub := by
  have struct : ((Datatype.struct 1 [⟨1, disp, ⟨0, Nat.one_pos⟩⟩] fun _ => t).calcFootprint p).Free := by
    refine Footprint.Free.pad ?_
    simp [Footprint.Free, Footprint.member, free.1, free.2, Footprint.zero]
  unfold bounded
  generalize (Datatype.struct 1 [⟨1, disp, ⟨0, Nat.one_pos⟩⟩] fun _ => t) = s at struct ⊢
  dsimp only
  rw [if_neg (by simp [struct.1]), if_neg (by simp [struct.2])]
  exact sub_zero ub

end Bounds

section Typemap
variable {ν : Type} {p : Predefined ν} {t oldtype : Datatype ν} {item : List ℤ} {extent : ℤ} {as : List Axis}

def Slice.axis (d : Slice) : Axis := ⟨d.size, List.range d.subsize⟩

/-- The loop: each pass adds an axis. -/
theorem hvectors_spec (ds : List Slice) (prev : ℕ) (size : ℤ) (whole : size * prev = volume as * extent)
    (data : t.data p = placed item (scaled extent (numbers as))) :
    (hvectors t size prev ds).data p = placed item (scaled extent (numbers (as ++ ds.map Slice.axis))) := by
  induction ds generalizing t as size prev with
  | nil => rw [hvectors, data, List.map_nil, List.append_nil]
  | cons d ds ih =>
    rw [hvectors, List.map_cons, List.append_cons]
    refine ih d.size (size * prev) ?_ ?_
    · rw [whole, volume_append]
      simp [Slice.axis, volume]
      ring
    · rw [Datatype.data, starts_hvector, data, whole]
      exact placed_axis d.size _

theorem hvectors_free (ds : List Slice) (prev : ℕ) (size : ℤ) (free : (t.calcFootprint p).Free) :
    ((hvectors t size prev ds).calcFootprint p).Free := by
  induction ds generalizing t size prev with
  | nil => exact free
  | cons d ds ih => exact ih d.size (size * prev) (free.derived _)

/-- The vectors are the part moved to the origin. -/
theorem vectors_spec {dims : List Slice} (some_dims : dims ≠ []) :
    ∃ t, vectors p oldtype dims = some t ∧
      t.data p = placed (oldtype.data p) (scaled (oldtype.calcFootprint p).extent (numbers (dims.map Slice.axis))) ∧
      ((oldtype.calcFootprint p).Free → (t.calcFootprint p).Free) := by
  obtain ⟨d, ds, rfl⟩ := List.exists_cons_of_ne_nil some_dims
  cases ds with
  | nil =>
    refine ⟨_, rfl, ?_, fun free => free.derived _⟩
    rw [Datatype.data, starts_contiguous]
    simp [numbers, Slice.axis]
  | cons e ds =>
    have rows : (Datatype.derived (.vector e.subsize d.subsize d.size) oldtype).data p =
        placed (oldtype.data p) (scaled (oldtype.calcFootprint p).extent (numbers [d.axis, e.axis])) := by
      rw [Datatype.data, starts_rows]
      rfl
    refine ⟨_, rfl, hvectors_spec ds e.size _ ?_ rows, fun free => hvectors_free ds _ _ (free.derived _)⟩
    simp [Slice.axis, volume]
    ring

/-- The element `x` of an array lies in a part of it. -/
def inSlices : List Slice → ℕ → Bool
  | [], _ => true
  | d :: ds, x => d.start ≤ x % d.size && x % d.size < d.start + d.subsize && inSlices ds (x / d.size)

theorem taken_inSlices (dims : List Slice) (x : ℕ) :
    taken (dims.map fun d => d.axis.shift d.start) x = inSlices dims x := by
  induction dims generalizing x with
  | nil => rfl
  | cons d ds ih =>
    rw [List.map_cons, taken, inSlices, ← ih]
    congr 1
    rw [Bool.eq_iff_iff, decide_eq_true_iff, Bool.and_eq_true, decide_eq_true_iff, decide_eq_true_iff]
    simp only [Axis.shift, Slice.axis, List.mem_map, List.mem_range]
    constructor
    · rintro ⟨y, lt, same⟩
      omega
    · rintro ⟨le, lt⟩
      exact ⟨x % d.size - d.start, by omega, by omega⟩

theorem numbers_inSlices {dims : List Slice} (within : ∀ d ∈ dims, d.start + d.subsize ≤ d.size) :
    numbers (dims.map fun d => d.axis.shift d.start) =
      (List.range (dims.map Slice.size).prod).filter (inSlices dims) := by
  have ordered : ∀ a ∈ dims.map fun d => d.axis.shift d.start, a.Ordered := by
    intro a mem
    obtain ⟨d, listed, rfl⟩ := List.mem_map.mp mem
    refine ⟨List.pairwise_map.mpr (List.pairwise_lt_range.imp fun lt => Nat.add_lt_add_left lt _), fun y place => ?_⟩
    obtain ⟨j, lt, rfl⟩ := List.mem_map.mp place
    have := List.mem_range.mp lt
    have := within d listed
    exact (by omega : d.start + j < d.size)
  rw [numbers_eq_filter ordered]
  have same : taken (dims.map fun d => d.axis.shift d.start) = inSlices dims := funext (taken_inSlices dims)
  rw [same, volume, List.map_map]
  rfl

/-- The vectors are moved to where the part begins. -/
theorem convertSubarray_spec {dims : List Slice} (some_dims : dims ≠ [])
    (within : ∀ d ∈ dims, d.start + d.subsize ≤ d.size) (order : Order) (oldtype : Datatype ν) :
    ∃ t disp, vectors p oldtype (order.fastestFirst dims) = some t ∧
      convertSubarray p dims order oldtype =
        some (bounded p disp ((oldtype.calcFootprint p).extent * (dims.map Slice.size).prod) t) ∧
      placed (t.data p) [disp] = placed (oldtype.data p) (scaled (oldtype.calcFootprint p).extent
        ((List.range (dims.map Slice.size).prod).filter (inSlices (order.fastestFirst dims)))) ∧
      ((oldtype.calcFootprint p).Free → (t.calcFootprint p).Free) := by
  obtain ⟨d, listed⟩ := List.exists_mem_of_ne_nil dims some_dims
  have some_ordered : order.fastestFirst dims ≠ [] := List.ne_nil_of_mem (Order.mem_fastestFirst.mpr listed)
  have within_ordered : ∀ d ∈ order.fastestFirst dims, d.start + d.subsize ≤ d.size :=
    fun d mem => within d (Order.mem_fastestFirst.mp mem)
  obtain ⟨t, run, data, unset⟩ := @vectors_spec _ p oldtype _ some_ordered
  refine ⟨t, _, run, by rw [convertSubarray, run, Option.map_some], ?_, unset⟩
  have moved : displacement 1 ((order.fastestFirst dims).map fun d => (d.size, d.start)) =
      firstNumber ((order.fastestFirst dims).map fun d => (d.axis, d.start)) := by
    rw [← Nat.one_mul (firstNumber _), ← displacement_eq, List.map_map]
    rfl
  have shifted := numbers_shift ((order.fastestFirst dims).map fun d => (d.axis, d.start))
  simp only [List.map_map, Function.comp_def] at shifted
  rw [data, placed_singleton, moved, ← order.prod_fastestFirst, ← numbers_inSlices within_ordered, shifted,
    scaled_shift]

/-- The type map of a subarray lists the elements of the part in the order of the array, in either storage order,
and the extent is that of the whole array if no bound of the old type is set. -/
theorem subarray_typemap {dims : List Slice} (some_dims : dims ≠ [])
    (within : ∀ d ∈ dims, d.start + d.subsize ≤ d.size) (order : Order) (oldtype : Datatype ν) :
    ∃ t, convertSubarray p dims order oldtype = some t ∧
      t.data p = placed (oldtype.data p) (scaled (oldtype.calcFootprint p).extent
        ((List.range (dims.map Slice.size).prod).filter (inSlices (order.fastestFirst dims)))) ∧
      ((oldtype.calcFootprint p).Free →
        (t.calcFootprint p).extent = (oldtype.calcFootprint p).extent * (dims.map Slice.size).prod) := by
  obtain ⟨t, disp, -, run, data, unset⟩ := convertSubarray_spec some_dims within order oldtype
  exact ⟨_, run, data_bounded.trans data, fun free => extent_bounded (unset free)⟩

/-- Two rows of two, in the last corner of three rows of four. -/
def corner : List Slice := [⟨3, 2, 1⟩, ⟨4, 2, 2⟩]

theorem subarray_typemap_corner : ∃ t, convertSubarray .ints corner .c (.named ()) = some t ∧
    t.data .ints = placed [0, 1, 2, 3] [24, 28, 40, 44] ∧ (t.calcFootprint .ints).extent = 48 := by
  obtain ⟨t, run, data, extent⟩ := @subarray_typemap _ .ints corner (by decide) (by decide) .c (.named ())
  exact ⟨t, run, data, extent ⟨rfl, rfl⟩⟩

end Typemap

section Created
variable {ν : Type} {p : Predefined ν} {t oldtype : Datatype ν} {disp ub : ℤ}

theorem hvectors_unresized (ds : List Slice) (prev : ℕ) (size : ℤ) (some_items : ∀ d ∈ ds, 0 < d.subsize)
    (unresized : t.Unresized) : (hvectors t size prev ds).Unresized := by
  induction ds generalizing t size prev with
  | nil => exact unresized
  | cons d ds ih =>
    obtain ⟨here, some_items⟩ := List.forall_mem_cons.mp some_items
    exact ih d.size (size * prev) some_items ⟨⟨⟨here, Nat.one_pos⟩, by simp⟩, unresized⟩

/-- No extent is set in the vectors. -/
theorem vectors_unresized {dims : List Slice} (some_items : ∀ d ∈ dims, 0 < d.subsize)
    (unresized : oldtype.Unresized) (made : vectors p oldtype dims = some t) : t.Unresized := by
  cases dims with
  | nil => contradiction
  | cons d ds =>
    obtain ⟨here, some_items⟩ := List.forall_mem_cons.mp some_items
    cases ds with
    | nil =>
      obtain rfl := Option.some.inj made
      exact ⟨⟨here, by simp⟩, unresized⟩
    | cons e ds =>
      obtain ⟨next, some_items⟩ := List.forall_mem_cons.mp some_items
      obtain rfl := Option.some.inj made
      exact hvectors_unresized ds _ _ some_items ⟨⟨⟨next, here⟩, by simp⟩, unresized⟩

/-- The dataloop of a type between markers is one block of it. -/
theorem created_bounded (fuel : ℕ) (stack : ℕ → Stackelm) (unresized : t.Unresized) :
    ∃ loop, (bounded p disp ub t).dataloopCreate p fuel stack = some loop ∧
      ((bounded p disp ub t).withLoop p loop).StandsFor ((bounded p disp ub t).data p) := by
  obtain ⟨regular, -, even⟩ := @unresized_spec _ p t fuel stack unresized
  obtain ⟨old, created, stands⟩ := created_spec regular
  have fit := stands.fit (even old created).dense
  have built := (blockindexed_spec fit.sound (List.cons_ne_nil disp []) Nat.one_pos true).built fit
  have one : starts (t.withLoop p old).extent
      ([disp].map fun d => ⟨1, effDisp true (t.withLoop p old).extent d⟩) = [disp] := by
    rw [List.map_singleton, starts_singleton, Row.starts_one]
    rfl
  have data := @data_bounded _ p t disp ub
  rw [one, stands.bytes, ← data] at built
  refine ⟨_, ?_, built.standsFor⟩
  simp [bounded, Datatype.dataloopCreate, created, dataloopCreateStruct]

end Created

end FoMPI.Mpitypes
