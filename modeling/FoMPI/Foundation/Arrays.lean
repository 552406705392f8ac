import Mathlib.Data.List.Sort
import Mathlib.Data.Nat.Init
import Mathlib.Tactic.Ring

/-!
# Parts of arrays

The elements of an array of several dimensions are numbered along its axes, the first axis running
fastest. A part takes some places of each axis. If each axis is divided among some owners, each
element is in exactly one of the parts that belong to a choice of owners.
-/
namespace FoMPI.Foundation

/-- An axis, and the places that are taken from it. -/
structure Axis where
  size : ℕ
  places : List ℕ

def volume (as : List Axis) : ℕ := (as.map Axis.size).prod

/-- The numbers of the elements of a part, in the order of these. -/
def numbers : List Axis → List ℕ
  | [] => [0]
  | a :: as => (numbers as).flatMap fun slow => a.places.map fun fast => fast + a.size * slow

/-- Where a part begins that is moved along each axis. -/
def firstNumber : List (Axis × ℕ) → ℕ
  | [] => 0
  | (a, d) :: as => d + a.size * firstNumber as

def Axis.shift (a : Axis) (d : ℕ) : Axis := ⟨a.size, a.places.map (d + ·)⟩

section Elements
variable {a : Axis} {as : List Axis} {x : ℕ}

@[simp] theorem volume_nil : volume [] = 1 := rfl

@[simp] theorem volume_cons : volume (a :: as) = a.size * volume as := List.prod_cons

theorem volume_append {bs : List Axis} : volume (as ++ bs) = volume as * volume bs := by
  simp [volume]

/-- One more axis, which runs slowest. -/
theorem numbers_concat : numbers (as ++ [a]) =
    a.places.flatMap fun slow => (numbers as).map fun fast => fast + volume as * slow := by
  induction as with
  | nil => simp [numbers, List.flatMap_singleton']
  | cons b as ih =>
    rw [List.cons_append, numbers, ih, List.flatMap_assoc]
    congr 1
    funext slow
    rw [numbers, List.flatMap_map, List.map_flatMap]
    congr 1
    funext fast
    rw [List.map_map]
    refine List.map_congr_left fun x _ => ?_
    rw [Function.comp_apply, volume_cons]
    ring

/-- A part that is moved. -/
theorem numbers_shift (as : List (Axis × ℕ)) : numbers (as.map fun pair => pair.1.shift pair.2) =
    (numbers (as.map Prod.fst)).map (firstNumber as + ·) := by
  induction as with
  | nil => rfl
  | cons pair as ih =>
    obtain ⟨a, d⟩ := pair
    rw [List.map_cons, numbers, ih, List.flatMap_map, List.map_cons, numbers, List.map_flatMap]
    congr 1
    funext slow
    dsimp only [Axis.shift]
    rw [List.map_map, List.map_map]
    refine List.map_congr_left fun fast _ => ?_
    simp only [Function.comp_apply, firstNumber]
    ring

/-- The places lie on the axis and are taken in their order. -/
structure Axis.Ordered (a : Axis) : Prop where
  pairwise : a.places.Pairwise (· < ·)
  inside : ∀ y ∈ a.places, y < a.size

/-- The digits of an element are places that are taken. -/
def taken : List Axis → ℕ → Bool
  | [], _ => true
  | a :: as, x => x % a.size ∈ a.places && taken as (x / a.size)

theorem mem_numbers (ordered : ∀ a ∈ as, a.Ordered) : x ∈ numbers as ↔ x < volume as ∧ taken as x := by
  induction as generalizing x with
  | nil => simp [numbers, taken]
  | cons a as ih =>
    obtain ⟨⟨-, inside⟩, ordered⟩ := List.forall_mem_cons.mp ordered
    rw [numbers, List.mem_flatMap, taken, Bool.and_eq_true, decide_eq_true_iff, volume_cons]
    constructor
    · rintro ⟨slow, mem, among⟩
      obtain ⟨fast, place, rfl⟩ := List.mem_map.mp among
      have lt := inside fast place
      have pos : 0 < a.size := by omega
      have next : a.size * (slow + 1) ≤ a.size * volume as := Nat.mul_le_mul_left _ ((ih ordered).mp mem).1
      rw [Nat.mul_succ] at next
      rw [Nat.add_mul_mod_self_left, Nat.mod_eq_of_lt lt, Nat.add_mul_div_left _ _ pos, Nat.div_eq_of_lt lt,
        Nat.zero_add]
      exact ⟨by omega, place, ((ih ordered).mp mem).2⟩
    · rintro ⟨lt, place, rest⟩
      exact ⟨_, (ih ordered).mpr ⟨Nat.div_lt_of_lt_mul lt, rest⟩,
        List.mem_map.mpr ⟨_, place, Nat.mod_add_div x a.size⟩⟩

theorem pairwise_numbers (ordered : ∀ a ∈ as, a.Ordered) : (numbers as).Pairwise (· < ·) := by
  induction as with
  | nil => exact List.pairwise_singleton _ _
  | cons a as ih =>
    obtain ⟨⟨pairwise, inside⟩, ordered⟩ := List.forall_mem_cons.mp ordered
    rw [numbers, List.pairwise_flatMap]
    refine ⟨fun slow _ => List.pairwise_map.mpr (pairwise.imp fun lt => Nat.add_lt_add_right lt _),
      (ih ordered).imp fun {s t} lt x memX y memY => ?_⟩
    obtain ⟨fastX, placeX, rfl⟩ := List.mem_map.mp memX
    obtain ⟨fastY, -, rfl⟩ := List.mem_map.mp memY
    have next : a.size * (s + 1) ≤ a.size * t := Nat.mul_le_mul_left _ lt
    rw [Nat.mul_succ] at next
    have := inside fastX placeX
    omega

/-- A part is what is taken, in the order of the array. -/
theorem numbers_eq_filter (ordered : ∀ a ∈ as, a.Ordered) :
    numbers as = (List.range (volume as)).filter (taken as) := by
  refine (pairwise_numbers ordered).eq_of_mem_iff (List.pairwise_lt_range.filter _) fun x => ?_
  rw [mem_numbers ordered, List.mem_filter, List.mem_range]

end Elements

section Owners

/-- An axis whose places are divided among `procs` owners. -/
structure Split where
  size : ℕ
  procs : ℕ
  owner : ℕ → ℕ

/-- There is an owner of each place. -/
def Split.Owned (s : Split) : Prop := ∀ x < s.size, s.owner x < s.procs

/-- The places of one owner. -/
def Split.axis (s : Split) (c : ℕ) : Axis := ⟨s.size, (List.range s.size).filter fun x => s.owner x = c⟩

variable {s : Split} {ss : List Split} {x c : ℕ} {cs : List ℕ}

theorem Split.ordered_axis : (s.axis c).Ordered where
  pairwise := List.pairwise_lt_range.filter _
  inside _ mem := List.mem_range.mp (List.mem_of_mem_filter mem)

/-- The part of a choice of owners. -/
def portion (ss : List Split) (cs : List ℕ) : List Axis := List.zipWith Split.axis ss cs

/-- Who owns an element on each axis. -/
def owners : List Split → ℕ → List ℕ
  | [], _ => []
  | s :: ss, x => s.owner (x % s.size) :: owners ss (x / s.size)

theorem ordered_portion : ∀ a ∈ portion ss cs, a.Ordered := by
  intro a mem
  obtain ⟨i, lt, rfl⟩ := List.mem_iff_getElem.mp mem
  simp only [portion, List.getElem_zipWith]
  exact Split.ordered_axis

theorem sizes_portion (length : cs.length = ss.length) : (portion ss cs).map Axis.size = ss.map Split.size := by
  induction ss generalizing cs with
  | nil => rfl
  | cons s ss ih =>
    obtain ⟨c, cs, rfl⟩ := List.exists_cons_of_length_eq_add_one length
    rw [List.map_cons, ← ih (by simpa using length)]
    rfl

/-- Each element is in one part only. -/
theorem taken_portion (inside : x < (ss.map Split.size).prod) (length : cs.length = ss.length) :
    taken (portion ss cs) x ↔ owners ss x = cs := by
  induction ss generalizing x cs with
  | nil =>
    obtain rfl := List.eq_nil_of_length_eq_zero length
    simp [portion, taken, owners]
  | cons s ss ih =>
    obtain ⟨c, cs, rfl⟩ := List.exists_cons_of_length_eq_add_one length
    rw [List.map_cons, List.prod_cons] at inside
    have pos : 0 < s.size := Nat.pos_of_mul_pos_right (by omega : 0 < s.size * (ss.map Split.size).prod)
    have here : x % (s.axis c).size ∈ (s.axis c).places ↔ s.owner (x % s.size) = c := by
      simp [Split.axis, Nat.mod_lt x pos]
    have rest : taken (portion ss cs) (x / (s.axis c).size) ↔ owners ss (x / s.size) = cs :=
      ih (Nat.div_lt_of_lt_mul inside) (by simpa using length)
    rw [portion, List.zipWith_cons_cons, taken, Bool.and_eq_true, decide_eq_true_iff, here, owners, List.cons.injEq]
    exact and_congr_right fun _ => rest

/-- The part of a choice of owners is what these own, in the order of the array. -/
theorem numbers_portion (length : cs.length = ss.length) :
    numbers (portion ss cs) = (List.range (ss.map Split.size).prod).filter fun x => owners ss x = cs := by
  rw [numbers_eq_filter ordered_portion, volume, sizes_portion length]
  refine List.filter_congr fun x mem => ?_
  rw [Bool.eq_iff_iff, decide_eq_true_iff]
  exact taken_portion (List.mem_range.mp mem) length

/-- Owners exist. -/
theorem owners_lt (owned : ∀ s ∈ ss, s.Owned) (inside : x < (ss.map Split.size).prod) :
    List.Forall₂ (· < ·) (owners ss x) (ss.map Split.procs) := by
  induction ss generalizing x with
  | nil => exact .nil
  | cons s ss ih =>
    obtain ⟨here, owned⟩ := List.forall_mem_cons.mp owned
    rw [List.map_cons, List.prod_cons] at inside
    have pos : 0 < s.size := Nat.pos_of_mul_pos_right (by omega : 0 < s.size * (ss.map Split.size).prod)
    exact .cons (here _ (Nat.mod_lt x pos)) (ih owned (Nat.div_lt_of_lt_mul inside))

end Owners

section Ranks
variable {ns cs : List ℕ} {r : ℕ}

/-- The coordinates of a rank, the last one running fastest. -/
def coordinates : List ℕ → ℕ → List ℕ
  | [], _ => []
  | _ :: ns, r => r / ns.prod :: coordinates ns (r % ns.prod)

def rankOf : List ℕ → List ℕ → ℕ
  | _ :: ns, c :: cs => c * ns.prod + rankOf ns cs
  | _, _ => 0

theorem coordinates_lt (lt : r < ns.prod) : List.Forall₂ (· < ·) (coordinates ns r) ns := by
  induction ns generalizing r with
  | nil => exact .nil
  | cons n ns ih =>
    rw [List.prod_cons] at lt
    have pos : 0 < ns.prod := Nat.pos_of_mul_pos_left (by omega : 0 < n * ns.prod)
    exact .cons (Nat.div_lt_of_lt_mul (by rwa [Nat.mul_comm])) (ih (Nat.mod_lt r pos))

theorem rankOf_lt (within : List.Forall₂ (· < ·) cs ns) : rankOf ns cs < ns.prod := by
  induction within with
  | nil => exact Nat.one_pos
  | @cons c n cs ns lt _ ih =>
    have next : (c + 1) * ns.prod ≤ n * ns.prod := Nat.mul_le_mul_right _ lt
    rw [Nat.succ_mul] at next
    rw [rankOf, List.prod_cons]
    omega

theorem coordinates_rankOf (within : List.Forall₂ (· < ·) cs ns) : coordinates ns (rankOf ns cs) = cs := by
  induction within with
  | nil => rfl
  | @cons c n cs ns lt within ih =>
    have small := rankOf_lt within
    have pos : 0 < ns.prod := by omega
    rw [rankOf, coordinates, Nat.mul_comm, Nat.mul_add_div pos, Nat.div_eq_of_lt small, Nat.mul_add_mod,
      Nat.mod_eq_of_lt small, ih, Nat.add_zero]

theorem rankOf_coordinates (lt : r < ns.prod) : rankOf ns (coordinates ns r) = r := by
  induction ns generalizing r with
  | nil =>
    obtain rfl : r = 0 := by simpa using lt
    rfl
  | cons n ns ih =>
    rw [List.prod_cons] at lt
    have pos : 0 < ns.prod := Nat.pos_of_mul_pos_left (by omega : 0 < n * ns.prod)
    rw [coordinates, rankOf, ih (Nat.mod_lt r pos), Nat.div_add_mod']

/-- There is one rank at each place of the grid. -/
theorem existsUnique_rank (within : List.Forall₂ (· < ·) cs ns) : ∃! r, r < ns.prod ∧ coordinates ns r = cs := by
  refine ⟨rankOf ns cs, ⟨rankOf_lt within, coordinates_rankOf within⟩, ?_⟩
  rintro r ⟨lt, rfl⟩
  exact (rankOf_coordinates lt).symm

end Ranks

end FoMPI.Foundation
