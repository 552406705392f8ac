import FoMPI.BasicType.Scan
import FoMPI.Foundation.Splits

/-!
# The arrays for the contents of a datatype

One capacity, driven by the numbers of integers, is that of all three arrays.
-/
namespace FoMPI.BasicType

open FoMPI.Foundation

variable {ν : Type}

/-- Every call made had room. -/
def Fit (calls : List (Room × Envelope)) : Prop := ∀ c ∈ calls, c.1.Holds c.2

/-- The number of integers to which the arrays have grown after some positions, from `n` on. -/
def capacity (n : ℕ) (ps : List (Position ν)) : ℕ := ps.foldl (fun m p => max m p.type.envelope.numIntegers) n

section Room

/-- All arrays of one size. -/
def Room.of (n : ℕ) : Room where
  maxAlloc := n
  integers := n
  addresses := n
  datatypes := n

theorem capacity_cons_named (n : ℕ) (x : ν) (behind : List (DataType ν)) (ps : List (Position ν)) :
    capacity n (⟨.named x, behind⟩ :: ps) = capacity n ps := by
  rw [capacity, List.foldl_cons]
  exact congrArg (fun m => capacity m ps) (Nat.max_zero n)

theorem grow_of (n k : ℕ) : (Room.of n).grow k = Room.of (max n k) := by
  rw [Room.grow]
  split
  · rw [Nat.max_eq_right (by simp only [Room.of] at *; omega)]
    rfl
  · rw [Nat.max_eq_left (by simp only [Room.of] at *; omega)]

/-- A datatype has at most one integer fewer than datatypes in it, or one datatype. -/
theorem numDatatypes_le (t : DataType ν) : t.envelope.numDatatypes ≤ max 1 t.envelope.numIntegers := by
  cases t with
  | named x => exact Nat.zero_le _
  | f90 kind => cases kind <;> exact Nat.zero_le _
  | derived combiner oldtype => cases combiner <;> exact Nat.le_max_left _ _
  | struct blocks => exact Nat.le_trans (Nat.le_succ _) (Nat.le_max_right _ _)

/-- Only the addresses can be too many. -/
theorem holds_of_iff {n : ℕ} (some : 1 ≤ n) (t : DataType ν) :
    (Room.of (max n t.envelope.numIntegers)).Holds t.envelope ↔
      t.envelope.numAddresses ≤ max n t.envelope.numIntegers := by
  have datatypes := numDatatypes_le t
  refine ⟨fun holds => holds.addresses, fun fits => ⟨Nat.le_max_right _ _, fits, ?_⟩⟩
  change t.envelope.numDatatypes ≤ max n t.envelope.numIntegers
  omega

end Room

section Scan

variable [DecidableEq ν] {a : Summary ν} {ps : List (Position ν)}

theorem fit_append {calls more : List (Room × Envelope)} : Fit (calls ++ more) ↔ Fit calls ∧ Fit more :=
  List.forall_mem_append

omit [DecidableEq ν] in
theorem fit_expand {t : DataType ν} : Fit (a.expand t).calls ↔ Fit a.calls ∧ a.Holds t := by
  have call : (a.expand t).calls = a.calls ++ [((a.expand t).room, t.envelope)] := rfl
  rw [call, fit_append, Fit, Fit, List.forall_mem_singleton]
  exact Iff.rfl

/-- A scan writes past an array exactly if some call had no room. -/
theorem scan_overrun_iff (running : a.overrun = false) (fits : Fit a.calls) :
    (scan ps a).overrun = false ↔ Fit (scan ps a).calls := by
  induction ps, a using scan_induction with
  | nil a => exact ⟨fun _ => fits, fun _ => running⟩
  | first x behind ps a basic ih => rw [scan_first basic, ih running fits]
  | same x behind ps a basic ih => rw [scan_same basic, ih running fits]
  | differs b x behind ps a basic unequal =>
    rw [scan_differs basic unequal]
    exact ⟨fun _ => fits, fun _ => running⟩
  | other t behind ps a other room ih => rw [scan_other other room, ih running (fit_expand.mpr ⟨fits, room⟩)]
  | full t behind ps a other full =>
    rw [scan_full other full]
    exact ⟨fun no => (by cases no), fun all => absurd (fit_expand.mp all).2 full⟩

omit [DecidableEq ν] in
/-- The contents of the next type have room. -/
theorem holds_iff_capacity {n : ℕ} {t : DataType ν} (some : 1 ≤ n) (room : a.room = .of n) :
    a.Holds t ↔ t.envelope.numAddresses ≤ max n t.envelope.numIntegers := by
  rw [Summary.Holds, room, grow_of, holds_of_iff some t]

/-- Every call of a scan has room exactly if every type taken apart has no more addresses than the
arrays have been grown to. -/
theorem fit_scan_iff {n : ℕ} (some : 1 ≤ n) (room : a.room = .of n) (fits : Fit a.calls) :
    Fit (scan ps a).calls ↔ AtEvery ps fun before p => Uniform (a.seen before) → p.type.isNamed = false →
      p.type.envelope.numAddresses ≤ capacity n (before ++ [p]) := by
  induction ps, a using scan_induction generalizing n with
  | nil a => exact ⟨fun _ => atEvery_nil, fun _ => fits⟩
  | first x behind ps a basic ih =>
    rw [scan_first basic, ih some room fits, atEvery_cons]
    refine (atEvery_congr fun before p => ?_).trans (and_iff_right fun _ named => by cases named).symm
    rw [seen_first basic, List.cons_append, capacity_cons_named]
  | same x behind ps a basic ih =>
    rw [scan_same basic, ih some room fits, atEvery_cons]
    refine (atEvery_congr fun before p => ?_).trans (and_iff_right fun _ named => by cases named).symm
    rw [uniform_seen_same basic, List.cons_append, capacity_cons_named]
  | differs b x behind ps a basic unequal =>
    rw [scan_differs basic unequal, atEvery_cons]
    refine ⟨fun _ => ⟨fun _ named => (by cases named), fun before p after _ uniform => ?_⟩, fun _ => fits⟩
    exact absurd uniform (not_uniform_seen basic unequal)
  | other t behind ps a other holds ih =>
    have grown : (a.expand t).room = .of (max n t.envelope.numIntegers) := by
      rw [← grow_of, ← room]
      rfl
    rw [scan_other other holds, atEvery_cons, ih (by omega) grown (fit_expand.mpr ⟨fits, holds⟩)]
    refine (atEvery_congr fun before p => ?_).trans
      (and_iff_right fun _ _ => (holds_iff_capacity some room).mp holds).symm
    rw [← seen_other other]
    rfl
  | full t behind ps a other full =>
    rw [scan_full other full, atEvery_cons]
    refine ⟨fun all => absurd (fit_expand.mp all).2 full, fun all => ?_⟩
    exact absurd ((holds_iff_capacity some room).mpr (all.1 (uniform_seen_nil a) other)) full

/-- No type that is taken apart has more addresses than the largest number of integers up to it, or than the one
entry allocated first. The types after two unequal predefined types are not taken apart. -/
def HasRoom (t : DataType ν) : Prop :=
  AtEvery (positions t []) fun before p => Uniform (names before) → p.type.isNamed = false →
    p.type.envelope.numAddresses ≤ capacity 1 (before ++ [p])

omit [DecidableEq ν] in
theorem fit_init : Fit (Summary.init : Summary ν).calls := fun c inside => by cases inside

theorem scan_fit_iff (t : DataType ν) : Fit (scan (positions t []) .init).calls ↔ HasRoom t :=
  @fit_scan_iff _ _ .init (positions t []) 1 (Nat.le_refl 1) rfl fit_init

/-- A call stays inside its arrays exactly if there is room. -/
theorem overrun_iff {t : DataType ν} {s : State ν} (result : s.summary = scan (positions t []) .init) :
    s.overrun = false ↔ HasRoom t := by
  have overrun : s.overrun = (scan (positions t []) .init).overrun := by
    rw [← result]
    rfl
  rw [overrun, scan_overrun_iff rfl fit_init, scan_fit_iff]

/-- The three arrays have room at every `MPI_Type_get_contents` exactly if no type that is taken apart has
more addresses than the largest number of integers up to it, or than the one entry allocated
first. The types after two unequal predefined types are not taken apart. -/
theorem contents_fit_iff (t : DataType ν) (fuel : ℕ) (enough : (positions t []).length + 1 < fuel) :
    ∃ s, checkBasicType fuel t = some s ∧
      (Fit s.calls ↔ AtEvery (positions t []) fun before p => Uniform (names before) → p.type.isNamed = false →
        p.type.envelope.numAddresses ≤ capacity 1 (before ++ [p])) := by
  obtain ⟨s, done, _, result⟩ := checkBasicType_eq_scan t enough
  have calls : s.calls = (scan (positions t []) .init).calls := by
    rw [← result]
    rfl
  exact ⟨s, done, calls ▸ scan_fit_iff t⟩

end Scan

section Example

/-- A struct of two resized types: the count of the struct has grown the arrays. -/
theorem contents_fit_struct :
    ∃ s, checkBasicType 10 (.struct [.derived .resized (.named 7), .derived .resized (.named 7)]) = some s ∧
      Fit s.calls := by
  obtain ⟨s, done, fit⟩ :=
    contents_fit_iff (.struct [.derived .resized (.named 7), .derived .resized (.named 7)]) 10 (by decide)
  refine ⟨s, done, fit.mpr ?_⟩
  simp [positions, blockPositions, atEvery_cons, atEvery_nil, DataType.isNamed, DataType.envelope, Combiner.envelope,
    capacity]

/-- A resized type alone: two addresses for an array of one. -/
theorem contents_resized_not_fit :
    ∃ s, checkBasicType 10 (.derived .resized (.named 7)) = some s ∧ ¬Fit s.calls := by
  refine ⟨_, rfl, fun fit => ?_⟩
  have only : (Room.init, (⟨0, 2, 1⟩ : Envelope)) ∈ [(Room.init, (⟨0, 2, 1⟩ : Envelope))] := List.mem_singleton_self _
  exact absurd (fit _ only).addresses (by decide)

end Example

end FoMPI.BasicType
