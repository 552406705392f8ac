import FoMPI.BasicType.Contents

/-!
# `check_basic_type` decides homogeneity

The scan keeps its flag up exactly as long as the predefined types that it meets are the same, if it stays inside its
arrays.
-/
namespace FoMPI.BasicType

open FoMPI.Foundation

variable {ν : Type} [DecidableEq ν]

section Scan

variable {a : Summary ν} {ps : List (Position ν)}

/-- The flag stays up exactly over equal types. -/
theorem scan_flag_iff (up : a.flag = true) (inside : (scan ps a).overrun = false) :
    (scan ps a).flag = true ↔ Uniform (a.seen ps) := by
  induction ps, a using scan_induction with
  | nil a => exact ⟨fun _ => uniform_seen_nil a, fun _ => up⟩
  | first x behind ps a basic ih =>
    rw [scan_first basic] at inside ⊢
    rw [ih up inside, seen_first basic]
  | same x behind ps a basic ih =>
    rw [scan_same basic] at inside ⊢
    rw [ih up inside, uniform_seen_same basic]
  | differs b x behind ps a basic unequal =>
    rw [scan_differs basic unequal]
    exact ⟨fun down => absurd down (by simp), fun uniform => absurd uniform (not_uniform_seen basic unequal)⟩
  | other t behind ps a other room ih =>
    rw [scan_other other room] at inside ⊢
    rw [ih up inside, seen_other other]
  | full t behind ps a other full =>
    rw [scan_full other full] at inside
    cases inside

/-- A scan over equal types has the first of them. -/
theorem scan_basicType (up : a.flag = true) (inside : (scan ps a).overrun = false) (uniform : Uniform (a.seen ps)) :
    (scan ps a).basicType = (a.seen ps).head? := by
  induction ps, a using scan_induction with
  | nil a => cases basic : a.basicType <;> simp [Summary.seen, basic, names, scan]
  | first x behind ps a basic ih =>
    rw [seen_first basic] at uniform ⊢
    rw [scan_first basic] at inside ⊢
    exact ih up inside uniform
  | same x behind ps a basic ih =>
    rw [scan_same basic] at inside ⊢
    rw [ih up inside ((uniform_seen_same basic).mp uniform), seen_same basic]
    simp [Summary.seen, basic]
  | differs b x behind ps a basic unequal => exact absurd uniform (not_uniform_seen basic unequal)
  | other t behind ps a other room ih =>
    rw [seen_other other] at uniform ⊢
    rw [scan_other other room] at inside ⊢
    exact ih up inside uniform
  | full t behind ps a other full =>
    rw [scan_full other full] at inside
    cases inside

end Scan

section Decision

variable {t : DataType ν} {s : State ν}

/-- A call stays inside its arrays, and has flag 1 and the common type if all predefined types are the same, and
flag 0 otherwise. -/
structure Decides (t : DataType ν) (s : State ν) : Prop where
  inside : s.overrun = false
  common : (∃ x, ∀ y ∈ t.leaves, y = x) → s.flag = true ∧ ∀ x ∈ t.leaves, s.basicType = some x
  mixed : (¬∃ x, ∀ y ∈ t.leaves, y = x) → s.flag = false

omit [DecidableEq ν] in
/-- The positions meet one predefined type exactly if the datatype is made of one. -/
theorem uniform_names_iff (nonempty : t.leaves ≠ []) :
    Uniform (names (positions t [])) ↔ ∃ x, ∀ y ∈ t.leaves, y = x := by
  simp only [Uniform, mem_names_positions]
  constructor
  · intro all
    obtain ⟨x, inside⟩ := List.exists_mem_of_ne_nil _ nonempty
    exact ⟨x, fun y other => all y other x inside⟩
  · rintro ⟨x, all⟩ y first z second
    rw [all y first, all z second]

/-- Inside its arrays the call decides. -/
theorem decides_of_inside (nonempty : t.leaves ≠ []) (result : s.summary = scan (positions t []) .init)
    (inside : s.overrun = false) : Decides t s := by
  have seen : (Summary.init : Summary ν).seen (positions t []) = names (positions t []) := rfl
  have within : (scan (positions t []) .init).overrun = false := result ▸ inside
  have flag := scan_flag_iff rfl within
  rw [← result, seen, uniform_names_iff nonempty] at flag
  refine ⟨inside, fun common => ⟨flag.mpr common, fun x leaf => ?_⟩, fun mixed => ?_⟩
  · have uniform := (uniform_names_iff nonempty).mpr common
    have basic := scan_basicType rfl within uniform
    rw [← result, seen] at basic
    have met : x ∈ names (positions t []) := (mem_names_positions t []).mpr leaf
    cases found : names (positions t []) with
    | nil => rw [found] at met; cases met
    | cons y ys =>
      have same : x = y := (found ▸ uniform : Uniform (y :: ys)).eq_head (found ▸ met)
      rw [found] at basic
      exact same ▸ basic
  · exact Bool.eq_false_iff.mpr fun up => mixed (flag.mp up)

end Decision

/-- `check_basic_type` ends for every datatype with a predefined type in it, and decides exactly if its arrays have
room for the contents of every type that it takes apart. -/
theorem checkBasicType_homogeneous (t : DataType ν) (nonempty : t.leaves ≠ []) (fuel : ℕ)
    (enough : (positions t []).length + 1 < fuel) :
    ∃ s, checkBasicType fuel t = some s ∧ (Decides t s ↔ HasRoom t) := by
  obtain ⟨s, done, _, result⟩ := checkBasicType_eq_scan t enough
  refine ⟨s, done, ?_⟩
  rw [← overrun_iff result]
  exact ⟨fun decides => decides.inside, decides_of_inside nonempty result⟩

/-- A struct of a contiguous type and a plain one, of one predefined type. -/
theorem checkBasicType_homogeneous_struct :
    ∃ s, checkBasicType 6 (.struct [.derived .contiguous (.named 7), .named 7]) = some s ∧
      Decides (.struct [.derived .contiguous (.named 7), .named 7]) s := by
  obtain ⟨s, done, decides⟩ :=
    checkBasicType_homogeneous (.struct [.derived .contiguous (.named 7), .named 7]) (by decide) 6 (by decide)
  refine ⟨s, done, decides.mpr ?_⟩
  simp [HasRoom, positions, blockPositions, atEvery_cons, atEvery_nil, DataType.isNamed, DataType.envelope,
    Combiner.envelope, capacity]

/-- A thousand blocks of one predefined type: their addresses are written into an array of two. -/
theorem checkBasicType_homogeneous_fails :
    ∃ s, checkBasicType 10 (.derived (.hindexedBlock 1000) (.named 7)) = some s ∧
      ¬Decides (.derived (.hindexedBlock 1000) (.named 7)) s := by
  refine ⟨_, rfl, fun decides => ?_⟩
  exact absurd decides.inside (by decide)

end FoMPI.BasicType
