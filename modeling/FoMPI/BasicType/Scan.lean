import FoMPI.BasicType.Walk

/-!
# The scan of the positions

An induction over the scan, with what it compares: the predefined type that it has, and those ahead.
-/
namespace FoMPI.BasicType

variable {ν : Type}

/-- All the same. -/
def Uniform (xs : List ν) : Prop := ∀ x ∈ xs, ∀ y ∈ xs, x = y

section Uniform

variable {x : ν} {xs : List ν}

theorem uniform_singleton (x : ν) : Uniform [x] := fun y first z second => by
  rw [List.mem_singleton.mp first, List.mem_singleton.mp second]

theorem uniform_cons_cons : Uniform (x :: x :: xs) ↔ Uniform (x :: xs) := by
  simp [Uniform]

theorem Uniform.eq_head (h : Uniform (x :: xs)) {y : ν} (inside : y ∈ x :: xs) : y = x :=
  h y inside x List.mem_cons_self

end Uniform

variable [DecidableEq ν]

section Scan

variable {a : Summary ν} {ps qs : List (Position ν)} {t : DataType ν}

omit [DecidableEq ν] in
theorem names_cons_named (x : ν) (behind : List (DataType ν)) :
    names (⟨.named x, behind⟩ :: ps) = x :: names ps := rfl

omit [DecidableEq ν] in
theorem names_cons_of_not_named (other : t.isNamed = false) (behind : List (DataType ν)) :
    names (⟨t, behind⟩ :: ps) = names ps := by
  cases t with
  | named x => cases other
  | f90 kind => rfl
  | derived combiner oldtype => rfl
  | struct blocks => rfl

/-- The types that a scan compares: the one it has, and those ahead. -/
def Summary.seen (a : Summary ν) (ps : List (Position ν)) : List ν := a.basicType.toList ++ names ps

/-- An induction over the positions with the five things that the scan can do at one. -/
theorem scan_induction {P : List (Position ν) → Summary ν → Prop} (nil : ∀ a, P [] a)
    (first : ∀ x behind ps a, a.basicType = none → P ps { a with basicType := some x } →
      P (⟨.named x, behind⟩ :: ps) a)
    (same : ∀ x behind ps a, a.basicType = some x → P ps a → P (⟨.named x, behind⟩ :: ps) a)
    (differs : ∀ b x behind ps a, a.basicType = some b → b ≠ x → P (⟨.named x, behind⟩ :: ps) a)
    (other : ∀ t behind ps a, t.isNamed = false → a.Holds t → P ps (a.expand t) → P (⟨t, behind⟩ :: ps) a)
    (full : ∀ t behind ps a, t.isNamed = false → ¬a.Holds t → P (⟨t, behind⟩ :: ps) a)
    (ps : List (Position ν)) (a : Summary ν) : P ps a := by
  induction ps generalizing a with
  | nil => exact nil a
  | cons p ps ih =>
    obtain ⟨t, behind⟩ := p
    have apart (unnamed : t.isNamed = false) : P (⟨t, behind⟩ :: ps) a := by
      by_cases room : a.Holds t
      · exact other t behind ps a unnamed room (ih _)
      · exact full t behind ps a unnamed room
    cases t with
    | named x =>
      cases basic : a.basicType with
      | none => exact first x behind ps a basic (ih _)
      | some b =>
        by_cases unequal : b = x
        · exact same x behind ps a (unequal ▸ basic) (ih _)
        · exact differs b x behind ps a basic unequal
    | f90 kind => exact apart rfl
    | derived combiner oldtype => exact apart rfl
    | struct blocks => exact apart rfl

section Equations

variable {x b : ν} {behind : List (DataType ν)}

theorem scan_first (basic : a.basicType = none) :
    scan (⟨.named x, behind⟩ :: ps) a = scan ps { a with basicType := some x } := by
  simp only [scan, basic]

theorem scan_same (basic : a.basicType = some x) : scan (⟨.named x, behind⟩ :: ps) a = scan ps a := by
  simp only [scan, basic, ne_eq, not_true_eq_false, if_false]

theorem scan_differs (basic : a.basicType = some b) (unequal : b ≠ x) :
    scan (⟨.named x, behind⟩ :: ps) a = { a with flag := false, dropped := behind } := by
  simp only [scan, basic, if_pos unequal]

theorem scan_other (other : t.isNamed = false) (room : a.Holds t) :
    scan (⟨t, behind⟩ :: ps) a = scan ps (a.expand t) := (scan_cons_of_not_named other behind ps a).trans (if_pos room)

theorem scan_full (other : t.isNamed = false) (full : ¬a.Holds t) :
    scan (⟨t, behind⟩ :: ps) a = { a.expand t with overrun := true } :=
  (scan_cons_of_not_named other behind ps a).trans (if_neg full)

omit [DecidableEq ν] in
theorem seen_first (basic : a.basicType = none) :
    a.seen (⟨.named x, behind⟩ :: ps) = Summary.seen { a with basicType := some x } ps := by
  simp [Summary.seen, basic, names_cons_named]

omit [DecidableEq ν] in
theorem seen_same (basic : a.basicType = some x) : a.seen (⟨.named x, behind⟩ :: ps) = x :: a.seen ps := by
  simp [Summary.seen, basic, names_cons_named]

omit [DecidableEq ν] in
theorem uniform_seen_same (basic : a.basicType = some x) :
    Uniform (a.seen (⟨.named x, behind⟩ :: ps)) ↔ Uniform (a.seen ps) := by
  have head : a.seen ps = x :: names ps := by simp [Summary.seen, basic]
  rw [seen_same basic, head, uniform_cons_cons]

omit [DecidableEq ν] in
theorem not_uniform_seen (basic : a.basicType = some b) (unequal : b ≠ x) :
    ¬Uniform (a.seen (⟨.named x, behind⟩ :: ps)) := fun uniform =>
  unequal (uniform b (by simp [Summary.seen, basic]) x (by simp [Summary.seen, names_cons_named]))

omit [DecidableEq ν] in
theorem seen_other (other : t.isNamed = false) : a.seen (⟨t, behind⟩ :: ps) = (a.expand t).seen ps := by
  simp [Summary.seen, Summary.expand, names_cons_of_not_named other]

omit [DecidableEq ν] in
theorem uniform_seen_nil (a : Summary ν) : Uniform (a.seen []) := by
  cases basic : a.basicType with
  | none => simp [Summary.seen, basic, names, Uniform]
  | some b => simpa [Summary.seen, basic, names] using uniform_singleton b

end Equations

end Scan


end FoMPI.BasicType
