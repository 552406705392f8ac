import FoMPI.BasicType.Model

/-!
# The order in which a datatype is taken apart

Every type inside a datatype is looked at with the types that are queued behind it: the last block of a struct comes
first, and the blocks before it wait. The loop is a scan over these positions, which stops at the
first predefined type that differs from the one found first, and where the arrays have no room.
-/
namespace FoMPI.BasicType

variable {ν : Type}

/-- A type inside a datatype, and the types queued behind it when it is looked at. -/
structure Position (ν : Type) where
  type : DataType ν
  behind : List (DataType ν)

mutual

/-- The positions in a datatype that is looked at with `behind` queued. -/
def positions : DataType ν → List (DataType ν) → List (Position ν)
  | .named x, behind => [⟨.named x, behind⟩]
  | .f90 kind, behind => [⟨.f90 kind, behind⟩]
  | .derived combiner oldtype, behind => ⟨.derived combiner oldtype, behind⟩ :: positions oldtype behind
  | .struct blocks, behind => ⟨.struct blocks, behind⟩ :: blockPositions blocks behind

/-- The positions in the blocks of a struct, the last block first. -/
def blockPositions : List (DataType ν) → List (DataType ν) → List (Position ν)
  | [], _ => []
  | block :: later, behind => blockPositions later (block :: behind) ++ positions block behind

end

/-- The positions in a queue. -/
def queuePositions : List (DataType ν) → List (Position ν)
  | [] => []
  | t :: behind => positions t behind ++ queuePositions behind

def DataType.name : DataType ν → Option ν
  | .named x => some x
  | _ => none

/-- The predefined types among positions, in order. -/
def names (ps : List (Position ν)) : List ν := ps.filterMap fun p => p.type.name

section Queue

variable {t : DataType ν} {ts behind : List (DataType ν)}

theorem queuePositions_append_reverse (blocks behind : List (DataType ν)) :
    queuePositions (blocks.reverse ++ behind) = blockPositions blocks behind ++ queuePositions behind := by
  induction blocks generalizing behind with
  | nil => simp [blockPositions]
  | cons block later ih =>
    have pushed := ih (block :: behind)
    rw [queuePositions] at pushed
    rw [List.reverse_cons, List.append_assoc, List.singleton_append, pushed, blockPositions, List.append_assoc]

/-- The head of a queue is the first position; what it contains is pushed in its place. -/
theorem queuePositions_cons (t : DataType ν) (behind : List (DataType ν)) :
    queuePositions (t :: behind) = ⟨t, behind⟩ :: queuePositions (t.contents.reverse ++ behind) := by
  cases t with
  | named x => simp [queuePositions, positions, DataType.contents]
  | f90 kind => simp [queuePositions, positions, DataType.contents]
  | derived combiner oldtype => simp [queuePositions, positions, DataType.contents]
  | struct blocks =>
    rw [queuePositions, positions, DataType.contents, queuePositions_append_reverse, List.cons_append]

theorem queuePositions_singleton (t : DataType ν) : queuePositions [t] = positions t [] := by
  simp [queuePositions]

theorem names_append (ps qs : List (Position ν)) : names (ps ++ qs) = names ps ++ names qs := List.filterMap_append

mutual

/-- The positions meet the leaves of the datatype and no others. -/
theorem mem_names_positions {x : ν} : ∀ (t : DataType ν) (behind : List (DataType ν)),
    x ∈ names (positions t behind) ↔ x ∈ t.leaves
  | .named _, _ => by simp [names, positions, DataType.name, DataType.leaves]
  | .f90 _, _ => by simp [names, positions, DataType.name, DataType.leaves]
  | .derived _ oldtype, behind => mem_names_positions oldtype behind
  | .struct blocks, behind => mem_names_blockPositions blocks behind

theorem mem_names_blockPositions {x : ν} : ∀ blocks behind : List (DataType ν),
    x ∈ names (blockPositions blocks behind) ↔ x ∈ DataType.blockLeaves blocks
  | [], _ => by simp [names, blockPositions, DataType.blockLeaves]
  | block :: later, behind => by
    rw [blockPositions, names_append, List.mem_append, DataType.blockLeaves, List.mem_append,
      mem_names_blockPositions later, mem_names_positions block, or_comm]

end

end Queue

section Scan

/-- What a call leaves behind, its list aside. -/
structure Summary (ν : Type) where
  basicType : Option ν
  flag : Bool
  room : Room
  calls : List (Room × Envelope)
  dropped : List (DataType ν)
  overrun : Bool

def State.summary (s : State ν) : Summary ν where
  basicType := s.basicType
  flag := s.flag
  room := s.room
  calls := s.calls
  dropped := s.dropped.map Entry.type
  overrun := s.overrun

/-- A type taken apart. -/
def Summary.expand (a : Summary ν) (t : DataType ν) : Summary ν :=
  let room := a.room.grow t.envelope.numIntegers
  { a with room := room, calls := a.calls ++ [(room, t.envelope)] }

/-- The arrays have room for the contents of a type. -/
def Summary.Holds (a : Summary ν) (t : DataType ν) : Prop :=
  (a.room.grow t.envelope.numIntegers).Holds t.envelope

instance (a : Summary ν) (t : DataType ν) : Decidable (a.Holds t) :=
  inferInstanceAs (Decidable ((a.room.grow t.envelope.numIntegers).Holds t.envelope))

/-- What a call leaves behind that has taken nothing apart. -/
def Summary.init : Summary ν where
  basicType := none
  flag := true
  room := .init
  calls := []
  dropped := []
  overrun := false

variable [DecidableEq ν]

/-- The loop as a scan of positions. -/
def scan : List (Position ν) → Summary ν → Summary ν
  | [], a => a
  | ⟨.named x, behind⟩ :: ps, a =>
    match a.basicType with
    | none => scan ps { a with basicType := some x }
    | some b => if b ≠ x then { a with flag := false, dropped := behind } else scan ps a
  | ⟨t, _⟩ :: ps, a => if a.Holds t then scan ps (a.expand t) else { a.expand t with overrun := true }

variable {s : State ν} {e : Entry ν} {rest : List (Entry ν)}

theorem scan_cons_of_not_named {t : DataType ν} (other : t.isNamed = false) (behind : List (DataType ν))
    (ps : List (Position ν)) (a : Summary ν) : scan (⟨t, behind⟩ :: ps) a =
      if a.Holds t then scan ps (a.expand t) else { a.expand t with overrun := true } := by
  cases t with
  | named x => cases other
  | f90 kind => rfl
  | derived combiner oldtype => rfl
  | struct blocks => rfl

theorem step_of_not_named (queue : s.queue = e :: rest) (other : e.type.isNamed = false) :
    step s = if s.summary.Holds e.type then s.expand e rest else s.overwrite e := by
  rw [step, queue]
  obtain ⟨handle, t⟩ := e
  cases t with
  | named x => cases other
  | f90 kind => rfl
  | derived combiner oldtype => rfl
  | struct blocks => rfl

omit [DecidableEq ν] in
theorem requeue_eq (got rest : List (Entry ν)) : State.requeue got rest = got.reverse ++ rest := by
  have pushed (got rest : List (Entry ν)) : got.foldl (fun queue e => e :: queue) rest = got.reverse ++ rest := by
    induction got generalizing rest with
    | nil => rfl
    | cons e got ih => rw [List.foldl_cons, ih, List.reverse_cons, List.append_assoc, List.singleton_append]
  unfold State.requeue
  split
  · rfl
  · exact pushed _ _

omit [DecidableEq ν] in
theorem receive_types (k : ℕ) (ts : List (DataType ν)) : (receive k ts).map Entry.type = ts := by
  induction ts generalizing k with
  | nil => rfl
  | cons t ts ih => rw [receive, List.map_cons, ih]

omit [DecidableEq ν] in
/-- The types queued after an expansion. -/
theorem expand_types : (s.expand e rest).queue.map Entry.type = e.type.contents.reverse ++ rest.map Entry.type := by
  change (State.requeue (receive s.next e.type.contents) rest).map Entry.type = _
  rw [requeue_eq, List.map_append, List.map_reverse, receive_types]

omit [DecidableEq ν] in
theorem expand_summary : (s.expand e rest).summary = s.summary.expand e.type := rfl

omit [DecidableEq ν] in
theorem overwrite_summary : (s.overwrite e).summary = { s.summary.expand e.type with overrun := true } := rfl

/-- The positions that a state has still to look at. -/
def State.ahead (s : State ν) : List (Position ν) := queuePositions (s.queue.map Entry.type)

/-- The iterations that are left at most: the first predefined type takes two. -/
def State.togo (s : State ν) : ℕ := s.ahead.length + if s.basicType.isNone then 1 else 0

omit [DecidableEq ν] in
theorem ahead_cons (queue : s.queue = e :: rest) :
    s.ahead = ⟨e.type, rest.map Entry.type⟩ :: queuePositions (e.type.contents.reverse ++ rest.map Entry.type) := by
  rw [State.ahead, queue, List.map_cons, queuePositions_cons]

/-- The five things that an iteration can do. -/
theorem step_cases (queue : s.queue = e :: rest) :
    (e.type.isNamed = false ∧ s.summary.Holds e.type ∧ step s = s.expand e rest) ∨
    (e.type.isNamed = false ∧ ¬s.summary.Holds e.type ∧ step s = s.overwrite e) ∨
    ∃ x, e.type = .named x ∧
      ((s.basicType = none ∧ step s = { s with basicType := some x }) ∨
        (∃ b, s.basicType = some b ∧ b ≠ x ∧ step s = { s with flag := false, queue := [], dropped := rest }) ∨
        (s.basicType = some x ∧ step s = { s with queue := rest })) := by
  by_cases other : e.type.isNamed = false
  · have here := step_of_not_named queue other
    by_cases room : s.summary.Holds e.type
    · exact .inl ⟨other, room, here.trans (if_pos room)⟩
    · exact .inr (.inl ⟨other, room, here.trans (if_neg room)⟩)
  · obtain ⟨handle, t⟩ := e
    cases t with
    | named x =>
      refine .inr (.inr ⟨x, rfl, ?_⟩)
      cases basic : s.basicType with
      | none => exact .inl ⟨rfl, by simp only [step, queue, basic]⟩
      | some b =>
        by_cases differs : b ≠ x
        · exact .inr (.inl ⟨b, rfl, differs, by simp only [step, queue, basic, if_pos differs]⟩)
        · have same : b = x := not_not.mp differs
          exact .inr (.inr ⟨congrArg some same, by simp only [step, queue, basic, if_neg differs]⟩)
    | f90 kind => exact absurd rfl other
    | derived combiner oldtype => exact absurd rfl other
    | struct blocks => exact absurd rfl other

/-- An iteration makes no difference to the scan of what is ahead, and there is less of it. -/
theorem step_scan (queue : s.queue = e :: rest) :
    scan (step s).ahead (step s).summary = scan s.ahead s.summary ∧ (step s).togo < s.togo := by
  have ahead := ahead_cons queue
  obtain ⟨other, room, expanded⟩ | ⟨other, full, overrun⟩ |
    ⟨x, named, ⟨basic, first⟩ | ⟨b, basic, differs, stopped⟩ | ⟨basic, popped⟩⟩ := step_cases queue
  · have rest' : (step s).ahead = queuePositions (e.type.contents.reverse ++ rest.map Entry.type) := by
      rw [State.ahead, expanded, expand_types]
    refine ⟨?_, ?_⟩
    · rw [rest', ahead, scan_cons_of_not_named other, if_pos room, ← expand_summary, expanded]
    · rw [State.togo, State.togo, rest', ahead, List.length_cons, expanded]
      change _ + (if s.basicType.isNone then 1 else 0) < _
      omega
  · have nothing : (step s).ahead = [] := by
      rw [State.ahead, overrun]
      rfl
    refine ⟨?_, ?_⟩
    · rw [nothing, ahead, scan_cons_of_not_named other, if_neg full, overrun, overwrite_summary]
      rfl
    · rw [State.togo, State.togo, nothing, ahead, List.length_cons, List.length_nil, overrun]
      change _ + (if s.basicType.isNone then 1 else 0) < _
      omega
  · -- the entry stays in the list; the scan takes it when it meets it with the type set
    have same : (step s).ahead = s.ahead := by
      rw [first]
      rfl
    refine ⟨?_, ?_⟩
    · rw [same, ahead, first, named]
      simp [scan, State.summary, basic]
    · rw [State.togo, State.togo, same, first, basic]
      simp
  · refine ⟨?_, ?_⟩
    · rw [ahead, stopped, named]
      simp [scan, State.summary, basic, differs, State.ahead, queuePositions]
    · rw [State.togo, State.togo, ahead, stopped]
      simp [State.ahead, queuePositions, basic]
  · rw [named, DataType.contents, List.reverse_nil, List.nil_append] at ahead
    refine ⟨?_, ?_⟩
    · rw [ahead, popped]
      simp [scan, State.summary, basic, State.ahead]
    · rw [State.togo, State.togo, ahead, popped]
      simp [State.ahead, basic]

/-- The loop ends with the result of the scan. -/
theorem run_eq_scan {fuel : ℕ} (enough : s.togo < fuel) :
    ∃ s', run fuel s = some s' ∧ s'.queue = [] ∧ s'.summary = scan s.ahead s.summary := by
  induction fuel generalizing s with
  | zero => omega
  | succ fuel ih =>
    cases queue : s.queue with
    | nil =>
      refine ⟨s, ?_, queue, ?_⟩
      · rw [run, queue]
        rfl
      · rw [State.ahead, queue]
        rfl
    | cons e rest =>
      obtain ⟨same, less⟩ := step_scan queue
      obtain ⟨s', done, empty, result⟩ := @ih (step s) (by omega)
      refine ⟨s', ?_, empty, result.trans same⟩
      rw [run, queue]
      exact done

/-- What holds at the start and is kept by every iteration holds at the end. -/
theorem run_invariant {P : State ν → Prop} (keep : ∀ s, P s → P (step s)) {fuel : ℕ} {s' : State ν} (start : P s)
    (done : run fuel s = some s') : P s' := by
  induction fuel generalizing s with
  | zero => cases done
  | succ fuel ih =>
    rw [run] at done
    split at done
    · cases done
      exact start
    · exact ih (keep s start) done

/-- A call ends, with the result of the scan of its positions. -/
theorem checkBasicType_eq_scan (t : DataType ν) {fuel : ℕ} (enough : (positions t []).length + 1 < fuel) :
    ∃ s, checkBasicType fuel t = some s ∧ s.queue = [] ∧
      s.summary = scan (positions t []) .init := by
  have ahead : (State.init t).ahead = positions t [] := queuePositions_singleton t
  rw [← ahead]
  exact run_eq_scan (by rw [State.togo, ahead]; exact enough)

end Scan

end FoMPI.BasicType
