import FoMPI.Combine.RmaOp

/-!
# What `foMPI_RMA_op` makes of one element

Every operation that a type has goes over the elements with one body. Into a third
buffer the body computes `combine` of the two arguments. With the result in place of
the second argument it does so as well, but for the product of Fortran complex types.
-/
namespace FoMPI.Combine
open FoMPI.Accumulate FoMPI.Foundation

namespace BasicType

/-- The operations that are computed. -/
def arms (T : BasicType) : List Op :=
  match T.expansion with
  | .scalar unfinished chain => unfinished ++ chain
  | .fortranComplex | .cComplex => [.sum, .prod]
  | .pair => [.maxloc, .minloc]
  | .missing => []

/-- The offsets of the fields of an element. -/
def fields (T : BasicType) : List ℕ :=
  match T.expansion with
  | .scalar _ _ => [0]
  | .fortranComplex | .cComplex | .pair => [0, T.second]
  | .missing => []

theorem second_pos (T : BasicType) : 0 < T.second := by
  unfold second
  split <;> decide

end BasicType

variable {V : Type*} (M : Machine V) (T : BasicType) (op : Op)

/-- The body of the loop for an operation. -/
def body (p3 p1 p2 : Loc) (m : Memory V) : Memory V :=
  match T.expansion with
  | .scalar _ _ => ifBody M T p3 p1 p2 m op
  | .fortranComplex => if op = .sum then compSumBody M T p3 p1 p2 m else compProdBody M T p3 p1 p2 m
  | .cComplex => if op = .sum then cCompSumBody M T p3 p1 p2 m else cCompProdBody M T p3 p1 p2 m
  | .pair => if op = .maxloc then maxlocBody M T p3 p1 p2 m else minlocBody M T p3 p1 p2 m
  | .missing => m

/-- The fields of an element at an address; the only field of a scalar counts as both. -/
def fieldsAt (m : Memory V) (p : Loc) : V × V :=
  match T.expansion with
  | .scalar _ _ | .missing => (m p, m p)
  | .fortranComplex | .cComplex | .pair => (m p, m (p.shift T.second))

/-- The fields of the result. -/
def combine (a b : V × V) : V × V :=
  let A := M.arith T
  match T.expansion with
  | .scalar _ _ =>
    let value := (A.m4Op a.1 b.1 op).getD b.1
    (value, value)
  | .fortranComplex | .cComplex =>
    if op = .sum then (A.add b.1 a.1, A.add b.2 a.2)
    else (A.sub (A.mul a.1 b.1) (A.mul a.2 b.2), A.add (A.mul a.1 b.2) (A.mul a.2 b.1))
  | .pair =>
    if op = .maxloc then
      if A.lt a.1 b.1 then b else if A.lt b.1 a.1 then a else if M.rankLt T a.2 b.2 then a else b
    else if A.lt b.1 a.1 then b else if A.lt a.1 b.1 then a else if M.rankLt T b.2 a.2 then b else a
  | .missing => b

/-- The same with the result in place of `b`. -/
def combineInPlace (a b : V × V) : V × V :=
  let A := M.arith T
  if T.expansion = .fortranComplex ∧ op ≠ .sum then
    ((combine M T op a b).1, A.add (A.mul a.1 b.2) (A.mul a.2 (combine M T op a b).1))
  else combine M T op a b

variable {M T op}

section Arms
variable {p3 p1 p2 : Loc} {m : Memory V} {count : ℕ}

/-- No operation of a type is in both chains. -/
theorem chains_disjoint {unfinished chain : List Op} (scalar : T.expansion = .scalar unfinished chain) :
    op ∈ unfinished → op ∉ chain := by
  unfold BasicType.expansion at scalar
  split at scalar <;> first | contradiction | (cases scalar; revert op; decide)

/-- What `foMPI_RMA_op` computes it computes with the body, whatever it returns. -/
theorem rmaOp_memory (computed : op ∈ T.arms) :
    (rmaOp M T p3 p1 p2 m op count).1 = loop T p3 p1 p2 m (body M T op) count := by
  unfold rmaOp
  cases expansion : T.expansion with
  | scalar unfinished chain =>
    have run : body M T op = fun p3 p1 p2 m => ifBody M T p3 p1 p2 m op := by
      funext p3 p1 p2 m
      simp [body, expansion]
    rw [run]
    simp only [BasicType.arms, expansion, List.mem_append] at computed
    by_cases first : op ∈ unfinished
    · simp [first, chains_disjoint expansion first]
    · simp [first, computed.resolve_left first]
  | fortranComplex =>
    simp only [BasicType.arms, expansion, List.mem_cons, List.not_mem_nil, or_false] at computed
    have run : body M T op = if op = .sum then compSumBody M T else compProdBody M T := by
      funext p3 p1 p2 m
      simp only [body, expansion]
      split <;> rfl
    obtain rfl | rfl := computed <;> simp [run]
  | cComplex =>
    simp only [BasicType.arms, expansion, List.mem_cons, List.not_mem_nil, or_false] at computed
    have run : body M T op = if op = .sum then cCompSumBody M T else cCompProdBody M T := by
      funext p3 p1 p2 m
      simp only [body, expansion]
      split <;> rfl
    obtain rfl | rfl := computed <;> simp [run]
  | pair =>
    simp only [BasicType.arms, expansion, List.mem_cons, List.not_mem_nil, or_false] at computed
    have run : body M T op = if op = .maxloc then maxlocBody M T else minlocBody M T := by
      funext p3 p1 p2 m
      simp only [body, expansion]
      split <;> rfl
    obtain rfl | rfl := computed <;> simp [run]
  | missing => simp [BasicType.arms, expansion] at computed

/-- What it does not compute it leaves, and says so. -/
theorem rmaOp_untouched (missing : op ∉ T.arms) :
    (rmaOp M T p3 p1 p2 m op count).1 = m ∧ (rmaOp M T p3 p1 p2 m op count).2 ≠ .success := by
  unfold rmaOp
  cases expansion : T.expansion <;> simp_all [BasicType.arms]

end Arms

section Fields
variable {p3 p1 p2 : Loc} {m m' : Memory V}

/-- The addresses of the fields of an element. -/
def fieldLocs (T : BasicType) (p : Loc) : Set Loc := {x | ∃ f ∈ T.fields, x = p.shift f}

theorem shift_ne (p : Loc) : p ≠ p.shift T.second := by
  intro same
  have pos := T.second_pos
  have addr := congrArg Loc.addr same
  simp only [Loc.shift] at addr
  omega

@[simp] theorem shift_buffer (p : Loc) (d : ℤ) : (p.shift d).buffer = p.buffer := rfl

theorem shift_zero (p : Loc) : p.shift (0 : ℕ) = p := by
  simp [Loc.shift]

/-- A body writes to the fields of its result. -/
theorem body_frame {x : Loc} (out : x ∉ fieldLocs T p3) : body M T op p3 p1 p2 m x = m x := by
  unfold body
  cases expansion : T.expansion <;> simp only [fieldLocs, BasicType.fields, expansion] at out ⊢
  case scalar =>
    have ne : x ≠ p3 := fun eq => out ⟨0, by simp, by rw [eq, shift_zero]⟩
    cases value : (M.arith T).m4Op (m p1) (m p2) op with
    | some v => simp only [ifBody, value, Memory.store, Function.update_of_ne ne]
    | none => simp only [ifBody, value]
  all_goals
    have ne : x ≠ p3 := fun eq => out ⟨0, by simp, by rw [eq, shift_zero]⟩
    have ne' : x ≠ p3.shift T.second := fun eq => out ⟨T.second, by simp, eq⟩
    split
  all_goals
    simp only [compSumBody, compProdBody, cCompSumBody, cCompProdBody, maxlocBody, minlocBody, copyPair,
      Memory.store]
    repeat' split
    all_goals rw [Function.update_of_ne ne', Function.update_of_ne ne]

/-- The operations of a scalar type have a value. -/
theorem m4Op_of_arms {unfinished chain : List Op} (scalar : T.expansion = .scalar unfinished chain)
    (computed : op ∈ T.arms) (A : Arith V) (a b : V) : ∃ v, A.m4Op a b op = some v := by
  have known : op ∈ cArms := by
    simp only [BasicType.arms, scalar] at computed
    unfold BasicType.expansion at scalar
    split at scalar <;> first | contradiction | (cases scalar; revert computed; revert op; decide)
  cases op <;> first | exact ⟨_, rfl⟩ | simp [cArms] at known

theorem shift_of_buffer_ne {p q : Loc} (apart : p.buffer ≠ q.buffer) (d : ℤ) : p.shift d ≠ q :=
  fun same => apart (congrArg Loc.buffer same : (p.shift d).buffer = q.buffer)

/-- Memories agree on the fields of an element if they hold the same ones. -/
theorem fieldsAt_congr {p q : Loc} (same : ∀ f ∈ T.fields, m (p.shift f) = m' (q.shift f)) (some_field : T.fields ≠ []) :
    fieldsAt T m p = fieldsAt T m' q := by
  unfold fieldsAt
  cases expansion : T.expansion <;> simp only [BasicType.fields, expansion] at same some_field ⊢
  case missing => exact absurd rfl some_field
  all_goals
    have first := same 0 (by simp)
    rw [shift_zero, shift_zero] at first
  case scalar => rw [first]
  all_goals rw [first, same T.second (by simp)]

theorem eq_of_fieldsAt {p q : Loc} (same : fieldsAt T m p = fieldsAt T m' q) {f : ℕ} (mem : f ∈ T.fields) :
    m (p.shift f) = m' (q.shift f) := by
  unfold fieldsAt at same
  cases expansion : T.expansion <;> simp only [BasicType.fields, expansion, Prod.mk.injEq] at mem same
  case missing => contradiction
  case scalar =>
    obtain rfl := List.mem_singleton.mp mem
    rw [shift_zero, shift_zero]
    exact same.1
  all_goals
    obtain rfl | mem := List.mem_cons.mp mem
    · rw [shift_zero, shift_zero]
      exact same.1
    · obtain rfl := List.mem_singleton.mp mem
      exact same.2

/-- With value and index the whole result is one of the arguments. -/
theorem pairBody_eq (M : Machine V) (op : Op) (p3 p1 p2 : Loc) (m : Memory V) (pair : T.expansion = .pair) :
    ∃ q, (q = p1 ∨ q = p2) ∧ body M T op p3 p1 p2 m = copyPair T p3 m q ∧
      combine M T op (fieldsAt T m p1) (fieldsAt T m p2) = fieldsAt T m q := by
  simp only [body, combine, pair, fieldsAt, maxlocBody, minlocBody]
  split_ifs <;> first | exact ⟨p1, .inl rfl, rfl, by simp [*]⟩ | exact ⟨p2, .inr rfl, rfl, by simp [*]⟩

theorem fieldsAt_copyPair (pair : T.expansion = .pair) {q : Loc} (kept : q.shift T.second ≠ p3) :
    fieldsAt T (copyPair T p3 m q) p3 = fieldsAt T m q := by
  simp [fieldsAt, pair, copyPair, Memory.store, shift_ne, kept]

section Values
variable (computed : op ∈ T.arms) (first : p1.buffer ≠ p3.buffer)
include computed first

/-- Into another buffer than those of the arguments. -/
theorem body_apart (second : p2.buffer ≠ p3.buffer) : fieldsAt T (body M T op p3 p1 p2 m) p3 =
    combine M T op (fieldsAt T m p1) (fieldsAt T m p2) := by
  have self := shift_ne (T := T) p3
  have ne1 : p1.shift T.second ≠ p3 := shift_of_buffer_ne first _
  have ne2 : p2.shift T.second ≠ p3 := shift_of_buffer_ne second _
  have ne1' : p1 ≠ p3 := fun same => first (congrArg Loc.buffer same)
  have ne2' : p2 ≠ p3 := fun same => second (congrArg Loc.buffer same)
  cases expansion : T.expansion with
  | scalar =>
    obtain ⟨v, value⟩ := m4Op_of_arms expansion computed (M.arith T) (m p1) (m p2)
    simp [body, combine, expansion, fieldsAt, ifBody, value, Memory.store]
  | fortranComplex =>
    simp only [body, combine, expansion, fieldsAt]
    split <;> simp [compSumBody, compProdBody, Memory.store, self, ne1, ne2, ne1', ne2']
  | cComplex =>
    simp only [body, combine, expansion, fieldsAt]
    split <;> simp [cCompSumBody, cCompProdBody, Memory.store, self]
  | pair =>
    obtain ⟨q, which, run, value⟩ := pairBody_eq M op p3 p1 p2 m expansion
    rw [run, value]
    refine fieldsAt_copyPair expansion ?_
    obtain rfl | rfl := which
    · exact ne1
    · exact ne2
  | missing => simp [BasicType.arms, expansion] at computed

/-- Into the buffer of the second argument. -/
theorem body_inPlace : fieldsAt T (body M T op p3 p1 p3 m) p3 =
    combineInPlace M T op (fieldsAt T m p1) (fieldsAt T m p3) := by
  have self := shift_ne (T := T) p3
  have ne1 : p1.shift T.second ≠ p3 := shift_of_buffer_ne first _
  have ne1' : p1 ≠ p3 := fun same => first (congrArg Loc.buffer same)
  cases expansion : T.expansion with
  | scalar =>
    obtain ⟨v, value⟩ := m4Op_of_arms expansion computed (M.arith T) (m p1) (m p3)
    simp [body, combineInPlace, combine, expansion, fieldsAt, ifBody, value, Memory.store]
  | fortranComplex =>
    simp only [body, combineInPlace, combine, expansion, fieldsAt]
    split <;> simp [*, compSumBody, compProdBody, Memory.store, self.symm]
  | cComplex =>
    simp only [body, combineInPlace, combine, expansion, fieldsAt]
    split <;> simp [cCompSumBody, cCompProdBody, Memory.store, self]
  | pair =>
    obtain ⟨q, which, run, value⟩ := pairBody_eq M op p3 p1 p3 m expansion
    have same : combineInPlace M T op (fieldsAt T m p1) (fieldsAt T m p3) = fieldsAt T m q := by
      simp [combineInPlace, expansion, value]
    rw [run, same]
    refine fieldsAt_copyPair expansion ?_
    obtain rfl | rfl := which
    · exact ne1
    · exact self.symm
  | missing => simp [BasicType.arms, expansion] at computed

end Values

end Fields

end FoMPI.Combine
