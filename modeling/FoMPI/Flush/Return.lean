import FoMPI.Flush.Completion

/-!
# Every call returns

What a process and the network have left to do without a new call is bounded: each statement
pays for what it issues, takes or puts in front of the rest. A call that is under way gets
stuck only while it waits for another process, so it returns if none keeps it waiting, in
whatever order the network completes operations.
-/
namespace FoMPI.Flush
open FoMPI.Combine FoMPI.Dcache FoMPI.Foundation

universe u

variable {ω ι : Type u}

/-- The steps that a statement may bring about. -/
def Instr.cost : Instr ω → ℕ
  | .dmapp _ _ | .drainFull | .takeDescriptor | .post _ _ => 2
  | .gsyncCounted _ => 3
  | .count _ | .gsyncWait | .clear _ | .drain | .fence | .copy _ _ | .push _ _ | .flushed _
  | .await _ => 1

/-- What is left to do: statements, events to read, and operations to complete. -/
def State.work (s : State ω ι) : ℕ :=
  (s.todo.map Instr.cost).sum + s.counterUgniNbi + s.posts.length + s.dmapp.length

/-- A step of the process in its call, or of the network. -/
def Action.continues : Action ω ι → Bool
  | .call .. | .others _ => false
  | .run | .dmappDone _ | .ugniDone _ => true

def Action.starts : Action ω ι → Bool
  | .call .. => true
  | .others _ | .run | .dmappDone _ | .ugniDone _ => false

section Steps
variable [DecidableEq ω] [DecidableEq ι] {D : Types ι} {s t : State ω ι}

omit [DecidableEq ι] in
theorem work_perform {i : Instr ω} {rest : Program ω} (next : s.todo = i :: rest)
    (e : s.perform rest i = some t) : t.work < s.work := by
  have paid : (s.todo.map Instr.cost).sum = i.cost + (rest.map Instr.cost).sum := by rw [next]; rfl
  unfold State.work
  rw [paid]
  cases i with
  | dmapp win op | post win p =>
    cases e
    simp only [Instr.cost, List.length_append, List.length_singleton]
    omega
  | gsyncCounted win =>
    cases e
    dsimp only
    split
    · simp only [Instr.cost, List.map_cons, List.sum_cons]
      omega
    · simp only [Instr.cost]
      omega
  | drain =>
    simp only [State.perform] at e
    split at e
    · cases e
      simp only [Instr.cost]
      omega
    · rename_i some_out
      split at e
      · contradiction
      · cases e
        dsimp only
        rw [paid]
        omega
  | drainFull =>
    cases e
    dsimp only
    split
    · simp only [Instr.cost, List.map_cons, List.sum_cons]
      omega
    · simp only [Instr.cost]
      omega
  | gsyncWait =>
    cases e
    simp only [Instr.cost, List.length_nil]
    omega
  | await w =>
    simp only [State.perform, Option.ite_none_left_eq_some, Option.some.injEq] at e
    obtain ⟨-, rfl⟩ := e
    simp only [Instr.cost]
    omega
  | takeDescriptor | count | clear | fence | copy | push | flushed =>
    cases e
    simp only [Instr.cost]
    omega

theorem work_step {a : Action ω ι} (continues : a.continues = true) (move : step D s a = some t) : t.work < s.work := by
  cases a with
  | call | others => contradiction
  | run =>
    cases next : s.todo with
    | nil => simp [step, next] at move
    | cons i rest =>
      simp only [step, next] at move
      exact work_perform next move
  | dmappDone i =>
    simp only [step, Option.ite_none_right_eq_some, Option.some.injEq] at move
    obtain ⟨lt, rfl⟩ := move
    simp only [State.work, List.length_eraseIdx_of_lt lt]
    omega
  | ugniDone i =>
    obtain ⟨p, found, rfl⟩ := Option.map_eq_some_iff.mp move
    obtain ⟨lt, -⟩ := List.getElem?_eq_some_iff.mp found
    simp only [State.work, List.length_eraseIdx_of_lt lt]
    omega

/-- Other processes leave no more to do. -/
theorem work_le {a : Action ω ι} (same : a.starts = false) (move : step D s a = some t) :
    a.continues.toNat + t.work ≤ s.work := by
  cases a with
  | call => contradiction
  | others blocked =>
    cases move
    exact (Nat.zero_add _).le
  | run | dmappDone | ugniDone =>
    have less := work_step rfl move
    change 1 + _ ≤ _
    omega

/-- A schedule without a new call has no more steps of the process and the network than the work that
is left. -/
theorem countP_le_work (as : List (Action ω ι)) (same : ∀ a ∈ as, a.starts = false)
    (run : exec (step D) s as = some t) : as.countP Action.continues + t.work ≤ s.work := by
  induction as generalizing s with
  | nil =>
    cases run
    simp
  | cons a as ih =>
    obtain ⟨u, move, rest⟩ := Option.bind_eq_some_iff.mp run
    have first := work_le (same a List.mem_cons_self) move
    have later := ih (fun b mem => same b (List.mem_cons_of_mem _ mem)) rest
    have split : (a :: as).countP Action.continues = as.countP Action.continues + a.continues.toNat := by
      rw [List.countP_cons]
      cases a.continues <;> rfl
    omega

end Steps

end FoMPI.Flush
