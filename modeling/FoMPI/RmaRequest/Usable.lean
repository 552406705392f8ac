import FoMPI.RmaRequest.Model

/-!
# When `*request` can be used

A call that comes to its allocation leaves a new request with all fields written that a
completion function reads. The early exits return `MPI_SUCCESS` before that and leave
`*request` as it was.
-/
namespace FoMPI.RmaRequest
open FoMPI.Req (World)
open FoMPI.RmaNotify (Operation)
open FoMPI.Notif (anyTag)

variable {ω κ σ : Type*} {N : Network ω σ} {a : Args ω} {p : ℕ} {s t : State ω σ} {res : ℤ}

/-- `*request` points to an object that was allocated by the call and written. -/
def Fresh (a : Args ω) (before after : State ω σ) : Prop :=
  ∃ p o, after.request = some p ∧ before.heap p = none ∧ after.heap p = some o ∧ o.request = some (.rma a.rma)

/-- `*request` is null or such an object. -/
def Usable (a : Args ω) (before after : State ω σ) : Prop := after.request = none ∨ Fresh a before after

/-- The exits in front of the allocation. -/
def Routine.Exits (N : Network ω σ) (a : Args ω) : Routine → Prop
  | rput | rget => a.targetRank = N.procNull ∨ a.originCount = 0 ∨ a.targetCount = 0
  | raccumulate | rgetAccumulate => False
  | rputNotify | rgetNotify =>
    a.targetRank = N.procNull ∨ a.tag = anyTag ∧ (a.originCount = 0 ∨ a.targetCount = 0)

theorem newObject_request (a : Args ω) : (newObject a).request = some (.rma a.rma) := rfl

section Steps

theorem allocate_spec (allocated : allocate p a s = some t) :
    s.heap p = none ∧ t.request = some p ∧ t.heap = Function.update s.heap p (some (newObject a)) := by
  unfold allocate at allocated
  split at allocated
  · rename_i free
    obtain rfl := Option.some.inj allocated
    exact ⟨free, rfl, rfl⟩
  · contradiction

/-- The network changes neither the objects nor `*request`. -/
theorem call_spec {f : σ → Option (ℤ × σ)} (called : s.call f = some (res, t)) :
    t.heap = s.heap ∧ t.request = s.request := by
  obtain ⟨r, -, result⟩ := Option.map_eq_some_iff.mp called
  obtain ⟨-, rfl⟩ := Prod.mk.inj result
  exact ⟨rfl, rfl⟩

/-- A request that was allocated between two calls of the network is the one at the end. -/
theorem fresh_of_allocate {u v : State ω σ} (heap : u.heap = s.heap) (allocated : allocate p a u = some t)
    (heap' : v.heap = t.heap) (request : v.request = t.request) : Fresh a s v := by
  obtain ⟨free, at_p, written⟩ := allocate_spec allocated
  refine ⟨p, newObject a, request.trans at_p, heap ▸ free, ?_, newObject_request a⟩
  rw [heap', written, Function.update_self]

end Steps

section Routines

theorem rtransfer_fresh {operation : Operation} (run : rtransfer N a p operation s = some (res, t))
    (goes : ¬(a.targetRank = N.procNull ∨ a.originCount = 0 ∨ a.targetCount = 0)) : Fresh a s t := by
  rw [rtransfer, if_neg goes] at run
  obtain ⟨u, allocated, called⟩ := Option.bind_eq_some_iff.mp run
  obtain ⟨heap, request⟩ := call_spec called
  exact fresh_of_allocate rfl allocated heap request

theorem rrmaNotify_fresh {operation : Operation} (run : rrmaNotify N a p operation s = some (res, t))
    (goes : a.targetRank ≠ N.procNull) : Fresh a s t := by
  rw [rrmaNotify, if_neg goes] at run
  obtain ⟨u, allocated, called⟩ := Option.bind_eq_some_iff.mp run
  obtain ⟨heap, request⟩ := call_spec called
  exact fresh_of_allocate rfl allocated heap request

/-- An accumulate comes before the allocation, if there is anything to accumulate. -/
theorem accumulated_fresh {c : Prop} [Decidable c] {f : σ → Option (ℤ × σ)}
    (run : thenAllocate a p (if c then s.call f else some (mpiSuccess, s)) = some (res, t)) : Fresh a s t := by
  obtain ⟨⟨res', u⟩, called, run⟩ := Option.bind_eq_some_iff.mp run
  obtain ⟨v, allocated, result⟩ := Option.bind_eq_some_iff.mp run
  obtain ⟨-, rfl⟩ := Prod.mk.inj (Option.some.inj result)
  have heap : u.heap = s.heap := by
    split at called
    · exact (call_spec called).1
    · obtain ⟨-, rfl⟩ := Prod.mk.inj (Option.some.inj called)
      rfl
  exact fresh_of_allocate heap allocated rfl rfl

/-- Whatever comes to its allocation leaves a new request. -/
theorem run_fresh {r : Routine} (run : r.run N a p s = some (res, t)) (goes : ¬r.Exits N a) : Fresh a s t := by
  have notify {operation : Operation}
      (goes : ¬(a.targetRank = N.procNull ∨ a.tag = anyTag ∧ (a.originCount = 0 ∨ a.targetCount = 0)))
      (run : (if a.tag = anyTag then rtransfer N a p operation s else rrmaNotify N a p operation s) =
        some (res, t)) : Fresh a s t := by
    split at run
    · rename_i any
      exact rtransfer_fresh run fun exits => goes (exits.imp_right fun none => ⟨any, none⟩)
    · exact rrmaNotify_fresh run fun exits => goes (.inl exits)
  cases r with
  | rput => exact rtransfer_fresh run goes
  | rget => exact rtransfer_fresh run goes
  | raccumulate => exact accumulated_fresh run
  | rgetAccumulate => exact accumulated_fresh run
  | rputNotify => exact notify goes run
  | rgetNotify => exact notify goes run

/-- An early exit changes nothing. -/
theorem run_exits {r : Routine} (exits : r.Exits N a) : r.run N a p s = some (mpiSuccess, s) := by
  have transfer {operation : Operation} (exits : a.targetRank = N.procNull ∨ a.originCount = 0 ∨ a.targetCount = 0) :
      rtransfer N a p operation s = some (mpiSuccess, s) := if_pos exits
  have notify {operation : Operation}
      (exits : a.targetRank = N.procNull ∨ a.tag = anyTag ∧ (a.originCount = 0 ∨ a.targetCount = 0)) :
      (if a.tag = anyTag then rtransfer N a p operation s else rrmaNotify N a p operation s) =
        some (mpiSuccess, s) := by
    split
    · exact transfer (exits.imp_right And.right)
    · rename_i tagged
      exact if_pos (exits.resolve_right fun none => tagged none.1)
  cases r with
  | rput => exact transfer exits
  | rget => exact transfer exits
  | raccumulate => exact exits.elim
  | rgetAccumulate => exact exits.elim
  | rputNotify => exact notify exits
  | rgetNotify => exact notify exits

end Routines

section Completion

theorem Fresh.handle {u v : State ω σ} (fresh : Fresh a u v) : v.handle = some (some (.rma a.rma)) := by
  obtain ⟨q, o, request, -, written, whole⟩ := fresh
  simp [State.handle, request, written, whole]

variable [DecidableEq ω] [DecidableEq κ]

/-- `foMPI_Wait` and `foMPI_Test` on what a call left behind find a whole request. -/
theorem Usable.testWait {u v : State ω σ} (usable : Usable a u v) (W : World ω κ) (wait : Bool) :
    (testWait W v wait).isSome := by
  obtain null | fresh := usable
  · simp [RmaRequest.testWait, State.handle, null, Req.testWait]
  · simp only [RmaRequest.testWait, fresh.handle, Option.bind_some, Req.testWait, Req.idle]
    cases wait with
    | true => simp [Req.Request.waitFun]
    | false => simp

/-- For every call, all arguments, whatever the network does and whatever `*request` held before: a call
that returns `MPI_SUCCESS` leaves null or a new and written request, which a completion function can use,
exactly if it takes no early exit or finds null there. -/
theorem request_usable_iff (r : Routine) (run : r.run N a p s = some (mpiSuccess, t)) :
    (Usable a s t ∧ ∀ (W : World ω κ) (wait : Bool), (testWait W t wait).isSome) ↔
      (r.Exits N a → s.request = none) := by
  by_cases exits : r.Exits N a
  · obtain ⟨-, rfl⟩ := Prod.mk.inj (Option.some.inj ((run_exits exits).symm.trans run))
    constructor
    · rintro ⟨null | ⟨q, o, -, free, written, -⟩, -⟩ -
      · exact null
      · rw [free] at written
        contradiction
    · intro null
      have usable : Usable a s s := .inl (null exits)
      exact ⟨usable, usable.testWait⟩
  · have usable : Usable a s t := .inr (run_fresh run exits)
    exact iff_of_true ⟨usable, usable.testWait⟩ fun h => absurd h exits

/-- A network that accepts every transfer. -/
def accepting : Network Unit Unit where
  communicationAndDatatypeHandling _ _ s := some (mpiSuccess, s)
  accumulate _ s := some (mpiSuccess, s)
  getAccumulate _ s := some (mpiSuccess, s)
  rmaNotify _ _ s := some (mpiSuccess, s)
  procNull := -1

/-- No object is left, but `*request` holds an address. -/
def stale : State Unit Unit := ⟨fun _ => none, some 64, ()⟩

/-- A put to `MPI_PROC_NULL` leaves the stale address, and the next completion call follows it. -/
theorem request_usable_fails : ∃ t, rput accepting ⟨(), 1, 1, -1, 1, 0, 0⟩ 128 stale = some (mpiSuccess, t) ∧
    t.request = some 64 ∧ ¬Usable ⟨(), 1, 1, -1, 1, 0, 0⟩ stale t ∧
      ∀ (W : World Unit Unit) (wait : Bool), testWait W t wait = none := by
  refine ⟨stale, rfl, rfl, ?_, fun _ _ => rfl⟩
  rintro (null | ⟨q, o, -, -, written, -⟩)
  · contradiction
  · contradiction

/-- A notified put of nothing. -/
theorem request_usable_notified : ∃ t,
    rputNotify accepting ⟨(), 0, 0, 1, 0, 7, 0⟩ 128 stale = some (mpiSuccess, t) ∧
      Usable ⟨(), 0, 0, 1, 0, 7, 0⟩ stale t ∧
        ∀ (W : World Unit Unit) (wait : Bool), (testWait W t wait).isSome := by
  refine ⟨_, rfl, (request_usable_iff (N := accepting) (p := 128) .rputNotify rfl).mpr ?_⟩
  rintro (rank | ⟨tag, -⟩)
  · exact absurd rank (by decide)
  · exact absurd tag (by decide)

end Completion

end FoMPI.RmaRequest
