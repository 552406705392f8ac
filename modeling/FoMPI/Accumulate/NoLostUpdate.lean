import FoMPI.Accumulate.Model
import FoMPI.Foundation.Ledger

/-!
# No lost update

What the location holds is its initial value and the contributions of the calls
whose addition or put has taken effect, as long as nothing changes it between the
get and the put of a call that holds the mutex. The mutex keeps the other puts
away; it does not keep NIC additions away.
-/
namespace FoMPI.Accumulate
open FoMPI.Foundation FoMPI.Window
open scoped BigOperators

namespace Pc
variable {w : ℕ}

/-- The call holds the window mutex. -/
def Holds : Pc w → Prop
  | locked => True
  | fetched _ => True
  | written => True
  | _ => False

/-- The call is between its get and its put. -/
def reading : Pc w → Bool
  | fetched _ => true
  | _ => false

/-- The contribution of the call is in the location. -/
def landed : Pc w → Bool
  | written => true
  | done => true
  | _ => false

end Pc

variable {ι : Type*} {T : IntType} {S : Site} {call : ι → Call T} {initial : BitVec T.width}
  {s t : State ι T.width}

/-- The call reaches the location, and `foMPI_RMA_op` has a sum for its type that the call does
not drop for the return code that comes with it. -/
structure Call.Supported (S : Site) (C : Call T) : Prop where
  hits : C.hits S
  known : T ≠ .count
  kept : C.entry = .fetchAndOp → T ≠ .offset

theorem Call.Supported.putBack {C : Call T} (h : C.Supported S) (fetched : BitVec T.width) :
    C.putBack fetched = some (C.origin + fetched) := by
  unfold Call.putBack
  split
  · rw [rmaOp_sum _ _ _ h.known]
  · rw [rmaOp_sum _ _ _ h.known]
  · rename_i entry
    dsimp only
    rw [rmaOp_sum _ _ _ h.known, if_pos (rmaOp_sum_code _ _ _ h.known (h.kept entry))]

/-- What call `i` has added so far. -/
def share (call : ι → Call T) (s : State ι T.width) (i : ι) : ℤ :=
  if (s.pc i).landed then (call i).origin.toInt else 0

/-- No NIC addition takes effect while a call is between its get and its put. -/
def Apart (s : State ι T.width) (a : Act ι) (_ : State ι T.width) : Prop :=
  match a with
  | .add _ => ∀ j, (s.pc j).reading = false
  | _ => True

section Steps
variable [DecidableEq ι] {i j : ι} {pc : Pc T.width}

@[simp] theorem goto_pc_self : (s.goto i pc).pc i = pc := Function.update_self ..

theorem goto_pc_other (ne : j ≠ i) : (s.goto i pc).pc j = s.pc j := Function.update_of_ne ne ..

/-- A call that held the mutex after a move of call `i` held it before, or is call `i`. -/
theorem goto_holds (keeps : pc.Holds → (s.pc i).Holds) (holds : ((s.goto i pc).pc j).Holds) :
    (s.pc j).Holds := by
  obtain rfl | ne := eq_or_ne j i
  · rw [goto_pc_self] at holds
    exact keeps holds
  · rwa [goto_pc_other ne] at holds

/-- The contribution of call `i` lands, the others stay as they are. -/
theorem share_land (call : ι → Call T) (before : (s.pc i).landed = false) (after : pc.landed = true)
    (moved : t.pc = (s.goto i pc).pc) :
    share call t i = share call s i + (call i).origin.toInt ∧
      ∀ j, j ≠ i → share call t j = share call s j := by
  constructor
  · simp [share, moved, before, after]
  · intro j ne
    rw [share, share, moved, goto_pc_other ne]

theorem share_quiet (same : pc.landed = (s.pc i).landed) (j : ι) :
    share call (s.goto i pc) j = share call s j := by
  unfold share
  obtain rfl | ne := eq_or_ne j i
  · rw [goto_pc_self, same]
  · rw [goto_pc_other ne]

end Steps

variable [Fintype ι]

instance (s : State ι T.width) (a : Act ι) (t : State ι T.width) : Decidable (Apart s a t) := by
  cases a <;> unfold Apart <;> infer_instance

structure Inv (call : ι → Call T) (initial : BitVec T.width) (s : State ι T.width) : Prop where
  balanced : InBalance (s.location - initial) (share call s) []
  locked : ∀ i, (s.pc i).Holds → s.mutex = 0
  exclusive : ∀ i j, (s.pc i).Holds → (s.pc j).Holds → i = j
  current : ∀ i value, s.pc i = .fetched value → value = s.location

theorem inv_start : Inv call initial (start initial) := by
  refine ⟨?_, fun i holds => holds.elim, fun i _ holds => holds.elim, by simp [start]⟩
  rw [start, sub_self]
  exact balanced_zero _ fun i => rfl

namespace Inv
variable [DecidableEq ι] {i : ι} {pc : Pc T.width}

/-- A move that neither changes the location nor takes or gives up the mutex. -/
theorem quiet (inv : Inv call initial s) (landed : pc.landed = (s.pc i).landed)
    (keeps : pc.Holds → (s.pc i).Holds) (current : ∀ value, pc = .fetched value → value = s.location) :
    Inv call initial (s.goto i pc) := by
  refine ⟨inv.balanced.congr (share_quiet landed), fun j holds => ?_, fun j k hj hk => ?_, ?_⟩
  · exact inv.locked j (goto_holds keeps holds)
  · exact inv.exclusive j k (goto_holds keeps hj) (goto_holds keeps hk)
  · intro j value h
    obtain rfl | ne := eq_or_ne j i
    · rw [goto_pc_self] at h
      exact current value h
    · rw [goto_pc_other ne] at h
      exact inv.current j value h

/-- The contribution of call `i` takes effect while no other call is between get and put. -/
theorem land (inv : Inv call initial s) (before : (s.pc i).landed = false)
    (after : pc.landed = true) (keeps : pc.Holds → (s.pc i).Holds)
    (apart : ∀ j value, j ≠ i → s.pc j ≠ .fetched value) :
    Inv call initial { s.goto i pc with location := s.location + (call i).origin } := by
  refine ⟨?_, fun j holds => ?_, fun j k hj hk => ?_, ?_⟩
  · obtain ⟨own, others⟩ := share_land call
      (t := { s.goto i pc with location := s.location + (call i).origin }) before after rfl
    have sum := inv.balanced.add i _ own others
    rwa [BitVec.ofInt_toInt, sub_add_eq_add_sub] at sum
  · exact inv.locked j (goto_holds keeps holds)
  · exact inv.exclusive j k (goto_holds keeps hj) (goto_holds keeps hk)
  · intro j value h
    change (s.goto i pc).pc j = .fetched value at h
    obtain rfl | ne := eq_or_ne j i
    · rw [goto_pc_self] at h
      subst h
      exact absurd after (by simp [Pc.landed])
    · rw [goto_pc_other ne] at h
      exact absurd h (apart j value ne)

/-- The compare-and-swap finds the mutex free. -/
theorem lock (inv : Inv call initial s) (idle : s.pc i = .idle) (free : s.mutex = mutexNone) :
    Inv call initial { s.goto i .locked with mutex := 0 } := by
  have nobody (j : ι) : ¬(s.pc j).Holds := by
    intro holds
    have held := inv.locked j holds
    rw [free] at held
    exact absurd held (by decide)
  have only (j : ι) (holds : ((s.goto i .locked).pc j).Holds) : j = i := by
    by_contra ne
    rw [goto_pc_other ne] at holds
    exact nobody j holds
  refine ⟨inv.balanced.congr (share_quiet (by rw [idle]; rfl)), fun j _ => rfl, ?_, ?_⟩
  · intro j k hj hk
    rw [only j hj, only k hk]
  · intro j value h
    change (s.goto i .locked).pc j = .fetched value at h
    obtain rfl : j = i := only j (by rw [h]; trivial)
    rw [goto_pc_self] at h
    contradiction

/-- The holder gives the mutex back. -/
theorem release (inv : Inv call initial s) (written : s.pc i = .written) (mutex : ℤ) :
    Inv call initial { s.goto i .done with mutex } := by
  have nobody (j : ι) : ¬((s.goto i .done).pc j).Holds := by
    intro holds
    obtain rfl | ne := eq_or_ne j i
    · rw [goto_pc_self] at holds
      exact holds
    · rw [goto_pc_other ne] at holds
      exact ne (inv.exclusive j i holds (by rw [written]; trivial))
  refine ⟨inv.balanced.congr (share_quiet (by rw [written]; rfl)), fun j holds => ?_,
    fun j _ hj => ?_, fun j value h => ?_⟩
  · exact absurd holds (nobody j)
  · exact absurd hj (nobody j)
  · exact absurd (show ((s.goto i .done).pc j).Holds by rw [show (s.goto i .done).pc j = _ from h]; trivial)
      (nobody j)

end Inv

variable [DecidableEq ι]

/-- What one step does, when every call reaches the location. -/
theorem step_inv (supported : ∀ i, (call i).Supported S) {a : Act ι} (inv : Inv call initial s)
    (move : step S call s a = some t) (apart : Apart s a t) : Inv call initial t := by
  cases a with
  | reject i =>
    simp only [step, Option.ite_none_right_eq_some, Call.rejected, (supported i).hits] at move
    simp at move
  | issue i =>
    simp only [step, Option.ite_none_right_eq_some, (supported i).hits, if_true,
      Option.some.injEq] at move
    obtain ⟨⟨idle, -⟩, rfl⟩ := move
    exact inv.quiet (by rw [idle]; rfl) False.elim (by simp)
  | add i =>
    simp only [step, Option.ite_none_right_eq_some, Option.some.injEq] at move
    obtain ⟨flying, rfl⟩ := move
    refine inv.land (by rw [flying]; rfl) rfl False.elim fun j value _ h => ?_
    have reading := apart j
    rw [h] at reading
    contradiction
  | setMutex i =>
    simp only [step, Option.ite_none_right_eq_some, Option.some.injEq] at move
    obtain ⟨⟨idle, -, -⟩, rfl⟩ := move
    split
    · rename_i free
      rw [acswap, if_pos free]
      exact inv.lock idle free
    · rename_i taken
      rw [acswap, if_neg taken]
      exact inv
  | get i =>
    simp only [step, Option.ite_none_right_eq_some, (supported i).hits, if_true,
      Option.some.injEq] at move
    obtain ⟨locked, rfl⟩ := move
    refine inv.quiet (by rw [locked]; rfl) (fun _ => by rw [locked]; trivial) ?_
    intro value h
    exact (Pc.fetched.inj h).symm
  | put i =>
    simp only [step] at move
    split at move
    · rename_i value fetched
      simp only [(supported i).hits, if_true, (supported i).putBack, Option.getD_some,
        Option.some.injEq] at move
      subst move
      rw [inv.current i value fetched, add_comm]
      refine inv.land (by rw [fetched]; rfl) rfl (fun _ => by rw [fetched]; trivial) ?_
      intro j other ne h
      exact ne (inv.exclusive j i (by rw [h]; trivial) (by rw [fetched]; trivial))
    · contradiction
  | releaseMutex i =>
    simp only [step, Option.ite_none_right_eq_some, Option.some.injEq] at move
    obtain ⟨written, rfl⟩ := move
    exact inv.release written _

omit [DecidableEq ι] in
/-- Once all calls are done, all contributions have landed. -/
theorem Inv.complete (inv : Inv call initial s) (complete : ∀ i, s.pc i = .done) :
    s.location = initial + BitVec.ofInt T.width (∑ i, (call i).origin.toInt) := by
  have total : ∑ i, share call s i = ∑ i, (call i).origin.toInt := by
    apply Finset.sum_congr rfl
    intro i _
    rw [share, complete i]
    rfl
  have sum := inv.balanced
  rw [InBalance, total, List.sum_nil, sub_zero] at sum
  rw [← sum]
  exact (add_sub_cancel initial s.location).symm

/-- In every run in which no NIC addition takes effect between the get and the put of another
call, the location ends up with all contributions. -/
theorem no_lost_update (supported : ∀ i, (call i).Supported S)
    (run : Reach (step S call) Apart (start initial) s) (complete : ∀ i, s.pc i = .done) :
    s.location = initial + BitVec.ofInt T.width (∑ i, (call i).origin.toInt) := by
  have inv : Inv call initial s := run.invariant inv_start fun s a t inv move apart =>
    step_inv supported inv move apart
  exact inv.complete complete

/-- A static window of words, and a location at its third word. -/
def words : Site := ⟨.allocate, 8, [], 4112⟩

/-- An accumulate of two elements whose second one is the location, and a fetch-and-op. -/
def pair : Bool → Call .int64
  | true => ⟨.accumulate, 2, 1, 5, 0, by decide, by decide, by simp⟩
  | false => ⟨.fetchAndOp, 1, 0, 3, 0, by decide, by decide, fun _ => rfl⟩

/-- The addition takes effect while the mutex is held, but before the get. -/
theorem no_lost_update_pair : ∃ s : State Bool 64,
    Reach (step words pair) Apart (start (10 : BitVec 64)) s ∧ s.location = 18 := by
  have supported : ∀ i, (pair i).Supported words
    | true => ⟨by decide, by simp, by simp⟩
    | false => ⟨by decide, by simp, by simp⟩
  obtain ⟨s, run, complete, value⟩ : ∃ s, execWhen (step words pair) (fun s a t => decide (Apart s a t))
      (start (10 : BitVec 64)) [.issue true, .setMutex false, .add true, .get false, .put false,
        .releaseMutex false] = some s ∧ (∀ i, s.pc i = .done) ∧
      10 + BitVec.ofInt 64 (∑ i, (pair i).origin.toInt) = (18 : BitVec 64) :=
    ⟨_, rfl, by decide, by decide⟩
  have apart := Reach.of_execWhen (fun s a t => of_decide_eq_true) _ run
  exact ⟨s, apart, (no_lost_update supported apart complete).trans value⟩

/-- The same calls, with the addition between get and put: it is lost. -/
theorem no_lost_update_fails : ∃ s : State Bool 64,
    Reach (step words pair) always (start (10 : BitVec 64)) s ∧ (∀ i, s.pc i = .done) ∧
      s.location ≠ 10 + BitVec.ofInt 64 (∑ i, (pair i).origin.toInt) :=
  ⟨_, Reach.of_exec [.issue true, .setMutex false, .get false, .add true, .put false,
    .releaseMutex false] rfl, by decide, by decide⟩

section OnePath

/-- The call is where its path leads. -/
def OnPath (S : Site) (call : ι → Call T) (s : State ι T.width) (i : ι) : Prop :=
  (s.pc i = .inFlight → (call i).fast S) ∧ ((s.pc i).Holds → (call i).fast S = false)

omit [Fintype ι] in
theorem onPath_goto {i : ι} (pc : Pc T.width) (h : ∀ j, OnPath S call s j)
    (flying : pc = .inFlight → (call i).fast S) (holds : pc.Holds → (call i).fast S = false) (j : ι) :
    OnPath S call (s.goto i pc) j := by
  unfold OnPath
  obtain rfl | ne := eq_or_ne j i
  · rw [goto_pc_self]
    exact ⟨flying, holds⟩
  · rw [goto_pc_other ne]
    exact h j

omit [Fintype ι] in
theorem step_onPath {a : Act ι} (h : ∀ j, OnPath S call s j) (move : step S call s a = some t) :
    ∀ j, OnPath S call t j := by
  cases a with
  | reject i =>
    simp only [step, Option.ite_none_right_eq_some, Option.some.injEq] at move
    obtain ⟨-, rfl⟩ := move
    exact onPath_goto _ h (by simp) False.elim
  | issue i =>
    simp only [step, Option.ite_none_right_eq_some, Option.some.injEq] at move
    obtain ⟨⟨-, fast⟩, rfl⟩ := move
    refine onPath_goto _ h (fun _ => fast) fun holds => ?_
    split at holds <;> exact holds.elim
  | add i =>
    simp only [step, Option.ite_none_right_eq_some, Option.some.injEq] at move
    obtain ⟨-, rfl⟩ := move
    exact onPath_goto .done h (by simp) False.elim
  | setMutex i =>
    simp only [step, Option.ite_none_right_eq_some, Option.some.injEq] at move
    obtain ⟨⟨-, slow, -⟩, rfl⟩ := move
    split
    · exact onPath_goto .locked h (by simp) fun _ => Bool.eq_false_iff.mpr slow
    · exact h
  | get i =>
    simp only [step, Option.ite_none_right_eq_some, Option.some.injEq] at move
    obtain ⟨locked, rfl⟩ := move
    exact onPath_goto _ h (by simp) fun _ => (h i).2 (by rw [locked]; trivial)
  | put i =>
    simp only [step] at move
    split at move
    · rename_i value fetched
      cases move
      exact onPath_goto .written h (by simp) fun _ => (h i).2 (by rw [fetched]; trivial)
    · contradiction
  | releaseMutex i =>
    simp only [step, Option.ite_none_right_eq_some, Option.some.injEq] at move
    obtain ⟨-, rfl⟩ := move
    exact onPath_goto .done h (by simp) False.elim

/-- Calls that all take the NIC path, or all the mutex path, are kept apart by themselves: then
every run ends with all contributions. -/
theorem no_lost_update_of_one_path (supported : ∀ i, (call i).Supported S)
    (same : ∀ i j, (call i).fast S = (call j).fast S)
    (run : Reach (step S call) always (start initial) s) (complete : ∀ i, s.pc i = .done) :
    s.location = initial + BitVec.ofInt T.width (∑ i, (call i).origin.toInt) := by
  have both : Inv call initial s ∧ ∀ j, OnPath S call s j := by
    refine run.invariant (P := fun s => Inv call initial s ∧ ∀ j, OnPath S call s j)
      ⟨inv_start, fun j => ⟨by simp [start], False.elim⟩⟩ ?_
    rintro s a t ⟨inv, paths⟩ move -
    refine ⟨step_inv supported inv move ?_, step_onPath paths move⟩
    cases a with
    | add i =>
      intro j
      simp only [step, Option.ite_none_right_eq_some] at move
      have fast := (paths i).1 move.1
      cases reading : s.pc j with
      | fetched value =>
        have slow := (paths j).2 (by rw [reading]; trivial)
        rw [same j i, fast] at slow
        contradiction
      | _ => rfl
    | _ => trivial
  exact both.1.complete complete

end OnePath

end FoMPI.Accumulate
