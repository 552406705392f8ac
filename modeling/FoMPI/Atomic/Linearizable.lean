import FoMPI.Atomic.Model
import Mathlib.Data.List.Permutation

/-!
# When the atomic operations are atomic

A call of the mutex path takes effect with its put, or where it would put; one of the network
card with its operation; one that does not find its element when it looks for it. The mutex
keeps the calls that take it apart from each other. It does not keep the network card away.
-/
namespace FoMPI.Atomic
open FoMPI.Accumulate FoMPI.Foundation FoMPI.Window

variable {ι V : Type*} {W : Target} {call : ι → Call V} {memory : ℤ → V} {s t : State ι V} {order : List ι}
  {i j : ι} {pc : Pc V}

namespace Pc

/-- The call holds the window mutex. -/
def Holds : Pc V → Prop
  | locked | fetched _ | written _ => True
  | _ => False

/-- The call has begun and has not taken effect. -/
def Pending : Pc V → Prop
  | entered | locked | fetched _ => True
  | _ => False

/-- The call has taken effect with this response and has not returned. -/
def Given (r : Response V) (pc : Pc V) : Prop := pc = .written r ∨ pc = .returning r

/-- The call is past its search for the element, in the mutex path. -/
def Software : Pc V → Prop
  | locked | fetched _ => True
  | _ => False

end Pc

/-- No element is operated on both by the network card and under the mutex. -/
def OnePath (W : Target) (call : ι → Call V) : Prop :=
  ∀ i j, (call i).found W → (call j).found W → (call i).targetAddr = (call j).targetAddr →
    (call i).viaNic = (call j).viaNic

section Calls
variable [DecidableEq V]

theorem atomically_found (found : (call i).found W = true) (m : ℤ → V) : atomically W call m i =
    (put m (call i).targetAddr ((call i).putBack (m (call i).targetAddr)).1,
      ⟨some (m (call i).targetAddr), .code ((call i).putBack (m (call i).targetAddr)).2⟩) := by
  simp only [atomically, if_pos found]

theorem atomically_missing (missing : ¬(call i).found W = true) (m : ℤ → V) :
    atomically W call m i = (m, ⟨none, .winMemNotFound⟩) := if_neg missing

theorem putBack_nic (nic : (call i).viaNic = true) (value : V) : ((call i).putBack value).2 = .success := by
  unfold Call.viaNic at nic
  unfold Call.putBack
  cases operation : (call i).operation with
  | fetchAndOp op origin => simp [operation] at nic
  | compareAndSwap origin compare => rfl

omit [DecidableEq V] in
theorem put_of_ne {addr x : ℤ} (other : x ≠ addr) (m : ℤ → V) (value : Option V) : put m addr value x = m x := by
  cases value with
  | none => rfl
  | some v => exact Function.update_of_ne other _ _

end Calls

/-- What is known of one call. -/
structure Ok [DecidableEq V] (W : Target) (call : ι → Call V) (memory : ℤ → V) (s : State ι V) (order : List ι)
    (i : ι) : Prop where
  begun : .invoke i ∈ s.history ↔ s.pc i ≠ .idle
  pending : (s.pc i).Pending → i ∉ order
  given : ∀ r, (s.pc i).Given r → (i, r) ∈ responses (atomically W call) memory order
  mutex : (s.pc i).Holds → s.mutex = 0
  software : (s.pc i).Software → (call i).found W = true ∧ (call i).viaNic = false
  current : ∀ value, s.pc i = .fetched value → s.memory (call i).targetAddr = value

/-- The calls take effect in the order `order`. -/
structure Inv [DecidableEq V] (W : Target) (call : ι → Call V) (memory : ℤ → V) (s : State ι V)
    (order : List ι) : Prop where
  linear : Linearizes (atomically W call) memory s.history order
  replayed : s.memory = replay (atomically W call) memory order
  exclusive : ∀ i j, (s.pc i).Holds → (s.pc j).Holds → i = j
  ok : ∀ i, Ok W call memory s order i

section Steps
variable [DecidableEq V]

/-- A step of another call. -/
theorem Ok.frame {l : List ι} (ok : Ok W call memory s order j) (pc : t.pc j = s.pc j)
    (invoked : .invoke j ∈ t.history ↔ .invoke j ∈ s.history) (later : j ∉ l)
    (mutex : (s.pc j).Holds → t.mutex = s.mutex)
    (untouched : ∀ value, s.pc j = .fetched value → t.memory (call j).targetAddr = s.memory (call j).targetAddr) :
    Ok W call memory t (order ++ l) j where
  begun := by rw [invoked, pc, ok.begun]
  pending h := by
    rw [pc] at h
    exact fun mem => (List.mem_append.mp mem).elim (ok.pending h) later
  given r h := by
    rw [pc] at h
    rw [responses_append]
    exact List.mem_append_left _ (ok.given r h)
  mutex h := by
    rw [pc] at h
    rw [mutex h, ok.mutex h]
  software h := by
    rw [pc] at h
    exact ok.software h
  current value h := by
    rw [pc] at h
    rw [untouched value h, ok.current value h]

theorem inv_init : Inv W call memory (init memory : State ι V) [] where
  linear := .nil memory
  replayed := rfl
  exclusive i _ h := h.elim
  ok i := ⟨by simp [init], fun h => h.elim, fun r h => by simp [init, Pc.Given] at h, fun h => h.elim,
    fun h => h.elim, by simp [init]⟩

variable [DecidableEq ι]

omit [DecidableEq V] in
@[simp] theorem goto_self : (s.goto i pc).pc i = pc := Function.update_self ..

/-- One call takes a step; whoever holds the mutex afterwards held it before, or finds it free. -/
theorem Inv.update {l : List ι} (inv : Inv W call memory s order)
    (linear : Linearizes (atomically W call) memory t.history (order ++ l))
    (replayed : t.memory = replay (atomically W call) memory (order ++ l))
    (moved : t.pc = Function.update s.pc i pc) (own : ∀ j ∈ l, j = i)
    (invoked : ∀ j, j ≠ i → (.invoke j ∈ t.history ↔ .invoke j ∈ s.history))
    (holds : pc.Holds → (s.pc i).Holds ∨ s.mutex ≠ 0)
    (mutex : (s.pc i).Holds ∨ s.mutex ≠ 0 ∨ t.mutex = s.mutex)
    (untouched : ∀ j value, j ≠ i → s.pc j = .fetched value →
      t.memory (call j).targetAddr = s.memory (call j).targetAddr)
    (ok : Ok W call memory t (order ++ l) i) : Inv W call memory t (order ++ l) where
  linear := linear
  replayed := replayed
  exclusive := by
    have alone (k : ι) (other : k ≠ i) (mine : pc.Holds) (theirs : (s.pc k).Holds) : False := by
      obtain held | free := holds mine
      · exact other (inv.exclusive k i theirs held)
      · exact free ((inv.ok k).mutex theirs)
    intro j k hj hk
    rw [moved] at hj hk
    obtain rfl | hji := eq_or_ne j i <;> obtain rfl | hki := eq_or_ne k j
    · rfl
    · rw [Function.update_self] at hj
      rw [Function.update_of_ne hki] at hk
      exact (alone k hki hj hk).elim
    · rfl
    · rw [Function.update_of_ne hji] at hj
      obtain rfl | hki' := eq_or_ne k i
      · rw [Function.update_self] at hk
        exact (alone j hji hk hj).elim
      · rw [Function.update_of_ne hki'] at hk
        exact inv.exclusive j k hj hk
  ok j := by
    obtain rfl | other := eq_or_ne j i
    · exact ok
    · refine (inv.ok j).frame (by rw [moved, Function.update_of_ne other]) (invoked j other)
        (fun mem => other (own j mem)) (fun theirs => ?_) fun value h => untouched j value other h
      obtain held | free | same := mutex
      · exact absurd (inv.exclusive j i theirs held) other
      · exact absurd ((inv.ok j).mutex theirs) free
      · exact same

omit [DecidableEq ι] in
/-- A step in which the call takes effect on the object as it is. -/
theorem Inv.commit (inv : Inv W call memory s order) (pending : (s.pc i).Pending) {response : Response V}
    (effect : atomically W call s.memory i = (t.memory, response)) (history : t.history = s.history) :
    Linearizes (atomically W call) memory t.history (order ++ [i]) ∧
      t.memory = replay (atomically W call) memory (order ++ [i]) ∧
      (i, response) ∈ responses (atomically W call) memory (order ++ [i]) := by
  have begun : .invoke i ∈ s.history := by
    rw [(inv.ok i).begun]
    intro idle
    rw [idle] at pending
    exact pending
  have given : (i, (atomically W call (replay (atomically W call) memory order) i).2) ∈
      responses (atomically W call) memory (order ++ [i]) := response_snoc
  rw [← inv.replayed, effect] at given
  refine ⟨history ▸ inv.linear.commit begun ((inv.ok i).pending pending), ?_, given⟩
  rw [replay_append, ← inv.replayed]
  exact (congrArg Prod.fst effect).symm

theorem Inv.begin (inv : Inv W call memory s order) (idle : s.pc i = .idle) :
    Inv W call memory { s.goto i .entered with history := s.history ++ [.invoke i] } order := by
  have fresh : .invoke i ∉ s.history := fun mem => (inv.ok i).begun.mp mem idle
  rw [← List.append_nil order]
  refine inv.update (i := i) (by simpa using inv.linear.invoke fresh)
    (by simpa [State.goto] using inv.replayed) rfl (by simp) (fun j other => by simp [other]) (fun h => h.elim)
    (.inr (.inr rfl)) (fun _ _ _ _ => rfl) ⟨by simp, fun _ => ?_, ?_, ?_, ?_, ?_⟩
  · rw [List.append_nil]
    exact fun mem => fresh (inv.linear.invoked i mem)
  all_goals simp [Pc.Given, Pc.Holds, Pc.Software]

theorem Inv.enter (one : OnePath W call) (inv : Inv W call memory s order) (entered : s.pc i = .entered) :
    ∃ l, Inv W call memory (s.enter W call i) (order ++ l) := by
  have pending : (s.pc i).Pending := by rw [entered]; trivial
  have begun : .invoke i ∈ s.history := (inv.ok i).begun.mpr (by simp [entered])
  unfold State.enter
  dsimp only
  split
  · -- the search fails
    rename_i missing
    obtain ⟨linear, replayed, given⟩ := inv.commit (t := s) pending (atomically_missing missing s.memory) rfl
    refine ⟨[i], inv.update linear replayed rfl (by simp) (fun _ _ => .rfl) (fun h => h.elim) (.inr (.inr rfl))
      (fun _ _ _ _ => rfl) ⟨by simp [State.goto, begun], ?_, fun r h => ?_, ?_, ?_, ?_⟩⟩
    · simp [Pc.Pending]
    · obtain rfl : _ = r := by simpa [Pc.Given] using h
      exact given
    all_goals simp [Pc.Holds, Pc.Software]
  · rename_i found
    rw [not_not] at found
    split
    · -- the network card operates on the element
      rename_i nic
      have effect := atomically_found (W := W) found s.memory
      rw [putBack_nic nic] at effect
      obtain ⟨linear, replayed, given⟩ := inv.commit
        (t := s.store (call i).targetAddr ((call i).putBack (s.memory (call i).targetAddr)).1) pending effect rfl
      refine ⟨[i], inv.update linear replayed rfl (by simp) (fun _ _ => .rfl) (fun h => h.elim) (.inr (.inr rfl))
        (fun j value other fetched => ?_) ⟨by simp [State.goto, State.store, begun], ?_, fun r h => ?_, ?_, ?_, ?_⟩⟩
      · obtain ⟨found', software⟩ := (inv.ok j).software (by rw [fetched]; trivial)
        refine put_of_ne (fun same => ?_) _ _
        rw [one j i found' found same, nic] at software
        contradiction
      · simp [Pc.Pending]
      · obtain rfl : _ = r := by simpa [Pc.Given] using h
        exact given
      all_goals simp [Pc.Holds, Pc.Software]
    · -- one iteration for the mutex
      rename_i software
      rw [Bool.not_eq_true] at software
      refine ⟨[], ?_⟩
      split
      · rename_i free
        refine inv.update (i := i) (by simpa [State.goto] using inv.linear)
          (by simpa [State.goto] using inv.replayed) rfl (by simp) (fun _ _ => .rfl)
          (fun _ => .inr (by rw [free]; decide)) (.inr (.inl (by rw [free]; decide))) (fun _ _ _ _ => rfl)
          ⟨by simp [State.goto, begun], fun _ => ?_, ?_, fun _ => ?_, fun _ => ⟨found, software⟩, ?_⟩
        · rw [List.append_nil]
          exact (inv.ok i).pending pending
        · simp [Pc.Given]
        · simp [acswap, free]
        · simp
      · rename_i taken
        have same : acswap s.mutex mutexNone 0 = s.mutex := if_neg taken
        rw [same, List.append_nil]
        exact inv

theorem Inv.run (one : OnePath W call) (inv : Inv W call memory s order) (move : s.run W call i = some t) :
    ∃ l, Inv W call memory t (order ++ l) := by
  have ok := inv.ok i
  have begun (pc : s.pc i ≠ .idle) : .invoke i ∈ s.history := ok.begun.mpr pc
  unfold State.run at move
  cases pc : s.pc i with
  | idle | done =>
    rw [pc] at move
    contradiction
  | entered =>
    rw [pc] at move
    cases move
    exact inv.enter one pc
  | locked =>
    rw [pc] at move
    cases move
    refine ⟨[], inv.update (by simpa [State.goto] using inv.linear) (by simpa [State.goto] using inv.replayed) rfl
      (by simp) (fun _ _ => .rfl) (fun _ => .inl (by rw [pc]; trivial)) (.inr (.inr rfl)) (fun _ _ _ _ => rfl)
      ⟨by simp [State.goto, begun, pc], fun _ => ?_, ?_, fun _ => ok.mutex (by rw [pc]; trivial),
        fun _ => ok.software (by rw [pc]; trivial), fun value same => ?_⟩⟩
    · rw [List.append_nil]
      exact ok.pending (by rw [pc]; trivial)
    · simp [Pc.Given]
    · rw [goto_self] at same
      exact Pc.fetched.inj same
  | fetched value =>
    rw [pc] at move
    cases move
    obtain ⟨found, software⟩ := ok.software (by rw [pc]; trivial)
    have effect := atomically_found (W := W) found s.memory
    rw [ok.current value pc] at effect
    obtain ⟨linear, replayed, given⟩ := inv.commit (t := s.store (call i).targetAddr ((call i).putBack value).1)
      (by rw [pc]; trivial) effect rfl
    refine ⟨[i], inv.update linear replayed rfl (by simp) (fun _ _ => .rfl) (fun _ => .inl (by rw [pc]; trivial))
      (.inr (.inr rfl)) (fun j other ne fetched => ?_)
      ⟨by simp [State.goto, State.store, begun, pc], ?_, fun r h => ?_,
        fun _ => ok.mutex (by rw [pc]; trivial), ?_, ?_⟩⟩
    · exact absurd (inv.exclusive j i (by rw [fetched]; trivial) (by rw [pc]; trivial)) ne
    · simp [Pc.Pending]
    · obtain rfl : _ = r := by simpa [Pc.Given] using h
      exact given
    all_goals simp [Pc.Software]
  | written response =>
    rw [pc] at move
    cases move
    refine ⟨[], inv.update (i := i) (by simpa [State.goto] using inv.linear)
      (by simpa [State.goto] using inv.replayed) rfl (by simp) (fun _ _ => .rfl) (fun h => h.elim)
      (.inl (by rw [pc]; trivial)) (fun _ _ _ _ => rfl)
      ⟨by simp [State.goto, begun, pc], ?_, fun r h => ?_, ?_, ?_, ?_⟩⟩
    · simp [Pc.Pending]
    · obtain rfl : response = r := by simpa [Pc.Given] using h
      rw [List.append_nil]
      exact ok.given response (.inl pc)
    all_goals simp [Pc.Holds, Pc.Software]
  | returning response =>
    rw [pc] at move
    cases move
    have given := ok.given response (.inr pc)
    refine ⟨[], inv.update (i := i) (by simpa using inv.linear.respond given)
      (by simpa [State.goto] using inv.replayed) rfl (by simp) (fun _ _ => by simp) (fun h => h.elim)
      (.inr (.inr rfl)) (fun _ _ _ _ => rfl) ⟨by simp [State.goto, begun, pc], ?_, ?_, ?_, ?_, ?_⟩⟩
    all_goals simp [Pc.Pending, Pc.Given, Pc.Holds, Pc.Software]

/-- Where the two paths do not meet on an element, every run of the calls is linearizable, and the memory is
that of the order in which they take effect. -/
theorem atomics_linearizable (one : OnePath W call) (memory : ℤ → V)
    (run : Reach (step W call) always (init memory) s) :
    ∃ order, Linearizes (atomically W call) memory s.history order ∧
      s.memory = replay (atomically W call) memory order := by
  suffices inv : ∃ order, Inv W call memory s order by
    obtain ⟨order, inv⟩ := inv
    exact ⟨order, inv.linear, inv.replayed⟩
  refine run.invariant (P := fun s => ∃ order, Inv W call memory s order) ⟨[], inv_init⟩ ?_
  rintro s a t ⟨order, inv⟩ move -
  cases a with
  | call i =>
    simp only [step] at move
    split at move
    · rename_i idle
      cases move
      exact ⟨order, inv.begin idle⟩
    · contradiction
  | run i =>
    obtain ⟨l, inv⟩ := inv.run one move
    exact ⟨order ++ l, inv⟩

/-- An integer of 4 bytes to which something is added, and one of 8 bytes next to it that is swapped twice. -/
def neighbours : Fin 3 → Call ℤ
  | 0 => ⟨.fetchAndOp .sum 3, ⟨4, fun _ _ origin value => (origin + value, .success)⟩, 0, 0⟩
  | 1 => ⟨.compareAndSwap 7 5, ⟨8, fun _ buffer _ _ => (buffer, .opNotSupported)⟩, 8, 0⟩
  | 2 => ⟨.compareAndSwap 9 7, ⟨8, fun _ buffer _ _ => (buffer, .opNotSupported)⟩, 8, 0⟩

theorem atomics_linearizable_neighbours : ∃ s : State (Fin 3) ℤ, s.memory 0 = 8 ∧ s.memory 8 = 9 ∧
    ∃ order, Linearizes (atomically ⟨.create, []⟩ neighbours) (fun _ => 5) s.history order ∧
      s.memory = replay (atomically ⟨.create, []⟩ neighbours) (fun _ => 5) order := by
  have ran : (exec (step ⟨.create, []⟩ neighbours) (init fun _ => 5) [.call 0, .call 2, .run 0, .call 1, .run 0,
      .run 1, .run 2, .run 0, .run 1, .run 0, .run 2, .run 0]).map (fun s => (s.memory 0, s.memory 8)) =
      some (8, 9) := by decide
  obtain ⟨s, run, values⟩ := Option.map_eq_some_iff.mp ran
  obtain ⟨first, second⟩ := Prod.mk.inj values
  exact ⟨s, first, second, atomics_linearizable (by unfold OnePath; decide) _ (.of_exec _ run)⟩

/-- A swap of the network card between the two transfers of a call that holds the mutex: either both have
changed the element as it was in the beginning, or neither. -/
theorem mixed_paths_not_linearizable (apart : i ≠ j) (foundI : (call i).found W) (foundJ : (call j).found W)
    (nic : (call i).viaNic = true) (software : (call j).viaNic = false)
    (same : (call j).targetAddr = (call i).targetAddr) (memory : ℤ → V) {swapped stored : V}
    (swaps : ((call i).putBack (memory (call i).targetAddr)).1 = some swapped)
    (puts : ((call j).putBack (memory (call i).targetAddr)).1 = some stored)
    (other : swapped ≠ memory (call i).targetAddr) (other' : stored ≠ memory (call i).targetAddr) :
    ∃ s, Reach (step W call) always (init memory) s ∧ s.pc i = .done ∧ s.pc j = .done ∧
      s.memory (call i).targetAddr = stored ∧
      .respond i ⟨some (memory (call i).targetAddr), .code .success⟩ ∈ s.history ∧
      (∃ code, .respond j ⟨some (memory (call i).targetAddr), code⟩ ∈ s.history) ∧
      ∀ order, ¬Linearizes (atomically W call) memory s.history order := by
  obtain ⟨s, ran, doneI, doneJ, final, history⟩ : ∃ s, exec (step W call) (init memory)
      [.call j, .run j, .run j, .call i, .run i, .run j, .run i, .run j, .run j] = some s ∧
      s.pc i = .done ∧ s.pc j = .done ∧ s.memory (call i).targetAddr = stored ∧ s.history =
        [.invoke j, .invoke i, .respond i ⟨some (memory (call i).targetAddr), .code .success⟩,
          .respond j ⟨some (memory (call i).targetAddr),
            .code ((call j).putBack (memory (call i).targetAddr)).2⟩] := by
    simp [exec, step, State.run, State.enter, State.goto, State.store, init, foundI, foundJ, nic, software, same, apart,
      apart.symm, swaps, puts, Atomic.put, acswap]
  have returnedI : .respond i ⟨some (memory (call i).targetAddr), .code .success⟩ ∈ s.history := by simp [history]
  have returnedJ : .respond j ⟨some (memory (call i).targetAddr),
      .code ((call j).putBack (memory (call i).targetAddr)).2⟩ ∈ s.history := by simp [history]
  refine ⟨s, .of_exec _ ran, doneI, doneJ, final, returnedI, ⟨_, returnedJ⟩, fun order linear => ?_⟩
  have both : order.Perm [i, j] := by
    refine linear.perm (by simp [apart]) (fun k => by simp [history, or_comm]) fun k mem => ?_
    obtain rfl | mem := List.mem_cons.mp mem
    · exact ⟨_, returnedI⟩
    · exact List.mem_singleton.mp mem ▸ ⟨_, returnedJ⟩
  obtain rfl | rfl := List.perm_pair.mp both
  · -- the call with the mutex would find what was swapped in
    have given := linear.responded j _ returnedJ
    simp [responses, atomically_found, foundI, foundJ, same, swaps, Atomic.put, apart.symm, other.symm] at given
  · -- the swap would find what was put
    have given := linear.responded i _ returnedI
    simp [responses, atomically_found, foundI, foundJ, same, puts, Atomic.put, apart, other'.symm] at given

/-- An element of 8 bytes that is swapped by one call and added to by another. -/
def shared : Bool → Call ℤ
  | true => ⟨.compareAndSwap 7 5, ⟨8, fun _ buffer _ _ => (buffer, .opNotSupported)⟩, 0, 0⟩
  | false => ⟨.fetchAndOp .sum 3, ⟨8, fun _ _ origin value => (origin + value, .success)⟩, 0, 0⟩

theorem mixed_paths_not_linearizable_shared : ∃ s : State Bool ℤ,
    Reach (step ⟨.create, []⟩ shared) always (init fun _ => 5) s ∧ s.pc true = .done ∧ s.pc false = .done ∧
      s.memory 0 = 8 ∧ .respond true ⟨some 5, .code .success⟩ ∈ s.history ∧
      (∃ code, .respond false ⟨some 5, code⟩ ∈ s.history) ∧
      ∀ order, ¬Linearizes (atomically ⟨.create, []⟩ shared) (fun _ => 5) s.history order :=
  mixed_paths_not_linearizable (i := true) (j := false) (by decide) (by decide) (by decide) (by decide) (by decide) rfl
    (fun _ => 5) rfl rfl (by decide) (by decide)

end Steps

end FoMPI.Atomic
