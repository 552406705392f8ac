import FoMPI.Pscw.Steps

/-!
# Epochs neither open nor close early

An origin that has left `foMPI_Win_start` has been posted to in this epoch, and the
poll that ends an exposure epoch has seen the completes of the whole group.
-/
namespace FoMPI.Pscw
open FoMPI.Foundation FoMPI.Window

variable {ι : Type*} [DecidableEq ι] {l : Layout ι} {s t : State ι} {q : ι} {g : Group ι}

section Polls
variable {wait : Bool} {c : Counter} {v : BitVec 64}

omit [DecidableEq ι] in
/-- Counters that do not exceed the size of the group match it only if they reach it; the cast of
`foMPI_Win_wait` to `char` makes the sum too small or negative otherwise. -/
theorem matchesGroup_total {x y : BitVec 64} (few : x.toNat + y.toNat ≤ g.ranks.length)
    (same : matchesGroup wait x y g = true) : x.toNat + y.toNat = g.ranks.length := by
  have size := g.size
  cases wait with
  | false =>
    simp only [matchesGroup, Bool.false_eq_true, if_false, decide_eq_true_eq] at same
    have value := congrArg BitVec.toNat same
    simp only [BitVec.toNat_add, BitVec.toNat_setWidth, BitVec.toNat_ofNat] at value
    omega
  | true =>
    simp only [matchesGroup, if_true, decide_eq_true_eq] at same
    have value := congrArg BitVec.toNat same
    simp only [BitVec.toNat_add, BitVec.toNat_signExtend, BitVec.toNat_setWidth, BitVec.toNat_ofNat,
      BitVec.msb_eq_decide, decide_eq_true_eq] at value
    split at value <;> omega

/-- A poll that matches the size of the group has found all its members complete. -/
theorem Inv.complete_of_match (inv : Inv s) {x y : BitVec 64} (posted : (s.exposure q).posted = g.ranks)
    (counting : (s.exposure q).counting = true) (hx : x.toNat ≤ (s.globalCounter q).toNat)
    (hy : y.toNat ≤ (s.xpmemGlobalCounter q).toNat) (same : matchesGroup wait x y g = true) :
    s.inFlight.count (.globalCounter q) = 0 ∧ ∀ p ∈ g.ranks, s.posts q p = s.completes p q := by
  have total := (inv.tally q).total counting
  have most := State.finished_le s q
  rw [posted] at most
  have reached := matchesGroup_total (by omega) same
  refine ⟨by omega, ?_⟩
  have all : s.finished q = g.ranks.length := by omega
  rw [State.finished, posted, List.countP_eq_length] at all
  intro p hp
  simpa using all p hp

/-- The exposure epoch closes. -/
theorem Inv.close (inv : Inv s) (posted : (s.exposure q).posted = g.ranks)
    (landed : s.inFlight.count (.globalCounter q) = 0)
    (complete : ∀ p ∈ g.ranks, s.posts q p = s.completes p q) :
    Inv { s with exposure := Function.update s.exposure q .closed } := by
  refine ⟨⟨inv.exposure, inv.access, inv.starts, inv.passed, inv.narrow, ?_⟩, fun q' => ?_,
    inv.polled_renew rfl (by simp) fun _ _ _ => rfl⟩
  · apply inv.posts_renew
    intro p
    have old := inv.posts p q
    simp only [Exposure.posted, List.not_mem_nil, if_false]
    rw [posted] at old
    split at old
    · rename_i member
      exact (complete p member).le
    · exact old
  · obtain rfl | other := eq_or_ne q' q
    · refine ⟨fun _ => landed, fun g h => ?_, fun h => ?_⟩
      · simp at h
      · simp [Exposure.counting] at h
    · exact (inv.tally q').congr (Function.update_of_ne other _ _) rfl rfl rfl (fun _ => rfl) fun _ => rfl

/-- The values that the second read of a poll compares. -/
def State.readings (s : State ι) (q : ι) : Counter → BitVec 64 → BitVec 64 × BitVec 64
  | .globalCounter, v => (v, s.xpmemGlobalCounter q)
  | .xpmemGlobalCounter, v => (s.globalCounter q, v)

theorem State.poll_polled (s : State ι) (c' : Counter) (polled : s.exposure q = .polled g wait c v) :
    s.poll q c' = some { s with
      exposure := Function.update s.exposure q
        (if matchesGroup wait (s.readings q c v).1 (s.readings q c v).2 g then .closed
          else if wait then .polling g wait else .opened g) } := by
  unfold State.poll
  rw [polled]
  cases c <;> rfl

theorem Inv.complete_of_poll (inv : Inv s) (polled : s.exposure q = .polled g wait c v)
    (same : matchesGroup wait (s.readings q c v).1 (s.readings q c v).2 g = true) :
    s.inFlight.count (.globalCounter q) = 0 ∧ ∀ p ∈ g.ranks, s.posts q p = s.completes p q := by
  have read := inv.polled q g wait c v polled
  have posted : (s.exposure q).posted = g.ranks := by rw [polled]; rfl
  have counting : (s.exposure q).counting = true := by rw [polled]; rfl
  cases c with
  | globalCounter => exact inv.complete_of_match posted counting read le_rfl same
  | xpmemGlobalCounter => exact inv.complete_of_match posted counting le_rfl read same

theorem Inv.poll (inv : Inv s) (move : s.poll q c = some t) : Inv t := by
  cases exposure : s.exposure q with
  | closed | clearing g | posting g i | opened g =>
    rw [State.poll, exposure] at move
    contradiction
  | polling g wait =>
    rw [State.poll, exposure] at move
    cases move
    apply inv.setExposure _ rfl (by rw [exposure]; rfl) _
    · rw [exposure]
      rfl
    · intro g' wait' c' v h
      cases h
      exact le_rfl
  | polled g wait c' v =>
    rw [s.poll_polled c exposure] at move
    cases move
    have posted : (s.exposure q).posted = g.ranks := by rw [exposure]; rfl
    have counting : (s.exposure q).counting = true := by rw [exposure]; rfl
    split
    · rename_i same
      obtain ⟨landed, complete⟩ := inv.complete_of_poll exposure same
      exact inv.close posted landed complete
    · cases wait
      · exact inv.setExposure posted.symm rfl counting (by simp)
      · exact inv.setExposure posted.symm rfl counting (by simp)

end Polls

theorem Inv.step {a : Action ι} (inv : Inv s) (move : step l s a = some t) : Inv t := by
  cases a with
  | start p g =>
    simp only [Pscw.step] at move
    split at move
    · rename_i closed
      cases move
      exact inv.winStart closed
    · contradiction
  | complete p =>
    simp only [Pscw.step] at move
    split at move
    · rename_i g opened
      cases move
      exact inv.openedComplete opened
    · contradiction
  | access p =>
    simp only [Pscw.step] at move
    split at move
    · rename_i g i starting
      cases move
      exact inv.awaitPost starting
    · rename_i g i completing
      cases move
      exact inv.notifyTarget completing
    · contradiction
  | post p g =>
    simp only [Pscw.step] at move
    split at move
    · rename_i closed
      cases move
      exact inv.winPost closed
    · contradiction
  | expose p =>
    simp only [Pscw.step] at move
    split at move
    · rename_i g clearing
      cases move
      exact inv.clear clearing
    · rename_i g i posting
      cases move
      exact inv.notifyOrigin posting
    · contradiction
  | wait p | test p =>
    simp only [Pscw.step] at move
    split at move
    · rename_i g opened
      cases move
      exact inv.setExposure (by rw [opened]; rfl) rfl (by rw [opened]; rfl) (by simp)
    · contradiction
  | poll p c => exact inv.poll move
  | deliver k =>
    simp only [Pscw.step, Option.map_eq_some_iff] at move
    obtain ⟨m, hm, rfl⟩ := move
    exact inv.deliver hm

section Exposures
variable {p : ι} {i : ℕ}

@[simp] theorem State.apply_exposure (m : Increment ι) : (s.apply m).exposure = s.exposure := by
  cases m <;> rfl

@[simp] theorem State.awaitPost_exposure : (s.awaitPost p g i).exposure = s.exposure := by
  unfold State.awaitPost
  split
  · rfl
  · split <;> rfl

@[simp] theorem State.notifyTarget_exposure : (s.notifyTarget l p g i).exposure = s.exposure := by
  unfold State.notifyTarget
  split
  · rfl
  · dsimp only
    split <;> rfl

theorem State.notifyOrigin_exposure (l : Layout ι) (s : State ι) (p : ι) (g : Group ι) (i : ℕ) :
    ∃ e, e ≠ .closed ∧ (s.notifyOrigin l p g i).exposure = Function.update s.exposure p e := by
  unfold State.notifyOrigin
  cases g.ranks[i]? with
  | none => exact ⟨.opened g, by simp, rfl⟩
  | some q =>
    refine ⟨.posting g (i + 1), by simp, ?_⟩
    dsimp only
    split <;> rfl

/-- A poll has just read the counters of `q` and finds that they match the size of the group. -/
def State.Matched (s : State ι) (q : ι) (g : Group ι) : Prop :=
  ∃ wait c v, s.exposure q = .polled g wait c v ∧
    matchesGroup wait (s.readings q c v).1 (s.readings q c v).2 g = true

theorem State.poll_exposure {c : Counter} (move : s.poll p c = some t) : ∃ e,
    t.exposure = Function.update s.exposure p e ∧ (e = .closed → ∃ g, s.Matched p g) := by
  cases exposure : s.exposure p with
  | closed | clearing g | posting g i | opened g =>
    rw [State.poll, exposure] at move
    contradiction
  | polling g wait =>
    rw [State.poll, exposure] at move
    cases move
    exact ⟨_, rfl, fun h => by simp at h⟩
  | polled g wait c' v =>
    rw [s.poll_polled c exposure] at move
    cases move
    refine ⟨_, rfl, fun closed => ⟨g, wait, c', v, exposure, ?_⟩⟩
    by_contra differs
    rw [if_neg differs] at closed
    cases wait <;> simp at closed

/-- A step concerns the exposure epoch of the process that takes it, and closes it only by a match. -/
theorem step_exposure {a : Action ι} (move : step l s a = some t) : t.exposure = s.exposure ∨
    ∃ p e, a.caller = some p ∧ t.exposure = Function.update s.exposure p e ∧ (e = .closed → ∃ g, s.Matched p g) := by
  cases a with
  | start p g | complete p =>
    simp only [Pscw.step] at move
    split at move
    · cases move
      exact .inl rfl
    · contradiction
  | access p =>
    simp only [Pscw.step] at move
    split at move
    · cases move
      exact .inl State.awaitPost_exposure
    · cases move
      exact .inl State.notifyTarget_exposure
    · contradiction
  | post p g =>
    simp only [Pscw.step] at move
    split at move
    · cases move
      exact .inr ⟨p, .clearing g, rfl, rfl, by simp⟩
    · contradiction
  | expose p =>
    simp only [Pscw.step] at move
    split at move
    · cases move
      exact .inr ⟨p, _, rfl, rfl, by simp⟩
    · rename_i g i posting
      cases move
      obtain ⟨e, open', new⟩ := State.notifyOrigin_exposure l s p g i
      exact .inr ⟨p, e, rfl, new, fun closed => absurd closed open'⟩
    · contradiction
  | wait p | test p =>
    simp only [Pscw.step] at move
    split at move
    · cases move
      exact .inr ⟨p, _, rfl, rfl, by simp⟩
    · contradiction
  | poll p c =>
    obtain ⟨e, new, matched⟩ := State.poll_exposure move
    exact .inr ⟨p, e, rfl, new, matched⟩
  | deliver k =>
    simp only [Pscw.step, Option.map_eq_some_iff] at move
    obtain ⟨m, -, rfl⟩ := move
    exact .inl (s.apply_exposure m)

end Exposures

/-- The group of the exposure epoch of a process. -/
def Exposure.group : Exposure ι → Option (Group ι)
  | .closed => none
  | .clearing g | .posting g _ | .opened g | .polling g _ | .polled g _ _ _ => some g

/-- An exposure epoch closes with a poll that matches the size of its group. -/
theorem step_closes {a : Action ι} (exposed : (s.exposure q).group = some g) (move : step l s a = some t)
    (closed : t.exposure q = .closed) : s.Matched q g := by
  have open' : s.exposure q ≠ .closed := by
    intro h
    rw [h] at exposed
    contradiction
  obtain same | ⟨p, e, -, new, matched⟩ := step_exposure move
  · rw [same] at closed
    exact absurd closed open'
  · rw [new] at closed
    obtain rfl | other := eq_or_ne q p
    · rw [Function.update_self] at closed
      obtain ⟨g', wait, c, v, polled, same⟩ := matched closed
      rw [polled] at exposed
      cases exposed
      exact ⟨wait, c, v, polled, same⟩
    · rw [Function.update_of_ne other] at closed
      exact absurd closed open'

/-- Epochs neither open nor close early. In a process that has left `foMPI_Win_start`, each target has
posted as often to it as it has started epochs with the target; an exposure epoch closes only when
each member of its group has completed as many epochs as the target has posted to it. -/
theorem epochs_synchronized (l : Layout ι) {s : State ι} (run : Reach (step l) always init s) :
    (∀ p g, s.access p = .opened g → ∀ q ∈ g.ranks, s.starts p q ≤ s.posts q p) ∧
    ∀ a t q g, (s.exposure q).group = some g → step l s a = some t → t.exposure q = .closed →
      ∀ p ∈ g.ranks, s.posts q p ≤ s.completes p q := by
  have inv : Inv s := run.invariant .init fun _ _ _ inv move _ => inv.step move
  constructor
  · intro p g opened q hq
    have starts := inv.starts p q
    have passes : q ∈ (s.access p).passed := by
      rw [opened]
      exact hq
    have := (inv.posted_of_passed passes).2
    split at starts <;> omega
  · intro a t q g exposed move closed p hp
    obtain ⟨wait, c, v, polled, same⟩ := step_closes exposed move closed
    exact ((inv.complete_of_poll polled same).2 p hp).le

section Example

/-- Two processes on different nodes. -/
inductive Side
  | origin
  | target
  deriving DecidableEq

def pair : Layout Side where
  window _ := ⟨true, -1, -1, []⟩
  rank
    | .origin => 0
    | .target => 1

def only (p : Side) : Group Side := ⟨[p], List.nodup_singleton p, by simp⟩

/-- One access epoch and one exposure epoch, up to the last read of `foMPI_Win_wait`. -/
def handshake : List (Action Side) :=
  [.start .origin (only .target), .post .target (only .origin), .access .origin, .expose .target,
    .expose .target, .expose .target, .deliver 0, .access .origin, .access .origin, .wait .target,
    .complete .origin, .access .origin, .access .origin, .deliver 0, .poll .target .xpmemGlobalCounter]

/-- The wait of the target ends after the complete of the origin. -/
theorem epochs_synchronized_pair : ∃ s t : State Side, exec (step pair) init handshake = some s ∧
    step pair s (.poll .target .globalCounter) = some t ∧ t.exposure .target = .closed ∧
      s.posts .target .origin = 1 ∧ s.posts .target .origin ≤ s.completes .origin .target := by
  have run : Reach (step pair) always init _ := .of_exec handshake rfl
  exact ⟨_, _, rfl, rfl, rfl, rfl,
    (epochs_synchronized pair run).2 (.poll .target .globalCounter) _ .target (only .origin) rfl rfl rfl
      .origin List.mem_cons_self⟩

end Example

end FoMPI.Pscw
