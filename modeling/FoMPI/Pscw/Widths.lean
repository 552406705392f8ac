import FoMPI.Pscw.Safety

/-!
# The widths of the counters

Both sides of an epoch count the same events. `pscw_matching_access` has 32 bits and
`pscw_matching_exposure` has 64; `foMPI_Win_wait` reads eight bits of a counter that
`foMPI_Win_test` reads whole.
-/
namespace FoMPI.Pscw
open FoMPI.Foundation FoMPI.Window

section Start
variable {ι : Type*} [DecidableEq ι] {l : Layout ι} {s : State ι} {p q : ι} {n : ℕ}

/-- With `n` epochs begun on either side, an origin gets past its target exactly while `n` fits the
narrower counter. -/
theorem start_unblocked (run : Reach (step l) always init s) (positive : 1 ≤ n)
    (started : s.starts p q = n)
    (delivered : s.posts q p = n + s.inFlight.count (.matchingExposure p q)) :
    (s.matchingAccess p q).setWidth 64 = s.matchingExposure p q ↔ n < 4294967296 := by
  have inv : Inv s := run.invariant .init fun _ _ _ inv move _ => inv.step move
  have exposure := inv.exposure p q
  have seen : (s.matchingExposure p q).toNat = n := by omega
  rw [inv.access p q, started, ← BitVec.toNat_inj, BitVec.toNat_setWidth, BitVec.toNat_ofNat, seen]
  have fits := (s.matchingExposure p q).isLt
  omega

end Start

section Wrap
variable {s t : State Side} {k : ℕ}

/-- The two processes have begun `starts` and `posts` epochs with each other, all of it delivered. -/
structure Counts (starts posts : ℕ) (s : State Side) : Prop where
  flight : s.inFlight = []
  matchingAccess : s.matchingAccess .origin .target = BitVec.ofNat 32 starts
  matchingExposure : s.matchingExposure .origin .target = BitVec.ofNat 64 posts
  starts : s.starts .origin .target = starts
  posts : s.posts .target .origin = posts

/-- Between two epochs. -/
structure Ready (k : ℕ) (s : State Side) : Prop extends Counts k k s where
  access : s.access .origin = .closed
  exposure : s.exposure .target = .closed

/-- The target has posted. -/
structure Posted (k : ℕ) (s : State Side) : Prop extends Counts k (k + 1) s where
  access : s.access .origin = .closed
  exposure : s.exposure .target = .opened (only .origin)
  globalCounter : s.globalCounter .target = 0#64
  xpmemGlobalCounter : s.xpmemGlobalCounter .target = 0#64

/-- The origin has completed. -/
structure Completed (k : ℕ) (s : State Side) : Prop extends Counts (k + 1) (k + 1) s where
  access : s.access .origin = .closed
  exposure : s.exposure .target = .opened (only .origin)
  globalCounter : s.globalCounter .target = 1#64
  xpmemGlobalCounter : s.xpmemGlobalCounter .target = 0#64

@[simp] theorem only_ranks (p : Side) : (only p).ranks = [p] := rfl

@[simp] theorem pair_viaXpmem (p q : Side) : pair.viaXpmem p q = false := rfl

theorem Ready.post (h : Ready k s) : ∃ t, exec (step pair) s
    [.post .target (only .origin), .expose .target, .expose .target, .expose .target, .deliver 0] = some t ∧
      Posted k t := by
  suffices Posted k { s with
      matchingExposure := update₂ s.matchingExposure .origin .target (s.matchingExposure .origin .target + 1#64)
      globalCounter := Function.update s.globalCounter .target 0#64
      xpmemGlobalCounter := Function.update s.xpmemGlobalCounter .target 0#64
      exposure := Function.update s.exposure .target (.opened (only .origin))
      inFlight := []
      posts := update₂ s.posts .target .origin (s.posts .target .origin + 1) } by
    simpa [exec, step, h.exposure, h.flight, State.winPost, State.notifyOrigin, State.apply]
  refine ⟨⟨rfl, h.matchingAccess, ?_, h.starts, ?_⟩, h.access, rfl,
    rfl, rfl⟩
  · simp [update₂_apply, h.matchingExposure, BitVec.ofNat_add]
  · simp [update₂_apply, h.posts]

/-- The loop of `foMPI_Win_start` ends while the epochs fit its counter. -/
theorem Posted.epoch (h : Posted k s) (fits : k + 1 < 4294967296) : ∃ t, exec (step pair) s
    [.start .origin (only .target), .access .origin, .access .origin, .complete .origin, .access .origin,
      .access .origin, .deliver 0] = some t ∧ Completed k t := by
  have equal : (BitVec.ofNat 32 k + 1#32).setWidth 64 = BitVec.ofNat 64 (k + 1) := by
    rw [← BitVec.toNat_inj]
    simp only [BitVec.toNat_setWidth, BitVec.toNat_add, BitVec.toNat_ofNat]
    omega
  suffices Completed k { s with
      matchingAccess := Function.update s.matchingAccess .origin
        (Function.update (s.matchingAccess .origin) .target (BitVec.ofNat 32 k + 1#32))
      globalCounter := Function.update s.globalCounter .target (s.globalCounter .target + 1#64)
      access := Function.update s.access .origin .closed
      inFlight := []
      starts := Function.update s.starts .origin fun q =>
        if q = .target then s.starts .origin q + 1 else s.starts .origin q
      completes := update₂ s.completes .origin .target (s.completes .origin .target + 1) } by
    simpa [exec, step, h.access, h.flight, State.winStart, State.awaitPost, State.notifyTarget,
      State.apply, h.matchingAccess, h.matchingExposure, equal]
  refine ⟨⟨rfl, ?_, h.matchingExposure, ?_, h.posts⟩, rfl, h.exposure, ?_,
    h.xpmemGlobalCounter⟩
  · simp [BitVec.ofNat_add]
  · simp [h.starts]
  · simp [h.globalCounter]

theorem Completed.close (h : Completed k s) : ∃ t, exec (step pair) s
    [.test .target, .poll .target .globalCounter, .poll .target .xpmemGlobalCounter] = some t ∧
      Ready (k + 1) t := by
  have full : matchesGroup false 1#64 0#64 (only .origin) = true := rfl
  suffices Ready (k + 1) { s with exposure := Function.update s.exposure .target .closed } by
    simpa [exec, step, h.exposure, State.poll, State.counter, h.globalCounter, h.xpmemGlobalCounter, full]
  exact ⟨⟨h.flight, h.matchingAccess, h.matchingExposure, h.starts, h.posts⟩, h.access,
    rfl⟩

/-- A window may live through any number of epochs that the narrower counter holds. -/
theorem ready_reached : ∀ k < 4294967296, ∃ s, Reach (step pair) always init s ∧ Ready k s
  | 0, _ => ⟨init, .refl, ⟨⟨rfl, rfl, rfl, rfl, rfl⟩, rfl, rfl⟩⟩
  | k + 1, fits => by
    obtain ⟨s, run, ready⟩ := ready_reached k (by omega)
    obtain ⟨t, post, posted⟩ := ready.post
    obtain ⟨u, epoch, completed⟩ := posted.epoch fits
    obtain ⟨v, close, next⟩ := completed.close
    exact ⟨v, run.trans ((Reach.of_exec _ post).trans ((Reach.of_exec _ epoch).trans (.of_exec _ close))),
      next⟩

/-- With the epoch `2^32` the origin waits for a post that has arrived. -/
theorem start_unblocked_fails : ¬∀ (s : State Side) (n : ℕ), Reach (step pair) always init s → 1 ≤ n →
    s.starts .origin .target = n →
    s.posts .target .origin = n + s.inFlight.count (.matchingExposure .origin .target) →
    (s.matchingAccess .origin .target).setWidth 64 = s.matchingExposure .origin .target := by
  intro claim
  obtain ⟨s, run, ready⟩ := ready_reached 4294967295 (by decide)
  obtain ⟨t, post, posted⟩ := ready.post
  have start : step pair t (.start .origin (only .target)) = some (t.winStart .origin (only .target)) := by
    simp only [step, posted.access]
  have counts : (t.winStart .origin (only .target)).starts .origin .target = 4294967296 := by
    simp [State.winStart, posted.starts]
  have arrived : (t.winStart .origin (only .target)).posts .target .origin =
      4294967296 + (t.winStart .origin (only .target)).inFlight.count (.matchingExposure .origin .target) := by
    simp [State.winStart, posted.posts, posted.flight]
  have equal := claim _ _ ((run.trans (.of_exec _ post)).tail start trivial) (by decide) counts arrived
  have access : (t.winStart .origin (only .target)).matchingAccess .origin .target = 0#32 := by
    simp [State.winStart, posted.matchingAccess]
  have exposure : (t.winStart .origin (only .target)).matchingExposure .origin .target =
      BitVec.ofNat 64 4294967296 := posted.matchingExposure
  rw [access, exposure] at equal
  exact absurd equal (by decide)

/-- The first epoch of the two processes. -/
theorem start_unblocked_first : ∃ s : State Side, Reach (step pair) always init s ∧
    s.starts .origin .target = 1 ∧
      (s.matchingAccess .origin .target).setWidth 64 = s.matchingExposure .origin .target := by
  have run : Reach (step pair) always init _ :=
    .of_exec [.start .origin (only .target), .post .target (only .origin), .expose .target,
      .expose .target, .deliver 0] rfl
  exact ⟨_, run, rfl, (start_unblocked run (n := 1) le_rfl rfl rfl).mpr (by decide)⟩

end Wrap

section Wait
variable {ι : Type*} {g : Group ι} {onnode offnode x y : ℕ}

theorem test_matches (few : x + y ≤ g.ranks.length) :
    matchesGroup false (BitVec.ofNat 64 y) (BitVec.ofNat 64 x) g = true ↔ x + y = g.ranks.length := by
  have size := g.size
  simp only [matchesGroup, Bool.false_eq_true, if_false, decide_eq_true_eq]
  rw [← BitVec.toNat_inj]
  simp only [BitVec.toNat_add, BitVec.toNat_setWidth, BitVec.toNat_ofNat]
  omega

/-- A count of 128 or more is too small or negative as a `char`, whatever the other one is. -/
theorem wait_matches (few : x + y ≤ g.ranks.length) :
    matchesGroup true (BitVec.ofNat 64 y) (BitVec.ofNat 64 x) g = true ↔
      x < 128 ∧ x + y = g.ranks.length := by
  have size := g.size
  simp only [matchesGroup, if_true, decide_eq_true_eq]
  rw [← BitVec.toNat_inj]
  simp only [BitVec.toNat_add, BitVec.toNat_signExtend, BitVec.toNat_setWidth, BitVec.toNat_ofNat,
    BitVec.msb_eq_decide, decide_eq_true_eq]
  split <;> omega

/-- With completions of no more members than the group has, on the node and elsewhere, the two calls
come to the same answer, that of the number of completions, exactly if the `char` holds the first
count or some completion is still missing. -/
theorem wait_agrees_test (split : onnode + offnode = g.ranks.length) (near : x ≤ onnode)
    (far : y ≤ offnode) :
    ((matchesGroup true (BitVec.ofNat 64 y) (BitVec.ofNat 64 x) g = true ↔
        matchesGroup false (BitVec.ofNat 64 y) (BitVec.ofNat 64 x) g = true) ∧
      (matchesGroup true (BitVec.ofNat 64 y) (BitVec.ofNat 64 x) g = true ↔ x + y = g.ranks.length) ∧
      (matchesGroup false (BitVec.ofNat 64 y) (BitVec.ofNat 64 x) g = true ↔ x + y = g.ranks.length)) ↔
    x < 128 ∨ x + y < g.ranks.length := by
  have few : x + y ≤ g.ranks.length := by omega
  rw [wait_matches few, test_matches few]
  omega

/-- The counters of a run are such counts. -/
theorem counters_few [DecidableEq ι] {l : Layout ι} {s : State ι} {q : ι}
    (run : Reach (step l) always init s) (exposed : (s.exposure q).posted = g.ranks)
    (counting : (s.exposure q).counting = true) :
    (s.xpmemGlobalCounter q).toNat + (s.globalCounter q).toNat ≤ g.ranks.length := by
  have inv : Inv s := run.invariant .init fun _ _ _ inv move _ => inv.step move
  have total := (inv.tally q).total counting
  have most := State.finished_le s q
  rw [exposed] at most
  omega

/-- A group of all processes below `n`. -/
def below (n : ℕ) (size : n < 2147483648) : Group ℕ := ⟨List.range n, List.nodup_range, by simpa using size⟩

/-- With 128 members, all on the node and all complete, `foMPI_Win_wait` does not return. -/
theorem wait_agrees_test_fails : ¬∀ (g : Group ℕ) (onnode offnode x y : ℕ),
    onnode + offnode = g.ranks.length → x ≤ onnode → y ≤ offnode →
    (matchesGroup true (BitVec.ofNat 64 y) (BitVec.ofNat 64 x) g = true ↔
      matchesGroup false (BitVec.ofNat 64 y) (BitVec.ofNat 64 x) g = true) := by
  intro claim
  have agree := claim (below 128 (by decide)) 128 0 128 0 (by simp [below]) le_rfl le_rfl
  exact absurd agree (by decide +kernel)

theorem wait_agrees_test_three :
    (matchesGroup true (BitVec.ofNat 64 1) (BitVec.ofNat 64 2) (below 3 (by decide)) = true ↔ 2 + 1 = 3) :=
  have split : 2 + 1 = (below 3 (by decide)).ranks.length := rfl
  ((wait_agrees_test split le_rfl le_rfl).mpr (.inl (by decide))).2.1

end Wait

end FoMPI.Pscw
