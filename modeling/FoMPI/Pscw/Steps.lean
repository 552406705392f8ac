import FoMPI.Foundation.Counter
import FoMPI.Pscw.Epochs

/-!
# Operations on the counters

Every operation of the four calls keeps the counting invariant, and so does the
delivery of an increment.
-/
namespace FoMPI.Pscw
open FoMPI.Foundation FoMPI.Window

variable {ι : Type*} [DecidableEq ι] {l : Layout ι} {s t : State ι} {p q : ι} {g : Group ι} {i : ℕ}

namespace Inv

section AccessEpochs

theorem winStart (inv : Inv s) (closed : s.access p = .closed) : Inv (s.winStart p g) := by
  -- the new epoch has passed no target yet
  have same (p' : ι) : ((s.winStart p g).access p').passed = (s.access p').passed := by
    obtain rfl | other := eq_or_ne p' p
    · simp [State.winStart, closed, Access.passed]
    · simp [State.winStart, other]
  refine ⟨⟨inv.exposure, ?_, ?_, ?_, ?_, inv.posts⟩, fun q => ?_, inv.polled⟩
  · intro p' q
    simp only [State.winStart]
    obtain rfl | other := eq_or_ne p' p
    · simp only [Function.update_self, foldl_increment g.nodup, inv.access p' q]
      split
      · rw [BitVec.ofNat_add]
      · rfl
    · simp only [Function.update_of_ne other, inv.access p' q]
  · intro p' q
    have old := inv.starts p' q
    simp only [State.winStart]
    obtain rfl | other := eq_or_ne p' p
    · simp only [closed, Access.targets, List.not_mem_nil, if_false] at old
      simp only [Function.update_self, Access.targets]
      split <;> omega
    · simpa only [Function.update_of_ne other] using old
  · intro p' q
    rw [same]
    exact inv.passed p' q
  · intro p' q
    rw [same]
    exact inv.narrow p' q
  · exact (inv.tally q).congr rfl rfl rfl rfl (fun _ => rfl) fun _ => rfl

/-- A `uint32_t` that equals the exposures seen has not wrapped around since the last epoch. -/
theorem awaitPost (inv : Inv s) (starting : s.access p = .starting g i) : Inv (s.awaitPost p g i) := by
  unfold State.awaitPost
  cases member : g.ranks[i]? with
  | none =>
    have whole : g.ranks.take i = g.ranks := List.take_of_length_le (List.getElem?_eq_none_iff.mp member)
    apply inv.setAccess
    · rw [starting]
      rfl
    · intro q hq
      left
      rw [starting, Access.passed, whole]
      exact hq
  | some q =>
    obtain ⟨take, -, fresh, -⟩ := g.split member
    dsimp only
    split
    · rename_i equal
      apply inv.setAccess
      · rw [starting]
        rfl
      · intro r hr
        rw [Access.passed, take, List.mem_append, List.mem_singleton] at hr
        obtain before | rfl := hr
        · left
          rw [starting]
          exact before
        · right
          have starts := inv.starts p r
          have bounds := inv.bounds p r
          have target : r ∈ (s.access p).targets := by
            rw [starting]
            exact List.mem_of_getElem? member
          rw [if_pos target] at starts
          have value := congrArg BitVec.toNat equal
          rw [inv.access p r, BitVec.toNat_setWidth, BitVec.toNat_ofNat] at value
          omega
    · exact inv

theorem openedComplete (inv : Inv s) (opened : s.access p = .opened g) :
    Inv { s with access := Function.update s.access p (.completing g 0) } := by
  apply inv.setAccess
  · rw [opened]
    exact List.drop_zero
  · intro q hq
    left
    rw [opened]
    rwa [Access.passed, List.drop_zero] at hq

end AccessEpochs

end Inv

section Completes

/-- What an origin owes a target, less what it has completed, stays when it notifies the `i`-th. -/
theorem due_notify (part : Access ι → List ι) (rest : ∀ i, part (.completing g i) = g.ranks.drop i)
    (completing : s.access p = .completing g i) (member : g.ranks[i]? = some q) (p' q' : ι) :
    update₂ s.completes p q (s.completes p q + 1) p' q' +
        (if q' ∈ part (Function.update s.access p (.completing g (i + 1)) p') then 1 else 0) =
      s.completes p' q' + if q' ∈ part (s.access p') then 1 else 0 := by
  obtain ⟨-, drop, -, fresh⟩ := g.split member
  rw [update₂_apply]
  obtain rfl | other := eq_or_ne p' p
  · rw [Function.update_self, completing, rest, rest, drop]
    obtain rfl | other := eq_or_ne q' q
    · simp [fresh]
    · simp [other]
  · rw [Function.update_of_ne other, if_neg fun h => other h.1]

/-- The record of a complete that notifies the `i`-th target. -/
theorem Chain.notify (chain : Chain s) (completing : s.access p = .completing g i)
    (member : g.ranks[i]? = some q) :
    Chain { s with
      access := Function.update s.access p (.completing g (i + 1))
      completes := update₂ s.completes p q (s.completes p q + 1) } := by
  have passes : q ∈ (s.access p).passed := by
    rw [completing, Access.passed, (g.split member).2.1]
    exact List.mem_cons_self
  have targets := due_notify Access.targets (fun _ => rfl) completing member
  have passed := due_notify Access.passed (fun _ => rfl) completing member
  refine ⟨chain.exposure, chain.access, fun p' q' => ?_, fun p' q' => ?_, fun p' q' => ?_, fun p' q' => ?_⟩
  · exact (chain.starts p' q').trans (targets p' q').symm
  · exact (passed p' q').trans_le (chain.passed p' q')
  · exact (passed p' q').trans_lt (chain.narrow p' q')
  · have old := chain.posts p' q'
    have := (chain.posted_of_passed passes).2
    simp only [update₂_apply]
    split
    · rename_i same
      rw [same.1, same.2]
      omega
    · exact old

/-- A member of the group joins those that have completed. -/
theorem Chain.finished_notify (chain : Chain s) (passes : q ∈ (s.access p).passed) {a : ι → Access ι}
    (q' : ι) :
    State.finished { s with access := a, completes := update₂ s.completes p q (s.completes p q + 1) } q' =
      s.finished q' + if q' = q then 1 else 0 := by
  obtain ⟨told, due⟩ := chain.posted_of_passed passes
  simp only [State.finished]
  obtain rfl | other := eq_or_ne q' q
  · rw [if_pos rfl]
    apply countP_flip (q := p) (Exposure.posted_nodup _) told
    · simp only [decide_eq_false_iff_not]
      omega
    · simp only [update₂_apply, and_self, if_true, decide_eq_true_eq]
      omega
    · intro r other
      simp only [update₂_apply, other, false_and, if_false]
  · simp only [update₂_apply, other, and_false, if_false, Nat.add_zero]

/-- An increment for `q`, done or issued, stands for one more member that has completed. -/
theorem Tally.arrive {q' : ι} (tally : Tally s q') (counting : (s.exposure q).counting = true)
    (exposure : t.exposure = s.exposure) (globalCounter : t.globalCounter = s.globalCounter)
    (finished : t.finished q' = s.finished q' + if q' = q then 1 else 0)
    (arrived : (t.xpmemGlobalCounter q').toNat + t.inFlight.count (.globalCounter q') =
      (s.xpmemGlobalCounter q').toNat + s.inFlight.count (.globalCounter q') + if q' = q then 1 else 0)
    (others : q' ≠ q → t.inFlight.count (.globalCounter q') = s.inFlight.count (.globalCounter q')) :
    Tally t q' := by
  refine ⟨fun quiet => ?_, fun g h => ?_, fun counts => ?_⟩
  · rw [exposure] at quiet
    have other : q' ≠ q := by
      rintro rfl
      rw [counting] at quiet
      contradiction
    rw [others other]
    exact tally.quiet quiet
  · rw [globalCounter]
    exact tally.cleared g (exposure ▸ h)
  · have old := tally.total (exposure ▸ counts)
    rw [globalCounter, finished, Nat.add_assoc, arrived]
    omega

/-- An origin completes its epoch with a target: the increment is done, or on its way. -/
theorem Inv.notifyTarget (inv : Inv s) (completing : s.access p = .completing g i) :
    Inv (s.notifyTarget l p g i) := by
  unfold State.notifyTarget
  cases member : g.ranks[i]? with
  | none =>
    have empty : g.ranks.drop i = [] := List.drop_eq_nil_of_le (List.getElem?_eq_none_iff.mp member)
    apply inv.setAccess
    · rw [completing, Access.targets, Access.targets, empty]
    · simp [Access.passed]
  | some q =>
    have chain := inv.toChain.notify completing member
    have passes : q ∈ (s.access p).passed := by
      rw [completing, Access.passed, (g.split member).2.1]
      exact List.mem_cons_self
    have finished := inv.toChain.finished_notify passes (a := Function.update s.access p (.completing g (i + 1)))
    have counting := Exposure.counting_of_posted (inv.posted_of_passed passes).1
    dsimp only
    split
    · have total := (inv.tally q).total counting
      have few := (State.finished_le s q).trans_lt (Exposure.posted_length _)
      have one := toNat_succ (x := s.xpmemGlobalCounter q) (by omega)
      refine ⟨⟨chain.exposure, chain.access, chain.starts, chain.passed, chain.narrow, chain.posts⟩,
        fun q' => (inv.tally q').arrive counting rfl rfl (finished q') ?_ fun _ => rfl,
        inv.polled_mono rfl fun q' c => ?_⟩
      · dsimp only
        obtain rfl | other := eq_or_ne q' q
        · rw [Function.update_self, one, if_pos rfl]
          omega
        · rw [Function.update_of_ne other, if_neg other]
          rfl
      · cases c with
        | globalCounter => exact le_rfl
        | xpmemGlobalCounter =>
          dsimp only [State.counter]
          obtain rfl | other := eq_or_ne q' q
          · rw [Function.update_self, one]
            omega
          · rw [Function.update_of_ne other]
    · refine ⟨⟨?_, chain.access, chain.starts, chain.passed, chain.narrow, chain.posts⟩,
        fun q' => (inv.tally q').arrive counting rfl rfl (finished q') ?_ fun other => ?_, inv.polled⟩
      · intro p' q'
        simpa using chain.exposure p' q'
      · dsimp only
        obtain rfl | other := eq_or_ne q' q
        · rw [List.count_cons_self, if_pos rfl]
          rfl
        · rw [List.count_cons_of_ne (by simpa using other.symm), if_neg other]
          rfl
      · exact List.count_cons_of_ne (by simpa using other.symm)

end Completes

section Delivery

/-- An increment in flight is one of those counted. -/
theorem count_delivered {k : ℕ} {m : Increment ι} (hm : s.inFlight[k]? = some m) (x : Increment ι) :
    s.inFlight.count x = (s.inFlight.eraseIdx k).count x + if m = x then 1 else 0 := by
  obtain ⟨hk, hget⟩ := List.getElem?_eq_some_iff.mp hm
  have perm : s.inFlight.Perm (m :: s.inFlight.eraseIdx k) :=
    hget ▸ (List.getElem_cons_eraseIdx_perm hk).symm
  rw [perm.count_eq, List.count_cons]
  simp only [beq_iff_eq]

theorem Inv.deliverExposure (inv : Inv s) {k : ℕ} (hm : s.inFlight[k]? = some (.matchingExposure p q)) :
    Inv { s.apply (.matchingExposure p q) with inFlight := s.inFlight.eraseIdx k } := by
  have exposure := inv.exposure p q
  have bounds := inv.bounds p q
  rw [count_delivered hm, if_pos rfl] at exposure
  have one := toNat_succ (x := s.matchingExposure p q) (by omega)
  -- what leaves the network arrives in the counter
  have arrived (p' q' : ι) : ((s.apply (.matchingExposure p q)).matchingExposure p' q').toNat =
      (s.matchingExposure p' q').toNat +
        if Increment.matchingExposure p q = .matchingExposure p' q' then 1 else 0 := by
    simp only [State.apply, update₂_apply]
    by_cases same : p' = p ∧ q' = q
    · obtain ⟨rfl, rfl⟩ := same
      rw [if_pos ⟨rfl, rfl⟩, one, if_pos rfl]
    · rw [if_neg same, if_neg fun h => same ⟨(Increment.matchingExposure.inj h).1.symm,
        (Increment.matchingExposure.inj h).2.symm⟩, Nat.add_zero]
  refine ⟨⟨fun p' q' => ?_, inv.access, inv.starts, fun p' q' => ?_, inv.narrow, inv.posts⟩, fun q' => ?_,
    inv.polled_mono rfl fun _ c => by cases c <;> exact le_rfl⟩
  · have old := inv.exposure p' q'
    rw [count_delivered hm] at old
    rw [arrived]
    change _ + (s.inFlight.eraseIdx k).count (.matchingExposure p' q') = s.posts q' p'
    omega
  · have old := inv.passed p' q'
    rw [arrived]
    exact old.trans (Nat.le_add_right _ _)
  · exact (inv.tally q').congr rfl rfl rfl (by simpa using (count_delivered hm (.globalCounter q')).symm)
      (fun _ => rfl) fun _ => rfl

theorem Inv.deliverCounter (inv : Inv s) {k : ℕ} (hm : s.inFlight[k]? = some (.globalCounter q)) :
    Inv { s.apply (.globalCounter q) with inFlight := s.inFlight.eraseIdx k } := by
  have here := count_delivered hm (.globalCounter q)
  rw [if_pos rfl] at here
  have counting : (s.exposure q).counting = true := by
    by_contra quiet
    have := (inv.tally q).quiet (by simpa using quiet)
    omega
  have total := (inv.tally q).total counting
  have few := (State.finished_le s q).trans_lt (Exposure.posted_length _)
  have one := toNat_succ (x := s.globalCounter q) (by omega)
  refine ⟨⟨fun p' q' => ?_, inv.access, inv.starts, inv.passed, inv.narrow, inv.posts⟩, fun q' => ?_,
    inv.polled_mono rfl fun q' c => ?_⟩
  · have old := inv.exposure p' q'
    rw [count_delivered hm, if_neg nofun, Nat.add_zero] at old
    exact old
  · obtain rfl | other := eq_or_ne q' q
    · refine ⟨fun quiet => ?_, fun g h => ?_, fun _ => ?_⟩
      · have quiet : (s.exposure q').counting = false := quiet
        rw [counting] at quiet
        contradiction
      · have h : s.exposure q' = .clearing g := h
        rw [h] at counting
        contradiction
      · have same : State.finished { s.apply (.globalCounter q') with
            inFlight := s.inFlight.eraseIdx k } q' = s.finished q' := rfl
        rw [same, ← total, here]
        simp only [State.apply, Function.update_self, one]
        omega
    · have there := count_delivered hm (.globalCounter q')
      rw [if_neg fun h => other (Increment.globalCounter.inj h).symm, Nat.add_zero] at there
      exact (inv.tally q').congr rfl (Function.update_of_ne other _ _) rfl there.symm (fun _ => rfl)
        fun _ => rfl
  · cases c with
    | globalCounter =>
      simp only [State.counter, State.apply]
      obtain rfl | other := eq_or_ne q' q
      · rw [Function.update_self, one]
        omega
      · rw [Function.update_of_ne other]
    | xpmemGlobalCounter => exact le_rfl

/-- An increment in flight takes effect. -/
theorem Inv.deliver (inv : Inv s) {k : ℕ} {m : Increment ι} (hm : s.inFlight[k]? = some m) :
    Inv { s.apply m with inFlight := s.inFlight.eraseIdx k } := by
  cases m with
  | matchingExposure p q => exact inv.deliverExposure hm
  | globalCounter q => exact inv.deliverCounter hm

end Delivery

section ExposureEpochs

/-- A post finds no increment of an earlier epoch on its way. -/
theorem Inv.winPost (inv : Inv s) (closed : s.exposure p = .closed) : Inv (s.winPost p g) := by
  refine ⟨⟨inv.exposure, inv.access, inv.starts, inv.passed, inv.narrow, ?_⟩, fun q => ?_,
    inv.polled_renew rfl (by simp) ?_⟩
  · apply inv.posts_renew
    intro q
    simpa [closed, Exposure.posted] using inv.posts q p
  · have tally := inv.tally q
    obtain rfl | other := eq_or_ne q p
    · refine ⟨fun _ => tally.quiet (by rw [closed]; rfl), fun g h => ?_, fun counts => ?_⟩
      · simp [State.winPost]
      · simp [State.winPost, Exposure.counting] at counts
    · exact tally.congr (Function.update_of_ne other _ _) (Function.update_of_ne other _ _) rfl rfl
        (fun _ => rfl) fun _ => rfl
  · intro q c other
    cases c with
    | globalCounter => exact Function.update_of_ne other _ _
    | xpmemGlobalCounter => rfl

theorem Inv.clear (inv : Inv s) (clearing : s.exposure p = .clearing g) :
    Inv { s with
      xpmemGlobalCounter := Function.update s.xpmemGlobalCounter p 0#64
      exposure := Function.update s.exposure p (.posting g 0) } := by
  refine ⟨⟨inv.exposure, inv.access, inv.starts, inv.passed, inv.narrow, ?_⟩, fun q => ?_,
    inv.polled_renew rfl (by simp) ?_⟩
  · apply inv.posts_renew
    intro q
    simpa [clearing, Exposure.posted] using inv.posts q p
  · have tally := inv.tally q
    obtain rfl | other := eq_or_ne q p
    · have quiet := tally.quiet (by rw [clearing]; rfl)
      have cleared := tally.cleared g clearing
      refine ⟨fun h => ?_, fun g' h => ?_, fun _ => ?_⟩
      · simp [Exposure.counting] at h
      · simp at h
      · simp [quiet, cleared, State.finished, Exposure.posted]
    · exact tally.congr (Function.update_of_ne other _ _) rfl (Function.update_of_ne other _ _) rfl
        (fun _ => rfl) fun _ => rfl
  · intro q c other
    cases c with
    | globalCounter => rfl
    | xpmemGlobalCounter => exact Function.update_of_ne other _ _

/-- The record of a post that tells the `i`-th origin. -/
theorem Chain.tell (chain : Chain s) (posting : s.exposure p = .posting g i)
    (member : g.ranks[i]? = some q) (p' q' : ι) :
    update₂ s.posts p q (s.posts p q + 1) q' p' ≤ s.completes p' q' +
      if p' ∈ (Function.update s.exposure p (.posting g (i + 1)) q').posted then 1 else 0 := by
  obtain ⟨take, -, fresh, -⟩ := g.split member
  have old := chain.posts p' q'
  rw [update₂_apply]
  obtain rfl | other := eq_or_ne q' p
  · simp only [posting, Exposure.posted] at old
    simp only [Function.update_self, Exposure.posted, take, List.mem_append, List.mem_singleton, true_and]
    obtain rfl | other := eq_or_ne p' q
    · simp only [fresh, if_false] at old
      simp only [or_true, if_true]
      omega
    · simpa only [other, or_false, if_false] using old
  · simpa only [other, false_and, if_false, Function.update_of_ne other] using old

/-- The new origin has not completed yet. -/
theorem Chain.finished_tell (chain : Chain s) (posting : s.exposure p = .posting g i)
    (member : g.ranks[i]? = some q) (q' : ι) :
    State.finished { s with
      exposure := Function.update s.exposure p (.posting g (i + 1))
      posts := update₂ s.posts p q (s.posts p q + 1) } q' = s.finished q' := by
  obtain ⟨take, -, fresh, -⟩ := g.split member
  have bounds := chain.bounds q p
  have posts := chain.posts q p
  simp only [posting, Exposure.posted, fresh, if_false] at posts
  simp only [State.finished]
  obtain rfl | other := eq_or_ne q' p
  · have new : ¬s.posts q' q + 1 = s.completes q q' := by omega
    rw [Function.update_self, posting, Exposure.posted, take, List.countP_append, List.countP_singleton,
      Exposure.posted]
    simp only [update₂_apply, true_and, if_true, new, decide_false, Bool.false_eq_true, if_false, Nat.add_zero]
    apply List.countP_congr
    intro r hr
    have other : r ≠ q := fun eq => fresh (eq ▸ hr)
    simp only [other, if_false]
  · simp only [Function.update_of_ne other, update₂_apply, other, false_and, if_false]

/-- An origin is told of the epoch. On the node its increment is one that is delivered at once. -/
theorem Inv.notifyOrigin (inv : Inv s) (posting : s.exposure p = .posting g i) :
    Inv (s.notifyOrigin l p g i) := by
  unfold State.notifyOrigin
  cases member : g.ranks[i]? with
  | none =>
    have whole : g.ranks.take i = g.ranks := List.take_of_length_le (List.getElem?_eq_none_iff.mp member)
    apply inv.setExposure _ rfl (by rw [posting]; rfl) (by simp)
    rw [posting, Exposure.posted, Exposure.posted, whole]
  | some q =>
    have finished := inv.toChain.finished_tell posting member
    have issued : Inv { s with
        exposure := Function.update s.exposure p (.posting g (i + 1))
        posts := update₂ s.posts p q (s.posts p q + 1)
        inFlight := .matchingExposure q p :: s.inFlight } := by
      refine ⟨⟨fun p' q' => ?_, inv.access, inv.starts, inv.passed, inv.narrow,
        inv.toChain.tell posting member⟩, fun q' => ?_, inv.polled_renew rfl (by simp) fun _ _ _ => rfl⟩
      · have old := inv.exposure p' q'
        simp only [update₂_apply, List.count_cons, beq_iff_eq, Increment.matchingExposure.injEq]
        by_cases same : p' = q ∧ q' = p
        · obtain ⟨rfl, rfl⟩ := same
          rw [if_pos ⟨rfl, rfl⟩, if_pos ⟨rfl, rfl⟩]
          omega
        · rw [if_neg fun h => same ⟨h.1.symm, h.2.symm⟩, if_neg fun h => same ⟨h.2, h.1⟩]
          exact old
      · have old := inv.tally q'
        have flight : (Increment.matchingExposure q p :: s.inFlight).count (.globalCounter q') =
            s.inFlight.count (.globalCounter q') := List.count_cons_of_ne (by simp)
        refine ⟨fun quiet => ?_, fun g' h => ?_, fun counts => ?_⟩
        · rw [flight]
          obtain rfl | other := eq_or_ne q' p
          · simp [Exposure.counting] at quiet
          · exact old.quiet (by simpa [other] using quiet)
        · obtain rfl | other := eq_or_ne q' p
          · simp at h
          · exact old.cleared g' (by simpa [other] using h)
        · rw [flight]
          refine (old.total ?_).trans (finished q').symm
          obtain rfl | other := eq_or_ne q' p
          · rw [posting]
            rfl
          · simpa [other] using counts
    dsimp only
    split
    · exact issued.deliver (k := 0) rfl
    · exact issued

end ExposureEpochs

end FoMPI.Pscw
