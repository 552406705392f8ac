import FoMPI.Pscw.Model

/-!
# Counting epochs

For an origin and a target the record satisfies
completes ≤ exposures seen ≤ posts ≤ completes + 1, and the counters of a target add
up, with what is in flight, to the members of its group that have completed. Each
comparison of the code is read against this.
-/
namespace FoMPI.Pscw
open FoMPI.Foundation FoMPI.Window

variable {ι : Type*} [DecidableEq ι] {l : Layout ι} {s t : State ι} {p q : ι}

section Groups
variable {g : Group ι} {i : ℕ}

omit [DecidableEq ι] in
/-- The member at an index parts the group. -/
theorem Group.split (h : g.ranks[i]? = some q) :
    g.ranks.take (i + 1) = g.ranks.take i ++ [q] ∧ g.ranks.drop i = q :: g.ranks.drop (i + 1) ∧
      q ∉ g.ranks.take i ∧ q ∉ g.ranks.drop (i + 1) := by
  obtain ⟨hi, rfl⟩ := List.getElem?_eq_some_iff.mp h
  have whole := List.take_append_drop i g.ranks
  have drop := List.drop_eq_getElem_cons hi
  have nodup := g.nodup
  rw [← whole, drop, List.nodup_append] at nodup
  obtain ⟨-, rest, apart⟩ := nodup
  refine ⟨?_, drop, ?_, (List.nodup_cons.mp rest).1⟩
  · rw [List.take_add_one, h]
    rfl
  · intro member
    exact apart _ member _ List.mem_cons_self rfl

/-- The loop at the head of `foMPI_Win_start` increments the entries of the group. -/
theorem foldl_increment {ranks : List ι} (nodup : ranks.Nodup) (f : ι → BitVec 32) (q : ι) :
    ranks.foldl (fun access r => Function.update access r (access r + 1#32)) f q =
      if q ∈ ranks then f q + 1#32 else f q := by
  induction ranks generalizing f with
  | nil => simp
  | cons r rest ih =>
    obtain ⟨fresh, nodup⟩ := List.nodup_cons.mp nodup
    rw [List.foldl_cons, ih nodup]
    obtain rfl | other := eq_or_ne q r
    · simp [fresh]
    · simp [other]

omit [DecidableEq ι] in
/-- One member of a list without duplicates comes to satisfy a predicate. -/
theorem countP_flip {ranks : List ι} {f f' : ι → Bool} (nodup : ranks.Nodup) (member : q ∈ ranks)
    (before : f q = false) (after : f' q = true) (others : ∀ r, r ≠ q → f' r = f r) :
    ranks.countP f' = ranks.countP f + 1 := by
  obtain ⟨front, back, rfl⟩ := List.append_of_mem member
  have apart : q ∉ front ∧ q ∉ back := by
    rw [List.nodup_append, List.nodup_cons] at nodup
    exact ⟨fun h => nodup.2.2 q h q List.mem_cons_self rfl, nodup.2.1.1⟩
  have same (side : List ι) (absent : q ∉ side) : side.countP f' = side.countP f := by
    apply List.countP_congr
    intro r hr
    rw [others r fun eq => absent (eq ▸ hr)]
  rw [List.countP_append, List.countP_append, List.countP_cons, List.countP_cons, same front apart.1,
    same back apart.2, before, after]
  simp only [if_true, Bool.false_eq_true, if_false]
  omega

end Groups

section Entries
variable {α : Type*} {f : ι → ι → α} {a : α} {p' q' : ι}

theorem update₂_apply : update₂ f p q a p' q' = if p' = p ∧ q' = q then a else f p' q' := by
  unfold update₂
  obtain rfl | other := eq_or_ne p' p
  · obtain rfl | other := eq_or_ne q' q <;> simp [*]
  · simp [other]

end Entries

/-- The targets of the access epoch that have not been notified of its end. -/
def Access.targets : Access ι → List ι
  | .closed => []
  | .starting group _ | .opened group => group.ranks
  | .completing group i => group.ranks.drop i

/-- Those of them that `foMPI_Win_start` has waited for. -/
def Access.passed : Access ι → List ι
  | .closed => []
  | .starting group i => group.ranks.take i
  | .opened group => group.ranks
  | .completing group i => group.ranks.drop i

/-- The origins that have been told of the exposure epoch. -/
def Exposure.posted : Exposure ι → List ι
  | .closed | .clearing _ => []
  | .posting group i => group.ranks.take i
  | .opened group | .polling group _ | .polled group _ _ _ => group.ranks

/-- The counters have been reset for the exposure epoch. -/
def Exposure.counting : Exposure ι → Bool
  | .closed | .clearing _ => false
  | _ => true

/-- The origins that have completed the exposure epoch. -/
def State.finished (s : State ι) (q : ι) : ℕ :=
  (s.exposure q).posted.countP fun p => s.posts q p = s.completes p q

/-- The counters of `q` and the increments on their way. -/
structure Tally (s : State ι) (q : ι) : Prop where
  quiet : (s.exposure q).counting = false → s.inFlight.count (.globalCounter q) = 0
  cleared : ∀ g, s.exposure q = .clearing g → s.globalCounter q = 0#64
  total : (s.exposure q).counting = true →
    (s.globalCounter q).toNat + (s.xpmemGlobalCounter q).toNat + s.inFlight.count (.globalCounter q) =
      s.finished q

/-- A tally depends on what concerns its target. -/
theorem Tally.congr (tally : Tally s q) (exposure : t.exposure q = s.exposure q)
    (globalCounter : t.globalCounter q = s.globalCounter q)
    (xpmemGlobalCounter : t.xpmemGlobalCounter q = s.xpmemGlobalCounter q)
    (flight : t.inFlight.count (.globalCounter q) = s.inFlight.count (.globalCounter q))
    (posts : ∀ p, t.posts q p = s.posts q p) (completes : ∀ p, t.completes p q = s.completes p q) :
    Tally t q := by
  have finished : t.finished q = s.finished q := by
    simp only [State.finished, exposure, posts, completes]
  refine ⟨fun h => ?_, fun g h => ?_, fun h => ?_⟩
  · rw [flight]
    exact tally.quiet (exposure ▸ h)
  · rw [globalCounter]
    exact tally.cleared g (exposure ▸ h)
  · rw [globalCounter, xpmemGlobalCounter, flight, finished]
    exact tally.total (exposure ▸ h)

/-- The record and the words that the two sides of an epoch share. -/
structure Chain (s : State ι) : Prop where
  exposure : ∀ p q, (s.matchingExposure p q).toNat + s.inFlight.count (.matchingExposure p q) = s.posts q p
  access : ∀ p q, s.matchingAccess p q = BitVec.ofNat 32 (s.starts p q)
  starts : ∀ p q, s.starts p q = s.completes p q + if q ∈ (s.access p).targets then 1 else 0
  passed : ∀ p q, s.completes p q + (if q ∈ (s.access p).passed then 1 else 0) ≤
    (s.matchingExposure p q).toNat
  narrow : ∀ p q, s.completes p q + (if q ∈ (s.access p).passed then 1 else 0) < 4294967296
  posts : ∀ p q, s.posts q p ≤ s.completes p q + if p ∈ (s.exposure q).posted then 1 else 0

/-- The counting invariant. -/
structure Inv (s : State ι) : Prop extends Chain s where
  tally : ∀ q, Tally s q
  polled : ∀ q g wait c v, s.exposure q = .polled g wait c v → v.toNat ≤ (s.counter q c).toNat

omit [DecidableEq ι] in
theorem Exposure.posted_nodup (e : Exposure ι) : e.posted.Nodup := by
  cases e with
  | closed | clearing g => exact List.nodup_nil
  | posting g i => exact g.nodup.sublist (List.take_sublist _ _)
  | opened g | polling g wait | polled g wait c v => exact g.nodup

omit [DecidableEq ι] in
theorem Exposure.posted_length (e : Exposure ι) : e.posted.length < 2147483648 := by
  cases e with
  | closed | clearing g => exact Nat.zero_lt_succ _
  | posting g i => exact (List.length_take_le' _ _).trans_lt g.size
  | opened g | polling g wait | polled g wait c v => exact g.size

omit [DecidableEq ι] in
theorem Exposure.counting_of_posted {e : Exposure ι} (h : p ∈ e.posted) : e.counting = true := by
  cases e with
  | closed | clearing g => simp [posted] at h
  | posting g i | opened g | polling g wait | polled g wait c v => rfl

omit [DecidableEq ι] in
theorem State.finished_le (s : State ι) (q : ι) : s.finished q ≤ (s.exposure q).posted.length :=
  List.countP_le_length

namespace Chain

/-- What the counts of one origin and one target are to each other. -/
theorem bounds (inv : Chain s) (p q : ι) :
    s.completes p q ≤ (s.matchingExposure p q).toNat ∧ (s.matchingExposure p q).toNat ≤ s.posts q p ∧
      s.posts q p ≤ s.completes p q + 1 ∧ s.completes p q < 4294967296 := by
  have := inv.exposure p q
  have := inv.passed p q
  have := inv.narrow p q
  have := inv.posts p q
  split at this <;> omega

/-- A target that has been waited for has posted. -/
theorem posted_of_passed (inv : Chain s) (h : q ∈ (s.access p).passed) :
    p ∈ (s.exposure q).posted ∧ s.posts q p = s.completes p q + 1 := by
  have exposure := inv.exposure p q
  have passed := inv.passed p q
  have posts := inv.posts p q
  rw [if_pos h] at passed
  split at posts
  · rename_i member
    exact ⟨member, by omega⟩
  · omega

/-- One exposure epoch is replaced; what it leaves out has been completed. -/
theorem posts_renew (chain : Chain s) {e : Exposure ι}
    (own : ∀ p, s.posts q p ≤ s.completes p q + if p ∈ e.posted then 1 else 0) (p q' : ι) :
    s.posts q' p ≤ s.completes p q' + if p ∈ (Function.update s.exposure q e q').posted then 1 else 0 := by
  obtain rfl | other := eq_or_ne q' q
  · rw [Function.update_self]
    exact own p
  · rw [Function.update_of_ne other]
    exact chain.posts p q'

end Chain

namespace Inv

/-- A value read stays a lower bound while the counters grow. -/
theorem polled_mono (inv : Inv s) (exposure : t.exposure = s.exposure)
    (grow : ∀ q c, (s.counter q c).toNat ≤ (t.counter q c).toNat) (q : ι) (g : Group ι) (wait : Bool)
    (c : Counter) (v : BitVec 64) (h : t.exposure q = .polled g wait c v) :
    v.toNat ≤ (t.counter q c).toNat := by
  rw [exposure] at h
  exact (inv.polled q g wait c v h).trans (grow q c)

theorem polled_renew (inv : Inv s) {e : Exposure ι} (exposure : t.exposure = Function.update s.exposure p e)
    (own : ∀ g wait c v, e = .polled g wait c v → v.toNat ≤ (t.counter p c).toNat)
    (others : ∀ q c, q ≠ p → t.counter q c = s.counter q c) (q : ι) (g : Group ι) (wait : Bool)
    (c : Counter) (v : BitVec 64) (h : t.exposure q = .polled g wait c v) :
    v.toNat ≤ (t.counter q c).toNat := by
  rw [exposure] at h
  obtain rfl | other := eq_or_ne q p
  · rw [Function.update_self] at h
    exact own g wait c v h
  · rw [Function.update_of_ne other] at h
    rw [others q c other]
    exact inv.polled q g wait c v h

theorem init : Inv (init (ι := ι)) where
  exposure _ _ := rfl
  access _ _ := rfl
  starts := by simp [Pscw.init, Access.targets]
  passed := by simp [Pscw.init, Access.passed]
  narrow := by simp [Pscw.init, Access.passed]
  posts := by simp [Pscw.init]
  tally _ := ⟨by simp [Pscw.init], by simp [Pscw.init], by simp [Pscw.init, Exposure.counting]⟩
  polled := by simp [Pscw.init]

/-- An origin counts as passed once more only where the bound has room for it. -/
theorem passed_renew {before after : List ι} {count bound : ℕ}
    (old : count + (if q ∈ before then 1 else 0) ≤ bound) (new : q ∈ after → q ∈ before ∨ count + 1 ≤ bound) :
    count + (if q ∈ after then 1 else 0) ≤ bound := by
  by_cases now : q ∈ after
  · rw [if_pos now]
    obtain earlier | room := new now
    · rwa [if_pos earlier] at old
    · exact room
  · rw [if_neg now]
    omega

/-- The access epoch of one process goes on. -/
theorem setAccess (inv : Inv s) {a : Access ι} (targets : a.targets = (s.access p).targets)
    (passed : ∀ q ∈ a.passed, q ∈ (s.access p).passed ∨
      s.completes p q + 1 ≤ (s.matchingExposure p q).toNat ∧ s.completes p q + 1 < 4294967296) :
    Inv { s with access := Function.update s.access p a } := by
  refine ⟨⟨inv.exposure, inv.access, ?_, ?_, ?_, inv.posts⟩, fun q => ?_, inv.polled⟩
  · intro p' q
    obtain rfl | other := eq_or_ne p' p
    · simp only [Function.update_self, targets]
      exact inv.starts p' q
    · simp only [Function.update_of_ne other]
      exact inv.starts p' q
  · intro p' q
    obtain rfl | other := eq_or_ne p' p
    · simp only [Function.update_self]
      exact passed_renew (inv.passed p' q) fun now => (passed q now).imp_right And.left
    · simpa only [Function.update_of_ne other] using inv.passed p' q
  · intro p' q
    obtain rfl | other := eq_or_ne p' p
    · simp only [Function.update_self]
      refine Nat.lt_succ_of_le (passed_renew (Nat.le_of_lt_succ (inv.narrow p' q)) fun now => ?_)
      exact (passed q now).imp_right fun both => Nat.le_of_lt_succ both.2
    · simpa only [Function.update_of_ne other] using inv.narrow p' q
  · exact (inv.tally q).congr rfl rfl rfl rfl (fun _ => rfl) fun _ => rfl

/-- The exposure epoch of one process goes on after its posts. -/
theorem setExposure (inv : Inv s) {e : Exposure ι} (posted : e.posted = (s.exposure q).posted)
    (counting : e.counting = true) (counting' : (s.exposure q).counting = true)
    (polled : ∀ g wait c v, e = .polled g wait c v → v.toNat ≤ (s.counter q c).toNat) :
    Inv { s with exposure := Function.update s.exposure q e } := by
  refine ⟨⟨inv.exposure, inv.access, inv.starts, inv.passed, inv.narrow, ?_⟩, fun q' => ?_,
    inv.polled_renew rfl polled fun _ _ _ => rfl⟩
  · apply inv.posts_renew
    intro p
    rw [posted]
    exact inv.posts p q
  · obtain rfl | other := eq_or_ne q' q
    · refine ⟨by simp [counting], ?_, fun _ => ?_⟩
      · intro g h
        simp only [Function.update_self] at h
        simp [h, Exposure.counting] at counting
      · have total := (inv.tally q').total counting'
        simpa only [State.finished, Function.update_self, posted] using total
    · exact (inv.tally q').congr (Function.update_of_ne other _ _) rfl rfl rfl (fun _ => rfl) fun _ => rfl

end Inv

end FoMPI.Pscw
