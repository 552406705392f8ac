import FoMPI.Flush.Model
import FoMPI.Foundation.Abstraction
import FoMPI.Foundation.Transition

/-!
# What the counters stand for

Knowledge about the counters that the statements of a call keep up to date. With it a
statement is safe that clears a counter, tests it or relies on a flush. Whatever leads
on from what is known keeps the counters honest, on every schedule of the network.
-/
namespace FoMPI.Flush
open FoMPI.Combine FoMPI.Dcache FoMPI.Foundation FoMPI.RmaNotify

universe u

variable {ω ι : Type u}

/-- What is known before a statement. -/
structure Knows (ω : Type u) where
  /-- Operations on the window may be out that `nbi_counter` does not count yet. -/
  uncounted : ω → Prop
  /-- No implicit operation on the window is out. -/
  quiet : ω → Prop
  /-- `nbi_counter` of the window is zero. -/
  zero : ω → Prop
  /-- A descriptor is taken and not posted. -/
  taken : Bool
  /-- No post is out. -/
  drained : Prop

namespace Knows

instance : Preorder (Knows ω) where
  le k k' := (∀ w, k'.uncounted w → k.uncounted w) ∧ (∀ w, k.quiet w → k'.quiet w) ∧
    (∀ w, k.zero w → k'.zero w) ∧ k.taken = k'.taken ∧ (k.drained → k'.drained)
  le_refl k := ⟨fun _ => id, fun _ => id, fun _ => id, rfl, id⟩
  le_trans a b c ab bc := ⟨fun w h => ab.1 w (bc.1 w h), fun w h => bc.2.1 w (ab.2.1 w h),
    fun w h => bc.2.2.1 w (ab.2.2.1 w h), ab.2.2.2.1.trans bc.2.2.2.1,
    fun h => bc.2.2.2.2 (ab.2.2.2.2 h)⟩

/-- All operations that are out are counted. -/
def Settled (k : Knows ω) : Prop := ∀ w, ¬k.uncounted w

/-- Between two calls. -/
def Rest (k : Knows ω) : Prop := k.Settled ∧ k.taken = false

/-- Operations of one window are issued one after the other and then counted. -/
def Safe (k : Knows ω) : Instr ω → Prop
  | .dmapp win _ | .count win => ∀ w, k.uncounted w → w = win
  | .clear win => k.Settled ∧ k.quiet win
  | .drain | .drainFull | .takeDescriptor => k.Rest
  | .post _ _ => k.Settled ∧ k.taken = true
  | .flushed win => k.Settled ∧ k.quiet win ∧ k.zero win ∧ k.drained
  | .gsyncWait | .gsyncCounted _ | .fence | .copy _ _ | .push _ _ | .await _ => k.Settled

def after (k : Knows ω) : Instr ω → Knows ω
  | .dmapp win _ =>
    { k with uncounted := fun w => w = win ∨ k.uncounted w, quiet := fun w => w ≠ win ∧ k.quiet w }
  | .count win =>
    { k with uncounted := fun w => w ≠ win ∧ k.uncounted w, zero := fun w => w ≠ win ∧ k.zero w }
  | .gsyncWait => { k with uncounted := fun _ => False, quiet := fun _ => True }
  | .clear win => { k with zero := fun w => w = win ∨ k.zero w }
  | .gsyncCounted win =>
    { k with quiet := fun w => w = win ∨ k.quiet w, zero := fun w => w = win ∨ k.zero w }
  | .drain => { k with drained := True }
  | .takeDescriptor => { k with taken := true }
  | .post _ _ => { k with taken := false, drained := False }
  | _ => k

end Knows

/-- The counters as an abstraction of the statements. -/
def counters (ω : Type u) : Abstraction (Knows ω) (Instr ω) where
  rest := Knows.Rest
  safe := Knows.Safe
  after := Knows.after
  rest_mono := by
    rintro k k' ⟨uncounted, -, -, taken, -⟩ ⟨settled, idle⟩
    exact ⟨fun w h => settled w (uncounted w h), taken ▸ idle⟩
  safe_mono := by
    rintro k k' i ⟨uncounted, quiet, zero, taken, drained⟩ safe
    have settles (h : k.Settled) : k'.Settled := fun w out => h w (uncounted w out)
    cases i with
    | dmapp | count => exact fun w out => safe w (uncounted w out)
    | clear win => exact ⟨settles safe.1, quiet win safe.2⟩
    | drain | drainFull | takeDescriptor => exact ⟨settles safe.1, taken ▸ safe.2⟩
    | post win p => exact ⟨settles safe.1, taken ▸ safe.2⟩
    | flushed win =>
      obtain ⟨settled, silent, none, clean⟩ := safe
      exact ⟨settles settled, quiet win silent, zero win none, drained clean⟩
    | gsyncWait | gsyncCounted | fence | copy | push | await => exact settles safe
  after_mono := by
    rintro k k' i ⟨uncounted, quiet, zero, taken, drained⟩
    cases i with
    | dmapp win op =>
      exact ⟨fun w => Or.imp_right (uncounted w), fun w => And.imp_right (quiet w), zero, taken, drained⟩
    | count win =>
      exact ⟨fun w => And.imp_right (uncounted w), quiet, fun w => And.imp_right (zero w), taken, drained⟩
    | gsyncWait => exact ⟨fun _ => id, fun _ => id, zero, taken, drained⟩
    | clear win => exact ⟨uncounted, quiet, fun w => Or.imp_right (zero w), taken, drained⟩
    | gsyncCounted win =>
      exact ⟨uncounted, fun w => Or.imp_right (quiet w), fun w => Or.imp_right (zero w), taken, drained⟩
    | drain => exact ⟨uncounted, quiet, zero, taken, id⟩
    | takeDescriptor => exact ⟨uncounted, quiet, zero, rfl, drained⟩
    | post win p => exact ⟨uncounted, quiet, zero, rfl, id⟩
    | drainFull | fence | copy | push | await | flushed => exact ⟨uncounted, quiet, zero, taken, drained⟩

/-- The knowledge is true of a state. -/
structure Holds (s : State ω ι) (k : Knows ω) : Prop where
  wraps : ∀ w, s.nbiCounter w = BitVec.ofNat 32 (s.counted w)
  bounded : ∀ w, s.counted w ≤ s.increments w
  covered : ∀ w op, (w, op) ∈ s.dmapp → k.uncounted w ∨ 0 < s.counted w
  quiet : ∀ w op, (w, op) ∈ s.dmapp → ¬k.quiet w
  zero : ∀ w, k.zero w → s.counted w = 0
  posts : s.counterUgniNbi = s.posts.length + s.cq.length + k.taken.toNat
  drained : k.drained → s.posts = []

/-- Something is known that is true and leads to the end of the call. -/
structure Known (s : State ω ι) (k : Knows ω) : Prop where
  holds : Holds s k
  leads : (counters ω).Leads k s.todo

/-- Fewer than 2^32 increments of `nbi_counter` since the last flush of a window. -/
def Sparing (s : State ω ι) : Prop := ∀ w, s.increments w < 4294967296

instance [Fintype ω] {s : State ω ι} : Decidable (Sparing s) := Fintype.decidableForallFintype

/-- The increment for operations that are being issued on the window is still to come. -/
def Owes (win : ω) : Program ω → Prop
  | .dmapp w _ :: rest => w = win ∧ Owes win rest
  | .count w :: _ => w = win
  | _ => False

/-- What is not counted is about to be. -/
theorem owes_of_uncounted {k : Knows ω} {win : ω} {p : Program ω} (leads : (counters ω).Leads k p)
    (uncounted : k.uncounted win) : Owes win p := by
  induction p generalizing k with
  | nil => exact leads.1 win uncounted
  | cons i p ih =>
    obtain ⟨safe, leads⟩ := leads
    cases i with
    | dmapp w op => exact ⟨(safe win uncounted).symm, ih leads (.inr uncounted)⟩
    | count w => exact (safe win uncounted).symm
    | clear | post | drain | drainFull | takeDescriptor | flushed => exact safe.1 win uncounted
    | gsyncWait | gsyncCounted | fence | copy | push | await => exact safe win uncounted

namespace Holds
variable {s : State ω ι} {k : Knows ω}

/-- Short of the wrap the counter is zero only if nothing was counted. -/
theorem counted_eq_zero (h : Holds s k) (sparing : Sparing s) {w : ω} (zero : s.nbiCounter w = 0) :
    s.counted w = 0 := by
  have small : s.counted w < 4294967296 := (h.bounded w).trans_lt (sparing w)
  have wrapped := congrArg BitVec.toNat ((h.wraps w).symm.trans zero)
  rw [BitVec.toNat_ofNat] at wrapped
  have none : (0 : BitVec 32).toNat = 0 := rfl
  omega

theorem todo (h : Holds s k) (rest : Program ω) : Holds { s with todo := rest } k :=
  ⟨h.wraps, h.bounded, h.covered, h.quiet, h.zero, h.posts, h.drained⟩

theorem dmapp (h : Holds s k) (rest : Program ω) (win : ω) (op : Implicit) :
    Holds { s with todo := rest, dmapp := s.dmapp ++ [(win, op)] } (k.after (.dmapp win op)) where
  wraps := h.wraps
  bounded := h.bounded
  covered w x hx := by
    obtain hx | hx := List.mem_append.mp hx
    · exact (h.covered w x hx).imp_left .inr
    · exact .inl (.inl (congrArg Prod.fst (List.mem_singleton.mp hx)))
  quiet w x hx := by
    rintro ⟨other, quiet⟩
    obtain hx | hx := List.mem_append.mp hx
    · exact h.quiet w x hx quiet
    · exact other (congrArg Prod.fst (List.mem_singleton.mp hx))
  zero := h.zero
  posts := h.posts
  drained := h.drained

theorem gsyncWait (h : Holds s k) (rest : Program ω) :
    Holds { s with todo := rest, dmapp := [] } (k.after .gsyncWait) :=
  ⟨h.wraps, h.bounded, by simp, by simp, h.zero, h.posts, h.drained⟩

/-- The counter is not set: nothing was issued since it was cleared. -/
theorem gsyncCounted (h : Holds s k) (sparing : Sparing s) (rest : Program ω) {win : ω}
    (counted : ¬k.uncounted win) (zero : s.nbiCounter win = 0) :
    Holds { s with todo := rest } (k.after (.gsyncCounted win)) where
  wraps := h.wraps
  bounded := h.bounded
  covered := h.covered
  quiet w x hx := by
    have none := h.counted_eq_zero sparing zero
    rintro (rfl | quiet)
    · obtain uncounted | some := h.covered w x hx
      · exact counted uncounted
      · omega
    · exact h.quiet w x hx quiet
  zero w hw := by
    obtain rfl | hw := hw
    · exact h.counted_eq_zero sparing zero
    · exact h.zero w hw
  posts := h.posts
  drained := h.drained

/-- With no descriptor out nothing is posted. -/
theorem drain (h : Holds s k) (rest : Program ω) (none : s.counterUgniNbi = 0) :
    Holds { s with todo := rest } (k.after .drain) := by
  refine ⟨h.wraps, h.bounded, h.covered, h.quiet, h.zero, h.posts, fun _ => ?_⟩
  have posts := h.posts
  rw [none] at posts
  change s.posts = []
  exact List.eq_nil_of_length_eq_zero (by omega)

/-- An event that is read gives a descriptor back. -/
theorem read (h : Holds s k) {p : ω × Post} {cq : List (ω × Post)} (eq : s.cq = p :: cq) :
    Holds { s with cq := cq, counterUgniNbi := s.counterUgniNbi - 1 } k := by
  refine ⟨h.wraps, h.bounded, h.covered, h.quiet, h.zero, ?_, h.drained⟩
  have posts := h.posts
  simp only [eq, List.length_cons] at posts ⊢
  omega

theorem takeDescriptor (h : Holds s k) (rest : Program ω) (free : k.taken = false) :
    Holds { s with todo := rest, counterUgniNbi := s.counterUgniNbi + 1 } (k.after .takeDescriptor) := by
  refine ⟨h.wraps, h.bounded, h.covered, h.quiet, h.zero, ?_, h.drained⟩
  have posts := h.posts
  simp only [free, Bool.toNat_false, Knows.after, Bool.toNat_true] at posts ⊢
  omega

theorem post (h : Holds s k) (rest : Program ω) (win : ω) (p : Post) (taken : k.taken = true) :
    Holds { s with todo := rest, posts := s.posts ++ [(win, p)] } (k.after (.post win p)) := by
  refine ⟨h.wraps, h.bounded, h.covered, h.quiet, h.zero, ?_, False.elim⟩
  have posts := h.posts
  simp only [taken, Bool.toNat_true, List.length_append, List.length_singleton, Knows.after,
    Bool.toNat_false] at posts ⊢
  omega

variable [DecidableEq ω]

theorem flushed (h : Holds s k) (rest : Program ω) {win : ω} (zero : k.zero win) :
    Holds { s with todo := rest, increments := Function.update s.increments win 0 } k := by
  refine ⟨h.wraps, fun w => ?_, h.covered, h.quiet, h.zero, h.posts, h.drained⟩
  by_cases hw : w = win
  · subst hw
    simp [h.zero w zero]
  · simpa [hw] using h.bounded w

theorem count (h : Holds s k) (rest : Program ω) (win : ω) :
    Holds { s with
      todo := rest
      nbiCounter := Function.update s.nbiCounter win (s.nbiCounter win + 1)
      counted := Function.update s.counted win (s.counted win + 1)
      increments := Function.update s.increments win (s.increments win + 1) }
      (k.after (.count win)) where
  wraps w := by
    by_cases hw : w = win
    · subst hw
      simp [h.wraps w, BitVec.ofNat_add]
    · simpa [hw] using h.wraps w
  bounded w := by
    by_cases hw : w = win
    · subst hw
      simpa using h.bounded w
    · simpa [hw] using h.bounded w
  covered w x hx := by
    by_cases hw : w = win
    · subst hw
      simp
    · simpa [Knows.after, hw] using h.covered w x hx
  quiet := h.quiet
  zero w hw := by simpa [hw.1] using h.zero w hw.2
  posts := h.posts
  drained := h.drained

theorem clear (h : Holds s k) (rest : Program ω) {win : ω} (quiet : k.quiet win) :
    Holds { s with
      todo := rest
      nbiCounter := Function.update s.nbiCounter win 0
      counted := Function.update s.counted win 0 } (k.after (.clear win)) where
  wraps w := by
    by_cases hw : w = win
    · subst hw
      simp
    · simpa [hw] using h.wraps w
  bounded w := by
    by_cases hw : w = win
    · subst hw
      simp
    · simpa [hw] using h.bounded w
  covered w x hx := by
    have other : w ≠ win := by
      rintro rfl
      exact h.quiet w x hx quiet
    simpa [Knows.after, other] using h.covered w x hx
  quiet := h.quiet
  zero w hw := by
    by_cases same : w = win
    · subst same
      simp
    · simpa [same] using h.zero w (hw.resolve_left same)
  posts := h.posts
  drained := h.drained

end Holds

/-- What other processes hold is in no counter. -/
theorem Known.others {s : State ω ι} {k : Knows ω} (known : Known s k) (blocked : Wait → Bool) :
    Known { s with blocked := blocked } k := by
  have h := known.holds
  exact ⟨⟨h.wraps, h.bounded, h.covered, h.quiet, h.zero, h.posts, h.drained⟩, known.leads⟩

section Steps
variable [DecidableEq ω] {s t : State ω ι} {k : Knows ω}

/-- What the next statement leaves known leads on. -/
theorem Known.perform (known : Known s k) (sparing : Sparing s) {i : Instr ω} {rest : Program ω}
    (next : s.todo = i :: rest) (e : s.perform rest i = some t) : ∃ k', Known t k' := by
  obtain ⟨h, leads⟩ := known
  rw [next] at leads
  obtain ⟨safe, leads⟩ := leads
  cases i with
  | dmapp win op =>
    cases e
    exact ⟨_, h.dmapp rest win op, leads⟩
  | count win =>
    cases e
    exact ⟨_, h.count rest win, leads⟩
  | gsyncWait =>
    cases e
    exact ⟨_, h.gsyncWait rest, leads⟩
  | clear win =>
    cases e
    exact ⟨_, h.clear rest safe.2, leads⟩
  | gsyncCounted win =>
    simp only [State.perform, Option.some.injEq] at e
    split at e <;> subst e
    · -- the wait and the reset make known at least as much
      refine ⟨k, h.todo _, safe, ⟨fun _ => id, trivial⟩, leads.mono ?_⟩
      exact ⟨fun _ => False.elim, fun _ _ => trivial, fun _ => id, rfl, id⟩
    · rename_i zero
      exact ⟨_, h.gsyncCounted sparing rest (safe win) (not_not.mp zero), leads⟩
  | drain =>
    simp only [State.perform] at e
    split at e
    · rename_i none
      cases e
      exact ⟨_, h.drain rest none, leads⟩
    · split at e <;> cases e
      rename_i p cq eq
      -- the drain goes on
      refine ⟨k, h.read eq, ?_⟩
      rw [next]
      exact ⟨safe, leads⟩
  | drainFull =>
    cases e
    refine ⟨k, h.todo _, ?_⟩
    split
    · refine ⟨safe, leads.mono ?_⟩
      exact ⟨fun _ => id, fun _ => id, fun _ => id, rfl, fun _ => trivial⟩
    · exact leads
  | takeDescriptor =>
    cases e
    exact ⟨_, h.takeDescriptor rest safe.2, leads⟩
  | post win p =>
    cases e
    exact ⟨_, h.post rest win p safe.2, leads⟩
  | flushed win =>
    cases e
    exact ⟨_, h.flushed rest safe.2.2.1, leads⟩
  | fence | copy | push =>
    cases e
    exact ⟨k, h.todo rest, leads⟩
  | await w =>
    simp only [State.perform, Option.ite_none_left_eq_some, Option.some.injEq] at e
    obtain ⟨-, rfl⟩ := e
    exact ⟨k, h.todo rest, leads⟩

/-- The network completes operations and issues none. -/
theorem Known.network (known : Known s k) {D : Types ι} {i : ℕ} [DecidableEq ι] :
    (step D s (.dmappDone i) = some t → Known t k) ∧ (step D s (.ugniDone i) = some t → Known t k) := by
  obtain ⟨h, leads⟩ := known
  constructor
  · intro e
    simp only [step, Option.ite_none_right_eq_some, Option.some.injEq] at e
    obtain ⟨-, rfl⟩ := e
    have fewer {w : ω} {x : Implicit} (hx : (w, x) ∈ s.dmapp.eraseIdx i) : (w, x) ∈ s.dmapp :=
      List.mem_of_mem_eraseIdx hx
    exact ⟨⟨h.wraps, h.bounded, fun w x hx => h.covered w x (fewer hx),
      fun w x hx => h.quiet w x (fewer hx), h.zero, h.posts, h.drained⟩, leads⟩
  · intro e
    obtain ⟨p, found, rfl⟩ := Option.map_eq_some_iff.mp e
    obtain ⟨lt, -⟩ := List.getElem?_eq_some_iff.mp found
    refine ⟨⟨h.wraps, h.bounded, h.covered, h.quiet, h.zero, ?_, fun drained => ?_⟩, leads⟩
    · have posts := h.posts
      simp only [List.length_eraseIdx_of_lt lt, List.length_append, List.length_singleton]
      omega
    · have none := h.drained drained
      rw [none] at lt
      simp at lt

end Steps

end FoMPI.Flush
