import FoMPI.Dynamic.Sections

/-!
# Detaching what is not attached

Both error returns of `foMPI_Win_detach` lie between the acquisition and the release
of the dynamic mutex. A call that takes one of them leaves the list as it is and the
mutex taken, with nobody left who could give it back.
-/
namespace FoMPI.Dynamic
open FoMPI.Foundation

variable {n : ℕ} {s t u : State n} {p q : Fin n} {x : Answer} {base : ℤ} {as bs : List Addr}

/-- Runs in which `q` enters no other call. -/
def inCall (q : Fin n) : State n → Action n → State n → Prop := fun _ a _ => ∀ c, a ≠ .call q c

/-- A detach that is about to acquire the free mutex and ends with the error has changed nothing:
neither the list nor the last node, the registrations, the id or the mutex. -/
def DetachAtomic (s : State n) (q : Fin n) : Prop :=
  ∀ t, Reach step (inCall q) s t → t.pc q = .done .errorRmaWinMemNotFound → t.desc q = s.desc q

/-- A step of another process changes the mutex at most, and not while `q` has it. -/
theorem Moves.other (h : Moves s p x t) (ne : q ≠ p) :
    t.pc q = s.pc q ∧ ∃ m, t.desc q = { s.desc q with dynamicMutex := m } ∧
      ((s.desc q).dynamicMutex = q → m = q) := by
  have unchanged : ∃ m, s.desc q = { s.desc q with dynamicMutex := m } ∧
      ((s.desc q).dynamicMutex = q → m = q) := ⟨_, rfl, id⟩
  cases h with
  | spin => exact ⟨rfl, unchanged⟩
  | @enter r next waits free =>
    simp only [State.setPc, State.setDesc, Function.update_of_ne ne]
    obtain rfl | other := eq_or_ne q r
    · rw [Function.update_self]
      refine ⟨trivial, _, rfl, fun mine => ?_⟩
      rw [mine, mutexNone] at free
      omega
    · rw [Function.update_of_ne other]
      exact ⟨trivial, unchanged⟩
  | @leave r exit =>
    simp only [State.release, Desc.acswap, State.setPc, State.setDesc, Function.update_of_ne ne]
    obtain rfl | other := eq_or_ne q r
    · rw [Function.update_self]
      split
      · rename_i mutex
        refine ⟨trivial, _, rfl, fun mine => ?_⟩
        -- the swap compares with the rank of the process that leaves
        rw [mine] at mutex
        exact absurd (Fin.ext (by exact_mod_cast mutex)) ne
      · exact ⟨trivial, unchanged⟩
    · rw [Function.update_of_ne other]
      exact ⟨trivial, unchanged⟩
  | bump =>
    simp only [State.bumpId, State.setPc, State.setDesc, Function.update_of_ne ne]
    exact ⟨trivial, unchanged⟩
  | readId =>
    unfold State.readId
    split <;>
    · simp only [State.setPc, State.setCached, State.setSeen, Function.update_of_ne ne]
      exact ⟨trivial, unchanged⟩
  | readHead =>
    simp only [State.setPc, Function.update_of_ne ne]
    exact ⟨trivial, unchanged⟩
  | readNode =>
    simp only [State.readNode, State.setPc, State.setCached, Function.update_of_ne ne]
    exact ⟨trivial, unchanged⟩
  | edit =>
    simp only [State.setPc, State.setDesc, Function.update_of_ne ne]
    exact ⟨trivial, unchanged⟩

/-- `q` is outside its critical section and its mutex says that it is inside. -/
def Locked (s : State n) (q : Fin n) : Prop := (s.desc q).dynamicMutex = q ∧ (s.pc q).holds q ≠ some q

theorem Locked.ne_none (h : Locked s q) : (s.desc q).dynamicMutex ≠ mutexNone := by
  rw [h.1, mutexNone]
  omega

/-- The owner itself cannot enter again. -/
theorem Locked.own (h : Locked s q) (move : Moves s q x t) : Locked t q := by
  have outside := h.2
  cases move with
  | spin => exact h
  | @enter r next waits free =>
    obtain rfl | other := eq_or_ne q r
    · exact absurd free h.ne_none
    · refine ⟨by simpa [State.setPc, State.setDesc, other] using h.1, ?_⟩
      simpa [State.setPc, (Pc.of_entry waits).1] using other.symm
  | @leave r exit =>
    have other : q ≠ r := fun eq => outside (eq ▸ (Pc.of_exit exit).1)
    refine ⟨by simpa [State.release, State.setPc, State.setDesc, other] using h.1, ?_⟩
    simp [State.release, State.setPc, Pc.holds]
  | bump here => exact absurd (by rw [here]; rfl) outside
  | @readId r here =>
    rw [here] at outside
    unfold State.readId
    split <;>
    · refine ⟨h.1, ?_⟩
      rw [State.setPc_pc_self]
      exact outside
  | @readHead r here =>
    rw [here] at outside
    refine ⟨h.1, ?_⟩
    rwa [State.setPc_pc_self, State.holds_follow]
  | @readNode r a seg here =>
    rw [here] at outside
    refine ⟨h.1, ?_⟩
    rwa [State.readNode, State.setPc_pc_self, State.holds_follow]
  | edit move => exact absurd move.holds.1 outside

/-- Nobody can give a mutex back whose owner has left. -/
theorem Locked.step (h : Locked s q) {a : Action n} (move : step s a = some t) : Locked t q := by
  cases a with
  | call p c =>
    simp only [Dynamic.step] at move
    split at move
    · rename_i code here
      cases move
      refine ⟨h.1, ?_⟩
      obtain rfl | ne := eq_or_ne q p
      · cases c <;> simp [State.setPc, Call.start, Pc.holds]
      · simpa [State.setPc, ne] using h.2
    · contradiction
  | run p x =>
    have moved := Moves.of_runStep (x := x) move
    obtain rfl | ne := eq_or_ne q p
    · exact h.own moved
    · obtain ⟨pc, m, desc, mine⟩ := moved.other ne
      exact ⟨by rw [desc]; exact mine h.1, by rw [pc]; exact h.2⟩

/-- Every later attempt to acquire the mutex fails. -/
theorem Locked.spins (h : Locked s q) {next : Pc n} (waits : (s.pc p).entry p = some (q, next)) (x : Answer) :
    Dynamic.step s (.run p x) = some s := by
  have taken : s.acquire p q next = s := by
    simp only [State.acquire, Desc.acswap, if_neg h.ne_none, State.setDesc_self]
  cases hp : s.pc p <;> simp only [hp, Pc.entry, Option.some.injEq, Prod.mk.injEq, reduceCtorEq] at waits
  all_goals
    obtain ⟨rfl, rfl⟩ := waits
    simp only [Dynamic.step, runStep, hp, taken]

/-- A detach of `base` that met the list `as` of `D`: until the search has succeeded only the mutex
differs from `D`, and the nodes passed are not the wanted one. -/
def Attempt (base : ℤ) (D : Desc) (as : List Addr) (q : Fin n) (D' : Desc) : Pc n → Prop
  | .detachAcquire b => b = base ∧ ∃ m, D' = { D with dynamicMutex := m }
  | .detachHead b => b = base ∧ D' = { D with dynamicMutex := q }
  | .detachSearch b _ current => b = base ∧ D' = { D with dynamicMutex := q } ∧
    ∃ front bs, as = front ++ bs ∧ Path D.links (some current) bs none ∧ ∀ a ∈ front, (D.heap a).base ≠ base
  | .done .errorRmaWinMemNotFound => D' = { D with dynamicMutex := q } ∧ ∀ a ∈ as, (D.heap a).base ≠ base
  | .detachUnlink .. | .detachFree _ | .bump | .release | .done .success => True
  | _ => False

namespace Attempt

variable {D D' E : Desc} {pc next : Pc n} {m : ℤ}

/-- Steps of others. -/
theorem other (h : Attempt base D as q D' pc) (mine : D'.dynamicMutex = q → m = q) :
    Attempt base D as q { D' with dynamicMutex := m } pc := by
  cases pc
  case detachAcquire =>
    obtain ⟨eq, m', rfl⟩ := h
    exact ⟨eq, m, rfl⟩
  case detachHead =>
    obtain ⟨eq, rfl⟩ := h
    exact ⟨eq, by rw [mine rfl]⟩
  case detachSearch =>
    obtain ⟨eq, rfl, rest⟩ := h
    exact ⟨eq, by rw [mine rfl], rest⟩
  case done code =>
    cases code
    · trivial
    · obtain ⟨rfl, rest⟩ := h
      exact ⟨by rw [mine rfl], rest⟩
  all_goals exact h

/-- Steps of the search. -/
theorem search (h : Attempt base D as q D' pc) (linked : Linked D as none)
    (move : LocalStep D' x pc E next) : Attempt base D as q E next := by
  cases move with
  | attachLink | attachDescribe | attachTerminate => exact h.elim
  | detachEmpty empty =>
    obtain ⟨rfl, rfl⟩ := h
    cases as with
    | nil => exact ⟨rfl, by simp⟩
    | cons b bs => exact absurd (empty.symm.trans linked.path.1) (by simp)
  | detachHead first =>
    obtain ⟨rfl, rfl⟩ := h
    exact ⟨rfl, rfl, [], as, rfl, first ▸ linked.path, by simp⟩
  | detachFound | detachUnlink | detachFree => trivial
  | @detachNext _ _ current _ miss more =>
    obtain ⟨rfl, rfl, front, bs, rfl, path, passed⟩ := h
    cases bs with
    | nil => contradiction
    | cons b bs =>
      obtain rfl := Option.some.inj path.1
      refine ⟨rfl, rfl, front ++ [current], bs, by simp, more ▸ path.2, fun a mem => ?_⟩
      obtain mem | mem := List.mem_append.mp mem
      · exact passed a mem
      · exact List.mem_singleton.mp mem ▸ miss
  | detachMissing miss last =>
    obtain ⟨rfl, rfl, front, bs, rfl, path, passed⟩ := h
    cases bs with
    | nil => contradiction
    | cons b bs =>
      obtain rfl := Option.some.inj path.1
      have rest := path.2
      rw [show D.links _ = none from last] at rest
      cases bs with
      | nil =>
        refine ⟨rfl, fun a mem => ?_⟩
        obtain mem | mem := List.mem_append.mp mem
        · exact passed a mem
        · exact List.mem_singleton.mp mem ▸ miss
      | cons c cs => exact absurd rest.1 (by simp)

theorem own (h : Attempt base D as q (s.desc q) (s.pc q)) (linked : Linked D as none)
    (move : Moves s q x t) : Attempt base D as q (t.desc q) (t.pc q) := by
  cases move with
  | spin => exact h
  | @enter r next waits free =>
    cases hp : s.pc q <;> simp only [hp, Pc.entry, Option.some.injEq, Prod.mk.injEq, reduceCtorEq] at waits
    all_goals rw [hp] at h
    case detachAcquire b =>
      obtain ⟨rfl, rfl⟩ := waits
      obtain ⟨rfl, m, desc⟩ := h
      rw [State.setPc_pc_self]
      refine ⟨rfl, ?_⟩
      simp [State.setPc, State.setDesc, desc]
    all_goals exact h.elim
  | leave exit => simp [State.release, Attempt]
  | bump here => simp [State.bumpId, State.setPc, Attempt]
  | readId here | readHead here | readNode here =>
    rw [here] at h
    exact h.elim
  | edit move =>
    rw [State.setPc_pc_self]
    simpa [State.setPc, State.setDesc] using h.search linked move

theorem run (h : Attempt base D as q (s.desc q) (s.pc q)) (linked : Linked D as none)
    (run : Reach step (inCall q) s t) : Attempt base D as q (t.desc q) (t.pc q) := by
  refine run.invariant (P := fun t => Attempt base D as q (t.desc q) (t.pc q)) h
    fun u a v h move admitted => ?_
  cases a with
  | call p c =>
    have ne : q ≠ p := fun eq => admitted c (eq ▸ rfl)
    simp only [step] at move
    split at move
    · cases move
      simpa [State.setPc, ne] using h
    · contradiction
  | run p x =>
    have moved := Moves.of_runStep (x := x) move
    obtain rfl | ne := eq_or_ne q p
    · exact h.own linked moved
    · obtain ⟨pc, m, desc, mine⟩ := moved.other ne
      rw [pc, desc]
      exact h.other mine

end Attempt

/-- A step of the search, with an answer that it does not use. -/
theorem search_step {next : Pc n} {x : Answer} (search : ∃ b, s.pc q = .detachHead b ∨
      ∃ previous current, s.pc q = .detachSearch b previous current)
    (local_ : localStep (s.desc q) x (s.pc q) = some (s.desc q, next)) :
    step s (.run q x) = some (s.setPc q next) := by
  obtain ⟨b, here | ⟨previous, current, here⟩⟩ := search
  all_goals
    rw [here] at local_
    simp only [step, runStep, here, local_, Option.map_some, State.setDesc_self]

/-- The search of a list without `base` runs to its end. -/
theorem search_fails (base : ℤ) {previous current : Addr}
    (here : s.pc q = .detachSearch base previous current)
    (path : Path (s.desc q).links (some current) bs none)
    (miss : ∀ a ∈ bs, ((s.desc q).heap a).base ≠ base) :
    ∃ t, Reach step (inCall q) s t ∧ t.pc q = .done .errorRmaWinMemNotFound ∧ t.desc q = s.desc q := by
  have x : Answer := ⟨0, (s.desc q).heap 0, 0⟩
  induction bs generalizing s previous current with
  | nil => contradiction
  | cons b bs ih =>
    obtain rfl := Option.some.inj path.1
    have other := miss current (by simp)
    cases bs with
    | nil =>
      have last : ((s.desc q).heap current).next = none := path.2
      have move : step s (.run q x) = some (s.setPc q (.done .errorRmaWinMemNotFound)) :=
        search_step ⟨base, .inr ⟨_, _, here⟩⟩ (by simp [here, localStep, other, last])
      exact ⟨_, .tail .refl move fun c => by simp, s.setPc_pc_self q _, rfl⟩
    | cons c cs =>
      have more : ((s.desc q).heap current).next = some c := path.2.1
      have move : step s (.run q x) = some (s.setPc q (.detachSearch base current c)) :=
        search_step ⟨base, .inr ⟨_, _, here⟩⟩ (by simp [here, localStep, other, more])
      have rest : Path (s.desc q).links (some c) (c :: cs) none := more ▸ path.2
      obtain ⟨t, run, done, same⟩ := ih (s.setPc_pc_self q _) rest fun a mem => miss a (by simp [mem])
      exact ⟨t, Reach.trans (.tail .refl move fun c => by simp) run, done, same⟩

/-- A call that does not find `base` returns with the mutex taken. -/
theorem detach_fails (here : s.pc q = .detachAcquire base) (free : (s.desc q).dynamicMutex = mutexNone)
    (linked : Linked (s.desc q) as none) (miss : ∀ a ∈ as, ((s.desc q).heap a).base ≠ base) :
    ∃ t, Reach step (inCall q) s t ∧ t.pc q = .done .errorRmaWinMemNotFound ∧
      t.desc q = { s.desc q with dynamicMutex := q } := by
  have x : Answer := ⟨0, (s.desc q).heap 0, 0⟩
  obtain ⟨u, entered, pc, desc⟩ : ∃ u, step s (.run q x) = some u ∧ u.pc q = .detachHead base ∧
      u.desc q = { s.desc q with dynamicMutex := q } := by
    refine ⟨s.acquire q q (.detachHead base), by simp only [step, runStep, here], ?_⟩
    simp [State.acquire, Desc.acswap, free, State.setPc, State.setDesc]
  have path : Path (u.desc q).links (u.desc q).winDynamicMemRegions as none := by
    rw [desc]
    exact linked.path
  cases as with
  | nil =>
    have empty : (u.desc q).winDynamicMemRegions = none := path
    have move : step u (.run q x) = some (u.setPc q (.done .errorRmaWinMemNotFound)) :=
      search_step ⟨base, .inl pc⟩ (by simp [pc, localStep, empty])
    exact ⟨_, .tail (.tail .refl entered fun c => by simp) move fun c => by simp, u.setPc_pc_self q _, desc⟩
  | cons a as =>
    have first : (u.desc q).winDynamicMemRegions = some a := path.1
    have move : step u (.run q x) = some (u.setPc q (.detachSearch base a a)) :=
      search_step ⟨base, .inl pc⟩ (by simp [pc, localStep, first])
    obtain ⟨t, run, done, same⟩ := search_fails base (u.setPc_pc_self q _) (first ▸ path)
      fun b mem => by
        have heap : (u.desc q).heap = (s.desc q).heap := by rw [desc]
        exact (congrFun heap b) ▸ miss b mem
    exact ⟨t, Reach.trans (.tail (.tail .refl entered fun c => by simp) move fun c => by simp) run, done,
      same.trans desc⟩

/-- A detach is atomic on error exactly when the base address is that of an attached region, so that
it does not come to the error. Otherwise it returns with everything unchanged but the mutex, which
stays taken for ever: no later call of any process acquires it. -/
theorem detach_atomic (here : s.pc q = .detachAcquire base) (free : (s.desc q).dynamicMutex = mutexNone)
    (linked : Linked (s.desc q) as none) :
    (DetachAtomic s q ↔ ∃ r ∈ (s.desc q).regions as, r.base = base) ∧
      ((∀ r ∈ (s.desc q).regions as, r.base ≠ base) →
        ∃ t, Reach step (inCall q) s t ∧ t.pc q = .done .errorRmaWinMemNotFound) ∧
      ∀ t, Reach step (inCall q) s t → t.pc q = .done .errorRmaWinMemNotFound →
        t.desc q = { s.desc q with dynamicMutex := q } ∧
          ∀ u, Reach step always t u → (u.desc q).dynamicMutex = q ∧
            ∀ p next x, (u.pc p).entry p = some (q, next) → step u (.run p x) = some u := by
  have start : Attempt base (s.desc q) as q (s.desc q) (s.pc q) := by
    rw [here]
    exact ⟨rfl, _, rfl⟩
  have regions : (∃ r ∈ (s.desc q).regions as, r.base = base) ↔ ∃ a ∈ as, ((s.desc q).heap a).base = base := by
    simp [Desc.regions]
  have failed : (∀ r ∈ (s.desc q).regions as, r.base ≠ base) →
      ∃ t, Reach step (inCall q) s t ∧ t.pc q = .done .errorRmaWinMemNotFound ∧
        t.desc q = { s.desc q with dynamicMutex := q } := fun miss =>
    detach_fails here free linked fun a mem => miss _ (List.mem_map_of_mem mem)
  refine ⟨⟨fun atomic => ?_, fun attached t run done => ?_⟩, fun miss => ?_, fun t run done => ?_⟩
  · by_contra miss
    push Not at miss
    obtain ⟨t, run, done, desc⟩ := failed miss
    have same := congrArg Desc.dynamicMutex (desc.symm.trans (atomic t run done))
    have mutex : ((q : ℕ) : ℤ) = mutexNone := same.trans free
    rw [mutexNone] at mutex
    omega
  · have attempt := start.run linked run
    rw [done] at attempt
    obtain ⟨a, mem, hit⟩ := regions.mp attached
    exact absurd hit (attempt.2 a mem)
  · obtain ⟨t, run, done, -⟩ := failed miss
    exact ⟨t, run, done⟩
  · have attempt := start.run linked run
    rw [done] at attempt
    have locked : Locked t q := ⟨by rw [attempt.1], by rw [done]; simp [Pc.holds]⟩
    refine ⟨attempt.1, fun u later => ?_⟩
    have still : Locked u q := later.invariant (P := fun u => Locked u q) locked
      fun _ _ _ h move _ => h.step move
    exact ⟨still.1, fun p next x waits => still.spins waits x⟩

/-- The registrations of one node at address 7 and of its region. -/
def oneRegion : Registrations := (Registry.empty.register 1 (.node 7)).register 2 (.memory 64 8)

/-- Two processes, each with one attached region at address 64, and a detach of `base` begun. -/
def detaching (base : ℤ) : State 2 :=
  { init fun _ _ => ⟨⟨2, 64, 8⟩, 0, none⟩ with
    desc := fun _ => ⟨mutexNone, 1#32, some 7, 1, some 7, fun _ => ⟨⟨2, 64, 8⟩, 0, none⟩, [7], oneRegion⟩
    pc := fun _ => .detachAcquire base }

theorem detaching_linked (base : ℤ) (q : Fin 2) : Linked ((detaching base).desc q) [7] none :=
  ⟨⟨rfl, rfl⟩, rfl, fun _ mem => mem, List.nodup_singleton 7⟩

/-- The owner of one region at 64 detaches 65 and returns with the mutex taken. -/
theorem detach_atomic_fails : ¬ DetachAtomic (detaching 65) 0 := by
  intro atomic
  obtain ⟨t, run, done, desc⟩ := detach_fails rfl rfl (detaching_linked 65 0)
    (fun a mem => by rw [List.mem_singleton.mp mem]; decide)
  have same := congrArg Desc.dynamicMutex (desc.symm.trans (atomic t run done))
  exact absurd same (by decide)

theorem detach_atomic_one_region : DetachAtomic (detaching 64) 0 ∧
    ∃ t, Reach step (inCall 0) (detaching 65) t ∧ t.pc 0 = .done .errorRmaWinMemNotFound ∧
      (t.desc 0).dynamicMutex = 0 := by
  refine ⟨(detach_atomic rfl rfl (detaching_linked 64 0)).1.mpr ⟨⟨2, 64, 8⟩, by simp [Desc.regions, detaching], rfl⟩, ?_⟩
  obtain ⟨-, fails, after⟩ := detach_atomic (s := detaching 65) (q := 0) rfl rfl (detaching_linked 65 0)
  obtain ⟨t, run, done⟩ := fails (by simp [Desc.regions, detaching])
  exact ⟨t, run, done, by rw [(after t run done).1]; rfl⟩

end FoMPI.Dynamic
