import FoMPI.Dynamic.Sections

/-!
# A fetched copy is the current list

The copy of an origin is complete whenever it has seen all edits of the target and
no edit is under way. The mutex keeps edits out while an origin reads, and the id
tells an origin whether it has seen all edits, as long as fewer than 2^32 of them
lie between two looks.
-/
namespace FoMPI.Dynamic
open FoMPI.Foundation

variable {n : ℕ} {s t : State n} {p q r : Fin n} {x : Answer}

/-- What the copy that `p` has of the list of `q` says. -/
def State.copy (s : State n) (p q : Fin n) : List MemRegion :=
  (s.dynamicList p q).remoteMemRegions.map Element.toMemRegion

/-- Which copies are complete, and how much of the others is there. -/
def Copied (s : State n) (p q : Fin n) : Prop :=
  match (s.pc p).phase q with
  | .outside => s.seen p q = s.edits q → (s.pc q).dirty = false → (s.desc q).Represents (s.copy p q)
  | .dropped => s.seen p q = s.edits q ∧ s.copy p q = []
  | .partly a => s.seen p q = s.edits q ∧
    ∃ as bs, Linked (s.desc q) (as ++ a :: bs) none ∧ (s.desc q).regions as = s.copy p q
  | .complete => s.seen p q = s.edits q ∧ (s.desc q).Represents (s.copy p q)

/-- The invariant of the dynamic windows. -/
structure Inv (s : State n) : Prop where
  owner : ∀ p q, (s.pc p).holds p = some q → (s.desc q).dynamicMutex = p
  shape : ∀ q, Shape (s.desc q) (s.pc q)
  counted : ∀ q, (s.desc q).dynamicId = BitVec.ofNat 32 (s.edits q)
  cachedId : ∀ p q, (s.dynamicList p q).dynamicId = BitVec.ofNat 32 (s.seen p q)
  bound : ∀ p q, s.seen p q ≤ s.edits q
  copied : ∀ p q, Copied s p q

theorem SameList.shape {D D' : Desc} (same : SameList D D') {pc : Pc n} (h : Shape D pc) : Shape D' pc := by
  obtain ⟨m, i, rfl⟩ := same
  cases pc
  case attachDescribe | attachTerminate =>
    obtain ⟨as, e, h⟩ := h
    exact ⟨as, e, h.path, h.last, h.live, h.nodup⟩
  case detachSearch | detachUnlink =>
    obtain ⟨as, bs, h, before⟩ := h
    exact ⟨as, bs, ⟨h.path, h.last, h.live, h.nodup⟩, before⟩
  case detachFree =>
    obtain ⟨as, h, off⟩ := h
    exact ⟨as, ⟨h.path, h.last, h.live, h.nodup⟩, off⟩
  all_goals
    obtain ⟨as, h⟩ := h
    exact ⟨as, h.path, h.last, h.live, h.nodup⟩

/-- A step that leaves the list, the copy and the counts of a pair alone. -/
theorem Copied.frame (h : Copied s p q) (phase : (t.pc p).phase q = (s.pc p).phase q)
    (dirty : (t.pc q).dirty = false → (s.pc q).dirty = false) (list : SameList (s.desc q) (t.desc q))
    (copy : t.dynamicList p q = s.dynamicList p q) (seen : t.seen p q = s.seen p q)
    (edits : t.edits q = s.edits q) : Copied t p q := by
  unfold Copied State.copy at *
  rw [phase, copy, seen, edits]
  split at h
  · exact fun all clean => list.represents (h all (dirty clean))
  · exact h
  · obtain ⟨all, as, bs, linked, copied⟩ := h
    exact ⟨all, as, bs, list.linked linked, (list.regions as).trans copied⟩
  · exact ⟨h.1, list.represents h.2⟩

namespace Inv

/-- Two processes are never in the critical section of one mutex. -/
theorem exclusive (h : Inv s) (hp : (s.pc p).holds p = some r) (hq : (s.pc q).holds q = some r) : p = q := by
  have same := (h.owner p r hp).symm.trans (h.owner q r hq)
  exact Fin.ext (by exact_mod_cast same)

/-- Nobody edits a list while another process is in its critical section. -/
theorem clean (h : Inv s) (hp : (s.pc p).holds p = some q) (own : (s.pc p).dirty = false) :
    (s.pc q).dirty = false := by
  by_contra edit
  have dirty := (Bool.not_eq_false _).mp edit
  obtain rfl := h.exclusive hp (Pc.holds_of_dirty dirty)
  exact edit own

theorem init (heap : Fin n → Addr → Element) : Inv (init heap) where
  owner p q holds := by simp [Dynamic.init, Pc.holds] at holds
  shape q := ⟨[], rfl, rfl, by simp, List.nodup_nil⟩
  counted q := rfl
  cachedId p q := rfl
  bound p q := Nat.le_refl 0
  copied p q := fun _ _ => ⟨[], ⟨rfl, rfl, by simp, List.nodup_nil⟩, rfl⟩

/-- A step of `p` that leaves all lists alone and ends outside the reading of a list: it may change
the mutex of one process. -/
theorem pass (h : Inv s) {D' : Desc} {next : Pc n} (list : SameList (s.desc q) D')
    (sameId : D'.dynamicId = (s.desc q).dynamicId)
    (owner : ∀ r a, (Function.update s.pc p next r).holds r = some a →
      (Function.update s.desc q D' a).dynamicMutex = r)
    (shape : Shape (s.desc p) next) (dirty : next.dirty = false → (s.pc p).dirty = false)
    (phase : ∀ a, next.phase a = .outside ∧ ((s.pc p).phase a = .outside ∨ (s.pc p).phase a = .complete)) :
    Inv ((s.setDesc q D').setPc p next) := by
  have lists : ∀ a, SameList (s.desc a) (Function.update s.desc q D' a) := list.update
  have dirties : ∀ a, (Function.update s.pc p next a).dirty = false → (s.pc a).dirty = false := by
    intro a
    obtain rfl | ne := eq_or_ne a p
    · rwa [Function.update_self]
    · rw [Function.update_of_ne ne]
      exact id
  refine ⟨owner, fun a => ?_, fun a => ?_, h.cachedId, h.bound, fun r a => ?_⟩
  · refine (lists a).shape ?_
    obtain rfl | ne := eq_or_ne a p
    · simpa [State.setPc] using shape
    · simpa [State.setPc, State.setDesc, ne] using h.shape a
  · obtain rfl | ne := eq_or_ne a q
    · simpa [State.setPc, State.setDesc, sameId] using h.counted a
    · simpa [State.setPc, State.setDesc, ne] using h.counted a
  · obtain rfl | ne := eq_or_ne r p
    · have copied := h.copied r a
      unfold Copied at copied ⊢
      simp only [State.setPc, Function.update_self, (phase a).1]
      intro all clean
      refine (lists a).represents ?_
      obtain outside | complete := (phase a).2
      · rw [outside] at copied
        exact copied all (dirties a clean)
      · rw [complete] at copied
        exact copied.2
    · exact (h.copied r a).frame (by simp [State.setPc, State.setDesc, ne]) (dirties a) (lists a) rfl rfl rfl

/-- Entering a call. -/
theorem call (h : Inv s) {code : Code} (here : s.pc p = .done code) (c : Call n) :
    Inv (s.setPc p c.start) := by
  rw [← s.setDesc_self p]
  refine h.pass (.refl _) rfl (fun r a holds => ?_) ?_ (fun _ => by rw [here]; rfl) (fun a => ?_)
  · rw [Function.update_eq_self]
    obtain rfl | ne := eq_or_ne r p
    · cases c <;> simp [Call.start, Pc.holds] at holds
    · exact h.owner r a (by simpa [ne] using holds)
  · obtain ⟨as, linked⟩ := (h.shape p).linked (by rw [here]; rfl)
    cases c <;> exact ⟨as, linked⟩
  · rw [here]
    cases c <;> exact ⟨rfl, .inl rfl⟩

/-- Acquiring a mutex. -/
theorem enter (h : Inv s) {next : Pc n} (waits : (s.pc p).entry p = some (q, next))
    (free : (s.desc q).dynamicMutex = mutexNone) :
    Inv ((s.setDesc q { s.desc q with dynamicMutex := p }).setPc p next) := by
  obtain ⟨holds, before, after, phase⟩ := Pc.of_entry waits
  refine h.pass ⟨_, _, rfl⟩ rfl (fun r a mine => ?_) ?_ (fun _ => before) fun a => ⟨(phase a).2, .inl (phase a).1⟩
  · obtain rfl | ne := eq_or_ne r p
    · rw [Function.update_self, holds] at mine
      cases mine
      rw [Function.update_self]
    · rw [Function.update_of_ne ne] at mine
      have old := h.owner r a mine
      obtain rfl | other := eq_or_ne a q
      · rw [free, mutexNone] at old
        omega
      · rwa [Function.update_of_ne other]
  · obtain ⟨as, linked⟩ := (h.shape p).linked before
    exact .of_linked linked after (by rintro _ _ _ rfl; cases hp : s.pc p <;> simp [hp, Pc.entry] at waits)
      (by rintro _ _ rfl; cases hp : s.pc p <;> simp [hp, Pc.entry] at waits)

/-- Giving a mutex back. -/
theorem leave (h : Inv s) (exit : (s.pc p).exit p = some q) : Inv (s.release p q) := by
  obtain ⟨holds, clean⟩ := Pc.of_exit exit
  have mutex := h.owner p q holds
  simp only [State.release, Desc.acswap, if_pos mutex]
  refine h.pass ⟨_, _, rfl⟩ rfl (fun r a mine => ?_) ?_ (fun _ => clean) fun a => ⟨rfl, ?_⟩
  · obtain rfl | ne := eq_or_ne r p
    · rw [Function.update_self] at mine
      contradiction
    · rw [Function.update_of_ne ne] at mine
      obtain rfl | other := eq_or_ne a q
      · exact absurd (h.exclusive mine holds) ne
      · rw [Function.update_of_ne other]
        exact h.owner r a mine
  · obtain ⟨as, linked⟩ := (h.shape p).linked clean
    exact ⟨as, linked⟩
  · cases hp : s.pc p <;> simp [hp, Pc.exit] at exit <;> simp [Pc.phase]
    exact (ne_or_eq _ _).imp_right fun eq => eq

/-- While a process is in its own critical section nobody else reads its list. -/
theorem phase_of_holds (h : Inv s) (own : (s.pc p).holds p = some p) (ne : r ≠ p) :
    (s.pc r).phase p = .outside := by
  by_contra reading
  exact ne (h.exclusive (Pc.holds_of_phase reading).1 own)

/-- Local code of an edit. -/
theorem edit (h : Inv s) {E : Desc} {next : Pc n} (move : LocalStep (s.desc p) x (s.pc p) E next) :
    Inv ((s.setDesc p E).setPc p next) := by
  obtain ⟨own, stays, phase⟩ := move.holds (p := p)
  have mutex : E.dynamicMutex = (s.desc p).dynamicMutex := congrArg Prod.fst move.guard
  have sameId : E.dynamicId = (s.desc p).dynamicId := congrArg Prod.snd move.guard
  refine ⟨fun r a holds => ?_, fun a => ?_, fun a => ?_, h.cachedId, h.bound, fun r a => ?_⟩
  · have before : (s.pc r).holds r = some a := by
      obtain rfl | ne := eq_or_ne r p
      · simp only [State.setPc, Function.update_self] at holds
        obtain stays | left := stays
        · rwa [own, ← stays]
        · simp [left] at holds
      · simpa [State.setPc, State.setDesc, ne] using holds
    obtain rfl | ne := eq_or_ne a p
    · simpa [State.setPc, State.setDesc] using mutex.trans (h.owner r a before)
    · simpa [State.setPc, State.setDesc, ne] using h.owner r a before
  · obtain rfl | ne := eq_or_ne a p
    · simpa [State.setPc, State.setDesc] using move.shape (h.shape a)
    · simpa [State.setPc, State.setDesc, ne] using h.shape a
  · obtain rfl | ne := eq_or_ne a p
    · simpa [State.setPc, State.setDesc] using sameId.trans (h.counted a)
    · simpa [State.setPc, State.setDesc, ne] using h.counted a
  · have same : (((s.setDesc p E).setPc p next).pc r).phase a = (s.pc r).phase a := by
      obtain rfl | ne := eq_or_ne r p
      · simp [State.setPc, phase a]
      · simp [State.setPc, State.setDesc, ne]
    obtain rfl | ne := eq_or_ne a p
    · obtain dirty | ⟨rfl, clean, -⟩ := move.dirty
      · have outside : (s.pc r).phase a = .outside := by
          obtain rfl | ne := eq_or_ne r a
          · exact (phase r).1
          · exact h.phase_of_holds own ne
        unfold Copied
        rw [same, outside]
        intro _ clean
        simp [State.setPc, dirty] at clean
      · rw [State.setDesc_self] at same ⊢
        exact (h.copied r a).frame same (fun _ => clean) (.refl _) rfl rfl rfl
    · refine (h.copied r a).frame same ?_ ?_ rfl rfl rfl
      · simp [State.setPc, State.setDesc, ne]
      · simp only [State.setPc, State.setDesc, Function.update_of_ne ne]
        exact .refl _

/-- Counting an edit: no copy has seen it yet. -/
theorem bump (h : Inv s) (here : s.pc p = .bump) : Inv (s.bumpId p) := by
  have own : (s.pc p).holds p = some p := by rw [here]; rfl
  refine ⟨fun r a holds => ?_, fun a => ?_, fun a => ?_, h.cachedId, fun r a => ?_, fun r a => ?_⟩
  · have before : (s.pc r).holds r = some a := by
      obtain rfl | ne := eq_or_ne r p
      · rw [own]
        simpa [State.bumpId, State.setPc, Pc.holds] using holds
      · simpa [State.bumpId, State.setPc, State.setDesc, ne] using holds
    have mutex := h.owner r a before
    obtain rfl | ne := eq_or_ne a p
    · simpa [State.bumpId, State.setPc, State.setDesc] using mutex
    · simpa [State.bumpId, State.setPc, State.setDesc, ne] using mutex
  · obtain rfl | ne := eq_or_ne a p
    · have shape := h.shape a
      rw [here] at shape
      obtain ⟨as, linked⟩ := shape
      simp only [State.bumpId, State.setPc, State.setDesc, Function.update_self]
      exact ⟨as, linked.path, linked.last, linked.live, linked.nodup⟩
    · simpa [State.bumpId, State.setPc, State.setDesc, ne] using h.shape a
  · obtain rfl | ne := eq_or_ne a p
    · simp [State.bumpId, State.setPc, State.setDesc, h.counted a, BitVec.ofNat_add]
    · simpa [State.bumpId, State.setPc, State.setDesc, ne] using h.counted a
  · have le := h.bound r a
    simp only [State.bumpId, State.setPc, State.setDesc, Function.update_apply]
    split
    · rename_i eq
      rw [← eq]
      omega
    · exact le
  · have same : ((s.bumpId p).pc r).phase a = (s.pc r).phase a := by
      obtain rfl | ne := eq_or_ne r p
      · simp [State.bumpId, State.setPc, here, Pc.phase]
      · simp [State.bumpId, State.setPc, State.setDesc, ne]
    obtain rfl | ne := eq_or_ne a p
    · have outside : (s.pc r).phase a = .outside := by
        obtain rfl | ne := eq_or_ne r a
        · rw [here]; rfl
        · exact h.phase_of_holds own ne
      unfold Copied
      rw [same, outside]
      intro all _
      have le := h.bound r a
      have all : s.seen r a = s.edits a + 1 := by simpa [State.bumpId, State.setPc, State.setDesc] using all
      omega
    · refine (h.copied r a).frame same ?_ ?_ rfl rfl ?_
      · simp [State.bumpId, State.setPc, State.setDesc, ne]
      · simp only [State.bumpId, State.setPc, State.setDesc, Function.update_of_ne ne]
        exact .refl _
      · simp [State.bumpId, State.setPc, State.setDesc, ne]

/-- A step of an origin inside the critical section of `q` that changes its copy of that list. -/
theorem reading (h : Inv s) {next : Pc n} {C : Cached} (holds : (s.pc p).holds p = some q)
    (stays : next.holds p = some q) (clean : (s.pc p).dirty = false)
    (sameId : C.dynamicId = (s.desc q).dynamicId) (shape : Shape (s.desc p) next)
    (others : ∀ a, a ≠ q → (s.pc p).phase a = .outside ∧ next.phase a = .outside)
    (copied : Copied (((s.setSeen p q).setCached p q C).setPc p next) p q) :
    Inv (((s.setSeen p q).setCached p q C).setPc p next) := by
  refine ⟨fun r a mine => ?_, fun a => ?_, h.counted, fun r a => ?_, fun r a => ?_, fun r a => ?_⟩
  · obtain rfl | ne := eq_or_ne r p
    · simp only [State.setPc, Function.update_self, stays] at mine
      exact h.owner r a (holds.trans mine)
    · exact h.owner r a (by simpa [State.setPc, State.setCached, State.setSeen, ne] using mine)
  · obtain rfl | ne := eq_or_ne a p
    · simpa [State.setPc, State.setCached, State.setSeen] using shape
    · simpa [State.setPc, State.setCached, State.setSeen, ne] using h.shape a
  · by_cases pair : r = p ∧ a = q
    · obtain ⟨rfl, rfl⟩ := pair
      exact (congrArg Cached.dynamicId (State.setCached_self _ r a C)).trans <|
        (sameId.trans (h.counted a)).trans (congrArg _ (State.setSeen_self s r a).symm)
    · exact (congrArg Cached.dynamicId (State.setCached_of_ne pair)).trans <|
        (h.cachedId r a).trans (congrArg _ (State.setSeen_of_ne pair).symm)
  · by_cases pair : r = p ∧ a = q
    · obtain ⟨rfl, rfl⟩ := pair
      exact Nat.le_of_eq (State.setSeen_self s r a)
    · exact le_of_eq_of_le (State.setSeen_of_ne pair) (h.bound r a)
  · by_cases pair : r = p ∧ a = q
    · obtain ⟨rfl, rfl⟩ := pair
      exact copied
    · refine (h.copied r a).frame ?_ ?_ (.refl _) (State.setCached_of_ne pair) (State.setSeen_of_ne pair) rfl
      · obtain rfl | ne := eq_or_ne r p
        · obtain ⟨before, after⟩ := others a fun eq => pair ⟨rfl, eq⟩
          simp [State.setPc, before, after]
        · simp [State.setPc, State.setCached, State.setSeen, ne]
      · obtain rfl | ne := eq_or_ne a p
        · exact fun _ => clean
        · simp [State.setPc, State.setCached, State.setSeen, ne]

/-- The list that an origin in the critical section reads is complete. -/
theorem linked_of_holds (h : Inv s) (holds : (s.pc p).holds p = some q) (own : (s.pc p).dirty = false) :
    ∃ as, Linked (s.desc q) as none :=
  (h.shape q).linked (h.clean holds own)

/-- Equal ids mean that no edit was missed. -/
theorem seen_all (h : Inv s) (few : s.edits q < s.seen p q + 4294967296)
    (same : (s.desc q).dynamicId = (s.dynamicList p q).dynamicId) : s.seen p q = s.edits q := by
  have le := h.bound p q
  rw [h.counted q, h.cachedId p q] at same
  have wrapped := congrArg BitVec.toNat same
  simp only [BitVec.toNat_ofNat] at wrapped
  omega

/-- Looking at the id. -/
theorem readId (h : Inv s) (here : s.pc p = .fetchId q) (few : s.edits q < s.seen p q + 4294967296) :
    Inv (s.readId p q) := by
  have holds : (s.pc p).holds p = some q := by rw [here]; rfl
  have own : (s.pc p).dirty = false := by rw [here]; rfl
  obtain ⟨as, linked⟩ := (h.shape p).linked own
  unfold State.readId
  by_cases same : (s.desc q).dynamicId = (s.dynamicList p q).dynamicId
  · have all := h.seen_all few same
    have kept : s.setSeen p q = s := by simp [State.setSeen, ← all]
    have copied := h.copied p q
    simp only [Copied, here, Pc.phase] at copied
    simp only [if_pos same]
    rw [kept, ← State.setSeen_setCached all]
    refine h.reading holds rfl own same.symm ⟨as, linked⟩ (fun a ne => ?_) ?_
    · simp [here, Pc.phase, ne.symm]
    · rw [State.setSeen_setCached all]
      simp only [Copied, State.setPc, Function.update_self, Pc.phase, if_true]
      exact ⟨all, copied all (h.clean holds own)⟩
  · simp only [if_neg same]
    refine h.reading holds rfl own rfl ⟨as, linked⟩ (fun a ne => ?_) ?_
    · simp [here, Pc.phase, ne.symm]
    · simp [Copied, State.setPc, Pc.phase, State.copy, State.setCached, State.setSeen]

/-- The place of an origin that has followed a pointer of the list. -/
theorem phase_follow (q : Fin n) (seg : Seg) (ptr : Option Addr) :
    (State.follow q seg ptr).holds p = some q ∧ (∀ a, a ≠ q → (State.follow q seg ptr).phase a = .outside) ∧
      (State.follow q seg ptr).phase q = ptr.elim .complete .partly := by
  cases ptr <;> simp +contextual [State.follow, Pc.holds, Pc.phase, ne_comm]

/-- A copy of the nodes up to a pointer of the list, at the place that follows the pointer. -/
theorem copied_follow (as : List Addr) (seg : Seg) {bs : List Addr} {ptr : Option Addr}
    (pc : t.pc p = State.follow q seg ptr) (seen : t.seen p q = t.edits q)
    (linked : Linked (t.desc q) (as ++ bs) none) (rest : Path (t.desc q).links ptr bs none)
    (copy : (t.desc q).regions as = t.copy p q) : Copied t p q := by
  have phase := (phase_follow (p := p) q seg ptr).2.2
  unfold Copied
  rw [pc, phase]
  cases bs with
  | nil =>
    obtain rfl := Path.nil_iff.mp rest
    rw [List.append_nil] at linked
    exact ⟨seen, as, linked, copy⟩
  | cons b bs =>
    obtain rfl := rest.1
    exact ⟨seen, as, bs, linked, copy⟩

theorem shape_follow {as : List Addr} {D : Desc} {seg : Seg} {ptr : Option Addr} (h : Linked D as none) :
    Shape D (State.follow q seg ptr) := by
  cases ptr <;> exact ⟨as, h⟩

/-- Reading the pointer to the first node. -/
theorem readHead (h : Inv s) (here : s.pc p = .fetchHead q) :
    Inv (s.setPc p (State.follow q (s.desc q).winDynamicMemRegionsSeg (s.desc q).winDynamicMemRegions)) := by
  have holds : (s.pc p).holds p = some q := by rw [here]; rfl
  have own : (s.pc p).dirty = false := by rw [here]; rfl
  obtain ⟨as, linked⟩ := h.linked_of_holds holds own
  obtain ⟨bs, mine⟩ := (h.shape p).linked own
  have copied := h.copied p q
  simp only [Copied, here, Pc.phase, if_true] at copied
  obtain ⟨all, empty⟩ := copied
  obtain ⟨stays, others, -⟩ := phase_follow (p := p) q (s.desc q).winDynamicMemRegionsSeg
    (s.desc q).winDynamicMemRegions
  rw [← State.setSeen_setCached all]
  have sameId : (s.dynamicList p q).dynamicId = (s.desc q).dynamicId := by
    rw [h.cachedId p q, all, h.counted q]
  refine h.reading holds stays own sameId (shape_follow mine) (fun a ne => ?_) ?_
  · exact ⟨by simp [here, Pc.phase, ne.symm], others a ne⟩
  · rw [State.setSeen_setCached all]
    refine copied_follow [] (s.desc q).winDynamicMemRegionsSeg ?_ all linked linked.path empty.symm
    simp [State.setPc]

/-- Reading one node. -/
theorem readNode (h : Inv s) {a : Addr} {seg : Seg} (here : s.pc p = .fetchNode q a seg) :
    Inv (s.readNode p q a) := by
  have holds : (s.pc p).holds p = some q := by rw [here]; rfl
  have own : (s.pc p).dirty = false := by rw [here]; rfl
  obtain ⟨cs, mine⟩ := (h.shape p).linked own
  have copied := h.copied p q
  simp only [Copied, here, Pc.phase, if_true] at copied
  obtain ⟨all, as, bs, linked, copy⟩ := copied
  obtain ⟨stays, others, -⟩ := phase_follow (p := p) q ((s.desc q).heap a).nextSeg ((s.desc q).heap a).next
  have kept : s.setSeen p q = s := by simp [State.setSeen, ← all]
  have sameId : (s.dynamicList p q).dynamicId = (s.desc q).dynamicId := by
    rw [h.cachedId p q, all, h.counted q]
  unfold State.readNode
  conv in s.setCached => rw [← kept]
  refine h.reading holds stays own sameId (shape_follow mine) (fun b ne => ?_) ?_
  · exact ⟨by simp [here, Pc.phase, ne.symm], others b ne⟩
  · rw [kept]
    refine copied_follow (as ++ [a]) ((s.desc q).heap a).nextSeg ?_ all ?_ linked.path.split.2 ?_
    · simp [State.setPc, Desc.links]
    · simpa [State.setPc, State.setCached] using linked
    · have step : ((s.desc q).regions as) ++ [((s.desc q).heap a).toMemRegion] =
          s.copy p q ++ [((s.desc q).heap a).toMemRegion] := by rw [copy]
      simpa [Desc.regions, State.copy, State.setPc, State.setCached] using step

/-- Every step keeps the invariant. -/
theorem keep (h : Inv s) {a : Action n} (move : step s a = some t) (few : fewEdits s a t) : Inv t := by
  cases a with
  | call p c =>
    simp only [step] at move
    split at move
    · rename_i code here
      cases move
      exact h.call here c
    · contradiction
  | run p x =>
    cases Moves.of_runStep (x := x) move with
    | spin => exact h
    | enter waits free => exact h.enter waits free
    | leave exit => exact h.leave exit
    | bump here => exact h.bump here
    | readId here => exact h.readId here (few _ here)
    | readHead here => exact h.readHead here
    | readNode here => exact h.readNode here
    | edit own => exact h.edit own

theorem of_reach {heap : Fin n → Addr → Element} (run : Reach step fewEdits (Dynamic.init heap) s) : Inv s :=
  run.invariant (init heap) fun _ _ _ h move few => h.keep move few

end Inv

/-- Whenever `get_dynamic_window_regions` returns, the copy of the origin says node for node what
the list of the target says at that moment, in which the origin still holds the mutex. -/
theorem cached_regions_current {heap : Fin n → Addr → Element} {s t : State n} {p q : Fin n} {x : Answer}
    (run : Reach step fewEdits (init heap) s) (here : s.pc p = .fetchRelease q)
    (returns : step s (.run p x) = some t) :
    (s.desc q).dynamicMutex = p ∧ t.pc p = .done .success ∧
      (s.desc q).Represents (t.copy p q) ∧ (t.desc q).Represents (t.copy p q) := by
  have inv := Inv.of_reach run
  have after := inv.keep returns fun r fetch => by simp [here] at fetch
  have copied := inv.copied p q
  simp only [Copied, here, Pc.phase, if_true] at copied
  simp only [step, runStep, here] at returns
  cases returns
  have mutex := inv.owner p q (by rw [here]; rfl)
  refine ⟨mutex, by simp [State.release, State.setPc], copied.2, ?_⟩
  have same : SameList (s.desc q) ((s.release p q).desc q) := (SameList.acswap _ _ _).update q
  exact same.represents copied.2

/-- Process `q` attaches a region, process `p` fetches the list and is about to return. -/
def fetching (p q : Fin n) : List (Action n) :=
  [.call q (.attach 64 8), .call p (.fetch q)] ++
    List.replicate 6 (.run q ⟨7, ⟨⟨0, 0, 0⟩, 0, some 3⟩, 5⟩) ++
    List.replicate 4 (.run p ⟨0, ⟨⟨0, 0, 0⟩, 0, none⟩, 0⟩)

theorem cached_regions_current_one_region : ∃ s t : State 2,
    Reach step fewEdits (init fun _ _ => ⟨⟨0, 0, 0⟩, 0, none⟩) s ∧
      step s (.run 1 ⟨0, ⟨⟨0, 0, 0⟩, 0, none⟩, 0⟩) = some t ∧ t.copy 1 0 = [⟨5, 64, 8⟩] ∧
      (t.desc 0).Represents (t.copy 1 0) := by
  have ran : (execWhen step (fun (s : State 2) a _ => match a with
        | .run p _ => decide (∀ q, s.pc p = .fetchId q → s.edits q < s.seen p q + 4294967296)
        | .call _ _ => true) (init fun _ _ => ⟨⟨0, 0, 0⟩, 0, none⟩) (fetching (1 : Fin 2) 0)).map
      (fun s => (s.pc 1, s.copy 1 0)) = some (.fetchRelease 0, [⟨5, 64, 8⟩]) := by
    decide +kernel
  obtain ⟨s, run, seen⟩ := Option.map_eq_some_iff.mp ran
  obtain ⟨here, copy⟩ := Prod.mk.inj seen
  have reached : Reach step fewEdits (init fun _ _ => ⟨⟨0, 0, 0⟩, 0, none⟩) s :=
    Reach.of_execWhen (fun s a t h => match a with
      | .run _ _ => by simpa only [fewEdits, decide_eq_true_eq] using h
      | .call _ _ => trivial) (fetching 1 0) run
  obtain ⟨t, returns⟩ : ∃ t, step s (.run 1 ⟨0, ⟨⟨0, 0, 0⟩, 0, none⟩, 0⟩) = some t := by
    simp [step, runStep, here]
  have kept : t.copy 1 0 = s.copy 1 0 := by
    simp only [step, runStep, here] at returns
    cases returns
    rfl
  exact ⟨s, t, reached, returns, kept.trans copy, (cached_regions_current reached here returns).2.2.2⟩

end FoMPI.Dynamic
