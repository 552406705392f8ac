import FoMPI.Dynamic.Detach
import FoMPI.Dynamic.Tracked

/-!
# One registration for each node and one for each region

The descriptor of a node stands before it, in its predecessor or in the window, so an
edit moves descriptors between nodes. At every place of the owner the registry holds
what the list says, and an unregistration finds its registration.
-/
namespace FoMPI.Dynamic
open FoMPI.Foundation

variable {n : ℕ} {D D' : Desc} {R : Registrations} {l : List (ℤ × ℤ)} {as bs : List Addr}
  {a previous current : Addr} {x : Answer} {base size : ℤ}

section Blocks

variable {heap heap' : Addr → Element} {seg : Seg}

/-- The descriptor that stands before what follows the nodes `as`. -/
def tailSeg (heap : Addr → Element) : Seg → List Addr → Seg
  | seg, [] => seg
  | _, a :: as => tailSeg heap (heap a).nextSeg as

theorem nodeBlocks_append (seg : Seg) (as bs : List Addr) : nodeBlocks heap seg (as ++ bs) =
    nodeBlocks heap seg as ++ nodeBlocks heap (tailSeg heap seg as) bs := by
  induction as generalizing seg with
  | nil => rfl
  | cons a as ih => simp only [List.cons_append, nodeBlocks, tailSeg, ih]

@[simp] theorem tailSeg_concat (seg : Seg) (as : List Addr) (a : Addr) :
    tailSeg heap seg (as ++ [a]) = (heap a).nextSeg := by
  induction as generalizing seg with
  | nil => rfl
  | cons b as ih => exact ih _

theorem nodeBlocks_congr (seg : Seg) (agree : ∀ a ∈ as, (heap' a).nextSeg = (heap a).nextSeg) :
    nodeBlocks heap' seg as = nodeBlocks heap seg as ∧ tailSeg heap' seg as = tailSeg heap seg as := by
  induction as generalizing seg with
  | nil => exact ⟨rfl, rfl⟩
  | cons a as ih =>
    obtain ⟨blocks, tail⟩ := ih (heap a).nextSeg fun b hb => agree b (List.mem_cons_of_mem _ hb)
    simp only [nodeBlocks, tailSeg, agree a List.mem_cons_self, blocks, tail, and_self]

/-- What stands behind the last node does not matter for the nodes. -/
theorem nodeBlocks_concat_congr (agree : ∀ b ∈ as, (heap' b).nextSeg = (heap b).nextSeg) :
    nodeBlocks heap' seg (as ++ [a]) = nodeBlocks heap seg (as ++ [a]) := by
  obtain ⟨blocks, tail⟩ := nodeBlocks_congr seg agree
  rw [nodeBlocks_append, nodeBlocks_append, blocks, tail]
  rfl

theorem memoryBlocks_congr (agree : ∀ a ∈ as, (heap' a).toMemRegion = (heap a).toMemRegion) :
    memoryBlocks heap' as = memoryBlocks heap as := by
  apply List.map_congr_left
  intro a ha
  have same := agree a ha
  rw [MemRegion.mk.injEq] at same
  rw [same.1, same.2.1, same.2.2]

theorem extents_congr (agree : ∀ a ∈ as, (D'.heap a).toMemRegion = (D.heap a).toMemRegion) :
    D'.extents as = D.extents as := by
  apply List.map_congr_left
  intro a ha
  have same := agree a ha
  rw [MemRegion.mk.injEq] at same
  rw [same.2.1, same.2.2]

end Blocks

namespace Linked

/-- The new node stands behind a descriptor of its own, and the regions are the old ones. -/
theorem attachLink_blocks (h : Linked D as none) (made : D.attachLink x = some D') :
    nodeBlocks D'.heap D'.winDynamicMemRegionsSeg (as ++ [x.addr]) =
        nodeBlocks D.heap D.winDynamicMemRegionsSeg as ++ [(x.seg, .node x.addr)] ∧
      ∀ a ∈ as, (D'.heap a).toMemRegion = (D.heap a).toMemRegion := by
  obtain ⟨fresh, E, rfl, ⟨empty, rfl⟩ | ⟨last, full, rfl⟩⟩ := Desc.attachLink_cases made
  · obtain rfl := h.eq_nil empty
    exact ⟨rfl, by simp⟩
  · obtain ⟨front, rfl⟩ := h.eq_concat full
    have off : ∀ b ∈ front ++ [last], b ≠ x.addr := fun b mem eq => fresh (eq ▸ h.live _ mem)
    have ends : last ∉ front := by simpa using h.notMem_append
    refine ⟨?_, fun b mem => ?_⟩
    · rw [nodeBlocks_append, tailSeg_concat]
      congr 1
      · refine nodeBlocks_concat_congr fun b mem => ?_
        have old := off b (List.mem_append_left _ mem)
        simp [Desc.memRegister, Desc.write, ne_of_mem_of_not_mem mem ends, old]
      · simp [Desc.memRegister, Desc.write, nodeBlocks]
    · obtain rfl | ne := eq_or_ne b last
      · simp [Desc.memRegister, Desc.write, off b mem]
      · simp [Desc.memRegister, Desc.write, off b mem, ne]

/-- The last node gets its region; the nodes stay behind their descriptors. -/
theorem attachDescribe_blocks {e : Option Addr} (h : Linked D (as ++ [a]) e)
    (made : D.attachDescribe base size x = some D') :
    D'.blocks (as ++ [a]) = nodeBlocks D.heap D.winDynamicMemRegionsSeg (as ++ [a]) ++
        (memoryBlocks D.heap as ++ [(x.seg, .memory base size)]) ∧
      D'.extents (as ++ [a]) = D.extents as ++ [(base, size)] := by
  obtain ⟨last, full, rfl⟩ := Option.map_eq_some_iff.mp made
  obtain rfl : a = last := by
    rw [h.last] at full
    simpa using full
  have off : ∀ b ∈ as, b ≠ a := fun b mem => (List.nodup_append.mp h.nodup).2.2 b mem a (by simp)
  constructor
  · simp only [Desc.blocks, Desc.memRegister, Desc.write, memoryBlocks, List.map_append, List.map_cons,
      List.map_nil, Function.update_self]
    congr 1
    · refine nodeBlocks_concat_congr fun b mem => ?_
      rw [Function.update_of_ne (off b mem)]
    · congr 1
      refine memoryBlocks_congr fun b mem => ?_
      rw [Function.update_of_ne (off b mem)]
  · simp only [Desc.extents, Desc.memRegister, Desc.write, List.map_append, List.map_cons, List.map_nil,
      Function.update_self]
    congr 1
    apply List.map_congr_left
    intro b mem
    rw [Function.update_of_ne (off b mem)]

/-- The pointer of the last node is no part of what is registered. -/
theorem attachTerminate_blocks (made : D.attachTerminate = some D') (as : List Addr) :
    D'.blocks as = D.blocks as ∧ D'.extents as = D.extents as := by
  obtain ⟨last, -, rfl⟩ := Option.map_eq_some_iff.mp made
  have same : ∀ b, ((D.write last { D.heap last with next := none }).heap b).toMemRegion = (D.heap b).toMemRegion ∧
      ((D.write last { D.heap last with next := none }).heap b).nextSeg = (D.heap b).nextSeg := by
    intro b
    obtain rfl | ne := eq_or_ne b last
    · simp [Desc.write]
    · simp [Desc.write, ne]
  refine ⟨?_, extents_congr fun b _ => (same b).1⟩
  rw [Desc.blocks, (nodeBlocks_congr _ fun b _ => (same b).2).1, memoryBlocks_congr fun b _ => (same b).1]
  rfl

/-- Taking a node out leaves its predecessor with the descriptor of its successor. -/
theorem detachUnlink_blocks (h : Linked D (as ++ current :: bs) none) (before : Before previous as current) :
    nodeBlocks (D.detachUnlink previous current).heap (D.detachUnlink previous current).winDynamicMemRegionsSeg
        (as ++ bs) =
      nodeBlocks D.heap D.winDynamicMemRegionsSeg as ++ nodeBlocks D.heap (D.heap current).nextSeg bs ∧
    ∀ a, ((D.detachUnlink previous current).heap a).toMemRegion = (D.heap a).toMemRegion := by
  unfold Desc.detachUnlink
  obtain ⟨rfl, head⟩ | ⟨⟨front, rfl⟩, head⟩ := h.anchor before
  · rw [if_pos head]
    obtain ⟨rfl, last⟩ | ⟨-, last⟩ := h.tail
    · rw [if_pos last]
      exact ⟨rfl, fun _ => rfl⟩
    · rw [if_neg last]
      exact ⟨rfl, fun _ => rfl⟩
  · rw [if_neg head]
    have once : previous ∉ front ∧ previous ∉ bs := by
      have distinct := h.nodup
      simp only [List.append_assoc, List.cons_append, List.nil_append, List.nodup_append, List.nodup_cons,
        List.mem_cons, not_or] at distinct
      exact ⟨fun mem => distinct.2.2 previous mem previous (.inl rfl) rfl, distinct.2.1.1.2⟩
    obtain ⟨rfl, last⟩ | ⟨-, last⟩ := h.tail
    · rw [if_pos last]
      refine ⟨?_, fun b => ?_⟩
      · rw [List.append_nil, nodeBlocks, List.append_nil]
        refine nodeBlocks_concat_congr fun b mem => ?_
        simp [Desc.memUnregister, Desc.write, ne_of_mem_of_not_mem mem once.1]
      · obtain rfl | ne := eq_or_ne b previous
        · simp [Desc.memUnregister, Desc.write]
        · simp [Desc.memUnregister, Desc.write, ne]
    · rw [if_neg last]
      refine ⟨?_, fun b => ?_⟩
      · rw [nodeBlocks_append, tailSeg_concat]
        congr 1
        · refine nodeBlocks_concat_congr fun b mem => ?_
          simp [Desc.memUnregister, Desc.write, ne_of_mem_of_not_mem mem once.1]
        · simp only [Desc.memUnregister, Desc.write, Function.update_self]
          refine (nodeBlocks_congr _ fun b mem => ?_).1
          rw [Function.update_of_ne (ne_of_mem_of_not_mem mem once.2)]
      · obtain rfl | ne := eq_or_ne b previous
        · simp [Desc.memUnregister, Desc.write]
        · simp [Desc.memUnregister, Desc.write, ne]

end Linked

/-- The list is `as`, its nodes and regions are registered once each, and it has what the calls
prescribe. -/
structure Account (D : Desc) (R : Registrations) (l : List (ℤ × ℤ)) (as : List Addr) : Prop where
  linked : Linked D as none
  registered : R.entries.Perm (D.blocks as)
  extents : D.extents as = l

/-- The list and the registry of a process at each place of its owner. -/
def Booked (D : Desc) (R : Registrations) (l : List (ℤ × ℤ)) : Pc n → Prop
  | .attachDescribe base size => ∃ as a e, Linked D (as ++ [a]) e ∧
    R.entries.Perm (nodeBlocks D.heap D.winDynamicMemRegionsSeg (as ++ [a]) ++ memoryBlocks D.heap as) ∧
    D.extents as ++ [(base, size)] = l
  | .attachTerminate => ∃ as e, Linked D as e ∧ R.entries.Perm (D.blocks as) ∧ D.extents as = l
  | .detachSearch base previous current => ∃ as bs, Account D R l (as ++ current :: bs) ∧
    Before previous as current ∧ ∀ a ∈ as, (D.heap a).base ≠ base
  | .detachUnlink previous current => ∃ as bs, Linked D (as ++ current :: bs) none ∧
    Before previous as current ∧ R.entries.Perm (D.blocks (as ++ current :: bs)) ∧ D.extents (as ++ bs) = l
  | .detachFree current => ∃ as, Account D R l as ∧ current ∉ as
  | _ => ∃ as, Account D R l as

/-- A place outside the edits. -/
def Pc.rests : Pc n → Bool
  | .attachDescribe .. | .attachTerminate | .detachSearch .. | .detachUnlink .. | .detachFree _ => false
  | _ => true

theorem Booked.account {pc : Pc n} (h : Booked D R l pc) (rests : pc.rests = true) : ∃ as, Account D R l as := by
  cases pc
  case attachDescribe | attachTerminate | detachSearch | detachUnlink | detachFree => contradiction
  all_goals exact h

theorem Booked.of_account {pc : Pc n} (h : Account D R l as) (rests : pc.rests = true) : Booked D R l pc := by
  cases pc
  case attachDescribe | attachTerminate | detachSearch | detachUnlink | detachFree => contradiction
  all_goals exact ⟨as, h⟩

theorem Account.frame (h : Account D R l as) (same : SameList D D') : Account D' R l as := by
  obtain ⟨m, i, rfl⟩ := same
  exact ⟨⟨h.linked.path, h.linked.last, h.linked.live, h.linked.nodup⟩, h.registered, h.extents⟩

theorem Booked.frame {pc : Pc n} (h : Booked D R l pc) (same : SameList D D') : Booked D' R l pc := by
  cases pc
  case attachDescribe =>
    obtain ⟨as, a, e, linked, registered, extents⟩ := h
    have linked' := same.linked linked
    obtain ⟨m, i, rfl⟩ := same
    exact ⟨as, a, e, linked', registered, extents⟩
  case attachTerminate =>
    obtain ⟨as, e, linked, registered, extents⟩ := h
    have linked' := same.linked linked
    obtain ⟨m, i, rfl⟩ := same
    exact ⟨as, e, linked', registered, extents⟩
  case detachSearch =>
    obtain ⟨as, bs, account, before, miss⟩ := h
    have account' := account.frame same
    obtain ⟨m, i, rfl⟩ := same
    exact ⟨as, bs, account', before, miss⟩
  case detachUnlink =>
    obtain ⟨as, bs, linked, before, registered, extents⟩ := h
    have linked' := same.linked linked
    obtain ⟨m, i, rfl⟩ := same
    exact ⟨as, bs, linked', before, registered, extents⟩
  case detachFree =>
    obtain ⟨as, account, off⟩ := h
    exact ⟨as, account.frame same, off⟩
  all_goals
    obtain ⟨as, account⟩ := h
    exact ⟨as, account.frame same⟩

namespace Account

theorem attachLink (h : Account D R l as) (sound : R.Sound) (made : D.attachLink x = some D')
    (named : ∀ r ∈ R.entries, r.1 = x.seg → r.2 = .node x.addr) :
    (R.register x.seg (.node x.addr)).Sound ∧
      Booked D' (R.register x.seg (.node x.addr)) (l ++ [(base, size)])
        (.attachDescribe base size : Pc n) := by
  obtain ⟨e, linked⟩ := h.linked.attachLink made
  obtain ⟨nodes, regions⟩ := h.linked.attachLink_blocks made
  refine ⟨sound.register named, as, x.addr, e, linked, ?_, ?_⟩
  · rw [nodes, memoryBlocks_congr regions, List.append_assoc]
    exact (h.registered.cons _).trans List.perm_middle.symm
  · rw [extents_congr regions, h.extents]

/-- Taking out a node ends its registration and that of its region. -/
theorem detachUnlink (linked : Linked D (as ++ current :: bs) none) (before : Before previous as current)
    (registered : R.entries.Perm (D.blocks (as ++ current :: bs))) (extents : D.extents (as ++ bs) = l)
    (sound : R.Sound) :
    (R.run (events D x (.detachUnlink previous current : Pc n))).Sound ∧
      Account (D.detachUnlink previous current) (R.run (events D x (.detachUnlink previous current : Pc n))) l
        (as ++ bs) := by
  obtain ⟨nodes, regions⟩ := linked.detachUnlink_blocks before
  have blocks : R.entries.Perm ((tailSeg D.heap D.winDynamicMemRegionsSeg as, .node current) ::
      ((D.heap current).seg, .memory (D.heap current).base (D.heap current).size) ::
        (D.detachUnlink previous current).blocks (as ++ bs)) := by
    refine registered.trans ?_
    rw [Desc.blocks, Desc.blocks, nodes, nodeBlocks_append, nodeBlocks, memoryBlocks_congr fun a _ => regions a]
    simp only [memoryBlocks, List.map_append, List.map_cons, List.append_assoc, List.cons_append]
    refine List.perm_middle.trans (.cons _ ?_)
    rw [← List.append_assoc, ← List.append_assoc, ← List.append_assoc]
    exact List.perm_middle.trans (.of_eq (by simp))
  have closed : (R.run (events D x (.detachUnlink previous current : Pc n))).Sound ∧
      (R.run (events D x (.detachUnlink previous current : Pc n))).entries.Perm
        ((D.detachUnlink previous current).blocks (as ++ bs)) := by
    obtain ⟨rfl, head⟩ | ⟨⟨front, rfl⟩, head⟩ := linked.anchor before
    · rw [events, if_pos head]
      exact sound.unregister_two (blocks.trans (.swap _ _ _))
    · rw [events, if_neg head]
      rw [tailSeg_concat] at blocks
      exact sound.unregister_two blocks
  exact ⟨closed.1, linked.detachUnlink before, closed.2, by rw [extents_congr fun a _ => regions a, extents]⟩

end Account

/-- A step of the owner on its list keeps the account. -/
theorem LocalStep.booked {pc next : Pc n} (h : LocalStep D x pc D' next) (sound : R.Sound)
    (booked : Booked D R l pc)
    (named : ∀ k v, .register k v ∈ events D x pc → ∀ r ∈ R.entries, r.1 = k → r.2 = v) :
    (R.run (events D x pc)).Sound ∧ Booked D' (R.run (events D x pc)) (prescribed l pc next) next := by
  cases h
  case attachLink base size made =>
    obtain ⟨as, account⟩ := booked
    exact account.attachLink sound made (named _ _ (by simp [events]))
  case attachDescribe base size made =>
    obtain ⟨as, a, e, linked, registered, extents⟩ := booked
    obtain ⟨blocks, described⟩ := linked.attachDescribe_blocks made
    refine ⟨sound.register (named _ _ (by simp [events])), _, e, linked.attachDescribe made, ?_, described.trans extents⟩
    rw [blocks, ← List.append_assoc]
    exact (registered.cons _).trans (List.perm_append_singleton _ _).symm
  case attachTerminate made =>
    obtain ⟨as, e, linked, registered, extents⟩ := booked
    obtain ⟨blocks, described⟩ := Linked.attachTerminate_blocks made as
    exact ⟨sound, as, linked.attachTerminate made, blocks ▸ registered, described.trans extents⟩
  case detachEmpty => exact ⟨sound, booked⟩
  case detachHead a first =>
    obtain ⟨as, account⟩ := booked
    obtain ⟨bs, rfl⟩ := account.linked.eq_cons first
    exact ⟨sound, [], bs, account, rfl, by simp⟩
  case detachFound base previous current hit =>
    obtain ⟨as, bs, account, before, miss⟩ := booked
    refine ⟨sound, as, bs, account.linked, before, account.registered, ?_⟩
    rw [← account.extents]
    simp only [prescribed, Desc.extents, List.map_append, List.map_cons]
    rw [List.eraseP_append_right, List.eraseP_cons_of_pos (by simpa using hit)]
    intro r hr
    obtain ⟨b, mem, rfl⟩ := List.mem_map.mp hr
    simpa using miss b mem
  case detachNext base previous current a miss more =>
    obtain ⟨as, bs, account, -, earlier⟩ := booked
    obtain ⟨cs, rfl⟩ := account.linked.next_eq_cons more
    have account' : Account D R l ((as ++ [current]) ++ a :: cs) := by simpa using account
    refine ⟨sound, as ++ [current], cs, account', by simp [Before], fun b mem => ?_⟩
    obtain mem | mem := List.mem_append.mp mem
    · exact earlier b mem
    · exact List.mem_singleton.mp mem ▸ miss
  case detachMissing =>
    obtain ⟨as, bs, account, -⟩ := booked
    exact ⟨sound, _, account⟩
  case detachUnlink previous current =>
    obtain ⟨as, bs, linked, before, registered, extents⟩ := booked
    obtain ⟨sound', account⟩ := Account.detachUnlink linked before registered extents sound
    exact ⟨sound', _, account, linked.notMem_append⟩
  case detachFree current =>
    obtain ⟨as, account, off⟩ := booked
    exact ⟨sound, as, account.linked.free off, account.registered, account.extents⟩

/-- The registrations that a step leaves are those of its events. -/
theorem LocalStep.registrations {pc next : Pc n} (h : LocalStep D x pc D' next) :
    D'.registrations = D.registrations.run (events D x pc) := by
  cases h
  case attachLink made =>
    obtain ⟨-, E, rfl, ⟨-, rfl⟩ | ⟨last, -, rfl⟩⟩ := Desc.attachLink_cases made
    · rfl
    · rfl
  case attachDescribe made | attachTerminate made =>
    obtain ⟨last, -, rfl⟩ := Option.map_eq_some_iff.mp made
    rfl
  case detachUnlink previous current =>
    unfold Desc.detachUnlink
    by_cases head : D.winDynamicMemRegions = some current
    · rw [events, if_pos head, if_pos head]
      split <;> rfl
    · rw [events, if_neg head, if_neg head]
      split <;> rfl
  all_goals rfl

section Runs

variable {s t : State n} {p q : Fin n} {S T : Tracked n}

/-- A step of the owner is one on its list, or leaves the list and the registrations alone. -/
theorem Moves.own (h : Moves s p x t) : LocalStep (s.desc p) x (s.pc p) (t.desc p) (t.pc p) ∨
    SameList (s.desc p) (t.desc p) ∧ (s.pc p).rests = true ∧ (t.pc p).rests = true ∧
      ∀ l, prescribed l (s.pc p) (t.pc p) = l := by
  cases h with
  | @spin q next waits taken =>
    right
    cases here : s.pc p <;> simp_all [Pc.entry, Pc.rests, prescribed, SameList.refl]
  | @enter q next waits free =>
    right
    have same : SameList (s.desc q) { s.desc q with dynamicMutex := p } := ⟨p, (s.desc q).dynamicId, rfl⟩
    rw [State.setPc_pc_self]
    refine ⟨same.update p, ?_⟩
    cases here : s.pc p <;> simp only [here, Pc.entry, Option.some.injEq, Prod.mk.injEq, reduceCtorEq] at waits
    all_goals
      obtain ⟨rfl, rfl⟩ := waits
      exact ⟨rfl, rfl, fun _ => rfl⟩
  | @leave q exit =>
    right
    have same : SameList (s.desc p) ((s.release p q).desc p) := (SameList.acswap _ _ _).update p
    rw [State.release, State.setPc_pc_self]
    refine ⟨same, ?_⟩
    cases here : s.pc p <;> simp_all [Pc.exit, Pc.rests, prescribed]
  | bump here =>
    right
    rw [here]
    simp only [State.bumpId, State.setPc, State.setDesc, Function.update_self]
    exact ⟨⟨_, _, rfl⟩, rfl, rfl, fun _ => rfl⟩
  | readId here =>
    right
    rw [here]
    unfold State.readId
    split
    all_goals
      rw [State.setPc_pc_self]
      exact ⟨.refl _, rfl, rfl, fun _ => rfl⟩
  | @readHead q here =>
    right
    rw [here, State.setPc_pc_self]
    refine ⟨.refl _, rfl, ?_, fun _ => rfl⟩
    cases (s.desc q).winDynamicMemRegions <;> rfl
  | @readNode q a seg here =>
    right
    rw [here, State.readNode, State.setPc_pc_self]
    refine ⟨.refl _, rfl, ?_, fun _ => rfl⟩
    cases ((s.desc q).heap a).next <;> rfl
  | edit move =>
    left
    rw [State.setPc_pc_self]
    simpa [State.setPc, State.setDesc] using move

/-- All processes have their lists and registries in order. -/
structure Tracked.Kept (S : Tracked n) : Prop where
  sound : ∀ q, (S.registry q).Sound
  booked : ∀ q, Booked (S.state.desc q) (S.registry q) (S.attached q) (S.state.pc q)

theorem Tracked.Kept.init (heap : Fin n → Addr → Element) : (Tracked.init heap).Kept where
  sound _ := .empty
  booked _ := ⟨[], ⟨rfl, rfl, by simp, List.nodup_nil⟩, .refl _, rfl⟩

theorem Tracked.Kept.step (h : S.Kept) {a : Action n} (move : S.step a = some T) (named : Named S a T) : T.Kept := by
  obtain ⟨t, moved, rfl⟩ := Option.map_eq_some_iff.mp move
  cases a with
  | call p c =>
    simp only [Dynamic.step] at moved
    split at moved
    · rename_i code here
      cases moved
      refine ⟨h.sound, fun q => ?_⟩
      have booked := h.booked q
      obtain rfl | ne := eq_or_ne q p
      · rw [here] at booked
        obtain ⟨as, account⟩ := booked
        rw [State.setPc_pc_self]
        exact .of_account account (by cases c <;> rfl)
      · simpa [Tracked.registry, State.setPc, ne] using booked
    · contradiction
  | run p x =>
    have moves := Moves.of_runStep (x := x) moved
    have kept : (t.desc p).registrations.Sound ∧
        Booked (t.desc p) (t.desc p).registrations (prescribed (S.attached p) (S.state.pc p) (t.pc p)) (t.pc p) := by
      obtain edit | ⟨same, rests, rests', quiet⟩ := moves.own
      · rw [edit.registrations]
        exact edit.booked (h.sound p) (h.booked p) named
      · rw [same.registrations, quiet]
        obtain ⟨as, account⟩ := (h.booked p).account rests
        exact ⟨h.sound p, .of_account (account.frame same) rests'⟩
    have others {q : Fin n} (ne : q ≠ p) : t.pc q = S.state.pc q ∧ SameList (S.state.desc q) (t.desc q) := by
      obtain ⟨pc, m, desc, -⟩ := moves.other ne
      exact ⟨pc, m, _, desc⟩
    refine ⟨fun q => ?_, fun q => ?_⟩
    · obtain rfl | ne := eq_or_ne q p
      · exact kept.1
      · rw [Tracked.registry, (others ne).2.registrations]
        exact h.sound q
    · obtain rfl | ne := eq_or_ne q p
      · simpa [Tracked.registry] using kept.2
      · obtain ⟨pc, same⟩ := others ne
        have booked := (h.booked q).frame same
        simpa [Tracked.registry, same.registrations, ne, pc] using booked

/-- A tracked run is a run of the processes. -/
theorem Tracked.run_state {heap : Fin n → Addr → Element} {allow : Tracked n → Action n → Tracked n → Prop}
    (run : Reach Tracked.step allow (Tracked.init heap) S) :
    Reach Dynamic.step always (Dynamic.init heap) S.state := by
  refine run.invariant (P := fun S => Reach Dynamic.step always (Dynamic.init heap) S.state) .refl
    fun S a T h move _ => ?_
  obtain ⟨t, moved, rfl⟩ := Option.map_eq_some_iff.mp move
  have reached : Reach Dynamic.step always (Dynamic.init heap) t := h.tail moved trivial
  cases a <;> exact reached

/-- The loop of `foMPI_Win_free` ends what the list has registered. -/
theorem winFree_closes (path : Path D.links D.winDynamicMemRegions as none) (sound : D.registrations.Sound)
    (registered : D.registrations.entries.Perm (D.blocks as)) {fuel : ℕ} (enough : as.length ≤ fuel) :
    ∃ D', Desc.winFree fuel D = some D' ∧ D'.winDynamicMemRegions = none ∧ D'.registrations.Sound ∧
      D'.registrations.entries = [] := by
  induction as generalizing D fuel with
  | nil =>
    have empty : D.winDynamicMemRegions = none := path
    refine ⟨D, ?_, empty, sound, List.Perm.eq_nil registered⟩
    cases fuel <;> simp [Desc.winFree, empty]
  | cons a as ih =>
    cases fuel with
    | zero => simp at enough
    | succ fuel =>
      have first : D.winDynamicMemRegions = some a := path.1
      have two : D.registrations.entries.Perm (((D.heap a).seg, .memory (D.heap a).base (D.heap a).size) ::
          (D.winDynamicMemRegionsSeg, .node a) :: (D.freeFirst a).blocks as) := by
        refine (registered.trans ?_).trans (.swap _ _ _)
        exact List.Perm.cons _ List.perm_middle
      obtain ⟨sound', left⟩ := sound.unregister_two two
      have rest : Path (D.freeFirst a).links (D.freeFirst a).winDynamicMemRegions as none := path.2
      obtain ⟨D', run, done⟩ := ih rest sound' left (Nat.le_of_succ_le_succ enough)
      exact ⟨D', by simp only [Desc.winFree, first, run], done⟩

/-- Between the calls of a process its list is what the calls prescribe, its last node is the one of
`dynamic_last`, and its registrations are one for each node, under the descriptor that stands before it,
and one for each region; no unregistration missed. `foMPI_Win_free` then ends all of them: every
registration that was ever made has been ended exactly once. -/
theorem registrations_consistent {heap : Fin n → Addr → Element} {code : Code}
    (run : Reach Tracked.step Named (Tracked.init heap) S) (idle : S.state.pc q = .done code) :
    ∃ as, Linked (S.state.desc q) as none ∧ ((S.state.desc q).dynamicLast = none ↔ as = []) ∧
      (S.state.desc q).extents as = S.attached q ∧
      (S.registry q).entries.Perm ((S.state.desc q).blocks as) ∧ (S.registry q).faults = 0 ∧
      ∃ D, Desc.winFree (S.state.desc q).allocated.length (S.state.desc q) = some D ∧
        D.winDynamicMemRegions = none ∧ D.registrations.entries = [] ∧ D.registrations.faults = 0 ∧
        D.registrations.closed.Perm (List.range D.registrations.issued) := by
  have kept : S.Kept := run.invariant (P := Tracked.Kept) (.init heap) fun _ _ _ h move named => h.step move named
  have booked := kept.booked q
  rw [idle] at booked
  obtain ⟨as, account⟩ := booked
  have enough : as.length ≤ (S.state.desc q).allocated.length :=
    (List.subperm_of_subset account.linked.nodup account.linked.live).length_le
  obtain ⟨D, freed, empty, sound, none⟩ :=
    winFree_closes account.linked.path (kept.sound q) account.registered enough
  refine ⟨as, account.linked, ?_, account.extents, account.registered, (kept.sound q).faultless, D, freed,
    empty, none, sound.faultless, sound.closed_perm none⟩
  rw [account.linked.last]
  exact List.getLast?_eq_none_iff

/-- The steps of an attach that is given the node `addr`, from its call to its return. -/
def attachCall (q : Fin n) (base size : ℤ) (addr : Addr) : List (Action n) :=
  let x : Answer := ⟨addr, ⟨⟨0, 0, 0⟩, 0, some addr⟩, 2 * addr⟩
  .call q (.attach base size) :: (List.replicate 2 x ++ List.replicate 4 { x with seg := 2 * addr + 1 }).map (.run q)

/-- The steps of a detach of the `i`-th region. -/
def detachCall (q : Fin n) (base : ℤ) (i : ℕ) : List (Action n) :=
  .call q (.detach base) :: List.replicate (7 + i) (.run q ⟨0, ⟨⟨0, 0, 0⟩, 0, none⟩, 0⟩)

/-- Three regions, the middle one detached and attached again with another size. -/
def reattaching : List (Action 1) :=
  attachCall 0 64 8 1 ++ attachCall 0 128 24 2 ++ attachCall 0 256 8 3 ++ detachCall 0 128 1 ++ attachCall 0 128 16 4

def namedCheck (S : Tracked n) (a : Action n) (_ : Tracked n) : Bool :=
  match a with
  | .run p x => (events (S.state.desc p) x (S.state.pc p)).all fun
    | .register k v => (S.registry p).entries.all fun r => r.1 ≠ k ∨ r.2 = v
    | .unregister _ => true
  | .call _ _ => true

theorem named_of_check (S : Tracked n) (a : Action n) (T : Tracked n) (h : namedCheck S a T = true) : Named S a T := by
  cases a with
  | call p c => trivial
  | run p x =>
    intro k v mem r hr same
    have checked := List.all_eq_true.mp (List.all_eq_true.mp h _ mem) r hr
    simpa [same] using checked

theorem registrations_consistent_reattached : ∃ S : Tracked 1,
    Reach Tracked.step Named (Tracked.init fun _ _ => ⟨⟨0, 0, 0⟩, 0, none⟩) S ∧
      S.attached 0 = [(64, 8), (256, 8), (128, 16)] ∧
      (S.registry 0).entries.length = 6 ∧
      (∃ as, Linked (S.state.desc 0) as none ∧ (S.state.desc 0).extents as = S.attached 0) ∧
      ∃ D, Desc.winFree (S.state.desc 0).allocated.length (S.state.desc 0) = some D ∧
        D.registrations.entries = [] := by
  have ran : (execWhen Tracked.step namedCheck (Tracked.init fun _ _ => ⟨⟨0, 0, 0⟩, 0, none⟩) reattaching).map
      (fun S => (S.state.pc 0, S.attached 0, (S.registry 0).entries.length)) =
        some (.done .success, [(64, 8), (256, 8), (128, 16)], 6) := by
    decide +kernel
  obtain ⟨S, run, seen⟩ := Option.map_eq_some_iff.mp ran
  obtain ⟨idle, attached, length⟩ := by simpa only [Prod.mk.injEq] using seen
  have reached := Reach.of_execWhen named_of_check reattaching run
  obtain ⟨as, linked, -, extents, -, -, D, freed, -, none, -⟩ := registrations_consistent reached idle
  exact ⟨S, reached, attached, length, ⟨as, linked, extents⟩, D, freed, none⟩

end Runs

end FoMPI.Dynamic
