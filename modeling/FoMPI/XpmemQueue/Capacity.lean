import FoMPI.XpmemQueue.Model

/-!
# Capacity of the on-node queue

In runs where the fullness test holds at the insertion itself the queue is a
bounded FIFO. The test `xpmem_notif_push` makes is before the lock: two producers
that pass it with one slot free insert two notifications.
-/
namespace FoMPI.XpmemQueue
open FoMPI.Foundation

variable {π : Type*} [DecidableEq π] {s t : State π} {p q : π}

/-- The slot the next notification goes to. -/
def State.next (s : State π) : ℕ := s.pushed.length % numDstCqEntries

def State.Room (s : State π) : Prop := s.pushed.length < s.popped.length + numDstCqEntries

/-- What the position of a producer says about the queue. -/
def ProducerOk (s : State π) (p : π) : Prop :=
  let arg := (s.producers p).arg
  match (s.producers p).pc with
  | .idle | .checkCount | .lock => s.holder ≠ some p
  | .readInserInd | .unlock => s.holder = some p ∧ s.inserInd = s.next
  | .writeTag ind => s.holder = some p ∧ s.inserInd = s.next ∧ ind = s.next
  | .writeSource ind =>
    s.holder = some p ∧ s.inserInd = s.next ∧ ind = s.next ∧ s.Room ∧ (s.slots ind).tag = arg.tag
  | .writeSize ind =>
    s.holder = some p ∧ s.inserInd = s.next ∧ ind = s.next ∧ s.Room ∧ (s.slots ind).tag = arg.tag ∧
      (s.slots ind).source = arg.source
  | .writeInserInd ind =>
    s.holder = some p ∧ ind = s.next ∧ s.Room ∧ s.slots ind = arg.slot
  | .addCount =>
    s.holder = some p ∧ s.inserInd = (s.next + 1) % numDstCqEntries ∧ s.Room ∧
      s.slots s.next = arg.slot

/-- What the position of the consumer says about the queue. -/
def ConsumerOk (s : State π) : Prop :=
  let front := s.pushed[s.popped.length]?
  match s.consumer with
  | .idle => s.extractInd = s.popped.length % numDstCqEntries
  | .readSource => s.extractInd = s.popped.length % numDstCqEntries ∧ ∃ x, front = some x
  | .readTag source =>
    s.extractInd = s.popped.length % numDstCqEntries ∧ ∃ x, front = some x ∧ x.source = source
  | .readSize source tag | .advance source tag =>
    s.extractInd = s.popped.length % numDstCqEntries ∧ front = some ⟨source, tag⟩
  | .subCount source tag =>
    s.extractInd = (s.popped.length + 1) % numDstCqEntries ∧ front = some ⟨source, tag⟩

structure Inv (s : State π) : Prop where
  counted : s.count = (s.pushed.length : ℤ) - s.popped.length
  fifo : s.popped <+: s.pushed
  capacity : s.pushed.length ≤ s.popped.length + numDstCqEntries
  slots : InSlots numDstCqEntries s.slots Notif.slot s.pushed s.popped.length
  intact : s.overwritten = false
  free : s.holder = none → s.inserInd = s.next
  producers : ∀ p, ProducerOk s p
  consumer : ConsumerOk s

omit [DecidableEq π] in
theorem Inv.init (memory : ℕ → Slot) : Inv (init memory : State π) where
  counted := rfl
  fifo := List.prefix_rfl
  capacity := Nat.zero_le _
  slots := InSlots.nil
  intact := rfl
  free _ := rfl
  producers p := by simp [ProducerOk, XpmemQueue.init]
  consumer := rfl

omit [DecidableEq π] in
theorem ProducerOk.outside (h : ProducerOk s p) (other : s.holder ≠ some p) :
    (s.producers p).pc.inside = false := by
  unfold ProducerOk at h
  cases hp : (s.producers p).pc <;> simp only [hp] at h <;>
    first | rfl | exact absurd h.1 other

omit [DecidableEq π] in
theorem ProducerOk.of_outside (out : (s.producers p).pc.inside = false) (other : s.holder ≠ some p) :
    ProducerOk s p := by
  unfold ProducerOk
  cases hp : (s.producers p).pc <;> simp only [hp] at out ⊢ <;>
    first | exact other | simp [PushPc.inside] at out

omit [DecidableEq π] in
/-- A step of the holder of the lock does not concern the other producers. -/
theorem ProducerOk.other (h : ProducerOk s q) (ne : q ≠ p) (held : s.holder = some p)
    (held' : t.holder = some p ∨ t.holder = none) (same : t.producers q = s.producers q) :
    ProducerOk t q := by
  have outside := h.outside (by rw [held]; exact fun e => ne (Option.some.inj e).symm)
  apply ProducerOk.of_outside
  · rw [same]
    exact outside
  · obtain held' | held' := held'
    · rw [held']
      exact fun e => ne (Option.some.inj e).symm
    · rw [held']
      simp

omit [DecidableEq π] in
/-- A producer depends on the consumer through the room it makes only. -/
theorem ProducerOk.congr (h : ProducerOk s q) (producer : t.producers q = s.producers q)
    (holder : t.holder = s.holder) (inserInd : t.inserInd = s.inserInd) (slots : t.slots = s.slots)
    (pushed : t.pushed = s.pushed) (popped : s.popped.length ≤ t.popped.length) :
    ProducerOk t q := by
  have next : t.next = s.next := by rw [State.next, State.next, pushed]
  have room (r : s.Room) : t.Room := by
    unfold State.Room at r ⊢
    rw [pushed]
    omega
  unfold ProducerOk at h ⊢
  rw [producer, holder, inserInd, slots, next]
  cases hp : (s.producers q).pc <;> simp only [hp] at h ⊢ <;> first | exact h | skip
  · exact ⟨h.1, h.2.1, h.2.2.1, room h.2.2.2.1, h.2.2.2.2⟩
  · exact ⟨h.1, h.2.1, h.2.2.1, room h.2.2.2.1, h.2.2.2.2⟩
  · exact ⟨h.1, h.2.1, room h.2.2.1, h.2.2.2⟩
  · exact ⟨h.1, h.2.1, room h.2.2.1, h.2.2.2⟩

theorem ProducerOk.setPc (h : ProducerOk s q) (ne : q ≠ p) (pc : PushPc) :
    ProducerOk (s.setPc p pc) q :=
  h.congr (by simp [State.setPc, ne]) rfl rfl rfl rfl le_rfl

omit [DecidableEq π] in
/-- The consumer sees producers only through what they push. -/
theorem ConsumerOk.congr (h : ConsumerOk s) (consumer : t.consumer = s.consumer)
    (extractInd : t.extractInd = s.extractInd) (popped : t.popped = s.popped)
    (pushed : s.pushed <+: t.pushed) : ConsumerOk t := by
  have front {x : Notif} (get : s.pushed[s.popped.length]? = some x) :
      t.pushed[s.popped.length]? = some x := by
    obtain ⟨more, eq⟩ := pushed
    rw [← eq, List.getElem?_append_left (List.getElem?_eq_some_iff.mp get).1, get]
  unfold ConsumerOk at h ⊢
  simp only [consumer, extractInd, popped]
  cases hc : s.consumer with
  | idle =>
    simp only [hc] at h
    exact h
  | readSource =>
    simp only [hc] at h
    obtain ⟨ind, x, get⟩ := h
    exact ⟨ind, x, front get⟩
  | readTag source =>
    simp only [hc] at h
    obtain ⟨ind, x, get, same⟩ := h
    exact ⟨ind, x, front get, same⟩
  | readSize source tag | advance source tag | subCount source tag =>
    simp only [hc] at h
    exact ⟨h.1, front h.2⟩

omit [DecidableEq π] in
/-- A producer with room writes its slot: the unread ones are left alone. -/
theorem Inv.write (inv : Inv s) (room : s.Room) (slot : Slot) :
    InSlots numDstCqEntries (s.write s.next slot).slots Notif.slot s.pushed s.popped.length ∧
      (s.write s.next slot).overwritten = false := by
  have free := not_occupied_next room
  refine ⟨inv.slots.write slot free, ?_⟩
  simp only [State.write, inv.intact, State.next, free]
  decide

omit [DecidableEq π] in
/-- A step of the holder leaves the other producers where they are. -/
theorem Inv.producers_after (inv : Inv s) (held : s.holder = some p)
    (held' : t.holder = some p ∨ t.holder = none)
    (frame : ∀ q, q ≠ p → t.producers q = s.producers q) (self : ProducerOk t p) (q : π) :
    ProducerOk t q := by
  obtain rfl | ne := eq_or_ne q p
  · exact self
  · exact (inv.producers q).other ne held held' (frame q ne)

theorem setPc_frame (pc : PushPc) (q : π) (ne : q ≠ p) :
    (s.setPc p pc).producers q = s.producers q := by
  simp [State.setPc, ne]

/-- A step of a producer that shows in its program counter alone. -/
theorem Inv.movePc (inv : Inv s) {pc : PushPc} (self : ProducerOk (s.setPc p pc) p) : Inv (s.setPc p pc) := by
  refine ⟨inv.counted, inv.fifo, inv.capacity, inv.slots, inv.intact, inv.free, fun q => ?_,
    inv.consumer.congr rfl rfl rfl List.prefix_rfl⟩
  obtain rfl | ne := eq_or_ne q p
  · exact self
  · exact (inv.producers q).setPc ne _

/-- The holder of the lock writes a field of the slot at `inser_ind`. -/
theorem Inv.writeSlot (inv : Inv s) (held : s.holder = some p) (room : s.Room) {slot : Slot} {pc : PushPc}
    (self : ProducerOk ((s.write s.next slot).setPc p pc) p) : Inv ((s.write s.next slot).setPc p pc) := by
  obtain ⟨slots, intact⟩ := inv.write room slot
  exact ⟨inv.counted, inv.fifo, inv.capacity, slots, intact, inv.free,
    inv.producers_after held (.inl held) (setPc_frame _) self,
    inv.consumer.congr rfl rfl rfl List.prefix_rfl⟩

/-- A waiting producer gets the free lock. -/
theorem Inv.acquire (inv : Inv s) (free : s.holder = none) :
    Inv { s.setPc p .readInserInd with holder := some p } := by
  refine ⟨inv.counted, inv.fifo, inv.capacity, inv.slots, inv.intact, by simp, fun q => ?_,
    inv.consumer.congr rfl rfl rfl List.prefix_rfl⟩
  obtain rfl | ne := eq_or_ne q p
  · simpa [ProducerOk, State.setPc, State.next] using inv.free free
  · apply ProducerOk.of_outside
    · simpa [State.setPc, ne] using (inv.producers q).outside (by simp [free])
    · simpa using Ne.symm ne

/-- The addition to `count` publishes the notification in the slot. -/
theorem Inv.addCount (inv : Inv s) (held : s.holder = some p) (room : s.Room)
    (insert : s.inserInd = (s.next + 1) % numDstCqEntries)
    (whole : s.slots s.next = (s.producers p).arg.slot) :
    Inv { s.setPc p .unlock with
      count := s.count + 1
      pushed := s.pushed ++ [(s.producers p).arg] } := by
  refine ⟨?_, ?_, ?_, inv.slots.store whole, inv.intact, ?_,
    inv.producers_after held (.inl held) (setPc_frame _) ?_,
    inv.consumer.congr rfl rfl rfl (List.prefix_append _ _)⟩
  · have := inv.counted
    simp only [State.setPc, List.length_append, List.length_singleton]
    push_cast
    omega
  · exact inv.fifo.trans (List.prefix_append _ _)
  · unfold State.Room at room
    simp only [State.setPc, List.length_append, List.length_singleton]
    omega
  · simp [State.setPc, held]
  · have next : s.inserInd = (s.pushed.length + 1) % numDstCqEntries := by
      rw [insert, State.next, Nat.mod_add_mod]
    simpa [ProducerOk, State.setPc, State.next] using ⟨held, next⟩

/-- One step of `xpmem_notif_push`, by the place of the producer. -/
theorem Inv.push (inv : Inv s) (move : s.push p = some t)
    (roomy : Roomy s (.push p) t) : Inv t := by
  have self := inv.producers p
  unfold State.push at move
  unfold ProducerOk at self
  cases hp : (s.producers p).pc with
  | idle => simp [hp] at move
  | checkCount =>
    simp only [hp] at move self
    split at move
    · cases move
      apply inv.movePc
      simpa [ProducerOk, State.setPc] using self
    · cases move
      exact inv
  | lock =>
    simp only [hp] at move
    split at move
    · rename_i free
      cases move
      exact inv.acquire free
    · contradiction
  | readInserInd =>
    simp only [hp, Option.some.injEq] at move self
    subst move
    apply inv.movePc
    simpa [ProducerOk, State.setPc, State.next] using self
  | writeTag ind =>
    simp only [hp, Option.some.injEq] at move self
    obtain ⟨held, insert, rfl⟩ := self
    have room : s.Room := by
      have := roomy p _ rfl hp
      have := inv.counted
      unfold State.Room
      omega
    subst move
    apply inv.writeSlot held room
    simpa [ProducerOk, State.setPc, State.write, State.next] using ⟨held, insert, room⟩
  | writeSource ind =>
    simp only [hp, Option.some.injEq] at move self
    obtain ⟨held, insert, rfl, room, tag⟩ := self
    subst move
    apply inv.writeSlot held room
    simpa [ProducerOk, State.setPc, State.write, State.next] using ⟨held, insert, room, tag⟩
  | writeSize ind =>
    simp only [hp, Option.some.injEq] at move self
    obtain ⟨held, insert, rfl, room, tag, source⟩ := self
    subst move
    apply inv.writeSlot held room
    have whole : ({ s.slots s.next with size := 0 } : Slot) = (s.producers p).arg.slot := by
      rw [Notif.slot, ← tag, ← source]
    simpa [ProducerOk, State.setPc, State.write, State.next] using ⟨held, room, whole⟩
  | writeInserInd ind =>
    simp only [hp, Option.some.injEq] at move self
    obtain ⟨held, rfl, room, whole⟩ := self
    subst move
    refine ⟨inv.counted, inv.fifo, inv.capacity, inv.slots, inv.intact, ?_,
      inv.producers_after held (.inl held) (setPc_frame _) ?_,
      inv.consumer.congr rfl rfl rfl List.prefix_rfl⟩
    · simp [State.setPc, held]
    · simpa [ProducerOk, State.setPc, State.next] using ⟨held, room, whole⟩
  | addCount =>
    simp only [hp, Option.some.injEq] at move self
    obtain ⟨held, insert, room, whole⟩ := self
    subst move
    exact inv.addCount held room insert whole
  | unlock =>
    simp only [hp, Option.some.injEq] at move self
    subst move
    refine ⟨inv.counted, inv.fifo, inv.capacity, inv.slots, inv.intact, fun _ => self.2,
      inv.producers_after self.1 (.inr rfl) (setPc_frame _) ?_,
      inv.consumer.congr rfl rfl rfl List.prefix_rfl⟩
    simp [ProducerOk, State.setPc]

omit [DecidableEq π] in
/-- A step of the consumer that takes nothing. -/
theorem Inv.moveConsumer (inv : Inv s) {extractInd : ℕ} {pc : PopPc}
    (self : ConsumerOk { s with extractInd := extractInd, consumer := pc }) :
    Inv { s with extractInd := extractInd, consumer := pc } :=
  ⟨inv.counted, inv.fifo, inv.capacity, inv.slots, inv.intact, inv.free,
    fun q => (inv.producers q).congr rfl rfl rfl rfl rfl le_rfl, self⟩

omit [DecidableEq π] in
/-- The consumer gives the slot of the front notification back. -/
theorem Inv.take (inv : Inv s) {x : Notif} (front : s.pushed[s.popped.length]? = some x)
    (extract : s.extractInd = (s.popped.length + 1) % numDstCqEntries) :
    Inv { s with count := s.count - 1, consumer := .idle, popped := s.popped ++ [x] } := by
  have length : (s.popped ++ [x]).length = s.popped.length + 1 := by simp
  have capacity := inv.capacity
  have counted := inv.counted
  refine ⟨?_, prefix_take inv.fifo front, ?_, ?_, inv.intact, inv.free, fun q =>
    (inv.producers q).congr rfl rfl rfl rfl rfl ?_, ?_⟩
  · simp only [length]
    push_cast
    omega
  · simp only [length]
    omega
  · simp only [length]
    exact inv.slots.take
  · simp only [length]
    omega
  · change s.extractInd = _ % _
    rw [length, extract]

omit [DecidableEq π] in
theorem Inv.pop (inv : Inv s) : Inv s.pop := by
  have consumer := inv.consumer
  have counted := inv.counted
  unfold ConsumerOk at consumer
  unfold State.pop
  cases hc : s.consumer with
  | idle =>
    simp only [hc] at consumer ⊢
    split
    · exact inv
    · rename_i nonempty
      have := inv.fifo.length_le
      have more : s.popped.length < s.pushed.length := by omega
      exact inv.moveConsumer ⟨consumer, _, List.getElem?_eq_getElem more⟩
  | readSource =>
    simp only [hc] at consumer ⊢
    obtain ⟨ind, x, front⟩ := consumer
    refine inv.moveConsumer ⟨ind, x, front, ?_⟩
    rw [ind, inv.slots _ x front le_rfl]
    rfl
  | readTag source =>
    simp only [hc] at consumer ⊢
    obtain ⟨ind, x, front, rfl⟩ := consumer
    refine inv.moveConsumer ⟨ind, front.trans ?_⟩
    rw [ind, inv.slots _ x front le_rfl]
    rfl
  | readSize source tag =>
    simp only [hc] at consumer ⊢
    exact inv.moveConsumer consumer
  | advance source tag =>
    simp only [hc] at consumer ⊢
    refine inv.moveConsumer ⟨?_, consumer.2⟩
    change (s.extractInd + 1) % numDstCqEntries = (s.popped.length + 1) % numDstCqEntries
    rw [consumer.1, Nat.mod_add_mod]
  | subCount source tag =>
    simp only [hc] at consumer ⊢
    exact inv.take consumer.2 consumer.1

theorem Inv.step (inv : Inv s) {a : Action π} (move : step s a = some t) (roomy : Roomy s a t) :
    Inv t := by
  cases a with
  | call p arg =>
    simp only [XpmemQueue.step, Option.ite_none_right_eq_some, Option.some.injEq] at move
    obtain ⟨idle, rfl⟩ := move
    have self := inv.producers p
    refine ⟨inv.counted, inv.fifo, inv.capacity, inv.slots, inv.intact, inv.free, fun q => ?_,
      inv.consumer⟩
    by_cases ne : q = p
    · subst ne
      simp only [ProducerOk, idle] at self
      simpa [ProducerOk] using self
    · exact (inv.producers q).congr (by simp [ne]) rfl rfl rfl rfl le_rfl
  | push p => exact inv.push move roomy
  | pop =>
    cases move
    exact inv.pop

omit [DecidableEq π] in
theorem Inv.bounded (inv : Inv s) : Bounded s :=
  ⟨inv.capacity, inv.intact, inv.fifo, fun _ => inv.counted⟩

/-- An insertion without room overwrites an unread notification. -/
theorem Inv.cramped (inv : Inv s) {a : Action π} (move : XpmemQueue.step s a = some t)
    (cramped : ¬Roomy s a t) : t.overwritten = true := by
  simp only [Roomy, not_forall] at cramped
  obtain ⟨p, ind, rfl, hp, full⟩ := cramped
  have self := inv.producers p
  have counted := inv.counted
  simp only [ProducerOk, hp] at self
  have occupied : Occupied numDstCqEntries s.popped.length s.pushed.length ind := by
    rw [self.2.2]
    exact occupied_next (by omega) (by decide)
  simp only [XpmemQueue.step, State.push, hp, Option.some.injEq] at move
  subst move
  simp [State.setPc, State.write, occupied]

/-- In runs whose insertions all find room the queue is a bounded FIFO, and the first insertion
that does not overwrites an unread notification. -/
theorem bounded_queue {memory : ℕ → Slot} (h : Reach step Roomy (init memory : State π) s) :
    Bounded s ∧ ∀ a t, step s a = some t → ¬Roomy s a t → ¬Bounded t := by
  have inv : Inv s := h.invariant (Inv.init memory) fun _ _ _ inv move roomy => inv.step move roomy
  refine ⟨inv.bounded, fun a t move cramped bounded => ?_⟩
  have lost := inv.cramped move cramped
  rw [bounded.intact] at lost
  contradiction

section Runs

/-- Nobody is using the queue, `k` notifications were pushed and none popped. -/
structure Filled (s : State π) (k : ℕ) : Prop where
  count : s.count = k
  pushed : s.pushed.length = k
  popped : s.popped = []
  holder : s.holder = none
  inserInd : s.inserInd = k % numDstCqEntries
  idle : ∀ p, (s.producers p).pc = .idle

/-- From the lock to the end of `xpmem_notif_push`. -/
def insertion (p : π) : List (Action π) := List.replicate 8 (.push p)

theorem insertion_spec (waiting : (s.producers p).pc = .lock) (free : s.holder = none) :
    ∃ t, exec step s (insertion p) = some t ∧ t.count = s.count + 1 ∧
      t.pushed = s.pushed ++ [(s.producers p).arg] ∧ t.popped = s.popped ∧ t.holder = none ∧
      t.inserInd = (s.inserInd + 1) % numDstCqEntries ∧
      (Occupied numDstCqEntries s.popped.length s.pushed.length s.inserInd → t.overwritten = true) ∧
      (t.producers p).pc = .idle ∧ ∀ q, q ≠ p → t.producers q = s.producers q := by
  simp [insertion, exec, step, State.push, State.setPc, State.write, waiting, free]
  exact ⟨.inr, fun q ne => Function.update_of_ne ne _ _⟩

/-- The producer has been called and has passed the test of `count`. -/
def admitted (s : State π) (p : π) (x : Notif) : State π :=
  { s with producers := Function.update s.producers p ⟨.lock, x⟩ }

theorem admission_spec (idle : (s.producers p).pc = .idle) (room : s.count < numDstCqEntries)
    (x : Notif) : exec step s [.call p x, .push p] = some (admitted s p x) := by
  simp [exec, step, State.push, State.setPc, admitted, idle, room]

theorem filled (memory : ℕ → Slot) (p : π) {k : ℕ} (le : k ≤ numDstCqEntries) :
    ∃ s, Reach step always (init memory : State π) s ∧ Filled s k := by
  induction k with
  | zero => exact ⟨init memory, .refl, rfl, rfl, rfl, rfl, rfl, fun _ => rfl⟩
  | succ k ih =>
    obtain ⟨s, reached, fill⟩ := ih (by omega)
    have admission := admission_spec (fill.idle p) (by rw [fill.count]; omega) ⟨1, 7⟩
    obtain ⟨t, insertion, count, pushed, popped, holder, inserInd, -, idle, others⟩ :=
      insertion_spec (s := admitted s p ⟨1, 7⟩) (p := p) (by simp [admitted]) fill.holder
    refine ⟨t, reached.trans ((Reach.of_exec _ admission).trans (Reach.of_exec _ insertion)), ?_, ?_,
      popped.trans fill.popped, holder, ?_, fun q => ?_⟩
    · simp [count, admitted, fill.count]
    · simp [pushed, admitted, fill.pushed]
    · rw [inserInd, admitted, fill.inserInd, Nat.mod_add_mod]
    · by_cases ne : q = p
      · rw [ne, idle]
      · rw [others q ne]
        simpa [admitted, ne] using fill.idle q

/-- Two producers pass the fullness test with one slot free, and both insert. -/
theorem overfull_queue (memory : ℕ → Slot) : ∃ s, Reach step always (init memory : State Bool) s ∧
    s.popped = [] ∧ s.pushed.length = numDstCqEntries + 1 ∧ s.overwritten = true := by
  obtain ⟨s, reached, fill⟩ := filled memory false (k := 999) (by decide)
  have room : s.count < numDstCqEntries := by
    rw [fill.count]
    decide
  have first := admission_spec (fill.idle false) room ⟨1, 7⟩
  have second := admission_spec (s := admitted s false ⟨1, 7⟩) (p := true)
    (by simp [admitted, fill.idle]) room ⟨2, 8⟩
  obtain ⟨t, third, -, pushed, popped, holder, inserInd, -, -, others⟩ :=
    insertion_spec (s := admitted (admitted s false ⟨1, 7⟩) true ⟨2, 8⟩) (p := false)
      (by simp [admitted]) fill.holder
  have waiting : (t.producers true).pc = .lock := by
    rw [others true (by decide)]
    simp [admitted]
  obtain ⟨u, fourth, -, pushed', popped', -, -, lost, -, -⟩ := insertion_spec waiting holder
  have full : t.pushed.length = numDstCqEntries := by
    simp [pushed, admitted, fill.pushed, numDstCqEntries]
  refine ⟨u, reached.trans (((Reach.of_exec _ first).trans (Reach.of_exec _ second)).trans
    ((Reach.of_exec _ third).trans (Reach.of_exec _ fourth))), ?_, ?_, ?_⟩
  · exact popped'.trans (popped.trans fill.popped)
  · rw [pushed', List.length_append, full]
    rfl
  · apply lost
    rw [popped, full, inserInd]
    simp only [admitted, fill.popped, fill.inserInd]
    exact ⟨0, by decide, le_rfl, rfl⟩

end Runs

/-- The test outside the lock does not bound the queue. -/
theorem bounded_queue_fails : ¬∀ s : State Bool,
    Reach step always (init fun _ => ⟨0, 0, 0⟩) s → Bounded s := by
  intro bounded
  obtain ⟨s, reached, popped, pushed, -⟩ := overfull_queue fun _ => ⟨0, 0, 0⟩
  have capacity := (bounded s reached).capacity
  rw [popped, pushed, List.length_nil] at capacity
  omega

/-- The condition of `bounded_queue`, as a test of a schedule. -/
def roomy (s : State π) : Action π → State π → Bool
  | .push p, _ =>
    match (s.producers p).pc with
    | .writeTag _ => s.count < numDstCqEntries
    | _ => true
  | _, _ => true

omit [DecidableEq π] in
theorem roomy_sound {a : Action π} (h : roomy s a t = true) : Roomy s a t := by
  rintro p ind rfl hp
  simpa [roomy, hp] using h

/-- Two producers and the consumer, interleaved. -/
theorem bounded_queue_interleaved : ∃ s : State Bool,
    Reach step Roomy (init fun _ => ⟨0, 0, 0⟩) s ∧ s.popped = [⟨2, 8⟩] ∧
      s.pushed = [⟨2, 8⟩, ⟨1, 7⟩] ∧ Bounded s := by
  have ran : (execWhen step roomy (init fun _ => ⟨0, 0, 0⟩ : State Bool)
      ([.call false ⟨1, 7⟩, .push false, .call true ⟨2, 8⟩, .push true] ++ insertion true ++
        [.pop, .pop] ++ insertion false ++ [.pop, .pop, .pop, .pop])).map
      (fun s => (s.popped, s.pushed)) = some ([⟨2, 8⟩], [⟨2, 8⟩, ⟨1, 7⟩]) := by
    decide
  obtain ⟨s, run, history⟩ := Option.map_eq_some_iff.mp ran
  have reached : Reach step Roomy (init fun _ => ⟨0, 0, 0⟩) s :=
    Reach.of_execWhen (fun _ _ _ => roomy_sound) _ run
  exact ⟨s, reached, (Prod.ext_iff.mp history).1, (Prod.ext_iff.mp history).2,
    (bounded_queue reached).1⟩

end FoMPI.XpmemQueue
