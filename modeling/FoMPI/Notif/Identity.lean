import FoMPI.Notif.Matching
import FoMPI.RmaNotify.Traffic

/-!
# Who a notification is from

Ranks and tags are `int`s where a notification is sent and where a request for it is
made. Between the two they are words of 16 bits: in the slots of the on-node queue,
in the event of a uGNI operation, in the unexpected queue and in the selectors of its
search. A run of a window is recorded with what its senders have meant.
-/
namespace FoMPI.Notif
open FoMPI.Foundation FoMPI.Window
open FoMPI.RmaNotify (encodeID decodeID_encodeID Representable ofInt_toNat_eq)

/-- `foMPI_TAG_UB`. -/
def tagUB : ℤ := 32767

/-- `MPI_ERR_TAG` and `MPI_ERR_RANK`. -/
inductive Refusal
  | tag | rank
  deriving DecidableEq, Repr

/-- The arguments that `foMPI_Notify_init` checks and keeps. The size of the communicator passes for
a rank. -/
def notifyInit (commsize srcRank tag count : ℤ) : Except Refusal Args :=
  if ¬(tag = anyTag ∨ 0 ≤ tag ∧ tag ≤ tagUB) then .error .tag
  else if ¬(srcRank = anySource ∨ 0 ≤ srcRank ∧ srcRank ≤ commsize) then .error .rank
  else .ok ⟨srcRank, tag, count⟩

variable {ρ : Type*}

/-- The notification of a transfer by `rank`: `xpmem_notif_push` on the node, the remote event of a
uGNI operation otherwise. Neither looks at the tag. -/
def State.notify (w : Locality) (s : State ρ) (rank tag : ℤ) : State ρ :=
  if w.viaXpmem rank then
    let m : Msg := ⟨s.arrived.length, BitVec.ofInt 16 rank, BitVec.ofInt 16 tag⟩
    { s with
      queues := { s.queues with onNode := s.queues.onNode ++ [m] }
      arrived := s.arrived ++ [m]
      lateXpmem := s.lateXpmem ++ [m] }
  else
    let id := decodeID (encodeID (BitVec.ofInt 16 rank) (BitVec.ofInt 16 tag))
    let m : Msg := ⟨s.arrived.length, id.1, id.2⟩
    { s with
      queues := { s.queues with cq := s.queues.cq ++ [m] }
      arrived := s.arrived ++ [m]
      lateUgni := s.lateUgni ++ [m] }

/-- A window, and the ranks and tags of the notifications sent to it, in the order of arrival. -/
structure World (ρ : Type*) where
  window : State ρ
  sent : List (ℤ × ℤ)

inductive Event (ρ : Type*)
  /-- `foMPI_Put_notify` or `foMPI_Get_notify` by `rank`. -/
  | notify (rank tag : ℤ)
  | start (k : ρ)
  | testWait (k : ρ) (wait : Bool)
  | run
  | finish

namespace World

def init : World ρ := ⟨Notif.init, []⟩

/-- A transfer with the wildcard for its tag is a plain one. -/
def step [DecidableEq ρ] (w : Locality) (commsize : ℤ) (args : ρ → Args) (s : World ρ) :
    Event ρ → Option (World ρ)
  | .notify rank tag =>
    if 0 ≤ rank ∧ rank < commsize then
      if tag = anyTag then some s
      else some ⟨s.window.notify w rank tag, s.sent ++ [(rank, tag)]⟩
    else none
  | .start k => (Notif.step w args s.window (.start k)).map ({ s with window := · })
  | .testWait k wait => (Notif.step w args s.window (.testWait k wait)).map ({ s with window := · })
  | .run => (Notif.step w args s.window .run).map ({ s with window := · })
  | .finish => (Notif.step w args s.window .finish).map ({ s with window := · })

end World

/-- A step that keeps identities: what is sent fits the words of a notification, and so does the
source that is looked for. A request for one notification is asked for it at most until it has it:
the call that finds it complete has no rank and no tag to report. -/
def Faithful (args : ρ → Args) (s : World ρ) : Event ρ → World ρ → Prop
  | .notify rank tag, _ => tag = anyTag ∨ Representable rank ∧ Representable tag
  | .testWait k _, _ => s.window.active k → (args k).sourceRank < 65536 ∧
      ((args k).count = 1 → s.window.found k ≠ 1)
  | _, _ => True

instance {args : ρ → Args} {s t : World ρ} : {e : Event ρ} → Decidable (Faithful args s e t)
  | .notify _ _ => inferInstanceAs (Decidable (_ ∨ (_ ∧ _) ∧ _ ∧ _))
  | .testWait _ _ => inferInstanceAs (Decidable (_ → _ ∧ (_ → _)))
  | .start _ | .run | .finish => inferInstanceAs (Decidable True)

/-- What a request with a source and a tag of its own may count. -/
def Args.Meant (a : Args) (rank tag : ℤ) : Prop :=
  (a.sourceRank ≠ anySource → rank = a.sourceRank) ∧ (a.tag ≠ anyTag → tag = a.tag)

/-- Every notification counted is one that the request is for, and a completed call for a single
one reports its rank and tag. -/
structure Identified (args : ρ → Args) (s : World ρ) : Prop where
  counted : ∀ e ∈ s.window.consumed, ∃ rank tag, s.sent[e.2.id]? = some (rank, tag) ∧
    (args e.1).Meant rank tag
  reported : ∀ c status, s.window.call = some c → c.frame.pc = .returned true status →
    (args c.request).count = 1 → ∃ m rank tag,
      s.window.consumed.getLast? = some (c.request, m) ∧ s.sent[m.id]? = some (rank, tag) ∧
      status.source = some rank ∧ status.tag = some tag

section Narrowing
variable {w : Locality} {args : ρ → Args} {s : State ρ} {rank tag : ℤ}

/-- A notification that says what its sender has meant. -/
def Genuine (sent : List (ℤ × ℤ)) (m : Msg) : Prop :=
  sent[m.id]? = some ((m.source.toNat : ℤ), (m.tag.toNat : ℤ))

theorem Genuine.append {sent : List (ℤ × ℤ)} {m : Msg} (h : Genuine sent m) (e : ℤ × ℤ) :
    Genuine (sent ++ [e]) m := by
  obtain ⟨lt, -⟩ := List.getElem?_eq_some_iff.mp h
  rw [Genuine, List.getElem?_append_left lt]
  exact h

/-- The notification of a transfer, whichever way it goes. -/
def State.arrival (s : State ρ) (rank tag : ℤ) : Msg :=
  ⟨s.arrived.length, BitVec.ofInt 16 rank, BitVec.ofInt 16 tag⟩

theorem mem_notify {m : Msg} (h : m ∈ (s.notify w rank tag).queues.all) :
    m ∈ s.queues.all ∨ m = s.arrival rank tag := by
  unfold State.notify at h
  split at h
  · simp only [Queues.all, List.mem_append, List.mem_singleton] at h ⊢
    rw [State.arrival]
    tauto
  · simp only [Queues.all, List.mem_append, List.mem_singleton, decodeID_encodeID] at h ⊢
    rw [State.arrival]
    tauto

@[simp] theorem notify_arrived : (s.notify w rank tag).arrived = s.arrived ++ [s.arrival rank tag] := by
  unfold State.notify State.arrival
  split
  · rfl
  · simp only [decodeID_encodeID]

@[simp] theorem notify_consumed : (s.notify w rank tag).consumed = s.consumed := by
  unfold State.notify
  split <;> rfl

@[simp] theorem notify_call : (s.notify w rank tag).call = s.call := by
  unfold State.notify
  split <;> rfl

/-- A rank that fits takes the way of its notification. -/
theorem step_arrive [DecidableEq ρ] (fits : Representable rank) :
    ∃ a, Notif.step w args s a = some (s.notify w rank tag) := by
  have same := ofInt_toNat_eq.mpr fits
  by_cases via : w.viaXpmem rank
  · refine ⟨.arriveXpmem (BitVec.ofInt 16 rank) (BitVec.ofInt 16 tag), ?_⟩
    rw [Notif.step, State.notify, same, if_pos via, if_pos via]
  · refine ⟨.arriveUgni (encodeID (BitVec.ofInt 16 rank) (BitVec.ofInt 16 tag)), ?_⟩
    simp only [Notif.step, State.notify, decodeID_encodeID]
    rw [same, if_neg via, if_neg via]

theorem genuine_arrival {sent : List (ℤ × ℤ)} (numbered : sent.length = s.arrived.length)
    (rank_fits : Representable rank) (tag_fits : Representable tag) :
    Genuine (sent ++ [(rank, tag)]) (s.arrival rank tag) := by
  rw [Genuine, State.arrival, ← numbered, ofInt_toNat_eq.mpr rank_fits, ofInt_toNat_eq.mpr tag_fits]
  exact List.getElem?_concat_length

end Narrowing

section Operation
variable {w : Locality} {a : Args} {wait : Bool} {q q' : Queues} {f f' : Frame} {counted : Option Msg}

/-- What a call knows of the notification that it is going to report. -/
structure Remembers (a : Args) (f : Frame) : Prop where
  unfinished : f.pc = .ugni → f.found < a.count
  status : ∀ flag status, f.pc = .returned flag status →
    flag = decide (a.count = f.found) ∧ status = f.status a

/-- An operation counts a notification of the queues and remembers it, or it remembers what it did
unless it still looks for one. -/
structure Operates (a : Args) (q : Queues) (f : Frame) (q' : Queues) (f' : Frame)
    (counted : Option Msg) : Prop where
  kept : ∀ m ∈ q'.all, m ∈ q.all
  taken : ∀ m, counted = some m →
    m ∈ q.all ∧ (a.searches m = true ∨ a.accepts m = true) ∧ f'.last = some m
  passed : counted = none → f'.found = f.found ∧ (f.found < a.count ∨ f'.last = f.last)
  remembers : Remembers a f'

theorem Remembers.of_pc (h : f'.pc = .unexpected ∨ f'.pc = .xpmem) : Remembers a f' := by
  obtain pc | pc := h
  · exact ⟨by simp [pc], by simp [pc]⟩
  · exact ⟨by simp [pc], by simp [pc]⟩

theorem Remembers.finish (f : Frame) : Remembers a (f.finish a) := by
  refine ⟨by simp [Frame.finish], ?_⟩
  rintro flag status pc
  cases pc
  exact ⟨rfl, rfl⟩

/-- Nothing is read. -/
theorem Operates.stay (found : f'.found = f.found) (last : f'.last = f.last)
    (remembers : Remembers a f') : Operates a q f q f' none :=
  ⟨fun _ h => h, by simp, fun _ => ⟨found, .inr last⟩, remembers⟩

@[simp] theorem dispatch_last (uq : List Msg) (m : Msg) :
    (dispatch a uq f m).2.1.last = some m := by
  unfold dispatch
  split <;> rfl

/-- An event is read off a hardware queue, which is `rest` without it. -/
theorem Operates.dispatch {m : Msg} {uq : List Msg} (rest : Queues)
    (e : dispatch a q.uq f m = (uq, f', counted)) (unfinished : f.found < a.count) (mem : m ∈ q.all)
    (fewer : ∀ x ∈ rest.onNode ++ rest.cq, x ∈ q.all) :
    Operates a q f { rest with uq := uq } f' counted := by
  have last : f'.last = some m := by
    have := dispatch_last (a := a) (f := f) q.uq m
    rwa [e] at this
  have old {x : Msg} (h : x ∈ q.uq) : x ∈ q.all := by simp [Queues.all, h]
  obtain ⟨acc, rfl, rfl, -, pc⟩ | ⟨-, rfl, rfl, found, pc⟩ := dispatch_moved e
  · refine ⟨fun x hx => ?_, ?_, by simp, .of_pc (.inr pc)⟩
    · simp only [Queues.all, List.append_assoc, List.mem_append] at hx
      obtain hx | hx := hx
      · exact old hx
      · exact fewer x (List.mem_append.mpr hx)
    · rintro x same
      cases same
      exact ⟨mem, .inr acc, last⟩
  · refine ⟨fun x hx => ?_, by simp, fun _ => ⟨found, .inl unfinished⟩, .of_pc (.inr pc)⟩
    simp only [Queues.all, List.append_assoc, List.mem_append, List.mem_singleton] at hx
    obtain hx | rfl | hx := hx
    · exact old hx
    · exact mem
    · exact fewer x (List.mem_append.mpr hx)

theorem advance_operates (remembers : Remembers a f)
    (e : advance w a wait q f = (q', f', counted)) : Operates a q f q' f' counted := by
  cases advance_cases e with
  | take m uq pc unfinished taken =>
    obtain ⟨front, back, eq, rfl, acc, -⟩ := removeFirst_eq_some (removeFirst_of_takeUnexpected taken)
    refine ⟨fun x hx => ?_, ?_, by simp, .of_pc (.inl rfl)⟩
    · simp only [Queues.all, eq, List.mem_append, List.mem_cons] at hx ⊢
      tauto
    · rintro x same
      cases same
      exact ⟨by simp [Queues.all, eq], .inl acc, rfl⟩
  | searched pc nothing => exact .stay rfl rfl (.of_pc (.inr rfl))
  | finished pc finished => exact .stay rfl rfl (.finish f)
  | onNode m rest uq f' counted pc unfinished near eq dispatched =>
    apply Operates.dispatch { q with onNode := rest } dispatched unfinished
    · simp [Queues.all, eq]
    · intro x hx
      simp only [Queues.all, eq, List.mem_append, List.mem_cons] at hx ⊢
      tauto
  | remote pc unfinished empty => exact .stay rfl rfl ⟨fun _ => unfinished, by simp⟩
  | onNodeOnly pc unfinished near empty =>
    cases wait with
    | false => exact .stay rfl rfl (.finish f)
    | true => exact .stay rfl rfl remembers
  | event m rest uq f' counted pc eq dispatched =>
    apply Operates.dispatch { q with cq := rest } dispatched (remembers.unfinished pc)
    · simp [Queues.all, eq]
    · intro x hx
      simp only [Queues.all, eq, List.mem_append, List.mem_cons] at hx ⊢
      tauto
  | noEvent pc empty =>
    cases wait with
    | false => exact .stay rfl rfl (.finish f)
    | true => exact .stay rfl rfl (.of_pc (.inr rfl))
  | returned flag status pc => exact .stay rfl rfl remembers

end Operation

section Selectors
variable {commsize : ℤ} {a : Args} {m : Msg}

theorem meant_of_accepts (h : a.accepts m = true) : a.Meant m.source.toNat m.tag.toNat := by
  simp only [Args.accepts, decide_eq_true_eq] at h
  exact ⟨h.1.resolve_right, h.2.resolve_right⟩

/-- The selectors of a request that was made fit the words of the search once the source does. The
count plays no part. -/
theorem valid_of_created (created : notifyInit commsize a.sourceRank a.tag a.count = .ok a)
    (narrow : a.sourceRank < 65536) : Args.Valid { a with count := 1 } := by
  unfold notifyInit at created
  split at created
  · contradiction
  · rename_i tag
    split at created
    · contradiction
    · rename_i source
      refine ⟨le_refl _, (not_not.mp source).imp_right fun h => ⟨h.1, narrow⟩,
        (not_not.mp tag).imp_right fun h => ⟨h.1, h.2.trans_lt (by decide)⟩⟩

theorem meant_of_taken (created : notifyInit commsize a.sourceRank a.tag a.count = .ok a)
    (narrow : a.sourceRank < 65536) (h : a.searches m = true ∨ a.accepts m = true) :
    a.Meant m.source.toNat m.tag.toNat := by
  obtain h | h := h
  · have same : a.searches m = a.accepts m := searches_eq (valid_of_created created narrow) m
    exact meant_of_accepts (same ▸ h)
  · exact meant_of_accepts h

end Selectors

section Runs
variable {w : Locality} {commsize : ℤ} {args : ρ → Args} {s t : World ρ}

/-- A call under way, and the last notification that was counted. -/
structure Told (a : Args) (consumed : List (ρ × Msg)) (c : Call ρ) : Prop where
  narrow : a.sourceRank < 65536
  remembers : Remembers a c.frame
  last : a.count = 1 → c.frame.found = 1 →
    ∃ m, c.frame.last = some m ∧ consumed.getLast? = some (c.request, m)

/-- Notifications say what their senders have meant wherever they are. -/
structure Honest (args : ρ → Args) (s : World ρ) : Prop where
  numbered : s.sent.length = s.window.arrived.length
  waiting : ∀ m ∈ s.window.queues.all, Genuine s.sent m
  consumed : ∀ e ∈ s.window.consumed, Genuine s.sent e.2 ∧
    (args e.1).Meant e.2.source.toNat e.2.tag.toNat
  call : ∀ c, s.window.call = some c → Told (args c.request) s.window.consumed c

theorem Honest.init : Honest args (World.init : World ρ) :=
  ⟨rfl, by simp [World.init, Notif.init, Queues.all], by simp [World.init, Notif.init],
    by simp [World.init, Notif.init]⟩

theorem Honest.identified (h : Honest args s) : Identified args s := by
  refine ⟨fun e he => ?_, fun c status hc pc single => ?_⟩
  · obtain ⟨genuine, meant⟩ := h.consumed e he
    exact ⟨_, _, genuine, meant⟩
  · obtain ⟨-, remembers, last⟩ := h.call c hc
    obtain ⟨complete, rfl⟩ := remembers.status true status pc
    have found : (args c.request).count = c.frame.found := by simpa using complete.symm
    obtain ⟨m, read, counted⟩ := last single (found ▸ single)
    obtain ⟨genuine, -⟩ := h.consumed _ (List.mem_of_getLast? counted)
    refine ⟨m, _, _, counted, genuine, ?_⟩
    rw [Frame.status, if_pos found, if_pos single, read]
    exact ⟨rfl, rfl⟩

theorem Honest.notify {rank tag : ℤ} (h : Honest args s) (rank_fits : Representable rank)
    (tag_fits : Representable tag) :
    Honest args ⟨s.window.notify w rank tag, s.sent ++ [(rank, tag)]⟩ where
  numbered := by simp [h.numbered]
  waiting m hm := by
    obtain old | rfl := mem_notify hm
    · exact (h.waiting m old).append _
    · exact genuine_arrival h.numbered rank_fits tag_fits
  consumed e he := by
    rw [notify_consumed] at he
    obtain ⟨genuine, meant⟩ := h.consumed e he
    exact ⟨genuine.append _, meant⟩
  call c hc := by
    rw [notify_call] at hc
    rw [notify_consumed]
    exact h.call c hc

variable [DecidableEq ρ]

theorem Honest.run (h : Honest args s)
    (created : ∀ k, notifyInit commsize (args k).sourceRank (args k).tag (args k).count = .ok (args k))
    {window : State ρ} (e : step w args s.window .run = some window) :
    Honest args { s with window := window } := by
  obtain ⟨c, hc, rfl⟩ := run_cases e
  obtain ⟨narrow, remembers, last⟩ := h.call c hc
  cases advanced : advance w (args c.request) c.wait s.window.queues c.frame with
  | mk q r =>
    obtain ⟨f, counted⟩ := r
    obtain ⟨kept, taken, passed, remembers'⟩ := advance_operates remembers advanced
    simp only [State.run, advanced]
    refine ⟨h.numbered, fun m hm => h.waiting m (kept m hm), ?_, ?_⟩
    · intro e he
      obtain he | he := List.mem_append.mp he
      · exact h.consumed e he
      · obtain ⟨m, hm, rfl⟩ := List.mem_map.mp he
        obtain ⟨mem, found, -⟩ := taken m (Option.mem_toList.mp hm)
        exact ⟨h.waiting m mem, meant_of_taken (created c.request) narrow found⟩
    · rintro c' hc'
      cases hc'
      refine ⟨narrow, remembers', fun (single : (args c.request).count = 1) one => ?_⟩
      cases counted with
      | some m => exact ⟨m, (taken m rfl).2.2, by simp⟩
      | none =>
        -- the request had its notification before this operation
        obtain ⟨found, open_or_same⟩ := passed rfl
        have one : c.frame.found = 1 := found ▸ one
        have same : f.last = c.frame.last := open_or_same.resolve_left (by omega)
        simpa [same] using last single one

theorem Honest.step (h : Honest args s)
    (created : ∀ k, notifyInit commsize (args k).sourceRank (args k).tag (args k).count = .ok (args k))
    {e : Event ρ} (move : World.step w commsize args s e = some t) (faithful : Faithful args s e t) :
    Honest args t := by
  cases e with
  | notify rank tag =>
    simp only [World.step, Option.ite_none_right_eq_some] at move
    obtain ⟨-, move⟩ := move
    split at move <;> cases move
    · exact h
    · rename_i notAny
      obtain ⟨rank_fits, tag_fits⟩ := faithful.resolve_left notAny
      exact h.notify rank_fits tag_fits
  | start k =>
    obtain ⟨window, e, rfl⟩ := Option.map_eq_some_iff.mp move
    simp only [Notif.step, Option.ite_none_right_eq_some, Option.some.injEq] at e
    obtain ⟨-, rfl⟩ := e
    exact ⟨h.numbered, h.waiting, h.consumed, h.call⟩
  | testWait k wait =>
    obtain ⟨window, e, rfl⟩ := Option.map_eq_some_iff.mp move
    simp only [Notif.step, Option.ite_none_right_eq_some] at e
    obtain ⟨-, e⟩ := e
    split at e <;> cases e
    · rename_i active
      obtain ⟨narrow, fresh⟩ := faithful active
      refine ⟨h.numbered, h.waiting, h.consumed, ?_⟩
      rintro c hc
      cases hc
      exact ⟨narrow, .of_pc (.inl rfl), fun single one => absurd one (fresh single)⟩
    · exact h
  | run =>
    obtain ⟨window, e, rfl⟩ := Option.map_eq_some_iff.mp move
    exact h.run created e
  | finish =>
    obtain ⟨window, e, rfl⟩ := Option.map_eq_some_iff.mp move
    obtain ⟨c, -, e⟩ := Option.bind_eq_some_iff.mp e
    split at e <;> cases e
    exact ⟨h.numbered, h.waiting, h.consumed, by simp⟩

omit [DecidableEq ρ] in
theorem not_identified {e : ρ × Msg} {rank tag : ℤ} (counted : e ∈ s.window.consumed)
    (sent : s.sent[e.2.id]? = some (rank, tag)) (other : ¬(args e.1).Meant rank tag) :
    ¬Identified args s := by
  intro identified
  obtain ⟨rank', tag', same, meant⟩ := identified.counted e counted
  obtain ⟨rfl, rfl⟩ := Prod.mk.inj (Option.some.inj (sent.symm.trans same))
  exact other meant

/-- A call for a request that has its notification already reports no rank and no tag. -/
theorem complete_not_reported {k : ρ} (idle : s.window.call = none) (active : s.window.active k)
    (single : (args k).count = 1) (complete : s.window.found k = 1) (wait : Bool) :
    ∃ t, exec (World.step w commsize args) s [.testWait k wait, .run, .run] = some t ∧
      ¬Identified args t := by
  have ran : (exec (World.step w commsize args) s [.testWait k wait, .run, .run]).map
      (·.window.call) = some (some ⟨k, wait, ⟨.returned true ⟨1, none, none⟩, 1, none⟩⟩) := by
    simp [exec, World.step, Notif.step, idle, active, State.run, advance, Frame.finish, Frame.status,
      single, complete]
  obtain ⟨t, run, call⟩ := Option.map_eq_some_iff.mp ran
  refine ⟨t, run, fun identified => ?_⟩
  obtain ⟨m, rank, tag, -, -, source, -⟩ := identified.reported _ _ call rfl single
  contradiction

/-- The window of such a run goes through a run of the matching alone. -/
theorem window_reach (h : Reach (World.step w commsize args) (Faithful args) World.init s) :
    Reach (step w args) always (init : State ρ) s.window := by
  induction h with
  | refl => exact .refl
  | @tail s e t _ move faithful ih =>
    cases e with
    | notify rank tag =>
      simp only [World.step, Option.ite_none_right_eq_some] at move
      obtain ⟨-, move⟩ := move
      split at move <;> cases move
      · exact ih
      · rename_i notAny
        have fits := (faithful.resolve_left notAny).1
        obtain ⟨a, arrive⟩ : ∃ a, Notif.step w args s.window a = some (s.window.notify w rank tag) :=
          step_arrive fits
        exact .tail ih arrive trivial
    | start | testWait | run | finish =>
      obtain ⟨window, e, rfl⟩ := Option.map_eq_some_iff.mp move
      exact .tail ih e trivial

/-- In every run whose steps keep identities, requests count what they are for and report it. -/
theorem notification_identity
    (created : ∀ k, notifyInit commsize (args k).sourceRank (args k).tag (args k).count = .ok (args k))
    (h : Reach (World.step w commsize args) (Faithful args) World.init s) : Identified args s :=
  (h.invariant Honest.init fun _ _ _ honest move faithful => honest.step created move faithful).identified

end Runs

/-- Both requests are made for notifications of ranks 1 and 5. -/
theorem notification_identity_competing : ∃ s : World Bool,
    Reach (World.step pair 6 competing) (Faithful competing) World.init s ∧
    s.window.consumed = [(false, ⟨1, 5, 7⟩), (true, ⟨0, 1, 3⟩)] ∧ Identified competing s := by
  have created (k : Bool) : notifyInit 6 (competing k).sourceRank (competing k).tag
      (competing k).count = .ok (competing k) := by cases k <;> rfl
  have ran : (execWhen (World.step pair 6 competing) (fun s e t => Faithful competing s e t)
      World.init ([.notify 1 3, .notify 5 7, .start false, .start true, .testWait false false] ++
        List.replicate 5 .run ++ [.finish, .testWait true true] ++ List.replicate 3 .run)).map
      (·.window.consumed) = some [(false, ⟨1, 5, 7⟩), (true, ⟨0, 1, 3⟩)] := by
    decide
  obtain ⟨s, run, consumed⟩ := Option.map_eq_some_iff.mp ran
  have reach : Reach (World.step pair 6 competing) (Faithful competing) World.init s :=
    Reach.of_execWhen (fun _ _ _ h => of_decide_eq_true h) _ run
  exact ⟨s, reach, consumed, notification_identity created reach⟩

section Confusion

/-- A request for tag 5 of rank 0. -/
def single : Unit → Args := fun _ => ⟨0, 5, 1⟩

/-- It counts a notification with the tag 65541. -/
theorem notification_identity_fails : notifyInit 2 0 5 1 = .ok (single ()) ∧ ∃ s : World Unit,
    Reach (World.step pair 2 single) always World.init s ∧ ¬Identified single s := by
  have ran : (exec (World.step pair 2 single) World.init
      [.notify 0 65541, .start (), .testWait () true, .run, .run]).map
        (fun s => (s.window.consumed, s.sent)) = some ([((), ⟨0, 0, 5⟩)], [(0, 65541)]) := by
    decide
  obtain ⟨s, run, trace⟩ := Option.map_eq_some_iff.mp ran
  obtain ⟨consumed, sent⟩ := Prod.mk.inj trace
  have recorded : s.sent[0]? = some (0, 65541) := by rw [sent, List.getElem?_cons_zero]
  have other : ¬(single ()).Meant 0 65541 := by simp [Args.Meant, single, anyTag]
  have counted : ((), ⟨0, 0, 5⟩) ∈ s.window.consumed := by simp [consumed]
  exact ⟨rfl, s, Reach.of_exec _ run, not_identified counted recorded other⟩

end Confusion

end FoMPI.Notif
