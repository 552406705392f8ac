import FoMPI.Foundation.Counter
import FoMPI.Pool.Model
import Mathlib.Data.List.Nodup

/-!
# No descriptor is handed out twice

The free part of the ring and the descriptors in flight are a permutation of all of
them. Completions permute the ring and never change that.
-/
namespace FoMPI.Pool
open FoMPI.Foundation

variable {N : CqEntries} {s t : State}

/-- The free slots and what is in flight are all the descriptors, and `ins_ind` is behind the free slots. -/
structure Inv (N : CqEntries) (s : State) : Prop where
  counter : s.counterUgniNbi.toNat = s.inFlight.length
  partition : (s.freeSlots N ++ s.inFlight).Perm (List.range N.n)
  ins : s.insInd = (s.extrInd + (N.n - s.counterUgniNbi.toNat)) % N.n
  extr : s.extrInd < N.n

theorem arc_id (first n : ℕ) (fits : first + n ≤ N.n) :
    arc N.n (fun pi => pi) first n = List.range' first n := by
  induction n generalizing first with
  | zero => rfl
  | succ n ih => rw [arc, List.range'_succ, ih _ (by omega), Nat.mod_eq_of_lt (by omega)]

namespace Inv

theorem of_init (N : CqEntries) : Inv N init := by
  refine ⟨rfl, ?_, ?_, N.pos⟩
  · have all : init.freeSlots N = List.range N.n :=
      (arc_id 0 N.n (by omega)).trans List.range_eq_range'.symm
    rw [all]
    exact (List.append_nil _).symm ▸ List.Perm.refl _
  · change 0 = (0 + N.n) % N.n
    rw [Nat.zero_add, Nat.mod_self]

theorem capacity (h : Inv N s) : s.counterUgniNbi.toNat ≤ N.n := by
  have length := h.partition.length_eq
  rw [List.length_append, List.length_range] at length
  have counter := h.counter
  omega

/-- The head of the free slots goes into flight. -/
theorem take (h : Inv N s) (room : s.counterUgniNbi.toNat < N.n) : Inv N (s.take N) := by
  have width := N.width
  have counter : (s.counterUgniNbi + 1).toNat = s.counterUgniNbi.toNat + 1 := toNat_succ (by omega)
  have before : s.freeSlots N =
      s.dataDescPtr s.extrInd :: arc N.n s.dataDescPtr (s.extrInd + 1)
        (N.n - (s.counterUgniNbi.toNat + 1)) := by
    have one : N.n - s.counterUgniNbi.toNat = N.n - (s.counterUgniNbi.toNat + 1) + 1 := by omega
    rw [State.freeSlots, one, arc, Nat.mod_eq_of_lt h.extr]
  have after : (s.take N).freeSlots N =
      arc N.n s.dataDescPtr (s.extrInd + 1) (N.n - (s.counterUgniNbi.toNat + 1)) := by
    simp only [State.freeSlots, State.take, counter]
    exact arc_mod (Nat.mod_mod _ _)
  refine ⟨?_, ?_, ?_, Nat.mod_lt _ N.pos⟩
  · simp only [State.take, counter, h.counter, List.length_cons]
  · rw [after]
    refine List.perm_middle.trans ?_
    have partition := h.partition
    rwa [before] at partition
  · have shift : s.extrInd + 1 + (N.n - (s.counterUgniNbi.toNat + 1)) =
        s.extrInd + (N.n - s.counterUgniNbi.toNat) := by omega
    simp only [State.take, counter, h.ins, Nat.mod_add_mod, shift]

/-- A descriptor in flight becomes the last of the free slots. -/
theorem recycle (h : Inv N s) {k d : ℕ} (found : s.inFlight[k]? = some d) :
    Inv N { s.free N d with inFlight := s.inFlight.eraseIdx k } := by
  obtain ⟨below, get⟩ := List.getElem?_eq_some_iff.mp found
  have capacity := h.capacity
  have used := h.counter
  have counter : (s.counterUgniNbi - 1).toNat = s.counterUgniNbi.toNat - 1 := toNat_pred (by omega)
  have more : N.n - (s.counterUgniNbi.toNat - 1) = N.n - s.counterUgniNbi.toNat + 1 := by omega
  have after : State.freeSlots N { s.free N d with inFlight := s.inFlight.eraseIdx k } =
      s.freeSlots N ++ [d] := by
    simp only [State.freeSlots, State.free, counter, more, arc_snoc, h.ins]
    rw [arc_write (by omega), Function.update_self]
  refine ⟨?_, ?_, ?_, h.extr⟩
  · simp only [State.free, counter, List.length_eraseIdx, if_pos below]
    omega
  · rw [after, List.append_assoc, List.singleton_append]
    have moved := List.getElem_cons_eraseIdx_perm below
    rw [get] at moved
    exact (moved.append_left _).trans h.partition
  · simp only [State.free, counter, more, h.ins, Nat.mod_add_mod, Nat.add_assoc]

theorem step (h : Inv N s) {a : Action} (move : step N s a = some t) : Inv N t := by
  cases a with
  | get =>
    simp only [Pool.step] at move
    split at move
    · split at move
      · cases move
        exact ⟨h.counter, h.partition, h.ins, h.extr⟩
      · rename_i room
        cases move
        exact h.take (by omega)
    · contradiction
  | dequeue k =>
    simp only [Pool.step, Option.map_eq_some_iff] at move
    obtain ⟨d, found, rfl⟩ := move
    exact h.recycle found
  | flushed =>
    simp only [Pool.step] at move
    split at move
    · contradiction
    · split at move
      · rename_i empty
        cases move
        have pos := N.pos
        exact h.take (by rw [empty]; exact pos)
      · contradiction

theorem sound (h : Inv N s) : Sound N s := by
  have distinct := h.partition.nodup_iff.mpr List.nodup_range
  rw [List.nodup_append] at distinct
  refine ⟨h.counter, h.capacity, distinct.1, fun d => ?_⟩
  have whole := h.partition.mem_iff (a := d)
  rw [List.mem_append, List.mem_range] at whole
  constructor
  · intro free
    exact ⟨whole.mp (.inl free), fun used => distinct.2.2 d free d used rfl⟩
  · rintro ⟨below, unused⟩
    exact (whole.mpr below).resolve_right unused

end Inv

/-- In every run the counter is the number of descriptors in flight, the slots from `extr_ind` on hold
the others, each once, and a descriptor that is handed out is one of these. -/
theorem descriptors_apart (run : Reach (step N) always init s) :
    Sound N s ∧ ∀ a t d, step N s a = some t → t.inFlight = d :: s.inFlight → d ∉ s.inFlight := by
  have inv : Inv N s := run.invariant (Inv.of_init N) fun _ _ _ h move _ => h.step move
  refine ⟨inv.sound, fun a t d move handed => ?_⟩
  have distinct := (inv.step move).partition.nodup_iff.mpr List.nodup_range
  rw [List.nodup_append, handed, List.nodup_cons] at distinct
  exact distinct.2.1.1

section Example

def three : CqEntries := ⟨3, by decide, by decide⟩

/-- Four descriptors are wanted of three, and the completions come in the wrong order. -/
def crowded : List Action :=
  [.get, .get, .dequeue 0, .get, .get, .get, .dequeue 1, .dequeue 0, .dequeue 0, .flushed]

theorem descriptors_apart_crowded : ∃ s : State, Reach (step three) always init s ∧
    s.inFlight = [2] ∧ s.freeSlots three = [1, 0] ∧ Sound three s := by
  have ran : (exec (step three) init crowded).map (fun s => (s.inFlight, s.freeSlots three)) =
      some ([2], [1, 0]) := by
    decide +kernel
  obtain ⟨s, run, trace⟩ := Option.map_eq_some_iff.mp ran
  obtain ⟨used, free⟩ := Prod.mk.inj trace
  have reach : Reach (step three) always init s := .of_exec _ run
  exact ⟨s, reach, used, free, (descriptors_apart reach).1⟩

end Example

end FoMPI.Pool
