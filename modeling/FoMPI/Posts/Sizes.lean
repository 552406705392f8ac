import FoMPI.Posts.Alignment

/-!
# Sizes of the fast path

`foMPI_Put` and `foMPI_Get` of an intrinsic datatype: the size is a product of two `int`s,
and DMAPP moves it in words of sixteen bytes and a rest, with counts in `uint64_t` and an
offset in an `int`.
-/
namespace FoMPI.Posts
open FoMPI.Dcache FoMPI.Foundation FoMPI.RmaNotify FoMPI.Window

/-- `DMAPP_DQW` and `DMAPP_BYTE` -/
inductive DmappType
  | dqw | byte

def DmappType.size : DmappType → ℕ
  | dqw => 16
  | byte => 1

/-- One `dmapp_put_nbi` or `dmapp_get_nbi`, at an offset from both addresses. -/
structure SubTransfer where
  offset : ℤ
  nelements : ℕ
  type : DmappType

namespace SubTransfer

/-- The offsets of its bytes. -/
def bytes (p : SubTransfer) : List ℤ := (List.range (p.nelements * p.type.size)).map fun k : ℕ => p.offset + k

def chunk (x : Span) (p : SubTransfer) : Chunk :=
  ⟨x.originOffset + p.offset, x.targetOffset + p.offset, p.nelements * p.type.size⟩

end SubTransfer

section Dmapp
variable (size : ℤ)

/-- `nelements`, a `uint64_t` -/
def nelements : ℕ := (Int.tdiv size 16 % 18446744073709551616).toNat

/-- `offset_modulo`, an `int` -/
def offsetModulo : ℤ := Int.bmod (nelements size * 16 % 18446744073709551616) 4294967296

/-- `nelements_modulo`, a `uint64_t` -/
def nelementsModulo : ℕ := ((size - offsetModulo size) % 18446744073709551616).toNat

/-- `dmapp_simple_put` and `dmapp_simple_get` -/
def dmappSimple : List SubTransfer :=
  (if nelements size ≠ 0 then [⟨0, nelements size, .dqw⟩] else []) ++
    if nelementsModulo size ≠ 0 then [⟨offsetModulo size, nelementsModulo size, .byte⟩] else []

end Dmapp

section Cover
variable {size : ℤ} {n : ℕ}

theorem nelements_eq (n : ℕ) (small : n < 9223372036854775808) : nelements n = n / 16 := by
  rw [nelements, Int.tdiv_eq_ediv_of_nonneg (Int.natCast_nonneg n)]
  omega

theorem offsetModulo_eq (small : n < 9223372036854775808) : offsetModulo n = RmaNotify.offsetModulo n := by
  unfold offsetModulo RmaNotify.offsetModulo
  rw [nelements_eq n small]
  congr 1
  omega

theorem nelementsModulo_eq (small : n < 9223372036854775808) : nelementsModulo n = RmaNotify.nelementsModulo n := by
  have le := offsetModulo_le n
  have lower : -2147483648 ≤ RmaNotify.offsetModulo n := Int.le_bmod (by decide)
  unfold nelementsModulo RmaNotify.nelementsModulo
  rw [offsetModulo_eq small]
  omega

theorem foldl_if {α β : Type*} {p : Prop} [Decidable p] (f : β → α → β) (b : β) (x : α) :
    (if p then [x] else []).foldl f b = if p then f b x else b := by
  split <;> rfl

/-- For sizes of less than 2^63 bytes these are the operations of the model of notified transfers. -/
theorem dmappSimple_eq (net : Net) (operation : Operation) (x : Span) (nonneg : 0 ≤ x.size)
    (small : x.size < 9223372036854775808) :
    net.dmappSimple operation x.chunk =
      (dmappSimple x.size).foldl (fun net p => net.dmapp operation (p.chunk x)) net := by
  obtain ⟨o, t, size⟩ := x
  obtain ⟨n, rfl⟩ := Int.eq_ofNat_of_zero_le nonneg
  have small' : n < 9223372036854775808 := Int.ofNat_lt.mp small
  rw [Net.dmappSimple, Span.chunk, Int.toNat_natCast, dmappSimple, nelements_eq n small', offsetModulo_eq small',
    nelementsModulo_eq small', List.foldl_append, foldl_if, foldl_if]
  simp only [SubTransfer.chunk, DmappType.size, add_zero, Nat.mul_one]

theorem bytes_if {p : Prop} [Decidable p] (offset : ℤ) (n : ℕ) (type : DmappType) (some_bytes : p ↔ n ≠ 0) :
    (if p then [⟨offset, n, type⟩] else []).flatMap SubTransfer.bytes = SubTransfer.bytes ⟨offset, n, type⟩ := by
  split
  · simp
  · rename_i nothing
    simp [SubTransfer.bytes, not_not.mp (mt some_bytes.mpr nothing)]

/-- While the size is an `int` the sub-transfers have every byte once, in order. -/
theorem dmappSimple_bytes (small : n < 2147483648) :
    (dmappSimple n).flatMap SubTransfer.bytes = (List.range n).map fun k : ℕ => (k : ℤ) := by
  have offset : offsetModulo n = (n / 16 * 16 : ℕ) := by
    rw [offsetModulo_eq (by omega), RmaNotify.offsetModulo_eq small]
    omega
  have rest : nelementsModulo n = n - n / 16 * 16 := by
    unfold nelementsModulo
    rw [offset]
    omega
  have split : List.range n = List.range (n / 16 * 16) ++ (List.range (n - n / 16 * 16)).map (n / 16 * 16 + ·) := by
    rw [← List.range_add, Nat.add_sub_of_le (Nat.div_mul_le_self n 16)]
  rw [dmappSimple, List.flatMap_append, bytes_if _ _ _ Iff.rfl, bytes_if _ _ _ Iff.rfl, nelements_eq n (by omega),
    offset, rest, split, List.map_append, List.map_map]
  simp [SubTransfer.bytes, DmappType.size, Function.comp_def]

end Cover

section FastPath
variable {ι : Type*} [DecidableEq ι] {D : Datatypes ι} {W : Win} {a : Request ι} {k : Intrinsic}

/-- The communication function of `foMPI_Put` and `foMPI_Get`. -/
def commfunc (W : Win) (a : Request ι) (x : Span) : Call :=
  if W.locality.viaXpmem a.targetRank then .xpmemSimple a.operation x else .dmappSimple a.operation x

/-- The communication function is called once, for all `n` bytes, and DMAPP moves each of them once. -/
def MovesEveryByte (D : Datatypes ι) (W : Win) (layout : Layout ι) (a : Request ι) (fuel : ℕ) (cache : GlobInfo ι)
    (n : ℕ) : Prop :=
  ∃ x : Span, rma D W layout a fuel cache = some (cache, [commfunc W a x]) ∧
    x.originOffset = a.originAddr ∧ x.targetOffset = a.targetOffset W ∧ x.size = n ∧
    (dmappSimple x.size).flatMap SubTransfer.bytes = (List.range n).map fun k : ℕ => (k : ℤ)

omit [DecidableEq ι] in
theorem commfunc_injective : Function.Injective (commfunc W a) := by
  intro x y same
  unfold commfunc at same
  split at same
  · exact (Call.xpmemSimple.inj same).2
  · exact (Call.dmappSimple.inj same).2

/-- The product is formed in an `int`. -/
theorem rma_fast (static : W.locality.dynamic = false) (same : a.origin.1 = a.target.1)
    (intrinsic : D.intrinsic a.origin.1 = some k) (count : 1 ≤ a.origin.2) (count' : a.target.2 ≠ 0)
    (layout : Layout ι) (fuel : ℕ) (cache : GlobInfo ι) :
    rma D W layout a fuel cache = some (cache, [commfunc W a
      ⟨a.originAddr, a.targetOffset W, Int.bmod (a.origin.2 * k.size) 4294967296⟩]) := by
  have fast : fastPath D W a = some (Int.bmod (a.origin.2 * k.size) 4294967296) := by
    rw [fastPath, if_neg (by simp [static]), if_pos same, intrinsic]
    rfl
  rw [rma, if_neg (by omega)]
  unfold commfunc
  split
  · rw [communicationAndDatatypeHandling, fast]
  · rw [communicationAndDatatypeHandling, fast]

/-- For every count, every intrinsic datatype of the fast path, every window that is not dynamic and
every target: all bytes are handed over and moved once exactly if their number is an `int`. -/
theorem movesEveryByte_iff (static : W.locality.dynamic = false) (same : a.origin.1 = a.target.1)
    (intrinsic : D.intrinsic a.origin.1 = some k) (count : 1 ≤ a.origin.2) (count' : a.target.2 ≠ 0)
    (layout : Layout ι) (fuel : ℕ) (cache : GlobInfo ι) :
    MovesEveryByte D W layout a fuel cache (a.origin.2 * k.size).toNat ↔ a.origin.2 * k.size < 2147483648 := by
  have run := rma_fast static same intrinsic count count' layout fuel cache
  have nonneg : 0 ≤ a.origin.2 * k.size := mul_nonneg (by omega) (Int.natCast_nonneg _)
  constructor
  · rintro ⟨x, called, -, -, size, -⟩
    obtain ⟨-, one⟩ := Prod.mk.inj (Option.some.inj (run.symm.trans called))
    obtain rfl := commfunc_injective (List.singleton_injective one)
    have below : Int.bmod (a.origin.2 * k.size) 4294967296 < 2147483648 := Int.bmod_lt (by decide)
    dsimp only at size
    omega
  · intro small
    have exact_size : Int.bmod (a.origin.2 * k.size) 4294967296 = (a.origin.2 * k.size).toNat := by
      unfold Int.bmod
      dsimp only
      split <;> omega
    refine ⟨_, run, rfl, rfl, exact_size, ?_⟩
    rw [exact_size]
    exact dmappSimple_bytes (by omega)

section Runs

/-- A put of `n` doubles. -/
def putDoubles (n : ℤ) : Request Unit := ⟨.put, 64, ((), n), 0, 0, ((), n), 7⟩

/-- With 2^29 doubles the product is zero: the call succeeds and moves nothing. -/
theorem movesEveryByte_fails :
    (rma double remote doubles (putDoubles 536870912) 0 (coldCache Unit) =
        some (coldCache Unit, [.dmappSimple .put ⟨64, 4096, 0⟩]) ∧ dmappSimple 0 = []) ∧
      ¬MovesEveryByte double remote doubles (putDoubles 536870912) 0 (coldCache Unit) 4294967296 := by
  have run : rma double remote doubles (putDoubles 536870912) 0 (coldCache Unit) =
      some (coldCache Unit, [.dmappSimple .put ⟨64, 4096, 0⟩]) := rfl
  refine ⟨⟨run, by decide⟩, ?_⟩
  rintro ⟨x, called, -, -, size, -⟩
  obtain ⟨-, one⟩ := Prod.mk.inj (Option.some.inj (run.symm.trans called))
  have zero : commfunc remote (putDoubles 536870912) ⟨64, 4096, 0⟩ = .dmappSimple .put ⟨64, 4096, 0⟩ := rfl
  obtain rfl := commfunc_injective (zero.trans (List.singleton_injective one))
  contradiction

/-- The largest count of characters. -/
theorem movesEveryByte_chars :
    MovesEveryByte chars twoNodes charLayout (getChars 8192 2147483647) 0 (coldCache Unit) 2147483647 :=
  (movesEveryByte_iff (k := .char) rfl rfl rfl (by decide) (by decide) charLayout 0 (coldCache Unit)).mpr (by decide)

end Runs

end FastPath

end FoMPI.Posts
