import FoMPI.Foundation.Bytes
import Mathlib.Data.Int.ModEq
import Mathlib.Data.Nat.Bitwise

/-!
# `sse_memcpy`

The copy behind the shared memory transfers: bytes up to the next 16-byte boundary, blocks of
256 bytes through the sixteen `xmm` registers, and the rest. The aligned loop is used if source and
destination have the same offset from a boundary.
-/
namespace FoMPI.Memcpy

open FoMPI.Foundation

variable {β : Type*}

/-- The memory and the variables `to`, `from` (as the addresses `dst`, `src`) and `len` of the call. -/
structure Vars (β : Type*) where
  mem : ℤ → β
  dst : ℕ
  src : ℕ
  len : ℕ

/-- `memcpy(to, from, n)` of the library, on ranges that do not overlap. -/
def memcpy (mem : ℤ → β) (dst src n : ℕ) : ℤ → β := copied mem dst src n

/-- A load into a register: `movaps` faults on an address that is not a multiple of 16, `movups`
takes any. -/
def loadXmm (aligned : Bool) (mem : ℤ → β) (a : ℕ) : Option (List β) :=
  if aligned ∧ a % 16 ≠ 0 then none else some (load mem a 16)

def storeXmm (aligned : Bool) (mem : ℤ → β) (a : ℕ) (xmm : List β) : Option (ℤ → β) :=
  if aligned ∧ a % 16 ≠ 0 then none else some (store mem a xmm)

/-- Loads into `n` registers, each 16 bytes behind the one before. -/
def loadAll (aligned : Bool) (mem : ℤ → β) : ℕ → ℕ → Option (List (List β))
  | _, 0 => some []
  | a, n + 1 => do
    let xmm ← loadXmm aligned mem a
    let others ← loadAll aligned mem (a + 0x10) n
    return xmm :: others

def storeAll (aligned : Bool) (mem : ℤ → β) (a : ℕ) : List (List β) → Option (ℤ → β)
  | [] => some mem
  | xmm :: others => do
    let mem ← storeXmm aligned mem a xmm
    storeAll aligned mem (a + 0x10) others

/-- The body of a loop: `xmm0` to `xmm15` are all loaded before the first is stored. -/
def moveBlock (aligned : Bool) (mem : ℤ → β) (dst src : ℕ) : Option (ℤ → β) := do
  let xmms ← loadAll aligned mem src 16
  storeAll aligned mem dst xmms

/-- `len & ~0xff`: the conversion to `size_t` extends the sign of the mask. -/
def blocksEnd (len : ℕ) : ℕ := len &&& (2 ^ 64 - 0x100)

/-- A loop over the blocks. Its counter is an `int`, compared as a `size_t`; `none` is a fault, or a
loop that is not done after `fuel` tests. -/
def blockLoop (aligned : Bool) : ℕ → ℤ → Vars β → Option (Vars β)
  | 0, _, _ => none
  | fuel + 1, i, v =>
    if (i % 2 ^ 64).toNat < blocksEnd v.len then do
      let mem ← moveBlock aligned v.mem v.dst v.src
      blockLoop aligned fuel ((i + 256).bmod (2 ^ 32))
        { v with mem := mem, dst := v.dst + 256, src := v.src + 256 }
    else some v

/-- The check `(src ^ dst) & 0xf`. -/
def sameOffset (dst src : ℕ) : Bool := (src ^^^ dst) &&& 0xf = 0

/-- The bytes up to the next 16-byte boundary, at most `len`. -/
def chunk (src len : ℕ) : ℕ :=
  if 0x10 - (src &&& 0xf) > len then len else 0x10 - (src &&& 0xf)

/-- The state in which the aligned loop is reached. -/
def prologue (v : Vars β) : Vars β :=
  if v.src &&& 0xf ≠ 0 then
    let n := chunk v.src v.len
    { mem := memcpy v.mem v.dst v.src n, dst := v.dst + n, src := v.src + n, len := v.len - n }
  else v

/-- The label `trailer`. -/
def trailer (v : Vars β) : ℤ → β := memcpy v.mem v.dst v.src (v.len &&& 0xff)

/-- The arguments of a call. -/
def entry (mem : ℤ → β) (dst src len : ℕ) : Vars β := { mem := mem, dst := dst, src := src, len := len }

def sseMemcpy (fuel : ℕ) (mem : ℤ → β) (dst src len : ℕ) : Option (ℤ → β) :=
  if sameOffset dst src then (blockLoop true fuel 0 (prologue (entry mem dst src len))).map trailer
  else (blockLoop false fuel 0 (entry mem dst src len)).map trailer

end FoMPI.Memcpy
