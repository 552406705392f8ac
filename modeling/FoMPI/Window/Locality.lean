import Mathlib.Data.Int.Basic
import Mathlib.Tactic.Common

/-!
# Which ranks share a node

The part of a window descriptor that decides whether a transfer to or from a rank
goes through shared memory.
-/
namespace FoMPI.Window

structure Locality where
  /-- `create_flavor == foMPI_WIN_FLAVOR_DYNAMIC` -/
  dynamic : Bool
  onnodeLowerBound : ℤ
  onnodeUpperBound : ℤ
  onnodeRanks : List ℤ

namespace Locality

/-- `foMPI_onnode_rank_global_to_local`: a range search, or a scan of the list if the on-node ranks
are not contiguous. -/
def onnodeRankGlobalToLocal (w : Locality) (grank : ℤ) : ℤ :=
  if w.onnodeLowerBound ≤ grank ∧ grank ≤ w.onnodeUpperBound then grank - w.onnodeLowerBound
  else if w.onnodeLowerBound = -1 then
    match w.onnodeRanks.findIdx? (· = grank) with
    | some i => i
    | none => -1
  else -1

/-- Shared memory is used for on-node ranks of windows that are not dynamic. -/
def viaXpmem (w : Locality) (grank : ℤ) : Bool :=
  !w.dynamic && w.onnodeRankGlobalToLocal grank ≠ -1

end Locality

end FoMPI.Window
