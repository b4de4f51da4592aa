import SynapseFs.Lib.FinMap

/-! What alignment reports for each permutation group. -/
namespace SynapseFs.Align
open Lib

structure GroupMatch where
  /-- Empty means identity. -/
  permutation : List Nat
  identity : Bool
  alignable : Bool
  /-- The bits of a double. -/
  costRaw : UInt64
  costNormalized : UInt64
  deriving DecidableEq, Repr

structure MatchReport where
  groups : FinMap String GroupMatch

end SynapseFs.Align
