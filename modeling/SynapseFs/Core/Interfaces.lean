import SynapseFs.Core.Oid
import SynapseFs.Core.Tensor

/-! The seams: where a checkpoint's rows come from, and where objects are read.

Each interface is a record of functions. What its users rely on is stated
beside it as a contract, so that one proof serves every implementation. -/
namespace SynapseFs.Core
open Lib

structure BufferEntry where
  tensor : String
  off : Nat
  nbytes : Nat
  group : String
  deriving DecidableEq, Repr

/-- `ITensorSource`, without the header bytes and the total that only a
checkout reads. `readUnits` returns the byte count and the buffer it was given. -/
structure TensorSource where
  bufferLayout : List BufferEntry
  tensorMeta : String → Option TensorMeta
  readUnits : String → Nat → Nat → Bytes → Outcome (Nat × Bytes)

/-- The source reads the rows of `data`, `unitBytes` each. -/
def TensorSource.ReadsRows (s : TensorSource) (name : String) (data : Bytes) (unitBytes : Nat) : Prop :=
  ∀ first count (out : Bytes), (first + count) * unitBytes ≤ data.length → out.length = count * unitBytes →
    s.readUnits name first count out = .ok (count * unitBytes, slice data (first * unitBytes) (count * unitBytes))

/-- The dimensions of every tensor are 64-bit. -/
def TensorSource.Typed (s : TensorSource) : Prop :=
  ∀ name m, s.tensorMeta name = some m → ∀ d ∈ m.shape, d < 2 ^ 64

/-- The reading half of `IBlockStore`. `readRange` returns the byte count and the
buffer it was given. -/
structure BlockReads where
  get : Oid → ObjectKind → Outcome Bytes
  readRange : Oid → ObjectKind → Nat → Bytes → Outcome (Nat × Bytes)

/-- The object is there: whole, and by ranges that are short only at its end. -/
def BlockReads.Serves (blocks : BlockReads) (oid : Oid) (kind : ObjectKind) (payload : Bytes) : Prop :=
  blocks.get oid kind = .ok payload ∧
    ∀ off out, off < 2 ^ 64 → blocks.readRange oid kind off out =
      .ok ((slice payload off out.length).length, filled (slice payload off out.length) out)

end SynapseFs.Core
