import SynapseFs.Core.Error

/-! The part of `.synapsefs/config` that is checked when it is loaded. -/
namespace SynapseFs.Core

structure RepoConfig where
  formatVersion : UInt32
  /-- Verification granularity, baked into every object written while in effect. -/
  chunkBytes : UInt64
  frameBytes : UInt64
  maxChainDepth : UInt32
  /-- `snapshot_alpha <= 0.0 || snapshot_alpha > 1.0`, in doubles. -/
  alphaOutside : Bool
  deriving DecidableEq

namespace RepoConfig

def validate (cfg : RepoConfig) : Outcome Unit :=
  if cfg.formatVersion = 0 then sfsErr .unsupportedFormatVersion "format_version is 0" ""
  else if cfg.chunkBytes = 0 then sfsErr .internal "chunk_bytes must be nonzero" ""
  else if cfg.frameBytes = 0 then sfsErr .internal "frame_bytes must be nonzero" ""
  else if cfg.maxChainDepth = 0 then sfsErr .internal "max_chain_depth must be nonzero" ""
  else if cfg.alphaOutside then sfsErr .internal "snapshot_alpha must be in (0, 1]" ""
  else .ok ()

theorem chunkBytes_pos {cfg : RepoConfig} (h : cfg.validate = .ok ()) : 0 < cfg.chunkBytes.toNat := by
  unfold validate at h
  split at h
  · exact absurd h sfsErr_ne_ok
  · split at h
    · exact absurd h sfsErr_ne_ok
    · next hne =>
      refine Nat.pos_of_ne_zero fun hzero => hne ?_
      exact UInt64.toNat_inj.mp hzero

end RepoConfig

end SynapseFs.Core
