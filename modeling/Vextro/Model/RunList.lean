import Vextro.Model.Volume
import Vextro.Model.Regions

/-! Run lists as bytes, and the walk over them, after `ntfs_ops.c`. Memory is read by offset. -/

namespace Vextro.RunList

open Ntfs (Run)
open Regions (rdLE)

/-- What `ntfs_next_run` returns, and where it has got to. -/
structure RunStep where
  run : Option Run
  next : ℕ
  prev : UInt64

/-- One byte after the other; the processor takes a shift modulo 64. -/
def gather (mem : ℕ → UInt8) (p n : ℕ) : UInt64 :=
  (List.range n).foldl (fun x i => x ||| (mem (p + i)).toUInt64 <<< UInt64.ofNat (i * 8)) 0

def signBit (bits : ℕ) (x : UInt64) : Bool := x &&& (1 <<< UInt64.ofNat (bits - 1)) ≠ 0

/-- From the width that the run used. -/
def signExtend (bits : ℕ) (x : UInt64) : UInt64 :=
  if bits < 64 ∧ signBit bits x then x ||| ((0 - 1) <<< UInt64.ofNat bits) else x

def lenSize (hdr : UInt8) : ℕ := (hdr &&& 0x0F).toNat

def offSize (hdr : UInt8) : ℕ := (hdr >>> 4 &&& 0x0F).toNat

def ntfsNextRun (mem : ℕ → UInt8) (p stop : ℕ) (prev : UInt64) : RunStep :=
  if stop ≤ p then ⟨none, p, prev⟩
  else if mem p = 0 then ⟨none, p, prev⟩
  else
    let n := lenSize (mem p)
    let k := offSize (mem p)
    let q := p + 1
    if n = 0 ∨ stop < q + n + k then ⟨none, q, prev⟩
    else
      let length := (gather mem q n).toNat
      if k = 0 then ⟨some ⟨0, length, true⟩, q + n, prev⟩
      else
        let lcn := prev + signExtend (k * 8) (gather mem (q + n) k)
        ⟨some ⟨lcn.toNat, length, false⟩, q + n + k, lcn⟩

/-- Runs until there is no more; `none` if that takes more than so many calls. -/
def readRuns (mem : ℕ → UInt8) (stop : ℕ) : ℕ → ℕ → UInt64 → Option (List Run)
  | 0, _, _ => none
  | fuel + 1, p, prev =>
    let s := ntfsNextRun mem p stop prev
    match s.run with
    | none => some []
    | some r => (readRuns mem stop fuel s.next s.prev).map (r :: ·)

end Vextro.RunList
