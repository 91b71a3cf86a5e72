import Mathlib.Data.Nat.Notation

/-! CCM, as `ntcrypto.h` builds it over the block cipher: the blocks that `aes_ccm_encrypt` and
`aes_ccm_decrypt` hand to it. -/

namespace Vextro.Ccm

def ccmParamsOk (noncelen taglen : ℕ) : Bool :=
  if noncelen < 7 ∨ 13 < noncelen then false
  else if taglen < 4 ∨ 16 < taglen ∨ taglen % 2 = 1 then false
  else true

/-- The trailing bytes of a block: byte `15 - i` is `x >> (i * 8)`, which C leaves undefined
from 32 on. -/
def trailing (x : ℕ) : ℕ → Option (List UInt8)
  | 0 => some []
  | i + 1 => if i * 8 < 32 then (trailing x i).map (UInt8.ofNat (x >>> (i * 8)) :: ·) else none

def ccmBlock0 (nonce : List UInt8) (aadlen ptlen taglen : ℕ) : Option (List UInt8) :=
  let L := 15 - nonce.length
  let flags := (if aadlen ≠ 0 then 0x40 else 0) ||| ((taglen - 2) / 2) <<< 3 ||| (L - 1)
  (trailing ptlen L).map fun t => UInt8.ofNat flags :: (nonce ++ t)

def ccmCtrBlock (nonce : List UInt8) (counter : ℕ) : Option (List UInt8) :=
  let L := 15 - nonce.length
  (trailing counter L).map fun t => UInt8.ofNat (L - 1) :: (nonce ++ t)

/-- `ccm_ctr_xor` from a counter on: what it writes, and the blocks it encrypts for that. -/
def ccmCtrXor (aes : List UInt8 → List UInt8) (nonce data : List UInt8) (counter : ℕ) :
    Option (List UInt8 × List (List UInt8)) :=
  if h : data = [] then some ([], [])
  else
    (ccmCtrBlock nonce counter).bind fun a =>
      (ccmCtrXor aes nonce (data.drop 16) (counter + 1)).map fun (out, blocks) =>
        (List.zipWith (· ^^^ ·) (data.take 16) (aes a) ++ out, a :: blocks)
termination_by data.length
decreasing_by
  have := List.length_pos_iff.mpr h
  simp only [List.length_drop]
  omega

end Vextro.Ccm
