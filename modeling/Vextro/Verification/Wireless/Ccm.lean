import Mathlib.Data.Nat.Digits.Defs
import Mathlib.Data.List.Nodup
import Vextro.Model.NtCrypto

/-! # Counter blocks of CCM -/

namespace Vextro.Ccm

open List

/-- The number that bytes hold, the most significant first. -/
def value (bytes : List UInt8) : ℕ := Nat.ofDigits 256 (bytes.reverse.map UInt8.toNat)

/-- What stands in a block after its nonce: the length, or the counter. -/
def field (nonce block : List UInt8) : ℕ := value (block.drop (1 + nonce.length))

theorem trailing_value (x : ℕ) {i : ℕ} (hi : i ≤ 4) :
    ∃ t, trailing x i = some t ∧ t.length = i ∧ value t = x % 256 ^ i := by
  induction i with
  | zero => exact ⟨[], rfl, rfl, (Nat.mod_one x).symm⟩
  | succ i ih =>
    obtain ⟨t, ht, hlen, hval⟩ := ih (by omega)
    refine ⟨_, by rw [trailing, if_pos (by omega), ht, Option.map_some], by simp [hlen], ?_⟩
    rw [value] at hval ⊢
    rw [reverse_cons, map_append, Nat.ofDigits_append, hval, Nat.mod_pow_succ,
      Nat.shiftRight_eq_div_pow, Nat.mul_comm i 8, Nat.pow_mul]
    simp [hlen]

theorem trailing_eq_none {x i : ℕ} (hi : 4 < i) : trailing x i = none := by
  cases i with
  | zero => omega
  | succ i => exact if_neg (by omega)

section

variable {nonce : List UInt8}

theorem trailing_field (h : 11 ≤ nonce.length) (x : ℕ) :
    ∃ t, trailing x (15 - nonce.length) = some t ∧
      ∀ b, field nonce (b :: (nonce ++ t)) = x % 256 ^ (15 - nonce.length) := by
  obtain ⟨t, ht, -, hval⟩ := trailing_value x (show 15 - nonce.length ≤ 4 by omega)
  exact ⟨t, ht, fun b => by rw [field, Nat.add_comm, drop_succ_cons, drop_left, hval]⟩

theorem ccmCtrXor_fields (aes : List UInt8 → List UInt8) (h : 11 ≤ nonce.length)
    (data : List UInt8) (counter : ℕ)
    (hfits : counter + (data.length + 15) / 16 ≤ 256 ^ (15 - nonce.length)) :
    ∃ out blocks, ccmCtrXor aes nonce data counter = some (out, blocks) ∧
      blocks.map (field nonce) = range' counter ((data.length + 15) / 16) := by
  by_cases hd : data = []
  · exact ⟨[], [], by rw [ccmCtrXor, dif_pos hd], by simp [hd]⟩
  · have hpos := length_pos_iff.mpr hd
    have hn : (data.length + 15) / 16 = ((data.drop 16).length + 15) / 16 + 1 := by
      rw [length_drop]
      omega
    obtain ⟨t, ht, hf⟩ := trailing_field h counter
    obtain ⟨out, blocks, hb, hfs⟩ :=
      ccmCtrXor_fields aes h (data.drop 16) (counter + 1) (by omega)
    refine ⟨_, _ :: blocks, by rw [ccmCtrXor, dif_neg hd, ccmCtrBlock, ht, hb]; rfl, ?_⟩
    rw [map_cons, hf, hfs, hn, range'_succ, Nat.mod_eq_of_lt (by omega)]
termination_by data.length
decreasing_by
  rw [length_drop]
  omega

end

/-- The counter blocks of a message, the tag's and then the payload's, are distinct and its length
is stored whole exactly where the nonce leaves at most four bytes for the length, and it fits there.
-/
theorem ccm_keystream (aes : List UInt8 → List UInt8) (nonce pt : List UInt8) (aadlen taglen : ℕ)
    (h : ccmParamsOk nonce.length taglen) :
    (∃ b0 a0 out blocks, ccmBlock0 nonce aadlen pt.length taglen = some b0 ∧
      ccmCtrBlock nonce 0 = some a0 ∧
      ccmCtrXor aes nonce pt 1 = some (out, blocks) ∧ (a0 :: blocks).Nodup ∧
      field nonce b0 = pt.length) ↔
    11 ≤ nonce.length ∧ pt.length < 256 ^ (15 - nonce.length) := by
  constructor
  · rintro ⟨b0, _, _, _, hb0, -, -, -, hstored⟩
    have hlen : 11 ≤ nonce.length := by
      by_contra hshort
      rw [ccmBlock0, trailing_eq_none (by omega)] at hb0
      cases hb0
    obtain ⟨t, ht, hf⟩ := trailing_field hlen pt.length
    rw [ccmBlock0, ht, Option.map_some, Option.some_inj] at hb0
    rw [← hb0, hf] at hstored
    exact ⟨hlen, hstored ▸ Nat.mod_lt _ (Nat.pow_pos (by decide))⟩
  · rintro ⟨hlen, hfits⟩
    have hnonce : nonce.length ≤ 13 := by
      by_contra hlong
      simp [ccmParamsOk, show 13 < nonce.length by omega] at h
    have hroom : 256 ^ 2 ≤ 256 ^ (15 - nonce.length) :=
      Nat.pow_le_pow_right (by decide) (by omega)
    obtain ⟨t, ht, hf⟩ := trailing_field hlen pt.length
    obtain ⟨t0, ht0, hf0⟩ := trailing_field hlen 0
    obtain ⟨out, blocks, hb, hfs⟩ := ccmCtrXor_fields aes hlen pt 1 (by omega)
    refine ⟨_, _, out,
      blocks, by rw [ccmBlock0, ht, Option.map_some], by rw [ccmCtrBlock, ht0, Option.map_some],
      hb, Nodup.of_map (field nonce) ?_, (hf _).trans (Nat.mod_eq_of_lt hfits)⟩
    rw [map_cons, hf0, hfs, Nat.zero_mod]
    exact nodup_range' (s := 0) (n := _ + 1)

/-- A message of forty bytes takes three counter blocks besides the tag's. -/
theorem ccm_keystream_three_blocks : ccmParamsOk 13 8 ∧ ∃ b0 a0 out blocks,
    ccmBlock0 (replicate 13 0) 0 40 8 = some b0 ∧ ccmCtrBlock (replicate 13 0) 0 = some a0 ∧
      ccmCtrXor id (replicate 13 0) (replicate 40 7) 1 = some (out, blocks) ∧
      (a0 :: blocks).Nodup ∧ field (replicate 13 0) b0 = 40 :=
  ⟨by decide, (ccm_keystream id (replicate 13 0) (replicate 40 7) 0 8 (by decide)).mpr (by decide)⟩

/-- A nonce of thirteen bytes leaves two for the length, too few for 65536. -/
theorem long_message_length_lost : ccmParamsOk 13 8 ∧
    (ccmBlock0 (replicate 13 0) 0 65536 8).map (field (replicate 13 0)) = some 0 := by
  decide

end Vextro.Ccm
