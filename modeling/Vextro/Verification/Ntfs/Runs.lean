import Vextro.Model.RunList
import Vextro.Verification.Shared.Regions
import Mathlib.Data.Nat.Bitwise
import Mathlib.Tactic.IntervalCases
import Mathlib.Tactic.Positivity

/-! Run lists: what the encoder writes, the decoder reads back. -/

namespace Vextro.RunList

open Ntfs (Run lengthBytes offsetBytes encodeRunsFrom ntfsEncodeRuns)
open List
open Regions (rdLE rdLE_lt rdLE_succ)

variable {mem : ℕ → UInt8} {p n k m stop cap : ℕ} {prev x : UInt64} {d : ℤ}
  {bs lb ob bytes : List UInt8}
variable {runs : List Run} {out : List UInt8}

/-! ## Machine numbers -/

theorem rdLE_snoc (n : ℕ) (e : ℕ → UInt8) (offset : ℕ) :
    rdLE (n + 1) e offset = 256 ^ n * (e (offset + n)).toNat + rdLE n e offset := by
  induction n generalizing offset with
  | zero => simp [rdLE]
  | succ n ih =>
    rw [rdLE_succ (n + 1), ih, rdLE_succ n, pow_succ', add_assoc offset, add_comm 1]
    ring

theorem toNat_shl (x : UInt64) (hk : k < 64) :
    (x <<< UInt64.ofNat k).toNat = x.toNat * 2 ^ k % 2 ^ 64 := by
  rw [UInt64.toNat_shiftLeft, UInt64.toNat_ofNat', Nat.mod_eq_of_lt (by omega : k < 2 ^ 64),
    Nat.mod_eq_of_lt hk, Nat.shiftLeft_eq]

/-- Up to eight bytes, no shift drops a bit. -/
theorem gather_toNat (hn : n ≤ 8) : (gather mem p n).toNat = rdLE n mem p := by
  induction n with
  | zero => rfl
  | succ n ih =>
    have hlt : rdLE n mem p < 2 ^ (n * 8) := by rw [mul_comm, pow_mul]; exact rdLE_lt n mem p
    have hfit : (mem (p + n)).toNat * 2 ^ (n * 8) < 2 ^ 64 := calc
      _ < 2 ^ 8 * 2 ^ (n * 8) := Nat.mul_lt_mul_of_pos_right (mem (p + n)).toNat_lt (by positivity)
      _ ≤ 2 ^ 64 := by rw [← pow_add]; exact Nat.pow_le_pow_right (by omega) (by omega)
    rw [gather, range_succ, foldl_append, ← gather]
    simp only [foldl_cons, foldl_nil, UInt64.toNat_or, ih (by omega),
      toNat_shl _ (by omega : n * 8 < 64), UInt8.toNat_toUInt64, Nat.mod_eq_of_lt hfit]
    rw [rdLE_snoc, Nat.or_comm, mul_comm _ (2 ^ _), ← Nat.two_pow_add_eq_or_of_lt hlt,
      mul_comm n 8, pow_mul]
    rfl

theorem signBit_iff (hk : k < 63) (hx : x.toNat < 2 ^ (k + 1)) :
    signBit (k + 1) x ↔ 2 ^ k ≤ x.toNat := by
  have hp : 2 ^ k < 2 ^ 64 := Nat.pow_lt_pow_right (by omega) (by omega)
  have hand : (x &&& (1 <<< UInt64.ofNat k)).toNat = (x.toNat.testBit k).toNat * 2 ^ k := by
    rw [UInt64.toNat_and, toNat_shl _ (by omega : k < 64), UInt64.toNat_one, one_mul,
      Nat.mod_eq_of_lt hp, Nat.and_two_pow]
  have hdiv : x.toNat / 2 ^ k <
      2 := by rw [Nat.div_lt_iff_lt_mul (by positivity)]; rwa [pow_succ'] at hx
  have hle : 1 ≤ x.toNat / 2 ^ k ↔
      2 ^ k ≤ x.toNat := by rw [Nat.le_div_iff_mul_le (by positivity), one_mul]
  rw [signBit, decide_eq_true_iff, Nat.add_sub_cancel, Ne, ← UInt64.toNat_inj, hand,
    Nat.testBit_eq_decide_div_mod_eq, ← hle]
  interval_cases x.toNat / 2 ^ k <;> simp

/-- A number with a sign, of `n + 1` bytes, read back at 64 bits. -/
theorem signExtend_toNat (hn : n ≤ 6) (hx : (x.toNat : ℤ) = d % 256 ^ (n + 1))
    (hlo : -(128 * 256 ^ n) ≤ d) (hhi : d < 128 * 256 ^ n) :
    ((signExtend ((n + 1) * 8) x).toNat : ℤ) = d % 2 ^ 64 := by
  have hlt : x.toNat < 2 ^ ((n + 1) * 8) := by
    have := Int.emod_lt_of_pos d (by positivity : (0 : ℤ) < 256 ^ (n + 1))
    rw [← hx] at this
    rw [mul_comm, pow_mul]
    exact_mod_cast this
  have hs : signBit ((n + 1) * 8) x ↔ 2 ^ (n * 8 + 7) ≤ x.toNat := by
    rw [add_mul] at hlt ⊢
    exact signBit_iff (by omega) hlt
  by_cases hneg : 2 ^ (n * 8 + 7) ≤ x.toNat
  · rw [signExtend, if_pos ⟨by omega, hs.2 hneg⟩, UInt64.toNat_or, toNat_shl _ (by omega)]
    have hones : (0 - 1 : UInt64).toNat * 2 ^ ((n + 1) * 8) % 2 ^ 64 = 2 ^
        ((n + 1) * 8) * (2 ^ (64 - (n + 1) * 8) - 1) := by
      interval_cases n <;> rfl
    rw [hones, Nat.or_comm, ← Nat.two_pow_add_eq_or_of_lt hlt]
    interval_cases n <;> norm_num at * <;> omega
  · rw [signExtend, if_neg fun h => hneg (hs.1 h.2)]
    interval_cases n <;> norm_num at * <;> omega

/-! ## What the encoder writes -/

/-- Bytes as a number, the lowest one first. -/
def num : List UInt8 → ℕ
  | [] => 0
  | b :: bs => b.toNat + 256 * num bs

def Holds (mem : ℕ → UInt8) (p : ℕ) (bs : List UInt8) : Prop :=
  ∀ i, (h : i < bs.length) → mem (p + i) = bs[i]

theorem holds_cons {b : UInt8} : Holds mem p (b :: bs) ↔ mem p = b ∧ Holds mem (p + 1) bs := by
  refine ⟨fun h => ⟨h 0 (by simp), fun i hi => ?_⟩, fun h i hi => ?_⟩
  · rw [add_assoc, add_comm 1]
    exact h (i + 1) (by simpa using hi)
  cases i with
  | zero => exact h.1
  | succ i => simpa [add_assoc, add_comm 1] using h.2 i (by simpa using hi)

theorem holds_append : Holds mem p (lb ++ ob) ↔ Holds mem p lb ∧ Holds mem (p + lb.length) ob := by
  induction lb generalizing p with
  | nil => simp [Holds]
  | cons b bs ih =>
    simp only [cons_append, holds_cons, ih, and_assoc, length_cons, add_assoc, add_comm 1]

theorem Holds.rdLE (h : Holds mem p bs) : rdLE bs.length mem p = num bs := by
  induction bs generalizing p with
  | nil => rfl
  | cons b bs ih => rw [length_cons, rdLE_succ, (holds_cons.1 h).1, ih (holds_cons.1 h).2, num]

theorem lengthBytes_spec (hv : n < 256 ^ k) (hk : k ≤ m) :
    num (lengthBytes m n) = n ∧ (lengthBytes m n).length ≤ k ∧
    (n ≠ 0 → 1 ≤ (lengthBytes m n).length) := by
  induction m generalizing n k with
  | zero => simp_all [lengthBytes, num]
  | succ m ih =>
    rw [lengthBytes]
    split
    · simp_all [num]
    obtain ⟨k, rfl⟩ : ∃ j, k = j + 1 := ⟨k - 1, by cases k <;> simp_all⟩
    obtain ⟨hnum, hlen, -⟩ := ih (n := n / 256) (k := k) (by rw [pow_succ] at hv; omega) (by omega)
    simp [num, hnum, hlen, Nat.mod_add_div]

/-- As few bytes as leave room for the sign. -/
theorem offsetBytes_spec (hlo : -(128 * 256 ^ k) ≤ d) (hhi : d < 128 * 256 ^ k) (hk : k < m) :
    ∃ l ≤ k, (offsetBytes (d < 0) m d).length = l + 1 ∧
    (num (offsetBytes (d < 0) m d) : ℤ) = d % 256 ^ (l + 1) ∧
      -(128 * 256 ^ l) ≤ d ∧ d < 128 * 256 ^ l := by
  induction m generalizing d k with
  | zero => omega
  | succ m ih =>
    have hb : (UInt8.ofNat (d % 256).toNat).toNat =
        (d % 256).toNat := by rw [UInt8.toNat_ofNat']; omega
    have hcmp : (0x80 : UInt8) ≤ UInt8.ofNat (d % 256).toNat ↔
        128 ≤ d % 256 := by rw [UInt8.le_iff_toNat_le]; simp; omega
    have hk0 : (d < -128 ∨ 128 ≤ d) → 1 ≤ k := by
      intro h; by_contra hc; obtain rfl : k = 0 := by omega
      omega
    have hsign : decide (d / 256 < 0) = decide (d < 0) := by simp; omega
    rw [offsetBytes]
    simp only [hcmp, Bool.and_eq_true, Bool.not_eq_true', decide_eq_true_eq,
      decide_eq_false_iff_not]
    split_ifs with h0 hbig h1 hbig
    · exact ⟨1, by omega, by simp, by simp [num]; omega, by omega, by omega⟩
    · exact ⟨0, by omega, by simp, by simp [num]; omega, by omega, by omega⟩
    · exact ⟨0, by omega, by simp, by simp [num]; omega, by omega, by omega⟩
    · exact ⟨1, by omega, by simp, by simp [num]; omega, by omega, by omega⟩
    obtain ⟨k, rfl⟩ : ∃ j, k = j + 1 := ⟨k - 1, by omega⟩
    obtain ⟨l, hl, hlen, hnum, hlo', hhi'⟩ :=
      ih (d := d / 256) (k := k) (by omega) (by omega) (by omega)
    rw [hsign] at hlen hnum
    refine ⟨l + 1, by omega, by simp [hlen], ?_, by omega, by omega⟩
    rw [num, Nat.cast_add, Nat.cast_mul, hnum, hb, pow_succ' _ (l + 1)]
    rw [Int.emod_def d (256 * _), ← Int.ediv_ediv_of_nonneg (by norm_num), Int.emod_def (d / 256),
      Int.toNat_of_nonneg (by omega), Int.emod_def d]
    ring

/-! ## The round trip -/

theorem header_lenSize (hn : n < 8) (hk : k < 8) : lenSize (UInt8.ofNat (k * 16 + n)) = n := by
  interval_cases n <;> interval_cases k <;> rfl

theorem header_offSize (hn : n < 8) (hk : k < 8) : offSize (UInt8.ofNat (k * 16 + n)) = k := by
  interval_cases n <;> interval_cases k <;> rfl

def lenPart (length : ℕ) : List UInt8 := if length = 0 then [0] else lengthBytes 8 length

def offPart (d : ℤ) : List UInt8 := if d = 0 then [0] else offsetBytes (d < 0) 8 d

def piece (r : Run) (before : ℤ) : List UInt8 :=
  UInt8.ofNat ((offPart (r.lcn - before)).length * 16 + (lenPart r.length).length) ::
    (lenPart r.length ++ offPart (r.lcn - before))

theorem lenPart_spec {length : ℕ} (h : length < 2 ^ 55) :
    ∃ n ≤ 6, (lenPart length).length = n + 1 ∧ num (lenPart length) = length := by
  rw [lenPart]
  split
  · exact ⟨0, by omega, rfl, by simp_all [num]⟩
  · obtain ⟨hnum, hlen, hpos⟩ := lengthBytes_spec (by omega : length < 256 ^ 7) (by omega : 7 ≤ 8)
    exact ⟨(lengthBytes 8 length).length - 1, by omega, (Nat.sub_add_cancel (hpos ‹_›)).symm, hnum⟩

theorem offPart_spec (hlo : -2 ^ 55 ≤ d) (hhi : d < 2 ^ 55) :
    ∃ k ≤ 6, (offPart d).length = k + 1 ∧ (num (offPart d) : ℤ) = d % 256 ^ (k + 1) ∧
    -(128 * 256 ^ k) ≤ d ∧
      d < 128 * 256 ^ k := by
  rw [offPart]
  split
  · exact ⟨0, by omega, rfl, by simp_all [num], by omega, by omega⟩
  · exact offsetBytes_spec (by omega) (by omega) (by omega)

theorem ntfsNextRun_piece {r : Run} {before : ℕ} (hr : r.length < 2 ^ 55 ∧ r.lcn < 2 ^ 55)
    (hbefore : before < 2 ^ 55) (h : Holds mem p (piece r before))
    (hstop : p + (piece r before).length ≤ stop) :
    (ntfsNextRun mem p stop (UInt64.ofNat before)).run = some ⟨r.lcn, r.length, false⟩ ∧
      (ntfsNextRun mem p stop (UInt64.ofNat before)).next = p + (piece r before).length ∧
      (ntfsNextRun mem p stop (UInt64.ofNat before)).prev = UInt64.ofNat r.lcn := by
  obtain ⟨n, hn, hl, hnum⟩ := lenPart_spec hr.1
  obtain ⟨k, hk, ho, hd, hlo, hhi⟩ :=
    offPart_spec (by omega : -2 ^ 55 ≤ (r.lcn - before : ℤ)) (by omega)
  have hsize : (piece r before).length = 1 + (n + 1) + (k + 1) := by simp [piece, ho]; omega
  obtain ⟨hhdr, hrest⟩ := holds_cons.1 h
  obtain ⟨hlb, hob⟩ := holds_append.1 hrest
  have hls : lenSize (mem p) = n + 1 := by rw [hhdr, hl, header_lenSize (by omega) (by omega)]
  have hos : offSize (mem p) = k + 1 := by rw [hhdr, ho, header_offSize (by omega) (by omega)]
  have h0 : mem p ≠ 0 := fun h0 => by rw [h0] at hls; exact absurd hls (Nat.succ_ne_zero n).symm
  have hlen : (gather mem (p + 1) (n + 1)).toNat = r.length := by
    rw [gather_toNat (by omega), ← hl, hlb.rdLE, hnum]
  have hraw : ((gather mem (p + 1 + (n + 1)) (k + 1)).toNat : ℤ) = (r.lcn - before : ℤ) % 256 ^
      (k + 1) := by
    rw [gather_toNat (by omega), ← hd, ← ho, ← hl, hob.rdLE]
  have hsum : UInt64.ofNat before + signExtend ((k + 1) * 8)
      (gather mem (p + 1 + (n + 1)) (k + 1)) = UInt64.ofNat r.lcn := by
    have := signExtend_toNat hk hraw hlo hhi
    rw [← UInt64.toNat_inj, UInt64.toNat_add, UInt64.toNat_ofNat', UInt64.toNat_ofNat']
    omega
  have hto : (UInt64.ofNat r.lcn).toNat = r.lcn := by rw [UInt64.toNat_ofNat']; omega
  rw [ntfsNextRun, if_neg (by omega), if_neg h0]
  simp only [hls, hos, hlen, hsum, hto]
  rw [if_neg (by omega), if_neg (by omega)]
  exact ⟨rfl, by simp only [hsize]; omega, rfl⟩

theorem encodeRunsFrom_cons {r : Run} {before : ℤ}
    (h : encodeRunsFrom cap (r :: runs) before out = some bytes) :
    encodeRunsFrom cap runs r.lcn (out ++ piece r before) = some bytes :=
  (Option.ite_none_left_eq_some.1 h).2

theorem encodeRunsFrom_spec {before : ℤ}
    (h : encodeRunsFrom cap runs before out = some bytes) : ∃ rest, bytes = out ++ rest := by
  induction runs generalizing before out with
  | nil =>
    rw [encodeRunsFrom] at h
    split at h
    · cases h
    · exact ⟨_, (Option.some.inj h).symm⟩
  | cons r runs ih =>
    obtain ⟨rest, hrest⟩ := ih (encodeRunsFrom_cons h)
    exact ⟨_, by rw [hrest, append_assoc]⟩

theorem readRuns_encodeRunsFrom {before : ℕ} (h : encodeRunsFrom cap runs before out = some bytes)
    (hruns : ∀ r ∈ runs, r.length < 2 ^ 55 ∧ r.lcn < 2 ^ 55) (hbefore : before < 2 ^ 55)
    (hmem : Holds mem 0 bytes) :
    readRuns mem bytes.length (runs.length + 1) out.length (UInt64.ofNat before) =
      some (runs.map fun r => { r with sparse := false }) := by
  induction runs generalizing before out with
  | nil =>
    rw [encodeRunsFrom] at h
    split at h
    · cases h
    cases h
    have h0 : mem out.length = 0 := by simpa using (holds_cons.1 (holds_append.1 hmem).2).1
    simp [readRuns, ntfsNextRun, h0]
  | cons r runs ih =>
    have h := encodeRunsFrom_cons h
    obtain ⟨rest, rfl⟩ := encodeRunsFrom_spec h
    have hpiece : Holds mem out.length (piece r before) := by
      simpa using (holds_append.1 (holds_append.1 hmem).1).2
    obtain ⟨hrun, hnext, hprev⟩ := ntfsNextRun_piece (hruns r mem_cons_self) hbefore hpiece
      (by simp : _ ≤ (out ++ piece r before ++ rest).length)
    have ih := ih h (fun r' h' => hruns r' (mem_cons_of_mem r h')) (hruns r mem_cons_self).2
    rw [← length_append] at hnext
    rw [length_cons, readRuns]
    simp only [hrun, hnext, hprev, ih, Option.map_some, map_cons]

/-- What the encoder writes is read back run for run, but a hole comes back as a run of cluster 0.
-/
theorem readRuns_ntfsEncodeRuns
    {runs : List Run} (hruns : ∀ r ∈ runs, r.length < 2 ^ 55 ∧ r.lcn < 2 ^ 55)
    (hfits : ntfsEncodeRuns runs cap = some bytes) :
    readRuns (fun i => bytes.getD i 0) bytes.length (runs.length + 1) 0 0 = some runs ↔
    ∀ r ∈ runs, r.sparse = false := by
  have hmem : Holds (fun i => bytes.getD i 0) 0 bytes := fun i hi => by simp [hi]
  have h := readRuns_encodeRunsFrom
    (show encodeRunsFrom cap runs (0 : ℕ) [] = some bytes from hfits) hruns (by norm_num) hmem
  rw [show readRuns (fun i => bytes.getD i 0) bytes.length (runs.length + 1) 0 0 = _ from h,
    Option.some.injEq]
  nth_rewrite 2 [← map_id runs]
  rw [map_inj_left]
  exact forall₂_congr fun r _ => by cases r; simp [eq_comm]

theorem readRuns_ntfsEncodeRuns_back :
    ntfsEncodeRuns [⟨900, 3, false⟩, ⟨20, 0, false⟩] 16 =
      some [0x21, 3, 0x84, 3, 0x21, 0, 0x90, 0xFC, 0] ∧
      readRuns (fun i => [0x21, 3, 0x84, 3, 0x21, 0, 0x90, 0xFC, 0].getD i 0) 9 3 0 0 =
        some [⟨900, 3, false⟩, ⟨20, 0, false⟩] :=
  have h : ntfsEncodeRuns [⟨900, 3, false⟩, ⟨20, 0, false⟩] 16 =
      some [0x21, 3, 0x84, 3, 0x21, 0, 0x90, 0xFC, 0] := by decide
  ⟨h, (readRuns_ntfsEncodeRuns (by decide) h).2 (by decide)⟩

theorem hole_read_as_cluster_zero : ntfsEncodeRuns [⟨0, 1, true⟩] 8 = some [0x11, 1, 0, 0] ∧
      readRuns (fun i => [0x11, 1, 0, 0].getD i 0) 4 2 0 0 = some [⟨0, 1, false⟩] := by
  decide

end Vextro.RunList
