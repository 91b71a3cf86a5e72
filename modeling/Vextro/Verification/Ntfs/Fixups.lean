import Vextro.Model.NtfsMount
import Mathlib.Tactic.Ring

/-! Update sequences: what is installed is undone, and a torn write is told by its sequence values.
-/

namespace Vextro.Ntfs

variable {b old new : Bytes} {size : UInt32} {i k n fix : ℕ} {x usn : UInt16} {reached : ℕ → Bool}

theorem le16_congr {b' : Bytes} (h : b' k = b i) (h' : b' (k + 1) = b (i + 1)) :
    le16 b' k = le16 b i := by
  rw [le16, le16, h, h']

theorem le16_toNat (b : Bytes) (k : ℕ) :
    (le16 b k).toNat = (b k).toNat + 256 * (b (k + 1)).toNat := by
  have := (b k).toNat_lt
  have := (b (k + 1)).toNat_lt
  rw [le16, UInt16.toNat_ofNat']
  omega

def wordByte (x : UInt16) (i : ℕ) : UInt8 := UInt8.ofNat (x.toNat / 256 ^ i)

theorem put16_apply (b : Bytes) (k : ℕ) (x : UInt16) (j : ℕ) :
    put16 b k x j = if k ≤ j ∧ j < k + 2 then wordByte x (j - k) else b j := rfl

theorem le16_of_wordByte (h : b k = wordByte x 0) (h' : b (k + 1) = wordByte x 1) :
    le16 b k = x := by
  have := x.toNat_lt
  rw [← UInt16.toNat_inj, le16_toNat, h, h', wordByte, wordByte, UInt8.toNat_ofNat',
    UInt8.toNat_ofNat']
  omega

theorem wordByte_le16 (b : Bytes) (k : ℕ) (hi : i < 2) : wordByte (le16 b k) i = b (k + i) := by
  have := (b k).toNat_lt
  have := (b (k + 1)).toNat_lt
  rw [wordByte, le16_toNat, ← UInt8.toNat_inj, UInt8.toNat_ofNat']
  match i, hi with
  | 0, _ => show _ / 1 % _ = (b k).toNat; omega
  | 1, _ => omega

theorem nextUsn_ne (usn : UInt16) : nextUsn usn ≠ usn := by
  rw [nextUsn]
  split
  · rintro rfl
    contradiction
  · simp

/-- The array lies behind the header and in front of the end of the first sector, and has a word for
every sector. -/
structure Framed (b : Bytes) (size : UInt32) : Prop where
  behind : 8 ≤ (le16 b 4).toNat
  front : (le16 b 4).toNat + 2 * (le16 b 6).toNat ≤ 510
  count : (le16 b 6).toNat = size.toNat / 512 + 1

/-! ## Undoing -/

/-- With the tails of the sectors before the `i`th put back. -/
def restored (b : Bytes) (fix i : ℕ) : Bytes := fun k =>
  if 510 ≤ k % 512 ∧ k / 512 + 1 < i then b (fix + 2 * (k / 512 + 1) + (k % 512 - 510)) else b k

theorem fixTail_restored (hi : 1 ≤ i) (hfix : fix + 2 * (i + 1) ≤ 510)
    (hsize : i * 512 ≤ size.toNat) :
    fixTail size fix usn (restored b fix i) i =
      if le16 b (i * 512 - 2) = usn then some (restored b fix (i + 1)) else none := by
  have htail : le16 (restored b fix i) (i * 512 - 2) = le16 b (i * 512 - 2) :=
    le16_congr (if_neg (by omega)) (if_neg (by omega))
  rw [fixTail]
  simp only [htail]
  rw [if_neg (by omega)]
  by_cases h : le16 b (i * 512 - 2) = usn
  · rw [if_neg (not_not.2 h), if_pos h]
    congr 1
    funext k
    simp only [Function.update_apply, restored]
    split_ifs <;> first | omega | exact congrArg b (by omega)
  · rw [if_pos h, if_neg h]

theorem foldlM_fixTail (hfix : fix + 2 * n ≤ 510) (hsize : 512 * n ≤ size.toNat + 512)
    (hi : 1 ≤ i) :
    (List.range' i (n - i)).foldlM (fixTail size fix usn) (restored b fix i) =
      if ∀ j, i ≤ j → j < n → le16 b (j * 512 - 2) = usn then some (restored b fix (max i n))
        else none := by
  induction hd : n - i generalizing i with
  | zero =>
    rw [if_pos fun j hj hjn => by omega, show max i n = i by omega]
    rfl
  | succ d ih =>
    have hin : i * 512 ≤ size.toNat := by omega
    rw [List.range'_succ, List.foldlM_cons, fixTail_restored hi (by omega) hin]
    split_ifs with h hall hall
    · rw [show max i n = max (i + 1) n by omega]
      exact (ih (by omega) (by omega)).trans (if_pos fun j hj => hall j (by omega))
    · refine (ih (by omega) (by omega)).trans (if_neg fun h' => hall fun j hj hjn => ?_)
      rcases Nat.eq_or_lt_of_le hj with rfl | hj
      · exact h
      · exact h' j hj hjn
    · exact absurd (hall i (Nat.le_refl _) (by omega)) h
    · rfl

theorem ntfsApplyFixups_eq (h : Framed b size) (h512 : 512 ≤ size.toNat) : ntfsApplyFixups b size =
    if ∀ j, 1 ≤ j → j ≤ size.toNat / 512 → le16 b (j * 512 - 2) = le16 b (le16 b 4).toNat then
      some (restored b (le16 b 4).toNat (size.toNat / 512 + 1)) else none := by
  obtain ⟨hbehind, hfront, hcount⟩ := h
  have h1 : restored b (le16 b 4).toNat 1 = b := funext fun k => if_neg (by omega)
  have hloop := @foldlM_fixTail b size 1 _ _ (le16 b (le16 b 4).toNat) hfront (by omega)
    (Nat.le_refl 1)
  rw [h1, hcount] at hloop
  rw [ntfsApplyFixups]
  simp only [hcount]
  rw [if_neg (by simp; omega), hloop,
    show max 1 (size.toNat / 512 + 1) = size.toNat / 512 + 1 by omega]
  simp only [Nat.lt_succ_iff]

/-! ## Installing -/

/-- With the sequence value `usn` at the end of the sectors before the `i`th, and their tails in the
array. -/
def installed (b : Bytes) (fix : ℕ) (usn : UInt16) (i : ℕ) : Bytes := fun k =>
  if 510 ≤ k % 512 ∧ k / 512 + 1 < i then wordByte usn (k % 512 - 510)
  else if fix ≤ k ∧ k < fix + 2 then wordByte usn (k - fix)
  else if fix + 2 ≤ k ∧ k < fix + 2 * i then b ((k - fix) / 2 * 512 - 2 + (k - fix) % 2)
  else b k

theorem installed_low (hfix : 8 ≤ fix) (hk : k < 8) : installed b fix usn i k = b k := by
  rw [installed, if_neg (by omega), if_neg (by omega), if_neg (by omega)]

theorem saveTails_installed (hfix : 8 ≤ fix) (hfit : fix + 2 * n ≤ 510)
    (hcount : (le16 b 6).toNat = n) (hsize : 512 * n ≤ size.toNat + 512) (hi : 1 ≤ i) (hin : i ≤ n)
    {fuel : ℕ} (hfuel : n < fuel + i) :
    saveTails size fix usn fuel i (installed b fix usn i) = some (installed b fix usn n) := by
  induction fuel generalizing i with
  | zero => omega
  | succ fuel ih =>
    have hhead : le16 (installed b fix usn i) 6 = le16 b 6 :=
      le16_congr (installed_low hfix (by omega)) (installed_low hfix (by omega))
    rw [saveTails, hhead, hcount]
    by_cases hlt : i < n
    · have hstep : put16
          (put16 (installed b fix usn i) (fix + 2 * i) (le16 (installed b fix usn i) (i * 512 - 2)))
          (i * 512 - 2) usn = installed b fix usn (i + 1) := by
        funext k
        by_cases ha : fix + 2 * i ≤ k ∧ k < fix + 2 * i + 2
        · rw [put16_apply, put16_apply, wordByte_le16 _ _ (by omega)]
          simp only [installed]
          split_ifs <;> first | omega | exact congrArg b (by omega)
        rw [put16_apply, put16_apply]
        simp only [installed]
        split_ifs <;>
          first | omega | exact congrArg (wordByte usn) (by omega) | exact congrArg b (by omega)
      rw [if_pos hlt]
      rw [if_neg (by omega), hstep]
      exact ih (by omega) (by omega) (by omega)
    · rw [if_neg hlt, show i = n by omega]

theorem ntfsInstallFixups_eq (h : Framed b size) (h512 : 512 ≤ size.toNat) :
    ntfsInstallFixups b size =
    some (installed b (le16 b 4).toNat (nextUsn (le16 b (le16 b 4).toNat))
      (size.toNat / 512 + 1)) := by
  obtain ⟨hbehind, hfront, hcount⟩ := h
  have h1 : ∀ fix usn, put16 b fix usn = installed b fix usn 1 := fun fix usn => funext fun k => by
    rw [put16_apply, installed, if_neg (by omega : ¬(510 ≤ k % 512 ∧ k / 512 + 1 < 1)),
      if_neg (by omega : ¬(fix + 2 ≤ k ∧ k < fix + 2 * 1))]
  rw [ntfsInstallFixups, if_neg (by simp; omega)]
  simp only [h1]
  exact saveTails_installed hbehind (by omega) hcount (by omega) (Nat.le_refl 1) (by omega)
    (by omega)

theorem restored_installed (hn : 1 ≤ n) (hfit : fix + 2 * n ≤ 510)
    (hk : k < fix ∨ fix + 2 * n ≤ k) :
    restored (installed b fix usn n) fix n k = b k := by
  rw [restored]
  split_ifs with h
  · rw [installed, if_neg (by omega), if_neg (by omega), if_pos (by omega)]
    exact congrArg b (by omega)
  · rw [installed, if_neg h, if_neg (by omega), if_neg (by omega)]

/-! ## Torn writes -/

/-- Every sector ends with the sequence value of the array. -/
structure Sealed (b : Bytes) (size : UInt32) (usn : UInt16) : Prop extends Framed b size where
  first : le16 b (le16 b 4).toNat = usn
  tails : ∀ j, 1 ≤ j → j ≤ size.toNat / 512 → le16 b (j * 512 - 2) = usn

theorem Framed.congr {b' : Bytes} (h : Framed b size) (hk : ∀ k < 510, b' k = b k) :
    Framed b' size ∧ le16 b' 4 = le16 b 4 ∧ le16 b' (le16 b 4).toNat = le16 b (le16 b 4).toNat := by
  have h4 : le16 b' 4 = le16 b 4 := le16_congr (hk 4 (by omega)) (hk 5 (by omega))
  have h6 : le16 b' 6 = le16 b 6 := le16_congr (hk 6 (by omega)) (hk 7 (by omega))
  have := h.front
  have := h.count
  exact ⟨⟨h4 ▸ h.behind, h4 ▸ h6 ▸ h.front, h6 ▸ h.count⟩, h4,
    le16_congr (hk _ (by omega)) (hk _ (by omega))⟩

theorem sealed_installed (h : Framed b size) (usn : UInt16) :
    Sealed (installed b (le16 b 4).toNat usn (size.toNat / 512 + 1)) size usn := by
  obtain ⟨hbehind, hfront, hcount⟩ := h
  have h4 : le16 (installed b (le16 b 4).toNat usn (size.toNat / 512 + 1)) 4 = le16 b 4 :=
    le16_congr (installed_low hbehind (by omega)) (installed_low hbehind (by omega))
  have h6 : le16 (installed b (le16 b 4).toNat usn (size.toNat / 512 + 1)) 6 = le16 b 6 :=
    le16_congr (installed_low hbehind (by omega)) (installed_low hbehind (by omega))
  refine ⟨⟨by rwa [h4], by rwa [h4, h6], by rwa [h6]⟩, ?_, fun j hj hjn => ?_⟩
  · rw [h4]
    refine le16_of_wordByte ?_ ?_ <;> rw [installed, if_neg (by omega), if_pos (by omega)] <;>
      exact congrArg (wordByte usn) (by omega)
  · refine le16_of_wordByte ?_ ?_ <;> rw [installed, if_pos (by omega)] <;>
      exact congrArg (wordByte usn) (by omega)

theorem le16_torn (hi : ∀ j, k ≤ j → j < k + 2 → j / 512 = i) :
    le16 (torn reached new old) k = if reached i then le16 new k else le16 old k := by
  have h0 := hi k (by omega) (by omega)
  have h1 := hi (k + 1) (by omega) (by omega)
  split_ifs with h <;> exact le16_congr (by simp [torn, h0, h]) (by simp [torn, h1, h])

/-- A mixture is taken exactly if both writes had the same sequence value. -/
theorem ntfsApplyFixups_torn (hnew : Sealed new size x)
    (hold : Sealed old size usn) (hsome : ∃ i < size.toNat / 512, reached i)
    (hrest : ∃ i < size.toNat / 512, reached i = false) :
    ntfsApplyFixups (torn reached new old) size = none ↔ usn ≠ x := by
  have htail : ∀ j, 1 ≤ j → j ≤ size.toNat / 512 →
      le16 (torn reached new old) (j * 512 - 2) = if reached (j - 1) then x else usn := by
    intro j hj hjn
    rw [le16_torn (i := j - 1) fun k _ _ => by omega, hnew.tails j hj hjn, hold.tails j hj hjn]
  obtain ⟨hframed, hfirst⟩ : Framed (torn reached new old) size ∧ le16 (torn reached new old)
      (le16 (torn reached new old) 4).toNat = if reached 0 then x else usn := by
    cases h0 : reached 0 with
    | true =>
      obtain ⟨hf, h4, hw⟩ := hnew.toFramed.congr fun k hk => show torn reached new old k = new k by
        simp [torn, Nat.div_eq_of_lt (by omega : k < 512), h0]
      exact ⟨hf, by rw [h4, hw, hnew.first]; rfl⟩
    | false =>
      obtain ⟨hf, h4, hw⟩ := hold.toFramed.congr fun k hk => show torn reached new old k = old k by
        simp [torn, Nat.div_eq_of_lt (by omega : k < 512), h0]
      exact ⟨hf, by rw [h4, hw, hold.first]; rfl⟩
  obtain ⟨i, hi, hri⟩ := hsome
  obtain ⟨j, hj, hrj⟩ := hrest
  rw [ntfsApplyFixups_eq hframed (by omega), hfirst]
  constructor
  · rintro h rfl
    rw [if_pos fun k hk hkn => by simp [htail k hk hkn]] at h
    cases h
  intro hne
  refine if_neg fun hall => hne ?_
  have hi' := hall (i + 1) (by omega) (by omega)
  have hj' := hall (j + 1) (by omega) (by omega)
  rw [htail (i + 1) (by omega) (by omega), Nat.add_sub_cancel, hri] at hi'
  rw [htail (j + 1) (by omega) (by omega), Nat.add_sub_cancel, hrj] at hj'
  exact hj'.trans hi'.symm

/-- What is installed is undone, but for the array. A torn write over a block on disk that is sealed
with `usn` is refused, whatever the sectors are that it has reached, exactly if the new sequence
value is another one; and it is if the block that is written was read from there. -/
theorem fixups_protect (h : Framed b size) (h512 : 512 ≤ size.toNat) :
    ∃ new, ntfsInstallFixups b size = some new ∧
      (∃ back, ntfsApplyFixups new size = some back ∧
        ∀ k, k < (le16 b 4).toNat ∨ (le16 b 4).toNat + 2 * (le16 b 6).toNat ≤ k → back k = b k) ∧
      ∀ old usn reached, Sealed old size usn → (∃ i < size.toNat / 512, reached i = true) →
        (∃ i < size.toNat / 512, reached i = false) →
          (ntfsApplyFixups (torn reached new old) size = none ↔
            usn ≠ nextUsn (le16 b (le16 b 4).toNat)) ∧
          (le16 b (le16 b 4).toNat = usn → ntfsApplyFixups (torn reached new old) size = none) := by
  have hsealed := sealed_installed h (nextUsn (le16 b (le16 b 4).toNat))
  refine ⟨_, ntfsInstallFixups_eq h h512, ?_, fun old usn reached hold hsome hrest => ?_⟩
  · refine ⟨_, (ntfsApplyFixups_eq hsealed.toFramed h512).trans (if_pos fun j hj hjn => ?_),
      fun k hk => ?_⟩
    · rw [hsealed.tails j hj hjn, hsealed.first]
    have hsame : le16 (installed b (le16 b 4).toNat (nextUsn (le16 b (le16 b 4).toNat))
        (size.toNat / 512 + 1)) 4 = le16 b 4 :=
      le16_congr (installed_low h.behind (by omega)) (installed_low h.behind (by omega))
    rw [hsame, ← h.count]
    exact restored_installed (by have := h.count; omega) h.front hk
  · have hiff := ntfsApplyFixups_torn hsealed hold hsome hrest
    exact ⟨hiff, fun heq => hiff.2 (heq ▸ (nextUsn_ne _).symm)⟩

/-- A block as `ix_block_init` leaves it: the array at 40, its sequence value zero, and `x` in both
sectors. -/
def freshBlock (x : UInt8) : Bytes
  | 4 => 40
  | 6 => 3
  | 100 => x
  | 600 => x
  | _ => 0

/-- A fresh block comes back with both its bytes, and a write of it over itself that reaches the
first sector only is refused. -/
theorem fixups_protect_fresh : ∃ new back, ntfsInstallFixups (freshBlock 1) 1024 = some new ∧
    ntfsApplyFixups new 1024 = some back ∧ back 100 = 1 ∧ back 600 = 1 ∧
      ntfsApplyFixups (torn (· = 0) new (freshBlock 1)) 1024 = none := by
  have h : Framed (freshBlock 1) 1024 := ⟨by decide, by decide, by decide⟩
  have hsealed : Sealed (freshBlock 1) 1024 0 := ⟨h, by decide, by decide⟩
  obtain ⟨new, hnew, ⟨back, hback, hsame⟩, htorn⟩ := fixups_protect h (by decide)
  have hhalf := htorn _ 0 (· = 0) hsealed ⟨0, by decide, rfl⟩ ⟨1, by decide, rfl⟩
  exact ⟨new, back, hnew, hback, hsame 100 (by decide), hsame 600 (by decide), hhalf.2 rfl⟩

theorem fresh_blocks_mix : ((ntfsInstallFixups (freshBlock 1) 1024).bind fun new =>
    (ntfsInstallFixups (freshBlock 2) 1024).bind fun old =>
      (ntfsApplyFixups (torn (· = 0) new old) 1024).map
        fun back => (back 100, back 600)) = some (1, 2) := by
  decide +kernel

end Vextro.Ntfs
