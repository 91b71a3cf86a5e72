import Vextro.Model.GroupPolicy
import Vextro.Verification.Registry.Tree
import Vextro.Verification.Shared.Regions

/-! Group policy is applied wholly or not at all, as long as what is applied fits the registry. -/

namespace Vextro.GroupPolicy

open Registry Reg List

variable {s s' : Reg} {kids kids' : UInt16 → List UInt16} {r d : PolRecord} {p rest : List UInt8}

/-! ## What a file asks for -/

/-- The records of a file, as far as it can be read. -/
def records : ℕ → List UInt8 → List PolRecord
  | 0, _ => []
  | fuel + 1, p =>
    if p.length < 2 then []
    else
      match readRecord p with
      | none => []
      | some (r, rest) => r :: records fuel rest

def contents (file : List UInt8) : List PolRecord := records file.length (file.drop 8)

/-- The units of a text are bytes. -/
def latin (units : List UInt16) : Bool := units.all (· < 0x100)

def bytes (units : List UInt16) : List UInt8 := units.map UInt16.toUInt8

namespace PolRecord

/-- The name of the value that is set or deleted. -/
def target (r : PolRecord) : List UInt16 := if r.deletion then r.name.drop 6 else r.name

def text (r : PolRecord) : List UInt16 := (wideUnits r.data).1

def isText (r : PolRecord) : Bool := r.type = 1 ∨ r.type = 2

/-- The data of the value; a string ends with its NUL. -/
def value (r : PolRecord) : List UInt8 := if r.isText then bytes r.text ++ [0] else r.data

def keys (r : PolRecord) : List (List UInt8) :=
  ((bytes r.key).splitOnP fun c => c = 0x5C ∨ c = 0x2F).filter (· ≠ [])

/-- Where the value is in the registry. -/
def place (r : PolRecord) : List (List UInt8) := (r.keys ++ [bytes r.target]).map folded

/-- A later record that deletes or sets again what this one is about. -/
def undoneBy (r d : PolRecord) : Prop :=
  if d.deletion then r.deletion = false ∧ d.place <+: r.place
  else if r.deletion then r.place <+: d.place
  else d.place = r.place

/-- The registry is as the record asks for. -/
def holds (s : Reg) (r : PolRecord) : Bool :=
  if r.deletion then
    !(latin r.key && latin r.target) || s.regGet (bytes r.key) (bytes r.target) = none
  else
    latin r.key && latin r.name && (!r.isText || latin r.text) &&
      (s.regGet (bytes r.key) (bytes r.name)).map Prod.snd = some r.value

/-- The record can be kept as it is. -/
def fits (r : PolRecord) : Bool :=
  latin r.key && r.key.length < 192 && r.keys.all (·.length < regNameLen) && latin r.name &&
    if r.deletion then r.name.length < 64
    else r.name.length < regNameLen &&
      if r.isText then latin r.text && r.text.length < 160 else r.data.length ≤ regMaxData

end PolRecord

theorem zero_notMem_bytes {units : List UInt16} (hl : latin units) (h0 : 0 ∉ units) :
    0 ∉ bytes units := by
  intro h
  obtain ⟨u, hu, hz⟩ := mem_map.mp h
  have hlt : u.toNat < 2 ^ 8 :=
    UInt16.lt_iff_toNat_lt.mp (of_decide_eq_true (all_eq_true.mp hl u hu))
  have hn := congrArg UInt8.toNat hz
  rw [UInt16.toNat_toUInt8, Nat.mod_eq_of_lt hlt] at hn
  have hzero : u = 0 := UInt16.toNat_inj.mp hn
  exact h0 (hzero ▸ hu)

theorem mem_of_mem_splitOnP {α : Type*} {q : α → Bool} {l seg : List α} {x : α}
    (hseg : seg ∈ l.splitOnP q) (hx : x ∈ seg) : x ∈ l := by
  induction l generalizing seg with
  | nil =>
    rw [splitOnP_nil, mem_singleton] at hseg
    exact hseg ▸ hx
  | cons y ys ih =>
    rw [splitOnP_cons_eq_if_modifyHead] at hseg
    split at hseg
    · rcases mem_cons.mp hseg with rfl | hseg
      · cases hx
      · exact mem_cons_of_mem y (ih hseg hx)
    cases hys : ys.splitOnP q with
    | nil => exact absurd hys (splitOnP_ne_nil q ys)
    | cons t ts =>
      rw [hys] at hseg ih
      rcases mem_cons.mp hseg with rfl | hseg
      · exact mem_cons.mpr ((mem_cons.mp hx).imp_right (ih mem_cons_self))
      · exact mem_cons_of_mem y (ih (mem_cons_of_mem t hseg) hx)

/-- A record that fits and was read from a file. -/
structure Sound (r : PolRecord) : Prop where
  fits : r.fits
  key : 0 ∉ r.key
  name : 0 ∉ r.name

namespace Sound

variable (h : Sound r)
include h

theorem key_latin : latin r.key ∧ r.key.length < 192 := by
  have := h.fits
  simp only [PolRecord.fits, Bool.and_eq_true, decide_eq_true_eq] at this
  exact this.1.1.1

theorem name_latin : latin r.name ∧ r.name.length < 64 := by
  have := h.fits
  simp only [PolRecord.fits, Bool.and_eq_true] at this
  refine ⟨this.1.2, ?_⟩
  have hlen := this.2
  split at hlen
  · exact of_decide_eq_true hlen
  · simp only [Bool.and_eq_true, decide_eq_true_eq] at hlen
    exact hlen.1.trans (by decide)

theorem data_fits (hd : r.deletion = false) : r.name.length < regNameLen ∧
    if r.isText then latin r.text ∧ r.text.length < 160 else r.data.length ≤ regMaxData := by
  have := h.fits
  simp only [PolRecord.fits, Bool.and_eq_true, hd] at this
  cases ht : r.isText <;> simpa [ht] using this.2

theorem segments_eq : segments (bytes r.key) = r.keys := by
  have hall : r.keys.all (·.length < regNameLen) := by
    have := h.fits
    simp only [PolRecord.fits, Bool.and_eq_true] at this
    exact this.1.1.2
  refine (map_congr_left fun seg hseg => ?_).trans (map_id _)
  exact take_of_length_le (Nat.le_sub_one_of_lt (of_decide_eq_true (all_eq_true.mp hall seg hseg)))

theorem target_subset : latin r.target ∧ 0 ∉ r.target := by
  have hsub : r.target ⊆ r.name := by
    unfold PolRecord.target
    split
    · exact drop_subset 6 r.name
    · exact List.Subset.refl _
  exact ⟨all_eq_true.mpr fun u hu => all_eq_true.mp h.name_latin.1 u (hsub hu),
    fun h0 => h.name (hsub h0)⟩

theorem target_nonzero : 0 ∉ bytes r.target :=
  zero_notMem_bytes h.target_subset.1 h.target_subset.2

theorem segments_fit : ∀ seg ∈ segments (bytes r.key), Fits seg := by
  intro seg hseg
  obtain ⟨whole, hwhole, rfl⟩ := mem_map.mp hseg
  refine ⟨fun h0 => ?_, ?_⟩
  · have hin := mem_of_mem_splitOnP (mem_filter.mp hwhole).1 (mem_of_mem_take h0)
    exact zero_notMem_bytes h.key_latin.1 h.key hin
  · exact Nat.lt_of_le_of_lt (length_take_le _ _) (by decide)

end Sound

/-- In the tree: what the record sets is there, or what it deletes is not. -/
def HoldsAt (s : Reg) (kids : UInt16 → List UInt16) (r : PolRecord) : Prop :=
  if r.deletion then ∀ u, ¬Leads s kids 0 (r.keys ++ [bytes r.target]) u
  else ∃ u, Leads s kids 0 (r.keys ++ [bytes r.target]) u ∧
    (s.node u).data.take (s.node u).dataLen.toNat = r.value

theorem HoldsAt.holds (h : Sane s kids) (hr : Sound r) (hat : HoldsAt s kids r) : r.holds s := by
  have h0 : ∀ seg ∈ segments (bytes r.key), 0 ∉ seg := fun seg hseg => (hr.segments_fit seg hseg).1
  rw [HoldsAt, ← hr.segments_eq] at hat
  unfold PolRecord.holds
  by_cases hd : r.deletion = true
  · rw [if_pos hd] at hat ⊢
    rw [h.regGet_eq_none h0 hr.target_nonzero hat]
    simp
  rw [if_neg hd] at hat ⊢
  obtain ⟨u, hu, hdata⟩ := hat
  have hname : r.target = r.name := if_neg hd
  have htext := (hr.data_fits (eq_false_of_ne_true hd)).2
  rw [← hname, h.regGet_eq h0 hr.target_nonzero hu, hdata, hr.key_latin.1, hr.target_subset.1]
  split at htext
  · simp [htext.1]
  · simp [*]

/-- After the records, what each of them asks for holds, if no later one undoes it; and so does what
held before. -/
def Applied (s : Reg) (kids : UInt16 → List UInt16) (s' : Reg) (rs : List PolRecord) : Prop :=
  ∃ kids', Sane s' kids' ∧
  (∀ r, HoldsAt s kids r → (∀ d ∈ rs, ¬r.undoneBy d) → HoldsAt s' kids' r) ∧
    ∀ pre r post, rs = pre ++ r :: post → (∀ d ∈ post, ¬r.undoneBy d) → Sound r ∧ HoldsAt s' kids' r

theorem Applied.nil (h : Sane s kids) : Applied s kids s [] :=
  ⟨kids, h, fun _ hr _ => hr, fun pre r post hsplit => absurd hsplit (by simp)⟩

theorem Applied.cons {s₁ : Reg} {rs : List PolRecord} (hd : Sound d)
    (hstep : ∃ kids₁, Sane s₁ kids₁ ∧ HoldsAt s₁ kids₁ d ∧
      ∀ r, HoldsAt s kids r → ¬r.undoneBy d → HoldsAt s₁ kids₁ r)
    (hrest : ∀ kids₁, Sane s₁ kids₁ → Applied s₁ kids₁ s' rs) : Applied s kids s' (d :: rs) := by
  obtain ⟨kids₁, h₁, hd₁, hkeep₁⟩ := hstep
  obtain ⟨kids', h', hkeep, hall⟩ := hrest kids₁ h₁
  refine ⟨kids', h', fun r hr hnot => ?_, fun pre r post hsplit hnot => ?_⟩
  · obtain ⟨hnot₁, hnot⟩ := forall_mem_cons.mp hnot
    exact hkeep r (hkeep₁ r hr hnot₁) hnot
  cases pre with
  | nil =>
    obtain ⟨rfl, rfl⟩ := List.cons.inj hsplit
    exact ⟨hd, hkeep d hd₁ hnot⟩
  | cons x xs => exact hall xs r post (List.cons.inj hsplit).2 hnot

def txn (s : Reg) : Bool × Option (UInt16 → Node) × ℕ := (s.inTransaction, s.snapshot, s.txnMark)

theorem regNewNode_txn (s : Reg) (k : UInt16) (name : List UInt8) (type : UInt8) :
    txn (s.regNewNode k name type).1 = txn s := by
  unfold regNewNode
  split
  · rfl
  · split <;> rfl

theorem keyFrom_txn (s : Reg) (k : UInt16) (q : List (List UInt8)) :
    txn (keyFrom true s k q).1 = txn s := by
  induction q generalizing s k with
  | nil => rfl
  | cons seg rest ih =>
    rw [keyFrom]
    split
    · rw [if_neg (by decide)]
      dsimp only
      split
      · exact regNewNode_txn ..
      · exact (ih ..).trans (regNewNode_txn ..)
    · exact ih ..

theorem regSet_txn (s : Reg) (path name : List UInt8) (type : UInt8) (data : List UInt8) :
    txn (s.regSet path name type data).1 = txn s := by
  have hkey : txn (s.regKey path true).1 = txn s := keyFrom_txn ..
  set k := s.regKey path true
  have hchild : txn (if k.1.regFindChild k.2 name = regNone then k.1.regNewNode k.2 name type
      else (k.1, k.1.regFindChild k.2 name)).1 = txn s := by
    split
    · exact (regNewNode_txn ..).trans hkey
    · exact hkey
  rw [regSet]
  split
  · rfl
  by_cases hnone : k.2 = regNone
  · rwa [if_pos hnone]
  · rw [if_neg hnone, apply_ite Prod.fst, apply_ite txn]
    exact (ite_id _).trans hchild

theorem regDelete_txn (s : Reg) (path name : List UInt8) :
    txn (s.regDelete path name).1 = txn s := by
  unfold regDelete
  simp only
  split
  · rfl
  · split <;> rfl

/-- Whatever was done in a transaction, the rollback brings back what was there before. -/
theorem rollback_begin {memory : Bool} {s₁ s₂ : Reg} (h : Sane s kids)
    (hbegin : s.regBegin memory = some s₁) (htxn : txn s₂ = txn s₁) :
    Sane s₂.regRollback kids ∧ (∀ i, live s i → s₂.regRollback.node i = s.node i) ∧
      s₂.regRollback.tree = s.tree := by
  unfold regBegin at hbegin
  split at hbegin
  · cases hbegin
  cases hbegin
  simp only [txn, Prod.mk.injEq] at htxn
  have hback : s₂.regRollback = { s₂ with
      node := fun i => if i.toNat < s.count then s.node i else { s₂.node i with used := 0 }
      count := s.count, inTransaction := false, dirty := true } := by
    rw [regRollback, htxn.1, htxn.2.1, htxn.2.2]
    rfl
  rw [hback]
  refine ⟨h.congr rfl (fun i hi => by simp only [if_neg (Nat.not_lt.mpr hi)])
      fun i hi => by simp only [if_pos hi],
    fun i hi => by simp only [if_pos hi.1], map_congr_left fun i hi => ?_⟩
  have hlt := mem_range.mp hi
  have hnat : (UInt16.ofNat i).toNat = i :=
    UInt16.toNat_ofNat_of_lt' (Nat.lt_trans (Nat.lt_of_lt_of_le hlt h.count_le) (by decide))
  simp only [hnat, if_pos hlt]

/-- What a report says of the registry. -/
def Turn.Kept (t : Turn) : Prop :=
  match t.report with
  | .applied .. => ∀ pre r post, contents t.file = pre ++ r :: post →
    (∀ d ∈ post, ¬r.undoneBy d) → r.holds t.after
  | _ => t.after.tree = t.before.tree

theorem fresh_sane : Sane fresh fun _ => [] := by
  refine ⟨by decide, ⟨by decide, by decide⟩, fun i hi => ?_, fun k hk => ?_, fun _ => nodup_nil,
    fun _ _ hc => absurd hc not_mem_nil, fun _ _ hc => absurd hc not_mem_nil,
    fun _ _ hc => absurd hc not_mem_nil⟩
  · have hne : i ≠ 0 := fun h0 => absurd hi (by rw [h0]; decide)
    simp only [fresh, if_neg hne]
    rfl
  by_cases h0 : k = 0
  · subst h0
    rfl
  · exact absurd (by simp only [fresh, if_neg h0]; rfl) hk.2

def saved : Saving := ⟨true, true, true⟩

end Vextro.GroupPolicy
