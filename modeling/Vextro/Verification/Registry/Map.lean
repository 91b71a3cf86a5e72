import Vextro.Verification.Registry.Policy

/-! The registry as a map: what a place holds is what was last set there. -/

namespace Vextro.Registry.Reg

open List
open Function (update update_of_ne update_self)
open GroupPolicy (txn regSet_txn regDelete_txn rollback_begin fresh_sane)

variable {s s' : Reg} {kids : UInt16 → List UInt16} {k v : UInt16} {name path data : List UInt8}
  {type : UInt8} {q : List (List UInt8)}

/-! ## Room for another node -/

namespace Sane

variable (h : Sane s kids)
include h

theorem firstFree_le (hroom : s.count < regMaxNodes) :
    ∃ i, s.firstFree = some i ∧ i.toNat ≤ s.count := by
  have hpos : 0 < s.count := h.root.1
  have hnat {n : ℕ} (hn : n < regMaxNodes) : (UInt16.ofNat n).toNat = n :=
    UInt16.toNat_ofNat_of_lt' (Nat.lt_trans hn (by decide))
  have hfree : (s.node (UInt16.ofNat (s.count - 1 + 1))).used = 0 := by
    rw [Nat.sub_add_cancel hpos]
    exact h.unused _ (by rw [hnat hroom])
  rw [firstFree, find?_map]
  cases hf : (range (regMaxNodes - 1)).find? _ with
  | none =>
    exact absurd (decide_eq_true hfree)
      (find?_eq_none.mp hf (s.count - 1) (mem_range.mpr (by omega)))
  | some i =>
    obtain ⟨-, hi, hfirst⟩ := find?_range_eq_some.mp hf
    refine ⟨_, rfl, ?_⟩
    rw [hnat (by have := mem_range.mp hi; omega)]
    by_contra hlt
    have hused := hfirst (s.count - 1) (by omega)
    rw [Function.comp_apply, decide_eq_true hfree] at hused
    cases hused

theorem child_room (hk : live s k) (hn : Fits name) (hroom : s.count < regMaxNodes)
    (hr : (if s.regFindChild k name = regNone then s.regNewNode k name type
      else (s, s.regFindChild k name)) = (s', v)) : v ≠ regNone ∧ s'.count ≤ s.count + 1 := by
  rcases h.find hk hn.1 with ⟨hnone, -⟩ | ⟨hmem, -⟩
  · obtain ⟨i, hi, hle⟩ := h.firstFree_le hroom
    rw [if_pos hnone, regNewNode, if_neg (Nat.not_le.mpr hroom), hi] at hr
    cases hr
    refine ⟨?_, by dsimp only; split <;> omega⟩
    rintro rfl
    exact absurd (Nat.lt_of_le_of_lt hle hroom) (by decide)
  · rw [if_neg (h.ne_none hmem)] at hr
    cases hr
    exact ⟨h.ne_none hmem, Nat.le_succ _⟩

omit h in
theorem keyFrom_room (h : Sane s kids) (hq : ∀ seg ∈ q, Fits seg) (hk : live s k)
    (hroom : s.count + q.length ≤ regMaxNodes) (hr : keyFrom true s k q = (s', v)) :
    v ≠ regNone ∧ s'.count ≤ s.count + q.length := by
  induction q generalizing s kids k with
  | nil =>
    cases hr
    exact ⟨hk.ne_none h.count_le, Nat.le_refl _⟩
  | cons seg rest ih =>
    obtain ⟨hseg, hrest⟩ := forall_mem_cons.mp hq
    rw [length_cons] at hroom ⊢
    cases hc : (if s.regFindChild k seg = regNone then s.regNewNode k seg regKeyType
        else (s, s.regFindChild k seg)) with
    | mk s₁ c =>
      obtain ⟨hne, hle⟩ := h.child_room hk hseg (by omega) hc
      obtain ⟨kids', g, -, hmem, -⟩ := h.child_or_new hk hseg hc hne
      simp only [keyFrom_cons, hc, if_neg hne] at hr
      have := ih g.sane hrest (g.sane.child k _ hmem).2.1 (by omega) hr
      exact ⟨this.1, by omega⟩

theorem regSet_succeeds (hp : ∀ seg ∈ segments path, Fits seg) (hn : Fits name)
    (hdata : data.length ≤ regMaxData) (hroom : s.count + (segments path).length < regMaxNodes) :
    (s.regSet path name type data).2 = true := by
  cases hkey : s.regKey path true with
  | mk s₁ k =>
    obtain ⟨hk, hle⟩ := h.keyFrom_room hp h.root hroom.le hkey
    obtain ⟨kids', g, -, hl, -⟩ := h.keyFrom_create hp h.root hkey hk
    cases hc : (if s₁.regFindChild k name = regNone then s₁.regNewNode k name type
        else (s₁, s₁.regFindChild k name)) with
    | mk s₂ v =>
      have hv := (g.sane.child_room (g.sane.leads_live g.sane.root hl) hn (by omega) hc).1
      simp only [regSet, if_neg (Nat.not_lt.mpr hdata), hkey, if_neg hk, hc, if_neg hv]

end Sane

/-! ## The map -/

/-- The names of a path, none cut short. -/
def names (path : List UInt8) : List (List UInt8) :=
  (path.splitOnP fun c => c = 0x5C ∨ c = 0x2F).filter (· ≠ [])

/-- Where a value is, whatever the case of the letters. -/
def place (path name : List UInt8) : List (List UInt8) := (names path ++ [name]).map folded

/-- A node can hold each of the names. -/
def Named (path name : List UInt8) : Prop := (∀ seg ∈ names path, Fits seg) ∧ Fits name

theorem segments_eq (hn : Named path name) : segments path = names path := by
  refine (map_congr_left fun seg hseg => ?_).trans (map_id _)
  exact take_of_length_le (Nat.le_pred_of_lt (hn.1 seg hseg).2)

inductive Call where
  | set (path name : List UInt8) (type : UInt8) (data : List UInt8)
  | delete (path name : List UInt8)
  | get (path name : List UInt8)

/-- A registry beside what it stands for: the data at each place, and the places that were ever set.
-/
structure Book where
  reg : Reg
  entry : List (List UInt8) → Option (UInt8 × List UInt8)
  named : List (List (List UInt8))

namespace Book

def step (b : Book) : Call → Book
  | .set path name type data => ⟨(b.reg.regSet path name type data).1,
      update b.entry (place path name) (some (type, data)), place path name :: b.named⟩
  | .delete path name =>
    ⟨(b.reg.regDelete path name).1, update b.entry (place path name) none, b.named⟩
  | .get _ _ => b

def run (b : Book) (calls : List Call) : Book := calls.foldl step b

/-- Something holds of each call of a sequence, at the book it is made with. -/
def Along (P : Book → Call → Prop) : Book → List Call → Prop
  | _, [] => True
  | b, c :: cs => P b c ∧ Along P (b.step c) cs

/-- Sets succeed, and gets return what the map has. -/
def Serves (b : Book) : Call → Prop
  | .set path name type data => (b.reg.regSet path name type data).2 = true
  | .delete _ _ => True
  | .get path name => b.reg.regGet path name = b.entry (place path name)

/-- Names fit their nodes, there is room above the highest node ever used, no place is deleted that
is above one with data, and none is read that is above one that was set. -/
def Modest (b : Book) : Call → Prop
  | .set path name _ data =>
    Named path name ∧ data.length ≤ regMaxData ∧ b.reg.count + (names path).length < regMaxNodes
  | .delete path name =>
    Named path name ∧ ∀ q, place path name <+: q → q ≠ place path name → b.entry q = none
  | .get path name => Named path name ∧ ∀ q ∈ b.named, place path name <+: q → q = place path name

def value (n : Node) : UInt8 × List UInt8 := (n.type, n.data.take n.dataLen.toNat)

theorem value_congr {n n' : Node} (h : shows n' = shows n) : value n' = value n := by
  simp only [shows, Prod.mk.injEq] at h
  rw [value, value, h.2.1, h.2.2.1, h.2.2.2]

/-- Data is where its place leads to; a place without data leads nowhere, or is above one that was
set. -/
structure Agrees (b : Book) (kids : UInt16 → List UInt16) : Prop where
  sane : Sane b.reg kids
  found : ∀ q e, b.entry (q.map folded) = some e →
    ∃ v, Leads b.reg kids 0 q v ∧ value (b.reg.node v) = e
  above : ∀ q v, q ≠ [] → Leads b.reg kids 0 q v → b.entry (q.map folded) = none →
    ∃ p ∈ b.named, q.map folded <+: p ∧ p ≠ q.map folded

namespace Agrees

variable {b : Book} (h : b.Agrees kids)
include h

theorem get (hn : Named path name)
    (hq : ∀ q ∈ b.named, place path name <+: q → q = place path name) :
    b.reg.regGet path name = b.entry (place path name) := by
  have hseg := segments_eq hn
  have h0 : ∀ seg ∈ segments path, 0 ∉ seg := fun seg hs => (hn.1 seg (hseg ▸ hs)).1
  cases he : b.entry (place path name) with
  | none =>
    refine h.sane.regGet_eq_none h0 hn.2.1 fun v hv => ?_
    rw [hseg] at hv
    obtain ⟨p, hp, hpre, hne⟩ := h.above _ v (by simp) hv he
    exact hne (hq p hp hpre)
  | some e =>
    obtain ⟨v, hv, rfl⟩ := h.found _ e he
    exact h.sane.regGet_eq h0 hn.2.1 (by rw [hseg]; exact hv)

theorem set (hn : Named path name) (hok : (b.reg.regSet path name type data).2 = true) :
    ∃ kids', (b.step (.set path name type data)).Agrees kids' := by
  have hseg := segments_eq hn
  obtain ⟨kids', v, g, ha, hl, htype, hdata, hsame⟩ :=
    h.sane.set (by rw [hseg]; exact hn.1) hn.2 (Prod.ext rfl hok)
  rw [hseg] at ha hl
  refine ⟨kids', g.sane, fun q e he => ?_, fun q u hq hu he => ?_⟩
  · change update b.entry (place path name) _ _ = _ at he
    by_cases hp : q.map folded = place path name
    · rw [hp, update_self] at he
      cases he
      exact ⟨v, leads_congr hp.symm hl, Prod.ext htype hdata⟩
    rw [update_of_ne hp] at he
    obtain ⟨u, hu, hval⟩ := h.found q e he
    have hne : u ≠ v := by
      rintro rfl
      exact hp (g.sane.leads_inj (g.leads h.sane hu) hl)
    exact ⟨u, g.leads h.sane hu,
      (value_congr (hsame u hne (h.sane.leads_live h.sane.root hu))).trans hval⟩
  · change update b.entry (place path name) _ _ = _ at he
    have hp : q.map folded ≠ place path name := by
      intro hp
      rw [hp, update_self] at he
      cases he
    rw [update_of_ne hp] at he
    rcases g.leads_back h.sane ha hu with hu | hpre
    · obtain ⟨p, hmem, hpre⟩ := h.above q u hq hu he
      exact ⟨p, mem_cons_of_mem _ hmem, hpre⟩
    · exact ⟨_, mem_cons_self, hpre, Ne.symm hp⟩

theorem delete (hn : Named path name)
    (hbelow : ∀ q, place path name <+: q → q ≠ place path name → b.entry q = none) :
    ∃ kids', (b.step (.delete path name)).Agrees kids' := by
  have hseg := segments_eq hn
  have h0 : ∀ seg ∈ segments path, 0 ∉ seg := fun seg hs => (hn.1 seg (hseg ▸ hs)).1
  obtain ⟨kids', hsane, hshows, hleads⟩ := h.sane.delete h0 hn.2.1
  rw [hseg] at hleads
  refine ⟨kids', hsane, fun q e he => ?_, fun q u hq hu he => ?_⟩
  · change update b.entry (place path name) _ _ = _ at he
    have hp : q.map folded ≠ place path name := by
      intro hp
      rw [hp, update_self] at he
      cases he
    rw [update_of_ne hp] at he
    obtain ⟨u, hu, hval⟩ := h.found q e he
    refine ⟨u, (hleads q u).mpr ⟨hu, fun hpre => ?_⟩, (value_congr (hshows u)).trans hval⟩
    rw [hbelow _ hpre hp] at he
    cases he
  · obtain ⟨hu, hpre⟩ := (hleads q u).mp hu
    change update b.entry (place path name) _ _ = _ at he
    have hp : q.map folded ≠ place path name := fun hp => hpre (by rw [hp]; exact prefix_refl _)
    rw [update_of_ne hp] at he
    exact h.above q u hq hu he

theorem step {c : Call} (hc : b.Modest c) : b.Serves c ∧ ∃ kids', (b.step c).Agrees kids' := by
  cases c with
  | set path name type data =>
    obtain ⟨hn, hdata, hroom⟩ := hc
    rw [← segments_eq hn] at hroom
    have hok : (b.reg.regSet path name type data).2 = true :=
      h.sane.regSet_succeeds (by rw [segments_eq hn]; exact hn.1) hn.2 hdata hroom
    exact ⟨hok, h.set hn hok⟩
  | delete path name => exact ⟨trivial, h.delete hc.1 hc.2⟩
  | get path name => exact ⟨h.get hc.1 hc.2, kids, h⟩

omit h in
theorem run (h : b.Agrees kids) {calls : List Call} (hc : Along Modest b calls) :
    Along Serves b calls ∧ ∃ kids', (b.run calls).Agrees kids' := by
  induction calls generalizing b kids with
  | nil => exact ⟨trivial, kids, h⟩
  | cons c cs ih =>
    obtain ⟨hserves, kids', h'⟩ := h.step hc.1
    exact (ih h' hc.2).imp_left fun hrest => ⟨hserves, hrest⟩

end Agrees

theorem run_txn (b : Book) (calls : List Call) : txn (b.run calls).reg = txn b.reg := by
  induction calls generalizing b with
  | nil => rfl
  | cons c cs ih =>
    refine (ih (b.step c)).trans ?_
    cases c with
    | set => exact regSet_txn _ _ _ _ _
    | delete => exact regDelete_txn _ _ _
    | get => rfl

/-- Nothing has been set. -/
def fresh : Book := ⟨Reg.fresh, fun _ => none, []⟩

theorem fresh_agrees : fresh.Agrees fun _ => [] := by
  refine ⟨fresh_sane, fun _ _ he => absurd he (by simp [fresh]), fun q v hq hv => ?_⟩
  cases q with
  | nil => contradiction
  | cons seg rest =>
    obtain ⟨c, hc, -⟩ := hv
    cases hc

/-- In every sequence of modest calls each set succeeds and each get returns what was last set at
its place and not deleted since; what any calls after a `reg_begin` change, the rollback
restores. -/
theorem registry_is_map (calls : List Call) (h : Along Modest fresh calls) :
    Along Serves fresh calls ∧ ∀ memory s, (fresh.run calls).reg.regBegin memory = some s →
      ∀ b : Book, b.reg = s →
      ∀ more, (b.run more).reg.regRollback.tree = (fresh.run calls).reg.tree := by
  obtain ⟨hserves, kids, hagrees⟩ := fresh_agrees.run h
  refine ⟨hserves, fun memory s hs b hb more => ?_⟩
  exact (rollback_begin hagrees.sane hs ((b.run_txn more).trans (by rw [hb]))).2.2

theorem registry_is_map_overwritten :
    let calls :=
      [Call.set [83] [86] regDword [1, 0, 0, 0], .set [115] [86] regDword [2, 0], .get [83] [118]]
    Along Modest fresh calls ∧ Along Serves fresh calls := by
  have h : Along Modest fresh [.set [83] [86] regDword [1, 0, 0, 0],
      .set [115] [86] regDword [2, 0], .get [83] [118]] := by
    have hn : ∀ c ∈ [83, 115], ∀ d ∈ [86, 118], Named [c] [d] := by
      unfold Named Fits
      decide +kernel
    exact ⟨⟨hn _ (by simp) _ (by simp), by decide +kernel⟩,
      ⟨hn _ (by simp) _ (by simp), by decide +kernel⟩,
      ⟨hn _ (by simp) _ (by simp), by decide +kernel⟩, trivial⟩
  exact ⟨h, (registry_is_map _ h).1⟩

theorem long_value_name_lost : let name := replicate 32 (97 : UInt8)
    ¬Along Serves fresh [.set [83] name regDword [1, 0, 0, 0], .get [83] name] := by
  intro name h
  have hget :
      ((fresh.step (.set [83] name regDword [1, 0, 0, 0])).reg.regGet [83] name).isSome := by
    rw [h.2.1]
    simp [step]
  revert hget
  decide +kernel

end Book

end Vextro.Registry.Reg
