import Vextro.Verification.Paging.Operations
import Vextro.Verification.Shared.Run

/-! Reference counts against the entries that map a frame. -/

namespace Vextro.Paging

open Function (update update_apply update_of_ne update_self)

variable {e : Pte} {f a v : ℕ} {m m' : Machine} {r leak : ℕ → ℕ} {kern : ℕ → Bool} {g : Held}
variable {g' : Held}

/-! ## Counting -/

/-- Private entries that map the given frame. -/
def mapsFrame (f : ℕ) (e : Pte) : ℕ := if isPrivate e && pteFrame e = f then 1 else 0

/-- The number of present private entries, of all spaces, that map a frame. -/
def mappings (m : Machine) (f : ℕ) : ℕ := entryTotal (mapsFrame f) m

/-- How often a space uses a frame for tables. -/
def tableWeight (f : ℕ) (s : AddrSpace) : ℕ :=
  (if s.pml4 = f then 1 else 0) + (if s.vmas = f then 1 else 0) +
    s.tables.total fun x => if x = f then 1 else 0

/-- The number of tables held in a frame. -/
def tableRefs (m : Machine) (f : ℕ) : ℕ := m.spaces.total (tableWeight f)

/-- All references to a frame: entries, tables and what the running function holds. -/
def liveRefs (g : Held) (m : Machine) (f : ℕ) : ℕ :=
  mappings m f + tableRefs m f + g.fresh f + g.loose f

/-- The stored count of a frame; it stands for one owner more. -/
def refAt (m : Machine) (f : ℕ) : ℕ :=
  match m.ref with
  | none => 0
  | some r => r f

theorem mapsFrame_zero (f : ℕ) : mapsFrame f 0 = 0 := by
  have h : isPrivate 0 = false := isPrivate_zero
  unfold mapsFrame
  rfl

theorem mapsFrame_of_not (h : isPrivate e = false) (f : ℕ) : mapsFrame f e = 0 := by
  simp [mapsFrame, h]

theorem mapsFrame_of_private (h : isPrivate e) (f : ℕ) :
    mapsFrame f e = if f = pteFrame e then 1 else 0 := by
  simp [mapsFrame, h, eq_comm]

theorem mapsFrame_same {e' : Pte} (hp : isPrivate e' = isPrivate e) (hf : pteFrame e' = pteFrame e)
    (f : ℕ) :
    mapsFrame f e' = mapsFrame f e := by
  simp [mapsFrame, hp, hf]

theorem mappings_setPte (m : Machine) (a v f : ℕ) (e : Pte) :
    mappings (m.setPte a v e) f + mapsFrame f (m.pte a v) = mappings m f + mapsFrame f e :=
  entryTotal_setPte (mapsFrame f) (mapsFrame_zero f) m a v e

theorem tableWeight_dead (hf : f ≠ 0) : tableWeight f default = 0 := by
  change tableWeight f deadSpace = 0
  simp [tableWeight, deadSpace, Ne.symm hf]

theorem tableRefs_setSpace (hf : f ≠ 0) (m : Machine) (a : ℕ) (s : AddrSpace) :
    tableRefs (m.setSpace a s) f + tableWeight f (m.space a) = tableRefs m f + tableWeight f s :=
  FinMap.total_set (tableWeight f) (tableWeight_dead hf) m.spaces a s

theorem tableRefs_setPte (hf : f ≠ 0) (m : Machine) (a v : ℕ) (e : Pte) :
    tableRefs (m.setPte a v e) f = tableRefs m f := by
  have h := tableRefs_setSpace hf m a { m.space a with pt := (m.space a).pt.set v e }
  have hw : tableWeight f { m.space a with pt := (m.space a).pt.set v e } = tableWeight f
      (m.space a) := rfl
  exact Nat.add_right_cancel h

theorem tableWeight_setTable (hf : f ≠ 0) (s : AddrSpace) (key x : ℕ) :
    tableWeight f { s with tables := s.tables.set key x } +
        (if s.tables.get key = f then 1 else 0) =
      tableWeight f s + if x = f then 1 else 0 := by
  have h := FinMap.total_set (fun x : ℕ => if x = f then 1 else 0)
    (by change (if (0 : ℕ) = f then 1 else 0) = 0; rw [if_neg (Ne.symm hf)]) s.tables key x
  unfold tableWeight
  simp only
  omega

theorem mappings_congr (h : m'.spaces = m.spaces) (f : ℕ) : mappings m' f = mappings m f := by
  unfold mappings entryTotal
  rw [h]

theorem tableRefs_congr (h : m'.spaces = m.spaces) (f : ℕ) : tableRefs m' f = tableRefs m f := by
  unfold tableRefs
  rw [h]

theorem liveRefs_congr (h : m'.spaces = m.spaces) (g : Held) (f : ℕ) :
    liveRefs g m' f = liveRefs g m f := by
  unfold liveRefs
  rw [mappings_congr h, tableRefs_congr h]

theorem one_le_mappings (hp : isPrivate (m.pte a v)) : 1 ≤ mappings m (pteFrame (m.pte a v)) := by
  have hle := le_entryTotal (mapsFrame (pteFrame (m.pte a v))) (mapsFrame_zero _) m a v
  rwa [mapsFrame_of_private hp, if_pos rfl] at hle

theorem raise_apply (h : ℕ → ℕ) (f x : ℕ) : raise h f x = h x + if x = f then 1 else 0 := by
  unfold raise
  by_cases hx : x = f
  · subst hx
    simp
  · simp [hx]

theorem lower_apply {h : ℕ → ℕ} (hf : 0 < h f) (x : ℕ) :
    lower h f x + (if x = f then 1 else 0) = h x := by
  unfold lower
  by_cases hx : x = f
  · subst hx
    simp
    omega
  · simp [hx]

theorem raise_zero {h : ℕ → ℕ} (hf : f ≠ 0) (hz : h 0 = 0) : raise h f 0 = 0 := by
  rw [raise_apply, hz, if_neg hf.symm]

theorem lower_zero {h : ℕ → ℕ} (hf : 0 < h f) (hz : h 0 = 0) : lower h f 0 = 0 :=
  Nat.le_zero.mp ((Nat.le.intro (lower_apply hf 0)).trans_eq hz)

/-! ## The invariant -/

/-- Every frame's count says how many references there are, plus those that were leaked; a
frame nobody refers to is free unless the kernel owns it; frames that hold tables and
frames just taken have a single reference. -/
structure Owned (kern : ℕ → Bool) (leak : ℕ → ℕ) (g : Held) (m : Machine) : Prop where
  counted : m.ref.isSome = true
  held : ∀ f, f ≠ 0 → 0 < liveRefs g m f + leak f →
    f < m.highest ∧ m.used f = true ∧ kern f = false ∧ refAt m f + 1 = liveRefs g m f + leak f
  free : ∀ f, f ≠ 0 → liveRefs g m f + leak f = 0 → refAt m f = 0 ∧ m.used f = kern f
  excl : ∀ f, f ≠ 0 → 0 < tableRefs m f + g.fresh f → liveRefs g m f + leak f = 1
  nonzero : ∀ a v, isPrivate (m.pte a v) = true → pteFrame (m.pte a v) ≠ 0
  freshZero : g.fresh 0 = 0
  looseZero : g.loose 0 = 0

namespace Owned

section

variable (h : Owned kern leak g m)
include h

theorem fresh_ne (hf : 0 < g.fresh f) : f ≠ 0 := by
  rintro rfl
  rw [h.freshZero] at hf
  contradiction

theorem loose_ne (hf : 0 < g.loose f) : f ≠ 0 := by
  rintro rfl
  rw [h.looseZero] at hf
  contradiction

theorem fresh_lt (hf : 0 < g.fresh f) : f < m.highest :=
  (h.held f (h.fresh_ne hf) (by unfold liveRefs; omega)).1

theorem fresh_unmapped (hf : 0 < g.fresh f) : mappings m f = 0 := by
  have := h.excl f (h.fresh_ne hf) (by omega)
  unfold liveRefs at this
  omega

end

/-- What the invariant says of one frame. -/
def FrameOk (kern : ℕ → Bool) (leak : ℕ → ℕ) (g : Held) (m : Machine) (f : ℕ) : Prop :=
  (0 < liveRefs g m f + leak f → f < m.highest ∧ m.used f = true ∧ kern f = false ∧
    refAt m f + 1 = liveRefs g m f + leak f) ∧
  (liveRefs g m f + leak f = 0 → refAt m f = 0 ∧ m.used f = kern f) ∧
  (0 < tableRefs m f + g.fresh f → liveRefs g m f + leak f = 1)

variable (h : Owned kern leak g m)
include h

/-- References, counts and bitmap are the same but for one frame. -/
theorem of_refs_but (hself : f ≠ 0 → FrameOk kern leak g' m' f)
    (hcounted : m'.ref.isSome) (hhigh : m'.highest = m.highest)
    (hother : ∀ x, x ≠ 0 → x ≠ f → refAt m' x = refAt m x ∧ m'.used x = m.used x ∧
      liveRefs g' m' x = liveRefs g m x ∧ tableRefs m' x + g'.fresh x ≤ tableRefs m x + g.fresh x)
    (hnz : ∀ a v, isPrivate (m'.pte a v) → pteFrame (m'.pte a v) ≠ 0) (hfz : g'.fresh 0 = 0)
    (hlz : g'.loose 0 = 0) : Owned kern leak g' m' := by
  have hall : ∀ x, x ≠ 0 → FrameOk kern leak g' m' x := by
    intro x hx
    by_cases hxf : x = f
    · exact hxf ▸ hself (hxf ▸ hx)
    obtain ⟨href, hused, hlive, hexcl⟩ := hother x hx hxf
    rw [FrameOk, href, hused, hlive, hhigh]
    exact ⟨h.held x hx, h.free x hx, fun hpos => h.excl x hx (hpos.trans_le hexcl)⟩
  exact ⟨hcounted, fun x hx => (hall x hx).1, fun x hx => (hall x hx).2.1,
    fun x hx => (hall x hx).2.2, hnz, hfz, hlz⟩

/-- The invariant reads references, counts and the bitmap, however they came about. -/
theorem of_refs (href : m'.ref = m.ref) (hused : m'.used = m.used)
    (hhigh : m'.highest = m.highest) (hlive : ∀ f, f ≠ 0 → liveRefs g' m' f = liveRefs g m f)
    (hexcl : ∀ f, f ≠ 0 → tableRefs m' f + g'.fresh f ≤ tableRefs m f + g.fresh f)
    (hnz : ∀ a v, isPrivate (m'.pte a v) → pteFrame (m'.pte a v) ≠ 0) (hfz : g'.fresh 0 = 0)
    (hlz : g'.loose 0 = 0) : Owned kern leak g' m' :=
  h.of_refs_but (f := 0) (absurd rfl) (href ▸ h.counted) hhigh
    (fun x hx _ => ⟨by rw [refAt, href, refAt], by rw [hused], hlive x hx, hexcl x hx⟩) hnz hfz hlz

theorem setPte (hlive : ∀ x,
      mapsFrame x e + g'.fresh x + g'.loose x = mapsFrame x (m.pte a v) + g.fresh x + g.loose x)
    (hfresh : ∀ x, g'.fresh x ≤ g.fresh x) (hnz : isPrivate e → pteFrame e ≠ 0)
    (hlz : g'.loose 0 = 0) : Owned kern leak g' (m.setPte a v e) := by
  refine h.of_refs rfl rfl rfl (fun x hx => ?_) (fun x hx => ?_) (fun b w => ?_) ?_ hlz
  · have hm := mappings_setPte m a v x e
    have := hlive x
    unfold liveRefs
    rw [tableRefs_setPte hx]
    omega
  · rw [tableRefs_setPte hx]
    exact Nat.add_le_add_left (hfresh x) _
  · rw [pte_setPte]
    split
    · exact hnz
    · exact h.nonzero b w
  · exact Nat.le_zero.mp ((hfresh 0).trans_eq h.freshZero)

theorem setPte_same (hp : isPrivate e = isPrivate (m.pte a v))
    (hf : pteFrame e = pteFrame (m.pte a v)) : Owned kern leak g (m.setPte a v e) :=
  h.setPte (fun x => by rw [mapsFrame_same hp hf])
  (fun _ => le_rfl) (by rw [hp, hf]; exact h.nonzero a v) h.looseZero

theorem setPte_none (hold : isPrivate (m.pte a v) = false) (hnew : isPrivate e = false) :
    Owned kern leak g (m.setPte a v e) :=
  h.setPte (fun x => by rw [mapsFrame_of_not hold, mapsFrame_of_not hnew])
  (fun _ => le_rfl) (by simp [hnew])
    h.looseZero

/-- Clearing an entry leaves its reference in hand. -/
theorem setPte_drop (hold : isPrivate (m.pte a v)) (hnew : isPrivate e = false) :
    Owned kern leak { g with loose := raise g.loose (pteFrame (m.pte a v)) }
      (m.setPte a v e) := by
  refine h.setPte (fun x => ?_) (fun _ => le_rfl) (by simp [hnew]) ?_
  · simp only [mapsFrame_of_private hold, mapsFrame_of_not hnew, raise_apply]
    omega
  · exact raise_zero (h.nonzero a v hold) h.looseZero

/-- Mapping a frame just allocated. -/
theorem setPte_fresh (hf : 0 < g.fresh f) (hold : isPrivate (m.pte a v) = false)
    (hnew : isPrivate e) (hfe : pteFrame e = f) :
    Owned kern leak { g with fresh := lower g.fresh f } (m.setPte a v e) := by
  have hl := fun x => lower_apply hf x
  refine h.setPte (fun x => ?_) (fun x => ?_) (fun _ => hfe ▸ h.fresh_ne hf) h.looseZero
  · simp only [mapsFrame_of_not hold, mapsFrame_of_private hnew, hfe, ← hl x]
    omega
  · exact Nat.le.intro (hl x)

/-- Mapping a fresh frame in place of another. -/
theorem setPte_replace (hf : 0 < g.fresh f) (hold : isPrivate (m.pte a v))
    (hnew : isPrivate e) (hfe : pteFrame e = f) :
    Owned kern leak ⟨lower g.fresh f, raise g.loose (pteFrame (m.pte a v))⟩ (m.setPte a v e) := by
  have hl := fun x => lower_apply hf x
  refine h.setPte (fun x => ?_) (fun x => ?_) (fun _ => hfe ▸ h.fresh_ne hf) ?_
  · simp only [mapsFrame_of_private hold, mapsFrame_of_private hnew, hfe, raise_apply, ← hl x]
    omega
  · exact Nat.le.intro (hl x)
  · exact raise_zero (h.nonzero a v hold) h.looseZero

theorem setPte_copy (hg : 0 < g.loose (pteFrame e)) (hold : isPrivate (m.pte a v) = false)
    (hnew : isPrivate e) :
    Owned kern leak { g with loose := lower g.loose (pteFrame e) } (m.setPte a v e) := by
  have hl := fun x => lower_apply hg x
  refine h.setPte (fun x => ?_) (fun _ => le_rfl) (fun _ => h.loose_ne hg) ?_
  · simp only [mapsFrame_of_not hold, mapsFrame_of_private hnew, ← hl x]
    omega
  · exact lower_zero hg h.looseZero

theorem congr (hs : m'.spaces = m.spaces) (hframes : SameFrames m m') :
    Owned kern leak g m' := by
  refine h.of_refs hframes.ref hframes.used hframes.highest (fun f _ => ?_) (fun f _ => ?_)
    (fun a v => ?_) h.freshZero h.looseZero
  · exact liveRefs_congr hs g f
  · rw [tableRefs_congr hs]
  rw [pte_congr hs]
  exact h.nonzero a v

theorem setTables {s : AddrSpace} {fresh : ℕ → ℕ} (hpt : s.pt = (m.space a).pt)
    (hw : ∀ f, f ≠ 0 → tableWeight f s + fresh f = tableWeight f (m.space a) + g.fresh f)
    (hz : fresh 0 = 0) :
    Owned kern leak { g with fresh := fresh } (m.setSpace a s) := by
  have htables : ∀ f, f ≠ 0 →
      tableRefs (m.setSpace a s) f + fresh f = tableRefs m f + g.fresh f := by
    intro f hf
    have ht := tableRefs_setSpace hf m a s
    have := hw f hf
    omega
  refine h.of_refs rfl rfl rfl (fun f hf => ?_) (fun f hf => (htables f hf).le) (fun b w => ?_)
    hz h.looseZero
  · have := htables f hf
    unfold liveRefs mappings
    rw [entryTotal_setSpace_same _ hpt]
    simp only
    omega
  · rw [pte_setSpace hpt]
    exact h.nonzero b w

theorem setSpace_same {s : AddrSpace} (hpt : s.pt = (m.space a).pt)
    (hw : ∀ f, tableWeight f s = tableWeight f (m.space a)) : Owned kern leak g (m.setSpace a s) :=
  h.setTables hpt (fun f _ => by rw [hw]) h.freshZero

end Owned

/-! ## Returning and raising references -/

theorem refAt_some (h : m.ref = some r) (f : ℕ) : refAt m f = r f := by
  unfold refAt
  rw [h]

theorem pmmFree_shared (hr : m.ref = some r) (h0 : f ≠ 0) (hlt : f < m.highest) (hne : r f ≠ 0) :
    pmmFree m f = { m with ref := some (update r f (r f - 1)) } := by
  unfold pmmFree
  rw [if_neg h0, if_neg (by omega), hr]
  simp [hne]

theorem pmmFree_last (hr : m.ref = some r) (h0 : f ≠ 0) (hlt : f < m.highest) (hz : r f = 0)
    (hu : m.used f) :
    pmmFree m f = { m with
      used := update m.used f false
      freeFrames := m.freeFrames + 1
      hint := if f / 64 < m.hint then f / 64 else m.hint } := by
  unfold pmmFree
  rw [if_neg h0, if_neg (by omega)]
  simp [hz, pmmClear, hu, hr]

/-- Giving back one reference. -/
theorem Owned.give (h : Owned kern leak g m) (h0 : f ≠ 0)
    (hlive : ∀ x, x ≠ 0 → liveRefs g' m x + (if x = f then 1 else 0) = liveRefs g m x)
    (hfresh : ∀ x, g'.fresh x ≤ g.fresh x) (hfz : g'.fresh 0 = 0) (hlz : g'.loose 0 = 0) :
    Owned kern leak g' (pmmFree m f) := by
  obtain ⟨r, hr⟩ := Option.isSome_iff_exists.mp h.counted
  have hf := hlive f h0
  rw [if_pos rfl] at hf
  obtain ⟨hlt, hu, hk, hcount⟩ := h.held f h0 (by omega)
  rw [refAt_some hr] at hcount
  have hother : ∀ x, x ≠ 0 → x ≠ f → liveRefs g' m x = liveRefs g m x ∧
      tableRefs m x + g'.fresh x ≤ tableRefs m x + g.fresh x := fun x hx hxf => by
    have hl := hlive x hx
    rw [if_neg hxf] at hl
    exact ⟨hl, Nat.add_le_add_left (hfresh x) _⟩
  -- the only reference to a table or to a frame just taken is the one given back
  have hnot : ¬ 0 < tableRefs m f + g'.fresh f := by
    intro hpos
    have := hfresh f
    have := h.excl f h0 (by omega)
    unfold liveRefs at hf this
    omega
  by_cases hz : r f = 0
  · rw [pmmFree_last hr h0 hlt hz hu]
    refine h.of_refs_but
      (fun _ => ⟨fun hpos => ?_, fun _ => ⟨?_, ?_⟩, fun hpos => ?_⟩) h.counted rfl
      (fun x hx hxf => ⟨rfl, update_of_ne hxf _ _, hother x hx hxf⟩) h.nonzero hfz hlz
    · change 0 < liveRefs g' m f + leak f at hpos
      omega
    · exact (refAt_some hr f).trans hz
    · exact (update_self f false m.used).trans hk.symm
    · exact absurd hpos hnot
  · rw [pmmFree_shared hr h0 hlt hz]
    have hat : ∀ x, refAt { m with ref := some (update r f (r f - 1)) } x =
        if x = f then r f - 1 else refAt m x := by
      intro x
      rw [refAt_some rfl, refAt_some hr, update_apply]
    refine h.of_refs_but
      (fun _ => ⟨fun hpos => ⟨hlt, hu, hk, ?_⟩, fun hzero => ?_, fun hpos => ?_⟩) rfl rfl
      (fun x hx hxf => ⟨(hat x).trans (if_neg hxf), rfl, hother x hx hxf⟩) h.nonzero hfz hlz
    · rw [hat, if_pos rfl]
      change _ = liveRefs g' m f + leak f
      omega
    · change liveRefs g' m f + leak f = 0 at hzero
      omega
    · exact absurd hpos hnot

/-- Taking one more reference to a mapped frame. -/
theorem Owned.share (h : Owned kern leak g m) (hp : isPrivate (m.pte a v))
    (hroom : refAt m (pteFrame (m.pte a v)) < 65535) :
    Owned kern leak { g with loose := raise g.loose (pteFrame (m.pte a v)) }
      (pmmRefInc m (pteFrame (m.pte a v))) := by
  set f := pteFrame (m.pte a v) with hfdef
  have h0 : f ≠ 0 := h.nonzero a v hp
  obtain ⟨r, hr⟩ := Option.isSome_iff_exists.mp h.counted
  rw [refAt_some hr] at hroom
  have hmapped : 1 ≤ mappings m f := one_le_mappings hp
  have hpos : 0 < liveRefs g m f := by
    unfold liveRefs
    omega
  obtain ⟨hlt, hu, hk, hcount⟩ := h.held f h0 (by omega)
  have hlive : ∀ x, liveRefs { g with loose := raise g.loose f } m x =
      liveRefs g m x + if x = f then 1 else 0 := by
    intro x
    unfold liveRefs
    simp only [raise_apply]
    omega
  have hnot : ¬ 0 < tableRefs m f + g.fresh f := by
    intro hex
    have hone := h.excl f h0 hex
    unfold liveRefs at hone
    omega
  have heq : pmmRefInc m f = { m with ref := some (update r f (r f + 1)) } := by
    unfold pmmRefInc
    rw [hr]
    simp [hlt, hroom]
  have hat : ∀ x, refAt { m with ref := some (update r f (r f + 1)) } x =
      refAt m x + if x = f then 1 else 0 := by
    intro x
    rw [refAt_some hr]
    exact raise_apply r f x
  have hself := hlive f
  rw [if_pos rfl] at hself
  rw [heq]
  refine h.of_refs_but
    (fun _ => ⟨fun _ => ⟨hlt, hu, hk, ?_⟩, fun hzero => ?_, fun hex => absurd hex hnot⟩) rfl rfl
    (fun x hx hxf => ⟨?_, rfl, ?_, le_rfl⟩) h.nonzero h.freshZero (raise_zero h0 h.looseZero)
  · rw [hat, if_pos rfl]
    change _ = liveRefs { g with loose := raise g.loose f } m f + leak f
    omega
  · change liveRefs { g with loose := raise g.loose f } m f + leak f = 0 at hzero
    omega
  · rw [hat, if_neg hxf, Nat.add_zero]
  · exact (hlive x).trans (by rw [if_neg hxf, Nat.add_zero])

/-- The count of a frame in use is one more than what is stored. -/
theorem pmmRefCount_eq (h : Owned kern leak g m) (h0 : f ≠ 0) (hpos : 0 < liveRefs g m f) :
    pmmRefCount m f = refAt m f + 1 := by
  obtain ⟨r, hr⟩ := Option.isSome_iff_exists.mp h.counted
  have hlt := (h.held f h0 (by omega)).1
  unfold pmmRefCount
  rw [refAt_some hr, hr]
  simp only
  rw [if_neg (by omega)]

end Vextro.Paging
