import Vextro.Verification.Paging.Actions

/-! Reading the machine after an update, and the shape every machine keeps, whatever its reference
counts. -/

namespace Vextro.Paging

open Function (update update_of_ne)

/-! ## Spaces and entries -/

theorem space_setSpace (m : Machine) (a b : ℕ) (s : AddrSpace) :
    (m.setSpace a s).space b = if b = a then s else m.space b :=
  FinMap.get_set m.spaces a b s

@[simp] theorem space_setSpace_self (m : Machine) (a : ℕ) (s : AddrSpace) :
    (m.setSpace a s).space a = s := by
  simp [space_setSpace]

theorem pte_setPte (m : Machine) (a b v w : ℕ) (e : Pte) :
    (m.setPte a v e).pte b w = if b = a ∧ w = v then e else m.pte b w := by
  unfold Machine.setPte Machine.pte
  rw [space_setSpace]
  by_cases hb : b = a
  · subst hb
    simp [FinMap.get_set]
  · simp [hb]

@[simp] theorem pte_setPte_self (m : Machine) (a v : ℕ) (e : Pte) :
    (m.setPte a v e).pte a v = e := by
  simp [pte_setPte]

theorem live_setPte (m : Machine) (a b v : ℕ) (e : Pte) :
    ((m.setPte a v e).space b).live = (m.space b).live := by
  unfold Machine.setPte
  rw [space_setSpace]
  split
  · next h => subst h; rfl
  · rfl

theorem areas_setPte (m : Machine) (a b v : ℕ) (e : Pte) :
    ((m.setPte a v e).space b).areas = (m.space b).areas := by
  unfold Machine.setPte
  rw [space_setSpace]
  split
  · next h => subst h; rfl
  · rfl

theorem pte_setSpace {m : Machine} {a : ℕ} {s : AddrSpace} (h : s.pt = (m.space a).pt)
    (b v : ℕ) : (m.setSpace a s).pte b v = m.pte b v := by
  unfold Machine.pte
  rw [space_setSpace]
  split
  · next hb => subst hb; rw [h]
  · rfl

/-! ## Functions that leave the spaces alone -/

/-- `m'` differs from `m` outside the spaces and the contents of frames and slots. -/
structure SameContents (m m' : Machine) : Prop where
  spaces : m'.spaces = m.spaces
  mem : m'.mem = m.mem
  pagefile : m'.pagefile = m.pagefile
  highest : m'.highest = m.highest
  ready : m'.swapReady = m.swapReady
  slotCount : m'.slotCount = m.slotCount
  fails : m'.slotFails = m.slotFails

theorem SameContents.refl (m : Machine) : SameContents m m := ⟨rfl, rfl, rfl, rfl, rfl, rfl, rfl⟩

theorem space_congr {m m' : Machine} (h : m'.spaces = m.spaces) : m'.space = m.space := by
  unfold Machine.space
  rw [h]

theorem pte_congr {m m' : Machine} (h : m'.spaces = m.spaces) : m'.pte = m.pte := by
  unfold Machine.pte
  rw [space_congr h]

theorem pmmRefCount_congr {m m' : Machine} (href : m'.ref = m.ref) (hhigh : m'.highest = m.highest)
    (f : ℕ) :
    pmmRefCount m' f = pmmRefCount m f := by
  rw [pmmRefCount, pmmRefCount, href, hhigh]

theorem SameContents.space {m m' : Machine} (h : SameContents m m') (a : ℕ) :
    m'.space a = m.space a :=
  congrFun (space_congr h.spaces) a

theorem SameContents.pte {m m' : Machine} (h : SameContents m m') (a v : ℕ) :
    m'.pte a v = m.pte a v :=
  congrFun₂ (pte_congr h.spaces) a v

section

variable (m : Machine)

/-- What `pmm_free` may do: nothing, return the frame to the bitmap, or count one owner less. -/
theorem pmmFree_cases (f : ℕ) : pmmFree m f = m ∨ f ≠ 0 ∧
    (pmmFree m f = { m with
        used := update m.used f false, freeFrames := m.freeFrames + 1
        hint := if f / 64 < m.hint then f / 64 else m.hint } ∨
      ∃ r, m.ref = some r ∧ f < m.highest ∧ r f ≠ 0 ∧
      pmmFree m f = { m with ref := some (update r f (r f - 1)) }) := by
  have hclear : pmmClear m f = m ∨ pmmClear m f = { m with
      used := update m.used f false, freeFrames := m.freeFrames + 1
      hint := if f / 64 < m.hint then f / 64 else m.hint } := by
    rw [pmmClear]
    split
    · exact .inr rfl
    · exact .inl rfl
  rw [pmmFree]
  split
  · exact .inl rfl
  rename_i h0
  split
  · exact .inl rfl
  rename_i hlt
  split
  · exact hclear.imp id fun h => ⟨h0, .inl h⟩
  rename_i r hr
  split
  · rename_i hne
    exact .inr ⟨h0, .inr ⟨r, hr, Nat.lt_of_not_le hlt, hne, rfl⟩⟩
  · exact hclear.imp id fun h => ⟨h0, .inl h⟩

theorem pmmFree_same (f : ℕ) : SameContents m (pmmFree m f) := by
  rcases pmmFree_cases m f with h | ⟨-, h | ⟨r, -, -, -, h⟩⟩ <;> rw [h] <;>
    exact ⟨rfl, rfl, rfl, rfl, rfl, rfl, rfl⟩

theorem pmmRefInc_eq (f : ℕ) : pmmRefInc m f = { m with ref := (pmmRefInc m f).ref } := by
  unfold pmmRefInc
  split
  · rfl
  split
  · rfl
  · split <;> rfl

theorem pmmRefInc_same (f : ℕ) : SameContents m (pmmRefInc m f) := by
  rw [pmmRefInc_eq]
  exact ⟨rfl, rfl, rfl, rfl, rfl, rfl, rfl⟩

theorem swapSlotFree_same (slot : ℕ) : SameContents m (swapSlotFree m slot) := by
  unfold swapSlotFree
  split
  · exact SameContents.refl m
  split
  · exact ⟨rfl, rfl, rfl, rfl, rfl, rfl, rfl⟩
  · exact SameContents.refl m

theorem swapDiscardPte_same (e : Pte) : SameContents m (swapDiscardPte m e) := by
  unfold swapDiscardPte
  split
  · exact SameContents.refl m
  split
  · exact swapSlotFree_same m _
  · exact SameContents.refl m

theorem swapRmapSet_same (f : ℕ) (owner : Option (ℕ × ℕ)) :
    SameContents m (swapRmapSet m f owner) := by
  unfold swapRmapSet
  split
  · exact SameContents.refl m
  split
  · exact SameContents.refl m
  · exact ⟨rfl, rfl, rfl, rfl, rfl, rfl, rfl⟩

theorem pmmFree_used_zero (f : ℕ) : (pmmFree m f).used 0 = m.used 0 := by
  rcases pmmFree_cases m f with h | ⟨h0, h | ⟨r, -, -, -, h⟩⟩ <;> rw [h]
  exact update_of_ne h0.symm _ _

theorem pmmRefInc_used (f : ℕ) : (pmmRefInc m f).used = m.used := by rw [pmmRefInc_eq]

end

/-! ## Functions that leave the frames alone -/

/-- The allocator state is the same. -/
structure SameFrames (m m' : Machine) : Prop where
  highest : m'.highest = m.highest
  used : m'.used = m.used
  ref : m'.ref = m.ref

theorem swapSlotFree_frames (m : Machine) (slot : ℕ) : SameFrames m (swapSlotFree m slot) := by
  unfold swapSlotFree
  split
  · exact ⟨rfl, rfl, rfl⟩
  · split <;> exact ⟨rfl, rfl, rfl⟩

theorem swapDiscardPte_frames (m : Machine) (e : Pte) : SameFrames m (swapDiscardPte m e) := by
  unfold swapDiscardPte
  split
  · exact ⟨rfl, rfl, rfl⟩
  split
  · exact swapSlotFree_frames m _
  · exact ⟨rfl, rfl, rfl⟩

/-! ## Updates of the spaces commute with the rest -/

section

variable (m : Machine)

theorem setSpace_setSpace (a : ℕ) (s s' : AddrSpace) :
    (m.setSpace a s).setSpace a s' = m.setSpace a s' := by
  unfold Machine.setSpace
  simp only [FinMap.set_set]

theorem setPte_eq (a v : ℕ) (e : Pte) :
    m.setPte a v e = m.setSpace a { m.space a with pt := (m.space a).pt.set v e } := rfl

theorem pmmFree_setSpace (a f : ℕ) (s : AddrSpace) :
    pmmFree (m.setSpace a s) f = (pmmFree m f).setSpace a s := by
  have hclear : pmmClear (m.setSpace a s) f = (pmmClear m f).setSpace a s := by
    change (if m.used f = true then _ else _) = Machine.setSpace
      (if m.used f = true then _ else _) a s
    split <;> rfl
  unfold pmmFree
  by_cases h0 : f = 0
  · simp [h0]
  by_cases hh : m.highest ≤ f
  · simp [hh, Machine.setSpace]
  simp only [h0, if_false]
  rw [if_neg (show ¬ (m.setSpace a s).highest ≤ f from hh), if_neg hh, hclear]
  rw [show (m.setSpace a s).ref = m.ref from rfl]
  cases m.ref with
  | none => rfl
  | some r =>
    simp only
    split <;> rfl

theorem swapSlotFree_setSpace (a slot : ℕ) (s : AddrSpace) :
    swapSlotFree (m.setSpace a s) slot = (swapSlotFree m slot).setSpace a s := by
  unfold swapSlotFree
  by_cases hlt : m.slotCount ≤ slot
  · simp [Machine.setSpace, hlt]
  · cases hb : m.slotBm slot <;> simp [Machine.setSpace, hlt, hb]

theorem swapRmapSet_setSpace (a f : ℕ) (owner : Option (ℕ × ℕ)) (s : AddrSpace) :
    swapRmapSet (m.setSpace a s) f owner = (swapRmapSet m f owner).setSpace a s := by
  unfold swapRmapSet
  rw [show (m.setSpace a s).rmap = m.rmap from rfl]
  cases m.rmap with
  | none => rfl
  | some r =>
    change (if m.highest ≤ f then _ else _) = Machine.setSpace (if m.highest ≤ f then _ else _) a s
    split <;> rfl

theorem pmmFree_setPte (a v f : ℕ) (e : Pte) :
    pmmFree (m.setPte a v e) f = (pmmFree m f).setPte a v e := by
  rw [setPte_eq, setPte_eq, pmmFree_setSpace, (pmmFree_same m f).space]

theorem swapSlotFree_setPte (a v slot : ℕ) (e : Pte) :
    swapSlotFree (m.setPte a v e) slot = (swapSlotFree m slot).setPte a v e := by
  rw [setPte_eq, setPte_eq, swapSlotFree_setSpace, (swapSlotFree_same m slot).space]

theorem swapRmapSet_setPte (a v f : ℕ) (owner : Option (ℕ × ℕ)) (e : Pte) :
    swapRmapSet (m.setPte a v e) f owner = (swapRmapSet m f owner).setPte a v e := by
  rw [setPte_eq, setPte_eq, swapRmapSet_setSpace, (swapRmapSet_same m f owner).space]

end

/-! ## Counting entries -/

/-- The sum of a weight over the entries of all spaces. -/
def entryTotal (w : Pte → ℕ) (m : Machine) : ℕ := m.spaces.total fun s => s.pt.total w

theorem entryTotal_setSpace (w : Pte → ℕ) (m : Machine) (a : ℕ) (s : AddrSpace) :
    entryTotal w (m.setSpace a s) + (m.space a).pt.total w = entryTotal w m + s.pt.total w :=
  FinMap.total_set (fun s : AddrSpace => s.pt.total w) rfl m.spaces a s

/-- Storing an entry moves the total by the two weights. -/
theorem entryTotal_setPte (w : Pte → ℕ) (hw : w 0 = 0) (m : Machine) (a v : ℕ) (e : Pte) :
    entryTotal w (m.setPte a v e) + w (m.pte a v) = entryTotal w m + w e := by
  have hspace : entryTotal w (m.setPte a v e) + (m.space a).pt.total w =
      entryTotal w m + ((m.space a).pt.set v e).total w :=
    entryTotal_setSpace w m a { m.space a with pt := (m.space a).pt.set v e }
  have hentry : ((m.space a).pt.set v e).total w + w (m.pte a v) = (m.space a).pt.total w + w e :=
    FinMap.total_set w hw (m.space a).pt v e
  omega

theorem entryTotal_setSpace_same (w : Pte → ℕ) {m : Machine} {a : ℕ} {s : AddrSpace}
    (h : s.pt = (m.space a).pt) : entryTotal w (m.setSpace a s) = entryTotal w m := by
  have := entryTotal_setSpace w m a s
  rw [h] at this
  omega

theorem le_entryTotal (w : Pte → ℕ) (hw : w 0 = 0) (m : Machine) (a v : ℕ) :
    w (m.pte a v) ≤ entryTotal w m :=
  le_trans (FinMap.le_total w hw (m.space a).pt v)
    (FinMap.le_total (fun s : AddrSpace => s.pt.total w) rfl m.spaces a)

theorem add_le_entryTotal (w : Pte → ℕ) (hw : w 0 = 0) (m : Machine) {a v b u : ℕ}
    (hne : ¬ (b = a ∧ u = v)) : w (m.pte a v) + w (m.pte b u) ≤ entryTotal w m := by
  have h := entryTotal_setPte w hw m a v 0
  have h' := le_entryTotal w hw (m.setPte a v 0) b u
  rw [pte_setPte, if_neg hne] at h'
  omega

variable {e : Pte} {m m' : Machine} {a : ℕ}
variable {flags : Pte} {v : ℕ}

/-! ## Flags -/

/-- The three sets of flags a mapping call can ask for. -/
theorem GrantFlags.cases (h : GrantFlags flags) :
    flags = pteUser ||| pteNx ∨ flags = pteUser ||| pteWrite ||| pteNx ∨ flags = pteUser := by
  obtain ⟨prot, hr, rfl⟩ := h
  unfold refusesProt at hr
  unfold protFlags
  cases hw : asks prot vxProtWrite <;> cases hx : asks prot vxProtExec <;>
    simp_all

/-- What the flags of a reservation can and cannot ask for. -/
structure PlainFlags (flags : Pte) : Prop where
  addr : flags &&& pteAddrMask = 0
  user : has flags pteUser = true
  notShared : has flags pteShared = false
  notCow : has flags pteCow = false
  writeNx : has flags pteWrite = true → has flags pteNx = true

theorem GrantFlags.plain (h : GrantFlags flags) : PlainFlags flags := by
  rcases h.cases with rfl | rfl | rfl <;>
    exact ⟨by decide, by decide, by decide, by decide, by decide⟩

theorem isPrivate_iff : isPrivate e ↔ has e ptePresent ∧ has e pteShared = false := by
  simp [isPrivate]

theorem default_pte : (default : Pte) = 0 := rfl

theorem isPrivate_zero : isPrivate 0 = false := by decide

/-- Neither setting nor clearing other bits makes an entry private or stops it from being
so. -/
theorem isPrivate_or {x : Pte} (h : has x ptePresent = false ∧ has x pteShared = false) :
    isPrivate (e ||| x) = isPrivate e := by
  simp [isPrivate, has_or, h]

theorem isPrivate_clear {x : Pte} (h : has x ptePresent = false ∧ has x pteShared = false) :
    isPrivate (e &&& ~~~x) = isPrivate e := by
  simp [isPrivate, has_and isFlag_present, has_and isFlag_shared, has_not isFlag_present,
    has_not isFlag_shared, h]

theorem isPrivate_pteMake {f : ℕ} (hs : has flags pteShared = false) :
    isPrivate (pteMake f flags) := by
  rw [isPrivate_iff, has_pteMake isFlag_shared (by decide)]
  exact ⟨pteMake_present f flags, hs⟩

theorem isPrivate_stored (e : Pte) : isPrivate (e ||| pteAccessed ||| pteDirty) = isPrivate e := by
  rw [isPrivate_or (by decide), isPrivate_or (by decide)]

theorem pteFrame_stored (e : Pte) : pteFrame (e ||| pteAccessed ||| pteDirty) = pteFrame e := by
  rw [pteFrame_or (by decide), pteFrame_or (by decide)]

theorem isSwapped_zero : swapPteIsSwapped 0 = false := by decide

theorem isSwapped_of_present (h : has e ptePresent) : swapPteIsSwapped e = false := by
  simp [swapPteIsSwapped, h]

theorem present_of_isSwapped (h : swapPteIsSwapped e) : has e ptePresent = false := by
  simpa using (Bool.and_eq_true_iff.mp h).1

theorem isPrivate_of_isSwapped (h : swapPteIsSwapped e) : isPrivate e = false := by
  simp [isPrivate, present_of_isSwapped h]

/-! ## The invariant -/

/-- Frame zero is never free and frame numbers fit an entry; copy-on-write pages are
private, reservations carry granted flags, a space that is not live holds nothing, and a
live one has a root table. -/
structure Sane (m : Machine) : Prop where
  zeroUsed : m.used 0 = true
  highest : m.highest ≤ 2 ^ 40
  cowPrivate : ∀ a v, has (m.pte a v) ptePresent = true → has (m.pte a v) pteCow = true →
    has (m.pte a v) pteShared = false
  areas : ∀ a, ∀ x ∈ (m.space a).areas, x.len ≠ 0 → GrantFlags x.pteFlags
  deadEntries : ∀ a, (m.space a).live = false → ∀ v, m.pte a v = 0
  deadTables : ∀ a, (m.space a).live = false → ∀ k, (m.space a).tables.get k = 0
  deadRoot : ∀ a, (m.space a).live = false → (m.space a).pml4 = 0
  deadVmas : ∀ a, (m.space a).live = false → (m.space a).vmas = 0
  root : ∀ a, (m.space a).live = true → (m.space a).pml4 ≠ 0

theorem Sane.live_of_present (h : Sane m) (hp : has (m.pte a v) ptePresent) :
    (m.space a).live := by
  cases hl : (m.space a).live with
  | true => rfl
  | false => rw [h.deadEntries a hl v] at hp; contradiction

/-- What is in memory and swap does not matter. -/
theorem Sane.of_spaces (h : Sane m) (hs : m'.spaces = m.spaces) (hu : m'.used 0 = m.used 0)
    (hh : m'.highest = m.highest) : Sane m' := by
  have hspace := space_congr hs
  have hpte := pte_congr hs
  constructor
  · exact hu.trans h.zeroUsed
  · exact hh ▸ h.highest
  · exact hpte ▸ h.cowPrivate
  · exact hspace ▸ h.areas
  · exact hspace ▸ hpte ▸ h.deadEntries
  · exact hspace ▸ h.deadTables
  · exact hspace ▸ h.deadRoot
  · exact hspace ▸ h.deadVmas
  · exact hspace ▸ h.root

/-- What a replacement for the space `a` has to satisfy. -/
structure SaneSpace (s : AddrSpace) : Prop where
  cowPrivate : ∀ v, has (s.pt.get v) ptePresent = true → has (s.pt.get v) pteCow = true →
    has (s.pt.get v) pteShared = false
  areas : ∀ x ∈ s.areas, x.len ≠ 0 → GrantFlags x.pteFlags
  deadEntries : s.live = false → ∀ v, s.pt.get v = 0
  deadTables : s.live = false → ∀ k, s.tables.get k = 0
  deadRoot : s.live = false → s.pml4 = 0
  deadVmas : s.live = false → s.vmas = 0
  root : s.live = true → s.pml4 ≠ 0

theorem Sane.space (h : Sane m) (a : ℕ) : SaneSpace (m.space a) :=
  ⟨h.cowPrivate a, h.areas a, h.deadEntries a, h.deadTables a, h.deadRoot a, h.deadVmas a, h.root a⟩

theorem Sane.setSpace (h : Sane m) {s : AddrSpace} (hs : SaneSpace s) : Sane (m.setSpace a s) := by
  have hspace : ∀ b, SaneSpace ((m.setSpace a s).space b) := fun b => by
    rw [space_setSpace]
    split
    · exact hs
    · exact h.space b
  exact ⟨h.zeroUsed, h.highest, fun b => (hspace b).cowPrivate, fun b => (hspace b).areas,
    fun b => (hspace b).deadEntries, fun b => (hspace b).deadTables,
    fun b => (hspace b).deadRoot, fun b => (hspace b).deadVmas, fun b => (hspace b).root⟩

theorem Sane.setPte (h : Sane m) (hl : (m.space a).live ∨ e = 0)
    (he : has e ptePresent → has e pteCow → has e pteShared = false) : Sane (m.setPte a v e) := by
  refine h.setSpace ⟨?_, h.areas a, ?_, h.deadTables a, h.deadRoot a, h.deadVmas a, h.root a⟩
  · intro w
    simp only [FinMap.get_set]
    split
    · exact he
    · exact h.cowPrivate a w
  intro hd w
  simp only [FinMap.get_set]
  split
  · rcases hl with hl | rfl
    · exact absurd hd (by simp [hl])
    · rfl
  · exact h.deadEntries a hd w

/-! ## Preservation -/

/-- Step lemma: one event keeps the page tables sane. -/
theorem act_sane {g g' : Held} {ev : Event} (h : Sane m) (hact : Act g m ev g' m') : Sane m' := by
  cases hact with
  | quiet | fill => exact h.of_spaces rfl rfl rfl
  | take f hint freeFrames h0 => exact h.of_spaces rfl (Function.update_of_ne h0.symm _ _) rfl
  | giveFresh f | giveLoose f =>
    exact h.of_spaces (pmmFree_same m f).spaces (pmmFree_used_zero m f) (pmmFree_same m f).highest
  | leak => exact h
  | tune a s hs =>
    have ha := h.space a
    apply h.setSpace
    constructor
    · rw [hs.pt]; exact ha.cowPrivate
    · rw [hs.areas]; exact ha.areas
    · rw [hs.live, hs.pt]; exact ha.deadEntries
    · rw [hs.live, hs.tables]; exact ha.deadTables
    · rw [hs.live, hs.pml4]; exact ha.deadRoot
    · rw [hs.live, hs.vmas]; exact ha.deadVmas
    · rw [hs.live, hs.pml4]; exact ha.root
  | age a v hv =>
    refine h.setPte (Or.inl hv.live) fun _ hc => ?_
    simp +decide [has_and isFlag_cow, hv.notCow] at hc
  | evict a v slot hv =>
    have hslot : Sane (fillSlot m slot (m.mem (pteFrame (m.pte a v)))) := h.of_spaces rfl rfl rfl
    refine hslot.setPte (Or.inl hv.live) fun hp => ?_
    rw [swapPteMake_present] at hp
    contradiction
  | pageIn a v f hf hl hs =>
    have hsame := swapSlotFree_same m (swapPteSlot (m.pte a v))
    have hframes := swapSlotFree_frames m (swapPteSlot (m.pte a v))
    refine Sane.setPte (h.of_spaces hsame.spaces (congrFun hframes.used 0) hframes.highest)
      (Or.inl ?_) fun _ hc => ?_
    · rw [hsame.space]; exact hl
    · rw [has_pteMake isFlag_cow (by decide)] at hc
      simp +decide [has_and isFlag_cow] at hc
  | map a v f x hf hl hx hlen =>
    refine h.setPte (Or.inl hl) fun _ hc => ?_
    rw [has_pteMake isFlag_cow (by decide), (h.areas a x hx hlen).plain.notCow] at hc
    contradiction
  | unmapPrivate a v => exact h.setPte (Or.inr rfl) (by simp +decide)
  | unmapOther a v =>
    have hsame := swapDiscardPte_same m (m.pte a v)
    have hframes := swapDiscardPte_frames m (m.pte a v)
    exact Sane.setPte (h.of_spaces hsame.spaces (congrFun hframes.used 0) hframes.highest)
      (Or.inr rfl) (by simp +decide)
  | protect a v flags hf hp =>
    refine h.setPte (Or.inl (h.live_of_present hp)) fun _ hc => ?_
    have hflags := hf.plain
    simp +decide [has_or, has_and isFlag_cow, hflags.notCow] at hc
    have := h.cowPrivate a v hp hc
    simp +decide [has_or, has_and isFlag_shared, hflags.notShared, this]
  | touch a v hp =>
    refine h.setPte (Or.inl (h.live_of_present hp)) fun _ hc => ?_
    simp +decide [has_or] at hc
    simp +decide [has_or, h.cowPrivate a v hp hc]
  | store a v offset byte hp =>
    have hset : Sane (m.setPte a v (m.pte a v ||| pteAccessed ||| pteDirty)) := by
      refine h.setPte (Or.inl (h.live_of_present hp)) fun _ hc => ?_
      simp +decide [has_or] at hc
      simp +decide [has_or, h.cowPrivate a v hp hc]
    exact hset.of_spaces rfl rfl rfl
  | cowMark a v hp =>
    obtain ⟨hpr, hsh⟩ := isPrivate_iff.mp hp
    refine h.setPte (Or.inl (h.live_of_present hpr)) fun _ _ => ?_
    simp +decide [has_or, has_and isFlag_shared, hsh]
  | share a v =>
    exact h.of_spaces (pmmRefInc_same m _).spaces (congrFun (pmmRefInc_used m _) 0)
      (pmmRefInc_same m _).highest
  | copy d v e hl hz hp =>
    exact h.setPte (Or.inl hl) fun _ _ => (isPrivate_iff.mp hp).2
  | copyShared d a v hl => exact h.setPte (Or.inl hl) (h.cowPrivate a v)
  | cowKeep a v hp =>
    obtain ⟨hpr, hsh⟩ := isPrivate_iff.mp hp
    refine h.setPte (Or.inl (h.live_of_present hpr)) fun _ hc => ?_
    simp +decide [has_or, has_and isFlag_cow] at hc
  | cowCopy a v f hf hp =>
    obtain ⟨hpr, _⟩ := isPrivate_iff.mp hp
    refine h.setPte (Or.inl (h.live_of_present hpr)) fun _ hc => ?_
    have hphys : has (physOf f) pteCow = false := has_physOf_low f (by decide)
    simp +decide [has_or, has_and isFlag_cow, hphys] at hc
  | setAreas a count areas hfrom =>
    have ha := h.space a
    refine h.setSpace
      ⟨ha.cowPrivate, ?_, ha.deadEntries, ha.deadTables, ha.deadRoot, ha.deadVmas, ha.root⟩
    intro x hx hlen
    rcases hfrom x hx hlen with hg | ⟨y, hy, hylen, heq⟩
    · exact hg
    · rw [← heq]
      exact ha.areas y hy hylen
  | copyAreas d a count =>
    have hd := h.space d
    exact h.setSpace
      ⟨hd.cowPrivate, h.areas a, hd.deadEntries, hd.deadTables, hd.deadRoot, hd.deadVmas, hd.root⟩
  | linkTable a key f hf h0 hl =>
    have ha := h.space a
    refine h.setSpace
      ⟨ha.cowPrivate, ha.areas, ha.deadEntries, ?_, ha.deadRoot, ha.deadVmas, ha.root⟩
    intro hd
    exact absurd hd (by simp [hl])
  | linkVmas a f hf h0 hl =>
    have ha := h.space a
    refine h.setSpace ⟨ha.cowPrivate, ?_, ha.deadEntries, ha.deadTables, ha.deadRoot, ?_, ha.root⟩
    · intro x hx hlen
      rw [List.eq_of_mem_replicate hx] at hlen
      exact absurd rfl hlen
    · intro hd
      exact absurd hd (by simp [hl])
  | create a f hf h0 hl =>
    refine h.setSpace ⟨fun v hp => ?_, by simp, by simp, by simp, by simp, by simp, by simp [h0]⟩
    rw [FinMap.get_empty, default_pte] at hp
    contradiction
  | unlinkTable a key =>
    have ha := h.space a
    refine h.setSpace
      ⟨ha.cowPrivate, ha.areas, ha.deadEntries, ?_, ha.deadRoot, ha.deadVmas, ha.root⟩
    intro hd k
    simp only [FinMap.get_set]
    split
    · rfl
    · exact ha.deadTables hd k
  | unlinkVmas a =>
    have ha := h.space a
    exact h.setSpace
      ⟨ha.cowPrivate, by simp, ha.deadEntries, ha.deadTables, ha.deadRoot, fun _ => rfl, ha.root⟩
  | bury a hl hp ht hv =>
    have ha := h.space a
    refine h.setSpace
      ⟨ha.cowPrivate, ha.areas, fun _ => hp, fun _ => ht, fun _ => rfl, fun _ => hv, ?_⟩
    intro hlive
    contradiction

/-- Run lemma for `act_sane`. -/
theorem runs_sane {g g' : Held} {es : List Event} (h : Sane m) (hruns : Runs g m es g' m') :
    Sane m' := by
  induction hruns with
  | nil => exact h
  | cons first _ ih => exact ih (act_sane h first)

/-! ## What allocating a frame leaves alone -/

variable {g g' : Held} {e : Event}

/-- The entries the clock may change. -/
def IsCandidate (e : Pte) : Prop :=
  has e ptePresent = true ∧ has e pteUser = true ∧ has e pteShared = false ∧
    has e pteCow = false

theorem Evictable.candidate (h : Evictable m a v) : IsCandidate (m.pte a v) :=
  ⟨h.present, h.user, h.notShared, h.notCow⟩

/-- Allocation, with whatever it evicts and whatever tables it adds, keeps the rest of
every space and every entry that is no candidate. -/
structure Steady (m m' : Machine) : Prop where
  live : ∀ a, (m'.space a).live = (m.space a).live
  areas : ∀ a, (m'.space a).areas = (m.space a).areas
  vmas : ∀ a, (m'.space a).vmas = (m.space a).vmas
  keeps : ∀ a v, ¬ IsCandidate (m.pte a v) → m'.pte a v = m.pte a v
  highest : m'.highest = m.highest
  ready : m'.swapReady = m.swapReady
  slotCount : m'.slotCount = m.slotCount

theorem Steady.refl (m : Machine) : Steady m m :=
  ⟨fun _ => rfl, fun _ => rfl, fun _ => rfl, fun _ _ _ => rfl, rfl, rfl, rfl⟩

theorem Steady.trans {m'' : Machine} (h : Steady m m') (h' : Steady m' m'') : Steady m m'' where
  live a := (h'.live a).trans (h.live a)
  areas a := (h'.areas a).trans (h.areas a)
  vmas a := (h'.vmas a).trans (h.vmas a)
  keeps a v hc := by
    have hkeep := h.keeps a v hc
    rw [h'.keeps a v (by rw [hkeep]; exact hc), hkeep]
  highest := h'.highest.trans h.highest
  ready := h'.ready.trans h.ready
  slotCount := h'.slotCount.trans h.slotCount

theorem SameContents.steady (h : SameContents m m') : Steady m m' where
  live a := by rw [h.space]
  areas a := by rw [h.space]
  vmas a := by rw [h.space]
  keeps a v _ := h.pte a v
  highest := h.highest
  ready := h.ready
  slotCount := h.slotCount

theorem vmas_setPte (m : Machine) (a b v : ℕ) (e : Pte) :
    ((m.setPte a v e).space b).vmas = (m.space b).vmas := by
  unfold Machine.setPte
  rw [space_setSpace]
  split
  · next h => subst h; rfl
  · rfl

theorem steady_setPte (h : Evictable m a v) (e : Pte) : Steady m (m.setPte a v e) where
  live b := live_setPte m a b v e
  areas b := areas_setPte m a b v e
  vmas b := vmas_setPte m a b v e
  keeps b w hc := by
    rw [pte_setPte, if_neg]
    rintro ⟨rfl, rfl⟩
    exact hc h.candidate
  highest := rfl
  ready := rfl
  slotCount := rfl

theorem steady_fillSlot (h : Evictable m a v) (slot : ℕ) (page : Page) (e : Pte) :
    Steady m ((fillSlot m slot page).setPte a v e) := by
  have hfill : Steady m (fillSlot m slot page) :=
    ⟨fun _ => rfl, fun _ => rfl, fun _ => rfl, fun _ _ _ => rfl, rfl, rfl, rfl⟩
  have hev : Evictable (fillSlot m slot page) a v :=
    ⟨h.live, h.present, h.user, h.notShared, h.notCow, h.sole⟩
  exact hfill.trans (steady_setPte hev e)

theorem steady_tables (m : Machine) (a : ℕ) (tables : FinMap ℕ) :
    Steady m (m.setSpace a { m.space a with tables := tables }) := by
  refine ⟨fun b => ?_, fun b => ?_, fun b => ?_, fun b w _ => pte_setSpace (by rfl) b w,
    rfl, rfl, rfl⟩ <;>
  · rw [space_setSpace]
    split
    · next h => subst h; rfl
    · rfl

/-- Of the entries, a walk only touches eviction candidates. -/
theorem act_steady (hact : Act g m e g' m') (he : e.isWalk) : Steady m m' := by
  cases hact with
  | quiet | take | fill =>
    exact ⟨fun _ => rfl, fun _ => rfl, fun _ => rfl, fun _ _ _ => rfl, rfl, rfl, rfl⟩
  | giveFresh f | giveLoose f => exact (pmmFree_same m f).steady
  | age a v hv => exact steady_setPte hv _
  | evict a v slot hv => exact steady_fillSlot hv slot _ _
  | linkTable a key f => exact steady_tables m a _
  | _ => exact absurd he (by simp [Event.isWalk, Event.isReclaim])

theorem Does.steady (h : Does Event.isWalk g m g' m') : Steady m m' :=
  h.induct (I := fun _ n => Steady m n) (fun hI hact he => hI.trans (act_steady hact he))
    (Steady.refl m)

theorem Event.isWalk_of_isReclaim (h : e.isReclaim) : e.isWalk := by
  cases e <;> simp_all [Event.isWalk]

/-- Reclaim by itself adds no tables. -/
theorem act_tables (hact : Act g m e g' m') (he : e.isReclaim) (a : ℕ) :
    (m'.space a).tables = (m.space a).tables := by
  cases hact with
  | quiet | take | fill => rfl
  | giveFresh f | giveLoose f => rw [(pmmFree_same m f).space]
  | age b v hv | evict b v slot hv =>
    unfold Machine.setPte
    rw [space_setSpace]
    split
    · next h => subst h; rfl
    · rfl
  | _ => exact absurd he (by simp [Event.isReclaim])

theorem Does.tables (h : Does Event.isReclaim g m g' m') (a : ℕ) :
    (m'.space a).tables = (m.space a).tables :=
  h.induct (I := fun _ n => (n.space a).tables = (m.space a).tables)
    (fun hI hact he => (act_tables hact he a).trans hI) rfl

theorem Does.sane {P : Event → Prop} (h : Does P g m g' m') (hm : Sane m) : Sane m' := by
  obtain ⟨es, hr, _⟩ := h
  exact runs_sane hm hr

end Vextro.Paging
