import Vextro.Verification.Paging.References

/-! Reference counts over every action and every run, and entries that are the only reference to
their frame. -/

namespace Vextro.Paging

open Function

variable {kern : ℕ → Bool} {leak : ℕ → ℕ} {g : Held} {m : Machine} {f : ℕ}

/-! ## Frames of the entries that are written -/

theorem pteFrame_pteMake_fresh (hm : Sane m) (h : Owned kern leak g m) (hf : 0 < g.fresh f)
    {flags : Pte} (hflags : flags &&& pteAddrMask = 0) : pteFrame (pteMake f flags) = f :=
  pteFrame_pteMake (lt_of_lt_of_le (h.fresh_lt hf) hm.highest) hflags

theorem pteFrame_protect (e flags : Pte) (hf : PlainFlags flags) :
    pteFrame ((e &&& (pteAddrMask ||| pteShared ||| pteCow)) ||| flags ||| ptePresent) =
      pteFrame e := by
  rw [pteFrame_or (by decide), pteFrame_or hf.addr, pteFrame_and (by decide)]

theorem isPrivate_protect {e flags : Pte} (hf : PlainFlags flags) (hp : has e ptePresent) :
    isPrivate ((e &&& (pteAddrMask ||| pteShared ||| pteCow)) ||| flags ||| ptePresent) =
      isPrivate e := by
  have hmask : has (pteAddrMask ||| pteShared ||| pteCow) pteShared := by decide
  have hpres : has ptePresent ptePresent := by decide
  have hshared : has ptePresent pteShared = false := by decide
  simp only [isPrivate, has_or _ ptePresent, has_or _ flags, has_and isFlag_shared, hmask,
    hf.notShared, hp, hpres, hshared, Bool.and_true, Bool.or_true, Bool.or_false]

theorem pteFrame_copy (hf : f < 2 ^ 40) (e : Pte) :
    pteFrame (physOf f ||| (e &&& ~~~(pteAddrMask ||| pteCow)) ||| pteWrite) = f := by
  have hclear : (e &&& ~~~(pteAddrMask ||| pteCow)) &&& pteAddrMask = 0 := by
    rw [BitVec.and_assoc, show ~~~(pteAddrMask ||| pteCow) &&& pteAddrMask = 0#64 by decide]
    simp
  rw [pteFrame_or (by decide), pteFrame_or hclear, pteFrame_physOf hf]

theorem isPrivate_copy {e : Pte} (he : isPrivate e) :
    isPrivate (physOf f ||| (e &&& ~~~(pteAddrMask ||| pteCow)) ||| pteWrite) := by
  obtain ⟨hp, hs⟩ := isPrivate_iff.mp he
  have hphys : has (physOf f) pteShared = false := has_physOf_low f (by decide)
  rw [isPrivate_iff]
  constructor
  · simp +decide [has_or, has_and isFlag_present, hp]
  · simp +decide [has_or, has_and isFlag_shared, hs, hphys]

/-! ## One action -/

theorem Owned.take (h : Owned kern leak g m) {hint n : ℕ} (h0 : f ≠ 0) (hlt : f < m.highest)
    (hfree : m.used f = false) : Owned kern leak { g with fresh := raise g.fresh f }
      { m with used := update m.used f true, hint := hint, freeFrames := n,
               mem := update m.mem f zeroPage } := by
  have hnone : liveRefs g m f + leak f = 0 := by
    by_contra hpos
    have := (h.held f h0 (by omega)).2.1
    rw [hfree] at this
    contradiction
  obtain ⟨href, hkern⟩ := h.free f h0 hnone
  have hlive : ∀ x, liveRefs { g with fresh := raise g.fresh f } m x =
      liveRefs g m x + if x = f then 1 else 0 := by
    intro x
    unfold liveRefs
    simp only [raise_apply]
    omega
  have hself := hlive f
  rw [if_pos rfl] at hself
  refine h.of_refs_but
    (fun _ => ⟨fun _ => ⟨hlt, update_self f true m.used, hkern ▸ hfree, ?_⟩, fun hzero => ?_,
      fun _ => ?_⟩) h.counted rfl (fun x hx hxf => ⟨rfl, update_of_ne hxf _ _, ?_, ?_⟩) h.nonzero
    (raise_zero h0 h.freshZero) h.looseZero
  · change refAt m f + 1 = liveRefs { g with fresh := raise g.fresh f } m f + leak f
    omega
  · change liveRefs { g with fresh := raise g.fresh f } m f + leak f = 0 at hzero
    omega
  · change liveRefs { g with fresh := raise g.fresh f } m f + leak f = 1
    omega
  · exact (hlive x).trans (by rw [if_neg hxf, Nat.add_zero])
  · simp only [raise_apply, if_neg hxf]
    exact le_rfl

theorem Owned.create (hm : Sane m) (h : Owned kern leak g m) {a : ℕ}
    {s : AddrSpace} (hf : 0 < g.fresh f) (hl : (m.space a).live = false) (hpt : s.pt = .empty)
    (hw : ∀ x, x ≠ 0 → tableWeight x s = if f = x then 1 else 0) :
    Owned kern leak { g with fresh := lower g.fresh f } (m.setSpace a s) := by
  have hdead : ∀ x, x ≠ 0 → tableWeight x (m.space a) = 0 := by
    intro x hx
    unfold tableWeight
    rw [hm.deadRoot a hl, hm.deadVmas a hl, if_neg (Ne.symm hx),
      FinMap.total_eq_zero fun k => by rw [hm.deadTables a hl, if_neg (Ne.symm hx)]]
  have hentries : ∀ x, mappings (m.setSpace a s) x = mappings m x := by
    intro x
    have ht := entryTotal_setSpace (mapsFrame x) m a s
    rw [hpt, FinMap.total_eq_zero fun v => by
      rw [show (m.space a).pt.get v = 0 from hm.deadEntries a hl v, mapsFrame_zero]] at ht
    exact ht
  have htables : ∀ x, x ≠ 0 →
      tableRefs (m.setSpace a s) x + lower g.fresh f x = tableRefs m x + g.fresh x := by
    intro x hx
    have ht := tableRefs_setSpace hx m a s
    rw [hdead x hx, hw x hx] at ht
    have hlow := lower_apply hf x
    simp only [eq_comm] at hlow
    omega
  refine h.of_refs rfl rfl rfl (fun x hx => ?_) (fun x hx => (htables x hx).le) (fun b v => ?_)
    (lower_zero hf h.freshZero) h.looseZero
  · have := htables x hx
    unfold liveRefs
    rw [hentries]
    simp only
    omega
  · unfold Machine.pte
    rw [space_setSpace]
    split
    · rw [hpt, FinMap.get_empty, default_pte]
      exact fun hc => absurd hc (by decide)
    · exact h.nonzero b v

theorem swapPteMake_private (slot : ℕ) (e : Pte) : isPrivate (swapPteMake slot e) = false := by
  unfold isPrivate
  rw [swapPteMake_present]
  rfl

/-- The references lost for good once the event has happened. -/
def Event.leaked (leak : ℕ → ℕ) : Event → ℕ → ℕ
  | .leak f => raise leak f
  | _ => leak

/-- Every action keeps counts and references in step, as long as no count is at its ceiling
when it is raised. -/
theorem act_owned {g' : Held} {m' : Machine} {ev : Event} (hm : Sane m) (h : Owned kern leak g m)
    (hact : Act g m ev g' m') (hroom : ∀ f, ev = .share f → refAt m f < 65535) :
    Owned kern (ev.leaked leak) g' m' := by
  cases hact with
  | quiet | fill => exact h.congr rfl ⟨rfl, rfl, rfl⟩
  | tune a s hs =>
    exact h.setSpace_same hs.pt fun f => by
      unfold tableWeight
      rw [hs.pml4, hs.vmas, hs.tables]
  | take f hint n h0 hlt hfree => exact h.take h0 hlt hfree
  | giveFresh f hf =>
    have h0 := h.fresh_ne hf
    refine h.give h0 (fun x _ => ?_)
      (fun x => Nat.le.intro (lower_apply hf x)) (lower_zero hf h.freshZero) h.looseZero
    have := lower_apply hf x
    unfold liveRefs
    simp only
    omega
  | giveLoose f hf =>
    have h0 := h.loose_ne hf
    refine h.give h0 (fun x _ => ?_) (fun x => le_refl _) h.freshZero (lower_zero hf h.looseZero)
    have := lower_apply hf x
    unfold liveRefs
    simp only
    omega
  | leak f hf =>
    have htotal : ∀ x, liveRefs { g with loose := lower g.loose f } m x + raise leak f x =
        liveRefs g m x + leak x := by
      intro x
      have := lower_apply hf x
      unfold liveRefs
      simp only [raise_apply]
      omega
    refine ⟨h.counted, fun x hx hpos => ?_, fun x hx hzero => ?_, fun x hx hpos => ?_, h.nonzero,
      h.freshZero, lower_zero hf h.looseZero⟩
    · rw [Event.leaked, htotal] at hpos ⊢
      exact h.held x hx hpos
    · rw [Event.leaked, htotal] at hzero
      exact h.free x hx hzero
    · rw [Event.leaked, htotal]
      exact h.excl x hx hpos
  | age a v hv =>
    exact h.setPte_same (isPrivate_clear (by decide))
      (pteFrame_and (by decide))
  | evict a v slot hv =>
    have hpriv : isPrivate (m.pte a v) := isPrivate_iff.mpr ⟨hv.present, hv.notShared⟩
    have hslot : Owned kern leak g (fillSlot m slot (m.mem (pteFrame (m.pte a v)))) :=
      h.congr rfl ⟨rfl, rfl, rfl⟩
    exact hslot.setPte_drop hpriv (swapPteMake_private slot _)
  | pageIn a v f hf hl hs =>
    have hsame := swapSlotFree_same m (swapPteSlot (m.pte a v))
    have hfree := h.congr hsame.spaces (swapSlotFree_frames m (swapPteSlot (m.pte a v)))
    refine hfree.setPte_fresh hf ?_ ?_ (pteFrame_pteMake_fresh hm h hf ?_)
    · rw [hsame.pte]
      exact isPrivate_of_isSwapped hs
    · exact isPrivate_pteMake (by simp +decide [has_and isFlag_shared])
    · exact perms_addr _
  | map a v f x hf hl hx hlen hp =>
    have hflags := (hm.areas a x hx hlen).plain
    refine h.setPte_fresh hf ?_ ?_ (pteFrame_pteMake_fresh hm h hf hflags.addr)
    · simp [isPrivate, hp]
    · exact isPrivate_pteMake hflags.notShared
  | unmapPrivate a v hp => exact h.setPte_drop hp isPrivate_zero
  | unmapOther a v hp =>
    have hsame := swapDiscardPte_same m (m.pte a v)
    have hfree := h.congr hsame.spaces (swapDiscardPte_frames m (m.pte a v))
    exact hfree.setPte_none (by rw [hsame.pte]; exact hp) isPrivate_zero
  | protect a v flags hf hp =>
    exact h.setPte_same (isPrivate_protect hf.plain hp) (pteFrame_protect _ _ hf.plain)
  | touch a v hp =>
    exact h.setPte_same (isPrivate_or (by decide))
      (pteFrame_or (by decide))
  | store a v offset byte hp =>
    have hset : Owned kern leak g (m.setPte a v (m.pte a v ||| pteAccessed ||| pteDirty)) :=
      h.setPte_same (isPrivate_stored _) (pteFrame_stored _)
    exact hset.congr rfl ⟨rfl, rfl, rfl⟩
  | cowMark a v hp | cowKeep a v hp =>
    refine h.setPte_same ?_ ?_
    · rw [isPrivate_or (by decide), isPrivate_clear (by decide)]
    · rw [pteFrame_or (by decide), pteFrame_and (by decide)]
  | share a v hp => exact h.share hp (hroom _ rfl)
  | copy d v e hl hz hp hw hg =>
    exact h.setPte_copy hg (by rw [hz]; exact isPrivate_zero) hp
  | copyShared d a v hl hz hp hs =>
    exact h.setPte_none (by rw [hz]; exact isPrivate_zero) (by simp [isPrivate, hs])
  | cowCopy a v f hf hp =>
    exact h.setPte_replace hf hp (isPrivate_copy hp)
      (pteFrame_copy (lt_of_lt_of_le (h.fresh_lt hf) hm.highest) _)
  | setAreas | copyAreas => exact h.setSpace_same rfl fun _ => rfl
  | linkTable a key f hf h0 hl hz =>
    refine h.setTables rfl (fun x hx => ?_) (lower_zero hf h.freshZero)
    have hw := tableWeight_setTable hx (m.space a) key f
    have hlow := lower_apply hf x
    rw [hz, if_neg (Ne.symm hx)] at hw
    simp only [eq_comm] at hlow
    dsimp only
    omega
  | linkVmas a f hf h0 hl hz =>
    refine h.setTables rfl (fun x hx => ?_) (lower_zero hf h.freshZero)
    have hlow := lower_apply hf x
    simp only [eq_comm] at hlow
    unfold tableWeight
    dsimp only
    rw [hz, if_neg (Ne.symm hx)]
    omega
  | create a f hf h0 hl =>
    refine h.create hm hf hl rfl fun x hx => ?_
    simp [tableWeight, Ne.symm hx]
  | unlinkTable a key hz =>
    refine h.setTables rfl (fun x hx => ?_) (raise_zero hz h.freshZero)
    have hw := tableWeight_setTable hx (m.space a) key 0
    rw [if_neg (Ne.symm hx)] at hw
    simp only [raise_apply, eq_comm (a := x)]
    omega
  | unlinkVmas a hz =>
    refine h.setTables rfl (fun x hx => ?_) (raise_zero hz h.freshZero)
    unfold tableWeight
    simp only [raise_apply, eq_comm (a := x)]
    rw [if_neg (Ne.symm hx)]
    omega
  | bury a hl =>
    have hz := hm.root a hl
    refine h.setTables rfl (fun x hx => ?_) (raise_zero hz h.freshZero)
    unfold tableWeight
    simp only [raise_apply, eq_comm (a := x)]
    rw [if_neg (Ne.symm hx)]
    omega

/-! ## Exclusive entries -/

variable {a v : ℕ} {e : Pte}

/-- Whoever may write to a private page owns its frame alone. -/
def Exclusive (g : Held) (m : Machine) : Prop :=
  ∀ a v, isPrivate (m.pte a v) = true → has (m.pte a v) pteWrite = true →
  liveRefs g m (pteFrame (m.pte a v)) = 1

/-- Under the counting invariant, references are what the bitmap and the counts say. -/
theorem Owned.live_eq {kern : ℕ → Bool} {leak : ℕ → ℕ} {g g' : Held}
    {m' : Machine} (h : Owned kern leak g m) (h' : Owned kern leak g' m') {f : ℕ} (hf : f ≠ 0)
    (href : refAt m' f = refAt m f) (hused : m'.used f = m.used f) :
    liveRefs g' m' f = liveRefs g m f := by
  rcases Nat.eq_zero_or_pos (liveRefs g m f + leak f) with hz | hpos
  · rcases Nat.eq_zero_or_pos (liveRefs g' m' f + leak f) with hz' | hpos'
    · omega
    obtain ⟨-, hu, hk, -⟩ := h'.held f hf hpos'
    have := (h.free f hf hz).2
    rw [← hused, hu, hk] at this
    contradiction
  obtain ⟨-, hu, hk, hcount⟩ := h.held f hf hpos
  rcases Nat.eq_zero_or_pos (liveRefs g' m' f + leak f) with hz' | hpos'
  · have := (h'.free f hf hz').2
    rw [hused, hu, hk] at this
    contradiction
  · have := (h'.held f hf hpos').2.2.2
    omega

theorem two_le_mappings {b w : ℕ} (hp : isPrivate (m.pte a v)) (hq : isPrivate (m.pte b w))
    (hf : pteFrame (m.pte b w) = pteFrame (m.pte a v)) (hne : ¬ (b = a ∧ w = v)) :
    2 ≤ mappings m (pteFrame (m.pte a v)) := by
  have hle := add_le_entryTotal (mapsFrame (pteFrame (m.pte a v))) (mapsFrame_zero _) m hne
  rwa [mapsFrame_of_private hp, mapsFrame_of_private hq, hf, if_pos rfl] at hle

namespace Exclusive

variable {kern : ℕ → Bool} {leak : ℕ → ℕ} {g g' : Held} {m' : Machine}

variable (h : Exclusive g m)
include h

/-- A frame with a writable private entry is in nobody's hands. -/
theorem not_held (hp : isPrivate (m.pte a v)) (hw : has (m.pte a v) pteWrite) :
    g.fresh (pteFrame (m.pte a v)) = 0 ∧ g.loose (pteFrame (m.pte a v)) = 0 := by
  have hone := h a v hp hw
  have hmapped := one_le_mappings hp
  unfold liveRefs at hone
  omega

/-- Entries and references stay; the rest of the machine may change. -/
theorem congr (hpte : ∀ a v, m'.pte a v = m.pte a v)
    (hlive : ∀ a v, isPrivate (m.pte a v) → has (m.pte a v) pteWrite →
      liveRefs g' m' (pteFrame (m.pte a v)) = liveRefs g m (pteFrame (m.pte a v))) :
    Exclusive g' m' := by
  intro a v hp hw
  rw [hpte] at hp hw ⊢
  rw [hlive a v hp hw]
  exact h a v hp hw

/-- References to one frame change, but no writable entry maps it. -/
theorem of_frame (f : ℕ)
    (hne : ∀ a v, isPrivate (m.pte a v) → has (m.pte a v) pteWrite → pteFrame (m.pte a v) ≠ f)
    (hspaces : m'.spaces = m.spaces)
    (hheld : ∀ x, x ≠ f → g'.fresh x = g.fresh x ∧ g'.loose x = g.loose x) :
    Exclusive g' m' := by
  refine h.congr (fun a v => ?_) fun a v hp hw => ?_
  · rw [pte_congr hspaces]
  obtain ⟨hfresh, hloose⟩ := hheld _ (hne a v hp hw)
  unfold liveRefs
  rw [mappings_congr hspaces, tableRefs_congr hspaces, hfresh, hloose]

section

variable (hown : Owned kern leak g m)
include hown

theorem setPte (hown' : Owned kern leak g' (m.setPte a v e))
    (hnew : isPrivate e → has e pteWrite → liveRefs g m (pteFrame e) = 1) :
    Exclusive g' (m.setPte a v e) := by
  intro b w hp hw
  have hne := hown'.nonzero b w hp
  rw [hown.live_eq hown' hne rfl rfl]
  rw [pte_setPte] at hp hw ⊢
  split at hp
  · next hc =>
    rw [if_pos hc] at hw ⊢
    exact hnew hp hw
  next hc =>
  rw [if_neg hc] at hw ⊢
  exact h b w hp hw

theorem setPte_same (hown' : Owned kern leak g' (m.setPte a v e))
    (hp : isPrivate e = isPrivate (m.pte a v)) (hf : pteFrame e = pteFrame (m.pte a v))
    (hw : has e pteWrite → has (m.pte a v) pteWrite) : Exclusive g' (m.setPte a v e) := by
  refine h.setPte hown hown' fun hp' hw' => ?_
  rw [hf]
  exact h a v (hp ▸ hp') (hw hw')

theorem setPte_none (hown' : Owned kern leak g' (m.setPte a v e))
    (hnew : isPrivate e = false) : Exclusive g' (m.setPte a v e) :=
  h.setPte hown hown' fun hp => absurd (hnew.symm.trans hp) (by decide)

theorem setPte_fresh {f : ℕ}
    (hown' : Owned kern leak g' (m.setPte a v e)) (hf : 0 < g.fresh f) (hfe : pteFrame e = f) :
    Exclusive g' (m.setPte a v e) := by
  refine h.setPte hown hown' fun _ _ => ?_
  have hexcl := hown.excl f (hown.fresh_ne hf) (by omega)
  rw [hfe]
  unfold liveRefs at hexcl ⊢
  omega

theorem setSpace {s : AddrSpace} (hown' : Owned kern leak g' (m.setSpace a s))
    (hpt : s.pt = (m.space a).pt) : Exclusive g' (m.setSpace a s) :=
  h.congr (pte_setSpace hpt) fun b w hp _ => hown.live_eq hown' (hown.nonzero b w hp) rfl rfl

theorem create {s : AddrSpace} (hown' : Owned kern leak g' (m.setSpace a s)) (hpt : s.pt = .empty) :
    Exclusive g' (m.setSpace a s) := by
  intro b w hp hw
  have hne := hown'.nonzero b w hp
  have hold : (m.setSpace a s).pte b w = m.pte b w := by
    unfold Machine.pte at hp ⊢
    rw [space_setSpace] at hp ⊢
    split at hp
    · rw [hpt, FinMap.get_empty, default_pte] at hp
      contradiction
    · next hba => rw [if_neg hba]
  rw [hown.live_eq hown' hne rfl rfl]
  rw [hold] at hp hw ⊢
  exact h b w hp hw

end

end Exclusive

/-- Every action keeps writable frames exclusive, provided that write access is only granted
to pages whose frame has no other reference. -/
theorem act_exclusive {kern : ℕ → Bool} {leak : ℕ → ℕ}
    {g g' : Held} {m' : Machine} {ev : Event} (hm : Sane m) (hown : Owned kern leak g m)
    (h : Exclusive g m) (hact : Act g m ev g' m') (hroom : ∀ f, ev = .share f → refAt m f < 65535)
    (hgrant : ∀ a v flags, ev = .protect a v flags → isPrivate (m.pte a v) → has flags pteWrite →
      liveRefs g m (pteFrame (m.pte a v)) = 1) : Exclusive g' m' := by
  have hown' := act_owned hm hown hact hroom
  -- a frame given up or passed on was not behind a writable entry
  have hgive : ∀ f, (0 < g.fresh f ∨ 0 < g.loose f) → ∀ a v, isPrivate (m.pte a v) = true →
      has (m.pte a v) pteWrite = true → pteFrame (m.pte a v) ≠ f := by
    rintro f hheld a v hp hw rfl
    obtain ⟨hfresh, hloose⟩ := h.not_held hp hw
    omega
  cases hact with
  | quiet | fill => exact h.congr (fun _ _ => rfl) fun _ _ _ _ => rfl
  | tune a s hs => exact h.setSpace hown hown' hs.pt
  | take f hint n h0 hlt hfree =>
    refine h.of_frame f (fun a v hp _ => ?_) rfl fun x hx =>
      ⟨update_of_ne hx _ _, rfl⟩
    rintro rfl
    have hmapped := one_le_mappings hp
    have hheld := (hown.held _ h0 (by unfold liveRefs; omega)).2.1
    rw [hfree] at hheld
    contradiction
  | giveFresh f hf =>
    exact h.of_frame f (hgive f (Or.inl hf)) (pmmFree_same m f).spaces fun x hx =>
      ⟨update_of_ne hx _ _, rfl⟩
  | giveLoose f hf =>
    exact h.of_frame f (hgive f (Or.inr hf)) (pmmFree_same m f).spaces fun x hx =>
      ⟨rfl, update_of_ne hx _ _⟩
  | leak f hf =>
    exact h.of_frame f (hgive f (Or.inr hf)) rfl fun x hx =>
      ⟨rfl, update_of_ne hx _ _⟩
  | age a v hv =>
    refine h.setPte_same hown hown' (isPrivate_clear (by decide))
      (pteFrame_and (by decide)) fun hw => ?_
    simpa +decide [has_and isFlag_write] using hw
  | evict a v slot hv =>
    have hslot : Owned kern leak g (fillSlot m slot (m.mem (pteFrame (m.pte a v)))) :=
      hown.congr rfl ⟨rfl, rfl, rfl⟩
    have hex : Exclusive g (fillSlot m slot (m.mem (pteFrame (m.pte a v)))) :=
      h.congr (fun _ _ => rfl) fun _ _ _ _ => rfl
    exact hex.setPte_none hslot hown' (swapPteMake_private slot _)
  | pageIn a v f hf hl hs =>
    have hsame := swapSlotFree_same m (swapPteSlot (m.pte a v))
    have hslot := hown.congr hsame.spaces (swapSlotFree_frames m (swapPteSlot (m.pte a v)))
    have hex : Exclusive g (swapSlotFree m (swapPteSlot (m.pte a v))) :=
      h.congr hsame.pte fun _ _ _ _ => liveRefs_congr hsame.spaces g _
    exact hex.setPte_fresh hslot hown' hf (pteFrame_pteMake_fresh hm hown hf (perms_addr _))
  | map a v f x hf hl hx hlen =>
    exact h.setPte_fresh hown hown' hf
      (pteFrame_pteMake_fresh hm hown hf (hm.areas a x hx hlen).plain.addr)
  | unmapPrivate a v hp => exact h.setPte_none hown hown' isPrivate_zero
  | unmapOther a v hp =>
    have hsame := swapDiscardPte_same m (m.pte a v)
    have hslot := hown.congr hsame.spaces (swapDiscardPte_frames m (m.pte a v))
    have hex : Exclusive g (swapDiscardPte m (m.pte a v)) :=
      h.congr hsame.pte fun _ _ _ _ => liveRefs_congr hsame.spaces g _
    exact hex.setPte_none hslot hown' isPrivate_zero
  | protect a v flags hf hp =>
    refine h.setPte hown hown' fun hp' hw' => ?_
    rw [isPrivate_protect hf.plain hp] at hp'
    rw [pteFrame_protect _ _ hf.plain]
    refine hgrant a v flags rfl hp' ?_
    simpa +decide [has_or, has_and isFlag_write] using hw'
  | touch a v hp =>
    refine h.setPte_same hown hown' (isPrivate_or (by decide))
      (pteFrame_or (by decide)) fun hw => ?_
    simpa +decide [has_or] using hw
  | store a v offset byte hp hw =>
    have hpriv := isPrivate_stored (m.pte a v)
    have hframe := pteFrame_stored (m.pte a v)
    have hset := h.setPte_same hown (hown.setPte_same hpriv hframe) hpriv hframe fun _ => hw
    exact hset.congr (fun _ _ => rfl) fun _ _ _ _ => rfl
  | cowMark a v hp =>
    refine h.setPte hown hown' fun _ hw' => absurd hw' ?_
    simp +decide [has_or, has_and isFlag_write]
  | share a v hp hw =>
    refine h.of_frame (pteFrame (m.pte a v)) (fun b w hp' hw' heq => ?_)
      (pmmRefInc_same m _).spaces fun x hx => ⟨rfl, update_of_ne hx _ _⟩
    have hother : ¬ (a = b ∧ v = w) := by
      rintro ⟨rfl, rfl⟩
      rw [hw] at hw'
      contradiction
    have htwo := two_le_mappings hp' hp heq.symm hother
    have hone := h b w hp' hw'
    unfold liveRefs at hone
    omega
  | copy d v e hl hz hp hw =>
    exact h.setPte hown hown' fun _ hw' => absurd (hw.symm.trans hw') (by decide)
  | copyShared d a v hl hz hp hs => exact h.setPte_none hown hown' (by simp [isPrivate, hs])
  | cowKeep a v hp hc hs =>
    refine h.setPte hown hown' fun _ _ => ?_
    rw [pteFrame_or (by decide), pteFrame_and (by decide)]
    have hmapped := one_le_mappings hp
    have hne := hown.nonzero a v hp
    have hheld := hown.held _ hne (by unfold liveRefs; omega)
    rw [pmmRefCount_eq hown hne (by unfold liveRefs; omega)] at hs
    unfold liveRefs at hheld ⊢
    omega
  | cowCopy a v f hf hp =>
    exact h.setPte_fresh hown hown' hf
      (pteFrame_copy (lt_of_lt_of_le (hown.fresh_lt hf) hm.highest) _)
  | setAreas | copyAreas | linkTable | linkVmas | unlinkTable | unlinkVmas | bury =>
    exact h.setSpace hown hown' rfl
  | create a f hf h0 hl => exact h.create hown hown' rfl

end Vextro.Paging
