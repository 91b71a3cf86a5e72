import Vextro.Verification.Paging.Operations
import Vextro.Verification.Shared.Run

/-! The pagefile: slots and entries agree, and a page comes back as it left. -/

namespace Vextro.Paging

open Function

variable {e perms : Pte} {m m' : Machine} {a v : ℕ} {g g' : Held} {bytes : Page} {es : List Event}

/-! ## Slots -/

/-- Entries that hold a page in the pagefile. -/
def swappedWeight (e : Pte) : ℕ := if swapPteIsSwapped e then 1 else 0

/-- Entries that hold a page in the given slot. -/
def slotWeight (slot : ℕ) (e : Pte) : ℕ :=
  if swapPteIsSwapped e && swapPteSlot e = slot then 1 else 0

theorem swappedWeight_zero : swappedWeight 0 = 0 := by decide

theorem swappedWeight_of_not (h : swapPteIsSwapped e = false) : swappedWeight e = 0 := by
  simp [swappedWeight, h]

theorem slotWeight_of_not (h : swapPteIsSwapped e = false) (slot : ℕ) : slotWeight slot e = 0 := by
  simp [slotWeight, h]

theorem slotWeight_zero (slot : ℕ) : slotWeight slot 0 = 0 := slotWeight_of_not isSwapped_zero slot

/-- The number of pages in the pagefile. -/
def swappedPages (m : Machine) : ℕ := entryTotal swappedWeight m

/-- The number of entries that name a slot. -/
def slotRefs (m : Machine) (slot : ℕ) : ℕ := entryTotal (slotWeight slot) m

/-- A slot is taken exactly when one entry names it, and the count of taken slots is the
number of such entries. -/
structure SlotsOk (m : Machine) : Prop where
  ready : m.slotCount ≠ 0 → m.swapReady = true
  inRange : ∀ a v, swapPteIsSwapped (m.pte a v) = true → swapPteSlot (m.pte a v) < m.slotCount
  owner : ∀ slot, slotRefs m slot = if m.slotBm slot then 1 else 0
  used : m.slotsUsed = swappedPages m

namespace SlotsOk

variable (h : SlotsOk m)
include h

theorem taken (hs : swapPteIsSwapped (m.pte a v)) :
    m.slotBm (swapPteSlot (m.pte a v)) := by
  have hle := le_entryTotal (slotWeight (swapPteSlot (m.pte a v))) (slotWeight_zero _) m a v
  have hone : slotWeight (swapPteSlot (m.pte a v)) (m.pte a v) = 1 := by simp [slotWeight, hs]
  have howner := h.owner (swapPteSlot (m.pte a v))
  unfold slotRefs at howner
  by_contra hfree
  simp only [hfree] at howner
  simp at howner
  omega

theorem setPte (hold : swapPteIsSwapped (m.pte a v) = false)
    (hnew : swapPteIsSwapped e = false) : SlotsOk (m.setPte a v e) where
  ready := h.ready
  inRange b w := by
    rw [pte_setPte]
    split
    · intro hs
      rw [hnew] at hs
      contradiction
    · exact h.inRange b w
  owner slot := by
    have ht := entryTotal_setPte (slotWeight slot) (slotWeight_zero slot) m a v e
    rw [slotWeight_of_not hold, slotWeight_of_not hnew] at ht
    exact ht.trans (h.owner slot)
  used := by
    have ht := entryTotal_setPte swappedWeight swappedWeight_zero m a v e
    rw [swappedWeight_of_not hold, swappedWeight_of_not hnew] at ht
    exact h.used.trans ht.symm

theorem congr (hspaces : m'.spaces = m.spaces) (hready : m'.swapReady = m.swapReady)
    (hcount : m'.slotCount = m.slotCount) (hbm : m'.slotBm = m.slotBm)
    (hused : m'.slotsUsed = m.slotsUsed) :
    SlotsOk m' := by
  have htotal : ∀ w, entryTotal w m' = entryTotal w m := fun w => by
    unfold entryTotal
    rw [hspaces]
  constructor
  · rw [hready, hcount]
    exact h.ready
  · intro a v
    rw [pte_congr hspaces, hcount]
    exact h.inRange a v
  · intro slot
    unfold slotRefs
    rw [htotal, hbm]
    exact h.owner slot
  unfold swappedPages
  rw [htotal, hused]
  exact h.used

theorem setSpace {s : AddrSpace} (hpt : s.pt = (m.space a).pt) :
    SlotsOk (m.setSpace a s) where
  ready := h.ready
  inRange b w := by
    rw [pte_setSpace hpt]
    exact h.inRange b w
  owner slot := by
    unfold slotRefs
    rw [entryTotal_setSpace_same _ hpt]
    exact h.owner slot
  used := by
    unfold swappedPages
    rw [entryTotal_setSpace_same _ hpt]
    exact h.used

theorem release (hold : swapPteIsSwapped (m.pte a v)) (hnew : swapPteIsSwapped e = false) :
    SlotsOk ((swapSlotFree m (swapPteSlot (m.pte a v))).setPte a v e) := by
  have htaken := h.taken hold
  have hlt := h.inRange a v hold
  have hfree : swapSlotFree m (swapPteSlot (m.pte a v)) =
      { m with slotBm := update m.slotBm (swapPteSlot (m.pte a v)) false,
               slotsUsed := m.slotsUsed - 1 } := by
    unfold swapSlotFree
    rw [if_neg (by omega), if_pos htaken]
  rw [hfree]
  have hw : swappedWeight (m.pte a v) = 1 := by simp [swappedWeight, hold]
  refine ⟨h.ready, fun b w => ?_, fun slot => ?_, ?_⟩
  · change swapPteIsSwapped ((m.setPte a v e).pte b w) = true → _
    rw [pte_setPte]
    split
    · intro hs
      rw [hnew] at hs
      contradiction
    next hne =>
    rw [pte_setPte, if_neg hne]
    exact h.inRange b w
  · have ht : slotRefs (m.setPte a v e) slot + slotWeight slot (m.pte a v) = slotRefs m slot +
        slotWeight slot e := entryTotal_setPte (slotWeight slot) (slotWeight_zero slot) m a v e
    rw [slotWeight_of_not hnew, h.owner] at ht
    change slotRefs (m.setPte a v e) slot =
      if update m.slotBm (swapPteSlot (m.pte a v)) false slot = true then 1 else 0
    by_cases hslot : slot = swapPteSlot (m.pte a v)
    · subst hslot
      have hone : slotWeight (swapPteSlot (m.pte a v)) (m.pte a v) = 1 := by
        simp [slotWeight, hold]
      rw [hone, htaken] at ht
      simp at ht
      simp [ht]
    · have hnone : slotWeight slot (m.pte a v) = 0 := by
        simp [slotWeight, Ne.symm hslot]
      rw [update_of_ne hslot]
      omega
  · have ht : swappedPages (m.setPte a v e) + swappedWeight (m.pte a v) = swappedPages m +
        swappedWeight e := entryTotal_setPte swappedWeight swappedWeight_zero m a v e
    rw [swappedWeight_of_not hnew, ← h.used] at ht
    change m.slotsUsed - 1 = swappedPages (m.setPte a v e)
    omega

theorem fill {slot : ℕ} (page : Page) (hold : swapPteIsSwapped (m.pte a v) = false)
    (hfree : m.slotBm slot = false) (hlt : slot < m.slotCount) (hmax : slot < swapSlots) :
    SlotsOk ((fillSlot m slot page).setPte a v (swapPteMake slot (m.pte a v))) := by
  set e := swapPteMake slot (m.pte a v) with he
  have hslot : swapPteSlot e = slot := swapPteSlot_make hmax _
  have hswapped : swapPteIsSwapped e := swapPteMake_isSwapped slot _
  refine ⟨h.ready, fun b w => ?_, fun s => ?_, ?_⟩
  · rw [pte_setPte]
    split
    · rw [hslot]
      exact fun _ => hlt
    · exact h.inRange b w
  · have ht : slotRefs (m.setPte a v e) s + slotWeight s (m.pte a v) = slotRefs m s +
        slotWeight s e := entryTotal_setPte (slotWeight s) (slotWeight_zero s) m a v e
    rw [slotWeight_of_not hold, h.owner] at ht
    change slotRefs (m.setPte a v e) s =
      if update m.slotBm slot true s = true then 1 else 0
    by_cases hs : s = slot
    · subst hs
      have hone : slotWeight s e = 1 := by simp [slotWeight, hswapped, hslot]
      rw [hone, hfree] at ht
      simpa using ht
    have hnone : slotWeight s e = 0 := by simp [slotWeight, hslot, Ne.symm hs]
    rw [hnone] at ht
    rwa [update_of_ne hs]
  · have ht : swappedPages (m.setPte a v e) + swappedWeight (m.pte a v) = swappedPages m +
        swappedWeight e := entryTotal_setPte swappedWeight swappedWeight_zero m a v e
    have hone : swappedWeight e = 1 := by simp [swappedWeight, hswapped]
    rw [swappedWeight_of_not hold, hone, ← h.used] at ht
    exact ht.symm

end SlotsOk

theorem isSwapped_of_isPrivate (h : isPrivate e) : swapPteIsSwapped e = false :=
  isSwapped_of_present (isPrivate_iff.mp h).1

/-- A space that is not live holds no entries to lose. -/
theorem SlotsOk.create (h : SlotsOk m) (hm : Sane m) {s : AddrSpace} (hl : (m.space a).live = false)
    (hs : s.pt = .empty) : SlotsOk (m.setSpace a s) := by
  have hold : ∀ w : Pte → ℕ, w 0 = 0 → (m.space a).pt.total w = 0 := fun w hw =>
    FinMap.total_eq_zero fun v => by
      rw [show (m.space a).pt.get v = 0 from hm.deadEntries a hl v, hw]
  have htotal : ∀ w : Pte → ℕ, w 0 = 0 → entryTotal w (m.setSpace a s) = entryTotal w m := by
    intro w hw
    have ht := entryTotal_setSpace w m a s
    rwa [hold w hw, hs] at ht
  refine ⟨h.ready, fun b w => ?_, fun slot => ?_, ?_⟩
  · unfold Machine.pte
    rw [space_setSpace]
    split
    · rw [hs, FinMap.get_empty, default_pte]
      exact fun hsw => absurd hsw (by decide)
    · exact h.inRange b w
  · unfold slotRefs
    rw [htotal _ (slotWeight_zero slot)]
    exact h.owner slot
  · unfold swappedPages
    rw [htotal _ swappedWeight_zero]
    exact h.used

theorem pmmFree_slots (m : Machine) (f : ℕ) :
    (pmmFree m f).slotBm = m.slotBm ∧ (pmmFree m f).slotsUsed = m.slotsUsed := by
  rcases pmmFree_cases m f with h | ⟨-, h | ⟨r, -, -, -, h⟩⟩ <;> rw [h] <;> exact ⟨rfl, rfl⟩

theorem pmmRefInc_slots (m : Machine) (f : ℕ) :
    (pmmRefInc m f).slotBm = m.slotBm ∧ (pmmRefInc m f).slotsUsed = m.slotsUsed := by
  rw [pmmRefInc_eq]
  exact ⟨rfl, rfl⟩

theorem act_slots {ev : Event} (hm : Sane m) (h : SlotsOk m) (hact : Act g m ev g' m') :
    SlotsOk m' := by
  cases hact with
  | quiet | take | fill => exact h.congr rfl rfl rfl rfl rfl
  | leak => exact h
  | giveFresh f | giveLoose f =>
    have hsame := pmmFree_same m f
    exact h.congr hsame.spaces hsame.ready hsame.slotCount (pmmFree_slots m f).1
      (pmmFree_slots m f).2
  | tune a s hs => exact h.setSpace hs.pt
  | age a v hv =>
    exact h.setPte (isSwapped_of_present hv.present)
      (isSwapped_of_present (by simp +decide [has_and isFlag_present, hv.present]))
  | evict a v slot hv hs hlt hmax =>
    exact h.fill _ (isSwapped_of_present hv.present) hs hlt hmax
  | pageIn a v f hf hl hs =>
    exact h.release hs (isSwapped_of_present (pteMake_present f _))
  | map a v f x hf hl hx hlen hp hs =>
    exact h.setPte hs (isSwapped_of_present (pteMake_present f _))
  | unmapPrivate a v hp => exact h.setPte (isSwapped_of_isPrivate hp) isSwapped_zero
  | unmapOther a v hp =>
    cases hs : swapPteIsSwapped (m.pte a v) with
    | false =>
      have hkeep : swapDiscardPte m (m.pte a v) = m := by simp [swapDiscardPte, hs]
      rw [hkeep]
      exact h.setPte hs isSwapped_zero
    | true =>
      have hlt := h.inRange a v hs
      have hdiscard : swapDiscardPte m (m.pte a v) = swapSlotFree m (swapPteSlot (m.pte a v)) := by
        simp [swapDiscardPte, hs, h.ready (by omega), hlt]
      rw [hdiscard]
      exact h.release hs isSwapped_zero
  | protect a v flags hf hp =>
    exact h.setPte (isSwapped_of_present hp)
      (isSwapped_of_present (by simp +decide [has_or]))
  | touch a v hp =>
    exact h.setPte (isSwapped_of_present hp) (isSwapped_of_present (by simp [has_or, hp]))
  | store a v offset byte hp =>
    have hset : SlotsOk (m.setPte a v (m.pte a v ||| pteAccessed ||| pteDirty)) :=
      h.setPte (isSwapped_of_present hp) (isSwapped_of_present (by simp [has_or, hp]))
    exact hset.congr rfl rfl rfl rfl rfl
  | cowMark a v hp | cowKeep a v hp =>
    have hpr := (isPrivate_iff.mp hp).1
    exact h.setPte (isSwapped_of_present hpr)
      (isSwapped_of_present (by simp +decide [has_or, has_and isFlag_present, hpr]))
  | share a v =>
    have hsame := pmmRefInc_same m (pteFrame (m.pte a v))
    exact h.congr hsame.spaces hsame.ready hsame.slotCount (pmmRefInc_slots m _).1
      (pmmRefInc_slots m _).2
  | copy d v e hl hz hp =>
    exact h.setPte (by rw [hz]; exact isSwapped_zero) (isSwapped_of_isPrivate hp)
  | copyShared d a v hl hz hp =>
    exact h.setPte (by rw [hz]; exact isSwapped_zero) (isSwapped_of_present hp)
  | cowCopy a v f hf hp =>
    have hpr := (isPrivate_iff.mp hp).1
    exact h.setPte (isSwapped_of_present hpr)
      (isSwapped_of_present (by simp +decide [has_or, has_and isFlag_present, hpr]))
  | setAreas | copyAreas | linkTable | linkVmas | unlinkTable | unlinkVmas | bury =>
    exact h.setSpace rfl
  | create a f hf h0 hl => exact h.create hm hl rfl

/-! ## Fidelity -/

/-- Whether an event is about the pagefile copy of page `v` of `a`. -/
def Event.touches (a v : ℕ) : Event → Prop
  | .evict b w _ _ | .pageIn b w _ _ | .drop b w => b = a ∧ w = v
  | _ => False

/-- The page is in the pagefile with these bytes and permission bits. -/
structure Stored (a v : ℕ) (bytes : Page) (perms : Pte) (m : Machine) : Prop where
  swapped : swapPteIsSwapped (m.pte a v) = true
  bytes : m.pagefile (swapPteSlot (m.pte a v)) = bytes
  perms : m.pte a v &&& swapPermMask = perms

theorem Stored.congr (h : Stored a v bytes perms m) (hpte : m'.pte a v = m.pte a v)
    (hfile : m'.pagefile = m.pagefile) :
    Stored a v bytes perms m' :=
  ⟨by rw [hpte]; exact h.swapped, by rw [hpte, hfile]; exact h.bytes,
    by rw [hpte]; exact h.perms⟩

theorem Stored.setPte {b w : ℕ} (h : Stored a v bytes perms m)
    (hne : swapPteIsSwapped (m.pte b w) = false) :
    Stored a v bytes perms (m.setPte b w e) := by
  refine h.congr ?_ rfl
  rw [pte_setPte, if_neg]
  rintro ⟨rfl, rfl⟩
  rw [h.swapped] at hne
  contradiction

theorem act_stored {ev : Event} (hm : Sane m) (hs : SlotsOk m) (h : Stored a v bytes perms m)
    (hact : Act g m ev g' m') (hev : ¬ ev.touches a v) : Stored a v bytes perms m' := by
  have hother : ∀ {b w : ℕ} {e : Pte}, ¬ (b = a ∧ w = v) →
      (m.setPte b w e).pte a v = m.pte a v := by
    intro b w e hne
    rw [pte_setPte, if_neg fun hc => hne ⟨hc.1.symm, hc.2.symm⟩]
  cases hact with
  | quiet | take | fill => exact h.congr rfl rfl
  | leak => exact h
  | giveFresh f | giveLoose f =>
    exact h.congr ((pmmFree_same m f).pte a v) (pmmFree_same m f).pagefile
  | tune b s hb => exact h.congr (pte_setSpace hb.pt a v) rfl
  | age b w hv => exact h.setPte (isSwapped_of_present hv.present)
  | evict b w slot hv hfree =>
    have hkeep := hother (e := swapPteMake slot (m.pte b w)) hev
    have hne : swapPteSlot (m.pte a v) ≠ slot := by
      intro heq
      have := hs.taken h.swapped
      rw [heq, hfree] at this
      contradiction
    refine ⟨?_, ?_, ?_⟩
    · change swapPteIsSwapped ((m.setPte b w _).pte a v) = true
      rw [hkeep]
      exact h.swapped
    · change update m.pagefile slot _ (swapPteSlot ((m.setPte b w _).pte a v)) = bytes
      rw [hkeep, update_of_ne hne]
      exact h.bytes
    change (m.setPte b w _).pte a v &&& swapPermMask = perms
    rw [hkeep]
    exact h.perms
  | pageIn b w f hf hl hsw =>
    have hsame := swapSlotFree_same m (swapPteSlot (m.pte b w))
    refine h.congr ?_ hsame.pagefile
    rw [pte_setPte, if_neg fun hc => hev ⟨hc.1.symm, hc.2.symm⟩, hsame.pte]
  | map b w f x hf hl hx hlen hp hsw => exact h.setPte hsw
  | unmapPrivate b w hp => exact h.setPte (isSwapped_of_isPrivate hp)
  | unmapOther b w =>
    have hsame := swapDiscardPte_same m (m.pte b w)
    refine h.congr ?_ hsame.pagefile
    rw [pte_setPte, if_neg fun hc => hev ⟨hc.1.symm, hc.2.symm⟩, hsame.pte]
  | protect b w flags hf hp => exact h.setPte (isSwapped_of_present hp)
  | touch b w hp => exact h.setPte (isSwapped_of_present hp)
  | store b w offset byte hp =>
    have hset := h.setPte (e := m.pte b w ||| pteAccessed ||| pteDirty) (isSwapped_of_present hp)
    exact hset.congr rfl rfl
  | cowMark b w hp => exact h.setPte (isSwapped_of_isPrivate hp)
  | share b w => exact h.congr ((pmmRefInc_same m _).pte a v) (pmmRefInc_same m _).pagefile
  | copy d w e hl hz => exact h.setPte (by rw [hz]; exact isSwapped_zero)
  | copyShared d b w hl hz => exact h.setPte (by rw [hz]; exact isSwapped_zero)
  | cowKeep b w hp => exact h.setPte (isSwapped_of_isPrivate hp)
  | cowCopy b w f hf hp => exact h.setPte (isSwapped_of_isPrivate hp)
  | setAreas | copyAreas | linkTable | linkVmas | unlinkTable | unlinkVmas | bury =>
    exact h.congr (pte_setSpace (by rfl) a v) rfl
  | create b f hf h0 hl =>
    refine h.congr ?_ rfl
    unfold Machine.pte
    rw [space_setSpace]
    split
    · next hab =>
      have hz := hm.deadEntries b hl v
      rw [← hab] at hz
      have hsw := h.swapped
      rw [hz] at hsw
      contradiction
    · rfl

/-- Whatever is paged in is what was evicted: in the events of a run, a page that leaves and
next comes back does so with the same bytes and permissions. -/
def Faithful (es : List Event) : Prop := ∀ pre mid post a v bytes bytes' perms perms',
    es = pre ++ .evict a v bytes perms :: (mid ++ .pageIn a v bytes' perms' :: post) →
    (∀ e ∈ mid, ¬ e.touches a v) → bytes' = bytes ∧ perms' = perms

/-- Splitting a run at a point of its event sequence. -/
theorem Runs.split {es' : List Event} (h : Runs g m (es ++ es') g' m') :
    ∃ g1 m1, Runs g m es g1 m1 ∧ Runs g1 m1 es' g' m' := by
  induction es generalizing g m with
  | nil => exact ⟨g, m, .nil g m, h⟩
  | cons e es ih =>
    cases h with
    | cons first rest =>
      obtain ⟨g1, m1, hpre, hpost⟩ := ih rest
      exact ⟨g1, m1, .cons first hpre, hpost⟩

theorem runs_slots (hm : Sane m) (h : SlotsOk m) (hruns : Runs g m es g' m') : SlotsOk m' := by
  induction hruns with
  | nil => exact h
  | cons first _ ih => exact ih (act_sane hm first) (act_slots hm h first)

theorem runs_stored (hm : Sane m) (hs : SlotsOk m) (h : Stored a v bytes perms m)
    (hruns : Runs g m es g' m') (hes : ∀ e ∈ es, ¬ e.touches a v) : Stored a v bytes perms m' := by
  induction hruns with
  | nil => exact h
  | cons first _ ih =>
    exact ih (act_sane hm first) (act_slots hm hs first)
      (act_stored hm hs h first (hes _ (by simp))) fun e he => hes e (by simp [he])

theorem act_evict_stored (hact : Act g m (.evict a v bytes perms) g' m') :
    Stored a v bytes perms m' := by
  cases hact with
  | evict a v slot hv hs hlt hmax =>
    have hentry : ((fillSlot m slot (m.mem (pteFrame (m.pte a v)))).setPte a v
        (swapPteMake slot (m.pte a v))).pte a v = swapPteMake slot (m.pte a v) :=
      pte_setPte_self _ a v _
    refine ⟨?_, ?_, ?_⟩
    · rw [hentry]
      exact swapPteMake_isSwapped slot _
    · rw [hentry, swapPteSlot_make hmax]
      exact update_self slot _ m.pagefile
    · rw [hentry]
      exact swapPteMake_perms hmax _

/-- The page is in memory with these bytes and permission bits. -/
structure Installed (a v : ℕ) (bytes : Page) (perms : Pte) (m : Machine) : Prop where
  present : has (m.pte a v) ptePresent = true
  bytes : m.mem (pteFrame (m.pte a v)) = bytes
  perms : m.pte a v &&& swapPermMask = perms

/-- The allocator finds nothing to evict in a page that is out already. -/
theorem Stored.not_touches {ev : Event} (h : Stored a v bytes perms m) (hact : Act g m ev g' m')
    (hev : ev.isReclaim) : ¬ ev.touches a v := by
  cases ev with
  | evict b w bytes' perms' =>
    rintro ⟨rfl, rfl⟩
    cases hact with
    | evict _ _ slot hv =>
      have hp := present_of_isSwapped h.swapped
      rw [hv.present] at hp
      contradiction
  | idle => exact id
  | _ => exact hev.elim

theorem pmmAlloc_stored (hm : Sane m) (hs : SlotsOk m) (h : Stored a v bytes perms m) :
    Stored a v bytes perms (pmmAlloc m).1 := by
  have hall := (pmmAlloc_does Held.none hm).induct
    (I := fun _ n => Sane n ∧ SlotsOk n ∧ Stored a v bytes perms n)
    (fun hI hact hev => ⟨act_sane hI.1 hact, act_slots hI.1 hI.2.1 hact,
      act_stored hI.1 hI.2.1 hI.2.2 hact (hI.2.2.not_touches hact hev)⟩) ⟨hm, hs, h⟩
  exact hall.2.2

/-- `swap_in_page` reads back what was written. -/
theorem swapInPage_installs (hm : Sane m) (hs : SlotsOk m) (h : Stored a v bytes perms m)
    (hok : swapInPage m a v = (m', true)) : Installed a v bytes perms m' := by
  have hlt := pmmAlloc_lt m
  have hstored := pmmAlloc_stored hm hs h
  rcases swapInPage_cases hok with ⟨hno, -⟩ | ⟨-, -, -, -, hf, rfl⟩
  · cases hno
  have hframe : (pmmAlloc m).2 < 2 ^ 40 := Nat.lt_of_lt_of_le (hlt hf) hm.highest
  generalize (pmmAlloc m).1 = n at hstored
  generalize (pmmAlloc m).2 = f at hframe
  have hpte : (fetched n a v f).pte a v = pteMake f (n.pte a v &&& swapPermMask) := by
    rw [pte_congr (fetched_spaces n a v f), pte_setPte_self]
  have hmem : (fetched n a v f).mem = update n.mem f (n.pagefile (swapPteSlot (n.pte a v))) := by
    rw [fetched, swapRmapRecord, (swapRmapSet_same _ _ _).mem, (swapSlotFree_same _ _).mem]
    rfl
  refine ⟨?_, ?_, ?_⟩
  · rw [hpte]
    exact pteMake_present f _
  · rw [hpte, hmem, pteFrame_pteMake hframe (perms_addr _), update_self, hstored.bytes]
  · rw [hpte, pteMake_perms, hstored.perms]

/-- The ways a page comes back: the pager is asked for it, or a fault at it is handled. -/
def BringsIn (a v : ℕ) (m m' : Machine) : Prop :=
  swapInPage m a v = (m', true) ∨
    ∃ va write user, va / 4096 = v ∧ exceptionHandle m a va write user = (m', true)

theorem vmmFaultAnon_of_isSwapped {va : ℕ} (h : swapPteIsSwapped (m.pte a (va / 4096))) :
    (vmmFaultAnon m a va).2 = false := by
  rw [vmmFaultAnon]
  dsimp only
  split
  · rfl
  split
  · rfl
  split
  · rfl
  · simp only [present_of_isSwapped h, Bool.false_eq_true, if_false]

theorem BringsIn.installs (hin : BringsIn a v m m') (hm : Sane m) (hs : SlotsOk m)
    (h : Stored a v bytes perms m) : Installed a v bytes perms m' := by
  obtain hin | ⟨va, write, user, rfl, hin⟩ := hin
  · exact swapInPage_installs hm hs h hin
  -- the fault is the pager's: no reservation is consulted for a page that is out
  have hno : ∀ {n : Machine}, Stored a (va / 4096) bytes perms n →
      (if user = true then vmmFaultAnon n a va else (n, false)) ≠ (m', true) := by
    intro n hn heq
    split at heq
    · have hfailed := vmmFaultAnon_of_isSwapped hn.swapped
      rw [heq] at hfailed
      contradiction
    · cases heq
  rw [exceptionHandle, if_neg (by simp [present_of_isSwapped h.swapped]), swapHandleFault] at hin
  split at hin
  · rename_i heq
    cases hin
    split at heq
    · cases heq
    split at heq
    · cases heq
    · exact swapInPage_installs hm hs h heq
  · rename_i n heq
    refine absurd hin (hno ?_)
    split at heq
    · cases heq
      exact h
    split at heq
    · cases heq
      exact h
    rcases swapInPage_cases heq with ⟨-, rfl | rfl⟩ | ⟨hok, -⟩
    · exact h
    · have hstored := pmmAlloc_stored hm hs h
      exact hstored.congr ((pmmFree_same _ _).pte _ _) (pmmFree_same _ _).pagefile
    · cases hok

/-- The events of a run, operation by operation. -/
inductive Traced : Machine → List Op → List Event → Prop
  | nil (m : Machine) : Traced m [] []
  | cons {m : Machine} {op : Op} {ops : List Op} {es es' : List Event}
      (first : Runs Held.none m es Held.none (step m op).1)
      (shown : ∀ e ∈ es, e.shownBy m op (step m op).2) (rest : Traced (step m op).1 ops es') :
      Traced m (op :: ops) (es ++ es')

theorem Traced.runs {ops : List Op} (h : Traced m ops es) :
    Runs Held.none m es Held.none (run m ops) := by
  induction h with
  | nil m => exact .nil _ m
  | cons first _ _ ih => exact first.append ih

/-- The bytes and permissions with which a page has last left memory. -/
def LastOut (es : List Event) (a v : ℕ) (bytes : Page) (perms : Pte) : Prop :=
  ∃ pre post, es = pre ++ .evict a v bytes perms :: post ∧ ∀ e ∈ post, ¬ e.touches a v

theorem LastOut.stored (hm : Sane m) (hs : SlotsOk m) (hruns : Runs g m es g' m')
    (h : LastOut es a v bytes perms) : Stored a v bytes perms m' := by
  obtain ⟨pre, post, rfl, hpost⟩ := h
  obtain ⟨g1, m1, hpre, hrest⟩ := hruns.split
  have hm1 := runs_sane hm hpre
  have hs1 := runs_slots hm hs hpre
  cases hrest with
  | cons hout hkeep =>
    exact runs_stored (act_sane hm1 hout) (act_slots hm1 hs1 hout)
      (act_evict_stored hout) hkeep hpost

theorem oneProcess_slots : SlotsOk oneProcess := by
  have htotal : ∀ w : Pte → ℕ, w 0 = 0 → entryTotal w oneProcess = 0 := fun w hw =>
    FinMap.total_eq_zero fun a => FinMap.total_eq_zero fun v => by
      rw [show (oneProcess.spaces.get a).pt.get v = 0 from oneProcess_pte a v, hw]
  refine ⟨fun _ => rfl, fun a v hsw => ?_, fun slot => htotal _ (slotWeight_zero slot),
    (htotal _ swappedWeight_zero).symm⟩
  rw [oneProcess_pte] at hsw
  contradiction

end Vextro.Paging
