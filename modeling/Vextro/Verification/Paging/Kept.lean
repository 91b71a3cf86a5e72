import Vextro.Verification.Paging.ReverseMap

/-! Processes that share frames after a fork do not see each other's stores, and keep their pages
while one runs and after its child is given up. -/

namespace Vextro.Paging

variable {kern : ℕ → Bool} {e : Pte} {m : Machine}

/-! ## Shared pages -/

/-- A present shared entry maps a frame of the kernel. -/
def KernEntry (kern : ℕ → Bool) (e : Pte) : Prop :=
  has e ptePresent = true → has e pteShared = true → kern (pteFrame e) = true

def SharedKern (kern : ℕ → Bool) (m : Machine) : Prop := ∀ a v, KernEntry kern (m.pte a v)

theorem kernEntry_of_private (h : isPrivate e) : KernEntry kern e := by
  intro _ hs
  rw [(isPrivate_iff.mp h).2] at hs
  contradiction

theorem kernEntry_of_absent (h : has e ptePresent = false) : KernEntry kern e := by
  intro hp
  rw [h] at hp
  contradiction

theorem kernEntry_same {e' : Pte} (h : KernEntry kern e) (hp : has e ptePresent)
    (hpriv : isPrivate e' = isPrivate e) (hf : pteFrame e' = pteFrame e) : KernEntry kern e' := by
  intro hp' hs'
  rw [hf]
  refine h hp ?_
  simpa [isPrivate, hp, hs'] using hpriv

namespace SharedKern

variable {m' : Machine}

theorem of_pte (h : SharedKern kern m) (hpte : ∀ a v, m'.pte a v = m.pte a v) :
    SharedKern kern m' := fun a v => by
  rw [hpte]
  exact h a v

theorem setPte (h : SharedKern kern m) {a v : ℕ} (he : KernEntry kern e) :
    SharedKern kern (m.setPte a v e) := fun b w => by
  rw [pte_setPte]
  split
  · exact he
  · exact h b w

end SharedKern

theorem act_sharedKern {g g' : Held} {m' : Machine} {ev : Event} (hm : Sane m)
    (h : SharedKern kern m) (hact : Act g m ev g' m') : SharedKern kern m' := by
  cases hact with
  | quiet | take | fill | leak => exact h.of_pte fun _ _ => rfl
  | giveFresh f | giveLoose f => exact h.of_pte (pmmFree_same m f).pte
  | tune a s hs => exact h.of_pte (pte_setSpace hs.pt)
  | age a v hv =>
    exact h.setPte (kernEntry_same (h a v) hv.present (isPrivate_clear (by decide))
      (pteFrame_and (by decide)))
  | evict a v slot hv =>
    have hslot : SharedKern kern (fillSlot m slot (m.mem (pteFrame (m.pte a v)))) :=
      h.of_pte fun _ _ => rfl
    exact hslot.setPte (kernEntry_of_absent (swapPteMake_present slot _))
  | pageIn a v f hf hl hs =>
    refine SharedKern.setPte (h.of_pte (swapSlotFree_same m _).pte) (kernEntry_of_private ?_)
    exact isPrivate_pteMake (by simp +decide [has_and isFlag_shared])
  | map a v f x hf hl hx hlen =>
    exact h.setPte (kernEntry_of_private (isPrivate_pteMake (hm.areas a x hx hlen).plain.notShared))
  | unmapPrivate a v => exact h.setPte (kernEntry_of_absent (has_zero _))
  | unmapOther a v =>
    exact SharedKern.setPte (h.of_pte (swapDiscardPte_same m _).pte)
      (kernEntry_of_absent (has_zero _))
  | protect a v flags hf hp =>
    exact h.setPte (kernEntry_same (h a v) hp (isPrivate_protect hf.plain hp)
      (pteFrame_protect _ _ hf.plain))
  | touch a v hp =>
    exact h.setPte (kernEntry_same (h a v) hp (isPrivate_or (by decide))
      (pteFrame_or (by decide)))
  | store a v offset byte hp =>
    have hset : SharedKern kern (m.setPte a v (m.pte a v ||| pteAccessed ||| pteDirty)) :=
      h.setPte (kernEntry_same (h a v) hp (isPrivate_stored _) (pteFrame_stored _))
    exact hset.of_pte fun _ _ => rfl
  | cowMark a v hp | cowKeep a v hp =>
    refine h.setPte (kernEntry_of_private ?_)
    rwa [isPrivate_or (by decide), isPrivate_clear (by decide)]
  | share a v => exact h.of_pte (pmmRefInc_same m _).pte
  | copy d v e hl hz hp => exact h.setPte (kernEntry_of_private hp)
  | copyShared d a v => exact h.setPte (h a v)
  | cowCopy a v f hf hp => exact h.setPte (kernEntry_of_private (isPrivate_copy hp))
  | setAreas | copyAreas | linkTable | linkVmas | unlinkTable | unlinkVmas | bury =>
    exact h.of_pte (pte_setSpace (by rfl))
  | create a f =>
    intro b w
    unfold Machine.pte
    rw [space_setSpace]
    split
    · exact kernEntry_of_absent (has_zero _)
    · exact h b w

theorem step_sharedKern (hm : Sane m) (h : SharedKern kern m) (op : Op) :
    SharedKern kern (step m op).1 :=
  ((step_does Held.none hm op).induct (I := fun _ n => Sane n ∧ SharedKern kern n)
    (fun hI hact _ => ⟨act_sane hI.1 hact, act_sharedKern hI.1 hI.2 hact⟩) ⟨hm, h⟩).2

/-! ## Isolation -/

/-- A frame behind two or more private entries is writable through none of them. -/
def Isolated (m : Machine) : Prop :=
  ∀ a v, isPrivate (m.pte a v) = true → 2 ≤ mappings m (pteFrame (m.pte a v)) →
    has (m.pte a v) pteWrite = false

/-- The bytes of a private page, in memory or in the pagefile. -/
def pageBytes (m : Machine) (a v : ℕ) : Page :=
  if has (m.pte a v) ptePresent then m.mem (pteFrame (m.pte a v))
  else m.pagefile (swapPteSlot (m.pte a v))

/-- A store through one page changes no other private page, of any process. -/
def StoresIsolated (m : Machine) : Prop := ∀ a va byte b w, ¬ (b = a ∧ w = va / 4096) →
    (isPrivate (m.pte b w) = true ∨ swapPteIsSwapped (m.pte b w) = true) →
    pageBytes (step m (.store a va byte)).1 b w = pageBytes m b w

theorem Exclusive.isolated (h : Exclusive Held.none m) : Isolated m := by
  intro a v hp htwo
  by_contra hw
  have hone := h a v hp (by simpa using hw)
  unfold liveRefs at hone
  omega

theorem Exclusive.storesIsolated {leak : ℕ → ℕ} (h : Exclusive Held.none m)
    (hown : Owned kern leak Held.none m) (hk : SharedKern kern m) : StoresIsolated m := by
  intro a va byte b w hne hpage
  simp only [step, userStore]
  split
  · next hc =>
    simp only [Bool.and_eq_true] at hc
    obtain ⟨⟨hp, -⟩, hw⟩ := hc
    unfold pageBytes
    have hkeep : ∀ e page, ({ m.setPte a (va / 4096) e with mem := page } : Machine).pte b w =
        m.pte b w := fun e page => by
      change (m.setPte a (va / 4096) e).pte b w = m.pte b w
      rw [pte_setPte, if_neg hne]
    rw [hkeep]
    split
    · next hp' =>
      have hpriv : isPrivate (m.pte b w) := by
        rcases hpage with hpriv | hs
        · exact hpriv
        · rw [isSwapped_of_present hp'] at hs
          contradiction
      refine Function.update_of_ne (fun heq => ?_) _ _
      cases hsh : has (m.pte a (va / 4096)) pteShared with
      | true =>
        -- a frame of the kernel backs no private page
        have hkern := hk a (va / 4096) hp hsh
        have hmapped := one_le_mappings hpriv
        have hheld := hown.held _ (hown.nonzero b w hpriv) (by unfold liveRefs; omega)
        rw [heq, hkern] at hheld
        exact absurd hheld.2.2.1 (by decide)
      | false =>
        have hself : isPrivate (m.pte a (va / 4096)) := isPrivate_iff.mpr ⟨hp, hsh⟩
        have htwo := two_le_mappings hself hpriv heq hne
        have hone := h a (va / 4096) hself hw
        unfold liveRefs at hone
        omega
    · rfl
  · rfl

/-- In a run where no fork pushes a count past its ceiling, and where write access is never
granted to a private page whose frame is mapped elsewhere as well, processes are isolated. -/
theorem run_isolated {kern : ℕ → Bool} {leak : ℕ → ℕ} {m : Machine} (hm : Sane m)
    (hown : Owned kern leak Held.none m) (hex : Exclusive Held.none m) (hk : SharedKern kern m)
    (ops : List Op) (hops : Run.Meets (fun m op => (step m op).1) (fun m op => op.fits m = true ∧
      op.grantsShared m = false) m ops) (n : ℕ) :
    Isolated (run m (ops.take n)) ∧ StoresIsolated (run m (ops.take n)) := by
  have hinv := Run.invariant_take
    (I := fun m => Accounted kern False True Held.none m ∧ SharedKern kern m) (fun m op hI hop =>
    ⟨step_accounted hI.1 hop.1 False.elim fun _ => hop.2, step_sharedKern hI.1.sane hI.2 op⟩)
    ⟨⟨hm, ⟨leak, hown, False.elim⟩, fun _ => hex⟩, hk⟩ hops n
  obtain ⟨leak', hown', -⟩ := hinv.1.owned
  have hex' := hinv.1.exclusive trivial
  exact ⟨hex'.isolated, hex'.storesIsolated hown' hinv.2⟩

theorem oneProcess_exclusive : Exclusive Held.none oneProcess := fun a v hp => by
  rw [oneProcess_pte, isPrivate_zero] at hp
  contradiction

theorem oneProcess_sharedKern (kern : ℕ → Bool) : SharedKern kern oneProcess := fun a v => by
  rw [oneProcess_pte]
  exact kernEntry_of_absent (has_zero _)

/-- A process forks, writes through the copy-on-write fault, and takes write access away from
and back to its own copy. -/
theorem run_isolated_fork :
    let m := run oneProcess
      ([.mmap 1 0 4096 3 0x22, .fault 1 0x100000000000 true true, .fork 2 1 true,
        .fault 1 0x100000000000 true true, .mprotect 1 0x100000000000 4096 1,
        .mprotect 1 0x100000000000 4096 3].take 6)
    Isolated m ∧ StoresIsolated m :=
  run_isolated oneProcess_sane oneProcess_owned oneProcess_exclusive (oneProcess_sharedKern _) _
    (by decide +kernel) 6

/-- After a fork, `mprotect` makes the shared page writable as it stands, and the next store
of the parent shows in the child. -/
theorem mprotect_breaks_isolation :
    Sane oneProcess ∧ Owned (fun f => decide (f < 16)) (fun _ => 0) Held.none oneProcess ∧
      Exclusive Held.none oneProcess ∧ SharedKern (fun f => decide (f < 16)) oneProcess ∧
      let m := run oneProcess [.mmap 1 0 4096 3 0x22, .fault 1 0x100000000000 true true,
        .fork 2 1 true, .mprotect 1 0x100000000000 4096 3]
      ¬ Isolated m ∧ ¬ StoresIsolated m := by
  refine ⟨oneProcess_sane, oneProcess_owned, oneProcess_exclusive, oneProcess_sharedKern _,
    fun h => ?_, fun h => ?_⟩
  · have hw := h 1 (2 ^ 32) (by decide +kernel) (by decide +kernel)
    exact absurd hw (by decide +kernel)
  · have hbytes := h 1 0x100000000000 7 2 (2 ^ 32) (by decide) (Or.inl (by decide +kernel))
    exact absurd (congrFun hbytes 0) (by decide +kernel)

variable {m' : Machine} {e : Event} {a v dst src : ℕ} {P : Prop} {g g' : Held} {base : ℕ → ℕ}
  {vs : List ℕ}

/-! ## Pages, wherever they are -/

/-- What the page behind an entry holds, in memory or in the pagefile. -/
def pageOf (m : Machine) (e : Pte) : Option Page :=
  if has e ptePresent then some (m.mem (pteFrame e))
  else if swapPteIsSwapped e then some (m.pagefile (swapPteSlot e))
  else none

/-- Stores get through: the entry is writable, or copy on write in a frame without further owners,
so that `vmm_resolve_cow` makes it writable in place. The counts are those of `base`. -/
def Opens (base : ℕ → ℕ) (e : Pte) : Prop := has e pteWrite = true ∨
    has e ptePresent = true ∧ has e pteCow = true ∧ base (pteFrame e) = 0

/-- Everyone but `dst` has the same pages, and may still write to them. -/
structure Kept (base : ℕ → ℕ) (dst : ℕ) (m m' : Machine) : Prop where
  live : ∀ a, a ≠ dst → (m'.space a).live = (m.space a).live
  page : ∀ a v, a ≠ dst → pageOf m' (m'.pte a v) = pageOf m (m.pte a v)
  opens : ∀ a v, a ≠ dst → Opens base (m.pte a v) → Opens base (m'.pte a v)

theorem pageOf_congr {n : Machine} {e : Pte}
    (hmem : has e ptePresent → n.mem (pteFrame e) = m.mem (pteFrame e))
    (hfile : swapPteIsSwapped e → n.pagefile (swapPteSlot e) = m.pagefile (swapPteSlot e)) :
    pageOf n e = pageOf m e := by
  rw [pageOf, pageOf]
  cases hp : has e ptePresent with
  | true => rw [if_pos rfl, if_pos rfl, hmem hp]
  | false =>
    cases hs : swapPteIsSwapped e with
    | true => simp only [Bool.false_eq_true, if_false, hfile hs]
    | false => rfl

namespace Kept

variable {base : ℕ → ℕ} {dst : ℕ} {m m' m'' : Machine}

theorem refl (base : ℕ → ℕ) (dst : ℕ) (m : Machine) : Kept base dst m m :=
  ⟨fun _ _ => rfl, fun _ _ _ => rfl, fun _ _ _ h => h⟩

theorem trans (h : Kept base dst m m') (h' : Kept base dst m' m'') : Kept base dst m m'' where
  live a ha := (h'.live a ha).trans (h.live a ha)
  page a v ha := (h'.page a v ha).trans (h.page a v ha)
  opens a v ha ho := h'.opens a v ha (h.opens a v ha ho)

theorem of_same (h : SameContents m m') : Kept base dst m m' where
  live a _ := by rw [h.space]
  page a v _ := by
    rw [h.pte]
    exact pageOf_congr (fun _ => by rw [h.mem]) fun _ => by rw [h.pagefile]
  opens a v _ ho := by
    rwa [h.pte]

theorem setSpace (base : ℕ → ℕ) (dst : ℕ) (m : Machine) (s : AddrSpace) :
    Kept base dst m (m.setSpace dst s) := by
  have hspace : ∀ a, a ≠ dst → (m.setSpace dst s).space a = m.space a := fun a ha => by
    rw [space_setSpace, if_neg ha]
  have hpte : ∀ a v, a ≠ dst → (m.setSpace dst s).pte a v = m.pte a v := fun a v ha => by
    rw [Machine.pte, hspace a ha, Machine.pte]
  refine ⟨fun a ha => by rw [hspace a ha], fun a v ha => ?_, fun a v ha ho => ?_⟩
  · rw [hpte a v ha]
    rfl
  · rwa [hpte a v ha]

/-- Bytes that no page uses are overwritten. -/
theorem of_unused {n : Machine} (hspaces : n.spaces = m.spaces) (hmem : ∀ a v,
      has (m.pte a v) ptePresent → n.mem (pteFrame (m.pte a v)) = m.mem (pteFrame (m.pte a v)))
    (hfile : ∀ a v, swapPteIsSwapped (m.pte a v) →
      n.pagefile (swapPteSlot (m.pte a v)) = m.pagefile (swapPteSlot (m.pte a v))) :
    Kept base dst m n := by
  refine ⟨fun a _ => by rw [space_congr hspaces], fun a v _ => ?_, fun a v _ ho => ?_⟩
  · rw [pte_congr hspaces]
    exact pageOf_congr (hmem a v) (hfile a v)
  · rwa [pte_congr hspaces]

theorem setPte {e : Pte} (hpage : pageOf m e = pageOf m (m.pte a v))
    (hopens : Opens base (m.pte a v) → Opens base e) :
    Kept base dst m (m.setPte a v e) := by
  refine ⟨fun b _ => live_setPte m a b v e, fun b w _ => ?_, fun b w _ ho => ?_⟩
  · rw [pte_setPte]
    split
    · rename_i h
      obtain ⟨rfl, rfl⟩ := h
      exact hpage
    · rfl
  rw [pte_setPte]
  split
  · rename_i h
    obtain ⟨rfl, rfl⟩ := h
    exact hopens ho
  · exact ho

end Kept

/-! ## Paging -/

/-- The actions of the allocator, the pager and the walk. -/
def Event.isPaging : Event → Prop
  | .idle | .link | .evict .. | .pageIn .. => True
  | _ => False

theorem Event.isPaging_of_isWalk (h : e.isWalk) : e.isPaging := by
  cases e <;> simp_all [Event.isPaging, Event.isWalk, Event.isReclaim]

theorem Event.isPaging_of_isFetch (h : e.isFetch a v) : e.isPaging := by
  cases e <;> simp_all [Event.isPaging, Event.isFetch, Event.isReclaim]

theorem Event.isPlain_of_isPaging (h : e.isPaging) : e.isPlain := by
  cases e <;> simp_all [Event.isPaging, Event.isPlain]

/-- The counts, the slots and the shared pages are as they should be. -/
structure Whole (kern : ℕ → Bool) (P : Prop) (g : Held) (m : Machine) : Prop where
  accounted : Accounted kern P True g m
  slots : SlotsOk m
  shared : SharedKern kern m

theorem Whole.act {ev : Event} (h : Whole kern P g m) (hact : Act g m ev g' m') (hev : ev.isPlain) :
    Whole kern P g' m' :=
  ⟨h.accounted.plain (Does.act hact hev), act_slots h.accounted.sane h.slots hact,
    act_sharedKern h.accounted.sane h.shared hact⟩

theorem Whole.unmapped (h : Whole kern P g m) {f : ℕ}
    (hf : f ≠ 0) (hfree : m.used f = false ∨ 0 < g.fresh f) (hp : has (m.pte a v) ptePresent) :
    pteFrame (m.pte a v) ≠ f := by
  obtain ⟨leak, hown, _⟩ := h.accounted.owned
  rintro rfl
  cases hs : has (m.pte a v) pteShared with
  | true =>
    have hkern := h.shared a v hp hs
    rcases hfree with hu | hfresh
    · rcases Nat.eq_zero_or_pos (liveRefs g m (pteFrame (m.pte a v)) +
        leak (pteFrame (m.pte a v))) with hz | hpos
      · rw [(hown.free _ hf hz).2, hkern] at hu
        contradiction
      · rw [(hown.held _ hf hpos).2.1] at hu
        contradiction
    · have hexcl := hown.excl _ hf (by omega)
      rw [(hown.held _ hf (by omega)).2.2.1] at hkern
      contradiction
  | false =>
    have hmapped := one_le_mappings (isPrivate_iff.mpr ⟨hp, hs⟩)
    rcases hfree with hu | hfresh
    · rw [(hown.held _ hf (by rw [liveRefs]; omega)).2.1] at hu
      contradiction
    · have := hown.fresh_unmapped hfresh
      omega

theorem has_aged {flag : Pte} (hf : IsFlag flag) (hne : has pteAccessed flag = false) (e : Pte) :
    has (e &&& ~~~pteAccessed) flag = has e flag := by
  rw [has_and hf, has_not hf, hne]
  simp

/-- Paging moves pages about and changes none. -/
theorem act_kept {ev : Event} (h : Whole kern P g m) (hact : Act g m ev g' m') (hev : ev.isPaging) :
    Kept base dst m m' := by
  have hnone : ∀ a v, swapPteIsSwapped (m.pte a v) = true → m.pagefile (swapPteSlot (m.pte a v)) =
      m.pagefile (swapPteSlot (m.pte a v)) := fun _ _ _ => rfl
  cases hact with
  | quiet => exact .of_unused rfl (fun _ _ _ => rfl) hnone
  | take f hint freeFrames h0 hlt hfree =>
    refine .of_unused rfl (fun a v hp => ?_) hnone
    exact Function.update_of_ne (h.unmapped h0 (.inl hfree) hp) _ _
  | fill f page hfresh =>
    obtain ⟨leak, hown, _⟩ := h.accounted.owned
    refine .of_unused rfl (fun a v hp => ?_) hnone
    exact Function.update_of_ne (h.unmapped (hown.fresh_ne hfresh) (.inr hfresh) hp) _ _
  | giveFresh f | giveLoose f => exact .of_same (pmmFree_same m f)
  | age a v hv =>
    have hp := hv.present
    refine .setPte ?_ fun ho => ?_
    · rw [pageOf, pageOf, has_aged isFlag_present (by decide), hp, if_pos rfl, if_pos rfl,
        pteFrame_and (by decide)]
    rw [Opens, has_aged isFlag_write (by decide), has_aged isFlag_present (by decide),
      has_aged isFlag_cow (by decide), pteFrame_and (by decide)]
    exact ho
  | evict a v slot hv hfree hlt hmax =>
    have hfill : Kept base dst m (fillSlot m slot (m.mem (pteFrame (m.pte a v)))) := by
      refine .of_unused rfl (fun _ _ _ => rfl) fun b w hs => Function.update_of_ne ?_ _ _
      intro heq
      have htaken := h.slots.taken hs
      rw [heq, hfree] at htaken
      contradiction
    refine hfill.trans (.setPte ?_ fun ho => ?_)
    · have hold : pageOf (fillSlot m slot (m.mem (pteFrame (m.pte a v)))) (m.pte a v) =
          some (m.mem (pteFrame (m.pte a v))) := if_pos hv.present
      refine Eq.trans ?_ hold.symm
      rw [pageOf, swapPteMake_present, swapPteMake_isSwapped, swapPteSlot_make hmax]
      exact congrArg some (Function.update_self slot _ m.pagefile)
    · rcases ho with hw | ⟨_, hc, _⟩
      · exact .inl ((has_of_perms (swapPteMake_perms hmax _) (by decide)).trans hw)
      · exact absurd (hv.notCow.symm.trans hc) Bool.false_ne_true
  | pageIn a v f hfresh hl hs hlt hmem =>
    obtain ⟨leak, hown, _⟩ := h.accounted.owned
    have hsame := swapSlotFree_same m (swapPteSlot (m.pte a v))
    have hframe := pteFrame_pteMake_fresh h.accounted.sane hown hfresh (perms_addr (m.pte a v))
    refine (Kept.of_same hsame).trans (.setPte ?_ fun ho => ?_)
    · rw [hsame.pte, pageOf, pteMake_present, if_pos rfl, hframe, hsame.mem, pageOf,
        present_of_isSwapped hs, if_neg Bool.false_ne_true, hs, if_pos rfl, hsame.pagefile, hmem]
    rw [hsame.pte] at ho
    rcases ho with hw | ⟨hp, _⟩
    · exact .inl ((has_of_perms (pteMake_perms f _) (by decide)).trans hw)
    · exact absurd ((present_of_isSwapped hs).symm.trans hp) Bool.false_ne_true
  | linkTable a key f =>
    refine ⟨fun b _ => ?_, fun b w _ => ?_, fun b w _ ho => ?_⟩
    · rw [space_setSpace]
      split
      · rename_i hb
        rw [hb]
      · rfl
    · rw [pte_setSpace (by rfl)]
      rfl
    · rwa [pte_setSpace (by rfl)]
  | _ => exact absurd hev (by simp [Event.isPaging])

theorem Does.kept (hdoes : Does Event.isPaging g m g' m') (h : Whole kern P g m) (base : ℕ → ℕ)
    (dst : ℕ) :
    Kept base dst m m' :=
  (hdoes.induct (I := fun g n => Whole kern P g n ∧ Kept base dst m n)
    (fun hI hact hev => ⟨hI.1.act hact (Event.isPlain_of_isPaging hev),
      hI.2.trans (act_kept hI.1 hact hev)⟩) ⟨h, .refl base dst m⟩).2

theorem Whole.does (h : Whole kern P g m) (hdoes : Does Event.isPlain g m g' m') :
    Whole kern P g' m' :=
  hdoes.induct (I := Whole kern P) (fun hI hact hev => hI.act hact hev) h

theorem Whole.alloc (h : Whole kern P g m) (base : ℕ → ℕ) (dst : ℕ) :
    Kept base dst m (pmmAlloc m).1 :=
  ((pmmAlloc_does g h.accounted.sane).walk.mono fun _ => Event.isPaging_of_isWalk).kept h base dst

/-! ## Fork -/

/-- A page that is marked was its owner's alone, and is again when the child is gone. -/
theorem forkMark_kept (h : Accounted kern True True Held.none m) (hl : Lent base dst m)
    (hp : has (m.pte src v) ptePresent) : Kept base dst m (forkMark m src v) := by
  obtain ⟨leak, hown, hzero⟩ := h.owned
  rw [forkMark]
  split
  · rename_i hmark
    obtain ⟨hs, hw⟩ := Bool.and_eq_true_iff.mp hmark
    have hpriv : isPrivate (m.pte src v) := isPrivate_iff.mpr ⟨hp, by simpa using hs⟩
    have hframe : pteFrame ((m.pte src v &&& ~~~pteWrite) ||| pteCow) = pteFrame (m.pte src v) := by
      rw [pteFrame_or (by decide), pteFrame_and (by decide)]
    have hpres : has ((m.pte src v &&& ~~~pteWrite) ||| pteCow) ptePresent := by
      simp +decide [has_or, has_and isFlag_present, hp]
    refine .setPte ?_ fun _ => .inr ⟨hpres, ?_, ?_⟩
    · rw [pageOf, pageOf, if_pos hpres, if_pos hp, hframe]
    · simp +decide [has_or]
    have hsole := h.exclusive trivial src v hpriv hw
    have hheld := (hown.held _ (hown.nonzero src v hpriv) (by omega)).2.2.2
    have hleak := hzero trivial (pteFrame (m.pte src v))
    have hrefs := hl.refs (pteFrame (m.pte src v))
    rw [hframe]
    omega
  · exact .refl base dst m

theorem Does.slots {P : Event → Prop} (h : Does P g m g' m') (hm : Sane m) (hs : SlotsOk m) :
    SlotsOk m' := by
  obtain ⟨es, hr, _⟩ := h
  exact runs_slots hm hs hr

theorem Does.sharedKern {P : Event → Prop} (h : Does P g m g' m') (hm : Sane m)
    (hk : SharedKern kern m) :
    SharedKern kern m' :=
  (h.induct (I := fun _ n => Sane n ∧ SharedKern kern n)
    (fun hI hact _ => ⟨act_sane hI.1 hact, act_sharedKern hI.1 hI.2 hact⟩) ⟨hm, hk⟩).2

/-- A fork at work on the pages `vs` of the parent. -/
structure Forking (kern : ℕ → Bool) (base : ℕ → ℕ) (dst src : ℕ) (vs : List ℕ) (m : Machine) :
    Prop where
  filling : Filling dst src vs m
  roomy : Roomy kern True True src vs Held.none m
  lent : Lent base dst m
  slots : SlotsOk m
  shared : SharedKern kern m

theorem Forking.whole (h : Forking kern base dst src vs m) : Whole kern True Held.none m :=
  ⟨h.roomy.accounted, h.slots, h.shared⟩

/-- One page more for the child: the counts follow unless its tables cannot be had, and no one else
loses anything. -/
theorem vmmForkPage_lent {ok : Bool} (h : Forking kern base dst src (v :: vs) m)
    (hnd : (v :: vs).Nodup) (heq : vmmForkPage m dst src v = (m', ok)) :
    Lent (if ok then base else lost base (strandedAt m src v)) dst m' ∧ Kept base dst m m' := by
  have fetch := forkFetch_does Held.none h.filling.sane src v
  have hplain := fetch.mono fun _ => Event.isPlain_of_isFetch
  have hk1 := (fetch.mono fun _ => Event.isPaging_of_isFetch).kept h.whole base dst
  have hl1 := h.lent.spared (forkFetch_spared h.roomy.accounted h.filling.ne v)
  have hr1 := h.roomy.does hnd hplain
  have hw1 := h.whole.does hplain
  have hfill1 := h.filling.fetch fetch
  rcases vmmForkPage_cases heq with ⟨hf, rfl⟩ | ⟨hf, rfl⟩ | ⟨m1, hf, hp, hdone⟩ <;>
    rw [hf] at hk1 hl1 hr1 hw1 hfill1
  · rw [strandedAt, hf]
    exact ⟨hl1, hk1⟩
  · exact ⟨hl1, hk1⟩
  have mark := forkMark_marked hp
  have hpriv := forkMark_private m1 src v
  have hfill2 := hfill1.mark mark
  have hw2 := hw1.does (mark.does Held.none)
  have hr2 := hr1.does hnd (mark.does Held.none)
  have hl2 := hl1.spared (forkMark_spared h.filling.ne v)
  have hk2 := hk1.trans (forkMark_kept hw1.accounted hl1 hp)
  have hstrand : strandedAt m src v = if isPrivate ((forkMark m1 src v).pte src v) then
      some (pteFrame ((forkMark m1 src v).pte src v)) else none := by
    rw [strandedAt, hf, hpriv, forkMark_frame]
  cases hs : isPrivate ((forkMark m1 src v).pte src v) with
  | false =>
    rw [hs] at hstrand
    have hs' : has (m1.pte src v) pteShared := by simpa [isPrivate, hp] using hpriv.symm.trans hs
    have hwalk := vmmWalk_does Held.none hfill1.sane hfill1.live v
    have hl3 := hl1.spared (vmmWalk_spared dst _ dst v)
    have hk3 := hk1.trans ((hwalk.mono fun _ => Event.isPaging_of_isWalk).kept hw1 base dst)
    rw [forkCount_of_shared hs'] at hdone
    rcases hdone with ⟨hw, rfl⟩ | ⟨m2, hw, rfl, rfl⟩ <;> rw [hw] at hl3 hk3 hwalk
    · rw [hstrand]
      exact ⟨hl3, hk3⟩
    · exact ⟨hl3.put_shared
        ((hfill1.walk hwalk).zero v (by simp)) hs, hk3.trans (.setSpace base dst m2 _)⟩
  | true =>
    rw [hs] at hstrand
    obtain ⟨h0, hlt, hmax⟩ := hr2.page hs
    have hs' := (isPrivate_iff.mp (hpriv ▸ hs)).2
    have hwrite := forkMark_write hs'
    have hact := Act.share (g := Held.none) src v hs hwrite
    have hshare := hfill2.share (f := pteFrame ((forkMark m1 src v).pte src v))
    have hspared := vmmWalk_spared dst (pmmRefInc (forkMark m1 src v)
      (pteFrame ((forkMark m1 src v).pte src v))) dst v
    -- the walk starts with one reference more in hand
    have hwalk := vmmWalk_does ⟨Held.none.fresh,
      raise Held.none.loose (pteFrame ((forkMark m1 src v).pte src v))⟩ hshare.sane hshare.live v
    have hl3 := (hl2.count hlt hmax).spared hspared
    have hk3 := (hk2.trans (.of_same (pmmRefInc_same _ _))).trans
      ((hwalk.mono fun _ => Event.isPaging_of_isWalk).kept ⟨(hr2.share hs hwrite).accounted,
        act_slots hfill2.sane hw2.slots hact, act_sharedKern hfill2.sane hw2.shared hact⟩ base dst)
    have hhigh := hspared.highest
    rw [forkCount_of_private hs'] at hdone
    rw [(pmmRefInc_same _ _).highest] at hhigh
    rcases hdone with ⟨hw, rfl⟩ | ⟨m2, hw, rfl, rfl⟩ <;> rw [hw] at hl3 hk3 hwalk hhigh
    · rw [hstrand]
      exact ⟨hl3, hk3⟩
    · exact ⟨hl3.put ((hshare.walk hwalk).zero v (by simp)) hs h0 (hlt.trans_eq hhigh.symm),
        hk3.trans (.setSpace base dst m2 _)⟩

theorem Forking.next (h : Forking kern base dst src (v :: vs) m) (hnd : (v :: vs).Nodup)
    (heq : vmmForkPage m dst src v = (m', true)) : Forking kern base dst src vs m' := by
  have hforked := vmmForkPage_forked Held.none h.filling
  rw [heq] at hforked
  exact ⟨hforked.filling h.filling (List.nodup_cons.mp hnd).1,
    hforked.roomy h.filling.ne hnd (fun _ => rfl) h.roomy, (vmmForkPage_lent h hnd heq).1,
    hforked.does.slots h.filling.sane h.slots, hforked.does.sharedKern h.filling.sane h.shared⟩

theorem vmmForkPages_lent (h : Forking kern base dst src vs m) (hnd : vs.Nodup) :
    Lent (lost base (strandedIn dst src vs m)) dst (vmmForkPages dst src vs m).1 ∧
      Kept base dst m (vmmForkPages dst src vs m).1 := by
  induction vs generalizing m with
  | nil => exact ⟨h.lent, .refl base dst m⟩
  | cons v vs ih =>
    rw [vmmForkPages, strandedIn]
    rcases hf : vmmForkPage m dst src v with ⟨m', ok⟩
    have hpage := vmmForkPage_lent h hnd hf
    cases ok with
    | false => exact hpage
    | true =>
      obtain ⟨hlent, hkept⟩ := ih (h.next hnd hf) (List.nodup_cons.mp hnd).2
      exact ⟨hlent, hpage.2.trans hkept⟩

theorem vmmCreate_kept (h : Whole kern P Held.none m) (base : ℕ → ℕ) (dst : ℕ) :
    Kept base dst m (vmmCreate m dst).1 := by
  have halloc := h.alloc base dst
  rw [vmmCreate]
  rcases ha : pmmAlloc m with ⟨m', f⟩
  rw [ha] at halloc
  cases f with
  | zero => exact halloc
  | succ f => exact halloc.trans (.setSpace base dst m' _)

theorem forkStart_lent (h : Whole kern P Held.none m) (hd : (m.space dst).live = false) (src : ℕ) :
    Lent (refAt m) dst (forkStart m dst src).1 ∧ Kept (refAt m) dst m (forkStart m dst src).1 := by
  obtain ⟨leak, hown, _⟩ := h.accounted.owned
  have hlent := vmmCreate_lent h.accounted.sane hown.counted hd
  have hkept := vmmCreate_kept h (refAt m) dst
  have hdoes := (vmmCreate_does Held.none h.accounted.sane hd).1
  rw [forkStart]
  rcases hr : vmmCreate m dst with ⟨m1, ok⟩
  rw [hr] at hlent hkept hdoes
  cases ok with
  | false => exact ⟨hlent, hkept⟩
  | true =>
    have hset : ∀ n, Lent (refAt m) dst n ∧ Kept (refAt m) dst m n → ∀ s : AddrSpace,
        s.live = (n.space dst).live → s.pt = (n.space dst).pt →
          Lent (refAt m) dst (n.setSpace dst s) ∧ Kept (refAt m) dst m (n.setSpace dst s) :=
      fun n hn s _ hpt => ⟨hn.1.spared (.of_refs rfl rfl (spaceRefs_setSpace_same hpt dst)),
        hn.2.trans (.setSpace _ dst n s)⟩
    have htune := Act.tune (g := Held.none) dst (forkBreaks m1 dst src)
      ⟨rfl, rfl, rfl, rfl, rfl, rfl⟩
    have hwhole := (h.does hdoes).act htune trivial
    have htuned := hset m1 ⟨hlent, hkept⟩ (forkBreaks m1 dst src) rfl rfl
    exact vmmForkAreas_rule htuned ⟨htuned.1.spared (pmmAlloc_spared dst _),
      htuned.2.trans (hwhole.alloc _ dst)⟩ src hset

theorem vmmFork_lent (h : Whole kern True Held.none m) (hd : (m.space dst).live = false)
    (hs : (m.space src).live) (hfits : forkFits m src) :
    Lent (lost (refAt m) (forkStrands m dst src)) dst (vmmFork m dst src).1 ∧
      Kept (refAt m) dst m (vmmFork m dst src).1 := by
  have hbegun := forkStart_lent h hd src
  obtain ⟨hstart, hfill⟩ := forkStart_does Held.none h.accounted.sane hd hs
  rw [vmmFork_eq, forkStrands]
  rcases hf : forkStart m dst src with ⟨m', ok⟩
  rw [hf] at hbegun hstart hfill
  cases ok with
  | false => exact hbegun
  | true =>
    have hnd := (m'.space src).pt.keys_nodup
    have hroom : Roomy kern True True src (m'.space src).pt.keys Held.none m :=
      ⟨h.accounted, room_of_forkFits h.accounted hfits hnd⟩
    have hforking : Forking kern (refAt m) dst src (m'.space src).pt.keys m' :=
      ⟨hfill rfl _, hroom.does hnd hstart, hbegun.1, (h.does hstart).slots, (h.does hstart).shared⟩
    obtain ⟨hlent, hkept⟩ := vmmForkPages_lent hforking hnd
    exact ⟨hlent, hbegun.2.trans hkept⟩

/-! ## Teardown -/

/-- What a space gives up concerns no other. -/
theorem vmmDestroy_kept (base : ℕ → ℕ) (m : Machine) (dst : ℕ) :
    Kept base dst m (vmmDestroy m dst) :=
  vmmDestroy_rule (R := Kept base dst) (.refl base dst) .trans
    (fun h _ => .of_same h) (.setSpace base dst) m

section Destroyed

variable (h : Whole kern True Held.none m) (hd : (m.space dst).live = false)
  (hs : (m.space src).live = true) (hfits : forkFits m src = true)

include h hd hs hfits

theorem destroyed_accounted :
    Accounted kern False True Held.none (vmmDestroy (vmmFork m dst src).1 dst) := by
  have hforked := vmmFork_accounted h.accounted.weaken hd hs hfits False.elim
  exact hforked.plain (vmmDestroy_does Held.none hforked.sane dst)

/-- A child given up leaves every count as it was, but for one that may be too high by one. -/
theorem destroyed_refs (f : ℕ) : refAt (vmmDestroy (vmmFork m dst src).1 dst) f =
      lost (refAt m) (forkStrands m dst src) f := by
  have hforked := vmmFork_accounted h.accounted.weaken hd hs hfits False.elim
  obtain ⟨leak, hown, _⟩ := hforked.owned
  have hlent := vmmDestroy_lent hown (vmmFork_lent h hd hs hfits).1
  have hsane := (destroyed_accounted h hd hs hfits).sane
  have hnone := spaceRefs_dead hsane (vmmDestroy_dead (vmmFork m dst src).1 dst) f
  rw [hlent.refs f, hnone, Nat.add_zero]

omit hfits in
theorem destroyed_highest : (vmmDestroy (vmmFork m dst src).1 dst).highest = m.highest := by
  have hfork := vmmFork_does Held.none h.accounted.sane hd hs
  exact (vmmDestroy_does Held.none (hfork.sane h.accounted.sane) dst).highest.trans hfork.highest

/-- The kernel sees the difference. -/
theorem destroyed_counts :
    (∀ f, pmmRefCount (vmmDestroy (vmmFork m dst src).1 dst) f = pmmRefCount m f) ↔
      forkStrands m dst src = none := by
  obtain ⟨leak, hown, _⟩ := h.accounted.owned
  obtain ⟨leak', hown', _⟩ := (destroyed_accounted h hd hs hfits).owned
  have hrefs := destroyed_refs h hd hs hfits
  have hhigh := destroyed_highest h hd hs
  refine ⟨fun hsame => ?_, fun hnone f => ?_⟩
  · cases hf : forkStrands m dst src with
    | none => rfl
    | some f =>
      have hraised : refAt (vmmDestroy (vmmFork m dst src).1 dst) f = refAt m f + 1 := by
        rw [hrefs, hf]
        exact Function.update_self _ _ _
      -- a frame with a count is one the machine has
      have hlt : f < m.highest := by
        by_cases h0 : f = 0
        · have hroot := hown.root_lt h.accounted.sane hs
          omega
        have hpos : liveRefs Held.none (vmmDestroy (vmmFork m dst src).1 dst) f + leak' f ≠ 0 := by
          intro hz
          have hfree := (hown'.free f h0 hz).1
          omega
        rw [← hhigh]
        exact (hown'.held f h0 (Nat.pos_of_ne_zero hpos)).1
      have hcount := hsame f
      rw [pmmRefCount_of_lt hown'.counted (by omega), pmmRefCount_of_lt hown.counted hlt] at hcount
      omega
  · rw [hnone] at hrefs
    by_cases hlt : f < m.highest
    · rw [pmmRefCount_of_lt hown'.counted (by omega), pmmRefCount_of_lt hown.counted hlt, hrefs]
      rfl
    · rw [pmmRefCount_of_ge (by omega), pmmRefCount_of_ge (by omega)]

/-- Whatever a fork got to, everyone else has the same pages when the child is gone. -/
theorem destroyed_kept : Kept (refAt m) dst m (vmmDestroy (vmmFork m dst src).1 dst) :=
  (vmmFork_lent h hd hs hfits).2.trans (vmmDestroy_kept (refAt m) _ dst)

end Destroyed

/-- Where every operation succeeds, no fork pushes a count past its ceiling and no shared frame is
opened for writing, memory stays in order. -/
theorem run_whole (h : Whole kern True Held.none m) (ops : List Op)
    (hops : Run.Meets (fun m op => (step m op).1) (fun m op => (step m op).2 = true ∧ op.fits m ∧
      op.grantsShared m = false) m ops) (n : ℕ) : Whole kern True Held.none (run m (ops.take n)) :=
  Run.invariant_take (I := Whole kern True Held.none)
    (fun _ op hI hop => ⟨step_accounted hI.accounted hop.2.1 (fun _ => hop.1) fun _ => hop.2.2,
      (step_does Held.none hI.accounted.sane op).slots hI.accounted.sane hI.slots,
      step_sharedKern hI.accounted.sane hI.shared op⟩) h hops n

end Vextro.Paging
