import Vextro.Verification.Paging.Lifecycle

/-! Teardown, the system calls, and every operation as a sequence of actions. -/

namespace Vextro.Paging

variable {m : Machine} {op : Op} {ok : Bool} {e : Event}

/-! ## Teardown -/

theorem vmmDropPage_does (g : Held) (m : Machine) (a v : ℕ) :
    Does Event.isPlain g m g (vmmDropPage m a v) := by
  have hother : isPrivate (m.pte a v) = false →
      Does Event.isPlain g m g ((swapDiscardPte m (m.pte a v)).setPte a v 0) :=
    fun hnot => Does.act (Act.unmapOther a v hnot) trivial
  unfold vmmDropPage
  simp only
  cases hp : has (m.pte a v) ptePresent with
  | false => exact hother (by simp [isPrivate, hp])
  | true =>
    cases hs : has (m.pte a v) pteShared with
    | true =>
      have hkeep : swapDiscardPte m (m.pte a v) = m := by
        simp [swapDiscardPte, isSwapped_of_present hp]
      have hdrop := hother (by simp [isPrivate, hs])
      rwa [hkeep] at hdrop
    | false =>
      have hdrop : Does Event.isPlain g m _ _ :=
        Does.act (Act.unmapPrivate a v (isPrivate_iff.mpr ⟨hp, hs⟩)) trivial
      have hall := hdrop.trans
        (giveLoose_does g (m.setPte a v 0) (pteFrame (m.pte a v))).walk.plain
      rwa [pmmFree_setPte] at hall

theorem vmmDropPage_eq (m : Machine) (a v : ℕ) :
    ∃ m', SameContents m m' ∧ vmmDropPage m a v = m'.setPte a v 0 := by
  unfold vmmDropPage
  simp only
  split
  · exact ⟨_, swapDiscardPte_same m _, rfl⟩
  split
  · exact ⟨m, SameContents.refl m, rfl⟩
  · exact ⟨_, pmmFree_same m _, rfl⟩

theorem vmmDropPage_pte (m : Machine) (a v w : ℕ) :
    (vmmDropPage m a v).pte a w = if w = v then 0 else m.pte a w := by
  obtain ⟨m', hsame, heq⟩ := vmmDropPage_eq m a v
  rw [heq, pte_setPte, hsame.pte]
  simp

theorem dropPages_pte (a : ℕ) (vs : List ℕ) :
    ∀ (m : Machine) (w : ℕ), (vs.foldl (fun m v => vmmDropPage m a v) m).pte a w =
      if w ∈ vs then 0 else m.pte a w := by
  induction vs with
  | nil => simp
  | cons v vs ih =>
    intro m w
    rw [List.foldl_cons, ih, vmmDropPage_pte]
    by_cases h : w = v <;> simp [h]

theorem dropPages_space (a : ℕ) (vs : List ℕ) (m : Machine) :
    ∃ pt, (vs.foldl (fun m v => vmmDropPage m a v) m).space a = { m.space a with pt := pt } := by
  induction vs generalizing m with
  | nil => exact ⟨_, rfl⟩
  | cons v vs ih =>
    obtain ⟨m', hsame, heq⟩ := vmmDropPage_eq m a v
    obtain ⟨pt, hpt⟩ := ih (vmmDropPage m a v)
    refine ⟨pt, hpt.trans ?_⟩
    rw [heq, setPte_eq, space_setSpace_self, hsame.space]

theorem dropPages_clear (m : Machine) (a w : ℕ) :
    ((m.space a).pt.keys.foldl (fun m v => vmmDropPage m a v) m).pte a w = 0 := by
  rw [dropPages_pte]
  split
  · rfl
  next hw =>
    by_contra hne
    exact hw (FinMap.mem_keys_of_get_ne hne)

theorem vmmDropTable_does (g : Held) (m : Machine) (a key : ℕ) :
    Does Event.isPlain g m g (vmmDropTable m a key) := by
  unfold vmmDropTable
  simp only
  split
  · exact Does.refl _ g m
  next hz =>
  have hdrop : Does Event.isPlain g m _ _ := Does.act (Act.unlinkTable a key hz) trivial
  have hall := hdrop.trans (giveFresh_does g _ ((m.space a).tables.get key)).walk.plain
  rw [pmmFree_setSpace] at hall
  rwa [(pmmFree_same m _).space]

theorem vmmDropTable_space (m : Machine) (a key : ℕ) : (vmmDropTable m a key).space a =
      if (m.space a).tables.get key = 0 then m.space a
      else { m.space a with tables := (m.space a).tables.set key 0 } := by
  unfold vmmDropTable
  simp only
  split
  · rfl
  · rw [space_setSpace_self, (pmmFree_same m _).space]

theorem dropTables_space (a : ℕ) (ks : List ℕ) (m : Machine) :
    ∃ tables : FinMap ℕ,
    (ks.foldl (fun m k => vmmDropTable m a k) m).space a = { m.space a with tables := tables } ∧
      ∀ k, tables.get k = if k ∈ ks then 0 else (m.space a).tables.get k := by
  induction ks generalizing m with
  | nil => exact ⟨(m.space a).tables, rfl, by simp⟩
  | cons key ks ih =>
    obtain ⟨tables, hspace, htab⟩ := ih (vmmDropTable m a key)
    rw [vmmDropTable_space] at hspace htab
    refine ⟨tables, hspace.trans ?_, fun k => ?_⟩
    · split <;> rfl
    rw [htab]
    by_cases hz : (m.space a).tables.get key = 0
    · by_cases hk : k = key <;> simp [hz, hk]
    · by_cases hk : k = key
      · simp [hz, hk]
      · simp [hz, hk, FinMap.get_set_ne _ _ hk]

theorem dropTables_clear (m : Machine) (a k : ℕ) :
    (((m.space a).tables.keys.foldl (fun m k => vmmDropTable m a k) m).space a).tables.get k =
      0 := by
  obtain ⟨tables, hspace, htab⟩ := dropTables_space a (m.space a).tables.keys m
  rw [hspace]
  refine (htab k).trans (ite_eq_left_iff.mpr fun hk => ?_)
  by_contra hne
  exact hk (FinMap.mem_keys_of_get_ne hne)

/-- The last part of `vmm_destroy`: the root table and the reservation table. -/
def buryTables (m : Machine) (a : ℕ) : Machine :=
  let m := pmmFree m (m.space a).pml4
  let m := m.setSpace a { m.space a with pml4 := 0, live := false }
  if (m.space a).vmas = 0 then m
  else
    let m := pmmFree m (m.space a).vmas
    m.setSpace a { m.space a with vmas := 0, areas := [], vmaCount := 0 }

theorem buryTables_does (g : Held) {a : ℕ} (hl : (m.space a).live) (hp : ∀ v, m.pte a v = 0)
    (ht : ∀ k, (m.space a).tables.get k = 0) : Does Event.isPlain g m g (buryTables m a) := by
  simp only [buryTables, space_setSpace_self, (pmmFree_same _ _).space]
  split
  · next hv =>
    have hbury : Does Event.isPlain g m _ _ := Does.act (Act.bury a hl hp ht hv) trivial
    have hall := hbury.trans (giveFresh_does g _ (m.space a).pml4).walk.plain
    rwa [pmmFree_setSpace] at hall
  next hv =>
  have hunlink := Act.unlinkVmas (g := g) a hv
  set m1 := m.setSpace a { m.space a with vmas := 0, areas := [], vmaCount := 0 } with hm1
  have hs1 : m1.space a = { m.space a with vmas := 0, areas := [], vmaCount := 0 } :=
    space_setSpace_self m a _
  have hbury := Act.bury (g := { g with fresh := raise g.fresh (m.space a).vmas }) a
    (by rw [hs1]; exact hl) (fun v => (pte_setSpace (by rfl) a v).trans (hp v))
    (by rw [hs1]; exact ht) (by rw [hs1])
  have hroot := giveFresh_does { g with fresh := raise g.fresh (m.space a).vmas }
    (m1.setSpace a { m1.space a with pml4 := 0, live := false }) (m1.space a).pml4
  have hvmas := giveFresh_does g (pmmFree
    (m1.setSpace a { m1.space a with pml4 := 0, live := false }) (m1.space a).pml4) (m.space a).vmas
  have hacts : Does Event.isPlain g m _ _ :=
    (Does.act hunlink trivial).trans (Does.act hbury trivial)
  have hall := (hacts.trans hroot.walk.plain).trans hvmas.walk.plain
  rw [hs1, setSpace_setSpace, pmmFree_setSpace, pmmFree_setSpace] at hall
  rwa [pmmFree_setSpace, setSpace_setSpace]

theorem vmmDestroy_does (g : Held) (hm : Sane m) (a : ℕ) :
    Does Event.isPlain g m g (vmmDestroy m a) := by
  unfold vmmDestroy
  split
  · exact Does.refl _ g m
  next hlive =>
  simp only [Bool.not_eq_true', Bool.not_eq_false] at hlive
  set m1 := (m.space a).pt.keys.foldl (fun m v => vmmDropPage m a v) m
  have hpages : Does Event.isPlain g m g m1 :=
    foldl_does g (fun m _ v _ => vmmDropPage_does g m a v) hm
  set m2 := (m1.space a).tables.keys.foldl (fun m k => vmmDropTable m a k) m1
  have htables : Does Event.isPlain g m1 g m2 :=
    foldl_does g (fun m _ k _ => vmmDropTable_does g m a k) (hpages.sane hm)
  obtain ⟨pt, hspace⟩ := dropPages_space a (m.space a).pt.keys m
  obtain ⟨tables, hspace2, _⟩ := dropTables_space a (m1.space a).tables.keys m1
  have hlast := buryTables_does g
    (by rw [hspace2, hspace]; exact hlive)
    (fun v => by
      unfold Machine.pte
      rw [hspace2]
      exact dropPages_clear m a v)
    (fun k => dropTables_clear m1 a k)
  exact (hpages.trans htables).trans hlast

/-! ## System calls -/

theorem unmapPage_live (m : Machine) (a v b : ℕ) :
    ((vmmUnmapPage m a v).space b).live = (m.space b).live := by
  unfold vmmUnmapPage
  simp only
  split
  · rfl
  split
  · rw [live_setPte]
    split
    · rfl
    · rw [(pmmFree_same _ _).space, swapRmapForget, (swapRmapSet_same _ _ _).space]
  · rw [live_setPte, (swapDiscardPte_same _ _).space]

theorem vmmUnmapRange_live (m : Machine) (a base len b : ℕ) :
    ((vmmUnmapRange m a base len).space b).live = (m.space b).live := by
  unfold vmmUnmapRange
  split
  · rfl
  next h =>
  clear h
  induction rangePages base len generalizing m with
  | nil => rfl
  | cons v vs ih => rw [List.foldl_cons, ih, unmapPage_live]

theorem sysMmap_does (g : Held) (hm : Sane m) (a : ℕ) (hint length prot flags : UInt64) :
    Does Event.isPlain g m g (sysMmap m a hint length prot flags).1 := by
  have hstay := Does.refl Event.isPlain g m
  unfold sysMmap
  simp only
  split
  · exact hstay
  next hlive =>
  simp only [Bool.not_eq_true', Bool.not_eq_false] at hlive
  split
  · exact hstay
  split
  · exact hstay
  split
  · exact hstay
  split
  · exact hstay
  next hprot =>
  have hgrant : GrantFlags (protFlags prot) := ⟨prot, by simpa using hprot, rfl⟩
  split
  · split
    · exact hstay
    set base := pageAlignDown hint.toNat
    set len := pageAlignUp length.toNat
    have hunmap := vmmUnmapRange_does g hm a base len
    obtain ⟨hremove, hl⟩ := vmmAreaRemove_does g (hunmap.sane hm)
      (by rw [vmmUnmapRange_live]; exact hlive) base len
    have hboth := hunmap.trans hremove
    obtain ⟨hadd, _⟩ := vmmAreaAdd_does g (hboth.sane hm) hl
      (x := ⟨base, len, protFlags prot, if asks flags vxMapFixed then vmaFixed else 0⟩)
      fun _ => hgrant
    split
    · next heq => rw [heq] at hadd; exact hboth.trans hadd
    · next heq => rw [heq] at hadd; exact hboth.trans hadd
  · split
    · exact hstay
    set len := pageAlignUp length.toNat
    have htune := Act.tune (g := g) a
      { m.space a with mmapNext := (m.space a).mmapNext + len + 4096 }
      ⟨rfl, rfl, rfl, rfl, rfl, rfl⟩
    obtain ⟨hadd, _⟩ := vmmAreaAdd_does g (act_sane hm htune) (a := a)
      (by simpa using hlive)
      (x := ⟨(m.space a).mmapNext, len, protFlags prot,
        if asks flags vxMapFixed then vmaFixed else 0⟩) fun _ => hgrant
    have hstart : Does Event.isPlain g m g _ := Does.act htune trivial
    split
    · next heq => rw [heq] at hadd; exact hstart.trans hadd
    · next heq => rw [heq] at hadd; exact hstart.trans hadd

theorem sysMunmap_does (g : Held) (hm : Sane m) (a : ℕ) (addr length : UInt64) :
    Does Event.isPlain g m g (sysMunmap m a addr length).1 := by
  have hstay := Does.refl Event.isPlain g m
  unfold sysMunmap
  obtain ⟨base, len⟩ := callRange addr length
  simp only
  split
  · exact hstay
  next hlive =>
  simp only [Bool.not_eq_true', Bool.not_eq_false] at hlive
  split
  · exact hstay
  split
  · exact hstay
  split
  · exact hstay
  have hunmap := vmmUnmapRange_does g hm a base len
  obtain ⟨hremove, _⟩ := vmmAreaRemove_does g (hunmap.sane hm)
    (by rw [vmmUnmapRange_live]; exact hlive) base len
  split
  · next heq => rw [heq] at hremove; exact hunmap.trans hremove
  next m' heq =>
  rw [heq] at hremove
  split
  · exact (hunmap.trans hremove).trans (Does.act
      (Act.tune a { m'.space a with mmapNext := base }
        ⟨rfl, rfl, rfl, rfl, rfl, rfl⟩) trivial)
  · exact hunmap.trans hremove

theorem sysMprotect_does (g : Held) (hm : Sane m) (a : ℕ) (addr length prot : UInt64) :
    Does (Event.isProtect a (rangePages (callRange addr length).1 (callRange addr length).2)
      (protFlags prot)) g m g (sysMprotect m a addr length prot).1 := by
  unfold sysMprotect
  obtain ⟨base, len⟩ := callRange addr length
  simp only
  split
  · exact Does.refl _ g m
  split
  · exact Does.refl _ g m
  split
  · exact Does.refl _ g m
  split
  · exact Does.refl _ g m
  next hprot =>
  split
  · exact Does.refl _ g m
  · exact vmmProtectRange_does g hm a base len ⟨prot, by simpa using hprot, rfl⟩

theorem sysFork_does (g : Held) (hm : Sane m) {dst src : ℕ} (hd : (m.space dst).live = false)
    (accepted : Bool) :
    Does (Event.isFork (sysFork m dst src accepted).2) g m g (sysFork m dst src accepted).1 := by
  unfold sysFork
  cases hs : (m.space src).live with
  | false => exact Does.refl _ g m
  | true =>
    have hfork := vmmFork_does g hm hd hs
    rcases hr : vmmFork m dst src with ⟨m', ok⟩
    rw [hr] at hfork
    have hdestroy := (vmmDestroy_does g (hfork.sane hm) dst).forked false
    cases ok with
    | false => exact hfork.trans hdestroy
    | true =>
      cases accepted with
      | true => exact hfork
      | false => exact (hfork.mono fun _ => Event.isFork_weaken).trans hdestroy

/-! ## Faults and accesses -/

/-- Only a write to a present page can resolve copy on write. -/
theorem exceptionHandle_does (g : Held) (hm : Sane m) (a va : ℕ) (write user : Bool) :
    Does (fun e => e.isPlain ∨ write = true ∧ e.isResolve m a (va / 4096)) g m g
      (exceptionHandle m a va write user).1 := by
  unfold exceptionHandle
  split
  · cases write with
    | true => exact (vmmResolveCow_does g hm a va).mono fun _ he => Or.inr ⟨rfl, he⟩
    | false => exact Does.refl _ g m
  have hswap : Does Event.isPlain g m g (swapHandleFault m a va).1 := by
    unfold swapHandleFault
    split
    · exact Does.refl _ g m
    split
    · exact Does.refl _ g m
    · exact (swapInPage_does g hm a (va / 4096)).mono fun _ => Event.isPlain_of_isFetch
  rcases hr : swapHandleFault m a va with ⟨m', ok⟩
  rw [hr] at hswap
  cases ok with
  | true => exact hswap.mono fun _ => Or.inl
  | false =>
    cases user with
    | true =>
      exact (hswap.trans (vmmFaultAnon_does g (hswap.sane hm) a va)).mono fun _ => Or.inl
    | false => exact hswap.mono fun _ => Or.inl

theorem userLoad_does (g : Held) (m : Machine) (a va : ℕ) :
    Does Event.isPlain g m g (userLoad m a va).1 := by
  unfold userLoad
  simp only
  split
  · next h =>
    exact Does.act (Act.touch a (va / 4096) (Bool.and_eq_true_iff.mp h).1) trivial
  · exact Does.refl _ g m

theorem userStore_does (g : Held) (m : Machine) (a va : ℕ) (byte : UInt8) :
    Does (fun e => e = .store a (va / 4096)) g m g (userStore m a va byte).1 := by
  unfold userStore
  simp only
  split
  · next h =>
    simp only [Bool.and_eq_true] at h
    exact Does.act (Act.store a (va / 4096) (va % 4096) byte h.1.1 h.2) rfl
  · exact Does.refl _ g m

/-! ## Operations -/

/-- Whether an operation duplicates a space. -/
def Op.isFork : Op → Bool
  | .fork .. | .vmmFork .. => true
  | _ => false

/-- Whether an operation is a fault that may resolve a copy-on-write page. -/
def Op.isCow (a v : ℕ) : Op → Bool
  | .fault b va true _ | .resolveCow b va => b = a && va / 4096 = v
  | _ => false

/-- Whether an operation is a store through the page `v` of `a`. -/
def Op.isStore (a v : ℕ) : Op → Bool
  | .store b va _ => b = a && va / 4096 = v
  | _ => false

/-- Whether an operation asks to give the page `v` of `a` the flags `flags`. -/
def Op.isProtect (a v : ℕ) (flags : Pte) : Op → Bool
  | .mprotect b addr length prot =>
    b = a && v ∈ rangePages (callRange addr length).1 (callRange addr length).2 &&
      flags = protFlags prot
  | _ => false

/-- The events an operation may show, given the state it starts in and its outcome. -/
def Event.shownBy (m : Machine) (op : Op) (ok : Bool) : Event → Prop
  | .cow a v nx =>
    op.isCow a v = true ∧ nx = has (m.pte a v) pteNx ∧ has (m.pte a v) ptePresent = true ∧
      has (m.pte a v) pteCow = true
  | .protect a v flags => op.isProtect a v flags = true
  | .share _ | .copy .. => op.isFork = true
  | .leak _ => op.isFork = true ∧ ok = false
  | .store a v => op.isStore a v = true
  | _ => True

theorem Event.shownBy_of_isPlain (h : e.isPlain) : e.shownBy m op ok := by
  cases e <;> simp_all [Event.isPlain, Event.shownBy]

theorem Does.shown {g g' : Held} {m' n : Machine} (op : Op) (ok : Bool)
    (h : Does Event.isPlain g m g' m') :
    Does (Event.shownBy n op ok) g m g' m' :=
  h.mono fun _ => Event.shownBy_of_isPlain

theorem Event.shownBy_of_isFork (hop : op.isFork) (h : e.isFork ok) : e.shownBy m op ok := by
  cases e <;> simp_all [Event.isPlain, Event.isFork, Event.shownBy]

theorem Event.shownBy_of_isResolve {a v : ℕ} (hop : op.isCow a v) (h : e.isResolve m a v) :
    e.shownBy m op ok := by
  cases e with
  | cow b w nx =>
    obtain ⟨rfl, rfl, hnx, hp, hc⟩ := h
    exact ⟨hop, hnx, hp, hc⟩
  | _ => exact Event.shownBy_of_isPlain h

/-- Every operation is a sequence of actions that ends with nothing held. -/
theorem step_does (g : Held) (hm : Sane m) (op : Op) :
    Does (Event.shownBy m op (step m op).2) g m g (step m op).1 := by
  cases op with
  | mmap a hint length prot flags => exact (sysMmap_does g hm a hint length prot flags).shown _ _
  | munmap a addr length => exact (sysMunmap_does g hm a addr length).shown _ _
  | mprotect a addr length prot =>
    refine (sysMprotect_does g hm a addr length prot).mono fun e he => ?_
    cases e with
    | protect b v flags =>
      obtain ⟨rfl, hv, rfl⟩ := he
      simp [Event.shownBy, Op.isProtect, hv]
    | areas => trivial
    | _ => exact he.elim
  | fork dst src accepted =>
    simp only [step]
    cases hd : (m.space dst).live with
    | true => exact Does.refl _ g m
    | false => exact (sysFork_does g hm hd accepted).mono fun _ => Event.shownBy_of_isFork rfl
  | exit a => exact (vmmDestroy_does g hm a).shown _ _
  | fault a va write user =>
    refine (exceptionHandle_does g hm a va write user).mono fun e he => ?_
    rcases he with he | ⟨rfl, he⟩
    · exact Event.shownBy_of_isPlain he
    · exact Event.shownBy_of_isResolve (by simp [Op.isCow]) he
  | load a va => exact (userLoad_does g m a va).shown _ _
  | store a va byte =>
    refine (userStore_does g m a va byte).mono fun e he => ?_
    subst he
    simp [Event.shownBy, Op.isStore]
  | vmmFork dst src =>
    simp only [step]
    cases hd : (m.space dst).live with
    | true => exact Does.refl _ g m
    | false =>
      cases hs : (m.space src).live with
      | false => exact Does.refl _ g m
      | true => exact (vmmFork_does g hm hd hs).mono fun _ => Event.shownBy_of_isFork rfl
  | resolveCow a va =>
    refine (vmmResolveCow_does g hm a va).mono fun e he => ?_
    exact Event.shownBy_of_isResolve (by simp [Op.isCow]) he
  | unmapRange a base len => exact (vmmUnmapRange_does g hm a base len).shown _ _
  | faultAnon a va => exact (vmmFaultAnon_does g hm a va).shown _ _
  | swapOut => exact (swapOutOne_rule (pages_does g) m).walk.plain.shown _ _
  | swapIn a va =>
    exact ((swapInPage_does g hm a (va / 4096)).mono fun _ => Event.isPlain_of_isFetch).shown _ _
  | device fails =>
    exact (quiet_does g m m.hint m.freeFrames m.hand m.swapBusy m.rmap fails).walk.plain.shown _ _

theorem step_sane (hm : Sane m) (op : Op) :
    Sane (step m op).1 := (step_does Held.none hm op).sane hm

/-! ## A small machine -/

/-- Sixty-four frames, the first seventeen taken, and one process with nothing mapped. -/
def oneProcess : Machine where
  highest := 64
  used f := f < 17
  hint := 0
  freeFrames := 47
  ref := some fun _ => 0
  mem _ := zeroPage
  spaces := FinMap.empty.set 1 { deadSpace with
    live := true, pml4 := 16, brk := userHeapBase, brkTop := userHeapBase, mmapNext :=
    userMmapBase }
  swapReady := true
  swapBusy := false
  slotCount := swapSlots
  slotsUsed := 0
  slotBm _ := false
  rmap := some fun _ => none
  hand := 0
  pagefile _ := zeroPage
  slotFails _ := false

theorem oneProcess_space (a : ℕ) :
    oneProcess.space a = if a = 1 then { deadSpace with
      live := true, pml4 := 16, brk := userHeapBase, brkTop := userHeapBase,
      mmapNext := userMmapBase } else deadSpace :=
  FinMap.get_set _ _ _ _

theorem oneProcess_pte (a v : ℕ) : oneProcess.pte a v = 0 := by
  unfold Machine.pte
  rw [oneProcess_space]
  split <;> rfl

theorem oneProcess_sane : Sane oneProcess := by
  refine ⟨rfl, by decide, fun a v hp => ?_, fun a x hx => ?_, fun a _ v => oneProcess_pte a v,
    fun a _ k => ?_, fun a h => ?_, fun a _ => ?_, fun a h => ?_⟩
  · rw [oneProcess_pte] at hp
    contradiction
  · rw [oneProcess_space] at hx
    split at hx <;> simp [deadSpace] at hx
  · rw [oneProcess_space]
    split <;> rfl
  · rw [oneProcess_space] at h ⊢
    split at h
    · contradiction
    · next hne => rw [if_neg hne]; rfl
  · rw [oneProcess_space]
    split <;> rfl
  rw [oneProcess_space] at h ⊢
  split at h
  · next heq => rw [if_pos heq]; decide
  · contradiction

end Vextro.Paging
