import Vextro.Verification.Paging.Lending

/-! The reverse map, what keeps it true, and which operations leave names behind. -/

namespace Vextro.Paging

variable {m : Machine} {a v f : ℕ} {flags : Pte}

/-! ## Names -/

/-- The page that the reverse map names for a frame. -/
def names (m : Machine) (f : ℕ) : Option (ℕ × ℕ) := m.rmap.bind fun r => r f

/-- No frame is said to back page `v` of space `a`. -/
def Nameless (m : Machine) (a v : ℕ) : Prop := ∀ f, names m f ≠ some (a, v)

/-- Every entry names a live space, and there a private page in its own frame. -/
structure Truthful (m : Machine) : Prop where
  highest : m.highest ≤ 2 ^ 40
  inRange : ∀ f p, names m f = some p → f < m.highest
  live : ∀ f a v, names m f = some (a, v) → (m.space a).live = true
  page : ∀ f a v, names m f = some (a, v) → isPrivate (m.pte a v) = true ∧ pteFrame (m.pte a v) = f

theorem Truthful.nameless_of_absent (h : Truthful m) (hp : isPrivate (m.pte a v) = false) :
    Nameless m a v := by
  intro f hf
  simp [(h.page f a v hf).1] at hp

theorem Truthful.nameless_of_dead (h : Truthful m) (hd : (m.space a).live = false) (v : ℕ) :
    Nameless m a v := by
  intro f hf
  simp [h.live f a v hf] at hd

theorem names_swapRmapSet (m : Machine) (f : ℕ) (owner : Option (ℕ × ℕ)) (g : ℕ) :
    names (swapRmapSet m f owner) g =
      if g = f ∧ f < m.highest ∧ m.rmap.isSome = true then owner else names m g := by
  rw [names, names, swapRmapSet]
  cases hr : m.rmap with
  | none => simp [hr]
  | some r =>
    dsimp only
    by_cases hlt : f < m.highest
    · rw [if_neg (by omega)]
      by_cases hg : g = f <;> simp [hg, hlt]
    · rw [if_pos (by omega), hr]
      simp [hlt]

theorem names_forget {g : ℕ} {p : ℕ × ℕ} (h : names (swapRmapForget m f) g = some p) :
    names m g = some p := by
  rw [swapRmapForget, names_swapRmapSet] at h
  split at h
  · cases h
  · exact h

theorem Truthful.nameless_of_forget (h : Truthful m) (a v : ℕ) :
    Nameless (swapRmapForget m (pteFrame (m.pte a v))) a v := by
  intro f hf
  have hold := names_forget hf
  have hframe := (h.page f a v hold).2
  have hlt := h.inRange f _ hold
  have hsome : m.rmap.isSome := by
    cases hr : m.rmap with
    | none =>
      rw [names, hr] at hold
      cases hold
    | some r => rfl
  rw [swapRmapForget, names_swapRmapSet, hframe, if_pos ⟨rfl, hlt, hsome⟩] at hf
  cases hf

/-! ## Steps that keep the map true -/

/-- New names are among `S`, live spaces stay, and a map that was true is true. -/
structure Tells (S : ℕ × ℕ → Prop) (m m' : Machine) : Prop where
  names : ∀ f p, names m' f = some p → names m f = some p ∨ S p
  live : ∀ a, (m.space a).live = true → (m'.space a).live = true
  highest : m'.highest = m.highest
  truthful : Truthful m → Truthful m'

namespace Tells

variable {S : ℕ × ℕ → Prop} {m' m'' : Machine}

theorem refl (S : ℕ × ℕ → Prop) (m : Machine) :
    Tells S m m := ⟨fun _ _ h => .inl h, fun _ h => h, rfl, id⟩

theorem trans (h : Tells S m m') (h' : Tells S m' m'') : Tells S m m'' where
  names f p hf := (h'.names f p hf).elim (h.names f p) .inr
  live a ha := h'.live a (h.live a ha)
  highest := h'.highest.trans h.highest
  truthful ht := h'.truthful (h.truthful ht)

theorem mono {T : ℕ × ℕ → Prop} (h : Tells S m m') (hST : ∀ p, S p → T p) : Tells T m m' :=
  ⟨fun f p hf => (h.names f p hf).imp_right (hST p), h.live, h.highest, h.truthful⟩

theorem nameless (h : Tells S m m') (hn : Nameless m a v) (hS : ¬ S (a, v)) :
    Nameless m' a v := fun f hf => (h.names f _ hf).elim (hn f) hS

/-- No name is new, and every page that has one stays where it is. -/
theorem of_kept (hnames : ∀ f p, Paging.names m' f = some p → Paging.names m f = some p)
    (hlive : ∀ a, (m.space a).live → (m'.space a).live) (hhigh : m'.highest = m.highest)
    (hpage : ∀ f a v, Paging.names m' f = some (a, v) → isPrivate (m.pte a v) →
      isPrivate (m'.pte a v) ∧ pteFrame (m'.pte a v) = pteFrame (m.pte a v)) : Tells S m m' where
  names f p hf := .inl (hnames f p hf)
  live := hlive
  highest := hhigh
  truthful ht := by
    refine ⟨hhigh ▸ ht.highest, fun f p hf => ?_, fun f a v hf => ?_, fun f a v hf => ?_⟩
    · rw [hhigh]
      exact ht.inRange f p (hnames f p hf)
    · exact hlive a (ht.live f a v (hnames f _ hf))
    · obtain ⟨hp, hframe⟩ := ht.page f a v (hnames f _ hf)
      rw [← hframe]
      exact hpage f a v hf hp

/-- Whatever the map and the spaces do not see. -/
theorem quiet (hrmap : m'.rmap = m.rmap) (hspaces : m'.spaces = m.spaces)
    (hhigh : m'.highest = m.highest) : Tells S m m' := by
  refine .of_kept (fun f p hf => ?_) (fun a ha => by rwa [space_congr hspaces]) hhigh
    fun f a v _ hp => ?_
  · rwa [Paging.names, ← hrmap]
  · rw [pte_congr hspaces]
    exact ⟨hp, rfl⟩

theorem of_same (h : SameContents m m') (hrmap : m'.rmap = m.rmap) :
    Tells S m m' := .quiet hrmap h.spaces h.highest

/-- A space of which no page has a name may change in any way. -/
theorem setSpace_nameless {s : AddrSpace} (hn : ∀ v, Nameless m a v)
    (hl : (m.space a).live → s.live) :
    Tells S m (m.setSpace a s) := by
  refine .of_kept (fun _ _ => id) (fun b hb => ?_) rfl fun f b v hf hp => ?_
  · rw [space_setSpace]
    split
    · rename_i h
      exact hl (h ▸ hb)
    · exact hb
  · have hne : b ≠ a := by
      rintro rfl
      exact hn v f hf
    rw [Machine.pte, space_setSpace, if_neg hne]
    exact ⟨hp, rfl⟩

theorem setSpace {s : AddrSpace} (hl : s.live = (m.space a).live) (hpt : s.pt = (m.space a).pt) :
    Tells S m (m.setSpace a s) := by
  refine .of_kept (fun _ _ => id) (fun b hb => ?_) rfl fun f b v _ hp => ?_
  · rw [space_setSpace]
    split
    · rename_i h
      rwa [hl, ← h]
    · exact hb
  · rw [pte_setSpace hpt]
    exact ⟨hp, rfl⟩

/-- A page that has a name stays private, in its frame. -/
theorem setPte_named {e : Pte} (he : ∀ f, Paging.names m f = some (a, v) → isPrivate (m.pte a v) →
    isPrivate e ∧ pteFrame e = pteFrame (m.pte a v)) : Tells S m (m.setPte a v e) := by
  refine .of_kept (fun _ _ => id) (fun b hb => by rwa [live_setPte]) rfl fun f b w hf hp => ?_
  rw [pte_setPte]
  split
  · rename_i h
    obtain ⟨rfl, rfl⟩ := h
    exact he f hf hp
  · exact ⟨hp, rfl⟩

theorem setPte_nameless (e : Pte) (hn : Nameless m a v) : Tells S m (m.setPte a v e) :=
  .setPte_named fun f hf => absurd hf (hn f)

theorem setPte {e : Pte}
    (he : isPrivate (m.pte a v) → isPrivate e ∧ pteFrame e = pteFrame (m.pte a v)) :
    Tells S m (m.setPte a v e) :=
  .setPte_named fun _ _ => he

theorem forget (f : ℕ) : Tells S m (swapRmapForget m f) := by
  have hsame := swapRmapSet_same m f none
  refine .of_kept (fun g p => names_forget) (fun a ha => ?_) hsame.highest fun g a v _ hp => ?_
  · rwa [swapRmapForget, hsame.space]
  · rw [swapRmapForget, hsame.pte]
    exact ⟨hp, rfl⟩

/-- The frame of a page is forgotten, and the page may get any entry. -/
theorem replace (a v : ℕ) (e : Pte) :
    Tells S m ((swapRmapForget m (pteFrame (m.pte a v))).setPte a v e) := by
  have hforget : Tells S m (swapRmapForget m (pteFrame (m.pte a v))) := .forget _
  refine ⟨hforget.names, fun b hb => ?_, hforget.highest, fun ht => ?_⟩
  · rw [live_setPte]
    exact hforget.live b hb
  · exact (setPte_nameless (S := S) e (ht.nameless_of_forget a v)).truthful (hforget.truthful ht)

/-- A frame becomes a private page of a live space, and the map says so. -/
theorem record {e : Pte} (hl : (m.space a).live) (hn : Nameless m a v) (he : isPrivate e)
    (hf : pteFrame e = f) (hS : S (a, v)) : Tells S m (swapRmapRecord (m.setPte a v e) f a v) := by
  have hset : Tells S m (m.setPte a v e) := .setPte_nameless e hn
  have hsame := swapRmapSet_same (m.setPte a v e) f (some (a, v))
  have hcases : ∀ g p, Paging.names (swapRmapRecord (m.setPte a v e) f a v) g = some p →
      g = f ∧ f < m.highest ∧ p = (a, v) ∨ Paging.names m g = some p := by
    intro g p hg
    rw [swapRmapRecord, names_swapRmapSet] at hg
    split at hg
    · rename_i h
      exact .inl ⟨h.1, h.2.1, (Option.some.inj hg).symm⟩
    · exact .inr hg
  refine ⟨fun g p hg => ?_, fun b hb => ?_, hsame.highest, fun ht => ?_⟩
  · rcases hcases g p hg with ⟨-, -, rfl⟩ | hold
    · exact .inr hS
    · exact .inl hold
  · rw [swapRmapRecord, hsame.space]
    exact hset.live b hb
  have ht' := hset.truthful ht
  refine ⟨hsame.highest ▸ ht.highest, fun g p hg => ?_, fun g b w hg => ?_, fun g b w hg => ?_⟩
  · rw [swapRmapRecord, hsame.highest]
    rcases hcases g p hg with ⟨rfl, hlt, -⟩ | hold
    · exact hlt
    · exact ht.inRange g p hold
  · rw [swapRmapRecord, hsame.space]
    rcases hcases g _ hg with ⟨-, -, heq⟩ | hold
    · obtain ⟨rfl, rfl⟩ := Prod.mk.inj heq
      exact hset.live b hl
    · exact ht'.live g b w hold
  rw [swapRmapRecord, hsame.pte]
  rcases hcases g _ hg with ⟨rfl, -, heq⟩ | hold
  · cases heq
    rw [pte_setPte, if_pos ⟨rfl, rfl⟩]
    exact ⟨he, hf⟩
  · exact ht'.page g b w hold

end Tells

/-! ## Allocation -/

theorem pmmFree_rmap (m : Machine) (f : ℕ) : (pmmFree m f).rmap = m.rmap := by
  rcases pmmFree_cases m f with h | ⟨-, h | ⟨r, -, -, -, h⟩⟩ <;> rw [h]

theorem pmmRefInc_rmap (m : Machine) (f : ℕ) : (pmmRefInc m f).rmap = m.rmap := by
  fun_cases pmmRefInc m f <;> rfl

theorem swapSlotFree_rmap (m : Machine) (slot : ℕ) : (swapSlotFree m slot).rmap = m.rmap := by
  fun_cases swapSlotFree m slot <;> rfl

theorem swapDiscardPte_rmap (m : Machine) (e : Pte) : (swapDiscardPte m e).rmap = m.rmap := by
  fun_cases swapDiscardPte m e
  all_goals first | rfl | exact swapSlotFree_rmap m _

theorem pmmFree_tells (S : ℕ × ℕ → Prop) (m : Machine) (f : ℕ) : Tells S m (pmmFree m f) :=
  .of_same (pmmFree_same m f) (pmmFree_rmap m f)

theorem Move.tells {m' : Machine} (h : Move m m') (S : ℕ × ℕ → Prop) : Tells S m m' := by
  cases h with
  | book => exact .quiet rfl rfl rfl
  | forget f => exact .forget f
  | age a v =>
    refine .setPte fun hp => ⟨?_, pteFrame_and (by decide)⟩
    rwa [isPrivate_clear (by decide)]
  | evict a v slot =>
    have hfill : Tells S m (fillSlot m slot (m.mem (pteFrame (m.pte a v)))) := .quiet rfl rfl rfl
    refine (hfill.trans ?_).trans (pmmFree_tells S _ _)
    rw [swapRmapForget, swapRmapSet_setPte]
    exact .replace a v _
  | link a tables => exact .setSpace rfl rfl

theorem Moves.tells {m' : Machine} (h : Moves m m') (S : ℕ × ℕ → Prop) : Tells S m m' :=
  Moves.lift (.refl S) .trans (fun h => h.tells S) h

theorem pmmAlloc_tells (S : ℕ × ℕ → Prop) (m : Machine) :
    Tells S m (pmmAlloc m).1 := (pmmAlloc_moves m).tells S

theorem vmmWalk_tells (S : ℕ × ℕ → Prop) (m : Machine) (a v : ℕ) : Tells S m (vmmWalk m a v).1 :=
  (vmmWalk_moves m a v).tells S

/-! ## Mapping -/

theorem vmmMap_tells {S : ℕ × ℕ → Prop} (hl : (m.space a).live) (hn : Nameless m a v)
    (hown : has flags pteShared = false → f < 2 ^ 40 ∧ flags &&& pteAddrMask = 0 ∧ S (a, v)) :
    Tells S m (vmmMap m a v f flags).1 := by
  have hwalk := vmmWalk_tells S m a v
  have hn' := (vmmWalk_tells (fun _ => False) m a v).nameless hn id
  rw [vmmMap]
  rcases hw : vmmWalk m a v with ⟨m', ok⟩
  rw [hw] at hwalk hn'
  cases ok with
  | false => exact hwalk
  | true =>
    dsimp only
    split
    · rename_i hflags
      have hshared : has flags pteShared = false := by
        simpa using (Bool.and_eq_true_iff.mp hflags).2
      obtain ⟨hf, haddr, hS⟩ := hown hshared
      exact hwalk.trans (.record (hwalk.live a hl) hn' (isPrivate_pteMake hshared)
        (pteFrame_pteMake hf haddr) hS)
    · exact (hwalk.trans (.setPte_nameless _ hn')).trans (.forget f)

theorem swapInPage_tells (ht : Truthful m) (a v : ℕ) :
    Tells (fun p => p = (a, v)) m (swapInPage m a v).1 := by
  have halloc := pmmAlloc_tells (fun p => p = (a, v)) m
  have hnone := pmmAlloc_tells (fun _ => False) m
  have hlt := pmmAlloc_lt m
  rw [swapInPage]
  split
  · exact .refl _ m
  split
  · exact .refl _ m
  rename_i hswapped
  dsimp only
  split
  · exact .refl _ m
  have hl : (m.space a).live := by simp_all
  have hn := ht.nameless_of_absent
    (isPrivate_of_isSwapped (by simpa using hswapped))
  rcases ha : pmmAlloc m with ⟨m', f⟩
  rw [ha] at halloc hnone hlt
  cases f with
  | zero => exact halloc
  | succ f =>
    simp only
    split
    · exact halloc.trans (pmmFree_tells _ m' (f + 1))
    have hf : f + 1 < 2 ^ 40 := (hlt (Nat.succ_ne_zero f)).trans_le ht.highest
    -- the slot is freed after the entry is written, which makes no difference
    rw [swapSlotFree_setPte]
    set read : Machine := { m' with
      mem := Function.update m'.mem (f + 1) (m'.pagefile (swapPteSlot (m.pte a v))) }
    have hread : Tells (fun _ => False) m' read := .quiet rfl rfl rfl
    have hslot : Tells (fun _ => False) read
        (swapSlotFree read (swapPteSlot (m.pte a v))) :=
      .of_same (swapSlotFree_same _ _) (swapSlotFree_rmap _ _)
    have hall := (hnone.trans hread).trans hslot
    exact (hall.mono fun _ h => h.elim).trans (.record (hall.live a hl)
      (hall.nameless hn id) (isPrivate_pteMake (by simp +decide [has_and isFlag_shared]))
        (pteFrame_pteMake hf (perms_addr _)) rfl)

theorem vmmFaultAnon_tells (hm : Sane m) (ht : Truthful m) (a va : ℕ) :
    Tells (fun p => p = (a, va / 4096)) m (vmmFaultAnon m a va).1 := by
  have halloc := pmmAlloc_tells (fun p => p = (a, va / 4096)) m
  have hnone := pmmAlloc_tells (fun _ => False) m
  have hlt := pmmAlloc_lt m
  rw [vmmFaultAnon]
  split
  · exact .refl _ m
  rename_i hlive
  split
  · exact .refl _ m
  cases hx : vmmAreaFind m a (va / 4096 * 4096) with
  | none => exact .refl _ m
  | some x =>
    dsimp only
    split
    · exact .refl _ m
    rename_i habsent
    split
    · exact .refl _ m
    obtain ⟨hmem, hlen⟩ := vmmAreaFind_mem hx
    have hplain := (hm.areas a x hmem hlen).plain
    have hl : (m.space a).live := by simpa using hlive
    have hn := ht.nameless_of_absent (a := a) (v := va / 4096) (by simp [isPrivate, habsent])
    rcases ha : pmmAlloc m with ⟨m', f⟩
    rw [ha] at halloc hnone hlt
    cases f with
    | zero => exact halloc
    | succ f =>
      have hf : f + 1 < 2 ^ 40 := (hlt (Nat.succ_ne_zero f)).trans_le ht.highest
      simp only
      set clean : Machine := { m' with mem := Function.update m'.mem (f + 1) zeroPage }
      have hclean : Tells (fun _ => False) m' clean := .quiet rfl rfl rfl
      have hall := hnone.trans hclean
      have hmap := vmmMap_tells (S := fun p => p = (a, va / 4096)) (hall.live a hl)
        (hall.nameless hn id) fun _ => ⟨hf, hplain.addr, rfl⟩
      have hdone := (hall.mono fun _ h => h.elim).trans hmap
      rcases hr : vmmMap clean a (va / 4096) (f + 1) x.pteFlags with ⟨m2, ok⟩
      rw [hr] at hdone
      cases ok with
      | true => exact hdone
      | false => exact hdone.trans (pmmFree_tells _ m2 (f + 1))

/-! ## Reservations -/

section Reservations

variable {S : ℕ × ℕ → Prop}

theorem vmmAreaTable_tells (m : Machine) (a : ℕ) : Tells S m (vmmAreaTable m a).1 :=
  vmmAreaTable_rule (.refl S m) (pmmAlloc_tells S m) fun _ h _ hl hpt => h.trans (.setSpace hl hpt)

theorem vmmAreaAdd_tells (m : Machine) (a : ℕ) (x : Area) : Tells S m (vmmAreaAdd m a x).1 :=
  vmmAreaAdd_rule (R := Tells S m) (P := False) (fun n h => h.trans (vmmAreaTable_tells n a))
    (fun _ _ _ h _ => h.trans (.setSpace rfl rfl)) (.refl S m) False.elim

theorem vmmAreaRemove_tells (m : Machine) (a base len : ℕ) :
    Tells S m (vmmAreaRemove m a base len).1 :=
  vmmAreaRemove_rule (R := Tells S m) (P := False) (fun n h => h.trans (vmmAreaTable_tells n a))
    (fun _ _ _ h _ => h.trans (.setSpace rfl rfl)) False.elim (.refl S m) base len

end Reservations

/-! ## Ranges -/

section Ranges

variable {S : ℕ × ℕ → Prop}

theorem vmmUnmapPage_tells (m : Machine) (a v : ℕ) : Tells S m (vmmUnmapPage m a v) := by
  rw [vmmUnmapPage]
  split
  · exact .refl S m
  split
  · split
    · rename_i hshared
      refine .setPte fun hp => ?_
      simp [(isPrivate_iff.mp hp).2] at hshared
    · rw [← pmmFree_setPte]
      exact (Tells.replace a v 0).trans (pmmFree_tells S _ _)
  rename_i habsent
  have hdiscard : Tells S m (swapDiscardPte m (m.pte a v)) :=
    .of_same (swapDiscardPte_same m _) (swapDiscardPte_rmap m _)
  refine hdiscard.trans (.setPte fun hp => ?_)
  rw [(swapDiscardPte_same m _).pte] at hp
  exact absurd (isPrivate_iff.mp hp).1 habsent

theorem vmmUnmapRange_tells (m : Machine) (a base len : ℕ) :
    Tells S m (vmmUnmapRange m a base len) := by
  rw [vmmUnmapRange]
  split
  · exact .refl S m
  · exact List.foldlRecOn _ _ (.refl S m) fun n h v _ => h.trans (vmmUnmapPage_tells n a v)

theorem vmmProtectPage_tells (m : Machine) (a v : ℕ) (hf : PlainFlags flags) :
    Tells S m (vmmProtectPage m a v flags) := by
  rw [vmmProtectPage]
  split
  · rename_i hp
    refine .setPte fun hpriv => ⟨?_, pteFrame_protect _ _ hf⟩
    rwa [isPrivate_protect hf hp]
  · exact .refl S m

theorem vmmProtectRange_tells (m : Machine) (a base len : ℕ) (hf : PlainFlags flags) :
    Tells S m (vmmProtectRange m a base len flags) := by
  have hpages : Tells S m ((rangePages base len).foldl (fun m v => vmmProtectPage m a v flags) m) :=
    List.foldlRecOn _ _ (.refl S m) fun n h v _ => h.trans (vmmProtectPage_tells n a v hf)
  rw [vmmProtectRange]
  split
  · exact .refl S m
  dsimp only
  split
  · exact hpages
  · exact hpages.trans (.setSpace rfl rfl)

end Ranges

variable {S : ℕ × ℕ → Prop} {dst src : ℕ}

/-! ## Fork -/

theorem vmmCreate_tells (hn : ∀ v, Nameless m a v) : Tells S m (vmmCreate m a).1 := by
  have halloc := pmmAlloc_tells S m
  have hn' := fun v => (pmmAlloc_tells (fun _ => False) m).nameless (hn v) id
  rw [vmmCreate]
  rcases ha : pmmAlloc m with ⟨m', f⟩
  rw [ha] at halloc hn'
  cases f with
  | zero => exact halloc
  | succ f => exact halloc.trans (.setSpace_nameless hn' fun _ => rfl)

theorem forkStart_tells (hn : ∀ v, Nameless m dst v) (src : ℕ) :
    Tells S m (forkStart m dst src).1 := by
  have hcreate := vmmCreate_tells (S := S) hn
  rw [forkStart]
  rcases hr : vmmCreate m dst with ⟨m1, ok⟩
  rw [hr] at hcreate
  cases ok with
  | false => exact hcreate
  | true =>
    have htune : Tells S m1 (m1.setSpace dst (forkBreaks m1 dst src)) := .setSpace rfl rfl
    exact vmmForkAreas_rule (hcreate.trans htune) ((hcreate.trans htune).trans (pmmAlloc_tells S _))
      src fun _ h _ hl hpt => h.trans (.setSpace hl hpt)

theorem forkFetch_tells (ht : Truthful m) (src v : ℕ) :
    Tells (fun p => p.1 = src) m (forkFetch m src v).1 := by
  rw [forkFetch]
  split
  · exact .refl _ m
  split
  · exact (swapInPage_tells ht src v).mono fun p hp => by rw [hp]
  · exact .refl _ m

theorem forkCount_tells (m : Machine) (src v : ℕ) : Tells S m (forkCount m src v) := by
  have hmark : Tells S m (forkMark m src v) := by
    rw [forkMark]
    split
    · refine .setPte fun hp => ⟨?_, ?_⟩
      · rwa [isPrivate_or (by decide), isPrivate_clear (by decide)]
      · rw [pteFrame_or (by decide), pteFrame_and (by decide)]
    · exact .refl S m
  rw [forkCount]
  split
  · exact hmark
  · exact hmark.trans (.of_same (pmmRefInc_same _ _) (pmmRefInc_rmap _ _))

theorem vmmForkPage_tells (ht : Truthful m) (hne : dst ≠ src) (hn : ∀ v, Nameless m dst v) (v : ℕ) :
    Tells (fun p => p.1 = src) m (vmmForkPage m dst src v).1 := by
  have hfetch := forkFetch_tells ht src v
  rcases heq : vmmForkPage m dst src v with ⟨m', ok⟩
  rcases vmmForkPage_cases heq with ⟨hf, -⟩ | ⟨hf, -⟩ | ⟨m1, hf, -, hdone⟩
  · rwa [hf] at hfetch
  · rwa [hf] at hfetch
  rw [hf] at hfetch
  have hwalk := (hfetch.trans (forkCount_tells m1 src v)).trans
    (vmmWalk_tells _ (forkCount m1 src v) dst v)
  rcases hdone with ⟨hw, -⟩ | ⟨m2, hw, rfl, -⟩
  · rwa [hw] at hwalk
  · rw [hw] at hwalk
    exact hwalk.trans (.setPte_nameless _ (hwalk.nameless (hn v) hne))

theorem vmmForkPages_tells (hne : dst ≠ src) (vs : List ℕ) (ht : Truthful m)
    (hn : ∀ v, Nameless m dst v) :
    Tells (fun p => p.1 = src) m (vmmForkPages dst src vs m).1 := by
  induction vs generalizing m with
  | nil => exact .refl _ m
  | cons v vs ih =>
    have hpage := vmmForkPage_tells ht hne hn v
    rw [vmmForkPages]
    rcases hf : vmmForkPage m dst src v with ⟨m', ok⟩
    rw [hf] at hpage
    cases ok with
    | false => exact hpage
    | true =>
      exact hpage.trans (ih (hpage.truthful ht) fun w => hpage.nameless (hn w) hne)

theorem vmmFork_tells (ht : Truthful m) (hd : (m.space dst).live = false) (hne : dst ≠ src) :
    Tells (fun p => p.1 = src) m (vmmFork m dst src).1 := by
  have hn := ht.nameless_of_dead hd
  have hstart := forkStart_tells (S := fun _ => False) hn src
  rw [vmmFork_eq]
  rcases hf : forkStart m dst src with ⟨m', ok⟩
  rw [hf] at hstart
  cases ok with
  | false => exact hstart.mono fun _ h => h.elim
  | true =>
    exact (hstart.mono fun _ h => h.elim).trans (vmmForkPages_tells hne _
      (hstart.truthful ht) fun v => hstart.nameless (hn v) id)

/-! ## Copy on write -/

/-- A write would give page `va` of space `a` a frame of its own, while the one it leaves is still
named after it. -/
def cowMoves (m : Machine) (a va : ℕ) : Bool :=
  has (m.pte a (va / 4096)) ptePresent && has (m.pte a (va / 4096)) pteCow &&
    decide (1 < pmmRefCount m (pteFrame (m.pte a (va / 4096)))) &&
    decide (names m (pteFrame (m.pte a (va / 4096))) = some (a, va / 4096))

theorem vmmResolveCow_tells (ht : Truthful m) {va : ℕ} (hc : cowMoves m a va = false) :
    Tells S m (vmmResolveCow m a va).1 := by
  rw [vmmResolveCow]
  dsimp only
  split
  · exact .refl S m
  split
  · exact .refl S m
  rename_i hcow
  obtain ⟨hp, hcow⟩ : has (m.pte a (va / 4096)) ptePresent = true ∧
      has (m.pte a (va / 4096)) pteCow = true := by simpa using hcow
  split
  · refine .setPte fun hpriv => ⟨?_, ?_⟩
    · rwa [isPrivate_or (by decide), isPrivate_clear (by decide)]
    · rw [pteFrame_or (by decide), pteFrame_and (by decide)]
  rename_i hmany
  have hn : Nameless m a (va / 4096) := by
    intro f hf
    obtain ⟨-, rfl⟩ := ht.page f _ _ hf
    have hmoves : cowMoves m a va := by
      simp [cowMoves, hp, hcow, hf, Nat.lt_of_not_le hmany]
    simp [hc] at hmoves
  have halloc := pmmAlloc_tells S m
  have hn' := (pmmAlloc_tells (fun _ => False) m).nameless hn id
  rcases ha : pmmAlloc m with ⟨m', f⟩
  rw [ha] at halloc hn'
  cases f with
  | zero => exact halloc
  | succ f =>
    set old := pteFrame (m.pte a (va / 4096))
    have hcopy : Tells S m' { m' with
        mem := Function.update m'.mem (f + 1) (m'.mem old) } := .quiet rfl rfl rfl
    exact ((halloc.trans hcopy).trans (.setPte_nameless _ hn')).trans (pmmFree_tells S _ old)

/-! ## Teardown -/

/-- Nothing but the space `a` and the frames is different. -/
structure Elsewhere (a : ℕ) (m m' : Machine) : Prop where
  rmap : m'.rmap = m.rmap
  highest : m'.highest = m.highest
  space : ∀ b, b ≠ a → m'.space b = m.space b

namespace Elsewhere

variable {m' m'' : Machine}

theorem refl (a : ℕ) (m : Machine) : Elsewhere a m m := ⟨rfl, rfl, fun _ _ => rfl⟩

theorem trans (h : Elsewhere a m m') (h' : Elsewhere a m' m'') : Elsewhere a m m'' :=
  ⟨h'.rmap.trans h.rmap, h'.highest.trans h.highest,
    fun b hb => (h'.space b hb).trans (h.space b hb)⟩

theorem of_same (h : SameContents m m') (hrmap : m'.rmap = m.rmap) : Elsewhere a m m' :=
  ⟨hrmap, h.highest, fun b _ => h.space b⟩

theorem setSpace (a : ℕ) (m : Machine) (s : AddrSpace) : Elsewhere a m (m.setSpace a s) :=
  ⟨rfl, rfl, fun b hb => by rw [space_setSpace, if_neg hb]⟩

theorem truthful (h : Elsewhere a m m') (ht : Truthful m) (hn : ∀ v, Nameless m a v) :
    Truthful m' := by
  have hnames : ∀ f, names m' f = names m f := fun f => by rw [names, names, h.rmap]
  have hspace : ∀ f b v, names m' f = some (b, v) → m'.space b = m.space b := by
    intro f b v hf
    refine h.space b ?_
    rintro rfl
    exact hn v f (hnames f ▸ hf)
  refine ⟨h.highest ▸ ht.highest, fun f p hf => ?_, fun f b v hf => ?_, fun f b v hf => ?_⟩
  · rw [h.highest]
    exact ht.inRange f p (hnames f ▸ hf)
  · rw [hspace f b v hf]
    exact ht.live f b v (hnames f ▸ hf)
  · rw [Machine.pte, hspace f b v hf]
    exact ht.page f b v (hnames f ▸ hf)

end Elsewhere

/-- A space is given up by freeing frames and slots and changing the space itself. -/
theorem vmmDestroy_rule {R : Machine → Machine → Prop}
    (hrefl : ∀ m, R m m) (htrans : ∀ {m m' m''}, R m m' → R m' m'' → R m m'')
    (hsame : ∀ {m m'}, SameContents m m' → m'.rmap = m.rmap → R m m')
    (hset : ∀ m s, R m (m.setSpace a s)) (m : Machine) : R m (vmmDestroy m a) := by
  have hfree : ∀ (m : Machine) (f : ℕ), R m (pmmFree m f) := fun m f =>
    hsame (pmmFree_same m f) (pmmFree_rmap m f)
  have hpage : ∀ m v, R m (vmmDropPage m a v) := by
    intro m v
    have hentry : R m (if !has (m.pte a v) ptePresent then swapDiscardPte m (m.pte a v)
        else if has (m.pte a v) pteShared then m else pmmFree m (pteFrame (m.pte a v))) := by
      split
      · exact hsame (swapDiscardPte_same m _) (swapDiscardPte_rmap m _)
      split
      · exact hrefl m
      · exact hfree m _
    exact htrans hentry (hset _ _)
  have htable : ∀ m k, R m (vmmDropTable m a k) := by
    intro m k
    rw [vmmDropTable]
    split
    · exact hrefl m
    · exact htrans (hfree m _) (hset _ _)
  rw [vmmDestroy]
  split
  · exact hrefl m
  have hpages : R m ((m.space a).pt.keys.foldl (fun m v => vmmDropPage m a v) m) :=
    List.foldlRecOn _ _ (hrefl m) fun n h v _ => htrans h (hpage n v)
  generalize (m.space a).pt.keys.foldl (fun m v => vmmDropPage m a v) m = m1 at hpages
  have htables : R m ((m1.space a).tables.keys.foldl (fun m k => vmmDropTable m a k) m1) :=
    List.foldlRecOn _ _ hpages fun n h k _ => htrans h (htable n k)
  dsimp only
  generalize (m1.space a).tables.keys.foldl (fun m k => vmmDropTable m a k) m1 = m2 at htables
  have hroot := htrans (htrans htables (hfree m2 (m2.space a).pml4)) (hset _
    { (pmmFree m2 (m2.space a).pml4).space a with pml4 := 0, live := false })
  generalize (pmmFree m2 (m2.space a).pml4).setSpace a
    { (pmmFree m2 (m2.space a).pml4).space a with pml4 := 0, live := false } = m3 at hroot
  split
  · exact hroot
  · exact htrans (htrans hroot (hfree m3 _)) (hset _ _)

theorem Truthful.destroy (ht : Truthful m) (hn : ∀ v, Nameless m a v) : Truthful (vmmDestroy m a) :=
  (vmmDestroy_rule (R := Elsewhere a) (.refl a) .trans .of_same (.setSpace a) m).truthful ht hn

/-! ## Operations -/

/-- No frame is named after a page of the space. -/
def unnamed (m : Machine) (a : ℕ) : Bool :=
  (List.range m.highest).all fun f => (names m f).all fun p => p.1 ≠ a

theorem Truthful.nameless_of_unnamed (h : Truthful m) (hu : unnamed m a) (v : ℕ) :
    Nameless m a v := by
  intro f hf
  have hall := List.all_eq_true.mp hu f (List.mem_range.mpr (h.inRange f _ hf))
  rw [hf] at hall
  simp at hall

/-- The operation destroys no space with a named page, and moves no page that is named. -/
def Op.forgets (m : Machine) : Op → Bool
  | .exit a => unnamed m a
  | .resolveCow a va => !cowMoves m a va
  | .fault a va write _ => !(write && cowMoves m a va)
  | _ => true

section Rules

variable {R : Machine → Prop} (h : R m)
  (hcut : ∀ base len, R (vmmAreaRemove (vmmUnmapRange m a base len) a base len).1)
  (hnext : ∀ n next, R n → R (n.setSpace a { n.space a with mmapNext := next }))

include h hcut hnext

/-- `mmap` makes room where it is told to or goes on after the last mapping, and adds an area. -/
theorem sysMmap_rule (hadd : ∀ n x, R n → R (vmmAreaAdd n a x).1)
    (hint length prot flags : UInt64) : R (sysMmap m a hint length prot flags).1 := by
  have hadded : ∀ {n n' : Machine} {x : Area} {ok : Bool}, R n → vmmAreaAdd n a x = (n', ok) →
      R n' := by
    intro n n' x ok hn hr
    have hstep := hadd n x hn
    rwa [hr] at hstep
  rw [sysMmap]
  dsimp only
  split
  · exact h
  split
  · exact h
  split
  · exact h
  split
  · exact h
  split
  · exact h
  split
  · split
    · exact h
    split
    all_goals
      rename_i hr
      exact hadded (hcut _ _) hr
  split
  · exact h
  split
  all_goals
    rename_i hr
    exact hadded (hnext m _ h) hr

theorem sysMunmap_rule (addr length : UInt64) : R (sysMunmap m a addr length).1 := by
  rw [sysMunmap]
  rcases callRange addr length with ⟨base, len⟩
  dsimp only
  split
  · exact h
  split
  · exact h
  split
  · exact h
  split
  · exact h
  have hrange := hcut base len
  split
  · rename_i heq
    rwa [heq] at hrange
  rename_i heq
  rw [heq] at hrange
  split
  · exact hnext _ _ hrange
  · exact hrange

end Rules

theorem cut_tells (m : Machine) (a base len : ℕ) :
    Tells S m (vmmAreaRemove (vmmUnmapRange m a base len) a base len).1 :=
  (vmmUnmapRange_tells m a base len).trans (vmmAreaRemove_tells _ a base len)

theorem sysMmap_tells (m : Machine) (a : ℕ) (hint length prot flags : UInt64) :
    Tells S m (sysMmap m a hint length prot flags).1 :=
  sysMmap_rule (R := Tells S m) (.refl S m) (cut_tells m a)
  (fun _ _ h => h.trans (.setSpace rfl rfl))
    (fun n x h => h.trans (vmmAreaAdd_tells n a x)) hint length prot flags

theorem sysMunmap_tells (m : Machine) (a : ℕ) (addr length : UInt64) :
    Tells S m (sysMunmap m a addr length).1 :=
  sysMunmap_rule (R := Tells S m) (.refl S m) (cut_tells m a)
    (fun _ _ h => h.trans (.setSpace rfl rfl)) addr length

theorem sysMprotect_tells (m : Machine) (a : ℕ) (addr length prot : UInt64) :
    Tells S m (sysMprotect m a addr length prot).1 := by
  rw [sysMprotect]
  rcases callRange addr length with ⟨base, len⟩
  dsimp only
  split
  · exact .refl S m
  split
  · exact .refl S m
  split
  · exact .refl S m
  split
  · exact .refl S m
  rename_i hprot
  split
  · exact .refl S m
  · have hgrant : GrantFlags (protFlags prot) := ⟨prot, by simpa using hprot, rfl⟩
    exact vmmProtectRange_tells m a base len hgrant.plain

theorem exceptionHandle_truthful (hm : Sane m) (ht : Truthful m)
    {va : ℕ} {write : Bool} (user : Bool) (hc : (write && cowMoves m a va) = false) :
    Truthful (exceptionHandle m a va write user).1 := by
  rw [exceptionHandle]
  split
  · split
    · rename_i hwrite
      rw [hwrite] at hc
      exact (vmmResolveCow_tells (S := fun _ => False) ht hc).truthful ht
    · exact ht
  have hswap : Truthful (swapHandleFault m a va).1 ∧ Sane (swapHandleFault m a va).1 := by
    rw [swapHandleFault]
    split
    · exact ⟨ht, hm⟩
    split
    · exact ⟨ht, hm⟩
    · exact ⟨(swapInPage_tells ht a _).truthful ht, (swapInPage_does Held.none hm a _).sane hm⟩
  split
  · rename_i heq
    rw [heq] at hswap
    exact hswap.1
  rename_i heq
  rw [heq] at hswap
  split
  · exact (vmmFaultAnon_tells hswap.2 hswap.1 a va).truthful hswap.1
  · exact hswap.1

theorem sysFork_truthful (ht : Truthful m) (hd : (m.space dst).live = false) (src : ℕ)
    (accepted : Bool) :
    Truthful (sysFork m dst src accepted).1 := by
  rw [sysFork]
  split
  · exact ht
  rename_i hlive
  have hne : dst ≠ src := by
    rintro rfl
    simp [hd] at hlive
  have hfork := vmmFork_tells ht hd hne
  have hgone : Truthful (vmmDestroy (vmmFork m dst src).1 dst) :=
    (hfork.truthful ht).destroy fun v => hfork.nameless (ht.nameless_of_dead hd v) hne
  rcases hr : vmmFork m dst src with ⟨m', ok⟩
  rw [hr] at hfork hgone
  cases ok with
  | false => exact hgone
  | true =>
    cases accepted with
    | false => exact hgone
    | true => exact hfork.truthful ht

theorem step_truthful (hm : Sane m) (ht : Truthful m) {op : Op} (hop : op.forgets m) :
    Truthful (step m op).1 := by
  have hnone : ∀ {m' : Machine}, Tells (fun _ => False) m m' → Truthful m' := fun h => h.truthful ht
  cases op with
  | mmap a hint length prot flags => exact hnone (sysMmap_tells m a hint length prot flags)
  | munmap a addr length => exact hnone (sysMunmap_tells m a addr length)
  | mprotect a addr length prot => exact hnone (sysMprotect_tells m a addr length prot)
  | fork dst src accepted =>
    rw [step]
    split
    · exact ht
    · rename_i hd
      exact sysFork_truthful ht (by simpa using hd) src accepted
  | exit a => exact ht.destroy (ht.nameless_of_unnamed hop)
  | fault a va write user =>
    exact exceptionHandle_truthful hm ht user
      (by simpa only [Op.forgets, Bool.not_eq_true'] using hop)
  | load a va =>
    rw [step, userLoad]
    split
    · refine hnone (.setPte fun hp => ⟨?_, pteFrame_or (by decide)⟩)
      rwa [isPrivate_or (by decide)]
    · exact ht
  | store a va byte =>
    rw [step, userStore]
    split
    · have hset : Tells (fun _ => False) m (m.setPte a (va / 4096)
          (m.pte a (va / 4096) ||| pteAccessed ||| pteDirty)) := by
        refine .setPte fun hp => ⟨?_, pteFrame_stored _⟩
        rwa [isPrivate_stored]
      exact hnone (hset.trans (.quiet rfl rfl rfl))
    · exact ht
  | vmmFork dst src =>
    rw [step]
    split
    · exact ht
    rename_i hspaces
    obtain ⟨hd, hs⟩ : (m.space dst).live = false ∧ (m.space src).live = true := by
      simpa using hspaces
    refine (vmmFork_tells ht hd ?_).truthful ht
    rintro rfl
    simp [hd] at hs
  | resolveCow a va =>
    exact hnone (vmmResolveCow_tells ht (by simpa [Op.forgets] using hop))
  | unmapRange a base len => exact hnone (vmmUnmapRange_tells m a base len)
  | faultAnon a va => exact (vmmFaultAnon_tells hm ht a va).truthful ht
  | swapOut => exact hnone ((swapOutOne_rule pages_moves m).tells _)
  | swapIn a va => exact (swapInPage_tells ht a (va / 4096)).truthful ht
  | device fails => exact hnone (.quiet rfl rfl rfl)

end Vextro.Paging
