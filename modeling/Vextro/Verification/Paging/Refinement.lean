import Vextro.Verification.Paging.Reclaim

/-! The operations as sequences of actions. -/

namespace Vextro.Paging

open Function List

variable {e : Event} {m : Machine} {a v : ℕ} {x : Area} {areas : List Area}

theorem Event.isPlain_of_isWalk (h : e.isWalk) : e.isPlain := by
  cases e <;> simp_all [Event.isWalk, Event.isReclaim, Event.isPlain]

theorem Does.walk {g g' : Held} {m' : Machine} (h : Does Event.isReclaim g m g' m') :
    Does Event.isWalk g m g' m' :=
  h.mono fun _ => Event.isWalk_of_isReclaim

theorem Does.plain {g g' : Held} {m' : Machine} (h : Does Event.isWalk g m g' m') :
    Does Event.isPlain g m g' m' :=
  h.mono fun _ => Event.isPlain_of_isWalk

theorem not_candidate_of_not_present {e : Pte} (h : has e ptePresent = false) :
    ¬ IsCandidate e := by
  rintro ⟨hp, _⟩
  rw [h] at hp
  contradiction

theorem not_candidate_of_cow {e : Pte} (h : has e pteCow) : ¬ IsCandidate e := by
  rintro ⟨_, _, _, hc⟩
  rw [h] at hc
  contradiction

theorem not_candidate_of_shared {e : Pte} (h : has e pteShared) : ¬ IsCandidate e := by
  rintro ⟨_, _, hs, _⟩
  rw [h] at hs
  contradiction

/-! ## Paging in -/

/-- Only the page asked for comes in. -/
def Event.isFetch (a v : ℕ) : Event → Prop
  | .pageIn b w _ _ => b = a ∧ w = v
  | e => e.isReclaim

theorem Event.isFetch_of_isReclaim (h : e.isReclaim) : e.isFetch a v := by
  cases e <;> simp_all [Event.isFetch, Event.isReclaim]

theorem Event.isPlain_of_isFetch (h : e.isFetch a v) : e.isPlain := by
  cases e <;> simp_all [Event.isFetch, Event.isReclaim, Event.isPlain]

/-- The tail of `swap_in_page`: page `v` of `a` read into the frame `f`. -/
def fetched (m : Machine) (a v f : ℕ) : Machine :=
  let slot := swapPteSlot (m.pte a v)
  swapRmapRecord (swapSlotFree (Machine.setPte { m with mem := update m.mem f (m.pagefile slot) }
    a v (pteMake f (m.pte a v &&& swapPermMask))) slot) f a v

theorem fetched_spaces (m : Machine) (a v f : ℕ) :
    (fetched m a v f).spaces = (m.setPte a v (pteMake f (m.pte a v &&& swapPermMask))).spaces := by
  rw [fetched, swapRmapRecord, (swapRmapSet_same _ _ _).spaces, (swapSlotFree_same _ _).spaces]
  rfl

theorem fetched_does (g : Held) {f : ℕ} (hl : (m.space a).live)
    (hs : swapPteIsSwapped (m.pte a v)) (hlt : swapPteSlot (m.pte a v) < m.slotCount) :
    Does (Event.isFetch a v) { g with fresh := raise g.fresh f } m g (fetched m a v f) := by
  rw [fetched]
  set slot := swapPteSlot (m.pte a v) with hslot
  set filled : Machine := { m with mem := update m.mem f (m.pagefile slot) }
  have hfill : Does (Event.isFetch a v) { g with fresh := raise g.fresh f } m
      { g with fresh := raise g.fresh f } filled :=
    Does.act (.fill f (m.pagefile slot) (raise_pos _ _)) trivial
  have hmem : filled.mem f = filled.pagefile (swapPteSlot (filled.pte a v)) :=
    update_self f _ m.mem
  have hin := Act.pageIn (g := { g with fresh := raise g.fresh f }) (m := filled) a v f
    (raise_pos _ _) hl hs hlt hmem
  rw [lower_raise] at hin
  have hrecord := (swapRmapSet_does g ((swapSlotFree filled slot).setPte a v
    (pteMake f (m.pte a v &&& swapPermMask))) f (some (a, v))).mono
    fun _ => Event.isFetch_of_isReclaim (a := a) (v := v)
  rw [swapSlotFree_setPte]
  exact (hfill.trans (Does.act hin ⟨rfl, rfl⟩)).trans hrecord

/-- The ways through `swap_in_page`. -/
theorem swapInPage_cases {ok : Bool} (h : swapInPage m a v = (m', ok)) :
    ok = false ∧ (m' = m ∨ m' = pmmFree (pmmAlloc m).1 (pmmAlloc m).2) ∨
      ok = true ∧ (m.space a).live ∧ swapPteIsSwapped (m.pte a v) ∧
        swapPteSlot (m.pte a v) < m.slotCount ∧ (pmmAlloc m).2 ≠ 0 ∧
        m' = fetched (pmmAlloc m).1 a v (pmmAlloc m).2 := by
  have hmoves := pmmAlloc_moves m
  rw [swapInPage] at h
  split at h
  · cases h
    exact .inl ⟨rfl, .inl rfl⟩
  rename_i hready
  split at h
  · cases h
    exact .inl ⟨rfl, .inl rfl⟩
  rename_i hs
  rw [Bool.not_eq_true', Bool.not_eq_false] at hs
  dsimp only at h
  split at h
  · cases h
    exact .inl ⟨rfl, .inl rfl⟩
  rename_i hlt
  have hkeep := hmoves.steady.keeps a _ (not_candidate_of_not_present (present_of_isSwapped hs))
  rcases ha : pmmAlloc m with ⟨n, f⟩
  rw [ha] at h hkeep
  cases f with
  | zero =>
    cases h
    exact .inl ⟨rfl, .inr rfl⟩
  | succ f =>
    simp only at h
    split at h
    · cases h
      exact .inl ⟨rfl, .inr rfl⟩
    cases h
    refine .inr ⟨rfl, by simp_all, hs, by omega, by simp, ?_⟩
    rw [← hkeep]
    rfl

theorem swapInPage_does (g : Held) (hm : Sane m) (a v : ℕ) :
    Does (Event.isFetch a v) g m g (swapInPage m a v).1 := by
  have halloc := (pmmAlloc_does g hm).mono fun _ => Event.isFetch_of_isReclaim (a := a) (v := v)
  have hsteady := (pmmAlloc_does g hm).walk.steady
  have hfree : Does (Event.isFetch a v) g m g (pmmFree (pmmAlloc m).1 (pmmAlloc m).2) := by
    by_cases hf : (pmmAlloc m).2 = 0
    · rw [hf, g.got_zero] at halloc
      rwa [hf, pmmFree, if_pos rfl]
    · rw [g.got_of_ne hf] at halloc
      exact halloc.trans ((giveFresh_does g _ _).mono fun _ => Event.isFetch_of_isReclaim)
  rcases h : swapInPage m a v with ⟨m', ok⟩
  rcases swapInPage_cases h with ⟨-, rfl | rfl⟩ | ⟨-, hl, hs, hlt, hf, rfl⟩
  · exact .refl ..
  · exact hfree
  · have hkeep := (pmmAlloc_moves m).steady.keeps a _
      (not_candidate_of_not_present (present_of_isSwapped hs))
    rw [g.got_of_ne hf] at halloc
    refine halloc.trans (fetched_does g ?_ ?_ ?_)
    · rwa [hsteady.live]
    · rwa [hkeep]
    · rwa [hkeep, hsteady.slotCount]

/-! ## Mapping -/

theorem vmmWalkLevel_does (g : Held) (hm : Sane m) (hl : (m.space a).live) (v shift : ℕ) :
    Does Event.isWalk g m g (vmmWalkLevel m a v shift).1 := by
  have halloc := pmmAlloc_does g hm
  unfold vmmWalkLevel
  split
  · exact Does.refl _ g m
  next hz =>
  have hz' : (m.space a).tables.get (tableKey shift v) = 0 := not_not.mp hz
  rcases ha : pmmAlloc m with ⟨m', f⟩
  rw [ha] at halloc
  cases f with
  | zero =>
    exact halloc.walk
  | succ f =>
    have hlink := Act.linkTable (g := { g with fresh := raise g.fresh (f + 1) }) a
      (tableKey shift v) (f + 1) (raise_pos _ _) (Nat.succ_ne_zero f)
      (by rw [halloc.walk.steady.live]; exact hl)
      (by rw [halloc.tables]; exact hz')
    rw [lower_raise] at hlink
    exact halloc.walk.trans (Does.act hlink trivial)

theorem vmmWalk_does (g : Held) (hm : Sane m) (hl : (m.space a).live) (v : ℕ) :
    Does Event.isWalk g m g (vmmWalk m a v).1 := by
  refine vmmWalk_rule (fun n shift h => h.trans (vmmWalkLevel_does g (h.sane hm) ?_ v shift))
    (.refl _ g m)
  rwa [h.steady.live]

theorem vmmMap_does (g : Held) (hm : Sane m) {f : ℕ} (hl : (m.space a).live)
    (hx : x ∈ (m.space a).areas) (hlen : x.len ≠ 0) (hp : has (m.pte a v) ptePresent = false)
    (hs : swapPteIsSwapped (m.pte a v) = false) :
    Does Event.isPlain { g with fresh := raise g.fresh f } m
      (if (vmmMap m a v f x.pteFlags).2 then g else { g with fresh := raise g.fresh f })
      (vmmMap m a v f x.pteFlags).1 := by
  have hwalk := vmmWalk_does { g with fresh := raise g.fresh f } hm hl v
  unfold vmmMap
  rcases hr : vmmWalk m a v with ⟨m', ok⟩
  rw [hr] at hwalk
  cases ok with
  | false => exact hwalk.plain
  | true =>
    have hkeep := hwalk.steady.keeps a v (not_candidate_of_not_present hp)
    have hmap := Act.map (g := { g with fresh := raise g.fresh f }) a v f x
      (raise_pos _ _) (by rw [hwalk.steady.live]; exact hl)
      (by rw [hwalk.steady.areas]; exact hx) hlen (by rw [hkeep]; exact hp)
      (by rw [hkeep]; exact hs)
    rw [lower_raise] at hmap
    have hmapped := hwalk.plain.trans (Does.act hmap trivial)
    simp only
    split
    · exact hmapped.trans ((swapRmapSet_does g _ f (some (a, v))).walk.plain)
    · exact hmapped.trans ((swapRmapSet_does g _ f none).walk.plain)

theorem vmmAreaFind_mem {va : ℕ} (h : vmmAreaFind m a va = some x) :
    x ∈ (m.space a).areas ∧ x.len ≠ 0 := by
  unfold vmmAreaFind at h
  split at h
  · contradiction
  have hcovers := find?_some h
  unfold Area.covers at hcovers
  simp only [Bool.and_eq_true, decide_eq_true_eq] at hcovers
  exact ⟨mem_of_find?_eq_some h, hcovers.1.1⟩

theorem vmmFaultAnon_does (g : Held) (hm : Sane m) (a va : ℕ) :
    Does Event.isPlain g m g (vmmFaultAnon m a va).1 := by
  have halloc := pmmAlloc_does g hm
  unfold vmmFaultAnon
  simp only
  split
  · exact Does.refl _ g m
  next hlive =>
  split
  · exact Does.refl _ g m
  cases hfind : vmmAreaFind m a (va / 4096 * 4096) with
  | none => exact Does.refl _ g m
  | some x =>
    obtain ⟨hx, hlen⟩ := vmmAreaFind_mem hfind
    simp only
    split
    · exact Does.refl _ g m
    next hp =>
    split
    · exact Does.refl _ g m
    next hs =>
    rcases ha : pmmAlloc m with ⟨m', f⟩
    rw [ha] at halloc
    cases f with
    | zero =>
      exact halloc.walk.plain
    | succ f =>
      have hsteady := halloc.walk.steady
      have hp' : has (m.pte a (va / 4096)) ptePresent = false := by
        simpa using hp
      have hkeep := hsteady.keeps a (va / 4096) (not_candidate_of_not_present hp')
      have hzero : Does Event.isPlain
          { g with fresh := raise g.fresh (f + 1) } m'
          { g with fresh := raise g.fresh (f + 1) }
          { m' with mem := update m'.mem (f + 1) zeroPage } :=
        Does.act (.fill (f + 1) zeroPage (raise_pos _ _)) trivial
      set zeroed : Machine := { m' with mem := update m'.mem (f + 1) zeroPage } with hzeroed
      have hstart := halloc.walk.plain.trans hzero
      have hmap := vmmMap_does g (f := f + 1)
        (hstart.sane hm)
        (show (m'.space a).live = true by rw [hsteady.live]; simpa using hlive)
        (show x ∈ (m'.space a).areas by rw [hsteady.areas]; exact hx) hlen
        (show has (m'.pte a (va / 4096)) ptePresent = false by rw [hkeep]; exact hp')
        (show swapPteIsSwapped (m'.pte a (va / 4096)) = false by
          rw [hkeep]; simpa using hs)
      simp only [← hzeroed]
      rcases hr : vmmMap zeroed a (va / 4096) (f + 1) x.pteFlags with ⟨m'', ok⟩
      rw [hr] at hmap
      cases ok with
      | true => exact hstart.trans hmap
      | false =>
        exact (hstart.trans hmap).trans
          (giveFresh_does g m'' (f + 1)).walk.plain

/-! ## Reservations -/

theorem vmmAreaTable_does (g : Held) (hm : Sane m) (hl : (m.space a).live) :
    Does Event.isPlain g m g (vmmAreaTable m a).1 ∧ ((vmmAreaTable m a).1.space a).live := by
  have halloc := pmmAlloc_does g hm
  unfold vmmAreaTable
  split
  · exact ⟨Does.refl _ g m, hl⟩
  next hz =>
  rcases ha : pmmAlloc m with ⟨m', f⟩
  rw [ha] at halloc
  have hl' : (m'.space a).live := by rw [halloc.walk.steady.live]; exact hl
  cases f with
  | zero =>
    exact ⟨halloc.walk.plain, hl'⟩
  | succ f =>
    have hlink := Act.linkVmas (g := { g with fresh := raise g.fresh (f + 1) }) a
      (f + 1) (raise_pos _ _) (Nat.succ_ne_zero f) hl'
      (by rw [halloc.walk.steady.vmas]; exact not_not.mp hz)
    rw [lower_raise] at hlink
    refine ⟨halloc.walk.plain.trans (Does.act hlink trivial), ?_⟩
    simpa using hl'

theorem areasFrom_set {i : ℕ} (hx : x.len ≠ 0 → GrantFlags x.pteFlags) :
    AreasFrom areas (areas.set i x) := by
  intro y hy hlen
  rcases mem_or_eq_of_mem_set hy with hy | rfl
  · exact Or.inr ⟨y, hy, hlen, rfl⟩
  · exact Or.inl (hx hlen)

theorem mem_of_getD_len {i : ℕ} (h : (areas.getD i freeArea).len ≠ 0) :
    areas.getD i freeArea ∈ areas := by
  by_cases hi : i < areas.length
  · rw [getD_eq_getElem _ _ hi]
    exact getElem_mem hi
  · rw [getD_eq_default _ _ (by omega)] at h
    exact absurd rfl h

section Rules

variable {R : Machine → Prop} {P : Prop}

/-- The table of a space costs a frame and a change of its bookkeeping. -/
theorem vmmAreaTable_rule (h : R m) (halloc : R (pmmAlloc m).1) (hset : ∀ n, R n →
      ∀ s : AddrSpace, s.live = (n.space a).live → s.pt = (n.space a).pt → R (n.setSpace a s)) :
    R (vmmAreaTable m a).1 := by
  rw [vmmAreaTable]
  split
  · exact h
  rcases ha : pmmAlloc m with ⟨m', f⟩
  rw [ha] at halloc
  cases f with
  | zero => exact halloc
  | succ f => exact hset m' halloc _ rfl rfl

-- the flags of the areas are looked at under `P` only, where the states met are sane
variable (htable : ∀ n, R n → R (vmmAreaTable n a).1) (hset : ∀ n areas count, R n →
  (P → AreasFrom (n.space a).areas areas) →
  R (n.setSpace a { n.space a with areas := areas, vmaCount := count }))

include htable hset

theorem vmmAreaAdd_rule (h : R m) (hx : P → x.len ≠ 0 → GrantFlags x.pteFlags) :
    R (vmmAreaAdd m a x).1 := by
  have htable := htable m h
  rw [vmmAreaAdd]
  rcases hr : vmmAreaTable m a with ⟨m', ok⟩
  rw [hr] at htable
  cases ok with
  | false => exact htable
  | true =>
    dsimp only
    split
    · exact htable
    · exact hset m' _ _ htable fun hP => areasFrom_set (hx hP)

theorem vmmAreaCut_rule (hm : P → Sane m) (h : R m) (base stop i : ℕ) :
    R (vmmAreaCut m a base stop i).1 := by
  rw [vmmAreaCut]
  split
  · exact h
  rename_i hlen
  have hgrant := fun hP => (hm hP).areas a _ (mem_of_getD_len hlen) hlen
  generalize (m.space a).areas.getD i freeArea = x at hgrant
  have hput : ∀ n, R n → ∀ base len count, R (n.setSpace a { n.space a with
      areas := (n.space a).areas.set i { x with base := base, len := len }, vmaCount := count }) :=
    fun n hn _ _ count => hset n _ count hn fun hP => areasFrom_set fun _ => hgrant hP
  split
  · exact h
  split
  · exact hput m h _ _ _
  split
  · exact hput m h _ _ _
  split
  · exact hput m h _ _ _
  have hadd := vmmAreaAdd_rule htable hset h
    (x := { x with base := stop, len := x.base + x.len - stop }) fun hP _ => hgrant hP
  rcases hr : vmmAreaAdd m a { x with base := stop, len := x.base + x.len - stop } with ⟨m', ok⟩
  rw [hr] at hadd
  cases ok with
  | false => exact hadd
  | true => exact hput m' hadd _ _ _

theorem vmmAreaRemove_rule (hsane : P → ∀ n, R n → Sane n) (h : R m) (base len : ℕ) :
    R (vmmAreaRemove m a base len).1 := by
  have hloop : ∀ n i m, R m → R (vmmAreaRemoveFrom a base (base + len) i n m).1 := by
    intro n
    induction n with
    | zero => exact fun _ _ h => h
    | succ n ih =>
      intro i m h
      have hcut := vmmAreaCut_rule htable hset (fun hP => hsane hP m h) h base (base + len) i
      rw [vmmAreaRemoveFrom]
      rcases hr : vmmAreaCut m a base (base + len) i with ⟨m', ok⟩
      rw [hr] at hcut
      cases ok with
      | false => exact hcut
      | true => exact ih (i + 1) m' hcut
  rw [vmmAreaRemove]
  split
  · exact h
  · exact hloop vmaMax 0 m h

end Rules

section Does

variable {g : Held} {n : Machine}

theorem areaTable_does (hm : Sane m) (h : Does Event.isPlain g m g n ∧ (n.space a).live) :
    Does Event.isPlain g m g (vmmAreaTable n a).1 ∧ ((vmmAreaTable n a).1.space a).live := by
  obtain ⟨htable, hl⟩ := vmmAreaTable_does g (h.1.sane hm) h.2
  exact ⟨h.1.trans htable, hl⟩

theorem setAreas_does {count : ℕ} (h : Does Event.isPlain g m g n ∧ (n.space a).live)
    (hfrom : True → AreasFrom (n.space a).areas areas) :
    let n' := n.setSpace a { n.space a with areas := areas, vmaCount := count }
    Does Event.isPlain g m g n' ∧ (n'.space a).live = true :=
  ⟨h.1.trans (Does.act (.setAreas a count areas (hfrom trivial)) trivial), by simpa using h.2⟩

end Does

theorem vmmAreaAdd_does (g : Held) (hm : Sane m) (hl : (m.space a).live)
    (hx : x.len ≠ 0 → GrantFlags x.pteFlags) : Does Event.isPlain g m g (vmmAreaAdd m a x).1 ∧
      ((vmmAreaAdd m a x).1.space a).live :=
  vmmAreaAdd_rule (R := fun n => Does Event.isPlain g m g n ∧ (n.space a).live = true) (P := True)
    (fun _ => areaTable_does hm) (fun _ _ _ => setAreas_does) ⟨Does.refl _ g m, hl⟩ fun _ => hx

theorem vmmAreaRemove_does (g : Held) (hm : Sane m) (hl : (m.space a).live) (base len : ℕ) :
    Does Event.isPlain g m g (vmmAreaRemove m a base len).1 ∧
      ((vmmAreaRemove m a base len).1.space a).live :=
  vmmAreaRemove_rule (R := fun n => Does Event.isPlain g m g n ∧ (n.space a).live = true)
  (P := True)
    (fun _ => areaTable_does hm) (fun _ _ _ => setAreas_does)
    (fun _ _ h => h.1.sane hm) ⟨Does.refl _ g m, hl⟩ base len

/-! ## Ranges -/

theorem foldl_does {P : Event → Prop} (g : Held) {f : Machine → ℕ → Machine}
    {vs : List ℕ} (hstep : ∀ m, Sane m → ∀ v ∈ vs, Does P g m g (f m v)) (hm : Sane m) :
    Does P g m g (vs.foldl f m) := by
  induction vs generalizing m with
  | nil => exact Does.refl _ g m
  | cons v vs ih =>
    have hfirst := hstep m hm v (by simp)
    exact hfirst.trans (ih (fun m hm w hw => hstep m hm w (by simp [hw])) (hfirst.sane hm))

theorem vmmUnmapPage_does (g : Held) (m : Machine) (a v : ℕ) :
    Does Event.isPlain g m g (vmmUnmapPage m a v) := by
  unfold vmmUnmapPage
  simp only
  split
  · exact Does.refl _ g m
  split
  · next hp =>
    split
    · next hs =>
      have hnot : isPrivate (m.pte a v) = false := by simp [isPrivate, hs]
      have hact := Act.unmapOther (g := g) a v hnot
      have hkeep : swapDiscardPte m (m.pte a v) = m := by
        simp [swapDiscardPte, isSwapped_of_present hp]
      rw [hkeep] at hact
      exact Does.act hact trivial
    next hs =>
    have hpriv : isPrivate (m.pte a v) := by simp [isPrivate, hp, hs]
    have hdrop : Does Event.isPlain g m _ _ := Does.act (Act.unmapPrivate a v hpriv) trivial
    have hforget := (swapRmapSet_does { g with loose := raise g.loose (pteFrame (m.pte a v)) }
      (m.setPte a v 0) (pteFrame (m.pte a v)) none).walk.plain
    have hgive := (giveLoose_does g
      (swapRmapForget (m.setPte a v 0) (pteFrame (m.pte a v))) (pteFrame (m.pte a v))).walk.plain
    have hall := (hdrop.trans hforget).trans hgive
    unfold swapRmapForget at hall
    rwa [swapRmapSet_setPte, pmmFree_setPte] at hall
  · next hp =>
    have hnot : isPrivate (m.pte a v) = false := by simp [isPrivate, hp]
    exact Does.act (Act.unmapOther a v hnot) trivial

theorem vmmUnmapRange_does (g : Held) (hm : Sane m) (a base len : ℕ) :
    Does Event.isPlain g m g (vmmUnmapRange m a base len) := by
  unfold vmmUnmapRange
  split
  · exact Does.refl _ g m
  · exact foldl_does g (fun m _ v _ => vmmUnmapPage_does g m a v) hm

/-- The pages of a range take the new flags, and so may its reservations. -/
def Event.isProtect (a : ℕ) (vs : List ℕ) (flags : Pte) : Event → Prop
  | .protect b v fl => b = a ∧ v ∈ vs ∧ fl = flags
  | .areas => True
  | _ => False

theorem vmmProtectRange_does (g : Held) (hm : Sane m) (a base len : ℕ) {flags : Pte}
    (hf : GrantFlags flags) :
    Does (Event.isProtect a (rangePages base len) flags) g m g
      (vmmProtectRange m a base len flags) := by
  unfold vmmProtectRange
  split
  · exact Does.refl _ g m
  have hpages : Does (Event.isProtect a (rangePages base len) flags) g m g
      ((rangePages base len).foldl (fun m v => vmmProtectPage m a v flags) m) := by
    refine foldl_does g (fun m _ v hv => ?_) hm
    unfold vmmProtectPage
    split
    · next hp => exact Does.act (Act.protect a v flags hf hp) ⟨rfl, hv, rfl⟩
    · exact Does.refl _ g m
  set m' := (rangePages base len).foldl (fun m v => vmmProtectPage m a v flags) m
  simp only
  split
  · exact hpages
  have hareas : AreasFrom (m'.space a).areas
      ((m'.space a).areas.map (protectArea base len flags)) := by
    intro x hx hlen
    obtain ⟨y, hy, rfl⟩ := mem_map.mp hx
    unfold protectArea at hlen ⊢
    split at hlen
    · next hc => rw [if_pos hc]; exact Or.inl hf
    · next hc => rw [if_neg hc]; exact Or.inr ⟨y, hy, hlen, rfl⟩
  exact hpages.trans (Does.act (Act.setAreas a _ _ hareas) trivial)

end Vextro.Paging
