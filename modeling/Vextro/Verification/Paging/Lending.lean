import Vextro.Verification.Paging.Frames
import Vextro.Verification.Paging.Transparency

/-! Allocating a frame changes no count, a fork takes references for its child, and the child gives
them back. -/

namespace Vextro.Paging

variable {a : ℕ} {m m' : Machine}

/-! ## The pager and the counts -/

/-- The number of private pages a space has in a frame. -/
def spaceRefs (b : ℕ) (m : Machine) (f : ℕ) : ℕ := (m.space b).pt.total (mapsFrame f)

theorem spaceRefs_setPte_self (m : Machine) (b v f : ℕ) (e : Pte) :
    spaceRefs b (m.setPte b v e) f + mapsFrame f (m.pte b v) = spaceRefs b m f + mapsFrame f e := by
  rw [spaceRefs, setPte_eq, space_setSpace_self]
  exact FinMap.total_set (mapsFrame f) (mapsFrame_zero f) (m.space b).pt v e

theorem spaceRefs_setSpace_of_ne {b : ℕ} (h : b ≠ a) (m : Machine) (s : AddrSpace) (f : ℕ) :
    spaceRefs b (m.setSpace a s) f = spaceRefs b m f := by
  rw [spaceRefs, space_setSpace, if_neg h, spaceRefs]

theorem spaceRefs_setSpace_same {s : AddrSpace} (h : s.pt = (m.space a).pt) (b f : ℕ) :
    spaceRefs b (m.setSpace a s) f = spaceRefs b m f := by
  by_cases hb : b = a
  · subst hb
    rw [spaceRefs, space_setSpace_self, h, spaceRefs]
  · exact spaceRefs_setSpace_of_ne hb m s f

theorem SameContents.spaceRefs (h : SameContents m m') (b f : ℕ) :
    spaceRefs b m' f = spaceRefs b m f := by
  rw [Paging.spaceRefs, h.space, Paging.spaceRefs]

/-- What an allocation may do on the way: the pager works on pages that own their frame alone, and
no count changes. -/
structure Spared (b : ℕ) (m m' : Machine) : Prop where
  ref : m'.ref = m.ref
  highest : m'.highest = m.highest
  counted : ∀ f, 1 < pmmRefCount m f → spaceRefs b m' f = spaceRefs b m f
  le : ∀ f, spaceRefs b m' f ≤ spaceRefs b m f

namespace Spared

variable {b : ℕ} {m'' : Machine}

theorem refl (b : ℕ) (m : Machine) :
    Spared b m m := ⟨rfl, rfl, fun _ _ => rfl, fun _ => Nat.le_refl _⟩

theorem trans (h : Spared b m m') (h' : Spared b m' m'') : Spared b m m'' where
  ref := h'.ref.trans h.ref
  highest := h'.highest.trans h.highest
  counted f hf := by
    have hf' : 1 < pmmRefCount m' f := by
      rwa [pmmRefCount_congr h.ref h.highest]
    exact (h'.counted f hf').trans (h.counted f hf)
  le f := (h'.le f).trans (h.le f)

theorem of_refs (href : m'.ref = m.ref) (hhigh : m'.highest = m.highest)
    (hrefs : ∀ f, spaceRefs b m' f = spaceRefs b m f) : Spared b m m' :=
  ⟨href, hhigh, fun f _ => hrefs f, fun f => (hrefs f).le⟩

theorem of_same (h : SameContents m m') (href : m'.ref = m.ref) : Spared b m m' :=
  of_refs href h.highest fun f => h.spaceRefs b f

/-- A page with a frame of its own is aged or leaves memory. -/
theorem setPte {v : ℕ} {e : Pte} (h : Evictable m a v)
    (hle : ∀ f, mapsFrame f e ≤ mapsFrame f (m.pte a v)) :
    Spared b m (m.setPte a v e) := by
  refine ⟨rfl, rfl, fun f hf => ?_, fun f => ?_⟩
  · by_cases hb : b = a
    · subst hb
      have hset := spaceRefs_setPte_self m b v f e
      have hold : mapsFrame f (m.pte b v) = 0 := by
        rw [mapsFrame_of_private (isPrivate_iff.mpr ⟨h.present, h.notShared⟩), if_neg]
        rintro rfl
        exact absurd h.sole (by omega)
      have := hle f
      omega
    · exact spaceRefs_setSpace_of_ne hb m _ f
  · by_cases hb : b = a
    · subst hb
      have hset := spaceRefs_setPte_self m b v f e
      have := hle f
      omega
    · exact (spaceRefs_setSpace_of_ne hb m _ f).le

end Spared

theorem swapRmapSet_ref (m : Machine) (f : ℕ) (owner : Option (ℕ × ℕ)) :
    (swapRmapSet m f owner).ref = m.ref := by
  rw [swapRmapSet]
  split
  · rfl
  · split <;> rfl

/-- Giving back a frame with a single owner touches no count. -/
theorem pmmFree_ref {f : ℕ} (h : pmmRefCount m f ≤ 1) : (pmmFree m f).ref = m.ref := by
  rcases pmmFree_cases m f with heq | ⟨-, heq | ⟨r, hr, hlt, hne, -⟩⟩
  · rw [heq]
  · rw [heq]
  · rw [pmmRefCount, hr] at h
    dsimp only at h
    rw [if_neg hlt.not_ge] at h
    omega

theorem pmmFree_spared {b : ℕ} {f : ℕ} (h : pmmRefCount m f ≤ 1) : Spared b m (pmmFree m f) :=
  .of_same (pmmFree_same m f) (pmmFree_ref h)

theorem mapsFrame_aged (f : ℕ) (e : Pte) : mapsFrame f (e &&& ~~~pteAccessed) = mapsFrame f e := by
  have hp : isPrivate (e &&& ~~~pteAccessed) = isPrivate e :=
    isPrivate_clear (by decide)
  have hf : pteFrame (e &&& ~~~pteAccessed) = pteFrame e := pteFrame_and (by decide)
  exact mapsFrame_same hp hf f

theorem Move.spared (h : Move m m') (b : ℕ) : Spared b m m' := by
  have hforget : ∀ (m : Machine) (f : ℕ), Spared b m (swapRmapForget m f) := fun m f =>
    .of_same (swapRmapSet_same m f none) (swapRmapSet_ref m f none)
  cases h with
  | book => exact .of_refs rfl rfl fun _ => rfl
  | forget f => exact hforget m f
  | age a v hev => exact .setPte hev fun f => (mapsFrame_aged f _).le
  | evict a v slot hev =>
    set frame := pteFrame (m.pte a v)
    have hfill : Spared b m (fillSlot m slot (m.mem frame)) := .of_refs rfl rfl fun _ => rfl
    have hout : Spared b (fillSlot m slot (m.mem frame))
        ((fillSlot m slot (m.mem frame)).setPte a v (swapPteMake slot (m.pte a v))) :=
      .setPte ⟨hev.live, hev.present, hev.user, hev.notShared, hev.notCow, hev.sole⟩ fun x => by
        rw [mapsFrame_of_not (swapPteMake_private _ _)]
        exact Nat.zero_le _
    have hall := (hfill.trans hout).trans (hforget _ frame)
    refine hall.trans (pmmFree_spared ?_)
    rw [pmmRefCount_congr hall.ref hall.highest]
    exact hev.sole
  | link a tables => exact .of_refs rfl rfl (spaceRefs_setSpace_same (by rfl) b)

theorem Moves.spared (h : Moves m m') (b : ℕ) :
    Spared b m m' := Moves.lift (.refl b) .trans (fun h => h.spared b) h

theorem pmmAlloc_spared (b : ℕ) (m : Machine) :
    Spared b m (pmmAlloc m).1 := (pmmAlloc_moves m).spared b

theorem vmmWalk_spared (b : ℕ) (m : Machine) (a v : ℕ) : Spared b m (vmmWalk m a v).1 :=
  (vmmWalk_moves m a v).spared b

open Function

variable {f v dst src b : ℕ} {kern : ℕ → Bool} {P Q : Prop} {g : Held} {vs : List ℕ}
  {base leak : ℕ → ℕ}

/-! ## What the child has borrowed -/

theorem refAt_congr (h : m'.ref = m.ref) (f : ℕ) : refAt m' f = refAt m f := by
  rw [refAt, refAt, h]

theorem pmmRefCount_le (m : Machine) (f : ℕ) : pmmRefCount m f ≤ refAt m f + 1 := by
  rw [pmmRefCount, refAt]
  cases m.ref with
  | none => exact Nat.le_refl 1
  | some r =>
    dsimp only
    split
    · exact Nat.le_add_left 1 _
    · exact Nat.le_refl _

theorem pmmRefCount_of_lt (hsome : m.ref.isSome) (hlt : f < m.highest) :
    pmmRefCount m f = refAt m f + 1 := by
  obtain ⟨r, hr⟩ := Option.isSome_iff_exists.mp hsome
  rw [pmmRefCount, refAt_some hr, hr]
  simp only
  rw [if_neg (by omega)]

theorem pmmRefCount_of_ge (hge : m.highest ≤ f) : pmmRefCount m f = 1 := by
  rw [pmmRefCount]
  split
  · rfl
  · exact if_pos hge

/-- Every count is what it would be without the space `dst`, plus the pages of that space. -/
structure Lent (base : ℕ → ℕ) (dst : ℕ) (m : Machine) : Prop where
  counted : m.ref.isSome = true
  refs : ∀ f, refAt m f = base f + spaceRefs dst m f
  inRange : ∀ f, 0 < spaceRefs dst m f → f ≠ 0 ∧ f < m.highest

namespace Lent

variable {base : ℕ → ℕ} {dst : ℕ} {m m' : Machine}

theorem spared (h : Lent base dst m) (hs : Spared dst m m') : Lent base dst m' := by
  have hrefs : ∀ f, spaceRefs dst m' f = spaceRefs dst m f := by
    intro f
    rcases Nat.eq_zero_or_pos (spaceRefs dst m f) with hz | hpos
    · have := hs.le f
      omega
    refine hs.counted f ?_
    rw [pmmRefCount_of_lt h.counted (h.inRange f hpos).2, h.refs f]
    omega
  refine ⟨by rw [hs.ref]; exact h.counted, fun f => ?_, fun f hpos => ?_⟩
  · rw [refAt_congr hs.ref, hrefs, h.refs]
  rw [hrefs] at hpos
  rw [hs.highest]
  exact h.inRange f hpos

theorem count (h : Lent base dst m) (hlt : f < m.highest) (hmax : refAt m f < 65535) :
    Lent (raise base f) dst (pmmRefInc m f) := by
  obtain ⟨r, hr⟩ := Option.isSome_iff_exists.mp h.counted
  have hsame := pmmRefInc_same m f
  refine ⟨by rw [pmmRefInc_counted]; exact h.counted, fun x => ?_, fun x hpos => ?_⟩
  · rw [hsame.spaceRefs, raise_apply]
    have hx := h.refs x
    by_cases hxf : x = f
    · subst hxf
      have := refAt_pmmRefInc hlt h.counted (by omega)
      rw [if_pos rfl]
      omega
    have hkeep : refAt (pmmRefInc m f) x = refAt m x := by
      rw [pmmRefInc, hr]
      simp only
      split
      · rfl
      split
      · rw [refAt_some rfl, update_of_ne hxf, refAt_some hr]
      · rfl
    rw [if_neg hxf]
    omega
  · rw [hsame.spaceRefs] at hpos
    rw [hsame.highest]
    exact h.inRange x hpos

theorem put {e : Pte} (h : Lent (raise base (pteFrame e)) dst m)
    (hz : m.pte dst v = 0) (hp : isPrivate e) (h0 : pteFrame e ≠ 0) (hlt : pteFrame e < m.highest) :
    Lent base dst (m.setPte dst v e) := by
  have hset : ∀ f, spaceRefs dst (m.setPte dst v e) f =
      spaceRefs dst m f + if f = pteFrame e then 1 else 0 := by
    intro f
    have hput := spaceRefs_setPte_self m dst v f e
    rwa [hz, mapsFrame_of_private hp] at hput
  refine ⟨h.counted, fun f => ?_, fun f hpos => ?_⟩
  · have hf := h.refs f
    rw [raise_apply] at hf
    rw [hset f]
    change refAt m f = _
    omega
  rw [hset f] at hpos
  by_cases hf : f = pteFrame e
  · rw [hf]
    exact ⟨h0, hlt⟩
  · rw [if_neg hf] at hpos
    exact h.inRange f hpos

theorem put_shared {e : Pte} (h : Lent base dst m) (hz : m.pte dst v = 0)
    (hp : isPrivate e = false) :
    Lent base dst (m.setPte dst v e) := by
  have hset : ∀ f, spaceRefs dst (m.setPte dst v e) f = spaceRefs dst m f := by
    intro f
    have hput := spaceRefs_setPte_self m dst v f e
    rwa [hz, mapsFrame_of_not hp] at hput
  refine ⟨h.counted, fun f => ?_, fun f hpos => ?_⟩
  · rw [hset f]
    exact h.refs f
  · rw [hset f] at hpos
    exact h.inRange f hpos

end Lent

/-! ## Fork -/

/-- A frame just handed out has no second owner. -/
theorem pmmAlloc_sole (h : Accounted kern P Q g m) (hne : (pmmAlloc m).2 ≠ 0) :
    pmmRefCount (pmmAlloc m).1 (pmmAlloc m).2 ≤ 1 := by
  have halloc := pmmAlloc_does g h.sane
  obtain ⟨leak, hown, _⟩ := (h.plain halloc.walk.plain).owned
  rw [g.got_of_ne hne] at hown
  have hexcl := hown.excl _ hne (Nat.lt_of_lt_of_le (raise_pos _ _) (Nat.le_add_left _ _))
  have hheld := (hown.held _ hne (by omega)).2.2.2
  have := pmmRefCount_le (pmmAlloc m).1 (pmmAlloc m).2
  omega

theorem swapInPage_spared (h : Accounted kern P Q g m) (hne : b ≠ a) (v : ℕ) :
    Spared b m (swapInPage m a v).1 := by
  have halloc := pmmAlloc_spared b m
  have hsole := pmmAlloc_sole h
  rw [swapInPage]
  split
  · exact .refl b m
  split
  · exact .refl b m
  dsimp only
  split
  · exact .refl b m
  rcases ha : pmmAlloc m with ⟨m', f⟩
  rw [ha] at halloc hsole
  cases f with
  | zero => exact halloc
  | succ f =>
    simp only
    split
    · exact halloc.trans (pmmFree_spared (hsole (Nat.succ_ne_zero f)))
    refine halloc.trans (.of_refs ?_ ?_ fun x => ?_)
    · rw [swapRmapRecord, swapRmapSet_ref, (swapSlotFree_frames _ _).ref]
      rfl
    · rw [swapRmapRecord, (swapRmapSet_same _ _ _).highest, (swapSlotFree_same _ _).highest]
      rfl
    rw [swapRmapRecord, (swapRmapSet_same _ _ _).spaceRefs, (swapSlotFree_same _ _).spaceRefs]
    exact spaceRefs_setSpace_of_ne hne _ _ x

theorem forkFetch_spared (h : Accounted kern P Q g m) (hne : dst ≠ src) (v : ℕ) :
    Spared dst m (forkFetch m src v).1 := by
  rw [forkFetch]
  split
  · exact .refl dst m
  split
  · exact swapInPage_spared h hne v
  · exact .refl dst m

theorem forkMark_frame (m : Machine) (src v : ℕ) :
    pteFrame ((forkMark m src v).pte src v) = pteFrame (m.pte src v) := by
  rw [forkMark]
  split
  · rw [pte_setPte_self, pteFrame_or (by decide), pteFrame_and (by decide)]
  · rfl

theorem forkMark_spared (hne : dst ≠ src) (v : ℕ) : Spared dst m (forkMark m src v) := by
  rw [forkMark]
  split
  · exact .of_refs rfl rfl fun x => spaceRefs_setSpace_of_ne hne m _ x
  · exact .refl dst m

/-- The frame of a page at which `vmm_fork` has stopped, if a reference to it was taken. -/
def strandedAt (m : Machine) (src v : ℕ) : Option ℕ :=
  match forkFetch m src v with
  | (_, false) => none
  | (m, true) => if isPrivate (m.pte src v) then some (pteFrame (m.pte src v)) else none

/-- One of the counts is never lowered again. -/
def lost (base : ℕ → ℕ) : Option ℕ → ℕ → ℕ
  | none => base
  | some f => raise base f

theorem Roomy.page (h : Roomy kern P Q src (v :: vs) Held.none m) (hp : isPrivate (m.pte src v)) :
    pteFrame (m.pte src v) ≠ 0 ∧ pteFrame (m.pte src v) < m.highest ∧
    refAt m (pteFrame (m.pte src v)) < 65535 := by
  obtain ⟨leak, hown, _⟩ := h.accounted.owned
  have h0 := hown.nonzero src v hp
  have hmapped := one_le_mappings hp
  have hlive : 0 < liveRefs Held.none m (pteFrame (m.pte src v)) := by
    rw [liveRefs]
    omega
  have hpend : 0 < pending src (v :: vs) m (pteFrame (m.pte src v)) := by
    rw [pending_cons, mapsFrame_of_private hp, if_pos rfl]
    omega
  have := h.room _ h0 hpend
  exact ⟨h0, (hown.held _ h0 (by omega)).1, by omega⟩

/-- The same for the pages that `vmm_fork` gets to. -/
def strandedIn (dst src : ℕ) : List ℕ → Machine → Option ℕ
  | [], _ => none
  | v :: vs, m =>
    match vmmForkPage m dst src v with
    | (_, false) => strandedAt m src v
    | (m', true) => strandedIn dst src vs m'

theorem strandedIn_of_ok (h : (vmmForkPages dst src vs m).2) : strandedIn dst src vs m = none := by
  induction vs generalizing m with
  | nil => rfl
  | cons v vs ih =>
    rw [vmmForkPages] at h
    rw [strandedIn]
    rcases hf : vmmForkPage m dst src v with ⟨m', ok⟩
    rw [hf] at h
    cases ok with
    | false => exact absurd h Bool.false_ne_true
    | true => exact ih h

/-! ## The beginning and the end of a child -/

theorem spaceRefs_dead (hm : Sane m) (hd : (m.space b).live = false) (f : ℕ) :
    spaceRefs b m f = 0 :=
  FinMap.total_eq_zero fun v => by
    change mapsFrame f (m.pte b v) = 0
    rw [hm.deadEntries b hd v, mapsFrame_zero]

theorem Lent.empty (hsome : m.ref.isSome) (hrefs : ∀ f, refAt m f = base f)
    (hz : ∀ f, spaceRefs dst m f = 0) :
    Lent base dst m := by
  refine ⟨hsome, fun f => ?_, fun f hpos => ?_⟩
  · rw [hz f, hrefs f, Nat.add_zero]
  · rw [hz f] at hpos
    exact absurd hpos (Nat.lt_irrefl 0)

theorem vmmCreate_lent (hm : Sane m) (hsome : m.ref.isSome) (hd : (m.space dst).live = false) :
    Lent (refAt m) dst (vmmCreate m dst).1 := by
  have hstart := Lent.empty hsome (fun _ => rfl) (spaceRefs_dead hm hd)
  have halloc := pmmAlloc_spared dst m
  have hl := hstart.spared halloc
  rw [vmmCreate]
  rcases ha : pmmAlloc m with ⟨m', f⟩
  rw [ha] at hl halloc
  cases f with
  | zero => exact hl
  | succ f =>
    refine Lent.empty hl.counted (refAt_congr halloc.ref) fun x => ?_
    simp only
    rw [spaceRefs, space_setSpace_self]
    rfl

theorem refAt_pmmFree (hsome : m.ref.isSome) (h0 : f ≠ 0) (hlt : f < m.highest)
    (hpos : 0 < refAt m f) (x : ℕ) :
    refAt (pmmFree m f) x + (if x = f then 1 else 0) = refAt m x := by
  obtain ⟨r, hr⟩ := Option.isSome_iff_exists.mp hsome
  rw [refAt_some hr] at hpos
  rw [pmmFree_shared hr h0 hlt (by omega), refAt_some rfl, refAt_some hr]
  by_cases hx : x = f
  · rw [hx, update_self, if_pos rfl]
    omega
  · rw [update_of_ne hx, if_neg hx, Nat.add_zero]

theorem vmmDropPage_lent (h : Lent base dst m) (v : ℕ) : Lent base dst (vmmDropPage m dst v) := by
  cases hp : isPrivate (m.pte dst v) with
  | false =>
    have hkeep : ∀ m' : Machine, m'.ref = m.ref → SameContents m m' →
        Lent base dst (m'.setPte dst v 0) := by
      intro m' href hsame
      refine h.spared (.of_refs href hsame.highest fun f => ?_)
      have hset := spaceRefs_setPte_self m' dst v f 0
      rwa [hsame.pte, mapsFrame_of_not hp, hsame.spaceRefs] at hset
    rw [vmmDropPage]
    cases hpres : has (m.pte dst v) ptePresent with
    | false => exact hkeep _ (swapDiscardPte_frames m _).ref (swapDiscardPte_same m _)
    | true =>
      have hs : has (m.pte dst v) pteShared := by simpa [isPrivate, hpres] using hp
      simp only [hs, if_true]
      exact hkeep m rfl (.refl m)
  | true =>
    obtain ⟨hpres, hs⟩ := isPrivate_iff.mp hp
    set f := pteFrame (m.pte dst v) with hf
    have hdrop : vmmDropPage m dst v = (pmmFree m f).setPte dst v 0 := by
      rw [vmmDropPage]
      simp [hpres, hs, hf]
    have hset : ∀ x, spaceRefs dst ((pmmFree m f).setPte dst v 0) x +
        (if x = f then 1 else 0) = spaceRefs dst m x := by
      intro x
      have hput := spaceRefs_setPte_self (pmmFree m f) dst v x 0
      rwa [(pmmFree_same m _).pte, mapsFrame_of_private hp, (pmmFree_same m _).spaceRefs] at hput
    have hself := hset f
    rw [if_pos rfl] at hself
    obtain ⟨h0, hlt⟩ := h.inRange f (by omega)
    have hcount := h.refs f
    have hfree := refAt_pmmFree h.counted h0 hlt (by omega)
    rw [hdrop]
    refine ⟨?_, fun x => ?_, fun x hpos => ?_⟩
    · exact (pmmFree_counted m f).trans h.counted
    · have hx := hset x
      have hx' := hfree x
      have hrefs := h.refs x
      change refAt (pmmFree m f) x = _
      omega
    · have hx := hset x
      have hin := h.inRange x (by omega)
      exact ⟨hin.1, hin.2.trans_eq (pmmFree_same m f).highest.symm⟩

theorem dropPages_lent (vs : List ℕ) (h : Lent base dst m) :
    Lent base dst (vs.foldl (fun m v => vmmDropPage m dst v) m) := by
  induction vs generalizing m with
  | nil => exact h
  | cons v vs ih => exact ih (vmmDropPage_lent h v)

/-- The frames of a space's tables have no second owner. -/
structure SoleTables (m : Machine) (s : AddrSpace) : Prop where
  root : s.pml4 ≠ 0 → refAt m s.pml4 = 0
  vmas : s.vmas ≠ 0 → refAt m s.vmas = 0
  inner : ∀ k, s.tables.get k ≠ 0 → refAt m (s.tables.get k) = 0

theorem Owned.soleTables (h : Owned kern leak g m) (a : ℕ) : SoleTables m (m.space a) := by
  have hsole : ∀ f, f ≠ 0 → 0 < tableWeight f (m.space a) → refAt m f = 0 := by
    intro f hf hpos
    have hle := FinMap.le_total (tableWeight f) (tableWeight_dead hf) m.spaces a
    have hrefs : 0 < tableRefs m f := Nat.lt_of_lt_of_le hpos hle
    have hexcl := h.excl f hf (by omega)
    have hheld := (h.held f hf (by omega)).2.2.2
    omega
  refine ⟨fun h0 => hsole _ h0 ?_, fun h0 => hsole _ h0 ?_, fun k h0 => hsole _ h0 ?_⟩
  · rw [tableWeight, if_pos rfl]
    omega
  · rw [tableWeight, if_pos (rfl : (m.space a).vmas = _)]
    omega
  have hle := FinMap.le_total (fun x => if x = (m.space a).tables.get k then 1 else 0)
    (if_neg (Ne.symm h0)) (m.space a).tables k
  rw [if_pos rfl] at hle
  rw [tableWeight]
  omega

/-- A table's frame goes back and no count changes. -/
theorem freeTable_spared (h : f ≠ 0 → refAt m f = 0) : Spared b m (pmmFree m f) := by
  by_cases h0 : f = 0
  · rw [h0, pmmFree]
    exact .refl b m
  have := pmmRefCount_le m f
  exact pmmFree_spared (by omega)

theorem vmmDropTable_spared {key : ℕ}
    (h : (m.space a).tables.get key ≠ 0 → refAt m ((m.space a).tables.get key) = 0) :
    Spared b m (vmmDropTable m a key) := by
  rw [vmmDropTable]
  split
  · exact .refl b m
  · exact (freeTable_spared h).trans (.of_refs rfl rfl (spaceRefs_setSpace_same (by rfl) b))

/-- Every table of a space is given up; its root is still there. -/
theorem dropTables_spared (b a : ℕ) (ks : List ℕ) (h : SoleTables m (m.space a)) :
    let m' := ks.foldl (fun m k => vmmDropTable m a k) m
    Spared b m m' ∧ SoleTables m' (m'.space a) := by
  induction ks generalizing m with
  | nil => exact ⟨.refl b m, h⟩
  | cons key ks ih =>
    have hdrop := vmmDropTable_spared (b := b) (h.inner key)
    have hsole : SoleTables (vmmDropTable m a key) ((vmmDropTable m a key).space a) := by
      rw [vmmDropTable_space]
      split
      · exact ⟨fun h0 => (refAt_congr hdrop.ref _).trans (h.root h0),
          fun h0 => (refAt_congr hdrop.ref _).trans (h.vmas h0),
          fun k h0 => (refAt_congr hdrop.ref _).trans (h.inner k h0)⟩
      refine ⟨fun h0 => (refAt_congr hdrop.ref _).trans (h.root h0),
        fun h0 => (refAt_congr hdrop.ref _).trans (h.vmas h0), fun k h0 => ?_⟩
      have hk : k ≠ key := by
        rintro rfl
        exact h0 (FinMap.get_set_self _ _ _)
      rw [FinMap.get_set_ne _ _ hk] at h0 ⊢
      exact (refAt_congr hdrop.ref _).trans (h.inner k h0)
    obtain ⟨hrest, hlast⟩ := ih hsole
    exact ⟨hdrop.trans hrest, hlast⟩

theorem buryTables_spared (b : ℕ) (h : SoleTables m (m.space a)) : Spared b m (buryTables m a) := by
  rw [buryTables]
  have hroot : Spared b m (pmmFree m (m.space a).pml4) := freeTable_spared h.root
  have hspace : (pmmFree m (m.space a).pml4).space a = m.space a := (pmmFree_same m _).space a
  generalize pmmFree m (m.space a).pml4 = m1 at hroot hspace
  dsimp only
  have hdead : Spared b m1 (m1.setSpace a { m1.space a with pml4 := 0, live := false }) :=
    .of_refs rfl rfl (spaceRefs_setSpace_same (by rfl) b)
  have hvmas : ((m1.setSpace a { m1.space a with pml4 := 0, live := false }).space a).vmas =
      (m.space a).vmas := by
    rw [space_setSpace_self, hspace]
  generalize m1.setSpace a { m1.space a with pml4 := 0, live := false } = m2 at hdead hvmas
  have hboth := hroot.trans hdead
  split
  · exact hboth
  have hfree : Spared b m2 (pmmFree m2 (m2.space a).vmas) := by
    refine freeTable_spared fun h0 => ?_
    rw [hvmas] at h0 ⊢
    exact (refAt_congr hboth.ref _).trans (h.vmas h0)
  exact (hboth.trans hfree).trans (.of_refs rfl rfl (spaceRefs_setSpace_same (by rfl) b))

/-- The end of the child: every count is what it would be without it. -/
theorem vmmDestroy_lent (hown : Owned kern leak Held.none m) (hl : Lent base dst m) :
    Lent base dst (vmmDestroy m dst) := by
  rw [vmmDestroy]
  split
  · exact hl
  have hl1 := dropPages_lent (m.space dst).pt.keys hl
  obtain ⟨pt, hspace⟩ := dropPages_space dst (m.space dst).pt.keys m
  have hclear : ∀ f, spaceRefs dst ((m.space dst).pt.keys.foldl
      (fun m v => vmmDropPage m dst v) m) f = 0 := fun f =>
    FinMap.total_eq_zero fun v => by
      change mapsFrame f (Machine.pte _ dst v) = 0
      rw [dropPages_clear, mapsFrame_zero]
  set m1 := (m.space dst).pt.keys.foldl (fun m v => vmmDropPage m dst v) m
  have hzero : ∀ f, refAt m f = 0 → refAt m1 f = 0 := by
    intro f hf
    have := hl.refs f
    have := hl1.refs f
    have := hclear f
    omega
  have hsole := hown.soleTables dst
  have hsole1 : SoleTables m1 (m1.space dst) := by
    rw [hspace]
    exact ⟨fun h0 => hzero _ (hsole.root h0), fun h0 => hzero _ (hsole.vmas h0),
      fun k h0 => hzero _ (hsole.inner k h0)⟩
  obtain ⟨hspared2, hsole2⟩ := dropTables_spared dst dst (m1.space dst).tables.keys hsole1
  have hlast := buryTables_spared dst hsole2
  rw [buryTables] at hlast
  exact (hl1.spared hspared2).spared hlast

/-! ## A fork that is given up -/

theorem act_highest {g' : Held} {ev : Event} (hact : Act g m ev g' m') :
    m'.highest = m.highest := by
  cases hact with
  | giveFresh f | giveLoose f => exact (pmmFree_same m f).highest
  | share a v => exact (pmmRefInc_same m _).highest
  | pageIn a v => exact (swapSlotFree_same m _).highest
  | unmapOther a v => exact (swapDiscardPte_same m _).highest
  | _ => rfl

theorem Does.highest {A : Event → Prop} {g' : Held} (h : Does A g m g' m') :
    m'.highest = m.highest :=
  h.induct (I := fun _ n => n.highest = m.highest)
  (fun hI hact _ => (act_highest hact).trans hI) rfl

theorem Owned.root_lt (h : Owned kern leak Held.none m) (hm : Sane m) (hl : (m.space a).live) :
    (m.space a).pml4 < m.highest := by
  have h0 := hm.root a hl
  have hone : 1 ≤ tableWeight (m.space a).pml4 (m.space a) := by
    rw [tableWeight, if_pos rfl]
    omega
  have hle : tableWeight (m.space a).pml4 (m.space a) ≤ tableRefs m (m.space a).pml4 :=
    FinMap.le_total _ (tableWeight_dead h0) m.spaces a
  refine (h.held _ h0 ?_).1
  rw [liveRefs]
  omega

/-- The frame, if any, to which a fork keeps a reference for good. -/
def forkStrands (m : Machine) (dst src : ℕ) : Option ℕ :=
  match forkStart m dst src with
  | (_, false) => none
  | (m, true) => strandedIn dst src (m.space src).pt.keys m

theorem forkStrands_of_ok (h : (vmmFork m dst src).2) : forkStrands m dst src = none := by
  rw [vmmFork_eq] at h
  rw [forkStrands]
  rcases hf : forkStart m dst src with ⟨m', ok⟩
  rw [hf] at h
  cases ok with
  | false => rfl
  | true => exact strandedIn_of_ok h

theorem vmmDestroy_dead (m : Machine) (a : ℕ) : ((vmmDestroy m a).space a).live = false := by
  rw [vmmDestroy]
  split
  · rename_i hlive
    simpa using hlive
  dsimp only
  split
  · rw [space_setSpace_self]
  · rw [space_setSpace_self, (pmmFree_same _ _).space, space_setSpace_self]

theorem Accounted.weaken (h : Accounted kern P Q g m) : Accounted kern False Q g m := by
  obtain ⟨leak, hown, _⟩ := h.owned
  exact ⟨h.sane, ⟨leak, hown, False.elim⟩, h.exclusive⟩

end Vextro.Paging
