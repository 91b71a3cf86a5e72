import Vextro.Verification.Shared.Bitmap
import Vextro.Verification.Paging.Ceiling

/-! Fork and exit of a space with a single page, and counts of frames over whole runs: right as long
as no count saturates, and what happens when one does. -/

namespace Vextro.Paging

open Function

variable {f k a v x : ℕ} {m m' : Machine} {e : Pte}

/-! ## Allocation -/

/-- The frame `f` is taken, and at least `k` frames are free. -/
structure Ample (f k : ℕ) (m : Machine) : Prop where
  zero : m.used 0 = true
  taken : m.used f = true
  below : f < m.highest
  room : k ≤ (Bitmap.clear m.used m.highest).card
  high : m.highest ≤ 2 ^ 40

theorem pmmAlloc_of_once (h : pmmAllocOnce m = (m', x)) (hx : x ≠ 0) : pmmAlloc m = (m', x) := by
  obtain ⟨x', rfl⟩ := Nat.exists_eq_succ_of_ne_zero hx
  rw [pmmAlloc, h]
  rfl

/-- With frames to spare, the allocator answers at once and touches no space or count. -/
theorem pmmAlloc_ample (h : Ample f (k + 1) m) :
    ∃ m' x, pmmAlloc m = (m', x) ∧ x ≠ 0 ∧ x ≠ f ∧ Ample f k m' ∧ Ample x k m' ∧
    m'.spaces = m.spaces ∧
      m'.ref = m.ref ∧ m'.highest = m.highest := by
  have hroom := h.room
  rcases pmmAllocOnce_spec h.zero with ⟨-, hall⟩ | ⟨x, hne, hlt, hclear, -, honce⟩
  · obtain ⟨x, hx⟩ := Finset.card_pos.mp (Nat.zero_lt_of_lt hroom)
    obtain ⟨hlt, hclear⟩ := Bitmap.mem_clear.mp hx
    simp [hall x hlt] at hclear
  have hxf : x ≠ f := by
    rintro rfl
    simp [h.taken] at hclear
  have hkeep : ∀ y, m.used y → update m.used x true y := fun y hy => by
    rw [update_apply, hy, ite_self]
  have hcard : k ≤ (Bitmap.clear (update m.used x true) m.highest).card := by
    rw [Bitmap.card_clear_set hlt hclear]
    omega
  exact ⟨_, x, pmmAlloc_of_once honce hne, hne, hxf,
    ⟨hkeep 0 h.zero, hkeep f h.taken, h.below, hcard, h.high⟩,
    ⟨hkeep 0 h.zero, update_self .., hlt, hcard, h.high⟩, rfl, rfl, rfl⟩

/-- One space was given further tables, none of them in `f`. -/
structure Walked (f a : ℕ) (m m' : Machine) : Prop where
  ref : m'.ref = m.ref
  others : ∀ b, b ≠ a → m'.space b = m.space b
  space : ∃ tables, m'.space a = { m.space a with tables := tables } ∧
    ((∀ k, (m.space a).tables.get k ≠ f) → ∀ k, tables.get k ≠ f)

theorem Walked.refl (f a : ℕ) (m : Machine) : Walked f a m m :=
  ⟨rfl, fun _ _ => rfl, _, rfl, fun h => h⟩

theorem Walked.trans {m'' : Machine} (h : Walked f a m m') (h' : Walked f a m' m'') :
    Walked f a m m'' := by
  obtain ⟨tables, heq, hkeep⟩ := h.space
  obtain ⟨tables', heq', hkeep'⟩ := h'.space
  refine ⟨h'.ref.trans h.ref, fun b hb => (h'.others b hb).trans (h.others b hb), tables', ?_,
    fun hk => hkeep' ?_⟩
  · rw [heq', heq]
  · rw [heq]
    exact hkeep hk

theorem Ample.weaken (h : Ample f (k + 1) m) :
    Ample f k m := { h with room := (Nat.le_succ k).trans h.room }

theorem vmmWalkLevel_ample (h : Ample f (k + 1) m) (a v shift : ℕ) :
    ∃ m', vmmWalkLevel m a v shift = (m', true) ∧ Ample f k m' ∧ Walked f a m m' := by
  unfold vmmWalkLevel
  split
  · exact ⟨m, rfl, h.weaken, Walked.refl f a m⟩
  obtain ⟨m', x, halloc, hne, hxf, hample, -, hspaces, href, -⟩ := pmmAlloc_ample h
  have hspace := space_congr hspaces
  obtain ⟨x', rfl⟩ := Nat.exists_eq_succ_of_ne_zero hne
  rw [halloc]
  refine ⟨_, rfl, { hample with }, href, fun b hb => ?_,
    (m.space a).tables.set (tableKey shift v) (x' + 1), ?_, fun hk key => ?_⟩
  · rw [space_setSpace, if_neg hb, hspace]
  · rw [space_setSpace_self, hspace]
  rw [FinMap.get_set]
  split
  · exact hxf
  · exact hk key

theorem vmmWalk_ample (h : Ample f (k + 3) m) (a v : ℕ) :
    ∃ m', vmmWalk m a v = (m', true) ∧ Ample f k m' ∧ Walked f a m m' := by
  obtain ⟨m1, h1, hample1, hw1⟩ := vmmWalkLevel_ample h a v 27
  obtain ⟨m2, h2, hample2, hw2⟩ := vmmWalkLevel_ample hample1 a v 18
  obtain ⟨m3, h3, hample3, hw3⟩ := vmmWalkLevel_ample hample2 a v 9
  refine ⟨m3, ?_, hample3, (hw1.trans hw2).trans hw3⟩
  unfold vmmWalk
  rw [h1]
  simp only
  rwa [h2]

theorem Ample.rmapSet (h : Ample f k m) (owner : Option (ℕ × ℕ)) :
    Ample f k (swapRmapSet m x owner) := by
  unfold swapRmapSet
  split
  · exact h
  split
  · exact h
  · exact { h with }

theorem vmmMap_ample (h : Ample f (k + 3) m) (a v x : ℕ) (flags : Pte) :
    ∃ m', vmmMap m a v x flags = (m', true) ∧
    Ample f k m' ∧ ∃ tables, m'.space a =
      { m.space a with tables := tables, pt := (m.space a).pt.set v (pteMake x flags) } := by
  obtain ⟨n, hwalk, hample, hwalked⟩ := vmmWalk_ample h a v
  obtain ⟨tables, hspace, -⟩ := hwalked.space
  have hmade : Ample f k (n.setPte a v (pteMake x flags)) := { hample with }
  have hset : ∀ owner, Ample f k (swapRmapSet (n.setPte a v (pteMake x flags)) x owner) ∧
      (swapRmapSet (n.setPte a v (pteMake x flags)) x owner).space a =
      { m.space a with tables := tables, pt := (m.space a).pt.set v (pteMake x flags) } :=
    fun owner => by
    refine ⟨hmade.rmapSet owner, ?_⟩
    rw [(swapRmapSet_same _ _ _).space, setPte_eq, space_setSpace_self, hspace]
  rw [vmmMap, hwalk]
  dsimp only
  split
  · exact ⟨_, rfl, (hset _).1, tables, (hset _).2⟩
  · exact ⟨_, rfl, (hset _).1, tables, (hset _).2⟩

/-- A live space without reservations and with no table in the frame `f`. -/
structure Bare (f : ℕ) (s : AddrSpace) : Prop where
  live : s.live = true
  vmas : s.vmas = 0
  root : s.pml4 ≠ f
  tables : ∀ k, s.tables.get k ≠ f

/-- The only page of the space is `v`, with the entry `e`. -/
structure Lone (f v : ℕ) (e : Pte) (s : AddrSpace) : Prop extends Bare f s where
  pt : s.pt = FinMap.empty.set v e

theorem Lone.pte (h : Lone f v e (m.space a)) : m.pte a v = e := by
  unfold Machine.pte
  rw [h.pt, FinMap.get_set_self]

theorem pmmRefInc_counted (m : Machine) (f : ℕ) : (pmmRefInc m f).ref.isSome = m.ref.isSome := by
  unfold pmmRefInc
  split
  · rfl
  next r hr =>
  split
  · rfl
  split
  · rw [hr]
    rfl
  · rfl

theorem pmmRefInc_ref (href : m'.ref = m.ref) (hhigh : m'.highest = m.highest) (f : ℕ) :
    (pmmRefInc m' f).ref = (pmmRefInc m f).ref := by
  unfold pmmRefInc
  rw [href]
  split
  · exact href
  rw [hhigh]
  split
  · exact href
  split
  · rfl
  · exact href

theorem Ample.refInc (h : Ample f k m) : Ample f k (pmmRefInc m x) := by
  rw [pmmRefInc_eq]
  exact { h with }

/-! ## Fork -/

theorem vmmForkPage_lone {dst src : ℕ} (h : Ample f (k + 3) m)
    (hs : Lone f v e (m.space src)) (hd : Bare f (m.space dst)) (hpt : (m.space dst).pt = .empty)
    (he : isPrivate e) (hw : has e pteWrite = false) (hf : pteFrame e = f) :
    ∃ m', vmmForkPage m dst src v = (m', true) ∧ Ample f k m' ∧
      (∀ b, b ≠ dst → m'.space b = m.space b) ∧ Lone f v e (m'.space dst) ∧
      m'.ref = (pmmRefInc m f).ref := by
  obtain ⟨hp, hsh⟩ := isPrivate_iff.mp he
  have hsame := pmmRefInc_same m f
  obtain ⟨m', hwalk, hample, hwalked⟩ := vmmWalk_ample (h.refInc) dst v
  obtain ⟨tables, hspace, hkeep⟩ := hwalked.space
  rw [hsame.space] at hspace hkeep
  refine ⟨m'.setPte dst v e, ?_, { hample with }, fun b hb => ?_, ?_, hwalked.ref⟩
  · unfold vmmForkPage
    simp only [hs.pte, hp, hsh, hw, hf, if_true, Bool.not_true, Bool.false_eq_true,
      if_false, Bool.and_false, hwalk]
  · rw [setPte_eq, space_setSpace, if_neg hb, hwalked.others b hb, hsame.space]
  · rw [setPte_eq, space_setSpace_self, hspace]
    exact ⟨⟨hd.live, hd.vmas, hd.root, hkeep hd.tables⟩, by simp only; rw [hpt]⟩

/-- With four frames to spare, a fork shares the only page of its parent. -/
theorem vmmFork_lone {src : ℕ} (dst : ℕ) (h : Ample f (k + 4) m) (hs : Lone f v e (m.space src))
    (hne : dst ≠ src) (hf0 : f ≠ 0) (he : isPrivate e) (hw : has e pteWrite = false)
    (hf : pteFrame e = f) :
    ∃ m', vmmFork m dst src = (m', true) ∧ Ample f k m' ∧
      (∀ b, b ≠ dst → m'.space b = m.space b) ∧ Lone f v e (m'.space dst) ∧
      m'.ref = (pmmRefInc m f).ref := by
  obtain ⟨m1, x, halloc, hx0, hxf, hample, -, hspaces, href, hhigh⟩ := pmmAlloc_ample h
  have hspace1 := space_congr hspaces
  obtain ⟨x', rfl⟩ := Nat.exists_eq_succ_of_ne_zero hx0
  set child : AddrSpace :=
    { live := true, pml4 := x' + 1, tables := .empty, pt := .empty
      brk := (m.space src).brk, brkTop := (m.space src).brkTop
      mmapNext := (m.space src).mmapNext, vmas := 0, areas := [], vmaCount := 0 } with hchild
  have hsrc : (m1.setSpace dst child).space src = m.space src := by
    rw [space_setSpace, if_neg hne.symm, hspace1]
  have hbare : Bare f ((m1.setSpace dst child).space dst) := by
    rw [space_setSpace_self]
    exact ⟨rfl, rfl, hxf, fun _ => Ne.symm hf0⟩
  obtain ⟨m', hpage, hample', hothers, hlone, href'⟩ :=
    vmmForkPage_lone (m := m1.setSpace dst child) { hample with } (by rw [hsrc]; exact hs) hbare
      (by rw [space_setSpace_self]) he hw hf
  refine ⟨m', ?_, hample', fun b hb => ?_, hlone, ?_⟩
  · have hstart : vmmCreate m dst = (m1.setSpace dst
        { live := true, pml4 := x' + 1, tables := .empty, pt := .empty
          brk := userHeapBase, brkTop := userHeapBase, mmapNext := userMmapBase
          vmas := 0, areas := [], vmaCount := 0 }, true) := by
      unfold vmmCreate
      rw [halloc]
      rfl
    unfold vmmFork
    rw [hstart]
    simp only [space_setSpace_self, space_setSpace, if_neg hne.symm, hspace1, setSpace_setSpace]
    have hareas : vmmForkAreas (m1.setSpace dst child) dst src = (m1.setSpace dst child, true) := by
      unfold vmmForkAreas
      rw [hsrc, if_pos hs.vmas]
    rw [hareas]
    simp only
    rw [hsrc, hs.pt]
    change vmmForkPages dst src [v] _ = _
    simp only [vmmForkPages, hpage]
  · rw [hothers b hb, space_setSpace, if_neg hb, hspace1]
  · rw [href']
    exact pmmRefInc_ref (show (m1.setSpace dst child).ref = m.ref from href) hhigh f

/-! ## Exit -/

theorem pmmFree_other (h : x ≠ f) :
    refAt (pmmFree m x) f = refAt m f ∧ (pmmFree m x).used f = m.used f := by
  rcases pmmFree_cases m x with heq | ⟨-, heq | ⟨r, hr, -, -, heq⟩⟩ <;> rw [heq]
  · exact ⟨rfl, rfl⟩
  · exact ⟨rfl, update_of_ne h.symm _ _⟩
  · rw [refAt_some hr, refAt_some rfl, update_of_ne h.symm]
    exact ⟨rfl, rfl⟩

theorem pmmFree_counted (m : Machine) (f : ℕ) : (pmmFree m f).ref.isSome = m.ref.isSome := by
  rcases pmmFree_cases m f with h | ⟨-, h | ⟨r, hr, -, -, h⟩⟩ <;> rw [h]
  rw [hr]
  rfl

/-- Outside space `a`, and for the frame `f`, nothing changed. -/
structure Aside (f a : ℕ) (m m' : Machine) : Prop where
  highest : m'.highest = m.highest
  counted : m'.ref.isSome = m.ref.isSome
  ref : refAt m' f = refAt m f
  used : m'.used f = m.used f
  others : ∀ b, b ≠ a → m'.space b = m.space b

theorem Aside.trans {m'' : Machine} (h : Aside f a m m') (h' : Aside f a m' m'') :
    Aside f a m m'' :=
  ⟨h'.highest.trans h.highest, h'.counted.trans h.counted, h'.ref.trans h.ref,
    h'.used.trans h.used, fun b hb => (h'.others b hb).trans (h.others b hb)⟩

theorem Aside.refl (f a : ℕ) (m : Machine) : Aside f a m m :=
  ⟨rfl, rfl, rfl, rfl, fun _ _ => rfl⟩

theorem Aside.setSpace (f a : ℕ) (m : Machine) (s : AddrSpace) : Aside f a m (m.setSpace a s) :=
  ⟨rfl, rfl, rfl, rfl, fun b hb => by rw [space_setSpace, if_neg hb]⟩

theorem Aside.free (h : x ≠ f) (a : ℕ) (m : Machine) : Aside f a m (pmmFree m x) :=
  ⟨(pmmFree_same m x).highest, pmmFree_counted m x, (pmmFree_other h).1, (pmmFree_other h).2,
    fun b _ => (pmmFree_same m x).space b⟩

theorem dropTables_aside (ks : List ℕ) (hf0 : f ≠ 0) (h : ∀ k, (m.space a).tables.get k ≠ f) :
    Aside f a m (ks.foldl (fun m k => vmmDropTable m a k) m) := by
  induction ks generalizing m with
  | nil => exact Aside.refl f a m
  | cons key ks ih =>
    have hone : Aside f a m (vmmDropTable m a key) := by
      unfold vmmDropTable
      simp only
      split
      · exact Aside.refl f a m
      · exact (Aside.free (h key) a m).trans (Aside.setSpace f a _ _)
    refine hone.trans (ih fun k => ?_)
    rw [vmmDropTable_space]
    split
    · exact h k
    simp only [FinMap.get_set]
    split
    · exact Ne.symm hf0
    · exact h k

/-- A space with one page returns the frame of that page once. -/
theorem vmmDestroy_lone (hl : Lone f v e (m.space a)) (hf0 : f ≠ 0) (he : isPrivate e)
    (hf : pteFrame e = f) :
    Aside f a (pmmFree m f) (vmmDestroy m a) := by
  obtain ⟨hp, hsh⟩ := isPrivate_iff.mp he
  have hdrop : vmmDropPage m a v = (pmmFree m f).setPte a v 0 := by
    unfold vmmDropPage
    simp only [hl.pte, hp, hsh, hf, Bool.not_true, Bool.false_eq_true, if_false]
  set m1 := (pmmFree m f).setPte a v 0 with hm1
  have hspace : m1.space a = { m.space a with pt := (m.space a).pt.set v 0 } := by
    rw [hm1, setPte_eq, space_setSpace_self, (pmmFree_same m f).space]
  have hpages : Aside f a (pmmFree m f) m1 := Aside.setSpace f a _ _
  set m2 := (m1.space a).tables.keys.foldl (fun m k => vmmDropTable m a k) m1 with hm2
  have htables : Aside f a m1 m2 := dropTables_aside _ hf0 (by rw [hspace]; exact hl.tables)
  have hroot : (m2.space a).pml4 ≠ f ∧ (m2.space a).vmas = 0 := by
    obtain ⟨tables, hspace2, -⟩ := dropTables_space a (m1.space a).tables.keys m1
    rw [hspace2, hspace]
    exact ⟨hl.root, hl.vmas⟩
  have heq : vmmDestroy m a =
      (pmmFree m2 (m2.space a).pml4).setSpace a { m2.space a with pml4 := 0, live := false } := by
    have hfold : (m.space a).pt.keys.foldl (fun m v => vmmDropPage m a v) m = m1 := by
      rwa [hl.pt]
    unfold vmmDestroy
    simp only [hl.live, Bool.not_true, Bool.false_eq_true, if_false, hfold, ← hm2,
      (pmmFree_same m2 _).space, space_setSpace_self, hroot.2, if_true]
  rw [heq]
  exact (hpages.trans htables).trans ((Aside.free hroot.1 a m2).trans (Aside.setSpace f a _ _))

variable {n : ℕ}

/-! ## Runs below the ceiling -/

/-- The count of a frame of private memory is the number of present private entries that map
it, and such a frame is free exactly when there are none. Frames of the kernel and frames
that hold tables are not for private memory. -/
structure FramesCounted (kern : ℕ → Bool) (m : Machine) : Prop where
  counted : ∀ f, 0 < mappings m f → pmmRefCount m f = mappings m f
  apart : ∀ f, 0 < mappings m f → f ≠ 0 ∧ kern f = false ∧ tableRefs m f = 0
  free_iff : ∀ f, f ≠ 0 → kern f = false → tableRefs m f = 0 → (m.used f = false ↔ mappings m f = 0)

theorem exists_of_mappings (h : 0 < mappings m f) :
    ∃ a v, isPrivate (m.pte a v) ∧ pteFrame (m.pte a v) = f := by
  have hne : m.spaces.total (fun s => s.pt.total (mapsFrame f)) ≠ 0 := Nat.pos_iff_ne_zero.mp h
  obtain ⟨a, ha⟩ := FinMap.exists_of_total_ne_zero hne
  obtain ⟨v, hv⟩ := FinMap.exists_of_total_ne_zero ha
  refine ⟨a, v, ?_⟩
  change mapsFrame f (m.pte a v) ≠ 0 at hv
  unfold mapsFrame at hv
  simpa using hv

theorem Owned.framesCounted {kern : ℕ → Bool} (h : Owned kern (fun _ => 0) Held.none m) :
    FramesCounted kern m := by
  have hlive : ∀ f, liveRefs Held.none m f = mappings m f + tableRefs m f := fun f => rfl
  have hapart : ∀ f, 0 < mappings m f → f ≠ 0 ∧ tableRefs m f = 0 := by
    intro f hpos
    obtain ⟨a, v, hp, rfl⟩ := exists_of_mappings hpos
    have hne := h.nonzero a v hp
    refine ⟨hne, ?_⟩
    by_contra htable
    have := h.excl _ hne (by omega)
    rw [hlive] at this
    omega
  refine ⟨fun f hpos => ?_, fun f hpos => ?_, fun f hf hk ht => ?_⟩
  · obtain ⟨hf, ht⟩ := hapart f hpos
    have hheld := (h.held f hf (by rw [hlive]; omega)).2.2.2
    rw [pmmRefCount_eq h hf (by omega), hheld, hlive]
    omega
  · obtain ⟨hf, ht⟩ := hapart f hpos
    exact ⟨hf, (h.held f hf (by rw [hlive]; omega)).2.2.1, ht⟩
  constructor
  · intro hfree
    by_contra hmapped
    have := (h.held f hf (by rw [hlive]; omega)).2.1
    rw [hfree] at this
    contradiction
  · intro hnone
    rw [(h.free f hf (by rw [hlive]; omega)).2, hk]

/-- In a run where every operation succeeds and no fork pushes a count past its ceiling, the
counts are right in every state. -/
theorem run_framesCounted {kern : ℕ → Bool} {m : Machine} (hm : Sane m)
    (h : Owned kern (fun _ => 0) Held.none m) (ops : List Op) (hops : Run.Meets (fun m op =>
      (step m op).1) (fun m op => (step m op).2 = true ∧ op.fits m = true) m ops) (n : ℕ) :
    FramesCounted kern (run m (ops.take n)) := by
  have hinv := Run.invariant_take (I := Accounted kern True False Held.none)
    (fun m op hI hop => step_accounted hI hop.2 (fun _ => hop.1) False.elim)
    ⟨hm, ⟨_, h, fun _ _ => rfl⟩, False.elim⟩ hops n
  obtain ⟨leak, hown, hzero⟩ := hinv.owned
  obtain rfl : leak = fun _ => 0 := funext (hzero trivial)
  exact hown.framesCounted

theorem oneProcess_tableRefs (f : ℕ) (hf : f ≠ 0) :
    tableRefs oneProcess f = if f = 16 then 1 else 0 := by
  simp [tableRefs, oneProcess, tableWeight, deadSpace, FinMap.total, FinMap.set, FinMap.empty,
    insertKey, hf, eq_comm]

theorem oneProcess_mappings (f : ℕ) : mappings oneProcess f = 0 := rfl

theorem oneProcess_owned : Owned (fun f => decide (f < 16)) (fun _ => 0) Held.none oneProcess := by
  have hlive : ∀ f, f ≠ 0 → liveRefs Held.none oneProcess f = if f = 16 then 1 else 0 := by
    intro f hf
    rw [← oneProcess_tableRefs f hf]
    simp [liveRefs, Held.none, oneProcess_mappings]
  refine ⟨rfl, fun f hf hpos => ?_, fun f hf hz => ?_, fun f hf hpos => ?_, fun a v hp => ?_,
    rfl, rfl⟩
  · rw [hlive f hf] at hpos ⊢
    have h16 : f = 16 := by
      by_contra hne
      simp [hne] at hpos
    subst h16
    decide
  · rw [hlive f hf] at hz
    have h16 : f ≠ 16 := by
      rintro rfl
      simp at hz
    refine ⟨rfl, ?_⟩
    exact decide_eq_decide.mpr (by omega)
  · rw [hlive f hf]
    rw [oneProcess_tableRefs f hf] at hpos
    split at hpos
    · next h16 => rw [if_pos h16]
    · contradiction
  · rw [oneProcess_pte] at hp
    contradiction

/-- A process with a page forks, both write, and the child exits. -/
theorem run_framesCounted_fork : FramesCounted (fun f => decide (f < 16)) (run oneProcess
      ([.mmap 1 0 4096 3 0x22, .faultAnon 1 0x100000000000, .vmmFork 2 1,
        .resolveCow 2 0x100000000000, .unmapRange 1 0x100000000000 4096, .exit 2].take 5)) :=
  run_framesCounted oneProcess_sane oneProcess_owned _ (by decide +kernel) 5

/-! ## Past the ceiling

A count stops at `0xFFFF` when it is raised, but it is lowered from there all the same. -/

/-- The entry of a read-only page in frame 20. -/
def textEntry : Pte := pteMake 20 pteUser

/-- One process with a single page of text, on a machine with a million frames. -/
def loaded : Machine := { oneProcess with
    highest := 2 ^ 20
    used := fun f => decide (f < 21)
    freeFrames := 2 ^ 20 - 21
    spaces := FinMap.empty.set 1 { deadSpace with
      live := true
      pml4 := 16
      tables := ((FinMap.empty.set (tableKey 27 0x400) 17).set (tableKey 18 0x400) 18).set
        (tableKey 9 0x400) 19
      pt := FinMap.empty.set 0x400 textEntry
      brk := userHeapBase, brkTop := userHeapBase, mmapNext := userMmapBase } }

theorem loaded_space (a : ℕ) : loaded.space a = if a = 1 then loaded.space 1 else deadSpace :=
  FinMap.get_set _ _ _ _

theorem loaded_pte (a v : ℕ) : loaded.pte a v = if a = 1 ∧ v = 0x400 then textEntry else 0 := by
  unfold Machine.pte
  rw [loaded_space]
  by_cases ha : a = 1
  · simp only [ha, if_true, true_and]
    exact FinMap.get_set ..
  · simp only [ha, if_false]
    rfl

theorem textEntry_private : isPrivate textEntry := by decide

theorem textEntry_frame : pteFrame textEntry = 20 := by decide

theorem loaded_sane : Sane loaded := by
  have hdead : ∀ a, (loaded.space a).live = false → loaded.space a = deadSpace := by
    intro a h
    rw [loaded_space] at h ⊢
    split at h
    · contradiction
    · next hne => rw [if_neg hne]
  refine ⟨rfl, by decide, fun a v hp hc => ?_, fun a x hx => ?_, fun a h v => ?_, fun a h k => ?_,
    fun a h => ?_, fun a h => ?_, fun a h => ?_⟩
  · rw [loaded_pte]
    split
    · decide
    · exact has_zero _
  · rw [loaded_space] at hx
    split at hx <;> cases hx
  · unfold Machine.pte
    rw [hdead a h]
    rfl
  · rw [hdead a h]
    rfl
  · rw [hdead a h]
    rfl
  · rw [hdead a h]
    rfl
  rw [loaded_space] at h ⊢
  split at h
  · next heq => rw [if_pos heq]; decide
  · contradiction

theorem loaded_mappings (f : ℕ) : mappings loaded f = if f = 20 then 1 else 0 := by
  have h : mappings loaded f = mapsFrame f textEntry := rfl
  rw [h, mapsFrame_of_private textEntry_private, textEntry_frame]

theorem loaded_tableRefs (hf : f ≠ 0) : tableRefs loaded f = if 16 ≤ f ∧ f < 20 then 1 else 0 := by
  have h : tableRefs loaded f = (if 16 = f then 1 else 0) + (if 0 = f then 1 else 0) +
      ((if 19 = f then 1 else 0) + ((if 18 = f then 1 else 0) + ((if 17 = f then 1 else 0) + 0))) :=
    rfl
  rw [h]
  split_ifs <;> omega

theorem loaded_owned : Owned (fun f => decide (f < 16)) (fun _ => 0) Held.none loaded := by
  have hlive : ∀ f, f ≠ 0 →
      liveRefs Held.none loaded f = if 16 ≤ f ∧ f < 21 then 1 else 0 := by
    intro f hf
    change mappings loaded f + tableRefs loaded f + 0 + 0 = _
    rw [loaded_mappings, loaded_tableRefs hf]
    split_ifs <;> omega
  refine ⟨rfl, fun f hf hpos => ?_, fun f hf hz => ?_, fun f hf hpos => ?_, fun a v hp => ?_,
    rfl, rfl⟩
  · rw [hlive f hf] at hpos ⊢
    change f < 2 ^ 20 ∧ decide (f < 21) = true ∧ decide (f < 16) = false ∧ 0 + 1 = _ + 0
    split at hpos
    · next hr =>
      rw [if_pos hr]
      exact ⟨by omega, decide_eq_true (by omega), decide_eq_false (by omega), rfl⟩
    · contradiction
  · rw [hlive f hf] at hz
    refine ⟨rfl, decide_eq_decide.mpr ?_⟩
    split at hz <;> omega
  · rw [hlive f hf]
    change 0 < tableRefs loaded f + 0 at hpos
    rw [loaded_tableRefs hf] at hpos
    split_ifs at hpos ⊢ <;> omega
  · rw [loaded_pte] at hp ⊢
    split at hp
    · next h => rw [if_pos h]; decide
    · contradiction

/-- `n` children of the first process, all sharing its page. -/
structure Forked (n : ℕ) (m : Machine) : Prop where
  ample : Ample 20 (4 * (65536 - n)) m
  lone : ∀ a, 1 ≤ a → a ≤ n + 1 → Lone 20 0x400 textEntry (m.space a)
  dead : ∀ a, n + 1 < a → (m.space a).live = false
  counted : m.ref.isSome = true
  count : refAt m 20 = min n 65535

theorem Forked.start : Forked 0 loaded := by
  have hroom : 4 * 65536 ≤ (Bitmap.clear loaded.used loaded.highest).card := by
    rw [show Bitmap.clear loaded.used loaded.highest = Finset.Ico 21 (2 ^ 20) by
      ext x
      simp [loaded, and_comm], Nat.card_Ico]
    decide
  refine ⟨⟨rfl, rfl, by decide, hroom, by decide⟩, fun a h1 h2 => ?_, fun a ha => ?_, rfl, rfl⟩
  · obtain rfl : a = 1 := by omega
    refine ⟨⟨rfl, rfl, by decide, fun k => ?_⟩, rfl⟩
    simp only [Machine.space, loaded, FinMap.get_set, FinMap.get_empty, if_true]
    split_ifs <;> decide
  · rw [loaded_space, if_neg (by omega)]
    rfl

theorem refAt_pmmRefInc (hlt : f < m.highest) (hsome : m.ref.isSome) (hmax : refAt m f ≤ 65535) :
    refAt (pmmRefInc m f) f = min (refAt m f + 1) 65535 := by
  obtain ⟨r, hr⟩ := Option.isSome_iff_exists.mp hsome
  rw [refAt_some hr] at hmax ⊢
  unfold pmmRefInc
  rw [hr]
  simp only
  rw [if_neg (by omega)]
  split
  · rw [refAt_some rfl, Function.update_self]
    omega
  · rw [refAt_some hr]
    omega

theorem Forked.next (hn : n < 65536) (h : Forked n m) :
    (step m (.vmmFork (n + 2) 1)).2 ∧ Forked (n + 1) (step m (.vmmFork (n + 2) 1)).1 := by
  have hfrom := h.lone 1 (le_refl 1) (by omega)
  have hample : Ample 20 (4 * (65536 - (n + 1)) + 4) m := by
    rw [show 4 * (65536 - (n + 1)) + 4 = 4 * (65536 - n) by omega]
    exact h.ample
  obtain ⟨m', hfork, hnext, hothers, hchild, href⟩ := vmmFork_lone (n + 2) hample hfrom
    (by omega) (by decide) textEntry_private (by decide) textEntry_frame
  have hstep : step m (.vmmFork (n + 2) 1) = (m', true) := by
    simp only [step, h.dead (n + 2) (by omega), hfrom.live, Bool.not_true, Bool.or_self,
      Bool.false_eq_true, if_false, hfork]
  have hcount := refAt_pmmRefInc hample.below h.counted (by rw [h.count]; omega)
  rw [hstep]
  refine ⟨rfl, hnext, fun a h1 h2 => ?_, fun a ha => ?_, ?_, ?_⟩
  · by_cases ha : a = n + 2
    · rwa [ha]
    · rw [hothers a ha]
      exact h.lone a h1 (by omega)
  · rw [hothers a (by omega)]
    exact h.dead a (by omega)
  · rw [href, pmmRefInc_counted]
    exact h.counted
  · have heq : refAt m' 20 = refAt (pmmRefInc m 20) 20 := by
      unfold refAt
      rw [href]
    rw [heq, hcount, h.count]
    omega

/-- All children were there, and `k` of them are gone. -/
structure Left (k : ℕ) (m : Machine) : Prop where
  highest : 20 < m.highest
  counted : m.ref.isSome = true
  lone : ∀ a, a = 1 ∨ k + 2 ≤ a ∧ a ≤ 65537 → Lone 20 0x400 textEntry (m.space a)
  shared : k ≤ 65535 → refAt m 20 + k = 65535 ∧ m.used 20 = true
  freed : k = 65536 → m.used 20 = false

theorem Forked.left (hn : n = 65536) (h : Forked n m) : Left 0 m := by
  subst hn
  exact ⟨h.ample.below, h.counted, fun a ha => h.lone a (by omega) (by omega),
    fun _ => ⟨h.count, h.ample.taken⟩, by omega⟩

theorem Left.next {k : ℕ} (hk : k < 65536) (h : Left k m) :
    (step m (.exit (k + 2))).2 ∧ Left (k + 1) (step m (.exit (k + 2))).1 := by
  obtain ⟨r, hr⟩ := Option.isSome_iff_exists.mp h.counted
  obtain ⟨hcount, hused⟩ := h.shared (by omega)
  have haside := vmmDestroy_lone (h.lone (k + 2) (by omega)) (by decide) textEntry_private
    textEntry_frame
  refine ⟨rfl, ?_⟩
  change Left (k + 1) (vmmDestroy m (k + 2))
  refine ⟨?_, ?_, fun a ha => ?_, fun hle => ?_, fun heq => ?_⟩
  · rw [haside.highest, (pmmFree_same m 20).highest]
    exact h.highest
  · rw [haside.counted, pmmFree_counted]
    exact h.counted
  · rw [haside.others a (by omega), (pmmFree_same m 20).space]
    exact h.lone a (by omega)
  · rw [refAt_some hr] at hcount
    rw [haside.ref, haside.used, pmmFree_shared hr (by decide) h.highest (by omega),
      refAt_some rfl, Function.update_self]
    exact ⟨by omega, hused⟩
  rw [refAt_some hr] at hcount
  rw [haside.used, pmmFree_last hr (by decide) h.highest (by omega) hused]
  simp

theorem crowd_forks (hn : n ≤ 65536) :
    Run.Meets (fun m op => (step m op).1) (fun m op => (step m op).2 = true) loaded
        ((List.range n).map fun k => .vmmFork (k + 2) 1) ∧
      Forked n (((List.range n).map fun k => Op.vmmFork (k + 2) 1).foldl
        (fun m op => (step m op).1) loaded) :=
  Run.Meets.staged Forked.start fun k hk _ h => h.next (by omega)

theorem crowd_exits (hn : n ≤ 65536) (h : Left 0 m) :
    Run.Meets (fun m op => (step m op).1) (fun m op => (step m op).2 = true) m
        ((List.range n).map fun k => .exit (k + 2)) ∧
        Left n (((List.range n).map fun k => Op.exit (k + 2)).foldl
        (fun m op => (step m op).1) m) :=
  Run.Meets.staged h fun k hk _ h => h.next (by omega)

/-- After 65536 forks the count of the shared page is one short, and once all children have
exited, the frame is free although the parent still maps it. -/
theorem saturated_frame_freed :
    Sane loaded ∧ Owned (fun f => decide (f < 16)) (fun _ => 0) Held.none loaded ∧
      ∃ ops, Run.Meets (fun m op => (step m op).1) (fun m op => (step m op).2 = true) loaded ops ∧
        (run loaded ops).used 20 = false ∧ 0 < mappings (run loaded ops) 20 ∧
        ¬ FramesCounted (fun f => decide (f < 16)) (run loaded ops) := by
  -- a name for the number keeps the list of operations from being written out
  obtain ⟨n, hn⟩ : ∃ n, n = 65536 := ⟨_, rfl⟩
  obtain ⟨hforks, hforked⟩ := crowd_forks (n := n) (by omega)
  obtain ⟨hexits, hleft⟩ := crowd_exits (n := n) (by omega) (hforked.left hn)
  rw [← List.foldl_append] at hleft
  refine ⟨loaded_sane, loaded_owned, _, hforks.append hexits, ?_⟩
  have hfree := hleft.freed hn
  have hpte := (hleft.lone 1 (Or.inl rfl)).pte
  have hmapped := one_le_mappings (by rw [hpte]; exact textEntry_private)
  rw [hpte] at hmapped
  refine ⟨hfree, hmapped, fun hcounts => ?_⟩
  obtain ⟨hne, hkern, htable⟩ := hcounts.apart 20 hmapped
  exact Nat.ne_of_gt hmapped ((hcounts.free_iff 20 hne hkern htable).mp hfree)

end Vextro.Paging
