import Vextro.Model.Loader
import Vextro.Verification.Paging.ReverseMap

/-! Programs are loaded and replaced: the reverse map in every run. -/

namespace Vextro.Paging

open List

variable {m : Machine} {a v : ℕ} {flags : Pte} {S : ℕ × ℕ → Prop} {img : Image}

/-! ## Pages of a new program -/

/-- As `Tells`, and the machine stays sane. -/
structure Loads (S : ℕ × ℕ → Prop) (m m' : Machine) : Prop extends Tells S m m' where
  sane : Sane m → Sane m'

namespace Loads

variable {T : ℕ × ℕ → Prop} {m' m'' : Machine}

theorem refl (S : ℕ × ℕ → Prop) (m : Machine) : Loads S m m := ⟨.refl S m, id⟩

theorem trans (h : Loads S m m') (h' : Loads S m' m'') : Loads S m m'' :=
  ⟨h.toTells.trans h'.toTells, fun hm => h'.sane (h.sane hm)⟩

theorem mono (h : Loads S m m') (hST : ∀ p, S p → T p) :
    Loads T m m' := ⟨h.toTells.mono hST, h.sane⟩

theorem write (S : ℕ × ℕ → Prop) (m : Machine) (mem : ℕ → Page) : Loads S m { m with mem := mem } :=
  ⟨.quiet rfl rfl rfl, fun hm => hm.of_spaces rfl rfl rfl⟩

theorem free (S : ℕ × ℕ → Prop) (m : Machine) (f : ℕ) : Loads S m (pmmFree m f) :=
  ⟨pmmFree_tells S m f, fun hm => hm.of_spaces (pmmFree_same m f).spaces (pmmFree_used_zero m f)
    (pmmFree_same m f).highest⟩

end Loads

theorem pmmAlloc_loads (S : ℕ × ℕ → Prop) (m : Machine) : Loads S m (pmmAlloc m).1 :=
  ⟨pmmAlloc_tells S m, fun hm => (pmmAlloc_does Held.none hm).sane hm⟩

theorem vmmWalk_loads (S : ℕ × ℕ → Prop) (hl : (m.space a).live) (v : ℕ) :
    Loads S m (vmmWalk m a v).1 :=
  ⟨vmmWalk_tells S m a v, fun hm => (vmmWalk_does Held.none hm hl v).sane hm⟩

theorem vmmMap_sane (hm : Sane m) {f : ℕ} (hl : (m.space a).live)
    (hcow : has flags pteCow = false) :
    Sane (vmmMap m a v f flags).1 := by
  have hwalk := vmmWalk_loads (fun _ => False) hl v
  have hrmap : ∀ (m : Machine) (owner : Option (ℕ × ℕ)), Sane m → Sane (swapRmapSet m f owner) :=
    fun m owner hm => (swapRmapSet_does Held.none m f owner).sane hm
  rw [vmmMap]
  rcases hw : vmmWalk m a v with ⟨m', ok⟩
  rw [hw] at hwalk
  cases ok with
  | false => exact hwalk.sane hm
  | true =>
    have hset : Sane (m'.setPte a v (pteMake f flags)) := by
      refine (hwalk.sane hm).setPte (.inl (hwalk.live a hl)) fun _ hc => ?_
      simp [has_pteMake isFlag_cow (by decide), hcow] at hc
    dsimp only
    split
    · exact hrmap _ _ hset
    · exact hrmap _ _ hset

theorem vmmMap_loads
    {f : ℕ} (hl : (m.space a).live) (hn : Nameless m a v) (hcow : has flags pteCow = false)
    (hown : has flags pteShared = false → f < 2 ^ 40 ∧ flags &&& pteAddrMask = 0 ∧ S (a, v)) :
    Loads S m (vmmMap m a v f flags).1 :=
  ⟨vmmMap_tells hl hn hown, fun hm => vmmMap_sane hm hl hcow⟩

theorem vmmAllocMap_loads (hl : (m.space a).live) (hn : Nameless m a v) (hhigh : m.highest ≤ 2 ^ 40)
    (haddr : flags &&& pteAddrMask = 0) (hcow : has flags pteCow = false) :
    Loads (fun p => p = (a, v)) m (vmmAllocMap m a v flags).1 := by
  have halloc := pmmAlloc_loads (fun _ => False) m
  have hlt := pmmAlloc_lt m
  rw [vmmAllocMap]
  rcases ha : pmmAlloc m with ⟨m', f⟩
  rw [ha] at halloc hlt
  cases f with
  | zero => exact halloc.mono fun _ h => h.elim
  | succ f =>
    have hf : f + 1 < 2 ^ 40 := (hlt (Nat.succ_ne_zero f)).trans_le hhigh
    have hmap := (halloc.mono fun _ h => h.elim).trans (vmmMap_loads
      (S := fun p => p = (a, v)) (halloc.live a hl) (halloc.nameless hn id) hcow
      fun _ => ⟨hf, haddr, rfl⟩)
    simp only
    rcases hr : vmmMap m' a v (f + 1) flags with ⟨m2, ok⟩
    rw [hr] at hmap
    cases ok with
    | true => exact hmap
    | false => exact hmap.trans (.free _ m2 (f + 1))

/-! ## Loops -/

-- The second part is given by an equation: put in place it would be evaluated.
theorem andThen_loads {r n : Machine × Bool} {next : Machine → Machine × Bool} (hr : Loads S m r.1)
    (hn : next r.1 = n) (hnext : Loads S r.1 n.1) : Loads S m (andThen r next).1 := by
  rw [andThen, hn]
  split
  · exact hr.trans hnext
  · exact hr

/-- A loop that maps one page after the other, all of them without a name so far. -/
theorem forEach_loads {α : Type} {body : Machine → α → Machine × Bool} (page : α → ℕ) {xs : List α}
    (hbody : ∀ m, ∀ x ∈ xs, (m.space a).live → Nameless m a (page x) → m.highest ≤ 2 ^ 40 →
      Loads (fun p => p = (a, page x) ∧ S p) m (body m x).1) (hnd : (xs.map page).Nodup)
    (hl : (m.space a).live) (hn : ∀ x ∈ xs, Nameless m a (page x)) (hhigh : m.highest ≤ 2 ^ 40) :
    Loads S m (forEach body xs m).1 := by
  induction xs generalizing m with
  | nil => exact .refl S m
  | cons x xs ih =>
    obtain ⟨hx, hnd⟩ := nodup_cons.mp hnd
    have hone := hbody m x mem_cons_self hl (hn x mem_cons_self) hhigh
    refine andThen_loads (hone.mono fun _ h => h.2) rfl
      (ih (fun m y hy => hbody m y (mem_cons_of_mem x hy)) hnd (hone.live a hl) (fun y hy => ?_)
        (hone.highest ▸ hhigh))
    refine hone.nameless (hn y (mem_cons_of_mem x hy)) fun h => hx ?_
    rw [← (Prod.mk.inj h.1).2]
    exact mem_map_of_mem hy

theorem aprotFlags_addr (prot : UInt8) : aprotFlags prot &&& pteAddrMask = 0 := by
  dsimp only [aprotFlags]
  generalize (if prot = 0 then 1 else prot) = p
  split <;> split <;> decide

theorem aprotFlags_cow (prot : UInt8) : has (aprotFlags prot) pteCow = false := by
  dsimp only [aprotFlags]
  generalize (if prot = 0 then 1 else prot) = p
  split <;> split <;> decide

theorem vmmAllocRange_loads
    {base len : ℕ} (hl : (m.space a).live) (hn : ∀ v ∈ rangePages base len, Nameless m a v)
    (hhigh : m.highest ≤ 2 ^ 40) (hS : ∀ v ∈ rangePages base len, S (a, v)) :
    Loads S m (vmmAllocRange m a base len dataFlags).1 := by
  refine forEach_loads id (fun m v hv hl hn hhigh => ?_) ?_ hl hn hhigh
  · refine (vmmAllocMap_loads hl hn hhigh (by decide) (by decide)).mono fun p hp => ⟨hp, ?_⟩
    rw [hp]
    exact hS v hv
  · rw [map_id]
    exact nodup_range'

theorem imagePage_eq (base p : ℕ) : imagePage base p = (base / 4096 + p) % 2 ^ 52 := by
  rw [imagePage]
  omega

/-- The pages of an image are as many as there are. -/
theorem imagePages_nodup (base : ℕ) {n : ℕ} (hn : n ≤ 2 ^ 52) :
    ((List.range n).map (imagePage base)).Nodup := by
  refine nodup_range.map_on fun p hp q hq h => ?_
  rw [imagePage_eq, imagePage_eq] at h
  rw [mem_range] at hp hq
  omega

theorem appMapPages_loads {n : ℕ} (hfits : n ≤ 2 ^ 52) (hl : (m.space a).live)
    (hn : ∀ p < n, Nameless m a (imagePage img.base p)) (hhigh : m.highest ≤ 2 ^ 40)
    (hS : ∀ p < n, S (a, imagePage img.base p)) :
    Loads S m (forEach (appMapPage a img) (List.range n) m).1 := by
  refine forEach_loads (imagePage img.base) (fun m p hp hl hn hhigh => ?_) ?_ hl
    (fun p hp => hn p (mem_range.mp hp)) hhigh
  · have hmap := (vmmAllocMap_loads hl hn hhigh (aprotFlags_addr (img.prot p))
      (aprotFlags_cow (img.prot p))).mono (T := fun q => q = (a, imagePage img.base p) ∧ S q)
        fun q hq => ⟨hq, by
          rw [hq]
          exact hS p (mem_range.mp hp)⟩
    rw [appMapPage]
    rcases hr : vmmAllocMap m a (imagePage img.base p) (aprotFlags (img.prot p)) with ⟨m', f⟩
    rw [hr] at hmap
    cases f with
    | zero => exact hmap
    | succ f => exact hmap.trans (.write _ m' _)
  · exact imagePages_nodup img.base hfits

theorem vmmMapShared_loads {frames : List ℕ} (hcow : has (flags ||| pteShared) pteCow = false)
    (hl : (m.space a).live) (hn : ∀ i < frames.length, Nameless m a (v + i))
    (hhigh : m.highest ≤ 2 ^ 40) :
    Loads (fun _ => False) m (vmmMapShared m a v frames flags).1 := by
  refine forEach_loads (fun i => v + i) (fun m i _ hl hn hhigh => ?_) ?_ hl
    (fun i hi => hn i (mem_range.mp hi)) hhigh
  · split
    · exact .refl _ m
    · refine vmmMap_loads hl hn hcow fun hshared => ?_
      simp +decide [has_or] at hshared
  · exact nodup_range.map fun x y h => Nat.add_left_cancel h

theorem appMapGuard_loads (hl : (m.space a).live) (hn : Nameless m a v) :
    Loads S m (appMapGuard m a v) := by
  have hwalk := vmmWalk_loads S hl v
  have hn' := (vmmWalk_loads (fun _ => False) hl v).nameless hn id
  rw [appMapGuard]
  rcases hw : vmmWalk m a v with ⟨m', ok⟩
  rw [hw] at hwalk hn'
  cases ok with
  | false => exact hwalk
  | true =>
    refine hwalk.trans ⟨.setPte_nameless _ hn', fun hm => hm.setPte (.inl (hwalk.live a hl)) ?_⟩
    exact fun hp => absurd hp (by decide)

/-! ## Writing into a space -/

theorem asWriteFrom_rule {R : Machine → Prop} (hanon : ∀ m va, R m → R (vmmFaultAnon m a va).1)
    (hswap : ∀ m v, R m → R (swapInPage m a v).1) (hwrite : ∀ m mem, R m → R { m with mem })
    (n va : ℕ) (bytes : List UInt8) (h : R m) : R (asWriteFrom a n va bytes m).1 := by
  have hresolve : ∀ m va, R m → R (vmmResolve m a va).1 := by
    intro m va h
    have hfirst : R
        (if has (m.pte a (va / 4096)) ptePresent then m else (vmmFaultAnon m a va).1) := by
      split
      · exact h
      · exact hanon m va h
    rw [vmmResolve]
    generalize (if has (m.pte a (va / 4096)) ptePresent then m else (vmmFaultAnon m a va).1) =
      n at hfirst ⊢
    have hthen := hswap n (va / 4096) hfirst
    split
    · exact hfirst
    split
    · exact hfirst
    rcases hr : swapInPage n a (va / 4096) with ⟨m', _ | _⟩ <;> rw [hr] at hthen
    · exact hthen
    · dsimp only
      split <;> exact hthen
  induction n generalizing va bytes m with
  | zero => exact h
  | succ n ih =>
    have hpage := hresolve m va h
    rw [asWriteFrom]
    split
    · exact h
    rcases hr : vmmResolve m a va with ⟨m', _ | f⟩ <;> rw [hr] at hpage
    · exact hpage
    · exact ih _ _ (hwrite _ _ hpage)

theorem asWriteFrom_loads (a n : ℕ) (va : ℕ) (bytes : List UInt8) (hm : Sane m) (ht : Truthful m) :
    Loads (fun p => p.1 = a) m (asWriteFrom a n va bytes m).1 := by
  refine asWriteFrom_rule
    (fun n va h => h.trans ⟨?_, fun hm => (vmmFaultAnon_does Held.none hm a va).sane hm⟩)
    (fun n v h => h.trans ⟨?_, fun hm => (swapInPage_does Held.none hm a v).sane hm⟩)
    (fun n mem h => h.trans (.write _ n mem)) n va bytes (.refl _ m)
  · exact (vmmFaultAnon_tells (h.sane hm) (h.truthful ht) a va).mono fun p hp => by rw [hp]
  · exact (swapInPage_tells (h.truthful ht) a v).mono fun p hp => by rw [hp]

theorem asWrite_loads (hm : Sane m) (ht : Truthful m) (a va : ℕ) (bytes : List UInt8) :
    Loads (fun p => p.1 = a) m (asWrite m a va bytes).1 :=
  asWriteFrom_loads a bytes.length va bytes hm ht

theorem asWrites_loads (a : ℕ) (args : List (ℕ × List UInt8)) (hm : Sane m) (ht : Truthful m) :
    Loads (fun p => p.1 = a) m (forEach (fun m arg => asWrite m a arg.1 arg.2) args m).1 := by
  induction args generalizing m with
  | nil => exact .refl _ m
  | cons arg args ih =>
    have hone := asWrite_loads hm ht a arg.1 arg.2
    exact andThen_loads hone rfl (ih (hone.sane hm) (hone.truthful ht))

/-! ## Images -/

/-- The image ends before the address space does; one that wraps around would be mapped into the
kernel's part of the tables, which every space shares. -/
def Image.straight (img : Image) : Bool := img.base + img.span < 2 ^ 64

theorem Image.page_le (hin : img.inPlace) (hs : img.straight) {p : ℕ}
    (hp : p < (img.span + 4095) / 4096) : imagePage img.base p ≤ userImageMax / 4096 := by
  simp only [Image.inPlace, Image.straight, Bool.and_eq_true, decide_eq_true_eq] at hin hs
  rw [imagePage_eq]
  unfold userImageMax at *
  omega

/-- Where the pieces of a program lie: image, trampolines, surface, guard and stack do not meet. -/
theorem Layout.apart (lay : Layout) : userImageMax / 4096 < lay.trampVa / 4096 ∧
      lay.trampVa / 4096 + 1024 ≤ userCanvasVa / 4096 ∧ userCanvasVa / 4096 ≤ lay.canvasVa / 4096 ∧
      lay.canvasVa / 4096 + 1024 ≤ (lay.stackTop - userStackSize - 4096) / 4096 ∧
      (lay.stackTop - userStackSize - 4096) / 4096 < (lay.stackTop - userStackSize) / 4096 := by
  simp only [Layout.trampVa, Layout.canvasVa, Layout.stackTop, aslrOffset, userImageMax,
    userTrampVa, userCanvasVa, userStackTop, userStackSize]
  omega

theorem Layout.above (lay : Layout) (hin : img.inPlace) (hs : img.straight) : ∃ top,
    (∀ p < (img.span + 4095) / 4096, imagePage img.base p ≤ top) ∧ top < lay.trampVa / 4096 :=
  ⟨_, fun _ hp => Image.page_le hin hs hp, lay.apart.1⟩

theorem le_of_mem_rangePages {base len : ℕ} (h : v ∈ rangePages base len) : base / 4096 ≤ v :=
  (mem_range'_1.mp h).1

theorem appMapImage_loads (hm : Sane m) (ht : Truthful m) (hl : (m.space a).live)
    (hn : ∀ v, Nameless m a v) (hin : img.inPlace) (hs : img.straight) (lay : Layout) :
    Loads (fun p => p.1 = a) m (appMapImage m a img lay).1 := by
  obtain ⟨top, hpage, htop⟩ := lay.above hin hs
  have hfits : (img.span + 4095) / 4096 ≤ 2 ^ 52 := by
    simp only [Image.straight, decide_eq_true_eq] at hs
    omega
  obtain ⟨-, htramp, hcanvas, hguard, hstack⟩ := lay.apart
  have htrampFits := (Nat.add_le_add_left img.tramp_fits _).trans htramp
  have hcanvasFits := (Nat.add_le_add_left img.canvas_fits _).trans hguard
  have hbrk : Loads (fun _ => False) m (m.setSpace a { m.space a with
      brk := lay.heapBase, brkTop := lay.heapBase }) :=
    ⟨.setSpace rfl rfl, fun hm => act_sane hm
      (.tune (g := Held.none) a _ ⟨rfl, rfl, rfl, rfl, rfl, rfl⟩)⟩
  rw [appMapImage]
  generalize m.setSpace a _ = m0 at hbrk ⊢
  generalize lay.stackTop - userStackSize = base at hcanvasFits hstack ⊢
  generalize lay.trampVa / 4096 = tramp at htop htrampFits ⊢
  generalize lay.canvasVa / 4096 = canvas at hcanvas hcanvasFits ⊢
  generalize (base - 4096) / 4096 = guard at hcanvasFits hstack ⊢
  generalize (img.span + 4095) / 4096 = n at hpage hfits ⊢
  -- each piece leaves the pages of the later ones without a name
  have hpages : Loads (fun p => p.1 = a ∧ p.2 ≤ top) m0
      (forEach (appMapPage a img) (List.range n) m0).1 :=
    appMapPages_loads hfits (hbrk.live a hl) (fun p _ => hbrk.nameless (hn _) id)
      (hbrk.highest ▸ ht.highest) fun p hp => ⟨rfl, hpage p hp⟩
  generalize forEach (appMapPage a img) (List.range n) m0 = r1 at hpages ⊢
  have h1 : Loads (fun p => p.1 = a ∧ p.2 ≤ top) m r1.1 :=
    (hbrk.mono fun _ h => h.elim).trans hpages
  have hn1 : ∀ v, top < v → Nameless r1.1 a v := fun v hv =>
    h1.nameless (hn v) fun h => absurd h.2 hv.not_ge
  refine (hbrk.mono fun _ h => h.elim).trans (andThen_loads (hpages.mono fun _ h => h.1) rfl ?_)
  have hrange : Loads (fun p => p.1 = a ∧ base / 4096 ≤ p.2) r1.1
      (vmmAllocRange r1.1 a base userStackSize dataFlags).1 :=
    vmmAllocRange_loads (h1.live a hl)
      (fun v hv => hn1 v (by have := le_of_mem_rangePages hv; omega)) (h1.highest ▸ ht.highest)
      fun v hv => ⟨rfl, le_of_mem_rangePages hv⟩
  generalize vmmAllocRange r1.1 a _ _ _ = r2 at hrange ⊢
  have hn2 : ∀ v, top < v → v < base / 4096 → Nameless r2.1 a v := fun v hv hv' =>
    hrange.nameless (hn1 v hv) fun h => absurd h.2 hv'.not_ge
  have h2 : Loads (fun p => p.1 = a) m r2.1 :=
    (h1.mono fun _ h => h.1).trans (hrange.mono fun _ h => h.1)
  refine andThen_loads (hrange.mono fun _ h => h.1) rfl ?_
  have hg : Loads (fun _ => False) r2.1 (appMapGuard r2.1 a guard) :=
    appMapGuard_loads (h2.live a hl) (hn2 _ (by omega) (by omega))
  generalize appMapGuard r2.1 a _ = m3 at hg ⊢
  have h3 : Loads (fun p => p.1 = a) m m3 := h2.trans (hg.mono fun _ h => h.elim)
  have ht3 : Loads (fun _ => False) m3 (vmmMapShared m3 a tramp img.tramp pteUser).1 :=
    vmmMapShared_loads (by decide) (h3.live a hl)
      (fun i hi => hg.nameless (hn2 _ (by omega) (by omega)) id) (h3.highest ▸ ht.highest)
  refine (hg.mono fun _ h => h.elim).trans (andThen_loads (ht3.mono fun _ h => h.elim) rfl ?_)
  generalize vmmMapShared m3 a _ _ _ = r4 at ht3 ⊢
  have h4 : Loads (fun p => p.1 = a) m r4.1 := h3.trans (ht3.mono fun _ h => h.elim)
  have hc : Loads (fun _ => False) r4.1
      (vmmMapShared r4.1 a canvas img.canvas dataFlags).1 :=
    vmmMapShared_loads (by decide) (h4.live a hl)
      (fun i hi => ht3.nameless (hg.nameless (hn2 _ (by omega) (by omega)) id) id)
      (h4.highest ▸ ht.highest)
  refine andThen_loads (hc.mono fun _ h => h.elim) rfl ?_
  have h5 := h4.trans (hc.mono fun _ h => h.elim)
  exact asWrite_loads (h5.sane hm) (h5.truthful ht) a _ _

/-! ## Calls -/

/-- What the run keeps: the machine is sane, and what the reverse map says is so. -/
structure Mapped (m : Machine) : Prop where
  sane : Sane m
  truthful : Truthful m

theorem Loads.mapped {m' : Machine} (h : Loads S m m') (hm : Mapped m) : Mapped m' :=
  ⟨h.sane hm.sane, h.truthful hm.truthful⟩

theorem Mapped.destroy (h : Mapped m) (hu : unnamed m a) : Mapped (vmmDestroy m a) :=
  ⟨(vmmDestroy_does Held.none h.sane a).sane h.sane,
    h.truthful.destroy (h.truthful.nameless_of_unnamed hu)⟩

/-- The pages that `sbrk` would map. -/
def sbrkPages (m : Machine) (a : ℕ) (delta : ℤ) : List ℕ := let s := m.space a
  rangePages s.brkTop (pageAlignUp ((s.brk + delta.natAbs) % 2 ^ 64) - s.brkTop)

theorem sysSbrk_loads (ht : Truthful m) {delta : ℤ}
    (hfresh : ∀ v ∈ sbrkPages m a delta, isPrivate (m.pte a v) = false) :
    Loads (fun p => p.1 = a) m (sysSbrk m a delta).1 := by
  have htune : ∀ (n : Machine) (brk top : ℕ), Loads (fun p => p.1 = a) n
      (n.setSpace a { n.space a with brk := brk, brkTop := top }) := fun n brk top =>
    ⟨.setSpace rfl rfl, fun hm => act_sane hm
      (.tune (g := Held.none) a _ ⟨rfl, rfl, rfl, rfl, rfl, rfl⟩)⟩
  rw [sysSbrk]
  dsimp only
  split
  · exact .refl _ m
  rename_i hlive
  split
  · exact .refl _ m
  split
  · exact htune m _ _
  split
  · exact .refl _ m
  split
  · refine andThen_loads (vmmAllocRange_loads (by simpa using hlive)
      (fun v hv => ht.nameless_of_absent (hfresh v hv)) ht.highest fun _ _ => rfl) rfl ?_
    exact htune _ _ _
  · exact htune m _ _

/-- What a call gives to `vmm_destroy`: a space, in the machine as it is by then. -/
def Call.drops (m : Machine) : Call → Option (Machine × ℕ)
  | .spawn a img lay thread =>
    if (m.space a).live || !img.inPlace || !(vmmCreate m a).2 then none
    else
      let r := andThen (appMapImage (vmmCreate m a).1 a img lay) fun m => (m, thread)
      if r.2 then none else some (r.1, a)
  | .execve nas old img lay args =>
    if !(m.space old).live || (m.space nas).live || !img.inPlace || !(vmmCreate m nas).2 then none
    else
      let r := andThen (appMapImage (vmmCreate m nas).1 nas img lay) fun m =>
        forEach (fun m arg => asWrite m nas arg.1 arg.2) args m
      some (r.1, if r.2 then old else nas)
  | _ => none

/-- The call destroys no space with a named page, moves no page that is named, and maps no image
into the kernel's part. -/
def Call.forgets (m : Machine) (c : Call) : Bool := (c.drops m).all (fun d => unnamed d.1 d.2) &&
    match c with
    | .op o => o.forgets m
    | .sbrk a delta => (sbrkPages m a delta).all fun v => !isPrivate (m.pte a v)
    | .spawn _ img .. | .execve _ _ img .. => !img.inPlace || img.straight

section

variable (h : Mapped m)
include h

theorem vmmCreate_loads (hd : (m.space a).live = false) :
    Loads (fun _ => False) m (vmmCreate m a).1 :=
  ⟨vmmCreate_tells (h.truthful.nameless_of_dead hd),
    fun hm => (vmmCreate_does Held.none hm hd).1.sane hm⟩

/-- A new space with an image in it and whatever `next` adds. -/
theorem program_mapped (hd : (m.space a).live = false) (hc : (vmmCreate m a).2)
    (hin : img.inPlace) (hs : img.straight) (lay : Layout) (next : Machine → Machine × Bool)
    (hnext : ∀ m, Mapped m → Mapped (next m).1) :
    Mapped (andThen (appMapImage (vmmCreate m a).1 a img lay) next).1 := by
  have hcreate := vmmCreate_loads h hd
  have himage := (appMapImage_loads (hcreate.sane h.sane) (hcreate.truthful h.truthful)
    ((vmmCreate_does Held.none h.sane hd).2 hc).1
    (fun v => hcreate.nameless (h.truthful.nameless_of_dead hd v) id) hin hs lay).mapped
    (hcreate.mapped h)
  rw [andThen]
  split
  · exact hnext _ himage
  · exact himage

theorem appSpawn_mapped {lay : Layout} {thread : Bool} (hs : img.inPlace → img.straight)
    (hu : ((Call.spawn a img lay thread).drops m).all (fun d => unnamed d.1 d.2)) :
    Mapped (appSpawn m a img lay thread).1 := by
  rw [appSpawn]
  split
  · exact h
  rename_i hstart
  obtain ⟨hd, hin⟩ : (m.space a).live = false ∧ img.inPlace = true := by simpa using hstart
  rw [andThen]
  split
  · rename_i hc
    have hbuilt := program_mapped h hd hc hin (hs hin) lay (fun m => (m, thread)) fun _ h => h
    rw [Call.drops, if_neg (by simp [hd, hin, hc])] at hu
    rw [orDestroy]
    split
    · exact hbuilt
    rename_i hr
    rw [if_neg hr] at hu
    exact hbuilt.destroy hu
  · exact (vmmCreate_loads h hd).mapped h

theorem sysExecve_mapped
    {nas old : ℕ} {lay : Layout} {args : List (ℕ × List UInt8)} (hs : img.inPlace → img.straight)
    (hu : ((Call.execve nas old img lay args).drops m).all (fun d => unnamed d.1 d.2)) :
    Mapped (sysExecve m nas old img lay args).1 := by
  rw [sysExecve]
  split
  · exact h
  rename_i hstart
  obtain ⟨⟨hold, hd⟩, hin⟩ :
      ((m.space old).live = true ∧ (m.space nas).live = false) ∧ img.inPlace = true := by
    simpa using hstart
  rw [andThen]
  split
  · rename_i hc
    have hbuilt := program_mapped h hd hc hin (hs hin) lay
      (fun m => forEach (fun m arg => asWrite m nas arg.1 arg.2) args m)
      fun m h => (asWrites_loads nas args h.sane h.truthful).mapped h
    rw [Call.drops, if_neg (by simp [hold, hd, hin, hc])] at hu
    dsimp only at hu
    generalize andThen (appMapImage (vmmCreate m nas).1 nas img lay)
      (fun m => forEach (fun m arg => asWrite m nas arg.1 arg.2) args m) = r at hbuilt hu ⊢
    rw [andThen, orDestroy]
    cases hr : r.2 with
    | true =>
      rw [hr] at hu
      simp only [if_true, hr]
      exact hbuilt.destroy hu
    | false =>
      rw [hr] at hu
      exact hbuilt.destroy hu
  · exact (vmmCreate_loads h hd).mapped h

theorem call_mapped {c : Call} (hc : c.forgets m) : Mapped (call m c).1 := by
  obtain ⟨hdrops, hcall⟩ := Bool.and_eq_true_iff.mp hc
  cases c with
  | op o => exact ⟨step_sane h.sane o, step_truthful h.sane h.truthful hcall⟩
  | sbrk a delta =>
    refine (sysSbrk_loads h.truthful fun v hv => ?_).mapped h
    simpa using all_eq_true.mp hcall v hv
  | spawn a img lay thread => exact appSpawn_mapped h (by simpa [imp_iff_not_or] using hcall) hdrops
  | execve nas old img lay args =>
    exact sysExecve_mapped h (by simpa [imp_iff_not_or] using hcall) hdrops

end

/-! ## Whole runs -/

/-- No stale entry: a named frame is mapped at the page it is named after, in a live space. -/
def NoStale (m : Machine) : Prop := ∀ f a v, names m f = some (a, v) →
    (m.space a).live = true ∧ has (m.pte a v) ptePresent = true ∧ pteFrame (m.pte a v) = f

theorem Truthful.noStale (h : Truthful m) : NoStale m := fun f a v hf =>
  ⟨h.live f a v hf, (isPrivate_iff.mp (h.page f a v hf).1).1, (h.page f a v hf).2⟩

/-- From a machine whose reverse map is empty, no run has a stale entry in which every call
forgets the pages it gives away. -/
theorem calls_noStale {m : Machine} (hm : Sane m) (hhigh : m.highest ≤ 2 ^ 40)
    (hempty : ∀ f, names m f = none) (cs : List Call)
    (hcs : Run.Meets (fun m c => (call m c).1) (fun m c => c.forgets m = true) m cs) (n : ℕ) :
    NoStale ((cs.take n).foldl (fun m c => (call m c).1) m) := by
  have hstart : Truthful m := by
    refine ⟨hhigh, fun f p hf => ?_, fun f a v hf => ?_, fun f a v hf => ?_⟩ <;>
    · simp [hempty] at hf
  exact (Run.invariant_take (I := Mapped) (fun _ _ h hc => call_mapped h hc) ⟨hm, hstart⟩ hcs
    n).truthful.noStale

/-- A page is touched, evicted, read back, shared with a child that exits, and unmapped. -/
theorem calls_noStale_unmapped :
    NoStale (([.op (.mmap 1 0 4096 3 0x22), .op (.faultAnon 1 0x100000000000), .op .swapOut,
        .op (.swapIn 1 0x100000000000), .op (.fork 2 1 true), .op (.exit 2),
        .op (.unmapRange 1 0x100000000000 4096),
        .op (.exit 1)].take 6).foldl (fun m c => (call m c).1) oneProcess) :=
  calls_noStale oneProcess_sane (by decide) (fun _ => rfl) _ (by decide +kernel) 6

/-- A process that exits leaves its page in the reverse map, and so does a forked process that
copies the page it shares: the first entry names a dead space, the second a page of another frame.
-/
theorem exit_leaves_stale :
    ¬ NoStale (([.op (.mmap 1 0 4096 3 0x22), .op (.faultAnon 1 0x100000000000),
        .op (.exit 1)]).foldl (fun m c => (call m c).1) oneProcess) ∧
      ¬ NoStale (([.op (.mmap 1 0 4096 3 0x22), .op (.faultAnon 1 0x100000000000),
        .op (.fork 2 1 true),
        .op (.resolveCow 1 0x100000000000)]).foldl (fun m c => (call m c).1) oneProcess) := by
  refine ⟨fun h => ?_, fun h => ?_⟩
  · exact absurd (h 18 1 0x100000000 (by decide +kernel)).1 (by decide +kernel)
  · exact absurd (h 18 1 0x100000000 (by decide +kernel)).2.2 (by decide +kernel)

end Vextro.Paging
