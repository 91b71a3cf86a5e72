import Vextro.Verification.Heap.Lists
import Vextro.Verification.Heap.Pages

/-! Slabs: their objects and their free lists. -/

namespace Vextro.Kheap

open Function (update update_apply update_of_ne update_self)
open List
open Links (Chain Doubly)

/-! ## The slabs of a heap -/

/-- A slab as its users see it: where it lies, what it is carved into, and the free objects in the
order of the free list. -/
structure SlabView where
  page : ℕ
  cls : ℕ
  pool : Pool
  free : List ℕ
  deriving DecidableEq

variable {a cls page : ℕ} {t s : SlabView} {pool : Pool} {h h' : Heap} {ss : List SlabView}

namespace SlabView

def size (s : SlabView) : ℕ := classSize s.cls

def total (s : SlabView) : ℕ := (4096 - kheapHdrBytes) / s.size

def obj (s : SlabView) (i : ℕ) : ℕ := s.page * 4096 + kheapHdrBytes + i * s.size

def objs (s : SlabView) : List ℕ := (List.range s.total).map s.obj

/-- The header, with the lists left out. -/
def header (s : SlabView) (freelist : ℕ) : Header :=
  .slab ⟨0, 0, freelist, s.size, s.total, s.free.length, s.cls, s.pool⟩

structure Ok (s : SlabView) : Prop where
  cls : s.cls < 8
  nodup : s.free.Nodup
  free : ∀ a ∈ s.free, a ∈ s.objs

end SlabView

theorem classSize_bounds (cls : ℕ) : 16 ≤ classSize cls ∧ classSize cls ≤ 2048 := by
  have hall : ∀ c < 8, 16 ≤ classSize c ∧ classSize c ≤ 2048 := by decide
  by_cases h : cls < 8
  · exact hall cls h
  have hnone : kheapClasses[cls]? = none := List.getElem?_eq_none (by simpa [kheapClasses] using h)
  rw [classSize, getD_eq_getElem?_getD, hnone]
  decide

namespace SlabView

theorem total_pos (s : SlabView) : 0 < s.total := by
  have hb := classSize_bounds s.cls
  exact Nat.div_pos (by simp only [size, kheapHdrBytes]; omega) (by simp only [size]; omega)

theorem mem_objs : a ∈ s.objs ↔ ∃ i < s.total, s.obj i = a := by
  simp [objs]

/-- An object is inside its page, after the header. -/
theorem obj_bounds {i : ℕ} (hi : i < s.total) :
    s.page * 4096 + kheapHdrBytes ≤ s.obj i ∧ s.obj i + s.size ≤ (s.page + 1) * 4096 := by
  have hmul : (i + 1) * s.size ≤ 4096 - kheapHdrBytes :=
    (Nat.mul_le_mul_right _ hi).trans (Nat.div_mul_le_self _ _)
  rw [Nat.add_mul] at hmul
  simp only [obj, kheapHdrBytes] at hmul ⊢
  omega

theorem obj_page (ha : a ∈ s.objs) : a / 4096 = s.page := by
  obtain ⟨i, hi, rfl⟩ := mem_objs.mp ha
  have hb := obj_bounds hi
  have hsize := classSize_bounds s.cls
  simp only [size] at hb
  omega

theorem obj_ne_zero (ha : a ∈ s.objs) : a ≠ 0 := by
  obtain ⟨i, hi, rfl⟩ := mem_objs.mp ha
  have hb := (obj_bounds hi).1
  simp only [kheapHdrBytes] at hb
  omega

/-- The objects of a slab do not overlap. -/
theorem obj_apart {i j : ℕ} (hij : i < j) : s.obj i + s.size ≤ s.obj j := by
  have hmul : (i + 1) * s.size ≤ j * s.size := Nat.mul_le_mul_right _ hij
  rw [Nat.add_mul] at hmul
  simp only [obj]
  omega

theorem obj_injective (s : SlabView) : Function.Injective s.obj := by
  have hsize := (classSize_bounds s.cls).1
  intro i j hij
  by_contra hne
  rcases Nat.lt_or_gt_of_ne hne with h | h
  · have := s.obj_apart h
    simp only [size] at this
    omega
  have := s.obj_apart h
  simp only [size] at this
  omega

theorem objs_nodup (s : SlabView) : s.objs.Nodup := nodup_range.map s.obj_injective

theorem objs_length (s : SlabView) : s.objs.length = s.total := by simp [objs]

end SlabView

/-- The slabs of a class with a free object. -/
def OnShelf (slabs : List SlabView) (pool : Pool) (cls p : ℕ) : Prop :=
  ∃ s ∈ slabs, s.page = p ∧ s.pool = pool ∧ s.cls = cls ∧ s.free ≠ []

/-- The heap holds exactly these slabs, with their free lists and in their lists. -/
structure Slabs (h : Heap) (slabs : List SlabView) : Prop where
  ok : ∀ s ∈ slabs, s.Ok
  pages : (slabs.map SlabView.page).Nodup
  nonzero : ∀ s ∈ slabs, s.page ≠ 0
  header : ∀ s ∈ slabs, ∃ fl, (h.header s.page).core = s.header fl ∧ Chain h.link fl s.free
  shelf : Shelves h (OnShelf slabs)
  counted : ∀ pool, h.slabPages pool = (slabs.filter fun s => s.pool = pool).length

namespace Slabs

variable {slabs : List SlabView}

section

variable (hs : Slabs h slabs)
include hs

theorem perm {slabs' : List SlabView} (hp : slabs.Perm slabs') : Slabs h slabs' := by
  refine ⟨fun s hm => hs.ok s (hp.mem_iff.mpr hm), (hp.map _).nodup_iff.mp hs.pages,
    fun s hm => hs.nonzero s (hp.mem_iff.mpr hm), fun s hm => hs.header s (hp.mem_iff.mpr hm),
    hs.shelf.congr fun pool cls p => ?_, fun pool => ?_⟩
  · simp only [OnShelf, hp.mem_iff]
  · rw [hs.counted, (hp.filter _).length_eq]

theorem eq_of_page (hm : s ∈ slabs) (ht : t ∈ slabs) (hp : s.page = t.page) : s = t :=
  inj_on_of_nodup_map hs.pages hm ht hp

theorem slabAt (hm : s ∈ slabs) : isSlab h s.page := by
  obtain ⟨fl, hc, -⟩ := hs.header s hm
  exact isSlab_of_core hc

theorem header_eq (hm : s ∈ slabs) : ∃ c fl, h.header s.page = .slab c ∧
    c = ⟨nextOf h s.page, prevOf h s.page, fl, s.size, s.total, s.free.length, s.cls, s.pool⟩ ∧
    Chain h.link fl s.free := by
  obtain ⟨fl, hc, hchain⟩ := hs.header s hm
  obtain ⟨c, hh⟩ := hs.slabAt hm
  refine ⟨c, fl, hh, ?_, hchain⟩
  rw [hh] at hc
  simp only [Header.core, SlabView.header] at hc
  simp only [nextOf, prevOf]
  cases c
  simp_all

theorem onShelf_unique {pool' : Pool} {cls' q : ℕ} (hq : OnShelf slabs pool cls q)
    (hq' : OnShelf slabs pool' cls' q) : pool = pool' ∧ cls = cls' := by
  obtain ⟨s, hm, hp, rfl, rfl, -⟩ := hq
  obtain ⟨t, ht, hp', rfl, rfl, -⟩ := hq'
  obtain rfl := hs.eq_of_page hm ht (hp.trans hp'.symm)
  exact ⟨rfl, rfl⟩

theorem isSlab_of_onShelf {q : ℕ} (hq : OnShelf slabs pool cls q) : isSlab h q := by
  obtain ⟨s, hm, rfl, -⟩ := hq
  exact hs.slabAt hm

end

theorem page_ne (hs : Slabs h (s :: ss)) (ht : t ∈ ss) : t.page ≠ s.page := fun heq =>
  (nodup_cons.mp hs.pages).1 (heq ▸ mem_map_of_mem ht)

end Slabs

/-- Work on one page leaves the headers and links of all others alone. -/
structure Confined (page : ℕ) (h h' : Heap) : Prop where
  core : ∀ p, p ≠ page → (h'.header p).core = (h.header p).core
  link : ∀ a, a / 4096 ≠ page → h'.link a = h.link a

theorem Confined.trans {h'' : Heap} (a : Confined page h h') (b : Confined page h' h'') :
    Confined page h h'' :=
  ⟨fun p hp => (b.core p hp).trans (a.core p hp), fun x hx => (b.link x hx).trans (a.link x hx)⟩

theorem Relinked.confined (a : Relinked h h') (page : ℕ) : Confined page h h' :=
  ⟨fun p _ => a.core p, fun x _ => by rw [a.link]⟩

/-- A slab with another free list. -/
def SlabView.withFree (s : SlabView) (free : List ℕ) : SlabView := { s with free := free }

namespace Slabs

theorem others {slabs : List SlabView}
    (hs : Slabs h slabs) (hc : Confined page h h') (ht : t ∈ slabs) (hne : t.page ≠ page) :
    ∃ fl, (h'.header t.page).core = t.header fl ∧ Chain h'.link fl t.free := by
  obtain ⟨fl, hcore, hchain⟩ := hs.header t ht
  refine ⟨fl, (hc.core _ hne).trans hcore, hchain.congr fun a ha => hc.link a ?_⟩
  rwa [SlabView.obj_page ((hs.ok t ht).free a ha)]

theorem pool_cons (s : SlabView) (ss : List SlabView) (pool : Pool) :
    ((s :: ss).filter fun s => s.pool = pool).length =
      (ss.filter fun s => s.pool = pool).length + if s.pool = pool then 1 else 0 := by
  rw [filter_cons]
  split <;> simp_all

/-- A slab whose free list changed, the others being as they were. -/
theorem put (hs : Slabs h (s :: ss))
    (hc : Confined s.page h h') {free : List ℕ} (hok : (s.withFree free).Ok) {fl : ℕ}
    (hcore : (h'.header s.page).core = (s.withFree free).header fl) (hchain : Chain h'.link fl free)
    (hshelf : Shelves h' (OnShelf (s.withFree free :: ss))) (hcount : h'.slabPages = h.slabPages) :
    Slabs h' (s.withFree free :: ss) := by
  refine ⟨forall_mem_cons.mpr ⟨hok, fun t ht => hs.ok t (mem_cons_of_mem s ht)⟩,
    hs.pages, forall_mem_cons.mpr ⟨hs.nonzero s mem_cons_self,
      fun t ht => hs.nonzero t (mem_cons_of_mem s ht)⟩, forall_mem_cons.mpr ⟨⟨fl, hcore, hchain⟩,
      fun t ht => hs.others hc (mem_cons_of_mem s ht) (hs.page_ne ht)⟩, hshelf, fun pool => ?_⟩
  rw [hcount, hs.counted, pool_cons, pool_cons]
  rfl

/-- A slab is given back, the others being as they were. -/
theorem drop (hs : Slabs h (s :: ss)) (hc : Confined s.page h h') (hshelf : Shelves h' (OnShelf ss))
    (hcount : h'.slabPages = update h.slabPages s.pool (h.slabPages s.pool - 1)) : Slabs h' ss := by
  refine ⟨fun t ht => hs.ok t (mem_cons_of_mem s ht), (nodup_cons.mp hs.pages).2,
    fun t ht => hs.nonzero t (mem_cons_of_mem s ht),
    fun t ht => hs.others hc (mem_cons_of_mem s ht) (hs.page_ne ht), hshelf, fun pool => ?_⟩
  have hold := hs.counted pool
  rw [pool_cons] at hold
  rw [hcount, update_apply]
  by_cases hp : pool = s.pool
  · subst hp
    rw [if_pos rfl, hold, if_pos rfl, Nat.add_sub_cancel]
  · rw [if_neg hp, hold, if_neg (Ne.symm hp), Nat.add_zero]

/-- Work that keeps off the slabs. -/
theorem frame {slabs : List SlabView} (hs : Slabs h slabs)
    (hheader : ∀ t ∈ slabs, h'.header t.page = h.header t.page)
    (hlink : ∀ t ∈ slabs, ∀ a ∈ t.free, h'.link a = h.link a)
    (hheads : h'.kheapPartial = h.kheapPartial) (hcount : h'.slabPages = h.slabPages) :
    Slabs h' slabs := by
  refine ⟨hs.ok, hs.pages, hs.nonzero, fun t ht => ?_, hs.shelf.same_header ?_ hheads,
    fun pool => by rw [hcount, hs.counted]⟩
  · obtain ⟨fl, hcore, hchain⟩ := hs.header t ht
    rw [hheader t ht]
    exact ⟨fl, hcore, hchain.congr fun a ha => hlink t ht a ha⟩
  · rintro pool cls q ⟨t, ht, rfl, -⟩
    exact hheader t ht

end Slabs

/-! ## Taking an object -/

theorem onShelf_withFree {free : List ℕ} (hs : s.free ≠ []) (hf : free ≠ []) (pool : Pool)
    (cls q : ℕ) :
    OnShelf (s :: ss) pool cls q ↔ OnShelf (s.withFree free :: ss) pool cls q := by
  simp [OnShelf, SlabView.withFree, hs, hf]

theorem onShelf_full (hs : s.free = []) (pool : Pool) (cls q : ℕ) :
    OnShelf (s :: ss) pool cls q ↔ OnShelf ss pool cls q := by
  simp [OnShelf, hs]

theorem onShelf_pushed (hs : s.free ≠ []) (pool : Pool) (cls q : ℕ) :
    OnShelf ss pool cls q ∨ q = s.page ∧ pool = s.pool ∧ cls = s.cls ↔
    OnShelf (s :: ss) pool cls q := by
  simp only [OnShelf, mem_cons, exists_eq_or_imp, hs, not_false_eq_true, and_true, eq_comm (a := q),
    ne_eq, eq_comm (a := pool), eq_comm (a := cls)]
  exact or_comm

theorem onShelf_emptied (hs : Slabs h (s :: ss)) (pool : Pool) (cls q : ℕ) :
    OnShelf (s :: ss) pool cls q ∧ q ≠ s.page ↔ OnShelf ss pool cls q := by
  constructor
  · rintro ⟨⟨t, ht, rfl, hrest⟩, hne⟩
    rcases mem_cons.mp ht with rfl | ht
    · exact absurd rfl hne
    · exact ⟨t, ht, rfl, hrest⟩
  · rintro ⟨t, ht, rfl, hrest⟩
    exact ⟨⟨t, mem_cons_of_mem s ht, rfl, hrest⟩, hs.page_ne ht⟩

/-- What the slab of one object looks like from outside. -/
structure Taken (s : SlabView) (ss : List SlabView) (a : ℕ) (fr : List ℕ) (pool : Pool) (h : Heap)
    (r : Heap × ℕ) : Prop where
  out : r.2 = a
  slabs : Slabs r.1 (s.withFree fr :: ss)
  confined : Confined s.page h r.1
  link : r.1.link = h.link
  m : r.1.m = h.m
  liveBytes : r.1.liveBytes = update h.liveBytes pool (h.liveBytes pool + s.size)
  largePages : r.1.largePages = h.largePages

/-- The header of one slab is rewritten in place: the lists are what they were. -/
structure Rewritten (s : SlabView) (ss : List SlabView) (c : Slab) (h : Heap) : Prop where
  header : h.header s.page = .slab c
  cls : c.cls = s.cls
  pool : c.pool = s.pool
  shelf : Shelves h (OnShelf (s :: ss))
  slabs : ∀ pool cls q, OnShelf (s :: ss) pool cls q → isSlab h q

theorem Slabs.rewrite (hs : Slabs h (s :: ss)) {c c' : Slab} (hc : h.header s.page = .slab c)
    (hnext : c'.next = c.next) (hprev : c'.prev = c.prev) (hcls : c'.cls = s.cls)
    (hpool : c'.pool = s.pool) (hheader : h'.header = update h.header s.page (.slab c'))
    (hheads : h'.kheapPartial = h.kheapPartial) :
    Rewritten s ss c' h' := by
  have hself : h'.header s.page = .slab c' := by rw [hheader, update_self]
  have hother : ∀ q, q ≠ s.page → h'.header q = h.header q := fun q hq => by
    rw [hheader, update_of_ne hq]
  refine ⟨hself, hcls, hpool, hs.shelf.same (fun _ _ q _ => ?_) (fun _ _ q _ => ?_) hheads,
    fun pool cls q hq => ?_⟩
  · by_cases hq : q = s.page
    · subst hq
      simp only [nextOf, hself, hc, hnext]
    · simp only [nextOf, hother q hq]
  · by_cases hq : q = s.page
    · subst hq
      simp only [prevOf, hself, hc, hprev]
    · simp only [prevOf, hother q hq]
  by_cases hqp : q = s.page
  · rw [hqp]
    exact ⟨c', hself⟩
  · obtain ⟨d, hd⟩ := hs.isSlab_of_onShelf hq
    exact ⟨d, (hother q hqp).trans hd⟩

theorem Slabs.rewritten (hs : Slabs h (s :: ss)) : ∃ c, Rewritten s ss c h := by
  obtain ⟨c, fl, hh, hc, -⟩ := hs.header_eq mem_cons_self
  exact ⟨c, hh, by rw [hc], by rw [hc], hs.shelf, fun _ _ _ hq => hs.isSlab_of_onShelf hq⟩

theorem Rewritten.unlink {c : Slab} (hr : Rewritten s ss c h') (hs : Slabs h (s :: ss))
    (hf : s.free ≠ []) :
    Relinked h' (kheapUnlink h' s.page) ∧ Shelves (kheapUnlink h' s.page) (OnShelf ss) := by
  have hin : OnShelf (s :: ss) c.pool c.cls s.page :=
    ⟨s, mem_cons_self, rfl, hr.pool.symm, hr.cls.symm, hf⟩
  obtain ⟨hrel, hshelf⟩ := hr.shelf.unlink hr.header hin hr.slabs
    fun _ _ _ _ _ hq hq' => hs.onShelf_unique hq hq'
  exact ⟨hrel, hshelf.congr fun pool cls q => onShelf_emptied hs pool cls q⟩

/-- What an allocation does to the slab it takes from. -/
theorem Slabs.take (hs : Slabs h (s :: ss)) {fr : List ℕ} (hfree : s.free = a :: fr) (pool : Pool) :
    Taken s ss a fr pool h (slabTake h s.page pool) := by
  obtain ⟨c, fl, hh, hc, hchain⟩ := hs.header_eq mem_cons_self
  rw [hfree] at hchain
  obtain ⟨rfl, ha0, hrest⟩ := hchain
  have hne : s.free ≠ [] := by
    rw [hfree]
    exact cons_ne_nil _ _
  have hok := hs.ok s mem_cons_self
  have hok' : (s.withFree fr).Ok := ⟨hok.cls, (nodup_cons.mp (hfree ▸ hok.nodup)).2,
    fun x hx => hok.free x (hfree ▸ mem_cons_of_mem fl hx)⟩
  have hlen : s.free.length - 1 = fr.length := by rw [hfree, length_cons, Nat.add_sub_cancel]
  rw [slabTake, hh, hc]
  dsimp only
  rw [hlen]
  -- the header first, and then, if that was the last object, the list
  set c' : Slab :=
    ⟨nextOf h s.page, prevOf h s.page, h.link fl, s.size, s.total, fr.length, s.cls, s.pool⟩
  set h1 := h.setSlab s.page c' with hh1
  have hrw : Rewritten s ss c' h1 := hs.rewrite hh (by rw [hc]) (by rw [hc]) rfl rfl rfl rfl
  have hconf : Confined s.page h h1 :=
    ⟨fun p hp => congrArg Header.core (update_of_ne hp _ _), fun _ _ => rfl⟩
  have hcore : (h1.header s.page).core = (s.withFree fr).header (h.link fl) := by
    rw [hrw.header]
    rfl
  obtain ⟨h2, hh2, hrel, hshelf⟩ :
      ∃ h2, h2 = (if fr.length = 0 then kheapUnlink h1 s.page else h1) ∧ Relinked h1 h2 ∧
      Shelves h2 (OnShelf (s.withFree fr :: ss)) := by
    refine ⟨_, rfl, ?_⟩
    by_cases hlast : fr.length = 0
    · rw [if_pos hlast]
      obtain ⟨hrel, hshelf⟩ := hrw.unlink hs hne
      exact ⟨hrel,
        hshelf.congr fun p q x => (onShelf_full (length_eq_zero_iff.mp hlast) p q x).symm⟩
    rw [if_neg hlast]
    exact ⟨.refl h1, hrw.shelf.congr
      (onShelf_withFree hne fun hnil => hlast (by rw [hnil, length_nil]))⟩
  rw [← hh2]
  have hconf2 : Confined s.page h { h2 with
      liveBytes := update h2.liveBytes pool (h2.liveBytes pool + s.size) } :=
    let hc := hconf.trans (hrel.confined s.page)
    ⟨hc.core, hc.link⟩
  refine ⟨rfl,
    hs.put hconf2 hok' ((hrel.core _).trans hcore) (hrel.link ▸ hrest) hshelf hrel.slabPages,
    hconf2, hrel.link, hrel.m, ?_, hrel.largePages⟩
  rw [hrel.liveBytes]
  rfl

/-! ## Giving an object back -/

/-- What is left of a slab one of whose objects comes back: nothing, if that was the last. -/
def SlabView.given (s : SlabView) (a : ℕ) : List SlabView :=
  if s.free.length + 1 = s.total then [] else [s.withFree (a :: s.free)]

structure Given (s : SlabView) (ss : List SlabView) (a : ℕ) (h h' : Heap) : Prop where
  slabs : Slabs h' (s.given a ++ ss)
  confined : Confined s.page h h'
  m : h'.m = if s.free.length + 1 = s.total then Paging.pmmFree h.m s.page else h.m
  liveBytes : h'.liveBytes = update h.liveBytes s.pool (h.liveBytes s.pool - s.size)
  largePages : h'.largePages = h.largePages

/-- What a free does to the slab of the object. -/
theorem Slabs.give (hs : Slabs h (s :: ss)) (ha : a ∈ s.objs) (hfree : a ∉ s.free) :
    Given s ss a h (kfree h a) := by
  obtain ⟨c, fl, hh, hc, hchain⟩ := hs.header_eq mem_cons_self
  have hok := hs.ok s mem_cons_self
  have hok' : (s.withFree (a :: s.free)).Ok := ⟨hok.cls, nodup_cons.mpr ⟨hfree, hok.nodup⟩,
    fun x hx => (mem_cons.mp hx).elim (fun hxa => hxa ▸ ha) (hok.free x)⟩
  rw [kfree, if_neg (SlabView.obj_ne_zero ha), SlabView.obj_page ha]
  dsimp only
  rw [hh, hc]
  dsimp only
  set c' : Slab :=
    ⟨nextOf h s.page, prevOf h s.page, a, s.size, s.total, s.free.length + 1, s.cls, s.pool⟩
  set h0 : Heap := { h with
    link := update h.link a fl
    liveBytes := update h.liveBytes s.pool (h.liveBytes s.pool - s.size) } with hh0
  set h1 := h0.setSlab s.page c' with hh1
  have hrw : Rewritten s ss c' h1 := hs.rewrite hh (by rw [hc]) (by rw [hc]) rfl rfl rfl rfl
  have hconf : Confined s.page h h1 :=
    ⟨fun p hp => congrArg Header.core (update_of_ne hp _ _), fun x hx =>
      update_of_ne (fun hxa : x = a => hx (hxa ▸ SlabView.obj_page ha)) _ _⟩
  have hcore : (h1.header s.page).core = (s.withFree (a :: s.free)).header a := by
    rw [hrw.header]
    rfl
  have hthread : Chain h1.link a (a :: s.free) := by
    refine ⟨rfl, SlabView.obj_ne_zero ha, ?_⟩
    rw [show h1.link a = fl from update_self _ _ _]
    exact hchain.congr fun x hx =>
      update_of_ne (fun hxa : x = a => hfree (hxa ▸ hx)) _ _
  -- a slab that was full goes back to its list
  obtain ⟨h2, hh2, hrel, hshelf⟩ :
      ∃ h2, h2 = (if s.free.length = 0 then kheapLink h1 s.page else h1) ∧ Relinked h1 h2 ∧
      Shelves h2 (OnShelf (s.withFree (a :: s.free) :: ss)) := by
    refine ⟨_, rfl, ?_⟩
    by_cases hfull : s.free.length = 0
    · rw [if_pos hfull]
      have hnil := length_eq_zero_iff.mp hfull
      have hoff : ∀ pool cls, ¬ OnShelf (s :: ss) pool cls s.page := by
        rintro pool cls ⟨t, ht, hp, -, -, hf⟩
        rw [hs.eq_of_page ht mem_cons_self hp, hnil] at hf
        exact hf rfl
      obtain ⟨hrel, hshelf⟩ := hrw.shelf.push hrw.header (hs.nonzero s mem_cons_self) hoff
        hrw.slabs fun _ _ _ _ _ hq hq' => hs.onShelf_unique hq hq'
      refine ⟨hrel, hshelf.congr fun p q x => ?_⟩
      rw [onShelf_full hnil]
      exact onShelf_pushed (s := s.withFree (a :: s.free)) (cons_ne_nil _ _) p q x
    · rw [if_neg hfull]
      exact ⟨.refl h1, hrw.shelf.congr
        (onShelf_withFree (fun hnil => hfull (by rw [hnil, length_nil])) (cons_ne_nil _ _))⟩
  rw [← hh2]
  have hconf2 := hconf.trans (hrel.confined s.page)
  have hs2 : Slabs h2 (s.withFree (a :: s.free) :: ss) :=
    hs.put hconf2 hok' ((hrel.core _).trans hcore) (hrel.link ▸ hthread) hshelf hrel.slabPages
  by_cases hlast : s.free.length + 1 = s.total
  · rw [if_pos hlast]
    obtain ⟨c2, hrw2⟩ := hs2.rewritten
    obtain ⟨hrel3, hshelf3⟩ := hrw2.unlink hs2 (cons_ne_nil a s.free)
    have hpage : (s.withFree (a :: s.free)).page = s.page := rfl
    rw [hpage] at hrel3 hshelf3
    generalize kheapUnlink h2 s.page = h3 at hrel3 hshelf3
    have hother : ∀ q, q ≠ s.page → update h3.header s.page .other q = h3.header q :=
      fun q hq => update_of_ne hq _ _
    have hconf3 := hconf2.trans (hrel3.confined s.page)
    have hconf4 : Confined s.page h { h3 with
        m := Paging.pmmFree h3.m s.page
        header := update h3.header s.page .other
        slabPages := update h3.slabPages s.pool (h3.slabPages s.pool - 1) } :=
      ⟨fun p hp => (congrArg Header.core (hother p hp)).trans (hconf3.core p hp), hconf3.link⟩
    have hne : ∀ pool cls q, OnShelf ss pool cls q → q ≠ s.page := by
      rintro pool cls q ⟨t, ht, rfl, -⟩
      exact hs.page_ne ht
    refine ⟨?_, hconf4, ?_, ?_, hrel3.largePages.trans hrel.largePages⟩
    · rw [SlabView.given, if_pos hlast]
      refine hs.drop hconf4
        (hshelf3.same_header (fun pool cls q hq => hother q (hne pool cls q hq)) rfl) ?_
      rw [hrel3.slabPages, hrel.slabPages]
      rfl
    · rw [if_pos hlast]
      rw [hrel3.m, hrel.m]
      rfl
    · rw [hrel3.liveBytes, hrel.liveBytes]
      rfl
  · rw [if_neg hlast]
    refine ⟨?_, hconf2, ?_, ?_, hrel.largePages⟩
    · rwa [SlabView.given, if_neg hlast]
    · rw [if_neg hlast]
      exact hrel.m
    · rw [hrel.liveBytes]
      rfl

/-! ## A new slab -/

theorem threadObjects_prefix {base size total : ℕ} (hsize : 0 < size) (link : ℕ → ℕ) (k : ℕ)
    (a : ℕ) :
    (List.range k).foldl (fun link i => update link (base + i * size)
      (if i + 1 < total then base + (i + 1) * size else 0)) link a =
    if base ≤ a ∧ (a - base) % size = 0 ∧ (a - base) / size < k then
      (if (a - base) / size + 1 < total then base + ((a - base) / size + 1) * size else 0)
        else link a := by
  induction k with
  | zero => simp
  | succ k ih =>
    rw [range_succ, foldl_append, foldl_cons, foldl_nil, update_apply, ih]
    by_cases ha : a = base + k * size
    · subst ha
      have hk : (base + k * size - base) / size = k := by
        rw [Nat.add_sub_cancel_left, Nat.mul_div_cancel _ hsize]
      have hm : (base + k * size - base) % size = 0 := by
        rw [Nat.add_sub_cancel_left, Nat.mul_mod_left]
      rw [if_pos rfl, hk, hm]
      exact (if_pos ⟨Nat.le_add_right _ _, rfl, Nat.lt_succ_self k⟩).symm
    rw [if_neg ha]
    refine if_congr ⟨fun h => ⟨h.1, h.2.1, h.2.2.trans (Nat.lt_succ_self k)⟩, fun h => ?_⟩ rfl rfl
    refine ⟨h.1, h.2.1, lt_of_le_of_ne (Nat.le_of_lt_succ h.2.2) fun hk => ha ?_⟩
    have hdiv := Nat.div_add_mod (a - base) size
    rw [hk, Nat.mul_comm] at hdiv
    omega

namespace SlabView

/-- A slab all of whose objects are free, in order. -/
def fresh (page cls : ℕ) (pool : Pool) : SlabView := let s : SlabView := ⟨page, cls, pool, []⟩
  s.withFree s.objs

theorem fresh_free (page cls : ℕ) (pool : Pool) :
    (fresh page cls pool).free = (fresh page cls pool).objs := rfl

theorem fresh_ok (pool : Pool) (h : cls < 8) :
    (fresh page cls pool).Ok := ⟨h, objs_nodup _, fun _ ha => ha⟩

/-- Threading the objects of a slab makes its free list, and touches nothing else. -/
theorem threaded (s : SlabView) (link : ℕ → ℕ) :
    Chain (threadObjects (s.page * 4096 + kheapHdrBytes) s.size s.total link)
    (s.page * 4096 + kheapHdrBytes) s.objs ∧
    ∀ a, a / 4096 ≠ s.page →
    threadObjects (s.page * 4096 + kheapHdrBytes) s.size s.total link a = link a := by
  have hsize : 0 < s.size := Nat.lt_of_lt_of_le (by decide) (classSize_bounds s.cls).1
  have hat : ∀ i < s.total,
      threadObjects (s.page * 4096 + kheapHdrBytes) s.size s.total link (s.obj i) =
      if i + 1 < s.total then s.obj (i + 1) else 0 := by
    intro i hi
    have hsub : s.obj i - (s.page * 4096 + kheapHdrBytes) = i * s.size := by
      simp only [obj]
      omega
    rw [threadObjects, threadObjects_prefix hsize, hsub, Nat.mul_mod_left,
      Nat.mul_div_cancel _ hsize, if_pos ⟨Nat.le_add_right _ _, rfl, hi⟩]
    rfl
  constructor
  · -- from object `i` on, whatever remains
    have hfrom : ∀ n i, i + n = s.total → Chain
        (threadObjects (s.page * 4096 + kheapHdrBytes) s.size s.total link)
        (if i < s.total then s.obj i else 0) ((List.range' i n).map s.obj) := by
      intro n
      induction n with
      | zero =>
        intro i hi
        rw [if_neg (by omega)]
        rfl
      | succ n ih =>
        intro i hi
        rw [if_pos (by omega), List.range'_succ]
        refine ⟨rfl, obj_ne_zero (mem_objs.mpr ⟨i, by omega, rfl⟩), ?_⟩
        rw [hat i (by omega)]
        exact ih (i + 1) (by omega)
    have hall := hfrom s.total 0 (Nat.zero_add _)
    rw [if_pos s.total_pos] at hall
    rw [objs, range_eq_range']
    simpa only [obj, Nat.zero_mul, Nat.add_zero] using hall
  · intro a ha
    rw [threadObjects, threadObjects_prefix hsize, if_neg]
    rintro ⟨hle, hmod, hlt⟩
    refine ha (obj_page (mem_objs.mpr ⟨_, hlt, ?_⟩))
    have hdiv := Nat.div_add_mod (a - (s.page * 4096 + kheapHdrBytes)) s.size
    rw [Nat.mul_comm] at hdiv
    simp only [obj]
    omega

end SlabView

/-- A heap with one more slab, at the front of its list. -/
structure Grown (page cls : ℕ) (pool : Pool) (slabs : List SlabView) (m : Paging.Machine)
    (h h' : Heap) : Prop where
  slabs : Slabs h' (SlabView.fresh page cls pool :: slabs)
  confined : Confined page h h'
  m : h'.m = m
  liveBytes : h'.liveBytes = h.liveBytes
  largePages : h'.largePages = h.largePages

/-- A fresh page becomes a slab with every object free. -/
theorem Slabs.grow {h1 : Heap} {slabs : List SlabView} (hs : Slabs h slabs) (hcls : cls <
      8) (h0 : page ≠ 0)
    (hnew : ∀ s ∈ slabs, s.page ≠ page) {m : Paging.Machine}
    (hh1 : h1 = { h with
      m := m
      header := update h.header page (.slab ⟨0, 0, page * 4096 + kheapHdrBytes, classSize cls,
        (4096 - kheapHdrBytes) / classSize cls, (4096 - kheapHdrBytes) / classSize cls, cls, pool⟩)
      link := threadObjects (page * 4096 + kheapHdrBytes) (classSize cls)
        ((4096 - kheapHdrBytes) / classSize cls) h.link
      slabPages := update h.slabPages pool (h.slabPages pool + 1) }) :
    Grown page cls pool slabs m h (kheapLink h1 page) := by
  set s := SlabView.fresh page cls pool with hsdef
  obtain ⟨hchain, hlink⟩ := s.threaded h.link
  have hself : h1.header page = .slab
      ⟨0, 0, page * 4096 + kheapHdrBytes, s.size, s.total, s.total, cls, pool⟩ := by
    rw [hh1]
    exact update_self _ _ _
  have hother : ∀ q, q ≠ page → h1.header q = h.header q := fun q hq => by
    rw [hh1]
    exact update_of_ne hq _ _
  have hconf : Confined page h h1 :=
    ⟨fun q hq => congrArg Header.core (hother q hq), fun a ha => by
      rw [hh1]
      exact hlink a ha⟩
  have hne : ∀ pool cls q, OnShelf slabs pool cls q → q ≠ page := by
    rintro pool cls q ⟨t, ht, rfl, -⟩
    exact hnew t ht
  have hshelf1 : Shelves h1 (OnShelf slabs) :=
    hs.shelf.same_header (fun p c q hq => hother q (hne p c q hq)) (by rw [hh1])
  obtain ⟨hrel, hshelf⟩ := hshelf1.push hself h0 (fun p c hon => hne p c page hon rfl)
    (fun p c q hq => by
      obtain ⟨d, hd⟩ := hs.isSlab_of_onShelf hq
      exact ⟨d, (hother q (hne p c q hq)).trans hd⟩)
    fun _ _ _ _ _ hq hq' => hs.onShelf_unique hq hq'
  have hconf2 := hconf.trans (hrel.confined page)
  have hlen : s.free.length = s.total := by
    rw [SlabView.fresh_free, SlabView.objs_length]
  refine ⟨⟨forall_mem_cons.mpr ⟨SlabView.fresh_ok pool hcls, hs.ok⟩, ?_, forall_mem_cons.mpr ⟨h0,
        hs.nonzero⟩, forall_mem_cons.mpr ⟨?_, fun t ht => ?_⟩, ?_, fun p => ?_⟩, hconf2, ?_, ?_, ?_⟩
  · refine nodup_cons.mpr ⟨fun hin => ?_, hs.pages⟩
    obtain ⟨t, ht, heq⟩ := mem_map.mp hin
    exact hnew t ht heq
  · refine ⟨page * 4096 + kheapHdrBytes, ?_, ?_⟩
    · change ((kheapLink h1 page).header page).core = _
      rw [hrel.core, hself, SlabView.header, hlen]
      rfl
    · rwa [hrel.link, hh1]
  · exact hs.others hconf2 ht (hnew t ht)
  · refine hshelf.congr fun p c q => ?_
    have hfree : s.free ≠ [] := fun hnil => by
      have := s.total_pos
      simp [← hlen, hnil] at this
    exact onShelf_pushed hfree p c q
  · rw [hrel.slabPages, hh1]
    dsimp only
    rw [update_apply]
    rw [pool_cons, show (SlabView.fresh page cls pool).pool = pool from rfl]
    by_cases hp : p = pool
    · rw [if_pos hp, if_pos hp.symm, hs.counted, hp]
    · rw [if_neg hp, if_neg (Ne.symm hp), hs.counted, Nat.add_zero]
  · rw [hrel.m, hh1]
  · rw [hrel.liveBytes, hh1]
  · rw [hrel.largePages, hh1]

end Vextro.Kheap
