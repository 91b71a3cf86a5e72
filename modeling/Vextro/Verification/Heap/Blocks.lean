import Vextro.Verification.Heap.Slabs

/-! Live blocks: where they lie and what they cost. -/

namespace Vextro.Kheap

open Function (update update_apply update_eq_self update_idem update_of_ne update_self)
open Paging List

variable {n cls a page : ℕ} {b : Block} {t : SlabView}

/-! ## Classes -/

theorem kheapClassOf_bounds (h : kheapClassOf n = some cls) : cls < 8 ∧ n ≤ classSize cls := by
  obtain ⟨hlt, hle, -⟩ := findIdx?_eq_some_iff_getElem.mp h
  refine ⟨hlt, ?_⟩
  rw [classSize, getD_eq_getElem _ _ hlt]
  simpa using hle

theorem kheapClassOf_some (h : n ≤ kheapMaxSlab) :
    ∃ cls, kheapClassOf n = some cls ∧ cls < 8 ∧ n ≤ classSize cls := by
  have hsome : (kheapClassOf n).isSome := by
    rw [kheapClassOf, findIdx?_isSome, any_eq_true]
    exact ⟨2048, by decide, by simpa [kheapMaxSlab] using h⟩
  obtain ⟨cls, hcls⟩ := Option.isSome_iff_exists.mp hsome
  exact ⟨cls, hcls, kheapClassOf_bounds hcls⟩

/-! ## Blocks -/

namespace Block

/-- What the live-byte counter charges for a block. -/
def cost (b : Block) : ℕ :=
  if b.size ≤ kheapMaxSlab then classSize ((kheapClassOf b.size).getD 0) else b.size

def frames (b : Block) : ℕ := if b.size ≤ kheapMaxSlab then 0 else largeFrames b.size

/-- The pages of a large block. -/
def pages (b : Block) : List ℕ := range' (b.addr / 4096) b.frames

end Block

/-- What the blocks of a pool add up to. -/
def charge (f : Block → ℕ) (live : List Block) (pool : Pool) : ℕ :=
  ((live.filter fun b => b.pool = pool).map f).sum

theorem charge_cons (f : Block → ℕ) (b : Block) (live : List Block) :
    charge f (b :: live) = update (charge f live) b.pool (charge f live b.pool + f b) := by
  funext pool
  rw [update_apply, charge, filter_cons]
  by_cases hp : pool = b.pool
  · subst hp
    simp [charge, Nat.add_comm]
  · rw [if_neg (by simpa using Ne.symm hp), if_neg hp, charge]

theorem charge_cons_zero {f : Block → ℕ} (hf : f b = 0) (live : List Block) :
    charge f (b :: live) = charge f live := by
  rw [charge_cons, hf, Nat.add_zero, update_eq_self]

theorem charge_tail (f : Block → ℕ) (b : Block) (live : List Block) :
    update (charge f (b :: live)) b.pool (charge f (b :: live) b.pool - f b) = charge f live := by
  rw [charge_cons, update_self, update_idem, Nat.add_sub_cancel, update_eq_self]

theorem charge_perm {live live' : List Block} (hp : live.Perm live') (f : Block → ℕ) :
    charge f live = charge f live' :=
  funext fun _ => ((hp.filter _).map _).sum_eq

theorem largeFrames_eq (h : n < 2 ^ 48) : largeFrames n = (n + 4159) / 4096 := by
  rw [largeFrames, pageAlignUp, Nat.mul_div_cancel _ (by decide), kheapHdrBytes,
    Nat.mod_eq_of_lt (by omega)]
  congr 1
  omega

def heapPages (slabs : List SlabView) (live : List Block) : List ℕ :=
  slabs.map SlabView.page ++ live.flatMap Block.pages

/-- The heap and the blocks that are out: every small one is a taken object of a slab of its
class, every large one a run of pages with its header. -/
structure Blocks (B : ℕ → Prop) (h : Heap) (slabs : List SlabView) (live : List Block) : Prop where
  held : Slabs h slabs
  addrs : (live.map Block.addr).Nodup
  sizes : ∀ b ∈ live, 0 < b.size ∧ b.size < 2 ^ 48
  small : ∀ b ∈ live, b.size ≤ kheapMaxSlab → ∃ s ∈ slabs, b.addr ∈ s.objs ∧ b.addr ∉ s.free ∧
    s.pool = b.pool ∧ kheapClassOf b.size = some s.cls
  taken : ∀ s ∈ slabs, ∀ a ∈ s.objs, a ∉ s.free → ∃ b ∈ live, b.addr = a
  large : ∀ b ∈ live, kheapMaxSlab < b.size → b.addr % 4096 = kheapHdrBytes ∧
    h.header (b.addr / 4096) = .large ⟨largeFrames b.size, b.size, b.pool⟩
  pages : (heapPages slabs live).Nodup
  reserved : Reserved B (heapPages slabs live) h.m
  liveBytes : h.liveBytes = charge Block.cost live
  largePages : h.largePages = charge Block.frames live

theorem Block.frames_pos (hlarge : kheapMaxSlab < b.size) (hs : b.size < 2 ^ 48) :
    0 < b.frames := by
  rw [Block.frames, if_neg hlarge.not_ge, largeFrames_eq hs]
  omega

theorem Block.page_mem (hlarge : kheapMaxSlab < b.size) (hs : b.size < 2 ^ 48) :
    b.addr / 4096 ∈ b.pages :=
  mem_range'_1.mpr ⟨le_rfl, Nat.lt_add_of_pos_right (Block.frames_pos hlarge hs)⟩

theorem Header.of_core_large {hd : Header} {l : Large} (h : hd.core = .large l) :
    hd = .large l := by
  cases hd with
  | large => exact h
  | other | slab => cases h

variable {B : ℕ → Prop} {h h' : Heap} {slabs ss : List SlabView} {s : SlabView} {live : List Block}

namespace Blocks

variable (hb : Blocks B h slabs live)
include hb

theorem perm {slabs' : List SlabView} {live' : List Block}
    (hp : slabs.Perm slabs') (hl : live.Perm live') : Blocks B h slabs' live' := by
  have hpages : (heapPages slabs live).Perm (heapPages slabs' live') :=
    (hp.map _).append (hl.flatMap_right _)
  refine ⟨hb.held.perm hp, (hl.map _).nodup_iff.mp hb.addrs,
    fun b hm => hb.sizes b (hl.mem_iff.mpr hm), fun b hm hs => ?_, fun s hm a ha hf => ?_,
    fun b hm => hb.large b (hl.mem_iff.mpr hm), hpages.nodup_iff.mp hb.pages,
    hb.reserved.perm fun f => hpages.mem_iff.symm, hb.liveBytes.trans (charge_perm hl _),
    hb.largePages.trans (charge_perm hl _)⟩
  · obtain ⟨s, hm', hrest⟩ := hb.small b (hl.mem_iff.mpr hm) hs
    exact ⟨s, hp.mem_iff.mp hm', hrest⟩
  · obtain ⟨b, hm', hrest⟩ := hb.taken s (hp.mem_iff.mpr hm) a ha hf
    exact ⟨b, hl.mem_iff.mp hm', hrest⟩

theorem page_apart (ht : t ∈ slabs) (hm : b ∈ live) : t.page ∉ b.pages := fun hin =>
  (nodup_append'.mp hb.pages).2.2 (mem_map_of_mem ht) (mem_flatMap.mpr ⟨b, hm, hin⟩)

theorem slab_eq (hs : s ∈ slabs) (ht : t ∈ slabs) (ha : a ∈ s.objs) (ha' : a ∈ t.objs) :
    s = t :=
  hb.held.eq_of_page hs ht ((SlabView.obj_page ha).symm.trans (SlabView.obj_page ha'))

theorem small_of_obj (hs : s ∈ slabs) (hm : b ∈ live) (ha : b.addr ∈ s.objs) :
    b.size ≤ kheapMaxSlab ∧ b.addr ∉ s.free ∧ s.pool = b.pool ∧
    kheapClassOf b.size = some s.cls := by
  by_cases hsmall : b.size ≤ kheapMaxSlab
  · obtain ⟨t, ht, ha', hf, hpool, hcls⟩ := hb.small b hm hsmall
    obtain rfl := hb.slab_eq hs ht ha ha'
    exact ⟨hsmall, hf, hpool, hcls⟩
  have hpage := Block.page_mem (Nat.lt_of_not_le hsmall) (hb.sizes b hm).2
  rw [SlabView.obj_page ha] at hpage
  exact absurd hpage (hb.page_apart hs hm)

theorem large_keep (hm : b ∈ live) (hpage : page ∉ b.pages) (hc : Confined page h h')
    (hlarge : kheapMaxSlab < b.size) : b.addr % 4096 = kheapHdrBytes ∧
      h'.header (b.addr / 4096) = .large ⟨largeFrames b.size, b.size, b.pool⟩ := by
  have hne : b.addr / 4096 ≠ page :=
    fun heq => hpage (heq ▸ Block.page_mem hlarge (hb.sizes b hm).2)
  obtain ⟨hmod, hheader⟩ := hb.large b hm hlarge
  refine ⟨hmod, Header.of_core_large ?_⟩
  rw [hc.core _ hne, hheader]
  rfl

end Blocks

section

variable (hb : b.size ≤ kheapMaxSlab)
include hb

theorem Block.pages_small : b.pages = [] := by
  rw [Block.pages, Block.frames, if_pos hb, range'_zero]

theorem Block.cost_small (hcls : kheapClassOf b.size = some cls) :
    b.cost = classSize cls := by
  rw [Block.cost, if_pos hb, hcls, Option.getD_some]

theorem heapPages_small (slabs : List SlabView) (live : List Block) :
    heapPages slabs (b :: live) = heapPages slabs live := by
  rw [heapPages, flatMap_cons, Block.pages_small hb, nil_append, heapPages]

end

/-! ## Taking -/

namespace Blocks

theorem take (hb : Blocks B h (s :: ss) live) {fr : List ℕ} (hfree : s.free = a :: fr)
    (hpos : 0 < n) (hn : n ≤ kheapMaxSlab) (hcls : kheapClassOf n = some s.cls) :
    (slabTake h s.page s.pool).2 = a ∧
      Blocks B (slabTake h s.page s.pool).1 (s.withFree fr :: ss) (⟨a, n, s.pool⟩ :: live) := by
  have ht := hb.held.take hfree s.pool
  have hok := hb.held.ok s mem_cons_self
  have ha : a ∈ s.objs := hok.free a (hfree ▸ mem_cons_self)
  have hfr : a ∉ fr := (nodup_cons.mp (hfree ▸ hok.nodup)).1
  have hnew : a ∉ live.map Block.addr := fun hin => by
    obtain ⟨b, hm, rfl⟩ := mem_map.mp hin
    exact (hb.small_of_obj mem_cons_self hm ha).2.1 (hfree ▸ mem_cons_self)
  have hpages : heapPages (s.withFree fr :: ss) (⟨a, n, s.pool⟩ :: live) = heapPages
      (s :: ss) live := by
    rw [heapPages_small hn]
    rfl
  refine ⟨ht.out, ht.slabs, nodup_cons.mpr ⟨hnew, hb.addrs⟩, fun b hm => ?_, fun b hm hsmall => ?_,
    fun t htm x hx hxf => ?_, fun b hm hlarge => ?_, hpages ▸ hb.pages, ?_, ?_, ?_⟩
  · rcases mem_cons.mp hm with rfl | hm
    · exact ⟨hpos, lt_of_le_of_lt hn (by decide)⟩
    · exact hb.sizes b hm
  · rcases mem_cons.mp hm with rfl | hm
    · exact ⟨s.withFree fr, mem_cons_self, ha, hfr, rfl, hcls⟩
    obtain ⟨t, htm, hobj, hnot, hrest⟩ := hb.small b hm hsmall
    rcases mem_cons.mp htm with rfl | htm
    · exact ⟨t.withFree fr, mem_cons_self, hobj,
        fun hin => hnot (hfree ▸ mem_cons_of_mem a hin), hrest⟩
    · exact ⟨t, mem_cons_of_mem _ htm, hobj, hnot, hrest⟩
  · -- the only object that is no longer free is the one that was taken
    rcases mem_cons.mp htm with rfl | htm
    · by_cases hxa : x = a
      · exact ⟨⟨a, n, s.pool⟩, mem_cons_self, hxa.symm⟩
      have hxs : x ∉ s.free := fun hin => by
        rw [hfree] at hin
        exact (mem_cons.mp hin).elim hxa hxf
      obtain ⟨b, hm, hb'⟩ := hb.taken s mem_cons_self x hx hxs
      exact ⟨b, mem_cons_of_mem _ hm, hb'⟩
    · obtain ⟨b, hm, hb'⟩ := hb.taken t (mem_cons_of_mem s htm) x hx hxf
      exact ⟨b, mem_cons_of_mem _ hm, hb'⟩
  · rcases mem_cons.mp hm with rfl | hm
    · exact absurd hn hlarge.not_ge
    · exact hb.large_keep hm (hb.page_apart mem_cons_self hm) ht.confined hlarge
  · rw [hpages, ht.m]
    exact hb.reserved
  · rw [ht.liveBytes, hb.liveBytes, charge_cons, Block.cost_small hn hcls]
    rfl
  · rw [ht.largePages, hb.largePages]
    exact (charge_cons_zero (if_pos hn) live).symm

theorem grow (hb : Blocks B h slabs live) {pool : Pool} {m : Machine}
    (hnew : page ∉ heapPages slabs live) (hres : Reserved B (page :: heapPages slabs live) m)
    (hg : Grown page cls pool slabs m h h') :
    Blocks B h' (SlabView.fresh page cls pool :: slabs) live := by
  refine ⟨hg.slabs, hb.addrs, hb.sizes, fun b hm hsmall => ?_, fun t ht x hx hxf => ?_,
    fun b hm hl => ?_, nodup_cons.mpr ⟨hnew, hb.pages⟩, ?_, hg.liveBytes.trans hb.liveBytes,
    hg.largePages.trans hb.largePages⟩
  · obtain ⟨t, ht, hrest⟩ := hb.small b hm hsmall
    exact ⟨t, mem_cons_of_mem _ ht, hrest⟩
  · rcases mem_cons.mp ht with rfl | ht
    · exact absurd (SlabView.fresh_free page cls pool ▸ hx) hxf
    · exact hb.taken t ht x hx hxf
  · refine hb.large_keep hm (fun hin => hnew ?_) hg.confined hl
    exact mem_append_right _ (mem_flatMap.mpr ⟨b, hm, hin⟩)
  · rwa [hg.m]

theorem large_take (hb : Blocks B h slabs live) {pool : Pool} {m : Machine} (hn : kheapMaxSlab <
      n) (hn' : n < 2 ^ 48)
    (hnew : ∀ f ∈ range' page (largeFrames n), f ∉ heapPages slabs live)
    (hres : Reserved B (range' page (largeFrames n) ++ heapPages slabs live) m)
    (hh' : h' = { h with
      m := m
      header := update h.header page (.large ⟨largeFrames n, n, pool⟩)
      largePages := update h.largePages pool (h.largePages pool + largeFrames n)
      liveBytes := update h.liveBytes pool (h.liveBytes pool + n) }) :
    Blocks B h' slabs (⟨page * 4096 + kheapHdrBytes, n, pool⟩ :: live) := by
  set b : Block := ⟨page * 4096 + kheapHdrBytes, n, pool⟩ with hbdef
  have hdiv : b.addr / 4096 = page := by
    simp only [hbdef, kheapHdrBytes]
    omega
  have hframes : b.frames = largeFrames n := if_neg hn.not_ge
  have hbpages : b.pages = range' page (largeFrames n) := by rw [Block.pages, hframes, hdiv]
  have hpage : page ∈ range' page (largeFrames n) := hbpages ▸ hdiv ▸ Block.page_mem hn hn'
  have hpage' := hnew page hpage
  have hother : ∀ q, q ≠ page → h'.header q = h.header q := fun q hq => by
    rw [hh']
    exact update_of_ne hq _ _
  have hconf : Confined page h h' := ⟨fun q hq => by rw [hother q hq], fun _ _ => by rw [hh']⟩
  have hperm : (heapPages slabs (b :: live)).Perm
      (range' page (largeFrames n) ++ heapPages slabs live) := by
    rw [heapPages, flatMap_cons, hbpages]
    exact perm_append_comm_assoc _ _ _
  have haddr : b.addr ∉ live.map Block.addr := fun hin => by
    obtain ⟨c, hm, hc⟩ := mem_map.mp hin
    by_cases hsmall : c.size ≤ kheapMaxSlab
    · obtain ⟨t, ht, hobj, -⟩ := hb.small c hm hsmall
      have htp := SlabView.obj_page hobj
      rw [hc, hdiv] at htp
      exact hpage' (mem_append_left _ (htp ▸ mem_map_of_mem ht))
    have hcp := Block.page_mem (Nat.lt_of_not_le hsmall) (hb.sizes c hm).2
    rw [hc, hdiv] at hcp
    exact hpage' (mem_append_right _ (mem_flatMap.mpr ⟨c, hm, hcp⟩))
  have hslabs : Slabs h' slabs := by
    refine hb.held.frame (fun t ht => hother _ fun heq => ?_) (fun _ _ _ _ => by rw [hh'])
      (by rw [hh']) (by rw [hh'])
    exact hpage' (mem_append_left _ (heq ▸ mem_map_of_mem ht))
  refine ⟨hslabs, nodup_cons.mpr ⟨haddr, hb.addrs⟩, fun c hm => ?_, fun c hm hsmall => ?_,
    fun t ht x hx hxf => ?_, fun c hm hl => ?_, ?_, ?_, ?_, ?_⟩
  · rcases mem_cons.mp hm with rfl | hm
    · exact ⟨Nat.zero_lt_of_lt hn, hn'⟩
    · exact hb.sizes c hm
  · rcases mem_cons.mp hm with rfl | hm
    · exact absurd hsmall hn.not_ge
    · exact hb.small c hm hsmall
  · obtain ⟨c, hm, hc⟩ := hb.taken t ht x hx hxf
    exact ⟨c, mem_cons_of_mem _ hm, hc⟩
  · rcases mem_cons.mp hm with rfl | hm
    · refine ⟨by simp only [hbdef, kheapHdrBytes]; omega, ?_⟩
      rw [hdiv, hh']
      exact update_self _ _ _
    refine hb.large_keep hm (fun hin => hpage' ?_) hconf hl
    exact mem_append_right _ (mem_flatMap.mpr ⟨c, hm, hin⟩)
  · rw [hperm.nodup_iff]
    exact nodup_append'.mpr ⟨nodup_range', hb.pages, fun f hf => hnew f hf⟩
  · rw [hh']
    exact hres.perm fun f => hperm.mem_iff
  · rw [charge_cons, ← hb.liveBytes, hh', Block.cost, if_neg hn.not_ge]
  · rw [charge_cons, ← hb.largePages, hh', hframes]

end Blocks

/-! ## Giving back -/

namespace SlabView

theorem Ok.free_subperm (hok : s.Ok) (ha : a ∈ s.objs) (hfree : a ∉ s.free) :
    (a :: s.free).Subperm s.objs :=
  (nodup_cons.mpr ⟨hfree, hok.nodup⟩).subperm fun y hy =>
    (mem_cons.mp hy).elim (fun h => h ▸ ha) (hok.free y)

/-- With all but one of the objects free, the last one is the one given back. -/
theorem Ok.covers (hok : s.Ok) (ha : a ∈ s.objs) (hfree : a ∉ s.free)
    (hlast : s.free.length + 1 = s.total) {x : ℕ} (hx : x ∈ s.objs) : x ∈ a :: s.free := by
  refine ((hok.free_subperm ha hfree).perm_of_length_le ?_).mem_iff.mpr hx
  rw [objs_length, length_cons, hlast]

theorem Ok.busy (hok : s.Ok) (ha : a ∈ s.objs) (hfree : a ∉ s.free)
    (hnot : s.free.length + 1 ≠ s.total) :
    ∃ x ∈ s.objs, x ∉ a :: s.free := by
  by_contra hall
  push Not at hall
  have hle := ((objs_nodup s).subperm hall).length_le
  have hge := (hok.free_subperm ha hfree).length_le
  rw [objs_length] at hle hge
  exact hnot (le_antisymm hge hle)

end SlabView

theorem mem_given {s : SlabView} (h : t ∈ s.given a) :
    t = s.withFree (a :: s.free) ∧ s.free.length + 1 ≠ s.total := by
  rw [SlabView.given] at h
  split at h
  · cases h
  · rename_i hne
    exact ⟨mem_singleton.mp h, hne⟩

theorem given_mem {s : SlabView} (h : s.free.length + 1 ≠ s.total) :
    s.withFree (a :: s.free) ∈ s.given a := by
  rw [SlabView.given, if_neg h]
  exact mem_singleton_self _

namespace Blocks

theorem addr_ne (hb : Blocks B h slabs (b :: live)) {c : Block} (hc : c ∈ live) : c.addr ≠ b.addr :=
  fun heq => (nodup_cons.mp hb.addrs).1 (heq ▸ mem_map_of_mem hc)

theorem give (hb : Blocks B h (s :: ss) (b :: live)) (ha : b.addr ∈ s.objs) :
    Blocks B (kfree h b.addr) (s.given b.addr ++ ss) live := by
  have hsm := mem_cons_self (a := s) (l := ss)
  have hbm := mem_cons_self (a := b) (l := live)
  obtain ⟨hsmall, hfree, hpool, hcls⟩ := hb.small_of_obj hsm hbm ha
  have hok := hb.held.ok s hsm
  have hg := hb.held.give ha hfree
  have hpages := heapPages_small hsmall (s :: ss) live
  have hnd : (heapPages (s :: ss) live).Nodup := hpages ▸ hb.pages
  have hres : Reserved B (heapPages (s :: ss) live) h.m := hpages ▸ hb.reserved
  refine ⟨hg.slabs, (nodup_cons.mp hb.addrs).2, fun c hc => hb.sizes c (mem_cons_of_mem b hc),
    fun c hc hcs => ?_, fun t ht x hx hxf => ?_, fun c hc hl => ?_, ?_, ?_, ?_, ?_⟩
  · obtain ⟨t, ht, hobj, hnot, hrest⟩ := hb.small c (mem_cons_of_mem b hc) hcs
    rcases mem_cons.mp ht with rfl | ht
    · -- another object of the same slab is still out, so the slab stays
      have hnew : c.addr ∉ b.addr :: t.free := fun hin =>
        (mem_cons.mp hin).elim (hb.addr_ne hc) hnot
      have hne : t.free.length + 1 ≠ t.total := fun hlast => hnew (hok.covers ha hfree hlast hobj)
      exact ⟨t.withFree (b.addr :: t.free), mem_append_left _ (given_mem hne), hobj, hnew, hrest⟩
    · exact ⟨t, mem_append_right _ ht, hobj, hnot, hrest⟩
  · rcases mem_append.mp ht with hgiven | hts
    · obtain ⟨rfl, -⟩ := mem_given hgiven
      obtain ⟨hxb, hxs⟩ := not_or.mp (mt mem_cons.mpr hxf)
      obtain ⟨c, hc, hca⟩ := hb.taken s hsm x hx hxs
      rcases mem_cons.mp hc with rfl | hc
      · exact absurd hca.symm hxb
      · exact ⟨c, hc, hca⟩
    · obtain ⟨c, hc, hca⟩ := hb.taken t (mem_cons_of_mem s hts) x hx hxf
      rcases mem_cons.mp hc with rfl | hc
      · exact absurd ((SlabView.obj_page hx).symm.trans (hca ▸ SlabView.obj_page ha))
          (hb.held.page_ne hts)
      · exact ⟨c, hc, hca⟩
  · have hcm := mem_cons_of_mem b hc
    exact hb.large_keep hcm (hb.page_apart hsm hcm) hg.confined hl
  · rw [SlabView.given]
    split
    · exact (nodup_cons.mp hnd).2
    · exact hnd
  · rw [hg.m, SlabView.given]
    split
    · have hfreed := hres.free hnd mem_cons_self
      rwa [heapPages, map_cons, cons_append, erase_cons_head] at hfreed
    · exact hres
  · rw [hg.liveBytes, hb.liveBytes, hpool, ← charge_tail Block.cost b live,
      Block.cost_small hsmall hcls]
    rfl
  · rw [hg.largePages, hb.largePages]
    exact charge_cons_zero (if_pos hsmall) live

theorem large_give (hb : Blocks B h slabs (b :: live)) (hlarge : kheapMaxSlab < b.size) :
    Blocks B (kfree h b.addr) slabs live := by
  have hbm := mem_cons_self (a := b) (l := live)
  obtain ⟨hmod, hheader⟩ := hb.large b hbm hlarge
  have hpage := Block.page_mem hlarge (hb.sizes b hbm).2
  have h0 : b.addr ≠ 0 := fun heq => by
    rw [heq] at hmod
    cases hmod
  have hframes : b.frames = largeFrames b.size := if_neg hlarge.not_ge
  have hh' : kfree h b.addr = { h with
      m := pmmFreeContig h.m (b.addr / 4096) b.frames
      header := update h.header (b.addr / 4096) .other
      largePages := update h.largePages b.pool (h.largePages b.pool - b.frames)
      liveBytes := update h.liveBytes b.pool (h.liveBytes b.pool - b.size) } := by
    rw [kfree, if_neg h0]
    dsimp only
    rw [hheader, hframes]
  have hother : ∀ q, q ≠ b.addr / 4096 → (kfree h b.addr).header q = h.header q := fun q hq => by
    rw [hh']
    exact update_of_ne hq _ _
  have hconf : Confined (b.addr / 4096) h (kfree h b.addr) :=
    ⟨fun q hq => by rw [hother q hq], fun _ _ => by rw [hh']⟩
  have hperm : (heapPages slabs (b :: live)).Perm (b.pages ++ heapPages slabs live) := by
    exact perm_append_comm_assoc _ _ _
  have hnd : (b.pages ++ heapPages slabs live).Nodup := hperm.nodup_iff.mp hb.pages
  have hapart : ∀ f ∈ b.pages, f ∉ heapPages slabs live := fun f hf => (nodup_append'.mp hnd).2.2 hf
  have hslabs : Slabs (kfree h b.addr) slabs := by
    refine hb.held.frame (fun t ht => hother _ fun heq => ?_) (fun _ _ _ _ => by rw [hh'])
      (by rw [hh']) (by rw [hh'])
    exact hapart _ hpage (mem_append_left _ (heq ▸ mem_map_of_mem ht))
  refine ⟨hslabs, (nodup_cons.mp hb.addrs).2, fun c hc => hb.sizes c (mem_cons_of_mem b hc),
    fun c hc => hb.small c (mem_cons_of_mem b hc), fun t ht x hx hxf => ?_, fun c hc hl => ?_,
    (nodup_append'.mp hnd).2.1, ?_, ?_, ?_⟩
  · obtain ⟨c, hc, hca⟩ := hb.taken t ht x hx hxf
    rcases mem_cons.mp hc with rfl | hc
    · rw [hca, SlabView.obj_page hx] at hpage
      exact absurd hpage (hb.page_apart ht hbm)
    · exact ⟨c, hc, hca⟩
  · refine hb.large_keep (mem_cons_of_mem b hc) (fun hin => hapart _ hpage ?_) hconf hl
    exact mem_append_right _ (mem_flatMap.mpr ⟨c, hc, hin⟩)
  · rw [hh']
    exact (hb.reserved.perm fun f => hperm.mem_iff.symm).freeAll _ hnd
  · rw [← charge_tail Block.cost b live, ← hb.liveBytes, hh', Block.cost, if_neg hlarge.not_ge]
  · rw [← charge_tail Block.frames b live, ← hb.largePages, hh']

end Blocks

end Vextro.Kheap
