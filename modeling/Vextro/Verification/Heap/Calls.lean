import Vextro.Verification.Heap.Blocks

/-! The heap over whole runs: blocks keep apart, the books are right, and pages go back. -/

namespace Vextro.Kheap

open Paging List

variable {n : ℕ} {r : Heap × ℕ} {B : ℕ → Prop} {slabs : List SlabView}

/-! ## Bytes -/

namespace Blocks

variable {B : ℕ → Prop} {h h' : Heap} {slabs ss : List SlabView} {s : SlabView} {live : List Block}
  {b c : Block}

theorem large_end (hlarge : kheapMaxSlab < b.size)
    (hs : b.size < 2 ^ 48) (hmod : b.addr % 4096 = kheapHdrBytes) :
    b.addr + b.size ≤ (b.addr / 4096 + b.frames) * 4096 := by
  rw [Block.frames, if_neg hlarge.not_ge, largeFrames_eq hs]
  simp only [kheapHdrBytes] at hmod
  omega

variable (hb : Blocks B h slabs live)
include hb

theorem small_obj (hm : b ∈ live) (hsmall : b.size ≤ kheapMaxSlab) :
    ∃ s ∈ slabs, b.addr ∉ s.free ∧ b.size ≤ s.size ∧ ∃ i < s.total, s.obj i = b.addr := by
  obtain ⟨s, hs, hobj, hfree, -, hcls⟩ := hb.small b hm hsmall
  exact ⟨s, hs, hfree, (kheapClassOf_bounds hcls).2, SlabView.mem_objs.mp hobj⟩

theorem byte_page (hm : b ∈ live) {x : ℕ} (hx : b.addr ≤ x) (hx' : x < b.addr + b.size) :
    (b.size ≤ kheapMaxSlab ∧ ∀ s ∈ slabs, b.addr ∈ s.objs → x / 4096 = s.page) ∨
      (kheapMaxSlab < b.size ∧ x / 4096 ∈ b.pages) := by
  by_cases hsmall : b.size ≤ kheapMaxSlab
  · refine .inl ⟨hsmall, fun s hs hobj => ?_⟩
    have hcls := (hb.small_of_obj hs hm hobj).2.2.2
    have hsize : b.size ≤ s.size := (kheapClassOf_bounds hcls).2
    obtain ⟨i, hi, hiaddr⟩ := SlabView.mem_objs.mp hobj
    obtain ⟨hlo, hhi⟩ := SlabView.obj_bounds hi
    omega
  · have hlarge := Nat.lt_of_not_le hsmall
    have hend := large_end hlarge (hb.sizes b hm).2 (hb.large b hm hlarge).1
    exact .inr ⟨hlarge, mem_range'_1.mpr ⟨Nat.div_le_div_right hx,
      Nat.div_lt_of_lt_mul (by rw [Nat.mul_comm]; exact lt_of_lt_of_le hx' hend)⟩⟩

theorem free_apart {t : SlabView} (ht : t ∈ slabs) {a : ℕ}
    (ha : a ∈ t.free) (hm : b ∈ live) : ¬(b.addr ≤ a ∧ a < b.addr + b.size) := by
  rintro ⟨hlo, hhi⟩
  have haobj := (hb.held.ok t ht).free a ha
  have hpage := SlabView.obj_page haobj
  rcases hb.byte_page hm hlo hhi with ⟨hsmall, hin⟩ | ⟨-, hin⟩
  · obtain ⟨s, hs, hfree, hsize, i, hi, hiaddr⟩ := hb.small_obj hm hsmall
    have hobj : b.addr ∈ s.objs := SlabView.mem_objs.mpr ⟨i, hi, hiaddr⟩
    obtain rfl := hb.held.eq_of_page ht hs (hpage.symm.trans (hin s hs hobj))
    obtain ⟨j, -, rfl⟩ := SlabView.mem_objs.mp haobj
    rcases Nat.lt_trichotomy i j with hij | rfl | hij
    · have := SlabView.obj_apart (s := t) hij
      omega
    · exact hfree (hiaddr ▸ ha)
    have := SlabView.obj_apart (s := t) hij
    omega
  · exact hb.page_apart ht hm (hpage ▸ hin)

theorem store (hm : b ∈ live) (words : ℕ → ℕ) :
    Blocks B { h with link := fun a =>
      if b.addr ≤ a && a < b.addr + b.size then words a else h.link a } slabs live := by
  refine ⟨hb.held.frame (fun _ _ => rfl) (fun t ht a ha => ?_) rfl rfl, hb.addrs, hb.sizes,
    hb.small, hb.taken, hb.large, hb.pages, hb.reserved, hb.liveBytes, hb.largePages⟩
  have hout := hb.free_apart ht ha hm
  exact if_neg (by simpa using hout)

theorem apart (hbm : b ∈ live) (hcm : c ∈ live) (hne : b.addr ≠ c.addr)
    (hpages : b.pages.Disjoint c.pages) {x : ℕ} (hbx : b.addr ≤ x ∧ x < b.addr + b.size)
    (hcx : c.addr ≤ x ∧ x < c.addr + c.size) : False := by
  rcases hb.byte_page hbm hbx.1 hbx.2 with ⟨hbs, hbin⟩ | ⟨-, hbin⟩ <;>
    rcases hb.byte_page hcm hcx.1 hcx.2 with ⟨hcs, hcin⟩ | ⟨-, hcin⟩
  · obtain ⟨s, hs, -, hbsize, i, hi, hiaddr⟩ := hb.small_obj hbm hbs
    obtain ⟨t, ht, -, hcsize, j, hj, hjaddr⟩ := hb.small_obj hcm hcs
    have hsp := hbin s hs (SlabView.mem_objs.mpr ⟨i, hi, hiaddr⟩)
    have htp := hcin t ht (SlabView.mem_objs.mpr ⟨j, hj, hjaddr⟩)
    obtain rfl := hb.held.eq_of_page hs ht (hsp.symm.trans htp)
    rcases Nat.lt_trichotomy i j with hij | rfl | hij
    · have := SlabView.obj_apart (s := s) hij
      omega
    · exact hne (hiaddr.symm.trans hjaddr)
    · have := SlabView.obj_apart (s := s) hij
      omega
  · obtain ⟨s, hs, -, -, i, hi, hiaddr⟩ := hb.small_obj hbm hbs
    rw [hbin s hs (SlabView.mem_objs.mpr ⟨i, hi, hiaddr⟩)] at hcin
    exact hb.page_apart hs hcm hcin
  · obtain ⟨t, ht, -, -, j, hj, hjaddr⟩ := hb.small_obj hcm hcs
    rw [hcin t ht (SlabView.mem_objs.mpr ⟨j, hj, hjaddr⟩)] at hbin
    exact hb.page_apart ht hbm hbin
  · exact hpages hbin hcin

theorem pairwise :
    live.Pairwise fun b c => b.addr + b.size ≤ c.addr ∨ c.addr + c.size ≤ b.addr := by
  have hne := pairwise_map.mp hb.addrs
  have hpages := (nodup_flatMap.mp (nodup_append'.mp hb.pages).2.1).2
  refine (hne.and hpages).imp_of_mem fun {b c} hbm hcm hbc => ?_
  by_contra hover
  have hb0 := (hb.sizes b hbm).1
  have hc0 := (hb.sizes c hcm).1
  exact hb.apart (x := max b.addr c.addr) hbm hcm hbc.1 hbc.2 ⟨by omega, by omega⟩
    ⟨by omega, by omega⟩

end Blocks

/-! ## Calls -/

namespace Blocks

variable {h : Heap} {live : List Block}

theorem machine (hb : Blocks B h slabs live) {m : Machine}
    (hres : Reserved B (heapPages slabs live) m) : Blocks B { h with m := m } slabs live :=
  ⟨hb.held.frame (fun _ _ => rfl) (fun _ _ _ _ => rfl) rfl rfl, hb.addrs, hb.sizes, hb.small,
    hb.taken,
    hb.large, hb.pages, hres, hb.liveBytes, hb.largePages⟩

/-- There is no memory, or there is a slab of the class with a free object. -/
theorem slabFor_spec (hb : Blocks B h slabs live) {cls : ℕ} (hcls : cls < 8) (pool : Pool) :
    ((slabFor h cls pool).2 = 0 ∧ Blocks B (slabFor h cls pool).1 slabs live) ∨
      ∃ s ss, (slabFor h cls pool).2 = s.page ∧ s.page ≠ 0 ∧ s.cls = cls ∧ s.pool = pool ∧
      s.free ≠ [] ∧
        (∀ t ∈ ss, t ∈ slabs) ∧ Blocks B (slabFor h cls pool).1 (s :: ss) live := by
  rw [slabFor]
  by_cases hp : h.kheapPartial pool cls ≠ 0
  · obtain ⟨s, hs, hpage, hpool, hc, hfree⟩ := hb.held.shelf.head hp
    rw [if_pos hp]
    exact .inr ⟨s, slabs.erase s, hpage.symm, hpage ▸ hp, hc, hpool, hfree,
      fun t ht => mem_of_mem_erase ht, hb.perm (perm_cons_erase hs) (List.Perm.refl _)⟩
  rw [if_neg hp, kheapNewSlab]
  rcases ha : pmmAlloc h.m with ⟨m, page⟩
  rcases hb.reserved.alloc ha with ⟨rfl, hres⟩ | ⟨h0, hnew, hres⟩
  · exact .inl ⟨rfl, hb.machine hres⟩
  obtain ⟨k, rfl⟩ := Nat.exists_eq_succ_of_ne_zero h0
  have hg : Grown (k + 1) cls pool slabs m h _ := hb.held.grow hcls h0
    (fun t ht heq => hnew (mem_append_left _ (heq ▸ mem_map_of_mem ht))) rfl
  refine .inr ⟨SlabView.fresh (k + 1) cls pool, slabs, rfl, h0, rfl, rfl, ?_, fun t ht => ht,
    hb.grow hnew hres hg⟩
  rw [SlabView.fresh_free, ne_eq, ← length_eq_zero_iff, SlabView.objs_length]
  exact (SlabView.total_pos _).ne'

end Blocks

/-- The heap between two calls: a slab is kept only for its blocks. -/
structure Sound (B : ℕ → Prop) (s : Clients) (slabs : List SlabView) : Prop where
  blocks : Blocks B s.h slabs s.live
  busy : ∀ t ∈ slabs, ∃ a ∈ t.objs, a ∉ t.free

namespace Sound

variable {s : Clients}

variable (hs : Sound B s slabs)
include hs

theorem small {cls : ℕ} (hpos : 0 < n) (hn : n ≤ kheapMaxSlab) (hcls : kheapClassOf n = some cls)
    (pool : Pool)
    (hr : r = match slabFor s.h cls pool with
      | (h, 0) => (h, 0)
      | (h, page) => slabTake h page pool) :
    ∃ slabs', Sound B ⟨r.1, if r.2 = 0 then s.live else ⟨r.2, n, pool⟩ :: s.live⟩ slabs' := by
  rcases hf : slabFor s.h cls pool with ⟨h, page⟩
  have hspec := hs.blocks.slabFor_spec (kheapClassOf_bounds hcls).1 pool
  rw [hf] at hspec hr
  rcases hspec with ⟨rfl, hb⟩ | ⟨t, ss, rfl, h0, rfl, rfl, hne, hsub, hb⟩
  · subst hr
    exact ⟨slabs, hb, hs.busy⟩
  obtain ⟨a, fr, hfree⟩ := exists_cons_of_ne_nil hne
  have hrt : r = slabTake h t.page t.pool := by
    rw [hr]
    split
    · rename_i heq
      exact absurd (Prod.mk.inj heq).2 h0
    · rename_i heq
      rw [(Prod.mk.inj heq).1, (Prod.mk.inj heq).2]
  obtain ⟨hout, hb'⟩ := hb.take hfree hpos hn hcls
  have hok := hb.held.ok t mem_cons_self
  have ha : a ∈ t.objs := hok.free a (hfree ▸ mem_cons_self)
  rw [hrt, hout, if_neg (SlabView.obj_ne_zero ha)]
  refine ⟨t.withFree fr :: ss, hb', fun u hu => ?_⟩
  rcases mem_cons.mp hu with rfl | hu
  · exact ⟨a, ha, (nodup_cons.mp (hfree ▸ hok.nodup)).1⟩
  · exact hs.busy u (hsub u hu)

theorem large (hn : kheapMaxSlab < n) (hn' : n < 2 ^ 48) (pool : Pool)
    (hr : r = kmallocLarge s.h n pool) :
    Sound B ⟨r.1, if r.2 = 0 then s.live else ⟨r.2, n, pool⟩ :: s.live⟩ slabs := by
  have hframes : largeFrames n ≠ 0 := by
    rw [largeFrames_eq hn']
    omega
  rw [kmallocLarge] at hr
  rcases ha : pmmAllocContig s.h.m (largeFrames n) with ⟨m, page⟩
  rw [ha] at hr
  rcases hs.blocks.reserved.contig hframes ha with ⟨rfl, hres⟩ | ⟨h0, hnew, hres⟩
  · subst hr
    exact ⟨hs.blocks.machine hres, hs.busy⟩
  obtain ⟨k, rfl⟩ := Nat.exists_eq_succ_of_ne_zero h0
  subst hr
  refine ⟨?_, hs.busy⟩
  exact hs.blocks.large_take hn hn' hnew hres rfl

theorem kmalloc (hn : n < 2 ^ 48) (pool : ℤ) (hr : r = kmallocPool s.h n pool) :
    ∃ slabs', Sound B
      ⟨r.1, if r.2 = 0 then s.live else ⟨r.2, n, poolOf pool⟩ :: s.live⟩ slabs' := by
  rw [kmallocPool] at hr
  by_cases hzero : n = 0
  · rw [if_pos hzero] at hr
    subst hr
    exact ⟨slabs, hs⟩
  rw [if_neg hzero] at hr
  by_cases hsmall : n ≤ kheapMaxSlab
  · obtain ⟨cls, hcls, -⟩ := kheapClassOf_some hsmall
    rw [if_pos hsmall, hcls] at hr
    exact hs.small (Nat.pos_of_ne_zero hzero) hsmall hcls _ hr
  · rw [if_neg hsmall] at hr
    exact ⟨slabs, hs.large (Nat.lt_of_not_le hsmall) hn _ hr⟩

theorem free {b : Block} (hm : b ∈ s.live) :
    ∃ slabs', Sound B ⟨kfree s.h b.addr, s.live.erase b⟩ slabs' := by
  have hb := hs.blocks.perm (List.Perm.refl _) (perm_cons_erase hm)
  by_cases hsmall : b.size ≤ kheapMaxSlab
  · obtain ⟨t, ht, hobj, hfree, -⟩ := hs.blocks.small b hm hsmall
    have hb' := hb.perm (perm_cons_erase ht) (List.Perm.refl _)
    refine ⟨t.given b.addr ++ slabs.erase t, hb'.give hobj, fun u hu => ?_⟩
    rcases mem_append.mp hu with hu | hu
    · obtain ⟨rfl, hne⟩ := mem_given hu
      exact (hs.blocks.held.ok t ht).busy hobj hfree hne
    · exact hs.busy u (mem_of_mem_erase hu)
  · exact ⟨slabs, hb.large_give (Nat.lt_of_not_le hsmall), hs.busy⟩

theorem step (c : HeapCall) : ∃ slabs', Sound B (c.step s) slabs' := by
  cases c with
  | kmalloc n pool => exact hs.kmalloc n.2 pool rfl
  | kfree p =>
    rw [HeapCall.step]
    split
    · exact ⟨slabs, hs⟩
    rename_i b hfind
    have hp : b.addr = p := by simpa using List.find?_some hfind
    rw [← hp]
    exact hs.free (mem_of_find?_eq_some hfind)
  | store p words =>
    rw [HeapCall.step]
    split
    · exact ⟨slabs, hs⟩
    rename_i b hfind
    have hp : b.addr = p := by simpa using List.find?_some hfind
    rw [← hp]
    exact ⟨slabs, hs.blocks.store (mem_of_find?_eq_some hfind) words, hs.busy⟩

end Sound

/-! ## Runs -/

/-- A heap nothing has been taken from. -/
structure Heap.Empty (h : Heap) : Prop where
  lists : ∀ pool cls, h.kheapPartial pool cls = 0
  liveBytes : ∀ pool, h.liveBytes pool = 0
  slabPages : ∀ pool, h.slabPages pool = 0
  largePages : ∀ pool, h.largePages pool = 0

theorem Heap.Empty.sound {h : Heap} (he : h.Empty) (hres : Reserved B [] h.m) :
    Sound B ⟨h, []⟩ [] := by
  refine ⟨⟨⟨?_, nodup_nil, ?_, ?_, fun pool cls => ?_, fun pool => ?_⟩, nodup_nil, ?_, ?_, ?_, ?_,
    nodup_nil, hres, funext he.liveBytes, funext he.largePages⟩, ?_⟩
  any_goals exact fun _ hm => absurd hm not_mem_nil
  · refine ⟨[], he.lists pool cls, nodup_nil, fun p => ⟨fun hp => absurd hp not_mem_nil, ?_⟩⟩
    rintro ⟨s, hs, -⟩
    exact absurd hs not_mem_nil
  · exact he.slabPages pool

/-- What the heap's books say of the slabs it holds and the blocks that are out. -/
structure Accounted (h : Heap) (slabs : List SlabView) (live : List Block) : Prop where
  disjoint : live.Pairwise fun b c => b.addr + b.size ≤ c.addr ∨ c.addr + c.size ≤ b.addr
  inside : ∀ b ∈ live,
    (∃ s ∈ slabs, s.page * 4096 + kheapHdrBytes ≤ b.addr ∧ b.addr + b.size ≤ (s.page + 1) * 4096) ∨
    (∃ frames, h.header (b.addr / 4096) = .large ⟨frames, b.size, b.pool⟩ ∧
    b.addr % 4096 = kheapHdrBytes ∧ b.addr + b.size ≤ (b.addr / 4096 + frames) * 4096)
  free : ∀ s ∈ slabs, ∃ c, h.header s.page = .slab c ∧ c.cls = s.cls ∧ c.pool = s.pool ∧
    Links.Chain h.link c.freelist s.free ∧ c.objFree = s.free.length
  lists : ∀ pool cls, ∃ ps, Links.Doubly (nextOf h) (prevOf h) 0 (h.kheapPartial pool cls) ps ∧
    ps.Nodup ∧ ∀ p, p ∈ ps ↔ ∃ s ∈ slabs, s.page = p ∧ s.pool = pool ∧ s.cls = cls ∧ s.free ≠ []
  liveBytes : ∀ pool, h.liveBytes pool = ((live.filter fun b => b.pool = pool).map Block.cost).sum
  slabPages : ∀ pool, h.slabPages pool = (slabs.filter fun s => s.pool = pool).length
  largePages : ∀ pool,
    h.largePages pool = ((live.filter fun b => b.pool = pool).map Block.frames).sum
  pages : ∀ f ∈ heapPages slabs live, h.m.used f = true
  nodup : (heapPages slabs live).Nodup

theorem Blocks.accounted {h : Heap} {live : List Block} (hb : Blocks B h slabs live) :
    Accounted h slabs live := by
  refine ⟨hb.pairwise, fun b hm => ?_, fun s hs => ?_, hb.held.shelf, congrFun hb.liveBytes,
    hb.held.counted, congrFun hb.largePages, fun f hf => (hb.reserved.page hf).2.2.1, hb.pages⟩
  · by_cases hsmall : b.size ≤ kheapMaxSlab
    · obtain ⟨s, hs, -, hsize, i, hi, hiaddr⟩ := hb.small_obj hm hsmall
      obtain ⟨hlo, hhi⟩ := SlabView.obj_bounds hi
      rw [hiaddr] at hlo hhi
      exact .inl ⟨s, hs, hlo, (Nat.add_le_add_left hsize _).trans hhi⟩
    have hlarge := Nat.lt_of_not_le hsmall
    obtain ⟨hmod, hheader⟩ := hb.large b hm hlarge
    have hend := Blocks.large_end hlarge (hb.sizes b hm).2 hmod
    rw [Block.frames, if_neg hsmall] at hend
    exact .inr ⟨_, hheader, hmod, hend⟩
  · obtain ⟨c, fl, hh, rfl, hchain⟩ := hb.held.header_eq hs
    exact ⟨_, hh, rfl, rfl, hchain, rfl⟩

/-- With no block out, everything the heap took has gone back. -/
theorem Sound.returned {s : Clients} (hs : Sound B s slabs) (hlive : s.live = []) :
    slabs = [] ∧ ∀ f, s.h.m.used f → B f := by
  have hnone : slabs = [] := eq_nil_iff_forall_not_mem.mpr fun t ht => by
    obtain ⟨a, ha, hfree⟩ := hs.busy t ht
    obtain ⟨b, hb, -⟩ := hs.blocks.taken t ht a ha hfree
    simp [hlive] at hb
  refine ⟨hnone, fun f hf => ?_⟩
  have hres := hs.blocks.reserved
  rw [hnone, hlive] at hres
  exact (hres.apart.spent f hf).resolve_right fun hpos => not_mem_nil (Held.pages_pos.mp hpos)

theorem run_sound (calls : List HeapCall) {s : Clients} (hs : Sound B s slabs) :
    ∃ slabs', Sound B (calls.foldl HeapCall.step s) slabs' := by
  induction calls generalizing s slabs with
  | nil => exact ⟨slabs, hs⟩
  | cons c calls ih =>
    obtain ⟨slabs', hs'⟩ := hs.step c
    exact ih hs'

/-- Whatever is allocated, freed and stored, the books are right, and when the last block is
freed no page of the heap is left. -/
theorem heap_accounted (h : Heap)
    (he : h.Empty) (hres : Reserved (fun f => h.m.used f = true) [] h.m) (calls : List HeapCall) :
    ∃ slabs, Accounted (calls.foldl HeapCall.step ⟨h, []⟩).h slabs
        (calls.foldl HeapCall.step ⟨h, []⟩).live ∧
        ((calls.foldl HeapCall.step ⟨h, []⟩).live = [] → slabs = [] ∧
        ∀ f, (calls.foldl HeapCall.step ⟨h, []⟩).h.m.used f = true → h.m.used f = true) := by
  obtain ⟨slabs, hs⟩ := run_sound calls (he.sound hres)
  exact ⟨slabs, hs.blocks.accounted, hs.returned⟩

/-- A machine with four megabytes and nothing allocated on its heap. -/
def bootHeap : Heap where
  m := { oneProcess with highest := 1024, freeFrames := 1007 }
  header _ := .other
  link _ := 0
  kheapPartial _ _ := 0
  liveBytes _ := 0
  slabPages _ := 0
  largePages _ := 0

theorem bootHeap_reserved : Reserved (fun f => bootHeap.m.used f = true) [] bootHeap.m := by
  have hnone : ∀ a v, ¬Evictable bootHeap.m a v := fun a v hv => by
    have hp := hv.present
    rw [show bootHeap.m.pte a v = 0 from oneProcess_pte a v] at hp
    cases hp
  have hsane := oneProcess_sane
  refine ⟨⟨rfl, by decide, hsane.cowPrivate, hsane.areas, hsane.deadEntries, hsane.deadTables,
    hsane.deadRoot, hsane.deadVmas, hsane.root⟩, fun _ => Nat.zero_le _, fun f hf => ?_,
    fun f hf => ?_,
    fun a v hv => absurd hv (hnone a v), fun a v _ _ hv => absurd hv (hnone a v), fun _ _ => rfl,
    fun f hf => .inl hf⟩
  · exact absurd (Held.pages_pos.mp hf) not_mem_nil
  · exact absurd hf (lt_irrefl 0)

/-- Two blocks from one slab, a large one, and the first of them freed: the slab stays for the
second. -/
theorem heap_accounted_freed :
    let s := [.kmalloc 100 0, .kmalloc 100 0, .kmalloc 5000 1, .kfree (17 * 4096 + 64)].foldl
      HeapCall.step ⟨bootHeap, []⟩
    s.live = [⟨256 * 4096 + 64, 5000, .paged⟩, ⟨17 * 4096 + 192, 100, .nonPaged⟩] ∧
      ∃ slabs, Accounted s.h slabs s.live ∧
        (slabs.filter fun t => t.pool = .nonPaged).length = 1 := by
  obtain ⟨slabs, h, -⟩ := heap_accounted bootHeap
    ⟨fun _ _ => rfl, fun _ => rfl, fun _ => rfl, fun _ => rfl⟩ bootHeap_reserved
    [.kmalloc 100 0, .kmalloc 100 0, .kmalloc 5000 1, .kfree (17 * 4096 + 64)]
  exact ⟨by decide +kernel, slabs, h, (h.slabPages .nonPaged).symm.trans (by decide +kernel)⟩

end Vextro.Kheap
