import Vextro.Model.KernelHeap
import Vextro.Verification.Shared.Links

/-! The lists that the slabs of a class stand in. -/

namespace Vextro.Kheap

open Function
open Links (Chain Doubly)

variable {h : Heap} {page p : ℕ} {s : Slab}

/-! ## Headers -/

/-- A header without its place in a list. -/
def Header.core : Header → Header
  | .slab s => .slab { s with next := 0, prev := 0 }
  | hd => hd

def nextOf (h : Heap) (page : ℕ) : ℕ :=
  match h.header page with
  | .slab s => s.next
  | _ => 0

def prevOf (h : Heap) (page : ℕ) : ℕ :=
  match h.header page with
  | .slab s => s.prev
  | _ => 0

def isSlab (h : Heap) (page : ℕ) : Prop := ∃ s, h.header page = .slab s

theorem isSlab_of_core (hc : (h.header page).core = .slab s) : isSlab h page := by
  cases hh : h.header page with
  | slab s => exact ⟨s, hh⟩
  | other | large =>
    rw [hh] at hc
    cases hc

/-- Nothing but the lists of slabs has changed. -/
structure Relinked (h h' : Heap) : Prop where
  m : h'.m = h.m
  core : ∀ p, (h'.header p).core = (h.header p).core
  link : h'.link = h.link
  liveBytes : h'.liveBytes = h.liveBytes
  slabPages : h'.slabPages = h.slabPages
  largePages : h'.largePages = h.largePages

theorem Relinked.refl (h : Heap) : Relinked h h := ⟨rfl, fun _ => rfl, rfl, rfl, rfl, rfl⟩

theorem Relinked.trans {h' h'' : Heap} (a : Relinked h h') (b : Relinked h' h'') : Relinked h h'' :=
  ⟨b.m.trans a.m, fun p => (b.core p).trans (a.core p), b.link.trans a.link,
    b.liveBytes.trans a.liveBytes, b.slabPages.trans a.slabPages, b.largePages.trans a.largePages⟩

theorem Relinked.isSlab {h' : Heap} (a : Relinked h h') (hp : isSlab h p) : isSlab h' p := by
  obtain ⟨s, hs⟩ := hp
  have hc := a.core p
  rw [hs] at hc
  exact isSlab_of_core hc

theorem setSlab_relinked {t : Slab} (hs : h.header p = .slab s)
    (hc : (Header.slab t).core = (Header.slab s).core) :
    Relinked h (h.setSlab p t) := by
  refine ⟨rfl, fun q => ?_, rfl, rfl, rfl, rfl⟩
  by_cases hq : q = p
  · simp [Heap.setSlab, hq, hs, hc]
  · simp [Heap.setSlab, hq]

theorem setNext_relinked (h : Heap) (p v : ℕ) : Relinked h (h.setNext p v) := by
  rw [Heap.setNext]
  split
  · rename_i s hs
    exact setSlab_relinked hs rfl
  · exact .refl h

theorem setPrev_relinked (h : Heap) (p v : ℕ) : Relinked h (h.setPrev p v) := by
  rw [Heap.setPrev]
  split
  · rename_i s hs
    exact setSlab_relinked hs rfl
  · exact .refl h

theorem setPartial_relinked (h : Heap) (pool : Pool) (cls page : ℕ) :
    Relinked h (h.setPartial pool cls page) :=
  ⟨rfl, fun _ => rfl, rfl, rfl, rfl, rfl⟩

theorem nextOf_setSlab (h : Heap) (p : ℕ) (t : Slab) (q : ℕ) :
    nextOf (h.setSlab p t) q = if q = p then t.next else nextOf h q := by
  by_cases hq : q = p <;> simp [nextOf, Heap.setSlab, hq]

theorem prevOf_setSlab (h : Heap) (p : ℕ) (t : Slab) (q : ℕ) :
    prevOf (h.setSlab p t) q = if q = p then t.prev else prevOf h q := by
  by_cases hq : q = p <;> simp [prevOf, Heap.setSlab, hq]

theorem nextOf_setNext (hp : isSlab h p) (v q : ℕ) :
    nextOf (h.setNext p v) q = if q = p then v else nextOf h q := by
  obtain ⟨s, hs⟩ := hp
  rw [Heap.setNext, hs]
  exact nextOf_setSlab h p _ q

theorem prevOf_setNext (h : Heap) (p v q : ℕ) : prevOf (h.setNext p v) q = prevOf h q := by
  rw [Heap.setNext]
  split
  · rename_i s hs
    rw [prevOf_setSlab]
    split
    · rename_i hq
      rw [hq, prevOf, hs]
    · rfl
  · rfl

theorem prevOf_setPrev (hp : isSlab h p) (v q : ℕ) :
    prevOf (h.setPrev p v) q = if q = p then v else prevOf h q := by
  obtain ⟨s, hs⟩ := hp
  rw [Heap.setPrev, hs]
  exact prevOf_setSlab h p _ q

theorem nextOf_setPrev (h : Heap) (p v q : ℕ) : nextOf (h.setPrev p v) q = nextOf h q := by
  rw [Heap.setPrev]
  split
  · rename_i s hs
    rw [nextOf_setSlab]
    split
    · rename_i hq
      rw [hq, nextOf, hs]
    · rfl
  · rfl

theorem kheapPartial_setNext (h : Heap) (p v : ℕ) :
    (h.setNext p v).kheapPartial = h.kheapPartial := by
  rw [Heap.setNext]
  split <;> rfl

theorem kheapPartial_setPrev (h : Heap) (p v : ℕ) :
    (h.setPrev p v).kheapPartial = h.kheapPartial := by
  rw [Heap.setPrev]
  split <;> rfl

theorem kheapPartial_setPartial (h : Heap) (pool : Pool) (cls page : ℕ) (q : Pool) (c : ℕ) :
    (h.setPartial pool cls page).kheapPartial q c = if q = pool ∧ c = cls then page
      else h.kheapPartial q c := by
  by_cases hq : q = pool
  · subst hq
    simp [Heap.setPartial, update_apply]
  · simp [Heap.setPartial, hq]

/-! ## Into a list and out of it -/

/-- A slab is put in front of its list. -/
structure Pushed (page : ℕ) (s : Slab) (h h' : Heap) : Prop extends Relinked h h' where
  next : ∀ q, nextOf h' q = if q = page then h.kheapPartial s.pool s.cls else nextOf h q
  prev : ∀ q, prevOf h' q = if q = page then 0
    else if q = h.kheapPartial s.pool s.cls ∧ h.kheapPartial s.pool s.cls ≠ 0 then page
    else prevOf h q
  heads : ∀ q c, h'.kheapPartial q c = if q = s.pool ∧ c = s.cls then page else h.kheapPartial q c

/-- The page becomes the head of its list, before the old one. -/
theorem kheapLink_pushed (hs : h.header page = .slab s)
    (hfirst : h.kheapPartial s.pool s.cls ≠ 0 → isSlab h (h.kheapPartial s.pool s.cls))
    (hne : h.kheapPartial s.pool s.cls ≠ page) : Pushed page s h (kheapLink h page) := by
  rw [kheapLink, hs]
  dsimp only
  generalize hfeq : h.kheapPartial s.pool s.cls = first at hfirst hne
  have hp : isSlab h page := ⟨s, hs⟩
  have hprev := setPrev_relinked h page 0
  have hboth := hprev.trans (setNext_relinked _ page first)
  have hnext : ∀ q, nextOf ((h.setPrev page 0).setNext page first) q =
      if q = page then first else nextOf h q := fun q => by
    rw [nextOf_setNext (hprev.isSlab hp), nextOf_setPrev]
  have hback : ∀ q, prevOf ((h.setPrev page 0).setNext page first) q =
      if q = page then 0 else prevOf h q := fun q => by
    rw [prevOf_setNext, prevOf_setPrev hp]
  have hheads : ((h.setPrev page 0).setNext page first).kheapPartial = h.kheapPartial := by
    rw [kheapPartial_setNext, kheapPartial_setPrev]
  generalize (h.setPrev page 0).setNext page first = h1 at hboth hnext hback hheads
  by_cases h0 : first ≠ 0
  · rw [if_pos h0]
    refine ⟨(hboth.trans (setPrev_relinked h1 first page)).trans (setPartial_relinked _ _ _ _),
      fun q => ?_, fun q => ?_, fun q c => ?_⟩
    · change nextOf (h1.setPrev first page) q = _
      rw [nextOf_setPrev, hnext, hfeq]
    · change prevOf (h1.setPrev first page) q = _
      rw [prevOf_setPrev (hboth.isSlab (hfirst h0)), hback, hfeq]
      by_cases hq : q = page
      · rw [if_neg (fun h => hne (h.symm.trans hq)), if_pos hq, if_pos hq]
      · rw [if_neg hq, if_neg hq]
        exact if_congr (by simp [h0]) rfl rfl
    · rw [kheapPartial_setPartial, kheapPartial_setPrev, hheads]
  · rw [if_neg h0]
    refine ⟨hboth.trans (setPartial_relinked _ _ _ _), fun q => ?_, fun q => ?_, fun q c => ?_⟩
    · exact (hnext q).trans (by rw [hfeq])
    · refine (hback q).trans ?_
      rw [hfeq]
      refine if_congr Iff.rfl rfl ?_
      rw [if_neg fun h => h0 h.2]
    · rw [kheapPartial_setPartial, hheads]

/-- A slab is taken out of its list. -/
structure Unlinked (page : ℕ) (s : Slab) (h h' : Heap) : Prop extends Relinked h h' where
  next : ∀ q, q ≠ page → nextOf h' q = if q = s.prev ∧ s.prev ≠ 0 then s.next else nextOf h q
  prev : ∀ q, q ≠ page → prevOf h' q = if q = s.next ∧ s.next ≠ 0 then s.prev else prevOf h q
  heads : ∀ q c, h'.kheapPartial q c =
    if s.prev = 0 ∧ q = s.pool ∧ c = s.cls then s.next else h.kheapPartial q c

/-- The neighbours of the page now point at each other. -/
theorem kheapUnlink_unlinked (hs : h.header page = .slab s) (hprev : s.prev ≠ 0 → isSlab h s.prev)
    (hnext : s.next ≠ 0 → isSlab h s.next) : Unlinked page s h (kheapUnlink h page) := by
  rw [kheapUnlink, hs]
  dsimp only
  have hp : isSlab h page := ⟨s, hs⟩
  -- the node before it, or the head of the list
  obtain ⟨h1, hh1, hrel1, hnext1, hprev1, hheads1⟩ : ∃ h1,
      h1 = (if s.prev ≠ 0 then h.setNext s.prev s.next else h.setPartial s.pool s.cls s.next) ∧
      Relinked h h1 ∧
      (∀ q, nextOf h1 q = if q = s.prev ∧ s.prev ≠ 0 then s.next else nextOf h q) ∧
      (∀ q, prevOf h1 q = prevOf h q) ∧
      (∀ q c, h1.kheapPartial q c =
        if s.prev = 0 ∧ q = s.pool ∧ c = s.cls then s.next else h.kheapPartial q c) := by
    refine ⟨_, rfl, ?_⟩
    by_cases h0 : s.prev ≠ 0
    · rw [if_pos h0]
      refine ⟨setNext_relinked h _ _, fun q => ?_, fun q => prevOf_setNext h _ _ q, fun q c => ?_⟩
      · rw [nextOf_setNext (hprev h0)]
        exact if_congr (by simp [h0]) rfl rfl
      · rw [kheapPartial_setNext, if_neg fun h => h0 h.1]
    rw [if_neg h0]
    refine ⟨setPartial_relinked h _ _ _, fun q => ?_, fun q => rfl, fun q c => ?_⟩
    · rw [if_neg fun h => h0 h.2]
      rfl
    · rw [kheapPartial_setPartial]
      exact if_congr (by simp [not_not.mp h0]) rfl rfl
  rw [← hh1]
  -- the node after it
  obtain ⟨h2, hh2, hrel2, hnext2, hprev2, hheads2⟩ : ∃ h2,
      h2 = (if s.next ≠ 0 then h1.setPrev s.next s.prev else h1) ∧ Relinked h h2 ∧
      (∀ q, nextOf h2 q = nextOf h1 q) ∧
      (∀ q, prevOf h2 q = if q = s.next ∧ s.next ≠ 0 then s.prev else prevOf h q) ∧
      h2.kheapPartial = h1.kheapPartial := by
    refine ⟨_, rfl, ?_⟩
    by_cases h0 : s.next ≠ 0
    · rw [if_pos h0]
      refine ⟨hrel1.trans (setPrev_relinked h1 _ _), fun q => nextOf_setPrev h1 _ _ q, fun q => ?_,
        kheapPartial_setPrev h1 _ _⟩
      rw [prevOf_setPrev (hrel1.isSlab (hnext h0)), hprev1]
      exact if_congr (by simp [h0]) rfl rfl
    · rw [if_neg h0]
      refine ⟨hrel1, fun q => rfl, fun q => ?_, rfl⟩
      rw [if_neg fun h => h0 h.2, hprev1]
  rw [← hh2]
  have hp2 := hrel2.isSlab hp
  have hrel3 := setNext_relinked h2 page 0
  refine ⟨(hrel2.trans hrel3).trans (setPrev_relinked _ _ _), fun q hq => ?_, fun q hq => ?_,
    fun q c => ?_⟩
  · rw [nextOf_setPrev, nextOf_setNext hp2, if_neg hq, hnext2, hnext1]
  · rw [prevOf_setPrev (hrel3.isSlab hp2), if_neg hq, prevOf_setNext, hprev2]
  · rw [kheapPartial_setPrev, kheapPartial_setNext, hheads2, hheads1]

/-! ## The lists -/

/-- Every list of slabs is well linked, and `P` says what it holds. -/
def Shelves (h : Heap) (P : Pool → ℕ → ℕ → Prop) : Prop :=
  ∀ pool cls, ∃ ps, Doubly (nextOf h) (prevOf h) 0 (h.kheapPartial pool cls) ps ∧ ps.Nodup ∧
    ∀ p, p ∈ ps ↔ P pool cls p

namespace Shelves

variable {h' : Heap} {P Q : Pool → ℕ → ℕ → Prop}

variable (hs : Shelves h P)
include hs

theorem congr (hPQ : ∀ pool cls p, P pool cls p ↔ Q pool cls p) : Shelves h Q := by
  intro pool cls
  obtain ⟨ps, hd, hnd, hmem⟩ := hs pool cls
  exact ⟨ps, hd, hnd, fun p => (hmem p).trans (hPQ pool cls p)⟩

theorem same (hnext : ∀ pool cls q, P pool cls q → nextOf h' q = nextOf h q)
    (hprev : ∀ pool cls q, P pool cls q → prevOf h' q = prevOf h q)
    (hheads : h'.kheapPartial = h.kheapPartial) : Shelves h' P := by
  intro pool cls
  obtain ⟨ps, hd, hnd, hmem⟩ := hs pool cls
  rw [hheads]
  exact ⟨ps, hd.congr (fun q hq => hnext pool cls q ((hmem q).mp hq))
    (fun q hq => hprev pool cls q ((hmem q).mp hq)), hnd, hmem⟩

theorem same_header (hheader : ∀ pool cls q, P pool cls q → h'.header q = h.header q)
    (hheads : h'.kheapPartial = h.kheapPartial) : Shelves h' P :=
  hs.same (fun pool cls q hq => by rw [nextOf, hheader pool cls q hq, nextOf])
    (fun pool cls q hq => by rw [prevOf, hheader pool cls q hq, prevOf]) hheads

theorem head {pool : Pool} {cls : ℕ} (h0 : h.kheapPartial pool cls ≠ 0) :
    P pool cls (h.kheapPartial pool cls) := by
  obtain ⟨ps, hd, -, hmem⟩ := hs pool cls
  exact (hmem _).mp (hd.chain.head_mem h0)

/-- The lists after a page is put on its own. -/
theorem push (hp : h.header page = .slab s) (h0 : page ≠ 0) (hnot : ∀ pool cls, ¬ P pool cls page)
    (hslab : ∀ pool cls q, P pool cls q → isSlab h q)
    (honly : ∀ pool cls pool' cls' q, P pool cls q → P pool' cls' q → pool = pool' ∧ cls = cls') :
    Relinked h (kheapLink h page) ∧ Shelves (kheapLink h page)
      fun pool cls q => P pool cls q ∨ q = page ∧ pool = s.pool ∧ cls = s.cls := by
  have hpush := kheapLink_pushed hp (fun hf => hslab _ _ _ (hs.head hf)) (fun heq => by
    have hhead := hs.head (show h.kheapPartial s.pool s.cls ≠ 0 by rw [heq]; exact h0)
    rw [heq] at hhead
    exact hnot _ _ hhead)
  refine ⟨hpush.toRelinked, fun pool cls => ?_⟩
  obtain ⟨ps, hd, hnd, hmem⟩ := hs pool cls
  have hpage : page ∉ ps := fun hin => hnot pool cls ((hmem page).mp hin)
  rw [hpush.heads]
  by_cases hsame : pool = s.pool ∧ cls = s.cls
  · obtain ⟨rfl, rfl⟩ := hsame
    rw [if_pos ⟨rfl, rfl⟩]
    refine ⟨page :: ps, hd.push hnd h0 hpage hpush.next hpush.prev,
      List.nodup_cons.mpr ⟨hpage, hnd⟩, fun q => ?_⟩
    rw [List.mem_cons, hmem]
    tauto
  rw [if_neg hsame]
  have hne : ∀ q ∈ ps, q ≠ page := fun q hq heq => hpage (heq ▸ hq)
  refine ⟨ps, hd.congr (fun q hq => ?_) (fun q hq => ?_), hnd, fun q => ?_⟩
  · rw [hpush.next, if_neg (hne q hq)]
  · rw [hpush.prev, if_neg (hne q hq), if_neg]
    rintro ⟨rfl, hf⟩
    obtain ⟨hpool, hcls⟩ := honly _ _ _ _ _ ((hmem _).mp hq) (hs.head hf)
    exact hsame ⟨hpool, hcls⟩
  · rw [hmem]
    tauto

/-- The lists after a page is taken off its own. -/
theorem unlink (hp : h.header page = .slab s) (hin : P s.pool s.cls page)
    (hslab : ∀ pool cls q, P pool cls q → isSlab h q)
    (honly : ∀ pool cls pool' cls' q, P pool cls q → P pool' cls' q → pool = pool' ∧ cls = cls') :
    Relinked h (kheapUnlink h page) ∧ Shelves (kheapUnlink h page) fun pool cls q => P pool cls q ∧
    q ≠ page := by
  have hnext : nextOf h page = s.next := by simp only [nextOf, hp]
  have hprev : prevOf h page = s.prev := by simp only [prevOf, hp]
  obtain ⟨own, hd, hnd, hmem⟩ := hs s.pool s.cls
  have hpage : page ∈ own := (hmem page).mpr hin
  -- both neighbours stand in the slab's own list
  have hnextOwn : s.next ≠ 0 → s.next ∈ own := fun h0 => by
    rw [← hnext] at h0 ⊢
    exact hd.chain.next_mem hpage h0
  have hprevOwn : s.prev ≠ 0 → s.prev ∈ own := fun h0 => by
    rw [← hprev] at h0 ⊢
    exact (hd.prev_mem hpage).resolve_left fun hfirst => h0 hfirst.2
  have hun := kheapUnlink_unlinked hp (fun h0 => hslab _ _ _ ((hmem _).mp (hprevOwn h0)))
    fun h0 => hslab _ _ _ ((hmem _).mp (hnextOwn h0))
  refine ⟨hun.toRelinked, fun pool cls => ?_⟩
  rw [hun.heads]
  by_cases hsame : pool = s.pool ∧ cls = s.cls
  · obtain ⟨rfl, rfl⟩ := hsame
    have hremove : Doubly (nextOf (kheapUnlink h page)) (prevOf (kheapUnlink h page)) 0
        (if prevOf h page = 0 then nextOf h page else h.kheapPartial s.pool s.cls)
        (own.erase page) := hd.remove hnd hpage (fun q hq hqp => ?_) fun q hq hqp => ?_
    · rw [hprev, hnext] at hremove
      refine ⟨own.erase page, ?_, hnd.erase page, fun q => ?_⟩
      · rwa [if_congr (and_iff_left ⟨rfl, rfl⟩) rfl rfl]
      · rw [hnd.mem_erase_iff, hmem, and_comm]
    · rw [hun.next q hqp, hprev, hnext]
      exact if_congr ⟨And.left, fun heq => ⟨heq, heq ▸ hd.chain.ne_zero hq⟩⟩ rfl rfl
    · rw [hun.prev q hqp, hprev, hnext]
      exact if_congr ⟨And.left, fun heq => ⟨heq, heq ▸ hd.chain.ne_zero hq⟩⟩ rfl rfl
  · obtain ⟨ps, hd', hnd', hmem'⟩ := hs pool cls
    have hother : ∀ q ∈ ps, q ∉ own := fun q hq hq' =>
      hsame (honly _ _ _ _ _ ((hmem' q).mp hq) ((hmem q).mp hq'))
    have hne : ∀ q ∈ ps, q ≠ page := fun q hq heq => hother q hq (heq ▸ hpage)
    rw [if_neg fun h => hsame h.2]
    refine ⟨ps, hd'.congr (fun q hq => ?_) (fun q hq => ?_), hnd', fun q => ?_⟩
    · rw [hun.next q (hne q hq), if_neg]
      rintro ⟨rfl, h0⟩
      exact hother _ hq (hprevOwn h0)
    · rw [hun.prev q (hne q hq), if_neg]
      rintro ⟨rfl, h0⟩
      exact hother _ hq (hnextOwn h0)
    · rw [hmem']
      exact ⟨fun hq => ⟨hq, hne q ((hmem' q).mpr hq)⟩, And.left⟩

end Shelves

end Vextro.Kheap
