import Vextro.Model.Fork
import Vextro.Verification.Paging.Kept
import Vextro.Verification.Pipes.Refused

/-! A fork that fails should leave nothing behind. -/

namespace Vextro.Fork

open Descriptors Paging Option

/-! ## Before and after -/

/-- Nothing is out of order in memory, in the pipes and in the heap, and every process has its own
live space. -/
structure Settled (kern : ℕ → Bool) (s : Kernel) : Prop where
  memory : Whole kern True Held.none s.memory
  rings : s.world.RingsHeld
  heap : s.world.Fresh
  spaces : ∀ k p, s.world.procs k = some p → (s.memory.space p.space).live = true
  next : (s.memory.space s.world.nextObj).live = false
  fits : ∀ k p, s.world.procs k = some p → forkFits s.memory p.space = true

/-- A store gets through without a copy of the page. -/
def Writable (m : Machine) (e : Pte) : Prop := has e pteWrite = true ∨
    has e ptePresent = true ∧ has e pteCow = true ∧ pmmRefCount m (pteFrame e) ≤ 1

/-- Counts, pipes, heap, address spaces and the memory of process `k` are as they were. -/
structure Restored (k : ℕ) (s s' : Kernel) : Prop where
  refs : ∀ f, pmmRefCount s'.memory f = pmmRefCount s.memory f
  rings : s'.world.rings = s.world.rings
  heap : s'.world.heap = s.world.heap
  spaces : ∀ a, (s'.memory.space a).live = (s.memory.space a).live
  pages : ∀ p, s.world.procs k = some p → ∀ v,
    pageOf s'.memory (s'.memory.pte p.space v) = pageOf s.memory (s.memory.pte p.space v)
  writable : ∀ p, s.world.procs k = some p → ∀ v,
    Writable s.memory (s.memory.pte p.space v) → Writable s'.memory (s'.memory.pte p.space v)

theorem Restored.refl (k : ℕ) (s : Kernel) : Restored k s s :=
  ⟨fun _ => rfl, rfl, rfl, fun _ => rfl, fun _ _ _ => rfl, fun _ _ _ h => h⟩

/-- `vmm_fork` counts a reference to a page of the parent and then gets no page table for it. -/
def Strands (s : Kernel) (k : ℕ) (r : ForkAnswers) : Prop :=
  ∃ p, s.world.procs k = some p ∧ r.space = true ∧
    (forkStrands s.memory s.world.nextObj p.space).isSome

/-- The child has its descriptors, and no thread. -/
def Abandons (s : Kernel) (k : ℕ) (r : ForkAnswers) : Prop :=
  ∃ p, s.world.procs k = some p ∧ Orphans s.world k (s.answers p r)

/-! ## The failure points -/

theorem sysFork_stopped {s : Kernel} {k : ℕ} {r : ForkAnswers}
    (h : s.world.procs k = none ∨ r.space = false) : sysFork s k r = (s, none) := by
  rw [sysFork]
  rcases h with h | h
  · rw [h]
  cases s.world.procs k with
  | none => rfl
  | some p => simp only [h, Bool.not_false, if_true]

/-- After the child's structure is allocated, both halves decide together. -/
theorem sysFork_halves {s : Kernel} {k : ℕ} {p : Proc} {r : ForkAnswers}
    (hp : s.world.procs k = some p) (hspace : r.space) :
    (sysFork s k r).2 = (Descriptors.sysFork s.world k (s.answers p r)).2 ∧
      ((sysFork s k r).2 = none → (sysFork s k r).1 =
        ⟨vmmDestroy (vmmFork s.memory s.world.nextObj p.space).1 s.world.nextObj,
          (Descriptors.sysFork s.world k (s.answers p r)).1⟩) := by
  rw [sysFork, hp]
  simp only [hspace]
  rcases Descriptors.sysFork s.world k (s.answers p r) with ⟨w, c⟩
  cases c with
  | none => exact ⟨rfl, fun _ => rfl⟩
  | some c => exact ⟨rfl, nofun⟩

theorem sysFork_of_pages {w : World} {k : ℕ} {r : ForkAnswers} (h : r.pages = false) :
    (Descriptors.sysFork w k r).2 = none := by
  rcases sysFork_cases w k r with ⟨-, heq⟩ | ⟨p, -, -, ⟨-, heq⟩ | ⟨hpages, -⟩⟩
  · rw [heq]
  · rw [heq]
  · simp [h] at hpages

/-! ## Writable pages -/

theorem writable_of_opens {m : Machine} {e : Pte} (h : Opens (refAt m) e) : Writable m e := by
  rcases h with hw | ⟨hp, hc, hz⟩
  · exact .inl hw
  refine .inr ⟨hp, hc, ?_⟩
  have hle := pmmRefCount_le m (pteFrame e)
  omega

theorem Writable.opens {kern : ℕ → Bool} {P Q : Prop}
    {m : Machine} {a v : ℕ} (h : Accounted kern P Q Held.none m) (hw : Writable m (m.pte a v)) :
    Opens (refAt m) (m.pte a v) := by
  rcases hw with hw | ⟨hp, hc, hone⟩
  · exact .inl hw
  obtain ⟨leak, hown, _⟩ := h.owned
  have hpriv : isPrivate (m.pte a v) := isPrivate_iff.mpr ⟨hp, h.sane.cowPrivate a v hp hc⟩
  have hmapped := one_le_mappings hpriv
  have hlt := (hown.held _ (hown.nonzero a v hpriv) (by rw [liveRefs]; omega)).1
  rw [pmmRefCount_of_lt hown.counted hlt] at hone
  exact .inr ⟨hp, hc, by omega⟩

/-! ## What is left -/

section Refused

variable {kern : ℕ → Bool} {s : Kernel} {k : ℕ} {p : Proc} {r : ForkAnswers}
  (h : Settled kern s) (hp : s.world.procs k = some p)

include h hp

theorem Settled.memory_restored (w : World)
    (hnone : forkStrands s.memory s.world.nextObj p.space = none) (hrings : w.rings = s.world.rings)
    (hheap : w.heap = s.world.heap) :
    Restored k s ⟨vmmDestroy (vmmFork s.memory s.world.nextObj p.space).1 s.world.nextObj, w⟩ := by
  have hlive := h.spaces k p hp
  have hkept := destroyed_kept h.memory h.next hlive (h.fits k p hp)
  have hrefs := destroyed_refs h.memory h.next hlive (h.fits k p hp)
  have hcounts := (destroyed_counts h.memory h.next hlive (h.fits k p hp)).mpr hnone
  have hdead := vmmDestroy_dead (vmmFork s.memory s.world.nextObj p.space).1 s.world.nextObj
  have hne : p.space ≠ s.world.nextObj := by
    intro heq
    simp [heq, h.next] at hlive
  rw [hnone] at hrefs
  generalize vmmDestroy (vmmFork s.memory s.world.nextObj p.space).1 s.world.nextObj = m'
    at hkept hrefs hcounts hdead ⊢
  refine ⟨hcounts, hrings, hheap, fun a => ?_, fun q hq v => ?_, fun q hq v hw => ?_⟩
  · by_cases ha : a = s.world.nextObj
    · rwa [ha, h.next]
    · exact hkept.live a ha
  · obtain rfl := some.inj (hp.symm.trans hq)
    exact hkept.page p.space v hne
  obtain rfl := some.inj (hp.symm.trans hq)
  refine writable_of_opens ?_
  rw [show refAt m' = refAt s.memory from funext hrefs]
  exact hkept.opens p.space v hne (hw.opens h.memory.accounted)

theorem Settled.restored_iff (hspace : r.space) (hnone : (sysFork s k r).2 = none) :
    Restored k s (sysFork s k r).1 ↔
      forkStrands s.memory s.world.nextObj p.space = none ∧
      ¬ Orphans s.world k (s.answers p r) := by
  obtain ⟨hboth, heq⟩ := sysFork_halves hp hspace
  have hundone := sysFork_undone h.rings h.heap (hboth.symm.trans hnone)
  have hcounts := destroyed_counts h.memory h.next (h.spaces k p hp) (h.fits k p hp)
  have hmemory := h.memory_restored hp (Descriptors.sysFork s.world k (s.answers p r)).1
  rw [heq hnone]
  refine ⟨fun hres => ⟨hcounts.mp hres.refs, hundone.mp ⟨hres.rings, hres.heap⟩⟩, ?_⟩
  rintro ⟨hstrand, horphan⟩
  obtain ⟨hrings, hheap⟩ := hundone.mpr horphan
  exact hmemory hstrand hrings hheap

end Refused

/-! ## A program with a page and a pipe -/

/-- Two calls of the only process, on a machine with so many frames. -/
def started (frames : ℕ) : Kernel where
  memory := run { oneProcess with highest := frames, freeFrames := frames - 17 }
    [.mmap 1 0 4096 3 0x22, .faultAnon 1 0x100000000000]
  world := [Op.spawn true, .pipe 0 none false false true true].foldl Descriptors.step
    { bare with nextObj := 1 }

theorem started_counted (frames : ℕ) : (started frames).world.Counted := by
  have hboot : World.Booted { bare with nextObj := 1 } :=
    ⟨fun _ => rfl, fun _ => rfl, rfl, rfl, rfl, rfl, fun _ => rfl⟩
  have htidy : Run.Meets Descriptors.step Tidy { bare with nextObj := 1 }
      [.spawn true, .pipe 0 none false false true true] := by decide +kernel
  exact Run.invariant (fun _ _ h => step_counted h) hboot.counted htidy

theorem started_whole : Whole (fun f => decide (f < 16)) True Held.none (started 64).memory := by
  have hstart : Whole (fun f => decide (f < 16)) True Held.none oneProcess :=
    ⟨⟨oneProcess_sane, ⟨_, oneProcess_owned, fun _ _ => rfl⟩, fun _ => oneProcess_exclusive⟩,
      oneProcess_slots, oneProcess_sharedKern _⟩
  exact run_whole hstart [.mmap 1 0 4096 3 0x22, .faultAnon 1 0x100000000000] (by decide +kernel) 2

theorem started_settled : Settled (fun f => decide (f < 16)) (started 64) := by
  have hcounted := started_counted 64
  have hslots : ∀ k < Threads.schedMaxThreads, ((started 64).world.procs k).all fun p =>
      ((started 64).memory.space p.space).live && forkFits (started 64).memory p.space := by
    decide +kernel
  have hproc : ∀ k p, (started 64).world.procs k = some p →
      ((started 64).memory.space p.space).live = true ∧ forkFits
      (started 64).memory p.space = true := by
    intro k p hp
    have hall := hslots k (hcounted.shape.slot_lt hp)
    rwa [hp, all_some, Bool.and_eq_true] at hall
  have hfresh : (started 64).world.Fresh := by
    rw [World.Fresh]
    decide +kernel
  exact ⟨started_whole, hcounted.ringsHeld, hfresh, fun k p hp => (hproc k p hp).1,
    by decide +kernel, fun k p hp => (hproc k p hp).2⟩

/-! ## The result -/

/-- A fork that fails leaves everything as it was, unless `vmm_fork` is refused a page table after
it counted the page's reference, or no thread is to be had for a child that has its descriptors. -/
theorem failed_fork_restores {kern : ℕ → Bool} {s : Kernel} (h : Settled kern s) (k : ℕ)
    (r : ForkAnswers) :
    ((sysFork s k r).2 = none → Restored k s (sysFork s k r).1) ↔
    ¬ Strands s k r ∧ ¬ Abandons s k r := by
  cases hp : s.world.procs k with
  | none =>
    rw [sysFork_stopped (.inl hp)]
    refine ⟨fun _ => ⟨?_, ?_⟩, fun _ _ => .refl k s⟩
    · rintro ⟨p, hsome, -⟩
      cases hp.symm.trans hsome
    · rintro ⟨p, hsome, -⟩
      cases hp.symm.trans hsome
  | some p =>
    cases hspace : r.space with
    | false =>
      rw [sysFork_stopped (.inr hspace)]
      refine ⟨fun _ => ⟨?_, ?_⟩, fun _ _ => .refl k s⟩
      · rintro ⟨q, -, hyes, -⟩
        cases hspace.symm.trans hyes
      · rintro ⟨q, -, -, f, -, -, hyes, -⟩
        cases hspace.symm.trans hyes
    | true =>
      have hboth := (sysFork_halves hp hspace).1
      have hstrands : Strands s k r ↔
          (forkStrands s.memory s.world.nextObj p.space).isSome := by
        refine ⟨fun ⟨q, hq, _, hsome⟩ => ?_, fun hsome => ⟨p, hp, hspace, hsome⟩⟩
        obtain rfl := some.inj (hp.symm.trans hq)
        exact hsome
      have habandons : Abandons s k r ↔ Orphans s.world k (s.answers p r) := by
        refine ⟨fun ⟨q, hq, horphan⟩ => ?_, fun horphan => ⟨p, hp, horphan⟩⟩
        obtain rfl := some.inj (hp.symm.trans hq)
        exact horphan
      rw [hstrands, habandons, not_isSome_iff_eq_none]
      refine ⟨fun hres => ⟨?_, fun horphan => ?_⟩,
        fun hok hnone => (h.restored_iff hp hspace hnone).mpr hok⟩
      · -- nothing is stranded by a fork that got its pages
        cases hpages : (vmmFork s.memory s.world.nextObj p.space).2 with
        | true => exact forkStrands_of_ok hpages
        | false =>
          have hnone := hboth.trans (sysFork_of_pages hpages)
          exact ((h.restored_iff hp hspace hnone).mp (hres hnone)).1
      · have hnone := hboth.trans horphan.refused
        exact ((h.restored_iff hp hspace hnone).mp (hres hnone)).2 horphan

/-- The table is refused: the pages, marked copy on write by then, are the parent's alone again. -/
theorem failed_fork_restores_table :
    (sysFork (started 64) 0 { ForkAnswers.all with table := false }).2 = none ∧
    Restored 0 (started 64)
        (sysFork (started 64) 0 { ForkAnswers.all with table := false }).1 := by
  have hpages : ((started 64).world.procs 0).all fun p =>
      (vmmFork (started 64).memory (started 64).world.nextObj p.space).2 := by decide +kernel
  have hnone : (sysFork (started 64) 0 { ForkAnswers.all with table := false }).2 = none := by
    decide +kernel
  refine ⟨hnone, (failed_fork_restores started_settled 0 _).mpr ⟨?_, ?_⟩ hnone⟩
  · rintro ⟨p, hp, -, hsome⟩
    rw [hp] at hpages
    simp [forkStrands_of_ok hpages] at hsome
  · rintro ⟨p, hp, _, _, -, -, -, -, htable, -⟩
    cases htable

/-- No thread is to be had: the copied table stays, and the pipe counts a reader that nobody is.
And on a machine that has a root for the child, but no page tables, the page's frame keeps an owner
too many. -/
theorem failed_fork_leaks :
    (let s := started 64
      let s' := sysFork s 0 { ForkAnswers.all with thread := false }
      s'.2 = none ∧ s'.1.world.heap ≠ s.world.heap ∧
      (s.world.rings 0).map Pipes.Ring.readers = some 1 ∧
        (s'.1.world.rings 0).map Pipes.Ring.readers = some 2) ∧
      (let s := started 24
        let s' := sysFork s 0 .all
        s'.2 = none ∧ pmmRefCount s.memory 18 = 1 ∧ pmmRefCount s'.1.memory 18 = 2) := by
  decide +kernel

/-- A child that ends before it does anything leaves every page and count as it was. -/
theorem fork_exit_restores {m : Machine} {kern : ℕ → Bool}
    {dst src : ℕ} (h : Whole kern True Held.none m) (hd : (m.space dst).live = false)
    (hs : (m.space src).live = true) (hfits : forkFits m src = true)
    (hok : (vmmFork m dst src).2 = true) : let m' := vmmDestroy (vmmFork m dst src).1 dst
    (∀ f, pmmRefCount m' f = pmmRefCount m f) ∧ Kept (refAt m) dst m m' :=
  ⟨(destroyed_counts h hd hs hfits).mpr (forkStrands_of_ok hok), destroyed_kept h hd hs hfits⟩

theorem fork_exit_restores_page : let m := (started 64).memory
    Kept (refAt m) 9 m (vmmDestroy (vmmFork m 9 1).1 9) :=
  (fork_exit_restores started_whole (by decide +kernel) (by decide +kernel) (by decide +kernel)
    (by decide +kernel)).2

end Vextro.Fork
