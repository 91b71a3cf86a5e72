import Vextro.Verification.Paging.Loading

/-! The break of a process and the pages below it. -/

namespace Vextro.Paging

variable {f k a v lo hi base : ℕ} {m : Machine}

/-! ## One page more -/

theorem vmmAllocMap_ample (h : Ample f (k + 4) m) (a v : ℕ) (flags : Pte) :
    ∃ m' x, vmmAllocMap m a v flags = (m', x) ∧
    x ≠ 0 ∧ x ≠ f ∧ Ample f k m' ∧ Ample x k m' ∧ ∃ tables, m'.space a =
      { m.space a with tables := tables, pt := (m.space a).pt.set v (pteMake x flags) } := by
  obtain ⟨n, x, halloc, hx0, hxf, hample, hampleX, hspaces, -, -⟩ := pmmAlloc_ample h
  obtain ⟨m', hmap, hample', tables, hspace⟩ := vmmMap_ample hample a v x flags
  obtain ⟨m'', hmap', hampleX', -⟩ := vmmMap_ample hampleX a v x flags
  obtain ⟨rfl, -⟩ := Prod.mk.inj (hmap.symm.trans hmap')
  refine ⟨m', x, ?_, hx0, hxf, hample', hampleX', tables, ?_⟩
  · simp only [vmmAllocMap, halloc, hmap]
  · rw [hspace, space_congr hspaces]

/-- Each page from `lo` to `hi` has a frame of its own that is allocated, and the heap has no page
above. -/
structure Backs (a lo hi : ℕ) (m : Machine) : Prop where
  frame : ∀ v ∈ Set.Ico lo hi, isPrivate (m.pte a v) = true ∧ m.used (pteFrame (m.pte a v)) = true ∧
    pteFrame (m.pte a v) < m.highest
  single : Set.InjOn (fun v => pteFrame (m.pte a v)) (Set.Ico lo hi)
  clear : ∀ v, hi ≤ v → v < userHeapMax / 4096 → m.pte a v = 0

theorem Backs.of_pte {m' : Machine} (h : Backs a lo hi m) (hpte : m'.pte = m.pte)
    (hused : m'.used = m.used) (hhigh : m'.highest = m.highest) : Backs a lo hi m' :=
  ⟨by rw [hpte, hused, hhigh]; exact h.frame, by rw [hpte]; exact h.single,
    by rw [hpte]; exact h.clear⟩

theorem Backs.extend (h : Backs a lo hi m) (hm : Ample 0 (k + 4) m) :
    ∃ m' x, vmmAllocMap m a hi dataFlags = (m', x) ∧
    x ≠ 0 ∧ Backs a lo (hi + 1) m' ∧ Ample 0 k m' ∧ ∃ tables pt, m'.space a =
      { m.space a with tables := tables, pt := pt } := by
  obtain ⟨m', x, halloc, hx0, -, hample, hampleX, tables, hspace⟩ :=
    vmmAllocMap_ample hm a hi dataFlags
  have hpte : ∀ v, m'.pte a v = if v = hi then pteMake x dataFlags else m.pte a v := fun v => by
    rw [Machine.pte, hspace, FinMap.get_set]
    rfl
  have hframe : pteFrame (pteMake x dataFlags) = x :=
    pteFrame_pteMake (hampleX.below.trans_le hampleX.high) (by decide)
  -- the frame was free, and those of the other pages were not
  have hother : ∀ v ∈ Set.Ico lo hi, pteFrame (m.pte a v) ≠ x ∧
      m'.used (pteFrame (m.pte a v)) = true ∧ pteFrame (m.pte a v) < m'.highest := fun v hv => by
    obtain ⟨-, hused, hlt⟩ := h.frame v hv
    obtain ⟨n, y, halloc', -, hne, hn, -⟩ :=
      vmmAllocMap_ample { hm with taken := hused, below := hlt } a hi dataFlags
    obtain ⟨rfl, rfl⟩ := Prod.mk.inj (halloc.symm.trans halloc')
    exact ⟨hne.symm, hn.taken, hn.below⟩
  have hold : ∀ v ∈ Set.Ico lo (hi + 1), v ≠ hi → v ∈ Set.Ico lo hi := fun v hv hne =>
    ⟨hv.1, lt_of_le_of_ne (Nat.lt_succ_iff.mp hv.2) hne⟩
  refine ⟨m', x, halloc, hx0, ⟨fun v hv => ?_, fun v hv w hw heq => ?_, fun v hlo hhi => ?_⟩,
    hample, tables, _, hspace⟩
  · rw [hpte]
    split
    · exact ⟨isPrivate_pteMake
        (by decide), by rw [hframe]; exact hampleX.taken, by rw [hframe]; exact hampleX.below⟩
    · rename_i hne
      exact ⟨(h.frame v (hold v hv hne)).1, (hother v (hold v hv hne)).2⟩
  · dsimp only at heq
    rw [hpte, hpte] at heq
    split_ifs at heq with hv' hw' hw'
    · rw [hv', hw']
    · exact absurd (heq.symm.trans hframe) (hother w (hold w hw hw')).1
    · exact absurd (heq.trans hframe) (hother v (hold v hv hv')).1
    · exact h.single (hold v hv hv') (hold w hw hw') heq
  · rw [hpte, if_neg (by omega)]
    exact h.clear v (by omega) hhi

theorem Backs.extends (n : ℕ) (h : Backs a lo hi m) (hm : Ample 0 (k + 4 * n) m) : ∃ m',
    forEach
      (fun m v => ((vmmAllocMap m a v dataFlags).1, decide ((vmmAllocMap m a v dataFlags).2 ≠ 0)))
      (List.range' hi n) m = (m', true) ∧ Backs a lo (hi + n) m' ∧ Ample 0 k m' ∧
      ∃ tables pt, m'.space a = { m.space a with tables := tables, pt := pt } := by
  induction n generalizing hi m with
  | zero => exact ⟨m, rfl, h, hm, _, _, rfl⟩
  | succ n ih =>
    obtain ⟨m1, x, halloc, hx0, h1, hm1, tables, pt, hspace⟩ := h.extend hm
    obtain ⟨m', hrest, h', hm', tables', pt', hspace'⟩ := ih h1 hm1
    refine ⟨m', ?_, by rwa [Nat.add_right_comm] at h', hm', tables', pt', ?_⟩
    · rw [List.range'_succ, forEach]
      simp only [halloc, hx0, ne_eq]
      exact hrest
    · rw [hspace', hspace]

/-! ## The call -/

/-- The heap from `base` on: the break lies in the last page of what is backed. -/
structure Heap (a base : ℕ) (m : Machine) : Prop where
  live : (m.space a).live = true
  bounds : userHeapBase ≤ base ∧ base ≤ (m.space a).brk ∧ (m.space a).brkTop ≤ userHeapMax
  last : (m.space a).brk ≤ (m.space a).brkTop ∧ (m.space a).brkTop < (m.space a).brk + 4096
  aligned : (m.space a).brkTop % 4096 = 0
  backs : Backs a (base / 4096) ((m.space a).brkTop / 4096) m
  frames : Ample 0 0 m

/-- A smaller break stays in the same page, and for a larger one there are frames. -/
def Supplied (a base : ℕ) (m : Machine) (d : Int64) : Prop :=
  (d < 0 → base ≤ (m.space a).brk - d.toInt.natAbs ∧
    (m.space a).brkTop < (m.space a).brk - d.toInt.natAbs + 4096) ∧
  (0 < d → (m.space a).brk + d.toInt.natAbs ≤ userHeapMax →
    4 * (sbrkPages m a d.toInt).length ≤ (Bitmap.clear m.used m.highest).card)

theorem Heap.of_break {want top : ℕ}
    (hl : (m.space a).live) (hb : userHeapBase ≤ base ∧ base ≤ want ∧ top ≤ userHeapMax)
    (hw : want ≤ top ∧ top < want + 4096) (ha : top % 4096 = 0)
    (h : Backs a (base / 4096) (top / 4096) m) (hm : Ample 0 0 m) :
    Heap a base (m.setSpace a { m.space a with brk := want, brkTop := top }) := by
  have hspace := space_setSpace_self m a { m.space a with brk := want, brkTop := top }
  have hbacks : Backs a (base / 4096) (top / 4096)
      (m.setSpace a { m.space a with brk := want, brkTop := top }) := by
    refine h.of_pte ?_ rfl rfl
    funext b w
    exact pte_setSpace (by rfl) b w
  refine ⟨?_, ?_, ?_, ?_, ?_, { hm with }⟩ <;> rwa [hspace]

theorem Heap.grow (h : Heap a base m)
    {want : ℕ} (hgrow : (m.space a).brkTop < want) (hmax : want ≤ userHeapMax)
    (hroom : 4 * (rangePages (m.space a).brkTop (pageAlignUp want - (m.space a).brkTop)).length ≤
      (Bitmap.clear m.used m.highest).card) :
    ∃ m', vmmAllocRange m a (m.space a).brkTop
      (pageAlignUp want - (m.space a).brkTop) dataFlags = (m', true) ∧
      Heap a base (m'.setSpace a { m'.space a with brk := want, brkTop := pageAlignUp want }) := by
  obtain ⟨hbase, hlow, -⟩ := h.bounds
  have hbrk := h.last.1
  have htop : pageAlignUp want = (want + 4095) / 4096 * 4096 := by
    rw [pageAlignUp]
    simp only [userHeapMax] at hmax
    omega
  rw [htop]
  rw [htop] at hroom
  have hpages : rangePages (m.space a).brkTop
      ((want + 4095) / 4096 * 4096 - (m.space a).brkTop) = List.range' ((m.space a).brkTop / 4096)
      ((want + 4095) / 4096 - (m.space a).brkTop / 4096) := by
    rw [rangePages]
    congr 1
    omega
  rw [hpages, List.length_range'] at hroom
  obtain ⟨m', hrange, hbacks, hm', tables, pt, hspace⟩ := h.backs.extends _
    { h.frames with room := by rwa [Nat.zero_add] }
  rw [Nat.add_sub_cancel' (by omega)] at hbacks
  refine ⟨m', by rw [vmmAllocRange, hpages, hrange], .of_break (by rw [hspace]; exact h.live)
    ⟨hbase, by omega, ?_⟩ (by omega) (Nat.mul_mod_left ..)
    (by rwa [Nat.mul_div_cancel _ (by decide)]) hm'⟩
  simp only [userHeapMax] at hmax ⊢
  omega

theorem sysSbrk_heap (h : Heap a base m) {d : Int64} (hd : Supplied a base m d) :
    Heap a base (sysSbrk m a d.toInt).1 ∧
    ((sysSbrk m a d.toInt).2 = false → (sysSbrk m a d.toInt).1 = m) := by
  obtain ⟨hbase, hlow, htop⟩ := h.bounds
  obtain ⟨hbrk, hlast⟩ := h.last
  obtain ⟨hless, hmore⟩ := hd
  rw [Int64.lt_iff_toInt_lt] at hless hmore
  have htune : ∀ {want}, base ≤ want → want ≤ (m.space a).brkTop → (m.space a).brkTop < want +
      4096 → Heap a base (m.setSpace a { m.space a with brk := want }) := fun hlo hle hlt =>
    .of_break h.live ⟨hbase, hlo, htop⟩ ⟨hle, hlt⟩ h.aligned h.backs h.frames
  have hfit : ((m.space a).brk + d.toInt.natAbs) % 2 ^ 64 = (m.space a).brk + d.toInt.natAbs := by
    have := d.le_toInt
    have := d.toInt_lt
    simp only [userHeapMax] at htop
    exact Nat.mod_eq_of_lt (by omega)
  rw [sysSbrk]
  dsimp only
  rw [if_neg (by simp [h.live]), hfit]
  split
  · exact ⟨h, by simp⟩
  split
  · rename_i hneg
    obtain ⟨hlo, hlt⟩ := hless hneg
    simp only [userHeapBase] at hbase
    rw [if_neg (by simp only [userHeapBase]; omega)]
    exact ⟨htune hlo (by omega) hlt, by simp⟩
  split
  · exact ⟨h, fun _ => rfl⟩
  rename_i hlim
  simp only [Bool.or_eq_true, decide_eq_true_eq, not_or, not_lt] at hlim
  split
  · rename_i hgrow
    have hroom := hmore (by simp; omega) hlim.2
    rw [sbrkPages, hfit] at hroom
    obtain ⟨m', hrange, hheap⟩ := h.grow hgrow hlim.2 hroom
    rw [hrange]
    exact ⟨hheap, fun hfail => Bool.noConfusion hfail⟩
  · exact ⟨htune (by omega) (by omega) (by omega), by simp⟩

/-- In every run of `sbrk` calls that are supplied, each page of the heap has a frame of its own up
to the break, and a call that fails changes nothing. -/
theorem sbrk_leaks_nothing (h : Heap a base m) (ds : List Int64)
    (hds : Run.Meets (fun m d => (sysSbrk m a d.toInt).1) (Supplied a base) m ds) (n : ℕ) :
    let m' := (ds.take n).foldl (fun m d => (sysSbrk m a d.toInt).1) m
    Heap a base m' ∧ ∀ d, ds[n]? = some d → (sysSbrk m' a d.toInt).2 = false →
    (sysSbrk m' a d.toInt).1 = m' := by
  have hheap := Run.invariant_take (I := Heap a base)
    (fun m d h hd => (sysSbrk_heap h hd).1) h hds n
  exact ⟨hheap, fun d hd => (sysSbrk_heap hheap (hds.at hd)).2⟩

instance (d : Int64) : Decidable (Supplied a base m d) := inferInstanceAs (Decidable (_ ∧ _))

theorem oneProcess_heap : Heap 1 userHeapBase oneProcess := by
  refine ⟨rfl, by decide, by decide, by decide,
    ⟨fun v hv => ?_, fun v hv => ?_, fun v _ _ => oneProcess_pte 1 v⟩,
    ⟨rfl, rfl, by decide, Nat.zero_le _, by decide⟩⟩
  · exact absurd (lt_of_le_of_lt hv.1 hv.2) (lt_irrefl _)
  · exact absurd (lt_of_le_of_lt hv.1 hv.2) (lt_irrefl _)

/-- A page and a little, a little less, and more than there may be. -/
theorem sbrk_leaks_nothing_refused :
    Heap 1 userHeapBase (([5000, -100, 0x7FFFFFFFFFFFFFFF].take 3).foldl
      (fun m (d : Int64) => (sysSbrk m 1 d.toInt).1) oneProcess) := by
  refine (sbrk_leaks_nothing oneProcess_heap [5000, -100, 0x7FFFFFFFFFFFFFFF] ?_ 3).1
  decide +kernel

/-- The last page before the tables end, and frames for four tables and it. -/
def tight : Machine := { oneProcess with
  highest := 22
  swapReady := false
  spaces := FinMap.empty.set 1 { oneProcess.space 1 with brk := 0x401FF000, brkTop := 0x401FF000 } }

/-- Two pages are asked for and one is mapped; a retry maps another frame over it. -/
theorem retry_strands_frame : let r := sysSbrk tight 1 8192
    let s := sysSbrk r.1 1 4096
    r.2 = false ∧ (r.1.space 1).brkTop = 0x401FF000 ∧ has (r.1.pte 1 0x401FF) ptePresent = true ∧
    s.2 = true ∧
      s.1.used (pteFrame (r.1.pte 1 0x401FF)) = true ∧
      mappings s.1 (pteFrame (r.1.pte 1 0x401FF)) = 0 := by
  decide +kernel

end Vextro.Paging
