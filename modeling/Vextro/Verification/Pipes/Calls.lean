import Vextro.Verification.Pipes.Tables

/-! The calls that open, copy and close descriptors keep the counts of the rings right. -/

namespace Vextro.Descriptors

open Pipes Threads Shares Option

variable {w w' : World} {k i : ℕ} {memory : Bool} {P : Prop}

/-! ## The invariant -/

/-- The tables are where they can be, and the janitor leaves closed descriptors behind. -/
structure World.Shape (w : World) : Prop where
  slots : ∀ k, schedMaxThreads ≤ k → w.procs k = none
  queue : w.retired.length < vfsRetireMax
  closed : ∀ f i, w.closing = some (f, i) → ∀ j < i, (f.d j).ends = 0

structure World.Counted (w : World) : Prop where
  shape : w.Shape
  balanced : (w.book w.ends).Balanced

theorem World.Shape.slot_lt (h : w.Shape) {p : Proc} (hp : w.procs k = some p) :
    k < schedMaxThreads := by
  by_contra hk
  simp [h.slots k (not_lt.mp hk)] at hp

theorem World.Shape.same (h : w.Shape) (hs : SameTables w w') : w'.Shape := by
  refine ⟨?_, ?_, ?_⟩
  · rw [hs.procs]
    exact h.slots
  · rw [hs.retired]
    exact h.queue
  · rw [hs.closing]
    exact h.closed

theorem World.Shape.setFiles (h : w.Shape) (k : ℕ) (o : Option Files) : (w.setFiles k o).Shape := by
  refine ⟨fun j hj => ?_, h.queue, h.closed⟩
  simp only [World.setFiles, h.slots j hj]
  split <;> rfl

theorem Desc.ends_le (d : Desc) (e : Side) (r : ℕ) : d.ends e r ≤ 1 := by
  rw [Desc.ends]
  split <;> omega

theorem Files.ends_le (f : Files) (e : Side) (r : ℕ) : f.ends e r ≤ fdMax := by
  rw [Files.ends, Finset.sum_apply, Finset.sum_apply]
  refine (Finset.sum_le_card_nsmul _ _ 1 fun i _ => (f.d i).ends_le e r).trans ?_
  rw [Finset.card_range, smul_eq_mul, mul_one]

theorem tableEnds_le (o : Option Files) (e : Side) (r : ℕ) : tableEnds o e r ≤ fdMax := by
  cases o with
  | none => exact Nat.zero_le _
  | some f => exact f.ends_le e r

theorem queue_ends_le (fs : List Files) (e : Side) (r : ℕ) :
    (fs.map Files.ends).sum e r ≤ fs.length * fdMax := by
  induction fs with
  | nil => exact Nat.zero_le _
  | cons f fs ih =>
    rw [List.map_cons, List.sum_cons, Pi.add_apply, Pi.add_apply, List.length_cons, Nat.succ_mul]
    have := f.ends_le e r
    omega

/-- The count of a side fits in its sixteen bits with room to spare. -/
theorem World.Shape.ends_le (h : w.Shape) (e : Side) (r : ℕ) :
    w.ends e r ≤ (schedMaxThreads + vfsRetireMax) * fdMax := by
  have hprocs : (∑ k ∈ Finset.range schedMaxThreads, tableEnds (w.files k)) e r ≤
      schedMaxThreads * fdMax := by
    rw [Finset.sum_apply, Finset.sum_apply]
    refine (Finset.sum_le_card_nsmul _ _ fdMax fun k _ => tableEnds_le (w.files k) e r).trans ?_
    rw [Finset.card_range, smul_eq_mul]
  have hqueue := queue_ends_le w.retired e r
  have hlen : w.retired.length ≤ 15 := Nat.lt_succ_iff.mp h.queue
  have hclosing := tableEnds_le (w.closing.map Prod.fst) e r
  rw [World.ends, Pi.add_apply, Pi.add_apply, Pi.add_apply, Pi.add_apply]
  simp only [fdMax, vfsRetireMax] at hprocs hqueue hclosing ⊢
  omega

theorem reset_ends : Desc.reset.ends = 0 := Desc.ends_zero (by decide)

/-- Closing a descriptor keeps the counts of the rings. -/
theorem World.Counted.close (h : w.Counted) (hk : k < schedMaxThreads) (hi : i < fdMax)
    (hf : (w.files k).isSome) :
    ((vfsCloseDesc w (w.desc k i)).setDesc k i .reset).Counted := by
  have hsame := vfsCloseDesc_same w (w.desc k i)
  have hends := setDesc_ends hk hi hf .reset
  rw [reset_ends, add_zero] at hends
  have hclosed := (hsame.setDesc k i .reset).ends
  refine ⟨(h.shape.same hsame).setFiles k _, ?_⟩
  rw [hclosed]
  have hb := h.balanced
  rw [← hends] at hb
  exact hb.steps (vfsCloseDesc_steps hb)

/-! ## Threads parked in a pipe -/

def sideOf : Call → Side
  | .read _ => .read
  | .write _ _ => .write

/-- Every parked thread came through a descriptor that is still open on the ring. -/
def World.Anchored (w : World) : Prop :=
  ∀ t c, w.parked t = some c → t < schedMaxThreads ∧ c.fd < fdMax ∧ (w.files c.proc).isSome ∧
    (w.desc c.proc c.fd).ring (sideOf c.call) = some c.ring

/-- The threads still parked find their descriptors as they were. -/
def Stays (w w' : World) : Prop :=
  ∀ t c, w'.parked t = some c → w.parked t = some c ∧ (w'.files c.proc).isSome ∧
    w'.desc c.proc c.fd = w.desc c.proc c.fd

section

variable (h : w.Anchored)
include h

theorem World.Anchored.stays (hs : Stays w w') : w'.Anchored := by
  intro t c hc
  obtain ⟨hold, hfiles, hdesc⟩ := hs t c hc
  obtain ⟨ht, hfd, -, hring⟩ := h t c hold
  rw [← hdesc] at hring
  exact ⟨ht, hfd, hfiles, hring⟩

theorem World.Anchored.same (hs : SameTables w w') : w'.Anchored := by
  refine h.stays fun t c hc => ?_
  rw [hs.parked] at hc
  rw [hs.files, hs.desc]
  exact ⟨hc, (h t c hc).2.2.1, rfl⟩

theorem World.Anchored.ends_ne {t : ℕ} {c : Parked} (hc : w.parked t = some c) :
    (w.desc c.proc c.fd).ends ≠ 0 := by
  obtain ⟨-, -, -, hring⟩ := h t c hc
  intro hzero
  have hone := congrFun (congrFun hzero (sideOf c.call)) c.ring
  simp [Desc.ends, if_pos hring] at hone

theorem World.Anchored.setDesc (hfree : ∀ t c, w.parked t = some c → ¬ (c.proc = k ∧ c.fd = i))
    (d : Desc) : (w.setDesc k i d).Anchored := by
  refine h.stays fun t c hc => ?_
  obtain ⟨-, -, hfiles, -⟩ := h t c hc
  by_cases hk : c.proc = k
  · subst hk
    refine ⟨hc, setDesc_isSome hfiles i d, ?_⟩
    rw [setDesc_desc hfiles, if_neg fun hi => hfree t c hc ⟨rfl, hi⟩]
  have hother : (w.setDesc k i d).files c.proc = w.files c.proc := by
    rw [setDesc_files, if_neg hk]
  rw [World.desc, hother]
  exact ⟨hc, hfiles, rfl⟩

theorem World.Anchored.idle (hends : (w.desc k i).ends = 0) (t : ℕ) (c : Parked)
    (hc : w.parked t = some c) : ¬ (c.proc = k ∧ c.fd = i) := by
  rintro ⟨rfl, rfl⟩
  exact h.ends_ne hc hends

end

/-- The counts are right and, if `P` holds, the parked threads are anchored. -/
structure World.Kept (P : Prop) (w : World) : Prop where
  counted : w.Counted
  anchored : P → w.Anchored

section

variable (h : w.Kept P)
include h

theorem World.Kept.same (hs : SameTables w w') (hbook : ∀ held, w'.book held = w.book held) :
    w'.Kept P := by
  refine ⟨⟨h.counted.shape.same hs, ?_⟩, fun hP => (h.anchored hP).same hs⟩
  rw [hbook, hs.ends]
  exact h.counted.balanced

theorem World.Kept.kmalloc : w.kmalloc.Kept P := h.same (kmalloc_same w) fun _ => rfl

theorem World.Kept.kfree (a : Option ℕ) :
    (w.kfree a).Kept P := h.same (kfree_same w a) (kfree_book w a)

theorem World.Kept.setDesc (hk : k < schedMaxThreads) (hi : i < fdMax) (hf : (w.files k).isSome)
    (hold : (w.desc k i).ends = 0) {d : Desc} (hd : d.ends = 0) : (w.setDesc k i d).Kept P := by
  have hends := setDesc_ends hk hi hf d
  rw [hold, hd, add_zero, add_zero] at hends
  refine ⟨⟨h.counted.shape.setFiles k _, ?_⟩, fun hP => ?_⟩
  · rw [hends]
    exact h.counted.balanced
  · exact (h.anchored hP).setDesc ((h.anchored hP).idle hold) d

theorem World.Kept.close (hk : k < schedMaxThreads) (hi : i < fdMax) (hf : (w.files k).isSome)
    (hfree : P → ∀ t c, w.parked t = some c → ¬ (c.proc = k ∧ c.fd = i)) :
    ((vfsCloseDesc w (w.desc k i)).setDesc k i .reset).Kept P := by
  have hsame := vfsCloseDesc_same w (w.desc k i)
  refine ⟨h.counted.close hk hi hf,
    fun hP => ((h.anchored hP).same hsame).setDesc (fun t c hc => ?_) _⟩
  rw [hsame.parked] at hc
  exact hfree hP t c hc

end

/-! ## Finding a table and a place in it -/

/-- The table is there already, or it is allocated empty. -/
theorem vfsFiles_some (h : vfsFiles w k memory = some w') :
    (∃ p, w.procs k = some p) ∧ (w'.files k).isSome ∧
      (w' = w ∨ w.files k = none ∧ w' = w.kmalloc.setFiles k (some (.new w.nextObj))) := by
  rw [vfsFiles] at h
  split at h
  · cases h
  rename_i p hp
  split at h
  · rename_i hsome
    cases h
    exact ⟨⟨p, hp⟩, by rw [World.files, hp]; exact hsome, .inl rfl⟩
  rename_i hnone
  split at h
  · cases h
  cases h
  refine ⟨⟨p, hp⟩, ?_, .inr ⟨?_, rfl⟩⟩
  · rw [files_setFiles, if_pos rfl, show w.kmalloc.procs k = some p from hp]
    rfl
  · rw [World.files, hp]
    exact not_isSome_iff_eq_none.mp hnone

theorem vfsFiles_parked (h : vfsFiles w k memory = some w') : w'.parked = w.parked := by
  obtain ⟨-, -, rfl | ⟨-, rfl⟩⟩ := vfsFiles_some h <;> rfl

theorem vfsFiles_kept (h : w.Kept P) (hw : vfsFiles w k memory = some w') : w'.Kept P := by
  obtain ⟨⟨p, hp⟩, -, rfl | ⟨hnone, rfl⟩⟩ := vfsFiles_some hw
  · exact h
  have hends := setFiles_ends w.kmalloc (h.counted.shape.slot_lt hp)
    (show w.kmalloc.procs k = some p from hp) (some (.new w.nextObj))
  rw [show w.kmalloc.files k = none from hnone] at hends
  simp only [tableEnds, elim_none, elim_some, new_ends, add_zero] at hends
  refine ⟨⟨h.kmalloc.counted.shape.setFiles k _, ?_⟩,
    fun hP => (h.anchored hP).stays fun t c hc => ?_⟩
  · rw [hends]
    exact h.counted.balanced
  obtain ⟨-, -, hfiles, -⟩ := h.anchored hP t c hc
  have hk : c.proc ≠ k := by
    rintro rfl
    simp [hnone] at hfiles
  have hother : (w.kmalloc.setFiles k (some (.new w.nextObj))).files c.proc = w.files c.proc := by
    rw [files_setFiles, if_neg hk]
    rfl
  rw [World.desc, hother]
  exact ⟨hc, hfiles, rfl⟩

/-- What is handed out is a free descriptor of the table. -/
theorem vfsAlloc_ok (h : vfsAlloc w k memory = (w', .ok i)) :
    vfsFiles w k memory = some w' ∧ i < fdMax ∧ (w'.desc k i).kind = .free := by
  rw [vfsAlloc] at h
  split at h
  · cases h
  rename_i u hu
  split at h
  · cases h
  rename_i j hj
  obtain ⟨rfl, rfl⟩ := h
  have hfree := List.find?_some hj
  have hmem := List.mem_of_find?_eq_some hj
  rw [decide_eq_true_eq] at hfree
  exact ⟨hu, List.mem_range.mp hmem, hfree.2⟩

theorem vfsAlloc_kept (h : w.Kept P) (k : ℕ) (memory : Bool) : (vfsAlloc w k memory).1.Kept P := by
  rw [vfsAlloc]
  split
  · exact h
  rename_i u hu
  have hu := vfsFiles_kept h hu
  split <;> exact hu

/-! ## Making a pipe -/

theorem vfsFiles_of_isSome (h : (w.files k).isSome) (memory : Bool) :
    vfsFiles w k memory = some w := by
  obtain ⟨f, hf⟩ := isSome_iff_exists.mp h
  obtain ⟨p, hp, hpf⟩ := files_some hf
  simp [vfsFiles, hp, hpf]

theorem ends_one_way (ce : Bool) (r : ℕ) :
    (pipeEnd ce (some r) none).ends + (pipeEnd ce none (some r)).ends =
      fun _ q => if q = r then 1 else 0 := by
  rw [Desc.ends_pipe rfl, Desc.ends_pipe rfl]
  funext e q
  simp only [pipeEnd, Pi.add_apply, endOf_apply]
  cases e <;> simp [eq_comm]

theorem ends_two_way (ce : Bool) (r s : ℕ) :
    (pipeEnd ce (some s) (some r)).ends + (pipeEnd ce (some r) (some s)).ends =
      (fun _ q => if q = r then 1 else 0) + fun _ q => if q = s then 1 else 0 := by
  rw [Desc.ends_pipe rfl, Desc.ends_pipe rfl]
  funext e q
  simp only [pipeEnd, Pi.add_apply, endOf_apply]
  cases e <;> simp [eq_comm, add_comm]

theorem addRing_step (w : World) (h : Side → ℕ → ℕ) :
    Book.Step (w.book h) (w.addRing.book (h + fun _ q => if q = w.nextRing then 1 else 0)) := by
  convert Book.Step.make (w.book h) (fun _ => 1) ⟨.read, one_ne_zero⟩ using 1
  simp only [World.book, World.addRing]
  congr 1
  funext q
  by_cases hq : q = w.nextRing
  · subst hq
    simp only [Function.update_self, map_some, some.injEq]
    funext e
    cases e <;> rfl
  · simp [hq]

/-- A new pair of descriptors, each an end of the new rings. -/
theorem World.Kept.addEnds {u : World} (h : w.Kept P) {a b : ℕ} (hk : k < schedMaxThreads)
    (ha : a < fdMax) (hb : b < fdMax) (hab : b ≠ a) (hf : (w.files k).isSome)
    (hfree : (w.desc k a).ends = 0) (hfree' : (w.desc k b).ends = 0) (hu : SameTables w u)
    {x y : Desc} (hsteps : Steps (w.book w.ends) (u.book (w.ends + (x.ends + y.ends)))) :
    ((u.setDesc k a x).setDesc k b y).Kept P := by
  have hfu : (u.files k).isSome := by rwa [hu.files]
  have hfirst := setDesc_ends hk ha hfu x
  have hsecond := setDesc_ends hk hb (setDesc_isSome hfu a x) y
  rw [setDesc_desc hfu, if_neg hab, hu.desc, hfree', add_zero] at hsecond
  rw [hu.desc, hfree, add_zero] at hfirst
  refine ⟨⟨((h.counted.shape.same hu).setFiles k _).setFiles k _, ?_⟩, fun hP => ?_⟩
  · rw [hsecond, hfirst, hu.ends, add_assoc]
    exact h.counted.balanced.steps hsteps
  have hanchored := h.anchored hP
  have hsame : ∀ t c, u.parked t = some c → w.parked t = some c :=
    fun t c hc => by rwa [hu.parked] at hc
  refine ((hanchored.same hu).setDesc (fun t c hc => ?_) x).setDesc (fun t c hc => ?_) y
  · exact hanchored.idle hfree t c (hsame t c hc)
  · exact hanchored.idle hfree' t c (hsame t c hc)

/-- What `vfs_pipe_create` does: it finds no descriptor, frees again what it found, or makes the two
it found the ends of new rings. -/
theorem vfsPipeCreate_cases (w : World) (k : ℕ) (cloexec twoWay table rings : Bool) :
    (vfsPipeCreate w k cloexec twoWay table rings).1 = (vfsAlloc w k table).1 ∨
      ∃ u a, vfsFiles w k table = some u ∧ a < fdMax ∧ (u.desc k a).ends = 0 ∧
        ((vfsPipeCreate w k cloexec twoWay table rings).1 = u.setDesc k a .reset ∨
          ∃ b, b < fdMax ∧ b ≠ a ∧ (u.desc k b).ends = 0 ∧ ∃ v x y,
            (vfsPipeCreate w k cloexec twoWay table rings).1 = (v.setDesc k a x).setDesc k b y ∧
              SameTables u v ∧ Steps (u.book u.ends) (v.book (u.ends + (x.ends + y.ends)))) := by
  have hring : ∀ w : World, SameTables w w.addRing := fun w => ⟨rfl, rfl, rfl, rfl⟩
  rw [vfsPipeCreate]
  split
  · rename_i u e hu
    exact .inl (by rw [hu])
  rename_i u a hu
  obtain ⟨hfiles, ha, hfree⟩ := vfsAlloc_ok hu
  obtain ⟨-, hf, -⟩ := vfsFiles_some hfiles
  refine .inr ⟨u, a, hfiles, ha, Desc.ends_zero (by rw [hfree]; decide), ?_⟩
  let claim := u.setDesc k a { u.desc k a with kind := .pipe }
  have hclaim : vfsFiles claim k table = some claim :=
    vfsFiles_of_isSome (setDesc_isSome hf _ _) table
  have hset : ∀ (w : World) (d : Desc), (w.setDesc k a d).addRing = w.addRing.setDesc k a d :=
    fun _ _ => rfl
  dsimp only
  split
  · rename_i v e hv
    have hsame : v = claim := by
      have hv' : (vfsAlloc claim k table).1 = v := congrArg Prod.fst hv
      rw [← hv', vfsAlloc, hclaim]
      dsimp only
      split <;> rfl
    rw [hsame, setDesc_setDesc]
    exact .inl rfl
  rename_i v b hv
  obtain ⟨hfiles', hb, hfree'⟩ := vfsAlloc_ok hv
  obtain rfl : claim = v := some.inj (hclaim.symm.trans hfiles')
  have hdesc := setDesc_desc (i := a) hf { u.desc k a with kind := .pipe } b
  have hab : b ≠ a := by
    intro hab
    rw [hdesc, if_pos hab] at hfree'
    cases hfree'
  rw [hdesc, if_neg hab] at hfree'
  refine .inr ⟨b, hb, hab, Desc.ends_zero (by rw [hfree']; decide), ?_⟩
  split
  · refine ⟨u, .reset, .reset, by rw [setDesc_setDesc], .refl u, ?_⟩
    rw [reset_ends, add_zero, add_zero]
  split
  · refine ⟨u.addRing.addRing, _,
      _, by rw [hset, hset, setDesc_setDesc], (hring u).trans (hring _), ?_⟩
    rw [ends_two_way, ← add_assoc]
    exact (Relation.ReflTransGen.single (addRing_step u u.ends)).tail (addRing_step u.addRing _)
  refine ⟨u.addRing, _, _, by rw [hset, setDesc_setDesc], hring u, ?_⟩
  rw [ends_one_way]
  exact .single (addRing_step u u.ends)

/-- Also when it fails half way and undoes what it did. -/
theorem vfsPipeCreate_kept (h : w.Kept P) (k : ℕ) (cloexec twoWay table rings : Bool) :
    (vfsPipeCreate w k cloexec twoWay table rings).1.Kept P := by
  rcases vfsPipeCreate_cases w k cloexec twoWay table rings with heq | ⟨u, a, hfiles, ha,
    hfree, hmade⟩
  · rw [heq]
    exact vfsAlloc_kept h k table
  have hkept := vfsFiles_kept h hfiles
  obtain ⟨⟨p, hp⟩, hf, -⟩ := vfsFiles_some hfiles
  have hk := h.counted.shape.slot_lt hp
  rcases hmade with heq | ⟨b, hb, hab, hfree', v, x, y, heq, hsame, hsteps⟩
  · rw [heq]
    exact hkept.setDesc hk ha hf hfree reset_ends
  · rw [heq]
    exact hkept.addEnds hk ha hb hab hf hfree hfree' hsame hsteps

theorem sysPipe_kept (h : w.Kept P) (k : ℕ) (refused : Option Int)
    (cloexec twoWay table rings : Bool) :
    (sysPipe w k refused cloexec twoWay table rings).1.Kept P := by
  rw [sysPipe.eq_def]
  split
  · exact h
  split
  · exact h
  · exact vfsPipeCreate_kept h k cloexec twoWay table rings

/-! ## Copies of a descriptor, and the end of one -/

theorem vfsKindOf_pipe {fd : ℕ} (h : vfsKindOf w k fd ≠ .free) :
    fd < fdMax ∧ ∃ p, w.procs k = some p := by
  rw [vfsKindOf] at h
  split at h
  · exact absurd rfl h
  rename_i hfd
  split at h
  · exact absurd rfl h
  · rename_i p hp
    exact ⟨not_le.mp hfd, p, hp⟩

theorem vfsFiles_kind (h : vfsFiles w k memory = some w') {fd : ℕ} (hfd : fd < fdMax) :
    (w'.desc k fd).kind = vfsKindOf w k fd := by
  obtain ⟨⟨p, hp⟩, hf, hw⟩ := vfsFiles_some h
  rw [vfsKindOf, if_neg (not_le.mpr hfd), hp]
  rcases hw with rfl | ⟨hnone, rfl⟩
  · obtain ⟨f, hf⟩ := isSome_iff_exists.mp hf
    have hpf : p.files = some f := by
      rwa [World.files, hp] at hf
    rw [desc_of_files hf]
    simp only [hpf]
  have hpf : p.files = none := by
    rwa [World.files, hp] at hnone
  have hfiles : (w.kmalloc.setFiles k (some (.new w.nextObj))).files k = some (.new w.nextObj) := by
    rw [files_setFiles, if_pos rfl, show w.kmalloc.procs k = some p from hp]
    rfl
  rw [desc_of_files hfiles]
  simp only [hpf, Files.new]
  split <;> rfl

theorem idle_ends {d : Desc} (h : d.kind.idle) : d.ends = 0 := by
  refine Desc.ends_zero fun hpipe => ?_
  rw [hpipe] at h
  cases h

section

variable (h : w.Kept P)
include h

theorem dupPlace_kept (hk : k < schedMaxThreads) (hf : (w.files k).isSome)
    (target : Option ℕ) (table : Bool)
    (hbusy : P → ∀ n, target = some n → ∀ t c, w.parked t = some c → ¬ (c.proc = k ∧ c.fd = n)) :
    (dupPlace w k target table).1.Kept P ∧ ∀ n, (dupPlace w k target table).2 = .ok n →
      n < fdMax ∧ ((dupPlace w k target table).1.files k).isSome ∧
        ((dupPlace w k target table).1.desc k n).ends = 0 := by
  cases target with
  | none =>
    rw [dupPlace]
    refine ⟨vfsAlloc_kept h k table, fun n hn => ?_⟩
    obtain ⟨hfiles, hlt, hfree⟩ := vfsAlloc_ok (Prod.ext rfl hn : vfsAlloc w k table = (_, .ok n))
    exact ⟨hlt, (vfsFiles_some hfiles).2.1, Desc.ends_zero (by rw [hfree]; decide)⟩
  | some n =>
    rw [dupPlace]
    split
    · exact ⟨h, nofun⟩
    rename_i hn
    split
    · rename_i hidle
      refine ⟨h, fun m hm => ?_⟩
      obtain rfl := Except.ok.inj hm
      exact ⟨not_le.mp hn, hf, idle_ends hidle⟩
    have hsame := vfsCloseDesc_same w (w.desc k n)
    have hf' : ((vfsCloseDesc w (w.desc k n)).files k).isSome := by rwa [hsame.files]
    refine ⟨h.close hk (not_le.mp hn) hf fun hP => hbusy hP n rfl, fun m hm => ?_⟩
    obtain rfl := Except.ok.inj hm
    refine ⟨not_le.mp hn, setDesc_isSome hf' n _, ?_⟩
    rw [setDesc_desc hf', if_pos rfl]
    exact reset_ends

theorem sysDup_kept (k fd : ℕ) (target : Option ℕ) (table listing : Bool)
    (hno : vfsKindOf w k fd = .pipe → target = some fd) (hbusy : P → ∀ n, target = some n → n ≠ fd →
      ∀ t c, w.parked t = some c → ¬ (c.proc = k ∧ c.fd = n)) :
    (sysDup w k fd target table listing).1.Kept P := by
  rw [sysDup]
  split
  · exact h
  dsimp only
  split
  · exact h
  rename_i hopen
  split
  · exact h
  rename_i hself
  have hkind : vfsKindOf w k fd ≠ .pipe := fun hpipe => hself (hno hpipe)
  obtain ⟨hfd, p, hp⟩ := vfsKindOf_pipe hopen
  have hk := h.counted.shape.slot_lt hp
  split
  · exact h
  rename_i u hu
  obtain ⟨-, hf, -⟩ := vfsFiles_some hu
  have hkept := vfsFiles_kept h hu
  have hsource : (u.desc k fd).kind ≠ .pipe := by
    rwa [vfsFiles_kind hu hfd]
  obtain ⟨hplaced, hready⟩ := dupPlace_kept hkept hk hf target table fun hP n hn t c hc => by
    rw [vfsFiles_parked hu] at hc
    exact hbusy hP n hn (fun hnf => hself (hn.trans (congrArg some hnf))) t c hc
  split
  · exact hkept
  split
  · exact hkept
  split
  · rename_i v e hv
    rwa [hv] at hplaced
  rename_i v n hv
  rw [hv] at hplaced hready
  obtain ⟨hn, hf', hfree⟩ := hready n rfl
  split
  · split
    · exact hplaced.setDesc hk hn hf' hfree reset_ends
    · exact hplaced.kmalloc.setDesc hk hn hf' hfree (Desc.ends_zero hsource)
  · exact hplaced.setDesc hk hn hf' hfree (Desc.ends_zero hsource)

theorem sysClose_kept (k fd : ℕ)
    (table : Bool) (hbusy : P → ∀ t c, w.parked t = some c → ¬ (c.proc = k ∧ c.fd = fd)) :
    (sysClose w k fd table).1.Kept P := by
  rw [sysClose]
  split
  · exact h
  split
  · exact h
  rename_i hopen
  obtain ⟨hfd, p, hp⟩ := vfsKindOf_pipe hopen
  split
  · exact h
  rename_i u hu
  have hkept := vfsFiles_kept h hu
  split
  · exact hkept
  · refine hkept.close (h.counted.shape.slot_lt hp) hfd (vfsFiles_some hu).2.1 fun hP => ?_
    rw [vfsFiles_parked hu]
    exact hbusy hP

theorem sysOpen_kept (k : ℕ) (kind : Kind) (writable table buffer : Bool) :
    (sysOpen w k kind writable table buffer).1.Kept P := by
  rw [sysOpen]
  split
  · exact h
  rename_i hkind
  have hkind : kind ≠ .pipe := fun hpipe => hkind (.inr (.inr hpipe))
  split
  · rename_i u e hu
    have := vfsAlloc_kept h k table
    rwa [hu] at this
  rename_i u i hu
  have hkept := vfsAlloc_kept h k table
  rw [hu] at hkept
  obtain ⟨hfiles, hi, hfree⟩ := vfsAlloc_ok hu
  obtain ⟨⟨p, hp⟩, hf, -⟩ := vfsFiles_some hfiles
  have hk := h.counted.shape.slot_lt hp
  have hfree : (u.desc k i).ends = 0 := Desc.ends_zero (by rw [hfree]; decide)
  split
  · exact hkept.kmalloc.setDesc hk hi hf hfree (Desc.ends_zero hkind)
  split
  · exact hkept.kmalloc.setDesc hk hi hf hfree (Desc.ends_zero hkind)
  · exact hkept.setDesc hk hi hf hfree (Desc.ends_zero hkind)

end

/-! ## Reading and writing -/

theorem copyOut_counts (n : ℕ) (p : Ring) : Ring.counts (p.copyOut n).1 = Ring.counts p := by
  induction n generalizing p with
  | zero => rfl
  | succ n ih => exact (ih _).trans rfl

theorem vfsPipeRead_counts (p : Ring) (len : ℕ) :
    Ring.counts (vfsPipeRead p len).1 = Ring.counts p := by
  rw [vfsPipeRead]
  split
  · split <;> rfl
  · exact (copyOut_counts (min len p.len) p)

theorem copyIn_counts (bytes : List UInt8) (p : Ring) :
    Ring.counts (p.copyIn bytes) = Ring.counts p := by
  induction bytes generalizing p with
  | nil => rfl
  | cons b bytes ih => exact (ih (p.put b)).trans rfl

theorem writeLoop_counts (mem : ℕ → UInt8) (len rounds : ℕ) (p : Ring) (done : ℕ) :
    Ring.counts (writeLoop mem len rounds p done).1 = Ring.counts p := by
  induction rounds generalizing p done with
  | zero => rfl
  | succ rounds ih =>
    rw [writeLoop]
    split
    · rfl
    split
    · rfl
    split
    · rfl
    · exact (ih _ _).trans (copyIn_counts _ p)

theorem update_book {r : ℕ} {p q : Ring} (hp : w.rings r = some p)
    (hq : Ring.counts q = Ring.counts p) (parked : ℕ → Option Parked) (h : Side → ℕ → ℕ) :
    { w with rings := Function.update w.rings r (some q), parked }.book h = w.book h := by
  simp only [World.book]
  congr 1
  funext j
  by_cases hj : j = r
  · subst hj
    simp [hp, hq]
  · simp [hj]

/-- A ring whose counts stay may change its bytes. -/
theorem World.Kept.update (h : w.Kept P) {r : ℕ} {p q : Ring} (hp : w.rings r = some p)
    (hq : Ring.counts q = Ring.counts p) {parked : ℕ → Option Parked}
    (hparked : P → { w with parked }.Anchored) :
    { w with rings := Function.update w.rings r (some q), parked }.Kept P := by
  refine ⟨⟨⟨h.counted.shape.slots, h.counted.shape.queue, h.counted.shape.closed⟩, ?_⟩, hparked⟩
  rw [update_book hp hq]
  exact h.counted.balanced

/-- A call leaves its thread parked where it came from, or not at all. -/
theorem runCall_kept (h : w.Kept P) {t : ℕ} {c : Parked}
    (hfrom : P → t < schedMaxThreads ∧ c.fd < fdMax ∧ (w.files c.proc).isSome ∧
      (w.desc c.proc c.fd).ring (sideOf c.call) = some c.ring) (mem : ℕ → UInt8) :
    (w.runCall t c mem).1.Kept P := by
  have hparks : ∀ call, sideOf call = sideOf c.call →
      P → { w with parked := Function.update w.parked t (some { c with call }) }.Anchored := by
    intro call hcall hP t' c' hc'
    by_cases htt : t' = t
    · subst htt
      simp only [Function.update_self, some.injEq] at hc'
      subst hc'
      rw [hcall]
      exact hfrom hP
    · simp only [Function.update_of_ne htt] at hc'
      exact h.anchored hP t' c' hc'
  have hreturns : P → { w with parked := Function.update w.parked t none }.Anchored := by
    intro hP t' c' hc'
    by_cases htt : t' = t
    · subst htt
      simp only [Function.update_self, reduceCtorEq] at hc'
    · simp only [Function.update_of_ne htt] at hc'
      exact h.anchored hP t' c' hc'
  rw [World.runCall]
  split
  · exact h
  rename_i p hp
  split
  · rename_i len _
    have hcounts := vfsPipeRead_counts p len
    split
    · rename_i q hq
      rw [hq] at hcounts
      exact h.update hp hcounts (hparks c.call rfl)
    rename_i q bytes hq
    rw [hq] at hcounts
    exact h.update hp hcounts hreturns
  · rename_i len done hcall
    have hcounts := writeLoop_counts mem len (len - done + 1) p done
    split
    · rename_i q d hq
      rw [show writeLoop mem len (len - done + 1) p done = _ from hq] at hcounts
      exact h.update hp hcounts (hparks _ (by rw [hcall]; rfl))
    rename_i q v hq
    rw [show writeLoop mem len (len - done + 1) p done = _ from hq] at hcounts
    exact h.update hp hcounts hreturns

theorem sysPipeIo_kept (h : w.Kept P) (k t fd : ℕ) (e : Side) (count : ℕ) (mapped : Bool)
    (mem : ℕ → UInt8) :
    (sysPipeIo w k t fd e count mapped mem).1.Kept P := by
  rw [sysPipeIo.eq_def]
  split
  · exact h
  rename_i hcan
  simp only [not_or, not_not, not_le] at hcan
  obtain ⟨hkind, ht, -⟩ := hcan
  have hopen : vfsKindOf w k fd ≠ .free := by rw [hkind]; decide
  obtain ⟨hfd, p, hp⟩ := vfsKindOf_pipe hopen
  have hdesc : (w.files k).isSome ∧ (w.desc k fd).kind = .pipe := by
    rw [vfsKindOf, if_neg (not_le.mpr hfd), hp] at hkind
    cases hf : p.files with
    | none =>
      simp only [hf] at hkind
      split at hkind <;> cases hkind
    | some f =>
      simp only [hf] at hkind
      have hwf : w.files k = some f := by rw [World.files, hp]; exact hf
      rw [desc_of_files hwf, hwf]
      exact ⟨rfl, hkind⟩
  dsimp only
  split
  · exact h
  split
  · exact h
  split
  all_goals
    split
    · rename_i r hr
      split
      · exact h
      · refine runCall_kept h (fun _ => ⟨ht, hfd, hdesc.1, ?_⟩) mem
        simp only [sideOf, Desc.ring, if_pos hdesc.2, hr]
    · exact h

/-- A parked call that goes on keeps the counts. -/
theorem resume_kept (h : w.Kept P) (t : ℕ) (mem : ℕ → UInt8) : (resume w t mem).1.Kept P := by
  rw [resume]
  split
  · exact h
  rename_i c hc
  exact runCall_kept h (fun hP => h.anchored hP t c hc) mem

end Vextro.Descriptors
