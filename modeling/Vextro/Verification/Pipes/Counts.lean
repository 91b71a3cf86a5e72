import Vextro.Verification.Pipes.Calls
import Vextro.Verification.Shared.Run

/-! The counts of a ring are the numbers of descriptors open on its sides, whatever forks, execs and
exits there are, and a parked thread holds on to one through a descriptor of its process. -/

namespace Vextro.Descriptors

open Pipes Threads Shares List Function

variable {w u : World} {k : ℕ} {f : Files} {P : Prop}

/-! ## Fork -/

theorem Desc.ends_congr {d d' : Desc} (hkind : d'.kind = d.kind) (hprd : d'.prd = d.prd)
    (hpwr : d'.pwr = d.pwr) : d'.ends = d.ends := by
  have hring : ∀ e, d'.ring e = d.ring e := by
    intro e
    cases e with
    | read => rw [Desc.ring, Desc.ring, hkind, hprd]
    | write => rw [Desc.ring, Desc.ring, hkind, hpwr]
  funext e r
  rw [Desc.ends, Desc.ends, hring]

theorem cloneDesc_cases {s : Desc} {memory : Bool} {o : Option Desc}
    (h : cloneDesc w s memory = (u, o)) :
    SameTables w u ∧ (∀ d, o = some d → d.ends = s.ends) ∧
      (s.kind = .pipe ∧ o.isSome ∧ u = (w.hold .read s.prd).hold .write s.pwr ∨
        s.kind ≠ .pipe ∧ ∀ g, u.book g = w.book g) := by
  have hcopy : ∀ (wbuf ents : Option ℕ) (d : Desc),
      some { s with wbuf, ents, busy := false } = some d → d.ends = s.ends := by
    intro wbuf ents d hd
    cases hd
    exact Desc.ends_congr rfl rfl rfl
  rw [cloneDesc] at h
  split at h
  case h_1 hkind | h_2 hkind =>
    have hkind : s.kind ≠ .pipe := by rw [hkind]; decide
    split at h
    · split at h
      · cases h
        exact ⟨.refl w, fun _ hd => (Option.some_ne_none _ hd.symm).elim,
          .inr ⟨hkind, fun _ => rfl⟩⟩
      · cases h
        exact ⟨kmalloc_same w, hcopy _ _, .inr ⟨hkind, fun _ => rfl⟩⟩
    · cases h
      exact ⟨.refl w, hcopy _ _, .inr ⟨hkind, fun _ => rfl⟩⟩
  · rename_i hkind
    cases h
    exact ⟨(hold_same w .read s.prd).trans (hold_same _ .write s.pwr), hcopy _ _,
      .inl ⟨hkind, rfl, rfl⟩⟩
  · rename_i hkind
    cases h
    exact ⟨.refl w, hcopy _ _, .inr ⟨hkind, fun _ => rfl⟩⟩

theorem cloneDesc_steps {h : Side → ℕ → ℕ} {s : Desc} {memory : Bool}
    {o : Option Desc} (hclone : cloneDesc w s memory = (u, o)) (hb : (w.book h).Balanced)
    (hle : ∀ e r, s.ends e r ≤ h e r) (hroom : ∀ e r, h e r + 2 < 2 ^ 16) :
    Steps (w.book h) (u.book (h + s.ends)) := by
  obtain ⟨-, -, ⟨hpipe, -, rfl⟩ | ⟨hpipe, hbook⟩⟩ := cloneDesc_cases hclone
  · have hlive : ∀ e r, s.ring e = some r → ∃ e', h e' r ≠ 0 := by
      intro e r hr
      refine ⟨e, fun hzero => ?_⟩
      have := hle e r
      rw [Desc.ends, if_pos hr] at this
      omega
    have hread := hold_steps (e := .read) (o := s.prd) hb
      (fun r hr => hlive .read r (by rw [Desc.ring, if_pos hpipe, hr])) fun e r => by
        have := hroom e r
        omega
    have hmore : ∀ e r, h e r ≤ (h + endOf .read s.prd) e r := fun e r => Nat.le_add_right _ _
    have hwrite := hold_steps (e := .write) (o := s.pwr) (hb.steps hread)
      (fun r hr => by
        obtain ⟨e, he⟩ := hlive .write r (by rw [Desc.ring, if_pos hpipe, hr])
        exact ⟨e, fun hzero => he (Nat.le_zero.mp ((hmore e r).trans hzero.le))⟩)
      fun e r => by
        have := hroom e r
        have hone : endOf .read s.prd e r ≤ 1 := by
          rw [endOf_apply]
          split <;> omega
        rw [Pi.add_apply, Pi.add_apply]
        omega
    rw [Desc.ends_pipe hpipe, ← add_assoc]
    exact hread.trans hwrite
  · rw [Desc.ends_zero hpipe, add_zero, hbook]

theorem cloneFrom_same {src : ℕ → Desc} (memory : ℕ → Bool) (n i : ℕ) (w : World) (dst : Files) :
    SameTables w (cloneFrom src memory i n w dst).1 := by
  induction n generalizing i w dst with
  | zero => exact .refl w
  | succ n ih =>
    rw [cloneFrom]
    split
    · exact ih (i + 1) w dst
    split
    · rename_i u hu
      exact (cloneDesc_cases hu).1
    · rename_i u o hu
      exact (cloneDesc_cases hu).1.trans (ih (i + 1) u _)

theorem vfsCloneTable_same (w : World) (p : Proc) (table : Bool) (memory : ℕ → Bool) :
    SameTables w (vfsCloneTable w p table memory).1 := by
  rw [vfsCloneTable]
  split
  · exact .refl w
  split
  · exact .refl w
  · exact (kmalloc_same w).trans (cloneFrom_same memory _ _ _ _)

/-- The loop of `vfs_clone_table`, from a table whose descriptors from `i` on are idle. -/
theorem cloneFrom_steps {src : ℕ → Desc}
    (memory : ℕ → Bool) {g : Side → ℕ → ℕ} (hle : ∀ j e r, j < fdMax → (src j).ends e r ≤ g e r)
    (hroom : ∀ e r, g e r + fdMax + 2 < 2 ^ 16) (n : ℕ) {i : ℕ} (hin : i + n ≤ fdMax) {dst : Files}
    (hidle : ∀ j, i ≤ j → (dst.d j).ends = 0) (hb : (w.book (g + dst.ends)).Balanced) :
    Steps (w.book (g + dst.ends))
        ((cloneFrom src memory i n w dst).1.book (g + (cloneFrom src memory i n w dst).2.1.ends)) ∧
      ((∀ j < fdMax, (src j).ends = 0) → (cloneFrom src memory i n w dst).2.1.ends = dst.ends) := by
  induction n generalizing i w dst with
  | zero => exact ⟨.refl, fun _ => rfl⟩
  | succ n ih =>
    have hi : i < fdMax := by omega
    have hset := Files.set_ends_idle hi (hidle i le_rfl)
    rw [cloneFrom]
    split
    · exact ih (by omega) (fun j hj => hidle j (by omega)) hb
    split
    · rename_i u hu
      obtain ⟨-, -, ⟨-, hsome, -⟩ | ⟨-, hkept⟩⟩ := cloneDesc_cases hu
      · cases hsome
      rw [hset, reset_ends, add_zero, hkept]
      exact ⟨.refl, fun _ => rfl⟩
    rename_i u o hu
    have hsteps : Steps (w.book (g + dst.ends)) (u.book (g + dst.ends + (src i).ends)) := by
      refine cloneDesc_steps hu hb (fun e r => ?_) fun e r => ?_
      · exact (hle i e r hi).trans (Nat.le_add_right _ _)
      have := hroom e r
      have := dst.ends_le e r
      rw [Pi.add_apply, Pi.add_apply]
      omega
    have ho := (cloneDesc_cases hu).2.1 o rfl
    rw [add_assoc, ← ho, ← hset o] at hsteps
    have hlater : ∀ j, i + 1 ≤ j → ((dst.set i o).d j).ends = 0 := fun j hj => by
      rw [Files.set_later hj, hidle j (by omega)]
    obtain ⟨hsteps', hzero⟩ := ih (by omega) hlater (hb.steps hsteps)
    refine ⟨hsteps.trans hsteps', fun hall => ?_⟩
    rw [hzero hall, hset o, ho, hall i hi, add_zero]

/-- No descriptor of the process is a pipe end. -/
def World.pipeless (w : World) (k : ℕ) : Bool :=
  (w.files k).all fun f => (List.range fdMax).all fun i => (f.d i).kind ≠ .pipe

theorem pipeless_ends (h : w.pipeless k) (hf : w.files k = some f) (i : ℕ) (hi : i < fdMax) :
    (f.d i).ends = 0 := by
  rw [World.pipeless, hf, Option.all_some, all_eq_true] at h
  exact Desc.ends_zero (of_decide_eq_true (h i (mem_range.mpr hi)))

theorem desc_ends_le (hk : k < schedMaxThreads) (hf : w.files k = some f) {i : ℕ} (hi : i < fdMax)
    (e : Side) (r : ℕ) :
    (f.d i).ends e r ≤ w.ends e r := by
  have hsome : (w.files k).isSome := by rw [hf]; rfl
  have h := congrFun (congrFun (setDesc_ends hk hi hsome .reset) e) r
  rw [reset_ends, add_zero, desc_of_files hf, Pi.add_apply, Pi.add_apply] at h
  omega

theorem vfsCloneTable_steps (h : w.Counted) {parent : Proc} (hp : w.procs k = some parent)
    (table : Bool) (memory : ℕ → Bool) :
    let r := vfsCloneTable w parent table memory
    Steps (w.book w.ends) (r.1.book (w.ends + tableEnds r.2.1)) ∧
      (w.pipeless k = true → tableEnds r.2.1 = 0) := by
  have hkeep : Steps (w.book w.ends) (w.book (w.ends + tableEnds none)) ∧
      (w.pipeless k = true → tableEnds none = 0) := by
    refine ⟨?_, fun _ => rfl⟩
    rw [show w.ends + tableEnds none = w.ends from add_zero _]
  have hk := h.shape.slot_lt hp
  rw [vfsCloneTable]
  split
  · exact hkeep
  rename_i src hsrc
  have hf : w.files k = some src := by rw [World.files, hp]; exact hsrc
  split
  · exact hkeep
  have hnew : (Files.new w.nextObj).ends = 0 := new_ends _
  have hstart : w.kmalloc.book (w.ends + (Files.new w.nextObj).ends) = w.book w.ends := by
    rw [hnew, add_zero]
    rfl
  have hle : ∀ j e r, j < fdMax → (src.d j).ends e r ≤ w.ends e r :=
    fun j e r hj => desc_ends_le hk hf hj e r
  have hroom : ∀ e r, w.ends e r + fdMax + 2 < 2 ^ 16 := by
    intro e r
    have := h.shape.ends_le e r
    simp only [schedMaxThreads, vfsRetireMax, fdMax] at this ⊢
    omega
  have hidle : ∀ j, 0 ≤ j → ((Files.new w.nextObj).d j).ends = 0 :=
    fun j _ => idle_ends (by simp only [Files.new]; split <;> rfl)
  obtain ⟨hsteps, hzero⟩ := cloneFrom_steps memory hle hroom fdMax (Nat.zero_add _).le hidle
    (by rw [hstart]; exact h.balanced)
  rw [hstart] at hsteps
  refine ⟨hsteps, fun hno => ?_⟩
  exact (hzero fun j hj => pipeless_ends hno hf j hj).trans hnew

theorem ends_update {c : ℕ} (hc : c < schedMaxThreads) (o : Option Proc) :
    { w with procs := update w.procs c o }.ends + tableEnds (w.files c) =
      w.ends + tableEnds (o.bind Proc.files) := by
  have h : { w with procs := update w.procs c o }.ends + tableEnds (w.files c) =
      w.ends + tableEnds ({ w with procs := update w.procs c o }.files c) :=
    ends_change hc (fun j hj => by simp only [World.files, update_of_ne hj]) rfl rfl
  rw [h]
  simp [World.files]

theorem World.Anchored.procs
    (h : w.Anchored) (hparked : ∀ t c, u.parked t = some c → w.parked t = some c)
    (hprocs : ∀ t c, u.parked t = some c → u.procs c.proc = w.procs c.proc) : u.Anchored := by
  refine h.stays fun t c hc => ?_
  have hfiles : u.files c.proc = w.files c.proc := by rw [World.files, World.files, hprocs t c hc]
  rw [World.desc, hfiles]
  exact ⟨hparked t c hc, (h t c (hparked t c hc)).2.2.1, rfl⟩

theorem World.Kept.addProc (hshape : w.Shape) (hanchored : P → w.Anchored)
    {c : ℕ} (hc : c < schedMaxThreads) (hfree : w.procs c = none) {p : Proc}
    (hb : (w.book (w.ends + tableEnds p.files)).Balanced) :
    { w with procs := Function.update w.procs c (some p) }.Kept P := by
  have hends : { w with procs := Function.update w.procs c (some p) }.ends =
      w.ends + tableEnds p.files := by
    have h := ends_update (w := w) hc (some p)
    rw [World.files, hfree] at h
    exact (add_zero _).symm.trans h
  refine ⟨⟨⟨fun j hj => ?_, hshape.queue, hshape.closed⟩, ?_⟩, fun hP => ?_⟩
  · have hj' : j ≠ c := by omega
    dsimp only
    rw [update_of_ne hj']
    exact hshape.slots j hj
  · rwa [hends]
  refine (hanchored hP).procs (fun _ _ hx => hx) fun t x hx => ?_
  obtain ⟨f, hf⟩ := Option.isSome_iff_exists.mp (hanchored hP t x hx).2.2.1
  obtain ⟨q, hq, -⟩ := files_some hf
  refine update_of_ne (fun hxc => ?_) _ _
  simp [hxc, hfree] at hq

theorem freeSlot_some {c : ℕ} (h : w.freeSlot = some c) :
    c < schedMaxThreads ∧ w.procs c = none := by
  have hfree := List.find?_some h
  have hmem := mem_of_find?_eq_some h
  exact ⟨mem_range.mp hmem, Option.isNone_iff_eq_none.mp hfree⟩

/-- What is built for a child that does not start is given back. -/
theorem undo_kept (h : w.Kept P) (hsame : SameTables w u) {files : Option Files}
    (hsteps : Steps (w.book w.ends) (u.book (w.ends + tableEnds files))) :
    ((files.map fun f => vfsTableDestroy u f).getD u).Kept P := by
  have hb := h.counted.balanced.steps hsteps
  have hkeep : ∀ {v : World}, SameTables w v → (v.book w.ends).Balanced → v.Kept P := by
    intro v hv hbook
    refine ⟨⟨h.counted.shape.same hv, ?_⟩, fun hP => (h.anchored hP).same hv⟩
    rwa [hv.ends]
  cases files with
  | none =>
    rw [show w.ends + tableEnds none = w.ends from add_zero _] at hb
    exact hkeep hsame hb
  | some f =>
    exact hkeep (hsame.trans (vfsTableDestroy_same u f)) (hb.steps (vfsTableDestroy_steps hb))

/-- The fork gets a thread, or fails before it asks for one, or has no pipe end to copy. -/
def ForkAnswers.settled (r : ForkAnswers) (w : World) (k : ℕ) : Bool :=
  (r.thread && w.freeSlot.isSome) || !r.space || !r.pages ||
    ((w.procs k).any (·.sig.isSome) && !r.sig) || w.pipeless k

/-- The block for the child's signals, if the parent has any. -/
def World.withSig (w : World) (p : Proc) : World := if p.sig.isSome then w.kmalloc else w

theorem withSig_same (w : World) (p : Proc) : SameTables w (w.withSig p) := by
  rw [World.withSig]
  split
  · exact kmalloc_same w
  · exact .refl w

theorem withSig_book (w : World) (p : Proc) (g : Side → ℕ → ℕ) :
    (w.withSig p).book g = w.book g := by
  rw [World.withSig]
  split <;> rfl

theorem SameTables.freeSlot {w' : World} (h : SameTables w w') : w'.freeSlot = w.freeSlot := by
  rw [World.freeSlot, World.freeSlot, h.procs]

theorem sysFork_cases (w : World) (k : ℕ) (r : ForkAnswers) :
    (w.procs k = none ∨ r.space = false) ∧ sysFork w k r = (w, none) ∨
      ∃ p, w.procs k = some p ∧ r.space ∧
        (r.pages = false ∧ sysFork w k r = (w.kmalloc.kfree (some w.nextObj), none) ∨
          r.pages ∧ ∃ u files ok, vfsCloneTable w.kmalloc p r.table r.copies = (u, files, ok) ∧
            ((ok = false ∨ p.sig.isSome ∧ r.sig = false) ∧
                sysFork w k r = (((files.map fun f => vfsTableDestroy u f).getD u).kfree
                  (some w.nextObj), none) ∨
              ok ∧ ¬ (p.sig.isSome ∧ r.sig = false) ∧ ((r.thread = false ∨ u.freeSlot = none) ∧
                    sysFork w k r = (((u.withSig p).kfree (p.sig.map fun _ => u.nextObj)).kfree
                      (some w.nextObj), none) ∨
                  ∃ c, r.thread ∧ u.freeSlot = some c ∧ sysFork w k r = ({ u.withSig p with
                      procs := update (u.withSig p).procs c
                        (some ⟨w.nextObj, p.sig.map fun _ => u.nextObj, files⟩) }, some c)))) := by
  rw [sysFork]
  cases hp : w.procs k with
  | none => exact .inl ⟨.inl rfl, rfl⟩
  | some p =>
    dsimp only
    rcases hspace : r.space with _ | _
    · exact .inl ⟨.inr rfl, rfl⟩
    refine .inr ⟨p, rfl, rfl, ?_⟩
    rcases hpages : r.pages with _ | _
    · exact .inl ⟨rfl, rfl⟩
    obtain ⟨u, files, ok⟩ := vfsCloneTable w.kmalloc p r.table r.copies
    refine .inr ⟨rfl, u, files, ok, rfl, ?_⟩
    rcases ok with _ | _
    · exact .inl ⟨.inl rfl, rfl⟩
    by_cases hsig : p.sig.isSome = true ∧ r.sig = false
    · dsimp only
      rw [if_pos hsig]
      exact .inl ⟨.inr hsig, rfl⟩
    dsimp only
    rw [if_neg hsig]
    refine .inr ⟨rfl, hsig, ?_⟩
    have hslot : (if p.sig.isSome = true then u.kmalloc else u).freeSlot = u.freeSlot :=
      (withSig_same u p).freeSlot
    rw [hslot]
    rcases hthread : r.thread with _ | _
    · exact .inl ⟨.inl rfl, rfl⟩
    rcases hfree : u.freeSlot with _ | c
    · exact .inl ⟨.inr rfl, rfl⟩
    · exact .inr ⟨c, rfl, rfl, rfl⟩

theorem sysFork_kept (h : w.Kept P) (k : ℕ) (r : ForkAnswers) (hr : r.settled w k) :
    (sysFork w k r).1.Kept P := by
  have hm := h.kmalloc
  rcases sysFork_cases w k r with ⟨-, heq⟩ | ⟨p, hp, hspace,
    ⟨-, heq⟩ | ⟨hpages, u, files, ok, hu, hcase⟩⟩
  · rwa [heq]
  · rw [heq]
    exact hm.kfree (some w.nextObj)
  have hsame := vfsCloneTable_same w.kmalloc p r.table r.copies
  obtain ⟨hsteps, hzero⟩ := vfsCloneTable_steps hm.counted
    (show w.kmalloc.procs k = some p from hp) r.table r.copies
  rw [hu] at hsame hsteps hzero
  rcases hcase with ⟨-, heq⟩ | ⟨-, hsig, ⟨hnone, heq⟩ | ⟨c, -, hc, heq⟩⟩
  · rw [heq]
    exact (undo_kept hm hsame hsteps).kfree (some w.nextObj)
  all_goals
    have hb : ((u.withSig p).book ((u.withSig p).ends + tableEnds files)).Balanced := by
      rw [withSig_book, (withSig_same u p).ends, hsame.ends]
      exact hm.counted.balanced.steps hsteps
    have hsame' := hsame.trans (withSig_same u p)
    have hshape := hm.counted.shape.same hsame'
    have hanchored : P → (u.withSig p).Anchored := fun hP => (hm.anchored hP).same hsame'
  · -- the child's table is lost, which does no harm if there is no pipe end in it
    have hno : w.pipeless k := by
      rw [show u.freeSlot = w.freeSlot from hsame.freeSlot] at hnone
      rcases hnone with hnone | hnone <;> simp_all [ForkAnswers.settled]
    have hkept : (u.withSig p).Kept P := by
      refine ⟨⟨hshape, ?_⟩, hanchored⟩
      rwa [hzero hno, add_zero] at hb
    rw [heq]
    exact (hkept.kfree (p.sig.map fun _ => u.nextObj)).kfree (some w.nextObj)
  · obtain ⟨hlt, hfree⟩ := freeSlot_some hc
    rw [heq]
    refine World.Kept.addProc hshape hanchored hlt ?_ hb
    rwa [(withSig_same u p).procs]

theorem appSpawn_kept (h : w.Kept P) (memory : Bool) : (appSpawn w memory).Kept P := by
  rw [appSpawn]
  split
  · exact h
  rename_i c hc
  have hm := h.kmalloc
  split at hc
  · obtain ⟨hlt, hfree⟩ := freeSlot_some hc
    refine World.Kept.addProc hm.counted.shape hm.anchored hlt hfree ?_
    rw [show w.kmalloc.ends + tableEnds none = w.kmalloc.ends from add_zero _]
    exact hm.counted.balanced
  · cases hc

/-! ## Exec and exit -/

/-- The ends a process keeps for itself are closed one after the other. -/
theorem closeMarked_counted (h : w.Counted) (hf : w.files k = some f) (n : ℕ) (hn : n ≤ fdMax) :
    let u := (List.range n).foldl (fun w i =>
      if (f.d i).kind.idle ∨ (f.d i).cloexec = false then w
      else (vfsCloseDesc w (f.d i)).setDesc k i .reset) w
    u.Counted ∧ (u.files k).isSome ∧ u.parked = w.parked ∧ ∀ j, n ≤ j → u.desc k j = f.d j := by
  obtain ⟨p, hp, -⟩ := files_some hf
  have hk := h.shape.slot_lt hp
  induction n with
  | zero => exact ⟨h, by rw [range_zero, foldl_nil, hf]; rfl, rfl, fun j _ => desc_of_files hf j⟩
  | succ n ih =>
    obtain ⟨hcounted, hsome, hparked, hlater⟩ := ih (by omega)
    rw [range_succ, foldl_append, foldl_cons, foldl_nil]
    generalize (List.range n).foldl (fun w i =>
      if (f.d i).kind.idle ∨ (f.d i).cloexec = false then w
      else (vfsCloseDesc w (f.d i)).setDesc k i .reset) w = u at hcounted hsome hparked hlater ⊢
    split
    · exact ⟨hcounted, hsome, hparked, fun j hj => hlater j (by omega)⟩
    have hsame := vfsCloseDesc_same u (f.d n)
    have hsome' : ((vfsCloseDesc u (f.d n)).files k).isSome := by rwa [hsame.files]
    refine ⟨?_, setDesc_isSome hsome' n _, hsame.parked.trans hparked, fun j hj => ?_⟩
    · have hclose := hcounted.close hk (show n < fdMax by omega) hsome
      rwa [hlater n le_rfl] at hclose
    · rw [setDesc_desc hsome', if_neg (by omega), hsame.desc]
      exact hlater j (by omega)

theorem foldl_procs {f : World → ℕ → World} (hf : ∀ w i j, j ≠ k → (f w i).procs j = w.procs j)
    (w : World) (xs : List ℕ) (j : ℕ) (hj : j ≠ k) : (xs.foldl f w).procs j = w.procs j := by
  induction xs generalizing w with
  | nil => rfl
  | cons x xs ih => exact (ih (f w x)).trans (hf w x j hj)

theorem sysExecve_kept (h : w.Kept P) (k : ℕ) : (sysExecve w k).Kept P := by
  rw [sysExecve]
  split
  · exact h
  rename_i halone
  split
  · exact h
  rename_i f hf
  obtain ⟨hcounted, -, hparked, -⟩ := closeMarked_counted h.counted hf fdMax le_rfl
  refine ⟨hcounted,
    fun hP => (h.anchored hP).procs (fun t c hc => by rwa [hparked] at hc) fun t c hc => ?_⟩
  rw [hparked] at hc
  have hother : c.proc ≠ k := by
    intro hck
    refine halone (List.any_eq_true.mpr ⟨t, List.mem_range.mpr (h.anchored hP t c hc).1, ?_⟩)
    rw [hc, Option.any_some, decide_eq_true hck]
  refine foldl_procs (fun w i j hj => ?_) w _ c.proc hother
  split
  · rfl
  · simp only [World.setDesc, World.setFiles, if_neg hj]
    rw [(vfsCloseDesc_same w (f.d i)).procs]

theorem vfsRetireTable_kept (hshape : w.Shape) (hanchored : P → w.Anchored)
    (hb : (w.book (w.ends + f.ends)).Balanced) : (vfsRetireTable w f).Kept P := by
  rw [vfsRetireTable]
  split
  · rename_i hroom
    refine ⟨⟨⟨hshape.slots, ?_, hshape.closed⟩, ?_⟩, hanchored⟩
    · rw [length_append]
      exact hroom.2
    have hends : { w with retired := w.retired ++ [f] }.ends = w.ends + f.ends := by
      simp only [World.ends, map_append, sum_append, map_singleton, sum_singleton, ← add_assoc]
      exact add_right_comm _ _ _
    rwa [hends]
  · have hsame := vfsTableDestroy_same w f
    refine ⟨⟨hshape.same hsame, ?_⟩, fun hP => (hanchored hP).same hsame⟩
    rw [hsame.ends]
    exact hb.steps (vfsTableDestroy_steps hb)

theorem exit_kept (h : w.Kept P) (k : ℕ) : (exit w k).Kept P := by
  rw [exit]
  split
  · exact h
  rename_i p hp
  have hk := h.counted.shape.slot_lt hp
  have hends : (w.remove k).ends + tableEnds p.files = w.ends := by
    have h := ends_update (w := w) hk none
    rw [World.files, hp] at h
    exact h.trans (add_zero _)
  have hshape : (w.remove k).Shape := by
    refine ⟨fun j hj => ?_, h.counted.shape.queue, h.counted.shape.closed⟩
    have hne : j ≠ k := by omega
    simp only [World.remove, update_of_ne hne, h.counted.shape.slots j hj]
  have hsame := (kfree_same (w.remove k) (some p.space)).trans (kfree_same _ p.sig)
  have hanchored : P → (((w.remove k).kfree (some p.space)).kfree p.sig).Anchored := by
    intro hP
    refine World.Anchored.same ((h.anchored hP).procs (fun t c hc => ?_) fun t c hc => ?_) hsame
    · simp only [World.remove] at hc
      split at hc
      · cases hc
      · exact hc
    simp only [World.remove] at hc ⊢
    split at hc
    · cases hc
    rename_i hstay
    refine update_of_ne (fun hck => hstay ?_) _ _
    rw [hc, Option.any_some, decide_eq_true hck]
  have hb : ∀ g, (((w.remove k).kfree (some p.space)).kfree p.sig).book g = w.book g := by
    intro g
    rw [kfree_book]
    rfl
  dsimp only
  cases hf : p.files with
  | none =>
    refine ⟨⟨hshape.same hsame, ?_⟩, hanchored⟩
    rw [hf, show (w.remove k).ends + tableEnds none = (w.remove k).ends from add_zero _] at hends
    rw [Option.map_none, Option.getD_none, hb, hsame.ends, hends]
    exact h.counted.balanced
  | some f =>
    refine vfsRetireTable_kept (hshape.same hsame) hanchored ?_
    rw [hf] at hends
    rw [hb, hsame.ends, show (w.remove k).ends + f.ends = w.ends from hends]
    exact h.counted.balanced

theorem vfsJanitor_kept (h : w.Kept P) : (vfsJanitor w).Kept P := by
  rw [vfsJanitor]
  split
  · rename_i hclosing
    split
    · exact h
    rename_i f rest hretired
    refine ⟨⟨⟨h.counted.shape.slots, ?_, fun f' i hi j hj => ?_⟩, ?_⟩, h.anchored⟩
    · have := h.counted.shape.queue
      rw [hretired, length_cons] at this
      dsimp only
      omega
    · simp only [Option.some.injEq, Prod.mk.injEq] at hi
      omega
    have hends : { w with closing := some (f, 0), retired := rest }.ends = w.ends := by
      simp only [World.ends, hclosing, hretired, Option.map_some]
      show _ + _ + f.ends = _ + (f.ends + _) + 0
      rw [add_zero, add_comm f.ends, ← add_assoc]
      rfl
    rw [hends]
    exact h.counted.balanced
  · rename_i f i hclosing
    have hrest : w.ends = { w with closing := none }.ends + f.ends := by
      simp only [World.ends, hclosing, Option.map_none]
      show _ + _ + f.ends = _ + _ + 0 + f.ends
      rw [add_zero]
      rfl
    split
    · rename_i hi
      have hset := f.set_ends hi .reset
      rw [reset_ends, add_zero] at hset
      have hsame := vfsCloseDesc_same w (f.d i)
      have hclosed : P → (vfsCloseDesc w (f.d i)).Anchored := fun hP => (h.anchored hP).same hsame
      have hends : { vfsCloseDesc w (f.d i) with closing := some (f.set i .reset, i + 1) }.ends =
          { w with closing := none }.ends + (f.set i .reset).ends := by
        simp only
        rw [hsame.retired]
        show ∑ k ∈ _, tableEnds ((vfsCloseDesc w (f.d i)).files k) + _ + _ = _ + _ + 0 + _
        simp only [hsame.files]
        rw [add_zero]
        rfl
      refine ⟨⟨⟨(h.counted.shape.same hsame).slots, (h.counted.shape.same hsame).queue,
            fun f' j hj l hl => ?_⟩, ?_⟩, hclosed⟩
      · obtain ⟨rfl, rfl⟩ := hj
        simp only [Files.set]
        by_cases hli : l = i
        · subst hli
          rw [update_self]
          exact reset_ends
        · rw [update_of_ne hli]
          exact h.counted.shape.closed f i hclosing l (by omega)
      · rw [hends]
        have hb := h.counted.balanced
        rw [hrest, ← hset, ← add_assoc] at hb
        exact hb.steps (vfsCloseDesc_steps hb)
    · have hdone : f.ends = 0 := by
        refine Finset.sum_eq_zero fun j hj => h.counted.shape.closed f i hclosing j ?_
        have := Finset.mem_range.mp hj
        omega
      rw [hdone, add_zero] at hrest
      refine ⟨⟨⟨h.counted.shape.slots, h.counted.shape.queue, by simp⟩, ?_⟩, h.anchored⟩
      have hends : { w.kfree (some f.addr) with closing := none }.ends = w.ends := hrest.symm
      rw [hends]
      exact h.counted.balanced

/-! ## Histories -/

/-- No pipe end is copied by `dup`, and no fork fails for want of a thread once it has copied
one. -/
def Tidy (w : World) : Op → Prop
  | .dup k fd target _ _ => vfsKindOf w k fd = .pipe → target = some fd
  | .fork k r => r.settled w k = true
  | _ => True

instance (w : World) : (op : Op) → Decidable (Tidy w op)
  | .dup k fd target _ _ =>
    inferInstanceAs (Decidable (vfsKindOf w k fd = .pipe → target = some fd))
  | .fork k r => inferInstanceAs (Decidable (r.settled w k = true))
  | .pipe .. | .close .. | .open_ .. | .io .. | .resume .. | .poll .. | .spawn _ | .execve
      _ | .exit _
  | .janitorStart | .janitor => isTrue trivial

/-- A thread is parked in that descriptor. -/
def World.busy (w : World) (k fd : ℕ) : Bool :=
  (List.range schedMaxThreads).any fun t => (w.parked t).any fun c => c.proc = k ∧ c.fd = fd

theorem World.Anchored.not_busy (h : w.Anchored) {fd : ℕ} (hbusy : w.busy k fd = false) (t : ℕ)
    (c : Parked) (hc : w.parked t = some c) : ¬ (c.proc = k ∧ c.fd = fd) := by
  intro hin
  have htrue : w.busy k fd := by
    refine List.any_eq_true.mpr ⟨t, List.mem_range.mpr (h t c hc).1, ?_⟩
    rw [hc, Option.any_some, decide_eq_true hin]
  simp [hbusy] at htrue

/-- The step keeps the counts right, and closes no descriptor in which a thread is parked. -/
def Gentle (w : World) (op : Op) : Prop := Tidy w op ∧
    match op with
    | .close k fd _ => w.busy k fd = false
    | .dup k fd (some n) _ _ => n ≠ fd → w.busy k n = false
    | _ => True

instance (w : World) (op : Op) : Decidable (Gentle w op) :=
  match op with
  | .close k fd _ => inferInstanceAs (Decidable (_ ∧ w.busy k fd = false))
  | .dup k fd (some n) _ _ => inferInstanceAs (Decidable (_ ∧ (n ≠ fd → w.busy k n = false)))
  | .dup _ _ none _ _ | .fork .. | .pipe .. | .open_ .. | .io .. | .resume .. | .poll .. | .spawn _
  | .execve _ | .exit _ | .janitorStart | .janitor => inferInstanceAs (Decidable (_ ∧ True))

theorem step_kept (h : w.Kept P) {op : Op} (htidy : Tidy w op) (hgentle : P → Gentle w op) :
    (step w op).Kept P := by
  cases op with
  | pipe k refused cloexec twoWay table rings =>
    exact sysPipe_kept h k refused cloexec twoWay table rings
  | dup k fd target table listing =>
    refine sysDup_kept h k fd target table listing htidy fun hP n hn hne => ?_
    subst hn
    exact (h.anchored hP).not_busy ((hgentle hP).2 hne)
  | close k fd table =>
    exact sysClose_kept h k fd table fun hP => (h.anchored hP).not_busy (hgentle hP).2
  | open_ k kind writable table buffer => exact sysOpen_kept h k kind writable table buffer
  | io k t fd e count mapped mem => exact sysPipeIo_kept h k t fd e count mapped mem
  | resume t mem => exact resume_kept h t mem
  | poll k fds => exact h
  | fork k r => exact sysFork_kept h k r htidy
  | spawn memory => exact appSpawn_kept h memory
  | execve k => exact sysExecve_kept h k
  | exit k => exact exit_kept h k
  | janitorStart => exact h.same ⟨rfl, rfl, rfl, rfl⟩ fun _ => rfl
  | janitor => exact vfsJanitor_kept h

theorem step_counted (h : w.Counted) {op : Op} (htidy : Tidy w op) : (step w op).Counted :=
  (step_kept (P := False) ⟨h, False.elim⟩ htidy False.elim).counted

/-- A machine that has no process and no ring yet. -/
structure World.Booted (w : World) : Prop where
  procs : ∀ k, w.procs k = none
  rings : ∀ r, w.rings r = none
  nextRing : w.nextRing = 0
  freed : w.freed = []
  retired : w.retired = []
  closing : w.closing = none
  parked : ∀ t, w.parked t = none

theorem World.Booted.counted (h : w.Booted) : w.Counted := by
  have hends : w.ends = 0 := by
    simp only [World.ends, h.retired, h.closing]
    have hsum : ∑ k ∈ Finset.range schedMaxThreads, tableEnds (w.files k) = 0 := by
      refine Finset.sum_eq_zero fun k _ => ?_
      rw [World.files, h.procs]
      rfl
    rw [hsum]
    rfl
  refine ⟨⟨fun k _ => h.procs k, ?_, fun f i hf => ?_⟩, ?_⟩
  · rw [h.retired]
    decide
  · simp [h.closing] at hf
  rw [hends]
  refine ⟨fun r => ?_, fun r c hc => ?_, fun r _ e => rfl, fun r hr => ?_, fun r _ => ?_⟩
  · simp [World.book, h.rings]
  · simp [World.book, h.rings] at hc
  · simp [World.book, h.nextRing] at hr
  · simp [World.book, h.freed]

/-- In every state of a history whose steps are tidy: the counts of a ring are the numbers of open
descriptors that read it and that write it, and it is freed, once, exactly when there are none. -/
theorem pipe_counts (w : World) (ops : List Op) (n : ℕ) (hboot : w.Booted)
    (htidy : Run.Meets step Tidy w ops) :
    let w' := (ops.take n).foldl step w
    (∀ r p, w'.rings r = some p → p.readers = w'.ends .read r ∧ p.writers = w'.ends .write r) ∧
    ∀ r < w'.nextRing,
        (w'.rings r = none ↔ w'.ends .read r = 0 ∧ w'.ends .write r = 0) ∧
        w'.freed.count r = if w'.ends .read r = 0 ∧ w'.ends .write r = 0 then 1 else 0 := by
  have hcounted : ((ops.take n).foldl step w).Counted :=
    Run.invariant_take (I := World.Counted) (fun _ _ h => step_counted h) hboot.counted htidy n
  generalize (ops.take n).foldl step w = w' at hcounted ⊢
  have hb := hcounted.balanced
  have hsides : ∀ r, (∀ e, w'.ends e r = 0) ↔ w'.ends .read r = 0 ∧ w'.ends .write r = 0 := by
    intro r
    refine ⟨fun h => ⟨h .read, h .write⟩, fun h e => ?_⟩
    cases e with
    | read => exact h.1
    | write => exact h.2
  refine ⟨fun r p hp => ?_, fun r hr => ⟨?_, ?_⟩⟩
  · have hc : (w'.book w'.ends).count r = some (Ring.counts p) := by simp [World.book, hp]
    exact ⟨hb.exact r _ hc .read, hb.exact r _ hc .write⟩
  · rw [← hsides, ← Option.map_eq_none_iff]
    exact hb.gone r
  split
  · rename_i hzero
    exact hb.once r hr ((hsides r).mpr hzero)
  rename_i hsome
  refine hb.kept r (.inr ?_)
  by_contra hnone
  refine hsome ((hsides r).mp fun e => ?_)
  by_contra he
  exact hnone ⟨e, he⟩

/-- A machine before its first program. -/
def bare : World where
  rings _ := none
  nextRing := 0
  freed := []
  heap := ∅
  nextObj := 0
  procs _ := none
  retired := []
  closing := none
  janitorUp := false
  parked _ := none

theorem bare_booted : bare.Booted := ⟨fun _ => rfl, fun _ => rfl, rfl, rfl, rfl, rfl, fun _ => rfl⟩

/-- A fork that gets everything it asks for. -/
def ForkAnswers.all : ForkAnswers := ⟨true, true, true, fun _ => true, true, true⟩

/-- A program makes a pipe, forks, and both processes end: the ring is freed once. -/
theorem pipe_counts_fork :
    let ops : List Op := [.spawn true, .pipe 0 none false false true true, .fork 0 .all,
      .close 0 4 true, .close 1 3 true, .exit 0, .exit 1]
    let w := (ops.take 7).foldl step bare
    w.nextRing = 1 ∧ w.freed.count 0 = if w.ends .read 0 = 0 ∧ w.ends .write 0 = 0 then 1
      else 0 := by
  have htidy : Run.Meets step Tidy bare [.spawn true, .pipe 0 none false false true true,
      .fork 0 .all, .close 0 4 true, .close 1 3 true, .exit 0, .exit 1] := by decide +kernel
  exact ⟨by decide +kernel, ((pipe_counts bare _ 7 bare_booted htidy).2 0 (by decide +kernel)).2⟩

/-- `dup` copies the pointer to the ring and leaves its count alone: two descriptors read the
ring, it counts one, and it is freed while the copy is still open. -/
theorem dup_uncounted :
    let w :=
      [Op.spawn true, .pipe 0 none false false true true, .dup 0 3 none true true].foldl step bare
    let w' := [Op.close 0 3 true, .close 0 4 true].foldl step w
    (w.rings 0).map Ring.readers = some 1 ∧ w.ends .read 0 = 2 ∧
      w'.freed = [0] ∧ w'.ends .read 0 = 1 := by
  decide +kernel

/-! ## Parked threads -/

open Option

variable {w' : World} {i : ℕ}

theorem World.Counted.ring_live (h : w.Counted) {r : ℕ} {e : Side}
    (hi : i < fdMax) (hf : (w.files k).isSome) (hring : (w.desc k i).ring e = some r) :
    (w.rings r).isSome ∧ r ∉ w.freed := by
  obtain ⟨f, hf⟩ := isSome_iff_exists.mp hf
  obtain ⟨p, hp, -⟩ := files_some hf
  have hle := desc_ends_le (h.shape.slot_lt hp) hf hi e r
  rw [desc_of_files hf] at hring
  rw [Desc.ends, if_pos hring] at hle
  have hheld : (w.book w.ends).held e r ≠ 0 := by
    show w.ends e r ≠ 0
    omega
  obtain ⟨c, hc⟩ := h.balanced.exists_count hheld
  obtain ⟨q, hq, -⟩ := map_eq_some_iff.mp hc
  refine ⟨by rw [hq]; rfl, List.count_eq_zero.mp (h.balanced.kept r (.inr ⟨e, hheld⟩))⟩

/-- In every state of a history whose steps are gentle, the ring that a thread is parked in has not
been freed. -/
theorem parked_ring_live (w : World) (ops : List Op) (n : ℕ) (hboot : w.Booted)
    (hgentle : Run.Meets step Gentle w ops) :
    let w' := (ops.take n).foldl step w
    ∀ t c, w'.parked t = some c → (w'.rings c.ring).isSome ∧ c.ring ∉ w'.freed := by
  have hanchored : w.Anchored := by
    intro t c hc
    simp [hboot.parked] at hc
  have hinv : ((ops.take n).foldl step w).Kept True :=
    Run.invariant_take (I := World.Kept True) (fun _ _ h hC => step_kept h hC.1 fun _ => hC)
      ⟨hboot.counted, fun _ => hanchored⟩ hgentle n
  intro w' t c hc
  obtain ⟨-, hfd, hfiles, hring⟩ := hinv.anchored trivial t c hc
  exact hinv.counted.ring_live hfd hfiles hring

/-- A thread parks in an empty pipe while its sibling makes another one and closes that. -/
theorem parked_ring_live_sibling :
    let ops : List Op := [.spawn true, .pipe 0 none false false true true,
      .io 0 7 3 .read 10 true fun _ => 0, .pipe 0 none false false true true, .close 0 5 true,
      .close 0 6 true]
    let w := (ops.take 6).foldl step bare
    w.freed = [1] ∧ (w.rings 0).isSome := by
  have hgentle : Run.Meets step Gentle bare [.spawn true, .pipe 0 none false false true true,
      .io 0 7 3 .read 10 true fun _ => 0, .pipe 0 none false false true true, .close 0 5 true,
      .close 0 6 true] := by decide +kernel
  exact ⟨by decide +kernel,
    (parked_ring_live bare _ 6 bare_booted hgentle 7 ⟨0, 3, 0, .read 10⟩ (by decide +kernel)).1⟩

/-- A thread is parked in a read, and its sibling closes both ends: the descriptors are not marked
busy, and the ring goes. -/
theorem ring_freed_under_reader :
    let w := [Op.spawn true, .pipe 0 none false false true true,
      .io 0 7 3 .read 10 true fun _ => 0].foldl step bare
    let w' := [Op.close 0 3 true, .close 0 4 true].foldl step w
    w.parked 7 = some ⟨0, 3, 0, .read 10⟩ ∧ w'.parked 7 = some ⟨0, 3, 0, .read 10⟩ ∧
      w'.freed = [0] ∧ (w'.rings 0).isNone := by
  decide +kernel

end Vextro.Descriptors
