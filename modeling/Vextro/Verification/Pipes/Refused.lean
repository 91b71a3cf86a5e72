import Vextro.Verification.Pipes.Counts

/-! What a fork that is refused leaves of the rings and of the heap. -/

namespace Vextro.Descriptors

open Pipes Threads Shares List

variable {w u : World} {g : Side → ℕ → ℕ} {d : Desc} {x : ℕ} {f : Files} {p : Proc}

/-! ## Rings on loan -/

/-- A ring with further holders. -/
def Ring.more (p : Ring) (a b : ℕ) : Ring :=
  { p with readers := p.readers + a, writers := p.writers + b }

/-- The rings of a world, with the holders `g` besides its own. -/
def World.lends (w : World) (g : Side → ℕ → ℕ) : ℕ → Option Ring :=
  fun r => (w.rings r).map fun p => Ring.more p (g .read r) (g .write r)

/-- Every ring has a holder, and room for those of one more table. -/
def World.RingsHeld (w : World) : Prop := ∀ r p, w.rings r = some p →
    (p.readers ≠ 0 ∨ p.writers ≠ 0) ∧ p.readers + fdMax < 2 ^ 16 ∧ p.writers + fdMax < 2 ^ 16

theorem World.Counted.ringsHeld (h : w.Counted) : w.RingsHeld := by
  intro r p hp
  have hc : (w.book w.ends).count r = some (Ring.counts p) := by simp [World.book, hp]
  have hread : p.readers = w.ends .read r := h.balanced.exact r _ hc .read
  have hwrite : p.writers = w.ends .write r := h.balanced.exact r _ hc .write
  have hroom : ∀ e, w.ends e r + fdMax < 2 ^ 16 := by
    intro e
    have := h.shape.ends_le e r
    simp only [schedMaxThreads, vfsRetireMax, fdMax] at this ⊢
    omega
  refine ⟨?_, by rw [hread]; exact hroom .read, by rw [hwrite]; exact hroom .write⟩
  obtain ⟨e, he⟩ := h.balanced.exists_held hc
  cases e with
  | read => exact .inl (by rw [hread]; exact he)
  | write => exact .inr (by rw [hwrite]; exact he)

theorem lends_zero (w : World) : w.lends 0 = w.rings := by
  funext r
  rw [World.lends]
  cases w.rings r <;> rfl

theorem endOf_ne {e e' : Side} {q r : ℕ} (hq : q ≠ r) : endOf e (some r) e' q = 0 := by
  simp [endOf_apply, Ne.symm hq]

theorem hold_lends (h : w.RingsHeld) (hu : u.rings = w.lends g) (e : Side) (o : Option ℕ)
    (hroom : ∀ r, g e r < fdMax) :
    (u.hold e o).rings = w.lends (g + endOf e o) := by
  cases o with
  | none =>
    rwa [show g + endOf e none = g from add_zero g]
  | some r =>
    funext q
    simp only [World.hold, hu, World.lends]
    by_cases hq : q = r
    · subst hq
      cases hp : w.rings q with
      | none => simp
      | some p =>
        obtain ⟨_, hr, hw⟩ := h q p hp
        have := hroom q
        cases e <;>
          simp [raise, Ring.more, endOf, one] <;>
          omega
    · simp [hq, endOf_ne hq]

theorem letGo_lends (h : w.RingsHeld) {e : Side} {o : Option ℕ}
    (hu : u.rings = w.lends (g + endOf e o)) :
    (u.letGo e o).rings = w.lends g := by
  cases o with
  | none =>
    rwa [show g + endOf e none = g from add_zero g] at hu
  | some r =>
    have hother : ∀ q, q ≠ r → u.rings q = w.lends g q := by
      intro q hq
      rw [hu]
      simp [World.lends, endOf_ne hq]
    cases hp : w.rings r with
    | none =>
      have hnone : u.rings r = none := by
        rw [hu]
        simp [World.lends, hp]
      simp only [World.letGo, hnone]
      funext q
      by_cases hq : q = r
      · rw [hq, hnone]
        simp [World.lends, hp]
      · exact hother q hq
    | some p =>
      obtain ⟨hheld, _⟩ := h r p hp
      have hsome : u.rings r = some (Ring.more p (g .read r + endOf e (some r) .read r)
            (g .write r + endOf e (some r) .write r)) := by
        rw [hu]
        simp [World.lends, hp]
      have hlower : lower e (Ring.more p (g .read r + endOf e (some r) .read r)
          (g .write r + endOf e (some r) .write r)) = Ring.more p (g .read r) (g .write r) := by
        cases e <;> simp [lower, Ring.more, endOf, one]
      simp only [World.letGo, hsome, hlower]
      rw [if_neg]
      · funext q
        by_cases hq : q = r
        · subst hq
          simp [World.lends, hp]
        · exact (Function.update_of_ne hq _ _).trans (hother q hq)
      · simp only [Ring.more]
        omega

theorem kfree_rings (w : World) (a : Option ℕ) : (w.kfree a).rings = w.rings := by
  cases a <;> rfl

theorem vfsCloseDesc_lends (h : w.RingsHeld) (hu : u.rings = w.lends (g + d.ends)) :
    (vfsCloseDesc u d).rings = w.lends g := by
  by_cases hpipe : d.kind = .pipe
  · have hends : g + d.ends = g + endOf .write d.pwr + endOf .read d.prd := by
      rw [Desc.ends_pipe hpipe, add_comm (endOf .read d.prd), add_assoc]
    rw [hends] at hu
    simp only [vfsCloseDesc, hpipe]
    exact letGo_lends h (letGo_lends h hu)
  rw [Desc.ends_zero hpipe, add_zero] at hu
  rw [← hu, vfsCloseDesc]
  split
  · exact kfree_rings u _
  · exact kfree_rings u _
  · contradiction
  · rfl

theorem closeAll_lends (h : w.RingsHeld) (f : Files) (n : ℕ)
    (hu : u.rings = w.lends (g + ∑ i ∈ Finset.range n, (f.d i).ends)) :
    ((List.range n).foldl (fun w i => vfsCloseDesc w (f.d i)) u).rings = w.lends g := by
  induction n generalizing g with
  | zero =>
    rwa [Finset.range_zero, Finset.sum_empty] at hu
  | succ n ih =>
    rw [Finset.sum_range_succ_comm, ← add_assoc] at hu
    rw [range_succ, foldl_append]
    exact vfsCloseDesc_lends h (ih hu)

/-! ## Blocks of the heap -/

/-- The block that a descriptor owns. -/
def Desc.block (d : Desc) : Option ℕ :=
  match d.kind with
  | .file => d.wbuf
  | .dir => d.ents
  | _ => none

theorem mem_kfree {a : Option ℕ} : x ∈ (w.kfree a).heap ↔ x ∈ w.heap ∧ a ≠ some x := by
  cases a with
  | none => simp [World.kfree]
  | some a => simp [World.kfree, and_comm, eq_comm]

theorem letGo_heap (w : World) (e : Side) (o : Option ℕ) : (w.letGo e o).heap = w.heap := by
  cases o with
  | none => rfl
  | some r =>
    rw [World.letGo]
    split
    · rfl
    · dsimp only
      split <;> rfl

theorem mem_vfsCloseDesc : x ∈ (vfsCloseDesc w d).heap ↔ x ∈ w.heap ∧ d.block ≠ some x := by
  cases hk : d.kind with
  | file => simp only [vfsCloseDesc, Desc.block, hk, mem_kfree]
  | dir => simp only [vfsCloseDesc, Desc.block, hk, mem_kfree]
  | pipe => simp [vfsCloseDesc, Desc.block, hk, letGo_heap]
  | free | console | sock | dev => simp [vfsCloseDesc, Desc.block, hk]

theorem mem_closeAll (f : Files) (n : ℕ) :
    x ∈ ((List.range n).foldl (fun w i => vfsCloseDesc w (f.d i)) w).heap ↔
      x ∈ w.heap ∧ ∀ i < n, (f.d i).block ≠ some x := by
  induction n with
  | zero => simp
  | succ n ih =>
    rw [range_succ, foldl_append, foldl_cons, foldl_nil, mem_vfsCloseDesc, ih,
      Nat.forall_lt_succ_right, and_assoc]

theorem mem_vfsTableDestroy : x ∈ (vfsTableDestroy w f).heap ↔
      x ∈ w.heap ∧ (∀ i < fdMax, (f.d i).block ≠ some x) ∧ x ≠ f.addr := by
  rw [vfsTableDestroy, mem_kfree, mem_closeAll, and_assoc]
  simp [eq_comm]

/-! ## A copy of the table -/

/-- A table that was copied out of `w`: what its ends hold is on loan, and its blocks are new. -/
structure Copied (w u : World) (f : Files) : Prop where
  rings : u.rings = w.lends f.ends
  heap : ∀ x, x ∈ u.heap ↔ x ∈ w.heap ∨ x = f.addr ∨ ∃ i < fdMax, (f.d i).block = some x
  addr : f.addr = w.nextObj
  blocks : ∀ i x, (f.d i).block = some x → w.nextObj ≤ x
  next : w.nextObj < u.nextObj

/-- The table goes, and everything is as before. -/
theorem Copied.undone (h : Copied w u f) (hrings : w.RingsHeld)
    (hheap : ∀ x ∈ w.heap, x < w.nextObj) :
    (vfsTableDestroy u f).rings = w.rings ∧ (vfsTableDestroy u f).heap = w.heap := by
  constructor
  · rw [vfsTableDestroy, ← lends_zero w]
    refine closeAll_lends hrings f fdMax ?_
    rw [zero_add]
    exact h.rings
  ext x
  rw [mem_vfsTableDestroy, h.heap x]
  constructor
  · rintro ⟨hx | hx | ⟨i, hi, hb⟩, hnot, hne⟩
    · exact hx
    · exact absurd hx hne
    · exact absurd hb (hnot i hi)
  intro hx
  have hlt := hheap x hx
  refine ⟨.inl hx, fun i _ hb => ?_, ?_⟩
  · have := h.blocks i x hb
    omega
  · have := h.addr
    omega

/-- The copy is refused a block, or has one of its own if there is one to copy. -/
theorem cloneDesc_blocks {s : Desc} {memory : Bool} {o : Option Desc}
    (h : cloneDesc w s memory = (u, o)) :
    (s.kind ≠ .pipe → u.rings = w.rings) ∧
      (o = none ∧ s.block.isSome ∧ memory = false ∧ u = w ∨
        ∃ d, o = some d ∧ (s.block.isSome → memory = true) ∧
        (∀ x, x ∈ u.heap ↔ x ∈ w.heap ∨ d.block = some x) ∧
          (∀ x, d.block = some x → x = w.nextObj) ∧ w.nextObj ≤ u.nextObj) := by
  rw [cloneDesc] at h
  split at h
  case h_1 hk | h_2 hk =>
    simp only [Desc.block, hk]
    split at h
    · rename_i hsome
      split at h
      · rename_i hno
        cases h
        exact ⟨fun _ => rfl, .inl ⟨rfl, hsome, by simpa using hno, rfl⟩⟩
      rename_i hyes
      cases h
      refine ⟨fun _ => rfl, .inr ⟨_, rfl, fun _ => by simpa using hyes, ?_, ?_, Nat.le_succ _⟩⟩
      · simp [World.kmalloc, hk, or_comm, eq_comm]
      · simp [hk, eq_comm]
    · rename_i hnone
      cases h
      exact ⟨fun _ => rfl,
        .inr ⟨_, rfl, fun hb => absurd hb hnone, by simp_all, by simp_all, le_rfl⟩⟩
  · rename_i hk
    cases h
    have hheap : ∀ (w : World) (e : Side) (o : Option ℕ), (w.hold e o).heap = w.heap ∧
        (w.hold e o).nextObj = w.nextObj := by
      intro w e o
      cases o <;> exact ⟨rfl, rfl⟩
    simp [Desc.block, hk, hheap]
  · cases h
    have hblock : ∀ d : Desc, d.kind = s.kind → d.block = none := by
      intro d hd
      rw [Desc.block, hd]
      split
      · contradiction
      · contradiction
      · rfl
    simp [hblock]

theorem cloneDesc_lends {u' : World} {s : Desc}
    {memory : Bool} (h : w.RingsHeld) (hu : u.rings = w.lends g) (hroom : ∀ e r, g e r < fdMax)
    (heq : cloneDesc u s memory = (u', some d)) : u'.rings = w.lends (g + d.ends) := by
  obtain ⟨-, hends, hcase⟩ := cloneDesc_cases heq
  rw [hends d rfl]
  rcases hcase with ⟨hk, -, rfl⟩ | ⟨hk, -⟩
  · have hread := hold_lends h hu .read s.prd (hroom .read)
    have hroom' : ∀ r, (g + endOf .read s.prd) .write r < fdMax := by
      intro r
      rw [Pi.add_apply, Pi.add_apply, endOf_apply, if_neg (by simp)]
      exact hroom .write r
    rw [hold_lends h hread .write s.pwr hroom', Desc.ends_pipe hk, add_assoc]
  · rw [Desc.ends_zero hk, add_zero, ← hu]
    exact (cloneDesc_blocks heq).1 hk

theorem idle_block (h : d.kind.idle) : d.block = none := by
  rw [Desc.block]
  cases hk : d.kind with
  | file | dir =>
    rw [hk] at h
    cases h
  | _ => rfl

theorem Copied.set {u' : World} {i : ℕ} (h : Copied w u f)
    (hi : i < fdMax) (hidle : (f.d i).kind.idle) (hrings : u'.rings = w.lends (f.ends + d.ends))
    (hheap : ∀ x, x ∈ u'.heap ↔ x ∈ u.heap ∨ d.block = some x)
    (hblock : ∀ x, d.block = some x → w.nextObj ≤ x) (hnext : u.nextObj ≤ u'.nextObj) :
    Copied w u' (f.set i d) := by
  have hget : ∀ j, ((f.set i d).d j).block = if j = i then d.block else (f.d j).block := by
    intro j
    simp only [Files.set]
    by_cases hj : j = i
    · subst hj
      simp
    · simp [hj]
  refine ⟨?_, fun x => ?_, h.addr, fun j x hx => ?_, h.next.trans_le hnext⟩
  · rwa [Files.set_ends_idle hi (idle_ends hidle)]
  · rw [hheap x, h.heap x]
    constructor
    · rintro ((hx | hx | ⟨j, hj, hb⟩) | hb)
      · exact .inl hx
      · exact .inr (.inl hx)
      · refine .inr (.inr ⟨j, hj, ?_⟩)
        rw [hget, if_neg]
        · exact hb
        rintro rfl
        simp [idle_block hidle] at hb
      · refine .inr (.inr ⟨i, hi, ?_⟩)
        rwa [hget, if_pos rfl]
    · rintro (hx | hx | ⟨j, hj, hb⟩)
      · exact .inl (.inl hx)
      · exact .inl (.inr (.inl hx))
      rw [hget] at hb
      split at hb
      · exact .inr hb
      · exact .inl (.inr (.inr ⟨j, hj, hb⟩))
  · rw [hget] at hx
    split at hx
    · exact hblock x hx
    · exact h.blocks j x hx

/-- The loop of `vfs_clone_table`, wherever it ends. -/
theorem cloneFrom_copied (hw : w.RingsHeld) (src : ℕ → Desc)
    (memory : ℕ → Bool) (n : ℕ) {i : ℕ} (hin : i + n = fdMax) {dst : Files} (h : Copied w u dst)
    (hidle : ∀ j, i ≤ j → (dst.d j).kind.idle) (hends : ∀ e r, dst.ends e r ≤ i) :
    let c := cloneFrom src memory i n u dst
    Copied w c.1 c.2.1 ∧
      (c.2.2 = true ↔ ∀ j, i ≤ j → j < fdMax → (src j).block.isSome → memory j = true) := by
  induction n generalizing i u dst with
  | zero =>
    refine ⟨h, fun _ j hj hlt => ?_, fun _ => rfl⟩
    omega
  | succ n ih =>
    have hi : i < fdMax := by omega
    have hset := Files.set_ends_idle hi (idle_ends (hidle i le_rfl))
    -- what holds of this descriptor decides, together with the rest
    have hsplit : ∀ ok : Bool, ((src i).block.isSome → memory i = true) →
        (ok = true ↔ ∀ j, i + 1 ≤ j → j < fdMax → (src j).block.isSome → memory j = true) →
        (ok = true ↔ ∀ j, i ≤ j → j < fdMax → (src j).block.isSome → memory j = true) := by
      intro ok hhere hrest
      refine hrest.trans ⟨fun hall j hj hlt hb => ?_, fun hall j hj => hall j (by omega)⟩
      rcases Nat.eq_or_lt_of_le hj with rfl | hj
      · exact hhere hb
      · exact hall j hj hlt hb
    rw [cloneFrom]
    split
    · rename_i hskip
      have hnone : (src i).block = none := by
        rcases hskip with hk | hk
        · exact idle_block hk
        · rw [Desc.block, hk]
      obtain ⟨hcopied, hok⟩ := ih (by omega) h (fun j hj => hidle j (by omega))
        fun e r => (hends e r).trans (Nat.le_succ i)
      refine ⟨hcopied, hsplit _ (fun hb => ?_) hok⟩
      simp [hnone] at hb
    · split
      · rename_i v hv
        obtain ⟨-, ⟨-, hb, hno, rfl⟩ | ⟨d, hd, -⟩⟩ := cloneDesc_blocks hv
        · refine ⟨h.set hi (hidle i le_rfl) ?_ (fun x => ?_) (fun x hx => ?_) le_rfl, ?_⟩
          · rw [reset_ends, add_zero]
            exact h.rings
          · simp [Desc.block, Desc.reset]
          · simp [Desc.block, Desc.reset] at hx
          refine ⟨fun hfalse => absurd hfalse Bool.false_ne_true, fun hall => ?_⟩
          simp [hall i le_rfl hi hb] at hno
        · cases hd
      · rename_i v o hv
        have hroom : ∀ e r, dst.ends e r < fdMax := fun e r => (hends e r).trans_lt hi
        have hrings := cloneDesc_lends hw h.rings hroom hv
        obtain ⟨-, ⟨hnone, -⟩ | ⟨d, hd, hyes, hheap, hblock, hobj⟩⟩ := cloneDesc_blocks hv
        · cases hnone
        cases hd
        have hput : Copied w v (dst.set i o) :=
          h.set hi (hidle i le_rfl) hrings hheap (fun x hx => hblock x hx ▸ h.next.le) hobj
        have hlater : ∀ j, i + 1 ≤ j → ((dst.set i o).d j).kind.idle := fun j hj => by
          rw [Files.set_later hj]
          exact hidle j (by omega)
        obtain ⟨hcopied, hok⟩ := ih (by omega) hput hlater fun e r => by
          rw [hset]
          exact Nat.add_le_add (hends e r) (o.ends_le e r)
        exact ⟨hcopied, hsplit _ hyes hok⟩

theorem vfsCloneTable_copied (hw : w.RingsHeld) {table ok : Bool} {memory : ℕ → Bool}
    {files : Option Files} (h : vfsCloneTable w p table memory = (u, files, ok)) :
    files = none ∧ u = w ∧ (ok = true ∧ p.files = none ∨ ok = false ∧ table = false) ∨
      ∃ src f, p.files = some src ∧ table ∧ files = some f ∧ Copied w u f ∧
        (ok = true ↔ ∀ j < fdMax, (src.d j).block.isSome → memory j = true) := by
  have hidle : ∀ j, ((Files.new w.nextObj).d j).kind.idle := by
    intro j
    simp only [Files.new]
    split <;> rfl
  have hstart : Copied w w.kmalloc (.new w.nextObj) := by
    refine ⟨?_, fun x => ?_, rfl, fun i x hx => ?_, Nat.lt_succ_self _⟩
    · rw [new_ends, lends_zero]
      rfl
    · have hnone : ¬ ∃ i < fdMax, ((Files.new w.nextObj).d i).block = some x := by
        rintro ⟨i, _, hb⟩
        simp [idle_block (hidle i)] at hb
      rw [World.kmalloc, Finset.mem_insert, or_comm, or_iff_left hnone]
      rfl
    · simp [idle_block (hidle i)] at hx
  rw [vfsCloneTable] at h
  cases hsrc : p.files with
  | none =>
    rw [hsrc] at h
    obtain ⟨rfl, rfl, rfl⟩ : w = u ∧ none = files ∧ true = ok := by simpa using h
    exact .inl ⟨rfl, rfl, .inl ⟨rfl, rfl⟩⟩
  | some src =>
    rw [hsrc] at h
    cases table with
    | false =>
      obtain ⟨rfl, rfl, rfl⟩ : w = u ∧ none = files ∧ false = ok := by simpa using h
      exact .inl ⟨rfl, rfl, .inr ⟨rfl, rfl⟩⟩
    | true =>
      obtain ⟨hcopied, hok⟩ := cloneFrom_copied hw src.d memory fdMax (Nat.zero_add _) hstart
        (fun j _ => hidle j) fun e r => by
          rw [new_ends]
          exact Nat.le_refl 0
      obtain ⟨rfl, rfl, rfl⟩ := h
      exact .inr ⟨src, _, rfl, rfl, rfl, hcopied,
        hok.trans ⟨fun h j => h j (Nat.zero_le j), fun h j _ => h j⟩⟩

/-! ## Fork -/

/-- The child got its table and whatever else it needs, and then no thread: nobody gives the table
back. -/
def Orphans (w : World) (k : ℕ) (r : ForkAnswers) : Prop :=
  ∃ p f, w.procs k = some p ∧ p.files = some f ∧ r.space = true ∧ r.pages = true ∧
    r.table = true ∧ (∀ j < fdMax, (f.d j).block.isSome → r.copies j = true) ∧
    (p.sig.isSome → r.sig = true) ∧ (r.thread = false ∨ w.freeSlot = none)

/-- Nothing in the heap has the address of a block to come. -/
def World.Fresh (w : World) : Prop := ∀ x ∈ w.heap, x < w.nextObj

theorem World.Fresh.kmalloc (h : w.Fresh) : w.kmalloc.Fresh := by
  intro x hx
  rcases Finset.mem_insert.mp hx with rfl | hx
  · exact Nat.lt_succ_self _
  · exact (h x hx).trans (Nat.lt_succ_self _)

theorem World.Fresh.returned (h : w.Fresh) (hu : u.heap = w.kmalloc.heap) :
    (u.kfree (some w.nextObj)).heap = w.heap := by
  rw [World.kfree, hu]
  refine Finset.erase_insert fun hx => ?_
  exact absurd (h _ hx) (Nat.lt_irrefl _)

/-- The same for the child's signal state, where it is to have one. -/
theorem World.Fresh.withSig (h : w.Fresh) (p : Proc) :
    ((w.withSig p).kfree (p.sig.map fun _ => w.nextObj)).rings = w.rings ∧
      ((w.withSig p).kfree (p.sig.map fun _ => w.nextObj)).heap = w.heap := by
  rw [World.withSig]
  cases p.sig with
  | none => exact ⟨rfl, rfl⟩
  | some _ => exact ⟨rfl, h.returned rfl⟩

theorem mem_withSig (hx : x ∈ w.heap) (hlt : x < w.nextObj) :
    x ∈ ((w.withSig p).kfree (p.sig.map fun _ => w.nextObj)).heap := by
  rw [World.withSig, mem_kfree]
  cases p.sig with
  | none => exact ⟨hx, by simp⟩
  | some _ =>
    refine ⟨Finset.mem_insert_of_mem hx, fun h => ?_⟩
    exact absurd (Option.some.inj h) (Nat.ne_of_gt hlt)

theorem freeSlot_of_clone {table ok : Bool} {memory : ℕ → Bool} {files : Option Files}
    (h : vfsCloneTable w.kmalloc p table memory = (u, files, ok)) : u.freeSlot = w.freeSlot := by
  have hsame := vfsCloneTable_same w.kmalloc p table memory
  rw [h] at hsame
  exact hsame.freeSlot

theorem Orphans.refused {k : ℕ} {r : ForkAnswers} (h : Orphans w k r) :
    (sysFork w k r).2 = none := by
  obtain ⟨p, f, -, -, -, -, -, -, -, hthread⟩ := h
  rcases sysFork_cases w k r with ⟨-, heq⟩ | ⟨p, -, -, ⟨-, heq⟩ | ⟨-, u, files, ok, hu, hcase⟩⟩
  · rw [heq]
  · rw [heq]
  rcases hcase with ⟨-, heq⟩ | ⟨-, -, ⟨-, heq⟩ | ⟨c, hyes, hslot, -⟩⟩
  · rw [heq]
  · rw [heq]
  rw [freeSlot_of_clone hu] at hslot
  rcases hthread with hno | hno
  · simp [hno] at hyes
  · simp [hno] at hslot

/-- A refused fork leaves rings and heap as they were, unless it was refused a thread when it had a
table already. -/
theorem sysFork_undone (hrings : w.RingsHeld) (hfresh : w.Fresh) {k : ℕ} {r : ForkAnswers}
    (hnone : (sysFork w k r).2 = none) :
    ((sysFork w k r).1.rings = w.rings ∧ (sysFork w k r).1.heap = w.heap) ↔ ¬ Orphans w k r := by
  have hkeep : ∀ u : World, u.rings = w.rings → u.heap = w.kmalloc.heap →
      (u.kfree (some w.nextObj)).rings = w.rings ∧ (u.kfree (some w.nextObj)).heap = w.heap :=
    fun u hr hh => ⟨(kfree_rings u _).trans hr, hfresh.returned hh⟩
  rcases sysFork_cases w k r with ⟨hstop, heq⟩ |
    ⟨p, hp, hspace, ⟨hpages, heq⟩ | ⟨hpages, u, files, ok, hu, hcase⟩⟩
  · rw [heq]
    refine ⟨fun _ => ?_, fun _ => ⟨rfl, rfl⟩⟩
    rintro ⟨p, f, hp, -, hspace, -⟩
    rcases hstop with hstop | hstop
    · simp [hp] at hstop
    · simp [hspace] at hstop
  · rw [heq]
    refine ⟨fun _ => ?_, fun _ => hkeep _ rfl rfl⟩
    rintro ⟨p, f, -, -, -, hyes, -⟩
    simp [hpages] at hyes
  have hslot := freeSlot_of_clone hu
  have hclone := vfsCloneTable_copied (w := w.kmalloc) hrings hu
  rcases hcase with ⟨hstop, heq⟩ | ⟨rfl, hsig, ⟨hthread, heq⟩ | ⟨c, -, -, heq⟩⟩
  · -- whatever was copied is given back
    have hundone : ((files.map fun f => vfsTableDestroy u f).getD u).rings = w.rings ∧
        ((files.map fun f => vfsTableDestroy u f).getD u).heap = w.kmalloc.heap := by
      rcases hclone with ⟨rfl, rfl, -⟩ | ⟨src, f, -, -, rfl, hcopied, -⟩
      · exact ⟨rfl, rfl⟩
      · exact hcopied.undone hrings hfresh.kmalloc
    rw [heq]
    refine ⟨fun _ => ?_, fun _ => hkeep _ hundone.1 hundone.2⟩
    rintro ⟨p', f', hp', hf', -, -, htable, hcopies, hsig, -⟩
    obtain rfl := Option.some.inj (hp.symm.trans hp')
    rcases hstop with rfl | ⟨hsome, hno⟩
    · rcases hclone with ⟨-, -, ⟨hok, -⟩ | ⟨-, hno⟩⟩ | ⟨src, f, hsrc, -, -, -, hok⟩
      · cases hok
      · simp [htable] at hno
      · obtain rfl := Option.some.inj (hsrc.symm.trans hf')
        exact absurd (hok.mpr hcopies) Bool.false_ne_true
    · simp [hsig hsome] at hno
  · -- the thread is refused
    rw [heq]
    rcases hclone with ⟨-, rfl, ⟨-, hfiles⟩ | ⟨hno, -⟩⟩ | ⟨src, f, hsrc, htable, -, hcopied, hok⟩
    · refine ⟨fun _ => ?_, fun _ => ?_⟩
      · rintro ⟨p', f', hp', hf', -⟩
        obtain rfl := Option.some.inj (hp.symm.trans hp')
        simp [hfiles] at hf'
      · exact hkeep _ (hfresh.kmalloc.withSig p).1 (hfresh.kmalloc.withSig p).2
    · cases hno
    -- the table's own block is still there
    have horphan : Orphans w k r := by
      refine ⟨p, src, hp, hsrc, hspace, hpages, htable, hok.mp rfl, fun hsome => ?_, ?_⟩
      · cases hr : r.sig with
        | true => rfl
        | false => exact absurd ⟨hsome, hr⟩ hsig
      · rwa [← hslot]
    refine ⟨fun ⟨_, hheap⟩ => absurd ?_ (Nat.not_succ_lt_self (n := w.nextObj)),
      fun h => absurd horphan h⟩
    refine hfresh (w.nextObj + 1) ?_
    have hmem : w.nextObj + 1 ∈ u.heap := (hcopied.heap _).mpr (.inr (.inl hcopied.addr.symm))
    rw [← hheap, mem_kfree]
    exact ⟨mem_withSig hmem hcopied.next, by simp⟩
  · simp [heq] at hnone

end Vextro.Descriptors
