import Mathlib.Algebra.GroupWithZero.Nat
import Mathlib.Algebra.BigOperators.Pi
import Vextro.Model.Descriptors
import Vextro.Verification.Shared.Holders
import Vextro.Verification.Shared.Shares

/-! Which descriptors are open on which rings, and what closing one of them does to the counts. -/

namespace Vextro.Descriptors

open Pipes Threads Shares Option

variable {d : Desc} {e : Side} {w w' : World} {h : Side → ℕ → ℕ} {f : Files} {i k : ℕ}

/-- The ring that a descriptor has on a side. -/
def Desc.ring (d : Desc) : Side → Option ℕ
  | .read => if d.kind = .pipe then d.prd else none
  | .write => if d.kind = .pipe then d.pwr else none

def Desc.ends (d : Desc) (e : Side) (r : ℕ) : ℕ := if d.ring e = some r then 1 else 0

def Files.ends (f : Files) : Side → ℕ → ℕ := ∑ i ∈ Finset.range fdMax, (f.d i).ends

def tableEnds (o : Option Files) : Side → ℕ → ℕ := o.elim 0 Files.ends

/-- The open descriptors that have the ring on that side: those of processes, those queued for the
janitor and those it is closing. -/
def World.ends (w : World) : Side → ℕ → ℕ :=
  ∑ k ∈ Finset.range schedMaxThreads, tableEnds (w.files k) + (w.retired.map Files.ends).sum +
    tableEnds (w.closing.map Prod.fst)

def Ring.counts (p : Ring) : Side → ℕ
  | .read => p.readers
  | .write => p.writers

/-- The rings, with the holders they should count. -/
def World.book (w : World) (held : Side → ℕ → ℕ) : Book Side where
  held
  count r := (w.rings r).map Ring.counts
  next := w.nextRing
  released := w.freed

abbrev Steps (b b' : Book Side) : Prop := Relation.ReflTransGen Book.Step b b'

/-! ## One end -/

/-- What an end of a descriptor holds. -/
def endOf (e : Side) (o : Option ℕ) : Side → ℕ → ℕ := o.elim 0 (one e)

theorem endOf_apply (e : Side) (o : Option ℕ) (e' : Side) (r : ℕ) :
    endOf e o e' r = if e' = e ∧ o = some r then 1 else 0 := by
  cases o with
  | none => simp [endOf]
  | some q => simp [endOf, one, eq_comm]

theorem Desc.ends_pipe (h : d.kind = .pipe) : d.ends = endOf .read d.prd + endOf .write d.pwr := by
  funext e r
  rw [Desc.ends, Pi.add_apply, Pi.add_apply, endOf_apply, endOf_apply]
  cases e with
  | read => simp [Desc.ring, h]
  | write => simp [Desc.ring, h]

theorem Desc.ends_zero (h : d.kind ≠ .pipe) : d.ends = 0 := by
  funext e r
  cases e with
  | read =>
    rw [Desc.ends, Desc.ring, if_neg h]
    rfl
  | write =>
    rw [Desc.ends, Desc.ring, if_neg h]
    rfl

theorem counts_lower (e : Side) (p : Ring) (r : ℕ) :
    Ring.counts (lower e p) = fun e' => Ring.counts p e' - one e r e' r := by
  funext e'
  cases e <;> cases e' <;> simp [lower, Ring.counts, one]

theorem counts_raise {p : Ring} (r : ℕ) (h : Ring.counts p e + 1 < 2 ^ 16) :
    Ring.counts (raise e p) = fun e' => Ring.counts p e' + one e r e' r := by
  funext e'
  cases e <;> cases e' <;> simp [raise, Ring.counts, one] <;> exact h

/-- Letting go of an end lowers its count, and frees the ring with the last. -/
theorem letGo_steps {o : Option ℕ} (hb : (w.book (h + endOf e o)).Balanced) :
    Steps (w.book (h + endOf e o)) ((w.letGo e o).book h) := by
  cases o with
  | none =>
    exact .refl
  | some r =>
    have hheld : (w.book (h + endOf e (some r))).held e r ≠ 0 := by
      show h e r + one e r e r ≠ 0
      rw [one_self]
      omega
    obtain ⟨c, hc⟩ := hb.exists_count hheld
    obtain ⟨p, hp, rfl⟩ := map_eq_some_iff.mp hc
    simp only [World.letGo, hp]
    have hcounts := counts_lower e p r
    split
    · rename_i hzero
      have hlast : ∀ e', Ring.counts p e' - one e r e' r = 0 := by
        intro e'
        rw [← congrFun hcounts e']
        cases e' with
        | read => exact hzero.1
        | write => exact hzero.2
      refine .single ?_
      convert Book.Step.drop (w.book (h + endOf e (some r))) h e r _ rfl hc hlast using 1
      simp only [World.book]
      congr 1
      exact Function.comp_update (Option.map Ring.counts) w.rings r none
    · rename_i hmore
      have hstill : ∃ e', Ring.counts p e' - one e r e' r ≠ 0 := by
        by_contra hnone
        refine hmore ⟨?_, ?_⟩
        · by_contra hr
          exact hnone ⟨.read, fun h0 => hr ((congrFun hcounts .read).trans h0)⟩
        · by_contra hr
          exact hnone ⟨.write, fun h0 => hr ((congrFun hcounts .write).trans h0)⟩
      refine .single ?_
      convert Book.Step.lower (w.book (h + endOf e (some r))) h e r _ rfl hc hstill using 1
      simp only [World.book]
      rw [← hcounts]
      congr 1
      exact Function.comp_update (Option.map Ring.counts) w.rings r _

/-- Holding an end of a live ring raises its count. -/
theorem hold_steps {o : Option ℕ} (hb : (w.book h).Balanced)
    (hlive : ∀ r, o = some r → ∃ e', h e' r ≠ 0) (hroom : ∀ e r, h e r + 1 < 2 ^ 16) :
    Steps (w.book h) ((w.hold e o).book (h + endOf e o)) := by
  cases o with
  | none =>
    exact .refl
  | some r =>
    obtain ⟨e', he'⟩ := hlive r rfl
    obtain ⟨c, hc⟩ := hb.exists_count he'
    obtain ⟨p, hp, rfl⟩ := map_eq_some_iff.mp hc
    have hcount : Ring.counts p e = h e r := hb.exact r _ hc e
    have hcounts :=
      counts_raise r (show Ring.counts p e + 1 < 2 ^ 16 by rw [hcount]; exact hroom e r)
    refine .single ?_
    convert Book.Step.raise (w.book h) e r _ hc using 1
    simp only [World.book, World.hold]
    congr 1
    funext q
    by_cases hq : q = r
    · subst hq
      simp [hp, hcounts]
    · simp [hq]

/-! ## What leaves the tables alone -/

/-- Rings and heap may differ, nothing else. -/
structure SameTables (w w' : World) : Prop where
  procs : w'.procs = w.procs
  retired : w'.retired = w.retired
  closing : w'.closing = w.closing
  parked : w'.parked = w.parked

theorem SameTables.refl (w : World) : SameTables w w := ⟨rfl, rfl, rfl, rfl⟩

namespace SameTables

variable (hs : SameTables w w')
include hs

theorem trans {w'' : World} (h' : SameTables w' w'') : SameTables w w'' :=
  ⟨h'.procs.trans hs.procs, h'.retired.trans hs.retired, h'.closing.trans hs.closing,
    h'.parked.trans hs.parked⟩

theorem files (k : ℕ) : w'.files k = w.files k := by
  rw [World.files, World.files, hs.procs]

theorem desc (k i : ℕ) : w'.desc k i = w.desc k i := by
  rw [World.desc, World.desc, hs.files]

theorem ends : w'.ends = w.ends := by
  simp only [World.ends, hs.files, hs.retired, hs.closing]

theorem setDesc (k i : ℕ) (d : Desc) :
    SameTables (w.setDesc k i d) (w'.setDesc k i d) := by
  refine ⟨?_, hs.retired, hs.closing, hs.parked⟩
  simp only [World.setDesc, World.setFiles, hs.files, hs.procs]

end SameTables

theorem kmalloc_same (w : World) : SameTables w w.kmalloc := ⟨rfl, rfl, rfl, rfl⟩

theorem kfree_same (w : World) (a : Option ℕ) : SameTables w (w.kfree a) := by
  cases a <;> exact ⟨rfl, rfl, rfl, rfl⟩

theorem kfree_book (w : World) (a : Option ℕ) (h : Side → ℕ → ℕ) :
    (w.kfree a).book h = w.book h := by
  cases a <;> rfl

theorem letGo_same (w : World) (e : Side) (o : Option ℕ) : SameTables w (w.letGo e o) := by
  cases o with
  | none => exact .refl w
  | some r =>
    rw [World.letGo]
    split
    · exact .refl w
    · dsimp only
      split <;> exact ⟨rfl, rfl, rfl, rfl⟩

theorem hold_same (w : World) (e : Side) (o : Option ℕ) : SameTables w (w.hold e o) := by
  cases o <;> exact ⟨rfl, rfl, rfl, rfl⟩

theorem vfsCloseDesc_same (w : World) (d : Desc) : SameTables w (vfsCloseDesc w d) := by
  rw [vfsCloseDesc]
  split
  · exact kfree_same w _
  · exact kfree_same w _
  · exact (letGo_same w _ _).trans (letGo_same _ _ _)
  · exact .refl w

theorem foldl_same {α : Type} {f : World → α → World} (hf : ∀ w x, SameTables w (f w x)) (w : World)
    (xs : List α) : SameTables w (xs.foldl f w) := by
  induction xs generalizing w with
  | nil => exact .refl w
  | cons x xs ih => exact (hf w x).trans (ih _)

theorem vfsTableDestroy_same (w : World) (f : Files) : SameTables w (vfsTableDestroy w f) :=
  (foldl_same (fun w i => vfsCloseDesc_same w (f.d i)) w _).trans (kfree_same _ _)

/-! ## Closing -/

/-- A descriptor that is closed gives up the ends it holds. -/
theorem vfsCloseDesc_steps (hb : (w.book (h + d.ends)).Balanced) :
    Steps (w.book (h + d.ends)) ((vfsCloseDesc w d).book h) := by
  by_cases hpipe : d.kind = .pipe
  · have hends : h + d.ends = h + endOf .write d.pwr + endOf .read d.prd := by
      rw [Desc.ends_pipe hpipe, add_comm (endOf .read d.prd), add_assoc]
    rw [hends] at hb ⊢
    have hread := letGo_steps hb
    simp only [vfsCloseDesc, hpipe]
    exact hread.trans (letGo_steps (hb.steps hread))
  rw [Desc.ends_zero hpipe, add_zero]
  have hbook : (vfsCloseDesc w d).book h = w.book h := by
    rw [vfsCloseDesc]
    split
    · exact kfree_book w _ h
    · exact kfree_book w _ h
    · contradiction
    · rfl
  rw [hbook]

/-- By induction on the number of descriptors closed. -/
theorem closeAll_steps (f : Files) (n : ℕ)
    (hb : (w.book (h + ∑ i ∈ Finset.range n, (f.d i).ends)).Balanced) :
    Steps (w.book (h + ∑ i ∈ Finset.range n, (f.d i).ends))
      (((List.range n).foldl (fun w i => vfsCloseDesc w (f.d i)) w).book h) := by
  induction n generalizing h with
  | zero =>
    exact .refl
  | succ n ih =>
    rw [Finset.sum_range_succ_comm, ← add_assoc] at hb ⊢
    have hfirst := ih hb
    rw [List.range_succ, List.foldl_append]
    exact hfirst.trans (vfsCloseDesc_steps (hb.steps hfirst))

theorem vfsTableDestroy_steps (hb : (w.book (h + f.ends)).Balanced) :
    Steps (w.book (h + f.ends)) ((vfsTableDestroy w f).book h) := by
  exact closeAll_steps f fdMax hb

/-! ## Changing a table -/

/-- Only the ends of the replaced descriptor change. -/
theorem Files.set_ends (f : Files) (hi : i < fdMax) (d : Desc) :
    (f.set i d).ends + (f.d i).ends = f.ends + d.ends := by
  have h := Holders.sum_change (f := fun j => ((f.set i d).d j).ends) (g := fun j => (f.d j).ends)
    (Finset.mem_range.mpr hi) fun j _ hj => by
      simp only [Files.set, Function.update_of_ne hj]
  have hself : (f.set i d).d i = d := by simp [Files.set]
  rwa [hself] at h

theorem Files.set_ends_idle (hi : i < fdMax) (h : (f.d i).ends = 0) (d : Desc) :
    (f.set i d).ends = f.ends + d.ends := by
  rw [← f.set_ends hi d, h, add_zero]

theorem Files.set_later {j : ℕ} (hj : i < j) (d : Desc) : (f.set i d).d j = f.d j :=
  Function.update_of_ne (Nat.ne_of_gt hj) _ _

theorem new_ends (a : ℕ) : (Files.new a).ends = 0 := by
  refine Finset.sum_eq_zero fun i _ => Desc.ends_zero ?_
  simp only [Files.new]
  split <;> decide

theorem files_setFiles (w : World) (k : ℕ) (o : Option Files) (j : ℕ) :
    (w.setFiles k o).files j = if j = k then (w.procs k).bind fun _ => o else w.files j := by
  simp only [World.files, World.setFiles]
  split
  · rename_i hj
    subst hj
    cases w.procs j <;> rfl
  · rfl

theorem files_some (h : w.files k = some f) :
    ∃ p, w.procs k = some p ∧ p.files = some f := bind_eq_some_iff.mp h

/-- A world that differs in one table differs in that table's ends. -/
theorem ends_change (hk : k < schedMaxThreads) (hfiles : ∀ j, j ≠ k → w'.files j = w.files j)
    (hretired : w'.retired = w.retired) (hclosing : w'.closing = w.closing) :
    w'.ends + tableEnds (w.files k) = w.ends + tableEnds (w'.files k) := by
  have h := Holders.sum_change (f := fun j => tableEnds (w'.files j))
    (g := fun j => tableEnds (w.files j)) (Finset.mem_range.mpr hk) fun j _ hj => by
      simp only [hfiles j hj]
  rw [World.ends, World.ends, hretired, hclosing, add_right_comm,
    add_right_comm _ _ (tableEnds (w.files k)), h, add_right_comm _ (tableEnds (w'.files k)),
    add_right_comm _ (tableEnds (w'.files k))]

theorem setFiles_ends (w : World) (hk : k < schedMaxThreads) {p : Proc} (hp : w.procs k = some p)
    (o : Option Files) :
    (w.setFiles k o).ends + tableEnds (w.files k) = w.ends + tableEnds o := by
  have hself : (w.setFiles k o).files k = o := by
    rw [files_setFiles, if_pos rfl, hp]
    rfl
  have h : (w.setFiles k o).ends + _ = w.ends + tableEnds ((w.setFiles k o).files k) :=
    ends_change hk (fun j hj => by rw [files_setFiles, if_neg hj]) rfl rfl
  rwa [hself] at h

theorem desc_of_files (h : w.files k = some f) (i : ℕ) : w.desc k i = f.d i := by
  rw [World.desc, h]
  rfl

theorem setDesc_ends (hk : k < schedMaxThreads) (hi : i < fdMax) (hf : (w.files k).isSome)
    (d : Desc) :
    (w.setDesc k i d).ends + (w.desc k i).ends = w.ends + d.ends := by
  obtain ⟨f, hf⟩ := isSome_iff_exists.mp hf
  obtain ⟨p, hp, -⟩ := files_some hf
  have h := setFiles_ends w hk hp (some (f.set i d))
  have hset : w.setDesc k i d = w.setFiles k (some (f.set i d)) := by
    rw [World.setDesc, hf]
    rfl
  have htable := f.set_ends hi d
  rw [hf] at h
  rw [hset, desc_of_files hf]
  funext e r
  have h := congrFun (congrFun h e) r
  have htable := congrFun (congrFun htable e) r
  simp only [Pi.add_apply, tableEnds, elim_some] at h htable ⊢
  omega

theorem setDesc_files (w : World) (k i : ℕ) (d : Desc) (j : ℕ) :
    (w.setDesc k i d).files j = if j = k then (w.files k).map fun f => f.set i d
      else w.files j := by
  rw [World.setDesc, files_setFiles]
  split
  · rw [World.files]
    cases w.procs k <;> rfl
  · rfl

theorem setDesc_desc (hf : (w.files k).isSome) (d : Desc) (j : ℕ) :
    (w.setDesc k i d).desc k j = if j = i then d else w.desc k j := by
  obtain ⟨f, hf⟩ := isSome_iff_exists.mp hf
  rw [World.desc, setDesc_files, if_pos rfl, World.desc, hf]
  simp only [map_some, getD_some, Files.set]
  split
  · rename_i hj
    subst hj
    rw [Function.update_self]
  · rename_i hj
    rw [Function.update_of_ne hj]

theorem setDesc_isSome (hf : (w.files k).isSome) (i : ℕ) (d : Desc) :
    ((w.setDesc k i d).files k).isSome := by
  rwa [setDesc_files, if_pos rfl, isSome_map]

theorem setDesc_setDesc (w : World) (k i : ℕ) (d d' : Desc) :
    (w.setDesc k i d).setDesc k i d' = w.setDesc k i d' := by
  have hfiles : ((w.setDesc k i d).files k).map (fun f => f.set i d') =
      (w.files k).map fun f => f.set i d' := by
    rw [setDesc_files, if_pos rfl, map_map]
    congr 1
    funext f
    simp [Files.set]
  have htwice : ∀ o o' : Option Files, (w.setFiles k o).setFiles k o' = w.setFiles k o' := by
    intro o o'
    simp only [World.setFiles]
    congr 1
    funext j
    split
    · rw [map_map]
      rfl
    · rfl
  rw [World.setDesc, hfiles, World.setDesc, htwice, World.setDesc]

end Vextro.Descriptors
