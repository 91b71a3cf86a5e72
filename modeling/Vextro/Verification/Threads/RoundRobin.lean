import Vextro.Model.Scheduler
import Vextro.Verification.Shared.Run
import Mathlib.Data.List.Nodup
import Mathlib.Data.List.Range
import Mathlib.Data.Nat.Find

/-! What `sched_pick` chooses, and when equals take turns.

The search starts one past the thread that ran last, so a thread of higher priority that runs in
between moves the point the rotation goes on from. Among equals the turn is kept as long as
that point stays on the arc from the one to the other. -/

namespace Vextro.Threads

open List Option

variable {s s' : Sched} {xs : List ℕ} {i b a c : ℕ} {cur : Option ℕ}

/-! ## The first of the greatest -/

/-- The thread in a slot once the search has passed over it. -/
def awake (s : Sched) (i : ℕ) : Option Thread := (s.threads i).map (wakeDue s.ticks)

/-- The slot holds a thread that is runnable, or asleep past its deadline. -/
def Sched.eligible (s : Sched) (i : ℕ) : Prop := ∃ t, awake s i = some t ∧ t.runnable = true

def Sched.prio (s : Sched) (i : ℕ) : ℕ := ((s.threads i).map Thread.prio).getD 0

/-- `b` is the first eligible slot of greatest priority in `xs`. -/
def FirstBest (s : Sched) (xs : List ℕ) : Option ℕ → Prop
  | none => ∀ j ∈ xs, ¬ s.eligible j
  | some i =>
    s.eligible i ∧ ∃ pre post,
      xs = pre ++ i :: post ∧ (∀ j ∈ pre, s.eligible j → s.prio j < s.prio i) ∧ ∀ j ∈ post,
      s.eligible j → s.prio j ≤ s.prio i

/-- The table once the slots `xs` have been passed over. -/
def passed (s : Sched) (xs : List ℕ) : Sched :=
  { s with threads := fun j => if j ∈ xs then awake s j else s.threads j }

@[simp] theorem wakeDue_prio (ticks : ℕ) (t : Thread) : (wakeDue ticks t).prio = t.prio := by
  unfold wakeDue
  split <;> rfl

@[simp] theorem passed_prio (s : Sched) (xs : List ℕ) (i : ℕ) :
    (passed s xs).prio i = s.prio i := by
  unfold Sched.prio passed awake
  dsimp only
  split
  · cases s.threads i <;> simp
  · rfl

theorem passed_snoc {t : Thread} (ht : s.threads i = some t) :
    (passed s xs).setThread i (wakeDue s.ticks t) = passed s (xs ++ [i]) := by
  unfold passed Sched.setThread awake
  congr 1
  funext j
  by_cases hj : j = i
  · subst hj
    simp [ht]
  · simp [hj]

theorem passed_none (ht : s.threads i = none) : passed s xs = passed s (xs ++ [i]) := by
  unfold passed awake
  congr 1
  funext j
  by_cases hj : j = i
  · subst hj
    simp [ht]
  · simp [hj]

/-- A slot that is not better than the best so far leaves it. -/
theorem FirstBest.keep (hb : FirstBest s xs (some b)) (hle : s.eligible i → s.prio i ≤ s.prio b) :
    FirstBest s (xs ++ [i]) (some b) := by
  obtain ⟨hel, pre, post, rfl, hpre, hpost⟩ := hb
  refine ⟨hel, pre, post ++ [i], by simp, hpre, fun j hj hej => ?_⟩
  rcases mem_append.mp hj with hj | hj
  · exact hpost j hj hej
  · rw [mem_singleton.mp hj] at hej ⊢
    exact hle hej

theorem FirstBest.skip {b : Option ℕ} (hb : FirstBest s xs b) (hi : ¬ s.eligible i) :
    FirstBest s (xs ++ [i]) b := by
  cases b with
  | none =>
    intro j hj
    rcases mem_append.mp hj with hj | hj
    · exact hb j hj
    · rwa [mem_singleton.mp hj]
  | some b => exact hb.keep fun hel => absurd hel hi

theorem FirstBest.replace (hb : FirstBest s xs (some b)) (hi : s.eligible i)
    (hlt : s.prio b < s.prio i) :
    FirstBest s (xs ++ [i]) (some i) := by
  obtain ⟨-, pre, post, rfl, hpre, hpost⟩ := hb
  refine ⟨hi, pre ++ b :: post, [], by simp, fun j hj hej => ?_, by simp⟩
  rcases mem_append.mp hj with hj | hj
  · exact (hpre j hj hej).trans hlt
  rcases mem_cons.mp hj with rfl | hj
  · exact hlt
  · exact (hpost j hj hej).trans_lt hlt

theorem pickVisit_passed {b : Option ℕ} (hi : i ∉ xs) (hb : FirstBest s xs b) :
    (pickVisit true (passed s xs, b) i).1 = passed s (xs ++ [i]) ∧
      FirstBest s (xs ++ [i]) (pickVisit true (passed s xs, b) i).2 := by
  have hslot : (passed s xs).threads i = s.threads i := by simp [passed, hi]
  unfold pickVisit
  rw [hslot]
  cases ht : s.threads i with
  | none =>
    refine ⟨passed_none ht, hb.skip ?_⟩
    rintro ⟨t, h, -⟩
    simp [awake, ht] at h
  | some t =>
    have hawake : awake s i = some (wakeDue s.ticks t) := by simp [awake, ht]
    have hprio : s.prio i = t.prio := by simp [Sched.prio, ht]
    have hticks : (passed s xs).ticks = s.ticks := rfl
    dsimp only
    rw [if_pos rfl, hticks, passed_snoc ht]
    by_cases hrun : (wakeDue s.ticks t).runnable = true
    · have hel : s.eligible i := ⟨_, hawake, hrun⟩
      rw [if_neg (by simp [hrun])]
      cases b with
      | none => exact ⟨rfl, hel, xs, [], rfl, fun j hj hej => absurd hej (hb j hj), by simp⟩
      | some b =>
        have hgetD : (((passed s (xs ++ [i])).threads b).map Thread.prio).getD 0 = s.prio b :=
          passed_prio s _ b
        dsimp only
        rw [hgetD, wakeDue_prio, ← hprio]
        by_cases hlt : s.prio b < s.prio i
        · rw [if_pos hlt]
          exact ⟨rfl, hb.replace hel hlt⟩
        · rw [if_neg hlt]
          exact ⟨rfl, hb.keep fun _ => not_lt.mp hlt⟩
    · rw [if_pos (by simpa using hrun)]
      refine ⟨rfl, hb.skip ?_⟩
      rintro ⟨u, hu, hur⟩
      rw [hawake] at hu
      cases hu
      exact hrun hur

theorem foldl_pickVisit (s : Sched) (hxs : xs.Nodup) :
    ∃ best, xs.foldl (pickVisit true) (s, none) = (passed s xs, best) ∧ FirstBest s xs best := by
  induction xs using reverseRecOn with
  | nil => exact ⟨none, by simp [passed], by simp [FirstBest]⟩
  | append_singleton xs i ih =>
    have hnd := nodup_append'.mp hxs
    have hi : i ∉ xs := fun h => hnd.2.2 h (mem_singleton.mpr rfl)
    obtain ⟨b, hs, hb⟩ := ih hnd.1
    rw [foldl_append, foldl_cons, hs]
    obtain ⟨hs', hb'⟩ := pickVisit_passed hi hb
    exact ⟨_, Prod.ext hs' rfl, hb'⟩

/-! ## The rotation -/

theorem pickOrder_nodup (cur : Option ℕ) : (pickOrder cur).Nodup := by
  refine List.Nodup.map_on (fun a ha b hb hab => ?_) nodup_range
  simp only [mem_range, schedMaxThreads] at ha hb hab
  omega

theorem mem_pickOrder : i ∈ pickOrder cur ↔ i < schedMaxThreads := by
  unfold pickOrder
  simp only [List.mem_map, mem_range, schedMaxThreads]
  constructor
  · rintro ⟨n, -, rfl⟩
    omega
  · intro hi
    refine ⟨(i + 64 - (cur.map (· + 1)).getD 0 % 64) % 64, by omega, by omega⟩

/-- `sched_pick` wakes every sleeper that is due and chooses the first runnable thread of
greatest priority. -/
theorem schedPick_spec (s : Sched) : ∃ best, schedPick s = (passed s (pickOrder s.cur), best) ∧
      FirstBest s (pickOrder s.cur) best := by
  obtain ⟨best, hfold, hb⟩ := foldl_pickVisit s (pickOrder_nodup s.cur)
  have haff : affine = false := rfl
  refine ⟨best, ?_, hb⟩
  simp only [schedPick, haff, Bool.not_false, Bool.or_true, if_true, hfold]

theorem FirstBest.lt (h : FirstBest s (pickOrder cur) (some i)) : i < schedMaxThreads := by
  obtain ⟨-, pre, post, hsplit, -⟩ := h
  have hmem : i ∈ pickOrder cur := by
    rw [hsplit]
    simp
  exact mem_pickOrder.mp hmem

theorem FirstBest.le {j : ℕ} (h : FirstBest s (pickOrder cur) (some i)) (hj : j < schedMaxThreads)
    (hel : s.eligible j) : s.prio j ≤ s.prio i := by
  obtain ⟨-, pre, post, hsplit, hpre, hpost⟩ := h
  have hmem : j ∈ pre ++ i :: post := hsplit ▸ mem_pickOrder.mpr hj
  rcases mem_append.mp hmem with hmem | hmem
  · exact (hpre j hmem hel).le
  rcases mem_cons.mp hmem with rfl | hmem
  · exact le_rfl
  · exact hpost j hmem hel

/-- The state in which an event asks `sched_pick`. -/
def Event.asked (s : Sched) : Event → Sched
  | .tick => { s with ticks := s.ticks + 1 }
  | _ => s

/-! ## What an event changes -/

/-- What a thread keeps from its registration on. -/
def Thread.ident (t : Thread) : Option ℕ × ℕ × ℕ × ℕ := (t.as, t.pid, t.prio, t.cpu)

def Sched.ident (s : Sched) (i : ℕ) : Option (Option ℕ × ℕ × ℕ × ℕ) :=
  (s.threads i).map Thread.ident

theorem Sched.prio_ident (s : Sched) (i : ℕ) :
    s.prio i = ((s.ident i).map fun x => x.2.2.1).getD 0 := by
  simp only [Sched.ident, Option.map_map]
  rfl

theorem Sched.prio_congr (h : s'.ident i = s.ident i) : s'.prio i = s.prio i := by
  rw [Sched.prio_ident, Sched.prio_ident, h]

/-- The same thread is current, and every slot holds the thread it held. -/
def Keeps (s s' : Sched) : Prop := s'.cur = s.cur ∧ ∀ j, s'.ident j = s.ident j

theorem Keeps.refl (s : Sched) : Keeps s s := ⟨rfl, fun _ => rfl⟩

theorem Keeps.trans {s'' : Sched} (h : Keeps s s') (h' : Keeps s' s'') : Keeps s s'' :=
  ⟨h'.1.trans h.1, fun j => (h'.2 j).trans (h.2 j)⟩

theorem setThread_keeps {t u : Thread} (ht : s.threads i = some t) (hu : u.ident = t.ident) :
    Keeps s (s.setThread i u) := by
  refine ⟨rfl, fun j => ?_⟩
  unfold Sched.ident Sched.setThread
  by_cases hj : j = i
  · subst hj
    simp [ht, hu]
  · simp [hj]

theorem modifyThread_keeps {f : Thread → Thread} (hf : ∀ t, (f t).ident = t.ident) (s : Sched)
    (i : ℕ) : Keeps s (s.modifyThread i f) := by
  unfold Sched.modifyThread
  split
  · exact .refl s
  · rename_i t ht
    exact setThread_keeps ht (hf t)

theorem modifyCur_keeps {f : Thread → Thread} (hf : ∀ t, (f t).ident = t.ident) (s : Sched) :
    Keeps s (s.modifyCur f) := by
  unfold Sched.modifyCur
  split
  · exact .refl s
  · exact modifyThread_keeps hf s _

theorem mapThreads_keeps {f : ℕ → Thread → Thread} (hf : ∀ i t, (f i t).ident = t.ident)
    (s : Sched) : Keeps s { s with threads := fun i => (s.threads i).map (f i) } := by
  refine ⟨rfl, fun j => ?_⟩
  unfold Sched.ident
  dsimp only
  cases s.threads j <;> simp [hf]

theorem schedSleepMs_keeps (ms : ℕ) (s : Sched) : Keeps s (schedSleepMs ms s) := by
  unfold schedSleepMs
  split
  · exact .refl s
  · exact modifyCur_keeps (fun _ => by rfl) s

theorem schedBlockOn_keeps (chan timeoutMs : ℕ) (s : Sched) :
    Keeps s (schedBlockOn chan timeoutMs s) := by
  unfold schedBlockOn
  split
  · exact .refl s
  · exact modifyCur_keeps (fun _ => by rfl) s

theorem schedBlockOnReturn_keeps (s : Sched) :
    Keeps s (schedBlockOnReturn s) := modifyCur_keeps (fun _ => by rfl) s

theorem schedWaitFrame_keeps (s : Sched) : Keeps s (schedWaitFrame s) := by
  unfold schedWaitFrame
  split
  · exact .refl s
  · exact modifyCur_keeps (fun _ => by rfl) s

theorem schedExit_keeps (code : Int) (s : Sched) :
    Keeps s (schedExit code s) := modifyCur_keeps (fun _ => by rfl) s

theorem wakeThread_ident (t : Thread) : (wakeThread t).ident = t.ident := by
  unfold wakeThread
  split <;> rfl

theorem wakeChanFrom_keeps (chan : ℕ) (all : Bool) (i n : ℕ) (s : Sched) :
    Keeps s (wakeChanFrom chan all i n s) := by
  induction n generalizing i s with
  | zero => exact .refl s
  | succ n ih =>
    unfold wakeChanFrom
    split
    · exact ih (i + 1) s
    rename_i t ht
    split
    · exact ih (i + 1) s
    have hset := setThread_keeps ht (wakeThread_ident { t with waitChan := 0 })
    split
    · exact hset.trans (ih (i + 1) _)
    · exact hset

theorem schedWakeChan_keeps (chan : ℕ) (all : Bool) (s : Sched) :
    Keeps s (schedWakeChan chan all s) := wakeChanFrom_keeps chan all 0 schedMaxThreads s

theorem pulseThread_ident (t : Thread) : (pulseThread t).ident = t.ident := by
  unfold pulseThread
  split
  · exact wakeThread_ident _
  · rfl

theorem schedFramePulse_keeps (s : Sched) : Keeps s (schedFramePulse s) := by
  refine ⟨rfl, fun j => ?_⟩
  unfold schedFramePulse Sched.ident
  dsimp only
  split
  · cases s.threads j <;> simp [pulseThread_ident]
  · rfl

theorem passed_keeps (s : Sched) (xs : List ℕ) : Keeps s (passed s xs) := by
  refine ⟨rfl, fun j => ?_⟩
  unfold Sched.ident passed awake
  dsimp only
  split
  · have hwake : ∀ t, (wakeDue s.ticks t).ident = t.ident := by
      intro t
      unfold wakeDue
      split <;> rfl
    cases s.threads j <;> simp [hwake]
  · rfl

theorem keepRunning_keeps (s : Sched) :
    Keeps s (keepRunning s) := modifyCur_keeps (fun t => by split <;> rfl) s

theorem switchTo_ident (s : Sched) (i j : ℕ) : (switchTo s i).ident j = s.ident j := by
  refine ((modifyThread_keeps (fun _ => by rfl) _ i).2 j).trans ?_
  exact (modifyCur_keeps (fun t => by split <;> rfl) s).2 j

theorem switchTo_cur (s : Sched) (i : ℕ) :
    (switchTo s i).cur = some i := (modifyThread_keeps (fun _ => by rfl) _ i).1

/-- The step either leaves the current thread, or dispatches what a search of `u` chooses. -/
def Dispatches (u s : Sched) (r : Sched × Option ℕ) : Prop := (∀ j, r.1.ident j = s.ident j) ∧
    ((r.2 = none ∧ r.1.cur = s.cur) ∨
      ∃ i, r.2 = some i ∧ r.1.cur = some i ∧ FirstBest u (pickOrder s.cur) (some i))

theorem Keeps.dispatches {u : Sched} (h : Keeps s s') :
    Dispatches u s (s', none) := ⟨h.2, .inl ⟨rfl, h.1⟩⟩

theorem schedOnTick_dispatches (soft : Bool) (s : Sched) :
    Dispatches (if soft then s else { s with ticks := s.ticks + 1 }) s (schedOnTick soft s) := by
  unfold schedOnTick
  generalize hu : (if soft then s else { s with ticks := s.ticks + 1 }) = u
  have hsu : Keeps s u := by
    rw [← hu]
    split <;> exact .refl s
  dsimp only
  split
  · exact hsu.dispatches
  split
  · exact hsu.dispatches
  obtain ⟨best, hpick, hb⟩ := schedPick_spec u
  rw [hpick]
  rw [hsu.1] at hb
  have hsw : Keeps s (passed u (pickOrder u.cur)) := hsu.trans (passed_keeps u _)
  generalize passed u (pickOrder u.cur) = w at hsw ⊢
  cases best with
  | none => exact (hsw.trans (keepRunning_keeps w)).dispatches
  | some i =>
    dsimp only
    split
    · rename_i hi
      have hk := keepRunning_keeps w
      exact ⟨(hsw.trans hk).2, .inr ⟨i, rfl, hk.1.trans hi.symm, hb⟩⟩
    · exact ⟨fun j => (switchTo_ident w i j).trans (hsw.2 j), .inr ⟨i, rfl, switchTo_cur w i, hb⟩⟩

/-- A slot keeps its thread, and the current thread changes only to the one dispatched. -/
theorem Event.run_dispatches (s : Sched) (e : Event) : Dispatches (e.asked s) s (e.run s) := by
  cases e with
  | tick => exact schedOnTick_dispatches false s
  | yield => exact schedOnTick_dispatches true s
  | sleepMs ms => exact (schedSleepMs_keeps ms s).dispatches
  | blockOn chan timeoutMs => exact (schedBlockOn_keeps chan timeoutMs s).dispatches
  | blockOnReturn => exact (schedBlockOnReturn_keeps s).dispatches
  | waitFrame => exact (schedWaitFrame_keeps s).dispatches
  | wakeChan chan all => exact (schedWakeChan_keeps chan all s).dispatches
  | framePulse => exact (schedFramePulse_keeps s).dispatches
  | exit code => exact (schedExit_keeps code s).dispatches
  | terminate slot code =>
    unfold Event.run
    dsimp only
    split
    · exact (Keeps.refl s).dispatches
    · exact (modifyThread_keeps (fun _ => by rfl) s slot).dispatches
  | preemptDisable => exact Keeps.dispatches ⟨rfl, fun _ => rfl⟩
  | preemptEnable => exact Keeps.dispatches ⟨rfl, fun _ => rfl⟩

theorem Event.step_ident (s : Sched) (e : Event) (j : ℕ) : (e.step s).ident j = s.ident j :=
  (Event.run_dispatches s e).1 j

theorem Event.step_prio (s : Sched) (e : Event) (j : ℕ) : (e.step s).prio j = s.prio j :=
  Sched.prio_congr (Event.step_ident s e j)

/-! ## Taking turns -/

/-- How many slots `b` comes after `a`. -/
def arc (a b : ℕ) : ℕ := (b + schedMaxThreads - a) % schedMaxThreads

/-- The slot holds a thread that is ready or running. -/
def Sched.runnableAt (s : Sched) (i : ℕ) : Prop := ∃ t, s.threads i = some t ∧ t.runnable = true

/-- A thread that could be dispatched before equals of `a` sits between `a` and `b`. -/
def HigherOnArc (a b : ℕ) (s : Sched) : Prop :=
  ∀ i < schedMaxThreads, s.eligible i → s.prio a < s.prio i → arc a i < arc a b

instance (s : Sched) (i : ℕ) : Decidable (s.eligible i) :=
  decidable_of_iff ((awake s i).any Thread.runnable = true) (any_eq_true _ _)

instance (s : Sched) (i : ℕ) : Decidable (s.runnableAt i) :=
  decidable_of_iff ((s.threads i).any Thread.runnable = true) (any_eq_true _ _)

instance (a b : ℕ) (s : Sched) : Decidable (HigherOnArc a b s) :=
  inferInstanceAs (Decidable (∀ i < schedMaxThreads, _))

theorem Sched.runnableAt.eligible (h : s.runnableAt i) : s.eligible i := by
  obtain ⟨t, ht, hr⟩ := h
  refine ⟨wakeDue s.ticks t, by simp [awake, ht], ?_⟩
  unfold wakeDue
  split
  · rfl
  · exact hr

theorem Sched.runnableAt.asked (h : s.runnableAt b) (e : Event) : (e.asked s).runnableAt b := by
  cases e <;> exact h

theorem Event.asked_prio (s : Sched) (e : Event) (i : ℕ) : (e.asked s).prio i = s.prio i := by
  cases e <;> rfl

/-- From a slot on the arc, the first of the greatest is not past `b` unless it is `b`. -/
theorem FirstBest.on_arc (ha : a < schedMaxThreads)
    (hb : b < schedMaxThreads) (hc : arc a c < arc a b) (hcN : c < schedMaxThreads)
    (hbest : FirstBest s (pickOrder (some c)) (some i)) (hel : s.eligible b)
    (hprio : s.prio i = s.prio b) : i = b ∨ (i ≠ a ∧ arc a i < arc a b) := by
  obtain ⟨-, pre, post, hsplit, hpre, -⟩ := hbest
  -- the position of `i` in the order, and the position of `b`, which is not before it
  have hlen : pre.length < schedMaxThreads := by
    have := congrArg length hsplit
    simp only [pickOrder, length_map, length_range, length_append, length_cons] at this
    omega
  have hi : i = (c + 1 + pre.length) % schedMaxThreads := by
    have hget : (pickOrder (some c))[pre.length]? = some i := by
      rw [hsplit]
      simp
    simp only [pickOrder, getElem?_map, getElem?_range hlen, map_some,
      some.injEq] at hget
    exact hget.symm
  by_contra hnot
  obtain ⟨hib, hnot⟩ := not_or.mp hnot
  have hbefore : ∃ k < pre.length, b = (c + 1 + k) % schedMaxThreads := by
    simp only [arc, schedMaxThreads] at hc hi hnot hcN ha hb hlen ⊢
    refine ⟨(b + 64 - (c + 1)) % 64, ?_, by omega⟩
    by_cases hia : i = a
    · omega
    · omega
  obtain ⟨k, hk, hbk⟩ := hbefore
  have hmem : b ∈ pre := by
    have hget : (pickOrder (some c))[k]? = some b := by
      rw [hbk]
      simp [pickOrder, getElem?_range (hk.trans hlen)]
    rw [hsplit, getElem?_append_left hk] at hget
    exact mem_of_getElem? hget
  have := hpre b hmem hel
  omega

/-- The slots a run dispatches, in order. -/
def dispatches : Sched → List Event → List ℕ
  | _, [] => []
  | s, e :: es => (e.dispatched s).toList ++ dispatches (e.step s) es

/-- The condition under which `b` gets its turn after `a`: it stays runnable, and whoever may
come before equals of `a` sits between them. -/
def TurnKept (a b : ℕ) (s : Sched) (e : Event) : Prop :=
  s.runnableAt b ∧ HigherOnArc a b (e.asked s)

instance (a b : ℕ) (s : Sched) (e : Event) : Decidable (TurnKept a b s e) :=
  inferInstanceAs (Decidable (_ ∧ _))

/-- One event, while `b` has not had its turn. -/
theorem TurnKept.step {e : Event} (ha : a < schedMaxThreads) (hb : b < schedMaxThreads)
    (h : TurnKept a b s e) (hcur : s.cur = some c) (hcN : c < schedMaxThreads)
    (hc : arc a c < arc a b) (hprio : s.prio a = s.prio b) :
    (e.dispatched s = none ∧ (e.step s).cur = some c) ∨ e.dispatched s = some b ∨
      ∃ i, e.dispatched s = some i ∧ (e.step s).cur = some i ∧ i ≠ a ∧ i < schedMaxThreads ∧
      arc a i < arc a b := by
  rcases (Event.run_dispatches s e).2 with ⟨hd, hk⟩ | ⟨i, hd, hk, hbest⟩
  · exact .inl ⟨hd, hk.trans hcur⟩
  rw [hcur] at hbest
  have hiN : i < schedMaxThreads := hbest.lt
  have hel := (h.1.asked e).eligible
  rcases (hbest.le hb hel).lt_or_eq with hlt | heq
  · have hhigh : (e.asked s).prio a < (e.asked s).prio i := by
      rwa [Event.asked_prio, hprio, ← Event.asked_prio s e b]
    refine .inr (.inr ⟨i, hd, hk, ?_, hiN, h.2 i hiN hbest.1 hhigh⟩)
    rintro rfl
    exact absurd hhigh (lt_irrefl _)
  · rcases hbest.on_arc ha hb hc hcN hel heq.symm with rfl | ⟨hia, harc⟩
    · exact .inr (.inl hd)
    · exact .inr (.inr ⟨i, hd, hk, hia, hiN, harc⟩)

/-- While the turn is kept, `a` is not dispatched again before `b`. -/
theorem turn_kept {es : List Event} {e : Event} (ha : a < schedMaxThreads)
    (hb : b < schedMaxThreads)
    (hcur : s.cur = some c) (hcN : c < schedMaxThreads) (hc : arc a c < arc a b) (hab : a ≠ b)
    (hprio : s.prio a = s.prio b) (hmeets : Run.Meets Event.step (TurnKept a b) s (es ++ [e]))
    (hlast : e.dispatched (es.foldl Event.step s) = some a) : b ∈ dispatches s es := by
  induction es generalizing s c with
  | nil =>
    rcases hmeets.1.step ha hb hcur hcN hc hprio with ⟨hd, -⟩ | hd | ⟨i, hd, -, hia, -⟩
    · simp [hd] at hlast
    · rw [foldl_nil, hd] at hlast
      exact absurd (some.inj hlast).symm hab
    · rw [foldl_nil, hd] at hlast
      exact absurd (some.inj hlast) hia
  | cons x es ih =>
    have hprio' : (x.step s).prio a = (x.step s).prio b := by
      rw [Event.step_prio, Event.step_prio, hprio]
    rcases hmeets.1.step ha hb hcur hcN hc hprio with ⟨hd, hk⟩ | hd | ⟨i, hd, hk, -, hiN, harc⟩
    · exact mem_append_right _ (ih hk hcN hc hprio' hmeets.2 hlast)
    · exact mem_append_left _ (by simp [hd])
    · exact mem_append_right _ (ih hk hiN harc hprio' hmeets.2 hlast)

/-- The answer is a runnable thread of greatest priority, or none if no thread is runnable. -/
structure Greatest (s : Sched) (best : Option ℕ) : Prop where
  none_runnable : best = none → ∀ j < schedMaxThreads, ¬ s.runnableAt j
  runnable : ∀ i, best = some i → s.runnableAt i
  greatest : ∀ i, best = some i → ∀ j < schedMaxThreads, s.runnableAt j → s.prio j ≤ s.prio i

theorem passed_runnableAt {j : ℕ} (hj : j < schedMaxThreads) :
    (passed s (pickOrder cur)).runnableAt j ↔ s.eligible j := by
  simp only [Sched.runnableAt, Sched.eligible, passed, mem_pickOrder.mpr hj, if_true]

theorem schedPick_greatest (s : Sched) : Greatest (schedPick s).1 (schedPick s).2 := by
  obtain ⟨best, hpick, hbest⟩ := schedPick_spec s
  rw [hpick]
  constructor
  · rintro rfl j hj hrun
    exact hbest j (mem_pickOrder.mpr hj) ((passed_runnableAt hj).mp hrun)
  · rintro i rfl
    exact (passed_runnableAt hbest.lt).mpr hbest.1
  rintro i rfl j hj hrun
  rw [passed_prio, passed_prio]
  exact hbest.le hj ((passed_runnableAt hj).mp hrun)

/-- `sched_pick` answers with a runnable thread of greatest priority. Between two dispatches of
`a`, an equal `b` that stays runnable is dispatched, as long as every thread of higher priority
that becomes runnable sits between the two slots. -/
theorem equals_take_turns (s : Sched) : Greatest (schedPick s).1 (schedPick s).2 ∧
      ∀ (first : Event) (es : List Event) (last : Event) (a b : ℕ),
        b < schedMaxThreads → a ≠ b → s.prio a = s.prio b → first.dispatched s = some a →
        last.dispatched (es.foldl Event.step (first.step s)) = some a →
        Run.Meets Event.step (TurnKept a b) (first.step s) (es ++ [last]) →
        b ∈ dispatches (first.step s) es := by
  refine ⟨schedPick_greatest s, fun first es last a b hb hab hprio hfirst hlast hmeets => ?_⟩
  rcases (Event.run_dispatches s first).2 with ⟨hd, -⟩ | ⟨i, hd, hk, hbest⟩
  · exact absurd (hd.symm.trans hfirst) (by simp)
  obtain rfl : i = a := some.inj (hd.symm.trans hfirst)
  have ha : i < schedMaxThreads := hbest.lt
  have harc : arc i i < arc i b := by
    simp only [arc, schedMaxThreads] at ha hb ⊢
    omega
  exact turn_kept ha hb hk ha harc hab (by rw [Event.step_prio, Event.step_prio, hprio])
    hmeets hlast

/-- A thread with nothing but a priority and a state. -/
def sampleThread (pid prio : ℕ) (state : ThreadState) : Thread :=
  ⟨none, pid, prio, state, 0, 0, false, 0, 0, 0⟩

/-- Two equals in slots 1 and 2, and a thread of higher priority in slot `h`, which is running. -/
def threeThreads (h : ℕ) : Sched where
  threads i :=
    if i = 1 then some (sampleThread 1 prioNormal .ready)
    else if i = 2 then some (sampleThread 2 prioNormal .ready)
    else if i = h then some (sampleThread 3 prioUi .running)
    else none
  cur := some h
  nextPid := 4
  preemptCount := 0
  ticks := 0
  switches := 0
  running := true

/-- While the thread above them sleeps the two take turns. -/
theorem equals_take_turns_asleep :
    let s := Event.step (threeThreads 3) (.sleepMs 5)
    2 ∈ dispatches (Event.step s .yield) [.tick] :=
  (equals_take_turns (Event.step (threeThreads 3) (.sleepMs 5))).2 .yield [.tick] .tick 1 2
    (by decide) (by decide) (by decide +kernel) (by decide +kernel) (by decide +kernel)
    (by decide +kernel)

/-- The thread above them sleeps for one tick, is woken by it, and sleeps again: the search goes on
from its slot each time, and slot 1 comes before slot 2. -/
theorem equal_starves :
    let s := Event.step (threeThreads 3) (.sleepMs 1)
    let es := [Event.tick, .sleepMs 1]
    s.prio 1 = s.prio 2 ∧ Event.dispatched s .yield = some 1 ∧
      Event.dispatched (es.foldl Event.step (Event.step s .yield)) .yield = some 1 ∧
      Run.Meets Event.step (fun s _ => s.runnableAt 2) (Event.step s .yield) (es ++ [.yield]) ∧
      2 ∉ dispatches (Event.step s .yield) es := by
  decide +kernel

/-! ## Waking

Whom `sched_wake_chan` wakes when it is to wake one thread.

The loop stops at the first thread that has the channel in `wait_chan`. A thread keeps it there
after its deadline until it runs again, and one that was killed keeps it for good. -/

variable {chan j n : ℕ} {t : Thread}

/-- The slot holds a thread with the channel in its `wait_chan`. -/
def Sched.records (s : Sched) (chan i : ℕ) : Bool := (s.threads i).any fun t => t.waitChan = chan

/-- The slot holds a thread that is asleep on the channel. -/
def Sched.blockedOn (s : Sched) (chan i : ℕ) : Bool :=
  (s.threads i).any fun t => t.waitChan = chan && t.state = .sleeping

/-- Waking one makes a thread runnable that was asleep on the channel, if there is one. -/
def Serves (s : Sched) (chan : ℕ) : Prop := (∃ i < schedMaxThreads, s.blockedOn chan i) →
  ∃ i < schedMaxThreads, s.blockedOn chan i ∧
  ((schedWakeChan chan false s).threads i).any Thread.runnable

/-- If anyone sleeps on the channel, the first thread that records it does. -/
def FirstAsleep (s : Sched) (chan : ℕ) : Prop := (∃ i < schedMaxThreads, s.blockedOn chan i) →
  ∀ i < schedMaxThreads, s.records chan i → (∀ j < i, s.records chan j = false) → s.blockedOn chan i

instance : Decidable (Serves s chan) := inferInstanceAs (Decidable (_ → _))

theorem records_of_blockedOn (h : s.blockedOn chan i) : s.records chan i := by
  obtain ⟨t, ht, hw⟩ := (Option.any_eq_true _ _).mp h
  simp only [Bool.and_eq_true] at hw
  simpa [Sched.records, ht] using hw.1

theorem wakeChanFrom_skip (hskip : ∀ k, i ≤ k → k < i + n → s.records chan k = false) (m : ℕ) :
    wakeChanFrom chan false i (n + m) s = wakeChanFrom chan false (i + n) m s := by
  induction n generalizing i with
  | zero => rw [Nat.zero_add, Nat.add_zero]
  | succ n ih =>
    have hrest := ih (i := i + 1) fun k hk hlt => hskip k (by omega) (by omega)
    have hi := hskip i le_rfl (by omega)
    rw [show n + 1 + m = n + m + 1 by omega, show i + (n + 1) = i + 1 + n by omega, ← hrest,
      wakeChanFrom]
    cases ht : s.threads i with
    | none => rfl
    | some t =>
      simp only [Sched.records, ht, Option.any_some, decide_eq_false_iff_not] at hi
      exact if_pos hi

theorem schedWakeChan_one (hi : i < schedMaxThreads) (ht : s.threads i = some t)
    (hchan : t.waitChan = chan) (hfirst : ∀ j < i, s.records chan j = false) :
    schedWakeChan chan false s = s.setThread i (wakeThread { t with waitChan := 0 }) := by
  have hskip := wakeChanFrom_skip (i := 0) (n := i)
    (fun k _ hlt => hfirst k (by omega)) (schedMaxThreads - i)
  rw [Nat.add_sub_cancel' hi.le] at hskip
  obtain ⟨m, hm⟩ : ∃ m, schedMaxThreads - i = m + 1 := ⟨schedMaxThreads - i - 1, by omega⟩
  rw [schedWakeChan, hskip, hm, wakeChanFrom]
  simp [ht, hchan]

theorem exists_first (h : s.records chan i) :
    ∃ j ≤ i, s.records chan j ∧ ∀ k < j, s.records chan k = false := by
  have hex : ∃ j, s.records chan j := ⟨i, h⟩
  refine ⟨Nat.find hex, Nat.find_min' hex h, Nat.find_spec hex, fun k hk => ?_⟩
  simpa using Nat.find_min hex hk

theorem serves_iff (s : Sched) (chan : ℕ) : Serves s chan ↔ FirstAsleep s chan := by
  constructor
  · intro hserves hsome i hi hrec hfirst
    obtain ⟨j, hj, hblocked, hrun⟩ := hserves hsome
    obtain ⟨t, ht, hchan⟩ := (Option.any_eq_true _ _).mp hrec
    rw [schedWakeChan_one hi ht (of_decide_eq_true hchan) hfirst] at hrun
    -- every other slot is as it was, and its thread asleep
    by_contra hne
    have hji : j ≠ i := fun h => hne (h ▸ hblocked)
    simp only [Sched.setThread] at hrun
    obtain ⟨u, hu, hw⟩ := (Option.any_eq_true _ _).mp hblocked
    simp_all [Thread.runnable]
  · intro hfirst hsome
    obtain ⟨k, hk, hblocked⟩ := hsome
    obtain ⟨i, hik, hrec, hmin⟩ := exists_first (records_of_blockedOn hblocked)
    have hi : i < schedMaxThreads := by omega
    have hasleep := hfirst ⟨k, hk, hblocked⟩ i hi hrec hmin
    obtain ⟨t, ht, hw⟩ := (Option.any_eq_true _ _).mp hasleep
    simp only [Bool.and_eq_true, decide_eq_true_eq] at hw
    refine ⟨i, hi, hasleep, ?_⟩
    rw [schedWakeChan_one hi ht hw.1 hmin]
    simp [Sched.setThread, wakeThread, hw.2, Thread.runnable]

/-- In a run, every wake of one serves a sleeper just if at each of them the first thread that
records the channel sleeps, unless nobody does. -/
theorem wake_one_served (s : Sched) (es : List Event) :
    Run.Meets Event.step (fun s e => ∀ chan, e = .wakeChan chan false → Serves s chan) s es ↔
      Run.Meets Event.step
        (fun s e => ∀ chan, e = .wakeChan chan false → FirstAsleep s chan) s es :=
  ⟨Run.Meets.mono fun s _ h chan he => (serves_iff s chan).mp (h chan he),
    Run.Meets.mono fun s _ h chan he => (serves_iff s chan).mpr (h chan he)⟩

/-- Slot 1 gives up waiting at tick 2, and before it runs again slot 3 wakes one: slot 2 sleeps on.
-/
theorem late_waiter_takes_wake :
    let s := [.sleepMs 2, .yield, .blockOn 100 2, .yield, .blockOn 100 0, .tick,
      .tick].foldl Event.step (threeThreads 3)
    s.cur = some 3 ∧ s.blockedOn 100 2 ∧ ¬ Serves s 100 := by
  decide +kernel

end Vextro.Threads
