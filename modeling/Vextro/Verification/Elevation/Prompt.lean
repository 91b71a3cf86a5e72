import Vextro.Model.Elevation
import Vextro.Verification.Shared.Run

/-! The elevation prompt: one question at a time, answered for the thread that asked and taken off
the screen by it. -/

namespace Vextro.Elevation

open Function

variable {s : State} {i d a : ℕ} {g : Guard}

/-- A question is on the screen exactly while the thread it names is parked, and no other thread is.
-/
structure Orderly (s : State) : Prop where
  parked : ∀ i g d, s.place i = .parked g d →
    s.req.pending ∧ s.req.pid = i ∧ d ≤ s.ticks + uacWaitTicks
  asker : s.req.pending → ∃ g d, s.place s.req.pid = .parked g d

/-- No thread is ended while it is parked. -/
def Spares (s : State) : Event → Prop
  | .terminate a => ∀ i g d, s.as i = a → s.place i ≠ .parked g d
  | _ => True

/-- What a guard lets the program do without a question. -/
def Space.allows (sp : Space) : Guard → Bool
  | .privileged => sp.elevated
  | .network => sp.netOk = some true

/-- A guard knows the answer, or has it from the policy, or asks. -/
theorem guard_cases (s : State) (i : ℕ) (g : Guard) :
    s.step (.guard i g) = s ∨
    (∃ ok, (ok = true → s.never) ∧ s.step (.guard i g) = s.record i g ok) ∨
      s.req.pending = false ∧ s.place i = .elsewhere ∧ s.step (.guard i g) = s.ask i g := by
  by_cases hi : s.place i = .elsewhere
  · obtain ⟨known, mayAsk, hstep⟩ : ∃ known mayAsk,
        s.step (.guard i g) = s.guarded i g known mayAsk := by
      cases g <;> exact ⟨_, _, if_neg (not_not.mpr hi)⟩
    rw [hstep, State.guarded, uacPrompt]
    split
    · exact .inl rfl
    split
    · exact .inr (.inl ⟨true, fun _ => ‹_›, rfl⟩)
    split
    · exact .inr (.inl ⟨false, by simp, rfl⟩)
    split
    · exact .inr (.inl ⟨false, by simp, rfl⟩)
    · rename_i hp
      exact .inr (.inr ⟨by simpa using hp, hi, rfl⟩)
  · exact .inl (if_pos hi)

theorem Orderly.ask (h : Orderly s) (hp : s.req.pending = false) : Orderly (s.ask i g) where
  parked j g' d hj := by
    simp only [State.ask] at hj
    by_cases hji : j = i
    · subst hji
      rw [update_self] at hj
      cases hj
      exact ⟨rfl, rfl, Nat.le_refl _⟩
    · rw [update_of_ne hji] at hj
      exact absurd (h.parked j g' d hj).1 (by simp [hp])
  asker _ := ⟨g, _, update_self ..⟩

/-- The thread that takes the answer is the only one that was parked. -/
theorem Orderly.taken (h : Orderly s) (hi : s.place i = .parked g d) :
    Orderly { s with
      req := { s.req with pending := false, answered := false }
      place := update s.place i .elsewhere } where
  parked j g' d' hj := by
    by_cases hji : j = i
    · subst hji
      simp at hj
    · simp only [update_of_ne hji] at hj
      exact absurd ((h.parked j g' d' hj).2.1.symm.trans (h.parked i g d hi).2.1) hji
  asker hp := absurd hp (by simp)

theorem Orderly.step (s : State) (e : Event) (h : Orderly s) (hsp : Spares s e) :
    Orderly (s.step e) := by
  cases e with
  | guard i g =>
    rcases guard_cases s i g with heq | ⟨ok, -, heq⟩ | ⟨hp, -, heq⟩
    · rwa [heq]
    · rw [heq]
      exact ⟨h.parked, h.asker⟩
    · rw [heq]
      exact h.ask hp
  | run i =>
    rw [State.step, uacWaitRound]
    split
    · rename_i hi
      split
      · exact h
      · exact ⟨(h.taken hi).parked, (h.taken hi).asker⟩
    · exact h
  | answer granted =>
    rw [State.step, uacAnswer]
    split
    · exact h
    · exact ⟨h.parked, h.asker⟩
  | tick =>
    refine ⟨fun i g d hi => ?_, h.asker⟩
    obtain ⟨hp, hpid, hd⟩ := h.parked i g d hi
    exact ⟨hp, hpid, by simp only [State.step]; omega⟩
  | terminate a =>
    refine ⟨fun i g d hi => ?_, fun hp => ?_⟩
    · simp only [State.step] at hi
      split at hi
      · cases hi
      · exact h.parked i g d hi
    · obtain ⟨g, d, hi⟩ := h.asker hp
      exact ⟨g, d, (if_neg fun ha => hsp _ g d ha hi).trans hi⟩

/-- Nothing touches a thread that waits, until it runs with the answer or after its deadline. -/
theorem Orderly.waits (h : Orderly s) {e : Event} (hsp : Spares s e)
    (hi : s.place i = .parked g d) :
    e = .run i ∧ (s.req.answered ∨ d ≤ s.ticks) ∧ (s.step e).req.pending = false ∨
      ¬ (e = .run i ∧ (s.req.answered ∨ d ≤ s.ticks)) ∧ (s.step e).place i = .parked g d := by
  cases e with
  | guard j g' =>
    refine .inr ⟨by simp, ?_⟩
    rcases guard_cases s j g' with heq | ⟨ok, -, heq⟩ | ⟨hp, -, -⟩
    · rwa [heq]
    · rwa [heq]
    · exact absurd (h.parked i g d hi).1 (by simp [hp])
  | run j =>
    by_cases hj : j = i
    · subst hj
      rw [State.step, uacWaitRound, hi]
      dsimp only
      split
      · rename_i hw
        simp only [Bool.and_eq_true, Bool.not_eq_true', decide_eq_true_eq] at hw
        exact .inr ⟨by simp [hw], hi⟩
      · rename_i hw
        refine .inl ⟨rfl, ?_, rfl⟩
        simpa [Decidable.imp_iff_not_or] using hw
    · refine .inr ⟨by simp [hj], ?_⟩
      rw [State.step, uacWaitRound]
      split
      · rename_i hpark
        exact absurd ((h.parked j _ _ hpark).2.1.symm.trans (h.parked i g d hi).2.1) hj
      · exact hi
  | answer granted =>
    refine .inr ⟨by simp, ?_⟩
    rw [State.step, uacAnswer]
    split <;> exact hi
  | tick => exact .inr ⟨by simp, hi⟩
  | terminate a => exact .inr ⟨by simp, (if_neg fun ha => hsp i g d ha hi).trans hi⟩

/-! ## What the answer is for -/

theorem record_allows {g' : Guard} {ok : Bool} (h : ((s.record i g' ok).spaces a).allows g) :
    (s.spaces a).allows g ∨ s.as i = a ∧ ok := by
  rw [State.record] at h
  by_cases ha : s.as i = a
  · cases g <;> cases g' <;> cases ok <;> simp_all [Space.record, Space.allows]
  · exact .inl (by simpa [update_of_ne (Ne.symm ha)] using h)

theorem step_allows {e : Event} (h : ((s.step e).spaces a).allows g) :
    (s.spaces a).allows g ∨ s.never ∨ ∃ i g' d,
    e = .run i ∧ s.place i = .parked g' d ∧ s.as i = a ∧ s.req.granted := by
  cases e with
  | guard i g' =>
    rcases guard_cases s i g' with heq | ⟨ok, hok, heq⟩ | ⟨-, -, heq⟩ <;> rw [heq] at h
    · exact .inl h
    · exact (record_allows h).imp_right fun ⟨_, ht⟩ => .inl (hok ht)
    · exact .inl h
  | run i =>
    rw [State.step, uacWaitRound] at h
    split at h
    · rename_i g' d hi
      split at h
      · exact .inl h
      · refine (record_allows h).imp_right fun ⟨ha, hok⟩ => .inr ⟨i, g', d, rfl, hi, ha, ?_⟩
        exact (Bool.and_eq_true_iff.mp hok).2
    · exact .inl h
  | answer granted =>
    rw [State.step, uacAnswer] at h
    split at h <;> exact .inl h
  | tick => exact .inl h
  | terminate a => exact .inl h

/-- In every run that ends no thread while it is parked, at most one question is on the screen; the
thread it names waits until it runs with the answer or after the wait limit, and then clears the
mark; nobody else has the answer. -/
theorem prompt_frees_itself (hs : Orderly s) {es : List Event}
    (hes : Run.Meets State.step Spares s es) (n : ℕ) :
    let t := (es.take n).foldl State.step s
    Orderly t ∧ ∀ e, es[n]? = some e →
      (∀ i g d, t.place i = .parked g d →
        e = .run i ∧ (t.req.answered ∨ d ≤ t.ticks) ∧ (t.step e).req.pending = false ∨
          ¬ (e = .run i ∧ (t.req.answered ∨ d ≤ t.ticks)) ∧ (t.step e).place i = .parked g d) ∧
      ∀ a g, (t.spaces a).allows g = false → ((t.step e).spaces a).allows g →
        t.never ∨ e = .run t.req.pid ∧ t.as t.req.pid = a ∧ t.req.granted := by
  have ht := Run.invariant_take Orderly.step hs hes n
  refine ⟨ht, fun e he => ⟨fun i g d => ht.waits (hes.at he), fun a g hno hyes => ?_⟩⟩
  rcases step_allows hyes with h | h | ⟨i, g', d, rfl, hi, ha, hg⟩
  · exact absurd h (by simp [hno])
  · exact .inl h
  · obtain rfl := (ht.parked i g' d hi).2.1
    exact .inr ⟨rfl, ha, hg⟩

/-- Two programs of an administrator; threads 1 and 2 are one of them, thread 3 is the other. -/
def office : State where
  req := ⟨false, false, false, 0⟩
  ticks := 0
  never := false
  signedIn := true
  as i := if i = 3 then 2 else 1
  place _ := .elsewhere
  spaces _ := ⟨false, true, none⟩

theorem office_orderly : Orderly office :=
  ⟨fun _ _ _ h => absurd h (by simp [office]), fun h => absurd h (by simp [office])⟩

/-- The first program is granted its question, and the second asks one of its own. -/
theorem prompt_frees_itself_granted :
    let t :=
      [Event.guard 1 .privileged, .answer true, .run 1, .guard 3 .network].foldl State.step office
    (t.spaces 1).elevated = true ∧ t.req.pid = 3 ∧ Orderly t := by
  have hes : Run.Meets State.step Spares office [.guard 1 .privileged, .answer true, .run 1,
      .guard 3 .network] := ⟨trivial, trivial, trivial, trivial, trivial⟩
  exact ⟨rfl, rfl, (prompt_frees_itself office_orderly hes 4).1⟩

/-! ## An asker that is ended -/

/-- The mark is set, and nobody is left to clear it. -/
def Stuck (s : State) : Prop := s.req.pending ∧ ∀ i g d, s.place i ≠ .parked g d

theorem Stuck.step (s : State) (e : Event) (h : Stuck s) : Stuck (s.step e) := by
  cases e with
  | guard i g =>
    rcases guard_cases s i g with heq | ⟨ok, -, heq⟩ | ⟨hp, -, -⟩
    · rwa [heq]
    · rw [heq]
      exact h
    · exact absurd h.1 (by simp [hp])
  | run i =>
    rw [State.step, uacWaitRound]
    split
    · exact absurd ‹_› (h.2 i _ _)
    · exact h
  | answer granted =>
    rw [State.step, uacAnswer]
    split <;> exact h
  | tick => exact h
  | terminate a =>
    refine ⟨h.1, fun i g d hi => ?_⟩
    simp only [State.step] at hi
    split at hi
    · cases hi
    · exact h.2 i g d hi

theorem Orderly.stuck (h : Orderly s) (hp : s.req.pending) :
    Stuck (s.step (.terminate (s.as s.req.pid))) := by
  refine ⟨hp, fun i g d hi => ?_⟩
  simp only [State.step] at hi
  split at hi
  · cases hi
  · rename_i hne
    exact hne (congrArg s.as (h.parked i g d hi).2.1.symm)

/-- While thread 1 waits for its answer, thread 2 calls `exit_group`: the mark is never cleared. -/
theorem ended_asker_keeps_mark :
    let s := [Event.guard 1 .privileged, .terminate 1].foldl State.step office
    s.place 1 = .ended ∧ ∀ es : List Event, (es.foldl State.step s).req.pending = true := by
  refine ⟨rfl, fun es => ?_⟩
  have hstuck := (office_orderly.step _ (.guard 1 .privileged) trivial).stuck rfl
  exact (Run.invariant (fun s e h _ => h.step s e) hstuck (.trivial _ es)).1

/-! ## Consent -/

/-- Guard `g` has not let program `a` through, and no question it has there is granted. -/
structure Denied (a : ℕ) (g : Guard) (s : State) : Prop where
  never : s.never = false
  parked : ∀ i g' d, s.place i = .parked g' d →
    s.req.pending ∧ s.req.pid = i ∧ (g' = g → s.as i = a → s.req.granted = false)
  none : (s.spaces a).allows g = false

/-- No yes is given while the program waits at the guard. -/
def Unmoved (a : ℕ) (g : Guard) (s : State) (e : Event) : Prop :=
  e = .answer true → ∀ i d, s.place i = .parked g d → s.as i ≠ a

theorem allows_record {g' : Guard} {ok : Bool} (h : g' = g → s.as i = a → ok = false)
    (hno : (s.spaces a).allows g = false) : ((s.record i g' ok).spaces a).allows g = false := by
  rw [State.record]
  by_cases ha : s.as i = a
  · cases g <;> cases g' <;> simp_all [Space.record, Space.allows]
  · simpa [update_of_ne (Ne.symm ha)] using hno

theorem Denied.step (s : State) (e : Event) (h : Denied a g s) (he : Unmoved a g s e) :
    Denied a g (s.step e) := by
  cases e with
  | guard i g' =>
    rcases guard_cases s i g' with heq | ⟨ok, hok, heq⟩ | ⟨hp, -, heq⟩ <;> rw [heq]
    · exact h
    · exact { h with none := allows_record (fun _ _ => by simpa [h.never] using hok) h.none }
    · refine { h with parked := fun j g' d hj => ?_ }
      by_cases hji : j = i
      · exact ⟨rfl, hji.symm, fun _ _ => rfl⟩
      · exact absurd (h.parked j g' d ((update_of_ne hji ..).symm.trans hj)).1 (by simp [hp])
  | run i =>
    rw [State.step, uacWaitRound]
    split
    · rename_i g' d hi
      obtain ⟨-, hpid, hno⟩ := h.parked i g' d hi
      split
      · exact h
      · refine ⟨h.never, fun j g d hj => ?_,
          allows_record (fun hg ha => by rw [hno hg ha, Bool.and_false]) h.none⟩
        -- nobody else was parked
        by_cases hji : j = i
        · simp [State.record, hji] at hj
        · exact absurd
            ((h.parked j g d ((update_of_ne hji ..).symm.trans hj)).2.1.symm.trans hpid) hji
    · exact h
  | answer granted =>
    rw [State.step, uacAnswer]
    split
    · exact h
    · refine { h with parked := fun i g' d hi =>
        ⟨(h.parked i g' d hi).1, (h.parked i g' d hi).2.1, ?_⟩ }
      rintro rfl ha
      exact Bool.eq_false_iff.mpr fun hyes => he (congrArg _ hyes) i d hi ha
  | tick => exact { h with }
  | terminate b =>
    refine { h with parked := fun i g' d hi => h.parked i g' d ?_ }
    simp only [State.step] at hi
    split at hi
    · cases hi
    · exact hi

/-- Whoever asks, is answered, gives up or is ended meanwhile, a guard lets through only a program
that waited there when a yes was given. -/
theorem no_pass_without_consent (h : Denied a g s) {es : List Event}
    (hes : Run.Meets State.step (Unmoved a g) s es) :
    ((es.foldl State.step s).spaces a).allows g = false :=
  (Run.invariant Denied.step h hes).none

/-- The yes is for another question of the program. -/
theorem no_pass_without_consent_network :
    let t := [Event.guard 1 .network, .answer true, .run 1].foldl State.step office
    (t.spaces 1).allows .network ∧ (t.spaces 1).allows .privileged = false := by
  have hes : Run.Meets State.step
      (Unmoved 1 .privileged) office [.guard 1 .network, .answer true, .run 1] := by
    refine ⟨nofun, fun _ i d hi => ?_, nofun, trivial⟩
    by_cases h1 : i = 1 <;>
      simp [State.step, office, netGuard, State.guarded, uacPrompt, State.ask, h1] at hi
  exact ⟨rfl, no_pass_without_consent ⟨rfl, fun _ _ _ h => absurd h (by simp [office]), rfl⟩ hes⟩

end Vextro.Elevation
