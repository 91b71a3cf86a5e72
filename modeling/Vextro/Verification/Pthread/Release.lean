import Vextro.Verification.Pthread.Ownership
import Vextro.Verification.Shared.Run
import Mathlib.Data.List.Perm.Subperm

/-! Every part of a thread is given back once, and nothing of it is used afterwards. -/

namespace Vextro.Pthread

open Function (update update_apply update_eq_self update_of_ne update_self)
open List
open Links (Chain)

namespace State

/-- A thread that may be joined or detached: it was created so, the call that created it is over,
and nobody has asked before. -/
def joinable (s : State) (t : ℕ) : Bool :=
  t ≠ 0 && t ≠ mainThread && t < s.fresh && !(s.impl t).detached && t ∉ s.called &&
  s.nobodyAt (.createStore t)

/-- Joins and detaches are of joinable threads; nobody sets `detached` of a thread that has read it
and not yet cleared `done`, nor does a thread read it while a detach is between its two words; and
whoever is to give the thread back does not look at `done` before the exit call and the store of
`tid` are made. -/
def orderly (s : State) (x : ℕ × Act) : Bool := s.ended ||
    match s.place x.1, x.2 with
    | .user, .join t => t = 0 || t = x.1 || s.joinable t
    | .user, .detach t => t = 0 || s.joinable t
    | .joinWait t, _ => s.place t ≠ .leaving
    | .detachSet t, _ => s.place t ≠ .exitDone
    | .exitTest, _ => s.nobodyAt (.detachTest x.1)
    | .walk _ pp _, _ => s.place (s.deref pp) ≠ .leaving && s.nobodyAt (.createStore (s.deref pp))
    | _, _ => true

/-- Nothing is given back twice, or before the exit call; nothing is used after it was given back;
and the record of a thread that is detached and has finished is on the list once, until it is taken
off. -/
structure Tidy (s : State) : Prop where
  once : s.frees.Nodup
  exited : ∀ x ∈ s.frees, s.place x.1 = .gone
  unused : s.late = []
  listed : ∀ t ≠ mainThread, (s.impl t).detached = true → (s.impl t).done = 0 →
    (∀ a, s.place a ≠ .detachTest t ∧ s.place a ≠ .detachPush t) → t ∉ s.taken →
      (s.listed s.fresh s.retiredList).count t = 1

end State

variable {s s' : State} {ow ow' : ℕ → Owner} {a b t x take pp : ℕ} {k : After} {p : Part} {d : Bool}
  {act : Act} {q : Place} {o : Owner}

/-! ## The start and the end of the argument -/

theorem Inv.init : Inv State.init fun _ => .unclaimed where
  list := ⟨[], rfl, nodup_nil, fun x => by simp⟩
  places a := by
    by_cases ha : a = mainThread <;> simp [State.init, ha, PlaceOk]
  records t ht := by
    refine ⟨?_, ?_, fun h => absurd rfl h⟩
    · simp [State.init, Owned, ht]
    · simp [State.init, ht, Place.Ended]
  main := rfl
  main_lt := Nat.lt_succ_self _
  absent t ht := by
    refine ⟨if_neg ?_, rfl⟩
    rintro rfl
    simp [State.init, mainThread] at ht
  nodup := nodup_nil
  frees t p hmem := by cases hmem
  late := rfl

theorem State.listed_of_chain {l : List ℕ} {n p : ℕ} (h : Chain s.nexts p l) (hlen : l.length ≤ n) :
    s.listed n p = l := by
  induction l generalizing n p with
  | nil =>
    obtain rfl : p = 0 := h
    cases n <;> rfl
  | cons x xs ih =>
    obtain ⟨rfl, h0, hrest⟩ := h
    cases n with
    | zero => simp at hlen
    | succ n =>
      rw [State.listed, if_neg h0]
      exact congrArg (p :: ·) (ih hrest (by simpa using hlen))

/-- A detached thread that has finished belongs to the list, unless somebody is about to retire it
or has taken it. -/
theorem Inv.owner_listed (I : Inv s ow)
    (hmain : t ≠ mainThread) (hdet : (s.impl t).detached) (hdone : (s.impl t).done = 0)
    (hbusy : ∀ a, s.place a ≠ .detachTest t ∧ s.place a ≠ .detachPush t) (htaken : t ∉ s.taken) :
    ow t = .listed := by
  obtain ⟨howned, hended, -⟩ := I.records t hmain
  have hdecided := (hended.mp hdone).decided
  cases ho : ow t with
  | listed => rfl
  | detacher a =>
    have hp : s.place a = .detachSet t := by
      rw [ho] at howned
      exact howned.resolve_right fun h => h.elim (hbusy a).1 (hbusy a).2
    simpa [hdet] using (I.at hp).2
  | _ => simp_all [Owned]

theorem Inv.tidy (I : Inv s ow) : s.Tidy where
  once := I.nodup
  exited x hx := I.gone_of_freed hx
  unused := I.late
  listed t hmain hdet hdone hbusy htaken := by
    obtain ⟨l, hl, hnd, hmem⟩ := I.list
    have hlen : l.length ≤ s.fresh := by
      have hsub : l ⊆ range s.fresh := fun x hx =>
        mem_range.mpr (I.lt_of_owner (t := x) (by rw [(hmem x).mp hx]; simp)).2
      simpa using (subperm_of_subset hnd hsub).length_le
    rw [State.listed_of_chain hl hlen]
    exact count_eq_one_of_mem hnd ((hmem t).mpr (I.owner_listed hmain hdet hdone hbusy htaken))

/-! ## What a step uses -/

theorem Inv.own_unused (I : Inv s ow) (h : s.place a ≠ .gone) : ∀ r ∈ State.own a, r ∉ s.frees := by
  intro r hr hmem
  have hra : r.1 = a := by
    simp only [State.own, mem_cons, not_mem_nil, or_false] at hr
    rcases hr with rfl | rfl | rfl <;> rfl
  exact h (hra ▸ I.gone_of_freed hmem)

theorem Inv.null_unused (I : Inv s ow) : (0, p) ∉ s.frees :=
  I.not_freed_of_keeps (by rw [(I.absent 0 (.inl rfl)).2]; trivial)

theorem Inv.unused_of_gives (I : Inv s ow) (h : Gives s ow a t k) (hp : p ∉ (s.place a).given t) :
    (t, p) ∉ s.frees := fun hmem => hp (I.given_of_freed h.holder hmem)

theorem State.joinable.spec (h : s.joinable t) :
    t ≠ 0 ∧ t ≠ mainThread ∧ t < s.fresh ∧ (s.impl t).detached = false ∧ t ∉ s.called ∧
      s.nobodyAt (.createStore t) := by
  simpa [State.joinable, and_assoc] using h

theorem Inv.unclaimed (I : Inv s ow) (h : s.joinable t) : ow t = .unclaimed := by
  obtain ⟨-, hmain, -, hdet, hcalled, -⟩ := State.joinable.spec h
  by_contra hne
  rcases (I.records t hmain).claimed hne with hflag | hmem
  · exact absurd (hflag.symm.trans hdet) (by simp)
  · exact hcalled hmem

/-- The records a walk stops at are on the list. -/
theorem Inv.deref_listed (I : Inv s ow) (h : s.place a = .walk d pp take) (h0 : s.deref pp ≠ 0) :
    ow (s.deref pp) = .listed := by
  obtain ⟨l, hl, -, hmem⟩ := I.list
  rw [← hmem]
  unfold State.deref at h0 ⊢
  split_ifs at h0 ⊢ with hpp
  · exact hl.head_mem h0
  · exact hl.next_mem ((hmem pp).mpr ((I.at h).2.1 hpp)) h0

theorem Inv.refs_unused (I : Inv s ow) (hended : s.ended = false) (hs : s.orderly (a, act)) :
    ∀ r ∈ s.refs a act, r ∉ s.frees := by
  have hok := I.places a
  have hown : s.place a ≠ .gone → ∀ t, (t, Part.record) ∉ s.frees →
      ∀ r ∈ (t, Part.record) :: State.own a, r ∉ s.frees := fun hgone t ht =>
    forall_mem_cons.mpr ⟨ht, I.own_unused hgone⟩
  have hjoin : ∀ t, s.joinable t → (t, Part.record) ∉ s.frees := fun t hj =>
    I.not_freed_of_keeps (by rw [I.unclaimed hj]; trivial)
  simp only [State.orderly, hended, Bool.false_or] at hs
  unfold State.refs
  cases hp : s.place a with
  | absent | leaving | gone => simp
  | user =>
    rw [hp] at hown hs
    cases act with
    | join t =>
      simp only [Bool.or_eq_true, decide_eq_true_eq] at hs
      simp only
      split
      · exact I.own_unused (by simp [hp])
      refine hown (by simp) t ?_
      rcases hs with (rfl | hta) | hj
      · exact I.null_unused
      · contradiction
      · exact hjoin t hj
    | detach t =>
      simp only [Bool.or_eq_true, decide_eq_true_eq] at hs
      refine hown (by simp) t ?_
      rcases hs with rfl | hj
      · exact I.null_unused
      · exact hjoin t hj
    | _ => exact I.own_unused (by simp [hp])
  | joinWait t =>
    rw [hp] at hok hown
    refine hown (by simp) t fun hmem => ?_
    simpa [hp, Place.given] using I.given_of_freed (a := a) (by rw [hok]; rfl) hmem
  | detachSet t | detachTest t | detachPush t =>
    rw [hp] at hok hown
    exact hown (by simp) t (I.not_freed_of_keeps (by rw [hok.1]; trivial))
  | createStore t =>
    rw [hp] at hok hown
    exact hown (by simp) t (I.not_freed_of_keeps hok.1)
  | unmap t k | freeTls t k =>
    rw [hp] at hok hown
    exact hown (by simp) t (I.unused_of_gives hok (by simp [hp, Place.given]))
  | reap d take =>
    rw [hp] at hok hown
    refine hown (by simp) take fun hmem => ?_
    obtain ⟨m, hm, -, -, how⟩ := hok
    obtain rfl | h0 := eq_or_ne take 0
    · exact I.null_unused hmem
    · simpa [hp, Place.given] using I.given_of_freed (a := a)
        (by rw [how take (hm.head_mem h0)]; rfl) hmem
  | walk d pp take =>
    rw [hp] at hok hown
    have hlisted : ∀ t, (t ≠ 0 → ow t = .listed) → (t, Part.record) ∉ s.frees := by
      intro t ht
      obtain rfl | h0 := eq_or_ne t 0
      · exact I.null_unused
      · exact I.not_freed_of_keeps (by rw [ht h0]; trivial)
    exact forall_mem_cons.mpr ⟨hlisted pp hok.2.1, hown (by simp) _ (hlisted _ (I.deref_listed hp))⟩
  | _ => exact I.own_unused (by simp [hp])

/-- Under the invariant a step uses nothing that was given back. -/
theorem Inv.touch_eq (I : Inv s ow) (hended : s.ended = false) (hs : s.orderly (a, act)) :
    s.touch (s.refs a act) = s := by
  have hnone : (s.refs a act).filter (· ∈ s.frees) = [] :=
    filter_eq_nil_iff.mpr fun r hr => by simpa using I.refs_unused hended hs r hr
  unfold State.touch
  rw [hnone]
  rfl

/-! ## Steps that change no record -/

theorem Inv.goto (I : Inv s ow) (hplain : (s.place a).Plain)
    (hold : ¬(s.place a).Decided) (hnew : ¬q.Decided) (lock : Option ℕ) (n : ℕ)
    (o : Bool) (hlock : ∀ b ≠ a, s.retiredLock = some b → lock = some b)
    (hok : PlaceOk
      { s with place := update s.place a q, retiredLock := lock, liveThreads := n, ended := o }
      ow a q) :
    Inv { s with place := update s.place a q, retiredLock := lock, liveThreads := n, ended := o }
      ow := by
  refine I.move hplain q s.impl lock n o hlock rfl (fun _ => ⟨rfl, rfl⟩) (fun _ _ => rfl) id
    (fun hq => ?_) hok fun hmain => ?_
  · subst hq
    exact absurd trivial hnew
  refine (I.records a hmain).moved rfl (fun b hb => update_of_ne hb q s.place) rfl rfl
    (List.Subset.refl _) (I.not_detacher hplain a) hold ?_
  show ¬(update s.place a q a).Decided
  rwa [update_self]

/-- A step that only leads to another place. -/
theorem Inv.goto' (I : Inv s ow) {p : Place} (hp : s.place a = p)
    (hplain : p.Plain) (hold : ¬p.Decided) (hnew : ¬q.Decided) (hok : PlaceOk (s.goto a q) ow a q) :
    Inv (s.goto a q) ow :=
  I.goto (hp ▸ hplain) (hp ▸ hold) hnew s.retiredLock s.liveThreads s.ended (fun _ _ h => h) hok

theorem Takes.zero : Takes s ow a 0 t := ⟨[], rfl, nodup_nil, by simp, by simp⟩

/-- What a reaper has taken it gives back, from the first on. -/
theorem Takes.gives (I : Inv s ow) (h : Takes s ow a take 0) (h0 : take ≠ 0) (d : Bool) :
    Gives s ow a take (.reaping d (s.impl take).retiredNext) := by
  obtain ⟨m, hm, hnd, -, how⟩ := h
  cases m with
  | nil => exact absurd hm h0
  | cons x xs =>
    obtain ⟨rfl, -, hrest⟩ := hm
    obtain ⟨hx, hnd'⟩ := nodup_cons.mp hnd
    have hr := how take mem_cons_self
    exact ⟨(I.owned hr (by simp)).2.2, hr, xs, hrest, hnd', hx,
      fun y hy => how y (mem_cons_of_mem take hy)⟩

theorem Gives.goto (h : Gives s ow a t k) (ha : s.place a ≠ .gone) :
    Gives (s.goto a q) ow a t k := by
  have hgone : (s.goto a q).place t = .gone := by
    refine (update_of_ne ?_ q s.place).trans h.gone
    rintro rfl
    exact ha h.gone
  cases k with
  | joined => exact ⟨hgone, h.2⟩
  | reaping d take => exact ⟨hgone, h.2⟩

theorem Inv.gone_of_done (I : Inv s ow) (hmain : t ≠ mainThread) (hdone : (s.impl t).done = 0)
    (hleft : s.place t ≠ .leaving) : s.place t = .gone := by
  have hend := (I.records t hmain).done.mp hdone
  cases ht : s.place t <;> first | rfl | exact absurd ht hleft | (rw [ht] at hend; exact hend.elim)

theorem Inv.joined (I : Inv s ow) (hp : s.place a = .joinWait t) (hdone : (s.impl t).done = 0)
    (hgone : s.place t ≠ .leaving) : Gives s ow a t .joined := by
  have hok := I.at hp
  exact ⟨I.gone_of_done (I.ne_main (by simp [show ow t = _ from hok])) hdone hgone, hok⟩

/-! ## Joining and detaching -/

theorem listed_update (ht : ow t ≠ .listed) (ho : o ≠ .listed) (x : ℕ) :
    update ow t o x = .listed ↔ ow x = .listed := by
  by_cases hx : x = t
  · subst hx
    simp [ht, ho]
  · rw [update_of_ne hx]

theorem ListOk.push (h : ListOk s ow) (h0 : t ≠ 0) (ht : ow t ≠ .listed) (q : Place) :
    ListOk ((s.push t).goto a q) (update ow t .listed) := by
  obtain ⟨l, hchain, hnd, hmem⟩ := h
  have htl : t ∉ l := fun hin => ht ((hmem t).mp hin)
  have hnext : ∀ x ≠ t, ((s.push t).goto a q).nexts x = s.nexts x := fun x hx => by
    show (update s.impl t _ x).retiredNext = _
    rw [update_of_ne hx]
    rfl
  refine ⟨t :: l, ⟨rfl, h0, ?_⟩, nodup_cons.mpr ⟨htl, hnd⟩, fun x => ?_⟩
  · have hself : ((s.push t).goto a q).nexts t = s.retiredList := by
      show (update s.impl t _ t).retiredNext = _
      rw [update_self]
    rw [hself]
    exact hchain.congr fun x hx => hnext x fun hxt => htl (hxt ▸ hx)
  · by_cases hx : x = t
    · subst hx
      simp
    · rw [update_of_ne hx, mem_cons, ← hmem]
      exact ⟨fun h => h.resolve_left hx, .inr⟩

/-- A step that writes one record and passes it on. -/
theorem Frame.update {i : Impl} (hplace : s'.place = update s.place a q)
    (himpl : s'.impl = update s.impl t i) (hi : i.done = (s.impl t).done)
    (halive : s.place a ≠ .gone) (hmine : ∀ b, (ow t).holder = some b → b = a)
    (htarget : ∀ x, ow x = .detacher a → x = t) (hlisted : ow t ≠ .listed)
    (hself : t ≠ a → ow t ≠ .self) (hlock : s'.retiredLock = s.retiredLock)
    (hfresh : s'.fresh = s.fresh) (hstore : ∀ b, s.place b = .createStore t → o.Keeps)
    (hdecide : q = .exitDone → ∀ b, s.place b ≠ .detachTest a) (htaken : s'.taken = s.taken)
    (hcalled : s.called ⊆ s'.called) : Frame s s' ow (update ow t o) a t where
  place b hb := by rw [hplace, update_of_ne hb]
  alive := halive
  detached x hx := by rw [himpl, update_of_ne hx]
  done x _ := by
    rw [himpl]
    by_cases hx : x = t
    · subst hx
      rw [update_self, hi]
    · rw [update_of_ne hx]
  cleared h := by
    rw [himpl]
    by_cases hx : a = t
    · subst hx
      rw [update_self, hi, h]
    · rw [update_of_ne hx, h]
  next x b hx hb := by
    have hxt : x ≠ t := by
      rintro rfl
      exact hb (hmine b (by rw [hx]; rfl))
    show (s'.impl x).retiredNext = _
    rw [himpl, update_of_ne hxt]
    rfl
  owner x hx := update_of_ne hx o ow
  mine := hmine
  target := htarget
  listed h := absurd h hlisted
  self hta h := absurd h (hself hta)
  lock b _ h := hlock.trans h
  fresh := Nat.le_of_eq hfresh.symm
  store b _ h := by
    rw [update_self]
    exact hstore b h
  decide := by
    rwa [hplace, update_self]
  taken := htaken ▸ List.Subset.refl _
  called := hcalled

namespace Inv

variable (I : Inv s ow)
include I

theorem claim (hp : s.place a = .user) (hj : s.joinable t) (hq : ¬q.Decided)
    (ho : o ≠ .listed) (hok : PlaceOk ((s.call t).goto a q) (update ow t o) a q)
    (howned : Owned ((s.call t).goto a q) t o) : Inv ((s.call t).goto a q) (update ow t o) := by
  obtain ⟨h0, hmain, hlt, -, -, hstore⟩ := State.joinable.spec hj
  have hun := I.unclaimed hj
  have hplain : (s.place a).Plain := by rw [hp]; trivial
  have F : Frame s ((s.call t).goto a q) ow (update ow t o) a t := Frame.update rfl
    (update_eq_self t s.impl).symm rfl (by simp [hp]) (fun b hb => by rw [hun] at hb; cases hb)
    (fun x hx => absurd hx (I.not_detacher hplain x)) (by simp [hun])
    (fun _ => by simp [hun]) rfl rfl (fun b hb => absurd hb (I.nobodyAt (by simp) hstore b))
    (fun h => by subst h; exact absurd trivial hq) rfl (subset_cons_self t s.called)
  have hnew : ((s.call t).goto a q).place a = q := by simp [State.goto]
  refine F.inv_running I (by simp [hp])
    (by rw [hp]; exact id) (by rwa [hnew]) (by simp [hp, Place.given]) rfl ?_ (by rwa [hnew])
    (fun _ => ⟨?_, ?_, fun _ => .inr mem_cons_self⟩) (.inl ⟨h0, hmain, hlt⟩) (by simp [hun]) rfl rfl
  · exact I.list.congr rfl (fun _ _ => rfl) (listed_update (by simp [hun]) ho)
  · rwa [update_self]
  refine (I.records t hmain).done.trans ?_
  by_cases hta : t = a
  · subst hta
    rw [hnew, hp]
    exact ⟨False.elim, fun h => absurd h.decided hq⟩
  · rw [F.place t hta]

theorem detaching (hp : (s.place a).detaches t) {i : Impl}
    (how : ow t = .detacher a) (hq : ¬q.Decided) (hi : i.done = (s.impl t).done) (hkeeps : o.Keeps)
    (hplace : s'.place = update s.place a q) (himpl : s'.impl = update s.impl t i)
    (hrest : s'.retiredLock = s.retiredLock ∧ s'.fresh = s.fresh ∧ s'.taken = s.taken ∧ s'.called =
      s.called ∧ s'.frees = s.frees ∧ s'.late = s.late) (hlist : ListOk s' (update ow t o))
    (hok : PlaceOk s' (update ow t o) a q) (hdet : i.detached) (howned : Owned s' t o) :
    Inv s' (update ow t o) := by
  obtain ⟨hlock, hfresh, htaken, hcalled, hfrees, hlate⟩ := hrest
  have hmain := I.ne_main (by rw [how]; simp)
  obtain ⟨h0, hlt⟩ := I.lt_of_owner (by rw [how]; simp)
  have hsame : ∀ x, (s.place a).detaches x → x = t := by
    intro x hx
    rcases hp with hp | hp | hp <;> simpa [Place.detaches, hp, eq_comm] using hx
  have hold : ¬(s.place a).Decided := by
    rcases hp with hp | hp | hp <;> rw [hp] <;> exact id
  have F : Frame s s' ow (update ow t o) a t := by
    refine Frame.update hplace himpl hi (fun h => hold (by rw [h]; trivial)) (fun b hb => ?_)
      (fun x hx => ?_) (by simp [how]) (fun _ => by simp [how]) hlock hfresh (fun _ _ => hkeeps)
      (fun h => by subst h; exact absurd trivial hq) htaken (hcalled ▸ List.Subset.refl _)
    · rw [how] at hb
      exact (Option.some.inj hb).symm
    · exact hsame x (I.owned hx (by simp))
  have hnew : s'.place a = q := by rw [hplace, update_self]
  have hit : s'.impl t = i := by rw [himpl, update_self]
  refine F.inv_running I ?_ hold (by rwa [hnew]) ?_ ?_ hlist (by rwa [hnew])
    (fun _ => ⟨?_, ?_, fun _ => .inl ?_⟩) (.inl ⟨h0, hmain, hfresh ▸ hlt⟩)
    (by simp [how]) hfrees hlate
  · rcases hp with hp | hp | hp <;> simp [hp]
  · rcases hp with hp | hp | hp <;> simp [hp, Place.given]
  · by_cases hat : a = t
    · subst hat
      rw [hit, hi]
    · rw [himpl, update_of_ne hat]
  · rwa [update_self]
  · rw [hit, hi, (I.records t hmain).done]
    by_cases hta : t = a
    · subst hta
      rw [hnew]
      exact ⟨fun h => absurd h.decided hold, fun h => absurd h.decided hq⟩
    · rw [F.place t hta]
  · rw [hit, hdet]

theorem detachSet (hp : s.place a = .detachSet t) (ht : s.place t ≠ .exitDone) :
    Inv ((s.set t { s.impl t with detached := true }).goto a (.detachTest t)) ow := by
  have hok := I.at hp
  rw [← update_eq_self t ow, hok.1]
  refine I.detaching (.inl hp) hok.1 id (i := { s.impl t with detached := true }) rfl trivial rfl
    rfl ⟨rfl, rfl, rfl, rfl, rfl, rfl⟩ ?_ ⟨update_self .., ?_, ?_⟩ rfl ?_
  · rw [← hok.1, update_eq_self]
    refine I.list.congr rfl (fun x hx => ?_) fun _ => Iff.rfl
    have hxt : x ≠ t := by
      rintro rfl
      exact absurd (hx.symm.trans hok.1) (by simp)
    exact congrArg Impl.retiredNext (update_of_ne hxt _ s.impl)
  · exact congrArg Impl.detached (update_self t _ s.impl)
  · by_cases hta : t = a
    · subst hta
      exact fun h => by simp [State.goto] at h
    · exact fun h => ht ((update_of_ne hta _ s.place).symm.trans h)
  · exact .inr (.inl (update_self ..))

theorem detachTest (hp : s.place a = .detachTest t) :
    ∃ ow', Inv (if (s.impl t).done = 0 then s.goto a (.detachPush t) else s.goto a .user) ow' := by
  obtain ⟨how, hdet, hnot⟩ := I.at hp
  have hmain := I.ne_main (by rw [how]; simp)
  have himpl := (update_eq_self t s.impl).symm
  split
  · rename_i hdone
    refine ⟨update ow t (.detacher a), I.detaching (.inr (.inl hp)) how id rfl trivial rfl himpl
      ⟨rfl, rfl, rfl, rfl, rfl, rfl⟩ ?_ ⟨update_self .., hdet, hdone⟩ hdet (.inr (.inr ?_))⟩
    · rw [← how, update_eq_self]
      exact I.list
    · exact update_self ..
  rename_i hdone
  refine ⟨update ow t .self, I.detaching (.inr (.inl hp)) how id rfl trivial rfl himpl
    ⟨rfl, rfl, rfl, rfl, rfl, rfl⟩ ?_ trivial hdet ⟨hdet, ?_⟩⟩
  · exact I.list.congr rfl (fun _ _ => rfl) (listed_update (by simp [how]) (by simp))
  by_cases hta : t = a
  · subst hta
    exact fun h => by simp [State.goto, Place.Decided] at h
  show ¬(update s.place a _ t).Decided
  rw [update_of_ne hta]
  have hend := mt (I.records t hmain).done.mpr hdone
  cases ht : s.place t <;> rw [ht] at hend hnot <;>
    first | exact id | exact absurd trivial hend | exact absurd rfl hnot

theorem detachPush (hp : s.place a = .detachPush t) :
    Inv ((s.push t).goto a .user) (update ow t .listed) := by
  obtain ⟨how, hdet, hdone⟩ := I.at hp
  have hmain := I.ne_main (by rw [how]; simp)
  have hend := (I.records t hmain).done.mp hdone
  refine I.detaching (.inr (.inr hp)) how id (i := { s.impl t with retiredNext := s.retiredList })
    rfl trivial rfl rfl ⟨rfl, rfl, rfl, rfl, rfl, rfl⟩ ?_ trivial hdet ⟨?_, ?_⟩
  · exact I.list.push (I.lt_of_owner (by rw [how]; simp)).1 (by simp [how]) _
  · exact (congrArg Impl.detached (update_self t _ s.impl)).trans hdet
  show (update s.place a _ t).Decided
  rw [update_of_ne]
  · exact hend.decided
  rintro rfl
  rwa [hp] at hend

end Inv

/-! ## Reaping -/

theorem State.assign_impl (s : State) (pp v x : ℕ) : (s.assign pp v).impl x =
    if x = pp ∧ pp ≠ 0 then { s.impl x with retiredNext := v } else s.impl x := by
  by_cases h0 : pp = 0
  · simp [State.assign, h0]
  by_cases hx : x = pp
  · subst hx
    simp [State.assign, State.set, h0]
  · simp [State.assign, State.set, h0, hx]

theorem State.unlink_impl (s : State) (pp take t x : ℕ) :
    (s.unlink pp take t).impl x = { s.impl x with
      retiredNext :=
      if x = t then take else if x = pp ∧ pp ≠ 0 then s.nexts t else s.nexts x } := by
  have hunlink : (s.unlink pp take t).impl x =
      if x = t then { (s.assign pp (s.nexts t)).impl t with retiredNext := take }
      else (s.assign pp (s.nexts t)).impl x := update_apply ..
  rw [hunlink, State.assign_impl, State.assign_impl]
  by_cases hx : x = t
  · subst hx
    simp only [if_true]
    split <;> rfl
  · simp only [hx, if_false]
    split <;> rfl

theorem State.unlink_flags (s : State) (pp take t x : ℕ) :
    ((s.unlink pp take t).impl x).detached = (s.impl x).detached ∧
      ((s.unlink pp take t).impl x).done = (s.impl x).done := by
  rw [State.unlink_impl]
  exact ⟨rfl, rfl⟩

theorem State.unlink_nexts (s : State) (pp take t x : ℕ) : (s.unlink pp take t).nexts x =
    if x = t then take else if x = pp ∧ pp ≠ 0 then s.nexts t else s.nexts x :=
  congrArg Impl.retiredNext (s.unlink_impl pp take t x)

theorem State.unlink_rest (s : State) (pp take t : ℕ) :
    (s.unlink pp take t).place = s.place ∧ (s.unlink pp take t).retiredLock = s.retiredLock ∧
      (s.unlink pp take t).fresh = s.fresh ∧ (s.unlink pp take t).called = s.called ∧
      (s.unlink pp take t).frees = s.frees ∧ (s.unlink pp take t).late = s.late ∧
      (s.unlink pp take t).taken = t :: s.taken := by
  simp only [State.unlink, State.assign]
  split <;> exact ⟨rfl, rfl, rfl, rfl, rfl, rfl, rfl⟩

/-- The list closes over the record that is taken. -/
theorem ListOk.unlink (h : ListOk s ow) (hpp : pp ≠ 0 → ow pp = .listed) (h0 : s.deref pp ≠ 0)
    (take a b : ℕ) (q : Place) :
    ListOk ((s.unlink pp take (s.deref pp)).goto a q) (update ow (s.deref pp) (.reaper b)) := by
  obtain ⟨l, hchain, hnd, hmem⟩ := h
  refine ⟨l.erase (s.deref pp), ?_, hnd.erase _, fun x => ?_⟩
  · by_cases hz : pp = 0
    · have ht : s.deref pp = s.retiredList := if_pos hz
      have hlist :
          ((s.unlink pp take (s.deref pp)).goto a q).retiredList = s.nexts (s.deref pp) := by
        simp only [State.unlink, State.assign, if_pos hz]
        rfl
      rw [hlist, ht]
      rw [ht] at h0
      refine hchain.erase_head hnd h0 fun y _ hy => ?_
      refine (State.unlink_nexts s pp take _ y).trans ?_
      rw [if_neg hy, if_neg fun h => h.2 hz]
    · have ht : s.deref pp = s.nexts pp := if_neg hz
      have hlist : ((s.unlink pp take (s.deref pp)).goto a q).retiredList = s.retiredList := by
        simp only [State.unlink, State.assign, if_neg hz]
        rfl
      have hppl := (hmem pp).mpr (hpp hz)
      rw [hlist, ht]
      rw [ht] at h0
      refine hchain.erase_next hnd hppl h0 ?_ fun y _ hy hyt => ?_
      · refine (State.unlink_nexts s pp take _ pp).trans ?_
        rw [if_neg (hchain.next_ne hnd hppl).symm, if_pos ⟨rfl, hz⟩]
      · refine (State.unlink_nexts s pp take _ y).trans ?_
        rw [if_neg hyt, if_neg fun h => hy h.1]
  · by_cases hx : x = s.deref pp
    · subst hx
      simp [hnd.not_mem_erase]
    · rw [update_of_ne hx, mem_erase_of_ne hx]
      exact hmem x

namespace Inv

variable (I : Inv s ow)
include I

/-- A pass of the walk that takes the record `*pp`. -/
theorem unlink (hp : s.place a = .walk d pp take) (h0 : s.deref pp ≠ 0)
    (hgone : s.place (s.deref pp) = .gone) (hstore : s.nobodyAt (.createStore (s.deref pp))) :
    Inv ((s.unlink pp take (s.deref pp)).goto a (.walk d pp (s.deref pp)))
    (update ow (s.deref pp) (.reaper a)) := by
  have hl := I.deref_listed hp h0
  obtain ⟨hlock, hpp, m, hm, hnd, -, how⟩ := I.at hp
  have hlist := I.list.unlink hpp h0 take a a (.walk d pp (s.deref pp))
  have hne : pp ≠ 0 → pp ≠ s.deref pp := by
    intro hz
    obtain ⟨l, hchain, hlnd, hmem⟩ := I.list
    rw [show s.deref pp = s.nexts pp from if_neg hz]
    exact (hchain.next_ne hlnd ((hmem pp).mpr (hpp hz))).symm
  generalize s.deref pp = t at *
  have hmain := I.ne_main (by rw [hl]; simp)
  obtain ⟨-, hlt⟩ := I.lt_of_owner (by rw [hl]; simp)
  obtain ⟨hplace, hlock', hfresh, hcalled, hfrees, hlate, htaken⟩ := s.unlink_rest pp take t
  have hplain : (s.place a).Plain := by rw [hp]; trivial
  have hold := I.owned hl (by simp)
  have hta : t ≠ a := by
    rintro rfl
    simp [hp] at hgone
  -- the records that other reapers, or this one, have taken are on no list
  have hnext : ∀ x b, ow x = .reaper b → (s.unlink pp take t).nexts x = s.nexts x := by
    intro x b hx
    rw [State.unlink_nexts, if_neg, if_neg]
    · rintro ⟨rfl, hz⟩
      exact absurd (hx.symm.trans (hpp hz)) (by simp)
    · rintro rfl
      exact absurd (hx.symm.trans hl) (by simp)
  have F : Frame s ((s.unlink pp take t).goto a (.walk d pp t)) ow (update ow t (.reaper a)) a t :=
    { place := fun b hb => (update_of_ne hb _ _).trans (congrFun hplace b)
      alive := by simp [hp]
      detached := fun x _ => (s.unlink_flags pp take t x).1
      done := fun x _ => (s.unlink_flags pp take t x).2
      cleared := (s.unlink_flags pp take t a).2.trans
      next := fun x b hx _ => hnext x b hx
      owner := fun x hx => update_of_ne hx _ ow
      mine := fun b hb => by rw [hl] at hb; cases hb
      target := fun x hx => absurd hx (I.not_detacher hplain x)
      listed := fun _ => .inr hlock
      self := fun _ h => absurd (h.symm.trans hl) (by simp)
      lock := fun b _ h => hlock'.trans h
      fresh := Nat.le_of_eq hfresh.symm
      store := fun b _ h => absurd h (I.nobodyAt (by simp) hstore b)
      decide := fun h => by simp [State.goto] at h
      taken := fun x hx => by
        show x ∈ (s.unlink pp take t).taken
        rw [htaken]
        exact mem_cons_of_mem t hx
      called := fun x hx => by
        show x ∈ (s.unlink pp take t).called
        rwa [hcalled] }
  have hnew : ((s.unlink pp take t).goto a (.walk d pp t)).place a =
      .walk d pp t := by simp [State.goto]
  refine F.inv_running I (by simp [hp]) (by rw [hp]; exact id) (by rw [hnew]; exact id) hplain.given
    (s.unlink_flags pp take t a).2 hlist ?_ (fun _ => ⟨?_, ?_, fun _ => .inl ?_⟩)
    (.inl ⟨h0, hmain, hfresh ▸ hlt⟩) (by simp [hl]) hfrees hlate
  · rw [hnew]
    refine ⟨hlock'.trans hlock, fun hz => ?_, t :: m, ⟨rfl, h0, ?_⟩, ?_, ?_, fun x hx => ?_⟩
    · rw [update_of_ne (hne hz), hpp hz]
    · show Chain (s.unlink pp take t).nexts ((s.unlink pp take t).nexts t) m
      rw [State.unlink_nexts, if_pos rfl]
      exact hm.congr fun x hx => hnext x a (how x hx)
    · refine nodup_cons.mpr ⟨fun hmem => ?_, hnd⟩
      exact absurd (hl.symm.trans (how t hmem)) (by simp)
    · refine fun hmem => (mem_cons.mp hmem).elim (fun h => h0 h.symm) fun h => hm.ne_zero h rfl
    by_cases hxt : x = t
    · subst hxt
      rw [update_self]
    · rw [update_of_ne hxt]
      exact how x ((mem_cons.mp hx).resolve_left hxt)
  · rw [update_self]
    refine ⟨(s.unlink_flags pp take t t).1.trans hold.1, ?_, (F.place t hta).trans hgone⟩
    show t ∈ (s.unlink pp take t).taken
    exact mem_cons_self
  · rw [F.place t hta]
    exact (Eq.congr_left (s.unlink_flags pp take t t).2).trans (I.records t hmain).done
  · exact (s.unlink_flags pp take t t).1.trans hold.1

/-- The owner that a thread has while it is given back, and the one it has afterwards. -/
theorem owned_given (hg : Gives s ow a t k) (ho : o = ow t ∨ o = .dead) : Owned s t o := by
  rcases ho with rfl | rfl
  · exact (I.records t (I.ne_main fun h => by simpa [h, Owner.holder] using hg.holder)).owned
  cases k with
  | joined => exact ⟨hg.1, .inr (I.owned hg.2 (by simp))⟩
  | reaping d take => exact ⟨hg.1, .inl (I.owned hg.2.1 (by simp)).2.1⟩

theorem give (hg : Gives s ow a t k) (hhere : s.place a ≠ .absent)
    (hrun : ¬(s.place a).Decided) (hnew : ¬q.Decided) (hplain : ∀ x, ¬(s.place a).detaches x)
    (honly : ∀ x ≠ t, (s.place a).given x = [])
    (hpart : p ∉ (s.place a).given t) (ho : o = ow t ∨ o = .dead)
    (hgiven : o = .dead ∨ p ∈ q.given t ∧ (s.place a).given t ⊆ q.given t)
    (hok : PlaceOk ((s.free t p).goto a q) (update ow t o) a q) :
    Inv ((s.free t p).goto a q) (update ow t o) := by
  have hhold := hg.holder
  have hnot : ∀ o', o'.holder = none → ow t ≠ o' := fun o' h h' => by
    simp [h', h] at hhold
  have hmain := I.ne_main (hnot .unclaimed rfl)
  obtain ⟨h0, hlt⟩ := I.lt_of_owner (hnot .unclaimed rfl)
  have hta : t ≠ a := by
    rintro rfl
    exact hrun (by rw [hg.gone]; trivial)
  have hdet : ∀ x, ow x ≠ .detacher a := fun x hx => hplain x (I.owned hx (by simp))
  have F : Frame s ((s.free t p).goto a q) ow (update ow t o) a t :=
    Frame.update rfl (update_eq_self t s.impl).symm rfl
      (fun h => hrun (by rw [h]; trivial)) (fun b hb => Option.some.inj (hb.symm.trans hhold))
      (fun x hx => absurd hx (hdet x)) (hnot _ rfl) (fun _ => hnot _ rfl) rfl rfl
      (fun b hb => absurd (I.at hb).1 hg.not_keeps)
      (fun h => by subst h; exact absurd trivial hnew) rfl (List.Subset.refl _)
  have hplace : ((s.free t p).goto a q).place a = q := by simp [State.goto]
  have hgone := (F.place t hta).trans hg.gone
  refine F.inv I ⟨(I.lt_of_place hhere).1, (I.lt_of_place hhere).2⟩ ?_ (by rwa [hplace])
    (fun ha => ?_) (fun _ => ⟨?_, ?_, ?_⟩) (.inl ⟨h0, hmain, hlt⟩) ?_ ?_ I.late
  · refine I.list.congr rfl (fun _ _ => rfl) (listed_update (hnot .listed rfl) ?_)
    rcases ho with rfl | rfl
    · exact hnot .listed rfl
    · simp
  · exact (I.records a ha).moved (update_of_ne hta.symm o ow) F.place rfl rfl F.called (hdet a) hrun
      (by rwa [hplace])
  · rw [update_self]
    have hold := I.owned_given hg ho
    cases o with
    | unclaimed => exact hold
    | joiner b => exact hold
    | detacher b =>
      rcases ho with ho | ho
      · rw [← ho] at hhold
        cases hhold
        exact absurd ho.symm (hdet t)
      · cases ho
    | self => exact absurd hold.2 fun h => h (by rw [hg.gone]; trivial)
    | listed => exact ⟨hold.1, by rw [hgone]; trivial⟩
    | reaper b => exact ⟨hold.1, hold.2.1, hgone⟩
    | dead => exact ⟨hgone, hold.2⟩
  · rw [hgone, ← hg.gone]
    exact (I.records t hmain).done
  · exact fun _ => (I.records t hmain).claimed (hnot .unclaimed rfl)
  · exact nodup_cons.mpr ⟨I.unused_of_gives hg hpart, I.nodup⟩
  · intro x r hmem
    have hcases : x = t ∧ r ∈ p :: (s.place a).given t ∨
        x ≠ t ∧ (ow x = .dead ∨ ∃ b ≠ a, r ∈ (s.place b).given x) := by
      rcases mem_cons.mp hmem with hhead | hin
      · cases hhead
        exact .inl ⟨rfl, mem_cons_self⟩
      by_cases hx : x = t
      · subst hx
        exact .inl ⟨rfl, mem_cons_of_mem p (I.given_of_freed hhold hin)⟩
      refine .inr ⟨hx, (I.frees x r hin).imp id ?_⟩
      rintro ⟨b, hb⟩
      refine ⟨b, ?_, hb⟩
      rintro rfl
      simp [honly x hx] at hb
    rcases hcases with ⟨rfl, hr⟩ | ⟨hx, hdead | ⟨b, hb, hr⟩⟩
    · rcases hgiven with rfl | ⟨hp, hsub⟩
      · exact .inl (update_self ..)
      refine .inr ⟨a, ?_⟩
      rw [hplace]
      exact (mem_cons.mp hr).elim (fun h => h ▸ hp) fun h => hsub h
    · exact .inl ((update_of_ne hx o ow).trans hdead)
    · exact .inr ⟨b, by rwa [F.place b hb]⟩

theorem unmap (hp : s.place a = .unmap t k) : Inv ((s.free t .stack).goto a (.freeTls t k)) ow := by
  have hok := I.at hp
  rw [← update_eq_self t ow]
  refine I.give hok (by simp [hp]) (by rw [hp]; exact id) id (by simp [hp, Place.detaches])
    (by simp [hp, Place.given]) (by simp [hp, Place.given]) (.inl rfl)
    (.inr (by simp [hp, Place.given])) ?_
  rw [update_eq_self]
  exact Gives.goto (by cases k <;> exact hok) (by simp [State.free, hp])

theorem freeTls (hp : s.place a = .freeTls t k) :
    Inv ((s.free t .tls).goto a (.freeRecord t k)) ow := by
  have hok := I.at hp
  rw [← update_eq_self t ow]
  refine I.give hok (by simp [hp]) (by rw [hp]; exact id) id (by simp [hp, Place.detaches])
    (fun x hx => by simp [hp, Place.given, hx.symm]) (by simp [hp, Place.given]) (.inl rfl)
    (.inr (by simp [hp, Place.given])) ?_
  rw [update_eq_self]
  exact Gives.goto (by cases k <;> exact hok) (by simp [State.free, hp])

theorem freeRecord (hp : s.place a = .freeRecord t k) :
    Inv ((s.free t .record).goto a k.place) (update ow t .dead) := by
  have hok := I.at hp
  refine I.give hok (by simp [hp]) (by rw [hp]; exact id) (by cases k <;> exact id)
    (by simp [hp, Place.detaches]) (fun x hx => by simp [hp, Place.given, hx.symm])
    (by simp [hp, Place.given]) (.inr rfl) (.inl rfl) ?_
  cases k with
  | joined => trivial
  | reaping d take =>
    obtain ⟨-, -, m, hm, hnd, ht, how⟩ := hok
    refine ⟨m, hm, hnd, fun h => hm.ne_zero h rfl, fun x hx => ?_⟩
    have hxt : x ≠ t := fun h => ht (h ▸ hx)
    rw [update_of_ne hxt]
    exact how x hx

end Inv

/-! ## Creating and ending -/

theorem Inv.clone (I : Inv s ow) (d : Bool) :
    Inv (s.clone d) (update ow s.fresh (if d then .self else .unclaimed)) := by
  obtain ⟨habs, hun⟩ := I.absent s.fresh (.inr (Nat.le_refl _))
  have hmain : s.fresh ≠ mainThread := (Nat.ne_of_lt I.main_lt).symm
  have hnew : (s.clone d).place s.fresh = .user := by simp [State.clone, State.goto]
  have himpl : (s.clone d).impl s.fresh = ⟨d, 1, 0⟩ := by simp [State.clone, State.goto, State.set]
  have hrec := I.records s.fresh hmain
  have hsame : ∀ x ≠ s.fresh, (s.clone d).impl x = s.impl x := fun x hx =>
    update_of_ne hx _ s.impl
  have hdone : (s.impl s.fresh).done ≠ 0 := fun h => by
    have hend := hrec.done.mp h
    rwa [habs] at hend
  have hne : ∀ x, ow x ≠ .unclaimed → x ≠ s.fresh := fun x hx h => hx (h ▸ hun)
  have F : Frame s
      (s.clone d) ow (update ow s.fresh (if d then .self else .unclaimed)) s.fresh s.fresh :=
    { place := fun b hb => update_of_ne hb _ s.place
      alive := by simp [habs]
      detached := fun x hx => by rw [hsame x hx]
      done := fun x hx => by rw [hsame x hx]
      cleared := fun h => absurd h hdone
      next := fun x b hx _ => congrArg Impl.retiredNext (hsame x (hne x (by simp [hx])))
      owner := fun x hx => update_of_ne hx _ ow
      mine := fun b hb => by rw [hun] at hb; cases hb
      target := fun x hx => by simpa [Owned, Place.detaches, habs] using I.owned hx (by simp)
      listed := fun h => absurd (h.symm.trans hun) (by simp)
      self := fun h => absurd rfl h
      lock := fun _ _ h => h
      fresh := Nat.le_succ _
      store := fun b _ hb => absurd (I.at hb).2 (Nat.lt_irrefl _)
      decide := fun h => by rw [hnew] at h; cases h
      taken := List.Subset.refl _
      called := List.Subset.refl _ }
  have hrecord : RecordOk (s.clone d)
      (update ow s.fresh (if d then .self else .unclaimed)) s.fresh := by
    refine ⟨?_, ?_, ?_⟩
    · rw [update_self]
      cases d with
      | false => exact congrArg Impl.detached himpl
      | true => exact ⟨congrArg Impl.detached himpl, by rw [hnew]; exact id⟩
    · rw [himpl, hnew]
      exact ⟨fun h => absurd h (by simp), False.elim⟩
    rw [update_self, himpl]
    cases d with
    | false => exact fun h => absurd rfl h
    | true => exact fun _ => .inl rfl
  have h0 : s.fresh ≠ 0 := Nat.ne_of_gt (Nat.lt_of_le_of_lt (Nat.zero_le _) I.main_lt)
  refine F.inv I ⟨h0, Nat.lt_succ_self _⟩ ?_ (by rw [hnew]; trivial) (fun _ => hrecord)
    (fun _ => hrecord) (.inl ⟨h0, hmain, Nat.lt_succ_self _⟩) I.nodup
    (F.freesOk I.frees rfl (by simp [hun]) (by simp [habs, Place.given])) I.late
  · exact I.list.congr rfl (fun x hx => congrArg Impl.retiredNext (hsame x (hne x (by simp [hx]))))
      (listed_update (by simp [hun]) (by cases d <;> simp))

/-- A thread that comes nearer to its end keeps its owner, once the owner is settled. -/
theorem RecordOk.parted (h : RecordOk s ow a)
    (hself : ow a ≠ .self) (hgone : s.place a ≠ .gone) (hplace : ∀ b ≠ a, s'.place b = s.place b)
    (hdetached : (s'.impl a).detached = (s.impl a).detached)
    (hcalled : s'.called = s.called) (hdet : ow a ≠ .detacher a) (hnew : (s'.place a).Decided)
    (hdone : (s'.impl a).done = 0 ↔ (s'.place a).Ended) : RecordOk s' ow a := by
  obtain ⟨howned, -, hclaimed⟩ := h
  refine ⟨?_, hdone, by rwa [hdetached, hcalled]⟩
  cases ho : ow a with
  | detacher b =>
    have hba : b ≠ a := fun hba => hdet (hba ▸ ho)
    simpa [ho, Owned, hplace b hba] using howned
  | _ => simp_all [Owned]

namespace Inv

variable (I : Inv s ow)
include I

/-- A step that only leads nearer to the end. -/
theorem part (hplain : (s.place a).Plain) (hself : a ≠ mainThread → ow a ≠ .self)
    (hdecide : q = .exitDone → ∀ b, s.place b ≠ .detachTest a) (hok : PlaceOk (s.goto a q) ow a q)
    (hq : q.Decided) (hend : (s.place a).Ended ↔ q.Ended) : Inv (s.goto a q) ow := by
  refine I.move hplain q s.impl s.retiredLock s.liveThreads s.ended (fun _ _ h => h) rfl
    (fun _ => ⟨rfl, rfl⟩) (fun _ _ => rfl) id hdecide hok fun hmain => ?_
  have hplace : (s.goto a q).place a = q := update_self ..
  refine (I.records a hmain).parted (hself hmain) (fun hgone => by rwa [hgone] at hplain)
    (fun b hb => update_of_ne hb _ s.place) rfl rfl (I.not_detacher hplain a) (hplace.symm ▸ hq) ?_
  rw [hplace, ← hend]
  exact (I.records a hmain).done

/-- A detached thread that is about to exit and is not being detached retires itself. -/
theorem owner_self (hmain : a ≠ mainThread) (hdet : (s.impl a).detached)
    (hrun : ¬(s.place a).Decided) (hbusy : ∀ b, s.place b ≠ .detachTest a) : ow a = .self := by
  obtain ⟨howned, hdone, -⟩ := I.records a hmain
  cases ho : ow a with
  | self => rfl
  | detacher b =>
    rw [ho] at howned
    rcases howned with hp | hp | hp
    · simpa [hdet] using (I.at hp).2
    · exact absurd hp (hbusy b)
    · exact absurd (hdone.mp (I.at hp).2.2).decided hrun
  | _ => simp_all [Owned, Place.Decided]

theorem exitTest (hp : s.place a = .exitTest) (hbusy : ∀ b, s.place b ≠ .detachTest a) :
    Inv (if (s.impl a).detached ∧ a ≠ mainThread then s.goto a .exitPush
      else s.goto a .exitDone) ow := by
  have hplain : (s.place a).Plain := by rw [hp]; trivial
  have hrun : ¬(s.place a).Decided := by rw [hp]; exact id
  split
  · rename_i h
    exact I.goto' hp trivial id id (I.owner_self h.2 h.1 hrun hbusy)
  rename_i h
  refine I.part hplain (fun hmain hself => ?_)
    (fun _ => hbusy) trivial trivial (by rw [hp]; exact Iff.rfl)
  exact h ⟨(I.owned hself (by simp)).1, hmain⟩

theorem exitPush (hp : s.place a = .exitPush) :
    Inv ((s.push a).goto a .exitDone) (update ow a .listed) := by
  have hself : ow a = .self := I.at hp
  have hne : ow a ≠ .unclaimed := by simp [hself]
  have hmain := I.ne_main hne
  obtain ⟨h0, hlt⟩ := I.lt_of_owner hne
  have howned := I.owned hself (by simp)
  have hplain : (s.place a).Plain := by rw [hp]; trivial
  have F : Frame s ((s.push a).goto a .exitDone) ow (update ow a .listed) a a :=
    Frame.update rfl rfl rfl (by simp [hp]) (fun b hb => by rw [hself] at hb; cases hb)
    (fun x hx => absurd hx (I.not_detacher hplain x)) (by simp [hself])
    (fun h => absurd rfl h) rfl rfl (fun _ _ => trivial)
    (fun _ b hb => absurd (hself.symm.trans (I.at hb).1) (by simp)) rfl (List.Subset.refl _)
  have hplace : ((s.push a).goto a .exitDone).place a = .exitDone := by simp [State.goto]
  have himpl : ((s.push a).goto a .exitDone).impl a =
      { s.impl a with retiredNext := s.retiredList } := by
    simp [State.goto, State.push, State.set]
  have hrec : RecordOk ((s.push a).goto a .exitDone) (update ow a .listed) a := by
    refine ⟨?_, ?_, fun _ => .inl ?_⟩
    · rw [update_self]
      exact ⟨by rw [himpl]; exact howned.1, by rw [hplace]; trivial⟩
    · rw [himpl, hplace]
      exact (I.records a hmain).done.trans (by rw [hp]; exact Iff.rfl)
    · rw [himpl]
      exact howned.1
  exact F.inv I ⟨h0, hlt⟩ (I.list.push h0 (by simp [hself]) _) (by rw [hplace]; trivial)
    (fun _ => hrec) (fun _ => hrec) (.inl ⟨h0, hmain, hlt⟩) I.nodup
    (F.freesOk I.frees rfl (by simp [hself]) hplain.given) I.late

theorem exitDone (hp : s.place a = .exitDone) :
    Inv ((s.set a { s.impl a with done := 0 }).goto a .leaving) ow := by
  have hplain : (s.place a).Plain := by rw [hp]; trivial
  have hsame : ∀ x, (update s.impl a { s.impl a with done := 0 } x).detached = (s.impl x).detached ∧
      (update s.impl a { s.impl a with done := 0 } x).retiredNext = (s.impl x).retiredNext := by
    intro x
    rw [update_apply]
    split
    · rename_i hx
      rw [hx]
      exact ⟨rfl, rfl⟩
    · exact ⟨rfl, rfl⟩
  have hdone : (update s.impl a { s.impl a with done := 0 } a).done = 0 := by rw [update_self]
  refine I.move hplain .leaving _ s.retiredLock s.liveThreads s.ended (fun _ _ h => h) rfl hsame
    (fun x hx => congrArg Impl.done (update_of_ne hx _ s.impl)) (fun _ => hdone)
    (fun h => by cases h) trivial fun hmain => ?_
  have hplace : ((s.set a { s.impl a with done := 0 }).goto a .leaving).place a =
      .leaving := by simp [State.goto]
  refine (I.records a hmain).parted (fun hself => ?_) (by simp [hp])
    (fun b hb => update_of_ne hb _ s.place) (hsame a).1 rfl (I.not_detacher hplain a)
    (hplace.symm ▸ trivial) ?_
  · exact (I.owned hself (by simp)).2 (by rw [hp]; trivial)
  · rw [hplace]
    exact ⟨fun _ => trivial, fun _ => hdone⟩

theorem leaving (hp : s.place a = .leaving) : Inv (s.goto a .gone) ow := by
  refine I.part (by rw [hp]; trivial) (fun _ hself => ?_) (fun h => by cases h) trivial trivial
    (by rw [hp]; exact Iff.rfl)
  exact (I.owned hself (by simp)).2 (by rw [hp]; trivial)

end Inv

/-! ## Runs -/

theorem Inv.user (I : Inv s ow) (hp : s.place a = .user) (hended : s.ended = false)
    (hs : s.orderly (a, act)) : ∃ ow', Inv (s.next a act) ow' := by
  have hplain : (s.place a).Plain := by rw [hp]; trivial
  have hrun : ¬(s.place a).Decided := by rw [hp]; exact id
  simp only [State.orderly, hended, Bool.false_or, hp] at hs
  simp only [State.next, hp]
  cases act with
  | create d => exact ⟨ow, I.goto' hp trivial id id trivial⟩
  | exit =>
    simp only
    split
    · -- the process ends: the others stay where they are
      refine ⟨ow, ?_⟩
      have h := I.goto hplain hrun hrun s.retiredLock (s.liveThreads - 1) true (fun _ _ h => h)
        (by rw [hp]; trivial)
      rwa [update_eq_self] at h
    · exact ⟨ow, I.goto hplain hrun id s.retiredLock (s.liveThreads - 1) s.ended (fun _ _ h => h)
        trivial⟩
  | join t =>
    simp only
    split
    · exact ⟨ow, I⟩
    rename_i hself
    simp only [Bool.or_eq_true, decide_eq_true_eq, or_assoc] at hs
    have hj := (hs.resolve_left fun h => hself (.inl h)).resolve_left fun h => hself (.inr h)
    have hdet := (State.joinable.spec hj).2.2.2.1
    rw [if_neg (by simp [hdet])]
    exact ⟨_, I.claim hp hj id (by simp) (update_self ..) hdet⟩
  | detach t =>
    simp only
    split
    · exact ⟨ow, I⟩
    rename_i h0
    simp only [Bool.or_eq_true, decide_eq_true_eq] at hs
    have hj := hs.resolve_left h0
    have hdet := (State.joinable.spec hj).2.2.2.1
    rw [if_neg (by simp [hdet])]
    exact ⟨_, I.claim hp hj id (by simp) ⟨update_self .., hdet⟩
      (.inl (update_self ..))⟩
  | go => exact ⟨ow, I⟩
  | refuse => exact ⟨ow, I⟩

theorem Inv.walk (I : Inv s ow) (hp : s.place a = .walk d pp take)
    (hleft : s.place (s.deref pp) ≠ .leaving) (hstore : s.nobodyAt (.createStore (s.deref pp))) :
    ∃ ow', Inv (s.next a act) ow' := by
  have hplain : (s.place a).Plain := by rw [hp]; trivial
  have hrun : ¬(s.place a).Decided := by rw [hp]; exact id
  have hok := I.at hp
  simp only [State.next, hp]
  split
  · refine ⟨ow, I.goto hplain hrun id none s.liveThreads s.ended (fun b hb h => ?_) hok.2.2⟩
    exact absurd (Option.some.inj (h.symm.trans hok.1)) hb
  rename_i h0
  have hl := I.deref_listed hp h0
  split
  · rename_i hdone
    have hmain := I.ne_main (by rw [hl]; simp)
    exact ⟨_, I.unlink hp h0 (I.gone_of_done hmain hdone hleft) hstore⟩
  · exact ⟨ow, I.goto' hp trivial id id ⟨hok.1, fun _ => hl, hok.2.2⟩⟩

theorem Inv.next (I : Inv s ow) (hended : s.ended = false) (hs : s.orderly (a, act)) :
    ∃ ow', Inv (s.next a act) ow' := by
  have hok := I.places a
  have hs' := hs
  simp only [State.orderly, hended] at hs'
  unfold State.next
  cases hp : s.place a with
  | user => simpa only [State.next, hp] using I.user hp hended hs
  | absent | gone =>
    exact ⟨ow, I⟩
  | joinWait t =>
    rw [hp] at hok hs'
    dsimp only
    split
    · rename_i hdone
      have hg := I.joined hp hdone (of_decide_eq_true hs')
      exact ⟨ow, I.goto' hp trivial id id (hg.goto (by simp [hp]))⟩
    · exact ⟨ow, I⟩
  | detachSet t =>
    rw [hp] at hs'
    exact ⟨ow, I.detachSet hp (of_decide_eq_true hs')⟩
  | detachTest t =>
    exact I.detachTest hp
  | detachPush t =>
    dsimp only
    split
    · exact ⟨_, I.detachPush hp⟩
    · exact ⟨ow, I⟩
  | createLock d =>
    dsimp only
    split
    · rename_i hnone
      refine ⟨ow, I.goto (by rw [hp]; trivial) (by rw [hp]; exact id) id (some a) s.liveThreads
        s.ended (fun b _ h => ?_) ⟨rfl, fun h => absurd rfl h, Takes.zero⟩⟩
      exact absurd (hnone.symm.trans h) (by simp)
    · exact ⟨ow, I⟩
  | walk d pp take =>
    rw [hp] at hs'
    obtain ⟨hleft, hstore⟩ := Bool.and_eq_true_iff.mp hs'
    have hwalk : ∃ ow', Inv (s.next a act) ow' := I.walk hp (of_decide_eq_true hleft) hstore
    simpa only [State.next, hp] using hwalk
  | reap d take =>
    rw [hp] at hok
    dsimp only
    split
    · exact ⟨ow, I.goto' hp trivial id id trivial⟩
    rename_i h0
    exact ⟨ow, I.goto' hp trivial id id
      ((Takes.gives I hok h0 d).goto (by simp [hp]))⟩
  | unmap t k =>
    exact ⟨ow, I.unmap hp⟩
  | freeTls t k =>
    exact ⟨ow, I.freeTls hp⟩
  | freeRecord t k =>
    exact ⟨_, I.freeRecord hp⟩
  | createClone d =>
    dsimp only
    split
    · exact ⟨ow, I.goto' hp trivial id id trivial⟩
    have hne : a ≠ s.fresh := Nat.ne_of_lt (I.lt_of_place (by simp [hp])).2
    have hp' : (s.clone d).place a = .createClone d := (update_of_ne hne _ s.place).trans hp
    refine ⟨_, (I.clone d).goto' hp' trivial id id ⟨?_, Nat.lt_succ_self _⟩⟩
    rw [update_self]
    cases d <;> trivial
  | createStore t =>
    exact ⟨ow, I.goto' hp trivial id id trivial⟩
  | exitTest =>
    rw [hp] at hs'
    exact ⟨ow, I.exitTest hp fun b => I.nobodyAt (by simp) hs' b⟩
  | exitPush =>
    dsimp only
    split
    · exact ⟨_, I.exitPush hp⟩
    · exact ⟨ow, I⟩
  | exitDone =>
    exact ⟨ow, I.exitDone hp⟩
  | leaving =>
    exact ⟨ow, I.leaving hp⟩

theorem Inv.step (I : Inv s ow) (x : ℕ × Act) (hs : s.orderly x) : ∃ ow', Inv (s.step x) ow' := by
  unfold State.step
  split
  · exact ⟨ow, I⟩
  rename_i hended
  rw [Bool.not_eq_true] at hended
  rw [I.touch_eq hended hs]
  exact I.next hended hs

/-- Whatever the interleaving, the parts of every thread are given back at most once, after its exit
call, and not used afterwards, and detached threads that have finished are listed once, if every
step is orderly. -/
theorem orderly_runs_tidy (xs : List (ℕ × Act))
    (hxs : Run.Meets State.step (fun s x => s.orderly x = true) State.init xs) (n : ℕ) :
    ((xs.take n).foldl State.step State.init).Tidy := by
  obtain ⟨ow, I⟩ := Run.invariant_take (I := fun s => ∃ ow, Inv s ow)
    (fun s x ⟨_, I⟩ hx => I.step x hx) ⟨_, Inv.init⟩ hxs n
  exact I.tidy

/-- A thread is created and joined, another is created, detached and ends, and the next creation
reaps it. -/
theorem orderly_runs_tidy_three :
    let xs : List (ℕ × Act) := (1, .create false) :: replicate 5
      (1, .go) ++ [(1, .join 2), (2, .exit)] ++ replicate 3 (2, .go) ++ replicate 4
      (1, .go) ++ (1, .create false) :: replicate 5 (1, .go) ++ (1, .detach 3) :: replicate 2
      (1, .go) ++ (3, .exit) :: replicate 4 (3, .go) ++ (1, .create true) :: replicate 9 (1, .go)
    (xs.foldl State.step State.init).Tidy ∧ (xs.foldl State.step State.init).frees =
        [(3, .record), (3, .tls), (3, .stack), (2, .record), (2, .tls), (2, .stack)] := by
  intro xs
  refine ⟨?_, by decide +kernel⟩
  have h := orderly_runs_tidy xs (by decide +kernel) xs.length
  rwa [take_length] at h

/-- A thread reads that it is not detached; then it is detached, by a call that finds it running;
then it ends. Nobody will give it back. -/
theorem detach_during_exit_leaks :
    let xs : List (ℕ × Act) := (1, .create false) :: replicate 5 (1, .go) ++
      [(1, .detach 2), (2, .exit), (2, .go), (1, .go), (1, .go), (2, .go), (2, .go)]
    let s := xs.foldl State.step State.init
    (s.impl 2).detached = true ∧ (s.impl 2).done = 0 ∧ s.place 1 = .user ∧ s.place 2 = .gone ∧
    s.taken = [] ∧
      s.listed s.fresh s.retiredList = [] := by
  decide +kernel

end Vextro.Pthread
