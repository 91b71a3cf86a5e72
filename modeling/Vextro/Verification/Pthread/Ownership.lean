import Vextro.Model.Pthread
import Vextro.Verification.Shared.Links

/-! Who is to give the parts of a thread back.

Every record has one owner at a time. A step of a thread changes its own place and at most one
record, and only a record that no other thread owns. -/

namespace Vextro.Pthread

open Function (update update_of_ne update_self)
open Links (Chain)

inductive Owner where
  /-- Nobody has asked to join or to detach the thread. -/
  | unclaimed
  | joiner (a : ℕ)
  | detacher (a : ℕ)
  /-- It is detached, and retires itself when it exits. -/
  | self
  /-- It is on the retired list. -/
  | listed
  | reaper (a : ℕ)
  | dead
deriving DecidableEq

namespace Owner

def holder : Owner → Option ℕ
  | joiner a | detacher a | reaper a => some a
  | _ => none

/-- Nothing of the thread is given back while it is owned so. -/
def Keeps : Owner → Prop
  | joiner _ | reaper _ | dead => False
  | _ => True

end Owner

namespace Place

/-- `done` is cleared. -/
def Ended : Place → Prop
  | leaving | gone => True
  | _ => False

/-- `pthread_exit` has decided whether the record is retired. -/
def Decided : Place → Prop
  | exitDone | leaving | gone => True
  | _ => False

/-- The parts of `t` that a thread at the place has given back. -/
def given (t : ℕ) : Place → List Part
  | freeTls x _ => if x = t then [.stack] else []
  | freeRecord x _ => if x = t then [.stack, .tls] else []
  | _ => []

def detaches (t : ℕ) (p : Place) : Prop := p = detachSet t ∨ p = detachTest t ∨ p = detachPush t

end Place

def State.nexts (s : State) (t : ℕ) : ℕ := (s.impl t).retiredNext

section Invariant

variable (s : State) (ow : ℕ → Owner)

/-- The records a reaper has taken and not come to, apart from `t`. -/
def Takes (a take t : ℕ) : Prop :=
  ∃ m, Chain s.nexts take m ∧ m.Nodup ∧ t ∉ m ∧ ∀ x ∈ m, ow x = .reaper a

/-- A thread gives back what it owns. -/
def Gives (a t : ℕ) : After → Prop
  | .joined => s.place t = .gone ∧ ow t = .joiner a
  | .reaping _ take => s.place t = .gone ∧ ow t = .reaper a ∧ Takes s ow a take t

/-- What is known when a thread is at a place. -/
def PlaceOk (a : ℕ) : Place → Prop
  | .joinWait t => ow t = .joiner a
  | .detachSet t => ow t = .detacher a ∧ (s.impl t).detached = false
  | .detachTest t => ow t = .detacher a ∧ (s.impl t).detached = true ∧ s.place t ≠ .exitDone
  | .detachPush t => ow t = .detacher a ∧ (s.impl t).detached = true ∧ (s.impl t).done = 0
  | .createStore t => (ow t).Keeps ∧ t < s.fresh
  | .walk _ pp take => s.retiredLock = some a ∧ (pp ≠ 0 → ow pp = .listed) ∧ Takes s ow a take 0
  | .reap _ take => Takes s ow a take 0
  | .unmap t k | .freeTls t k | .freeRecord t k => Gives s ow a t k
  | .exitPush => ow a = .self
  | _ => True

/-- What is known of a thread from its owner. -/
def Owned (t : ℕ) : Owner → Prop
  | .unclaimed | .joiner _ => (s.impl t).detached = false
  | .detacher a => (s.place a).detaches t
  | .self => (s.impl t).detached = true ∧ ¬(s.place t).Decided
  | .listed => (s.impl t).detached = true ∧ (s.place t).Decided
  | .reaper _ => (s.impl t).detached = true ∧ t ∈ s.taken ∧ s.place t = .gone
  | .dead => s.place t = .gone ∧ (t ∈ s.taken ∨ (s.impl t).detached = false)

structure RecordOk (t : ℕ) : Prop where
  owned : Owned s t (ow t)
  done : (s.impl t).done = 0 ↔ (s.place t).Ended
  claimed : ow t ≠ .unclaimed → (s.impl t).detached = true ∨ t ∈ s.called

/-- The retired list holds the records whose owner it is, each once. -/
def ListOk : Prop := ∃ l, Chain s.nexts s.retiredList l ∧ l.Nodup ∧ ∀ x, x ∈ l ↔ ow x = .listed

/-- What has been given back, and by whom. -/
def FreesOk : Prop := ∀ t p, (t, p) ∈ s.frees → ow t = .dead ∨ ∃ a, p ∈ (s.place a).given t

structure Inv : Prop where
  list : ListOk s ow
  places : ∀ a, PlaceOk s ow a (s.place a)
  records : ∀ t ≠ mainThread, RecordOk s ow t
  main : ow mainThread = .unclaimed
  main_lt : mainThread < s.fresh
  absent : ∀ t, t = 0 ∨ s.fresh ≤ t → s.place t = .absent ∧ ow t = .unclaimed
  nodup : s.frees.Nodup
  frees : FreesOk s ow
  late : s.late = []

end Invariant

variable {s s' : State} {ow ow' : ℕ → Owner} {a b t x take : ℕ} {k : After} {p : Part} {q : Place}
  {o : Owner}

/-! ## Consequences -/

theorem Gives.gone (h : Gives s ow a t k) : s.place t = .gone := by
  cases k with
  | joined => exact h.1
  | reaping d take => exact h.1

theorem Gives.holder (h : Gives s ow a t k) : (ow t).holder = some a := by
  cases k with
  | joined => rw [h.2]; rfl
  | reaping d take => rw [h.2.1]; rfl

theorem Gives.not_keeps (h : Gives s ow a t k) : ¬(ow t).Keeps := by
  cases k with
  | joined => rw [h.2]; exact id
  | reaping d take => rw [h.2.1]; exact id

theorem Inv.at (I : Inv s ow) (hp : s.place a = q) : PlaceOk s ow a q := hp ▸ I.places a

namespace Inv

variable (I : Inv s ow)
include I

/-- A thread that has given parts of another back is about to give back the rest. -/
theorem gives_of_given (h : p ∈ (s.place a).given t) : ∃ k, Gives s ow a t k := by
  have hok := I.places a
  cases hp : s.place a with
  | freeTls x k =>
    rw [hp] at h hok
    obtain ⟨rfl, -⟩ : x = t ∧ _ := by simpa [Place.given] using h
    exact ⟨k, hok⟩
  | freeRecord x k =>
    rw [hp] at h hok
    obtain ⟨rfl, -⟩ : x = t ∧ _ := by simpa [Place.given] using h
    exact ⟨k, hok⟩
  | _ => simp [hp, Place.given] at h

theorem ne_main (h : ow t ≠ .unclaimed) : t ≠ mainThread := by
  rintro rfl
  exact h I.main

theorem owned (h : ow t = o) (ho : o ≠ .unclaimed) : Owned s t o :=
  h ▸ (I.records t (I.ne_main (h ▸ ho))).owned

theorem gone_of_freed (h : (t, p) ∈ s.frees) : s.place t = .gone := by
  rcases I.frees t p h with hdead | ⟨a, ha⟩
  · exact (I.owned hdead (by simp)).1
  · obtain ⟨k, hk⟩ := I.gives_of_given ha
    exact hk.gone

theorem not_freed_of_keeps (h : (ow t).Keeps) : (t, p) ∉ s.frees := by
  intro hmem
  rcases I.frees t p hmem with hdead | ⟨a, ha⟩
  · rwa [hdead] at h
  · obtain ⟨k, hk⟩ := I.gives_of_given ha
    exact hk.not_keeps h

/-- What a thread owns is given back by itself only. -/
theorem given_of_freed (hold : (ow t).holder = some a) (h : (t, p) ∈ s.frees) :
    p ∈ (s.place a).given t := by
  rcases I.frees t p h with hdead | ⟨b, hb⟩
  · rw [hdead] at hold
    cases hold
  obtain ⟨k, hk⟩ := I.gives_of_given hb
  obtain rfl := Option.some.inj (hold.symm.trans hk.holder)
  exact hb

theorem lt_of_place (h : s.place a ≠ .absent) : a ≠ 0 ∧ a < s.fresh := by
  refine ⟨fun h0 => h (I.absent a (.inl h0)).1, ?_⟩
  by_contra hlt
  exact h (I.absent a (.inr (by omega))).1

theorem lt_of_owner (h : ow t ≠ .unclaimed) : t ≠ 0 ∧ t < s.fresh := by
  refine ⟨fun h0 => h (I.absent t (.inl h0)).2, ?_⟩
  by_contra hlt
  exact h (I.absent t (.inr (by omega))).2

theorem nobodyAt {p : Place} (hp : p ≠ .absent) (h : s.nobodyAt p) (b : ℕ) :
    s.place b ≠ p := by
  intro hb
  have hlt := (I.lt_of_place (by rw [hb]; exact hp)).2
  have hall := List.all_eq_true.mp h b (List.mem_range.mpr hlt)
  exact of_decide_eq_true hall hb

end Inv

/-! ## Steps -/

/-- A step of `a` that changes no record but that of `t`, which no other thread owns. -/
structure Frame (s s' : State) (ow ow' : ℕ → Owner) (a t : ℕ) : Prop where
  place : ∀ b ≠ a, s'.place b = s.place b
  alive : s.place a ≠ .gone
  detached : ∀ x ≠ t, (s'.impl x).detached = (s.impl x).detached
  done : ∀ x ≠ a, (s'.impl x).done = (s.impl x).done
  cleared : (s.impl a).done = 0 → (s'.impl a).done = 0
  next : ∀ x b, ow x = .reaper b → b ≠ a → s'.nexts x = s.nexts x
  owner : ∀ x ≠ t, ow' x = ow x
  mine : ∀ b, (ow t).holder = some b → b = a
  target : ∀ x, ow x = .detacher a → x = t
  listed : ow t = .listed → ow' t = .listed ∨ s.retiredLock = some a
  self : t ≠ a → ow t = .self → ow' t = .self
  lock : ∀ b ≠ a, s.retiredLock = some b → s'.retiredLock = some b
  fresh : s.fresh ≤ s'.fresh
  store : ∀ b ≠ a, s.place b = .createStore t → (ow' t).Keeps
  decide : s'.place a = .exitDone → ∀ b, s.place b ≠ .detachTest a
  taken : s.taken ⊆ s'.taken
  called : s.called ⊆ s'.called

namespace Frame

variable (F : Frame s s' ow ow' a t)
include F

theorem owner_of_holder (hb : b ≠ a) (h : (ow x).holder = some b) : ow' x = ow x := by
  refine F.owner x ?_
  rintro rfl
  exact hb (F.mine b h)

theorem gone (h : s.place x = .gone) : s'.place x = .gone := by
  rw [F.place x, h]
  rintro rfl
  exact F.alive h

theorem takes (hb : b ≠ a) (h : Takes s ow b take x) : Takes s' ow' b take x := by
  obtain ⟨m, hm, hnd, hx, how⟩ := h
  refine ⟨m, hm.congr fun y hy => F.next y b (how y hy) hb, hnd, hx, fun y hy => ?_⟩
  rw [F.owner_of_holder hb (by rw [how y hy]; rfl), how y hy]

theorem gives (hb : b ≠ a) (h : Gives s ow b x k) : Gives s' ow' b x k := by
  have hsame := F.owner_of_holder hb h.holder
  cases k with
  | joined => exact ⟨F.gone h.1, hsame.trans h.2⟩
  | reaping d take => exact ⟨F.gone h.1, hsame.trans h.2.1, F.takes hb h.2.2⟩

theorem detaching (hb : b ≠ a) (h : ow x = .detacher b) :
    ow' x = .detacher b ∧ (s'.impl x).detached = (s.impl x).detached := by
  have hx : x ≠ t := by
    rintro rfl
    exact hb (F.mine b (by rw [h]; rfl))
  exact ⟨(F.owner x hx).trans h, F.detached x hx⟩

theorem placeOk (hb : b ≠ a) (hp : s.place b = q) (h : PlaceOk s ow b q) : PlaceOk s' ow' b q := by
  cases q with
  | joinWait x => exact (F.owner_of_holder hb (by rw [h]; rfl)).trans h
  | detachSet x =>
    obtain ⟨how, hflag⟩ := F.detaching hb h.1
    exact ⟨how, hflag.trans h.2⟩
  | detachTest x =>
    obtain ⟨how, hflag⟩ := F.detaching hb h.1
    refine ⟨how, hflag.trans h.2.1, fun hdone => ?_⟩
    obtain rfl | hx := eq_or_ne x a
    · exact F.decide hdone b hp
    · exact h.2.2 ((F.place x hx).symm.trans hdone)
  | detachPush x =>
    obtain ⟨how, hflag⟩ := F.detaching hb h.1
    refine ⟨how, hflag.trans h.2.1, ?_⟩
    obtain rfl | hx := eq_or_ne x a
    · exact F.cleared h.2.2
    · exact (F.done x hx).trans h.2.2
  | createStore x =>
    refine ⟨?_, Nat.lt_of_lt_of_le h.2 F.fresh⟩
    obtain rfl | hx := eq_or_ne x t
    · exact F.store b hb hp
    · exact F.owner x hx ▸ h.1
  | walk d pp take =>
    refine ⟨F.lock b hb h.1, fun h0 => ?_, F.takes hb h.2.2⟩
    obtain rfl | hx := eq_or_ne pp t
    · refine (F.listed (h.2.1 h0)).resolve_right fun hlock => hb ?_
      exact Option.some.inj (h.1.symm.trans hlock)
    · exact (F.owner pp hx).trans (h.2.1 h0)
  | reap d take => exact F.takes hb h
  | unmap x k | freeTls x k | freeRecord x k => exact F.gives hb h
  | exitPush =>
    obtain rfl | hx := eq_or_ne b t
    · exact F.self hb h
    · exact (F.owner b hx).trans h
  | _ => trivial

theorem recordOk (hxa : x ≠ a) (hxt : x ≠ t) (h : RecordOk s ow x) : RecordOk s' ow' x := by
  obtain ⟨howned, hdone, hclaimed⟩ := h
  refine ⟨?_, ?_, ?_⟩
  · rw [F.owner x hxt]
    cases ho : ow x with
    | detacher b =>
      have hb : b ≠ a := fun hba => hxt (F.target x (hba ▸ ho))
      simpa [ho, Owned, F.place b hb] using howned
    | _ =>
      rw [ho] at howned
      simp only [Owned, F.detached x hxt, F.place x hxa]
      first
        | exact howned
        | exact ⟨howned.1, F.taken howned.2.1, howned.2.2⟩
        | exact ⟨howned.1, howned.2.imp (fun h => F.taken h) id⟩
  · rwa [F.done x hxa, F.place x hxa]
  · rw [F.owner x hxt, F.detached x hxt]
    exact fun h => (hclaimed h).imp id fun h => F.called h

theorem freesOk (h : FreesOk s ow) (hsame : s'.frees = s.frees) (hdead : ow t ≠ .dead)
    (hgiven : ∀ x, (s.place a).given x = []) : FreesOk s' ow' := by
  intro x p hmem
  rw [hsame] at hmem
  rcases h x p hmem with hx | ⟨b, hb⟩
  · rw [F.owner x (by rintro rfl; exact hdead hx)]
    exact .inl hx
  refine .inr ⟨b, ?_⟩
  rw [F.place b]
  · exact hb
  · rintro rfl
    simp [hgiven] at hb

theorem inv (I : Inv s ow)
    (ha : a ≠ 0 ∧ a < s'.fresh) (hlist : ListOk s' ow') (hplace : PlaceOk s' ow' a (s'.place a))
    (hreca : a ≠ mainThread → RecordOk s' ow' a) (hrect : t ≠ mainThread → RecordOk s' ow' t)
    (ht : t ≠ 0 ∧ t ≠ mainThread ∧ t < s'.fresh ∨ ow' t = .unclaimed) (hnodup : s'.frees.Nodup)
    (hfrees : FreesOk s' ow') (hlate : s'.late = []) : Inv s' ow' where
  list := hlist
  places b := by
    obtain rfl | hb := eq_or_ne b a
    · exact hplace
    · rw [F.place b hb]
      exact F.placeOk hb rfl (I.places b)
  records x hx := by
    obtain rfl | hxa := eq_or_ne x a
    · exact hreca hx
    obtain rfl | hxt := eq_or_ne x t
    · exact hrect hx
    · exact F.recordOk hxa hxt (I.records x hx)
  main := by
    obtain hm | hm := eq_or_ne mainThread t
    · exact hm ▸ ht.resolve_left fun h => h.2.1 hm.symm
    · rw [F.owner _ hm, I.main]
  main_lt := Nat.lt_of_lt_of_le I.main_lt F.fresh
  absent x hx := by
    have hold := I.absent x (hx.imp id fun hle => Nat.le_trans F.fresh hle)
    refine ⟨(F.place x (by rintro rfl; omega)).trans hold.1, ?_⟩
    obtain rfl | hxt := eq_or_ne x t
    · exact ht.resolve_left fun h => by omega
    · exact (F.owner x hxt).trans hold.2
  nodup := hnodup
  frees := hfrees
  late := hlate

end Frame

namespace Place

/-- Not at a place that says something of another thread's record, nor at the end. -/
def Plain : Place → Prop
  | absent | gone | detachSet _ | detachTest _ | detachPush _ | freeTls _ _ | freeRecord _ _ =>
    False
  | _ => True

theorem Ended.decided {p : Place} (h : p.Ended) : p.Decided := by
  cases p <;> first | exact h.elim | trivial

theorem Plain.given {p : Place} (h : p.Plain) (t : ℕ) : p.given t = [] := by
  cases p <;> first | exact h.elim | rfl

theorem Plain.not_detaches {p : Place} (h : p.Plain) (t : ℕ) : ¬p.detaches t := by
  rintro (rfl | rfl | rfl) <;> exact h

end Place

theorem Inv.not_detacher (I : Inv s ow) (h : (s.place a).Plain) (x : ℕ) : ow x ≠ .detacher a := by
  exact fun hx => h.not_detaches x (I.owned hx (by simp))

/-- Nothing is known of a running thread that depends on where it is. -/
theorem RecordOk.moved
    (h : RecordOk s ow a) (how : ow' a = ow a) (hplace : ∀ b ≠ a, s'.place b = s.place b)
    (hdetached : (s'.impl a).detached = (s.impl a).detached)
    (hdone : (s'.impl a).done = (s.impl a).done) (hcalled : s.called ⊆ s'.called)
    (hdet : ow a ≠ .detacher a) (hold : ¬(s.place a).Decided) (hnew : ¬(s'.place a).Decided) :
    RecordOk s' ow' a := by
  obtain ⟨howned, hended, hclaimed⟩ := h
  refine ⟨?_, ?_, ?_⟩
  · rw [how]
    cases ho : ow a with
    | detacher b =>
      have hba : b ≠ a := fun hba => hdet (hba ▸ ho)
      simpa [ho, Owned, hplace b hba] using howned
    | _ => simp_all [Owned, Place.Decided]
  · rw [hdone, hended]
    exact ⟨fun hend => absurd hend.decided hold, fun hend => absurd hend.decided hnew⟩
  · rw [how, hdetached]
    exact fun hne => (hclaimed hne).imp id fun hmem => hcalled hmem

theorem Frame.inv_running (F : Frame s s' ow ow' a t) (I : Inv s ow)
    (hhere : s.place a ≠ .absent) (hold : ¬(s.place a).Decided) (hnew : ¬(s'.place a).Decided)
    (hgiven : ∀ x, (s.place a).given x = []) (hdone : (s'.impl a).done = (s.impl a).done)
    (hlist : ListOk s' ow')
    (hplace : PlaceOk s' ow' a (s'.place a)) (hrec : t ≠ mainThread → RecordOk s' ow' t)
    (ht : t ≠ 0 ∧ t ≠ mainThread ∧ t < s'.fresh ∨ ow' t = .unclaimed) (hdead : ow t ≠ .dead)
    (hfrees : s'.frees = s.frees) (hlate : s'.late = s.late) : Inv s' ow' := by
  have ha := I.lt_of_place hhere
  refine F.inv I ⟨ha.1, Nat.lt_of_lt_of_le ha.2 F.fresh⟩ hlist hplace (fun hmain => ?_) hrec ht
    (hfrees ▸ I.nodup) (F.freesOk I.frees hfrees hdead hgiven) (hlate.trans I.late)
  obtain rfl | hat := eq_or_ne a t
  · exact hrec hmain
  · exact (I.records a hmain).moved (F.owner a hat) F.place (F.detached a hat) hdone F.called
      (fun hd => hat (F.target a hd)) hold hnew

theorem ListOk.congr (h : ListOk s ow)
    (hl : s'.retiredList = s.retiredList) (hnext : ∀ x, ow x = .listed → s'.nexts x = s.nexts x)
    (how : ∀ x, ow' x = .listed ↔ ow x = .listed) :
    ListOk s' ow' := by
  obtain ⟨l, hchain, hnd, hmem⟩ := h
  refine ⟨l, ?_, hnd, fun x => (hmem x).trans (how x).symm⟩
  rw [hl]
  exact hchain.congr fun x hx => hnext x ((hmem x).mp hx)

/-- A step that changes no owner, and of the records at most `done` of its own. -/
theorem Inv.move (I : Inv s ow) (hplain : (s.place a).Plain) (q : Place) (impl : ℕ →
      Impl) (lock : Option ℕ) (n : ℕ)
    (o : Bool) (hlock : ∀ b ≠ a, s.retiredLock = some b → lock = some b)
    (hs' : s' = { s with
      impl := impl, place := update s.place a q, retiredLock := lock, liveThreads :=
      n, ended := o })
    (hsame : ∀ x, (impl x).detached = (s.impl x).detached ∧
      (impl x).retiredNext = (s.impl x).retiredNext)
    (hdone : ∀ x ≠ a, (impl x).done = (s.impl x).done)
    (hcleared : (s.impl a).done = 0 → (impl a).done = 0)
    (hdecide : q = .exitDone → ∀ b, s.place b ≠ .detachTest a) (hok : PlaceOk s' ow a q)
    (hrec : a ≠ mainThread → RecordOk s' ow a) : Inv s' ow := by
  have hne : s.place a ≠ .absent := fun h => by rw [h] at hplain; exact hplain
  have ha := I.lt_of_place hne
  have h0 := (I.absent 0 (.inl rfl)).2
  have hplace : ∀ b ≠ a, s'.place b = s.place b := fun b hb => hs' ▸ update_of_ne hb q s.place
  have hself : s'.place a = q := hs' ▸ update_self a q s.place
  subst hs'
  have F : Frame s _ ow ow a 0 :=
    { place := hplace
      alive := fun h => by rw [h] at hplain; exact hplain
      detached := fun x _ => (hsame x).1
      done := hdone
      cleared := hcleared
      next := fun x _ _ _ => (hsame x).2
      owner := fun _ _ => rfl
      mine := fun b hb => by rw [h0] at hb; cases hb
      target := fun x hx => absurd hx (I.not_detacher hplain x)
      listed := .inl
      self := fun _ h => h
      lock := hlock
      fresh := Nat.le_refl _
      store := fun b _ _ => by rw [h0]; trivial
      decide := by rwa [hself]
      taken := List.Subset.refl _
      called := List.Subset.refl _ }
  refine F.inv I ha
    (I.list.congr rfl (fun x _ => (hsame x).2) fun _ => Iff.rfl) (by rwa [hself]) hrec
    (fun _ => ?_) (.inr h0) I.nodup (F.freesOk I.frees rfl (by rw [h0]; simp) hplain.given) I.late
  have hr := I.records 0 (by decide)
  refine ⟨?_, ?_, (hsame 0).1 ▸ hr.claimed⟩
  · have ho := hr.owned
    rw [h0] at ho ⊢
    exact (hsame 0).1.trans ho
  · rw [F.done 0 ha.1.symm, F.place 0 ha.1.symm]
    exact hr.done

end Vextro.Pthread
