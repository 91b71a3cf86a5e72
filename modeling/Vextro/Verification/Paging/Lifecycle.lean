import Vextro.Verification.Paging.Refinement

/-! Fork, copy on write, teardown and the system calls as sequences of actions. -/

namespace Vextro.Paging

open Function

variable {m m' : Machine} {a v dst src : ℕ} {e : Event} {g g' : Held} {vs : List ℕ}

/-! ## Copy on write -/

/-- The one page a resolved fault makes writable, as it was when the fault was taken. -/
def Event.isResolve (m : Machine) (a v : ℕ) : Event → Prop
  | .cow b w nx =>
    b = a ∧ w = v ∧ nx = has (m.pte a v) pteNx ∧ has (m.pte a v) ptePresent = true ∧
    has (m.pte a v) pteCow = true
  | e => e.isPlain

theorem Event.isResolve_of_isPlain (h : e.isPlain) : e.isResolve m a v := by
  cases e <;> simp_all [Event.isResolve, Event.isPlain]

theorem vmmResolveCow_does (g : Held) (hm : Sane m) (a va : ℕ) :
    Does (Event.isResolve m a (va / 4096)) g m g (vmmResolveCow m a va).1 := by
  have halloc := pmmAlloc_does g hm
  unfold vmmResolveCow
  simp only
  split
  · exact Does.refl _ g m
  split
  · exact Does.refl _ g m
  next hcow =>
  simp only [Bool.or_eq_true, Bool.not_eq_true', not_or, Bool.not_eq_false] at hcow
  obtain ⟨hp, hc⟩ := hcow
  have hpriv : isPrivate (m.pte a (va / 4096)) := isPrivate_iff.mpr ⟨hp, hm.cowPrivate a _ hp hc⟩
  split
  · next hsole =>
    exact Does.act (Act.cowKeep a _ hpriv hc hsole) ⟨rfl, rfl, rfl, hp, hc⟩
  rcases ha : pmmAlloc m with ⟨m', f⟩
  rw [ha] at halloc
  cases f with
  | zero =>
    exact halloc.walk.plain.mono fun _ => Event.isResolve_of_isPlain
  | succ f =>
    have hkeep := halloc.walk.steady.keeps a (va / 4096) (not_candidate_of_cow hc)
    set old := pteFrame (m.pte a (va / 4096)) with hold
    set filled : Machine := { m' with mem := update m'.mem (f + 1) (m'.mem old) } with hfilled
    have hfill : Does Event.isPlain { g with fresh := raise g.fresh (f + 1) } m'
        { g with fresh := raise g.fresh (f + 1) } filled :=
      Does.act (.fill (f + 1) (m'.mem old) (raise_pos _ _)) trivial
    have hpte : filled.pte a (va / 4096) = m.pte a (va / 4096) := hkeep
    have hmem : filled.mem (f + 1) = filled.mem (pteFrame (filled.pte a (va / 4096))) := by
      rw [hpte]
      simp only [hfilled, update_self, ← hold]
      by_cases hsame : old = f + 1
      · rw [hsame, update_self]
      · rw [update_of_ne hsame]
    have hcopy := Act.cowCopy (g := { g with fresh := raise g.fresh (f + 1) })
      a (va / 4096) (f + 1) (raise_pos _ _) (by rw [hpte]; exact hpriv)
      (by rw [hpte]; exact hc) hmem
    rw [lower_raise, hpte] at hcopy
    have hstart := (halloc.walk.plain.trans hfill).mono
      fun _ => Event.isResolve_of_isPlain (m := m) (a := a) (v := va / 4096)
    have hdone := hstart.trans (Does.act hcopy ⟨rfl, rfl, rfl, hp, hc⟩)
    have hgive := (giveLoose_does g (filled.setPte a (va / 4096)
      (physOf (f + 1) ||| (m.pte a (va / 4096) &&& ~~~(pteAddrMask ||| pteCow)) |||
        pteWrite)) old).walk.plain.mono
      fun _ => Event.isResolve_of_isPlain (m := m) (a := a) (v := va / 4096)
    simp only [← hfilled, hpte]
    exact hdone.trans hgive

/-! ## Fork -/

/-- Fork raises counts, and loses one only when it fails. -/
def Event.isFork (ok : Bool) : Event → Prop
  | .share _ | .copy .. => True
  | .leak _ => ok = false
  | e => e.isPlain

theorem Event.isFork_of_isPlain {ok : Bool} (h : e.isPlain) : e.isFork ok := by
  cases e <;> simp_all [Event.isFork, Event.isPlain]

theorem Event.isFork_weaken {ok : Bool} (h : e.isFork true) : e.isFork ok := by
  cases e <;> simp_all [Event.isFork]

theorem Does.forked (ok : Bool) (h : Does Event.isPlain g m g' m') :
    Does (Event.isFork ok) g m g' m' :=
  h.mono fun _ => Event.isFork_of_isPlain

/-- The child while it is being filled: live, not the parent, empty where work is left. -/
structure Filling (dst src : ℕ) (vs : List ℕ) (m : Machine) : Prop where
  sane : Sane m
  live : (m.space dst).live = true
  ne : dst ≠ src
  zero : ∀ v ∈ vs, m.pte dst v = 0

theorem zero_not_candidate : ¬ IsCandidate 0 := not_candidate_of_not_present (by decide)

/-- A walk may evict pages, but the pages still to copy stay empty. -/
theorem Filling.walk (h : Filling dst src vs m) (hdoes : Does Event.isWalk g m g' m') :
    Filling dst src vs m' where
  sane := hdoes.sane h.sane
  live := by rw [hdoes.steady.live]; exact h.live
  ne := h.ne
  zero v hv := by
    rw [hdoes.steady.keeps dst v (by rw [h.zero v hv]; exact zero_not_candidate), h.zero v hv]

/-- Fetching one page keeps the rest of every space, as allocation does. -/
structure SteadyBut (a v : ℕ) (m m' : Machine) : Prop where
  live : ∀ b, (m'.space b).live = (m.space b).live
  keeps : ∀ b w, ¬ (b = a ∧ w = v) → ¬ IsCandidate (m.pte b w) → m'.pte b w = m.pte b w

theorem act_steadyBut (hact : Act g m e g' m') (he : e.isFetch a v) : SteadyBut a v m m' := by
  by_cases hr : e.isReclaim
  · have hsteady := act_steady hact (Event.isWalk_of_isReclaim hr)
    exact ⟨hsteady.live, fun b w _ => hsteady.keeps b w⟩
  cases hact with
  | pageIn b w f =>
    obtain ⟨rfl, rfl⟩ := he
    have hsame := swapSlotFree_same m (swapPteSlot (m.pte b w))
    refine ⟨fun c => ?_, fun c u hne _ => ?_⟩
    · rw [live_setPte, hsame.space]
    · rw [pte_setPte, if_neg hne, hsame.pte]
  | _ => exact absurd he hr

theorem Does.steadyBut (h : Does (Event.isFetch a v) g m g' m') : SteadyBut a v m m' := by
  refine h.induct (I := fun _ n => SteadyBut a v m n) (fun hI hact he => ?_)
    ⟨fun _ => rfl, fun _ _ _ _ => rfl⟩
  have hone := act_steadyBut hact he
  refine ⟨fun b => (hone.live b).trans (hI.live b), fun b w hne hc => ?_⟩
  have hkeep := hI.keeps b w hne hc
  rw [hone.keeps b w hne (by rw [hkeep]; exact hc), hkeep]

theorem Filling.fetch (h : Filling dst src vs m) (hdoes : Does (Event.isFetch src v) g m g' m') :
    Filling dst src vs m' where
  sane := hdoes.sane h.sane
  live := by rw [hdoes.steadyBut.live]; exact h.live
  ne := h.ne
  zero w hw := by
    rw [hdoes.steadyBut.keeps dst w (fun hc => h.ne hc.1)
      (by rw [h.zero w hw]; exact zero_not_candidate), h.zero w hw]

theorem Filling.setPte_src {e : Pte} (h : Filling dst src vs m) (hs : Sane (m.setPte src v e)) :
    Filling dst src vs (m.setPte src v e) where
  sane := hs
  live := by rw [live_setPte]; exact h.live
  ne := h.ne
  zero w hw := by
    rw [pte_setPte, if_neg (fun hc => h.ne hc.1)]
    exact h.zero w hw

/-- A private writable page of the parent is marked before it is shared. -/
inductive Marked (src v : ℕ) (m : Machine) : Machine → Prop
  | already : Marked src v m m
  | now (hp : isPrivate (m.pte src v) = true) (hw : has (m.pte src v) pteWrite = true) :
      Marked src v m (m.setPte src v ((m.pte src v &&& ~~~pteWrite) ||| pteCow))

theorem Marked.does (g : Held) (h : Marked src v m m') : Does Event.isPlain g m g m' := by
  cases h with
  | already => exact Does.refl _ g m
  | now hp hw => exact Does.act (Act.cowMark src v hp hw) trivial

/-- What `vmm_fork` does with one page: fetch it, mark it, count it, and put it in the
child, as far as it gets. -/
inductive PageForked (dst src v : ℕ) (g : Held) (m : Machine) : Machine → Bool → Prop
  | failed {m1 : Machine} (fetch : Does (Event.isFetch src v) g m g m1) :
      PageForked dst src v g m m1 false
  | skipped {m1 : Machine} (fetch : Does (Event.isFetch src v) g m g m1) :
      PageForked dst src v g m m1 true
  | refused {m1 m2 : Machine} (fetch : Does (Event.isFetch src v) g m g m1)
      (walk : Does Event.isWalk g m1 g m2) : PageForked dst src v g m m2 false
  | copied {m1 m2 : Machine} (fetch : Does (Event.isFetch src v) g m g m1)
      (walk : Does Event.isWalk g m1 g m2) (hl : (m2.space dst).live = true)
      (hz : m2.pte dst v = 0) (hp : has (m2.pte src v) ptePresent = true)
      (hs : has (m2.pte src v) pteShared = true) :
      PageForked dst src v g m (m2.setPte dst v (m2.pte src v)) true
  | leaked {m1 m2 m3 : Machine} (fetch : Does (Event.isFetch src v) g m g m1)
      (mark : Marked src v m1 m2) (hp : isPrivate (m2.pte src v) = true)
      (hw : has (m2.pte src v) pteWrite = false)
      (walk : Does Event.isWalk { g with loose := raise g.loose (pteFrame (m2.pte src v)) }
        (pmmRefInc m2 (pteFrame (m2.pte src v)))
        { g with loose := raise g.loose (pteFrame (m2.pte src v)) } m3) :
      PageForked dst src v g m m3 false
  | shared {m1 m2 m3 : Machine} (fetch : Does (Event.isFetch src v) g m g m1)
      (mark : Marked src v m1 m2) (hp : isPrivate (m2.pte src v) = true)
      (hw : has (m2.pte src v) pteWrite = false)
      (walk : Does Event.isWalk { g with loose := raise g.loose (pteFrame (m2.pte src v)) }
        (pmmRefInc m2 (pteFrame (m2.pte src v)))
        { g with loose := raise g.loose (pteFrame (m2.pte src v)) } m3)
      (hl : (m3.space dst).live = true) (hz : m3.pte dst v = 0) :
      PageForked dst src v g m (m3.setPte dst v (m2.pte src v)) true

theorem Act.leakRaised {f : ℕ} : Act { g with loose := raise g.loose f } m (.leak f) g m := by
  simpa only [lower_raise] using Act.leak (g := { g with loose := raise g.loose f }) f
    (raise_pos _ _)

theorem Act.copyRaised {e : Pte} (hl : (m.space dst).live) (hz : m.pte dst v = 0) (hp : isPrivate e)
    (hw : has e pteWrite = false) :
    Act { g with loose := raise g.loose (pteFrame e) } m (.copy dst v) g (m.setPte dst v e) := by
  simpa only [lower_raise] using Act.copy
    (g := { g with loose := raise g.loose (pteFrame e) }) dst v e hl hz hp hw (raise_pos _ _)

namespace PageForked

variable {ok : Bool}

theorem does (h : PageForked dst src v g m m' ok) : Does (Event.isFork ok) g m g m' := by
  have hfetched : ∀ {m1}, Does (Event.isFetch src v) g m g m1 → Does (Event.isFork ok) g m g m1 :=
    fun hf => hf.mono fun _ he => Event.isFork_of_isPlain (Event.isPlain_of_isFetch he)
  cases h with
  | failed fetch | skipped fetch => exact hfetched fetch
  | refused fetch walk => exact (hfetched fetch).trans (walk.plain.forked _)
  | copied fetch walk hl hz hp hs =>
    exact ((hfetched fetch).trans (walk.plain.forked _)).trans
      (Does.act (Act.copyShared dst src v hl hz hp hs) trivial)
  | leaked fetch mark hp hw walk =>
    exact ((((hfetched fetch).trans ((mark.does g).forked _)).trans
      (Does.act (Act.share src v hp hw) trivial)).trans (walk.plain.forked _)).trans
      (Does.act .leakRaised rfl)
  | shared fetch mark hp hw walk hl hz =>
    exact ((((hfetched fetch).trans ((mark.does g).forked _)).trans
      (Does.act (Act.share src v hp hw) trivial)).trans (walk.plain.forked _)).trans
      (Does.act (.copyRaised hl hz hp hw) trivial)

end PageForked

theorem Filling.mark (h : Filling dst src vs m) (hm : Marked src v m m') :
    Filling dst src vs m' := by
  have hs := (hm.does Held.none).sane h.sane
  cases hm with
  | already => exact h
  | now hp hw => exact h.setPte_src hs

theorem Filling.share {f : ℕ} (h : Filling dst src vs m) : Filling dst src vs (pmmRefInc m f) := by
  have hsame := pmmRefInc_same m f
  refine ⟨h.sane.of_spaces hsame.spaces (congrFun (pmmRefInc_used m f) 0) hsame.highest, ?_, h.ne,
    fun w hw => ?_⟩
  · rw [hsame.space]
    exact h.live
  · rw [hsame.pte]
    exact h.zero w hw

theorem Filling.put {e : Pte} (h : Filling dst src (v :: vs) m) (hv : v ∉ vs)
    (hs : Sane (m.setPte dst v e)) :
    Filling dst src vs (m.setPte dst v e) := by
  refine ⟨hs, by rw [live_setPte]; exact h.live, h.ne, fun w hw => ?_⟩
  rw [pte_setPte, if_neg (fun hc : dst = dst ∧ w = v => hv (hc.2 ▸ hw))]
  exact h.zero w (by simp [hw])

theorem Filling.skip (h : Filling dst src (v :: vs) m) : Filling dst src vs m :=
  ⟨h.sane, h.live, h.ne, fun w hw => h.zero w (by simp [hw])⟩

theorem PageForked.filling (h : PageForked dst src v g m m' true) (hf : Filling dst src (v :: vs) m)
    (hv : v ∉ vs) :
    Filling dst src vs m' := by
  have hsane := h.does.sane hf.sane
  cases h with
  | skipped fetch => exact (hf.fetch fetch).skip
  | copied fetch walk => exact ((hf.fetch fetch).walk walk).put hv hsane
  | shared fetch mark hp hw walk =>
    exact ((((hf.fetch fetch).mark mark).share).walk walk).put hv hsane

/-- `vmm_fork` makes sure that a page of the parent is in memory. -/
def forkFetch (m : Machine) (src v : ℕ) : Machine × Bool :=
  if has (m.pte src v) ptePresent then (m, true)
  else if swapPteIsSwapped (m.pte src v) then swapInPage m src v
  else (m, true)

/-- A private page that may be written is marked copy-on-write. -/
def forkMark (m : Machine) (src v : ℕ) : Machine :=
  if !has (m.pte src v) pteShared && has (m.pte src v) pteWrite then
    m.setPte src v ((m.pte src v &&& ~~~pteWrite) ||| pteCow)
  else m

/-- And, unless it is shared, its frame gets one more owner. -/
def forkCount (m : Machine) (src v : ℕ) : Machine :=
  if has ((forkMark m src v).pte src v) pteShared then forkMark m src v
  else pmmRefInc (forkMark m src v) (pteFrame ((forkMark m src v).pte src v))

/-- The fetch fails, there is nothing to copy, or the entry is marked and copied. -/
theorem vmmForkPage_cases {ok : Bool} (h : vmmForkPage m dst src v = (m', ok)) :
    forkFetch m src v = (m', false) ∧ ok = false ∨ forkFetch m src v = (m', true) ∧ ok ∨
      ∃ m1, forkFetch m src v = (m1, true) ∧ has (m1.pte src v) ptePresent ∧
        (vmmWalk (forkCount m1 src v) dst v = (m', false) ∧ ok = false ∨
          ∃ m2, vmmWalk (forkCount m1 src v) dst v = (m2, true) ∧
            m' = m2.setPte dst v ((forkMark m1 src v).pte src v) ∧ ok = true) := by
  rw [vmmForkPage, ← forkFetch] at h
  rcases hf : forkFetch m src v with ⟨m1, fetched⟩
  rw [hf] at h
  cases fetched with
  | false =>
    cases h
    exact .inl ⟨rfl, rfl⟩
  | true =>
    dsimp only at h
    split at h
    · cases h
      exact .inr (.inl ⟨rfl, rfl⟩)
    rename_i hp
    rw [← forkMark, ← forkCount] at h
    refine .inr (.inr ⟨m1, rfl, by simpa using hp, ?_⟩)
    rcases hw : vmmWalk (forkCount m1 src v) dst v with ⟨m2, walked⟩
    rw [hw] at h
    cases walked with
    | false =>
      cases h
      exact .inl ⟨rfl, rfl⟩
    | true =>
      cases h
      exact .inr ⟨m2, rfl, rfl, rfl⟩

theorem forkFetch_does (g : Held) (hm : Sane m) (src v : ℕ) :
    Does (Event.isFetch src v) g m g (forkFetch m src v).1 := by
  rw [forkFetch]
  split
  · exact Does.refl _ g m
  split
  · exact swapInPage_does g hm src v
  · exact Does.refl _ g m

theorem forkMark_marked (hp : has (m.pte src v) ptePresent) :
    Marked src v m (forkMark m src v) := by
  rw [forkMark]
  split
  · rename_i hmark
    obtain ⟨hs, hw⟩ := Bool.and_eq_true_iff.mp hmark
    exact .now (isPrivate_iff.mpr ⟨hp, by simpa using hs⟩) hw
  · exact .already

theorem forkMark_private (m : Machine) (src v : ℕ) :
    isPrivate ((forkMark m src v).pte src v) = isPrivate (m.pte src v) := by
  rw [forkMark]
  split
  · rw [pte_setPte_self, isPrivate_or (by decide), isPrivate_clear (by decide)]
  · rfl

theorem forkMark_shared (m : Machine) (src v : ℕ) :
    has ((forkMark m src v).pte src v) pteShared = has (m.pte src v) pteShared := by
  rw [forkMark]
  split
  · rename_i hmark
    have hs : has (m.pte src v) pteShared = false := by
      simpa using (Bool.and_eq_true_iff.mp hmark).1
    simp +decide [has_or, has_and isFlag_shared, hs]
  · rfl

/-- A private page is not writable any more when it is shared with the child. -/
theorem forkMark_write (hs : has (m.pte src v) pteShared = false) :
    has ((forkMark m src v).pte src v) pteWrite = false := by
  rw [forkMark]
  split
  · simp +decide [has_or, has_and isFlag_write]
  · rename_i hmark
    simpa [hs] using hmark

theorem forkMark_of_shared (hs : has (m.pte src v) pteShared) : forkMark m src v = m := by
  rw [forkMark, hs]
  exact if_neg Bool.false_ne_true

theorem forkCount_of_shared (hs : has (m.pte src v) pteShared) : forkCount m src v = m := by
  rw [forkCount, forkMark_shared, if_pos hs, forkMark_of_shared hs]

theorem forkCount_of_private (hs : has (m.pte src v) pteShared = false) :
    forkCount m src v = pmmRefInc (forkMark m src v) (pteFrame ((forkMark m src v).pte src v)) := by
  rw [forkCount, forkMark_shared, hs]
  exact if_neg Bool.false_ne_true

theorem vmmForkPage_forked (g : Held) (h : Filling dst src (v :: vs) m) :
    PageForked dst src v g m (vmmForkPage m dst src v).1 (vmmForkPage m dst src v).2 := by
  have fetch := forkFetch_does g h.sane src v
  rcases heq : vmmForkPage m dst src v with ⟨m', ok⟩
  rcases vmmForkPage_cases heq with ⟨hf, rfl⟩ | ⟨hf, rfl⟩ | ⟨m1, hf, hp, hdone⟩ <;> rw [hf] at fetch
  · exact .failed fetch
  · exact .skipped fetch
  have hfill := h.fetch fetch
  cases hs : has (m1.pte src v) pteShared with
  | true =>
    have hwalk := vmmWalk_does g hfill.sane hfill.live v
    rw [forkCount_of_shared hs, forkMark_of_shared hs] at hdone
    rcases hdone with ⟨hw, rfl⟩ | ⟨m2, hw, rfl, rfl⟩ <;> rw [hw] at hwalk
    · exact .refused fetch hwalk
    have hkeep := hwalk.steady.keeps src v (not_candidate_of_shared hs)
    rw [← hkeep] at hp hs ⊢
    exact .copied fetch hwalk (hfill.walk hwalk).live ((hfill.walk hwalk).zero v (by simp)) hp hs
  | false =>
    have mark := forkMark_marked hp
    have hpriv : isPrivate ((forkMark m1 src v).pte src v) := by
      rw [forkMark_private, isPrivate_iff]
      exact ⟨hp, hs⟩
    have hshare := (hfill.mark mark).share (f := pteFrame ((forkMark m1 src v).pte src v))
    have hwalk :=
      vmmWalk_does { g with loose := raise g.loose (pteFrame ((forkMark m1 src v).pte src v)) }
      hshare.sane hshare.live v
    rw [forkCount_of_private hs] at hdone
    rcases hdone with ⟨hw, rfl⟩ | ⟨m2, hw, rfl, rfl⟩ <;> rw [hw] at hwalk
    · exact .leaked fetch mark hpriv (forkMark_write hs) hwalk
    · exact .shared fetch mark hpriv (forkMark_write hs) hwalk (hshare.walk hwalk).live
        ((hshare.walk hwalk).zero v (by simp))

/-- By induction on the pages still to copy. -/
theorem vmmForkPages_does (g : Held) (h : Filling dst src vs m) (hnd : vs.Nodup) :
    Does (Event.isFork (vmmForkPages dst src vs m).2) g m g (vmmForkPages dst src vs m).1 := by
  induction vs generalizing m with
  | nil => exact Does.refl _ g m
  | cons v vs ih =>
    obtain ⟨hv, hnd'⟩ := List.nodup_cons.mp hnd
    have hpage := vmmForkPage_forked g h
    unfold vmmForkPages
    rcases hr : vmmForkPage m dst src v with ⟨m', ok⟩
    rw [hr] at hpage
    cases ok with
    | false => exact hpage.does
    | true =>
      exact (hpage.does.mono fun _ => Event.isFork_weaken).trans
        (ih (hpage.filling h hv) hnd')

theorem vmmCreate_does (g : Held) (hm : Sane m) (hl : (m.space a).live = false) :
    Does Event.isPlain g m g (vmmCreate m a).1 ∧
    ((vmmCreate m a).2 = true → ((vmmCreate m a).1.space a).live ∧
        ∀ v, (vmmCreate m a).1.pte a v = 0) := by
  have halloc := pmmAlloc_does g hm
  unfold vmmCreate
  rcases ha : pmmAlloc m with ⟨m', f⟩
  rw [ha] at halloc
  cases f with
  | zero =>
    exact ⟨halloc.walk.plain, by simp⟩
  | succ f =>
    have hact := Act.create (g := { g with fresh := raise g.fresh (f + 1) }) a (f + 1)
      (raise_pos _ _) (Nat.succ_ne_zero f) (by rw [halloc.walk.steady.live]; exact hl)
    rw [lower_raise] at hact
    refine ⟨halloc.walk.plain.trans (Does.act hact trivial), fun _ => ⟨?_, fun v => ?_⟩⟩
    · simp
    unfold Machine.pte
    simp only [space_setSpace_self]
    rfl

theorem vmmForkAreas_rule {R : Machine → Prop} (h : R m) (halloc : R (pmmAlloc m).1) (src : ℕ)
    (hset : ∀ n, R n → ∀ s : AddrSpace, s.live = (n.space dst).live → s.pt = (n.space dst).pt →
      R (n.setSpace dst s)) :
    R (vmmForkAreas m dst src).1 := by
  have htable := vmmAreaTable_rule h halloc hset
  rw [vmmForkAreas]
  split
  · exact h
  rcases hr : vmmAreaTable m dst with ⟨m', ok⟩
  rw [hr] at htable
  cases ok with
  | false => exact htable
  | true => exact hset m' htable _ rfl rfl

theorem vmmForkAreas_does (g : Held) (h : Filling dst src vs m) :
    Does Event.isPlain g m g (vmmForkAreas m dst src).1 ∧
    Filling dst src vs (vmmForkAreas m dst src).1 := by
  have halloc := pmmAlloc_does g h.sane
  unfold vmmForkAreas
  split
  · exact ⟨Does.refl _ g m, h⟩
  obtain ⟨htable, hl⟩ := vmmAreaTable_does g h.sane h.live
  have hzero : ∀ v ∈ vs, (vmmAreaTable m dst).1.pte dst v = 0 :=
    vmmAreaTable_rule (R := fun n => ∀ v ∈ vs, n.pte dst v = 0) h.zero (h.walk halloc.walk).zero
      fun n hn s _ hpt v hv => (pte_setSpace hpt dst v).trans (hn v hv)
  rcases hr : vmmAreaTable m dst with ⟨m', ok⟩
  rw [hr] at htable hl hzero
  have hfill : Filling dst src vs m' := ⟨htable.sane h.sane, hl, h.ne, hzero⟩
  cases ok with
  | false => exact ⟨htable, hfill⟩
  | true =>
    have hact := Act.copyAreas (g := g) (m := m') dst src (m'.space src).vmaCount
    refine ⟨htable.trans (Does.act hact trivial), act_sane hfill.sane hact, ?_, h.ne,
      fun v hv => (pte_setSpace (by rfl) dst v).trans (hzero v hv)⟩
    simpa using hl

/-- `vmm_fork` up to its walk of the parent's pages. -/
def forkStart (m : Machine) (dst src : ℕ) : Machine × Bool :=
  match vmmCreate m dst with
  | (m, false) => (m, false)
  | (m, true) =>
    vmmForkAreas (m.setSpace dst { m.space dst with
      brk := (m.space src).brk
      brkTop := (m.space src).brkTop
      mmapNext := (m.space src).mmapNext }) dst src

theorem vmmFork_eq (m : Machine) (dst src : ℕ) :
    vmmFork m dst src =
      match forkStart m dst src with
      | (m, false) => (m, false)
      | (m, true) => vmmForkPages dst src (m.space src).pt.keys m := by
  rw [vmmFork, forkStart]
  cases vmmCreate m dst with
  | mk m1 ok => cases ok <;> rfl

/-- The child with the breaks of its parent. -/
def forkBreaks (m : Machine) (dst src : ℕ) : AddrSpace := { m.space dst with
  brk := (m.space src).brk
  brkTop := (m.space src).brkTop
  mmapNext := (m.space src).mmapNext }

/-- The child's space and areas, before any page. -/
theorem forkStart_does (g : Held) (hm : Sane m) (hd : (m.space dst).live = false)
    (hs : (m.space src).live) :
    Does Event.isPlain g m g (forkStart m dst src).1 ∧
      ((forkStart m dst src).2 = true → ∀ vs, Filling dst src vs (forkStart m dst src).1) := by
  have hne : dst ≠ src := by
    rintro rfl
    rw [hd] at hs
    contradiction
  obtain ⟨hcreate, hnew⟩ := vmmCreate_does g hm hd
  rw [forkStart]
  rcases hr : vmmCreate m dst with ⟨m1, ok⟩
  rw [hr] at hcreate hnew
  cases ok with
  | false => exact ⟨hcreate, fun h => absurd h Bool.false_ne_true⟩
  | true =>
    obtain ⟨hlive, hzero⟩ := hnew rfl
    set s := forkBreaks m1 dst src with hsdef
    have htune := Act.tune (g := g) dst s ⟨rfl, rfl, rfl, rfl, rfl, rfl⟩
    have hfill : ∀ vs, Filling dst src vs (m1.setSpace dst s) := fun vs =>
      ⟨act_sane (hcreate.sane hm) htune, by simpa [hsdef, forkBreaks] using hlive, hne,
        fun v _ => (pte_setSpace (by rfl) dst v).trans (hzero v)⟩
    have hstart : Does Event.isPlain g m g (m1.setSpace dst s) :=
      hcreate.trans (Does.act htune trivial)
    exact ⟨hstart.trans (vmmForkAreas_does g (hfill [])).1,
      fun _ vs => (vmmForkAreas_does g (hfill vs)).2⟩

/-- Fork makes a child that is empty so far, and then goes through the parent's pages. -/
theorem vmmFork_stages (g : Held) (hm : Sane m) (hd : (m.space dst).live = false)
    (hs : (m.space src).live) :
    ∃ m', Does Event.isPlain g m g m' ∧
    (vmmFork m dst src = (m', false) ∨ Filling dst src (m'.space src).pt.keys m' ∧
          vmmFork m dst src = vmmForkPages dst src (m'.space src).pt.keys m') := by
  obtain ⟨hstart, hfill⟩ := forkStart_does g hm hd hs
  refine ⟨_, hstart, ?_⟩
  rw [vmmFork_eq]
  rcases hr : forkStart m dst src with ⟨m', ok⟩
  rw [hr] at hfill
  cases ok with
  | false => exact Or.inl rfl
  | true => exact Or.inr ⟨hfill rfl _, rfl⟩

/-- A fork, also one that fails half way. -/
theorem vmmFork_does (g : Held) (hm : Sane m) (hd : (m.space dst).live = false)
    (hs : (m.space src).live) :
    Does (Event.isFork (vmmFork m dst src).2) g m g (vmmFork m dst src).1 := by
  obtain ⟨m', hstart, heq | ⟨hfill, heq⟩⟩ := vmmFork_stages g hm hd hs
  · rw [heq]
    exact hstart.forked false
  · rw [heq]
    exact (hstart.forked _).trans (vmmForkPages_does g hfill (FinMap.keys_nodup _))

end Vextro.Paging
