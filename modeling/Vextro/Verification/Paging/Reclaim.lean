import Vextro.Verification.Paging.Sanity

/-! The allocator and the pager as sequences of actions. -/

namespace Vextro.Paging

open Function

/-! ## Held references -/

variable {m : Machine}

theorem lower_raise (h : ℕ → ℕ) (f : ℕ) : lower (raise h f) f = h := by
  funext x
  unfold lower raise
  by_cases hx : x = f
  · simp
  · simp [update_of_ne hx]

theorem raise_pos (h : ℕ → ℕ) (f : ℕ) : 0 < raise h f f := by
  simp [raise]

/-- What a caller of the allocator holds, given the frame it was handed. -/
def Held.got (g : Held) (f : ℕ) : Held :=
  if f = 0 then g else { g with fresh := raise g.fresh f }

theorem Held.got_zero (g : Held) : g.got 0 = g := if_pos rfl

theorem Held.got_of_ne (g : Held) {f : ℕ} (h : f ≠ 0) :
    g.got f = { g with fresh := raise g.fresh f } := if_neg h

/-! ## Bitmaps -/

theorem scanWords_spec (bm : ℕ → Bool) (w n : ℕ) :
    (scanWords bm w n = none ∧ ∀ f, w * 64 ≤ f → f < (w + n) * 64 → bm f = true) ∨
      ∃ w' b, scanWords bm w n = some (w', b) ∧ bm (w' * 64 + b) = false ∧ b < 64 ∧ w' < w + n ∧
        ∀ f, w * 64 ≤ f → f < w' * 64 + b → bm f := by
  induction n generalizing w with
  | zero => exact .inl ⟨rfl, fun f hlo hhi => by omega⟩
  | succ n ih =>
    rw [scanWords]
    cases hc : ctzClear bm w with
    | some b =>
      obtain ⟨hclear, hb, hlow⟩ := List.find?_range_eq_some.mp hc
      refine .inr ⟨w, b,
        rfl, by simpa using hclear, List.mem_range.mp hb, by omega, fun f hlo hhi => ?_⟩
      have hbit := hlow (f - w * 64) (by omega)
      rw [Nat.add_sub_cancel' hlo] at hbit
      simpa using hbit
    | none =>
      have hword : ∀ f, w * 64 ≤ f → f < (w + 1) * 64 → bm f := fun f hlo hhi => by
        have hbit := List.find?_eq_none.mp hc (f - w * 64) (List.mem_range.mpr (by omega))
        rw [Nat.add_sub_cancel' hlo] at hbit
        simpa using hbit
      have hfrom : ∀ f, w * 64 ≤ f → ((w + 1) * 64 ≤ f → bm f = true) → bm f := fun f hlo hf =>
        (Nat.lt_or_ge f ((w + 1) * 64)).elim (hword f hlo) hf
      rcases ih (w + 1) with ⟨hs, hfull⟩ | ⟨w', b, hs, hclear, hb, hw, hfull⟩
      · exact .inl ⟨hs, fun f hlo hhi => hfrom f hlo fun h => hfull f h (by omega)⟩
      · exact .inr
          ⟨w', b, hs, hclear, hb, by omega, fun f hlo hhi => hfrom f hlo fun h => hfull f h hhi⟩

theorem pmmSweep_spec (m : Machine) (w n : ℕ) :
    (pmmSweep m w n = (m, 0) ∧ ∀ x, w * 64 ≤ x → x < (w + n) * 64 → x < m.highest →
      m.used x = true) ∨
      ∃ f, f < m.highest ∧ m.used f = false ∧ (∀ x, w * 64 ≤ x → x < f → m.used x = true) ∧
      f < (w + n) * 64 ∧
        pmmSweep m w n = ({ m with
          used := update m.used f true, freeFrames := m.freeFrames - 1, hint := f / 64 }, f) := by
  rw [pmmSweep]
  rcases scanWords_spec m.used w n with ⟨hs, hfull⟩ | ⟨w', b, hs, hclear, hb, hw, hfull⟩ <;>
    rw [hs] <;> dsimp only
  · exact .inl ⟨rfl, fun x hlo hhi _ => hfull x hlo hhi⟩
  split
  · exact .inl ⟨rfl, fun x hlo _ hx => hfull x hlo (by omega)⟩
  · have hword : (w' * 64 + b) / 64 = w' := by omega
    exact .inr ⟨w' * 64 + b, by omega, hclear, hfull, by omega, by rw [hword]⟩

/-- Memory is full, or the frame was free and zeroed for its new owner. -/
theorem pmmAllocOnce_spec (h0 : m.used 0) :
    (pmmAllocOnce m = (m, 0) ∧ ∀ x < m.highest, m.used x = true) ∨
      ∃ f, f ≠ 0 ∧ f < m.highest ∧ m.used f = false ∧
      (∀ x, m.hint * 64 ≤ x → x < f → m.used x = true) ∧
        pmmAllocOnce m = ({ m with
          used := update m.used f true, freeFrames := m.freeFrames - 1, hint := f / 64
          mem := update m.mem f zeroPage }, f) := by
  have hne : ∀ {f}, m.used f = false → f ≠ 0 := by
    rintro _ hf rfl
    simp [h0] at hf
  rw [pmmAllocOnce]
  rcases pmmSweep_spec m m.hint
    (bitmapWords m - m.hint) with ⟨hs, hfull⟩ | ⟨f, hlt, hclear, hlow, -, hs⟩
  · rcases pmmSweep_spec m 0 m.hint with ⟨hs', hfull'⟩ | ⟨f, hlt, hclear, -, hf, hs'⟩
    · refine .inl ⟨by simp [hs, hs'], fun x hx => ?_⟩
      rcases Nat.lt_or_ge x (m.hint * 64) with hx' | hx'
      · exact hfull' x (by omega) (by omega) hx
      · exact hfull x hx' (by rw [bitmapWords]; omega) hx
    · exact .inr ⟨f, hne hclear, hlt, hclear, fun x _ _ => by omega, by simp [hs, hs', hne hclear]⟩
  · exact .inr ⟨f, hne hclear, hlt, hclear, hlow, by simp [hs, hne hclear]⟩

theorem pmmAllocOnce_does (g : Held) (hm : Sane m) :
    Does Event.isReclaim g m (g.got (pmmAllocOnce m).2) (pmmAllocOnce m).1 := by
  rcases pmmAllocOnce_spec hm.zeroUsed with ⟨h, -⟩ | ⟨f, h0, hlt, hfree, -, h⟩
  · rw [h]
    exact Does.refl _ g m
  · rw [h, g.got_of_ne h0]
    exact Does.act (.take f _ _ h0 hlt hfree) trivial

theorem giveLoose_does (g : Held) (m : Machine) (f : ℕ) :
    Does Event.isReclaim { g with loose := raise g.loose f } m g (pmmFree m f) := by
  have hact := Act.giveLoose (g := { g with loose := raise g.loose f }) (m := m) f (raise_pos _ _)
  rw [lower_raise] at hact
  exact Does.act hact trivial

theorem giveFresh_does (g : Held) (m : Machine) (f : ℕ) :
    Does Event.isReclaim { g with fresh := raise g.fresh f } m g (pmmFree m f) := by
  have hact := Act.giveFresh (g := { g with fresh := raise g.fresh f }) (m := m) f (raise_pos _ _)
  rw [lower_raise] at hact
  exact Does.act hact trivial

/-! ## The clock -/

theorem quiet_does (g : Held) (m : Machine) (hint freeFrames hand : ℕ) (busy : Bool)
    (rmap : Option (ℕ → Option (ℕ × ℕ))) (fails : ℕ → Bool) :
    Does Event.isReclaim g m g
      { m with hint := hint, freeFrames := freeFrames, hand := hand, swapBusy := busy,
               rmap := rmap, slotFails := fails } :=
  Does.act (.quiet hint freeFrames hand busy rmap fails) trivial

theorem swapRmapSet_does (g : Held) (m : Machine) (f : ℕ) (owner : Option (ℕ × ℕ)) :
    Does Event.isReclaim g m g (swapRmapSet m f owner) := by
  unfold swapRmapSet
  split
  · exact Does.refl _ g m
  split
  · exact Does.refl _ g m
  · exact quiet_does g m m.hint m.freeFrames m.hand m.swapBusy _ m.slotFails

/-- A relation that holds across whatever the pager does. -/
structure Pages (R : Machine → Machine → Prop) : Prop where
  refl : ∀ m, R m m
  trans : ∀ {m m' m''}, R m m' → R m' m'' → R m m''
  book : ∀ (m : Machine) (hand : ℕ) (busy : Bool), R m { m with hand := hand, swapBusy := busy }
  forget : ∀ m f, R m (swapRmapForget m f)
  age : ∀ {m a v}, Evictable m a v → R m (m.setPte a v (m.pte a v &&& ~~~pteAccessed))
  evict : ∀ {m a v slot}, Evictable m a v →
    m.slotBm slot = false → slot < m.slotCount → slot < swapSlots →
    R m (pmmFree (swapRmapForget ((fillSlot m slot (m.mem (pteFrame (m.pte a v)))).setPte a v
        (swapPteMake slot (m.pte a v))) (pteFrame (m.pte a v))) (pteFrame (m.pte a v)))

theorem pages_does (g : Held) : Pages fun m m' => Does Event.isReclaim g m g m' where
  refl := Does.refl _ g
  trans := Does.trans
  book m hand busy := quiet_does g m m.hint m.freeFrames hand busy m.rmap m.slotFails
  forget m f := swapRmapSet_does g m f none
  age hev := Does.act (.age _ _ hev) trivial
  evict hev hclear hlt hmax :=
    ((Does.act (.evict _ _ _ hev hclear hlt hmax) trivial).trans
      (swapRmapSet_does _ _ _ none)).trans
      (giveLoose_does g _ _)

variable {R : Machine → Machine → Prop}

/-- A page the clock settles on is evictable and owns the frame. -/
theorem swapVictimOk_spec (h : Pages R) (m : Machine) (f : ℕ) : R m (swapVictimOk m f).1 ∧
      ∀ a v, (swapVictimOk m f).2 = some (a, v) →
        (swapVictimOk m f).1 = m ∧ Evictable m a v ∧ pteFrame (m.pte a v) = f := by
  have hstay := h.refl m
  have hforget := h.forget m f
  fun_cases swapVictimOk m f
  all_goals try (refine ⟨hstay, fun _ _ h => ?_⟩; cases h; done)
  all_goals try (refine ⟨hforget, fun _ _ h => ?_⟩; cases h)
  next a v hlive _ hpresent hframe huser hshared hcow hsole =>
    refine ⟨hstay, fun b w heq => ?_⟩
    refine ⟨rfl, ⟨?_, ?_, ?_, ?_, ?_, ?_⟩, ?_⟩ <;> simp_all

/-- What the sweep picks can be evicted. -/
theorem swapSweep_spec (h : Pages R) (n : ℕ) (m : Machine) : R m (swapSweep n m).1 ∧
      ∀ f a v, (swapSweep n m).2 = some (f, a, v) →
        Evictable (swapSweep n m).1 a v ∧ pteFrame ((swapSweep n m).1.pte a v) = f := by
  induction n generalizing m with
  | zero => exact ⟨h.refl m, by simp [swapSweep]⟩
  | succ n ih =>
    have hturn := h.book m (if m.highest ≤ m.hand + 1 then 0 else m.hand + 1) m.swapBusy
    set turned : Machine :=
      { m with hand := if m.highest ≤ m.hand + 1 then 0 else m.hand + 1 } with hturned
    obtain ⟨hmoved, hfound⟩ := swapVictimOk_spec h turned m.hand
    rcases hv : swapVictimOk turned m.hand with ⟨m', found⟩
    rw [hv] at hmoved hfound
    cases found with
    | none =>
      have heq : swapSweep (n + 1) m = swapSweep n m' := by
        simp only [swapSweep, ← hturned, hv]
      obtain ⟨hrest, hspec⟩ := ih m'
      rw [heq]
      exact ⟨h.trans (h.trans hturn hmoved) hrest, hspec⟩
    | some p =>
      obtain ⟨a, v⟩ := p
      obtain ⟨hsame, hev, hframe⟩ := hfound a v rfl
      subst hsame
      by_cases hacc : has (turned.pte a v) pteAccessed = true
      · set aged := turned.setPte a v (turned.pte a v &&& ~~~pteAccessed) with haged
        have heq : swapSweep (n + 1) m = swapSweep n aged := by
          simp only [swapSweep, ← hturned, hv, hacc, if_true, haged]
        obtain ⟨hrest, hspec⟩ := ih aged
        rw [heq]
        exact ⟨h.trans (h.trans hturn (h.age hev)) hrest, hspec⟩
      have heq : swapSweep (n + 1) m = (turned, some (m.hand, a, v)) := by
        simp only [swapSweep, ← hturned, hv, hacc]
        rfl
      rw [heq]
      refine ⟨hturn, fun f b w hsome => ?_⟩
      obtain ⟨rfl, rfl, rfl⟩ := hsome
      exact ⟨hev, hframe⟩

/-! ## Eviction -/

theorem swapSlotAlloc_cases (m : Machine) :
    swapSlotAlloc m = (m, none) ∨
      ∃ slot, m.slotBm slot = false ∧ slot < m.slotCount ∧ slot < swapSlots ∧ swapSlotAlloc m =
          ({ m with slotBm := update m.slotBm slot true,
                    slotsUsed := m.slotsUsed + 1 }, some slot) := by
  unfold swapSlotAlloc
  rcases scanWords_spec m.slotBm 0 (swapSlots / 64) with ⟨hs, -⟩ | ⟨w, b, hs, hclear, hb, hw, -⟩ <;>
    rw [hs]
  · exact Or.inl rfl
  by_cases hlt : m.slotCount ≤ w * 64 + b
  · simp [hlt]
  have hmax : w * 64 + b < swapSlots := by
    omega
  exact Or.inr ⟨w * 64 + b, hclear, by omega, hmax, by simp [hlt]⟩

theorem swapSlotFree_taken {slot : ℕ} (hclear : m.slotBm slot = false)
    (hlt : slot < m.slotCount) :
    swapSlotFree { m with slotBm := update m.slotBm slot true,
                          slotsUsed := m.slotsUsed + 1 } slot = m := by
  have hback : update m.slotBm slot false = m.slotBm := by
    rw [← hclear, update_eq_self]
  simp [swapSlotFree, hlt, hback]

/-- Invariant rule: what holds across each move of the pager holds across an eviction. -/
theorem swapOutOne_rule (h : Pages R) (m : Machine) : R m (swapOutOne m).1 := by
  have hfind : R m (swapFindVictim m).1 ∧ ∀ f a v, (swapFindVictim m).2 = some (f, a, v) →
        Evictable (swapFindVictim m).1 a v ∧ pteFrame ((swapFindVictim m).1.pte a v) = f := by
    unfold swapFindVictim
    split
    · exact ⟨h.refl m, by simp⟩
    · exact swapSweep_spec h _ m
  unfold swapOutOne
  rcases hv : swapFindVictim m with ⟨m', found⟩
  rw [hv] at hfind
  obtain ⟨hmoved, hfound⟩ := hfind
  cases found with
  | none => exact hmoved
  | some p =>
    obtain ⟨f, a, v⟩ := p
    have hev := (hfound f a v rfl).1
    dsimp only
    split
    · exact hmoved
    rcases swapSlotAlloc_cases m' with ha | ⟨slot, hclear, hlt, hmax, ha⟩
    · rwa [ha]
    rw [ha]
    dsimp only
    split
    · rwa [swapSlotFree_taken hclear hlt]
    · exact h.trans hmoved (h.evict hev hclear hlt hmax)

theorem swapReclaim_rule (h : Pages R) (m : Machine) : R m (swapReclaim m).1 := by
  unfold swapReclaim
  split
  · exact h.refl m
  have hout := h.trans (h.book m m.hand true) (swapOutOne_rule h { m with swapBusy := true })
  exact h.trans hout (h.book _ _ false)

/-- Allocation, with the eviction it falls back to. -/
theorem pmmAlloc_does (g : Held) (hm : Sane m) :
    Does Event.isReclaim g m (g.got (pmmAlloc m).2) (pmmAlloc m).1 := by
  have honce := pmmAllocOnce_does g hm
  unfold pmmAlloc
  rcases ha : pmmAllocOnce m with ⟨m', f⟩
  rw [ha] at honce
  cases f with
  | succ f => exact honce
  | zero =>
    have hreclaim := swapReclaim_rule (pages_does g) m'
    rcases hr : swapReclaim m' with ⟨m'', got⟩
    rw [hr] at hreclaim
    have hboth := honce.trans hreclaim
    cases got with
    | false =>
      simp only [hr]
      rwa [g.got_zero]
    | true =>
      simp only [hr]
      exact hboth.trans (pmmAllocOnce_does g (hboth.sane hm))

/-! ## Walks -/

/-- Invariant rule for the levels of a walk. -/
theorem vmmWalk_rule {a v : ℕ} {I : Machine → Prop}
    (hlevel : ∀ m shift, I m → I (vmmWalkLevel m a v shift).1) (h : I m) :
    I (vmmWalk m a v).1 := by
  have hfirst := hlevel m 27 h
  rw [vmmWalk]
  rcases h1 : vmmWalkLevel m a v 27 with ⟨m1, ok1⟩
  rw [h1] at hfirst
  cases ok1 with
  | false => exact hfirst
  | true =>
    have hsecond := hlevel m1 18 hfirst
    dsimp only
    rcases h2 : vmmWalkLevel m1 a v 18 with ⟨m2, ok2⟩
    rw [h2] at hsecond
    cases ok2 with
    | false => exact hsecond
    | true => exact hlevel m2 9 hsecond

/-! ## The reverse map included -/

inductive Move : Machine → Machine → Prop
  /-- The bitmap, the hand of the clock and the bytes of a frame. -/
  | book {m : Machine}
      (used : ℕ → Bool) (hint freeFrames hand : ℕ) (mem : ℕ → Page) (busy : Bool) : Move m
      { m with used := used, hint := hint, freeFrames := freeFrames, hand := hand, mem := mem,
                      swapBusy := busy }
  /-- The clock has found an entry of the reverse map to be wrong. -/
  | forget {m : Machine} (f : ℕ) : Move m (swapRmapForget m f)
  | age {m : Machine} (a v : ℕ) (h : Evictable m a v) :
      Move m (m.setPte a v (m.pte a v &&& ~~~pteAccessed))
  | evict {m : Machine} (a v slot : ℕ) (h : Evictable m a v) (hmax : slot < swapSlots) :
      Move m (pmmFree (swapRmapForget
        ((fillSlot m slot (m.mem (pteFrame (m.pte a v)))).setPte a v (swapPteMake slot (m.pte a v)))
        (pteFrame (m.pte a v))) (pteFrame (m.pte a v)))
  | link {m : Machine} (a : ℕ) (tables : FinMap ℕ) :
      Move m (m.setSpace a { m.space a with tables := tables })

abbrev Moves : Machine → Machine → Prop := Relation.ReflTransGen Move

theorem Moves.lift {R : Machine → Machine → Prop} (hrefl : ∀ m, R m m)
    (htrans : ∀ {m m' m''}, R m m' → R m' m'' → R m m'') (hmove : ∀ {m m'}, Move m m' → R m m')
    {m m' : Machine} (h : Moves m m') : R m m' := by
  induction h with
  | refl => exact hrefl m
  | tail _ hlast ih => exact htrans ih (hmove hlast)

theorem Move.steady {m m' : Machine} (h : Move m m') : Steady m m' := by
  cases h with
  | book => exact ⟨fun _ => rfl, fun _ => rfl, fun _ => rfl, fun _ _ _ => rfl, rfl, rfl, rfl⟩
  | forget f => exact (swapRmapSet_same m f none).steady
  | age a v hev => exact steady_setPte hev _
  | evict a v slot hev =>
    exact ((steady_fillSlot hev slot _ _).trans (swapRmapSet_same _ _ none).steady).trans
      (pmmFree_same _ _).steady
  | link a tables => exact steady_tables m a tables

theorem Moves.steady {m m' : Machine} (h : Moves m m') : Steady m m' :=
  Moves.lift .refl .trans Move.steady h

theorem pages_moves : Pages Moves where
  refl _ := .refl
  trans := .trans
  book m hand busy := .single (.book m.used m.hint m.freeFrames hand m.mem busy)
  forget _ f := .single (.forget f)
  age hev := .single (.age _ _ hev)
  evict hev _ _ hmax := .single (.evict _ _ _ hev hmax)

section

variable (m : Machine)

theorem pmmSweep_moves (w n : ℕ) : Moves m (pmmSweep m w n).1 := by
  rw [pmmSweep]
  split
  · exact .refl
  split
  · exact .refl
  · exact .single (.book _ _ _ m.hand m.mem m.swapBusy)

theorem pmmAllocOnce_moves : Moves m (pmmAllocOnce m).1 := by
  have hfirst := pmmSweep_moves m m.hint (bitmapWords m - m.hint)
  rw [pmmAllocOnce]
  set r := pmmSweep m m.hint (bitmapWords m - m.hint)
  have hboth : Moves m (if r.2 = 0 then pmmSweep r.1 0 r.1.hint else r).1 := by
    split
    · exact hfirst.trans (pmmSweep_moves _ _ _)
    · exact hfirst
  generalize (if r.2 = 0 then pmmSweep r.1 0 r.1.hint else r) = r' at hboth
  split
  · exact hboth
  · exact hboth.tail (.book _ _ _ _ _ _)

theorem pmmAlloc_moves : Moves m (pmmAlloc m).1 := by
  have honce := pmmAllocOnce_moves m
  rw [pmmAlloc]
  rcases ha : pmmAllocOnce m with ⟨m', f⟩
  rw [ha] at honce
  cases f with
  | succ f => exact honce
  | zero =>
    have hreclaim : Moves m (swapReclaim m').1 := honce.trans (swapReclaim_rule pages_moves m')
    rcases hr : swapReclaim m' with ⟨m'', got⟩
    rw [hr] at hreclaim
    simp only [hr]
    cases got with
    | false => exact hreclaim
    | true => exact hreclaim.trans (pmmAllocOnce_moves m'')

theorem vmmWalkLevel_moves (a v shift : ℕ) : Moves m (vmmWalkLevel m a v shift).1 := by
  have halloc := pmmAlloc_moves m
  rw [vmmWalkLevel]
  split
  · exact .refl
  rcases ha : pmmAlloc m with ⟨m', f⟩
  rw [ha] at halloc
  cases f with
  | zero => exact halloc
  | succ f => exact halloc.tail (.link a _)

theorem vmmWalk_moves (a v : ℕ) : Moves m (vmmWalk m a v).1 :=
  vmmWalk_rule (fun n shift h => h.trans (vmmWalkLevel_moves n a v shift)) .refl

end

theorem pmmSweep_lt (m : Machine) (w n : ℕ) (h : (pmmSweep m w n).2 ≠ 0) :
    (pmmSweep m w n).2 < m.highest := by
  rw [pmmSweep] at h ⊢
  split at h
  · exact absurd rfl h
  split at h
  · exact absurd rfl h
  rename_i hlt
  rw [if_neg hlt]
  exact Nat.lt_of_not_le hlt

theorem pmmAllocOnce_lt (m : Machine) (h : (pmmAllocOnce m).2 ≠ 0) :
    (pmmAllocOnce m).2 < m.highest := by
  have hhigh := (pmmSweep_moves m m.hint (bitmapWords m - m.hint)).steady.highest
  have hfirst := pmmSweep_lt m m.hint (bitmapWords m - m.hint)
  rw [pmmAllocOnce] at h ⊢
  generalize pmmSweep m m.hint (bitmapWords m - m.hint) = r at hhigh hfirst h ⊢
  have hsecond := pmmSweep_lt r.1 0 r.1.hint
  by_cases hr : r.2 = 0
  · rw [if_pos hr] at h ⊢
    generalize pmmSweep r.1 0 r.1.hint = q at hsecond h ⊢
    by_cases hq : q.2 = 0
    · rw [if_pos hq] at h
      exact absurd hq h
    · rw [if_neg hq, ← hhigh]
      exact hsecond hq
  · rw [if_neg hr, if_neg hr]
    exact hfirst hr

theorem pmmAlloc_lt (m : Machine) (h : (pmmAlloc m).2 ≠ 0) : (pmmAlloc m).2 < m.highest := by
  have honce := pmmAllocOnce_lt m
  have hhigh := (pmmAllocOnce_moves m).steady.highest
  rw [pmmAlloc] at h ⊢
  rcases ha : pmmAllocOnce m with ⟨m', f⟩
  rw [ha] at h honce hhigh
  cases f with
  | succ f => exact honce (Nat.succ_ne_zero f)
  | zero =>
    have hhigh' := (swapReclaim_rule pages_moves m').steady.highest
    rcases hr : swapReclaim m' with ⟨m'', got⟩
    rw [hr] at hhigh'
    simp only [hr] at h ⊢
    cases got with
    | false => exact absurd rfl h
    | true =>
      rw [← hhigh, ← hhigh']
      exact pmmAllocOnce_lt m'' h

end Vextro.Paging
