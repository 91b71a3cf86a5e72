import Vextro.Verification.Paging.Access
import Vextro.Verification.Paging.Loading

/-! Writable or executable, not both, and what a program may do with the pages that `app_map_image`
gives it. -/

namespace Vextro.Paging

variable {e : Pte} {m : Machine}

/-- An entry that names a page, in memory or in the pagefile, is not both writable and
executable. -/
def WxEntry (e : Pte) : Prop := has e ptePresent = true ∨ swapPteIsSwapped e = true →
  has e pteWrite = true →
    has e pteNx = true

/-- `WxEntry` for every page of every space. -/
def Wx (m : Machine) : Prop := ∀ a v, WxEntry (m.pte a v)

theorem wxEntry_zero : WxEntry 0 := by
  intro _ hw
  contradiction

theorem wxEntry_of_not_write (h : has e pteWrite = false) : WxEntry e := by
  intro _ hw
  rw [h] at hw
  contradiction

theorem Wx.setPte (h : Wx m) {a v : ℕ} (he : WxEntry e) : Wx (m.setPte a v e) := by
  intro b w
  rw [pte_setPte]
  split
  · exact he
  · exact h b w

theorem Wx.of_pte {m' : Machine} (h : Wx m) (hpte : ∀ a v, m'.pte a v = m.pte a v) : Wx m' := by
  intro a v
  rw [hpte]
  exact h a v

/-- An entry with the permissions of another one that names a page. -/
theorem wxEntry_of_perms {e' : Pte} (h : WxEntry e) (he : has e ptePresent ∨ swapPteIsSwapped e)
    (hw : has e' pteWrite = has e pteWrite) (hx : has e' pteNx = has e pteNx) : WxEntry e' := by
  intro _ hw'
  rw [hx]
  exact h he (hw ▸ hw')

theorem act_wx {g g' : Held} {m' : Machine} {ev : Event} (hm : Sane m) (h : Wx m)
    (hact : Act g m ev g' m') (hev : ∀ a v nx, ev = .cow a v nx → nx) : Wx m' := by
  cases hact with
  | quiet | take | fill | leak => exact h.of_pte fun _ _ => rfl
  | giveFresh f | giveLoose f => exact h.of_pte (pmmFree_same m f).pte
  | tune a s hs => exact h.of_pte (pte_setSpace hs.pt)
  | age a v hv =>
    exact h.setPte (wxEntry_of_perms (h a v) (Or.inl hv.present)
      (by simp +decide [has_and isFlag_write]) (by simp +decide [has_and isFlag_nx]))
  | evict a v slot hv hs hlt hmax =>
    have hslot : Wx (fillSlot m slot (m.mem (pteFrame (m.pte a v)))) := h.of_pte fun _ _ => rfl
    have hperms := swapPteMake_perms hmax (m.pte a v)
    exact hslot.setPte (wxEntry_of_perms (h a v) (Or.inl hv.present)
      (has_of_perms hperms (by decide)) (has_of_perms hperms (by decide)))
  | pageIn a v f hf hl hs =>
    have hperms := pteMake_perms f (m.pte a v)
    exact Wx.setPte (h.of_pte (swapSlotFree_same m _).pte)
      (wxEntry_of_perms (h a v) (Or.inr hs) (has_of_perms hperms (by decide))
        (has_of_perms hperms (by decide)))
  | map a v f x hf hl hx hlen =>
    have hflags := (hm.areas a x hx hlen).plain
    apply h.setPte
    intro _
    rw [has_pteMake isFlag_write (by decide), has_pteMake isFlag_nx (by decide)]
    exact hflags.writeNx
  | unmapPrivate a v => exact h.setPte wxEntry_zero
  | unmapOther a v => exact Wx.setPte (h.of_pte (swapDiscardPte_same m _).pte) wxEntry_zero
  | protect a v flags hf hp =>
    apply h.setPte
    intro _ hw
    simp +decide [has_or, has_and isFlag_write] at hw
    simp [has_or, hf.plain.writeNx hw]
  | touch a v hp =>
    exact h.setPte (wxEntry_of_perms (h a v) (Or.inl hp) (by simp +decide [has_or])
      (by simp +decide [has_or]))
  | store a v offset byte hp =>
    have hset : Wx (m.setPte a v (m.pte a v ||| pteAccessed ||| pteDirty)) :=
      h.setPte (wxEntry_of_perms (h a v) (Or.inl hp)
        (has_or_mark (by decide) (by decide)) (has_or_mark (by decide) (by decide)))
    exact hset.of_pte fun _ _ => rfl
  | cowMark a v =>
    exact h.setPte (wxEntry_of_not_write (by simp +decide [has_or, has_and isFlag_write]))
  | share a v => exact h.of_pte (pmmRefInc_same m _).pte
  | copy d v e hl hz hp hw => exact h.setPte (wxEntry_of_not_write hw)
  | copyShared d a v => exact h.setPte (h a v)
  | cowKeep a v hp =>
    have hnx := hev a v _ rfl
    apply h.setPte
    intro _ _
    simp +decide [has_or, has_and isFlag_nx, hnx]
  | cowCopy a v f hf hp =>
    have hnx := hev a v _ rfl
    apply h.setPte
    intro _ _
    simp +decide [has_or, has_and isFlag_nx, hnx]
  | setAreas | copyAreas | linkTable | linkVmas | unlinkTable | unlinkVmas | bury =>
    exact h.of_pte (pte_setSpace (by rfl))
  | create a f =>
    intro b w
    unfold Machine.pte
    rw [space_setSpace]
    split
    · exact wxEntry_zero
    · exact h b w

/-- Whether an operation is a write fault on a present copy-on-write page that is
executable. -/
def copiesExecutable (m : Machine) : Op → Bool
  | .fault a va true _ | .resolveCow a va =>
    has (m.pte a (va / 4096)) ptePresent && has (m.pte a (va / 4096)) pteCow &&
      !has (m.pte a (va / 4096)) pteNx
  | _ => false

theorem copiesExecutable_of_isCow {op : Op} {a v : ℕ} (h : op.isCow a v)
    (hp : has (m.pte a v) ptePresent) (hc : has (m.pte a v) pteCow)
    (hno : copiesExecutable m op = false) : has (m.pte a v) pteNx := by
  unfold Op.isCow at h
  split at h <;> simp_all [copiesExecutable]

theorem step_wx (hm : Sane m) (h : Wx m) (op : Op)
    (hop : copiesExecutable m op = false) : Wx (step m op).1 := by
  have hdoes := step_does Held.none hm op
  refine (hdoes.induct (I := fun _ n => Sane n ∧ Wx n) (fun hI hact hev => ?_) ⟨hm, h⟩).2
  refine ⟨act_sane hI.1 hact, act_wx hI.1 hI.2 hact ?_⟩
  rintro a v nx rfl
  obtain ⟨hcow, hnx, hp, hc⟩ := hev
  rw [hnx]
  exact copiesExecutable_of_isCow hcow hp hc hop

/-- No user page is writable and executable at once. -/
def WriteXorExec (m : Machine) : Prop :=
  ∀ a v, has (m.pte a v) ptePresent = true → has (m.pte a v) pteUser = true →
    ¬ (has (m.pte a v) pteWrite = true ∧ has (m.pte a v) pteNx = false)

/-- In a run that never takes a write fault on an executable copy-on-write page, no page
of any space is ever writable and executable. -/
theorem run_writeXorExec {m : Machine} (hm : Sane m) (h : Wx m) (ops : List Op)
    (hops : Run.Meets (fun m op => (step m op).1) (fun m op => copiesExecutable m op = false)
      m ops) (n : ℕ) : WriteXorExec (run m (ops.take n)) := by
  have hinv := Run.invariant_take (I := fun m => Sane m ∧ Wx m)
    (fun m op hI hop => ⟨step_sane hI.1 op, step_wx hI.1 hI.2 op hop⟩) ⟨hm, h⟩ hops n
  rintro a v hp _ ⟨hw, hnx⟩
  have hset : has ((run m (ops.take n)).pte a v) pteNx := hinv.2 a v (Or.inl hp) hw
  rw [hnx] at hset
  contradiction

theorem oneProcess_wx : Wx oneProcess := fun a v => by
  rw [oneProcess_pte]
  exact wxEntry_zero

/-- A process maps a writable page, forks after touching it and writes to it again. -/
theorem run_writeXorExec_fork : WriteXorExec (run oneProcess
      ([.mmap 1 0 4096 3 0x22, .fault 1 0x100000000000 true true, .fork 2 1 true,
        .fault 1 0x100000000000 true true].take 4)) :=
  run_writeXorExec oneProcess_sane oneProcess_wx _ (by decide +kernel) 4

/-- The same process, had it made the page executable before it wrote to it. -/
theorem mprotect_breaks_writeXorExec :
    Sane oneProcess ∧ Wx oneProcess ∧ ¬ WriteXorExec (run oneProcess
        [.mmap 1 0 4096 3 0x22, .fault 1 0x100000000000 true true, .fork 2 1 true,
          .mprotect 1 0x100000000000 4096 5, .fault 1 0x100000000000 true true]) := by
  refine ⟨oneProcess_sane, oneProcess_wx, fun h => ?_⟩
  exact h 1 (2 ^ 32) (by decide +kernel) (by decide +kernel)
    ⟨by decide +kernel, by decide +kernel⟩

/-! ## Pages of images -/

open List
open Function (update update_of_ne update_self)

variable {flags : Pte} {v a : ℕ} {f : ℕ → Option (Bool × Bool)}

/-- Whether the page of an entry, in memory or in the pagefile, may be written, and whether it may
not be run. -/
def perm (e : Pte) : Option (Bool × Bool) :=
  if tells e then some (has e pteWrite, has e pteNx) else none

theorem wxEntry_iff_perm : WxEntry e ↔ perm e ≠ some (true, false) := by
  unfold WxEntry perm
  rw [← Bool.or_eq_true, ← tells]
  cases tells e <;> simp

theorem perm_of_perms {e' : Pte} (h : tells e) (h' : tells e')
    (hperms : e' &&& swapPermMask = e &&& swapPermMask) : perm e' = perm e := by
  rw [perm, perm, if_pos h, if_pos h', has_of_perms hperms (by decide),
    has_of_perms hperms (by decide)]

theorem perm_pteMake (f : ℕ) (flags : Pte) :
    perm (pteMake f flags) = some (has flags pteWrite, has flags pteNx) := by
  rw [perm, if_pos (tells_of_present (pteMake_present f flags)),
    has_pteMake isFlag_write (by decide), has_pteMake isFlag_nx (by decide)]

/-- A space without reservations, and the permissions of its pages. -/
structure Lays (a : ℕ) (f : ℕ → Option (Bool × Bool)) (m : Machine) : Prop where
  sane : Sane m
  live : (m.space a).live = true
  areas : (m.space a).areas = []
  perm : ∀ v, perm (m.pte a v) = f v

namespace Lays

variable {m' : Machine}

theorem of_spaces (h : Lays a f m) (hm : Sane m') (hs : m'.spaces = m.spaces) : Lays a f m' := by
  have hspace := space_congr hs
  exact ⟨hm, hspace ▸ h.live, hspace ▸ h.areas, pte_congr hs ▸ h.perm⟩

theorem setPte (h : Lays a f m) (hm : Sane (m.setPte a v e)) :
    Lays a (update f v (Paging.perm e)) (m.setPte a v e) := by
  refine ⟨hm, by rw [live_setPte, h.live], by rw [areas_setPte, h.areas], fun w => ?_⟩
  rw [pte_setPte]
  by_cases hw : w = v
  · rw [if_pos ⟨rfl, hw⟩, hw, update_self]
  · rw [if_neg fun hc => hw hc.2, update_of_ne hw, h.perm]

end Lays

/-! ## The pager -/

theorem Move.perm {m' : Machine} (h : Move m m') (a v : ℕ) :
    perm (m'.pte a v) = perm (m.pte a v) := by
  have hput : ∀ {n : Machine} {b w : ℕ} {e : Pte}, n.pte = m.pte →
      Paging.perm e = Paging.perm (m.pte b w) →
        Paging.perm ((n.setPte b w e).pte a v) = Paging.perm (m.pte a v) := by
    intro n b w e hn he
    rw [pte_setPte, hn]
    split
    · rename_i hbw
      rw [he, hbw.1, hbw.2]
    · rfl
  cases h with
  | book => rfl
  | forget f => rw [swapRmapForget, (swapRmapSet_same m f none).pte]
  | age b w hev =>
    have hp := (has_aged isFlag_present (by decide) (m.pte b w)).trans hev.present
    refine hput rfl (perm_of_perms (tells_of_present hev.present) (tells_of_present hp) ?_)
    rw [BitVec.and_assoc, show ~~~pteAccessed &&& swapPermMask = swapPermMask by decide]
  | evict b w slot hev hmax =>
    rw [(pmmFree_same _ _).pte, swapRmapForget, (swapRmapSet_same _ _ none).pte]
    exact hput rfl (perm_of_perms (tells_of_present hev.present)
      (tells_of_isSwapped (swapPteMake_isSwapped ..)) (swapPteMake_perms hmax _))
  | link b tables => rw [pte_setSpace (by rfl)]

theorem Moves.lays {m' : Machine} (h : Moves m m') (hm : Sane m') (hl : Lays a f m) :
    Lays a f m' := by
  refine ⟨hm, (h.steady.live a).trans hl.live, (h.steady.areas a).trans hl.areas, fun v => ?_⟩
  rw [← hl.perm v]
  exact Moves.lift (R := fun m m' => perm (m'.pte a v) = perm (m.pte a v)) (fun _ => rfl)
    (fun h h' => h'.trans h) (fun h => h.perm a v) h

section Steps

theorem pmmAlloc_lays (h : Lays a f m) : Lays a f (pmmAlloc m).1 :=
  (pmmAlloc_moves m).lays ((pmmAlloc_does Held.none h.sane).sane h.sane) h

theorem vmmWalk_lays (h : Lays a f m) (v : ℕ) : Lays a f (vmmWalk m a v).1 :=
  (vmmWalk_moves m a v).lays ((vmmWalk_does Held.none h.sane h.live v).sane h.sane) h

theorem swapInPage_lays (h : Lays a f m) (v : ℕ) : Lays a f (swapInPage m a v).1 := by
  have hsane := (swapInPage_does Held.none h.sane a v).sane h.sane
  have halloc := pmmAlloc_lays h
  rcases hr : swapInPage m a v with ⟨m', ok⟩
  rw [hr] at hsane
  rcases swapInPage_cases hr with ⟨-, rfl | rfl⟩ | ⟨-, -, hs, -, -, rfl⟩
  · exact h
  · exact halloc.of_spaces hsane (pmmFree_same _ _).spaces
  have hkeep := (pmmAlloc_moves m).steady.keeps a v
    (not_candidate_of_not_present (present_of_isSwapped hs))
  have hspaces := fetched_spaces (pmmAlloc m).1 a v (pmmAlloc m).2
  refine ⟨hsane, ?_, ?_, fun w => ?_⟩
  · rw [space_congr hspaces, live_setPte, halloc.live]
  · rw [space_congr hspaces, areas_setPte, halloc.areas]
  rw [pte_congr hspaces, pte_setPte, ← halloc.perm w]
  split
  · rename_i hw
    rw [hw.2]
    exact perm_of_perms (tells_of_isSwapped (by rwa [hkeep]))
      (tells_of_present (pteMake_present ..)) (pteMake_perms ..)
  · rfl

theorem vmmMap_lays (h : Lays a f m) {x : ℕ} (hcow : has flags pteCow = false)
    (hok : (vmmMap m a v x flags).2) :
    Lays a (update f v (some (has flags pteWrite, has flags pteNx))) (vmmMap m a v x flags).1 := by
  have hwalk := vmmWalk_lays h v
  have hrmap : ∀ {f : ℕ → Option (Bool × Bool)} {m : Machine} (owner : Option (ℕ × ℕ)), Lays a f m →
      Lays a f (swapRmapSet m x owner) := fun owner h =>
    h.of_spaces ((swapRmapSet_does Held.none _ x owner).sane h.sane)
    (swapRmapSet_same _ x owner).spaces
  revert hok
  rw [vmmMap]
  rcases hw : vmmWalk m a v with ⟨m', ok⟩
  rw [hw] at hwalk
  cases ok with
  | false => exact fun hno => absurd hno Bool.false_ne_true
  | true =>
    intro _
    have hset : Sane (m'.setPte a v (pteMake x flags)) := by
      refine hwalk.sane.setPte (.inl hwalk.live) fun _ hc => ?_
      simp [has_pteMake isFlag_cow (by decide), hcow] at hc
    have hmapped := hwalk.setPte hset
    rw [perm_pteMake] at hmapped
    dsimp only
    split
    · exact hrmap _ hmapped
    · exact hrmap _ hmapped

theorem vmmAllocMap_lays (h : Lays a f m) (hcow : has flags pteCow = false)
    (hok : (vmmAllocMap m a v flags).2 ≠ 0) :
    Lays a (update f v (some (has flags pteWrite, has flags pteNx)))
    (vmmAllocMap m a v flags).1 := by
  have halloc := pmmAlloc_lays h
  revert hok
  rw [vmmAllocMap]
  rcases ha : pmmAlloc m with ⟨m', x⟩
  rw [ha] at halloc
  cases x with
  | zero => exact fun hno => absurd rfl hno
  | succ x =>
    have hmap := vmmMap_lays halloc (v := v) (x := x + 1) hcow
    simp only
    rcases hr : vmmMap m' a v (x + 1) flags with ⟨m2, ok⟩
    rw [hr] at hmap
    cases ok with
    | false => exact fun hno => absurd rfl hno
    | true => exact fun _ => hmap rfl

end Steps

/-! ## Loops -/

/-- Pages with permissions of their own, and the others as before. -/
structure Overlay {α : Type} (page : α → ℕ) (flags : α → Pte) (xs : List α)
    (f f' : ℕ → Option (Bool × Bool)) :
    Prop where
  at' : ∀ x ∈ xs, f' (page x) = some (has (flags x) pteWrite, has (flags x) pteNx)
  off : ∀ v, (∀ x ∈ xs, page x ≠ v) → f' v = f v

theorem forEach_lays
    {α : Type} {body : Machine → α → Machine × Bool} (page : α → ℕ) (flags : α → Pte) (xs : List α)
    (hnd : (xs.map page).Nodup) (hbody : ∀ m f, ∀ x ∈ xs, Lays a f m → (body m x).2 →
      Lays a (update f (page x) (some (has (flags x) pteWrite, has (flags x) pteNx))) (body m x).1)
    (h : Lays a f m) (hok : (forEach body xs m).2) :
    ∃ f', Lays a f' (forEach body xs m).1 ∧ Overlay page flags xs f f' := by
  induction xs generalizing m f with
  | nil => exact ⟨f, h, by simp, fun _ _ => rfl⟩
  | cons x xs ih =>
    obtain ⟨hx, hnd⟩ := nodup_cons.mp hnd
    rw [forEach, andThen] at hok ⊢
    by_cases hone : (body m x).2 = true
    · rw [if_pos hone] at hok ⊢
      obtain ⟨f', hf', hover⟩ := ih hnd (fun m f y hy => hbody m f y (mem_cons_of_mem x hy))
        (hbody m f x mem_cons_self h hone) hok
      refine ⟨f', hf', fun y hy => ?_, fun v hv => ?_⟩
      · rcases mem_cons.mp hy with rfl | hy
        · rw [hover.off _ fun z hz heq => hx (mem_map.mpr ⟨z, hz, heq⟩), update_self]
        · exact hover.at' y hy
      · rw [hover.off v fun y hy => hv y (mem_cons_of_mem x hy),
          update_of_ne (hv x mem_cons_self).symm]
    · rw [if_neg hone] at hok
      exact absurd hok hone

section Pieces

theorem appMapPages_lays (h : Lays a f m) (img : Image) {n : ℕ} (hn : n ≤ 2 ^ 52)
    (hok : (forEach (appMapPage a img) (List.range n) m).2) :
    ∃ f', Lays a f' (forEach (appMapPage a img) (List.range n) m).1 ∧
      Overlay (imagePage img.base) (fun p => aprotFlags (img.prot p)) (List.range n) f f' := by
  refine forEach_lays _ _ _ (imagePages_nodup img.base hn) (fun m f p _ h => ?_) h hok
  have hmap := vmmAllocMap_lays h (v := imagePage img.base p) (aprotFlags_cow (img.prot p))
  rw [appMapPage]
  rcases hr : vmmAllocMap m a (imagePage img.base p) (aprotFlags (img.prot p)) with ⟨m', x⟩
  rw [hr] at hmap
  cases x with
  | zero => exact fun hno => absurd hno Bool.false_ne_true
  | succ x =>
    intro _
    have hmapped := hmap (Nat.succ_ne_zero x)
    exact hmapped.of_spaces (hmapped.sane.of_spaces rfl rfl rfl) rfl

theorem vmmAllocRange_lays (h : Lays a f m) (base len : ℕ)
    (hok : (vmmAllocRange m a base len dataFlags).2) :
    ∃ f', Lays a f' (vmmAllocRange m a base len dataFlags).1 ∧
      Overlay id (fun _ => dataFlags) (rangePages base len) f f' := by
  refine forEach_lays id (fun _ => dataFlags) _ (by rw [map_id]; exact nodup_range')
    (fun m f v _ h hone => ?_) h hok
  exact vmmAllocMap_lays h (by decide) (by simpa using hone)

theorem vmmMapShared_lays (h : Lays a f m) (v : ℕ) (frames : List ℕ)
    (hcow : has (flags ||| pteShared) pteCow = false) (hok : (vmmMapShared m a v frames flags).2) :
    ∃ f', Lays a f' (vmmMapShared m a v frames flags).1 ∧
      Overlay (fun i => v + i) (fun _ => flags ||| pteShared) (List.range frames.length) f f' := by
  refine forEach_lays _ (fun _ => flags ||| pteShared) _
    (nodup_range.map fun x y h => Nat.add_left_cancel h) (fun m f i _ h => ?_) h hok
  split
  · exact fun hno => absurd hno Bool.false_ne_true
  · exact vmmMap_lays h hcow

theorem appMapGuard_lays (h : Lays a f m) (v : ℕ) :
    ∃ f', Lays a f' (appMapGuard m a v) ∧ (f' v = none ∨ f' v = f v) ∧ ∀ w, w ≠ v → f' w = f w := by
  have hwalk := vmmWalk_lays h v
  rw [appMapGuard]
  rcases hw : vmmWalk m a v with ⟨m', ok⟩
  rw [hw] at hwalk
  cases ok with
  | false => exact ⟨f, hwalk, .inr rfl, fun _ _ => rfl⟩
  | true =>
    refine ⟨_, hwalk.setPte (hwalk.sane.setPte (.inl hwalk.live) fun hp => absurd hp (by decide)),
      .inl ?_, fun w hw => update_of_ne hw _ f⟩
    rw [update_self]
    decide

theorem asWriteFrom_lays (n va : ℕ) (bytes : List UInt8) (h : Lays a f m) :
    Lays a f (asWriteFrom a n va bytes m).1 := by
  refine asWriteFrom_rule (R := Lays a f) (fun n va h => ?_) (fun n v h => swapInPage_lays h v)
    (fun n mem h => h.of_spaces (h.sane.of_spaces rfl rfl rfl) rfl) n va bytes h
  -- there is no reservation to fill a page from
  have hfind : vmmAreaFind n a (va / 4096 * 4096) = none := by
    rw [vmmAreaFind, h.areas]
    split <;> rfl
  rw [vmmFaultAnon, hfind]
  split
  · exact h
  · split <;> exact h

end Pieces

/-! ## The image -/

theorem Overlay.good {α : Type} {page : α → ℕ}
    {flags : α → Pte} {xs : List α} {f' : ℕ → Option (Bool × Bool)} (h : Overlay page flags xs f f')
    (hflags : ∀ x ∈ xs, (has (flags x) pteWrite, has (flags x) pteNx) ≠ (true, false))
    (hf : ∀ v, f v ≠ some (true, false)) (v : ℕ) : f' v ≠ some (true, false) := by
  by_cases hv : ∀ x ∈ xs, page x ≠ v
  · rw [h.off v hv]
    exact hf v
  push Not at hv
  obtain ⟨x, hx, rfl⟩ := hv
  rw [h.at' x hx]
  exact fun heq => hflags x hx (Option.some.inj heq)

/-- A page of the image asks to be written and to be run. -/
def Image.asksBoth (img : Image) (p : ℕ) : Prop :=
  img.prot p &&& aprotWrite ≠ 0 ∧ img.prot p &&& aprotExec ≠ 0

theorem aprotFlags_both {prot : UInt8} :
    (has (aprotFlags prot) pteWrite, has (aprotFlags prot) pteNx) = (true, false) ↔
      prot &&& aprotWrite ≠ 0 ∧ prot &&& aprotExec ≠ 0 := by
  by_cases h0 : prot = 0
  · subst h0
    decide
  rw [aprotFlags]
  simp only [h0, if_false]
  split <;> split <;> simp +decide [*]

/-- A space that `vmm_create` has just made. -/
structure NewSpace (m : Machine) (a : ℕ) : Prop where
  live : (m.space a).live = true
  areas : (m.space a).areas = []
  entries : ∀ v, m.pte a v = 0

theorem andThen_of_ok {r : Machine × Bool} {next : Machine → Machine × Bool}
    (h : (andThen r next).2) :
    r.2 ∧ andThen r next = next r.1 := by
  unfold andThen at h ⊢
  split at h
  · next hr => exact ⟨hr, if_pos hr⟩
  · next hr => exact absurd h hr

/-- Pages of an image, also of one that wraps around, and where they are not. -/
theorem imagePage_outside {img : Image} (hin : img.inPlace)
    (hspan : img.span ≤ userImageMax) {p : ℕ} (hp : p < (img.span + 4095) / 4096) :
    imagePage img.base p ≤ userImageMax / 4096 ∨ userStackTop / 4096 < imagePage img.base p := by
  simp only [Image.inPlace, Bool.and_eq_true, decide_eq_true_eq] at hin
  rw [imagePage_eq]
  unfold userImageMax userStackTop userMin at *
  omega

theorem Layout.stack_le
    (lay : Layout) {v : ℕ} (h : v ∈ rangePages (lay.stackTop - userStackSize) userStackSize) :
    v ≤ userStackTop / 4096 := by
  have hv := mem_range'_1.mp h
  simp only [Layout.stackTop, aslrOffset, userStackTop, userStackSize] at hv ⊢
  omega

theorem Layout.guard_le (lay : Layout) :
    (lay.stackTop - userStackSize - 4096) / 4096 ≤ userStackTop / 4096 := by
  simp only [Layout.stackTop, aslrOffset, userStackTop, userStackSize]
  omega

theorem appMapImage_lays (hm : Sane m) (hnew : NewSpace m a) {img : Image} (hin : img.inPlace)
    (hspan : img.span ≤ userImageMax) {lay : Layout}
    (hok : (appMapImage m a img lay).2) : ∃ f, Lays a f (appMapImage m a img lay).1 ∧
      (∀ p < (img.span + 4095) / 4096, f (imagePage img.base p) =
        some (has (aprotFlags (img.prot p)) pteWrite, has (aprotFlags (img.prot p)) pteNx)) ∧
      ((∀ p < (img.span + 4095) / 4096, ¬ img.asksBoth p) → ∀ v, f v ≠ some (true, false)) := by
  have hfits : (img.span + 4095) / 4096 ≤ 2 ^ 52 := by
    unfold userImageMax at hspan
    omega
  obtain ⟨himage, htramp, hcanvas, hguard, hstack⟩ := lay.apart
  have h0 : Lays a (fun _ => none)
      (m.setSpace a { m.space a with brk := lay.heapBase, brkTop := lay.heapBase }) := by
    refine ⟨act_sane hm (.tune (g := Held.none) a _ ⟨rfl, rfl, rfl, rfl, rfl, rfl⟩), ?_, ?_,
      fun v => ?_⟩
    · rw [space_setSpace_self]
      exact hnew.live
    · rw [space_setSpace_self]
      exact hnew.areas
    · rw [pte_setSpace (by rfl), hnew.entries]
      decide
  rw [appMapImage] at hok ⊢
  obtain ⟨hok1, heq⟩ := andThen_of_ok hok
  rw [heq] at hok ⊢
  obtain ⟨f1, h1, hover1⟩ := appMapPages_lays h0 img hfits hok1
  obtain ⟨hok2, heq⟩ := andThen_of_ok hok
  rw [heq] at hok ⊢
  obtain ⟨f2, h2, hover2⟩ := vmmAllocRange_lays h1 _ _ hok2
  obtain ⟨f3, h3, hg3, hoff3⟩ := appMapGuard_lays h2 ((lay.stackTop - userStackSize - 4096) / 4096)
  obtain ⟨hok4, heq⟩ := andThen_of_ok hok
  rw [heq] at hok ⊢
  obtain ⟨f4, h4, hover4⟩ := vmmMapShared_lays h3 _ _ (by decide) hok4
  obtain ⟨hok5, heq⟩ := andThen_of_ok hok
  rw [heq]
  obtain ⟨f5, h5, hover5⟩ := vmmMapShared_lays h4 _ _ (by decide) hok5
  refine ⟨f5, asWriteFrom_lays _ _ _ h5, fun p hp => ?_, fun hboth => ?_⟩
  · -- the pieces that are mapped later are all above the image, or below where it wraps around
    have hout := imagePage_outside hin hspan hp
    have hguardTop := lay.guard_le
    have htrampFits := img.tramp_fits
    have hcanvasFits := img.canvas_fits
    have hbelow : ∀ v, lay.trampVa / 4096 ≤ v → v ≤ userStackTop / 4096 →
        v ≠ imagePage img.base p := by
      omega
    rw [hover5.off _ fun i hi => hbelow _ (by omega) (by have := mem_range.mp hi; omega),
      hover4.off _ fun i hi => hbelow _ (by omega) (by have := mem_range.mp hi; omega),
      hoff3 _ (hbelow _ (by omega) hguardTop).symm, hover2.off _
      fun v hv => hbelow v (by have := le_of_mem_rangePages hv; omega) (lay.stack_le hv)]
    exact hover1.at' p (mem_range.mpr hp)
  have hgood1 := hover1.good
    (fun p hp => fun heq => hboth p (mem_range.mp hp) (aprotFlags_both.mp heq)) fun _ => (by simp)
  have hgood2 := hover2.good (fun _ _ => by decide) hgood1
  have hgood3 : ∀ v, f3 v ≠ some (true, false) := by
    intro v
    by_cases hv : v = (lay.stackTop - userStackSize - 4096) / 4096
    · rcases hg3 with hg3 | hg3
      · rw [hv, hg3]
        simp
      · rw [hv, hg3]
        exact hgood2 _
    · rw [hoff3 v hv]
      exact hgood2 v
  exact hover5.good (fun _ _ => by decide) (hover4.good (fun _ _ => by decide) hgood3)

/-- Every page of the new program keeps W^X if and only if no page of the image asks for both. -/
theorem appMapImage_wx (hm : Sane m) (hnew : NewSpace m a) {img : Image} (hin : img.inPlace)
    (hspan : img.span ≤ userImageMax) {lay : Layout} (hok : (appMapImage m a img lay).2) :
    (∀ v, WxEntry ((appMapImage m a img lay).1.pte a v)) ↔
      ∀ p < (img.span + 4095) / 4096, ¬ img.asksBoth p := by
  obtain ⟨f, hf, himage, hgood⟩ := appMapImage_lays hm hnew hin hspan hok
  constructor
  · intro hwx p hp hboth
    have hperm := (hf.perm _).trans (himage p hp)
    rw [aprotFlags_both.mpr hboth] at hperm
    exact wxEntry_iff_perm.mp (hwx _) hperm
  intro hno v
  rw [wxEntry_iff_perm, hf.perm]
  exact hgood hno v

end Vextro.Paging
