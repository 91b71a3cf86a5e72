import Vextro.Verification.Paging.Counting

/-! A reference count saturates at `0xFFFF`. Fork stays below that as long as, for every
frame, the count and the parent's entries still to be shared leave room. -/

namespace Vextro.Paging

open List

variable {src f v a dst : ℕ} {vs : List ℕ} {m m' : Machine} {e : Pte} {kern : ℕ → Bool}
  {g g' : Held} {ev : Event} {P Q : Prop}

/-! ## Pages still to be shared -/

/-- Entries of the listed pages that map a frame. -/
def pending (src : ℕ) (vs : List ℕ) (m : Machine) (f : ℕ) : ℕ :=
  (vs.map fun v => mapsFrame f (m.pte src v)).sum

theorem pending_cons (src v : ℕ) (vs : List ℕ) (m : Machine) (f : ℕ) :
    pending src (v :: vs) m f = mapsFrame f (m.pte src v) + pending src vs m f := by
  simp [pending]

theorem pending_mono (h : ∀ v, mapsFrame f (m'.pte src v) ≤ mapsFrame f (m.pte src v)) :
    pending src vs m' f ≤ pending src vs m f := by
  induction vs with
  | nil => exact le_refl _
  | cons v vs ih =>
    exact Nat.add_le_add (h v) ih

/-- Where one page only maps the frame, it is counted at most once. -/
theorem pending_le_one (hnd : vs.Nodup) (h : ∀ w, w ≠ v → mapsFrame f (m.pte src w) = 0) :
    pending src vs m f ≤ 1 := by
  induction vs with
  | nil => exact Nat.zero_le _
  | cons w vs ih =>
    obtain ⟨hw, hnd'⟩ := nodup_cons.mp hnd
    rw [pending_cons]
    by_cases hwv : w = v
    · have hrest : pending src vs m f = 0 := by
        refine sum_eq_zero fun x hx => ?_
        obtain ⟨u, hu, rfl⟩ := mem_map.mp hx
        exact h u fun huv => hw (hwv ▸ huv ▸ hu)
      have hone : mapsFrame f (m.pte src w) ≤ 1 := by
        unfold mapsFrame
        split <;> omega
      omega
    · have := ih hnd'
      have := h w hwv
      omega

theorem pending_le_total (src : ℕ) (hnd : vs.Nodup) (m : Machine) (f : ℕ) :
    pending src vs m f ≤ (m.space src).pt.total (mapsFrame f) :=
  FinMap.sum_le_total (mapsFrame f) (mapsFrame_zero f) (m.space src).pt hnd

/-- No count passes the ceiling while the listed pages are shared. -/
def Room (src : ℕ) (vs : List ℕ) (m : Machine) : Prop :=
  ∀ f, f ≠ 0 → 0 < pending src vs m f → refAt m f + pending src vs m f ≤ 65535

namespace Room

variable {src : ℕ} {vs : List ℕ} {m m' : Machine}

theorem mono (h : Room src vs m) (href : ∀ f, refAt m' f ≤ refAt m f)
    (hmaps : ∀ f v, mapsFrame f (m'.pte src v) ≤ mapsFrame f (m.pte src v)) : Room src vs m' := by
  intro f hf hpos
  have hle : pending src vs m' f ≤ pending src vs m f := pending_mono (hmaps f)
  have := h f hf (by omega)
  have := href f
  omega

theorem tail (h : Room src (v :: vs) m) : Room src vs m := by
  intro f hf hpos
  have := h f hf (by rw [pending_cons]; omega)
  rw [pending_cons] at this
  omega

variable (h : Room src vs m)
include h

theorem setPte (hle : ∀ f, mapsFrame f e ≤ mapsFrame f (m.pte a v)) :
    Room src vs (m.setPte a v e) := by
  refine h.mono (fun _ => le_refl _) fun f w => ?_
  rw [pte_setPte]
  split
  · next heq =>
    obtain ⟨rfl, rfl⟩ := heq
    exact hle f
  · exact le_refl _

theorem setPte_same (hp : isPrivate e = isPrivate (m.pte a v))
    (hf : pteFrame e = pteFrame (m.pte a v)) : Room src vs (m.setPte a v e) :=
  h.setPte fun f => (mapsFrame_same hp hf f).le

theorem setPte_none (hnew : isPrivate e = false) : Room src vs (m.setPte a v e) :=
  h.setPte fun f => by rw [mapsFrame_of_not hnew]; exact Nat.zero_le _

theorem setPte_other (ha : a ≠ src) : Room src vs (m.setPte a v e) := by
  refine h.mono (fun _ => le_refl _) fun f w => ?_
  rw [pte_setPte, if_neg fun hc => ha hc.1.symm]

theorem setSpace {s : AddrSpace} (hpt : s.pt = (m.space a).pt) : Room src vs (m.setSpace a s) :=
  h.mono (fun _ => le_refl _) fun f w => by rw [pte_setSpace hpt]

/-- A frame just taken has no owner but the running function, so it can be put anywhere. -/
theorem setPte_fresh {leak : ℕ → ℕ} (hnd : vs.Nodup) (hown : Owned kern leak g m)
    (hf : 0 < g.fresh f) (hfe : pteFrame e = f) : Room src vs (m.setPte a v e) := by
  intro x hx hpos
  change refAt m x + _ ≤ 65535
  have hentry : ∀ w, ¬ (src = a ∧ w = v) →
      mapsFrame x ((m.setPte a v e).pte src w) = mapsFrame x (m.pte src w) := fun w hw => by
    rw [pte_setPte, if_neg hw]
  by_cases hxf : x = f
  · subst hxf
    have hexcl := hown.excl x hx (by omega)
    have hcount := (hown.held x hx (by omega)).2.2.2
    have hunmapped := hown.fresh_unmapped hf
    have hone : pending src vs (m.setPte a v e) x ≤ 1 := by
      refine pending_le_one (v := v) hnd fun w hw => ?_
      rw [hentry w fun hc => hw hc.2]
      have := le_entryTotal (mapsFrame x) (mapsFrame_zero x) m src w
      unfold mappings at hunmapped
      omega
    omega
  · have hle : pending src vs (m.setPte a v e) x ≤ pending src vs m x := by
      refine pending_mono fun w => ?_
      by_cases hw : src = a ∧ w = v
      · have hnone : mapsFrame x e = 0 := by
          unfold mapsFrame
          rw [hfe]
          simp [Ne.symm hxf]
        obtain ⟨rfl, rfl⟩ := hw
        rw [pte_setPte_self, hnone]
        exact Nat.zero_le _
      · rw [hentry w hw]
    have := h x hx (by omega)
    omega

end Room

theorem refAt_pmmFree_le (m : Machine) (f x : ℕ) : refAt (pmmFree m f) x ≤ refAt m x := by
  rcases pmmFree_cases m f with h | ⟨-, h | ⟨r, hr, -, -, h⟩⟩ <;> rw [h]
  · exact le_rfl
  rw [refAt_some hr, refAt_some rfl, Function.update_apply]
  split
  · next heq => subst heq; omega
  · exact le_rfl

theorem refAt_pmmRefInc_le (m : Machine) (f x : ℕ) :
    refAt (pmmRefInc m f) x ≤ refAt m x + if x = f then 1 else 0 := by
  unfold pmmRefInc
  split
  · exact Nat.le_add_right _ _
  next r hr =>
  split
  · exact Nat.le_add_right _ _
  split
  · rw [refAt_some hr]
    exact (raise_apply r f x).le
  · exact Nat.le_add_right _ _

/-- Every action leaves the room as it was, unless it shares a frame or fills an entry of
the space in question. -/
theorem act_room {leak : ℕ → ℕ} (hnd : vs.Nodup) (hm : Sane m) (hown : Owned kern leak g m)
    (h : Room src vs m) (hact : Act g m ev g' m') (hshare : ∀ f, ev ≠ .share f)
    (hcopy : ∀ v, ev ≠ .copy src v) : Room src vs m' := by
  cases hact with
  | quiet | take | fill => exact h.mono (fun _ => le_refl _) fun _ _ => le_refl _
  | leak => exact h
  | giveFresh f | giveLoose f =>
    exact h.mono (refAt_pmmFree_le m f) fun x v => by rw [(pmmFree_same m f).pte]
  | tune a s hs => exact h.setSpace hs.pt
  | age a v hv =>
    exact h.setPte_same (isPrivate_clear (by decide)) (pteFrame_and (by decide))
  | evict a v slot hv =>
    have hslot : Room src vs (fillSlot m slot (m.mem (pteFrame (m.pte a v)))) :=
      h.mono (fun _ => le_refl _) fun _ _ => le_refl _
    exact hslot.setPte_none (swapPteMake_private slot _)
  | pageIn a v f hf hl hs =>
    have hsame := swapSlotFree_same m (swapPteSlot (m.pte a v))
    have hframes := swapSlotFree_frames m (swapPteSlot (m.pte a v))
    have hslot : Room src vs (swapSlotFree m (swapPteSlot (m.pte a v))) :=
      h.mono (fun f => by unfold refAt; rw [hframes.ref]) fun _ _ => by rw [hsame.pte]
    refine hslot.setPte_fresh hnd (hown.congr hsame.spaces hframes) hf ?_
    exact pteFrame_pteMake_fresh hm hown hf (perms_addr _)
  | map a v f x hf hl hx hlen =>
    exact h.setPte_fresh hnd hown hf
      (pteFrame_pteMake_fresh hm hown hf (hm.areas a x hx hlen).plain.addr)
  | unmapPrivate a v hp => exact h.setPte_none isPrivate_zero
  | unmapOther a v hp =>
    have hsame := swapDiscardPte_same m (m.pte a v)
    have hframes := swapDiscardPte_frames m (m.pte a v)
    have hslot : Room src vs (swapDiscardPte m (m.pte a v)) :=
      h.mono (fun f => by unfold refAt; rw [hframes.ref]) fun _ _ => by rw [hsame.pte]
    exact hslot.setPte_none isPrivate_zero
  | protect a v flags hf hp =>
    exact h.setPte_same (isPrivate_protect hf.plain hp) (pteFrame_protect _ _ hf.plain)
  | touch a v hp =>
    exact h.setPte_same (isPrivate_or (by decide)) (pteFrame_or (by decide))
  | store a v offset byte hp =>
    have hset : Room src vs (m.setPte a v (m.pte a v ||| pteAccessed ||| pteDirty)) :=
      h.setPte_same (isPrivate_stored _) (pteFrame_stored _)
    exact hset.mono (fun _ => le_refl _) fun _ _ => le_refl _
  | cowMark a v hp | cowKeep a v hp =>
    refine h.setPte_same ?_ ?_
    · rw [isPrivate_or (by decide), isPrivate_clear (by decide)]
    · rw [pteFrame_or (by decide), pteFrame_and (by decide)]
  | share a v hp => exact absurd rfl (hshare _)
  | copy d v e =>
    exact h.setPte_other fun hd => hcopy v (by rw [hd])
  | copyShared d a v hl hz hp hs => exact h.setPte_none (by simp [isPrivate, hs])
  | cowCopy a v f hf hp =>
    exact h.setPte_fresh hnd hown hf
      (pteFrame_copy (lt_of_lt_of_le (hown.fresh_lt hf) hm.highest) _)
  | setAreas | copyAreas | linkTable | linkVmas | unlinkTable | unlinkVmas | bury =>
    exact h.setSpace rfl
  | create a f hf h0 hl =>
    refine h.mono (fun _ => le_refl _) fun x w => ?_
    unfold Machine.pte
    rw [space_setSpace]
    split
    · rw [FinMap.get_empty, default_pte]
      exact Nat.zero_le _
    · exact le_refl _

/-! ## Accounts -/

/-- Counts and references agree. As long as `P` holds, no reference has been lost; where
`Q` holds, writable frames are exclusive. -/
structure Accounted (kern : ℕ → Bool) (P Q : Prop) (g : Held) (m : Machine) : Prop where
  sane : Sane m
  owned : ∃ leak, Owned kern leak g m ∧ (P → ∀ f, leak f = 0)
  exclusive : Q → Exclusive g m

theorem act_accounted (h : Accounted kern P Q g m) (hact : Act g m ev g' m')
    (hshare : ∀ f, ev = .share f → refAt m f < 65535) (hleak : ∀ f, ev = .leak f → ¬ P)
    (hgrant : Q → ∀ a v flags, ev = .protect a v flags → isPrivate (m.pte a v) →
      has flags pteWrite → liveRefs g m (pteFrame (m.pte a v)) = 1) : Accounted kern P Q g' m' := by
  obtain ⟨hm, ⟨leak, hown, hzero⟩, hex⟩ := h
  refine ⟨act_sane hm hact, ⟨ev.leaked leak, act_owned hm hown hact hshare, fun hP f => ?_⟩,
    fun hQ => act_exclusive hm hown (hex hQ) hact hshare (hgrant hQ)⟩
  cases ev with
  | leak x => exact absurd hP (hleak x rfl)
  | _ => exact hzero hP f

/-- What every step of `vmm_fork` but the sharing itself keeps. -/
structure Roomy (kern : ℕ → Bool) (P Q : Prop) (src : ℕ) (vs : List ℕ) (g : Held) (m : Machine) :
    Prop where
  accounted : Accounted kern P Q g m
  room : Room src vs m

theorem Roomy.act (hnd : vs.Nodup) (h : Roomy kern P Q src vs g m) (hact : Act g m ev g' m')
    (hshare : ∀ f, ev ≠ .share f) (hleak : ∀ f, ev = .leak f → ¬ P) (hcopy : ∀ v, ev ≠ .copy src v)
    (hgrant : ∀ a v flags, ev ≠ .protect a v flags) : Roomy kern P Q src vs g' m' := by
  refine ⟨act_accounted h.accounted hact (fun f hf => absurd hf (hshare f)) hleak
    fun _ a v flags he => absurd he (hgrant a v flags), ?_⟩
  obtain ⟨leak, hown, _⟩ := h.accounted.owned
  exact act_room hnd h.accounted.sane hown h.room hact hshare hcopy

theorem Roomy.does (hnd : vs.Nodup) (h : Roomy kern P Q src vs g m)
    (hdoes : Does Event.isPlain g m g' m') :
    Roomy kern P Q src vs g' m' := by
  refine hdoes.induct (fun hI hact hev => ?_) h
  refine hI.act hnd hact ?_ ?_ ?_ ?_
  · rintro f rfl
    exact hev
  · rintro f rfl
    exact absurd hev id
  · rintro v rfl
    exact hev
  · rintro a v flags rfl
    exact hev

theorem Roomy.share (h : Roomy kern P Q src (v :: vs) g m) (hp : isPrivate (m.pte src v))
    (hw : has (m.pte src v) pteWrite = false) :
    Roomy kern P Q src vs { g with loose := raise g.loose (pteFrame (m.pte src v)) }
      (pmmRefInc m (pteFrame (m.pte src v))) := by
  obtain ⟨leak, hown, _⟩ := h.accounted.owned
  have hne := hown.nonzero src v hp
  have hself : 0 < pending src (v :: vs) m (pteFrame (m.pte src v)) := by
    rw [pending_cons, mapsFrame_of_private hp, if_pos rfl]
    omega
  refine ⟨act_accounted h.accounted (Act.share src v hp hw) ?_ ?_ ?_, fun f hf hpos => ?_⟩
  · rintro f heq
    cases heq
    have := h.room _ hne hself
    omega
  · rintro f heq
    cases heq
  · rintro _ a w flags heq
    cases heq
  have hpend : pending src vs (pmmRefInc m (pteFrame (m.pte src v))) f = pending src vs m f := by
    unfold pending
    rw [map_congr_left fun w _ => by rw [(pmmRefInc_same m _).pte]]
  have hroom := h.room f hf (by rw [pending_cons]; omega)
  rw [pending_cons, mapsFrame_of_private hp] at hroom
  have := refAt_pmmRefInc_le m (pteFrame (m.pte src v)) f
  omega

theorem PageForked.roomy {ok : Bool} (h : PageForked dst src v g m m' ok) (hne : dst ≠ src)
    (hnd : (v :: vs).Nodup) (hP : P → ok) (hr : Roomy kern P Q src (v :: vs) g m) :
    Roomy kern P Q src vs g m' := by
  have hnd' := (nodup_cons.mp hnd).2
  have hfetch : ∀ {m1}, Does (Event.isFetch src v) g m g m1 → Roomy kern P Q src (v :: vs) g m1 :=
    fun hf => hr.does hnd (hf.mono fun _ => Event.isPlain_of_isFetch)
  have htail : ∀ {g m}, Roomy kern P Q src (v :: vs) g m → Roomy kern P Q src vs g m :=
    fun h => ⟨h.accounted, h.room.tail⟩
  cases h with
  | failed fetch | skipped fetch => exact htail (hfetch fetch)
  | refused fetch walk => exact htail ((hfetch fetch).does hnd walk.plain)
  | copied fetch walk hl hz hp hs =>
    exact htail (((hfetch fetch).does hnd walk.plain).does hnd
      (Does.act (Act.copyShared dst src v hl hz hp hs) trivial))
  | leaked fetch mark hp hw walk =>
    have hshared := (((hfetch fetch).does hnd (mark.does g)).share hp hw).does hnd' walk.plain
    exact hshared.act hnd' .leakRaised (by simp)
      (fun _ _ hp => absurd (hP hp) (by decide)) (by simp) (by simp)
  | shared fetch mark hp hw walk hl hz =>
    have hshared := (((hfetch fetch).does hnd (mark.does g)).share hp hw).does hnd' walk.plain
    exact hshared.act hnd' (.copyRaised hl hz hp hw) (by simp) (by simp) (by simp [hne]) (by simp)

theorem vmmForkPages_accounted (h : Filling dst src vs m) (hnd : vs.Nodup)
    (hr : Roomy kern P Q src vs g m) (hP : P → (vmmForkPages dst src vs m).2) :
    Accounted kern P Q g (vmmForkPages dst src vs m).1 := by
  induction vs generalizing m with
  | nil => exact hr.accounted
  | cons v vs ih =>
    obtain ⟨hv, hnd'⟩ := nodup_cons.mp hnd
    have hpage := vmmForkPage_forked g h
    unfold vmmForkPages at hP ⊢
    rcases hf : vmmForkPage m dst src v with ⟨m', ok⟩
    rw [hf] at hpage hP
    cases ok with
    | false => exact (hpage.roomy h.ne hnd hP hr).accounted
    | true => exact ih (hpage.filling h hv) hnd' (hpage.roomy h.ne hnd (fun _ => rfl) hr) hP

/-! ## Operations -/

/-- No frame of the space would have its count raised past the ceiling by a fork. -/
def forkFits (m : Machine) (src : ℕ) : Bool := (m.space src).pt.keys.all fun v =>
    !isPrivate (m.pte src v) ||
      pmmRefCount m (pteFrame (m.pte src v)) +
        (m.space src).pt.total (mapsFrame (pteFrame (m.pte src v))) ≤ 65536

/-- The operations that need the room have it. -/
def Op.fits (m : Machine) : Op → Bool
  | .fork _ src _ | .vmmFork _ src => forkFits m src
  | _ => true

section

variable (h : Accounted kern P Q g m)
include h

theorem room_of_forkFits (hfits : forkFits m src) (hnd : vs.Nodup) :
    Room src vs m := by
  obtain ⟨leak, hown, _⟩ := h.owned
  intro f hf hpos
  obtain ⟨x, hx, hne⟩ : ∃ x ∈ vs, mapsFrame f (m.pte src x) ≠ 0 := by
    by_contra hnone
    push Not at hnone
    have : pending src vs m f = 0 :=
      sum_eq_zero fun y hy => by
        obtain ⟨v, hv, rfl⟩ := mem_map.mp hy
        exact hnone v hv
    omega
  obtain ⟨hp, hframe⟩ : isPrivate (m.pte src x) = true ∧ pteFrame (m.pte src x) = f := by
    unfold mapsFrame at hne
    simpa using hne
  have hkey : x ∈ (m.space src).pt.keys := by
    apply FinMap.mem_keys_of_get_ne
    intro hzero
    have : m.pte src x = 0 := hzero
    rw [this] at hp
    contradiction
  have hfit := all_eq_true.mp hfits x hkey
  have hmapped := one_le_mappings hp
  rw [hframe] at hmapped
  simp only [hp, Bool.not_true, Bool.false_or, decide_eq_true_eq, hframe] at hfit
  rw [pmmRefCount_eq hown hf (by unfold liveRefs; omega)] at hfit
  have := pending_le_total src hnd m f
  omega

theorem Accounted.plain (hdoes : Does Event.isPlain g m g' m') :
    Accounted kern P Q g' m' := by
  refine hdoes.induct (fun hI hact hev => ?_) h
  refine act_accounted hI hact ?_ ?_ ?_
  · rintro f rfl
    exact hev.elim
  · rintro f rfl
    exact absurd hev id
  · rintro _ a v flags rfl
    exact hev.elim

theorem vmmFork_accounted (hd : (m.space dst).live = false)
    (hs : (m.space src).live) (hfits : forkFits m src) (hP : P → (vmmFork m dst src).2) :
    Accounted kern P Q g (vmmFork m dst src).1 := by
  obtain ⟨m', hstart, heq | ⟨hfill, heq⟩⟩ := vmmFork_stages g h.sane hd hs
  · rw [heq]
    exact h.plain hstart
  rw [heq] at hP ⊢
  have hnd := (m'.space src).pt.keys_nodup
  have hroom : Roomy kern P Q src (m'.space src).pt.keys g m := ⟨h, room_of_forkFits h hfits hnd⟩
  exact vmmForkPages_accounted hfill hnd (hroom.does hnd hstart) hP

theorem sysFork_accounted (hd : (m.space dst).live = false) (accepted : Bool)
    (hfits : forkFits m src) (hP : P → (sysFork m dst src accepted).2) :
    Accounted kern P Q g (sysFork m dst src accepted).1 := by
  unfold sysFork at hP ⊢
  cases hs : (m.space src).live with
  | false => exact h
  | true =>
    have hfork := vmmFork_accounted h hd hs hfits
    simp only [hs] at hP ⊢
    rcases hr : vmmFork m dst src with ⟨m', ok⟩
    rw [hr] at hfork hP
    have hdestroy : Accounted kern P Q g m' → Accounted kern P Q g (vmmDestroy m' dst) :=
      fun h' => h'.plain (vmmDestroy_does g h'.sane dst)
    cases ok with
    | false => exact hdestroy (hfork hP)
    | true =>
      cases accepted with
      | true => exact hfork hP
      | false => exact hdestroy (hfork fun _ => rfl)

end

/-- The protection of pages changed, but not which frames they are in. -/
structure SameMappings (m m' : Machine) : Prop where
  entry : ∀ a v, isPrivate (m'.pte a v) = isPrivate (m.pte a v) ∧
    pteFrame (m'.pte a v) = pteFrame (m.pte a v)
  total : ∀ f, mappings m' f = mappings m f

theorem act_sameMappings {flags : Pte} (hact : Act g m ev g' m') (hev : ev.isProtect a vs flags) :
    g' = g ∧ SameMappings m m' := by
  cases hact with
  | protect b v fl hf hp =>
    have hpriv := isPrivate_protect hf.plain hp
    have hframe := pteFrame_protect (m.pte b v) fl hf.plain
    refine ⟨rfl, fun c w => ?_, fun f => ?_⟩
    · rw [pte_setPte]
      split
      · next hc =>
        obtain ⟨rfl, rfl⟩ := hc
        exact ⟨hpriv, hframe⟩
      · exact ⟨rfl, rfl⟩
    · have hm := mappings_setPte m b v f
        ((m.pte b v &&& (pteAddrMask ||| pteShared ||| pteCow)) ||| fl ||| ptePresent)
      rw [mapsFrame_same hpriv hframe] at hm
      exact Nat.add_right_cancel hm
  | setAreas | copyAreas =>
    refine ⟨rfl, fun c w => ?_, fun f => entryTotal_setSpace_same _ rfl⟩
    rw [pte_setSpace (by rfl)]
    exact ⟨rfl, rfl⟩
  | _ => exact hev.elim

/-- Write access is asked for a private page whose frame is mapped elsewhere as well. -/
def Op.grantsShared (m : Machine) : Op → Bool
  | .mprotect a addr length prot =>
    has (protFlags prot) pteWrite &&
      (rangePages (callRange addr length).1 (callRange addr length).2).any fun v =>
        isPrivate (m.pte a v) && 2 ≤ mappings m (pteFrame (m.pte a v))
  | _ => false

theorem sysMprotect_accounted {addr length prot : UInt64} (h : Accounted kern P Q Held.none m)
    (hQ : Q → (Op.mprotect a addr length prot).grantsShared m = false) :
    Accounted kern P Q Held.none (sysMprotect m a addr length prot).1 := by
  have hdoes := sysMprotect_does Held.none h.sane a addr length prot
  refine (hdoes.induct (I := fun g n => g = Held.none ∧ Accounted kern P Q g n ∧ SameMappings m n)
    (fun hI hact hev => ?_) ⟨rfl, h, fun _ _ => ⟨rfl, rfl⟩, fun _ => rfl⟩).2.1
  obtain ⟨rfl, hacc, hsame⟩ := hI
  obtain ⟨rfl, hnext⟩ := act_sameMappings hact hev
  refine ⟨rfl, act_accounted hacc hact ?_ ?_ ?_, fun b w => ?_, fun f => ?_⟩
  · rintro f rfl
    exact hev.elim
  · rintro f rfl
    exact absurd hev id
  · rintro hq b w flags rfl hp hw
    obtain ⟨rfl, hrange, rfl⟩ := hev
    obtain ⟨leak, hown, -⟩ := hacc.owned
    have hmapped := one_le_mappings hp
    have hne := hown.nonzero b w hp
    rw [hsame.total] at hmapped
    rw [(hsame.entry b w).1] at hp
    rw [(hsame.entry b w).2] at hmapped hne ⊢
    -- the frame has no other entry, and a mapped frame holds no table
    have hfew : ¬ 2 ≤ mappings m (pteFrame (m.pte b w)) := by
      intro htwo
      have hnone := hQ hq
      simp only [Op.grantsShared, hw, Bool.true_and, any_eq_false] at hnone
      exact hnone w hrange (by simp [hp, htwo])
    have hexcl := hown.excl _ hne
    unfold liveRefs at hexcl ⊢
    rw [hsame.total] at hexcl ⊢
    simp only [Held.none]
    omega
  · rw [(hnext.entry b w).1, (hnext.entry b w).2]
    exact hsame.entry b w
  · rw [hnext.total, hsame.total]

theorem step_accounted {op : Op} (h : Accounted kern P Q Held.none m) (hfits : op.fits m)
    (hP : P → (step m op).2) (hQ : Q → op.grantsShared m = false) :
    Accounted kern P Q Held.none (step m op).1 := by
  have hother : op.isFork = false → (∀ a v flags, op.isProtect a v flags = false) →
      Accounted kern P Q Held.none (step m op).1 := by
    intro hfork hprot
    refine (step_does Held.none h.sane op).induct
      (fun hI hact hev => ?_) h
    refine act_accounted hI hact ?_ ?_ ?_
    · rintro f rfl
      exact absurd (hfork.symm.trans hev) (by decide)
    · rintro f rfl
      exact absurd (hfork.symm.trans hev.1) (by decide)
    · rintro _ a v flags rfl
      exact absurd ((hprot a v flags).symm.trans hev) (by decide)
  cases op with
  | fork dst src accepted =>
    simp only [step] at hP ⊢
    cases hd : (m.space dst).live with
    | true => exact h
    | false =>
      simp only [hd] at hP ⊢
      exact sysFork_accounted h hd accepted hfits hP
  | vmmFork dst src =>
    simp only [step] at hP ⊢
    cases hd : (m.space dst).live with
    | true => exact h
    | false =>
      cases hs : (m.space src).live with
      | false => exact h
      | true =>
        simp only [hd, hs]
          at hP ⊢
        exact vmmFork_accounted h hd hs hfits hP
  | mprotect a addr length prot => exact sysMprotect_accounted h hQ
  | _ => exact hother rfl fun _ _ _ => rfl

end Vextro.Paging
