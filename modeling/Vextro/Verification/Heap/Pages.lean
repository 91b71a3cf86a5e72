import Vextro.Verification.Paging.FrameMap
import Vextro.Verification.Paging.References

/-! Pages that the kernel keeps for itself stay its own while others are reclaimed. -/

namespace Vextro.Paging

open List
open Function (update update_apply update_of_ne update_self)

variable {m m' : Machine} {a v f : ℕ}

/-- The frames in hand and the frames the pager may take are different frames. `B` are the
frames that were taken to begin with. -/
structure Apart (B : ℕ → Prop) (g : Held) (m : Machine) : Prop where
  once : ∀ f, g.fresh f ≤ 1
  fresh : ∀ f, 0 < g.fresh f →
    f ≠ 0 ∧ f < m.highest ∧ m.used f = true ∧ refAt m f = 0 ∧ g.loose f = 0
  loose : ∀ f, 0 < g.loose f → g.loose f = 1 ∧ m.used f = true ∧ (f < m.highest → refAt m f = 0)
  lent : ∀ a v, Evictable m a v → m.used (pteFrame (m.pte a v)) = true ∧ g.fresh
    (pteFrame (m.pte a v)) = 0 ∧ g.loose (pteFrame (m.pte a v)) = 0
  single : ∀ a v b w, Evictable m a v → Evictable m b w →
    pteFrame (m.pte a v) = pteFrame (m.pte b w) → a = b ∧ v = w
  free : ∀ f, m.used f = false → refAt m f = 0
  spent : ∀ f, m.used f = true → B f ∨ 0 < g.fresh f

/-- What makes a page evictable is its entry and the count of its frame. -/
theorem Evictable.congr (h : Evictable m' a v)
    (hlive : (m'.space a).live = (m.space a).live) (hpte : m'.pte a v = m.pte a v)
    (hcount : pmmRefCount m' (pteFrame (m.pte a v)) = pmmRefCount m (pteFrame (m.pte a v))) :
    Evictable m a v :=
  ⟨hlive ▸ h.live, hpte ▸ h.present, hpte ▸ h.user, hpte ▸ h.notShared, hpte ▸ h.notCow,
    hcount ▸ hpte ▸ h.sole⟩

theorem pmmFree_unshared (h0 : f ≠ 0) (hlt : f < m.highest) (href : refAt m f = 0) :
    pmmFree m f = pmmClear m f := by
  rw [pmmFree, if_neg h0, if_neg hlt.not_ge]
  cases hr : m.ref with
  | none => rfl
  | some r =>
    rw [refAt_some hr] at href
    simp only [href, ne_eq, not_true_eq_false, if_false]

theorem pmmClear_of_used (hused : m.used f) : pmmClear m f = { m with
      used := update m.used f false
      freeFrames := m.freeFrames + 1
      hint := if f / 64 < m.hint then f / 64 else m.hint } := by
  rw [pmmClear, if_pos hused]

namespace Apart

variable {B : ℕ → Prop} {g : Held}

variable (h : Apart B g m)
include h

theorem of_used (hspaces : m'.spaces = m.spaces) (href : m'.ref = m.ref)
    (hhigh : m'.highest = m.highest) {g' : Held} (hloose : ∀ f, g'.loose f ≤ g.loose f)
    (honce : ∀ f, g'.fresh f ≤ 1) (hfresh : ∀ f, 0 < g'.fresh f →
      f ≠ 0 ∧ f < m.highest ∧ m'.used f ∧ refAt m f = 0 ∧ g'.loose f = 0)
    (hused : ∀ f, 0 < g'.loose f → m'.used f) (hlent : ∀ a v, Evictable m a v →
      m'.used (pteFrame (m.pte a v)) ∧ g'.fresh (pteFrame (m.pte a v)) = 0)
    (hfree : ∀ f, m'.used f = false → refAt m f = 0)
    (hspent : ∀ f, m'.used f → B f ∨ 0 < g'.fresh f) : Apart B g' m' := by
  have hspace := space_congr hspaces
  have hpte := pte_congr hspaces
  have hat : ∀ f, refAt m' f = refAt m f := fun f => by rw [refAt, refAt, href]
  have hev : ∀ a v, Evictable m' a v → Evictable m a v := fun a v hv =>
    hv.congr (by rw [hspace]) (congrFun₂ hpte a v) (pmmRefCount_congr href hhigh _)
  refine ⟨honce, fun f hf => ?_, fun f hf => ?_, fun a v hv => ?_, fun a v b w hv hw heq => ?_,
    fun f hf => (hat f).trans (hfree f hf), hspent⟩
  · rw [hat, hhigh]
    exact hfresh f hf
  · have hold := h.loose f (hf.trans_le (hloose f))
    rw [hat, hhigh]
    exact ⟨by have := hloose f; omega, hused f hf, hold.2.2⟩
  · have hold := h.lent a v (hev a v hv)
    obtain ⟨hu, hf⟩ := hlent a v (hev a v hv)
    rw [hpte]
    exact ⟨hu, hf, Nat.le_zero.mp (hold.2.2 ▸ hloose _)⟩
  · rw [hpte] at heq
    exact h.single a v b w (hev a v hv) (hev b w hw) heq

theorem same (hspaces : m'.spaces = m.spaces) (href : m'.ref = m.ref)
    (hhigh : m'.highest = m.highest) (hused : m'.used = m.used) : Apart B g m' := by
  refine h.of_used hspaces href hhigh (fun _ => le_rfl) h.once (fun f hf => ?_) (fun f hf => ?_)
    (fun a v hv => ?_) (fun f hf => h.free f (hused ▸ hf)) fun f hf => h.spent f (hused ▸ hf)
  · rw [hused]
    exact h.fresh f hf
  · rw [hused]
    exact (h.loose f hf).2.1
  · rw [hused]
    exact ⟨(h.lent a v hv).1, (h.lent a v hv).2.1⟩

theorem take (h0 : f ≠ 0) (hlt : f < m.highest) (hf : m.used f = false)
    (hspaces : m'.spaces = m.spaces) (href : m'.ref = m.ref) (hhigh : m'.highest = m.highest)
    (hused : m'.used = update m.used f true) : Apart B { g with fresh := raise g.fresh f } m' := by
  have hzero : g.fresh f = 0 := by
    by_contra hne
    simp [(h.fresh f (Nat.pos_of_ne_zero hne)).2.2.1] at hf
  have hloose : g.loose f = 0 := by
    by_contra hne
    simp [(h.loose f (Nat.pos_of_ne_zero hne)).2.1] at hf
  have hraise : ∀ x, raise g.fresh f x = if x = f then 1 else g.fresh x := fun x => by
    rw [raise, update_apply, hzero]
  have hmono : ∀ x, m.used x → m'.used x := fun x hx => by
    rw [hused, update_apply, hx, ite_self]
  refine h.of_used hspaces href hhigh (fun _ => le_rfl) (fun x => ?_) (fun x hx => ?_)
    (fun x hx => hmono x (h.loose x hx).2.1) (fun a v hv => ?_) (fun x hx => ?_) fun x hx => ?_
  · dsimp only
    rw [hraise]
    split
    · exact le_rfl
    · exact h.once x
  · dsimp only at hx ⊢
    rw [hraise] at hx
    split at hx
    · rename_i hxf
      subst hxf
      exact ⟨h0, hlt, by rw [hused, update_self], h.free x hf, hloose⟩
    · obtain ⟨hx0, hxlt, hxu, hxr, hxl⟩ := h.fresh x hx
      exact ⟨hx0, hxlt, hmono x hxu, hxr, hxl⟩
  · have hold := h.lent a v hv
    refine ⟨hmono _ hold.1, ?_⟩
    dsimp only
    rw [hraise, if_neg, hold.2.1]
    intro heq
    rw [heq, hf] at hold
    cases hold.1
  · rw [hused, update_apply] at hx
    split at hx
    · cases hx
    · exact h.free x hx
  dsimp only
  rw [hused, update_apply] at hx
  rw [hraise]
  split at hx
  · rename_i hxf
    exact .inr (by rw [if_pos hxf]; exact Nat.one_pos)
  rename_i hxf
  rw [if_neg hxf]
  exact h.spent x hx

theorem clear {g' : Held} (hused : m.used f) (href : refAt m f = 0)
    (hfresh : ∀ x, g'.fresh x = if x = f then 0 else g.fresh x)
    (hloose : ∀ x, g'.loose x = if x = f then 0 else g.loose x)
    (hlent : ∀ a v, Evictable m a v → pteFrame (m.pte a v) ≠ f) : Apart B g' (pmmClear m f) := by
  rw [pmmClear_of_used hused]
  have hkeep : ∀ x, x ≠ f → update m.used f false x = m.used x := fun x hx => update_of_ne hx _ _
  have hne : ∀ {x c}, 0 < (if x = f then 0 else c) → x ≠ f := fun hx hxf => by simp [hxf] at hx
  have hle : ∀ x c, (if x = f then 0 else c) ≤ c := fun x c => by split <;> omega
  refine h.of_used (by rfl) (by rfl) (by rfl) (fun x => hloose x ▸ hle x _)
    (fun x => hfresh x ▸ (hle x _).trans (h.once x)) (fun x hx => ?_) (fun x hx => ?_)
    (fun a v hv => ?_) (fun x hx => ?_) fun x hx => ?_
  · rw [hfresh] at hx
    dsimp only
    rw [hkeep x (hne hx), hloose, if_neg (hne hx)]
    exact h.fresh x (by rwa [if_neg (hne hx)] at hx)
  · rw [hloose] at hx
    dsimp only
    rw [hkeep x (hne hx)]
    exact (h.loose x (by rwa [if_neg (hne hx)] at hx)).2.1
  · dsimp only
    rw [hkeep _ (hlent a v hv), hfresh, if_neg (hlent a v hv)]
    exact ⟨(h.lent a v hv).1, (h.lent a v hv).2.1⟩
  · by_cases hxf : x = f
    · rwa [hxf]
    · exact h.free x ((hkeep x hxf).symm.trans hx)
  · have hxf : x ≠ f := fun hxf => by simp [hxf] at hx
    rw [hfresh, if_neg hxf]
    exact h.spent x ((hkeep x hxf).symm.trans hx)

theorem give (hf : 0 < g.fresh f) : Apart B { g with fresh := lower g.fresh f } (pmmFree m f) := by
  obtain ⟨h0, hlt, hused, href, hloose⟩ := h.fresh f hf
  have hone := h.once f
  rw [pmmFree_unshared h0 hlt href]
  refine h.clear hused href (fun x => ?_) (fun x => ?_) fun a v hv heq => ?_
  · simp only [lower, update_apply, show g.fresh f - 1 = 0 by omega]
  · split
    · simp_all
    · rfl
  · have hfr := (h.lent a v hv).2.1
    rw [heq] at hfr
    omega

/-- The pager gives back the frame of a page it has written out. -/
theorem giveLoose (hf : 0 < g.loose f) :
    Apart B { g with loose := lower g.loose f } (pmmFree m f) := by
  obtain ⟨hone, hused, href⟩ := h.loose f hf
  have hfresh : g.fresh f = 0 := by
    by_contra hne
    simp [(h.fresh f (Nat.pos_of_ne_zero hne)).2.2.2.2] at hf
  have hlower : ∀ x, lower g.loose f x = if x = f then 0 else g.loose x := fun x => by
    rw [lower, update_apply, hone]
  by_cases hin : f ≠ 0 ∧ f < m.highest
  · rw [pmmFree_unshared hin.1 hin.2 (href hin.2)]
    refine h.clear hused (href hin.2) (fun x => ?_) hlower fun a v hv heq => ?_
    · split
      · simp_all
      · rfl
    · have hlo := (h.lent a v hv).2.2
      rw [heq] at hlo
      omega
  · have hle : ∀ x, lower g.loose f x ≤ g.loose x := fun x => by
      rw [hlower]
      split <;> omega
    have hsame : pmmFree m f = m := by
      rw [pmmFree]
      split
      · rfl
      · rename_i h0
        exact if_pos (Nat.le_of_not_lt fun hlt => hin ⟨h0, hlt⟩)
    rw [hsame]
    refine h.of_used rfl rfl rfl hle h.once (fun x hx => ?_) (fun x hx => ?_)
      (fun a v hv => ⟨(h.lent a v hv).1, (h.lent a v hv).2.1⟩) h.free h.spent
    · obtain ⟨hx0, hxlt, hxu, hxr, hxl⟩ := h.fresh x hx
      exact ⟨hx0, hxlt, hxu, hxr, Nat.le_zero.mp (hxl ▸ hle x)⟩
    · exact (h.loose x (hx.trans_le (hle x))).2.1

end Apart

theorem evictable_age {b w : ℕ} (h : Evictable (m.setPte a v (m.pte a v &&& ~~~pteAccessed)) b w) :
    Evictable m b w ∧
      pteFrame ((m.setPte a v (m.pte a v &&& ~~~pteAccessed)).pte b w) = pteFrame (m.pte b w) := by
  have hframe : pteFrame ((m.setPte a v (m.pte a v &&& ~~~pteAccessed)).pte b w) =
      pteFrame (m.pte b w) := by
    rw [pte_setPte]
    split
    · rename_i hbw
      obtain ⟨rfl, rfl⟩ := hbw
      exact pteFrame_and (by decide)
    · rfl
  have hhas : ∀ flag, IsFlag flag → has (~~~pteAccessed) flag = true →
      has ((m.setPte a v (m.pte a v &&& ~~~pteAccessed)).pte b w) flag = has (m.pte b w) flag := by
    intro flag hflag hkeep
    rw [pte_setPte]
    split
    · rename_i hbw
      obtain ⟨rfl, rfl⟩ := hbw
      rw [has_and hflag, hkeep, Bool.and_true]
    · rfl
  refine ⟨⟨?_, ?_, ?_, ?_, ?_, ?_⟩, hframe⟩
  · rw [← live_setPte m a b v]
    exact h.live
  · rw [← hhas _ isFlag_present (by decide)]
    exact h.present
  · rw [← hhas _ isFlag_user (by decide)]
    exact h.user
  · rw [← hhas _ isFlag_shared (by decide)]
    exact h.notShared
  · rw [← hhas _ isFlag_cow (by decide)]
    exact h.notCow
  · rw [← hframe]
    exact h.sole

theorem evictable_evict {b w slot : ℕ} {page : Page}
    (h : Evictable ((fillSlot m slot page).setPte a v (swapPteMake slot (m.pte a v))) b w) :
    Evictable m b w ∧ ¬(b = a ∧ w = v) ∧
      ((fillSlot m slot page).setPte a v (swapPteMake slot (m.pte a v))).pte b w = m.pte b w := by
  have hne : ¬(b = a ∧ w = v) := by
    rintro ⟨rfl, rfl⟩
    have hp := h.present
    rw [pte_setPte, if_pos ⟨rfl, rfl⟩, swapPteMake_present] at hp
    cases hp
  have hpte : ((fillSlot m slot page).setPte a v (swapPteMake slot (m.pte a v))).pte b w =
      m.pte b w := by
    rw [pte_setPte, if_neg hne]
    rfl
  refine ⟨h.congr ?_ hpte rfl, hne, hpte⟩
  rw [live_setPte]
  rfl

theorem act_apart {B : ℕ → Prop} {g g' : Held} {e : Event} (h : Apart B g m)
    (hact : Act g m e g' m') (he : e.isReclaim) : Apart B g' m' := by
  cases hact with
  | quiet | fill => exact h.same (by rfl) (by rfl) (by rfl) (by rfl)
  | take f hint freeFrames h0 hlt hfree =>
    exact h.take h0 hlt hfree (by rfl) (by rfl) (by rfl) (by rfl)
  | giveFresh f hf => exact h.give hf
  | giveLoose f hf => exact h.giveLoose hf
  | age a v hv =>
    refine ⟨h.once, h.fresh, h.loose, fun b w hw => ?_, fun b w c x hw hx heq => ?_,
      h.free, h.spent⟩
    · obtain ⟨hold, hframe⟩ := evictable_age hw
      rw [hframe]
      exact h.lent b w hold
    obtain ⟨hold, hframe⟩ := evictable_age hw
    obtain ⟨hold', hframe'⟩ := evictable_age hx
    rw [hframe, hframe'] at heq
    exact h.single b w c x hold hold' heq
  | evict a v slot hv hs hlt hmax =>
    obtain ⟨hused, hfresh, hloose⟩ := h.lent a v hv
    have hraise : ∀ x, raise g.loose (pteFrame (m.pte a v)) x =
        if x = pteFrame (m.pte a v) then 1 else g.loose x := fun x => by
      rw [raise, update_apply, hloose]
    refine ⟨h.once, fun f hf => ?_, fun f hf => ?_, fun b w hw => ?_, fun b w c x hw hx heq => ?_,
      h.free, h.spent⟩
    · obtain ⟨h0, hflt, hu, hr, hl⟩ := h.fresh f hf
      dsimp only at hf ⊢
      refine ⟨h0, hflt, hu, hr, ?_⟩
      rw [hraise, if_neg, hl]
      rintro rfl
      omega
    · dsimp only at hf ⊢
      rw [hraise] at hf ⊢
      split at hf
      · rename_i hff
        rw [if_pos hff, hff]
        refine ⟨rfl, hused, fun hin => ?_⟩
        have hsole := hv.sole
        change refAt m (pteFrame (m.pte a v)) = 0
        rw [pmmRefCount] at hsole
        cases hr : m.ref with
        | none => simp only [refAt, hr]
        | some r =>
          rw [hr] at hsole
          simp only [if_neg
            (Nat.not_le_of_lt (show pteFrame (m.pte a v) < m.highest from hin))] at hsole
          rw [refAt_some hr]
          omega
      · rename_i hff
        rw [if_neg hff]
        exact h.loose f hf
    · obtain ⟨hold, hne, hpte⟩ := evictable_evict hw
      obtain ⟨hu, hfr, hlo⟩ := h.lent b w hold
      dsimp only
      rw [hpte, hraise, if_neg]
      · exact ⟨hu, hfr, hlo⟩
      · exact fun heq => hne (h.single b w a v hold hv heq)
    · obtain ⟨hold, -, hpte⟩ := evictable_evict hw
      obtain ⟨hold', -, hpte'⟩ := evictable_evict hx
      rw [hpte, hpte'] at heq
      exact h.single b w c x hold hold' heq
  | _ => exact absurd he (by simp [Event.isReclaim])

/-- A list of frames in hand. -/
def Held.pages (ps : List ℕ) : Held := ⟨fun f => if f ∈ ps then 1 else 0, fun _ => 0⟩

theorem Held.pages_pos {ps : List ℕ} : 0 < (Held.pages ps).fresh f ↔ f ∈ ps := by
  simp only [Held.pages]
  split
  · simpa
  · simpa

/-- The kernel keeps the pages of a list, and the pager keeps off them. -/
structure Reserved (B : ℕ → Prop) (ps : List ℕ) (m : Machine) : Prop where
  sane : Sane m
  apart : Apart B (Held.pages ps) m

namespace Reserved

variable {B : ℕ → Prop} {ps : List ℕ}

theorem perm {qs : List ℕ} (h : Reserved B ps m) (hmem : ∀ f, f ∈ qs ↔ f ∈ ps) :
    Reserved B qs m := by
  have heq : Held.pages qs = Held.pages ps := by
    simp only [Held.pages, hmem]
  exact ⟨h.sane, heq ▸ h.apart⟩

theorem page (h : Reserved B ps m) (hf : f ∈ ps) :
    f ≠ 0 ∧ f < m.highest ∧ m.used f ∧ refAt m f = 0 := by
  obtain ⟨h0, hlt, hu, hr, -⟩ := h.apart.fresh f (Held.pages_pos.mpr hf)
  exact ⟨h0, hlt, hu, hr⟩

theorem not_mem_of_free (h : Reserved B ps m) (hf : m.used f = false) : f ∉ ps := fun hmem => by
  simp [(h.page hmem).2.2.1] at hf

theorem pages_cons (hf : f ∉ ps) :
    ({ Held.pages ps with fresh := raise (Held.pages ps).fresh f } : Held) = Held.pages
      (f :: ps) := by
  simp only [Held.pages, raise, Held.mk.injEq, and_true]
  funext x
  by_cases hx : x = f
  · subst hx
    simp [hf]
  · simp [hx]

theorem pages_erase (hnd : ps.Nodup) (hf : f ∈ ps) :
    ({ Held.pages ps with fresh := lower (Held.pages ps).fresh f } : Held) =
      Held.pages (ps.erase f) := by
  simp only [Held.pages, lower, Held.mk.injEq, and_true]
  funext x
  by_cases hx : x = f
  · subst hx
    simp [hf, hnd.not_mem_erase]
  · simp [hx]

section

variable (h : Reserved B ps m)
include h

theorem alloc (heq : pmmAlloc m = (m', f)) :
    (f = 0 ∧ Reserved B ps m') ∨ (f ≠ 0 ∧ f ∉ ps ∧ Reserved B (f :: ps) m') := by
  have hdoes := pmmAlloc_does (Held.pages ps) h.sane
  rw [heq] at hdoes
  have hapart := hdoes.induct (fun hI hact he => act_apart hI hact he) h.apart
  by_cases hf : f = 0
  · subst hf
    exact .inl ⟨rfl, hdoes.sane h.sane, hapart⟩
  rw [Held.got_of_ne _ hf] at hapart
  have hmem : f ∉ ps := by
    intro hmem
    have hone := hapart.once f
    simp [raise, Held.pages, hmem] at hone
  rw [pages_cons hmem] at hapart
  exact .inr ⟨hf, hmem, hdoes.sane h.sane, hapart⟩

theorem free (hnd : ps.Nodup) (hf : f ∈ ps) : Reserved B (ps.erase f) (pmmFree m f) := by
  have hgive := h.apart.give (Held.pages_pos.mpr hf)
  rw [pages_erase hnd hf] at hgive
  exact ⟨h.sane.of_spaces (pmmFree_same m f).spaces (pmmFree_used_zero m f)
    (pmmFree_same m f).highest, hgive⟩

theorem takeRun {s n : ℕ} (hrun : ClearRun m s n) (hlow : s ≠ 0)
    (hhi : s + n ≤ m.highest) : Apart B (Held.pages (range' s n ++ ps))
      { m with used := fun f => m.used f || (s ≤ f && f < s + n) } := by
  induction n with
  | zero =>
    refine h.apart.same rfl rfl rfl ?_
    funext f
    simp only [Bool.or_eq_left_iff_imp, Bool.and_eq_true, decide_eq_true_eq]
    omega
  | succ n ih =>
    have hprev := ih (fun f hlo hf => hrun f hlo (by omega)) (by omega)
    have hclear : m.used (s + n) = false := hrun _ (by omega) (by omega)
    have hmem : s + n ∉ range' s n ++ ps := by
      simp only [mem_append, mem_range'_1, not_or]
      exact ⟨by omega, h.not_mem_of_free hclear⟩
    have hpages : Held.pages ((s + n) :: (range' s n ++ ps)) =
        Held.pages (range' s (n + 1) ++ ps) := by
      have hsame : ∀ f, f ∈ (s + n) :: (range' s n ++ ps) ↔ f ∈ range' s (n + 1) ++ ps := by
        intro f
        rw [range'_concat, Nat.one_mul]
        simp only [mem_cons, mem_append]
        tauto
      simp only [Held.pages, hsame]
    have htake : Apart B _ { m with used := fun f => m.used f || (s ≤ f && f < s + (n + 1)) } :=
      hprev.take (f := s + n) (by omega) (by simp only; omega) ?_ rfl rfl rfl ?_
    · rwa [pages_cons hmem, hpages] at htake
    · simp only [hclear, Bool.false_or, Bool.and_eq_false_iff, decide_eq_false_iff_not]
      omega
    funext f
    rw [update_apply]
    by_cases hf : f = s + n
    · rw [hf]
      simp
    · have hiff : f < s + (n + 1) ↔ f < s + n := by omega
      simp only [if_neg hf, hiff]

theorem contig {n : ℕ} (hn : n ≠ 0) {start : ℕ} (heq : pmmAllocContig m n = (m', start)) :
    (start = 0 ∧ Reserved B ps m') ∨
      (start ≠ 0 ∧ (∀ f ∈ range' start n, f ∉ ps) ∧ Reserved B (range' start n ++ ps) m') := by
  have hspec := contigScan_spec m.highest (Scanning.begin (Nat.pos_of_ne_zero hn))
    (Nat.le_add_left _ _)
  rw [pmmAllocContig, if_neg hn] at heq
  cases hs : contigScan m n m.highest lowFrames 0 0 with
  | none =>
    rw [hs] at heq
    cases heq
    exact .inl ⟨rfl, h⟩
  | some s =>
    rw [hs] at heq
    obtain ⟨hlow, hhi, hrun⟩ := hspec.2 s hs
    obtain ⟨rfl, rfl⟩ := Prod.mk.inj heq
    have hmem : ∀ f, f ∈ range' s n ↔ s ≤ f ∧ f < s + n := fun f => mem_range'_1
    have hnew : ∀ f ∈ range' s n, f ∉ ps := fun f hf =>
      h.not_mem_of_free (hrun f ((hmem f).mp hf).1 ((hmem f).mp hf).2)
    refine .inr
      ⟨(Nat.zero_lt_of_lt ((show 0 < lowFrames by decide).trans_le hlow)).ne', hnew, ?_, ?_⟩
    · refine h.sane.of_spaces rfl ?_ rfl
      simp only [h.sane.zeroUsed, Bool.true_or]
    · exact (h.takeRun hrun (by have : 0 < lowFrames := by decide
                                omega) hhi).same rfl rfl rfl rfl

end

theorem freeAll (fs : List ℕ) (h : Reserved B (fs ++ ps) m) (hnd : (fs ++ ps).Nodup) :
    Reserved B ps (fs.foldl pmmFree m) := by
  induction fs generalizing m with
  | nil => exact h
  | cons f fs ih =>
    have hfree := h.free hnd (f := f) (by simp)
    rw [cons_append, erase_cons_head] at hfree
    exact ih hfree (nodup_cons.mp hnd).2

end Reserved

end Vextro.Paging
