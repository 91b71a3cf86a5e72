import Vextro.Verification.Paging.Kept

/-! What a program may do with a page, wherever the page is. -/

namespace Vextro.Paging

variable {m m' : Machine} {a b v va base len : ℕ} {prot : UInt64} {flags : Pte}
variable {e : Pte}

inductive Access where
  | load | store | fetch
  deriving DecidableEq

/-- What the processor lets through. -/
def passes (e : Pte) : Access → Bool
  | .load => has e ptePresent && has e pteUser
  | .store => has e ptePresent && has e pteUser && has e pteWrite
  | .fetch => has e ptePresent && has e pteUser && !has e pteNx

/-- Whether an entry carries the permissions of its page. -/
def tells (e : Pte) : Bool := has e ptePresent || swapPteIsSwapped e

/-- Where the permissions of a page stand: in its entry, or in the reservation before it is
touched. -/
def onRecord (m : Machine) (a v : ℕ) : Pte :=
  if tells (m.pte a v) then m.pte a v
  else ((vmmAreaFind m a (v * 4096)).map Area.pteFlags).getD 0

/-- What gets through in the end; a page that is copied on write may be written. -/
def admits (e : Pte) : Access → Bool
  | .load => has e pteUser
  | .store => has e pteUser && (has e pteWrite || has e ptePresent && has e pteCow)
  | .fetch => has e pteUser && !has e pteNx

def Machine.allows (m : Machine) (a v : ℕ) (k : Access) : Bool := admits (onRecord m a v) k

/-! ## Rights under the changes of a machine -/

theorem tells_of_present (h : has e ptePresent) : tells e := by
  simp [tells, h]

theorem tells_of_isSwapped (h : swapPteIsSwapped e) : tells e := by
  simp [tells, h]

theorem allows_of_tells (h : tells (m.pte a v)) : m.allows a v = admits (m.pte a v) := by
  funext k
  rw [Machine.allows, onRecord, if_pos h]

theorem allows_congr (hpt : (m'.space a).pt = (m.space a).pt)
    (hvmas : (m'.space a).vmas = (m.space a).vmas)
    (hareas : (m'.space a).areas = (m.space a).areas) : m'.allows a = m.allows a := by
  funext v k
  have hfind : vmmAreaFind m' a (v * 4096) = vmmAreaFind m a (v * 4096) := by
    rw [vmmAreaFind, hvmas, hareas, vmmAreaFind]
  rw [Machine.allows, onRecord, hfind, Machine.pte, hpt]
  rfl

theorem allows_of_spaces (h : m'.spaces = m.spaces) : m'.allows = m.allows := by
  funext a
  have hs := space_congr h
  exact allows_congr (by rw [hs]) (by rw [hs]) (by rw [hs])

theorem SameContents.allows (h : SameContents m m') : m'.allows = m.allows :=
  allows_of_spaces h.spaces

/-- A space has no say in what another allows. -/
theorem allows_setSpace_of_ne (h : a ≠ b) (m : Machine) (s : AddrSpace) :
    (m.setSpace b s).allows a = m.allows a := by
  have hspace : (m.setSpace b s).space a = m.space a := by
    rw [space_setSpace, if_neg h]
  exact allows_congr (by rw [hspace]) (by rw [hspace]) (by rw [hspace])

theorem allows_setSpace {s : AddrSpace} (hpt : s.pt = (m.space b).pt)
    (hvmas : s.vmas = (m.space b).vmas) (hareas : s.areas = (m.space b).areas) :
    (m.setSpace b s).allows = m.allows := by
  funext a
  by_cases h : a = b
  · subst h
    exact allows_congr (by simpa using hpt) (by simpa using hvmas) (by simpa using hareas)
  · exact allows_setSpace_of_ne h m s

/-- An entry that admits what was on record is as good as the record. -/
theorem allows_setPte (ht : tells e) (h : admits e = m.allows a v) :
    (m.setPte a v e).allows = m.allows := by
  funext b w
  by_cases hbw : b = a ∧ w = v
  · obtain ⟨rfl, rfl⟩ := hbw
    rw [allows_of_tells (by rwa [pte_setPte_self]), pte_setPte_self, h]
  · funext k
    simp only [Machine.allows, onRecord, vmmAreaFind, pte_setPte, if_neg hbw, vmas_setPte,
      areas_setPte]

theorem admits_of_perms {e' : Pte} (h : e &&& swapPermMask = e' &&& swapPermMask)
    (hc : (has e ptePresent && has e pteCow) = (has e' ptePresent && has e' pteCow)) :
    admits e = admits e' := by
  have huser := has_of_perms h (show pteUser &&& swapPermMask = pteUser by decide)
  have hwrite := has_of_perms h (show pteWrite &&& swapPermMask = pteWrite by decide)
  have hnx := has_of_perms h (show pteNx &&& swapPermMask = pteNx by decide)
  funext k
  cases k <;> simp only [admits, hc, huser, hwrite, hnx]

/-! ## Paging -/

theorem Move.allows (h : Move m m') : m'.allows = m.allows := by
  cases h with
  | book => exact allows_of_spaces rfl
  | forget f => exact (swapRmapSet_same m f none).allows
  | age a v hev =>
    have hp := (has_aged isFlag_present (by decide) (m.pte a v)).trans hev.present
    refine allows_setPte (tells_of_present hp) ?_
    rw [allows_of_tells (tells_of_present hev.present)]
    refine admits_of_perms ?_ ?_
    · rw [BitVec.and_assoc, show ~~~pteAccessed &&& swapPermMask = swapPermMask by decide]
    · rw [hp, hev.present, has_aged isFlag_cow (by decide)]
  | evict a v slot hev hmax =>
    rw [(pmmFree_same _ _).allows, swapRmapForget, (swapRmapSet_same _ _ none).allows]
    refine (allows_setPte (tells_of_isSwapped (swapPteMake_isSwapped ..)) ?_).trans
      (allows_of_spaces rfl)
    have hold : (fillSlot m slot (m.mem (pteFrame (m.pte a v)))).allows = m.allows :=
      allows_of_spaces rfl
    rw [hold, allows_of_tells (tells_of_present hev.present)]
    refine admits_of_perms (swapPteMake_perms hmax _) ?_
    rw [swapPteMake_present, hev.notCow, Bool.and_false, Bool.false_and]
  | link a tables => exact allows_setSpace rfl rfl rfl

theorem Moves.allows (h : Moves m m') : m'.allows = m.allows :=
  Moves.lift (R := fun m m' => m'.allows = m.allows) (fun _ => rfl) (fun h h' => h'.trans h)
    Move.allows h

/-! ## Faults

A fault that is handled leaves an entry that is settled: the processor goes by it from then on. -/

/-- The page is in memory and not copied on write. -/
def settled (e : Pte) : Bool := has e ptePresent && !has e pteCow

theorem settled_iff : settled e ↔ has e ptePresent ∧ has e pteCow = false := by
  simp [settled]

theorem passes_of_settled (h : settled e) : passes e = admits e := by
  obtain ⟨hp, hc⟩ := settled_iff.mp h
  funext k
  cases k <;> simp [passes, admits, hp, hc]

theorem settled_pteMake (f : ℕ) (hc : has flags pteCow = false) : settled (pteMake f flags) :=
  settled_iff.mpr ⟨pteMake_present f flags, (has_pteMake isFlag_cow (by decide)).trans hc⟩

theorem perms_notCow (e : Pte) : has (e &&& swapPermMask) pteCow = false := by
  rw [has_and isFlag_cow]
  exact Bool.and_false _

theorem fetched_allows {f : ℕ} (hs : swapPteIsSwapped (m.pte a v)) :
    (fetched m a v f).allows = m.allows := by
  refine (allows_of_spaces (fetched_spaces m a v f)).trans
    (allows_setPte (tells_of_present (pteMake_present f _)) ?_)
  rw [allows_of_tells (tells_of_isSwapped hs)]
  refine admits_of_perms (pteMake_perms f _) ?_
  rw [present_of_isSwapped hs, has_pteMake isFlag_cow (by decide), perms_notCow, Bool.and_false,
    Bool.false_and]

/-- A page that comes back from the pagefile has the permissions it left with. -/
theorem swapInPage_allows {ok : Bool} (h : swapInPage m a v = (m', ok)) : m'.allows = m.allows ∧
    if ok then settled (m'.pte a v) = true
      else has (m.pte a v) ptePresent = false → has (m'.pte a v) ptePresent = false := by
  have hmoves := pmmAlloc_moves m
  rcases swapInPage_cases h with ⟨rfl, rfl | rfl⟩ | ⟨rfl, -, hs, -, -, rfl⟩
  · exact ⟨rfl, id⟩
  · refine ⟨(pmmFree_same _ _).allows.trans hmoves.allows, fun hp => ?_⟩
    rwa [(pmmFree_same _ _).pte, hmoves.steady.keeps a _ (not_candidate_of_not_present hp)]
  · have hkeep := hmoves.steady.keeps a _ (not_candidate_of_not_present (present_of_isSwapped hs))
    refine ⟨(fetched_allows (by rwa [hkeep])).trans hmoves.allows, ?_⟩
    rw [pte_congr (fetched_spaces ..), pte_setPte_self]
    exact settled_pteMake _ (perms_notCow _)

theorem vmmMap_allows {f : ℕ} {ok : Bool} (hf : admits (pteMake f flags) = m.allows a v)
    (h : vmmMap m a v f flags = (m', ok)) :
    m'.allows = m.allows ∧ (ok = true → m'.pte a v = pteMake f flags) := by
  have hwalk := (vmmWalk_moves m a v).allows
  rw [vmmMap] at h
  split at h
  · rename_i hw
    cases h
    rw [hw] at hwalk
    exact ⟨hwalk, by simp⟩
  rename_i n hw
  rw [hw] at hwalk
  have hset : (n.setPte a v (pteMake f flags)).allows = m.allows :=
    (allows_setPte (tells_of_present (pteMake_present f _)) (by rw [hf, hwalk])).trans hwalk
  dsimp only at h
  split at h <;>
  · cases h
    exact ⟨(swapRmapSet_same _ _ _).allows.trans hset, fun _ =>
      ((swapRmapSet_same _ _ _).pte a v).trans (pte_setPte_self ..)⟩

/-- A page that is touched for the first time gets what its reservation promised. -/
theorem vmmFaultAnon_allows {ok : Bool} (hm : Sane m) (h : vmmFaultAnon m a va = (m', ok)) :
    m'.allows = m.allows ∧ (ok = true → has (m.pte a (va / 4096)) ptePresent = false →
      settled (m'.pte a (va / 4096)) = true) := by
  have hmoves := pmmAlloc_moves m
  rw [vmmFaultAnon] at h
  dsimp only at h
  split at h
  · cases h
    exact ⟨rfl, by simp⟩
  split at h
  · cases h
    exact ⟨rfl, by simp⟩
  split at h
  · cases h
    exact ⟨rfl, by simp⟩
  rename_i x hx
  obtain ⟨hmem, hlen⟩ := vmmAreaFind_mem hx
  have hcow := (hm.areas a x hmem hlen).plain.notCow
  split at h
  · rename_i hp
    cases h
    exact ⟨rfl, fun _ hn => absurd (hp.symm.trans hn) (by simp)⟩
  rename_i hp
  split at h
  · cases h
    exact ⟨rfl, by simp⟩
  rename_i hs
  have hrecord : m.allows a (va / 4096) = admits x.pteFlags := by
    funext k
    rw [Machine.allows, onRecord, if_neg (by simp_all [tells]), hx]
    rfl
  split at h
  · rename_i n ha
    cases h
    rw [ha] at hmoves
    exact ⟨hmoves.allows, by simp⟩
  rename_i n f _ ha
  rw [ha] at hmoves
  set n' : Machine := { n with mem := Function.update n.mem f zeroPage }
  have hn : n'.allows = m.allows := Eq.trans (allows_of_spaces rfl) hmoves.allows
  have hflags : admits (pteMake f x.pteFlags) = n'.allows a (va / 4096) := by
    rw [hn, hrecord]
    funext k
    cases k <;> simp [admits, hcow, has_pteMake isFlag_user (by decide),
      has_pteMake isFlag_cow (by decide), has_pteMake isFlag_write (by decide),
      has_pteMake isFlag_nx (by decide)]
  split at h
  · rename_i hr
    cases h
    exact ⟨(pmmFree_same _ _).allows.trans ((vmmMap_allows hflags hr).1.trans hn),
      by simp⟩
  · rename_i hr
    cases h
    refine ⟨(vmmMap_allows hflags hr).1.trans hn, fun _ _ => ?_⟩
    rw [(vmmMap_allows hflags hr).2 rfl]
    exact settled_pteMake f hcow

/-- An entry after `vmm_resolve_cow`. -/
structure Opened (e e' : Pte) : Prop where
  settled : settled e' = true
  user : has e' pteUser = has e pteUser
  write : has e' pteWrite = true
  nx : has e' pteNx = has e pteNx

theorem Opened.admits {e' : Pte} (h : Opened e e') (hp : has e ptePresent) (hc : has e pteCow) :
    admits e' = admits e := by
  funext k
  cases k <;> simp [Paging.admits, h.user, h.write, h.nx, hp, hc]

theorem opened_keep (hp : has e ptePresent) : Opened e ((e &&& ~~~pteCow) ||| pteWrite) := by
  constructor
  · simp +decide [settled_iff, has_or, has_and isFlag_present, has_and isFlag_cow, hp]
  · simp [has_or, has_and isFlag_user, show has (~~~pteCow) pteUser by decide,
      show has pteWrite pteUser = false by decide]
  · simp [has_or, show has pteWrite pteWrite by decide]
  · simp [has_or, has_and isFlag_nx, show has (~~~pteCow) pteNx by decide,
      show has pteWrite pteNx = false by decide]

/-- Frame numbers are too small to reach the no-execute bit. -/
theorem has_physOf_nx {f : ℕ} (hf : f < 2 ^ 40) : has (physOf f) pteNx = false := by
  rw [pteNx, has_twoPow _ (by decide), physOf, BitVec.getLsbD_ofNat,
    Nat.testBit_eq_false_of_lt (by omega)]
  rfl

theorem opened_copy {f : ℕ} (hf : f < 2 ^ 40) (hp : has e ptePresent) :
    Opened e (physOf f ||| (e &&& ~~~(pteAddrMask ||| pteCow)) ||| pteWrite) := by
  have huser : has (physOf f) pteUser = false := has_physOf_low f (by decide)
  have hcow : has (physOf f) pteCow = false := has_physOf_low f (by decide)
  constructor
  · simp +decide [settled_iff, has_or, has_and isFlag_present, has_and isFlag_cow, hp, hcow]
  · simp [has_or, has_and isFlag_user, huser,
      show has (~~~(pteAddrMask ||| pteCow)) pteUser by decide,
      show has pteWrite pteUser = false by decide]
  · simp [has_or, show has pteWrite pteWrite by decide]
  · simp [has_or, has_and isFlag_nx, has_physOf_nx hf,
      show has (~~~(pteAddrMask ||| pteCow)) pteNx by decide,
      show has pteWrite pteNx = false by decide]

/-- The page's own copy, or the frame it kept, admits what the copied one did. -/
theorem vmmResolveCow_allows {ok : Bool} (hm : Sane m) (h : vmmResolveCow m a va = (m', ok)) :
    m'.allows = m.allows ∧ (ok = true → settled (m'.pte a (va / 4096)) = true) := by
  have hmoves := pmmAlloc_moves m
  have hlt := pmmAlloc_lt m
  rw [vmmResolveCow] at h
  dsimp only at h
  split at h
  · cases h
    exact ⟨rfl, by simp⟩
  split at h
  · cases h
    exact ⟨rfl, by simp⟩
  rename_i hcow
  obtain ⟨hp, hc⟩ : has (m.pte a (va / 4096)) ptePresent = true ∧
      has (m.pte a (va / 4096)) pteCow = true := by
    simpa using hcow
  have hput : ∀ {n : Machine} {e : Pte}, n.allows = m.allows → Opened (m.pte a (va / 4096)) e →
      (n.setPte a (va / 4096) e).allows = m.allows ∧
        settled ((n.setPte a (va / 4096) e).pte a (va / 4096)) = true := by
    intro n e hn ho
    refine ⟨(allows_setPte (tells_of_present (settled_iff.mp ho.settled).1) ?_).trans hn, ?_⟩
    · rw [hn, allows_of_tells (tells_of_present hp), ho.admits hp hc]
    · rw [pte_setPte_self]
      exact ho.settled
  split at h
  · cases h
    obtain ⟨hallows, hsettled⟩ := hput rfl (opened_keep hp)
    exact ⟨hallows, fun _ => hsettled⟩
  have hkeep := hmoves.steady.keeps a _ (not_candidate_of_cow hc)
  split at h
  · rename_i n ha
    cases h
    rw [ha] at hmoves
    exact ⟨hmoves.allows, by simp⟩
  rename_i n f hf ha
  rw [ha] at hmoves hlt hkeep
  cases h
  have hframe : f < 2 ^ 40 := Nat.lt_of_lt_of_le (hlt hf) hm.highest
  set n' : Machine :=
    { n with mem := Function.update n.mem f (n.mem (pteFrame (m.pte a (va / 4096)))) }
  have hn : n'.allows = m.allows := Eq.trans (allows_of_spaces rfl) hmoves.allows
  have hentry : n'.pte a (va / 4096) = m.pte a (va / 4096) := hkeep
  obtain ⟨hallows, hsettled⟩ := hput hn (opened_copy hframe hp)
  rw [hentry, (pmmFree_same _ _).allows, (pmmFree_same _ _).pte]
  exact ⟨hallows, fun _ => hsettled⟩

/-- Whichever way a fault is handled, nobody may do more or less with any page than before. -/
theorem exceptionHandle_allows {write user ok : Bool} (hm : Sane m)
    (h : exceptionHandle m a va write user = (m', ok)) :
    m'.allows = m.allows ∧ (ok = true → settled (m'.pte a (va / 4096)) = true) := by
  rw [exceptionHandle] at h
  split at h
  · split at h
    · exact vmmResolveCow_allows hm h
    · cases h
      exact ⟨rfl, by simp⟩
  rename_i hp
  rw [Bool.not_eq_true] at hp
  obtain ⟨n, ok', hswap, hsane, hn, hpte⟩ : ∃ n ok', swapHandleFault m a va = (n, ok') ∧ Sane n ∧
      n.allows = m.allows ∧ if ok' then settled (n.pte a (va / 4096)) = true
        else has (n.pte a (va / 4096)) ptePresent = false := by
    rw [swapHandleFault]
    split
    · exact ⟨m, false, rfl, hm, rfl, hp⟩
    split
    · exact ⟨m, false, rfl, hm, rfl, hp⟩
    have hsane := (swapInPage_does Held.none hm a (va / 4096)).sane hm
    rcases hr : swapInPage m a (va / 4096) with ⟨n, ok'⟩
    obtain ⟨hn, hpte⟩ := swapInPage_allows hr
    rw [hr] at hsane
    refine ⟨n, ok', rfl, hsane, hn, ?_⟩
    cases ok' with
    | true => exact hpte
    | false => exact hpte hp
  rw [hswap] at h
  cases ok' with
  | true =>
    cases h
    exact ⟨hn, fun _ => hpte⟩
  | false =>
    cases user with
    | true =>
      obtain ⟨hm', hsettled⟩ := vmmFaultAnon_allows hsane h
      exact ⟨hm'.trans hn, fun hok => hsettled hok hpte⟩
    | false =>
      cases h
      exact ⟨hn, by simp⟩

/-- A fault that was handled leaves an entry that lets through exactly what was on record for the
page, and no page of anyone is protected more or less than before. -/
theorem exceptionHandle_passes {write user : Bool} (hm : Sane m)
    (h : exceptionHandle m a va write user = (m', true)) :
    m'.allows = m.allows ∧ ∀ k, passes (m'.pte a (va / 4096)) k = m.allows a (va / 4096) k := by
  obtain ⟨hallows, hsettled⟩ := exceptionHandle_allows hm h
  refine ⟨hallows, fun k => ?_⟩
  have hentry := settled_iff.mp (hsettled rfl)
  rw [passes_of_settled (hsettled rfl), ← hallows, allows_of_tells (tells_of_present hentry.1)]

/-- A page is written to for the first time. -/
theorem exceptionHandle_passes_touched : let m := run oneProcess [.mmap 1 0 4096 3 0x22]
    let r := exceptionHandle m 1 0x100000000000 true true
    r.2 = true ∧ r.1.allows = m.allows ∧ ∀ k,
    passes (r.1.pte 1 (2 ^ 32)) k = m.allows 1 (2 ^ 32) k := by
  have hok :
      (exceptionHandle (run oneProcess [.mmap 1 0 4096 3 0x22]) 1 0x100000000000 true true).2 := by
    decide +kernel
  exact ⟨hok,
    exceptionHandle_passes (step_sane oneProcess_sane _) (Prod.mk.eta.symm.trans (congrArg _ hok))⟩

/-! ## Everything else that goes on -/

/-- The processor's marks are no permissions. -/
theorem allows_mark {x : Pte} (hp : has (m.pte a v) ptePresent)
    (hx : has x ptePresent = false ∧ has x pteUser = false ∧ has x pteWrite = false ∧
      has x pteCow = false ∧ has x pteNx = false) :
    (m.setPte a v (m.pte a v ||| x)).allows = m.allows := by
  refine allows_setPte (tells_of_present (by simp [has_or, hp])) ?_
  rw [allows_of_tells (tells_of_present hp)]
  funext k
  cases k <;> simp [admits, has_or, hx]

theorem userLoad_allows (m : Machine) (a va : ℕ) : (userLoad m a va).1.allows = m.allows := by
  rw [userLoad]
  split
  · rename_i hp
    exact allows_mark (Bool.and_eq_true_iff.mp hp).1 (by decide)
  · rfl

theorem userStore_allows (m : Machine) (a va : ℕ) (byte : UInt8) :
    (userStore m a va byte).1.allows = m.allows := by
  rw [userStore]
  split
  · rename_i hp
    rw [Bool.and_eq_true_iff, Bool.and_eq_true_iff] at hp
    have hmark := allows_mark (x := pteAccessed ||| pteDirty) hp.1.1 (by decide)
    rw [← BitVec.or_assoc] at hmark
    exact Eq.trans (allows_of_spaces rfl) hmark
  · rfl

/-- A parent's pages that are marked copy on write stay as writable as they were. -/
theorem forkCount_allows {src : ℕ} (hp : has (m.pte src v) ptePresent) :
    (forkCount m src v).allows = m.allows := by
  have hmark : (forkMark m src v).allows = m.allows := by
    rw [forkMark]
    split
    · rename_i hw
      refine allows_setPte (tells_of_present ?_) ?_
      · simp +decide [has_or, has_and isFlag_present, hp]
      rw [allows_of_tells (tells_of_present hp)]
      simp only [Bool.and_eq_true] at hw
      funext k
      cases k <;> simp [admits, has_or,
        has_and isFlag_user, has_and isFlag_write, has_and isFlag_present, has_and isFlag_nx, hw.2,
        hp, show has pteCow pteUser = false by decide, show has (~~~pteWrite) pteUser by decide,
        show has (~~~pteWrite) ptePresent by decide, show has pteCow pteCow by decide,
        show has (~~~pteWrite) pteNx by decide, show has pteCow pteNx = false by decide]
    · rfl
  rw [forkCount]
  split
  · exact hmark
  · exact (pmmRefInc_same _ _).allows.trans hmark

theorem foldl_allows {f : Machine → ℕ → Machine} (hf : ∀ m v, (f m v).allows a = m.allows a)
    (vs : List ℕ) (m : Machine) : (vs.foldl f m).allows a = m.allows a := by
  induction vs generalizing m with
  | nil => rfl
  | cons v vs ih => exact (ih (f m v)).trans (hf m v)

section Others

variable (hab : a ≠ b)
include hab

theorem allows_setPte_of_ne (m : Machine) (v : ℕ) (e : Pte) :
    (m.setPte b v e).allows a = m.allows a := allows_setSpace_of_ne hab m _

theorem vmmUnmapPage_allows (m : Machine) (v : ℕ) :
    (vmmUnmapPage m b v).allows a = m.allows a := by
  rw [vmmUnmapPage]
  dsimp only
  split
  · rfl
  split
  · rw [allows_setPte_of_ne hab]
    split
    · rfl
    · rw [(pmmFree_same _ _).allows, swapRmapForget, (swapRmapSet_same _ _ _).allows]
  · rw [allows_setPte_of_ne hab, (swapDiscardPte_same _ _).allows]

theorem vmmUnmapRange_allows (m : Machine) (base len : ℕ) :
    (vmmUnmapRange m b base len).allows a = m.allows a := by
  rw [vmmUnmapRange]
  split
  · rfl
  · exact foldl_allows (fun m v => vmmUnmapPage_allows hab m v) _ m

theorem vmmProtectRange_allows (m : Machine) (base len : ℕ) (flags : Pte) :
    (vmmProtectRange m b base len flags).allows a = m.allows a := by
  have hpage : ∀ m v, (vmmProtectPage m b v flags).allows a = m.allows a := by
    intro m v
    rw [vmmProtectPage]
    split
    · exact allows_setPte_of_ne hab m v _
    · rfl
  rw [vmmProtectRange]
  split
  · rfl
  dsimp only
  split
  · exact foldl_allows hpage _ m
  · exact (allows_setSpace_of_ne hab _ _).trans (foldl_allows hpage _ m)

theorem vmmAreaTable_allows (m : Machine) : (vmmAreaTable m b).1.allows a = m.allows a :=
  vmmAreaTable_rule (R := fun n => n.allows a = m.allows a) rfl
    (congrFun (pmmAlloc_moves m).allows a)
      fun n hn s _ _ => (allows_setSpace_of_ne hab n s).trans hn

theorem vmmAreaAdd_allows (m : Machine) (x : Area) : (vmmAreaAdd m b x).1.allows a = m.allows a :=
  vmmAreaAdd_rule (R := fun n => n.allows a = m.allows a) (P := False)
    (fun n hn => (vmmAreaTable_allows hab n).trans hn)
    (fun n _ _ hn _ => (allows_setSpace_of_ne hab n _).trans hn) rfl False.elim

theorem vmmAreaRemove_allows (m : Machine) (base len : ℕ) :
    (vmmAreaRemove m b base len).1.allows a = m.allows a :=
  vmmAreaRemove_rule (R := fun n => n.allows a = m.allows a) (P := False)
    (fun n hn => (vmmAreaTable_allows hab n).trans hn)
    (fun n _ _ hn _ => (allows_setSpace_of_ne hab n _).trans hn) False.elim rfl base len

theorem vmmDestroy_allows (m : Machine) : (vmmDestroy m b).allows a = m.allows a :=
  vmmDestroy_rule (R := fun m m' => m'.allows a = m.allows a) (fun _ => rfl)
  (fun h h' => h'.trans h)
    (fun h _ => congrFun h.allows a) (fun m s => allows_setSpace_of_ne hab m s) m

theorem cut_allows (m : Machine) (base len : ℕ) :
    (vmmAreaRemove (vmmUnmapRange m b base len) b base len).1.allows a = m.allows a :=
  (vmmAreaRemove_allows hab _ base len).trans (vmmUnmapRange_allows hab m base len)

theorem sysMmap_allows (m : Machine) (hint length prot flags : UInt64) :
    (sysMmap m b hint length prot flags).1.allows a = m.allows a :=
  sysMmap_rule (R := fun n => n.allows a = m.allows a) rfl (cut_allows hab m)
    (fun n _ hn => (allows_setSpace_of_ne hab n _).trans hn)
    (fun n x hn => (vmmAreaAdd_allows hab n x).trans hn) hint length prot flags

theorem sysMunmap_allows (m : Machine) (addr length : UInt64) :
    (sysMunmap m b addr length).1.allows a = m.allows a :=
  sysMunmap_rule (R := fun n => n.allows a = m.allows a) rfl (cut_allows hab m)
    (fun n _ hn => (allows_setSpace_of_ne hab n _).trans hn) addr length

theorem sysMprotect_allows (m : Machine) (addr length prot : UInt64) :
    (sysMprotect m b addr length prot).1.allows a = m.allows a := by
  rw [sysMprotect]
  rcases callRange addr length with ⟨base, len⟩
  dsimp only
  split
  · rfl
  split
  · rfl
  split
  · rfl
  split
  · rfl
  split
  · rfl
  · exact vmmProtectRange_allows hab m base len _

theorem vmmForkPage_allows (m : Machine) (src v : ℕ) :
    (vmmForkPage m b src v).1.allows a = m.allows a := by
  have hfetch : (forkFetch m src v).1.allows = m.allows := by
    rw [forkFetch]
    split
    · rfl
    split
    · exact (swapInPage_allows rfl).1
    · rfl
  rcases h : vmmForkPage m b src v with ⟨m', ok⟩
  rcases vmmForkPage_cases h with ⟨hf, -⟩ | ⟨hf, -⟩ | ⟨m1, hf, hp, hdone⟩ <;> rw [hf] at hfetch
  · exact congrFun hfetch a
  · exact congrFun hfetch a
  have hwalk := (vmmWalk_moves (forkCount m1 src v) b v).allows
  rw [forkCount_allows hp, hfetch] at hwalk
  rcases hdone with ⟨hw, -⟩ | ⟨m2, hw, rfl, -⟩ <;> rw [hw] at hwalk
  · exact congrFun hwalk a
  · exact (allows_setPte_of_ne hab m2 v _).trans (congrFun hwalk a)

theorem vmmForkPages_allows (src : ℕ) (vs : List ℕ) (m : Machine) :
    (vmmForkPages b src vs m).1.allows a = m.allows a := by
  induction vs generalizing m with
  | nil => rfl
  | cons v vs ih =>
    have hpage := vmmForkPage_allows hab m src v
    rw [vmmForkPages]
    rcases h : vmmForkPage m b src v with ⟨m', ok⟩
    rw [h] at hpage
    cases ok with
    | false => exact hpage
    | true => exact (ih m').trans hpage

theorem vmmFork_allows (m : Machine) (src : ℕ) : (vmmFork m b src).1.allows a = m.allows a := by
  have hset := fun n s => allows_setSpace_of_ne hab n s
  have hcreate : (vmmCreate m b).1.allows a = m.allows a := by
    have halloc := (pmmAlloc_moves m).allows
    rw [vmmCreate]
    split <;> rename_i ha <;> rw [ha] at halloc
    · exact congrFun halloc a
    · exact (hset _ _).trans (congrFun halloc a)
  have hstart : (forkStart m b src).1.allows a = m.allows a := by
    rw [forkStart]
    split <;> rename_i hr <;> rw [hr] at hcreate
    · exact hcreate
    · rename_i n
      have htuned := (hset n (forkBreaks n b src)).trans hcreate
      exact vmmForkAreas_rule (R := fun n => n.allows a = m.allows a) htuned
        ((congrFun (pmmAlloc_moves _).allows a).trans htuned) src
        fun n hn s _ _ => (hset n s).trans hn
  rw [vmmFork_eq]
  split <;> rename_i hr <;> rw [hr] at hstart
  · exact hstart
  · exact (vmmForkPages_allows hab src _ _).trans hstart

theorem sysFork_allows (m : Machine) (src : ℕ) (accepted : Bool) :
    (sysFork m b src accepted).1.allows a = m.allows a := by
  have hfork := vmmFork_allows hab m src
  rw [sysFork]
  split
  · rfl
  split <;> rename_i hr <;> rw [hr] at hfork
  · exact (vmmDestroy_allows hab _).trans hfork
  · split
    · exact hfork
    · exact (vmmDestroy_allows hab _).trans hfork

end Others

/-- Anything that may happen but a change of the mappings of `a` itself. -/
def Op.spares (a : ℕ) : Op → Bool
  | .mmap b .. | .munmap b .. | .mprotect b .. | .exit b | .unmapRange b .. => a != b
  | .fork dst .. | .vmmFork dst _ => a != dst
  | _ => true

/-- What a space may do with its pages is up to its own calls. -/
theorem step_allows {op : Op} (hm : Sane m) (h : op.spares a) :
    (step m op).1.allows a = m.allows a := by
  cases op with
  | mmap b => exact sysMmap_allows (bne_iff_ne.mp h) m _ _ _ _
  | munmap b => exact sysMunmap_allows (bne_iff_ne.mp h) m _ _
  | mprotect b => exact sysMprotect_allows (bne_iff_ne.mp h) m _ _ _
  | fork dst src accepted =>
    rw [step]
    split
    · rfl
    · exact sysFork_allows (bne_iff_ne.mp h) m src accepted
  | exit b => exact vmmDestroy_allows (bne_iff_ne.mp h) m
  | fault b va write user => exact congrFun (exceptionHandle_allows hm rfl).1 a
  | load b va => exact congrFun (userLoad_allows m b va) a
  | store b va byte => exact congrFun (userStore_allows m b va byte) a
  | vmmFork dst src =>
    rw [step]
    split
    · rfl
    · exact vmmFork_allows (bne_iff_ne.mp h) m src
  | resolveCow b va => exact congrFun (vmmResolveCow_allows hm rfl).1 a
  | unmapRange b base len => exact vmmUnmapRange_allows (bne_iff_ne.mp h) m _ _
  | faultAnon b va => exact congrFun (vmmFaultAnon_allows hm rfl).1 a
  | swapOut => exact congrFun (swapOutOne_rule pages_moves m).allows a
  | swapIn b va => exact congrFun (swapInPage_allows rfl).1 a
  | device fails => rfl

theorem run_allows (hm : Sane m) {ops : List Op} (hops : ∀ op ∈ ops, op.spares a) :
    Sane (run m ops) ∧ (run m ops).allows a = m.allows a := by
  induction ops generalizing m with
  | nil => exact ⟨hm, rfl⟩
  | cons op ops ih =>
    have hstep := step_allows hm (hops op List.mem_cons_self)
    obtain ⟨hsane, hrest⟩ := ih (step_sane hm op) fun o ho => hops o (List.mem_cons_of_mem _ ho)
    exact ⟨hsane, hrest.trans hstep⟩

/-! ## Protection -/

def vxProtRead : UInt64 := 1

/-- What a protection allows. -/
def permits (prot : UInt64) : Access → Bool
  | .load => asks prot vxProtRead
  | .store => asks prot vxProtWrite
  | .fetch => asks prot vxProtExec

theorem has_protFlags (prot : UInt64) :
    has (protFlags prot) pteUser ∧ has (protFlags prot) pteCow = false ∧
    has (protFlags prot) pteWrite = asks prot vxProtWrite ∧
    has (protFlags prot) pteNx = !asks prot vxProtExec := by
  rw [protFlags]
  cases asks prot vxProtWrite <;> cases asks prot vxProtExec <;> decide

def protectEntry (e flags : Pte) : Pte :=
  (e &&& (pteAddrMask ||| pteShared ||| pteCow)) ||| flags ||| ptePresent

theorem vmmProtectPage_pte (a : ℕ) (flags : Pte) (m : Machine) (v w : ℕ) :
    (vmmProtectPage m a w flags).pte a v =
      (if v = w ∧ has (m.pte a v) ptePresent = true then protectEntry (m.pte a v) flags
        else m.pte a v) ∧
    ((vmmProtectPage m a w flags).space a).vmas = (m.space a).vmas ∧
    ((vmmProtectPage m a w flags).space a).areas = (m.space a).areas := by
  rw [vmmProtectPage]
  by_cases hv : v = w
  · split <;> simp [vmas_setPte, areas_setPte, protectEntry, *]
  · split <;> simp [pte_setPte, vmas_setPte, areas_setPte, hv]

theorem protectPages_pte (a : ℕ) (flags : Pte) (vs : List ℕ) (hnd : vs.Nodup) (m : Machine)
    (v : ℕ) :
    let n := vs.foldl (fun m v => vmmProtectPage m a v flags) m
    n.pte a v = (if v ∈ vs ∧ has (m.pte a v) ptePresent = true then protectEntry (m.pte a v) flags
      else m.pte a v) ∧
      (n.space a).vmas = (m.space a).vmas ∧ (n.space a).areas = (m.space a).areas := by
  induction vs generalizing m with
  | nil => simp
  | cons w vs ih =>
    obtain ⟨hw, hnd⟩ := List.nodup_cons.mp hnd
    obtain ⟨hpte, hvmas, hareas⟩ := ih hnd (vmmProtectPage m a w flags)
    obtain ⟨hpte', hvmas', hareas'⟩ := vmmProtectPage_pte a flags m v w
    refine ⟨hpte.trans ?_, hvmas.trans hvmas', hareas.trans hareas'⟩
    rw [hpte']
    by_cases hv : v = w
    · subst hv
      simp [hw]
    · simp [hv]

theorem protectArea_covers (base len : ℕ) (flags : Pte) (x : Area) (va : ℕ) :
    (protectArea base len flags x).covers va = x.covers va := by
  rw [protectArea]
  split <;> rfl

theorem vmmProtectRange_pte (base : ℕ) (flags : Pte) (hl : (m.space a).live) (hlen : len ≠ 0)
    (v va : ℕ) :
    (vmmProtectRange m a base len flags).pte a v =
      (if v ∈ rangePages base len ∧ has (m.pte a v) ptePresent = true then protectEntry
        (m.pte a v) flags
        else m.pte a v) ∧
    vmmAreaFind (vmmProtectRange m a base len flags) a va =
      (vmmAreaFind m a va).map (protectArea base len flags) := by
  obtain ⟨hpte, hvmas, hareas⟩ :=
    protectPages_pte a flags (rangePages base len) List.nodup_range' m v
  rw [vmmProtectRange, if_neg (by simp [hl, hlen])]
  dsimp only
  rw [← hpte, vmmAreaFind, vmmAreaFind, ← hvmas, ← hareas]
  split
  · exact ⟨rfl, by simp⟩
  · rename_i hz
    refine ⟨pte_setSpace (by rfl) a v, ?_⟩
    have hcovers :
        (fun x : Area => x.covers va) ∘ protectArea base len flags = fun x => x.covers va :=
      funext fun x => protectArea_covers base len flags x va
    simp only [setAreas, space_setSpace_self, hz, if_false, List.find?_map, hcovers]

/-- A present page is asked to be readable, and to be writable if it is copied on write; so is an
untouched one whose reservation lies in the range. Any other page is asked for what is on record. -/
def TakesEffect (m : Machine) (a base len : ℕ) (prot : UInt64) (v : ℕ) : Prop :=
  if has (m.pte a v) ptePresent then
    asks prot vxProtRead = true ∧ (has (m.pte a v) pteCow = true → asks prot vxProtWrite = true)
  else if !swapPteIsSwapped (m.pte a v) && (vmmAreaFind m a (v * 4096)).any
      (fun x => base ≤ x.base && x.base + x.len ≤ base + len) then
    asks prot vxProtRead = true
  else ∀ k, m.allows a v k = permits prot k

theorem admits_permits_iff (hu : has e pteUser) (hw : has e pteWrite = asks prot vxProtWrite)
    (hx : has e pteNx = !asks prot vxProtExec) : (∀ k, admits e k = permits prot k) ↔
      asks prot vxProtRead ∧
      (has e ptePresent = true → has e pteCow → asks prot vxProtWrite = true) := by
  constructor
  · intro h
    refine ⟨(h .load).symm.trans hu, fun hp hc => ?_⟩
    simpa [admits, permits, hu, hp, hc] using h .store
  · rintro ⟨hr, hw'⟩ k
    cases k with
    | load => simp [admits, permits, hu, hr]
    | store =>
      simpa [admits, permits, hu, hw] using hw'
    | fetch => simp [admits, permits, hu, hx]

theorem has_protectEntry {flag : Pte} (hf : IsFlag flag) (e flags : Pte) :
    has (protectEntry e flags) flag =
    (has e flag && has (pteAddrMask ||| pteShared ||| pteCow) flag || has flags flag ||
      has ptePresent flag) := by
  rw [protectEntry, has_or, has_or, has_and hf]

theorem admits_protectEntry (e : Pte) (prot : UInt64) :
    (∀ k, admits (protectEntry e (protFlags prot)) k = permits prot k) ↔
    asks prot vxProtRead ∧ (has e pteCow = true → asks prot vxProtWrite = true) := by
  obtain ⟨hu, hc, hw, hx⟩ := has_protFlags prot
  rw [admits_permits_iff]
  · simp +decide [has_protectEntry isFlag_present, has_protectEntry isFlag_cow, hc]
  · simp [has_protectEntry isFlag_user, hu]
  · rw [has_protectEntry isFlag_write, hw, Bool.eq_iff_iff]
    simp +decide
  · rw [has_protectEntry isFlag_nx, hx, Bool.eq_iff_iff]
    simp +decide

theorem allows_protect (hl : (m.space a).live) (hlen : len ≠ 0) (hv : v ∈ rangePages base len) :
    (∀ k, (vmmProtectRange m a base len (protFlags prot)).allows a v k = permits prot k) ↔
      TakesEffect m a base len prot v := by
  obtain ⟨hu, hc, hw, hx'⟩ := has_protFlags prot
  obtain ⟨hpte, hfind⟩ := vmmProtectRange_pte base (protFlags prot) hl hlen v (v * 4096)
  rw [TakesEffect]
  split
  · rename_i hp
    rw [if_pos ⟨hv, hp⟩] at hpte
    have hpresent : has (protectEntry (m.pte a v) (protFlags prot)) ptePresent := by
      simp +decide [has_protectEntry isFlag_present]
    rw [allows_of_tells (tells_of_present (by rwa [hpte])), hpte]
    exact admits_protectEntry (m.pte a v) prot
  rename_i hp
  rw [if_neg fun h => hp h.2] at hpte
  cases hs : swapPteIsSwapped (m.pte a v) with
  | true =>
    rw [allows_of_tells (tells_of_isSwapped (by rwa [hpte])), hpte,
      allows_of_tells (tells_of_isSwapped hs)]
    simp
  | false =>
    have hrecord : ¬ tells (m.pte a v) := by simp_all [tells]
    simp only [Machine.allows, onRecord, hpte, if_neg hrecord, hfind, Bool.not_false, Bool.true_and]
    cases hx : vmmAreaFind m a (v * 4096) with
    | none => simp
    | some x =>
      have hne := (vmmAreaFind_mem hx).2
      simp only [Option.map_some, Option.any_some, protectArea, hne, ne_eq, not_false_eq_true,
        decide_true, Bool.true_and]
      split
      · simp [admits_permits_iff hu hw hx', hc]
      · simp

/-- A page may be accessed just as `prot` says: that is what is on record, the processor lets
nothing else through, and once a fault at the page has been handled it lets through all of it. -/
structure Obeys (n : Machine) (a v : ℕ) (prot : UInt64) : Prop where
  onRecord : ∀ k, n.allows a v k = permits prot k
  direct : ∀ k, passes (n.pte a v) k = true → permits prot k = true
  handled : ∀ va write user n', va / 4096 = v → exceptionHandle n a va write user = (n', true) →
    ∀ k, passes (n'.pte a v) k = permits prot k

theorem admits_of_passes {k : Access} (h : passes e k) : tells e ∧ admits e k := by
  have hp : has e ptePresent := by
    cases k <;> simp_all [passes]
  refine ⟨tells_of_present hp, ?_⟩
  cases k <;> simp_all [passes, admits]

theorem obeys_iff (hm : Sane m) : Obeys m a v prot ↔ ∀ k, m.allows a v k = permits prot k := by
  refine ⟨Obeys.onRecord, fun h => ⟨h, fun k hk => ?_, fun va write user n' hva hfault k => ?_⟩⟩
  · obtain ⟨htells, hadmits⟩ := admits_of_passes hk
    rw [← h k, allows_of_tells htells, hadmits]
  · subst hva
    obtain ⟨hallows, hsettled⟩ := exceptionHandle_allows hm hfault
    have hpresent := (settled_iff.mp (hsettled rfl)).1
    rw [passes_of_settled (hsettled rfl), ← allows_of_tells (tells_of_present hpresent),
      hallows, h k]

/-- Whatever goes on afterwards (accesses, first touches, copies on write, forks, paging, the calls
of other processes), every page of the range may be accessed as was asked for exactly if the call
takes effect on each. -/
theorem mprotect_effective {addr length : UInt64}
    (hm : Sane m) (hr : callRange addr length = (base, len)) (hlen : length ≠ 0)
    (h : sysMprotect m a addr length prot = (m', true)) :
    (∀ ops, (∀ op ∈ ops, Op.spares a op = true) → ∀ v ∈ rangePages base len,
      Obeys (run m' ops) a v prot) ↔
      ∀ v ∈ rangePages base len, TakesEffect m a base len prot v := by
  have hsane : Sane m' := by
    have hstep := step_sane hm (.mprotect a addr length prot)
    rwa [step, h] at hstep
  have haligned : base % 4096 = 0 := by
    rw [← show (callRange addr length).1 = base by rw [hr]]
    exact Nat.mul_mod_left _ _
  simp only [sysMprotect, hr] at h
  split_ifs at h with hl <;> cases h
  have hiff : ∀ v ∈ rangePages base len,
      (∀ k, (vmmProtectRange m a base len (protFlags prot)).allows a v k = permits prot k) ↔
      TakesEffect m a base len prot v := by
    intro v hv
    refine allows_protect (by simpa using hl) ?_ hv
    rintro rfl
    have := List.mem_range'_1.mp hv
    omega
  constructor
  · intro hall v hv
    exact (hiff v hv).mp (hall [] (by simp) v hv).onRecord
  · intro htakes ops hops v hv
    obtain ⟨hrun, hallows⟩ := run_allows hsane hops
    rw [obeys_iff hrun, hallows]
    exact (hiff v hv).mpr (htakes v hv)

/-- A mapping is made read-only before it is touched, and is so when it has been read and paged out.
-/
theorem mprotect_effective_untouched :
    let r := sysMprotect (run oneProcess [.mmap 1 0 4096 3 0x22]) 1 0x100000000000 4096 1
    r.2 = true ∧ Obeys
      (run r.1 [.fault 1 0x100000000000 false true, .load 1 0x100000000000, .swapOut]) 1
      (2 ^ 32) 1 := by
  have hr : callRange 0x100000000000 4096 = (0x100000000000, 4096) := by decide +kernel
  have hok : (sysMprotect (run oneProcess [.mmap 1 0 4096 3 0x22]) 1 0x100000000000 4096 1).2 := by
    decide +kernel
  have hpages : rangePages 0x100000000000 4096 = [2 ^ 32] := rfl
  refine ⟨hok, (mprotect_effective (step_sane oneProcess_sane _) hr (by decide)
    (Prod.mk.eta.symm.trans (congrArg _ hok))).mpr (fun v hv => ?_) _ (by decide) _
    (by simp [hpages])⟩
  rw [hpages, List.mem_singleton] at hv
  subst hv
  rfl

/-- The first of two pages is made read-only before either is touched, and then written to. -/
theorem mprotect_misses_half :
    let r := sysMprotect (run oneProcess [.mmap 1 0 8192 3 0x22]) 1 0x100000000000 4096 1
    let s := exceptionHandle r.1 1 0x100000000000 true true
    r.2 = true ∧ permits 1 .store = false ∧ r.1.allows 1 (2 ^ 32) .store = true ∧ s.2 = true ∧
      passes (s.1.pte 1 (2 ^ 32)) .store = true := by
  decide +kernel

end Vextro.Paging
