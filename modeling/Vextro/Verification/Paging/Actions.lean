import Vextro.Model.MemoryCalls

/-! Reading back the fields of page table entries, and the actions that operations on memory are
made of. -/

namespace Vextro.Paging

open BitVec

variable {i f : ℕ} {flag x : Pte}

/-! ## Single bits -/

theorem has_twoPow (e : Pte) (hi : i < 64) : has e (twoPow 64 i) = e.getLsbD i := by
  unfold has
  rw [and_twoPow]
  have hne : twoPow 64 i ≠ 0#64 := by
    intro h
    have := congrArg (fun x => x.getLsbD i) h
    simp [hi] at this
  cases e.getLsbD i <;> simp [hne]

/-- The flags are single bits, so reading one commutes with the word operations. -/
def IsFlag (flag : Pte) : Prop := ∃ i, i < 64 ∧ flag = twoPow 64 i

theorem isFlag_present : IsFlag ptePresent := ⟨0, by decide, rfl⟩
theorem isFlag_write : IsFlag pteWrite := ⟨1, by decide, rfl⟩
theorem isFlag_user : IsFlag pteUser := ⟨2, by decide, rfl⟩
theorem isFlag_shared : IsFlag pteShared := ⟨9, by decide, rfl⟩
theorem isFlag_cow : IsFlag pteCow := ⟨10, by decide, rfl⟩
theorem isFlag_nx : IsFlag pteNx := ⟨63, by decide, rfl⟩

theorem has_zero (flag : Pte) : has 0 flag = false := by
  simp [has]

theorem has_or (x y flag : Pte) : has (x ||| y) flag = (has x flag || has y flag) := by
  have h : (x ||| y) &&& flag = (x &&& flag) ||| (y &&& flag) := by
    ext i
    simp [Bool.and_or_distrib_right]
  unfold has
  rw [h, Bool.eq_iff_iff]
  simp only [bne_iff_ne, Bool.or_eq_true, ne_eq, or_eq_zero_iff]
  tauto

/-- The marks the processor sets on a store show in no other flag. -/
theorem has_or_mark {e : Pte} (ha : has pteAccessed flag = false) (hd : has pteDirty flag = false) :
    has (e ||| pteAccessed ||| pteDirty) flag = has e flag := by
  rw [has_or, has_or, ha, hd, Bool.or_false, Bool.or_false]

theorem has_and (hf : IsFlag flag) (x y : Pte) :
    has (x &&& y) flag = (has x flag && has y flag) := by
  obtain ⟨i, hi, rfl⟩ := hf
  simp [has_twoPow _ hi]

theorem has_not (hf : IsFlag flag) (x : Pte) : has (~~~x) flag = !has x flag := by
  obtain ⟨i, hi, rfl⟩ := hf
  simp [has_twoPow _ hi, hi]

theorem has_shiftLeft_low {n : ℕ} (hi : i < n) (hi' : i < 64) :
    has (x <<< n) (twoPow 64 i) = false := by
  simp [has_twoPow _ hi', hi]

/-! ## The frame number -/

theorem pteFrame_or {y : Pte} (hy : y &&& pteAddrMask = 0) : pteFrame (x ||| y) = pteFrame x := by
  have h : (x ||| y) &&& pteAddrMask = x &&& pteAddrMask := by
    have hd : (x ||| y) &&& pteAddrMask = (x &&& pteAddrMask) ||| (y &&& pteAddrMask) := by
      ext i
      simp [Bool.and_or_distrib_right]
    rw [hd, hy]
    simp
  unfold pteFrame
  rw [h]

theorem pteFrame_and {y : Pte} (hy : pteAddrMask &&& y = pteAddrMask) :
    pteFrame (x &&& y) = pteFrame x := by
  unfold pteFrame
  rw [BitVec.and_assoc, BitVec.and_comm y, hy]

/-- Frame numbers below `2^40` survive the trip through an entry. -/
theorem pteFrame_physOf (hf : f < 2 ^ 40) : pteFrame (physOf f) = f := by
  have hmask : pteAddrMask = BitVec.ofNat 64 ((2 ^ 40 - 1) * 2 ^ 12) := by decide
  have hlt : f * 4096 < 2 ^ 64 := by omega
  unfold pteFrame physOf
  rw [hmask, toNat_ushiftRight, toNat_and, toNat_ofNat, toNat_ofNat,
    Nat.mod_eq_of_lt hlt, Nat.mod_eq_of_lt (by decide)]
  apply Nat.eq_of_testBit_eq
  intro i
  rw [Nat.testBit_shiftRight, Nat.testBit_and, Nat.testBit_mul_two_pow, show 4096 = 2 ^ 12 from rfl,
    Nat.testBit_mul_two_pow]
  have hi : 12 ≤ 12 + i := by omega
  simp only [Nat.testBit_two_pow_sub_one]
  by_cases h40 : i < 40
  · simp [h40]
  have : f.testBit i = false :=
    Nat.testBit_lt_two_pow (lt_of_lt_of_le hf (Nat.pow_le_pow_right (by decide) (by omega)))
  simp [this]

/-! ## The slot number -/

theorem swapPteSlot_make {slot : ℕ} (hs : slot < 65536) (old : Pte) :
    swapPteSlot (swapPteMake slot old) = slot := by
  apply Nat.eq_of_testBit_eq
  intro i
  unfold swapPteSlot swapPteMake swapSlotMask pteSwapped swapPermMask pteWrite pteUser pteNx
  rw [testBit_toNat]
  by_cases h16 : i < 16
  · have hmask : (0xFFFF#64).getLsbD i := by
      have : ∀ j < 16, (0xFFFF#64).getLsbD j := by decide
      exact this i h16
    have h1 : 12 + i < 64 := by omega
    have h2 : ¬ 12 + i < 12 := by omega
    simp only [getLsbD_and, hmask, getLsbD_ushiftRight,
      getLsbD_or, getLsbD_shiftLeft, getLsbD_ofNat, getLsbD_twoPow]
    have h10 : ¬ 10 = 12 + i := by omega
    have h1' : ¬ 1 = 12 + i := by omega
    have h2' : ¬ 2 = 12 + i := by omega
    have h63 : ¬ 63 = 12 + i := by omega
    have hi64 : i < 64 := by omega
    simp [h1, h10, h1', h2', h63, hi64]
  · have hlt : slot.testBit i = false := Nat.testBit_lt_two_pow (lt_of_lt_of_le hs
        (Nat.pow_le_pow_right (by decide : 0 < 2) (by omega : 16 ≤ i)))
    have hmask : (0xFFFF#64).getLsbD i = false := by
      rw [getLsbD_ofNat]
      have : (0xFFFF : ℕ).testBit i = false :=
        Nat.testBit_lt_two_pow (lt_of_lt_of_le (by decide : 0xFFFF < 2 ^ 16)
          (Nat.pow_le_pow_right (by decide : 0 < 2) (by omega : 16 ≤ i)))
      simp [this]
    simp [hlt, hmask]

/-! ## Evicted pages -/

theorem swapPteMake_present (slot : ℕ) (old : Pte) :
    has (swapPteMake slot old) ptePresent = false := by
  have h : has (BitVec.ofNat 64 slot <<< 12) ptePresent = false :=
    has_shiftLeft_low (by decide) (by decide)
  simp +decide [swapPteMake, has_or, has_and isFlag_present, h]

theorem swapPteMake_isSwapped (slot : ℕ) (old : Pte) : swapPteIsSwapped (swapPteMake slot old) := by
  unfold swapPteIsSwapped
  rw [swapPteMake_present]
  simp +decide [swapPteMake, has_or]

theorem swapPteMake_perms {slot : ℕ} (hs : slot < 65536) (old : Pte) :
    swapPteMake slot old &&& swapPermMask = old &&& swapPermMask := by
  have hlow : (BitVec.ofNat 64 slot <<< 12) &&& swapPermMask = 0 := by
    ext i hi
    simp only [swapPermMask, pteWrite, pteUser, pteNx]
    by_cases h12 : i < 12
    · simp [h12]
    by_cases h63 : i = 63
    · subst h63
      have hbit : slot.testBit 51 = false := Nat.testBit_lt_two_pow (lt_of_lt_of_le hs (by decide))
      have hget : (BitVec.ofNat 64 slot).getLsbD 51 = false := by
        rw [getLsbD_ofNat, hbit, Bool.and_false]
      simp [← getLsbD_eq_getElem, hget]
    · have h1 : ¬ i = 1 := by omega
      have h2 : ¬ i = 2 := by omega
      simp [h1, h2, h63]
  have hmark : pteSwapped &&& swapPermMask = 0 := by decide
  have hd : swapPteMake slot old &&& swapPermMask =
      ((BitVec.ofNat 64 slot <<< 12) &&& swapPermMask) ||| (pteSwapped &&& swapPermMask) |||
        (old &&& swapPermMask) := by
    unfold swapPteMake
    ext i
    simp only [getElem_and, getElem_or, Bool.and_or_distrib_right, Bool.and_assoc, Bool.and_self]
  rw [hd, hlow, hmark]
  simp

theorem perms_addr (e : Pte) : e &&& swapPermMask &&& pteAddrMask = 0 := by
  have hmasks : swapPermMask &&& pteAddrMask = 0#64 := by decide
  rw [BitVec.and_assoc, hmasks]
  simp

theorem has_of_perms {e e' : Pte} (h : e &&& swapPermMask = e' &&& swapPermMask)
    (hf : flag &&& swapPermMask = flag) :
    has e flag = has e' flag := by
  unfold has
  rw [← hf, BitVec.and_comm flag, ← BitVec.and_assoc, ← BitVec.and_assoc, h]

/-! ## Mapped pages -/

theorem pteMake_present (f : ℕ) (flags : Pte) : has (pteMake f flags) ptePresent := by
  simp +decide [pteMake, has_or]

theorem has_pteMake {flags : Pte} (hf : IsFlag flag)
    (h : has pteAddrMask flag = false ∧ has ptePresent flag = false) :
    has (pteMake f flags) flag = has flags flag := by
  simp [pteMake, has_or, has_and hf, h]

theorem pteFrame_pteMake {flags : Pte} (hf : f < 2 ^ 40) (hm : flags &&& pteAddrMask = 0) :
    pteFrame (pteMake f flags) = f := by
  unfold pteMake
  rw [pteFrame_or (by decide), pteFrame_or hm, pteFrame_and (by decide), pteFrame_physOf hf]

theorem pteMake_perms (f : ℕ) (e : Pte) :
    pteMake f (e &&& swapPermMask) &&& swapPermMask = e &&& swapPermMask := by
  have h1 : pteAddrMask &&& swapPermMask = 0 := by decide
  have h2 : ptePresent &&& swapPermMask = 0 := by decide
  have hd : pteMake f (e &&& swapPermMask) &&& swapPermMask =
      (physOf f &&& (pteAddrMask &&& swapPermMask)) ||| (e &&& swapPermMask) |||
        (ptePresent &&& swapPermMask) := by
    unfold pteMake
    ext i
    simp only [getElem_and, getElem_or, Bool.and_or_distrib_right, Bool.and_assoc, Bool.and_self]
  rw [hd, h1, h2]
  simp

/-! ## Copied pages -/

theorem has_physOf_low (f : ℕ) (hi : i < 12) : has (physOf f) (twoPow 64 i) = false := by
  rw [has_twoPow _ (by omega)]
  unfold physOf
  rw [getLsbD_ofNat, show 4096 = 2 ^ 12 from rfl, Nat.testBit_mul_two_pow]
  simp [show ¬ 12 ≤ i by omega]

/-! ## Actions

Every operation on memory is a sequence of a few kinds of action. An action sees the whole
machine, and with it the frames the running function holds without having mapped them. -/

open Function

/-- References in the hands of the running function: frames newly taken and used for
nothing yet, and references to mapped frames that no entry accounts for. -/
structure Held where
  fresh : ℕ → ℕ
  loose : ℕ → ℕ

def Held.none : Held := ⟨fun _ => 0, fun _ => 0⟩

def raise (h : ℕ → ℕ) (f : ℕ) : ℕ → ℕ := update h f (h f + 1)

def lower (h : ℕ → ℕ) (f : ℕ) : ℕ → ℕ := update h f (h f - 1)

/-- What an observer records of an action. -/
inductive Event where
  | silent
  /-- The allocator or the clock at work; no page left memory. -/
  | idle
  /-- A page table was added. -/
  | link
  /-- The reservations of a space changed. -/
  | areas
  /-- A page left memory: its bytes and permission bits at that moment. -/
  | evict (a v : ℕ) (bytes : Page) (perms : Pte)
  /-- A page came back: its bytes and permission bits from then on. -/
  | pageIn (a v : ℕ) (bytes : Page) (perms : Pte)
  /-- An entry was given up. -/
  | drop (a v : ℕ)
  /-- A copy-on-write page became writable; `nx` is its no-execute bit. -/
  | cow (a v : ℕ) (nx : Bool)
  /-- A present page was given new protection. -/
  | protect (a v : ℕ) (flags : Pte)
  /-- A reference count was raised. -/
  | share (f : ℕ)
  /-- A loose reference was forgotten, never to be returned. -/
  | leak (f : ℕ)
  /-- An entry was filled with a private page of another space. -/
  | copy (d v : ℕ)
  /-- A byte was stored through an entry. -/
  | store (a v : ℕ)

/-- The actions behind `pmm_alloc`. -/
def Event.isReclaim : Event → Prop
  | .idle => True
  | .evict .. => True
  | _ => False

/-- The actions behind `vmm_walk(create = 1)`. -/
def Event.isWalk : Event → Prop
  | .link => True
  | e => e.isReclaim

/-- Every action except those that widen access or give a frame a further owner. -/
def Event.isPlain : Event → Prop
  | .cow .. | .protect .. | .share .. | .leak .. | .copy .. | .store .. => False
  | _ => True

/-- Flags that `mmap` and `mprotect` let through. -/
def GrantFlags (flags : Pte) : Prop := ∃ prot, refusesProt prot = false ∧ flags = protFlags prot

/-- Two versions of a space that differ in bookkeeping no action reads. -/
structure SameTables (s s' : AddrSpace) : Prop where
  live : s'.live = s.live
  pml4 : s'.pml4 = s.pml4
  tables : s'.tables = s.tables
  pt : s'.pt = s.pt
  vmas : s'.vmas = s.vmas
  areas : s'.areas = s.areas

/-- The pages the clock may look at: present, in user mode, neither shared nor copied on
write, with a single owner. -/
structure Evictable (m : Machine) (a v : ℕ) : Prop where
  live : (m.space a).live = true
  present : has (m.pte a v) ptePresent = true
  user : has (m.pte a v) pteUser = true
  notShared : has (m.pte a v) pteShared = false
  notCow : has (m.pte a v) pteCow = false
  sole : pmmRefCount m (pteFrame (m.pte a v)) ≤ 1

/-- Take a slot and write a page to it. -/
def fillSlot (m : Machine) (slot : ℕ) (page : Page) : Machine := { m with
    slotBm := update m.slotBm slot true
    slotsUsed := m.slotsUsed + 1
    pagefile := update m.pagefile slot page }

/-- Replacing the reservations of a space by `areas`: nothing new is promised except under
flags that pass the calls' check. -/
def AreasFrom (old new : List Area) : Prop := ∀ x ∈ new, x.len ≠ 0 →
    GrantFlags x.pteFlags ∨ ∃ y ∈ old, y.len ≠ 0 ∧ y.pteFlags = x.pteFlags

inductive Act : Held → Machine → Event → Held → Machine → Prop
  | quiet {g : Held} {m : Machine} (hint freeFrames hand : ℕ) (busy : Bool)
      (rmap : Option (ℕ → Option (ℕ × ℕ))) (fails : ℕ → Bool) :
      Act g m .idle g
        { m with hint := hint, freeFrames := freeFrames, hand := hand, swapBusy := busy,
                 rmap := rmap, slotFails := fails }
  | tune {g : Held} {m : Machine} (a : ℕ) (s : AddrSpace) (hs : SameTables (m.space a) s) :
      Act g m .silent g (m.setSpace a s)
  -- frames
  | take {g : Held} {m : Machine} (f : ℕ) (hint freeFrames : ℕ) (h0 : f ≠ 0)
      (hlt : f < m.highest) (hfree : m.used f = false) :
      Act g m .idle { g with fresh := raise g.fresh f }
        { m with used := update m.used f true, hint := hint,
                 freeFrames := freeFrames, mem := update m.mem f zeroPage }
  | fill {g : Held} {m : Machine} (f : ℕ) (page : Page) (h : 0 < g.fresh f) :
      Act g m .idle g { m with mem := update m.mem f page }
  | giveFresh {g : Held} {m : Machine} (f : ℕ) (h : 0 < g.fresh f) :
      Act g m .idle { g with fresh := lower g.fresh f } (pmmFree m f)
  | giveLoose {g : Held} {m : Machine} (f : ℕ) (h : 0 < g.loose f) :
      Act g m .idle { g with loose := lower g.loose f } (pmmFree m f)
  | leak {g : Held} {m : Machine} (f : ℕ) (h : 0 < g.loose f) :
      Act g m (.leak f) { g with loose := lower g.loose f } m
  -- the pager
  | age {g : Held} {m : Machine} (a v : ℕ) (h : Evictable m a v) :
      Act g m .idle g (m.setPte a v (m.pte a v &&& ~~~pteAccessed))
  | evict {g : Held} {m : Machine} (a v slot : ℕ) (h : Evictable m a v)
      (hs : m.slotBm slot = false) (hlt : slot < m.slotCount) (hmax : slot < swapSlots) :
      Act g m (.evict a v (m.mem (pteFrame (m.pte a v))) (m.pte a v &&& swapPermMask))
        { g with loose := raise g.loose (pteFrame (m.pte a v)) }
        ((fillSlot m slot (m.mem (pteFrame (m.pte a v)))).setPte a v
          (swapPteMake slot (m.pte a v)))
  | pageIn {g : Held} {m : Machine} (a v f : ℕ) (hf : 0 < g.fresh f)
      (hl : (m.space a).live = true)
      (hs : swapPteIsSwapped (m.pte a v) = true)
      (hlt : swapPteSlot (m.pte a v) < m.slotCount)
      (hm : m.mem f = m.pagefile (swapPteSlot (m.pte a v))) :
      Act g m (.pageIn a v (m.mem f) (pteMake f (m.pte a v &&& swapPermMask) &&& swapPermMask))
        { g with fresh := lower g.fresh f }
        ((swapSlotFree m (swapPteSlot (m.pte a v))).setPte a v
          (pteMake f (m.pte a v &&& swapPermMask)))
  -- entries
  | map {g : Held} {m : Machine} (a v f : ℕ) (x : Area) (hf : 0 < g.fresh f)
      (hl : (m.space a).live = true) (hx : x ∈ (m.space a).areas) (hlen : x.len ≠ 0)
      (hp : has (m.pte a v) ptePresent = false)
      (hs : swapPteIsSwapped (m.pte a v) = false) :
      Act g m .silent { g with fresh := lower g.fresh f }
        (m.setPte a v (pteMake f x.pteFlags))
  | unmapPrivate {g : Held} {m : Machine} (a v : ℕ) (hp : isPrivate (m.pte a v) = true) :
      Act g m (.drop a v) { g with loose := raise g.loose (pteFrame (m.pte a v)) }
        (m.setPte a v 0)
  | unmapOther {g : Held} {m : Machine} (a v : ℕ) (hp : isPrivate (m.pte a v) = false) :
      Act g m (.drop a v) g ((swapDiscardPte m (m.pte a v)).setPte a v 0)
  | protect {g : Held} {m : Machine} (a v : ℕ) (flags : Pte) (hf : GrantFlags flags)
      (hp : has (m.pte a v) ptePresent = true) :
      Act g m (.protect a v flags) g (m.setPte a v
        ((m.pte a v &&& (pteAddrMask ||| pteShared ||| pteCow)) ||| flags ||| ptePresent))
  | touch {g : Held} {m : Machine} (a v : ℕ) (hp : has (m.pte a v) ptePresent = true) :
      Act g m .silent g (m.setPte a v (m.pte a v ||| pteAccessed))
  | store {g : Held} {m : Machine} (a v offset : ℕ) (byte : UInt8)
      (hp : has (m.pte a v) ptePresent = true) (hw : has (m.pte a v) pteWrite = true) :
      Act g m (.store a v) g
        { m.setPte a v (m.pte a v ||| pteAccessed ||| pteDirty) with
          mem := update m.mem (pteFrame (m.pte a v))
            (putByte (m.mem (pteFrame (m.pte a v))) offset byte) }
  -- fork and copy on write
  | cowMark {g : Held} {m : Machine} (a v : ℕ) (hp : isPrivate (m.pte a v) = true)
      (hw : has (m.pte a v) pteWrite = true) :
      Act g m .silent g (m.setPte a v ((m.pte a v &&& ~~~pteWrite) ||| pteCow))
  | share {g : Held} {m : Machine} (a v : ℕ) (hp : isPrivate (m.pte a v) = true)
      (hw : has (m.pte a v) pteWrite = false) :
      Act g m (.share (pteFrame (m.pte a v)))
        { g with loose := raise g.loose (pteFrame (m.pte a v)) }
        (pmmRefInc m (pteFrame (m.pte a v)))
  | copy {g : Held} {m : Machine} (d v : ℕ) (e : Pte) (hl : (m.space d).live = true)
      (hz : m.pte d v = 0) (hp : isPrivate e = true) (hw : has e pteWrite = false)
      (hg : 0 < g.loose (pteFrame e)) :
      Act g m (.copy d v) { g with loose := lower g.loose (pteFrame e) } (m.setPte d v e)
  | copyShared {g : Held} {m : Machine} (d a v : ℕ) (hl : (m.space d).live = true)
      (hz : m.pte d v = 0) (hp : has (m.pte a v) ptePresent = true)
      (hs : has (m.pte a v) pteShared = true) :
      Act g m .silent g (m.setPte d v (m.pte a v))
  | cowKeep {g : Held} {m : Machine} (a v : ℕ) (hp : isPrivate (m.pte a v) = true)
      (hc : has (m.pte a v) pteCow = true)
      (hs : pmmRefCount m (pteFrame (m.pte a v)) ≤ 1) :
      Act g m (.cow a v (has (m.pte a v) pteNx)) g
        (m.setPte a v ((m.pte a v &&& ~~~pteCow) ||| pteWrite))
  | cowCopy {g : Held} {m : Machine} (a v f : ℕ) (hf : 0 < g.fresh f)
      (hp : isPrivate (m.pte a v) = true) (hc : has (m.pte a v) pteCow = true)
      (hm : m.mem f = m.mem (pteFrame (m.pte a v))) :
      Act g m (.cow a v (has (m.pte a v) pteNx))
        ⟨lower g.fresh f, raise g.loose (pteFrame (m.pte a v))⟩
        (m.setPte a v
          (physOf f ||| (m.pte a v &&& ~~~(pteAddrMask ||| pteCow)) ||| pteWrite))
  -- spaces
  | setAreas {g : Held} {m : Machine} (a count : ℕ) (areas : List Area)
      (h : AreasFrom (m.space a).areas areas) :
      Act g m .areas g
        (m.setSpace a { m.space a with areas := areas, vmaCount := count })
  | copyAreas {g : Held} {m : Machine} (d a count : ℕ) :
      Act g m .areas g
        (m.setSpace d { m.space d with areas := (m.space a).areas, vmaCount := count })
  | linkTable {g : Held} {m : Machine} (a key f : ℕ) (hf : 0 < g.fresh f) (h0 : f ≠ 0)
      (hl : (m.space a).live = true) (hz : (m.space a).tables.get key = 0) :
      Act g m .link { g with fresh := lower g.fresh f }
        (m.setSpace a { m.space a with tables := (m.space a).tables.set key f })
  | linkVmas {g : Held} {m : Machine} (a f : ℕ) (hf : 0 < g.fresh f) (h0 : f ≠ 0)
      (hl : (m.space a).live = true) (hz : (m.space a).vmas = 0) :
      Act g m .silent { g with fresh := lower g.fresh f }
        (m.setSpace a { m.space a with
          vmas := f, areas := List.replicate vmaMax freeArea, vmaCount := 0 })
  | create {g : Held} {m : Machine} (a f : ℕ) (hf : 0 < g.fresh f) (h0 : f ≠ 0)
      (hl : (m.space a).live = false) :
      Act g m .silent { g with fresh := lower g.fresh f }
        (m.setSpace a
          { live := true, pml4 := f, tables := .empty, pt := .empty
            brk := userHeapBase, brkTop := userHeapBase, mmapNext := userMmapBase
            vmas := 0, areas := [], vmaCount := 0 })
  | unlinkTable {g : Held} {m : Machine} (a key : ℕ)
      (hz : (m.space a).tables.get key ≠ 0) :
      Act g m .silent { g with fresh := raise g.fresh ((m.space a).tables.get key) }
        (m.setSpace a { m.space a with tables := (m.space a).tables.set key 0 })
  | unlinkVmas {g : Held} {m : Machine} (a : ℕ) (hz : (m.space a).vmas ≠ 0) :
      Act g m .silent { g with fresh := raise g.fresh (m.space a).vmas }
        (m.setSpace a { m.space a with vmas := 0, areas := [], vmaCount := 0 })
  | bury {g : Held} {m : Machine} (a : ℕ) (hl : (m.space a).live = true)
      (hp : ∀ v, m.pte a v = 0) (ht : ∀ k, (m.space a).tables.get k = 0)
      (hv : (m.space a).vmas = 0) :
      Act g m .silent { g with fresh := raise g.fresh (m.space a).pml4 }
        (m.setSpace a { m.space a with pml4 := 0, live := false })

/-- A sequence of actions with the events it shows. -/
inductive Runs : Held → Machine → List Event → Held → Machine → Prop
  | nil (g : Held) (m : Machine) : Runs g m [] g m
  | cons {g g' g'' : Held} {m m' m'' : Machine} {e : Event} {es : List Event}
      (first : Act g m e g' m') (rest : Runs g' m' es g'' m'') : Runs g m (e :: es) g'' m''

/-- Some sequence of actions, all of a given kind. -/
def Does (P : Event → Prop) (g : Held) (m : Machine) (g' : Held) (m' : Machine) : Prop :=
  ∃ es, Runs g m es g' m' ∧ ∀ e ∈ es, P e

theorem Runs.append {g g' g'' : Held} {m m' m'' : Machine} {es es' : List Event}
    (h : Runs g m es g' m') (h' : Runs g' m' es' g'' m'') : Runs g m (es ++ es') g'' m'' := by
  induction h with
  | nil => exact h'
  | cons first _ ih => exact .cons first (ih h')

namespace Does

variable {P Q : Event → Prop} {g g' g'' : Held} {m m' m'' : Machine}

theorem refl (P : Event → Prop) (g : Held) (m : Machine) : Does P g m g m := ⟨[], .nil g m, by simp⟩

theorem act {e : Event} (h : Act g m e g' m') (hP : P e) : Does P g m g' m' :=
  ⟨[e], .cons h (.nil g' m'), by simpa using hP⟩

theorem trans (h : Does P g m g' m') (h' : Does P g' m' g'' m'') : Does P g m g'' m'' := by
  obtain ⟨es, hr, hP⟩ := h
  obtain ⟨es', hr', hP'⟩ := h'
  refine ⟨es ++ es', hr.append hr', fun e he => ?_⟩
  rcases List.mem_append.mp he with he | he
  · exact hP e he
  · exact hP' e he

theorem mono (h : Does P g m g' m') (hPQ : ∀ e, P e → Q e) : Does Q g m g' m' := by
  obtain ⟨es, hr, hP⟩ := h
  exact ⟨es, hr, fun e he => hPQ e (hP e he)⟩

theorem induct {I : Held → Machine → Prop} (h : Does P g m g' m')
    (hstep : ∀ {g m e g' m'}, I g m → Act g m e g' m' → P e → I g' m') (hI : I g m) : I g' m' := by
  obtain ⟨es, hr, hP⟩ := h
  induction hr with
  | nil => exact hI
  | cons first _ ih =>
    exact ih (hstep hI first (hP _ (by simp))) fun e he => hP e (by simp [he])

end Does

end Vextro.Paging
