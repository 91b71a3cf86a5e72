import Mathlib.Data.Fintype.Basic
import Mathlib.Tactic.IntervalCases
import Vextro.Model.Journal
import Vextro.Verification.Shared.RedoLog
import Vextro.Verification.Shared.Run

/-! Crash recovery of journalled sector writes. -/

namespace Vextro.Ntfs

open List

open Function (update update_apply update_of_ne update_self)

variable {s i j : ℕ} {base target : Lba} {disk disk' last store : Disk} {v : Volume} {data : Sector}

/-! ## The header on disk -/

theorem readLe_leBytes {s : Sector} {offset n x : ℕ}
    (h : ∀ i < n, byteAt s (offset + i) = (leBytes n x).getD i 0) :
    readLe s offset n = x % 256 ^ n := by
  induction n generalizing offset x with
  | zero => simp [readLe, Nat.mod_one]
  | succ n ih =>
    have hfirst : byteAt s offset = UInt8.ofNat x := h 0 (by omega)
    have hrest : readLe s (offset + 1) n = x / 256 % 256 ^ n := by
      refine ih fun i hi => ?_
      have := h (i + 1) (by omega)
      rwa [show offset + (i + 1) = offset + 1 + i by omega] at this
    rw [readLe, hfirst, hrest, pow_succ', Nat.mod_mul]
    rfl

theorem readHdr_sector (h : JrnlHdr) : readHdr h.sector = h := by
  have h32 : ∀ x : UInt32, UInt32.ofNat (x.toNat % 256 ^ 4) = x := fun x => by
    rw [show 256 ^ 4 = 2 ^ 32 by decide, Nat.mod_eq_of_lt x.toNat_lt, UInt32.ofNat_toNat]
  have h64 : ∀ x : UInt64, UInt64.ofNat (x.toNat % 256 ^ 8) = x := fun x => by
    rw [show 256 ^ 8 = 2 ^ 64 by decide, Nat.mod_eq_of_lt x.toNat_lt, UInt64.ofNat_toNat]
  have hmagic : readLe h.sector 0 4 = h.magic.toNat % 256 ^ 4 :=
    readLe_leBytes fun i hi => by interval_cases i <;> rfl
  have hseq : readLe h.sector 4 4 = h.seq.toNat % 256 ^ 4 :=
    readLe_leBytes fun i hi => by interval_cases i <;> rfl
  have htarget : readLe h.sector 8 8 = h.targetLba.toNat % 256 ^ 8 :=
    readLe_leBytes fun i hi => by interval_cases i <;> rfl
  have hlength : readLe h.sector 16 4 = h.length.toNat % 256 ^ 4 :=
    readLe_leBytes fun i hi => by interval_cases i <;> rfl
  have hsum : readLe h.sector 20 4 = h.checksum.toNat % 256 ^ 4 :=
    readLe_leBytes fun i hi => by interval_cases i <;> rfl
  have hcommitted : readLe h.sector 24 4 = h.committed.toNat % 256 ^ 4 :=
    readLe_leBytes fun i hi => by interval_cases i <;> rfl
  have hreserved : readLe h.sector 28 4 = h.reserved.toNat % 256 ^ 4 :=
    readLe_leBytes fun i hi => by interval_cases i <;> rfl
  unfold readHdr
  rw [hmagic, hseq, htarget, hlength, hsum, hcommitted, hreserved]
  simp only [h32, h64]

/-! ## Where the log is -/

/-- The sectors of the log. -/
def inLog (base x : Lba) : Bool := x - base < 256

theorem slotLba_sub (hi : i < 128) : (slotLba base i - base).toNat = 2 * i := by
  have h : slotLba base i - base = UInt64.ofNat i * 2 := by
    unfold slotLba
    rw [UInt64.add_comm, UInt64.add_sub_cancel]
  rw [h, UInt64.toNat_mul, UInt64.toNat_ofNat']
  simp only [UInt64.toNat_ofNat]
  omega

theorem slotLba_succ_sub (hi : i < 128) : (slotLba base i + 1 - base).toNat = 2 * i + 1 := by
  have h : slotLba base i + 1 - base = UInt64.ofNat i * 2 + 1 := by
    unfold slotLba
    rw [UInt64.add_assoc, UInt64.add_comm, UInt64.add_sub_cancel]
  rw [h, UInt64.toNat_add, UInt64.toNat_mul, UInt64.toNat_ofNat']
  simp only [UInt64.toNat_ofNat]
  omega

theorem inLog_iff {x : Lba} : inLog base x ↔ (x - base).toNat < 256 := by
  simp [inLog, UInt64.lt_iff_toNat_lt]

theorem slotLba_inLog (base : Lba) (hi : i < 128) :
    inLog base (slotLba base i) ∧ inLog base (slotLba base i + 1) := by
  rw [inLog_iff, inLog_iff, slotLba_sub hi, slotLba_succ_sub hi]
  omega

theorem slotLba_ne (hi : i < 128) (hj : j < 128) (hij : i ≠ j) :
    slotLba base i ≠ slotLba base j := by
  intro h
  have := congrArg (fun x => (x - base).toNat) h
  simp only [slotLba_sub hi, slotLba_sub hj] at this
  omega

theorem slotLba_succ_ne (hi : i < 128) (hj : j < 128) (hij : i ≠ j) :
    slotLba base i + 1 ≠ slotLba base j + 1 := by
  intro h
  have := congrArg (fun x => (x - base).toNat) h
  simp only [slotLba_succ_sub hi, slotLba_succ_sub hj] at this
  omega

theorem slotLba_ne_succ (hi : i < 128) (hj : j < 128) : slotLba base i ≠ slotLba base j + 1 := by
  intro h
  have := congrArg (fun x => (x - base).toNat) h
  simp only [slotLba_sub hi, slotLba_succ_sub hj] at this
  omega

theorem Jrnl.slot_lt (j : Jrnl) : j.slot < 128 := Nat.mod_lt _ (by decide)

/-! ## The log as a list of records -/

/-- The record in a slot, if replay would take it. -/
def slotRecord (base : Lba) (disk : Disk) (i : ℕ) : Option (Lba × Sector) :=
  if applies (readHdr (disk (slotLba base i))) (disk (slotLba base i + 1)) then
    some ((readHdr (disk (slotLba base i))).targetLba, disk (slotLba base i + 1))
  else none

theorem slotRecord_congr (hi : i < 128) (h : ∀ x, inLog base x → disk' x = disk x) :
    slotRecord base disk' i = slotRecord base disk i := by
  unfold slotRecord
  rw [h _ (slotLba_inLog base hi).1, h _ (slotLba_inLog base hi).2]

theorem applies_committed (seq : UInt32) (target : Lba) (data : Sector) :
    applies (jrnlHdr seq target data 1) data := by
  simp [applies, jrnlHdr]

/-- Every record of the log is for a sector outside it. -/
def LogOutside (base : Lba) (disk : Disk) : Prop :=
  ∀ i < 128, ∀ t p, slotRecord base disk i = some (t, p) → inLog base t = false

theorem replaySlots_eq (hout : LogOutside base disk)
    (slots : List ℕ) (hslots : ∀ i ∈ slots, i < 128) (r : Disk × UInt32 × UInt32)
    (hr : ∀ x, inLog base x → r.1 x = disk x) :
    (slots.foldl (replaySlot base) r).1 = RedoLog.replay (slotRecord base disk) slots r.1 ∧
      ∀ x, inLog base x → (slots.foldl (replaySlot base) r).1 x = disk x := by
  induction slots generalizing r with
  | nil => exact ⟨rfl, hr⟩
  | cons i slots ih =>
    have hi := hslots i (by simp)
    have hone : (replaySlot base r i).1 = RedoLog.applySlot r.1 (slotRecord base disk i) := by
      rw [← slotRecord_congr hi hr]
      unfold replaySlot slotRecord
      simp only
      split <;> rfl
    have hkeep : ∀ x, inLog base x → (replaySlot base r i).1 x = disk x := by
      intro x hx
      rw [hone]
      cases hrec : slotRecord base disk i with
      | none => exact hr x hx
      | some tp =>
        obtain ⟨t, p⟩ := tp
        have hne : x ≠ t := by
          rintro rfl
          rw [hout i hi x p hrec] at hx
          contradiction
        rw [RedoLog.applySlot, update_of_ne hne]
        exact hr x hx
    have hrest := ih (fun j hj => hslots j (by simp [hj])) _ hkeep
    rwa [hone] at hrest

/-! ## Writing a slot -/

theorem slotRecord_update (hs : s < 128)
    {x : Option (Lba × Sector)} (hslot : slotRecord base disk' s = x)
    (hrest : ∀ x, inLog base x → x ≠ slotLba base s → x ≠ slotLba base s + 1 → disk' x = disk x)
    (i : ℕ) (hi : i < 128) : slotRecord base disk' i = update (slotRecord base disk) s x i := by
  by_cases his : i = s
  · rw [his, update_self, hslot]
  rw [update_of_ne his]
  unfold slotRecord
  rw [hrest _ (slotLba_inLog base hi).1 (slotLba_ne hi hs his) (slotLba_ne_succ hi hs),
    hrest _ (slotLba_inLog base hi).2 (slotLba_ne_succ hs hi).symm (slotLba_succ_ne hi hs his)]

theorem slotRecord_uncommitted (seq : UInt32) (target : Lba)
    (data : Sector) (hhdr : disk' (slotLba base s) = (jrnlHdr seq target data 0).sector) :
    slotRecord base disk' s = none := by
  unfold slotRecord
  rw [hhdr, readHdr_sector]
  rfl

theorem slotRecord_committed
    (seq : UInt32) (hhdr : disk' (slotLba base s) = (jrnlHdr seq target data 1).sector)
    (hdata : disk' (slotLba base s + 1) = data) :
    slotRecord base disk' s = some (target, data) := by
  unfold slotRecord
  rw [hhdr, hdata, readHdr_sector, applies_committed]
  rfl

/-- What a volume looks like once the slot is empty, or filled, and the target written or
not. -/
structure Stage (base : Lba) (disk disk' : Disk) (s : ℕ) (x : Option (Lba × Sector))
    (store : Disk) : Prop where
  record : ∀ i < 128, slotRecord base disk' i = update (slotRecord base disk) s x i
  outside : ∀ y, inLog base y = false → disk' y = store y

theorem crashDisk_stage (data : Sector)
    (hready : v.jrnl.ready) (htarget : inLog v.jrnl.baseLba target = false) (k : ℕ) :
    (k = 0 ∧ crashDisk v target data k = v.disk) ∨
    (k < 3 ∧ Stage v.jrnl.baseLba v.disk (crashDisk v target data k) v.jrnl.slot none v.disk) ∨
    (k = 3 ∧ Stage v.jrnl.baseLba v.disk (crashDisk v target data k) v.jrnl.slot
      (some (target, data)) v.disk) ∨
    (4 ≤ k ∧ Stage v.jrnl.baseLba v.disk (crashDisk v target data k) v.jrnl.slot
      (some (target, data)) (update v.disk target data)) := by
  have hs := v.jrnl.slot_lt
  set base := v.jrnl.baseLba with hbase
  set s := v.jrnl.slot with hslot
  obtain ⟨hin, hin'⟩ := slotLba_inLog base hs
  have hout : ∀ y, inLog base y = false → y ≠ slotLba base s ∧ y ≠ slotLba base s + 1 := by
    refine fun y hy => ⟨?_, ?_⟩
    · rintro rfl
      rw [hy] at hin
      contradiction
    rintro rfl
    rw [hy] at hin'
    contradiction
  have htin : ∀ y, inLog base y → y ≠ target := by
    rintro y hy rfl
    rw [htarget] at hy
    contradiction
  have hwrites : journalSectors v.jrnl target data =
      [(slotLba base s, (jrnlHdr v.jrnl.seq target data 0).sector), (slotLba base s + 1, data),
        (slotLba base s, (jrnlHdr v.jrnl.seq target data 1).sector), (target, data)] := by
    simp [journalSectors, hready, hbase, hslot]
  unfold crashDisk
  rw [hwrites]
  rcases k with _ | _ | _ | _ | k
  · exact Or.inl ⟨rfl, rfl⟩
  · refine Or.inr (Or.inl ⟨by decide, ?_, fun y hy => ?_⟩)
    · exact slotRecord_update hs
        (slotRecord_uncommitted v.jrnl.seq target data (by simp [applyWrites]))
        fun y _ h1 h2 => by simp [applyWrites, update_of_ne h1]
    · simp [applyWrites, update_of_ne (hout y hy).1]
  · refine Or.inr (Or.inl ⟨by decide, ?_, fun y hy => ?_⟩)
    · exact slotRecord_update hs
        (slotRecord_uncommitted v.jrnl.seq target data (by simp [applyWrites]))
        fun y _ h1 h2 => by simp [applyWrites, update_of_ne h1, update_of_ne h2]
    · simp [applyWrites, update_of_ne (hout y hy).1, update_of_ne (hout y hy).2]
  · refine Or.inr (Or.inr (Or.inl ⟨rfl, ?_, fun y hy => ?_⟩))
    · exact slotRecord_update hs
        (slotRecord_committed v.jrnl.seq (by simp [applyWrites]) (by simp [applyWrites]))
        fun y _ h1 h2 => by simp [applyWrites, update_of_ne h1, update_of_ne h2]
    · simp [applyWrites, update_of_ne (hout y hy).1, update_of_ne (hout y hy).2]
  refine Or.inr (Or.inr (Or.inr ⟨by omega, ?_, fun y hy => ?_⟩))
  · refine slotRecord_update hs (slotRecord_committed v.jrnl.seq ?_ ?_) fun y hy h1 h2 => ?_
    · simp [applyWrites, update_of_ne (htin _ hin)]
    · simp [applyWrites, update_of_ne (htin _ hin')]
    · simp [applyWrites, update_of_ne (htin _ hy), update_of_ne h1, update_of_ne h2]
  · by_cases hy' : y = target
    · subst hy'
      simp [applyWrites]
    · simp [applyWrites, update_of_ne hy', update_of_ne (hout y hy).1,
        update_of_ne (hout y hy).2]

/-! ## Sessions -/

/-- The log and the sectors around it, against the newest value of every sector. -/
structure Consistent (base : Lba) (last : Disk) (v : Volume) : Prop where
  ready : v.jrnl.ready = true
  base_eq : v.jrnl.baseLba = base
  outside : LogOutside base v.disk
  current : ∀ x, inLog base x = false → v.disk x = last x
  safe : RedoLog.Safe 128 (slotRecord base v.disk) v.jrnl.slot last

/-- Where `ntfs_journal_init` puts the log. -/
def logBase (partLba partSectors : UInt64) : Lba := partLba + partSectors - 256 - 1

section Mount

variable (partLba : UInt64) {partSectors : UInt64} (hsize : ¬ partSectors < 256 * 2 + 16)

include hsize

section

variable (hout : LogOutside (logBase partLba partSectors) v.disk)
include hout

theorem mountJournal_spec :
    let v' := mountJournal partLba partSectors v
    v'.jrnl.ready = true ∧ v'.jrnl.baseLba = logBase partLba partSectors ∧ v'.jrnl.slot = 0 ∧
      v'.disk = RedoLog.replay (slotRecord (logBase partLba partSectors) v.disk)
        (range 128) v.disk ∧
      ∀ x, inLog (logBase partLba partSectors) x = true → v'.disk x = v.disk x := by
  obtain ⟨hdisk, hlog⟩ := replaySlots_eq hout (range 128) (fun i hi => mem_range.mp hi)
    (v.disk, 0, 0) fun _ _ => rfl
  have hslots : jrnlSectors / 2 = 128 := rfl
  unfold mountJournal ntfsJournalInit ntfsJournalReplay
  simp only [if_neg hsize, Bool.not_true, Bool.false_eq_true, if_false, hslots, true_and]
  rw [← logBase]
  exact ⟨rfl, rfl, hdisk, hlog⟩

theorem mountJournal_outside :
    LogOutside (logBase partLba partSectors) (mountJournal partLba partSectors v).disk := by
  obtain ⟨-, -, -, -, hlog⟩ := mountJournal_spec partLba hsize hout
  intro i hi t p hrec
  rw [slotRecord_congr hi hlog] at hrec
  exact hout i hi t p hrec

theorem mountJournal_consistent :
    Consistent (logBase partLba partSectors) (mountJournal partLba partSectors v).disk
      (mountJournal partLba partSectors v) := by
  obtain ⟨hready, hbase, hslot, hdisk, hlog⟩ := mountJournal_spec partLba hsize hout
  refine ⟨hready, hbase, mountJournal_outside partLba hsize hout, fun _ _ => rfl, ?_⟩
  rw [hslot]
  have hrestart := RedoLog.Safe.restart (n := 128) (by decide)
    (slotRecord (logBase partLba partSectors) v.disk) v.disk
  refine hrestart.congr (fun i hi => ?_) fun t => ?_
  · exact slotRecord_congr hi hlog
  · rw [hdisk]

/-- A mount puts back what the log and the disk agree on. -/
theorem recover {log : ℕ → Option (Lba × Sector)}
    (hlog : ∀ i < 128, slotRecord (logBase partLba partSectors) v.disk i = log i)
    (hstore : ∀ x, inLog (logBase partLba partSectors) x = false → v.disk x = store x)
    (hreplay : RedoLog.replay log (range 128) store = last) :
    ∀ x, inLog (logBase partLba partSectors) x = false →
      (mountJournal partLba partSectors v).disk x = last x := by
  obtain ⟨-, -, -, hdisk, -⟩ := mountJournal_spec partLba hsize hout
  intro x hx
  rw [hdisk, ← hreplay, RedoLog.replay_apply, RedoLog.replay_apply, hstore x hx,
    RedoLog.top_congr fun i hi => hlog i (mem_range.mp hi)]

end

end Mount

/-- The records of the slots that come after the one in use. -/
def laterRecord (base : Lba) (v : Volume) (target : Lba) : Option Sector :=
  RedoLog.top (slotRecord base v.disk) (range' (v.jrnl.slot + 1) (128 - (v.jrnl.slot + 1)))
    target

/-- A write that replay will not undo: its target is outside the log, and the last record for
that target in a later slot, if there is one, has the same payload. -/
def Call.kept (base : Lba) (v : Volume) : Call → Bool
  | .mount => true
  | .write target data =>
    !inLog base target && (laterRecord base v target).all fun p => decide (p = data)

theorem kept_write (h : (Call.write target data).kept base v) :
    inLog base target = false ∧ ∀ p, laterRecord base v target = some p → p = data := by
  simp only [Call.kept, Bool.and_eq_true, Bool.not_eq_true'] at h
  refine ⟨h.1, fun p hp => ?_⟩
  simpa [hp] using h.2

/-- The newest value of every sector: what the last completed write left there. -/
def newest (disk : Disk) (calls : List Call) : Disk :=
  calls.foldl (fun last c => match c with
    | .mount => last
    | .write target data => update last target data) disk

theorem Stage.outside_log {x : Option (Lba × Sector)} (h : Stage base disk disk' s x store)
    (hout : LogOutside base disk) (hx : ∀ t p, x = some (t, p) → inLog base t = false) :
    LogOutside base disk' := by
  intro i hi t p hrec
  rw [h.record i hi, update_apply] at hrec
  split at hrec
  · exact hx t p hrec
  · exact hout i hi t p hrec

theorem Stage.outside_written (h : Stage base disk disk' s (some (target, data)) store)
    (hout : LogOutside base disk) (htarget : inLog base target = false) :
    LogOutside base disk' := by
  refine h.outside_log hout fun t p heq => ?_
  cases heq
  exact htarget

theorem ntfsJournalWrite_stage (data : Sector) (hready : v.jrnl.ready)
    (htarget : inLog v.jrnl.baseLba target = false) :
    Stage v.jrnl.baseLba v.disk (ntfsJournalWrite v target data).disk v.jrnl.slot
      (some (target, data)) (update v.disk target data) := by
  have hdisk : (ntfsJournalWrite v target data).disk = crashDisk v target data 4 := by
    have hall : (journalSectors v.jrnl target data).take 4 = journalSectors v.jrnl target data := by
      unfold journalSectors
      split <;> rfl
    unfold crashDisk
    rw [hall]
    rfl
  rw [hdisk]
  rcases crashDisk_stage data hready htarget 4 with
    ⟨hk, -⟩ | ⟨hk, -⟩ | ⟨hk, -⟩ | ⟨-, hstage⟩
  · contradiction
  · omega
  · contradiction
  · exact hstage

theorem ntfsJournalWrite_jrnl (target : Lba) (data : Sector) (hready : v.jrnl.ready) :
    (ntfsJournalWrite v target data).jrnl.ready ∧
      (ntfsJournalWrite v target data).jrnl.baseLba = v.jrnl.baseLba ∧
      (ntfsJournalWrite v target data).jrnl.slot = (v.jrnl.slot + 1) % 128 := by
  refine ⟨?_, ?_, ?_⟩
  · simp [ntfsJournalWrite, hready]
  · simp [ntfsJournalWrite, hready]
  unfold ntfsJournalWrite Jrnl.slot
  simp only [hready, jrnlSectors]
  simp

theorem ntfsJournalWrite_consistent (h : Consistent base last v)
    (hkept : (Call.write target data).kept base v) :
    Consistent base (update last target data) (ntfsJournalWrite v target data) := by
  obtain ⟨htarget, hlater⟩ := kept_write hkept
  have hbase := h.base_eq
  subst hbase
  have hstage := ntfsJournalWrite_stage data h.ready htarget
  obtain ⟨hready, hbase, hslot⟩ := ntfsJournalWrite_jrnl target data h.ready
  refine ⟨hready, hbase, hstage.outside_written h.outside htarget, fun x hx => ?_, ?_⟩
  · rw [hstage.outside x hx, update_apply, update_apply, h.current x hx]
  · rw [hslot]
    exact (h.safe.written hlater).congr hstage.record fun _ => rfl

section Recovery

variable (partLba : UInt64) {partSectors : UInt64} (hsize : ¬ partSectors < 256 * 2 + 16)

include hsize

section

variable (h : Consistent (logBase partLba partSectors) last v)
include h

theorem step_consistent {c : Call}
    (hkept : c.kept (logBase partLba partSectors) v) :
    Consistent (logBase partLba partSectors) (newest last [c]) (c.step partLba partSectors v) := by
  cases c with
  | write target data => exact ntfsJournalWrite_consistent h hkept
  | mount =>
    obtain ⟨hready, hbase, hslot, -, hlog⟩ := mountJournal_spec partLba hsize h.outside
    refine ⟨hready, hbase, mountJournal_outside partLba hsize h.outside, ?_, ?_⟩
    · exact recover partLba hsize h.outside (fun _ _ => rfl) h.current h.safe.replay_eq
    change RedoLog.Safe 128 _ (mountJournal partLba partSectors v).jrnl.slot last
    rw [hslot]
    have hrestart := RedoLog.Safe.restart (n := 128) (by decide)
      (slotRecord (logBase partLba partSectors) v.disk) last
    rw [h.safe.replay_eq] at hrestart
    exact hrestart.congr (fun i hi => slotRecord_congr hi hlog) fun _ => rfl

theorem run_consistent {calls : List Call} (hkept : Run.Meets (Call.step partLba partSectors)
      (fun v c => c.kept (logBase partLba partSectors) v = true) v calls) :
    Consistent (logBase partLba partSectors) (newest last calls)
      (calls.foldl (Call.step partLba partSectors) v) := by
  induction calls generalizing last v with
  | nil => exact h
  | cons c calls ih => exact ih (step_consistent partLba hsize h hkept.1) hkept.2

/-- A crash during a write to a consistent volume: after the next mount every sector outside
the log has its newest value, with or without the write in flight. -/
theorem crash_recovers
    (hkept : (Call.write target data).kept (logBase partLba partSectors) v) (k : ℕ) :
    let recovered := (mountJournal partLba partSectors ⟨v.jrnl, crashDisk v target data k⟩).disk
    ((k < 3 ∧ ∀ x, inLog (logBase partLba partSectors) x = false → recovered x = last x) ∨
      (3 ≤ k ∧ ∀ x, inLog (logBase partLba partSectors) x = false →
        recovered x = update last target data x)) := by
  obtain ⟨htarget, hlater⟩ := kept_write hkept
  have hstages := crashDisk_stage data h.ready (by rw [h.base_eq]; exact htarget) k
  rw [h.base_eq] at hstages
  rcases hstages with ⟨rfl, heq⟩ | ⟨hk, hstage⟩ | ⟨rfl, hstage⟩ | ⟨hk, hstage⟩
  · refine Or.inl ⟨by decide, ?_⟩
    exact recover partLba hsize h.outside (fun _ _ => rfl) h.current
      h.safe.replay_eq
  · refine Or.inl ⟨hk, ?_⟩
    have hout := hstage.outside_log h.outside fun _ _ hx => absurd hx (by simp)
    refine recover partLba hsize hout hstage.record
      (fun x hx => ?_) h.safe.erase.replay_eq
    exact (hstage.outside x hx).trans (h.current x hx)
  · refine Or.inr ⟨by decide, ?_⟩
    have hout := hstage.outside_written h.outside htarget
    refine recover partLba hsize hout hstage.record
      (fun x hx => ?_) (h.safe.commit_replay hlater)
    exact (hstage.outside x hx).trans (h.current x hx)
  refine Or.inr ⟨by omega, ?_⟩
  have hout := hstage.outside_written h.outside htarget
  refine recover partLba hsize hout hstage.record
    (fun x hx => ?_) (h.safe.written hlater).replay_eq
  change crashDisk v target data k x = _
  rw [hstage.outside x hx, update_apply, update_apply, h.current x hx]

end

/-- Any number of mounts and writes that replay will not undo, and a crash in one more write:
the next mount leaves every sector with the payload of the last completed write to it, or
takes in the write in flight as a whole. -/
theorem journal_recovers (v : Volume)
    (hout : LogOutside (logBase partLba partSectors) v.disk) (calls : List Call)
    (hkept : Run.Meets (Call.step partLba partSectors)
      (fun v c => c.kept (logBase partLba partSectors) v = true)
      (mountJournal partLba partSectors v) calls) (target : Lba) (data : Sector)
    (hlast : (Call.write target data).kept (logBase partLba partSectors)
      (calls.foldl (Call.step partLba partSectors) (mountJournal partLba partSectors v)) = true)
    (k : ℕ) :
    let v' := calls.foldl (Call.step partLba partSectors) (mountJournal partLba partSectors v)
    let last := newest (mountJournal partLba partSectors v).disk calls
    let recovered := (mountJournal partLba partSectors ⟨v'.jrnl, crashDisk v' target data k⟩).disk
    (∀ x, inLog (logBase partLba partSectors) x = false → x ≠ target → recovered x = last x) ∧
      (recovered target = last target ∨ recovered target = data) ∧
      (4 ≤ k → recovered target = data) := by
  have hcons := run_consistent partLba hsize (mountJournal_consistent partLba hsize hout) hkept
  have htarget := (kept_write hlast).1
  rcases crash_recovers partLba hsize hcons hlast k with ⟨hk, hold⟩ | ⟨hk, hnew⟩
  · exact ⟨fun x hx _ => hold x hx, Or.inl (hold target htarget), by omega⟩
  have hself := hnew target htarget
  rw [update_self] at hself
  refine ⟨fun x hx hne => ?_, Or.inr hself, fun _ => hself⟩
  rw [hnew x hx, update_of_ne hne]

end Recovery

/-- A disk of zeros, and the state of a driver that has mounted nothing. -/
def blankVolume : Volume := ⟨⟨false, 0, 0, 0, 0, 0⟩, fun _ _ => 0⟩

theorem blankVolume_record (base : Lba) (i : ℕ) : slotRecord base blankVolume.disk i = none := by
  unfold slotRecord
  rw [if_neg]
  change ¬ applies (readHdr fun _ => 0) (fun _ => 0) = true
  decide +kernel

theorem blankVolume_outside (base : Lba) : LogOutside base blankVolume.disk := by
  intro i _ t p hrec
  contradiction

/-- A sector written, a second session on the same disk of sixteen megabytes, and a crash
just after the commit of another sector. -/
theorem journal_recovers_inFlight :
    let v := [.write 0 fun _ => 1, .mount].foldl (Call.step 0 32768)
      (mountJournal 0 32768 blankVolume)
    let recovered := (mountJournal 0 32768 ⟨v.jrnl, crashDisk v 3 (fun _ => 4) 3⟩).disk
    recovered 0 = fun _ => 1 :=
  (journal_recovers 0 (show ¬ (32768 : UInt64) < 256 * 2 + 16 by decide) blankVolume
    (blankVolume_outside _) _ (by decide +kernel) 3 (fun _ => 4) (by decide +kernel) 3).1 0
    (by decide) (by decide)

/-- Whatever is written to slot zero of a log whose slot one holds the only other record for
the target, the next mount takes the record in slot one. -/
theorem mount_takes_later_slot
    {partLba partSectors : UInt64} (hsize : ¬ partSectors < 256 * 2 + 16) (data : Sector)
    {other : Sector} (hready : v.jrnl.ready) (hbase : v.jrnl.baseLba = logBase partLba partSectors)
    (hslot : v.jrnl.slot = 0) (htarget : inLog (logBase partLba partSectors) target = false)
    (hone : slotRecord (logBase partLba partSectors) v.disk 1 = some (target, other))
    (hout : LogOutside (logBase partLba partSectors) v.disk)
    (hrest : ∀ i < 128, 2 ≤ i → slotRecord (logBase partLba partSectors) v.disk i = none) :
    (mountJournal partLba partSectors (ntfsJournalWrite v target data)).disk target = other := by
  have hstage := ntfsJournalWrite_stage data hready (by rw [hbase]; exact htarget)
  rw [hbase, hslot] at hstage
  obtain ⟨-, -, -, hdisk, -⟩ :=
    mountJournal_spec partLba hsize (hstage.outside_written hout htarget)
  have htop : RedoLog.top (slotRecord (logBase partLba partSectors)
      (ntfsJournalWrite v target data).disk) (range 128) target = some other := by
    rw [RedoLog.top_split (s := 1) (by decide), RedoLog.top_eq_none fun i hi => ?_,
      hstage.record 1 (by decide), update_of_ne (by decide), hone]
    · simp [RedoLog.recordOf]
    rw [mem_range'_1] at hi
    rw [hstage.record i (by omega), update_of_ne (by omega), hrest i (by omega) (by omega)]
    rfl
  rw [hdisk, RedoLog.replay_apply, htop]
  rfl

/-- Two writes to a sector and a mount: the log starts again at slot zero, with the second
record still in slot one. -/
theorem rewritten_log (a b : Sector) :
    let v := mountJournal 0 32768
      (ntfsJournalWrite (ntfsJournalWrite (mountJournal 0 32768 blankVolume) 0 a) 0 b)
    v.jrnl.ready = true ∧ v.jrnl.baseLba = logBase 0 32768 ∧ v.jrnl.slot = 0 ∧
      slotRecord (logBase 0 32768) v.disk 1 = some (0, b) ∧
      LogOutside (logBase 0 32768) v.disk ∧
      ∀ i < 128, 2 ≤ i → slotRecord (logBase 0 32768) v.disk i = none := by
  have hsize : ¬ (32768 : UInt64) < 256 * 2 + 16 := by decide
  have htarget : inLog (logBase 0 32768) 0 = false := by decide
  set v0 := mountJournal 0 32768 blankVolume with hv0
  obtain ⟨hready0, hbase0, hslot0, -, hlog0⟩ :=
    mountJournal_spec 0 hsize (blankVolume_outside _)
  have hout0 : LogOutside (logBase 0 32768) v0.disk :=
    mountJournal_outside 0 hsize (blankVolume_outside _)
  set v1 := ntfsJournalWrite v0 0 a with hv1
  have hstage1 := ntfsJournalWrite_stage a hready0 (by exact htarget)
  obtain ⟨hready1, hbase1, hslot1⟩ := ntfsJournalWrite_jrnl 0 a hready0
  rw [hbase0, hslot0] at hstage1
  rw [hbase0] at hbase1
  have hout1 := hstage1.outside_written hout0 htarget
  set v2 := ntfsJournalWrite v1 0 b with hv2
  have hstage2 := ntfsJournalWrite_stage b hready1 (by exact htarget)
  rw [hbase1, hslot1] at hstage2
  have hout2 := hstage2.outside_written hout1 htarget
  obtain ⟨hready, hbase, hslot, -, hlog⟩ := mountJournal_spec 0 hsize hout2
  refine ⟨hready, hbase, hslot, ?_, mountJournal_outside 0 hsize hout2, fun i hi h2 => ?_⟩
  · rw [slotRecord_congr (by decide) hlog, hstage2.record 1 (by decide)]
    rfl
  rw [slotRecord_congr hi hlog, hstage2.record i hi, update_of_ne (by omega),
    hstage1.record i hi, update_of_ne (by omega), slotRecord_congr hi hlog0,
    blankVolume_record]

/-- Two writes to a sector, a mount and a third write: the mount after that brings the second
payload back, since its record has the higher slot. -/
theorem journal_replays_stale_record :
    LogOutside (logBase 0 32768) blankVolume.disk ∧
      let v := ntfsJournalWrite (mountJournal 0 32768
        (ntfsJournalWrite (ntfsJournalWrite (mountJournal 0 32768 blankVolume) 0 fun _ => 1)
          0 fun _ => 2)) 0 fun _ => 3
      (mountJournal 0 32768 v).disk 0 = (fun _ => 2) ∧
        ¬ (mountJournal 0 32768 v).disk 0 = fun _ => 3 := by
  obtain ⟨hready, hbase, hslot, hone, hout, hrest⟩ := rewritten_log (fun _ => 1) fun _ => 2
  have hlast := mount_takes_later_slot (show ¬ (32768 : UInt64) < 256 * 2 + 16 by decide)
    (fun _ => 3) hready hbase hslot (by decide) hone hout hrest
  refine ⟨blankVolume_outside _, hlast, fun h => ?_⟩
  have hbytes := congrFun (hlast.symm.trans h) 0
  exact absurd hbytes (by decide)

end Vextro.Ntfs
