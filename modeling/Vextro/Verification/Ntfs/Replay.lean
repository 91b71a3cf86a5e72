import Vextro.Model.SectorWrites
import Vextro.Verification.Ntfs.Journal
import Vextro.Verification.Ntfs.Tree

/-! What the replay at the next start does to the sectors of a volume that was changed by
completed calls. -/

namespace Vextro.Ntfs

open List Function

variable {base : Lba} {vol : Volume} {v : Mount} {l : Layout}

/-! ## Direct writes -/

/-- A record that names the sector has the payload given. -/
def agrees (target : Lba) (data : Sector) (r : Option (Lba × Sector)) : Bool :=
  r.all fun r => r.1 ≠ target || decide (r.2 = data)

/-- A write that replay will not undo. A sector that goes through the journal must have no other
payload in a later slot; a sector of file data, in no slot at all. -/
def Write.kept (base : Lba) (vol : Volume) (w : Write) : Bool :=
  if w.journaled then (Call.write w.target w.data).kept base vol
  else !inLog base w.target &&
    (List.range 128).all fun i => agrees w.target w.data (slotRecord base vol.disk i)

theorem agrees_some {target t : Lba} {data p : Sector} (h : agrees target data (some (t, p)))
    (ht : t = target) : p = data := by
  simpa [agrees, ht] using h

theorem direct_consistent {last : Disk} {target : Lba} {data : Sector}
    (h : Consistent base last vol) (hkept : Write.kept base vol ⟨false, target, data⟩ = true) :
    Consistent base (update last target data) (Write.step vol ⟨false, target, data⟩) := by
  obtain ⟨htarget, hagrees⟩ : inLog base target = false ∧
      ∀ i < 128, agrees target data (slotRecord base vol.disk i) = true := by
    simpa [Write.kept] using hkept
  have hlog : ∀ x, inLog base x → update vol.disk target data x = vol.disk x := by
    intro x hx
    refine update_of_ne ?_ _ _
    rintro rfl
    simp [htarget] at hx
  refine ⟨h.ready, h.base_eq, fun i hi t p hrec => ?_, fun x hx => ?_, ?_⟩
  · change slotRecord base (update vol.disk target data) i = _ at hrec
    rw [slotRecord_congr hi hlog] at hrec
    exact h.outside i hi t p hrec
  · change update vol.disk target data x = _
    rw [update_apply, update_apply, h.current x hx]
  refine (h.safe.stored fun i hi p hrec => ?_).congr (fun i hi => slotRecord_congr hi hlog)
    fun _ => rfl
  exact agrees_some (hrec ▸ hagrees i hi) rfl

/-! ## Runs -/

theorem Write.step_consistent {w : Write} (h : ∃ last, Consistent base last vol)
    (hkept : w.kept base vol) :
    ∃ last, Consistent base last (w.step vol) := by
  obtain ⟨last, h⟩ := h
  obtain ⟨journaled, target, data⟩ := w
  cases journaled with
  | true => exact ⟨_, ntfsJournalWrite_consistent h hkept⟩
  | false => exact ⟨_, direct_consistent h hkept⟩

/-- Replay will undo none of the writes of the call. -/
def Traced.Kept {v : Mount} {l : Layout} (base : Lba) (s : Session) (t : Traced v l) : Prop :=
  Run.Meets Write.step (fun vol w => w.kept base vol = true) s.vol t.writes

theorem Traced.step_consistent (s : Session)
    (t : Traced v l) (h : ∃ last, Consistent base last s.vol) (hkept : t.Kept base s) :
    ∃ last, Consistent base last (t.step s).vol :=
  Run.invariant (I := fun vol => ∃ last, Consistent base last vol)
    (fun _ _ h hw => Write.step_consistent h hw) h hkept

/-- A log in use, none of whose records is for a sector of its own. -/
def Outside (base : Lba) (vol : Volume) : Prop :=
  vol.jrnl.ready = true ∧ vol.jrnl.baseLba = base ∧ LogOutside base vol.disk

theorem Write.step_outside (vol : Volume) (w : Write) (h : Outside base vol)
    (hw : w.journaled ∧ inLog base w.target = false) : Outside base (w.step vol) := by
  obtain ⟨hready, rfl, hout⟩ := h
  obtain ⟨journaled, target, data⟩ := w
  obtain ⟨rfl, htarget⟩ := hw
  obtain ⟨hready', hbase', -⟩ := ntfsJournalWrite_jrnl target data hready
  exact ⟨hready', hbase', (ntfsJournalWrite_stage data hready htarget).outside_written hout htarget⟩

theorem Outside.records (h : Outside base vol)
    {ws : List Write} (hws : ∀ w ∈ ws, w.journaled ∧ inLog base w.target = false)
    (hroom : vol.jrnl.slot + ws.length < 128) :
    Outside base (ws.foldl Write.step vol) ∧
    (ws.foldl Write.step vol).jrnl.slot = vol.jrnl.slot + ws.length ∧
      ∀ i < 128, slotRecord base (ws.foldl Write.step vol).disk i =
        if i < vol.jrnl.slot then slotRecord base vol.disk i
        else (ws[i - vol.jrnl.slot]?.map fun w => (w.target, w.data)).or
          (slotRecord base vol.disk i) := by
  induction ws generalizing vol with
  | nil => exact ⟨h, rfl, fun i _ => by simp⟩
  | cons w ws ih =>
    obtain ⟨hjournaled, htarget⟩ := hws w mem_cons_self
    have hnext := Write.step_outside vol w h ⟨hjournaled, htarget⟩
    have hstep : w.step vol = ntfsJournalWrite vol w.target w.data := by
      rw [Write.step, if_pos hjournaled]
    obtain ⟨hready, rfl, hout⟩ := h
    have hstage := ntfsJournalWrite_stage w.data hready htarget
    obtain ⟨-, -, hslot⟩ := ntfsJournalWrite_jrnl w.target w.data hready
    rw [← hstep] at hstage hslot
    rw [length_cons] at hroom
    rw [Nat.mod_eq_of_lt (by omega)] at hslot
    obtain ⟨hfinal, hend, hrec⟩ := ih hnext (fun w hw => hws w (mem_cons_of_mem _ hw))
      (by omega)
    refine ⟨hfinal, by rw [foldl_cons, hend, length_cons]; omega, fun i hi => ?_⟩
    rw [foldl_cons, hrec i hi, hslot, hstage.record i hi]
    rcases Nat.lt_trichotomy i vol.jrnl.slot with hlt | rfl | hgt
    · rw [if_pos (by omega), if_pos hlt, update_of_ne (by omega)]
    · simp
    obtain ⟨k, hk⟩ := Nat.exists_eq_add_of_lt hgt
    rw [if_neg (by omega), if_neg (by omega), update_of_ne (by omega),
      show i - vol.jrnl.slot = k + 1 by omega, show i - (vol.jrnl.slot + 1) = k by omega,
      List.getElem?_cons_succ]

theorem Traced.step_vol (s : Session) (t : Traced v l) :
    (t.step s).vol = t.writes.foldl Write.step s.vol := rfl

theorem foldl_step_vol (calls : List (Traced v l)) (s : Session) :
    (calls.foldl Traced.step s).vol = (calls.flatMap Traced.writes).foldl Write.step s.vol := by
  induction calls generalizing s with
  | nil => rfl
  | cons t calls ih => rw [foldl_cons, ih, flatMap_cons, foldl_append, Traced.step_vol]

/-- The log of a session over the log of the session before it. -/
def layered (ws ws' : List Write) (i : ℕ) : Option (Lba × Sector) :=
  (ws'[i]?.map fun w => (w.target, w.data)).or (ws[i]?.map fun w => (w.target, w.data))

/-- Two sessions, both of which write their log from the first slot on, and what the start after
them puts in place. -/
theorem two_sessions (partLba : UInt64) {partSectors : UInt64}
    (hsize : ¬ partSectors < 256 * 2 + 16)
    (hblank : ∀ i < 128, slotRecord (logBase partLba partSectors) vol.disk i = none)
    (ws ws' : List Write) (hlen : ws.length < 128) (hlen' : ws'.length < 128)
    (hws : ∀ w ∈ ws, w.journaled ∧ inLog (logBase partLba partSectors) w.target = false)
    (hws' : ∀ w ∈ ws', w.journaled ∧ inLog (logBase partLba partSectors) w.target = false) :
    let first := ws.foldl Write.step (mountJournal partLba partSectors vol)
    let second := ws'.foldl Write.step (mountJournal partLba partSectors first)
    LogOutside (logBase partLba partSectors) first.disk ∧ ∀ t,
    (mountJournal partLba partSectors second).disk t =
        (RedoLog.top (layered ws ws') (List.range 128) t).getD (second.disk t) := by
  intro first second
  have hout0 : LogOutside (logBase partLba partSectors) vol.disk := by
    intro i hi t p hrec
    simp [hblank i hi] at hrec
  obtain ⟨hready, hbase, hslot, -, hlog⟩ := mountJournal_spec partLba hsize hout0
  obtain ⟨⟨-, -, hout⟩, -, hrec⟩ := Outside.records
    ⟨hready, hbase, mountJournal_outside partLba hsize hout0⟩ hws (by rwa [hslot, Nat.zero_add])
  obtain ⟨hready', hbase', hslot', -, hlog'⟩ := mountJournal_spec partLba hsize hout
  obtain ⟨⟨-, -, hout'⟩, -, hrec'⟩ := Outside.records
    ⟨hready', hbase', mountJournal_outside partLba hsize hout⟩ hws' (by rwa [hslot', Nat.zero_add])
  obtain ⟨-, -, -, hdisk, -⟩ := mountJournal_spec partLba hsize hout'
  refine ⟨hout, fun t => ?_⟩
  have hlayered : ∀ i ∈ List.range 128,
      slotRecord (logBase partLba partSectors) second.disk i = layered ws ws' i := by
    intro i hi
    have hi := mem_range.mp hi
    rw [hrec' i hi, hslot', slotRecord_congr hi hlog',
      hrec i hi, hslot, slotRecord_congr hi hlog,
      hblank i hi, Option.or_none]
    rfl
  rw [hdisk, RedoLog.replay_apply, RedoLog.top_congr hlayered]

theorem Consistent.mount_disk (partLba : UInt64) {partSectors : UInt64}
    (hsize : ¬ partSectors < 256 * 2 + 16) {last : Disk}
    (h : Consistent (logBase partLba partSectors) last vol) :
    (mountJournal partLba partSectors vol).disk = vol.disk := by
  obtain ⟨-, -, -, -, hlog⟩ := mountJournal_spec partLba hsize h.outside
  funext x
  cases hx : inLog (logBase partLba partSectors) x with
  | true => exact hlog x hx
  | false =>
    rw [recover partLba hsize h.outside (fun _ _ => rfl) h.current h.safe.replay_eq x hx,
      h.current x hx]

/-- Any number of completed calls on a volume whose journal is in use, none of whose writes a
replay will undo: whenever the system is started next, the replay leaves every sector as it
is. -/
theorem replay_keeps_sectors {v : Mount} {l : Layout} {partSectors : UInt64}
    (hsize : ¬ partSectors < 256 * 2 + 16) (vol : Volume)
    (hout : LogOutside (logBase l.partLba partSectors) vol.disk) (img : Image)
    (calls : List (Traced v l))
    (hkept : Run.Meets Traced.step (Traced.Kept (logBase l.partLba partSectors))
      ⟨img, mountJournal l.partLba partSectors vol⟩ calls) (n : ℕ) :
    let s := (calls.take n).foldl Traced.step ⟨img, mountJournal l.partLba partSectors vol⟩
    (mountJournal l.partLba partSectors s.vol).disk = s.vol.disk := by
  obtain ⟨last, h⟩ := Run.invariant_take Traced.step_consistent
    ⟨_, mountJournal_consistent l.partLba hsize hout⟩ hkept n
  exact h.mount_disk l.partLba hsize

/-! ## Three small files -/

/-- Clusters of eight sectors and records of two, the first of them in sector 32. -/
def smallLayout : Layout := ⟨0, 8, 4, 2⟩

/-- A volume with an empty root. -/
def emptyVolume : Image :=
  smallVolume [(0, fileRecord 400 (.nonResident [⟨4, 16, false⟩] 65536 65536)),
    (5, smallDirectory [])]

/-- A sector of metadata, of which only the update sequence number at its end matters here. -/
def stamped (usn : UInt8) : Sector := fun i => if i = 510 then usn else 0

def recordIssued (number : ℕ) (r : Record) (usn : UInt8) : Issued smallMount smallLayout where
  change := .record number r
  payload := [stamped usn, stamped usn]
  whole := rfl
  contents := by
    intro _ _ h
    cases h

def emptyFile (number : ℕ) (letter : UInt8) : Entry :=
  ixMakeEntry (packRef number 1) [letter] false 0 0 0

/-- An empty file in the root, which then lists the files given. -/
def created (number : ℕ) (letter : UInt8) (files : List Entry)
    (usn : UInt8) : Traced smallMount smallLayout where
  call := .create 0 5 [letter] []
  issued := [recordIssued number (fileRecord (fileUsed smallMount [letter] 24) (.resident [])) 1,
    recordIssued 5 (smallDirectory files) usn]

def createdA : Traced smallMount smallLayout := created 16 0x61 [emptyFile 16 0x61] 2

def createdB : Traced smallMount smallLayout :=
  created 17 0x62 [emptyFile 16 0x61, emptyFile 17 0x62] 3

def createdC : Traced smallMount smallLayout :=
  created 18 0x63 [emptyFile 16 0x61, emptyFile 17 0x62, emptyFile 18 0x63] 4

/-- An empty volume and an empty log of sixteen megabytes, after the first mount. -/
def emptySession : Session := ⟨emptyVolume, mountJournal 0 32768 blankVolume⟩

theorem createdA_kept : createdA.Kept (logBase 0 32768) emptySession := by
  unfold Traced.Kept
  decide +kernel

/-- After one file is created, a restart changes nothing. -/
theorem replay_keeps_file_a :
    (mountJournal 0 32768 (createdA.step emptySession).vol).disk =
      (createdA.step emptySession).vol.disk :=
  replay_keeps_sectors (show ¬ (32768 : UInt64) < 256 * 2 + 16 by decide) blankVolume
    (blankVolume_outside _) emptyVolume [createdA] ⟨createdA_kept, trivial⟩ 1

/-- The session after a restart writes its log from the first slot on again. It creates one more
file, and the next start puts back the root's record without it: that record is still in the
slots after those in use. -/
theorem restart_reverts_root :
    let first := [createdA, createdB].foldl Traced.step emptySession
    let second : Session := ⟨first.img, mountJournal 0 32768 first.vol⟩
    let s := createdC.step second
    LogOutside (logBase 0 32768) first.vol.disk ∧ createdC.Follows second.img ∧
      s.vol.disk 42 = stamped 4 ∧ (mountJournal 0 32768 s.vol).disk 42 = stamped 3 := by
  obtain ⟨hout, hdisk⟩ := two_sessions 0 (show ¬ (32768 : UInt64) < 256 * 2 + 16 by decide)
    (fun i _ => blankVolume_record _ i) ([createdA, createdB].flatMap Traced.writes)
    createdC.writes (by decide +kernel) (by decide +kernel) (by decide +kernel) (by decide +kernel)
  have hfirst := foldl_step_vol [createdA, createdB] emptySession
  have htop : RedoLog.top (layered ([createdA, createdB].flatMap Traced.writes) createdC.writes)
      (List.range 128) 42 = some (stamped 3) := by decide +kernel
  have hback := hdisk 42
  have hstart : emptySession.vol = mountJournal 0 32768 blankVolume := rfl
  simp only [Traced.step_vol, hfirst, hstart]
  exact ⟨hout, rfl, by decide +kernel, hback⟩

end Vextro.Ntfs
