import Vextro.Model.Stdio
import Vextro.Verification.Shared.Buffer
import Mathlib.Algebra.Order.Group.Nat
import Vextro.Verification.Shared.Run

/-! A buffered stream next to a file with a cursor. -/

namespace Vextro.Stdio

open List

/-! ## Writing -/

theorem length_overwrite (data : List UInt8) (start : ℕ) (bytes : List UInt8) :
    (overwrite data start bytes).length = max data.length (start + bytes.length) := by
  simp only [overwrite, length_append, length_take, length_replicate, length_drop]
  omega

theorem getElem?_overwrite (data : List UInt8) (start : ℕ) (bytes : List UInt8) (i : ℕ) :
    (overwrite data start bytes)[i]? =
      if i < start then (if i < data.length then data[i]? else some 0)
      else if i < start + bytes.length then bytes[i - start]? else data[i]? := by
  rw [overwrite, ← Buffer.getElem?_overlay, Buffer.overlay, take_append, take_replicate,
    Nat.min_self]

theorem overwrite_overwrite (data : List UInt8) (start : ℕ) (xs ys : List UInt8) :
    overwrite (overwrite data start xs) (start + xs.length) ys = overwrite data start
      (xs ++ ys) := by
  apply ext_getElem?
  intro i
  rw [getElem?_overwrite, getElem?_overwrite, getElem?_overwrite, length_overwrite, length_append]
  by_cases h1 : i < start
  · rw [if_pos (by omega), if_pos (by omega), if_pos h1, if_pos h1]
  by_cases h2 : i < start + xs.length
  · rw [if_pos h2, if_pos (by omega), if_neg h1, if_pos h2, if_neg h1, if_pos (by omega),
      List.getElem?_append_left (by omega)]
  rw [if_neg h2, if_neg h1, if_neg h2, if_neg h1, ← Nat.add_assoc]
  by_cases h3 : i < start + xs.length + ys.length
  · rw [if_pos h3, if_pos h3, List.getElem?_append_right (by omega), Nat.sub_sub]
  · rw [if_neg h3, if_neg h3]

namespace File

/-- Two writes in a row are one. -/
theorem write_write (f : File) (xs ys : List UInt8) :
    (f.write xs).write ys = f.write (xs ++ ys) := by
  unfold write
  cases happend : f.append with
  | false =>
    simp only [Bool.false_eq_true, if_false, overwrite_overwrite, length_append, Nat.add_assoc]
  | true =>
    have hlength : (overwrite f.data f.data.length xs).length = f.data.length + xs.length := by
      rw [length_overwrite]
      omega
    simp only [if_true, hlength, overwrite_overwrite, length_append, Nat.add_assoc]

/-! ## Reading -/

theorem read_zero (f : File) : f.read 0 = (f, []) := by
  simp [read]

theorem read_length_le (f : File) (n : ℕ) : (f.read n).2.length ≤ n := length_take_le ..

/-- One read is as good as two in a row. -/
theorem read_add (f : File) (m n : ℕ) :
    f.read (m + n) = (((f.read m).1.read n).1, (f.read m).2 ++ ((f.read m).1.read n).2) := by
  have hbytes : (f.data.drop f.offset).take (m + n) = (f.data.drop f.offset).take m ++
      (f.data.drop (f.offset + ((f.data.drop f.offset).take m).length)).take n := by
    rw [take_add, ← drop_drop]
    congr 1
    rw [length_take]
    rcases Nat.le_total m (f.data.drop f.offset).length with h | h
    · rw [Nat.min_eq_left h]
    · rw [Nat.min_eq_right h, drop_eq_nil_of_le h, drop_eq_nil_of_le le_rfl]
  simp only [read]
  rw [hbytes, length_append, Nat.add_assoc]

theorem read_length (f : File) (n : ℕ) : f.read (f.read n).2.length = f.read n := by
  have hbytes : (f.data.drop f.offset).take
      ((f.data.drop f.offset).take n).length = (f.data.drop f.offset).take n := by
    rw [length_take, ← take_take, take_length]
  simp only [read]
  rw [hbytes]

theorem read_rest (f : File) (n : ℕ) :
    (f.read n).1.read (n - (f.read n).2.length) = ((f.read n).1, []) := by
  have hsum : n = (f.read n).2.length + (n - (f.read n).2.length) := by
    have := f.read_length_le n
    omega
  have hadd := f.read_add (f.read n).2.length (n - (f.read n).2.length)
  rw [← hsum, f.read_length n] at hadd
  have hnil : ((f.read n).1.read (n - (f.read n).2.length)).2 = [] := by
    have := congrArg (·.2.length) hadd
    simpa using this
  exact Prod.ext (congrArg Prod.fst hadd).symm hnil

/-- A file that has nothing to read for one request has nothing for any. -/
theorem read_eq_nil {f : File} {m : ℕ} (h : (f.read m).2 = []) (hm : m ≠ 0) (n : ℕ) :
    f.read n = (f, []) := by
  have hnil : f.data.drop f.offset = [] := (take_eq_nil_iff.mp h).resolve_left hm
  simp [read, hnil]

end File

/-! ## The file with a cursor -/

/-- A file that is read and written at a cursor, with one byte of pushback. -/
structure Cursor where
  file : File
  readable : Bool
  writable : Bool
  ungot : Option UInt8
deriving DecidableEq

variable {s : Stream} {c : Cursor}

namespace Cursor

def opened (access : Access) (plus : Bool) (data : List UInt8) : Cursor where
  file := ⟨if access = .w then [] else data, 0, access = .a⟩
  readable := plus || access = .r
  writable := plus || access ≠ .r
  ungot := none

def getc (c : Cursor) : Cursor × Option UInt8 :=
  if !c.readable then (c, none)
  else
    match c.ungot with
    | some x => ({ c with ungot := none }, some x)
    | none => ({ c with file := (c.file.read 1).1 }, (c.file.read 1).2.head?)

/-- The place that the caller is at. -/
def place (c : Cursor) : ℤ := if c.ungot ≠ none then (c.file.offset : ℤ) - 1 else c.file.offset

/-- The place that a seek goes to. -/
def target (c : Cursor) (off : ℤ) : Whence → ℤ
  | .seekSet => off
  | .seekCur => c.place + off
  | .seekEnd => c.file.data.length + off

def step (c : Cursor) : Op → Cursor × Answer
  | .fgetc => (c.getc.1, .char c.getc.2)
  | .fread size count =>
    if size = 0 ∨ count = 0 ∨ 2 ^ 64 ≤ size * count ∨ c.readable = false then (c, .block 0 [])
    else
      let r := c.file.read (size * count - c.ungot.toList.length)
      ({ c with file := r.1, ungot := none },
        .block ((c.ungot.toList ++ r.2).length / size) (c.ungot.toList ++ r.2))
  | .ungetc x =>
    if x = none ∨ c.ungot ≠ none then (c, .char none) else ({ c with ungot := x }, .char x)
  | .fgets cap => ((fgets getc c cap).1, .line (fgets getc c cap).2)
  | .fputc x =>
    if !c.writable then (c, .char none) else ({ c with file := c.file.write [x] }, .char (some x))
  | .fwrite p size count =>
    if size = 0 ∨ count = 0 ∨ 2 ^ 64 ≤ size * count ∨ c.writable = false then (c, .number 0)
    else ({ c with file := c.file.write (bytesAt p (size * count)) }, .number count)
  | .fflush => (c, .number 0)
  | .fseek off whence =>
    if c.target off whence < 0 then (c, .number (-1))
    else ({ c with file := { c.file with offset := (c.target off whence).toNat }, ungot := none },
      .number 0)
  | .ftell => (c, .number c.place)

end Cursor

/-! ## The relation -/

namespace Stream

/-- The file, once what is pending is written. -/
def settled (s : Stream) : File := if s.dirty then s.file.write s.held else s.file

/-- What has been read from the file and not been handed out. -/
def ahead (s : Stream) : List UInt8 := if s.dirty then [] else s.held.drop s.pos

end Stream

/-- The descriptor is where the cursor would be after reading what the stream holds. -/
structure Shows (s : Stream) (c : Cursor) : Prop where
  readable : c.readable = s.readable
  writable : c.writable = s.writable
  ungot : c.ungot = s.ungot
  file : c.file.read s.ahead.length = (s.settled, s.ahead)
  pending : s.dirty = true → s.held ≠ [] ∧ s.buffered = true
  plain : s.buffered = false → s.held = []
  small : s.held.length ≤ vxfBufsz

namespace Shows

theorem of_dirty (h : s.dirty) : s.ahead = [] ∧ s.settled = s.file.write s.held := by
  simp [Stream.ahead, Stream.settled, h]

theorem of_clean (h : s.dirty = false) : s.ahead = s.held.drop s.pos ∧ s.settled = s.file := by
  simp [Stream.ahead, Stream.settled, h]

/-- With nothing read ahead, the cursor is where the file is. -/
theorem file_eq (h : Shows s c) (ha : s.ahead = []) : c.file = s.settled := by
  have hfile := h.file
  rw [ha, List.length_nil] at hfile
  exact congrArg Prod.fst hfile

theorem data_eq (h : Shows s c) :
    c.file.data = s.settled.data ∧ c.file.append = s.settled.append := by
  have hfile : (c.file.read s.ahead.length).1 = s.settled := congrArg Prod.fst h.file
  rw [← hfile]
  exact ⟨rfl, rfl⟩

theorem offset_eq (h : Shows s c) : c.file.offset + s.ahead.length = s.settled.offset := by
  have hbytes := congrArg (fun r => r.2.length) h.file
  have hoffset := congrArg (fun r => r.1.offset) h.file
  simp only [File.read] at hbytes hoffset
  omega

/-- A stream that is clean and holds nothing that is not handed out. -/
theorem of_file (hr : c.readable = s.readable)
    (hw : c.writable = s.writable) (hu : c.ungot = s.ungot) (hf : c.file = s.file)
    (hd : s.dirty = false) (ha : s.held.drop s.pos = []) (hp : s.buffered = false → s.held = [])
    (hs : s.held.length ≤ vxfBufsz) : Shows s c := by
  obtain ⟨hahead, hsettled⟩ := of_clean hd
  refine ⟨hr, hw, hu, ?_, fun h => absurd h (by simp [hd]), hp, hs⟩
  rw [hahead, ha, hsettled, hf, List.length_nil, File.read_zero]

theorem opened (access : Access) (plus memory : Bool) (data : List UInt8) :
    Shows (fopen access plus memory data) (.opened access plus data) :=
  of_file rfl rfl rfl rfl rfl rfl (fun _ => rfl) (Nat.zero_le _)

end Shows

/-! ## Draining -/

theorem vxDrain_of_dirty (hd : s.dirty) (hh : s.held ≠ []) :
    vxDrain s = { s with file := s.file.write s.held, held := [], dirty := false } := by
  simp [vxDrain, hd, hh]

theorem vxDrain_of_clean (hd : s.dirty = false) : vxDrain s = { s with held := [] } := by
  simp_all [vxDrain]

theorem vxDrain_file (h : Shows s c) : (vxDrain s).file = s.settled := by
  cases hd : s.dirty with
  | true => rw [vxDrain_of_dirty hd (h.pending hd).1, (Shows.of_dirty hd).2]
  | false => rw [vxDrain_of_clean hd, (Shows.of_clean hd).2]

/-- Draining changes the file and the buffer only. -/
theorem vxDrain_frame (s : Stream) :
    (vxDrain s).readable = s.readable ∧ (vxDrain s).writable = s.writable ∧
    (vxDrain s).ungot = s.ungot ∧ (vxDrain s).buffered = s.buffered ∧ (vxDrain s).dirty = false ∧
    (vxDrain s).held = [] := by
  unfold vxDrain
  split <;> exact ⟨rfl, rfl, rfl, rfl, rfl, rfl⟩

/-- Draining is not seen, unless there is something read ahead. -/
theorem vxDrain_shows (h : Shows s c) (ha : s.ahead = []) : Shows (vxDrain s) c := by
  obtain ⟨hr, hw, hu, -, hd, hh⟩ := vxDrain_frame s
  exact .of_file (h.readable.trans hr.symm) (h.writable.trans hw.symm) (h.ungot.trans hu.symm)
    ((h.file_eq ha).trans (vxDrain_file h).symm) hd (by rw [hh, List.drop_nil])
    (fun _ => hh) (by simp [hh])

theorem drainDirty_shows (h : Shows s c) :
    Shows (if s.dirty then vxDrain s else s) c ∧
    (if s.dirty then vxDrain s else s).dirty = false := by
  cases hd : s.dirty with
  | true => exact ⟨vxDrain_shows h (Shows.of_dirty hd).1, (vxDrain_frame s).2.2.2.2.1⟩
  | false => exact ⟨h, hd⟩

/-! ## Reading -/

section Reading

/-- Bytes are taken out of the buffer. -/
theorem Shows.advance (h : Shows s c) (hd : s.dirty = false) {n : ℕ} (hn : n ≤ s.ahead.length) :
    Shows { s with pos := s.pos + n } { c with file := (c.file.read n).1 } ∧
    (c.file.read n).2 = s.ahead.take n := by
  have hahead := (of_clean hd).1
  have hrest : Stream.ahead { s with pos := s.pos + n } = s.ahead.drop n := by
    rw [hahead, List.drop_drop]
    exact (of_clean (s := { s with pos := s.pos + n }) hd).1
  have hread := h.file
  rw [← Nat.add_sub_cancel' hn, File.read_add] at hread
  obtain ⟨hfile, hbytes⟩ := Prod.mk.inj hread
  have hlen : (c.file.read n).2.length = n := by
    have hall := congrArg List.length hbytes
    rw [List.length_append] at hall
    have := c.file.read_length_le n
    have := (c.file.read n).1.read_length_le (s.ahead.length - n)
    omega
  have htake : (c.file.read n).2 = s.ahead.take n := by
    rw [← hbytes, List.take_left' hlen]
  refine ⟨⟨h.readable, h.writable, h.ungot, ?_, h.pending, h.plain, h.small⟩, htake⟩
  rw [hrest, List.length_drop]
  refine Prod.ext hfile ?_
  rw [← List.append_cancel_left_eq (c.file.read n).2, hbytes, htake, List.take_append_drop]

/-- Filling the buffer moves nothing that can be seen. -/
theorem vxFill_shows (h : Shows s c) (hd : s.dirty = false) (ha : s.ahead = []) (hb : s.buffered) :
    Shows (vxFill s) c ∧ (vxFill s).dirty = false ∧ (vxFill s).ahead = (s.file.read vxfBufsz).2 ∧
      c.file = s.file := by
  have hfile : c.file = s.file := (h.file_eq ha).trans (Shows.of_clean hd).2
  have hahead : (vxFill s).ahead = (s.file.read vxfBufsz).2 := (Shows.of_clean (s := vxFill s) hd).1
  refine ⟨⟨h.readable, h.writable, h.ungot,
      ?_, fun hdirty => absurd (hd.symm.trans hdirty) Bool.false_ne_true, fun hplain =>
      absurd (hb.symm.trans hplain) (by decide), File.read_length_le _ _⟩, hd, hahead, hfile⟩
  rw [hahead, (Shows.of_clean (s := vxFill s) hd).2, hfile, File.read_length]
  rfl

/-- The buffer holds what comes next, unless it is the end of the file. -/
theorem refill_shows (h : Shows s c) (hd : s.dirty = false) (hb : s.buffered) :
    Shows (if s.held.length ≤ s.pos then vxFill s else s) c ∧
      (if s.held.length ≤ s.pos then vxFill s else s).dirty = false ∧
      ((if s.held.length ≤ s.pos then vxFill s else s).ahead = [] →
        c.file.read 1 = (c.file, [])) := by
  split
  · next hle =>
      have ha : s.ahead = [] := by rw [(Shows.of_clean hd).1, List.drop_eq_nil_of_le hle]
      obtain ⟨h2, hd2, ha2, hfile⟩ := vxFill_shows h hd ha hb
      refine ⟨h2, hd2, fun hnil => ?_⟩
      rw [ha2] at hnil
      rw [hfile]
      exact File.read_eq_nil hnil (by decide) 1
  · next hlt =>
      refine ⟨h, hd, fun hnil => ?_⟩
      rw [(Shows.of_clean hd).1, List.drop_eq_nil_iff] at hnil
      exact absurd hnil hlt

/-- A byte is the one that was pushed back, or the next. -/
theorem fgetc_shows (h : Shows s c) : Shows (fgetc s).1 c.getc.1 ∧ (fgetc s).2 = c.getc.2 := by
  obtain ⟨file, readable, writable, ungot⟩ := c
  obtain rfl : readable = s.readable := h.readable
  obtain rfl : ungot = s.ungot := h.ungot
  unfold fgetc Cursor.getc
  by_cases hr : s.readable = true
  · rw [hr] at h
    simp only [hr, Bool.not_true, Bool.false_eq_true, if_false]
    cases hu : s.ungot with
    | some x => exact ⟨⟨rfl, h.writable, rfl, h.file, h.pending, h.plain, h.small⟩, rfl⟩
    | none =>
      rw [hu] at h
      obtain ⟨h1, hd1⟩ := drainDirty_shows h
      generalize (if s.dirty then vxDrain s else s) = s1 at h1 hd1 ⊢
      cases hb : s1.buffered with
      | false =>
        have hheld := h1.plain hb
        have hfile : file = s1.file :=
          (h1.file_eq (by rw [(Shows.of_clean hd1).1, hheld, List.drop_nil])).trans
          (Shows.of_clean hd1).2
        simp only [Bool.not_false, if_true, hfile, and_true]
        exact .of_file h1.readable h1.writable h1.ungot rfl hd1 (by simp [hheld])
          (fun _ => hheld) h1.small
      | true =>
        obtain ⟨h2, hd2, heof⟩ := refill_shows h1 hd1 hb
        generalize (if s1.held.length ≤ s1.pos then vxFill s1 else s1) = s2 at h2 hd2 heof ⊢
        rw [← (Shows.of_clean hd2).1]
        cases hahead : s2.ahead with
        | nil =>
          have hread : file.read 1 = (file, []) := heof hahead
          rw [hread]
          exact ⟨h2, rfl⟩
        | cons x rest =>
          obtain ⟨h3, hbytes⟩ := h2.advance hd2 (n := 1) (by rw [hahead]; simp)
          rw [hahead] at hbytes
          exact ⟨h3, (congrArg List.head? hbytes).symm⟩
  · rw [Bool.not_eq_true] at hr
    rw [hr] at h
    simp only [hr, Bool.not_false, if_true, and_true]
    exact h

theorem getsLoop_shows (n : ℕ) (h : Shows s c) :
    Shows (getsLoop fgetc n s).1 (getsLoop Cursor.getc n c).1 ∧
    (getsLoop fgetc n s).2 = (getsLoop Cursor.getc n c).2 := by
  induction n generalizing s c with
  | zero => exact ⟨h, rfl⟩
  | succ n ih =>
    obtain ⟨hnext, hsame⟩ := fgetc_shows h
    rw [getsLoop, getsLoop]
    rcases hg : fgetc s with ⟨s1, x⟩
    rcases hc : c.getc with ⟨c1, y⟩
    rw [hg, hc] at hnext hsame
    obtain rfl : x = y := hsame
    cases x with
    | none => exact ⟨hnext, rfl⟩
    | some x =>
      simp only
      split
      · exact ⟨hnext, rfl⟩
      · exact ⟨(ih hnext).1, by rw [(ih hnext).2]⟩

/-- The rest of a read, once the buffer is used up. -/
theorem freadLoop_shows (fuel want : ℕ) (hfuel : want ≤ fuel) (h : Shows s c) (hd : s.dirty = false)
    (ha : s.ahead = []) :
    Shows (freadLoop fuel s want).1 { c with file := (c.file.read want).1 } ∧
      (freadLoop fuel s want).2 = (c.file.read want).2 := by
  induction fuel generalizing s c want with
  | zero =>
    obtain rfl : want = 0 := by omega
    exact ⟨h, rfl⟩
  | succ fuel ih =>
    have hfile : c.file = s.file := (h.file_eq ha).trans (Shows.of_clean hd).2
    rw [freadLoop]
    by_cases h0 : want = 0
    · rw [h0]
      exact ⟨h, rfl⟩
    rw [if_neg h0]
    split
    · -- straight from the file
      have h1 : Shows { s with file := (s.file.read want).1 }
          { c with file := (c.file.read want).1 } := .of_file h.readable h.writable h.ungot
        (by rw [hfile]) hd (by rw [← (Shows.of_clean hd).1, ha]) h.plain h.small
      simp only
      split
      · next hnil =>
          rw [hfile] at h1 ⊢
          exact ⟨h1, (List.isEmpty_iff.mp hnil).symm⟩
      next hsome =>
        have hpos := List.length_pos_iff.mpr fun hnil => hsome (List.isEmpty_iff.mpr hnil)
        obtain ⟨h2, hbytes⟩ := ih (want - (s.file.read want).2.length) (by omega) h1 hd ha
        simp only [hfile, File.read_rest] at h2 hbytes ⊢
        exact ⟨h2, by rw [hbytes, List.append_nil]⟩
    · -- by way of the buffer
      next hbuf =>
        have hb : s.buffered := by
          cases hs : s.buffered <;> simp_all
        obtain ⟨h1, hd1, ha1, -⟩ := vxFill_shows h hd ha hb
        have hheld : (vxFill s).ahead = (vxFill s).held := (Shows.of_clean hd1).1
        have hheld' : (vxFill s).held = (s.file.read vxfBufsz).2 := rfl
        simp only
        split
        · next hnil =>
            rw [List.isEmpty_iff] at hnil
            rw [hfile, File.read_eq_nil hnil (by decide) want, ← hfile]
            exact ⟨h1, rfl⟩
        next hsome =>
          have hpos := List.length_pos_iff.mpr fun hnil => hsome (List.isEmpty_iff.mpr hnil)
          obtain ⟨h2, hbytes⟩ := h1.advance hd1 (n := min (vxFill s).held.length want)
            (by rw [hheld]; exact Nat.min_le_left ..)
          have hzero : (vxFill s).pos = 0 := rfl
          rw [hzero, Nat.zero_add] at h2
          rw [hheld] at hbytes
          generalize hn : min (vxFill s).held.length want = n at h2 hbytes ⊢
          rcases Nat.lt_or_ge n want with hlt | hge
          · obtain ⟨h3, hbytes'⟩ := ih (want - n) (by omega) h2 hd1 (by
              rw [(Shows.of_clean (s := { vxFill s with pos := n }) hd1).1]
              show (vxFill s).held.drop n = []
              exact List.drop_eq_nil_of_le (by omega))
            have hread := c.file.read_add n (want - n)
            rw [Nat.add_sub_cancel' hlt.le] at hread
            rw [hread]
            exact ⟨h3, by rw [hbytes', ← hbytes]⟩
          · obtain rfl : n = want := by omega
            rw [hbytes]
            cases fuel with
            | zero => exact ⟨h2, by simp [freadLoop]⟩
            | succ fuel => exact ⟨by simpa [freadLoop] using h2, by simp [freadLoop]⟩

end Reading

theorem fread_shows (h : Shows s c) (size count : ℕ) :
    Shows (step s (.fread size count)).1 (c.step (.fread size count)).1 ∧
      (step s (.fread size count)).2 = (c.step (.fread size count)).2 := by
  simp only [step, fread, Cursor.step, h.readable]
  split
  · exact ⟨h, rfl⟩
  obtain ⟨h1, hd1⟩ := drainDirty_shows h
  generalize (if s.dirty then vxDrain s else s) = s1 at h1 hd1 ⊢
  rw [← h1.ungot]
  -- the byte that was pushed back, what is in the buffer, and the rest
  have h2 : Shows { s1 with ungot := none } { c with ungot := none } :=
    ⟨h1.readable, h1.writable, rfl, h1.file, h1.pending, h1.plain, h1.small⟩
  generalize size * count - c.ungot.toList.length = n
  have hahead : s1.held.drop s1.pos = s1.ahead := (Shows.of_clean hd1).1.symm
  simp only [hahead]
  obtain ⟨h3, hbytes⟩ := h2.advance hd1 (n := (s1.ahead.take n).length) (by
    rw [List.length_take]
    exact Nat.min_le_right ..)
  have hbytes' : (c.file.read (s1.ahead.take n).length).2 = s1.ahead.take n := by
    refine hbytes.trans ?_
    show s1.ahead.take (s1.ahead.take n).length = s1.ahead.take n
    rw [List.length_take, ← List.take_take, List.take_length]
  have hle : (s1.ahead.take n).length ≤ n := List.length_take_le ..
  have hread := c.file.read_add (s1.ahead.take n).length (n - (s1.ahead.take n).length)
  rw [Nat.add_sub_cancel' hle, hbytes'] at hread
  have hloop : ∀ s2 : Stream,
      s2 = { s1 with pos := s1.pos + (s1.ahead.take n).length, ungot := none } →
      Shows (freadLoop (n - (s1.ahead.take n).length) s2 (n - (s1.ahead.take n).length)).1
      { c with file := (c.file.read n).1, ungot := none } ∧ s1.ahead.take n ++
      (freadLoop (n - (s1.ahead.take n).length) s2 (n - (s1.ahead.take n).length)).2 =
      (c.file.read n).2 := by
    rintro s2 rfl
    rw [hread]
    by_cases hn : n ≤ s1.ahead.length
    · rw [List.length_take, Nat.min_eq_left hn, Nat.sub_self, freadLoop] at *
      exact ⟨h3, rfl⟩
    have hnil :
        Stream.ahead { s1 with pos := s1.pos + (s1.ahead.take n).length, ungot := none } = [] := by
      rw [(Shows.of_clean (s := { s1 with pos := s1.pos + (s1.ahead.take n).length, ungot := none })
          hd1).1, ← List.drop_drop]
      rw [hahead]
      exact List.drop_eq_nil_of_le (by rw [List.length_take]; omega)
    obtain ⟨h4, hrest⟩ := freadLoop_shows _ _ le_rfl h3 hd1 hnil
    exact ⟨h4, by rw [hrest]⟩
  obtain ⟨h4, hall⟩ := hloop _ rfl
  refine ⟨?_, ?_⟩
  · simpa only [h.readable] using h4
  · simp only [List.append_assoc, hall]

/-! ## Writing -/

section Writing

/-- The buffer holds output, or nothing. -/
def Stream.empties (s : Stream) : Bool := s.dirty || s.held.isEmpty

theorem ahead_of_empties (he : s.empties) : s.ahead = [] := by
  unfold Stream.ahead
  split
  · rfl
  next hd =>
    have hheld : s.held = [] := by simpa [Stream.empties, hd] using he
    rw [hheld, List.drop_nil]

section

variable (h : Shows s c)
include h

/-- Bytes that fit are added to the buffer. -/
theorem Shows.put (he : s.empties) (hb : s.buffered) {bytes : List UInt8}
    (hne : bytes ≠ []) (hfit : s.held.length + bytes.length ≤ vxfBufsz) :
    Shows { s with held := s.held ++ bytes, dirty := true }
      { c with file := c.file.write bytes } := by
  have hfile := h.file_eq (ahead_of_empties he)
  refine ⟨h.readable, h.writable, h.ungot, ?_, fun _ => ⟨by simp [hne], hb⟩,
    fun hplain => absurd (hb.symm.trans hplain) (by decide), by simpa using hfit⟩
  have hwrite : c.file.write bytes = s.file.write (s.held ++ bytes) := by
    rw [hfile]
    cases hd : s.dirty with
    | true => rw [(of_dirty hd).2, File.write_write]
    | false =>
      have hheld : s.held = [] := by simpa [Stream.empties, hd] using he
      rw [(of_clean hd).2, hheld, List.nil_append]
  show (c.file.write bytes).read 0 = (s.file.write (s.held ++ bytes), [])
  rw [File.read_zero, hwrite]

/-- Bytes that go past the buffer, once it is drained. -/
theorem Shows.putThrough (ha : s.ahead = []) (bytes : List UInt8) :
    Shows { vxDrain s with file := (vxDrain s).file.write bytes }
      { c with file := c.file.write bytes } := by
  have hdrained := vxDrain_shows h ha
  obtain ⟨-, -, -, -, hd, hheld⟩ := vxDrain_frame s
  refine .of_file hdrained.readable hdrained.writable hdrained.ungot ?_ hd ?_
    (fun _ => hheld) hdrained.small
  · rw [h.file_eq ha, vxDrain_file h]
  · rw [hheld, List.drop_nil]

/-- A full buffer is drained before it takes more. -/
theorem makeRoom_shows (he : s.empties) (full : Prop) [Decidable full] :
    Shows (if full then vxDrain s else s) c ∧ (if full then vxDrain s else s).empties ∧
      (if full then vxDrain s else s).buffered = s.buffered ∧
      (if full then vxDrain s else s).held = if full then [] else s.held := by
  obtain ⟨-, -, -, hb, -, hheld⟩ := vxDrain_frame s
  split
  · exact ⟨vxDrain_shows h (ahead_of_empties he), by simp [Stream.empties, hheld], hb, hheld⟩
  · exact ⟨h, he, rfl, rfl⟩

theorem fputc_shows (he : s.empties) (x : UInt8) :
    Shows (step s (.fputc x)).1 (c.step (.fputc x)).1 ∧
    (step s (.fputc x)).2 = (c.step (.fputc x)).2 := by
  simp only [step, fputc, Cursor.step, h.writable]
  by_cases hw : s.writable = true
  · simp only [hw, Bool.not_true, Bool.false_eq_true, if_false]
    cases hb : s.buffered with
    | false =>
      have hheld := h.plain hb
      have hd : s.dirty = false := by
        cases hd : s.dirty with
        | false => rfl
        | true => exact absurd ((h.pending hd).2.symm.trans hb) (by decide)
      have hfile := (h.file_eq (ahead_of_empties he)).trans (Shows.of_clean hd).2
      simp only [Bool.not_false, if_true, and_true]
      exact .of_file h.readable rfl h.ungot (by rw [hfile]) hd (by simp [hheld])
        (fun _ => hheld) h.small
    | true =>
      obtain ⟨h1, he1, hb1, hheld⟩ := makeRoom_shows h he (s.held.length = vxfBufsz)
      simp only [Bool.not_true, Bool.false_eq_true, if_false, and_true]
      have hput := h1.put he1 (hb1.trans hb) (List.cons_ne_nil x []) (by
        have := h.small
        rw [hheld]
        unfold vxfBufsz at *
        split
        · simp
        · simp only [List.length_singleton]
          omega)
      have hwritable : c.writable := h.writable.trans hw
      rwa [hwritable] at hput
  · simp only [hw, Bool.not_false, if_true, and_true]
    exact h

theorem fwrite_shows (he : s.empties) (p : ℕ → UInt8) (size count : ℕ) :
    Shows (step s (.fwrite p size count)).1 (c.step (.fwrite p size count)).1 ∧
      (step s (.fwrite p size count)).2 = (c.step (.fwrite p size count)).2 := by
  simp only [step, fwrite, Cursor.step, h.writable]
  split
  · exact ⟨h, rfl⟩
  next hsome =>
    obtain ⟨hsize, hcount, -, -⟩ : size ≠ 0 ∧ count ≠ 0 ∧ ¬ 2 ^ 64 ≤ size * count ∧
        s.writable ≠ false := by
      simpa [not_or] using hsome
    rw [← h.writable]
    split
    · refine ⟨h.putThrough (ahead_of_empties he) _, ?_⟩
      rw [Nat.mul_div_cancel_left _ (Nat.pos_of_ne_zero hsize)]
    next hsmall =>
      obtain ⟨hb, hlt⟩ : s.buffered = true ∧ size * count < vxfBufsz := by simpa using hsmall
      obtain ⟨h1, he1, hb1, hheld⟩ := makeRoom_shows h he (vxfBufsz < s.held.length + size * count)
      have hlength : (bytesAt p (size * count)).length = size * count := by simp [bytesAt]
      have hne : bytesAt p (size * count) ≠ [] := by
        intro hnil
        rw [hnil] at hlength
        exact (Nat.mul_ne_zero hsize hcount) hlength.symm
      refine ⟨h1.put he1 (hb1.trans hb) hne ?_, rfl⟩
      rw [hheld]
      split
      · simp only [List.length_nil]
        omega
      · omega

end

end Writing

/-! ## Positions -/

/-- The offset of a seek from a byte that was pushed back. -/
def Stream.shift (s : Stream) (off : ℤ) (whence : Whence) : ℤ :=
  if whence = .seekCur ∧ s.ungot ≠ none then off - 1 else off

/-- A seek relative to the cursor, or one that fails, finds nothing read ahead; and one that fails
finds no byte that was pushed back. -/
def Stream.seeks (s : Stream) (off : ℤ) (whence : Whence) : Bool :=
  (whence ≠ .seekCur || s.ahead.isEmpty) &&
    (0 ≤ s.settled.target (s.shift off whence) whence || s.ahead.isEmpty && s.ungot.isNone)

section Positions

theorem fseek_eq (h : Shows s c) (off : ℤ) (whence : Whence) :
    fseek s off whence =
      ({ vxDrain s with
          file := (s.settled.lseek (s.shift off whence) whence).1
          pos := 0, held := [], ungot := none },
        if (s.settled.lseek (s.shift off whence) whence).2 < 0 then -1 else 0) := by
  obtain ⟨-, -, hu, -, -, hheld⟩ := vxDrain_frame s
  unfold fseek Stream.shift
  simp only [hheld, hu, List.length_nil, Nat.not_lt_zero, and_false, if_false, vxDrain_file h]

/-- A seek goes by the cursor and not by the file, which is ahead of it. -/
theorem target_eq (h : Shows s c) (off : ℤ) (whence : Whence)
    (ha : whence = .seekCur → s.ahead = []) :
    c.target off whence = s.settled.target (s.shift off whence) whence := by
  cases whence with
  | seekSet => simp [Cursor.target, File.target, Stream.shift]
  | seekEnd => simp [Cursor.target, File.target, Stream.shift, h.data_eq.1]
  | seekCur =>
    simp only [Cursor.target, File.target, Stream.shift, Cursor.place, h.file_eq (ha rfl), h.ungot,
      true_and]
    split <;> omega

theorem fseek_shows (h : Shows s c) (off : ℤ) (whence : Whence) (hs : s.seeks off whence) :
    Shows (step s (.fseek off whence)).1 (c.step (.fseek off whence)).1 ∧
      (step s (.fseek off whence)).2 = (c.step (.fseek off whence)).2 := by
  obtain ⟨hcur, hfail⟩ : (whence ≠ .seekCur ∨ s.ahead = []) ∧
      (0 ≤ s.settled.target (s.shift off whence) whence ∨ s.ahead = [] ∧ s.ungot = none) := by
    simpa [Stream.seeks] using hs
  have htarget := target_eq h off whence fun hw => hcur.resolve_left fun hne => hne hw
  obtain ⟨hr, hw, -, hb, hd, -⟩ := vxDrain_frame s
  have hsettled : ∀ file : File, ∀ c' : Cursor, c'.readable = c.readable →
      c'.writable = c.writable → c'.ungot = none → c'.file = file →
      Shows { vxDrain s with file := file, pos := 0, held := [], ungot := none } c' :=
    fun file c' hr' hw' hu hf =>
    .of_file (hr'.trans (h.readable.trans hr.symm))
    (hw'.trans (h.writable.trans hw.symm)) hu hf hd rfl
      (fun _ => rfl) (Nat.zero_le _)
  simp only [step, fseek_eq h, Cursor.step, File.lseek, htarget]
  by_cases hneg : s.settled.target (s.shift off whence) whence < 0
  · obtain ⟨ha, hu⟩ := hfail.resolve_left (by omega)
    simp only [hneg]
    exact ⟨hsettled _ _ rfl rfl (h.ungot.trans hu) (h.file_eq ha), rfl⟩
  simp only [hneg, if_false]
  refine ⟨hsettled _ _ rfl rfl rfl ?_, trivial⟩
  rw [h.data_eq.1, h.data_eq.2]

/-- The position counts what is read ahead and what was pushed back. -/
theorem ftell_shows (h : Shows s c) :
    Shows (step s .ftell).1 (c.step .ftell).1 ∧ (step s .ftell).2 = (c.step .ftell).2 := by
  obtain ⟨h1, hd1⟩ := drainDirty_shows h
  simp only [step, ftell]
  generalize (if s.dirty then vxDrain s else s) = s1 at h1 hd1 ⊢
  refine ⟨h1, congrArg Answer.number ?_⟩
  have hoffset := h1.offset_eq
  rw [(Shows.of_clean hd1).1, (Shows.of_clean hd1).2, List.length_drop] at hoffset
  unfold Cursor.place
  rw [← h1.ungot]
  split <;> split <;> omega

end Positions

/-! ## Whole runs -/

/-- What a call has to find for the buffer not to be seen. -/
def Op.finds (s : Stream) : Op → Bool
  | .fputc _ | .fwrite .. => s.empties
  | .fflush => s.ahead.isEmpty
  | .fseek off whence => s.seeks off whence
  | _ => true

theorem step_shows (h : Shows s c) (op : Op) (hop : op.finds s) :
    Shows (step s op).1 (c.step op).1 ∧ (step s op).2 = (c.step op).2 := by
  cases op with
  | fgetc => exact ⟨(fgetc_shows h).1, congrArg Answer.char (fgetc_shows h).2⟩
  | fread size count => exact fread_shows h size count
  | ungetc x =>
    simp only [step, ungetc, Cursor.step, h.ungot]
    split
    · exact ⟨h, rfl⟩
    · exact ⟨⟨h.readable, h.writable, rfl, h.file, h.pending, h.plain, h.small⟩, rfl⟩
  | fgets cap =>
    simp only [step, fgets, Cursor.step]
    split
    · exact ⟨h, rfl⟩
    · obtain ⟨hnext, hsame⟩ := getsLoop_shows (cap - 1) h
      exact ⟨hnext, by rw [hsame]⟩
  | fputc x => exact fputc_shows h hop x
  | fwrite p size count => exact fwrite_shows h hop p size count
  | fflush => exact ⟨vxDrain_shows h (List.isEmpty_iff.mp hop), rfl⟩
  | fseek off whence => exact fseek_shows h off whence hop
  | ftell => exact ftell_shows h

/-- The answers of a run. -/
def answers {σ : Type} (step : σ → Op → σ × Answer) : σ → List Op → List Answer
  | _, [] => []
  | s, op :: ops => (step s op).2 :: answers step (step s op).1 ops

/-- Answer by answer, for a whole run. -/
theorem run_shows (h : Shows s c) (ops : List Op)
    (hops : Run.Meets (fun s op => (step s op).1) (fun s op => op.finds s = true) s ops) :
    answers step s ops = answers Cursor.step c ops ∧
      Shows (ops.foldl (fun s op => (step s op).1) s)
      (ops.foldl (fun c op => (c.step op).1) c) := by
  induction ops generalizing s c with
  | nil => exact ⟨rfl, h⟩
  | cons op ops ih =>
    obtain ⟨hnext, hsame⟩ := step_shows h op hops.1
    obtain ⟨hrest, hend⟩ := ih hnext hops.2
    exact ⟨by rw [answers, answers, hsame, hrest], hend⟩

/-- A stream answers as the file with a cursor does, and what it has written is what that holds, in
every run in which output finds no input in the buffer, and flushes and seeks find nothing read
ahead. -/
theorem streams_transparent (access : Access) (plus memory : Bool) (data : List UInt8)
    (ops : List Op) (hops : Run.Meets (fun s op => (step s op).1) (fun s op =>
      op.finds s = true) (fopen access plus memory data) ops) (n : ℕ) :
    answers step (fopen access plus memory data) (ops.take n) =
        answers Cursor.step (.opened access plus data) (ops.take n) ∧
      (vxDrain ((ops.take n).foldl
          (fun s op => (step s op).1) (fopen access plus memory data))).file.data =
        ((ops.take n).foldl
          (fun c op => (c.step op).1) (Cursor.opened access plus data)).file.data := by
  obtain ⟨hsame, hend⟩ :=
    run_shows (Shows.opened access plus memory data) (ops.take n) (hops.take n)
  exact ⟨hsame, by rw [vxDrain_file hend, hend.data_eq.1]⟩

/-- Some bytes are read and one is pushed back; then others are written over those behind, and the
whole is read. -/
theorem streams_transparent_update :
    answers step (fopen .r true true [65, 66, 67]) [.fgetc, .ungetc (some 90), .fgets 2,
      .fseek 1 .seekSet,
        .fputc 88, .ftell, .fseek 0 .seekSet, .fread 1 9] =
      answers Cursor.step
        (.opened .r true [65, 66, 67]) [.fgetc, .ungetc (some 90), .fgets 2, .fseek 1 .seekSet,
        .fputc 88, .ftell, .fseek 0 .seekSet, .fread 1 9] :=
  (streams_transparent .r true true [65, 66, 67] [.fgetc, .ungetc (some 90), .fgets 2,
      .fseek 1 .seekSet,
    .fputc 88, .ftell, .fseek 0 .seekSet, .fread 1 9] (by decide) 8).1

/-- A byte is read, and a seek by nothing loses the bytes behind it. -/
theorem seek_loses_ahead :
    answers step (fopen .r false true [65, 66]) [.fgetc, .fseek 0 .seekCur, .fgetc] =
        [.char (some 65), .number 0, .char none] ∧
      answers Cursor.step (.opened .r false [65, 66]) [.fgetc, .fseek 0 .seekCur, .fgetc] =
        [.char (some 65), .number 0, .char (some 66)] := by
  decide

end Vextro.Stdio
