import Vextro.Model.Pipes
import Vextro.Verification.Shared.Circular
import Vextro.Verification.Shared.Run

/-! What goes into a pipe comes out of it, in order. -/

namespace Vextro.Pipes

open Circular List

variable {p : Ring} {len : ℕ} {s : Traffic}

structure Ring.Sound (p : Ring) : Prop where
  len_le : p.len ≤ vfsPipeSize
  tail_lt : p.tail < vfsPipeSize
  head_eq : p.head = (p.tail + p.len) % vfsPipeSize

/-- The bytes in the ring, first to last. -/
def Ring.contents (p : Ring) : List UInt8 := queue vfsPipeSize p.buf p.tail p.len

/-! ## Reading -/

theorem copyOut_eq (n : ℕ) (p : Ring) (htail : p.tail < vfsPipeSize) : p.copyOut n =
      ({ p with tail := (p.tail + n) % vfsPipeSize }, queue vfsPipeSize p.buf p.tail n) := by
  induction n generalizing p with
  | zero => rw [Ring.copyOut, Nat.add_zero, Nat.mod_eq_of_lt htail, queue_zero]
  | succ n ih =>
    have hnext : (p.tail + 1) % vfsPipeSize < vfsPipeSize := Nat.mod_lt _ (by decide)
    rw [Ring.copyOut, ih _ hnext, queue_take p.buf htail]
    rw [Nat.mod_add_mod, Nat.add_assoc, Nat.add_comm 1 n]

theorem vfsPipeRead_some {p' : Ring} {bytes : List UInt8} (hp : p.Sound)
    (h : vfsPipeRead p len = (p', some bytes)) :
    p'.Sound ∧ p.contents = bytes ++ p'.contents ∧ bytes.length = min len p.len ∧
    (p.len = 0 → p.writers = 0) := by
  rw [vfsPipeRead] at h
  split at h
  · rename_i hlen
    split at h
    · rename_i hwriters
      obtain ⟨rfl, rfl⟩ := h
      exact ⟨hp, rfl, by simp [hlen], fun _ => hwriters⟩
    · cases h
  rename_i hlen
  dsimp only at h
  rw [copyOut_eq _ _ hp.tail_lt] at h
  obtain ⟨rfl, rfl⟩ := h
  have hle : min len p.len ≤ p.len := min_le_right _ _
  refine ⟨⟨?_, Nat.mod_lt _ (by decide), ?_⟩, ?_, queue_length _ _ _ _, fun h => absurd h hlen⟩
  · exact (Nat.sub_le _ _).trans hp.len_le
  · rw [hp.head_eq, Nat.mod_add_mod, Nat.add_assoc, Nat.add_sub_cancel' hle]
  · exact queue_split p.buf p.tail p.len hle

theorem vfsPipeRead_none {p' : Ring} (h : vfsPipeRead p len = (p', none)) : p' = p := by
  rw [vfsPipeRead] at h
  split at h
  · split at h
    · cases h
    · exact (congrArg Prod.fst h).symm
  · cases h

/-! ## Writing -/

theorem slice_add (mem : ℕ → UInt8) (i a b : ℕ) :
    slice mem i (a + b) = slice mem i a ++ slice mem (i + a) b := by
  rw [slice, range_add, map_append, map_map]
  congr 1
  refine map_congr_left fun j _ => ?_
  rw [Function.comp_apply, Nat.add_assoc]

theorem slice_length (mem : ℕ → UInt8) (i n : ℕ) : (slice mem i n).length = n := by
  rw [slice, length_map, length_range]

theorem copyIn_eq (bytes : List UInt8) (p : Ring) (m : ℕ) (hroom : m + bytes.length ≤ vfsPipeSize)
    (hhead : p.head = (p.tail + m) % vfsPipeSize) :
    ∃ buf, p.copyIn bytes = { p with buf, head := (p.tail + (m + bytes.length)) % vfsPipeSize } ∧
      queue vfsPipeSize buf p.tail (m + bytes.length) =
        queue vfsPipeSize p.buf p.tail m ++ bytes := by
  induction bytes generalizing p m with
  | nil => exact ⟨p.buf, by simp [Ring.copyIn, ← hhead], by simp⟩
  | cons b bytes ih =>
    rw [length_cons] at hroom
    have hnext : (p.put b).head = ((p.put b).tail + (m + 1)) % vfsPipeSize := by
      simp only [Ring.put, hhead]
      rw [Nat.mod_add_mod, Nat.add_assoc]
    obtain ⟨buf, hcopy, hqueue⟩ := ih (p.put b) (m + 1) (by omega) hnext
    have hput : queue vfsPipeSize (p.put b).buf p.tail (m + 1) =
        queue vfsPipeSize p.buf p.tail m ++ [b] := by
      simp only [Ring.put, hhead]
      exact queue_put (by omega) p.buf p.tail b
    have hlen : m + 1 + bytes.length = m + (b :: bytes).length := by
      rw [length_cons]
      omega
    rw [hlen] at hcopy hqueue
    refine ⟨buf, ?_, ?_⟩
    · rwa [Ring.copyIn]
    · refine hqueue.trans ?_
      rw [show (p.put b).tail = p.tail from rfl, hput, append_assoc, singleton_append]

/-- A round of the write: the ring takes `n` bytes more. -/
theorem fill_sound (hp : p.Sound) (mem : ℕ → UInt8) (done : ℕ) {n : ℕ}
    (hroom : p.len + n ≤ vfsPipeSize) :
    let p' := p.copyIn (slice mem done n)
    { p' with len := p'.len + n }.Sound ∧
    { p' with len := p'.len + n }.contents = p.contents ++ slice mem done n ∧
      p'.readers = p.readers := by
  have hlen := slice_length mem done n
  obtain ⟨buf, hcopy, hqueue⟩ :=
    copyIn_eq (slice mem done n) p p.len (by rw [hlen]; exact hroom) hp.head_eq
  rw [hlen] at hcopy hqueue
  rw [hcopy]
  exact ⟨⟨hroom, hp.tail_lt, rfl⟩, hqueue, rfl⟩

/-- What the write has taken when it parks or returns is behind what was in the ring. -/
theorem writeLoop_spec (mem : ℕ → UInt8) (len rounds : ℕ) (hp : p.Sound) (done : ℕ)
    (hrounds : len - done < rounds) :
    (writeLoop mem len rounds p done).1.Sound ∧
      ∃ k, (writeLoop mem len rounds p done).1.contents = p.contents ++ slice mem done k ∧
        ((writeLoop mem len rounds p done).2 = .returned (done + k : ℕ) ∨
          (writeLoop mem len rounds p done).2 = .parked (done + k) ∨
          (writeLoop mem len rounds p done).2 = .returned (-epipe) ∧ done + k = 0) := by
  have hstay : p.contents = p.contents ++ slice mem done 0 := (append_nil _).symm
  induction rounds generalizing p done with
  | zero => omega
  | succ rounds ih =>
    rw [writeLoop]
    split
    · exact ⟨hp, 0, hstay, .inl rfl⟩
    split
    · refine ⟨hp, 0, hstay, ?_⟩
      by_cases hdone : done = 0
      · exact .inr (.inr ⟨by simp [hdone], hdone⟩)
      · exact .inl (by simp [hdone])
    split
    · exact ⟨hp, 0, hstay, .inr (.inl rfl)⟩
    have hle := hp.len_le
    obtain ⟨n, hn⟩ : ∃ n, min (len - done) (vfsPipeSize - p.len) = n := ⟨_, rfl⟩
    dsimp only
    rw [hn]
    obtain ⟨hsound, hcontents, -⟩ := fill_sound hp mem done (show p.len + n ≤ vfsPipeSize by omega)
    obtain ⟨hsound', k, hk, hout⟩ := ih hsound (done + n) (by omega)
      (append_nil _).symm
    refine ⟨hsound', n + k, ?_, ?_⟩
    · rw [hk, hcontents, slice_add, append_assoc]
    · rwa [Nat.add_assoc] at hout

theorem vfsPipeWrite_spec (hp : p.Sound) (mem : ℕ → UInt8) (len done : ℕ) :
    let r := vfsPipeWrite p mem len done
    r.1.Sound ∧ r.1.contents = p.contents ++ slice mem done (r.2.taken done - done) := by
  obtain ⟨hsound, k, hcontents, hout⟩ :=
    writeLoop_spec mem len (len - done + 1) hp done (Nat.lt_succ_self _)
  refine ⟨hsound, ?_⟩
  have htaken : (vfsPipeWrite p mem len done).2.taken done - done = k := by
    rcases hout with hout | hout | ⟨hout, hzero⟩
    · rw [vfsPipeWrite, hout, Written.taken]
      omega
    · rw [vfsPipeWrite, hout, Written.taken, Nat.add_sub_cancel_left]
    · rw [vfsPipeWrite, hout, Written.taken, show (-epipe).toNat = 0 from rfl]
      omega
  rwa [htaken]

/-! ## Any number of calls -/

/-- Whatever was accepted has been returned or is in the ring. -/
structure Traffic.Sound (s : Traffic) : Prop where
  ring : s.ring.Sound
  stream : s.accepted = s.returned ++ s.ring.contents

theorem run_sound (h : s.Sound) (t : ℕ) (mem : ℕ → UInt8) (c : Call) : (s.run t mem c).1.Sound := by
  cases c with
  | read len =>
    rw [Traffic.run]
    split
    · rename_i ring hread
      obtain rfl := vfsPipeRead_none hread
      exact ⟨h.ring, h.stream⟩
    rename_i ring bytes hread
    obtain ⟨hring, hcontents, -⟩ := vfsPipeRead_some h.ring hread
    refine ⟨hring, ?_⟩
    rw [h.stream, hcontents, append_assoc]
  | write len done =>
    obtain ⟨hring, hcontents⟩ := vfsPipeWrite_spec h.ring mem len done
    have hstream : s.accepted ++
        slice mem done ((vfsPipeWrite s.ring mem len done).2.taken done - done) =
          s.returned ++ (vfsPipeWrite s.ring mem len done).1.contents := by
      rw [h.stream, hcontents, append_assoc]
    rw [Traffic.run]
    split
    · exact ⟨hring, hstream⟩
    · exact ⟨hring, hstream⟩

theorem enter_sound (h : s.Sound) (t len : ℕ) (mem : ℕ → UInt8) (c : Call) :
    (s.enter t len mem c).1.Sound := by
  rw [Traffic.enter]
  split
  · exact h
  split
  · exact h
  · exact run_sound h t mem c

theorem step_sound (h : s.Sound) (e : Event) : (s.step e).Sound := by
  cases e with
  | read t len => exact enter_sound h t len _ _
  | write t len mem => exact enter_sound h t len mem _
  | resume t mem =>
    rw [Traffic.step, Traffic.next]
    split
    · exact h
    · exact run_sound h t mem _
  | ends readers writers =>
    exact ⟨⟨h.ring.len_le, h.ring.tail_lt, h.ring.head_eq⟩, h.stream⟩

theorem fresh_sound (buf : ℕ → UInt8) (readers writers : ℕ) :
    (Traffic.fresh buf readers writers).Sound :=
  ⟨⟨Nat.zero_le _, show 0 < vfsPipeSize by decide, rfl⟩, rfl⟩

/-- A read of at least one byte returns nothing only at the end of the stream. -/
theorem run_read_zero (h : s.Sound) {t : ℕ} {mem : ℕ → UInt8} (hlen : 0 < len)
    (hzero : (s.run t mem (.read len)).2 = some 0) : s.ring.len = 0 ∧ s.ring.writers = 0 := by
  rw [Traffic.run] at hzero
  split at hzero
  · cases hzero
  rename_i ring bytes hread
  obtain ⟨-, -, hmin, hwriters⟩ := vfsPipeRead_some h.ring hread
  have hbytes : bytes.length = 0 := by
    simpa using hzero
  have hempty : s.ring.len = 0 := by omega
  exact ⟨hempty, hwriters hempty⟩

theorem next_eof (h : s.Sound) {e : Event} (hasked : s.asked e = some len) (hlen : 0 < len)
    (hzero : (s.next e).2 = some 0) : s.ring.len = 0 ∧ s.ring.writers = 0 := by
  cases e with
  | read t n =>
    simp only [Traffic.asked] at hasked
    split at hasked
    · cases hasked
    rename_i hidle
    cases hasked
    rw [Traffic.next, Traffic.enter, if_neg hidle, if_neg (by omega)] at hzero
    exact run_read_zero h hlen hzero
  | write t n mem => cases hasked
  | resume t mem =>
    simp only [Traffic.asked] at hasked
    split at hasked
    · rename_i n hcall
      cases hasked
      simp only [Traffic.next, hcall] at hzero
      exact run_read_zero h hlen hzero
    · cases hasked
  | ends readers writers => cases hasked

/-- In every state of any interleaving of calls on a ring: its marks are in order, the bytes reads
have returned are the first of those accepted from writes, the others are in the ring, and a read
that answers end-of-file finds the ring empty and without a writer. -/
theorem pipe_stream (buf : ℕ → UInt8) (readers writers : ℕ) (events : List Event) (n : ℕ) :
    let s := (events.take n).foldl Traffic.step (.fresh buf readers writers)
    s.ring.len ≤ 4096 ∧ s.ring.head = (s.ring.tail + s.ring.len) % 4096 ∧
      s.returned <+: s.accepted ∧ s.accepted = s.returned ++ s.ring.contents ∧
      ∀ e len, events[n]? = some e → s.asked e = some len → 0 < len → (s.next e).2 = some 0 →
        s.ring.len = 0 ∧ s.ring.writers = 0 := by
  have hsound : ((events.take n).foldl Traffic.step (.fresh buf readers writers)).Sound :=
    Run.invariant_take (I := Traffic.Sound) (fun _ e h _ => step_sound h e)
      (fresh_sound buf readers writers) (Run.Meets.trivial _ events) n
  exact ⟨hsound.ring.len_le, hsound.ring.head_eq, ⟨_, hsound.stream.symm⟩, hsound.stream,
    fun e len _ hasked hlen hzero => next_eof hsound hasked hlen hzero⟩

/-- A reader parks in the empty ring, is served two of three bytes, and meets the end of the stream
once the third is gone and the writer has closed. -/
theorem pipe_stream_short_reads :
    let events : List Event := [.read 1 2, .write 0 3 fun i => UInt8.ofNat (7 + i),
      .resume 1 fun _ => 0, .read 1 5, .ends 1 0, .read 1 5]
    let s := (events.take 5).foldl Traffic.step (.fresh (fun _ => 0) 1 1)
    s.returned = [7, 8, 9] ∧ s.ring.len = 0 ∧ s.ring.writers = 0 :=
  ⟨by decide +kernel, (pipe_stream (fun _ => 0) 1 1 [.read 1 2,
    .write 0 3 fun i => UInt8.ofNat (7 + i), .resume 1 fun _ => 0, .read 1 5, .ends 1 0,
    .read 1 5] 5).2.2.2.2 (.read 1 5) 5 rfl (by decide +kernel) (by decide) (by decide +kernel)⟩

end Vextro.Pipes
