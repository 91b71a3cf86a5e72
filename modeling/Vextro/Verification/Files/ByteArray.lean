import Vextro.Model.FileImage

/-! A file open for writing is an array of bytes with an offset. -/

namespace Vextro.Vfs

open Buffer List Option

variable {c : FileCall} {r : Reply} {data : List UInt8} {heap : Heap}

/-! ## The array -/

/-- What a program sees of an open file; `stored` is what the file system gave or took last. -/
structure ByteFile where
  bytes : List UInt8
  pos : ℕ
  stored : Option (List UInt8)

namespace ByteFile

def write (f : ByteFile) (append : Bool) (data : List UInt8) : ByteFile :=
  let p := if append then f.bytes.length else f.pos
  { f with bytes := overlay 0 f.bytes p data, pos := p + data.length }

/-- Where a seek leads; no position is outside of `0 .. vfsWbufMax`. -/
def target (f : ByteFile) (off : ℤ) (whence : ℕ) : Option ℕ :=
  match whence with
  | 0 => within off
  | 1 => within (f.pos + off)
  | 2 => within (f.bytes.length + off)
  | _ => none
where
  within (want : ℤ) : Option ℕ := if 0 ≤ want ∧ want ≤ vfsWbufMax then some want.toNat else none

/-- The call on the array, and its answer if it is served. -/
def serve (o : OFlags) (f : ByteFile) : FileCall → Option (ByteFile × Reply)
  | .read len =>
    if o.readable then
      let out := (f.bytes.drop f.pos).take len
      some ({ f with pos := f.pos + out.length }, ⟨out.length, out⟩)
    else none
  | .write data _ =>
    if data = [] then some (f, ⟨0, []⟩)
    else if (f.write o.append data).pos ≤ vfsWbufMax then
      some (f.write o.append data, ⟨data.length, []⟩)
    else none
  | .seek off whence => (f.target off.toInt whence).map fun p => ({ f with pos := p }, ⟨p, []⟩)
  | .ftruncate want _ =>
    if want ≤ vfsWbufMax then some ({ f with bytes := resize 0 f.bytes want }, ⟨0, []⟩) else none

end ByteFile

theorem serve_nonneg {o : OFlags} {f f' : ByteFile} (h : f.serve o c = some (f', r)) :
    0 ≤ r.ret := by
  cases c with
  | read | write | ftruncate =>
    simp only [ByteFile.serve] at h
    grind
  | seek off whence =>
    obtain ⟨p, -, hp⟩ := map_eq_some_iff.mp h
    rw [← (Prod.mk.inj hp).2]
    exact Int.natCast_nonneg p

/-- The heap had nothing left for this call. -/
def FileCall.starved : FileCall → Prop
  | .write _ heap | .ftruncate _ heap => heap = none
  | _ => False

/-- What an outcome says of the array: a call is served or fails and changes nothing, and the file
system is handed exactly the bytes, unless it has them. -/
inductive Serves (o : OFlags) (f : ByteFile) : Action → Outcome → ByteFile → Prop where
  | served {c : FileCall} {r : Reply} {f' : ByteFile} (h : f.serve o c = some (f', r)) :
      Serves o f (.call c) ⟨r, none⟩ f'
  | failed {c : FileCall} {r : Reply} (h : f.serve o c = none ∨ c.starved) (hr : r.ret < 0) :
      Serves o f (.call c) ⟨r, none⟩ f
  | flushed : Serves o f (.flush true) ⟨⟨0, []⟩, some f.bytes⟩ { f with stored := some f.bytes }
  | unflushed {r : Reply} (hr : r.ret < 0) :
      Serves o f (.flush false) ⟨r, some f.bytes⟩ { f with stored := none }
  | clean {ok : Bool} (h : f.stored = some f.bytes) : Serves o f (.flush ok) ⟨⟨0, []⟩, none⟩ f

inductive Served (o : OFlags) : ByteFile → List Action → List Outcome → ByteFile → Prop where
  | nil (f : ByteFile) : Served o f [] [] f
  | cons {f f' f'' : ByteFile} {a : Action} {as : List Action} {out : Outcome} {outs : List Outcome}
      (h : Serves o f a out f') (hs : Served o f' as outs f'') : Served o f (a :: as)
      (out :: outs) f''

/-! ## The image -/

/-- The descriptor holds the array. -/
structure Image (o : OFlags) (d : Desc) (f : ByteFile) : Prop where
  kind : d.kind = .file
  writable : d.writable = true
  readable : d.readable = o.readable
  append : d.append = o.append
  pos : d.pos = f.pos
  posMax : d.pos ≤ vfsWbufMax
  wbuf : ∃ buf, d.wbuf = some buf ∧ 0 < buf.length ∧ buf.length ≤ vfsWbufMax ∧ d.wlen ≤ buf.length ∧
    f.bytes = buf.take d.wlen
  clean : d.dirty = false → f.stored = some f.bytes

theorem doubled_ge {fuel cap need : ℕ} (h0 : 0 < cap) (h : need ≤ cap + fuel) :
    need ≤ doubled fuel cap need ∧ 0 < doubled fuel cap need := by
  induction fuel generalizing cap with
  | zero => exact ⟨h, h0⟩
  | succ fuel ih =>
    rw [doubled]
    split
    · exact ih (by omega) (by omega)
    · exact ⟨by omega, h0⟩

variable {o : OFlags} {d : Desc} {f : ByteFile}

/-- What `vfs_wbuf_reserve` leaves: the same image in a block that is large enough. -/
structure Reserves (d d' : Desc) (need : ℕ) : Prop where
  same : ∃ buf, d' = { d with wbuf := some buf } ∧ need ≤ buf.length ∧ 0 < buf.length ∧
    buf.length ≤ vfsWbufMax ∧ d.wlen ≤ buf.length ∧ buf.take d.wlen = (d.wbuf.getD []).take d.wlen

/-- Whether there is room for `need` bytes. -/
def Desc.room (d : Desc) (need : ℕ) (heap : Heap) : Prop :=
  need ≤ d.wcap ∨ (need ≤ vfsWbufMax ∧ heap.isSome = true)

theorem vfsWbufReserve_spec {buf : List UInt8} (hbuf : d.wbuf = some buf) (h0 : 0 < buf.length)
    (hmax : buf.length ≤ vfsWbufMax) (hlen : d.wlen ≤ buf.length) (need : ℕ) (heap : Heap) :
    (d.room need heap ∧ ∃ d', vfsWbufReserve d need heap = some (d', 0) ∧ Reserves d d' need) ∨
      (¬d.room need heap ∧ ∃ rc < 0, vfsWbufReserve d need heap = some (d, rc)) := by
  have hcap : d.wcap = buf.length := by rw [Desc.wcap, hbuf, getD_some]
  rw [vfsWbufReserve, Desc.room, hcap]
  by_cases hfit : need ≤ buf.length
  · refine .inl ⟨.inl hfit, d, if_pos hfit,
      ⟨buf, ?_, hfit, h0, hmax, hlen, by rw [hbuf, getD_some]⟩⟩
    rw [← hbuf]
  rw [if_neg hfit]
  by_cases hbig : vfsWbufMax < need
  · exact .inr ⟨by omega, -vxeNospc, by decide, if_pos hbig⟩
  rw [if_neg hbig]
  cases heap with
  | none => exact .inr ⟨by simp [hfit], -vxeNomem, by decide, rfl⟩
  | some junk =>
    refine .inl ⟨.inr ⟨by omega, rfl⟩, ?_⟩
    rw [if_pos h0.ne', hbuf]
    obtain ⟨hge, hpos⟩ := doubled_ge h0 (Nat.le_add_left need buf.length)
    set cap := if vfsWbufMax < doubled need buf.length need then vfsWbufMax
      else doubled need buf.length need with hcapdef
    have hcapge : need ≤ cap ∧ cap ≤ vfsWbufMax := by
      rw [hcapdef]
      split <;> omega
    have hjunk : ((range cap).map junk).length = cap := by
      rw [length_map, length_range]
    obtain ⟨grown, hstore, hglen, hfront⟩ := store_front hlen
      (show d.wlen ≤ ((range cap).map junk).length by omega)
    refine ⟨{ d with wbuf := some grown }, ?_, grown, rfl, by omega, by omega, by omega, by omega,
      by rw [hfront, hbuf, getD_some]⟩
    simp [kmalloc, slice, hlen, ← hcapdef, hstore]

/-! ## Calls -/

/-- The action has a result, and the array follows it. -/
def Matches (o : OFlags) (d : Desc) (f : ByteFile) (a : Action) : Prop :=
  ∃ d' out f', a.exec d = some (d', out) ∧ Serves o f a out f' ∧ Image o d' f'

theorem Matches.failed (h : Image o d f) (hexec : c.exec d = some (d, r)) (hr : r.ret < 0)
    (hf : f.serve o c = none ∨ c.starved) : Matches o d f (.call c) :=
  ⟨d, ⟨r, none⟩, f, by rw [Action.exec, hexec]; rfl, .failed hf hr, h⟩

theorem Matches.served (d' : Desc) {f' : ByteFile} (hexec : c.exec d = some (d', r))
    (hf : f.serve o c = some (f', r)) (h : Image o d' f') : Matches o d f (.call c) :=
  ⟨d', ⟨r, none⟩, f', by rw [Action.exec, hexec]; rfl, .served hf, h⟩

theorem Image.length (h : Image o d f) : f.bytes.length = d.wlen := by
  obtain ⟨buf, -, -, -, hlen, hbytes⟩ := h.wbuf
  rw [hbytes, length_take, Nat.min_eq_left hlen]

theorem Image.read (h : Image o d f) (len : ℕ) : Matches o d f (.call (.read len)) := by
  obtain ⟨buf, hbuf, h0, hmax, hlen, hbytes⟩ := h.wbuf
  by_cases hr : d.readable = true
  · have hout : (f.bytes.drop f.pos).take len = (buf.drop d.pos).take
        (min (d.wlen - d.pos) len) := by
      rw [hbytes, drop_take, take_take, h.pos, Nat.min_comm]
    have houtlen : ((f.bytes.drop f.pos).take len).length = min (d.wlen - d.pos) len := by
      rw [length_take, length_drop, h.length, h.pos, Nat.min_comm]
    have hserve : f.serve o (.read len) = some ({ f with pos := f.pos + min (d.wlen - d.pos) len },
        ⟨(min (d.wlen - d.pos) len : ℕ), (buf.drop d.pos).take (min (d.wlen - d.pos) len)⟩) := by
      rw [ByteFile.serve, ← h.readable, if_pos hr]
      dsimp only
      rw [houtlen, hout]
    -- nothing is read for no bytes and behind the end
    by_cases hnone : len = 0 ∨ d.wlen ≤ d.pos
    · have hzero : min (d.wlen - d.pos) len = 0 := by omega
      rw [hzero] at hserve
      refine Matches.served d ?_ hserve h
      rw [FileCall.exec, vfsFileRead]
      rcases hnone with rfl | hpos
      · simp [hr]
      · simp [hr, h.writable, hbuf, hpos]
    obtain ⟨hlen0, hpos⟩ := not_or.mp hnone
    have hfit : d.pos + min (d.wlen - d.pos) len ≤ buf.length := by omega
    refine Matches.served { d with pos := d.pos + min (d.wlen - d.pos) len } ?_ hserve
      { h with pos := by rw [h.pos], posMax := ?_ }
    · rw [FileCall.exec, vfsFileRead]
      simp [hr, hlen0, h.writable, hbuf, hpos, slice_eq hfit]
    · show d.pos + min (d.wlen - d.pos) len ≤ vfsWbufMax
      omega
  · refine Matches.failed h (r := ⟨-vxeBadf, []⟩) ?_ (by decide) (.inl ?_)
    · rw [FileCall.exec, vfsFileRead]
      simp [hr]
    · rw [ByteFile.serve, ← h.readable, if_neg hr]

/-- An appending write that finds no room must not find the offset elsewhere. -/
def FileCall.settled (d : Desc) : FileCall → Prop
  | .write data heap =>
    d.append = true → data ≠ [] → d.pos ≠ d.wlen → d.room (d.wlen + data.length) heap
  | _ => True

theorem vfsFileWrite_eq (hw : d.writable) (hbuf : d.wbuf.isSome) (hnil : data ≠ []) (heap : Heap)
    {p : ℕ} (hp : (if d.append then d.wlen else d.pos) = p) : vfsFileWrite d data heap =
      (vfsWbufReserve { d with pos := p } (p + data.length) heap).bind fun r =>
        if r.2 ≠ 0 then some (r.1, ⟨r.2, []⟩)
        else (store (r.1.wbuf.getD []) r.1.wlen (replicate (r.1.pos - r.1.wlen) 0)).bind fun wbuf =>
          (store wbuf r.1.pos data).bind fun wbuf =>
            some ({ r.1 with wbuf := some wbuf, pos := p + data.length,
                             wlen := max r.1.wlen (p + data.length), dirty := true },
              ⟨data.length, []⟩) := by
  have hd : (if d.append then { d with pos := d.wlen } else d) = { d with pos := p } := by
    rw [← hp]
    split <;> rfl
  rw [vfsFileWrite, if_neg (by simpa [hw] using isSome_iff_ne_none.mp hbuf), if_neg hnil]
  simp only [hd]
  rfl

theorem Image.write_refused (h : Image o d f) (hnil : data ≠ []) {p : ℕ}
    (hp : (if d.append then d.wlen else d.pos) = p) (hroom : ¬d.room (p + data.length) heap) :
    ∃ rc < 0, (FileCall.write data heap).exec d = some ({ d with pos := p }, ⟨rc, []⟩) := by
  obtain ⟨buf, hbuf, h0, hmax, hlen, -⟩ := h.wbuf
  rcases vfsWbufReserve_spec (d := { d with pos := p }) hbuf h0 hmax hlen
    (p + data.length) heap with
    ⟨hroom', -⟩ | ⟨-, rc, hrc, hres⟩
  · exact absurd hroom' hroom
  refine ⟨rc, hrc, ?_⟩
  rw [FileCall.exec, vfsFileWrite_eq h.writable (by rw [hbuf]; rfl) hnil heap hp]
  simp only [hres, bind_some, ne_eq, hrc.ne, not_false_eq_true, if_true]

theorem Image.write (h : Image o d f) (hset : (FileCall.write data heap).settled d) :
    Matches o d f (.call (.write data heap)) := by
  obtain ⟨buf, hbuf, h0, hmax, hlen, hbytes⟩ := h.wbuf
  by_cases hnil : data = []
  · subst hnil
    refine Matches.served d ?_ (by rw [ByteFile.serve, if_pos rfl]) h
    rw [FileCall.exec, vfsFileWrite]
    simp [h.writable, hbuf]
  obtain ⟨p, hp⟩ : ∃ p, (if d.append then d.wlen else d.pos) = p := ⟨_, rfl⟩
  have hfp : (if o.append then f.bytes.length else f.pos) = p := by
    rw [← hp, ← h.append, h.length, ← h.pos]
  have hexec := vfsFileWrite_eq h.writable (by rw [hbuf]; rfl) hnil heap hp
  have hserve : f.serve o (.write data heap) = if p + data.length ≤ vfsWbufMax then
      some (⟨overlay 0 f.bytes p data, p + data.length, f.stored⟩, ⟨data.length, []⟩)
        else none := by
    rw [ByteFile.serve, if_neg hnil, ByteFile.write, hfp]
  rcases vfsWbufReserve_spec (d := { d with pos := p }) hbuf h0 hmax hlen
    (p + data.length) heap with
    ⟨-, d', hres, ⟨buf', rfl, hneed, h0', hmax', hlen', hfront⟩⟩ | ⟨hroom, -⟩
  · obtain ⟨buf₁, buf₂, h₁, h₂, hl₂, hover⟩ := store_overlay 0 hlen' hneed
    rw [hfront, hbuf, getD_some, ← hbytes] at hover
    rw [if_pos (by omega)] at hserve
    refine Matches.served
      { d with wbuf := some buf₂, pos := p + data.length, wlen := max d.wlen (p + data.length),
               dirty := true } ?_ hserve
      ⟨h.kind, h.writable, h.readable, h.append, rfl, hneed.trans hmax', ?_,
        fun hd => Bool.noConfusion hd⟩
    · rw [FileCall.exec, hexec]
      simp only [hres, bind_some, ne_eq, not_true_eq_false, if_false, getD_some, h₁, h₂]
    · refine ⟨buf₂, rfl, hl₂ ▸ h0', hl₂ ▸ hmax', ?_, hover.symm⟩
      exact hl₂ ▸ max_le hlen' hneed
  · -- the offset has not moved
    have hsame : p = d.pos := by
      by_contra hne
      have happ : d.append := by
        by_contra hno
        exact hne (hp.symm.trans (if_neg hno))
      have hwlen : p = d.wlen := hp.symm.trans (if_pos happ)
      subst hwlen
      exact hroom (hset happ hnil (Ne.symm hne))
    subst hsame
    obtain ⟨rc, hrc, hrefused⟩ := h.write_refused hnil hp hroom
    refine Matches.failed h hrefused hrc ?_
    by_cases hbig : d.pos + data.length ≤ vfsWbufMax
    · exact .inr (not_isSome_iff_eq_none.mp fun hsome => hroom (.inr ⟨hbig, hsome⟩))
    · exact .inl (by rw [hserve, if_neg hbig])

/-- A sum that does not fit is negative, and one that fits is itself. -/
theorem wrap_within {base : ℕ} (hbase : base ≤ vfsWbufMax) (off : Int64) :
    ByteFile.target.within (wrap (base + off.toInt)) = ByteFile.target.within
      (base + off.toInt) := by
  have hlo := off.le_toInt
  have hhi := off.toInt_lt
  simp only [vfsWbufMax] at hbase
  by_cases hfit : (base : ℤ) + off.toInt < 2 ^ 63
  · rw [wrap, Int.bmod_eq_of_le (by omega) (by omega)]
  have hwrap : wrap (base + off.toInt) = base + off.toInt - 2 ^ 64 := by
    rw [wrap, Int.bmod_def]
    omega
  rw [ByteFile.target.within, ByteFile.target.within, if_neg, if_neg]
  · simp only [vfsWbufMax]
    omega
  · omega

theorem Image.seek (h : Image o d f) (off : Int64) (whence : ℕ) :
    Matches o d f (.call (.seek off whence)) := by
  obtain ⟨buf, hbuf, h0, hmax, hlen, hbytes⟩ := h.wbuf
  have hexec : vfsSeek d off whence = (seekWant d.pos d.wlen off whence).elim (d, ⟨-vxeInval, []⟩)
      fun want =>
        if want < 0 then (d, ⟨-vxeInval, []⟩)
        else if (vfsWbufMax : ℤ) < want then (d, ⟨-vxeNospc, []⟩)
        else ({ d with pos := want.toNat }, ⟨want, []⟩) := by
    cases hw : seekWant d.pos d.wlen off whence <;> simp [vfsSeek, h.kind, h.writable, hbuf, hw]
  have htarget : f.target off.toInt whence =
      (seekWant d.pos d.wlen off whence).bind ByteFile.target.within := by
    rcases whence with _ | _ | _ | _
    · rfl
    · rw [ByteFile.target, ← h.pos]
      exact (wrap_within h.posMax off).symm
    · rw [ByteFile.target, h.length]
      exact (wrap_within (hlen.trans hmax) off).symm
    · rfl
  cases hw : seekWant d.pos d.wlen off whence with
  | none =>
    rw [hw] at hexec htarget
    exact Matches.failed h (congrArg some hexec) (by decide)
      (.inl (by rw [ByteFile.serve, htarget]; rfl))
  | some want =>
    rw [hw, Option.elim_some] at hexec
    rw [hw, bind_some, ByteFile.target.within] at htarget
    by_cases hin : 0 ≤ want ∧ want ≤ vfsWbufMax
    · rw [if_pos hin] at htarget
      have hcast : (want.toNat : ℤ) = want := Int.toNat_of_nonneg hin.1
      have hserve :
          f.serve o (.seek off whence) = some ({ f with pos := want.toNat }, ⟨want, []⟩) := by
        rw [ByteFile.serve, htarget, map_some, hcast]
      refine Matches.served { d with pos := want.toNat } ?_ hserve
        { h with pos := rfl, posMax := ?_ }
      · rw [FileCall.exec, hexec]
        simp only [if_neg hin.1.not_gt, if_neg hin.2.not_gt]
      · show want.toNat ≤ vfsWbufMax
        omega
    · rw [if_neg hin] at htarget
      have hnone : f.serve o (.seek off whence) = none := by rw [ByteFile.serve, htarget]; rfl
      by_cases hneg : want < 0
      · exact Matches.failed h (r := ⟨-vxeInval, []⟩)
          (by rw [FileCall.exec, hexec]; simp only [if_pos hneg]) (by decide) (.inl hnone)
      have hbig : (vfsWbufMax : ℤ) < want := by omega
      exact Matches.failed h (r := ⟨-vxeNospc, []⟩)
        (by rw [FileCall.exec, hexec]; simp only [if_neg hneg, if_pos hbig]) (by decide)
        (.inl hnone)

theorem Image.ftruncate (h : Image o d f) (want : ℕ) (heap : Heap) :
    Matches o d f (.call (.ftruncate want heap)) := by
  obtain ⟨buf, hbuf, h0, hmax, hlen, hbytes⟩ := h.wbuf
  by_cases hbig : vfsWbufMax < want
  · refine Matches.failed h (r := ⟨-vxeNospc, []⟩) ?_ (by decide)
      (.inl (by rw [ByteFile.serve, if_neg hbig.not_ge]))
    rw [FileCall.exec, sysFtruncate]
    simp [h.kind, h.writable, hbuf, hbig]
  have hserve : f.serve o (.ftruncate want heap) = some ({ f with bytes := resize 0 f.bytes want },
      ⟨0, []⟩) := if_pos (Nat.le_of_not_lt hbig)
  have hexec : sysFtruncate d want heap = (vfsWbufReserve d want heap).bind fun r =>
      if r.2 ≠ 0 then some (r.1, ⟨r.2, []⟩)
      else (store (r.1.wbuf.getD []) r.1.wlen (replicate (want - r.1.wlen) 0)).bind fun wbuf =>
        some ({ r.1 with wbuf := some wbuf, wlen := want, dirty := true }, ⟨0, []⟩) := by
    rw [sysFtruncate, if_neg (by simp [h.kind, h.writable, hbuf]), if_neg hbig]
    rfl
  rcases vfsWbufReserve_spec hbuf h0 hmax hlen want heap with
    ⟨-, d', hres, ⟨buf', rfl, hneed, h0', hmax', hlen', hfront⟩⟩ | ⟨hroom, rc, hrc, hres⟩
  · obtain ⟨buf₁, h₁, hl₁, hsize⟩ := store_resize 0 hlen' hneed
    rw [hfront, hbuf, getD_some, ← hbytes] at hsize
    refine Matches.served { d with wbuf := some buf₁, wlen := want, dirty := true } ?_ hserve
      ⟨h.kind, h.writable, h.readable, h.append, h.pos, h.posMax,
        ⟨buf₁, rfl, hl₁ ▸ h0', hl₁ ▸ hmax', hl₁ ▸ hneed, hsize.symm⟩, fun hd => Bool.noConfusion hd⟩
    rw [FileCall.exec, hexec]
    simp only [hres, bind_some, ne_eq, not_true_eq_false, if_false, getD_some, h₁]
  · refine Matches.failed h (r := ⟨rc, []⟩) ?_ hrc (.inr (not_isSome_iff_eq_none.mp fun hsome =>
      hroom (.inr ⟨Nat.le_of_not_lt hbig, hsome⟩)))
    rw [FileCall.exec, hexec]
    simp only [hres, bind_some, ne_eq, hrc.ne, not_false_eq_true, if_true]

theorem Image.flush (h : Image o d f) (ok : Bool) : Matches o d f (.flush ok) := by
  obtain ⟨buf, hbuf, h0, hmax, hlen, hbytes⟩ := h.wbuf
  by_cases hd : d.dirty = true
  · have hexec : (Action.flush ok).exec d = some (if ok then { d with dirty := false } else d,
        ⟨⟨if ok then 0 else -vxeIo, []⟩, some f.bytes⟩) := by
      rw [Action.exec, vfsFlush]
      simp [h.kind, hd, hbuf, slice, hlen, hbytes]
    cases ok with
    | true => exact ⟨_, _, _, hexec, .flushed, { h with clean := fun _ => rfl }⟩
    | false =>
      exact ⟨_, _, _, hexec,
        .unflushed (by decide), { h with clean := fun hc => nomatch hd.symm.trans hc }⟩
  · refine ⟨d, ⟨⟨0, []⟩, none⟩, f, ?_, .clean (h.clean (Bool.eq_false_iff.mpr hd)), h⟩
    rw [Action.exec, vfsFlush]
    simp [hd]

/-! ## Runs -/

def Action.settled (d : Desc) : Action → Prop
  | .call c => c.settled d
  | .flush _ => True

theorem Image.step (h : Image o d f) {a : Action} (hset : a.settled d) : Matches o d f a := by
  cases a with
  | flush ok => exact h.flush ok
  | call c =>
    cases c with
    | read len => exact h.read len
    | write data heap => exact h.write hset
    | seek off whence => exact h.seek off whence
    | ftruncate want heap => exact h.ftruncate want heap

/-- Every write of the run finds the descriptor settled. -/
def Orderly : Desc → List Action → Prop
  | _, [] => True
  | d, a :: as => a.settled d ∧ ∀ d' out, a.exec d = some (d', out) → Orderly d' as

theorem Image.run {as : List Action} (h : Image o d f) (hset : Orderly d as) :
    ∃ d' outs f', perform d as = some (d', outs) ∧ Served o f as outs f' ∧ Image o d' f' := by
  induction as generalizing d f with
  | nil => exact ⟨d, [], f, rfl, .nil f, h⟩
  | cons a as ih =>
    obtain ⟨d₁, out, f₁, hexec, hserves, h₁⟩ := h.step hset.1
    obtain ⟨d', outs, f', hperform, hserved, h'⟩ := ih h₁ (hset.2 d₁ out hexec)
    refine ⟨d', out :: outs, f', ?_, .cons hserves hserved, h'⟩
    rw [perform, hexec]
    show (perform d₁ as).bind _ = _
    rw [hperform]
    rfl

/-- The bytes an open file starts out with. -/
def OFlags.seed (o : OFlags) (exist : Bool) (fsOpen : Option FsFile) : List UInt8 :=
  match if exist && !o.trunc then fsOpen else none with
  | none => []
  | some file => if file.size ≠ 0 then (file.pread 0 file.size).getD [] else []

def ByteFile.opened (o : OFlags) (exist : Bool) (fsOpen : Option FsFile) : ByteFile where
  bytes := o.seed exist fsOpen
  pos := if o.append then (o.seed exist fsOpen).length else 0
  stored := if exist && !o.trunc then some (o.seed exist fsOpen) else none

theorem cap_bounds {seed : ℕ} (h : seed ≤ vfsWbufMax) :
    0 < (if seed < vfsWbufMin then vfsWbufMin else seed) ∧
      (if seed < vfsWbufMin then vfsWbufMin else seed) ≤ vfsWbufMax ∧
      seed ≤ if seed < vfsWbufMin then vfsWbufMin else seed := by
  by_cases hsmall : seed < vfsWbufMin
  · rw [if_pos hsmall]
    exact ⟨by decide, by decide, hsmall.le⟩
  · rw [if_neg hsmall]
    exact ⟨lt_of_lt_of_le (by decide) (Nat.le_of_not_lt hsmall), h, le_rfl⟩

theorem seed_length {exist : Bool} {fsOpen : Option FsFile} {file : FsFile} {got : List UInt8}
    {seed : ℕ} (hfile : (if (exist && !o.trunc) = true then fsOpen else some .none) = some file)
    (hseed : seed = if (exist && !o.trunc) = true then file.size else 0)
    (hgot : (if seed ≠ 0 then file.pread 0 seed else some []) = some got) :
    got.length ≤ seed ∧ got = o.seed exist fsOpen := by
  have hgotlen : got.length ≤ seed := by
    by_cases h0 : seed ≠ 0
    · rw [if_pos h0] at hgot
      exact file.short 0 seed got hgot
    rw [if_neg h0] at hgot
    rw [← some.inj hgot]
    exact Nat.zero_le _
  refine ⟨hgotlen, ?_⟩
  rw [OFlags.seed]
  by_cases hs : (exist && !o.trunc) = true
  · rw [if_pos hs] at hfile hseed ⊢
    rw [hfile]
    dsimp only
    rw [← hseed]
    by_cases h0 : seed ≠ 0
    · rw [if_pos h0] at hgot ⊢
      rw [hgot, getD_some]
    · rw [if_neg h0] at hgot ⊢
      exact (some.inj hgot).symm
  · rw [if_neg hs] at hseed ⊢
    exact length_eq_zero_iff.mp (Nat.le_zero.mp (hseed ▸ hgotlen))

theorem vfsOpenReg_image {exist fsWritable : Bool} {fsOpen : Option FsFile}
    (h : vfsOpenReg o exist fsWritable fsOpen heap = .ok d) (hw : o.wantsWrite) :
    Image o d (.opened o exist fsOpen) := by
  rw [vfsOpenReg] at h
  split at h
  · cases h
  split at h
  · cases h
  split at h
  · cases h
  dsimp only at h
  split at h
  · cases h
  rename_i file hfile
  rw [hw, Bool.not_true, if_neg Bool.false_ne_true] at h
  split at h
  · cases h
  rename_i hover
  split at h
  · cases h
  rename_i wbuf hwbuf
  split at h
  · cases h
  rename_i got hgot
  obtain rfl := Except.ok.inj h
  set seed := if (exist && !o.trunc) = true then file.size else 0 with hseed
  obtain ⟨hgotlen, hgotseed⟩ := seed_length hfile hseed hgot
  have hseedMax : seed ≤ vfsWbufMax := by
    rw [hseed]
    split
    · rename_i hs
      rw [hs, Bool.true_and, decide_eq_true_eq] at hover
      exact Nat.le_of_not_lt hover
    · exact Nat.zero_le _
  -- the block is no smaller than what was read
  have hwlen : wbuf.length = if seed < vfsWbufMin then vfsWbufMin else seed := by
    rw [kmalloc, map_eq_some_iff] at hwbuf
    obtain ⟨junk, -, rfl⟩ := hwbuf
    rw [length_map, length_range]
  have hcap : 0 < wbuf.length ∧ wbuf.length ≤ vfsWbufMax ∧ seed ≤ wbuf.length := by
    rw [hwlen]
    exact cap_bounds hseedMax
  have hlen : (got ++ wbuf.drop got.length).length = wbuf.length := by
    rw [length_append, length_drop]
    omega
  refine ⟨rfl, rfl, rfl, rfl, ?_, ?_, ⟨_, rfl, hlen ▸ hcap.1, hlen ▸ hcap.2.1, ?_, ?_⟩,
    fun hd => ?_⟩
  · rw [ByteFile.opened, ← hgotseed]
  · dsimp only
    split <;> omega
  · rw [hlen]
    exact hgotlen.trans hcap.2.2
  · rw [ByteFile.opened, ← hgotseed, take_left]
  · exact if_pos (by simpa using hd)

/-- A file open for writing is an array of bytes: every answer, the offset and the image are the
array's, and so is what the file system is handed, if no appending write is refused while the
offset is elsewhere. -/
theorem file_is_byteArray {exist fsWritable : Bool} {fsOpen : Option FsFile} {heap : Heap}
    (hopen : vfsOpenReg o exist fsWritable fsOpen heap = .ok d) (hw : o.wantsWrite = true)
    (as : List Action) (hset : Orderly d as) :
    ∃ d' outs f', perform d as = some (d', outs) ∧ Served o (.opened o exist fsOpen) as outs f' ∧
      d'.pos = f'.pos ∧ d'.pos ≤ vfsWbufMax ∧ d'.wbuf.map (List.take d'.wlen) = some f'.bytes ∧
      (d'.dirty = false → f'.stored = some f'.bytes) := by
  obtain ⟨d', outs, f', hperform, hserved, h'⟩ := (vfsOpenReg_image hopen hw).run hset
  obtain ⟨buf, hbuf, -, -, -, hbytes⟩ := h'.wbuf
  exact ⟨d', outs, f', hperform, hserved, h'.pos,
    h'.posMax, by rw [hbuf, map_some, hbytes], h'.clean⟩

/-- A file of one byte. -/
def oneByte : FsFile where
  valid := true
  size := 1
  pread pos len := some (([1] : List UInt8).drop pos |>.take len)
  short pos len bytes h := by
    rw [← some.inj h]
    exact length_take_le _ _

def appending : OFlags := ⟨vxORdwr, false, false, false, true⟩

/-- The byte that was opened, and the rest of the block as the heap had it. -/
def appended : Desc where
  kind := .file
  readable := true
  writable := true
  dirty := false
  append := true
  pos := 1
  file := oneByte
  wbuf := some ([1] ++ ((range 4096).map fun _ => 0).drop 1)
  wlen := 1
  nents := 0
  devLength := 0

theorem appended_open :
    vfsOpenReg appending true true (some oneByte) (some fun _ => 0) = .ok appended := rfl

theorem file_is_byteArray_appended :
    ∃ d' outs f', perform appended [.call (.write [2, 3] none), .flush true] = some (d', outs) ∧
      Served appending
        (.opened appending true (some oneByte)) [.call (.write [2, 3] none), .flush true]
        outs f' ∧ d'.pos = f'.pos := by
  obtain ⟨d', outs, f', h, hs, hp, -⟩ := file_is_byteArray appended_open rfl
    [.call (.write [2, 3] none), .flush true]
    ⟨fun _ _ hne => absurd rfl hne, fun _ _ _ => ⟨trivial, fun _ _ _ => trivial⟩⟩
  exact ⟨d', outs, f', h, hs, hp⟩

theorem appended_refused (hdata : data.length = 4096) : ∃ d' rc, rc < 0 ∧ d'.pos = 1 ∧
      perform appended [.call (.seek 0 0), .call (.write data none)] =
        some (d', [⟨⟨0, []⟩, none⟩, ⟨⟨rc, []⟩, none⟩]) ∧
      ∀ f', Served appending (.opened appending true (some oneByte))
        [.call (.seek 0 0), .call (.write data none)] [⟨⟨0, []⟩, none⟩, ⟨⟨rc, []⟩, none⟩] f' →
        f'.pos = 0 := by
  have himage := vfsOpenReg_image appended_open rfl
  have hseek : (Action.call (.seek 0 0)).exec appended = some
      ({ appended with pos := 0 }, ⟨⟨0, []⟩, none⟩) := rfl
  have himage' : Image appending { appended with pos := 0 }
      { ByteFile.opened appending true (some oneByte) with pos := 0 } :=
    { himage with pos := rfl, posMax := Nat.zero_le _ }
  have hroom : ¬({ appended with pos := 0 } : Desc).room (1 + data.length) none := by
    rw [hdata]
    rintro (hcap | ⟨-, hheap⟩)
    · have hwcap : ({ appended with pos := 0 } : Desc).wcap = 4096 := by
        simp only [Desc.wcap, appended, getD_some, length_append, length_drop, length_map,
          length_range, length_singleton]
      omega
    · cases hheap
  obtain ⟨rc, hrc, hwrite⟩ := himage'.write_refused (ne_nil_of_length_pos (by omega)) rfl hroom
  refine ⟨{ appended with pos := 1 }, rc, hrc, rfl, ?_, fun f' hserved => ?_⟩
  · show (perform { appended with pos := 0 } _).bind _ = _
    rw [perform, Action.exec, hwrite]
    rfl
  cases hserved with
  | cons h₁ hrest =>
    cases hrest with
    | cons h₂ hnone =>
      cases hnone
      cases h₁ with
      | failed _ hr => exact absurd hr (lt_irrefl 0)
      | served h₁ =>
        cases h₂ with
        | served h₂ => exact absurd (serve_nonneg h₂) hrc.not_ge
        | failed =>
          obtain ⟨rfl, -⟩ := Prod.mk.inj (some.inj h₁)
          rfl

/-- An appending write the heap has no block for has moved the offset to the end. -/
theorem refused_append_moves_offset :
    vfsOpenReg appending true true (some oneByte) (some fun _ => 0) = .ok appended ∧
      ∃ d' rc, rc < 0 ∧ d'.pos = 1 ∧
        perform appended [.call (.seek 0 0), .call (.write (List.replicate 4096 7) none)] =
          some (d', [⟨⟨0, []⟩, none⟩, ⟨⟨rc, []⟩, none⟩]) ∧
        ∀ f', Served appending (.opened appending true (some oneByte))
          [.call (.seek 0 0), .call (.write (List.replicate 4096 7) none)]
          [⟨⟨0, []⟩, none⟩, ⟨⟨rc, []⟩, none⟩] f' → f'.pos = 0 :=
  ⟨appended_open, appended_refused length_replicate⟩

end Vextro.Vfs
