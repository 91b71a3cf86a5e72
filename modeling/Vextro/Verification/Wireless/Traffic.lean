import Mathlib.Data.List.Nodup
import Vextro.Verification.Shared.Run
import Vextro.Verification.Wireless.Changes
import Mathlib.Tactic.IntervalCases

/-! Packet numbers, what goes out in the clear and comes in again, and what reaches the network
stack although it was never protected or came before. -/

namespace Vextro.Wireless

open Run (Meets)

variable {c : Crypto}

/-- The keys and the 48-bit packet numbers that data frames have been encrypted under. -/
def Link.numbers (l : Link) : List (List UInt8 × ℕ) :=
  l.air.filterMap fun s => s.under.map fun u => (u.1, u.2.toNat % 2 ^ 48)

/-- The step brings a message 3 that installs the key. -/
def Link.installs (c : Crypto) (l : Link) (x : Step) : Bool := (l.brings c x).any (accepts c l.sm)

def Step.isTransmit : Step → Bool
  | .transmit _ => true
  | _ => false

/-- A key is installed before anything is encrypted under it, and numbers do not run out. -/
def Sparing (c : Crypto) (l : Link) (x : Step) : Prop :=
  (l.installs c x = true → ∀ u ∈ l.numbers, u.1 ≠ l.sm.tk) ∧
  (x.isTransmit = true → l.sm.txPn.toNat < 2 ^ 48)

instance (l : Link) (x : Step) : Decidable (Sparing c l x) := inferInstanceAs (Decidable (_ ∧ _))

/-- No number has been used twice, and those used under the key in use come before the next. -/
structure Numbered (l : Link) : Prop where
  distinct : l.numbers.Nodup
  below : l.sm.state = .ptkDone → ∀ u ∈ l.numbers, u.1 = l.sm.tk → u.2 < l.sm.txPn.toNat

theorem numbers_of_air {l l' : Link}
    (h : l'.air = l.air ∨ ∃ s : Sent, s.under = none ∧ l'.air = s :: l.air) :
    l'.numbers = l.numbers := by
  rcases h with h | ⟨s, hs, h⟩
  · rw [Link.numbers, Link.numbers, h]
  · simp [Link.numbers, h, hs]

theorem tk_congr {sm sm' : Supplicant} (h : sm'.ptk = sm.ptk) : sm'.tk = sm.tk := by
  rw [Supplicant.tk, Supplicant.tk, h]

/-- The number a frame is encrypted under has not been used, and the next is larger. -/
theorem Numbered.cipher
    {l l' : Link} (h : Numbered l) (hdone : l.sm.state = .ptkDone) (hlt : l.sm.txPn.toNat < 2 ^ 48)
    {bytes : List UInt8} (hsm : l'.sm = { l.sm with txPn := l.sm.txPn + 1 })
    (hair : l'.air = ⟨bytes, some (l.sm.tk, l.sm.txPn)⟩ :: l.air) : Numbered l' := by
  have hnumbers : l'.numbers = (l.sm.tk, l.sm.txPn.toNat) :: l.numbers := by
    simp only [Link.numbers, hair, List.filterMap_cons, Option.map_some, Nat.mod_eq_of_lt hlt]
  have hnext : (l.sm.txPn + 1).toNat = l.sm.txPn.toNat + 1 := by
    rw [UInt64.toNat_add]
    exact Nat.mod_eq_of_lt (by simp only [UInt64.reduceToNat]; omega)
  constructor
  · rw [hnumbers, List.nodup_cons]
    exact ⟨fun hmem => absurd (h.below hdone _ hmem rfl) (Nat.lt_irrefl _), h.distinct⟩
  intro _ u hu htk
  rw [hsm] at htk ⊢
  rw [hnumbers, List.mem_cons] at hu
  rcases hu with rfl | hu
  · simp only [hnext]
    omega
  have := h.below hdone u hu htk
  simp only [hnext]
  omega

theorem Numbered.step {l : Link} {x : Step} (h : Numbered l) (hx : Sparing c l x) :
    Numbered (l.step c x) := by
  cases (l.step_change c x).1 with
  | quiet hsm hair hdel =>
    have hnumbers := numbers_of_air (.inl hair)
    refine ⟨hnumbers ▸ h.distinct, fun hdone u hu htk => ?_⟩
    rw [hnumbers] at hu
    rw [hsm.txPn]
    exact h.below (hsm.state ▸ hdone) u hu (htk.trans (tk_congr hsm.ptk))
  | reset _ hsm hair hdel =>
    refine ⟨numbers_of_air (.inl hair) ▸ h.distinct, fun hdone => ?_⟩
    simp [hsm] at hdone
  | eapol body hbody hsm hair hdel =>
    have hnumbers : (l.step c x).numbers = l.numbers := by
      refine numbers_of_air (hair.imp id ?_)
      rintro ⟨s, hs, hs'⟩
      exact ⟨s, hs.1, hs'⟩
    refine ⟨hnumbers ▸ h.distinct, fun hdone u hu htk => ?_⟩
    rw [hnumbers] at hu
    cases hsm with
    | kept hsame =>
      rw [hsame.txPn]
      exact h.below (hsame.state ▸ hdone) u hu (htk.trans (tk_congr hsame.ptk))
    | left _ hstate => exact absurd hdone hstate
    | installed haccepts hinst =>
      exact absurd (htk.trans (tk_congr hinst.ptk))
        (hx.1 (by rw [Link.installs, hbody]; exact haccepts) u hu)
  | clear eth hx' hopen hsm s hs hair hdel =>
    have hnumbers := numbers_of_air (.inr ⟨s, hs, hair⟩)
    refine ⟨hnumbers ▸ h.distinct, fun hdone u hu htk => ?_⟩
    rw [hnumbers] at hu
    rw [hsm] at hdone htk ⊢
    exact h.below hdone u hu htk
  | cipher eth hx' hdone plain bytes henc hsm hair hdel =>
    exact h.cipher hdone (hx.2 (by rw [hx']; rfl)) hsm hair
  | opened frame random max hx' hdone pn plain hdec hpn hsm hair eth heth hdel =>
    have hnumbers := numbers_of_air (.inl hair)
    refine ⟨hnumbers ▸ h.distinct, fun _ u hu htk => ?_⟩
    rw [hnumbers] at hu
    rw [hsm] at htk ⊢
    exact h.below hdone u hu htk
  | exposed frame random max hx' hplain eth heth htype hsm hair hdel =>
    have hnumbers := numbers_of_air (.inl hair)
    refine ⟨hnumbers ▸ h.distinct, fun hdone u hu htk => ?_⟩
    rw [hnumbers] at hu
    rw [hsm] at hdone htk ⊢
    exact h.below hdone u hu htk

/-- In every run that installs no key it has used, no packet number is used twice under a key. -/
theorem packet_numbers_distinct {l : Link}
    (hair : l.air = []) {steps : List Step} (h : Meets (Link.step c) (Sparing c) l steps) (n : ℕ) :
    ((steps.take n).foldl (Link.step c) l).numbers.Nodup := by
  have hnumbers : l.numbers = [] := by rw [Link.numbers, hair, List.filterMap_nil]
  have hstart : Numbered l := ⟨by simp [hnumbers], by simp [hnumbers]⟩
  exact (Run.invariant_take (fun _ _ hI hC => hI.step hC) hstart h n).distinct

/-! ## A message 3 that is sent again -/

/-- Stand-ins for the cryptography: the MIC of a frame is the key, and a tag is zero. -/
def plainCrypto : Crypto where
  derivePtk _ _ _ anonce snonce _ _ := anonce ++ snonce.take 16
  eapolMic _ kck _ := some kck
  keyUnwrap _ data := some data
  ccmEncrypt _ _ _ plain := some (plain, zeros 8)
  ccmDecrypt _ _ _ cipher tag := if tag = zeros 8 then some cipher else none

def apNonce : List UInt8 := List.replicate 32 1

/-- An EAPOL-Key frame in a data frame from the access point. -/
def apFrame (info : UInt16) (mic : List UInt8) : List UInt8 :=
  [0x08, 0x02, 0, 0] ++ zeros 18 ++ [0, 0] ++ rfc1042 ++ be16 eapolEthertype ++ [2, 3, 0, 95, 2] ++
    be16 info ++
    zeros 10 ++ apNonce ++ zeros 32 ++ mic ++ [0, 0]

def apMessage1 : List UInt8 := apFrame 0x008A (zeros 16)

def apMessage3 : List UInt8 := apFrame 0x018A (apNonce.take 16)

def stationNonce : List UInt8 := List.replicate 32 7

/-- A radio that leaves the cipher to the driver. -/
def radio : Link := ⟨.idle, false, 0, zeros 6, zeros 6, wiped, [], []⟩

/-- A network is joined, and the handshake goes through. -/
def joined : List Step :=
  [.join (zeros 6) (zeros 32) [] 0, .handshake apMessage1 stationNonce, .handshake apMessage3 []]

def smallPacket : List UInt8 := zeros 12 ++ [0x08, 0x00] ++ [1, 2, 3]

def twoPackets : List Step := joined ++ [Step.transmit smallPacket, Step.transmit smallPacket]

theorem packet_numbers_distinct_joined :
    Meets (Link.step plainCrypto) (Sparing plainCrypto) radio twoPackets ∧
      (twoPackets.foldl (Link.step plainCrypto) radio).numbers.Nodup := by
  have h : Meets (Link.step plainCrypto) (Sparing plainCrypto) radio twoPackets := by decide +kernel
  exact ⟨h, packet_numbers_distinct rfl h 5⟩

/-- The access point sends message 3 again, and the next packet has the number of the first. -/
theorem message3_again_repeats_number :
    ((joined ++ [Step.transmit smallPacket, Step.receive apMessage3 [] 1600,
        Step.transmit smallPacket]).foldl
        (Link.step plainCrypto) radio).numbers =
          [(List.replicate 16 7, 1), (List.replicate 16 7, 1)] := by
  decide +kernel

/-! ## In the clear -/

/-- The link is kept, and no frame breaks the handshake off. -/
def Undisturbed (c : Crypto) (l : Link) (x : Step) : Prop :=
  x.stays = true ∧ (l.brings c x).any (disturbs c l.sm) = false

instance (l : Link) (x : Step) : Decidable (Undisturbed c l x) :=
  inferInstanceAs (Decidable (_ ∧ _))

/-- A data frame that CCMP made under the key. -/
def Sent.encrypted (c : Crypto) (tk : List UInt8) (s : Sent) : Prop :=
  ∃ pn plain, s.under = some (tk, pn) ∧
    ccmpEncrypt c tk pn 0 plain (hdrlen (frameControl plain)) = some s.bytes

/-- The handshake is complete, under a key and with the cipher in software, and what has been sent
since is EAPOL or encrypted under the key. -/
structure Shielded (c : Crypto) (tk : List UInt8) (before : List Sent) (l : Link) : Prop where
  done : l.sm.state = .ptkDone
  soft : l.hwCrypto = false
  key : l.sm.tk = tk
  sent : ∀ s ∈ l.air, s ∈ before ∨ s.isEapol ∨ s.encrypted c tk

theorem Shielded.same {tk : List UInt8} {before : List Sent} {l l' : Link}
    (h : Shielded c tk before l) (hsm : Same l.sm l'.sm) (hhw : l'.hwCrypto = l.hwCrypto)
    (hair : l'.air = l.air ∨ ∃ s, s.isEapol ∧ l'.air = s :: l.air) : Shielded c tk before l' := by
  refine ⟨hsm.state.trans h.done, hhw.trans h.soft, (tk_congr hsm.ptk).trans h.key, ?_⟩
  rcases hair with hair | ⟨s, hs, hair⟩
  · rw [hair]
    exact h.sent
  · rw [hair]
    exact List.forall_mem_cons.mpr ⟨.inr (.inl hs), h.sent⟩

theorem Shielded.step {tk : List UInt8} {before : List Sent} {l : Link} {x : Step}
    (h : Shielded c tk before l) (hx : Undisturbed c l x) : Shielded c tk before (l.step c x) := by
  obtain ⟨hchange, hhw⟩ := l.step_change c x
  cases hchange with
  | quiet hsm hair hdel => exact h.same hsm hhw (.inl hair)
  | reset hx' hsm hair hdel =>
    simp [hx.1] at hx'
  | eapol body hbody hsm hair hdel =>
    cases hsm with
    | kept hsame => exact h.same hsame hhw hair
    | left hdisturbs hstate =>
      have hnone := hx.2
      simp [hbody, hdisturbs] at hnone
    | installed _ hinst =>
      -- the same key again
      have hkey : (l.step c x).sm.tk = tk := (tk_congr hinst.ptk).trans h.key
      rcases hair with hair | ⟨s, hs, hair⟩
      · exact ⟨hinst.state, hhw.trans h.soft, hkey, hair ▸ h.sent⟩
      · exact ⟨hinst.state, hhw.trans h.soft, hkey,
          hair ▸ List.forall_mem_cons.mpr ⟨.inr (.inl hs), h.sent⟩⟩
  | clear eth hx' hopen hsm s hs hair hdel =>
    rcases hopen with hopen | hopen
    · exact absurd h.done hopen
    · simp [h.soft] at hopen
  | cipher eth hx' hdone plain bytes henc hsm hair hdel =>
    have hkey : (l.step c x).sm.tk = tk := by rw [hsm, ← h.key]; rfl
    rw [h.key] at henc hair
    refine ⟨by rw [hsm]; exact hdone, hhw.trans h.soft, hkey,
      hair ▸ List.forall_mem_cons.mpr ⟨?_, h.sent⟩⟩
    exact .inr (.inr ⟨_, plain, rfl, henc⟩)
  | opened frame random max hx' hdone pn plain hdec hpn hsm hair eth heth hdel =>
    refine h.same ?_ hhw (.inl hair)
    rw [hsm]
    exact ⟨rfl, rfl, rfl, UInt64.le_of_lt hpn⟩
  | exposed frame random max hx' hplain eth heth htype hsm hair hdel =>
    exact h.same (hsm ▸ .refl _) hhw (.inl hair)

/-- Once the handshake is complete and as long as nothing breaks it off, what is sent is EAPOL or
encrypted under the key. -/
theorem sent_encrypted {l : Link} (hdone : l.sm.state = .ptkDone) (hsoft : l.hwCrypto = false)
    {steps : List Step} (h : Meets (Link.step c) (Undisturbed c) l steps) (n : ℕ) :
    ∀ s ∈ ((steps.take n).foldl (Link.step c) l).air, s ∈ l.air ∨ s.isEapol ∨
    s.encrypted c l.sm.tk := by
  have hstart : Shielded c l.sm.tk l.air l := ⟨hdone, hsoft, rfl, fun s hs => .inl hs⟩
  exact (Run.invariant_take (fun _ _ hI hC => hI.step hC) hstart h n).sent

/-- The link once it is joined. -/
def joinedLink : Link := joined.foldl (Link.step plainCrypto) radio

theorem sent_encrypted_joined : joinedLink.sm.state = .ptkDone ∧ joinedLink.hwCrypto = false ∧
      Meets (Link.step plainCrypto) (Undisturbed plainCrypto) joinedLink
        [Step.receive apMessage3 [] 1600, Step.transmit smallPacket] ∧
      ∀ s ∈
        ([Step.receive apMessage3 [] 1600, Step.transmit smallPacket].foldl (Link.step plainCrypto)
        joinedLink).air, s ∈ joinedLink.air ∨ s.isEapol ∨
        s.encrypted plainCrypto joinedLink.sm.tk := by
  have hdone : joinedLink.sm.state = .ptkDone := by decide +kernel
  have hsoft : joinedLink.hwCrypto = false := by decide +kernel
  have h : Meets (Link.step plainCrypto) (Undisturbed plainCrypto) joinedLink
      [Step.receive apMessage3 [] 1600, Step.transmit smallPacket] := by decide +kernel
  exact ⟨hdone, hsoft, h, sent_encrypted hdone hsoft h 2⟩

/-- Anyone can send a message 1, which needs no key: the next packet goes out in the clear. -/
theorem forged_message1_exposes_packet :
    joinedLink.state = .connected ∧ joinedLink.sm.state = .ptkDone ∧
      ([Step.receive apMessage1 stationNonce 1600, Step.transmit smallPacket].foldl
        (Link.step plainCrypto)
        joinedLink).state = .connected ∧
      ∃ s ∈ ([Step.receive apMessage1 stationNonce 1600, Step.transmit smallPacket].foldl
        (Link.step plainCrypto)
        joinedLink).air, s.under = none ∧ dataToEth s.bytes = some smallPacket := by
  decide +kernel

/-! ## Deliveries -/

def opens (c : Crypto) (tk frame : List UInt8) : Option (UInt64 × List UInt8) :=
  ccmpDecrypt c tk frame (hdrlen (frameControl frame))

/-- The frame passed the tag check under the key, and says what was delivered. -/
def Delivery.authentic (c : Crypto) (d : Delivery) : Prop :=
  ∃ pn plain, opens c d.tk d.frame = some (pn, plain) ∧ dataToEth plain = some d.eth

/-- The step receives a packet that is not protected. -/
def Step.isExposed : Step → Bool
  | .receive frame _ _ =>
    !isProtected (frameControl frame) &&
    (dataToEth frame).any fun eth => ethertype eth ≠ eapolEthertype
  | _ => false

/-- Packets come protected, and a key is installed before anything that it opens was delivered. -/
def Guarded (c : Crypto) (l : Link) (x : Step) : Prop :=
  x.isExposed = false ∧ (l.installs c x = true → ∀ d ∈ l.delivered, opens c l.sm.tk d.frame = none)

instance (l : Link) (x : Step) : Decidable (Guarded c l x) := inferInstanceAs (Decidable (_ ∧ _))

/-- What was delivered is authentic and was delivered once, and what the key in use opens does not
pass the replay check again. -/
structure Genuine (c : Crypto) (l : Link) : Prop where
  soft : l.hwCrypto = false
  authentic : ∀ d ∈ l.delivered, d.authentic c
  once : (l.delivered.map Delivery.frame).Nodup
  below : l.sm.state = .ptkDone → ∀ d ∈ l.delivered, ∀ pn plain,
    opens c l.sm.tk d.frame = some (pn, plain) → pn ≤ l.sm.rxPn

theorem Genuine.same {l l' : Link} (h : Genuine c l) (hhw : l'.hwCrypto = l.hwCrypto)
    (hsm : Same l.sm l'.sm) (hdel : l'.delivered = l.delivered) : Genuine c l' := by
  refine ⟨hhw.trans h.soft, hdel ▸ h.authentic, hdel ▸ h.once, ?_⟩
  intro hdone d hd pn plain hopen
  rw [hdel] at hd
  rw [tk_congr hsm.ptk] at hopen
  exact UInt64.le_trans (h.below (hsm.state ▸ hdone) d hd pn plain hopen) hsm.rxPn

/-- A packet that the replay check lets through has not been delivered before. -/
theorem Genuine.opened {l l' : Link} (h : Genuine c l) (hhw : l'.hwCrypto = l.hwCrypto)
    (hdone : l.sm.state = .ptkDone) {frame plain eth : List UInt8} {pn : UInt64}
    (hdec : opens c l.sm.tk frame = some (pn, plain)) (hpn : l.sm.rxPn < pn)
    (hsm : l'.sm = { l.sm with rxPn := pn }) (heth : dataToEth plain = some eth)
    (hdel : l'.delivered = ⟨eth, frame, l.sm.tk⟩ :: l.delivered) : Genuine c l' := by
  refine ⟨hhw.trans h.soft, ?_, ?_, ?_⟩
  · rw [hdel]
    exact List.forall_mem_cons.mpr ⟨⟨pn, plain, hdec, heth⟩, h.authentic⟩
  · rw [hdel, List.map_cons, List.nodup_cons]
    refine ⟨fun hmem => ?_, h.once⟩
    obtain ⟨d, hd, hframe⟩ := List.mem_map.mp hmem
    have hle := h.below hdone d hd pn plain (hframe ▸ hdec)
    exact absurd hpn (UInt64.not_lt.mpr hle)
  intro _ d hd pn' plain' hopen
  rw [hsm] at hopen ⊢
  rw [hdel, List.mem_cons] at hd
  rcases hd with rfl | hd
  · have hsame : some (pn', plain') = some (pn, plain) := hopen.symm.trans hdec
    cases hsame
    exact UInt64.le_refl _
  · exact UInt64.le_trans (h.below hdone d hd pn' plain' hopen) (UInt64.le_of_lt hpn)

theorem Genuine.step {l : Link} {x : Step} (h : Genuine c l) (hx : Guarded c l x) :
    Genuine c (l.step c x) := by
  obtain ⟨hchange, hhw⟩ := l.step_change c x
  cases hchange with
  | quiet hsm hair hdel => exact h.same hhw hsm hdel
  | reset _ hsm hair hdel =>
    refine ⟨hhw.trans h.soft, hdel ▸ h.authentic, hdel ▸ h.once, fun hdone => ?_⟩
    simp [hsm] at hdone
  | eapol body hbody hsm hair hdel =>
    cases hsm with
    | kept hsame => exact h.same hhw hsame hdel
    | left _ hstate =>
      exact ⟨hhw.trans h.soft, hdel ▸ h.authentic, hdel ▸ h.once, fun hdone => absurd hdone hstate⟩
    | installed haccepts hinst =>
      refine ⟨hhw.trans h.soft, hdel ▸ h.authentic, hdel ▸ h.once, fun _ d hd pn plain hopen => ?_⟩
      rw [hdel] at hd
      rw [tk_congr hinst.ptk, hx.2 (by rw [Link.installs, hbody]; exact haccepts) d hd] at hopen
      cases hopen
  | clear eth hx' hopen hsm s hs hair hdel => exact h.same hhw (hsm ▸ .refl _) hdel
  | cipher eth hx' hdone plain bytes henc hsm hair hdel =>
    refine ⟨hhw.trans h.soft, hdel ▸ h.authentic, hdel ▸ h.once, fun _ d hd pn plain' hopen => ?_⟩
    rw [hdel] at hd
    rw [hsm] at hopen ⊢
    exact h.below hdone d hd pn plain' hopen
  | opened frame random max hx' hdone pn plain hdec hpn hsm hair eth heth hdel =>
    exact h.opened hhw hdone hdec hpn hsm heth hdel
  | exposed frame random max hx' hplain eth heth htype hsm hair hdel =>
    exfalso
    rcases hplain with hplain | hplain
    · have hexposed := hx.1
      rw [hx', Step.isExposed, heth] at hexposed
      simp [hplain, htype] at hexposed
    · simp [h.soft] at hplain

/-- In every run in which packets come protected and no key is installed that opens what was
delivered, what is delivered passed the tag check, and no frame is delivered twice. -/
theorem delivered_authentic_once {l : Link} (hsoft : l.hwCrypto = false) (hnone : l.delivered = [])
    {steps : List Step} (h : Meets (Link.step c) (Guarded c) l steps) (n : ℕ) :
    (∀ d ∈ ((steps.take n).foldl (Link.step c) l).delivered, d.authentic c) ∧
      (((steps.take n).foldl (Link.step c) l).delivered.map Delivery.frame).Nodup := by
  have hstart : Genuine c l := ⟨hsoft, by simp [hnone], by simp [hnone], by simp [hnone]⟩
  have hend := Run.invariant_take (fun _ _ hI hC => Genuine.step hI hC) hstart h n
  exact ⟨hend.authentic, hend.once⟩

/-! ## Packets from anyone -/

/-- A packet in a data frame from the access point; CCMP puts its header after the first part. -/
def apHeader (flags : UInt8) : List UInt8 := [0x08, flags, 0, 0] ++ zeros 18 ++ [0, 0]

def apBody : List UInt8 := rfc1042 ++ [0x08, 0x00] ++ [4, 5, 6]

def plainPacket : List UInt8 := apHeader 0x02 ++ apBody

def sealedPacket : List UInt8 := apHeader 0x42 ++ ccmpPnToHdr 1 0 ++ apBody ++ zeros 8

theorem delivered_authentic_once_joined : Meets (Link.step plainCrypto) (Guarded plainCrypto) radio
        (joined ++ [Step.receive sealedPacket [] 1600, Step.receive sealedPacket [] 1600]) ∧
      (∀ d ∈
        ((joined ++ [Step.receive sealedPacket [] 1600, Step.receive sealedPacket [] 1600]).foldl
        (Link.step plainCrypto) radio).delivered, d.authentic plainCrypto) ∧
      (((joined ++ [Step.receive sealedPacket [] 1600, Step.receive sealedPacket [] 1600]).foldl
        (Link.step plainCrypto) radio).delivered.map Delivery.frame).Nodup := by
  have h : Meets (Link.step plainCrypto) (Guarded plainCrypto) radio (joined ++
      [Step.receive sealedPacket [] 1600, Step.receive sealedPacket [] 1600]) := by decide +kernel
  exact ⟨h, delivered_authentic_once rfl rfl h 5⟩

/-- After the handshake, a packet without protection is delivered; and a protected one is
delivered again once message 3 has been repeated. -/
theorem plain_packet_delivered :
    ((joined ++ [Step.receive plainPacket [] 1600]).foldl
      (Link.step plainCrypto) radio).delivered.map
        (fun d => (d.frame, opens plainCrypto d.tk d.frame)) = [(plainPacket, none)] ∧
      ((joined ++ [Step.receive sealedPacket [] 1600, Step.receive apMessage3 [] 1600,
        Step.receive sealedPacket [] 1600]).foldl
          (Link.step plainCrypto) radio).delivered.map Delivery.frame =
        [sealedPacket, sealedPacket] := by
  decide +kernel

/-! ## Through the air -/

variable {eth bssid frame tk : List UInt8} {seq : UInt16} {protectedFrame : Bool}

/-- Decryption inverts encryption, which gives as many bytes as it is given, and a tag of eight. -/
def Crypto.Inverts (c : Crypto) : Prop := ∀ key nonce aad plain cipher tag,
  c.ccmEncrypt key nonce aad plain = some (cipher, tag) →
    cipher.length = plain.length ∧ tag.length = ccmpMicLen ∧
    c.ccmDecrypt key nonce aad cipher tag = some plain

/-! ## The parts of a frame -/

theorem byteAt_append (head l : List UInt8) (i : ℕ) :
    byteAt (head ++ l) (head.length + i) = byteAt l i := by
  simp [byteAt, List.getElem?_append_right]

theorem bytesAt_append (head l rest : List UInt8) :
    bytesAt (head ++ (l ++ rest)) head.length l.length = l := by
  have hshift : bytesAt (head ++ (l ++ rest)) head.length l.length = bytesAt
      (l ++ rest) 0 l.length := by
    simp only [bytesAt, byteAt_append, zero_add]
  rw [hshift, bytesAt_eq (by simp), List.take_left]

/-- The receiver takes from the CCMP header what the sender's nonce is made of. -/
theorem ccmpNonce_header (frame head rest : List UInt8) (pn : UInt64) :
    ccmpNonce frame
      (ccmpHdrToPn (head ++ (ccmpPnToHdr pn 0 ++ rest)) head.length) = ccmpNonce frame pn := by
  have hfirst := byteAt_append head (ccmpPnToHdr pn 0 ++ rest) 0
  rw [Nat.add_zero] at hfirst
  simp only [ccmpNonce, ccmpHdrToPn, hfirst, byteAt_append, List.append_cancel_left_eq,
    List.cons.injEq, and_true]
  simp only [ccmpPnToHdr, byteAt, List.cons_append, List.getD_cons_succ, List.getD_cons_zero]
  -- bit by bit
  refine ⟨?_, ?_, ?_, ?_, ?_, ?_⟩ <;>
  · generalize pnByte pn 0 = b0, pnByte pn 1 = b1, pnByte pn 2 = b2, pnByte pn 3 = b3,
      pnByte pn 4 = b4, pnByte pn 5 = b5
    refine UInt8.toBitVec_inj.mp ?_
    ext j hj
    interval_cases j <;> simp [pnByte]

theorem ccmpDecrypt_parts {head ct tag : List UInt8} {pn : UInt64}
    (hframe : head ++ (ccmpPnToHdr pn 0 ++ (ct ++ tag)) = frame) (htag : tag.length = ccmpMicLen)
    (hfits : head.length + ct.length ≤ wifiBufSize) :
    ccmpDecrypt c tk frame head.length =
      (c.ccmDecrypt tk (ccmpNonce frame pn) (ccmpAad frame) ct tag).map
      fun plain =>
        (ccmpHdrToPn frame head.length, head.set 1 (byteAt frame 1 &&& ~~~0x40) ++ plain) := by
  have hlen : frame.length = head.length + ccmpHdrLen + ct.length + ccmpMicLen := by
    simp only [← hframe, List.length_append, htag, ccmpHdrLen,
      show (ccmpPnToHdr pn 0).length = 8 from rfl]
    omega
  have hrest : frame.length - head.length - ccmpHdrLen - ccmpMicLen = ct.length := by omega
  have hbyte : byteAt frame (head.length + 3) = 0x20 := by
    rw [← hframe, byteAt_append]
    rfl
  have hct : bytesAt frame (head.length + ccmpHdrLen) ct.length = ct := by
    have h := bytesAt_append (head ++ ccmpPnToHdr pn 0) ct tag
    rwa [List.append_assoc, List.length_append, hframe] at h
  have hmic : bytesAt frame (head.length + ccmpHdrLen + ct.length) ccmpMicLen = tag := by
    have h := bytesAt_append (head ++ ccmpPnToHdr pn 0 ++ ct) tag []
    rwa [List.append_nil, List.append_assoc, List.append_assoc, hframe, List.length_append,
      List.length_append, htag] at h
  have hnonce := ccmpNonce_header frame head (ct ++ tag) pn
  have htake : frame.take head.length = head := by
    rw [← hframe, List.take_left]
  rw [hframe] at hnonce
  rw [ccmpDecrypt, hrest, hbyte, if_neg (by omega), if_neg (by decide), if_neg (by omega)]
  dsimp only
  rw [hct, hmic, htake, hnonce]
  cases c.ccmDecrypt tk (ccmpNonce frame pn) (ccmpAad frame) ct tag <;> rfl

/-- What CCMP takes from the header of a frame to the access point is the same with and without the
protected bit. -/
theorem toAp_header (protectedFrame : Bool) (rest : List UInt8) (pn : UInt64) :
    let frame := 0x08 :: toApFlags protectedFrame :: rest
    hdrlen (frameControl frame) = 24 ∧
      ccmpAad frame = [0x08, 0x41] ++ bytesAt rest 2 18 ++ le16 (getLe16 rest 20 &&& 0x000F) ∧
      ccmpNonce frame pn = 0 :: bytesAt rest 8 6 ++
        [pnByte pn 5, pnByte pn 4, pnByte pn 3, pnByte pn 2, pnByte pn 1, pnByte pn 0] := by
  simp only [ccmpAad, ccmpNonce, ccmpTid, frameControl_toAp]
  cases protectedFrame <;> exact ⟨by decide, rfl, rfl⟩

theorem ccmpDecrypt_ccmpEncrypt (hc : c.Inverts) {cipher : List UInt8} {pn : UInt64}
    (h : ethToData eth bssid seq protectedFrame = some frame)
    (henc : ccmpEncrypt c tk pn 0 frame (hdrlen (frameControl frame)) = some cipher) :
    ∃ pn' opened, ccmpDecrypt c tk cipher (hdrlen (frameControl cipher)) = some (pn', opened) ∧
      dataToEth opened = some eth := by
  obtain ⟨hlong, hfits, rfl⟩ := ethToData_iff.mp h
  obtain ⟨hstart, haad, hnonce⟩ :=
    toAp_header protectedFrame (toApHeader eth bssid seq ++ snapBody eth) pn
  rw [hstart, ccmpEncrypt, haad, hnonce] at henc
  split at henc
  · cases henc
  split at henc
  · cases henc
  rename_i hroom
  split at henc
  · cases henc
  rename_i ct tag hccm
  obtain ⟨hct, htag, hdec⟩ := hc _ _ _ _ _ _ hccm
  let head := toApHeader eth bssid seq
  have hcipher : 0x08 :: toApFlags true :: head ++ (ccmpPnToHdr pn 0 ++ (ct ++ tag)) = cipher := by
    have hset : toApFlags protectedFrame ||| 0x40 =
        toApFlags true := by cases protectedFrame <;> decide
    rw [← Option.some.inj henc, ← hset, List.append_assoc, List.append_assoc]
    rfl
  have hlen : (0x08 :: toApFlags true :: head).length + ct.length ≤ wifiBufSize := by
    rw [hct, List.length_drop, show (0x08 :: toApFlags true :: head).length = 24 from rfl]
    omega
  have hparts : ccmpDecrypt c tk cipher 24 = _ := ccmpDecrypt_parts hcipher htag hlen
  obtain ⟨hopen, haad', hnonce'⟩ := toAp_header true (head ++ (ccmpPnToHdr pn 0 ++ (ct ++ tag))) pn
  rw [← List.cons_append, ← List.cons_append, hcipher] at hopen haad' hnonce'
  rw [haad', hnonce'] at hparts
  have hclear : toApFlags true &&& ~~~0x40 = toApFlags false := by decide
  refine ⟨ccmpHdrToPn cipher 24, 0x08 :: toApFlags false :: (head ++ snapBody eth), ?_, ?_⟩
  · rw [hopen, hparts]
    refine (congrArg (Option.map _) (?_ : _ = some (snapBody eth))).trans ?_
    · exact hdec
    · rw [← hcipher, ← hclear]
      rfl
  · exact dataToEth_ethToData (ethToData_iff.mpr ⟨hlong, hfits, rfl⟩)

/-- A frame that is sent, with CCMP in software or in hardware, is what the holder of the key gets,
whatever the packet number. -/
theorem frame_survives_air (hc : c.Inverts) {l : Link} (hsent : (wifiTxEth c l eth).2 = true) :
    ∃ plain s, ethToData eth l.bssid l.seq (l.sm.complete && !l.hwCrypto) = some plain ∧
      (wifiTxEth c l eth).1.air = s :: l.air ∧
      (if l.sm.complete && !l.hwCrypto then
        ccmpEncrypt c l.sm.tk l.sm.txPn 0 plain (hdrlen (frameControl plain)) = some s.bytes
      else s.bytes = plain) ∧
      ∀ tk pn cipher, ccmpEncrypt c tk pn 0 plain (hdrlen (frameControl plain)) = some cipher →
        ∃ pn' opened, ccmpDecrypt c tk cipher (hdrlen (frameControl cipher)) = some (pn', opened) ∧
          dataToEth opened = some eth := by
  have hopen : (!l.sm.complete || l.hwCrypto) = !(l.sm.complete && !l.hwCrypto) := by
    rw [Bool.not_and, Bool.not_not]
  rw [wifiTxEth, hopen] at hsent ⊢
  split at hsent
  · cases hsent
  rename_i hstate
  rw [if_neg hstate]
  generalize (l.sm.complete && !l.hwCrypto) = protects at hsent ⊢
  split at hsent
  · cases hsent
  rename_i plain hplain
  rw [hplain]
  cases protects with
  | false => exact ⟨plain, _, rfl, rfl, rfl, fun _ _ _ => ccmpDecrypt_ccmpEncrypt hc hplain⟩
  | true =>
    rw [Bool.not_true, if_neg Bool.false_ne_true] at hsent
    split at hsent
    · cases hsent
    · rename_i cipher henc
      exact ⟨plain, ⟨cipher, _⟩, rfl, rfl, henc, fun _ _ _ => ccmpDecrypt_ccmpEncrypt hc hplain⟩

theorem frame_survives_air_joined :
    plainCrypto.Inverts ∧ (wifiTxEth plainCrypto joinedLink smallPacket).2 = true ∧
    ∃ s pn opened, (wifiTxEth plainCrypto joinedLink smallPacket).1.air = s :: joinedLink.air ∧
      ccmpDecrypt plainCrypto joinedLink.sm.tk s.bytes (hdrlen (frameControl s.bytes)) = some
        (pn, opened) ∧
      dataToEth opened = some smallPacket := by
  have hc : plainCrypto.Inverts := by
    intro key nonce aad plain cipher tag h
    obtain ⟨rfl, rfl⟩ : plain = cipher ∧ zeros 8 = tag := by simpa [plainCrypto] using h
    exact ⟨rfl, rfl, rfl⟩
  have hsent : (wifiTxEth plainCrypto joinedLink smallPacket).2 = true := by decide +kernel
  have hsoft : (joinedLink.sm.complete && !joinedLink.hwCrypto) = true := by decide +kernel
  obtain ⟨plain, s, h⟩ := frame_survives_air hc hsent
  rw [if_pos hsoft] at h
  obtain ⟨-, hair, henc, hback⟩ := h
  obtain ⟨pn, opened, hopened⟩ := hback _ _ _ henc
  exact ⟨hc, hsent, s, pn, opened, hair, hopened⟩

end Vextro.Wireless
