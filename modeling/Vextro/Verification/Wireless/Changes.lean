import Mathlib.Data.List.Basic
import Vextro.Model.Wifi

/-! What a received EAPOL-Key frame can do to the supplicant, and a step of the link to the keys, on
the air, and to the network stack. -/

namespace Vextro.Wireless

variable {c : Crypto}

/-- The frame carries wrapped key data that is looked at. -/
def wrapped (frame : List UInt8) : Bool :=
  hasFlag (keyInfo frame) infoEncrKeyData && 24 ≤ keyDataLength frame

/-- As a message 3, the frame makes the supplicant install its key. -/
def installs (c : Crypto) (sm : Supplicant) (frame : List UInt8) : Bool :=
  (sm.state = .ptkStart || sm.state = .ptkDone) && keyNonce frame = sm.anonce &&
  checkMic c sm frame &&
    (!wrapped frame || keyDataLength frame ≤ 264 && (c.keyUnwrap sm.kek (keyData frame)).isSome)

/-- As a message 3, the frame has the ANonce of the handshake, and its MIC or its key data is
wrong. -/
def spoils (c : Crypto) (sm : Supplicant) (frame : List UInt8) : Bool :=
  keyNonce frame = sm.anonce &&
    (!checkMic c sm frame || wrapped frame && (c.keyUnwrap sm.kek (keyData frame)).isNone)

def accepts (c : Crypto) (sm : Supplicant) (frame : List UInt8) : Bool :=
  isEapolKey frame && isMessage3 frame && installs c (sm.described frame) frame

/-- The frame is a message 1, or a message 3 that spoils the handshake. -/
def disturbs (c : Crypto) (sm : Supplicant) (frame : List UInt8) : Bool :=
  isEapolKey frame && (isMessage1 frame || isMessage3 frame && spoils c (sm.described frame) frame)

/-- The supplicant has the same keys in the same state; a packet may have been received. -/
structure Same (sm sm' : Supplicant) : Prop where
  state : sm'.state = sm.state
  ptk : sm'.ptk = sm.ptk
  txPn : sm'.txPn = sm.txPn
  rxPn : sm.rxPn ≤ sm'.rxPn

theorem Same.refl (sm : Supplicant) : Same sm sm := ⟨rfl, rfl, rfl, UInt64.le_refl _⟩

/-- The supplicant has installed the key it had. -/
structure Installed (sm sm' : Supplicant) : Prop where
  state : sm'.state = .ptkDone
  ptk : sm'.ptk = sm.ptk
  txPn : sm'.txPn = 1
  rxPn : sm'.rxPn = 0

/-- What becomes of the supplicant. -/
inductive Outcome (c : Crypto) (sm : Supplicant) (frame : List UInt8) (sm' : Supplicant) : Prop
  | kept (h : Same sm sm')
  | left (h : disturbs c sm frame = true) (hstate : sm'.state ≠ .ptkDone)
  | installed (h : accepts c sm frame = true) (h' : Installed sm sm')

theorem groupRekey_same (sm : Supplicant) (frame : List UInt8) :
    Same sm (groupRekey c sm frame).1 := by
  rw [groupRekey]
  simp only
  split
  · exact .refl sm
  split
  · exact .refl sm
  split
  · exact ⟨rfl, rfl, rfl, UInt64.le_refl _⟩
  split
  · exact ⟨rfl, rfl, rfl, UInt64.le_refl _⟩
  split
  · exact ⟨rfl, rfl, rfl, UInt64.le_refl _⟩
  split
  · exact ⟨rfl, rfl, rfl, UInt64.le_refl _⟩
  · split <;> exact ⟨rfl, rfl, rfl, UInt64.le_refl _⟩

theorem message1_state (sm : Supplicant) (frame random : List UInt8) :
    (message1 c sm frame random).1.state ≠ .ptkDone := by
  rw [message1]
  split
  · exact SmState.noConfusion
  · exact SmState.noConfusion

/-- A third message changes nothing, spoils the handshake or installs the keys. -/
theorem message3_cases (c : Crypto) (sm : Supplicant) (frame : List UInt8) :
    Same sm (message3 c sm frame).1 ∨
      spoils c sm frame ∧ (message3 c sm frame).1.state ≠ .ptkDone ∨
      installs c sm frame ∧ Installed sm (message3 c sm frame).1 := by
  rw [message3]
  split
  · exact .inl (.refl sm)
  rename_i hready
  have hstate : sm.state = .ptkStart ∨ sm.state = .ptkDone := by
    by_contra hno
    exact hready (not_or.mp hno)
  split
  · exact .inl ⟨rfl, rfl, rfl, UInt64.le_refl _⟩
  rename_i hnonce
  have hanonce : keyNonce frame = sm.anonce := by simpa using hnonce
  split
  · rename_i hmic
    have hbad : checkMic c sm frame = false := by simpa using hmic
    exact .inr (.inl ⟨by simp [spoils, hanonce, hbad], by simp [failed]⟩)
  rename_i hmic
  have hgood : checkMic c sm frame := by simpa using hmic
  simp only
  split
  · rename_i hplain
    have hwrapped : wrapped frame = false := by simpa [wrapped, or_iff_not_imp_left] using hplain
    exact .inr (.inr ⟨by simp [installs, hstate, hanonce, hgood, hwrapped], rfl, rfl, rfl, rfl⟩)
  rename_i hplain
  have hwrapped : wrapped frame := by simpa [wrapped] using hplain
  split
  · exact .inl ⟨rfl, rfl, rfl, UInt64.le_refl _⟩
  rename_i hlong
  have hkek : ({ sm with replay := replayCounter frame } : Supplicant).kek = sm.kek := rfl
  rw [hkek]
  cases hunwrap : c.keyUnwrap sm.kek (keyData frame) with
  | none => exact .inr (.inl ⟨by simp [spoils, hanonce, hwrapped, hunwrap], by simp [failed]⟩)
  | some plain =>
    have hinstalls : installs c sm frame := by
      simp [installs, hstate, hanonce, hgood, hunwrap, Nat.le_of_not_lt hlong]
    simp only
    split
    · exact .inr (.inr ⟨hinstalls, rfl, rfl, rfl, rfl⟩)
    · exact .inr (.inr ⟨hinstalls, rfl, rfl, rfl, rfl⟩)

/-- What any EAPOL frame can do to the supplicant. -/
theorem wpaSmRxEapol_outcome (c : Crypto) (sm : Supplicant) (frame random : List UInt8) :
    Outcome c sm frame (wpaSmRxEapol c sm frame random).1 := by
  rw [wpaSmRxEapol]
  split
  · exact .kept (.refl sm)
  rename_i hkey
  have hkey' : isEapolKey frame := by simpa using hkey
  split
  · have h := groupRekey_same (c := c) (sm.described frame) frame
    exact .kept ⟨h.state, h.ptk, h.txPn, h.rxPn⟩
  split
  · rename_i h1
    exact .left (by simp [disturbs, hkey', h1]) (message1_state _ _ _)
  split
  · rename_i h3
    rcases message3_cases c (sm.described frame) frame with h | ⟨hspoils, h⟩ | ⟨hinstalls, h⟩
    · exact .kept ⟨h.state, h.ptk, h.txPn, h.rxPn⟩
    · exact .left (by simp [disturbs, hkey', h3, hspoils]) h
    · exact .installed (by simp [accepts, hkey', h3, hinstalls]) ⟨h.state, h.ptk, h.txPn, h.rxPn⟩
  · exact .kept ⟨rfl, rfl, rfl, UInt64.le_refl _⟩

theorem Outcome.received {sm sm' : Supplicant} {frame : List UInt8}
    {pn : UInt64} (hpn : sm.rxPn ≤ pn) (h : Outcome c { sm with rxPn := pn } frame sm') :
    Outcome c sm frame sm' := by
  cases h with
  | kept h => exact .kept ⟨h.state, h.ptk, h.txPn, UInt64.le_trans hpn h.rxPn⟩
  | left h hstate => exact .left h hstate
  | installed h h' => exact .installed h ⟨h'.state, h'.ptk, h'.txPn, h'.rxPn⟩

open Option

/-! ## Ethernet in 802.11 -/

theorem bytesAt_eq {l : List UInt8} {n : ℕ} (h : n ≤ l.length) : bytesAt l 0 n = l.take n := by
  refine List.ext_getElem (by simp [bytesAt, h]) fun i hi hi' => ?_
  have hlt : i < l.length := by
    rw [List.length_take] at hi'
    omega
  simp [bytesAt, byteAt, hlt]

section

variable {eth bssid frame : List UInt8} {seq : UInt16} {protectedFrame : Bool}

/-- The header of a frame to the access point, after the frame control field. -/
def toApHeader (eth bssid : List UInt8) (seq : UInt16) : List UInt8 :=
  le16 0 ++ bytesAt bssid 0 6 ++ bytesAt eth 6 6 ++ bytesAt eth 0 6 ++ le16 (seq <<< 4)

def snapBody (eth : List UInt8) : List UInt8 := rfc1042 ++ bytesAt eth 12 2 ++ eth.drop 14

def toApFlags (protectedFrame : Bool) : UInt8 := if protectedFrame then 0x41 else 0x01

theorem ethToData_iff : ethToData eth bssid seq protectedFrame = some frame ↔
    14 ≤ eth.length ∧ 24 + snapLen + (eth.length - 14) ≤ wifiBufSize ∧
      0x08 :: toApFlags protectedFrame :: (toApHeader eth bssid seq ++ snapBody eth) = frame := by
  have hfc : le16 (ftypeData ||| fcTods ||| if protectedFrame then fcProtected else 0) =
      [0x08, toApFlags protectedFrame] := by
    cases protectedFrame <;> rfl
  rw [ethToData]
  split
  · simp
    omega
  split
  · simp
    omega
  · simp_all [toApHeader, snapBody]

theorem frameControl_toAp (protectedFrame : Bool) (rest : List UInt8) :
    frameControl (0x08 :: toApFlags protectedFrame :: rest) =
      ftypeData ||| fcTods ||| if protectedFrame then fcProtected else 0 := by
  have hfc : frameControl (0x08 :: toApFlags protectedFrame :: rest) =
      (0x08 : UInt8).toUInt16 ||| (toApFlags protectedFrame).toUInt16 <<< 8 := rfl
  rw [hfc]
  cases protectedFrame <;> rfl

/-- Converting a frame for the air and back is the identity. -/
theorem dataToEth_ethToData (h : ethToData eth bssid seq protectedFrame = some frame) :
    dataToEth frame = some eth := by
  obtain ⟨hlong, hfits, hframe⟩ := ethToData_iff.mp h
  have hsplit : bytesAt eth 0 6 ++ bytesAt eth 6 6 ++ bytesAt eth 12 2 ++ eth.drop 14 = eth := by
    have hhead : bytesAt eth 0 6 ++ bytesAt eth 6 6 ++ bytesAt eth 12 2 = bytesAt eth 0 14 := rfl
    rw [hhead, bytesAt_eq hlong, List.take_append_drop]
  have hlen : frame.length = 32 + (eth.length - 14) := by
    rw [← hframe]
    simp [toApHeader, snapBody, le16, bytesAt, rfc1042]
    omega
  have hfc : isData (frameControl frame) ∧ hdrlen (frameControl frame) = 24 ∧
      frameStype (frameControl frame) ≠ stypeNullfunc ∧ frameControl frame &&& fcFromds = 0 ∧
      frameControl frame &&& fcTods ≠ 0 := by
    rw [← hframe, frameControl_toAp]
    cases protectedFrame <;> decide
  obtain ⟨hdata, hstart, hstype, hfrom, hto⟩ := hfc
  have hsnap : bytesAt frame 24 6 = rfc1042 := by
    rw [← hframe]
    rfl
  rw [dataToEth]
  simp only [hdata, hstart, hstype, hsnap, hfrom, hto, snapLen, Bool.not_true, Bool.false_eq_true,
    if_false, ne_eq, not_true_eq_false]
  rw [if_neg (by omega), if_neg (by simp only [snapLen] at hfits; omega)]
  rw [← hsplit, ← hframe]
  rfl

end

/-! ## The link -/

/-- The EAPOL frame in a plain frame. -/
def eapolIn (plain : List UInt8) : Option (List UInt8) :=
  match dataToEth plain with
  | none => none
  | some eth => if ethertype eth = eapolEthertype then some (eth.drop 14) else none

/-- The EAPOL frame that a step hands to the supplicant. -/
def Link.brings (c : Crypto) (l : Link) : Step → Option (List UInt8)
  | .handshake frame _ => if l.state = .handshaking then eapolIn frame else none
  | .receive frame _ _ =>
    if l.state = .connected ∧ isData (frameControl frame) then
      (l.unprotect c frame).bind fun p => eapolIn p.2
    else none
  | _ => none

/-- A frame that is sent in the clear because it carries EAPOL. -/
def Sent.isEapol (s : Sent) : Prop := s.under = none ∧ (eapolIn s.bytes).isSome = true

/-- The supplicant is not set up again. -/
def Step.stays : Step → Bool
  | .join .. | .disconnect => false
  | _ => true

/-- What a step does to the keys, on the air, and to the network stack. -/
inductive Change (c : Crypto) (l : Link) (x : Step) (l' : Link) : Prop
  | quiet (hsm : Same l.sm l'.sm) (hair : l'.air = l.air) (hdel : l'.delivered = l.delivered)
  | reset (hx : x.stays = false) (hsm : l'.sm.state = .idle) (hair : l'.air = l.air)
      (hdel : l'.delivered = l.delivered)
  | eapol (body : List UInt8) (hbody : l.brings c x = some body) (hsm : Outcome c l.sm body l'.sm)
      (hair : l'.air = l.air ∨ ∃ s, s.isEapol ∧ l'.air = s :: l.air)
      (hdel : l'.delivered = l.delivered)
  | clear (eth : List UInt8) (hx : x = .transmit eth)
      (hopen : l.sm.state ≠ .ptkDone ∨ l.hwCrypto = true) (hsm : l'.sm = l.sm) (s : Sent)
      (hs : s.under = none) (hair : l'.air = s :: l.air) (hdel : l'.delivered = l.delivered)
  | cipher (eth : List UInt8)
      (hx : x = .transmit eth) (hdone : l.sm.state = .ptkDone) (plain bytes : List UInt8)
      (henc : ccmpEncrypt c l.sm.tk l.sm.txPn 0 plain (hdrlen (frameControl plain)) = some bytes)
      (hsm : l'.sm = { l.sm with txPn := l.sm.txPn + 1 })
      (hair : l'.air = ⟨bytes, some (l.sm.tk, l.sm.txPn)⟩ :: l.air)
      (hdel : l'.delivered = l.delivered)
  | opened (frame random : List UInt8) (max : ℕ) (hx : x = .receive frame random max)
      (hdone : l.sm.state = .ptkDone) (pn : UInt64) (plain : List UInt8)
      (hdec : ccmpDecrypt c l.sm.tk frame (hdrlen (frameControl frame)) = some (pn, plain))
      (hpn : l.sm.rxPn < pn) (hsm : l'.sm = { l.sm with rxPn := pn }) (hair : l'.air = l.air)
      (eth : List UInt8) (heth : dataToEth plain = some eth)
      (hdel : l'.delivered = ⟨eth, frame, l.sm.tk⟩ :: l.delivered)
  | exposed (frame random : List UInt8) (max : ℕ) (hx : x = .receive frame random max)
      (hplain : isProtected (frameControl frame) = false ∨ l.hwCrypto = true)
      (eth : List UInt8) (heth : dataToEth frame = some eth)
      (htype : ethertype eth ≠ eapolEthertype) (hsm : l'.sm = l.sm) (hair : l'.air = l.air)
      (hdel : l'.delivered = ⟨eth, frame, l.sm.tk⟩ :: l.delivered)

variable {l : Link}

theorem wifiTxEapol_air (l : Link) (body : List UInt8) :
    (wifiTxEapol l body).air = l.air ∨ ∃ s, s.isEapol ∧ (wifiTxEapol l body).air = s :: l.air := by
  rw [wifiTxEapol]
  split
  · exact .inl rfl
  split
  · exact .inl rfl
  rename_i frame hframe
  refine .inr ⟨⟨frame, none⟩, ⟨rfl, ?_⟩, rfl⟩
  have htype : ethertype (bytesAt l.bssid 0 6 ++ bytesAt l.mac 0 6 ++ be16 eapolEthertype ++ body) =
      eapolEthertype := by
    rw [ethertype, getBe16, show byteAt (_ ++ _ ++ _ ++ body) 12 = 0x88 from rfl,
      show byteAt (_ ++ _ ++ _ ++ body) (12 + 1) = 0x8E from rfl]
    rfl
  rw [eapolIn, dataToEth_ethToData hframe]
  simp only [htype, if_true, isSome_some]

theorem wifiTxEapol_frame (l : Link) (body : List UInt8) :
    (wifiTxEapol l body).sm = l.sm ∧ (wifiTxEapol l body).delivered = l.delivered ∧
      (wifiTxEapol l body).hwCrypto = l.hwCrypto := by
  rw [wifiTxEapol]
  split
  · exact ⟨rfl, rfl, rfl⟩
  · split <;> exact ⟨rfl, rfl, rfl⟩

theorem Link.eapol_change (c : Crypto) (l : Link) (eth random : List UInt8) :
    (l.eapol c eth random).sm = (wpaSmRxEapol c l.sm (eth.drop 14) random).1 ∧
      ((l.eapol c eth random).air = l.air ∨ ∃ s,
        s.isEapol ∧ (l.eapol c eth random).air = s :: l.air) ∧
      (l.eapol c eth random).delivered = l.delivered ∧
      (l.eapol c eth random).hwCrypto = l.hwCrypto := by
  rw [Link.eapol]
  simp only
  split
  · exact ⟨rfl, .inl rfl, rfl, rfl⟩
  obtain ⟨hsm, hdel, hhw⟩ :=
    wifiTxEapol_frame { l with sm := (wpaSmRxEapol c l.sm (eth.drop 14) random).1 }
    (wpaSmRxEapol c l.sm (eth.drop 14) random).2
  exact ⟨hsm, wifiTxEapol_air _ _, hdel, hhw⟩

theorem handshakeRound_change (hstate : l.state = .handshaking) (frame random : List UInt8) :
    Change c l (.handshake frame random) (handshakeRound c l frame random) ∧
      (handshakeRound c l frame random).hwCrypto = l.hwCrypto := by
  rw [handshakeRound]
  split
  · exact ⟨.quiet (.refl _) rfl rfl, rfl⟩
  rename_i eth heth
  have hdata : dataToEth frame = some eth := by
    split at heth
    · cases heth
    · exact heth
  split
  · exact ⟨.quiet (.refl _) rfl rfl, rfl⟩
  rename_i htype
  have hbody : l.brings c (.handshake frame random) = some (eth.drop 14) := by
    rw [Link.brings, if_pos hstate, eapolIn, hdata]
    simp only
    rw [if_pos (not_not.mp (not_or.mp htype).2)]
  obtain ⟨hsm, hair, hdel, hhw⟩ := l.eapol_change c eth random
  have houtcome := wpaSmRxEapol_outcome c l.sm (eth.drop 14) random
  rw [← hsm] at houtcome
  simp only
  split
  · exact ⟨.eapol _ hbody houtcome hair hdel, hhw⟩
  split
  · exact ⟨.eapol _ hbody houtcome hair hdel, hhw⟩
  · exact ⟨.eapol _ hbody houtcome hair hdel, hhw⟩

/-- A frame is decrypted here with a newer packet number, or was in the clear already. -/
theorem Link.unprotect_cases {frame plain : List UInt8} {l' : Link}
    (h : l.unprotect c frame = some (l', plain)) :
    (l.sm.state = .ptkDone ∧ ∃ pn,
      ccmpDecrypt c l.sm.tk frame (hdrlen (frameControl frame)) = some (pn, plain) ∧
        l.sm.rxPn < pn ∧ l' = { l with sm := { l.sm with rxPn := pn } }) ∨
      ((isProtected (frameControl frame) = false ∨ l.hwCrypto = true) ∧ l' = l ∧
        plain = frame) := by
  rw [Link.unprotect] at h
  split at h
  · split at h
    · cases h
    rename_i hdone
    split at h
    · cases h
    rename_i pn plain' hdec
    split at h
    · cases h
    rename_i hpn
    cases h
    exact .inl ⟨by simpa [Supplicant.complete] using hdone, pn, hdec, UInt64.not_le.mp hpn, rfl⟩
  · rename_i hopen
    cases h
    refine .inr ⟨?_, rfl, rfl⟩
    cases hprot : isProtected (frameControl frame) with
    | false => exact .inl rfl
    | true => exact .inr (by simpa [hprot] using hopen)

theorem Link.deliver_cases (c : Crypto) (l : Link) (frame plain random : List UInt8) (max : ℕ) :
    l.deliver c frame plain random max = l ∨ ∃ eth, dataToEth plain = some eth ∧
        ((ethertype eth = eapolEthertype ∧
            l.deliver c frame plain random max = l.eapol c eth random) ∨
          (ethertype eth ≠ eapolEthertype ∧ l.deliver c frame plain random max =
            { l with delivered := ⟨eth, frame, l.sm.tk⟩ :: l.delivered })) := by
  rw [Link.deliver]
  cases hdata : dataToEth plain with
  | none => exact .inl rfl
  | some eth =>
    simp only
    split
    · rename_i htype
      exact .inr ⟨eth, rfl, .inl ⟨htype, rfl⟩⟩
    rename_i htype
    split
    · exact .inl rfl
    · exact .inr ⟨eth, rfl, .inr ⟨htype, rfl⟩⟩

/-- What receiving a frame can do to the link. -/
theorem wifiRxEth_change (hstate : l.state = .connected) (frame random : List UInt8) (max : ℕ) :
    Change c l (.receive frame random max) (wifiRxEth c l frame random max) ∧
      (wifiRxEth c l frame random max).hwCrypto = l.hwCrypto := by
  rw [wifiRxEth]
  split
  · exact ⟨.quiet (.refl _) rfl rfl, rfl⟩
  split
  · split
    · exact ⟨.quiet (.refl _) rfl rfl, rfl⟩
    · exact ⟨.quiet (.refl _) rfl rfl, rfl⟩
  split
  · exact ⟨.quiet (.refl _) rfl rfl, rfl⟩
  rename_i hdata
  have hbrings : l.brings c (.receive frame random max) = (l.unprotect c frame).bind
      fun p => eapolIn p.2 := by
    rw [Link.brings, if_pos ⟨hstate, by simpa using hdata⟩]
  cases hopen : l.unprotect c frame with
  | none => exact ⟨.quiet (.refl _) rfl rfl, rfl⟩
  | some p =>
    obtain ⟨l₁, plain⟩ := p
    rw [hopen, bind_some, eapolIn] at hbrings
    simp only
    rcases l₁.deliver_cases c frame plain random max with hkept | ⟨eth, heth,
      ⟨htype, heapol⟩ | ⟨htype, hnew⟩⟩
    · rw [hkept]
      rcases Link.unprotect_cases hopen with ⟨-, pn, -, hpn, rfl⟩ | ⟨-, rfl, -⟩
      · exact ⟨.quiet ⟨rfl, rfl, rfl, UInt64.le_of_lt hpn⟩ rfl rfl, rfl⟩
      · exact ⟨.quiet (.refl _) rfl rfl, rfl⟩
    · rw [heapol]
      simp only [heth, htype] at hbrings
      obtain ⟨hsm, hair, hdel, hhw⟩ := l₁.eapol_change c eth random
      have houtcome := wpaSmRxEapol_outcome c l₁.sm (eth.drop 14) random
      rw [← hsm] at houtcome
      rcases Link.unprotect_cases hopen with ⟨-, pn, -, hpn, rfl⟩ | ⟨-, rfl, -⟩
      · exact ⟨.eapol _ hbrings (houtcome.received (UInt64.le_of_lt hpn)) hair hdel, hhw⟩
      · exact ⟨.eapol _ hbrings houtcome hair hdel, hhw⟩
    · rw [hnew]
      rcases Link.unprotect_cases hopen with ⟨hdone, pn, hdec, hpn, rfl⟩ | ⟨hplain, rfl, rfl⟩
      · exact ⟨.opened frame random max rfl hdone pn plain hdec hpn rfl rfl eth heth rfl, rfl⟩
      · exact ⟨.exposed _ random max rfl hplain eth heth htype rfl rfl rfl, rfl⟩

theorem wifiTxEth_change (c : Crypto) (l : Link) (eth : List UInt8) :
    Change c l (.transmit eth) (wifiTxEth c l eth).1 ∧
    (wifiTxEth c l eth).1.hwCrypto = l.hwCrypto := by
  rw [wifiTxEth]
  split
  · exact ⟨.quiet (.refl _) rfl rfl, rfl⟩
  split
  · exact ⟨.quiet (.refl _) rfl rfl, rfl⟩
  rename_i plain hplain
  split
  · rename_i hopen
    exact ⟨.clear eth rfl (by simpa [Supplicant.complete] using hopen) rfl _ rfl rfl rfl, rfl⟩
  rename_i hopen
  split
  · exact ⟨.quiet (.refl _) rfl rfl, rfl⟩
  rename_i bytes henc
  have hdone : l.sm.state = .ptkDone ∧
      l.hwCrypto = false := by simpa [Supplicant.complete] using hopen
  exact ⟨.cipher eth rfl hdone.1 plain bytes henc rfl rfl rfl, rfl⟩

/-- Every step of the link is one of the changes. -/
theorem Link.step_change (c : Crypto) (l : Link) (x : Step) :
    Change c l x (l.step c x) ∧ (l.step c x).hwCrypto = l.hwCrypto := by
  cases x with
  | join bssid pmk rsnIe seq => exact ⟨.reset rfl rfl rfl rfl, rfl⟩
  | handshake frame random =>
    rw [Link.step]
    split
    · rename_i hstate
      exact handshakeRound_change hstate frame random
    · exact ⟨.quiet (.refl _) rfl rfl, rfl⟩
  | timeout =>
    rw [Link.step]
    split <;> exact ⟨.quiet (.refl _) rfl rfl, rfl⟩
  | receive frame random max =>
    rw [Link.step]
    split
    · rename_i hstate
      exact wifiRxEth_change hstate frame random max
    · exact ⟨.quiet (.refl _) rfl rfl, rfl⟩
  | transmit eth =>
    rw [Link.step]
    split
    · exact wifiTxEth_change c l eth
    · exact ⟨.quiet (.refl _) rfl rfl, rfl⟩
  | disconnect =>
    rw [Link.step]
    split
    · exact ⟨.reset rfl rfl rfl rfl, rfl⟩
    · exact ⟨.quiet (.refl _) rfl rfl, rfl⟩

end Vextro.Wireless
