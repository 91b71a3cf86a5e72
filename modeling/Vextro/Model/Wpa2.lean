import Vextro.Model.Ieee80211

/-! The supplicant's side of the four-way handshake, and CCMP: `wpa2.h`. -/

namespace Vextro.Wireless

/-- The cryptography the handshake and CCMP are built on. -/
structure Crypto where
  /-- `wpa_derive_ptk`, which also takes the length and whether to use SHA-256. -/
  derivePtk (pmk aa spa anonce snonce : List UInt8) (len : ℕ) (sha256 : Bool) : List UInt8
  /-- `wpa_eapol_mic` for a key descriptor version, which some versions do not have. -/
  eapolMic (ver : UInt16) (kck frame : List UInt8) : Option (List UInt8)
  /-- `aes_key_unwrap` -/
  keyUnwrap (kek data : List UInt8) : Option (List UInt8)
  /-- `aes_ccm_encrypt`: the ciphertext and the tag. -/
  ccmEncrypt (key nonce aad plain : List UInt8) : Option (List UInt8 × List UInt8)
  /-- `aes_ccm_decrypt`, which checks the tag. -/
  ccmDecrypt (key nonce aad cipher tag : List UInt8) : Option (List UInt8)

/-! ## EAPOL-Key frames -/

def eapolEthertype : UInt16 := 0x888E

def eapolKeyHdrLen : ℕ := 99

def infoPairwise : UInt16 := 0x0008
def infoAck : UInt16 := 0x0080
def infoMic : UInt16 := 0x0100
def infoSecure : UInt16 := 0x0200
def infoEncrKeyData : UInt16 := 0x1000

def hasFlag (info flag : UInt16) : Bool := info &&& flag ≠ 0

def eapolType (frame : List UInt8) : UInt8 := byteAt frame 1
def descriptorType (frame : List UInt8) : UInt8 := byteAt frame 4
def keyInfo (frame : List UInt8) : UInt16 := getBe16 frame 5
def replayCounter (frame : List UInt8) : List UInt8 := bytesAt frame 9 8
def keyNonce (frame : List UInt8) : List UInt8 := bytesAt frame 17 32
def keyMic (frame : List UInt8) : List UInt8 := bytesAt frame 81 16
def keyDataLength (frame : List UInt8) : ℕ := (getBe16 frame 97).toNat
def keyData (frame : List UInt8) : List UInt8 := bytesAt frame eapolKeyHdrLen (keyDataLength frame)

def setMic (frame mic : List UInt8) : List UInt8 := frame.take 81 ++ mic ++ frame.drop 97

def zeros (n : ℕ) : List UInt8 := List.replicate n 0

/-- `wpa_parse_gtk_kde` from a position on: the group key and its index. -/
def parseGtkKde (data : List UInt8) : ℕ → ℕ → Option (List UInt8 × UInt8)
  | 0, _ => none
  | fuel + 1, pos =>
    let eid := byteAt data pos
    let elen := (byteAt data (pos + 1)).toNat
    if data.length < pos + 2 then none
    else if eid = 0xDD ∧ elen = 0 then none
    else if data.length < pos + 2 + elen then none
    else if eid = 221 ∧ 8 ≤ elen ∧ bytesAt data (pos + 2) 4 = [0x00, 0x0F, 0xAC, 1] then
      some (bytesAt data (pos + 8) (min (elen - 6) 32), byteAt data (pos + 6) &&& 0x03)
    else parseGtkKde data fuel (pos + 2 + elen)

/-! ## The supplicant -/

inductive SmState where
  | idle
  | ptkStart
  | ptkDone
  | failed
  deriving DecidableEq

/-- `wpa_sm_t` -/
structure Supplicant where
  state : SmState
  (pmk ptk anonce snonce aa spa : List UInt8)
  /-- The group key and its index, once one is valid. -/
  gtk : Option (List UInt8 × UInt8)
  replay : List UInt8
  haveReplay : Bool
  keyDescVer : UInt16
  useSha256 : Bool
  rsnIe : List UInt8
  txPn : UInt64
  rxPn : UInt64
  failures : UInt32
  deriving DecidableEq

def ptkLen : ℕ := 48

namespace Supplicant

def kck (sm : Supplicant) : List UInt8 := sm.ptk.take 16
def kek (sm : Supplicant) : List UInt8 := (sm.ptk.drop 16).take 16
def tk (sm : Supplicant) : List UInt8 := (sm.ptk.drop 32).take 16

/-- `wpa_sm_complete` -/
def complete (sm : Supplicant) : Bool := sm.state = .ptkDone

end Supplicant

/-- `wpa_sm_init`, once the PMK is computed. -/
def wpaSmInit (pmk aa spa rsnIe : List UInt8) : Supplicant where
  state := .idle
  pmk := pmk
  ptk := zeros ptkLen
  anonce := zeros 32
  snonce := zeros 32
  aa := aa
  spa := spa
  gtk := none
  replay := zeros 8
  haveReplay := false
  keyDescVer := 0
  useSha256 := false
  rsnIe := rsnIe.take 64
  txPn := 1
  rxPn := 0
  failures := 0

section Handshake

variable (c : Crypto)

/-- `wpa_eapol_check_mic` -/
def checkMic (sm : Supplicant) (frame : List UInt8) : Bool :=
  match c.eapolMic sm.keyDescVer sm.kck (setMic frame (zeros 16)) with
  | none => false
  | some mic => keyMic frame = mic

/-- `wpa_build_eapol_key` with a MIC, into `wifi_eapol_buf`. -/
def buildEapolKey (sm : Supplicant) (info : UInt16) (nonce data : List UInt8) : List UInt8 :=
  let total := eapolKeyHdrLen + data.length
  if 512 < total then []
  else
    let frame := [2, 3] ++ be16 (UInt16.ofNat (total - 4)) ++ [2] ++ be16 info ++
      be16 16 ++ sm.replay ++ nonce ++ zeros 16 ++ zeros 8 ++ zeros 8 ++ zeros 16 ++ be16
      (UInt16.ofNat data.length) ++ data
    match c.eapolMic sm.keyDescVer sm.kck frame with
    | none => frame
    | some mic => setMic frame mic

def failed (sm : Supplicant) : Supplicant :=
  { sm with state := .failed, failures := sm.failures + 1 }

/-- The part of `wpa_sm_rx_eapol` for a group rekey. -/
def groupRekey (sm : Supplicant) (frame : List UInt8) : Supplicant × List UInt8 :=
  let reply (sm : Supplicant) :=
    (sm, buildEapolKey c sm (sm.keyDescVer ||| infoMic ||| infoSecure) (zeros 32) [])
  if !hasFlag (keyInfo frame) infoMic then (sm, [])
  else if sm.state ≠ .ptkDone then (sm, [])
  else if !checkMic c sm frame then ({ sm with failures := sm.failures + 1 }, [])
  else
    let sm := { sm with replay := replayCounter frame }
    if !hasFlag (keyInfo frame) infoEncrKeyData then reply sm
    else if 264 < keyDataLength frame ∨ keyDataLength frame < 24 then (sm, [])
    else
      match c.keyUnwrap sm.kek (keyData frame) with
      | none => ({ sm with failures := sm.failures + 1 }, [])
      | some plain =>
        match parseGtkKde plain plain.length 0 with
        | none => reply sm
        | some gtk => reply { sm with gtk := some gtk }

/-- The part for message 1. `random` is what the nonce source gives, which is too little if it
fails. -/
def message1 (sm : Supplicant) (frame random : List UInt8) : Supplicant × List UInt8 :=
  let random := random.take 32
  let sm := { sm with
    anonce := keyNonce frame
    replay := replayCounter frame
    haveReplay := true
    snonce := random ++ sm.snonce.drop random.length }
  if random.length ≠ 32 then ({ sm with state := .failed }, [])
  else
    let sm := { sm with
      ptk := c.derivePtk sm.pmk sm.aa sm.spa sm.anonce sm.snonce ptkLen sm.useSha256
      state := .ptkStart }
    (sm, buildEapolKey c sm (sm.keyDescVer ||| infoPairwise ||| infoMic) sm.snonce sm.rsnIe)

/-- The end of the part for message 3: the key is installed. -/
def install (sm : Supplicant) : Supplicant × List UInt8 :=
  let sm := { sm with state := .ptkDone, txPn := 1, rxPn := 0 }
  (sm, buildEapolKey c sm (sm.keyDescVer ||| infoPairwise ||| infoMic ||| infoSecure) (zeros 32) [])

/-- The part for message 3. -/
def message3 (sm : Supplicant) (frame : List UInt8) : Supplicant × List UInt8 :=
  if sm.state ≠ .ptkStart ∧ sm.state ≠ .ptkDone then (sm, [])
  else if keyNonce frame ≠ sm.anonce then ({ sm with failures := sm.failures + 1 }, [])
  else if !checkMic c sm frame then (failed sm, [])
  else
    let sm := { sm with replay := replayCounter frame }
    if !hasFlag (keyInfo frame) infoEncrKeyData ∨ keyDataLength frame < 24 then install c sm
    else if 264 < keyDataLength frame then (sm, [])
    else
      match c.keyUnwrap sm.kek (keyData frame) with
      | none => (failed sm, [])
      | some plain =>
        match parseGtkKde plain plain.length 0 with
        | none => install c sm
        | some gtk => install c { sm with gtk := some gtk }

/-- An EAPOL-Key frame as `wpa_sm_rx_eapol` wants it. -/
def isEapolKey (frame : List UInt8) : Bool :=
  eapolKeyHdrLen ≤ frame.length && eapolType frame = 3 &&
    (descriptorType frame = 2 || descriptorType frame = 254) &&
    eapolKeyHdrLen + keyDataLength frame ≤ frame.length

def isPairwise (frame : List UInt8) : Bool := hasFlag (keyInfo frame) infoPairwise

def isMessage1 (frame : List UInt8) : Bool :=
  isPairwise frame && hasFlag (keyInfo frame) infoAck && !hasFlag (keyInfo frame) infoMic

def isMessage3 (frame : List UInt8) : Bool :=
  isPairwise frame && hasFlag (keyInfo frame) infoAck && hasFlag (keyInfo frame) infoMic

/-- The descriptor version is kept from every frame, whatever comes of it. -/
def Supplicant.described (sm : Supplicant) (frame : List UInt8) : Supplicant :=
  let ver := keyInfo frame &&& 0x0007
  { sm with keyDescVer := ver, useSha256 := sm.useSha256 || ver = 3 }

/-- `wpa_sm_rx_eapol`: the supplicant after the frame, and the reply, empty if there is none. -/
def wpaSmRxEapol (sm : Supplicant) (frame random : List UInt8) : Supplicant × List UInt8 :=
  if !isEapolKey frame then (sm, [])
  else
    let sm := sm.described frame
    if !isPairwise frame then groupRekey c sm frame
    else if isMessage1 frame then message1 c sm frame random
    else if isMessage3 frame then message3 c sm frame
    else (sm, [])

end Handshake

/-! ## CCMP -/

def ccmpHdrLen : ℕ := 8
def ccmpMicLen : ℕ := 8

def pnByte (pn : UInt64) (i : ℕ) : UInt8 := (pn >>> UInt64.ofNat (8 * i)).toUInt8

def ccmpPnToHdr (pn : UInt64) (keyId : UInt8) : List UInt8 :=
  [pnByte pn 0, pnByte pn 1, 0, (0x20 : UInt8) ||| keyId <<< 6, pnByte pn 2, pnByte pn 3,
    pnByte pn 4, pnByte pn 5]

/-- The packet number in the CCMP header at a position. -/
def ccmpHdrToPn (frame : List UInt8) (i : ℕ) : UInt64 :=
  (byteAt frame i).toUInt64 ||| (byteAt frame (i + 1)).toUInt64 <<< 8 |||
    (byteAt frame (i + 4)).toUInt64 <<< 16 |||
    (byteAt frame (i + 5)).toUInt64 <<< 24 ||| (byteAt frame (i + 6)).toUInt64 <<< 32 |||
    (byteAt frame (i + 7)).toUInt64 <<< 40

def hasAddr4 (fc : UInt16) : Bool := isData fc && fc &&& 0x0300 = 0x0300

def hasQos (fc : UInt16) : Bool := isData fc && hasFlag fc stypeQosData

/-- The traffic identifier of a QoS frame. -/
def ccmpTid (frame : List UInt8) : UInt8 :=
  let fc := frameControl frame
  if hasQos fc then byteAt frame (if hasAddr4 fc then 30 else 24) &&& 0x0F else 0

/-- The frame control field with what may change on the way masked. -/
def ccmpFc (fc : UInt16) : UInt16 :=
  let fc' := if hasQos fc then fc &&& 0x7FFF else fc
  let fc' := if isData fc then fc' &&& ~~~0x0070 else fc'
  (fc' &&& ~~~0x3800) ||| 0x4000

def ccmpAad (frame : List UInt8) : List UInt8 :=
  let fc := frameControl frame
  le16 (ccmpFc fc) ++ bytesAt frame 4 18 ++ le16 (getLe16 frame 22 &&& 0x000F) ++
    (if hasAddr4 fc then bytesAt frame 24 6 else []) ++ if hasQos fc then [ccmpTid frame, 0] else []

def ccmpNonce (frame : List UInt8) (pn : UInt64) : List UInt8 :=
  ccmpTid frame :: addr2 frame ++
    [pnByte pn 5, pnByte pn 4, pnByte pn 3, pnByte pn 2, pnByte pn 1, pnByte pn 0]

section Ccmp

variable (c : Crypto)

/-- `ccmp_encrypt`, into a buffer of `wifiBufSize` bytes. -/
def ccmpEncrypt (tk : List UInt8) (pn : UInt64) (keyId : UInt8) (frame : List UInt8) (start : ℕ) :
    Option (List UInt8) :=
  if frame.length < start then none
  else if wifiBufSize < start + ccmpHdrLen + (frame.length - start) + ccmpMicLen then none
  else
    match c.ccmEncrypt tk (ccmpNonce frame pn) (ccmpAad frame) (frame.drop start) with
    | none => none
    | some (cipher, tag) =>
      some ((frame.take start).set 1 (byteAt frame 1 ||| 0x40) ++ ccmpPnToHdr pn keyId ++
        cipher ++ tag)

/-- `ccmp_decrypt`: the packet number and the plain frame. -/
def ccmpDecrypt (tk frame : List UInt8) (start : ℕ) : Option (UInt64 × List UInt8) :=
  let len := frame.length - start - ccmpHdrLen - ccmpMicLen
  let body := start + ccmpHdrLen
  if frame.length < start + ccmpHdrLen + ccmpMicLen then none
  else if byteAt frame (start + 3) &&& 0x20 = 0 then none
  else if wifiBufSize < start + len then none
  else
    let pn := ccmpHdrToPn frame start
    match c.ccmDecrypt tk (ccmpNonce frame pn) (ccmpAad frame) (bytesAt frame body len)
        (bytesAt frame (body + len) ccmpMicLen) with
    | none => none
    | some plain => some (pn, (frame.take start).set 1 (byteAt frame 1 &&& ~~~0x40) ++ plain)

end Ccmp

end Vextro.Wireless
