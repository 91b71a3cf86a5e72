import Vextro.Model.Wpa2

/-! The station on a WPA2 network: `wifi.c`, from the handshake on.

`ops->tx` and `ops->rx` are the radio: the data frames it is given are kept in a list, and what it
receives comes with each step. -/

namespace Vextro.Wireless

inductive WifiState where
  | absent
  | noFirmware
  | idle
  | scanning
  | authenticating
  | associating
  | handshaking
  | connected
  | failed
  deriving DecidableEq

/-- A frame put on the air, with the key and the packet number it is encrypted under. -/
structure Sent where
  bytes : List UInt8
  under : Option (List UInt8 × UInt64)
  deriving DecidableEq

/-- An Ethernet frame handed to the network stack, the frame it came in, and the temporal key the
supplicant held at that moment. -/
structure Delivery where
  eth : List UInt8
  frame : List UInt8
  tk : List UInt8
  deriving DecidableEq

/-- `wifi_dev`, `wifi_target` and `wifi_sm`, and what has gone through them, the latest first. -/
structure Link where
  state : WifiState
  hwCrypto : Bool
  seq : UInt16
  mac : List UInt8
  bssid : List UInt8
  sm : Supplicant
  air : List Sent
  delivered : List Delivery
  deriving DecidableEq

variable (c : Crypto)

/-! ## Sending -/

def Link.send (l : Link) (s : Sent) : Link := { l with air := s :: l.air, seq := l.seq + 1 }

def wifiTxEapol (l : Link) (body : List UInt8) : Link :=
  if 600 < body.length + 14 then l
  else
    match ethToData (bytesAt l.bssid 0 6 ++ bytesAt l.mac 0 6 ++ be16 eapolEthertype ++ body)
      l.bssid l.seq false with
    | none => l
    | some frame => l.send ⟨frame, none⟩

/-- `wifi_tx_eth`, and whether it returns success. -/
def wifiTxEth (l : Link) (eth : List UInt8) : Link × Bool :=
  if l.state ≠ .connected then (l, false)
  else
    match ethToData eth l.bssid l.seq (l.sm.complete && !l.hwCrypto) with
    | none => (l, false)
    | some plain =>
      -- an open network, or hardware that encrypts
      if !l.sm.complete || l.hwCrypto then (l.send ⟨plain, none⟩, true)
      else
        match ccmpEncrypt c l.sm.tk l.sm.txPn 0 plain (hdrlen (frameControl plain)) with
        | none => (l, false)
        | some cipher =>
          ({ l with sm := { l.sm with txPn := l.sm.txPn + 1 } }.send
            ⟨cipher, some (l.sm.tk, l.sm.txPn)⟩, true)

/-! ## Receiving -/

/-- An EAPOL frame goes to the supplicant, and its reply on the air. -/
def Link.eapol (l : Link) (eth random : List UInt8) : Link :=
  let (sm, reply) := wpaSmRxEapol c l.sm (eth.drop 14) random
  if reply = [] then { l with sm := sm } else wifiTxEapol { l with sm := sm } reply

/-- The decryption in `wifi_rx_eth`: the plain frame, unless it is dropped. -/
def Link.unprotect (l : Link) (frame : List UInt8) : Option (Link × List UInt8) :=
  let fc := frameControl frame
  if isProtected fc && !l.hwCrypto then
    if !l.sm.complete then none
    else
      match ccmpDecrypt c l.sm.tk frame (hdrlen fc) with
      | none => none
      | some (pn, plain) =>
        if pn ≤ l.sm.rxPn then none else some ({ l with sm := { l.sm with rxPn := pn } }, plain)
  else some (l, frame)

/-- The end of `wifi_rx_eth`: `frame` is what was received, and `plain` what it says. -/
def Link.deliver (l : Link) (frame plain random : List UInt8) (max : ℕ) : Link :=
  match dataToEth plain with
  | none => l
  | some eth =>
    if ethertype eth = eapolEthertype then l.eapol c eth random
    else if max < eth.length then l
    else { l with delivered := ⟨eth, frame, l.sm.tk⟩ :: l.delivered }

/-- `wifi_rx_eth` on the next frame, into a buffer of `max` bytes. -/
def wifiRxEth (l : Link) (frame random : List UInt8) (max : ℕ) : Link :=
  let fc := frameControl frame
  if frame = [] then l
  else if isMgmt fc then
    if frameStype fc = stypeDeauth ∨ frameStype fc = stypeDisassoc then { l with state := .idle }
      else l
  else if !isData fc then l
  else
    match l.unprotect c frame with
    | none => l
    | some (l, plain) => l.deliver c frame plain random max

/-- One round of the loop of `wifi_run_handshake`, with the frame it receives. -/
def handshakeRound (l : Link) (frame random : List UInt8) : Link :=
  match if frame = [] then none else dataToEth frame with
  | none => l
  | some eth =>
    if eth.length ≤ 14 ∨ ethertype eth ≠ eapolEthertype then l
    else
      let l := l.eapol c eth random
      if l.sm.state = .failed then { l with state := .failed }
      else if l.sm.complete then { l with state := .connected }
      else l

/-! ## Steps -/

inductive Step where
  /-- `wifi_connect` has associated with a WPA2 network, which takes frames of its own. -/
  | join (bssid pmk rsnIe : List UInt8) (seq : UInt16)
  /-- A round of the handshake. -/
  | handshake (frame random : List UInt8)
  /-- The last round is over. -/
  | timeout
  | receive (frame random : List UInt8) (max : ℕ)
  | transmit (eth : List UInt8)
  | disconnect

/-- The supplicant once `wifi_disconnect` has overwritten it. -/
def wiped : Supplicant := { wpaSmInit (zeros 32) (zeros 6) (zeros 6) [] with txPn := 0 }

/-- `vx_use_wifi` lets frames through only on a connected link, and the handshake runs only before
that. -/
def Link.step (l : Link) : Step → Link
  | .join bssid pmk rsnIe seq =>
    { l with
      state := .handshaking, seq := seq, bssid := bssid, sm := wpaSmInit pmk bssid l.mac rsnIe }
  | .handshake frame random => if l.state = .handshaking then handshakeRound c l frame random else l
  | .timeout => if l.state = .handshaking then { l with state := .failed } else l
  | .receive frame random max => if l.state = .connected then wifiRxEth c l frame random max else l
  | .transmit eth => if l.state = .connected then (wifiTxEth c l eth).1 else l
  | .disconnect =>
    if l.state = .connected then { l with state := .idle, seq := l.seq + 1, sm := wiped } else l

end Vextro.Wireless
