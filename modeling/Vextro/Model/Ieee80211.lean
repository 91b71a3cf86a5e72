import Mathlib.Algebra.Group.Nat.Defs

/-! Frames of 802.11 and of Ethernet: `ieee80211.h`.

A frame is the list of its bytes. What lies past its end in the driver's buffer is read as zero;
only the flags of a frame of one byte are affected, and no such frame is delivered. -/

namespace Vextro.Wireless

def byteAt (frame : List UInt8) (i : ℕ) : UInt8 := frame.getD i 0

def bytesAt (frame : List UInt8) (i n : ℕ) : List UInt8 :=
  (List.range n).map fun j => byteAt frame (i + j)

def getLe16 (frame : List UInt8) (i : ℕ) : UInt16 :=
  (byteAt frame i).toUInt16 ||| (byteAt frame (i + 1)).toUInt16 <<< 8

def getBe16 (frame : List UInt8) (i : ℕ) : UInt16 :=
  (byteAt frame i).toUInt16 <<< 8 ||| (byteAt frame (i + 1)).toUInt16

def le16 (x : UInt16) : List UInt8 := [x.toUInt8, (x >>> 8).toUInt8]

def be16 (x : UInt16) : List UInt8 := [(x >>> 8).toUInt8, x.toUInt8]

/-! ## The frame control field -/

def ftypeMgmt : UInt16 := 0x0000
def ftypeCtl : UInt16 := 0x0004
def ftypeData : UInt16 := 0x0008

def stypeDisassoc : UInt16 := 0x00A0
def stypeDeauth : UInt16 := 0x00C0

def stypeNullfunc : UInt16 := 0x0040
def stypeQosData : UInt16 := 0x0080

def fcTods : UInt16 := 0x0100
def fcFromds : UInt16 := 0x0200
def fcProtected : UInt16 := 0x4000
def fcOrder : UInt16 := 0x8000

def frameControl (frame : List UInt8) : UInt16 := getLe16 frame 0

def frameType (fc : UInt16) : UInt16 := fc &&& 0x000C

def frameStype (fc : UInt16) : UInt16 := fc &&& 0x00F0

def isMgmt (fc : UInt16) : Bool := frameType fc = ftypeMgmt

def isData (fc : UInt16) : Bool := frameType fc = ftypeData

def isProtected (fc : UInt16) : Bool := fc &&& fcProtected ≠ 0

def hdrlen (fc : UInt16) : ℕ :=
  if isData fc then
    24 + (if fc &&& (fcTods ||| fcFromds) = fcTods ||| fcFromds then 6 else 0) +
      if fc &&& stypeQosData ≠ 0 then (if fc &&& fcOrder ≠ 0 then 6 else 2) else 0
  else if frameType fc = ftypeCtl then
    if frameStype fc = 0x00C0 ∨ frameStype fc = 0x00D0 then 10 else 16
  else 24

/-! ## To and from Ethernet -/

def snapLen : ℕ := 8

def rfc1042 : List UInt8 := [0xAA, 0xAA, 0x03, 0x00, 0x00, 0x00]

def addr1 (frame : List UInt8) : List UInt8 := bytesAt frame 4 6
def addr2 (frame : List UInt8) : List UInt8 := bytesAt frame 10 6
def addr3 (frame : List UInt8) : List UInt8 := bytesAt frame 16 6

/-- `WIFI_BUF_SIZE`, the size of every buffer a frame goes through. -/
def wifiBufSize : ℕ := 2048

/-- `ieee80211_data_to_eth`, into a buffer of `wifiBufSize` bytes. -/
def dataToEth (frame : List UInt8) : Option (List UInt8) :=
  let fc := frameControl frame
  let start := hdrlen fc
  if !isData fc then none
  else if frameStype fc = stypeNullfunc then none
  else if frame.length < start + snapLen then none
  else if bytesAt frame start 6 ≠ rfc1042 then none
  else if wifiBufSize < 14 + (frame.length - start - snapLen) then none
  else
    let (da, sa) :=
      if fc &&& fcFromds ≠ 0 then (addr1 frame, addr3 frame)
      else if fc &&& fcTods ≠ 0 then (addr3 frame, addr2 frame)
      else (addr1 frame, addr2 frame)
    some (da ++ sa ++ bytesAt frame (start + 6) 2 ++ frame.drop (start + snapLen))

def ethertype (eth : List UInt8) : UInt16 := getBe16 eth 12

/-- `ieee80211_eth_to_data`, into a buffer of `wifiBufSize` bytes. -/
def ethToData (eth bssid : List UInt8) (seq : UInt16)
    (protectedFrame : Bool) : Option (List UInt8) :=
  if eth.length < 14 then none
  else if wifiBufSize < 24 + snapLen + (eth.length - 14) then none
  else
    let fc := ftypeData ||| fcTods ||| if protectedFrame then fcProtected else 0
    some (le16 fc ++ le16 0 ++ bytesAt bssid 0 6 ++ bytesAt eth 6 6 ++ bytesAt eth 0 6 ++
      le16 (seq <<< 4) ++
      rfc1042 ++ bytesAt eth 12 2 ++ eth.drop 14)

end Vextro.Wireless
