import Mathlib

/-!
# Fragments and their tracker

The data of `ip_defrag.cc`: a fragment of the list, the tracker of a datagram
without its list, and what is done to the tracker alone. The events that are
queued for the detection engine are kept in the tracker, newest last.
-/

namespace Snort.Ip

/-! ## Fixed widths -/

variable (x : ℤ)

def u16 : ℕ := (x % 65536).toNat

def i16 : ℤ := x.bmod 65536

def u32 : ℕ := (x % 4294967296).toNat

def u64 : ℕ := (x % 18446744073709551616).toNat

/-! ## Data -/

abbrev Byte := BitVec 8

def IP_MAXPACKET : ℤ := 65535

inductive FragPolicy where
  | first
  | linux
  | bsd
  | bsdRight
  | last
  | windows
  | solaris
deriving DecidableEq

inductive Event where
  | ipOptions
  | teardrop
  | tinyFragment
  | excessiveOverlap
  | shortFrag
  | anomalyOversize
  | anomalyZero
  | anomalyBadsizeLg
  | anomalyBadsizeSm
  | anomalyOvlp
  | minTtlEvasion
deriving DecidableEq

structure Timeval where
  sec : ℤ
  usec : ℤ
deriving DecidableEq

/-- The fields of a `FragEngine`, and the snap length of the interface. -/
structure FragEngine where
  maxOverlaps : ℕ
  minFragmentLength : ℕ
  fragTimeout : ℕ
  fragPolicy : FragPolicy
  minTtl : ℕ
  snapLen : ℕ

/-- A packet that is a fragment. The offset stands in the header in units of eight bytes. -/
structure Packet where
  isIp4 : Bool
  off : ℕ
  /-- `DECODE_MF` -/
  mf : Bool
  data : List Byte
  /-- the protocol of the header, or of the fragment header -/
  proto : ℕ
  ttl : ℕ
  ts : Timeval
  ipOptData : List Byte
  /-- the codes of the options, as the iterator finds them -/
  ipOptCodes : List ℕ
  /-- the policy of the flow -/
  ssnPolicy : Option FragPolicy
  /-- what the decoder calls a fragment -/
  isFragment : off ≠ 0 ∨ mf = true
  off_lt : off < 65536
  off_mod : off % 8 = 0
  dsize_lt : data.length < 65536

def Packet.dsize (p : Packet) : ℕ := p.data.length

/-- A fragment of the list. The position of the data is relative to the buffer. -/
structure Fragment where
  fptr : List Byte
  data : ℤ
  size : ℕ
  offset : ℕ
  ord : ℕ
  last : Bool
deriving DecidableEq

variable (frag : Fragment)

def Fragment.flen : ℕ := frag.fptr.length

/-- Where the fragment ends. -/
def Fragment.fin : ℕ := frag.offset + frag.size

/-- The byte that the fragment holds for an offset of the datagram. -/
def Fragment.byteAt (i : ℕ) : Option Byte :=
  let k := frag.data + i - frag.offset
  if 0 ≤ k then frag.fptr[k.toNat]? else none

/-- The tracker without its list of fragments. -/
structure FragTracker where
  ipProto : ℕ
  ttl : ℕ
  gotFirst : Bool
  gotLast : Bool
  rebuilt : Bool
  bad : Bool
  noBsdVuln : Bool
  dropFragments : Bool
  fragBytes : ℕ
  calculatedSize : ℕ
  fragPkts : ℕ
  fragTime : Timeval
  ipOptionsLen : ℕ
  ipOptionsData : Option (List Byte)
  copiedIpOptionsLen : ℕ
  /-- the engine is set -/
  engine : Bool
  ordinal : ℕ
  fragPolicy : FragPolicy
  overlapCount : ℕ
  events : List Event
deriving DecidableEq

inductive InsertRet where
  | ok
  | failed
  | attack
  | anomaly
  | overlapLimit
deriving DecidableEq

namespace FragTracker
variable (ft : FragTracker)

/-- An event is queued. -/
def alert (event : Event) : FragTracker := { ft with events := ft.events ++ [event] }

def addBytes (n : ℤ) : FragTracker := { ft with fragBytes := u32 (ft.fragBytes + n) }

def countOverlap : FragTracker := { ft with overlapCount := u32 (ft.overlapCount + 1) }
end FragTracker

/-! ## Checks -/

inductive FirstLast where
  | ok
  | lastDuplicate
  | lastOffsetAdjust
deriving DecidableEq

/-- `FragCheckFirstLast` -/
def fragCheckFirstLast (p : Packet) (ft : FragTracker) (fragOffset : ℕ) : FirstLast × FragTracker :=
  let (retVal, ft) :=
    if p.mf && fragOffset = 0 then (FirstLast.ok, { ft with gotFirst := true })
    else if !p.mf && 0 < fragOffset then
      let endOfThisFrag := u16 (fragOffset + p.dsize)
      let retVal :=
        if ft.gotLast then
          if endOfThisFrag < ft.calculatedSize then FirstLast.lastDuplicate
          else if ft.fragPolicy = .solaris then .lastOffsetAdjust
          else .ok
        else .ok
      let ft := { ft with gotLast := true }
      if ft.calculatedSize < endOfThisFrag && retVal ≠ .lastOffsetAdjust then
        (retVal, { ft with calculatedSize := endOfThisFrag })
      else (retVal, ft)
    else (.ok, ft)
  (retVal, if fragOffset ≠ 0 then { ft with noBsdVuln := true } else ft)

variable (ft : FragTracker)

/-- `FragHandleIPOptions` -/
def fragHandleIPOptions (p : Packet) (fragOffset : ℕ) : FragTracker :=
  let ipOptionsLen := p.ipOptData.length
  if fragOffset = 0 then
    if ipOptionsLen = 0 then ft
    else if ft.ipOptionsData.isSome then
      if ft.gotFirst && ft.ipOptionsLen ≠ ipOptionsLen then ft.alert .ipOptions else ft
    else
      { ft with ipOptionsData := some p.ipOptData, ipOptionsLen := ipOptionsLen % 256 }
  else if ft.copiedIpOptionsLen ≠ 0 then
    if ft.copiedIpOptionsLen ≠ ipOptionsLen then ft.alert .ipOptions else ft
  else
    let ft := { ft with copiedIpOptionsLen := ipOptionsLen % 256 }
    -- the high bit of the code says that an option is copied; `EOL` is 0
    p.ipOptCodes.foldl (fun ft code => if code < 128 && code ≠ 0 then ft.alert .ipOptions else ft)
      ft

/-- `checkTinyFragments` -/
def checkTinyFragments (fe : FragEngine) (p : Packet) (ft : FragTracker) (trimmedLength : ℤ) :
    FragTracker :=
  if p.mf && fe.minFragmentLength ≠ 0 then
    if p.dsize ≤ fe.minFragmentLength then ft.alert .tinyFragment
    else if u32 trimmedLength ≤ fe.minFragmentLength then ft.alert .tinyFragment
    else ft
  else ft

/-- `frag_timed_out` -/
def fragTimedOut (currentTime startTime : Timeval) (fe : FragEngine) : Bool :=
  let sec := currentTime.sec - startTime.sec
  let sec := if currentTime.usec - startTime.usec < 0 then sec - 1 else sec
  fe.fragTimeout ≤ sec

/-- `FragIsComplete` -/
def fragIsComplete : Bool :=
  ft.gotFirst && ft.gotLast && ft.calculatedSize ≤ ft.fragBytes

/-! ## The new fragment -/

/-- What `insert` makes of the header of a packet. -/
structure NewFrag where
  origOffset : ℕ
  fragOffset : ℕ
  fragEnd : ℕ
  len : ℤ
  lastfrag : Bool

/-- The rounding of a fragment that is not the last one. The fragment must not end behind the
last one. -/
def roundEnd (fragEnd : ℕ) (fragLength : ℤ) : Except FragTracker (FragTracker × ℕ × ℤ) :=
  let ft := if fragEnd % 8 ≠ 0 then ft.alert .shortFrag else ft
  let roundedEnd := fragEnd - fragEnd % 8
  let len := i16 (fragLength - (fragEnd - roundedEnd))
  if ft.calculatedSize < roundedEnd then
    if ft.gotLast then .error (ft.alert .anomalyOversize)
    else .ok ({ ft with calculatedSize := roundedEnd }, roundedEnd, len)
  else .ok (ft, roundedEnd, len)

/-- The protocol of an IPv6 datagram is that of its first fragment. -/
def setProto (p : Packet) (ft : FragTracker) : FragTracker :=
  if !p.isIp4 && p.off = 0 then { ft with ipProto := p.proto } else ft

/-- Where the new fragment ends, and its length. -/
def sizeFrag (p : Packet) (ft : FragTracker) (firstLastOk : FirstLast) (fragOffset : ℕ) :
    Except (InsertRet × FragTracker) (FragTracker × ℕ × ℤ) :=
  let fragLength := i16 p.dsize
  if IP_MAXPACKET - fragOffset < fragLength then
    .error (.anomaly, { ft with bad := true }.alert .anomalyBadsizeLg)
  else
    let fragEnd := u16 (fragOffset + fragLength)
    if !p.mf then
      if ft.calculatedSize < fragEnd && firstLastOk = .lastOffsetAdjust then
        .ok ({ ft with calculatedSize := fragEnd }, fragEnd, fragLength)
      else .ok (ft, fragEnd, fragLength)
    else
      match roundEnd ft fragEnd fragLength with
      | .error ft => .error (.anomaly, ft)
      | .ok sized => .ok sized

/-- The last checks before the walk over the list. -/
def enterFrag (p : Packet) (fragOffset : ℕ) :
    Except (InsertRet × FragTracker) (FragTracker × ℕ × ℤ) →
      Except (InsertRet × FragTracker) (FragTracker × NewFrag)
  | .error ret => .error ret
  | .ok (ft, fragEnd, len) =>
    if fragEnd = fragOffset then .error (.anomaly, ft.alert .anomalyZero)
    else
      let ft := if p.isIp4 then fragHandleIPOptions ft p fragOffset else ft
      .ok ({ ft with fragPkts := u32 (ft.fragPkts + 1) }, ⟨p.off, fragOffset, fragEnd, len, !p.mf⟩)

/-- The begin of `insert`, up to the walk over the list. -/
def startInsert (p : Packet) (ft : FragTracker) :
    Except (InsertRet × FragTracker) (FragTracker × NewFrag) :=
  let check := fragCheckFirstLast p (setProto p ft) p.off
  -- the weird Solaris case
  let fragOffset := if check.1 = .lastOffsetAdjust then u16 check.2.calculatedSize else p.off
  enterFrag p fragOffset (sizeFrag p check.2 check.1 fragOffset)
end Snort.Ip
