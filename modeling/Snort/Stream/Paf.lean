import Snort.Stream.Tcp.TcpSegmentNode

/-!
# Protocol-aware flushing

The scanner of `paf.cc`. The bytes of a stream are handed to the `scan` method of
a splitter as they arrive, and the splitter answers where the next message ends.
`paf_check` turns these answers into amounts to be flushed. It keeps the position
of the last flush and a cursor into the stream. All calls of `scan` are recorded:
the place in the segment that the data pointer stood at, and the offset from the
last flush at which the scanner believed it to be.
-/

namespace Snort.Paf
open Tcp (seqGt seqLeq seqLt)

/-- `StreamSplitter::Status` -/
inductive Status where
  | abort
  | start
  | search
  | flush
  | limit
  | skip
  | limited
deriving DecidableEq, Repr

inductive FlushType where
  | nop
  | sfp
  | paf
  | limit
  | max
deriving DecidableEq, Repr

/-- `PAF_State` -/
structure PafState where
  /-- stream cursor -/
  seq : BitVec 32
  /-- last flush position -/
  pos : BitVec 32
  /-- current flush point -/
  fpt : BitVec 32
  /-- total bytes flushed -/
  tot : BitVec 32
  paf : Status
deriving DecidableEq, Repr

structure PafAux where
  ft : FlushType
  /-- total bytes queued -/
  len : BitVec 32
  /-- offset from start of queued bytes -/
  idx : BitVec 32
deriving DecidableEq, Repr

/-- What `scan` returns, with the value that it leaves in `*fp`. -/
structure Scanned (σ : Type) where
  splitter : σ
  status : Status
  fp : BitVec 32

/-- The methods of a splitter that this file calls. -/
structure StreamSplitter (σ : Type) where
  /-- the bytes at the data pointer, their number and the packet flags -/
  scan : σ → List UInt8 → BitVec 32 → BitVec 32 → Scanned σ
  max : σ → BitVec 32

/-- A call of `scan`. -/
structure Scan where
  /-- the data pointer, as an index into the segment -/
  data : ℕ
  len : BitVec 32
  idx : BitVec 32
  status : Status
  fp : BitVec 32
deriving DecidableEq, Repr

def pktPduHead : BitVec 32 := 0x100

def pktPduTail : BitVec 32 := 0x200

def pafLimitFuzz : BitVec 32 := 1500

/-- `MAX_PAF_MAX` -/
def maxPafMax : BitVec 32 := 65535 - pafLimitFuzz - 255

namespace PafState

/-- `paf_setup` on a cleared state -/
def setup : PafState := ⟨0, 0, 0, 0, .start⟩

def jump (ps : PafState) (n : BitVec 32) : PafState :=
  { ps with pos := ps.pos + n, seq := ps.pos + n }
end PafState

/-! ## Flushing -/

/-- The end of `paf_flush`, where `amount` is what it calls `at`. -/
def pafFlushAmount (ps : PafState) (px : PafAux) (flags amount : BitVec 32) :
    PafState × BitVec 32 × BitVec 32 :=
  if amount = 0 ∨ px.len = 0 then (ps, flags, -1)
  else
    let amount := if 0x7FFFFFFF < amount then 0x7FFFFFFF else amount
    let flags := if ps.tot = 0 then flags ||| pktPduHead else flags
    let tot := if flags &&& pktPduTail ≠ 0 then 0 else ps.tot + amount
    ({ ps with tot := tot }, flags, amount)

/-- `paf_flush`: the state, the flags and the amount. -/
def pafFlush (ps : PafState) (px : PafAux) (flags : BitVec 32) : PafState × BitVec 32 × BitVec 32 :=
  let flags := flags &&& ~~~(pktPduHead ||| pktPduTail)
  match px.ft with
  | .nop => (ps, flags, -1)
  | .sfp => (ps, 0, -1)
  | .paf => pafFlushAmount ps px (flags ||| pktPduTail) ps.fpt
  | .limit =>
    if px.len < ps.fpt then pafFlushAmount { ps with fpt := ps.fpt - px.len } px flags px.len
    -- the characters that were scanned but are not flushed
    else pafFlushAmount { ps with fpt := px.len - ps.fpt } px flags ps.fpt
  | .max =>
    let fpt := if px.len < ps.fpt then ps.fpt - px.len else 0
    pafFlushAmount { ps with fpt := fpt } px flags px.len

/-! ## Scanning -/

/-- The variables that a call of `paf_check` changes. -/
structure Check (σ : Type) where
  splitter : σ
  ps : PafState
  px : PafAux
  flags : BitVec 32
  scans : List Scan

variable {σ : Type} (sp : StreamSplitter σ)

/-- `paf_callback`, on the bytes of the segment from the data pointer on. -/
def pafCallback (bytes : List UInt8) (c : Check σ) (data : ℕ) (len : BitVec 32) : Check σ × Bool :=
  let r := sp.scan c.splitter ((bytes.drop data).take len.toNat) len c.flags
  let scans := c.scans ++ [⟨data, len, c.px.idx, r.status, r.fp⟩]
  let c := { c with splitter := r.splitter, scans := scans }
  if r.status = .abort then ({ c with ps := { c.ps with paf := r.status, fpt := r.fp } }, false)
  else if r.status = .search then
    ({ c with
        ps := { c.ps with paf := r.status, fpt := r.fp }
        px := { c.px with idx := c.px.len } }, false)
  else
    let fpt := r.fp + c.px.idx
    let c := { c with ps := { c.ps with paf := r.status, fpt := fpt } }
    if fpt ≤ c.px.len then ({ c with px := { c.px with idx := fpt } }, true)
    else ({ c with px := { c.px with idx := c.px.len } }, false)

/-- `paf_eval` -/
def pafEval (bytes : List UInt8) (c : Check σ) (data : ℕ) (len : BitVec 32) : Check σ × Bool :=
  match c.ps.paf with
  | .search => if c.px.idx < c.px.len then pafCallback sp bytes c data len else (c, false)
  | .flush =>
    if c.ps.fpt ≤ c.px.len then
      ({ c with ps := { c.ps with paf := .search }, px := { c.px with ft := .paf } }, true)
    else if sp.max c.splitter ≤ c.px.len then ({ c with px := { c.px with ft := .max } }, false)
    else (c, false)
  | .limit =>
    if sp.max c.splitter ≤ c.px.len + pafLimitFuzz then
      ({ c with ps := { c.ps with paf := .limited }, px := { c.px with ft := .limit } }, false)
    else ({ c with ps := { c.ps with paf := .search } }, false)
  | .skip =>
    if c.ps.fpt < c.px.len then
      let delta := c.ps.fpt - c.px.idx
      if c.px.idx < c.ps.fpt then
        if len < delta then (c, false)
        else pafCallback sp bytes { c with px := { c.px with idx := c.ps.fpt } }
          (data + delta.toNat) (len - delta)
      else pafCallback sp bytes { c with px := { c.px with idx := c.ps.fpt } } data len
    else (c, false)
  | .limited =>
    -- the bytes that were scanned before the limit
    ({ c with
        ps := { c.ps with paf := .search, fpt := 0 }
        px := { c.px with idx := c.px.idx + c.ps.fpt } }, true)
  | .abort | .start => ({ c with px := { c.px with ft := .sfp } }, false)

variable (c : Check σ)

/-- `paf_flush` and `paf_jump` -/
def flushAndJump : Check σ × BitVec 32 :=
  let (ps, flags, fp) := pafFlush c.ps c.px c.flags
  ({ c with ps := ps.jump fp, flags := flags }, fp)

/-- What `paf_check` does when its loop ends. -/
def pafEnd : Check σ × BitVec 32 :=
  if c.ps.paf = .abort then ({ c with flags := 0 }, -1)
  else if c.ps.paf ≠ .flush ∧ sp.max c.splitter < c.px.len then
    flushAndJump { c with px := { c.px with ft := .max } }
  else (c, -1)

/-- The loop of `paf_check`. There is no result if it does not end within `fuel` rounds. -/
def pafLoop (bytes : List UInt8) :
    ℕ → Check σ → ℕ → BitVec 32 → Check σ × Option (BitVec 32)
  | 0, c, _, _ => (c, none)
  | fuel + 1, c, data, len =>
    let idx := c.px.idx
    let (c, cont) := pafEval sp bytes { c with px := { c.px with ft := .nop } } data len
    if c.px.ft ≠ .nop then
      let (c, fp) := flushAndJump c
      (c, some fp)
    else if cont then
      let shift := if idx < c.px.idx then c.px.idx - idx else 0
      let shift := if len < shift then len else shift
      pafLoop bytes fuel c (data + shift.toNat) (len - shift)
    else
      let (c, fp) := pafEnd sp c
      (c, some fp)

/-- The part of `paf_check` from where it is known which bytes are new. -/
def pafScan (bytes : List UInt8) (data : ℕ) (len total : BitVec 32) :
    Check σ × Option (BitVec 32) :=
  let ps := { c.ps with seq := c.ps.seq + len }
  let idx := total - len
  if maxPafMax ≤ total ∧ sp.max c.splitter < total then
    pafLoop sp bytes (2 * total.toNat + 3) { c with ps := ps, px := ⟨.nop, maxPafMax, idx⟩ } data
      (len + maxPafMax - total)
  else
    pafLoop sp bytes (2 * total.toNat + 3) { c with ps := ps, px := ⟨.nop, total, idx⟩ } data len

/-- `paf_check` on a segment with the given bytes. A round of the loop that goes on moves the
offset, or is the one that leaves `LIMITED`, so that `total` bounds their number. -/
def pafCheck (splitter : σ) (ps : PafState) (bytes : List UInt8) (total seq flags : BitVec 32) :
    Check σ × Option (BitVec 32) :=
  let len := BitVec.ofNat 32 bytes.length
  let c : Check σ := ⟨splitter, ps, ⟨.nop, 0, 0⟩, flags, []⟩
  if ps.paf = .start then
    pafScan sp { c with ps := { ps with seq := seq, pos := seq, paf := .search } } bytes 0 len total
  else if seqGt seq ps.seq then
    -- a gap: what is queued is flushed
    if total - len ≠ 0 then
      let (ps, flags, fp) := pafFlush { ps with fpt := 0 } ⟨.max, total - len, 0⟩ flags
      ({ c with ps := ps, flags := flags }, some fp)
    else ({ c with flags := 0 }, some (-1))
  else if seqLeq (seq + len) ps.seq then (c, some (-1))
  else if seqLt seq ps.seq then
    let shift := ps.seq - seq
    pafScan sp c bytes shift.toNat (len - shift) total
  else pafScan sp c bytes 0 len total
end Snort.Paf
