import Snort.Stream.Tcp.ListRefinement

/-!
# Segments in a window of the sequence space

As long as all sequence numbers lie in a window of less than half the sequence
space, a node is an interval of positions and the wrapped arithmetic of the
overlap editor is arithmetic on positions.
-/

namespace Snort.Tcp
open BitVec Nat Serial TcpReassemblerState

/-! ## Comparisons -/

section Compare
variable {w a b : BitVec 32} (ha : pos w a < 2 ^ 31) (hb : pos w b < 2 ^ 31)
include ha hb

theorem toInt_sub_pos : (a - b).toInt = (pos w a : ℤ) - pos w b :=
  toInt_sub (by decide) ha hb

theorem seqLt_iff : seqLt a b ↔ pos w a < pos w b := by
  simp only [seqLt, toInt_sub_pos ha hb, decide_eq_true_eq]
  omega

theorem seqLeq_iff : seqLeq a b ↔ pos w a ≤ pos w b := by
  simp only [seqLeq, toInt_sub_pos ha hb, decide_eq_true_eq]
  omega

theorem seqGt_iff : seqGt a b ↔ pos w b < pos w a := by
  simp only [seqGt, toInt_sub_pos ha hb, decide_eq_true_eq]
  omega

theorem seqGeq_iff : seqGeq a b ↔ pos w b ≤ pos w a := by
  simp only [seqGeq, toInt_sub_pos ha hb, decide_eq_true_eq]
  omega

theorem seqEq_iff : seqEq a b ↔ pos w a = pos w b := by
  simp only [seqEq, toInt_sub_pos ha hb, decide_eq_true_eq]
  omega
end Compare

/-! ## Nodes as intervals -/

namespace TcpSegment
variable (w : BitVec 32) (tsn : TcpSegment)

/-- The position of the first byte of a node. -/
def start : ℕ := pos w tsn.iSeq

/-- The position behind the last byte of a node. -/
def fin : ℕ := tsn.start w + tsn.iLen.toNat

theorem fin_eq : tsn.fin w = tsn.start w + tsn.iLen.toNat := rfl

/-- A node of the window of which nothing has been flushed. -/
structure Sound (w : BitVec 32) (tsn : TcpSegment) : Prop where
  cSeq : tsn.cSeq = tsn.iSeq
  cLen : tsn.cLen = tsn.iLen
  start_lt : tsn.start w < tsn.fin w
  fin_lt : tsn.fin w < 2 ^ 31
  data_lt : tsn.data.length < 2 ^ 16

/-- The bytes of a node lie inside its allocated data. -/
def Stored : Prop :=
  tsn.offset.toNat + tsn.iLen.toNat ≤ tsn.data.length

/-- The byte that a node holds for a position. -/
def byte (p : ℕ) : Option UInt8 :=
  tsn.data[tsn.offset.toNat + (p - tsn.start w)]?

/-- The byte that `is_retransmit` takes for that of a position: the test does not look at
the offset of the node. -/
def rawByte (p : ℕ) : Option UInt8 :=
  tsn.data[p - tsn.start w]?

variable {w : BitVec 32} {tsn : TcpSegment} {seq : BitVec 32} {delta : BitVec 16} {lo p : ℕ}

theorem Sound.start_bound (h : tsn.Sound w) : pos w tsn.iSeq < 2 ^ 31 :=
  h.start_lt.trans h.fin_lt

theorem toNat_iLen (tsn : TcpSegment) : (tsn.iLen.setWidth 32).toNat = tsn.iLen.toNat :=
  toNat_setWidth_of_le (by decide)

section
variable (h : tsn.Sound w)
include h

theorem Sound.pos_endSeq : pos w tsn.endSeq = tsn.fin w := by
  have hlt := h.fin_lt
  unfold endSeq fin start at *
  rw [pos_add, toNat_iLen]
  rw [toNat_iLen]
  omega

theorem Sound.endSeq_bound : pos w tsn.endSeq < 2 ^ 31 :=
  h.pos_endSeq ▸ h.fin_lt

theorem Sound.cutTail {overlap : BitVec 32} {hi : ℕ} (hlo : tsn.start w < hi) (hhi : hi ≤ tsn.fin w)
    (ho : overlap.toNat = tsn.fin w - hi) :
    (tsn.cutTail overlap).Sound w ∧ (tsn.cutTail overlap).start w = tsn.start w ∧
      (tsn.cutTail overlap).fin w = hi ∧ (tsn.Stored → (tsn.cutTail overlap).Stored) := by
  have hbound := tsn.iLen.isLt
  have hfin := tsn.fin_eq w
  have hcut : (overlap.setWidth 16).toNat = tsn.fin w - hi := by
    rw [toNat_setWidth, ho, mod_eq_of_lt (by omega)]
  have hlen : (tsn.iLen - overlap.setWidth 16).toNat = hi - tsn.start w := by
    rw [toNat_sub_of_le (le_def.mpr (by omega)), hcut]
    omega
  have hfin' : (tsn.cutTail overlap).fin w = hi := by
    show tsn.start w + (tsn.iLen - overlap.setWidth 16).toNat = hi
    omega
  refine ⟨⟨h.cSeq, ?_, ?_, ?_, h.data_lt⟩, rfl, hfin', fun hst => ?_⟩
  · show tsn.cLen - overlap.setWidth 16 = tsn.iLen - overlap.setWidth 16
    rw [h.cLen]
  · rw [hfin']
    exact hlo
  · rw [hfin']
    exact hhi.trans_lt h.fin_lt
  · have hle : tsn.offset.toNat + tsn.iLen.toNat ≤ tsn.data.length := hst
    show tsn.offset.toNat + (tsn.iLen - overlap.setWidth 16).toNat ≤ tsn.data.length
    omega

theorem Sound.cutHead (hlo : tsn.start w ≤ lo) (hhi : lo < tsn.fin w) (hseq : pos w seq = lo)
    (hd : delta.toNat = lo - tsn.start w) :
    (tsn.cutHead seq delta).Sound w ∧ (tsn.cutHead seq delta).start w = lo ∧
      (tsn.cutHead seq delta).fin w = tsn.fin w ∧
      (tsn.Stored → (tsn.cutHead seq delta).Stored) := by
  have hfin := tsn.fin_eq w
  have hlen : (tsn.iLen - delta).toNat = tsn.fin w - lo := by
    rw [toNat_sub_of_le (le_def.mpr (by omega)), hd]
    omega
  have hstart' : (tsn.cutHead seq delta).start w = lo := hseq
  have hfin' : (tsn.cutHead seq delta).fin w = tsn.fin w := by
    show pos w seq + (tsn.iLen - delta).toNat = tsn.fin w
    omega
  refine ⟨⟨rfl, ?_, ?_, ?_, h.data_lt⟩, hstart', hfin', fun hst => ?_⟩
  · show tsn.cLen - delta = tsn.iLen - delta
    rw [h.cLen]
  · rw [hstart', hfin']
    exact hhi
  · rw [hfin']
    exact h.fin_lt
  · have hle : tsn.offset.toNat + tsn.iLen.toNat ≤ tsn.data.length := hst
    have hlt := h.data_lt
    show (tsn.offset + delta).toNat + (tsn.iLen - delta).toNat ≤ tsn.data.length
    rw [toNat_add, mod_eq_of_lt (by omega)]
    omega

theorem Sound.byte_cutHead (hst : tsn.Stored) (hlo : tsn.start w ≤ lo) (hhi : lo < tsn.fin w)
    (hseq : pos w seq = lo) (hd : delta.toNat = lo - tsn.start w) (hp : lo ≤ p) :
    (tsn.cutHead seq delta).byte w p = tsn.byte w p := by
  have hle : tsn.offset.toNat + tsn.iLen.toNat ≤ tsn.data.length := hst
  have hlt := h.data_lt
  have hfin := tsn.fin_eq w
  show tsn.data[(tsn.offset + delta).toNat + (p - pos w seq)]? = _
  have hidx : (tsn.offset + delta).toNat + (p - pos w seq) =
      tsn.offset.toNat + (p - tsn.start w) := by
    rw [toNat_add, mod_eq_of_lt (by omega)]
    omega
  rw [hidx]
  rfl

theorem Sound.byte_dupNode (hp : p < tsn.fin w) :
    (TcpReassemblerState.dupNode tsn).byte w p = tsn.byte w p := by
  have hfin := tsn.fin_eq w
  have hlt := h.start_lt
  show ((tsn.data.drop tsn.offset.toNat).take tsn.cLen.toNat)[0 + (p - tsn.start w)]? =
    tsn.data[tsn.offset.toNat + (p - tsn.start w)]?
  rw [List.getElem?_take_of_lt (by rw [h.cLen]; omega), List.getElem?_drop, zero_add]

theorem Sound.dupNode :
    (TcpReassemblerState.dupNode tsn).Sound w ∧
      (TcpReassemblerState.dupNode tsn).start w = tsn.start w ∧
      (TcpReassemblerState.dupNode tsn).fin w = tsn.fin w ∧
      (tsn.Stored → (TcpReassemblerState.dupNode tsn).Stored) := by
  have hfin : (TcpReassemblerState.dupNode tsn).fin w = tsn.fin w := by
    show tsn.start w + tsn.cLen.toNat = tsn.fin w
    rw [h.cLen]
    rfl
  have hdata : (TcpReassemblerState.dupNode tsn).data.length =
      min tsn.iLen.toNat (tsn.data.length - tsn.offset.toNat) := by
    show ((tsn.data.drop tsn.offset.toNat).take tsn.cLen.toNat).length = _
    rw [List.length_take, List.length_drop, h.cLen]
  have hbound := tsn.iLen.isLt
  refine ⟨⟨rfl, rfl, ?_, ?_, ?_⟩, rfl, hfin, fun hst => ?_⟩
  · rw [hfin]
    exact h.start_lt
  · rw [hfin]
    exact h.fin_lt
  · rw [hdata]
    omega
  · have hle : tsn.offset.toNat + tsn.iLen.toNat ≤ tsn.data.length := hst
    show 0 + tsn.cLen.toNat ≤ _
    rw [hdata, h.cLen]
    omega
end
end TcpSegment

/-! ## New nodes -/

variable {slide w size seq : BitVec 32} {s lo hi : ℕ}

/-- The size of what is stored of a segment of length `n` when `d` bytes are cut off in
front and `t` behind: a length of 2^15 or more is negative as an `int16_t`. -/
theorem newSize_spec {len : BitVec 16} {truncLen : BitVec 32} {n d t : ℕ}
    (hn : len.toNat = n) (hd : slide.toNat = d) (ht : truncLen.toNat = t)
    (hbound : d + t < 2 ^ 30) :
    ((newSize len slide truncLen).toInt ≤ 0 ↔ ¬ (n < 2 ^ 15 ∧ d + t < n)) ∧
      (n < 2 ^ 15 → d + t < n → (newSize len slide truncLen).toNat = n - d - t) := by
  have hlenInt : (len.signExtend 32).toInt = if n < 2 ^ 15 then (n : ℤ) else n - 2 ^ 16 := by
    rw [toInt_signExtend_of_le (by decide), toInt_eq_toNat_cond, hn]
    split
    · rw [if_pos (by omega)]
    · rw [if_neg (by omega)]
      rfl
  have hslide : slide.toInt = d := by rw [toInt_eq_toNat_of_lt (by omega), hd]
  have htrunc : truncLen.toInt = t := by rw [toInt_eq_toNat_of_lt (by omega), ht]
  have hsub : (len.signExtend 32 - slide).toInt = (len.signExtend 32).toInt - d := by
    rw [BitVec.toInt_sub, hslide, Int.bmod_eq_of_le]
    · split at hlenInt <;> omega
    · split at hlenInt <;> omega
  have hsize : (newSize len slide truncLen).toInt = (len.signExtend 32).toInt - d - t := by
    unfold newSize
    rw [BitVec.toInt_sub, htrunc, hsub, Int.bmod_eq_of_le]
    · split at hlenInt <;> omega
    · split at hlenInt <;> omega
  refine ⟨?_, fun hshort hpos => ?_⟩
  · rw [hsize, hlenInt]
    split <;> omega
  · rw [if_pos hshort] at hlenInt
    have hcond := toInt_eq_toNat_cond (newSize len slide truncLen)
    have hlt := (newSize len slide truncLen).isLt
    rw [hsize, hlenInt] at hcond
    split at hcond <;> omega

section
variable (sos : SegmentOverlapState) (hseq : pos w seq = lo) (hslide : slide.toNat = lo - s)
include sos hseq hslide

/-- The node made of the bytes from position `lo` to `hi` of a segment that starts at `s`. -/
theorem newNode_spec (hsize : size.toNat = hi - lo) (hs : s ≤ lo) (hlt : lo < hi)
    (hhi : hi < 2 ^ 31) (hlen : hi - s < 2 ^ 16) :
    (sos.newNode size slide seq).Sound w ∧ (sos.newNode size slide seq).start w = lo ∧
      (sos.newNode size slide seq).fin w = hi ∧
      (sos.tsd.pkt.data + sos.tsd.pkt.dsize.toNat ≤ sos.tsd.pkt.buffer.length →
        ((sos.newNode size slide seq).Stored ↔ hi - s ≤ sos.tsd.pkt.dsize.toNat)) := by
  have hilen : (size.setWidth 16).toNat = hi - lo := by
    rw [toNat_setWidth, hsize, mod_eq_of_lt (by omega)]
  have hoffset : (slide.setWidth 16).toNat = lo - s := by
    rw [toNat_setWidth, hslide, mod_eq_of_lt (by omega)]
  have hfin : (sos.newNode size slide seq).fin w = hi := by
    show pos w seq + (size.setWidth 16).toNat = hi
    omega
  have hdata : (sos.newNode size slide seq).data.length =
      min sos.tsd.pkt.dsize.toNat (sos.tsd.pkt.buffer.length - sos.tsd.pkt.data) := by
    show ((sos.tsd.pkt.buffer.drop sos.tsd.pkt.data).take sos.tsd.pkt.dsize.toNat).length = _
    rw [List.length_take, List.length_drop]
  have hdsize := sos.tsd.pkt.dsize.isLt
  refine ⟨⟨rfl, rfl, ?_, ?_, ?_⟩, hseq, hfin, fun hbytes => ?_⟩
  · rw [hfin]
    show pos w seq < hi
    omega
  · rw [hfin]
    exact hhi
  · rw [hdata]
    omega
  · show (slide.setWidth 16).toNat + (size.setWidth 16).toNat ≤ _ ↔ _
    rw [hdata]
    omega

theorem newNode_byte {p : ℕ} (hs : s ≤ lo) (hlen : hi - s < 2 ^ 16) (hlo : lo ≤ p) (hhi : p < hi)
    (hdsize : hi - s ≤ sos.tsd.pkt.dsize.toNat) :
    (sos.newNode size slide seq).byte w p = sos.tsd.pkt.buffer[sos.tsd.pkt.data + (p - s)]? := by
  show ((sos.tsd.pkt.buffer.drop sos.tsd.pkt.data).take
    sos.tsd.pkt.dsize.toNat)[(slide.setWidth 16).toNat + (p - pos w seq)]? = _
  have hidx : (slide.setWidth 16).toNat + (p - pos w seq) = p - s := by
    rw [toNat_setWidth, hslide, mod_eq_of_lt (by omega)]
    omega
  rw [hidx, List.getElem?_take_of_lt (by omega), List.getElem?_drop]
end

theorem settle_eq (ed : ListEditor) {tsn : TcpSegment} (h : tsn.cSeq = tsn.iSeq) :
    ed.settle tsn = tsn := by
  unfold ListEditor.settle
  split
  · cases tsn
    simp_all
  · rfl
end Snort.Tcp
