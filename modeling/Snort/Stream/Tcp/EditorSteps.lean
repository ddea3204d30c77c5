import Snort.Stream.Tcp.IntervalEditor

/-!
# The list editor makes the steps of the interval editor

Every handler of the list editor is one of the steps on intervals, and the loop
over the nodes on the right ends and is a run of such steps.
-/

namespace Snort.Tcp
open List Option Serial ListEditor SegmentOverlapState
open BitVec hiding append_assoc getElem?_eq_none not_not
open TcpSegment TcpSegmentDescriptor
variable {i : ℕ}

/-- The fields of the state that stand for the arrival. The packet still holds the bytes
that are to be inserted; inline normalization overwrites others. -/
structure Arriving (w : BitVec 32) (arr : Arrival) (sos : SegmentOverlapState) : Prop where
  segSeq : pos w sos.tsd.segSeq = arr.start
  len : sos.len.toNat = arr.len
  seqEnd : pos w sos.seqEnd = arr.stop
  bytes : sos.tsd.pkt.data + arr.len ≤ sos.tsd.pkt.buffer.length
  dsize : sos.tsd.pkt.dsize.toNat ≤ arr.len
  trims : sos.trimWin = .on ↔ arr.trims
  policy : sos.reassemblyPolicy = arr.policy
  start_le : arr.start ≤ pos w sos.rseq
  rseq_le : pos w sos.rseq ≤ pos w sos.seq
  seq_le : pos w sos.seq ≤ arr.stop + 2 ^ 16
  rsize : sos.rsize + BitVec.ofNat 16 (pos w sos.rseq - arr.start) = BitVec.ofNat 16 arr.len
  rdata : sos.rdata = sos.tsd.pkt.data + (pos w sos.rseq - arr.start)
  fresh : ∀ i, pos w sos.seq ≤ arr.start + i → arr.start + i + sos.truncLen.toNat < arr.dataEnd →
    sos.tsd.pkt.buffer[sos.tsd.pkt.data + i]? = arr.payload[i]?

/-! ## The packet during an insertion -/

theorem Packet.length_memcpy (p : Packet) (start : ℕ) (src : List UInt8) (length : ℕ) :
    (p.memcpy start src length).buffer.length = p.buffer.length := by
  simp only [Packet.memcpy, length_append, length_take, length_drop]
  omega

/-- Writing over a part of a list leaves the rest as it is. -/
theorem getElem?_overwrite {l b : List UInt8} {n : ℕ} (hb : b.length ≤ l.length - n)
    (hout : i < n ∨ n + b.length ≤ i) :
    (l.take n ++ b ++ l.drop (n + b.length))[i]? = l[i]? := by
  have htake : (l.take n).length = min n l.length := length_take
  rcases hout with hlt | hge
  · by_cases hi : i < l.length
    · rw [append_assoc, getElem?_append_left (by omega), getElem?_take_of_lt hlt]
    · rw [getElem?_eq_none (not_lt.mp hi), getElem?_eq_none]
      simp only [length_append, length_take, length_drop]
      omega
  · by_cases hn : n ≤ l.length
    · have hlen : (l.take n ++ b).length = n + b.length := by
        rw [length_append]
        omega
      rw [getElem?_append_right (by omega), hlen, getElem?_drop]
      congr 1
      omega
    · have hnone : l[i]? = none := getElem?_eq_none (by omega)
      rw [hnone, getElem?_eq_none]
      simp only [length_append, length_take, length_drop]
      omega

/-- A copy leaves the bytes before and behind it as they are. -/
theorem Packet.getElem?_memcpy (p : Packet) {start length : ℕ} (src : List UInt8)
    (hout : i < start ∨ start + length ≤ i) :
    (p.memcpy start src length).buffer[p.data + i]? = p.buffer[p.data + i]? := by
  have hbytes : ((src.take length).take (p.buffer.length - (p.data + start))).length ≤ length :=
    (length_take_le' _ _).trans (length_take_le _ _)
  exact getElem?_overwrite (length_take_le _ _) (by omega)

variable (sos : SegmentOverlapState)

/-- A copy into the packet changes the bytes it copies only. -/
theorem SegmentOverlapState.copyToPacket_eq (start : ℕ) (src : List UInt8) (length : ℕ) :
    ∃ p : Packet, p.data = sos.tsd.pkt.data ∧ p.dsize = sos.tsd.pkt.dsize ∧
      p.buffer.length = sos.tsd.pkt.buffer.length ∧
      (∀ i, i < start ∨ start + length ≤ i →
        p.buffer[p.data + i]? = sos.tsd.pkt.buffer[sos.tsd.pkt.data + i]?) ∧
      sos.copyToPacket start src length = { sos with tsd := { sos.tsd with pkt := p } } := by
  unfold copyToPacket
  split
  · exact ⟨sos.tsd.pkt.memcpy start src length, rfl, rfl, Packet.length_memcpy _ _ _ _,
      fun i hi => Packet.getElem?_memcpy _ _ hi, rfl⟩
  · exact ⟨sos.tsd.pkt, rfl, rfl, rfl, fun _ _ => rfl, rfl⟩

/-- The fields that the editor changes together with `rseq`, or not at all. -/
def SegmentOverlapState.kept :=
  (sos.len, sos.seqEnd, sos.trimWin, sos.reassemblyPolicy, sos.rseq, sos.rsize, sos.rdata)

namespace Arriving
variable {w : BitVec 32} {arr : Arrival} {sos sos' : SegmentOverlapState}

section
variable (h : Arriving w arr sos)
include h

/-- A state with the bytes of another packet, and whose `seq` has moved on. -/
theorem repacket {p : Packet} (htsd : sos'.tsd = { sos.tsd with pkt := p })
    (hdata : p.data = sos.tsd.pkt.data) (hdsize : p.dsize = sos.tsd.pkt.dsize)
    (hlength : p.buffer.length = sos.tsd.pkt.buffer.length) (hkept : sos'.kept = sos.kept)
    (hle : pos w sos.seq ≤ pos w sos'.seq) (hstop : pos w sos'.seq ≤ arr.stop + 2 ^ 16)
    (hfresh : ∀ i, pos w sos'.seq ≤ arr.start + i →
      arr.start + i + sos'.truncLen.toNat < arr.dataEnd → p.buffer[p.data + i]? = arr.payload[i]?) :
    Arriving w arr sos' := by
  simp only [kept, Prod.mk.injEq] at hkept
  obtain ⟨hlen, hend, htrim, hpol, hrseq, hrsize, hrdata⟩ := hkept
  exact
    { segSeq := htsd ▸ h.segSeq
      len := hlen ▸ h.len
      seqEnd := hend ▸ h.seqEnd
      bytes := by rw [htsd]; exact hdata ▸ hlength ▸ h.bytes
      dsize := by rw [htsd]; exact hdsize ▸ h.dsize
      trims := htrim ▸ h.trims
      policy := hpol.trans h.policy
      start_le := hrseq ▸ h.start_le
      rseq_le := hrseq ▸ h.rseq_le.trans hle
      seq_le := hstop
      rsize := by rw [hrseq, hrsize]; exact h.rsize
      rdata := by rw [hrseq, hrdata, htsd]; exact hdata ▸ h.rdata
      fresh := by rw [htsd]; exact hfresh }

/-- A state with the same packet and whose `seq` has moved on. -/
theorem transfer (htsd : sos'.tsd = sos.tsd) (hkept : sos'.kept = sos.kept)
    (hle : pos w sos.seq ≤ pos w sos'.seq) (hstop : pos w sos'.seq ≤ arr.stop + 2 ^ 16)
    (htrunc : sos.truncLen.toNat ≤ sos'.truncLen.toNat ∨ arr.dataEnd ≤ pos w sos'.seq) :
    Arriving w arr sos' := by
  refine h.repacket (p := sos.tsd.pkt) htsd rfl rfl rfl hkept hle hstop ?_
  intro i hi hlt
  exact h.fresh i (hle.trans hi) (by omega)

/-- The same, where `seq` and the part to be cut off are as they were. -/
theorem congr (htsd : sos'.tsd = sos.tsd) (hkept : sos'.kept = sos.kept)
    (hseq : sos'.seq = sos.seq) (htrunc : sos'.truncLen = sos.truncLen) : Arriving w arr sos' :=
  h.transfer htsd hkept (hseq ▸ le_rfl) (hseq ▸ h.seq_le) (.inl (htrunc ▸ le_rfl))

theorem start_le_seq : arr.start ≤ pos w sos.seq :=
  h.start_le.trans h.rseq_le

/-- A packet of which nothing is stored is trimmed to nothing if `trim_win` is on. -/
theorem discard :
    Arriving w arr sos.discard ∧
      sos.discard.tsd.pkt.dsize.toNat = if arr.trims then 0 else sos.tsd.pkt.dsize.toNat := by
  unfold SegmentOverlapState.discard trimWinPayload trimPayload
  by_cases hon : sos.trimWin = .on
  · rw [if_pos hon, if_pos (h.trims.mp hon)]
    by_cases hlen : (0 : BitVec 32).toNat < sos.tsd.segLen.toNat
    · rw [if_pos hlen]
      refine ⟨⟨h.segSeq, h.len, h.seqEnd, h.bytes, Nat.zero_le _, h.trims, h.policy, h.start_le,
        h.rseq_le, h.seq_le, h.rsize, h.rdata, h.fresh⟩, rfl⟩
    · rw [if_neg hlen]
      exact ⟨h, Nat.eq_zero_of_not_pos hlen⟩
  · rw [if_neg hon, ite_self, if_neg fun htrims => hon (h.trims.mpr htrims)]
    exact ⟨h, rfl⟩
end
end Arriving

/-! ## Storing a part of the segment -/

section Add
variable {w : BitVec 32} {arr : Arrival} (ed : ListEditor)

theorem ListEditor.add_seq (len : BitVec 16) (slide truncLen seq : BitVec 32) :
    (ed.add len slide truncLen seq).sos.seq = ed.sos.seq := by
  unfold add
  by_cases hsize : (TcpReassemblerState.newSize len slide truncLen).toInt ≤ 0
  · rw [if_pos hsize]
    rfl
  · rw [if_neg hsize]
    rfl

theorem ListEditor.add_packet (len : BitVec 16) (slide truncLen seq : BitVec 32) :
    (ed.add len slide truncLen seq).sos.tsd.pkt.buffer = ed.sos.tsd.pkt.buffer ∧
      (ed.add len slide truncLen seq).sos.tsd.pkt.data = ed.sos.tsd.pkt.data := by
  unfold add
  by_cases hsize : (TcpReassemblerState.newSize len slide truncLen).toInt ≤ 0
  · rw [if_pos hsize]
    show (ed.sos.tsd.trimWinPayload 0 ed.sos.trimWin).pkt.buffer = _ ∧
      (ed.sos.tsd.trimWinPayload 0 ed.sos.trimWin).pkt.data = _
    unfold trimWinPayload trimPayload
    split_ifs
    · exact ⟨rfl, rfl⟩
    · exact ⟨rfl, rfl⟩
    · exact ⟨rfl, rfl⟩
  · rw [if_neg hsize]
    exact ⟨rfl, rfl⟩

/-- What `add_reassembly_segment` makes of the bytes from `lo` to `hi` of a segment that
starts at `s` and has length `n`. -/
inductive ListEditor.Added (w : BitVec 32) (ed : ListEditor) (s n lo hi : ℕ) :
    ListEditor → Prop
  | store (tsn : TcpSegment) (cur : Option ℕ) (hshort : n < 2 ^ 15) (hlt : lo < hi)
      (hstart : tsn.start w = lo) (hfin : tsn.fin w = hi) (hsound : tsn.Sound w)
      (hstored : tsn.Stored ↔ hi - s ≤ ed.sos.tsd.pkt.dsize.toNat)
      (hbyte : hi - s ≤ ed.sos.tsd.pkt.dsize.toNat → ∀ p, lo ≤ p → p < hi →
        tsn.byte w p = ed.sos.tsd.pkt.buffer[ed.sos.tsd.pkt.data + (p - s)]?) :
      Added w ed s n lo hi
        { ed with
          sos := (ed.sos.countQueued tsn).countAdded tsn, curRseg := cur, fresh := ed.fresh + 1
          before := (ed.fresh, tsn) :: ed.before }
  | discard (hnone : ¬ (n < 2 ^ 15 ∧ lo < hi)) :
      Added w ed s n lo hi { ed with sos := ed.sos.discard }

theorem ListEditor.add_spec {len : BitVec 16} {slide truncLen seq : BitVec 32} {s n lo : ℕ}
    (hlen : len.toNat = n) (hslide : slide.toNat = lo - s) (hseq : pos w seq = lo) (hs : s ≤ lo)
    (hbound : lo - s + truncLen.toNat < 2 ^ 30) (hend : s + n < 2 ^ 31)
    (hbytes : ed.sos.tsd.pkt.data + ed.sos.tsd.pkt.dsize.toNat ≤ ed.sos.tsd.pkt.buffer.length) :
    Added w ed s n lo (s + n - truncLen.toNat) (ed.add len slide truncLen seq) := by
  obtain ⟨hsize, hnat⟩ := newSize_spec hlen hslide
    (show truncLen.toNat = truncLen.toNat from rfl) hbound
  unfold add
  by_cases hfit : n < 2 ^ 15 ∧ lo - s + truncLen.toNat < n
  · rw [if_neg (by rw [hsize, not_not]; exact hfit)]
    have hsize' : (TcpReassemblerState.newSize len slide truncLen).toNat =
        s + n - truncLen.toNat - lo := by
      rw [hnat hfit.1 hfit.2]
      omega
    obtain ⟨hsound, hnstart, hnfin, hstored⟩ := newNode_spec ed.sos hseq hslide hsize' hs
      (by omega) (by omega) (by omega)
    simp only [settle_eq ed
      (show (ed.sos.newNode _ _ _).cSeq = (ed.sos.newNode _ _ _).iSeq from rfl)]
    refine .store _ _ hfit.1 (by omega) hnstart hnfin hsound (hstored hbytes) ?_
    intro hfits p hlo hhi
    exact newNode_byte ed.sos hseq hslide hs (by omega) hlo hhi hfits
  · rw [if_pos (hsize.mpr hfit)]
    exact .discard (by omega)

/-- `add_reassembly_segment` at the place of the editor stores the data from `seq` up to
the part cut off at the end. -/
theorem ListEditor.add_view (h : Arriving w arr ed.sos) (after : List Node)
    (htrunc : ed.sos.truncLen.toNat ≤ arr.len + arr.syn) :
    Arriving w arr (ed.add ed.sos.len (ed.sos.seq - ed.sos.tsd.segSeq) ed.sos.truncLen
        ed.sos.seq).sos ∧
      Insert w arr (ed.view w after) (arr.dataEnd - ed.sos.truncLen.toNat)
        ((ed.add ed.sos.len (ed.sos.seq - ed.sos.tsd.segSeq) ed.sos.truncLen ed.sos.seq).view w
          after) := by
  have hstart := h.start_le_seq
  have hseq := h.seq_le
  have hbounds := arr.bounds
  have hbytes := h.bytes
  have hdsize := h.dsize
  have hslide : (ed.sos.seq - ed.sos.tsd.segSeq).toNat = pos w ed.sos.seq - arr.start := by
    rw [← h.segSeq]
    exact toNat_sub (by rw [h.segSeq]; exact hstart)
  have hadded : Added w ed arr.start arr.len (pos w ed.sos.seq)
      (arr.dataEnd - ed.sos.truncLen.toNat)
      (ed.add ed.sos.len (ed.sos.seq - ed.sos.tsd.segSeq) ed.sos.truncLen ed.sos.seq) :=
    ed.add_spec h.len hslide rfl hstart (by omega) (by omega) (by omega)
  generalize ed.add ed.sos.len (ed.sos.seq - ed.sos.tsd.segSeq) ed.sos.truncLen ed.sos.seq = ed'
    at hadded ⊢
  cases hadded with
  | store tsn cur hshort hlt hnstart hnfin hsound hstored hbyte =>
    refine ⟨h.congr rfl rfl rfl rfl, .store (_, tsn) hshort hlt hnstart hnfin hsound hstored ?_ rfl⟩
    intro hfits p hlo hhi
    have hlo' : pos w ed.sos.seq ≤ p := hlo
    rw [hbyte hfits p hlo hhi]
    exact h.fresh (p - arr.start) (by omega) (by omega)
  | discard hnone =>
    obtain ⟨harr, hdsize⟩ := h.discard
    exact ⟨harr, .discard hnone (view_eq rfl rfl rfl rfl rfl rfl hdsize)⟩
end Add

/-! ## The node on the left -/

section Left
variable {w : BitVec 32} {arr : Arrival} {ed : ListEditor} {a : ℕ} {left : TcpSegment}
  {before after : List Node}

theorem measureLeft_overlap (sos : SegmentOverlapState) (hsound : left.Sound w)
    (hseq : pos w sos.seq = arr.start) :
    (sos.measureLeft left).overlap.toInt = (left.fin w : ℤ) - arr.start := by
  have hstop := arr.stop_lt
  show (left.endSeq - sos.seq).toInt = _
  rw [toInt_sub_pos hsound.endSeq_bound (by omega), hsound.pos_endSeq, hseq]

theorem toNat_of_toInt {x : BitVec 32} {k : ℕ} (h : x.toInt = k) : x.toNat = k := by
  have hcond := toInt_eq_toNat_cond x
  have hlt := x.isLt
  split at hcond <;> omega

theorem Arriving.measureLeft (h : Arriving w arr ed.sos)
    (hdsize : ed.sos.tsd.pkt.dsize.toNat = arr.len) (left : TcpSegment) :
    Arriving w arr (ed.sos.measureLeft left) :=
  ⟨h.segSeq, hdsize, h.seqEnd, h.bytes, h.dsize, h.trims, h.policy, h.start_le, h.rseq_le,
    h.seq_le, h.rsize, h.rdata, h.fresh⟩

theorem pass_of_le (hbefore : ed.before = (a, left) :: before)
    (hseq : pos w ed.sos.seq = arr.start) (hfin : left.fin w ≤ arr.start) :
    ∀ x ∈ (ed.view w after).before.head?, x.2.fin w ≤ (ed.view w after).seq := by
  intro x hx
  simp only [view, hbefore, head?_cons, mem_def, some.injEq] at hx
  obtain rfl := hx
  exact hfin.trans_eq hseq.symm

theorem keepFirst_step (h : Arriving w arr ed.sos) (hsound : left.Sound w)
    (hdsize : ed.sos.tsd.pkt.dsize.toNat = arr.len) (hseq : pos w ed.sos.seq = arr.start)
    (hbefore : ed.before = (a, left) :: before) :
    Arriving w arr (ed.sos.keepFirst left) ∧ LeftStep w arr .keepFirst (ed.view w after)
        ({ ed with sos := ed.sos.keepFirst left }.view w after) := by
  have hoverlap := measureLeft_overlap ed.sos hsound hseq
  have harr := h.measureLeft hdsize left
  have hlen : (ed.sos.measureLeft left).len.toNat = arr.len := harr.len
  have hbounds := arr.bounds
  -- the overlap is at most the length of the segment
  obtain ⟨o, ho, hm⟩ : ∃ o : BitVec 32, o.toInt = min (arr.len : ℤ) (left.fin w - arr.start) ∧
      (if ((ed.sos.measureLeft left).len.toNat : ℤ) < (ed.sos.measureLeft left).overlap.toInt then
        { ed.sos.measureLeft left with overlap := (ed.sos.measureLeft left).len.setWidth 32 }
      else ed.sos.measureLeft left) = { ed.sos.measureLeft left with overlap := o } := by
    by_cases hlt : ((ed.sos.measureLeft left).len.toNat : ℤ) <
        (ed.sos.measureLeft left).overlap.toInt
    · refine ⟨(ed.sos.measureLeft left).len.setWidth 32, ?_, if_pos hlt⟩
      have hnat : ((ed.sos.measureLeft left).len.setWidth 32).toNat = arr.len := by
        rw [toNat_setWidth_of_le (by decide), hlen]
      rw [toInt_eq_toNat_of_lt (by omega), hnat]
      omega
    · refine ⟨(ed.sos.measureLeft left).overlap, ?_, if_neg hlt⟩
      omega
  unfold keepFirst
  simp only [hm]
  by_cases hpos : 0 < o.toInt
  · simp only [if_pos hpos, ← apply_ite (copyToPacket _ 0 _)]
    have ho' : o.toNat = min arr.len (left.fin w - arr.start) := toNat_of_toInt (by omega)
    have hseq' : pos w (ed.sos.seq + o) = min (left.fin w) arr.dataEnd := by
      rw [pos_add (by omega), hseq]
      omega
    obtain ⟨p, hdata, hpsize, hplen, hpbytes, hcopy⟩ := copyToPacket_eq
      { ed.sos.measureLeft left with overlap := o }.countOverlap 0 _ _
    rw [hcopy]
    have hpbytes' : ∀ i, i < 0 ∨ 0 + (if seqGt left.endSeq ed.sos.seqEnd then
        ed.sos.tsd.segLen.toNat else (left.endSeq - ed.sos.tsd.segSeq).toNat) ≤ i →
        p.buffer[p.data + i]? = ed.sos.tsd.pkt.buffer[ed.sos.tsd.pkt.data + i]? := hpbytes
    -- the copy ends where the data to be inserted begins
    have hcopied : ∀ i, min (left.fin w) arr.dataEnd ≤ arr.start + i →
        arr.start + i < arr.dataEnd → (if seqGt left.endSeq ed.sos.seqEnd then
        ed.sos.tsd.segLen.toNat else (left.endSeq - ed.sos.tsd.segSeq).toNat) ≤ i := by
      intro i hge hlt
      have hle := arr.dataEnd_le
      have hnot : ¬ seqGt left.endSeq ed.sos.seqEnd := by
        rw [seqGt_iff hsound.endSeq_bound (by rw [h.seqEnd]; exact arr.stop_bound), h.seqEnd,
          hsound.pos_endSeq]
        omega
      have hsub : (left.endSeq - ed.sos.tsd.segSeq).toNat = left.fin w - arr.start := by
        rw [← hsound.pos_endSeq, ← h.segSeq]
        exact toNat_sub (by rw [h.segSeq, hsound.pos_endSeq]; omega)
      rw [if_neg hnot]
      omega
    constructor
    · refine harr.repacket rfl hdata hpsize hplen rfl ?_ ?_ ?_
      · show pos w ed.sos.seq ≤ pos w (ed.sos.seq + o)
        omega
      · show pos w (ed.sos.seq + o) ≤ _
        have hle := arr.dataEnd_le
        omega
      · intro i hi hlt
        have hi' : min (left.fin w) arr.dataEnd ≤ arr.start + i := hseq' ▸ hi
        have hlt' : arr.start + i + ed.sos.truncLen.toNat < arr.dataEnd := hlt
        have hcopied' := hcopied i hi' (by omega)
        rw [hpbytes' i (.inr (by omega))]
        exact h.fresh i (by omega) hlt'
    · have hlt : (ed.view w after).seq < left.fin w := by
        show pos w ed.sos.seq < _
        omega
      exact .keepOld (a, left) before hbefore hlt (by decide) (by simp)
        (view_eq rfl rfl hseq' rfl rfl rfl (congrArg BitVec.toNat hpsize))
  · simp only [if_neg hpos]
    refine ⟨harr.congr rfl rfl rfl rfl, ?_⟩
    by_cases hfin : left.fin w ≤ arr.start
    · exact .pass (pass_of_le hbefore hseq hfin) rfl
    · -- a segment without data
      have hmin : pos w ed.sos.seq = min (left.fin w) arr.dataEnd := by omega
      have hlt : (ed.view w after).seq < left.fin w := by
        show pos w ed.sos.seq < _
        omega
      exact .keepOld (a, left) before hbefore hlt (by decide) (by simp)
        (view_eq rfl rfl hmin rfl rfl rfl rfl)

/-- The position behind the data, as `left_overlap_trim_first` and `left_overlap_keep_last`
compute it. -/
theorem pos_seq_add_len (hdsize : ed.sos.tsd.pkt.dsize.toNat = arr.len)
    (hseq : pos w ed.sos.seq = arr.start) :
    pos w (ed.sos.seq + ed.sos.tsd.segLen.setWidth 32) = arr.dataEnd := by
  have hlen : (ed.sos.tsd.segLen.setWidth 32).toNat = arr.len := by
    exact hdsize
  have hstop := arr.stop_lt
  rw [pos_add (by omega), hseq, hlen]
  rfl

section
variable (h : Arriving w arr ed.sos) (hsound : left.Sound w)
  (hdsize : ed.sos.tsd.pkt.dsize.toNat = arr.len) (hseq : pos w ed.sos.seq = arr.start)
include h hsound hdsize hseq

theorem trimFirst_step (hbefore : ed.before = (a, left) :: before) :
    Arriving w arr (ed.sos.trimFirst left).1 ∧ LeftStep w arr .trimFirst (ed.view w after)
        ({ ed with
            sos := (ed.sos.trimFirst left).1
            before := (a, (ed.sos.trimFirst left).2) :: before }.view w after) := by
  have hoverlap := measureLeft_overlap ed.sos hsound hseq
  have harr := h.measureLeft hdsize left
  have hend := pos_seq_add_len hdsize hseq
  have hbounds := arr.bounds
  unfold trimFirst
  by_cases hpos : 0 < (ed.sos.measureLeft left).overlap.toInt
  · simp only [if_pos hpos]
    have hlt : (ed.view w after).seq < left.fin w := by
      show pos w ed.sos.seq < _
      omega
    by_cases hgeq : seqGeq left.endSeq (ed.sos.seq + ed.sos.tsd.segLen.setWidth 32)
    · have hfin : arr.dataEnd ≤ left.fin w := by
        rw [seqGeq_iff hsound.endSeq_bound (by omega), hsound.pos_endSeq, hend] at hgeq
        exact hgeq
      have hmin : min (left.fin w) arr.dataEnd = arr.dataEnd := min_eq_right hfin
      have hgeq' : seqGeq left.endSeq ((ed.sos.measureLeft left).countOverlap.seq +
          (ed.sos.measureLeft left).countOverlap.len.setWidth 32) := hgeq
      simp only [if_pos hgeq']
      constructor
      · refine harr.transfer rfl rfl ?_ ?_ (.inl le_rfl)
        · show pos w ed.sos.seq ≤ pos w (ed.sos.seq + ed.sos.tsd.segLen.setWidth 32)
          omega
        · show pos w (ed.sos.seq + ed.sos.tsd.segLen.setWidth 32) ≤ _
          omega
      · exact .keepOld (a, left) before hbefore hlt (by decide) (fun _ => hfin)
          (view_eq hbefore.symm rfl (hend.trans hmin.symm) rfl rfl rfl rfl)
    · have hfin : left.fin w ≤ arr.dataEnd := by
        rw [seqGeq_iff hsound.endSeq_bound (by omega), hsound.pos_endSeq, hend] at hgeq
        omega
      have hgeq' : ¬ seqGeq left.endSeq ((ed.sos.measureLeft left).countOverlap.seq +
          (ed.sos.measureLeft left).countOverlap.len.setWidth 32) := hgeq
      simp only [if_neg hgeq']
      refine ⟨harr.congr rfl rfl rfl rfl, ?_⟩
      refine .cutOld a left before (ed.sos.measureLeft left).overlap hbefore hlt hfin (by decide)
        ?_ rfl
      show _ = left.fin w - pos w ed.sos.seq
      exact toNat_of_toInt (by omega)
  · simp only [if_neg hpos]
    refine ⟨harr, .pass (pass_of_le hbefore hseq (by omega)) ?_⟩
    exact view_eq hbefore.symm rfl rfl rfl rfl rfl rfl

theorem keepLast_step (hstart : left.start w < arr.start)
    (hbefore : ed.before = (a, left) :: before) :
    Arriving w arr (ed.keepLast a left before after).1.sos ∧
      LeftStep w arr .keepLast (ed.view w after)
        ((ed.keepLast a left before after).1.view w (ed.keepLast a left before after).2) := by
  have hoverlap := measureLeft_overlap ed.sos hsound hseq
  have harr := h.measureLeft hdsize left
  have hend := pos_seq_add_len hdsize hseq
  have hbounds := arr.bounds
  unfold keepLast
  by_cases hpos : 0 < (ed.sos.measureLeft left).overlap.toInt
  · simp only [if_pos hpos]
    have hlt : (ed.view w after).seq < left.fin w := by
      show pos w ed.sos.seq < _
      omega
    have hnat : (ed.sos.measureLeft left).overlap.toNat = left.fin w - (ed.view w after).seq := by
      show _ = left.fin w - pos w ed.sos.seq
      exact toNat_of_toInt (by omega)
    by_cases hgt : seqGt left.endSeq (ed.sos.seq + ed.sos.tsd.segLen.setWidth 32)
    · have hfin : arr.dataEnd < left.fin w := by
        rw [seqGt_iff hsound.endSeq_bound (by omega), hsound.pos_endSeq, hend] at hgt
        exact hgt
      have hgt' : seqGt left.endSeq ((ed.sos.measureLeft left).countOverlap.seq +
          (ed.sos.measureLeft left).countOverlap.len.setWidth 32) := hgt
      simp only [if_pos hgt']
      refine ⟨harr.congr rfl rfl rfl rfl, ?_⟩
      rw [settle_eq _ rfl]
      refine .splitOld a ed.fresh left before _ _ _ hbefore hlt hfin rfl hnat hend ?_ rfl
      show ((ed.sos.seq + ed.sos.tsd.segLen.setWidth 32 - left.iSeq).setWidth 16).toNat =
        arr.dataEnd - pos w left.iSeq
      have hfinEq : left.fin w = pos w left.iSeq + left.iLen.toNat := rfl
      have hstartEq : left.start w = pos w left.iSeq := rfl
      have hsub : (ed.sos.seq + ed.sos.tsd.segLen.setWidth 32 - left.iSeq).toNat =
          pos w (ed.sos.seq + ed.sos.tsd.segLen.setWidth 32) - pos w left.iSeq :=
        toNat_sub (by omega)
      rw [toNat_setWidth, hsub, hend, Nat.mod_eq_of_lt (by omega)]
    · have hfin : left.fin w ≤ arr.dataEnd := by
        rw [seqGt_iff hsound.endSeq_bound (by omega), hsound.pos_endSeq, hend] at hgt
        omega
      have hgt' : ¬ seqGt left.endSeq ((ed.sos.measureLeft left).countOverlap.seq +
          (ed.sos.measureLeft left).countOverlap.len.setWidth 32) := hgt
      simp only [if_neg hgt']
      exact ⟨harr.congr rfl rfl rfl rfl,
        .cutOld a left before _ hbefore hlt hfin (by decide) hnat rfl⟩
  · simp only [if_neg hpos]
    exact ⟨harr, .pass (pass_of_le hbefore hseq (by omega)) rfl⟩
end

theorem evalLeft_step (r : TcpReassembler) (after : List Node) (h : Arriving w arr ed.sos)
    (hdsize : ed.sos.tsd.pkt.dsize.toNat = arr.len) (hseq : pos w ed.sos.seq = arr.start)
    (hsound : ∀ x ∈ ed.before, x.2.Sound w) (hstart : ∀ x ∈ ed.before, x.2.start w < arr.start) :
    ∃ ed' after', evalLeft r ed after = some (ed', after') ∧
      Arriving w arr ed'.sos ∧ LeftStep w arr r.left (ed.view w after) (ed'.view w after') := by
  unfold evalLeft
  cases hbefore : ed.before with
  | nil =>
    refine ⟨ed, after, rfl, h, .pass ?_ rfl⟩
    intro x hx
    simp only [view, hbefore, head?_nil, mem_def, reduceCtorEq] at hx
  | cons node before =>
    obtain ⟨a, left⟩ := node
    have hmem : (a, left) ∈ ed.before := hbefore ▸ mem_cons_self
    have hleft := hsound _ hmem
    have hlt := hstart _ hmem
    have hstop := arr.stop_lt
    have hgt : seqGt ed.sos.seq left.iSeq :=
      (seqGt_iff (w := w) (by omega) hleft.start_bound).mpr (hseq ▸ hlt)
    simp only [if_pos hgt]
    unfold leftOverlap
    cases r.left with
    | keepFirst =>
      exact ⟨_, _, rfl, keepFirst_step h hleft hdsize hseq hbefore⟩
    | trimFirst =>
      exact ⟨_, _, rfl, trimFirst_step h hleft hdsize hseq hbefore⟩
    | keepLast =>
      exact ⟨_, _, rfl, keepLast_step h hleft hdsize hseq hlt hbefore⟩
end Left

/-! ## The nodes on the right -/

section Right
variable {w : BitVec 32} {arr : Arrival} {ed : ListEditor} {a : ℕ} {right : TcpSegment}
  {after : List Node} {sos : SegmentOverlapState} {full : FullOverlap}

theorem memcmp_iff (a b : List UInt8) (n : BitVec 16) :
    memcmp a b n ↔ ∀ i < n.toNat, a[i]? = b[i]? := by
  unfold memcmp
  rw [beq_iff_eq]
  constructor
  · intro h i hi
    rw [← getElem?_take_of_lt hi, h, getElem?_take_of_lt hi]
  · intro h
    apply ext_getElem?
    intro i
    by_cases hi : i < n.toNat
    · rw [getElem?_take_of_lt hi, getElem?_take_of_lt hi, h i hi]
    · rw [getElem?_eq_none, getElem?_eq_none]
      · rw [length_take]
        omega
      · rw [length_take]
        omega

section
variable (h : Arriving w arr sos)
include h

theorem Arriving.toNat_rsize (hle : pos w sos.rseq ≤ arr.dataEnd) :
    sos.rsize.toNat = arr.dataEnd - pos w sos.rseq := by
  have hstart := h.start_le
  have hbounds := arr.bounds
  have hlt := sos.rsize.isLt
  have hnat := congrArg BitVec.toNat h.rsize
  rw [toNat_add, toNat_ofNat, toNat_ofNat] at hnat
  omega

/-- The bytes that `is_retransmit` compares with those of the node. -/
theorem Arriving.getElem?_rbytes (htrunc : sos.truncLen.toNat = 0)
    (heq : pos w sos.rseq = pos w sos.seq) {i : ℕ} (hi : pos w sos.rseq + i < arr.dataEnd) :
    sos.rbytes[i]? = arr.byte (pos w sos.rseq + i) := by
  have hle := h.start_le
  have hend := arr.dataEnd_eq
  unfold rbytes Arrival.byte
  rw [getElem?_drop, h.rdata]
  have hidx : pos w sos.rseq + i - arr.start = pos w sos.rseq - arr.start + i := by omega
  rw [hidx, Nat.add_assoc]
  exact h.fresh _ (by omega) (by omega)

/-- The test for a retransmission succeeds on a node that starts where the data not yet
known to be repeated starts, and whose data agrees. -/
theorem isRetransmit_cases (hsound : right.Sound w) (hge : pos w sos.seq ≤ right.start w)
    (hlt : right.start w < arr.stop) (htrunc : sos.truncLen.toNat = 0) (full : Bool) :
    (right.isRetransmit sos.rbytes sos.rsize sos.rseq right.iLen full = some false ∧
        right.start w = pos w sos.rseq ∧ arr.Repeats w right) ∨
      (right.isRetransmit sos.rbytes sos.rsize sos.rseq right.iLen full = none ∧
        (right.start w = pos w sos.rseq → ¬ arr.Repeats w right)) := by
  have hrseq := h.rseq_le
  have hbound := hsound.start_bound
  have hstartEq : right.start w = pos w right.iSeq := rfl
  have hfinEq := right.fin_eq w
  unfold isRetransmit
  rw [if_pos hsound.cLen.symm, hsound.cLen]
  by_cases hstart : right.start w = pos w sos.rseq
  · have heq : seqEq right.iSeq sos.rseq := (seqEq_iff (w := w) hbound (by omega)).mpr hstart
    have hstop := arr.stop_le
    have hsize := h.toNat_rsize (by omega)
    have hrbytes : ∀ i, right.start w + i < arr.dataEnd →
        sos.rbytes[i]? = arr.byte (right.start w + i) := by
      intro i hi
      rw [hstart]
      exact h.getElem?_rbytes htrunc (by omega) (by omega)
    -- both comparisons end at the nearer of the two ends
    have hrep : ∀ n : BitVec 16, right.start w + n.toNat = min (right.fin w) arr.dataEnd →
        (memcmp right.data sos.rbytes n ↔ arr.Repeats w right) := by
      intro n hn
      rw [memcmp_iff]
      constructor
      · intro hcmp p hlo hhi hend
        have hp := hcmp (p - right.start w) (by omega)
        rw [hrbytes _ (by omega), Nat.add_sub_cancel' hlo] at hp
        exact hp
      · intro hrep i hi
        have hp := hrep (right.start w + i) (by omega) (by omega) (by omega)
        rw [hrbytes i (by omega), ← hp]
        unfold rawByte
        rw [Nat.add_sub_cancel_left]
    have hcase : ((right.iLen ≤ sos.rsize ∧ memcmp right.data sos.rbytes right.iLen) ∨
        (right.iLen > sos.rsize ∧ memcmp right.data sos.rbytes sos.rsize)) ↔
        arr.Repeats w right := by
      by_cases hle : right.iLen ≤ sos.rsize
      · have hle' : right.iLen.toNat ≤ sos.rsize.toNat := hle
        rw [hrep right.iLen (by omega)]
        simp [hle]
      · have hle' : ¬ right.iLen.toNat ≤ sos.rsize.toNat := hle
        rw [hrep sos.rsize (by omega)]
        simp [hle, BitVec.not_le.mp hle]
    simp only [heq, Bool.not_true, Bool.false_eq_true, if_false]
    by_cases hrep : arr.Repeats w right
    · exact .inl ⟨if_pos (hcase.mpr hrep), hstart, hrep⟩
    · exact .inr ⟨if_neg (hcase.not.mpr hrep), fun _ => hrep⟩
  · have heq : ¬ seqEq right.iSeq sos.rseq := by
      rw [seqEq_iff (w := w) hbound (by omega)]
      exact hstart
    exact .inr ⟨by simp [heq], fun hne => absurd hne hstart⟩

theorem Arriving.skipRetransmit (hstart : right.start w = pos w sos.seq)
    (hfin : right.fin w ≤ arr.stop)
    (hfresh : ∀ i, right.fin w ≤ arr.start + i → arr.start + i + sos.truncLen.toNat < arr.dataEnd →
      sos.tsd.pkt.buffer[sos.tsd.pkt.data + i]? = arr.payload[i]?) :
    Arriving w arr ((sos.skipRetransmit right).skipSeq right) ∧
      pos w ((sos.skipRetransmit right).skipSeq right).seq = right.fin w ∧
      pos w ((sos.skipRetransmit right).skipSeq right).rseq = pos w
      sos.rseq + right.iLen.toNat := by
  have hlen := toNat_iLen right
  have hfinEq := right.fin_eq w
  have hstop := arr.stop_bound
  have hle := h.start_le
  have hrseq := h.rseq_le
  have hseq : pos w (sos.seq + right.iLen.setWidth 32) = right.fin w := by
    rw [pos_add (by omega)]
    omega
  have hrseq' : pos w (sos.rseq + right.iLen.setWidth 32) = pos w sos.rseq + right.iLen.toNat := by
    rw [pos_add (by omega), hlen]
  refine ⟨⟨h.segSeq, h.len, h.seqEnd, h.bytes, h.dsize, h.trims, h.policy, ?_, ?_, ?_, ?_, ?_, ?_⟩,
    hseq, hrseq'⟩
  · show _ ≤ pos w (sos.rseq + right.iLen.setWidth 32)
    omega
  · show pos w (sos.rseq + right.iLen.setWidth 32) ≤ pos w (sos.seq + right.iLen.setWidth 32)
    omega
  · show pos w (sos.seq + right.iLen.setWidth 32) ≤ _
    omega
  · show sos.rsize - right.iLen +
      BitVec.ofNat 16 (pos w (sos.rseq + right.iLen.setWidth 32) - arr.start) = _
    have hsplit : pos w sos.rseq + right.iLen.toNat - arr.start =
        (pos w sos.rseq - arr.start) + right.iLen.toNat := by omega
    rw [hrseq', hsplit, ofNat_add, ofNat_toNat, setWidth_eq, ← h.rsize]
    ring
  · show sos.rdata + right.iLen.toNat =
      sos.tsd.pkt.data + (pos w (sos.rseq + right.iLen.setWidth 32) - arr.start)
    rw [hrseq', h.rdata]
    omega
  · intro i hi
    exact hfresh i (hseq ▸ hi)

/-- A retransmission skips the node, and the segment is dropped once all its data has been
seen. -/
theorem segmentRetransmit_cases (hsound : right.Sound w) (hge : pos w sos.seq ≤ right.start w)
    (hfin : right.fin w ≤ arr.stop) (htrunc : sos.truncLen.toNat = 0) :
    (sos.segmentRetransmit right = none ∧
        (right.start w = pos w sos.rseq → ¬ arr.Repeats w right)) ∨
      ∃ sos', sos.segmentRetransmit right = some (false, sos') ∧ Arriving w arr sos' ∧
        right.start w = pos w sos.seq ∧ pos w sos.rseq = pos w sos.seq ∧ arr.Repeats w right ∧
        pos w sos'.seq = right.fin w ∧ pos w sos'.rseq = right.fin w ∧
        sos'.truncLen = sos.truncLen ∧ sos'.tsd = sos.tsd ∧
        (sos'.keepSegment = sos.keepSegment ∨
          sos'.keepSegment = false ∧ right.fin w = arr.dataEnd) := by
  have hrseq := h.rseq_le
  have hlt := hsound.start_lt
  have hfinEq := right.fin_eq w
  unfold segmentRetransmit
  rcases isRetransmit_cases h hsound hge (by omega) htrunc (sos.rseq = sos.tsd.segSeq) with
    ⟨hretr, hstart, hrepeats⟩ | ⟨hretr, hdiffers⟩
  · right
    have hseq : right.start w = pos w sos.seq := by omega
    obtain ⟨harr, hpos, hrpos⟩ := h.skipRetransmit hseq hfin fun i hi hlt =>
      h.fresh i (by omega) hlt
    have hrpos' : pos w ((sos.skipRetransmit right).skipSeq right).rseq = right.fin w := by omega
    rw [hretr]
    by_cases hzero : ((sos.skipRetransmit right).skipSeq right).rsize = 0
    · refine ⟨{ (sos.skipRetransmit right).skipSeq right with keepSegment := false }, ?_,
        harr.congr rfl rfl rfl rfl, hseq, by omega, hrepeats, hpos, hrpos',
        rfl, rfl, .inr ⟨rfl, ?_⟩⟩
      · simp only [bind_eq_bind, bind_some, Bool.false_eq_true, if_false, if_pos hzero]
        rfl
      · -- the remaining size is zero only at the end of the data
        have hsize := congrArg BitVec.toNat harr.rsize
        rw [hzero, hrpos', toNat_add, toNat_ofNat, toNat_ofNat] at hsize
        have hbounds := arr.bounds
        have hsle := h.start_le_seq
        have hnat : (0 : BitVec 16).toNat = 0 := rfl
        omega
    · refine ⟨(sos.skipRetransmit right).skipSeq right, ?_, harr, hseq, by omega, hrepeats, hpos,
        hrpos', rfl, rfl, .inl rfl⟩
      simp only [bind_eq_bind, bind_some, Bool.false_eq_true, if_false, if_neg hzero]
      rfl
  · left
    rw [hretr]
    exact ⟨rfl, hdiffers⟩
end

theorem drop_eq (hsound : ∀ x ∈ after, x.2.Sound w) :
    ∃ cur, ed.drop (a, right) after =
      ({ ed with sos := ed.sos.countDeleted right, curRseg := cur }, after) := by
  unfold ListEditor.drop
  by_cases hcur : ed.curRseg = some a
  · simp only [if_pos hcur]
    cases after with
    | nil => exact ⟨_, rfl⟩
    | cons x after =>
      obtain ⟨b, next⟩ := x
      have hnext : { next with cSeq := next.iSeq } = next := by
        have hcSeq : next.cSeq = next.iSeq := (hsound _ mem_cons_self).cSeq
        cases next
        simp_all
      simp only [updateNext, hnext]
      split
      · exact ⟨_, rfl⟩
      · exact ⟨_, rfl⟩
  · simp only [if_neg hcur]
    exact ⟨_, rfl⟩

/-- The state at the start of a round. What was to be cut off before matters only if there
is nothing left to insert. -/
theorem Arriving.measureRight (h : Arriving w arr sos)
    (htrunc : sos.truncLen.toNat = 0 ∨ arr.dataEnd ≤ pos w sos.seq) (right : TcpSegment) :
    Arriving w arr (sos.measureRight right) :=
  h.transfer rfl rfl le_rfl h.seq_le (htrunc.imp Eq.le id)

theorem toNat_overlap (h : Arriving w arr sos) (hlt : right.start w ≤ arr.stop) :
    (sos.measureRight right).overlap.toNat = arr.stop - right.start w := by
  have hsub : (sos.seqEnd - right.iSeq).toNat = pos w sos.seqEnd - pos w right.iSeq :=
    toNat_sub (by rw [h.seqEnd]; exact hlt)
  rw [h.seqEnd] at hsub
  exact hsub

variable (r : TcpReassembler)

section
variable (ed : ListEditor) (a : ℕ) (after : List Node) (h : Arriving w arr ed.sos)
  (hsound : right.Sound w) (hge : pos w ed.sos.seq ≤ right.start w)
  (hoverlap : ed.sos.overlap.toNat = arr.stop - right.start w)
include h hsound hge hoverlap

theorem rightOverlap_stop (hlt : right.start w < arr.stop) (hfin : arr.stop < right.fin w)
    (htrunc : ed.sos.truncLen.toNat = 0)
    (hdiffers : right.start w = pos w ed.sos.rseq → ¬ arr.Repeats w right) :
    Arriving w arr (rightOverlap r ed a right after).1.sos ∧
      RightStop w arr r.right (ed.view w ((a, right) :: after))
        ((rightOverlap r ed a right after).1.view w (rightOverlap r ed a right after).2) := by
  have hbounds := arr.bounds
  have hbound := hsound.start_bound
  have hfinlt := hsound.fin_lt
  have hfinEq := right.fin_eq w
  have hstartEq : right.start w = pos w right.iSeq := rfl
  unfold rightOverlap
  cases hright : r.right with
  | truncateNew =>
    obtain ⟨p, hdata, hpsize, hplen, hpbytes, hcopy⟩ := ed.sos.copyToPacket_eq
      (right.iSeq - ed.sos.tsd.segSeq).toNat right.data
      (ed.sos.tsd.segSeq + ed.sos.tsd.segLen.setWidth 32 - right.iSeq).toNat
    simp only [truncateNew, hcopy]
    refine ⟨h.repacket rfl hdata hpsize hplen rfl le_rfl h.seq_le ?_, ?_⟩
    · -- the bytes before the node are not written over
      intro i hi hend
      have hend' : arr.start + i + ed.sos.overlap.toNat < arr.dataEnd := hend
      have hsub : (right.iSeq - ed.sos.tsd.segSeq).toNat = right.start w - arr.start := by
        have hstart := h.start_le_seq
        rw [← h.segSeq]
        exact toNat_sub (by rw [h.segSeq]; omega)
      rw [hpbytes i (.inl (by omega))]
      exact h.fresh i hi (by omega)
    · exact .truncNew (a, right) after rfl hge hlt hfin rfl
        (view_eq rfl rfl rfl rfl hoverlap rfl (congrArg BitVec.toNat hpsize))
  | truncateExisting =>
    simp only [truncateExisting]
    by_cases heq : seqEq right.iSeq ed.sos.seq && ed.sos.reassemblyPolicy != .osLast
    · simp only [if_pos heq]
      rw [Bool.and_eq_true, bne_iff_ne, h.policy, seqEq_iff (w := w) hbound (by omega)] at heq
      have hseq : pos w (ed.sos.seq + (right.endSeq - ed.sos.seq)) = right.fin w := by
        have hcancel : ed.sos.seq + (right.endSeq - ed.sos.seq) = right.endSeq := by ring
        rw [hcancel, hsound.pos_endSeq]
      refine ⟨h.transfer rfl rfl ?_ ?_ (.inl le_rfl), ?_⟩
      · show _ ≤ pos w (ed.sos.seq + (right.endSeq - ed.sos.seq))
        omega
      · show pos w (ed.sos.seq + (right.endSeq - ed.sos.seq)) ≤ _
        omega
      · exact .passOver (a, right) after rfl heq.1 hfin rfl heq.2
          (view_eq rfl rfl hseq rfl htrunc rfl rfl)
    · simp only [if_neg heq]
      rw [Bool.and_eq_true, bne_iff_ne, h.policy, seqEq_iff (w := w) hbound (by omega)] at heq
      refine ⟨h.congr rfl rfl rfl rfl, ?_⟩
      refine .cutOld a right after _ _ rfl hge hlt hfin rfl ?_ hdiffers ?_ ?_
        (view_eq rfl rfl rfl rfl htrunc rfl rfl)
      · by_cases hpol : arr.policy = .osLast
        · exact .inl hpol
        · exact .inr (lt_of_le_of_ne hge fun hne => heq ⟨hne.symm, hpol⟩)
      · rw [pos_add (by omega)]
        omega
      · rw [toNat_setWidth, hoverlap, Nat.mod_eq_of_lt (by omega)]

variable (hfin : right.fin w ≤ arr.stop)
include hfin

/-- `full_right_overlap_truncate_new` skips a node that starts at `seq` and else stores the
data before it. -/
theorem fullTruncateNew_step (htrunc : ed.sos.truncLen.toNat = 0) (hnot : full ≠ .os4)
    (hdiffers : right.start w = pos w ed.sos.rseq → ¬ arr.Repeats w right)
    (hfull : pos w ed.sos.seq < right.start w → full = .os5) :
    Arriving w arr (ed.fullTruncateNew a right).sos ∧
      RightStep w arr full (ed.view w ((a, right) :: after))
        ((ed.fullTruncateNew a right).view w after) := by
  have hbounds := arr.bounds
  have hlt := hsound.start_lt
  have hfinEq := right.fin_eq w
  have hstartEq : right.start w = pos w right.iSeq := rfl
  have hiLen := toNat_iLen right
  have hstart := h.start_le_seq
  obtain ⟨p, hdata, hpsize, hplen, hpbytes, hcopy⟩ := ed.sos.copyToPacket_eq
    (right.iSeq - ed.sos.tsd.segSeq).toNat right.data right.iLen.toNat
  have hcopy' : ed.sos.copyRight right = { ed.sos with tsd := { ed.sos.tsd with pkt := p } } :=
    hcopy
  -- outside the node the packet is as it was
  have hsub : (right.iSeq - ed.sos.tsd.segSeq).toNat = right.start w - arr.start := by
    rw [← h.segSeq]
    exact toNat_sub (by rw [h.segSeq]; omega)
  have hfresh : ∀ i, pos w ed.sos.seq ≤ arr.start + i → arr.start + i < arr.dataEnd →
      (arr.start + i < right.start w ∨ right.fin w ≤ arr.start + i) →
      p.buffer[p.data + i]? = arr.payload[i]? := by
    intro i hi hend hout
    rw [hpbytes i (by omega)]
    exact h.fresh i hi (by omega)
  unfold fullTruncateNew
  rw [hcopy']
  by_cases heq : seqEq right.iSeq ed.sos.seq
  · simp only [if_pos heq]
    rw [seqEq_iff (w := w) hsound.start_bound (by omega)] at heq
    have hseq : pos w (ed.sos.seq + right.iLen.setWidth 32) = right.fin w := by
      rw [pos_add (by omega)]
      omega
    refine ⟨h.repacket rfl hdata hpsize hplen rfl ?_ ?_ ?_, ?_⟩
    · show _ ≤ pos w (ed.sos.seq + right.iLen.setWidth 32)
      omega
    · show pos w (ed.sos.seq + right.iLen.setWidth 32) ≤ _
      omega
    · intro i hi hend
      have hi' : right.fin w ≤ arr.start + i := hseq ▸ hi
      have hend' : arr.start + i + ed.sos.truncLen.toNat < arr.dataEnd := hend
      exact hfresh i (by omega) (by omega) (.inr hi')
    · exact .skip (a, right) after rfl heq hfin hnot 0 (pos w ed.sos.rseq) (.inl rfl) hdiffers
        (view_eq rfl rfl hseq rfl htrunc rfl (congrArg BitVec.toNat hpsize))
  · simp only [if_neg heq]
    rw [seqEq_iff (w := w) hsound.start_bound (by omega)] at heq
    have hltSeq : pos w ed.sos.seq < right.start w := lt_of_le_of_ne hge fun hne => heq hne.symm
    obtain ⟨c, hc⟩ : ∃ c, { ed.sos with tsd := { ed.sos.tsd with pkt := p } }.cutChunk = c :=
      ⟨_, rfl⟩
    have hcut : c.truncLen.toNat = arr.stop - right.start w := hc ▸ hoverlap
    have hcseq : c.seq = ed.sos.seq := hc ▸ rfl
    have harr : Arriving w arr c := by
      refine h.repacket (hc ▸ rfl) hdata hpsize hplen (hc ▸ rfl) (hcseq ▸ le_rfl)
        (hcseq ▸ h.seq_le) ?_
      intro i hi hend
      rw [hcseq] at hi
      exact hfresh i hi (by omega) (.inl (by omega))
    have hslide : c.slide = c.seq - c.tsd.segSeq := hc ▸ rfl
    have hview : { ed with sos := c }.view w ((a, right) :: after) =
        { ed.view w ((a, right) :: after) with trunc := arr.stop - right.start w } :=
      view_eq rfl rfl (hc ▸ rfl) (hc ▸ rfl) hcut (hc ▸ rfl) (hc ▸ congrArg BitVec.toNat hpsize)
    have hhi : arr.dataEnd - (arr.stop - right.start w) = right.start w - arr.syn := by
      omega
    obtain ⟨harr', hins⟩ := add_view { ed with sos := c } harr ((a, right) :: after)
      (by show c.truncLen.toNat ≤ _; omega)
    rw [hview] at hins
    simp only [hcut, hhi] at hins
    simp only [hc, hslide]
    obtain ⟨ed', hed'⟩ : ∃ ed', { ed with sos := c }.add c.len (c.seq - c.tsd.segSeq) c.truncLen
        c.seq = ed' := ⟨_, rfl⟩
    have hseq' : ed'.sos.seq = ed.sos.seq := by
      rw [← hed', add_seq]
      exact hcseq
    have hbuffer : ed'.sos.tsd.pkt.buffer = p.buffer ∧ ed'.sos.tsd.pkt.data = p.data := by
      rw [← hed']
      have hadd := add_packet { ed with sos := c } c.len (c.seq - c.tsd.segSeq) c.truncLen c.seq
      exact ⟨hadd.1.trans (hc ▸ rfl), hadd.2.trans (hc ▸ rfl)⟩
    rw [hed'] at harr' hins ⊢
    refine ⟨?_, ?_⟩
    · refine harr'.repacket rfl rfl rfl rfl rfl ?_ ?_ ?_
      · show _ ≤ pos w right.endSeq
        rw [hseq', hsound.pos_endSeq]
        omega
      · show pos w right.endSeq ≤ _
        rw [hsound.pos_endSeq]
        omega
      · intro i hi hend
        have hi' : right.fin w ≤ arr.start + i := hsound.pos_endSeq ▸ hi
        rw [hbuffer.1, hbuffer.2]
        exact hfresh i (by omega) (by omega) (.inr hi')
    · exact .chunk (a, right) after rfl hltSeq hfin (hfull hltSeq) _ hins.setTrunc
        (view_eq rfl rfl hsound.pos_endSeq rfl rfl rfl rfl)

/-- `full_right_overlap_os3` skips a node of the length of the segment that starts at `seq`
behind a hole. -/
theorem replace_step (hreplace : ed.replacesAfterHole right)
    (hdiffers : right.start w = pos w ed.sos.rseq → ¬ arr.Repeats w right) :
    Arriving w arr (((ed.sos.truncateNew right).skipRetransmit right).skipSeq right) ∧
      RightStep w arr .os3 (ed.view w ((a, right) :: after))
        (({ ed with sos := ((ed.sos.truncateNew right).skipRetransmit right).skipSeq right }.push
          (a, right)).view w after) := by
  unfold replacesAfterHole at hreplace
  by_cases hguard : seqEq right.iSeq ed.sos.seq && right.iLen == ed.sos.len
  · rw [Bool.and_eq_true, seqEq_iff (w := w) hsound.start_bound
      (hge.trans_lt hsound.start_bound), beq_iff_eq] at hguard
    have hlen : right.iLen.toNat = arr.len := hguard.2 ▸ h.len
    have hstart : right.start w = pos w ed.sos.seq := hguard.1
    have hfinEq := right.fin_eq w
    have hle := h.start_le_seq
    have hbounds := arr.bounds
    obtain ⟨p, hdata, hpsize, hplen, -, hcopy⟩ := ed.sos.copyToPacket_eq
      (right.iSeq - ed.sos.tsd.segSeq).toNat right.data
      (ed.sos.tsd.segSeq + ed.sos.tsd.segLen.setWidth 32 - right.iSeq).toNat
    simp only [truncateNew, hcopy]
    -- the node reaches to the end of the data, so that nothing is left to insert
    have harr : Arriving w arr
        { ed.sos with tsd := { ed.sos.tsd with pkt := p }, truncLen := ed.sos.overlap } := by
      refine h.repacket rfl hdata hpsize hplen rfl le_rfl h.seq_le ?_
      intro i hi hlt
      have hi' : pos w ed.sos.seq ≤ arr.start + i := hi
      have hlt' : arr.start + i + ed.sos.overlap.toNat < arr.dataEnd := hlt
      omega
    obtain ⟨harr', hseq, -⟩ := harr.skipRetransmit hstart hfin fun i hi hlt => by omega
    have htrunc : arr.stop - right.start w = arr.stop - pos w ed.sos.seq := by rw [hstart]
    refine ⟨harr', .skip (a, right) after rfl hstart hfin (by decide)
      (arr.stop - pos w ed.sos.seq) _ (.inr ⟨rfl, rfl, ?_⟩) hdiffers
      (view_eq rfl rfl hseq rfl (hoverlap.trans htrunc) rfl (congrArg BitVec.toNat hpsize))⟩
    show right.fin w = pos w ed.sos.seq + arr.len
    omega
  · simp [hguard] at hreplace

theorem fullOverlap_step (hafter : ∀ x ∈ after, x.2.Sound w) (htrunc : ed.sos.truncLen.toNat = 0)
    (hdiffers : right.start w = pos w ed.sos.rseq → ¬ arr.Repeats w right) :
    Arriving w arr (fullOverlap r ed a right after).1.sos ∧
      (fullOverlap r ed a right after).2 = after ∧
      RightStep w arr r.full (ed.view w ((a, right) :: after))
        ((fullOverlap r ed a right after).1.view w after) := by
  have hstop := arr.stop_bound
  have hlt := hsound.start_lt
  have hseqlt : pos w ed.sos.seq < 2 ^ 31 := by omega
  have hdrop : r.full ≠ .os5 →
      Arriving w arr (ed.drop (a, right) after).1.sos ∧ (ed.drop (a, right) after).2 = after ∧
      RightStep w arr r.full (ed.view w ((a, right) :: after))
        ((ed.drop (a, right) after).1.view w after) := by
    intro hfull
    obtain ⟨cur, hdrop⟩ : ∃ cur, ed.drop (a, right) after = _ := drop_eq hafter
    rw [hdrop]
    exact ⟨h.congr rfl rfl rfl rfl, rfl, .drop (a, right) after rfl hge hfin hfull hdiffers
        (view_eq rfl rfl rfl rfl htrunc rfl rfl)⟩
  -- the second branch of os1 and os2 is left to nodes that start at `seq`
  have hbefore : ∀ full, full ≠ .os4 → ¬ ed.sos.startsBefore right →
      Arriving w arr (ed.fullTruncateNew a right).sos ∧
      RightStep w arr full (ed.view w ((a, right) :: after))
        ((ed.fullTruncateNew a right).view w after) := by
    intro full hos hnot
    have hnlt : ¬ pos w ed.sos.seq < right.start w := by
      intro hlt
      apply hnot
      unfold startsBefore
      rw [Bool.and_eq_true, seqLt_iff (w := w) hseqlt hsound.start_bound,
        seqGeq_iff (w := w) (by rw [h.seqEnd]; exact hstop) hsound.endSeq_bound, h.seqEnd,
        hsound.pos_endSeq]
      exact ⟨hfin, hlt⟩
    exact fullTruncateNew_step ed a after h hsound hge hoverlap hfin htrunc hos hdiffers
      fun hlt => absurd hlt hnlt
  unfold fullOverlap
  cases hfull : r.full with
  | os1 =>
    rw [hfull] at hdrop
    by_cases hstarts : ed.sos.startsBefore right
    · simp only [if_pos hstarts]
      exact hdrop (by decide)
    · simp only [if_neg hstarts]
      obtain ⟨harr, hstep⟩ := hbefore .os1 (by decide) hstarts
      exact ⟨harr, trivial, hstep⟩
  | os2 =>
    rw [hfull] at hdrop
    by_cases hstarts : ed.sos.startsBefore right
    · simp only [if_pos hstarts]
      exact hdrop (by decide)
    · by_cases hends : ed.sos.endsAfter right
      · simp only [if_neg hstarts, if_pos hends]
        exact hdrop (by decide)
      · simp only [if_neg hstarts, if_neg hends]
        obtain ⟨harr, hstep⟩ := hbefore .os2 (by decide) hstarts
        exact ⟨harr, trivial, hstep⟩
  | os3 =>
    rw [hfull] at hdrop
    by_cases hreplace : ed.replacesAfterHole right
    · simp only [if_pos hreplace]
      obtain ⟨harr, hstep⟩ := replace_step ed a after h hsound hge hoverlap hfin hreplace
        hdiffers
      exact ⟨harr, trivial, hstep⟩
    · simp only [if_neg hreplace]
      exact hdrop (by decide)
  | os4 =>
    rw [hfull] at hdrop
    exact hdrop (by decide)
  | os5 =>
    obtain ⟨harr, hstep⟩ := fullTruncateNew_step ed a after h hsound hge hoverlap hfin htrunc
      (by decide) hdiffers fun _ => (rfl : FullOverlap.os5 = .os5)
    exact ⟨harr, rfl, hstep⟩
end

/-- The round of the loop for a node that starts before the end of the segment. -/
theorem evalRight_succ (fuel : ℕ) (h : Arriving w arr ed.sos)
    (htrunc : ed.sos.truncLen.toNat = 0 ∨ arr.dataEnd ≤ pos w ed.sos.seq) (hsound : right.Sound w)
    (hafter : ∀ x ∈ after, x.2.Sound w) (hge : pos w ed.sos.seq ≤ right.start w)
    (hlt : right.start w < arr.stop) :
    (∃ ed' after', evalRight r (fuel + 1) ed ((a, right) :: after) =
        some (ed', after') ∧ Arriving w arr ed'.sos ∧
        RightStop w arr r.right (ed.view w ((a, right) :: after)) (ed'.view w after')) ∨
      ∃ ed', evalRight r (fuel + 1) ed ((a, right) :: after) =
        evalRight r fuel ed' after ∧ Arriving w arr ed'.sos ∧
        RightStep w arr r.full (ed.view w ((a, right) :: after)) (ed'.view w after) := by
  have hbound := hsound.start_bound
  have hstop := arr.stop_bound
  have hfinEq := right.fin_eq w
  have hrseq := h.rseq_le
  have hmeasure := h.measureRight htrunc right
  have hoverlap := toNat_overlap h hlt.le
  have hseqlt : seqLt right.iSeq ed.sos.seqEnd :=
    (seqLt_iff (w := w) hbound (by rw [h.seqEnd]; exact hstop)).mpr (by rw [h.seqEnd]; exact hlt)
  have hleq : seqLeq ed.sos.seq right.iSeq :=
    (seqLeq_iff (w := w) (hge.trans_lt hbound) hbound).mpr hge
  have hint : (ed.sos.measureRight right).overlap.toInt = ((arr.stop - right.start w : ℕ) : ℤ) := by
    rw [toInt_eq_toNat_of_lt (by omega), hoverlap]
  have hcount : Arriving w arr (ed.sos.measureRight right).countOverlap :=
    hmeasure.congr rfl rfl rfl rfl
  simp only [evalRight, if_pos hseqlt, if_pos hleq]
  by_cases hpart : (ed.sos.measureRight right).overlap.toInt < (right.iLen.toNat : ℤ)
  · -- the node reaches behind the segment
    simp only [if_pos hpart]
    have hfin : arr.stop < right.fin w := by omega
    left
    rcases isRetransmit_cases hmeasure hsound hge hlt rfl false with
      ⟨hretr, hstart, hrepeats⟩ | ⟨hretr, hdiffers⟩
    · rw [hretr]
      have hstart' : right.start w = pos w ed.sos.seq := le_antisymm (hstart.le.trans hrseq) hge
      exact ⟨_, _, rfl, hmeasure.congr rfl rfl rfl rfl,
        .resent (a, right) after rfl hstart' (hstart.symm.trans hstart') hfin hrepeats
          (view_eq rfl rfl rfl rfl rfl rfl rfl)⟩
    · rw [hretr]
      obtain ⟨harr, hstep⟩ := rightOverlap_stop r
        { ed with sos := (ed.sos.measureRight right).countOverlap } a after hcount hsound hge
        hoverlap hlt hfin rfl hdiffers
      exact ⟨_, _, rfl, harr, hstep.setTrunc⟩
  · simp only [if_neg hpart]
    have hfin : right.fin w ≤ arr.stop := by omega
    right
    rcases segmentRetransmit_cases hmeasure hsound hge hfin rfl with ⟨hretr, hdiffers⟩ |
      ⟨sos', hretr, harr, hstart, heq, hrepeats, hseq, hrseq', htrunc', htsd, hkeep⟩
    · obtain ⟨harr, hafter', hstep⟩ := fullOverlap_step r
        { ed with sos := (ed.sos.measureRight right).countOverlap } a after hcount hsound hge
        hoverlap hfin hafter rfl hdiffers
      refine ⟨_, ?_, harr, hstep.setTrunc⟩
      simp only [hretr, hafter']
    · refine ⟨{ ed with sos := sos' }.push (a, right), ?_, harr,
        .resent (a, right) after rfl hstart heq hfin hrepeats sos'.keepSegment hkeep
          (view_eq rfl rfl hseq hrseq' (congrArg BitVec.toNat htrunc') rfl
            (congrArg (fun tsd => tsd.pkt.dsize.toNat) htsd))⟩
      simp only [hretr]

/-- What is cut off after a round is nothing, or there is nothing left to insert. -/
theorem RightStep.trunc_eq {v v' : EditView}
    (h : RightStep w arr full v v') (hle : arr.start ≤ v.seq) :
    v'.trunc = 0 ∨ arr.dataEnd ≤ v'.seq := by
  cases h with
  | resent x after hafter _ _ _ _ _ _ heq => exact .inl (by rw [heq])
  | skip x after hafter hstart hfin hfull trunc rseq htrunc _ heq =>
    rw [heq]
    refine htrunc.imp id fun ⟨_, _, hfin⟩ => ?_
    have hend := arr.dataEnd_eq
    show arr.dataEnd ≤ x.2.fin w
    omega
  | drop x after hafter _ _ _ _ heq => exact .inl (by rw [heq])
  | chunk x after hafter _ _ _ v₁ _ heq => exact .inl (by rw [heq])

theorem evalRight_run (fuel : ℕ) (ed : ListEditor) (after : List Node) (h : Arriving w arr ed.sos)
    (htrunc : ed.sos.truncLen.toNat = 0 ∨ arr.dataEnd ≤ pos w ed.sos.seq)
    (hsound : ∀ x ∈ after, x.2.Sound w)
    (hsorted : after.Pairwise fun x y => x.2.fin w ≤ y.2.start w)
    (hge : ∀ x ∈ after, pos w ed.sos.seq ≤ x.2.start w) (hfuel : after.length < fuel) :
    ∃ ed' after', evalRight r fuel ed after = some (ed', after') ∧
      Arriving w arr ed'.sos ∧ RightRun w arr r (ed.view w after) (ed'.view w after') := by
  induction after generalizing fuel ed with
  | nil =>
    obtain ⟨fuel, rfl⟩ := Nat.exists_eq_succ_of_ne_zero (Nat.ne_zero_of_lt hfuel)
    refine ⟨ed, [], rfl, h, .done ?_⟩
    intro x hx
    exact absurd hx (not_mem_none x)
  | cons node after ih =>
    obtain ⟨a, right⟩ := node
    obtain ⟨fuel, rfl⟩ := Nat.exists_eq_succ_of_ne_zero (Nat.ne_zero_of_lt hfuel)
    have hright : right.Sound w := hsound _ mem_cons_self
    have hafter := fun x hx => hsound x (mem_cons_of_mem _ hx)
    obtain ⟨hfirst, hrest⟩ := pairwise_cons.mp hsorted
    by_cases hlt : right.start w < arr.stop
    · rcases evalRight_succ (a := a) r fuel h htrunc hright hafter (hge _ mem_cons_self)
          hlt with
        ⟨ed', after', hres, harr, hstop⟩ | ⟨ed', hres, harr, hstep⟩
      · exact ⟨ed', after', hres, harr, .stop hstop⟩
      · have hseq := hstep.seq_le rfl hright.start_lt
        obtain ⟨ed'', after'', hres', harr', hrun⟩ := ih fuel ed' harr
          (hstep.trunc_eq h.start_le_seq) hafter hrest (fun x hx => hseq.trans (hfirst x hx))
          (Nat.lt_of_succ_lt_succ hfuel)
        exact ⟨ed'', after'', hres.trans hres', harr', .next hstep hrun⟩
    · have hnot : ¬ seqLt right.iSeq ed.sos.seqEnd := by
        rw [seqLt_iff (w := w) hright.start_bound (by rw [h.seqEnd]; exact arr.stop_bound),
          h.seqEnd]
        exact hlt
      refine ⟨ed, (a, right) :: after, if_neg hnot, h, .done ?_⟩
      intro x hx
      obtain rfl := some.inj hx
      exact not_lt.mp hlt
end Right
end Snort.Tcp
