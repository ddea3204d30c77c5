import Snort.Stream.Paf
import Snort.Stream.Tcp.QueuePacket

/-!
# The position of the scanner

On a stream without gaps, the position that `paf_check` keeps is the initial
sequence number plus what it told the caller to flush, and every byte is scanned
at its own place. This needs flush points that are not 0: the amount -1 that is
returned for an empty flush is also added to the position.
-/

namespace Snort.Paf
open BitVec Nat
open Tcp (seqGt seqLeq seqLt)
variable {σ : Type} {sp : StreamSplitter σ}

/-! ## Calls on a stream -/

/-- A segment that is handed to `paf_check`. Its place is counted from the initial sequence
number of the stream. -/
structure Segment where
  start : ℕ
  bytes : List UInt8
  flags : BitVec 32

/-- The scanner of a stream, and what its caller knows: the bytes that were flushed, and the
end of those that were handed over since. -/
structure Stream (σ : Type) where
  splitter : σ
  ps : PafState
  flushed : ℕ
  next : ℕ

namespace Stream
variable (sp) (init : BitVec 32)

/-- A stream that nothing was handed over of. -/
def new (splitter : σ) : Stream σ := ⟨splitter, .setup, 0, 0⟩

/-- The bytes since the last flush, up to the end of the segment. -/
def total (st : Stream σ) (seg : Segment) : ℕ := seg.start + seg.bytes.length - st.flushed

def check (st : Stream σ) (seg : Segment) : Check σ × Option (BitVec 32) :=
  pafCheck sp st.splitter st.ps seg.bytes (BitVec.ofNat 32 (st.total seg))
    (init + BitVec.ofNat 32 seg.start) seg.flags

/-- The stream after a call. What the call returns is flushed, unless it is negative, and the
caller begins anew at the place of the flush. -/
def after (st : Stream σ) (seg : Segment) : Stream σ :=
  let (c, result) := st.check sp init seg
  let amount := match result with
    | some fp => fp.toInt.toNat
    | none => 0
  { splitter := c.splitter
    ps := c.ps
    flushed := st.flushed + amount
    next := if amount = 0 then max st.next (seg.start + seg.bytes.length)
      else st.flushed + amount }
end Stream

/-- The segments come in order and without gaps, and do not reach too far ahead. -/
structure Segment.InOrder (st : Stream σ) (seg : Segment) : Prop where
  flushed_le : st.flushed ≤ seg.start
  le_next : seg.start ≤ st.next
  total_lt : st.total seg < 2 ^ 31

/-- The splitter answered as it should. It did not answer `START`, an offset to be flushed is
not 0, one to be skipped is not empty, and none of them is too large. -/
def Scan.Proper (e : Scan) : Prop :=
  match e.status with
  | .start => False
  | .abort | .search => True
  | .flush | .limit => 0 < e.idx.toNat + e.fp.toNat ∧ e.idx.toNat + e.fp.toNat < 2 ^ 32
  | .skip => 0 < e.fp.toNat ∧ e.idx.toNat + e.fp.toNat < 2 ^ 32
  | .limited => 0 < e.fp.toNat ∧ e.idx.toNat + e.fp.toNat < 2 ^ 31

instance : DecidablePred Scan.Proper
  | ⟨_, _, _, .start, _⟩ => inferInstanceAs (Decidable False)
  | ⟨_, _, _, .abort, _⟩ | ⟨_, _, _, .search, _⟩ => inferInstanceAs (Decidable True)
  | ⟨_, _, _, .flush, _⟩ | ⟨_, _, _, .limit, _⟩ | ⟨_, _, _, .skip, _⟩ | ⟨_, _, _, .limited, _⟩ =>
    inferInstanceAs (Decidable (_ ∧ _))

/-! ## The loop -/

/-- What is pending in a state of the loop. -/
def LoopState (ps : PafState) (px : PafAux) : Prop :=
  match ps.paf with
  | .abort | .start => False
  | .search => True
  | .flush | .limit => 0 < ps.fpt.toNat
  | .skip => px.idx.toNat ≤ ps.fpt.toNat ∨ px.len.toNat ≤ ps.fpt.toNat
  | .limited => px.idx.toNat + ps.fpt.toNat < 2 ^ 32

/-- The place of the data pointer while the offset is inside the queued bytes. -/
structure InPlace (flushed start : ℕ) (px : PafAux) (data : ℕ) (len : BitVec 32) : Prop where
  place : px.idx.toNat ≤ px.len.toNat → start + data = flushed + px.idx.toNat
  rest : px.idx.toNat ≤ px.len.toNat → px.idx.toNat + len.toNat = px.len.toNat

/-- A scan of bytes of the segment at their own place. -/
structure Scan.Exact (flushed : ℕ) (seg : Segment) (e : Scan) : Prop where
  place : seg.start + e.data = flushed + e.idx.toNat
  inside : e.data + e.len.toNat ≤ seg.bytes.length

/-- The loop when a round begins. -/
structure LoopInv (flushed : ℕ) (seg : Segment) (c : Check σ) (data : ℕ) (len : BitVec 32) :
    Prop where
  state : LoopState c.ps c.px
  place : InPlace flushed seg.start c.px data len
  pos : c.ps.paf = .search ∨ 0 < c.px.len.toNat
  inside : flushed + c.px.len.toNat ≤ seg.start + seg.bytes.length
  bound : c.px.len.toNat < 2 ^ 31
  scans : ∀ e ∈ c.scans, e.Exact flushed seg

/-- What is pending when the loop ends without a flush. -/
def Stopped (ps : PafState) (px : PafAux) : Prop :=
  match ps.paf with
  | .start => False
  | .abort | .search => True
  | .flush | .limit => px.len.toNat < ps.fpt.toNat
  | .skip => px.len.toNat ≤ ps.fpt.toNat
  | .limited => px.len.toNat < ps.fpt.toNat ∧ ps.fpt.toNat < 2 ^ 31

/-- What is pending when the loop ends with a flush. -/
def Ready (ps : PafState) (px : PafAux) : Prop :=
  match px.ft with
  | .nop | .sfp => False
  | .paf => ps.paf = .search ∧ 0 < ps.fpt.toNat ∧ ps.fpt.toNat ≤ px.len.toNat
  | .limit => ps.paf = .limited ∧ 0 < ps.fpt.toNat ∧ 0 < px.len.toNat
  | .max => ps.paf = .flush ∧ px.len.toNat < ps.fpt.toNat ∧ 0 < px.len.toNat

/-- The rounds that can follow before the offset moves. -/
def Status.rounds : Status → ℕ
  | .limited => 2
  | .flush | .limit => 0
  | _ => 1

/-- A bound on the rounds that are left. -/
def roundsLeft (c : Check σ) : ℕ :=
  2 * (c.px.len.toNat - c.px.idx.toNat) + c.ps.paf.rounds

/-- The new offset as the loop sees it: how far the data pointer moves. -/
def shiftOf (idx idx' len : BitVec 32) : BitVec 32 :=
  let shift := if idx < idx' then idx' - idx else 0
  if len < shift then len else shift

/-- A call leaves the flush position, the cursor and the number of queued bytes alone. -/
structure SamePos (c c' : Check σ) : Prop where
  pos : c'.ps.pos = c.ps.pos
  seq : c'.ps.seq = c.ps.seq
  len : c'.px.len = c.px.len

section Round
variable {flushed : ℕ} {seg : Segment} {c : Check σ} {data : ℕ} {len : BitVec 32}
  {c' : Check σ} {cont : Bool}

/-- What a scan leads to: the offset moves on, or there is nothing more to do now. -/
inductive Moved (c c' : Check σ) (cont : Bool) : Prop
  | on (hcont : cont = true) (hge : c.px.idx.toNat ≤ c'.px.idx.toNat)
      (hle : c'.px.idx.toNat ≤ c.px.len.toNat) (hpos : 0 < c'.px.idx.toNat)
      (hstate : LoopState c'.ps c'.px)
      (hrounds : c'.ps.paf.rounds + 2 * c.px.idx.toNat < 1 + 2 * c'.px.idx.toNat)
  | stop (hcont : cont = false) (hstopped : Stopped c'.ps c'.px)

theorem callback_spec (hplace : seg.start + data = flushed + c.px.idx.toNat)
    (hrest : c.px.idx.toNat + len.toNat = c.px.len.toNat)
    (hinside : flushed + c.px.len.toNat ≤ seg.start + seg.bytes.length)
    (hbound : c.px.len.toNat < 2 ^ 31) (hscans : ∀ e ∈ c.scans, e.Exact flushed seg)
    (hres : pafCallback sp seg.bytes c data len = (c', cont))
    (hproper : ∀ e ∈ c'.scans, e.Proper) :
    SamePos c c' ∧ c'.px.ft = c.px.ft ∧ (∀ e ∈ c'.scans, e.Exact flushed seg) ∧
      Moved c c' cont := by
  unfold pafCallback at hres
  dsimp only at hres
  generalize sp.scan c.splitter ((seg.bytes.drop data).take len.toNat) len c.flags = r at hres
  have hscans' : ∀ e ∈ c.scans ++ [⟨data, len, c.px.idx, r.status, r.fp⟩], e.Exact flushed seg := by
    intro e he
    rcases List.mem_append.mp he with he | he
    · exact hscans e he
    · obtain rfl := List.mem_singleton.mp he
      refine ⟨hplace, ?_⟩
      show data + len.toNat ≤ _
      omega
  have hmem : (⟨data, len, c.px.idx, r.status, r.fp⟩ : Scan) ∈
      c.scans ++ [⟨data, len, c.px.idx, r.status, r.fp⟩] :=
    List.mem_append_right _ (List.mem_singleton_self _)
  by_cases habort : r.status = .abort
  · rw [if_pos habort] at hres
    obtain ⟨rfl, rfl⟩ := Prod.mk.inj hres
    refine ⟨⟨rfl, rfl, rfl⟩, rfl, hscans', .stop rfl ?_⟩
    simp only [Stopped, habort]
  · rw [if_neg habort] at hres
    by_cases hsearch : r.status = .search
    · rw [if_pos hsearch] at hres
      obtain ⟨rfl, rfl⟩ := Prod.mk.inj hres
      refine ⟨⟨rfl, rfl, rfl⟩, rfl, hscans', .stop rfl ?_⟩
      simp only [Stopped, hsearch]
    · rw [if_neg hsearch] at hres
      -- the scan is among those of the result, whatever the splitter answered
      have hscan : c'.scans = c.scans ++ [⟨data, len, c.px.idx, r.status, r.fp⟩] := by
        split at hres <;> exact (congrArg (fun x => x.1.scans) hres).symm
      have hp := hproper _ (hscan ▸ hmem)
      unfold Scan.Proper at hp
      have hlt : r.fp.toNat + c.px.idx.toNat < 2 ^ 32 := by
        cases hst : r.status <;> simp_all only [reduceCtorEq] <;> omega
      have hfpt : (r.fp + c.px.idx).toNat = r.fp.toNat + c.px.idx.toNat := by
        exact mod_eq_of_lt hlt
      split at hres
      case isTrue hle =>
        obtain ⟨rfl, rfl⟩ := Prod.mk.inj hres
        rw [le_def, hfpt] at hle
        refine ⟨⟨rfl, rfl, rfl⟩, rfl, hscans', .on rfl ?_ ?_ ?_ ?_ ?_⟩
        · show c.px.idx.toNat ≤ (r.fp + c.px.idx).toNat
          omega
        · show (r.fp + c.px.idx).toNat ≤ _
          omega
        all_goals
          cases hst : r.status <;>
            simp_all only [LoopState, Status.rounds, reduceCtorEq, not_true_eq_false] <;> omega
      case isFalse hle =>
        obtain ⟨rfl, rfl⟩ := Prod.mk.inj hres
        rw [le_def, hfpt] at hle
        refine ⟨⟨rfl, rfl, rfl⟩, rfl, hscans', .stop rfl ?_⟩
        unfold Stopped
        cases hst : r.status <;> simp_all only [reduceCtorEq, not_true_eq_false] <;> omega

/-- The data pointer follows the offset when it moves forward. -/
theorem InPlace.advance {px px' : PafAux} {start : ℕ}
    (h : InPlace flushed start px data len) (hlen : px'.len = px.len)
    (hidx : px.idx.toNat ≤ px'.idx.toNat) :
    InPlace flushed start px' (data + (shiftOf px.idx px'.idx len).toNat)
      (len - shiftOf px.idx px'.idx len) := by
  -- as long as the new offset is inside, the shift is the distance of the offsets
  have hshift (hle : px'.idx.toNat ≤ px'.len.toNat) :
      (shiftOf px.idx px'.idx len).toNat = px'.idx.toNat - px.idx.toNat ∧
        (shiftOf px.idx px'.idx len).toNat ≤ len.toNat := by
    have hrest := h.rest (by rw [hlen] at hle; omega)
    have hsub := toNat_sub_of_le (le_def.mpr hidx)
    unfold shiftOf
    simp only [lt_def]
    split_ifs with hlt hgt hgt
    all_goals
      simp_all
      try omega
  refine ⟨fun hle => ?_, fun hle => ?_⟩
  all_goals
    obtain ⟨hs, hsl⟩ := hshift hle
    rw [hlen] at hle
  · have := h.place (by omega)
    omega
  · have := h.rest (by omega)
    rw [toNat_sub_of_le (le_def.mpr hsl), hlen]
    omega

/-- How a round of the loop ends. -/
inductive Outcome (flushed : ℕ) (seg : Segment) (c : Check σ) (data : ℕ) (len : BitVec 32)
    (c' : Check σ) (cont : Bool) : Prop
  | goOn (hft : c'.px.ft = .nop) (hcont : cont = true)
      (hinv : LoopInv flushed seg c' (data + (shiftOf c.px.idx c'.px.idx len).toNat)
        (len - shiftOf c.px.idx c'.px.idx len))
      (hless : roundsLeft c' < roundsLeft c)
  | stop (hft : c'.px.ft = .nop) (hcont : cont = false) (hstopped : Stopped c'.ps c'.px)
  | flush (hready : Ready c'.ps c'.px)

/-- A round that scans, after it has moved the offset to `idx₁`. -/
theorem LoopInv.scan (h : LoopInv flushed seg c data len) (hft : c.px.ft = .nop)
    (hrounds : c.ps.paf.rounds = 1) {idx₁ : BitVec 32} (hidx : c.px.idx.toNat ≤ idx₁.toNat)
    {data₁ : ℕ} {len₁ : BitVec 32} (hplace : seg.start + data₁ = flushed + idx₁.toNat)
    (hrest : idx₁.toNat + len₁.toNat = c.px.len.toNat)
    (hres : pafCallback sp seg.bytes { c with px := { c.px with idx := idx₁ } } data₁ len₁ =
      (c', cont))
    (hproper : ∀ e ∈ c'.scans, e.Proper) :
    SamePos c c' ∧ (∀ e ∈ c'.scans, e.Exact flushed seg) ∧
      Outcome flushed seg c data len c' cont := by
  obtain ⟨hsame, hft', hscans', hmoved⟩ :=
    callback_spec (c := { c with px := { c.px with idx := idx₁ } }) hplace hrest h.inside h.bound
      h.scans hres hproper
  have hlen : c'.px.len = c.px.len := hsame.len
  refine ⟨⟨hsame.pos, hsame.seq, hlen⟩, hscans', ?_⟩
  have hnop : c'.px.ft = .nop := hft'.trans hft
  cases hmoved with
  | on hcont hge hle hpos hstate hrounds' =>
    simp only at hge hle hrounds'
    refine .goOn hnop hcont ⟨hstate, h.place.advance hlen (by omega), .inr ?_, ?_, ?_, hscans'⟩ ?_
    · rw [hlen]
      omega
    · exact hlen ▸ h.inside
    · exact hlen ▸ h.bound
    · unfold roundsLeft
      rw [hlen, hrounds]
      omega
  | stop hcont hstopped => exact .stop hnop hcont hstopped

theorem eval_spec (h : LoopInv flushed seg c data len) (hft : c.px.ft = .nop)
    (hres : pafEval sp seg.bytes c data len = (c', cont))
    (hproper : ∀ e ∈ c'.scans, e.Proper) :
    SamePos c c' ∧ (∀ e ∈ c'.scans, e.Exact flushed seg) ∧
      Outcome flushed seg c data len c' cont := by
  have hstate := h.state
  unfold LoopState at hstate
  unfold pafEval at hres
  cases hpaf : c.ps.paf with
  | abort | start => simp only [hpaf] at hstate
  | search =>
    simp only [hpaf] at hres
    split at hres
    case isTrue hlt =>
      exact h.scan hft (by rw [hpaf]; rfl) le_rfl (h.place.place hlt.le) (h.place.rest hlt.le) hres
        hproper
    case isFalse =>
      obtain ⟨rfl, rfl⟩ := Prod.mk.inj hres
      exact ⟨⟨rfl, rfl, rfl⟩, h.scans, .stop hft rfl (by simp only [Stopped, hpaf])⟩
  | flush =>
    have hpos := h.pos.resolve_left (by simp [hpaf])
    simp only [hpaf] at hres hstate
    split at hres
    case isTrue hle =>
      obtain ⟨rfl, rfl⟩ := Prod.mk.inj hres
      exact ⟨⟨rfl, rfl, rfl⟩, h.scans, .flush ⟨rfl, hstate, le_def.mp hle⟩⟩
    case isFalse hle =>
      rw [le_def, not_le] at hle
      split at hres <;> obtain ⟨rfl, rfl⟩ := Prod.mk.inj hres
      · exact ⟨⟨rfl, rfl, rfl⟩, h.scans, .flush ⟨hpaf, hle, hpos⟩⟩
      · exact ⟨⟨rfl, rfl, rfl⟩, h.scans, .stop hft rfl (by simpa only [Stopped, hpaf])⟩
  | limit =>
    have hpos := h.pos.resolve_left (by simp [hpaf])
    simp only [hpaf] at hres hstate
    split at hres <;> obtain ⟨rfl, rfl⟩ := Prod.mk.inj hres
    · exact ⟨⟨rfl, rfl, rfl⟩, h.scans, .flush ⟨rfl, hstate, hpos⟩⟩
    · exact ⟨⟨rfl, rfl, rfl⟩, h.scans, .stop hft rfl trivial⟩
  | skip =>
    simp only [hpaf] at hres hstate
    split at hres
    case isTrue hlt =>
      rw [lt_def] at hlt
      have hidx : c.px.idx.toNat ≤ c.ps.fpt.toNat := by omega
      have hplace := h.place.place (by omega)
      have hrest := h.place.rest (by omega)
      have hdelta := toNat_sub_of_le (le_def.mpr hidx)
      split at hres
      case isTrue =>
        rw [if_neg (by rw [lt_def]; omega)] at hres
        refine h.scan hft (by rw [hpaf]; rfl) hidx ?_ ?_ hres hproper
        · omega
        · rw [toNat_sub_of_le (le_def.mpr (by omega))]
          omega
      case isFalse hge =>
        rw [lt_def] at hge
        exact h.scan hft (by rw [hpaf]; rfl) hidx (by omega) (by omega) hres hproper
    case isFalse hge =>
      rw [lt_def, not_lt] at hge
      obtain ⟨rfl, rfl⟩ := Prod.mk.inj hres
      exact ⟨⟨rfl, rfl, rfl⟩, h.scans, .stop hft rfl (by simpa only [Stopped, hpaf])⟩
  | limited =>
    simp only [hpaf] at hres hstate
    obtain ⟨rfl, rfl⟩ := Prod.mk.inj hres
    have hidx : (c.px.idx + c.ps.fpt).toNat = c.px.idx.toNat + c.ps.fpt.toNat := by
      exact mod_eq_of_lt hstate
    refine ⟨⟨rfl, rfl, rfl⟩, h.scans, .goOn hft rfl ⟨trivial, h.place.advance rfl ?_, .inl rfl,
      h.inside, h.bound, h.scans⟩ ?_⟩
    · show c.px.idx.toNat ≤ (c.px.idx + c.ps.fpt).toNat
      omega
    · simp only [roundsLeft, hpaf, hidx, Status.rounds]
      omega
end Round

/-! ## Flushes -/

/-- What is pending right after a flush. -/
def Begun (ps : PafState) : Prop :=
  match ps.paf with
  | .abort | .start => False
  | .flush | .limit => 0 < ps.fpt.toNat
  | .search | .skip | .limited => True

/-- The loop returns the amount `n`. -/
structure Flushed (c c' : Check σ) (n : BitVec 32) : Prop where
  amount_pos : 0 < n.toNat
  amount_le : n.toNat ≤ c.px.len.toNat
  pos : c'.ps.pos = c.ps.pos + n
  seq : c'.ps.seq = c.ps.pos + n
  begun : Begun c'.ps

section Flushes
variable {flushed : ℕ} {seg : Segment} {c c' : Check σ} {ps : PafState} {px : PafAux}
  (flags : BitVec 32)

theorem pafFlush_paf (hft : px.ft = .paf) :
    pafFlush ps px flags = pafFlushAmount ps px
      (flags &&& ~~~(pktPduHead ||| pktPduTail) ||| pktPduTail) ps.fpt := by
  simp only [pafFlush, hft]

theorem pafFlush_limit_of_lt (hft : px.ft = .limit) (hlt : px.len < ps.fpt) :
    pafFlush ps px flags = pafFlushAmount { ps with fpt := ps.fpt - px.len } px
      (flags &&& ~~~(pktPduHead ||| pktPduTail)) px.len := by
  simp only [pafFlush, hft, if_pos hlt]

theorem pafFlush_limit_of_le (hft : px.ft = .limit) (hle : ¬px.len < ps.fpt) :
    pafFlush ps px flags = pafFlushAmount { ps with fpt := px.len - ps.fpt } px
      (flags &&& ~~~(pktPduHead ||| pktPduTail)) ps.fpt := by
  simp only [pafFlush, hft, if_neg hle]

theorem pafFlush_max (hft : px.ft = .max) :
    pafFlush ps px flags = pafFlushAmount
      { ps with fpt := if px.len < ps.fpt then ps.fpt - px.len else 0 } px
      (flags &&& ~~~(pktPduHead ||| pktPduTail)) px.len := by
  simp only [pafFlush, hft]

theorem flushed_of_amount {flags n : BitVec 32}
    (heq : pafFlush c.ps c.px c.flags = pafFlushAmount ps c.px flags n) (hat : ps.pos = c.ps.pos)
    (hpos : 0 < n.toNat) (hle : n.toNat ≤ c.px.len.toNat) (hbound : c.px.len.toNat < 2 ^ 31)
    (hbegun : Begun ps) : Flushed c (flushAndJump c).1 (flushAndJump c).2 := by
  have hn : ¬n = 0 := fun h => by simp [h] at hpos
  have hlen : ¬c.px.len = 0 := fun h => by simp [h] at hle; omega
  have hmax : ¬(0x7FFFFFFF : BitVec 32) < n := by
    show ¬2147483647 < n.toNat
    omega
  unfold flushAndJump
  rw [heq]
  unfold pafFlushAmount
  rw [if_neg (not_or.mpr ⟨hn, hlen⟩), if_neg hmax]
  exact ⟨hpos, hle, congrArg (· + n) hat, congrArg (· + n) hat, hbegun⟩

theorem flush_max (hft : c.px.ft = .max) (hstopped : Stopped c.ps c.px)
    (habort : c.ps.paf ≠ .abort) (hpos : 0 < c.px.len.toNat) (hbound : c.px.len.toNat < 2 ^ 31) :
    Flushed c (flushAndJump c).1 (flushAndJump c).2 := by
  have hrest (h : c.px.len.toNat < c.ps.fpt.toNat) :
      0 < (if c.px.len < c.ps.fpt then c.ps.fpt - c.px.len else 0).toNat := by
    rw [if_pos (lt_def.mpr h), toNat_sub_of_le (le_def.mpr h.le)]
    omega
  refine flushed_of_amount (pafFlush_max _ hft) rfl hpos le_rfl hbound ?_
  unfold Stopped at hstopped
  unfold Begun
  cases hpaf : c.ps.paf <;> simp_all

theorem flush_ready (hready : Ready c.ps c.px) (hbound : c.px.len.toNat < 2 ^ 31) :
    Flushed c (flushAndJump c).1 (flushAndJump c).2 := by
  unfold Ready at hready
  cases hft : c.px.ft with
  | nop | sfp => simp only [hft] at hready
  | paf =>
    simp only [hft] at hready
    obtain ⟨hpaf, hpos, hle⟩ := hready
    exact flushed_of_amount (pafFlush_paf _ hft) rfl hpos hle hbound (by simp only [Begun, hpaf])
  | limit =>
    simp only [hft] at hready
    obtain ⟨hpaf, hfpt, hpos⟩ := hready
    by_cases hlt : c.px.len < c.ps.fpt
    · refine flushed_of_amount (pafFlush_limit_of_lt _ hft hlt) rfl hpos le_rfl hbound ?_
      simp only [Begun, hpaf]
    · refine flushed_of_amount (pafFlush_limit_of_le _ hft hlt) rfl hfpt (not_lt.mp hlt) hbound ?_
      simp only [Begun, hpaf]
  | max =>
    simp only [hft] at hready
    obtain ⟨hpaf, hlt, hpos⟩ := hready
    exact flush_max hft (by simpa only [Stopped, hpaf]) (by simp [hpaf]) hpos hbound
end Flushes

/-! ## The whole loop -/

section Loop
variable {bytes : List UInt8} {flushed : ℕ} {seg : Segment} {c c' : Check σ}

theorem callback_scans (c : Check σ) (data : ℕ) (len : BitVec 32) :
    c.scans ⊆ (pafCallback sp bytes c data len).1.scans := by
  unfold pafCallback
  dsimp only
  split_ifs <;> exact List.subset_append_left _ _

theorem eval_scans (sp : StreamSplitter σ) (bytes : List UInt8) (c : Check σ) (data : ℕ)
    (len : BitVec 32) :
    c.scans ⊆ (pafEval sp bytes c data len).1.scans := by
  unfold pafEval
  dsimp only
  split
  case h_1 =>
    split_ifs
    · exact callback_scans c data len
    · exact List.Subset.refl _
  case h_4 =>
    split_ifs
    · exact List.Subset.refl _
    · exact callback_scans { c with px := { c.px with idx := c.ps.fpt } } _ _
    · exact callback_scans { c with px := { c.px with idx := c.ps.fpt } } _ _
    · exact List.Subset.refl _
  all_goals
    try split_ifs
    all_goals exact List.Subset.refl _

theorem end_scans (c : Check σ) : (pafEnd sp c).1.scans = c.scans := by
  unfold pafEnd
  split_ifs <;> rfl

theorem pafLoop_succ {fuel : ℕ} {data : ℕ} {len : BitVec 32} {cont : Bool}
    (h : pafEval sp bytes { c with px := { c.px with ft := .nop } } data len = (c', cont)) :
    pafLoop sp bytes (fuel + 1) c data len =
      if c'.px.ft ≠ .nop then ((flushAndJump c').1, some (flushAndJump c').2)
      else if cont then
        pafLoop sp bytes fuel c' (data + (shiftOf c.px.idx c'.px.idx len).toNat)
          (len - shiftOf c.px.idx c'.px.idx len)
      else ((pafEnd sp c').1, some (pafEnd sp c').2) := by
  rw [pafLoop]
  rw [h]
  rfl

theorem loop_scans (fuel : ℕ) (c : Check σ) (data : ℕ) (len : BitVec 32) :
    c.scans ⊆ (pafLoop sp bytes fuel c data len).1.scans := by
  induction fuel generalizing c data len with
  | zero => exact List.Subset.refl _
  | succ fuel ih =>
    rcases h : pafEval sp bytes { c with px := { c.px with ft := .nop } } data len with ⟨c', cont⟩
    have heval : c.scans ⊆ c'.scans := by
      have := eval_scans sp bytes { c with px := { c.px with ft := .nop } } data len
      rwa [h] at this
    rw [pafLoop_succ h]
    split_ifs
    · exact heval
    · exact List.Subset.trans heval (ih c' _ _)
    · exact (end_scans c').symm ▸ heval

/-- What the loop ends with. -/
inductive LoopResult (c c' : Check σ) : Option (BitVec 32) → Prop
  | wait (hsame : SamePos c c') (hstopped : Stopped c'.ps c'.px) : LoopResult c c' (some (-1))
  | flushed {n : BitVec 32} (h : Flushed c c' n) : LoopResult c c' (some n)

theorem LoopResult.of_same {c₁ : Check σ} {r : Option (BitVec 32)} (hsame : SamePos c c₁)
    (h : LoopResult c₁ c' r) : LoopResult c c' r := by
  cases h with
  | wait hsame' hstopped =>
    exact .wait ⟨hsame'.pos.trans hsame.pos, hsame'.seq.trans hsame.seq,
      hsame'.len.trans hsame.len⟩ hstopped
  | flushed h =>
    exact .flushed ⟨h.amount_pos, hsame.len ▸ h.amount_le, hsame.pos ▸ h.pos, hsame.pos ▸ h.seq,
      h.begun⟩

theorem end_result (hstopped : Stopped c.ps c.px) (hbound : c.px.len.toNat < 2 ^ 31) :
    LoopResult c (pafEnd sp c).1 (some (pafEnd sp c).2) := by
  unfold pafEnd
  split_ifs with habort hmax
  · exact .wait ⟨rfl, rfl, rfl⟩ hstopped
  · have hpos := lt_def.mp hmax.2
    have hflushed := flush_max (c := { c with px := { c.px with ft := .max } }) rfl hstopped habort
      (by show 0 < c.px.len.toNat; omega) hbound
    refine .of_same ?_ (.flushed hflushed)
    exact ⟨rfl, rfl, rfl⟩
  · exact .wait ⟨rfl, rfl, rfl⟩ hstopped

/-- With enough fuel the loop returns, after scans of bytes at their own place. -/
theorem loop_spec (fuel : ℕ) (c : Check σ) (data : ℕ) (len : BitVec 32)
    (hfuel : roundsLeft c < fuel) (h : LoopInv flushed seg c data len)
    (hproper : ∀ e ∈ (pafLoop sp seg.bytes fuel c data len).1.scans, e.Proper) :
    (∀ e ∈ (pafLoop sp seg.bytes fuel c data len).1.scans, e.Exact flushed seg) ∧
      LoopResult c (pafLoop sp seg.bytes fuel c data len).1
        (pafLoop sp seg.bytes fuel c data len).2 := by
  induction fuel generalizing c data len with
  | zero => omega
  | succ fuel ih =>
    rcases heval : pafEval sp seg.bytes { c with px := { c.px with ft := .nop } } data len
      with ⟨c', cont⟩
    rw [pafLoop_succ heval] at hproper ⊢
    -- what the round scanned is still there when the loop has ended
    have hround : ∀ e ∈ c'.scans, e.Proper := by
      intro e he
      refine hproper e ?_
      split_ifs
      · exact he
      · exact loop_scans _ _ _ _ he
      · exact (end_scans c').symm ▸ he
    have hinv : LoopInv flushed seg { c with px := { c.px with ft := .nop } } data len :=
      ⟨h.state, ⟨h.place.place, h.place.rest⟩, h.pos, h.inside, h.bound, h.scans⟩
    obtain ⟨hsame, hexact, houtcome⟩ := eval_spec hinv rfl heval hround
    have hsame : SamePos c c' := ⟨hsame.pos, hsame.seq, hsame.len⟩
    have hbound : c'.px.len.toNat < 2 ^ 31 := hsame.len ▸ h.bound
    cases houtcome with
    | goOn hft hcont hinv' hless =>
      rw [if_neg (not_not.mpr hft), if_pos hcont] at hproper ⊢
      have hless : roundsLeft c' < roundsLeft c := hless
      obtain ⟨hexact', hres⟩ := ih c' _ _ (by omega) hinv' hproper
      exact ⟨hexact', hres.of_same hsame⟩
    | stop hft hcont hstopped =>
      rw [if_neg (not_not.mpr hft), if_neg (by simp [hcont])] at hproper ⊢
      exact ⟨(end_scans c').symm ▸ hexact, (end_result hstopped hbound).of_same hsame⟩
    | flush hready =>
      have hft : c'.px.ft ≠ .nop := fun hft => by simp [Ready, hft] at hready
      rw [if_pos hft] at hproper ⊢
      exact ⟨hexact, (LoopResult.flushed (flush_ready hready hbound)).of_same hsame⟩
end Loop

/-! ## A call -/

/-- What is pending between calls, `d` bytes after the last flush. A skip leads to a place that
was not scanned yet, unless the bytes that are looked at were cut off by `MAX_PAF_MAX`. -/
def Pending (m : BitVec 32) (ps : PafState) (d : ℕ) : Prop :=
  match ps.paf with
  | .start => False
  | .abort | .search => True
  | .flush | .limit => 0 < ps.fpt.toNat
  | .skip => d ≤ ps.fpt.toNat ∨ m.toNat < d ∧ maxPafMax.toNat ≤ d ∧ maxPafMax.toNat ≤ ps.fpt.toNat
  | .limited => d + ps.fpt.toNat < 2 ^ 32

theorem Begun.pending {m : BitVec 32} {ps : PafState} (h : Begun ps) : Pending m ps 0 := by
  have hfpt := ps.fpt.isLt
  unfold Begun at h
  unfold Pending
  cases hpaf : ps.paf <;> simp_all

/-- What `paf_check` ends with when it looks at `total` bytes, of which `len` are new. -/
inductive CallResult (m : BitVec 32) (c : Check σ) (len total : BitVec 32) (c' : Check σ) :
    Option (BitVec 32) → Prop
  | wait (hpos : c'.ps.pos = c.ps.pos) (hseq : c'.ps.seq = c.ps.seq + len)
      (hpending : Pending m c'.ps total.toNat) : CallResult m c len total c' (some (-1))
  | flushed {n : BitVec 32} (hn : 0 < n.toNat) (hle : n.toNat ≤ total.toNat)
      (hpos : c'.ps.pos = c.ps.pos + n) (hseq : c'.ps.seq = c.ps.pos + n) (hbegun : Begun c'.ps) :
      CallResult m c len total c' (some n)

section Call
variable {flushed : ℕ} {seg : Segment} {m : BitVec 32} {c : Check σ} {data : ℕ}
  {len total : BitVec 32} {ps : PafState}

/-- The bytes that a call looks at: all that are queued, or the first `MAX_PAF_MAX` of them. -/
def window (m total : BitVec 32) : BitVec 32 :=
  if maxPafMax ≤ total ∧ m < total then maxPafMax else total

theorem window_le : (window m total).toNat ≤ total.toNat := by
  unfold window
  split
  case isTrue h => exact h.1
  case isFalse => exact le_rfl

theorem window_pos (h : 0 < total.toNat) : 0 < (window m total).toNat := by
  unfold window
  split
  · decide
  · exact h

theorem pafScan_eq (hmax : ∀ s, sp.max s = m) (c : Check σ) (bytes : List UInt8) (data : ℕ)
    (len total : BitVec 32) :
    pafScan sp c bytes data len total = pafLoop sp bytes (2 * total.toNat + 3)
        { c with
          ps := { c.ps with seq := c.ps.seq + len }
          px := ⟨.nop, window m total, total - len⟩ }
        data (len + window m total - total) := by
  unfold pafScan window
  simp only [hmax]
  split
  · rfl
  · rw [BitVec.add_sub_cancel]

theorem Stopped.pending {px : PafAux} (hlen : px.len = window m total)
    (hbound : total.toNat < 2 ^ 31) (hstopped : Stopped ps px) : Pending m ps total.toNat := by
  unfold Stopped at hstopped
  unfold Pending
  rw [hlen] at hstopped
  cases hpaf : ps.paf with
  | skip =>
    simp only [hpaf] at hstopped ⊢
    unfold window at hstopped
    split at hstopped
    case isTrue h => exact .inr ⟨h.2, h.1, hstopped⟩
    case isFalse => exact .inl hstopped
  | _ => simp only [hpaf] at hstopped ⊢; try omega

theorem Pending.loopState {idx : BitVec 32} (hidx : idx.toNat ≤ total.toNat)
    (hpending : Pending m ps idx.toNat) (habort : ps.paf ≠ .abort) :
    LoopState ps ⟨.nop, window m total, idx⟩ := by
  unfold Pending at hpending
  unfold LoopState
  cases hpaf : ps.paf with
  | abort => exact habort hpaf
  | skip =>
    simp only [hpaf] at hpending ⊢
    rcases hpending with hle | ⟨hlt, hle, hfpt⟩
    · exact .inl hle
    -- the bytes were cut off before, and there are no fewer of them now
    · refine .inr ?_
      rwa [window, if_pos ⟨le_def.mpr (by omega), lt_def.mpr (by omega)⟩]
  | start => simp only [hpaf] at hpending
  | search => trivial
  | _ => simpa only [hpaf] using hpending

theorem LoopResult.call {c₁ c' : Check σ} {r : Option (BitVec 32)} (h : LoopResult c₁ c' r)
    (hpos : c₁.ps.pos = c.ps.pos) (hseq : c₁.ps.seq = c.ps.seq + len)
    (hlen : c₁.px.len = window m total) (hbound : total.toNat < 2 ^ 31) :
    CallResult m c len total c' r := by
  cases h with
  | wait hsame hstopped =>
    exact .wait (hsame.pos.trans hpos) (hsame.seq.trans hseq)
      (hstopped.pending (hsame.len.trans hlen) hbound)
  | flushed h =>
    exact .flushed h.amount_pos (h.amount_le.trans (hlen ▸ window_le)) (hpos ▸ h.pos)
      (hpos ▸ h.seq) h.begun

theorem scan_spec (flushed : ℕ) (hmax : ∀ s, sp.max s = m) (hlen : len.toNat ≤ total.toNat)
    (hplace : seg.start + data = flushed + (total - len).toNat)
    (hend : flushed + total.toNat = seg.start + seg.bytes.length)
    (hbound : total.toNat < 2 ^ 31) (hpending : Pending m c.ps (total - len).toNat)
    (habort : c.ps.paf ≠ .abort) (hpos : c.ps.paf = .search ∨ 0 < len.toNat) (hscans : c.scans = [])
    (hproper : ∀ e ∈ (pafScan sp c seg.bytes data len total).1.scans, e.Proper) :
    (∀ e ∈ (pafScan sp c seg.bytes data len total).1.scans, e.Exact flushed seg) ∧
      CallResult m c len total (pafScan sp c seg.bytes data len total).1
        (pafScan sp c seg.bytes data len total).2 := by
  have hidx := toNat_sub_of_le (le_def.mpr hlen)
  have hle : (window m total).toNat ≤ total.toNat := window_le
  rw [pafScan_eq hmax] at hproper ⊢
  refine (loop_spec _ _ _ _ ?_ ?_ hproper).imp_right fun h => h.call rfl rfl rfl hbound
  · have hrounds : c.ps.paf.rounds ≤ 2 := by cases c.ps.paf <;> decide
    simp only [roundsLeft]
    omega
  · refine ⟨hpending.loopState (by omega) habort, ⟨fun _ => hplace, fun hin => ?_⟩, ?_, ?_, ?_, ?_⟩
    · -- the length is cut off by as much as the queued bytes
      have hcut : len + window m total - total = window m total - (total - len) := by ring
      rw [hcut, toNat_sub_of_le (le_def.mpr hin)]
      exact Nat.add_sub_cancel' hin
    · exact hpos.imp_right fun h => window_pos (by omega)
    · show flushed + (window m total).toNat ≤ _
      omega
    · exact hle.trans_lt hbound
    · simp only [hscans, List.not_mem_nil, false_implies, implies_true]
end Call

/-! ## Runs -/

namespace Stream
variable (sp) (init : BitVec 32)

/-- What a call promises. It returns -1 or an amount of the bytes that are queued, the position
is the one of the last flush and stays if the call returns -1, and all bytes are scanned at
their own place. -/
structure ExactCall (st : Stream σ) (seg : Segment) : Prop where
  result : ∃ n, (st.check sp init seg).2 = some n ∧ (n = -1 ∨ 1 ≤ n.toInt ∧ n.toInt ≤ st.total seg)
  pos : (st.after sp init seg).ps.pos = init + BitVec.ofNat 32 (st.after sp init seg).flushed
  stays : (st.check sp init seg).2 = some (-1) → st.ps.paf ≠ .start →
    (st.after sp init seg).ps.pos = st.ps.pos
  scans : ∀ e ∈ (st.check sp init seg).1.scans, e.Exact st.flushed seg

/-- What a call needs. -/
structure ProperCall (st : Stream σ) (seg : Segment) : Prop where
  inOrder : seg.InOrder st
  active : st.ps.paf ≠ .abort
  scans : ∀ e ∈ (st.check sp init seg).1.scans, e.Proper

/-- All calls of a run are as `P` says. -/
def Along (P : Stream σ → Segment → Prop) : Stream σ → List Segment → Prop
  | _, [] => True
  | st, seg :: segs => P st seg ∧ Along P (st.after sp init seg) segs

/-- The scanner between two calls, when the splitter's maximum is `m`. -/
inductive Inv (m : BitVec 32) (st : Stream σ) : Prop
  | fresh (hpaf : st.ps.paf = .start) (hflushed : st.flushed = 0) (hnext : st.next = 0)
  | running (hpos : st.ps.pos = init + BitVec.ofNat 32 st.flushed)
      (hseq : st.ps.seq = init + BitVec.ofNat 32 st.next) (hle : st.flushed ≤ st.next)
      (hbound : st.next - st.flushed < 2 ^ 31) (hpending : Pending m st.ps (st.next - st.flushed))

variable {sp init} {m : BitVec 32} {st : Stream σ} {seg : Segment}

theorem toNat_ofNat_of_le {n : ℕ} (hin : seg.InOrder st) (hle : n ≤ st.total seg) :
    (BitVec.ofNat 32 n).toNat = n := by
  have := hin.total_lt
  exact mod_eq_of_lt (by omega)

theorem ofNat_add_ofNat (a b : ℕ) :
    init + BitVec.ofNat 32 a + BitVec.ofNat 32 b = init + BitVec.ofNat 32 (a + b) := by
  rw [add_assoc, ← BitVec.ofNat_add]

theorem exact_of_result (hin : seg.InOrder st) (hnext : st.next ≤ seg.start + seg.bytes.length)
    {c : Check σ} {len : BitVec 32} (hpos : c.ps.pos = init + BitVec.ofNat 32 st.flushed)
    (hstays : st.ps.paf ≠ .start → c.ps.pos = st.ps.pos)
    (hseq : c.ps.seq + len = init + BitVec.ofNat 32 (seg.start + seg.bytes.length))
    (hscans : ∀ e ∈ (st.check sp init seg).1.scans, e.Exact st.flushed seg)
    (h : CallResult m c len (BitVec.ofNat 32 (st.total seg)) (st.check sp init seg).1
      (st.check sp init seg).2) :
    st.ExactCall sp init seg ∧ (st.after sp init seg).Inv init m := by
  have htotal := toNat_ofNat_of_le hin le_rfl
  have hlt := hin.total_lt
  have hflushed := hin.flushed_le
  rcases hcheck : st.check sp init seg with ⟨c', r⟩
  rw [hcheck] at h
  cases h with
  | wait hpos' hseq' hpending =>
    have hafter : st.after sp init seg =
        ⟨c'.splitter, c'.ps, st.flushed, seg.start + seg.bytes.length⟩ := by
      unfold after
      rw [hcheck]
      exact congrArg (Stream.mk c'.splitter c'.ps st.flushed) (max_eq_right hnext)
    refine ⟨⟨⟨-1, by rw [hcheck], .inl rfl⟩, ?_, fun _ hstart => ?_, hscans⟩, ?_⟩
    · rw [hafter]
      exact hpos'.trans hpos
    · rw [hafter]
      exact hpos'.trans (hstays hstart)
    · rw [hafter]
      refine .running (hpos'.trans hpos) (hseq'.trans hseq) (by simp only; omega) hlt ?_
      rwa [htotal] at hpending
  | flushed hn hle hpos' hseq' hbegun =>
    rename_i n
    rw [htotal] at hle
    have hint : n.toInt = n.toNat := by
      rw [toInt_eq_toNat_cond, if_pos (by omega)]
    have hafter : st.after sp init seg =
        ⟨c'.splitter, c'.ps, st.flushed + n.toNat, st.flushed + n.toNat⟩ := by
      unfold after
      rw [hcheck]
      show Stream.mk _ _ (st.flushed + n.toInt.toNat)
        (if n.toInt.toNat = 0 then _ else st.flushed + n.toInt.toNat) = _
      rw [hint, Int.toNat_natCast, if_neg (by omega)]
    have hat : c.ps.pos + n = init + BitVec.ofNat 32 (st.flushed + n.toNat) := by
      rw [hpos, ← ofNat_add_ofNat, ofNat_toNat, setWidth_eq]
    refine ⟨⟨⟨n, by rw [hcheck], .inr (by omega)⟩, ?_, fun hminus _ => ?_, hscans⟩, ?_⟩
    · rw [hafter]
      exact hpos'.trans hat
    · rw [hcheck] at hminus
      rw [Option.some.inj hminus] at hint
      exact absurd hint (by decide)
    · rw [hafter]
      refine .running (hpos'.trans hat) (hseq'.trans hat) le_rfl (by simp) ?_
      simpa only [Nat.sub_self] using hbegun.pending

/-- Places of a stream that are close to each other compare like the sequence numbers. -/
theorem toInt_sub_of_close {a b : ℕ} (hab : a < b + 2 ^ 31) (hba : b < a + 2 ^ 31) :
    (init + BitVec.ofNat 32 a - (init + BitVec.ofNat 32 b)).toInt = (a : ℤ) - b := by
  have hsub : init + BitVec.ofNat 32 a - (init + BitVec.ofNat 32 b) =
      BitVec.ofNat 32 a - BitVec.ofNat 32 b := by ring
  rw [hsub, toInt_sub, toInt_ofNat', toInt_ofNat', Int.bmod_sub_bmod, Int.sub_bmod_bmod]
  exact Int.bmod_eq_of_le (by omega) (by omega)

/-- The variables of `paf_check` when it begins. -/
def atCall (st : Stream σ) (ps : PafState) (seg : Segment) : Check σ :=
  ⟨st.splitter, ps, ⟨.nop, 0, 0⟩, seg.flags, []⟩

theorem check_of_start (hpaf : st.ps.paf = .start) :
    st.check sp init seg =
      pafScan sp (st.atCall { st.ps with
          seq := init + BitVec.ofNat 32 seg.start
          pos := init + BitVec.ofNat 32 seg.start
          paf := .search } seg)
        seg.bytes 0 (BitVec.ofNat 32 seg.bytes.length) (BitVec.ofNat 32 (st.total seg)) := by
  unfold check pafCheck atCall
  rw [if_pos hpaf]

section
variable (hpaf : st.ps.paf ≠ .start) (hseq : st.ps.seq = init + BitVec.ofNat 32 st.next)
  (hstart : seg.start ≤ st.next) (hclose : st.next < seg.start + 2 ^ 31)
include hpaf hseq hstart hclose

theorem check_of_old (hend : seg.start + seg.bytes.length ≤ st.next) :
    st.check sp init seg = (st.atCall st.ps seg, some (-1)) := by
  unfold check pafCheck atCall
  rw [if_neg hpaf, if_neg, if_pos]
  · rw [seqLeq, hseq, ofNat_add_ofNat, toInt_sub_of_close (by omega) (by omega), decide_eq_true_eq]
    omega
  · rw [seqGt, hseq, toInt_sub_of_close (by omega) (by omega), decide_eq_true_eq]
    omega

theorem check_of_new (hend : st.next < seg.start + seg.bytes.length)
    (hbound : seg.start + seg.bytes.length < st.next + 2 ^ 31) :
    st.check sp init seg = pafScan sp (st.atCall st.ps seg) seg.bytes (st.next - seg.start)
        (BitVec.ofNat 32 (seg.start + seg.bytes.length - st.next))
        (BitVec.ofNat 32 (st.total seg)) := by
  have hshift : st.ps.seq - (init + BitVec.ofNat 32 seg.start) =
      BitVec.ofNat 32 (st.next - seg.start) := by
    rw [hseq, ← Nat.add_sub_cancel' hstart, Nat.add_sub_cancel_left, ← ofNat_add_ofNat]
    ring
  have hlen : BitVec.ofNat 32 seg.bytes.length - BitVec.ofNat 32 (st.next - seg.start) =
      BitVec.ofNat 32 (seg.start + seg.bytes.length - st.next) := by
    have : seg.bytes.length =
      seg.start + seg.bytes.length - st.next + (st.next - seg.start) := by omega
    rw [this, BitVec.ofNat_add, BitVec.add_sub_cancel]
    congr 1
    omega
  unfold check pafCheck
  dsimp only
  rw [if_neg hpaf, if_neg, if_neg]
  · split
    · rw [hshift, hlen, toNat_ofNat, mod_eq_of_lt (by omega)]
      rfl
    case isFalse hlt =>
      -- the segment begins where the last one ended
      rw [seqLt, hseq, toInt_sub_of_close (by omega) (by omega), decide_eq_true_eq] at hlt
      have hnext : st.next = seg.start := by omega
      rw [hnext, Nat.sub_self, Nat.add_sub_cancel_left]
      rfl
  · rw [seqLeq, hseq, ofNat_add_ofNat, toInt_sub_of_close (by omega) (by omega), decide_eq_true_eq]
    omega
  · rw [seqGt, hseq, toInt_sub_of_close (by omega) (by omega), decide_eq_true_eq]
    omega
end

theorem check_spec (hmax : ∀ s, sp.max s = m) (hinv : st.Inv init m)
    (hcall : st.ProperCall sp init seg) :
    st.ExactCall sp init seg ∧ (st.after sp init seg).Inv init m := by
  obtain ⟨hin, habort, hproper⟩ := hcall
  have hflushed := hin.flushed_le
  have hnext := hin.le_next
  have hbound := hin.total_lt
  have htotal := toNat_ofNat_of_le hin le_rfl
  have hsize : st.flushed + st.total seg = seg.start + seg.bytes.length := by
    unfold total
    omega
  cases hinv with
  | fresh hpaf hflushed0 hnext0 =>
    have hstart : seg.start = st.flushed := by omega
    have hlen : st.total seg = seg.bytes.length := by omega
    have hcheck : st.check sp init seg = _ := check_of_start hpaf
    rw [← hlen] at hcheck
    rw [hcheck] at hproper
    obtain ⟨hexact, hres⟩ := scan_spec st.flushed hmax le_rfl
      (by rw [sub_self, hstart]; rfl) (by omega) (by omega) (by trivial) (by simp [atCall])
      (.inl rfl) rfl hproper
    rw [← hcheck] at hexact hres
    refine exact_of_result hin (by omega) ?_ (fun h => absurd hpaf h) ?_ hexact hres
    · rw [← hstart]
      rfl
    · rw [hlen]
      exact ofNat_add_ofNat _ _
  | running hpos hseq hle hnb hpending =>
    have hpaf : st.ps.paf ≠ .start := fun h => by simp [Pending, h] at hpending
    by_cases hend : seg.start + seg.bytes.length ≤ st.next
    · have hcheck : st.check sp init seg = _ := check_of_old hpaf hseq hnext (by omega) hend
      have hafter : st.after sp init seg = st := by
        unfold after
        rw [hcheck]
        exact congrArg (Stream.mk st.splitter st.ps st.flushed) (max_eq_left hend)
      refine ⟨⟨⟨-1, by rw [hcheck], .inl rfl⟩, by rwa [hafter], fun _ _ => by rw [hafter], ?_⟩, ?_⟩
      · rw [hcheck]
        exact fun e he => absurd he List.not_mem_nil
      · rw [hafter]
        exact .running hpos hseq hle hnb hpending
    · have hnew : seg.start + seg.bytes.length - st.next ≤ st.total seg := by omega
      have hlen := toNat_ofNat_of_le hin hnew
      have hidx : (BitVec.ofNat 32 (st.total seg) -
          BitVec.ofNat 32 (seg.start + seg.bytes.length - st.next)).toNat =
          st.next - st.flushed := by
        rw [toNat_sub_of_le (le_def.mpr (by omega))]
        omega
      have hcheck : st.check sp init seg = _ :=
        check_of_new hpaf hseq hnext (by omega) (by omega) (by omega)
      rw [hcheck] at hproper
      obtain ⟨hexact, hres⟩ := scan_spec st.flushed hmax (by omega) (by omega)
        (by omega) (by omega) (hidx ▸ hpending) habort (.inr (by omega)) rfl hproper
      rw [← hcheck] at hexact hres
      refine exact_of_result hin (by omega) hpos (fun _ => rfl) ?_ hexact hres
      show st.ps.seq + _ = _
      rw [hseq, ofNat_add_ofNat]
      congr 2
      omega

theorem along_exact (hmax : ∀ s, sp.max s = m) (segs : List Segment) (hinv : st.Inv init m)
    (h : Along sp init (ProperCall sp init) st segs) :
    Along sp init (ExactCall sp init) st segs := by
  induction segs generalizing st with
  | nil => trivial
  | cons seg segs ih =>
    obtain ⟨hcall, hrest⟩ := h
    obtain ⟨hexact, hinv'⟩ := check_spec hmax hinv hcall
    exact ⟨hexact, ih hinv' hrest⟩
end Stream

/-- On a stream without gaps, whatever the initial sequence number, the position of the scanner
is exact. The splitter's maximum does not change, and it answers as it should. -/
theorem paf_position_exact (sp : StreamSplitter σ) (m init : BitVec 32) (splitter : σ)
    (segs : List Segment) (hmax : ∀ s, sp.max s = m)
    (h : Stream.Along sp init (Stream.ProperCall sp init) (.new splitter) segs) :
    Stream.Along sp init (Stream.ExactCall sp init) (.new splitter) segs :=
  Stream.along_exact hmax segs (.fresh rfl rfl rfl) h

/-- A splitter that flushes messages of `n` bytes. -/
def fixedLength (n : BitVec 32) : StreamSplitter Unit where
  scan _ _ _ _ := ⟨(), .flush, n⟩
  max _ := 16384

theorem paf_position_exact_messages :
    Stream.Along (fixedLength 2) 0xFFFFFFFF (Stream.ExactCall (fixedLength 2) 0xFFFFFFFF)
      (.new ()) [⟨0, [1, 2, 3], 0⟩, ⟨2, [3], 0⟩, ⟨3, [4, 5], 0⟩] :=
  paf_position_exact (fixedLength 2) 16384 0xFFFFFFFF () _ (fun _ => rfl)
    ⟨⟨⟨by decide, by decide, by decide⟩, by decide, by decide⟩,
      ⟨⟨by decide, by decide, by decide⟩, by decide, by decide⟩,
      ⟨⟨by decide, by decide, by decide⟩, by decide, by decide⟩, trivial⟩

/-- The splitter flushes nothing: -1 is returned, and it is added to the position. -/
theorem paf_position_moves_back :
    let st := Stream.new ()
    let seg : Segment := ⟨0, [1], 0⟩
    (st.check (fixedLength 0) 100 seg).2 = some (-1) ∧
      (st.after (fixedLength 0) 100 seg).ps.pos = 99 ∧
      ¬Stream.Along (fixedLength 0) 100 (Stream.ExactCall (fixedLength 0) 100) st [seg] := by
  refine ⟨by decide, by decide, fun h => ?_⟩
  exact absurd h.1.pos (by decide)

/-! ## Termination and memory -/

namespace Stream
variable {init : BitVec 32} {st : Stream σ}

end Stream

end Snort.Paf
