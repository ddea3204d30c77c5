import Snort.Stream.Tcp.SegmentWindow

/-!
# The acknowledgements of a tracker

`update_tracker_ack_recv`, `update_tracker_ack_sent` and `update_on_fin_sent` of
`tcp_stream_tracker.cc`, without the flush that an acknowledgement leads to.
-/

namespace Snort.Tcp
open List Serial

inductive FinSeqNumStatus where
  | finNotSeen
  | finWithSeqSeen
  | finWithSeqAcked
deriving DecidableEq

/-- The fields of `TcpStreamTracker` that the three functions use. -/
structure AckTracker where
  sndUna : BitVec 32
  sndNxt : BitVec 32
  sndWnd : BitVec 32
  rWinBase : BitVec 32
  smallSegCount : BitVec 32
  finFinalSeq : BitVec 32
  finSeqStatus : FinSeqNumStatus

/-- The fields of `TcpSegmentDescriptor` that they use. -/
structure AckSegment where
  segAck : BitVec 32
  endSeq : BitVec 32
  segWnd : BitVec 32

inductive AckEvent where
  | ackRecv
  | ackSent
  | finSent
deriving DecidableEq

namespace AckTracker
variable (t t' : AckTracker)

def updateTrackerAckRecv (tsd : AckSegment) : AckTracker :=
  if seqGt tsd.segAck t.sndUna then
    -- `snd_nxt` is compared as a number
    { t with
      sndUna := tsd.segAck, sndNxt := if t.sndNxt < tsd.segAck then tsd.segAck else t.sndNxt }
  else t

def updateTrackerAckSent (tsd : AckSegment) : AckTracker :=
  let rWinBase := if seqGt tsd.segAck t.rWinBase then tsd.segAck else t.rWinBase
  { t with
    sndNxt := if seqGt tsd.endSeq t.sndNxt then tsd.endSeq else t.sndNxt
    smallSegCount := if seqEq t.rWinBase tsd.segAck then t.smallSegCount else 0
    rWinBase := rWinBase
    finSeqStatus := if t.finSeqStatus = .finWithSeqSeen ∧ seqEq rWinBase t.finFinalSeq then
      .finWithSeqAcked else t.finSeqStatus
    sndWnd := tsd.segWnd }

def updateOnFinSent (tsd : AckSegment) : AckTracker :=
  let t := t.updateTrackerAckSent tsd
  { t with sndNxt := t.sndNxt + 1 }

def step : AckEvent × AckSegment → AckTracker
  | (.ackRecv, tsd) => t.updateTrackerAckRecv tsd
  | (.ackSent, tsd) => t.updateTrackerAckSent tsd
  | (.finSent, tsd) => t.updateOnFinSent tsd

/-- The values of the tracker lie in the window that begins at `o`. -/
def InWindow (o : BitVec 32) : Prop :=
  pos o t.sndUna < 2 ^ 31 ∧ pos o t.sndNxt < 2 ^ 31 ∧ pos o t.rWinBase < 2 ^ 31

/-- A new acknowledgement and `snd_nxt` compare as numbers as they do in the sequence space. -/
def Unwrapped (e : AckEvent × AckSegment) : Prop :=
  e.1 = .ackRecv → seqGt e.2.segAck t.sndUna → (t.sndNxt < e.2.segAck ↔ seqLt t.sndNxt e.2.segAck)

/-- Nothing moves backwards, and `snd_una` does not pass `snd_nxt`. -/
def Advances : Prop :=
  seqLeq t.sndUna t'.sndUna ∧ seqLeq t.sndNxt t'.sndNxt ∧ seqLeq t.rWinBase t'.rWinBase ∧
    (seqLeq t.sndUna t.sndNxt → seqLeq t'.sndUna t'.sndNxt)

variable {t t'} {o : BitVec 32} {e : AckEvent × AckSegment}

theorem InWindow.advances_iff (h : t.InWindow o) (h' : t'.InWindow o) : Advances t t' ↔
    pos o t.sndUna ≤ pos o t'.sndUna ∧ pos o t.sndNxt ≤ pos o t'.sndNxt ∧
      pos o t.rWinBase ≤ pos o t'.rWinBase ∧
      (pos o t.sndUna ≤ pos o t.sndNxt → pos o t'.sndUna ≤ pos o t'.sndNxt) := by
  rw [Advances, seqLeq_iff h.1 h'.1, seqLeq_iff h.2.1 h'.2.1, seqLeq_iff h.2.2 h'.2.2,
    seqLeq_iff h.1 h.2.1, seqLeq_iff h'.1 h'.2.1]

section Newer
variable {a b : BitVec 32} (hb : pos o b < 2 ^ 31)
include hb

theorem pos_le_newer (h : pos o (if seqGt a b then a else b) < 2 ^ 31) :
    pos o b ≤ pos o (if seqGt a b then a else b) := by
  split_ifs at h ⊢ with hgt
  · exact ((seqGt_iff h hb).mp hgt).le
  · exact le_rfl

/-- What is newer than a number of the window is not the one in front of the window. -/
theorem pos_newer_lt (h : pos o ((if seqGt a b then a else b) + 1) < 2 ^ 31) :
    pos o (if seqGt a b then a else b) < 2 ^ 31 := by
  split_ifs at h ⊢ with hgt
  · simp only [seqGt, decide_eq_true_eq, BitVec.toInt_eq_toNat_cond] at hgt
    unfold pos at *
    split_ifs at hgt <;> bv_omega
  · exact hb
end Newer

theorem InWindow.step (h : t.InWindow o) (h' : (t.step e).InWindow o) (hwrap : t.Unwrapped e) :
    Advances t (t.step e) := by
  refine (h.advances_iff h').mpr ?_
  obtain ⟨hu, hn, hr⟩ := h
  obtain ⟨e, tsd⟩ := e
  cases e with
  | ackRecv =>
    have hagree := hwrap rfl
    simp only [AckTracker.step, updateTrackerAckRecv] at h' ⊢
    split_ifs at h' ⊢ with hnew hlt
    · have hack := h'.1
      have hlt' := (hagree hnew).mp hlt
      rw [seqLt_iff hn hack] at hlt'
      exact ⟨((seqGt_iff hack hu).mp hnew).le, hlt'.le, le_rfl, fun _ => le_rfl⟩
    · have hack := h'.1
      have hge := mt (hagree hnew).mpr hlt
      rw [seqLt_iff hn hack, not_lt] at hge
      exact ⟨((seqGt_iff hack hu).mp hnew).le, le_rfl, le_rfl, fun _ => hge⟩
    · exact ⟨le_rfl, le_rfl, le_rfl, id⟩
  | ackSent =>
    have hnxt := pos_le_newer hn h'.2.1
    exact ⟨le_rfl, hnxt, pos_le_newer hr h'.2.2, fun hle => hle.trans hnxt⟩
  | finSent =>
    have hlt := pos_newer_lt hn h'.2.1
    have hnxt : pos o t.sndNxt ≤ pos o ((if seqGt tsd.endSeq t.sndNxt then tsd.endSeq
        else t.sndNxt) + 1) := by
      rw [pos_add (by simp; omega)]
      exact (pos_le_newer hn hlt).trans (Nat.le_add_right _ _)
    exact ⟨le_rfl, hnxt, pos_le_newer hr h'.2.2, fun hle => hle.trans hnxt⟩

/-- In every run inside a window, nothing moves backwards between any two states. -/
theorem run_advances (o : BitVec 32) (t : AckTracker) (events : List (AckEvent × AckSegment))
    (hwindow : ∀ pre, pre <+: events → (pre.foldl AckTracker.step t).InWindow o)
    (hwrap : ∀ pre e, pre ++ [e] <+: events → (pre.foldl AckTracker.step t).Unwrapped e) :
    ∀ pre mid, pre ++ mid <+: events →
      Advances (pre.foldl AckTracker.step t) ((pre ++ mid).foldl AckTracker.step t) := by
  intro pre mid
  induction mid using reverseRecOn with
  | nil =>
    intro hpre
    rw [append_nil] at hpre ⊢
    exact ((hwindow pre hpre).advances_iff (hwindow pre hpre)).mpr ⟨le_rfl, le_rfl, le_rfl, id⟩
  | append_singleton mid e ih =>
    intro hpre
    rw [← append_assoc] at hpre ⊢
    have hmid := (prefix_append (pre ++ mid) [e]).trans hpre
    have hs := hwindow pre ((prefix_append pre mid).trans hmid)
    have hs₁ := hwindow _ hmid
    have hs₂ := hwindow _ hpre
    have h₁ := (hs.advances_iff hs₁).mp (ih hmid)
    rw [foldl_append] at hs₂ ⊢
    have hstep := hs₁.step hs₂ (hwrap _ e hpre)
    have h₂ := (hs₁.advances_iff hs₂).mp hstep
    exact (hs.advances_iff hs₂).mpr ⟨h₁.1.trans h₂.1, h₁.2.1.trans h₂.2.1,
      h₁.2.2.1.trans h₂.2.2.1, h₂.2.2.2 ∘ h₁.2.2.2⟩

/-- The data that is sent ends behind the wrap, and is acknowledged there. -/
theorem run_advances_wrap :
    let t : AckTracker := ⟨0xFFFFFFF0, 0xFFFFFFF8, 0, 0xFFFFFFF0, 0, 0, .finNotSeen⟩
    let events : List (AckEvent × AckSegment) :=
      [(.ackSent, ⟨0xFFFFFFF4, 5, 0⟩), (.ackRecv, ⟨3, 2, 0⟩), (.finSent, ⟨2, 9, 0⟩),
        (.ackRecv, ⟨10, 3, 0⟩)]
    Advances t (events.foldl AckTracker.step t) := by
  intro t events
  refine run_advances 0xFFFFFFF0 t events (fun pre h => ?_) (fun pre e h => ?_) [] events prefix_rfl
  · have hall : ∀ l ∈ events.inits, (l.foldl AckTracker.step t).InWindow 0xFFFFFFF0 := by
      unfold InWindow
      decide +kernel
    exact hall pre ((mem_inits _ _).mpr h)
  · have hall : ∀ l ∈ events.inits, ∀ e ∈ l.getLast?,
        (l.dropLast.foldl AckTracker.step t).Unwrapped e := by
      unfold Unwrapped
      decide +kernel
    have hlast := hall _ ((mem_inits _ _).mpr h) e (by simp)
    rwa [dropLast_concat] at hlast

/-- A new acknowledgement before the wrap pulls `snd_nxt` back from behind it. -/
theorem run_moves_back :
    let t : AckTracker := ⟨0xFFFFFFF0, 5, 0, 0xFFFFFFF0, 0, 0, .finNotSeen⟩
    t.InWindow 0xFFFFFFF0 ∧ ¬Advances t (t.step (.ackRecv, ⟨0xFFFFFFF8, 0xFFFFFFF0, 0⟩)) := by
  simp only [InWindow, Advances]
  decide
end AckTracker
end Snort.Tcp
