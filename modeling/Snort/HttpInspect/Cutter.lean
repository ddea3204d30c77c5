import Snort.HttpInspect.UriNorm

/-!
# Cutting messages into sections

The cutters of `http_cutter.cc` for start lines and header blocks, which the stream
splitter runs over the segments of a message. Infractions and events are left out.
-/

namespace Snort.Http

def cr : Octet := 0x0D
def lf : Octet := 0x0A

variable (b : Octet)

def isCrLf : Bool := b = cr || b = lf
def isSpTab : Bool := b = 0x20 || b = 0x09
def isSpTabLf : Bool := isSpTab b || b = lf
def isSpTabCrLfVtFf : Bool := isSpTab b || isCrLf b || b = 0x0B || b = 0x0C

/-- `token_char` -/
def tokenChar : Bool :=
  (0x30 ≤ b && b ≤ 0x39) || (0x41 ≤ b && b ≤ 0x5A) || (0x5E ≤ b && b ≤ 0x7A) ||
    b ∈ [0x21, 0x23, 0x24, 0x25, 0x26, 0x27, 0x2A, 0x2B, 0x2D, 0x2E, 0x7C, 0x7E]

inductive ScanResult where
  | notFound | found | foundPiece | discard | discardPiece | abort
deriving DecidableEq

/-- What the loop of a cutter changes: `num_crlf` and the members of the class. -/
structure CutState (σ : Type) where
  numCrlf : ℕ
  own : σ
deriving DecidableEq

structure HttpCutter (σ : Type) extends CutState σ where
  octetsSeen : ℕ
  numFlush : ℕ
deriving DecidableEq

/-- What the loop does with an octet: it goes on, or it returns. Then `num_flush` is the index of
the octet plus `n`, or unchanged. -/
inductive CutMove (σ : Type) where
  | next (s : CutState σ)
  | found (n : ℕ) (s : CutState σ)
  | discard (n : ℕ) (s : CutState σ)
  | abort (s : CutState σ)

section Loop
variable {σ : Type} (octet : ℕ → Octet → CutState σ → CutMove σ)

/-- The loop of `cut`. The body gets `octets_seen + k`. -/
def cutLoop : ℕ → List Octet → HttpCutter σ → ScanResult × HttpCutter σ
  | k, [], c => (.notFound, { c with octetsSeen := c.octetsSeen + k })
  | k, b :: l, c =>
    match octet (c.octetsSeen + k) b c.toCutState with
    | .next s => cutLoop (k + 1) l { c with toCutState := s }
    | .found n s => (.found, { c with toCutState := s, numFlush := k + n })
    | .discard n s => (.discard, { c with toCutState := s, numFlush := k + n })
    | .abort s => (.abort, { c with toCutState := s })

def cut (buffer : List Octet) (c : HttpCutter σ) : ScanResult × HttpCutter σ :=
  cutLoop octet 0 buffer c

/-- A result that is not `SCAN_NOT_FOUND` is final. -/
def resume (x : ScanResult × HttpCutter σ) (f : HttpCutter σ → ScanResult × HttpCutter σ) :
    ScanResult × HttpCutter σ :=
  if x.1 = .notFound then f x.2 else x

/-- A cutter is run over the segments up to its first result. -/
def cutSegments : List (List Octet) → HttpCutter σ → ScanResult × HttpCutter σ
  | [], c => (.notFound, c)
  | segment :: segments, c => resume (cut octet segment c) (cutSegments segments)
end Loop

/-! ## Start lines -/

structure StartState where
  validated : Bool
  octetsChecked : ℕ
deriving DecidableEq

inductive ValidationResult where
  | good | bad | tbd

def maxLeadingWhitespace : ℕ := 20
def maxMethodLength : ℕ := 80

def requestValidate (octetsChecked : ℕ) : ValidationResult × ℕ :=
  if isSpTab b then (.good, octetsChecked)
  else if !tokenChar b then (.bad, octetsChecked)
  else if maxMethodLength < octetsChecked + 1 then (.bad, octetsChecked + 1)
  else (.tbd, octetsChecked + 1)

/-- `HTTP/` -/
def primaryMatch : List Octet := [0x48, 0x54, 0x54, 0x50, 0x2F]

/-- `http/` -/
def secondaryMatch : List Octet := [0x68, 0x74, 0x74, 0x70, 0x2F]

def statusValidate (octetsChecked : ℕ) : ValidationResult × ℕ :=
  if primaryMatch[octetsChecked]? ≠ some b ∧ secondaryMatch[octetsChecked]? ≠ some b then
    (.bad, octetsChecked)
  else if primaryMatch.length ≤ octetsChecked + 1 then (.good, octetsChecked + 1)
  else (.tbd, octetsChecked + 1)

/-- The end of the start line -/
def startLineEnd (s : CutState StartState) : CutMove StartState :=
  if b = lf then .found 1 { s with numCrlf := s.numCrlf + 1 }
  else if s.numCrlf = 1 then .found 0 s
  else if b = cr then .next { s with numCrlf := 1 }
  else .next s

section Start
variable (validate : Octet → ℕ → ValidationResult × ℕ)

def startLine (b : Octet) (s : CutState StartState) : CutMove StartState :=
  if s.own.validated then startLineEnd b s
  else
    match validate b s.own.octetsChecked with
    | (.good, n) => startLineEnd b { s with own := ⟨true, n⟩ }
    | (.bad, n) => .abort { s with own := ⟨false, n⟩ }
    | (.tbd, n) => startLineEnd b { s with own := ⟨false, n⟩ }

/-- The body of the loop of `HttpStartCutter::cut`, with the white space in front of the line. -/
def startOctet (position : ℕ) (b : Octet) (s : CutState StartState) : CutMove StartState :=
  if s.numCrlf = position then
    if isSpTabCrLfVtFf b then
      if s.numCrlf < maxLeadingWhitespace then .next { s with numCrlf := s.numCrlf + 1 }
        else .abort s
    else if 0 < s.numCrlf then .discard 0 s
    else startLine validate b s
  else startLine validate b s
end Start

def startCutter : HttpCutter StartState := ⟨⟨0, ⟨false, 0⟩⟩, 0, 0⟩

/-! ## Header blocks -/

inductive LineEndState where
  | zero | half | one | threehalf
deriving DecidableEq

structure HeaderState where
  state : LineEndState
  numHeadLines : ℕ
deriving DecidableEq

namespace CutState
variable (s : CutState HeaderState)

/-- A CR or LF -/
def separator (state : LineEndState) : CutState HeaderState :=
  ⟨s.numCrlf + 1, { s.own with state }⟩

/-- The first octet of a line -/
def newLine : CutState HeaderState := ⟨0, .zero, s.own.numHeadLines + 1⟩
end CutState

/-- The body of the loop of `HttpHeaderCutter::cut` -/
def headerOctet (s : CutState HeaderState) : CutMove HeaderState :=
  match s.own.state with
  | .zero =>
    if b = cr then .next (s.separator .half)
    else if b = lf then .next (s.separator .one)
    else .next s
  | .half =>
    if b = cr then .next (s.separator .threehalf)
    else if b = lf then .next (s.separator .one)
    else .next s.newLine
  | .one =>
    if b = cr then .next (s.separator .threehalf)
    else if b = lf then .found 1 (s.separator .one)
    else .next s.newLine
  | .threehalf =>
    if b = cr then .next (s.separator .threehalf)
    else if b = lf then .found 1 (s.separator .threehalf)
    else .next s.newLine

def headerCutter : HttpCutter HeaderState := ⟨⟨0, .one, 0⟩, 0, 0⟩

/-! ## Segments -/

section Segments
variable {σ : Type}

/-- The same result with the same counters, and the same position unless the cutter gave up. -/
structure SameCut (x y : ScanResult × HttpCutter σ) : Prop where
  result : x.1 = y.1
  state : x.2.toCutState = y.2.toCutState
  position : x.1 ≠ .abort → x.2.octetsSeen + x.2.numFlush = y.2.octetsSeen + y.2.numFlush

theorem SameCut.symm {x y : ScanResult × HttpCutter σ} (h : SameCut x y) : SameCut y x :=
  ⟨h.result.symm, h.state.symm, fun hne => (h.position (h.result ▸ hne)).symm⟩

theorem SameCut.trans {x y z : ScanResult × HttpCutter σ} (h : SameCut x y) (h' : SameCut y z) :
    SameCut x z :=
  ⟨h.result.trans h'.result, h.state.trans h'.state,
    fun hne => (h.position hne).trans (h'.position (h.result ▸ hne))⟩

variable (octet : ℕ → Octet → CutState σ → CutMove σ)

/-- The loop does not depend on where the segment begins. -/
theorem cutLoop_shift (l : List Octet) (s : CutState σ) (f : ℕ) {n n' k k' : ℕ}
    (h : n + k = n' + k') : SameCut (cutLoop octet k l ⟨s, n, f⟩)
    (cutLoop octet k' l ⟨s, n', f⟩) := by
  induction l generalizing s k k' with
  | nil => exact ⟨rfl, rfl, fun _ => congrArg (· + f) h⟩
  | cons b l ih =>
    rw [cutLoop, cutLoop]
    rw [h]
    cases octet (n' + k') b s with
    | next s => exact ih s (by omega)
    | found m s => exact ⟨rfl, rfl, fun _ => by dsimp only; omega⟩
    | discard m s => exact ⟨rfl, rfl, fun _ => by dsimp only; omega⟩
    | abort s => exact ⟨rfl, rfl, fun hne => absurd rfl hne⟩

theorem cutLoop_append (l l' : List Octet) (k : ℕ) (c : HttpCutter σ) :
    SameCut (resume (cutLoop octet k l c) (cut octet l')) (cutLoop octet k (l ++ l') c) := by
  induction l generalizing k c with
  | nil => exact cutLoop_shift octet l' c.toCutState c.numFlush rfl
  | cons b l ih =>
    rw [List.cons_append, cutLoop, cutLoop]
    cases octet (c.octetsSeen + k) b c.toCutState with
    | next s => exact ih (k + 1) _
    | found | discard | abort => exact ⟨rfl, rfl, fun _ => rfl⟩

theorem cutSegments_flatten (segments : List (List Octet)) (c : HttpCutter σ) :
    SameCut (cutSegments octet segments c) (cut octet segments.flatten c) := by
  induction segments generalizing c with
  | nil => exact ⟨rfl, rfl, fun _ => rfl⟩
  | cons segment segments ih =>
    refine SameCut.trans ?_ (cutLoop_append octet segment segments.flatten 0 c)
    change SameCut (resume (cutLoop octet 0 segment c) _) _
    unfold resume
    split_ifs
    · exact ih _
    · exact ⟨rfl, rfl, fun _ => rfl⟩

theorem cutSegments_same {segments segments' : List (List Octet)}
    (h : segments.flatten = segments'.flatten) (c : HttpCutter σ) :
    SameCut (cutSegments octet segments c) (cutSegments octet segments' c) := by
  have hcut := cutSegments_flatten octet segments c
  rw [h] at hcut
  exact hcut.trans (cutSegments_flatten octet segments' c).symm
end Segments

/-- The segments of a stream do not matter to a fresh cutter. -/
theorem cut_any_segments (segments segments' : List (List Octet))
    (h : segments.flatten = segments'.flatten) :
    SameCut (cutSegments (startOctet requestValidate) segments startCutter)
        (cutSegments (startOctet requestValidate) segments' startCutter) ∧
      SameCut (cutSegments (startOctet statusValidate) segments startCutter)
        (cutSegments (startOctet statusValidate) segments' startCutter) ∧
      SameCut (cutSegments (fun _ => headerOctet) segments headerCutter)
        (cutSegments (fun _ => headerOctet) segments' headerCutter) :=
  ⟨cutSegments_same _ h _, cutSegments_same _ h _, cutSegments_same _ h _⟩

/-- A segment ends between CR and LF. -/
theorem cut_any_segments_crlf :
    SameCut (cutSegments (fun _ => headerOctet) [[0x61, cr], [lf, lf]] headerCutter)
      (cutSegments (fun _ => headerOctet) [[0x61, cr, lf, lf]] headerCutter) :=
  (cut_any_segments [[0x61, cr], [lf, lf]] [[0x61, cr, lf, lf]] rfl).2.2

/-- A cutter that gives up does not set `num_flush`. -/
theorem abort_position_differs :
    let whole := cutSegments (startOctet requestValidate) [[0x47, 0]] startCutter
    let pieces := cutSegments (startOctet requestValidate) [[0x47], [0]] startCutter
    whole.1 = .abort ∧ pieces.1 = .abort ∧
      whole.2.octetsSeen + whole.2.numFlush = 0 ∧ pieces.2.octetsSeen + pieces.2.numFlush = 1 := by
  decide +kernel
end Snort.Http
