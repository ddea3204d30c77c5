import Snort.HttpInspect.Cutter

/-!
# Header blocks and their lines

`parse_header_block` of `http_msg_head_shared.cc` divides a header block into header
lines. The array for them has the size that the cutter has counted. A read behind the
end of the block fails, and so does the assertion on the size of the array. Infractions
and events are left out.
-/

namespace Snort.Http
open Nat Bool List Option

/-! ## The parser -/

def maxHeaders : ℕ := 200

/-- The first loop of `find_next_header` -/
def leadingSeps : List Octet → Option ℕ
  | [] => none
  | b :: l => if isCrLf b then (leadingSeps l).map (· + 1) else some 0

/-- The check for wrapping: `b` is CR or LF and `l` follows. -/
def endsHeader (b : Octet) (l : List Octet) : Option Bool := do
  let b₁ ← l[0]?
  if b = cr then
    if b₁ = lf then
      let b₂ ← l[1]?
      some (!isSpTab b₂ || !isSpTabLf b₁)
    else some (!isSpTabLf b₁)
  else some (!isSpTab b₁)

/-- The second loop: the number of octets up to the end of the header. -/
def headerLength : List Octet → Option ℕ
  | [] => some 0
  | b :: l =>
    if isCrLf b then do
      let ends ← endsHeader b l
      if ends then some 0 else (headerLength l).map (· + 1)
    else (headerLength l).map (· + 1)

/-- `find_next_header`: the length of the header and `num_seps` -/
def findNextHeader (buffer : List Octet) : Option (ℕ × ℕ) := do
  let numSeps ← leadingSeps buffer
  let length ← headerLength (buffer.drop (numSeps + 1))
  some (length + 1, numSeps)

/-- Separators and the header behind them -/
abbrev HeaderLine := List Octet × List Octet

/-- The loop of `parse_header_block`, up to `n` more headers: the lines, and the octets that are not
used. -/
def parseHeaders (numHeadLines : ℕ) :
    ℕ → List HeaderLine → List Octet → Option (List HeaderLine × List Octet)
  | 0, lines, text => some (lines, text)
  | _ + 1, lines, [] => some (lines, [])
  | n + 1, lines, b :: text =>
    if lines.length < numHeadLines then do
      let (length, numSeps) ← findNextHeader (b :: text)
      let line := ((b :: text).take numSeps, ((b :: text).drop numSeps).take length)
      parseHeaders numHeadLines n (lines ++ [line]) ((b :: text).drop (numSeps + length))
    else none

def parseHeaderBlock (numHeadLines : ℕ) (text : List Octet) :
    Option (List HeaderLine × List Octet) :=
  parseHeaders numHeadLines maxHeaders [] text

/-! ## Lines -/

variable (fresh : Bool)

/-- After these octets a new line begins. -/
def lineStarts (l : List Octet) : Bool := l.foldl (fun _ b => isCrLf b) fresh

/-- The runs of octets without CR and LF -/
def countLines : Bool → List Octet → ℕ
  | _, [] => 0
  | fresh, b :: l =>
    if isCrLf b then countLines true l else fresh.toNat + countLines false l

theorem countLines_append (l l' : List Octet) :
    countLines fresh (l ++ l') = countLines fresh l + countLines (lineStarts fresh l) l' := by
  induction l generalizing fresh with
  | nil => exact (zero_add _).symm
  | cons b l ih =>
    rw [cons_append, countLines, countLines, lineStarts, foldl_cons]
    cases hb : isCrLf b with
    | true =>
      exact ih true
    | false =>
      rw [if_neg Bool.false_ne_true, if_neg Bool.false_ne_true, Nat.add_assoc]
      exact congrArg (fresh.toNat + ·) (ih false)

variable {l : List Octet} {s : CutState HeaderState}

theorem countLines_separators (h : ∀ b ∈ l, isCrLf b) (fresh : Bool) : countLines fresh l = 0 := by
  induction l generalizing fresh with
  | nil => rfl
  | cons b l ih =>
    obtain ⟨hb, hl⟩ := forall_mem_cons.mp h
    rw [countLines, if_pos hb]
    exact ih hl true

theorem lineStarts_concat (l : List Octet) (b : Octet) : lineStarts fresh (l ++ [b]) = isCrLf b :=
  foldl_concat ..

theorem lineStarts_separators (h : ∀ b ∈ l, isCrLf b) : lineStarts true l = true := by
  induction l using List.reverseRecOn with
  | nil => rfl
  | append_singleton l b _ =>
    rw [lineStarts_concat]
    exact h b (mem_append_right _ mem_cons_self)

/-- A block that does not end with CR or LF -/
def EndsPlain (l : List Octet) : Prop := ∀ b ∈ l.getLast?, isCrLf b = false

variable {b : Octet}

theorem EndsPlain.tail (h : EndsPlain (b :: l)) : EndsPlain l := by
  cases l with
  | nil => exact fun b hb => absurd hb (not_mem_none b)
  | cons b' l => exact h

theorem EndsPlain.drop (h : EndsPlain l) (n : ℕ) : EndsPlain (l.drop n) := by
  induction n generalizing l with
  | zero => exact h
  | succ n ih =>
    cases l with
    | nil => exact h
    | cons b l => exact ih h.tail

theorem EndsPlain.next (h : EndsPlain (b :: l)) (hb : isCrLf b) : ∃ b' l', l = b' :: l' := by
  cases l with
  | nil => exact absurd (h b rfl) (by rw [hb]; decide)
  | cons b' l' => exact ⟨b', l', rfl⟩

/-! ## The parser reads lines -/

theorem leadingSeps_eq (h : EndsPlain l) (hne : l ≠ []) :
    ∃ seps b rest, leadingSeps l = some seps.length ∧ l = seps ++ b :: rest ∧
      (∀ b ∈ seps, isCrLf b) ∧ isCrLf b = false := by
  induction l with
  | nil => exact absurd rfl hne
  | cons b l ih =>
    rw [leadingSeps]
    cases hb : isCrLf b with
    | false => exact ⟨[], b, l, rfl, rfl, fun _ h => absurd h not_mem_nil, hb⟩
    | true =>
      obtain ⟨b', l', rfl⟩ := h.next hb
      obtain ⟨seps, b'', rest, hseps, heq, hall, hb''⟩ := ih h.tail (cons_ne_nil _ _)
      rw [if_pos rfl, hseps]
      exact ⟨b :: seps, b'', rest, rfl, congrArg _ heq, forall_mem_cons.mpr ⟨hb, hall⟩, hb''⟩

theorem endsHeader_some (h : EndsPlain (b :: l)) (hb : isCrLf b) :
    ∃ ends, endsHeader b l = some ends := by
  obtain ⟨b₁, l, rfl⟩ := h.next hb
  unfold endsHeader
  simp only [getElem?_cons_zero, bind_eq_bind, bind_some]
  split_ifs with hcr hlf
  · obtain ⟨b₂, l, rfl⟩ := h.tail.next (by rw [hlf]; rfl)
    exact ⟨_, rfl⟩
  · exact ⟨_, rfl⟩
  · exact ⟨_, rfl⟩

/-- The header ends where the block ends, or in front of a separator. -/
theorem headerLength_eq (h : EndsPlain l) :
    ∃ n ≤ l.length, headerLength l = some n ∧ ∀ b ∈ (l.drop n).head?, isCrLf b := by
  induction l with
  | nil => exact ⟨0, le_rfl, rfl, fun _ h => absurd h (not_mem_none _)⟩
  | cons b l ih =>
    obtain ⟨n, hn, hlen, hend⟩ := ih h.tail
    have hmore : ∃ m ≤ (b :: l).length, (headerLength l).map (· + 1) = some m ∧
        ∀ x ∈ ((b :: l).drop m).head?, isCrLf x :=
      ⟨n + 1, succ_le_succ hn, by rw [hlen]; rfl, hend⟩
    rw [headerLength]
    split_ifs with hb
    · obtain ⟨ends, hends⟩ := endsHeader_some h hb
      rw [hends, bind_eq_bind, bind_some]
      split_ifs
      · refine ⟨0, zero_le _, rfl, fun b' hb' => ?_⟩
        obtain rfl := Option.some.inj hb'
        exact hb
      · exact hmore
    · exact hmore

theorem countLines_fresh (h : ∀ b ∈ l.head?, isCrLf b) (fresh : Bool) :
    countLines fresh l = countLines true l := by
  cases l with
  | nil => rfl
  | cons b l => rw [countLines, countLines, if_pos (h b rfl), if_pos (h b rfl)]

theorem findNextHeader_eq (h : EndsPlain l) (hne : l ≠ []) :
    ∃ length numSeps, findNextHeader l = some (length, numSeps) ∧
      (∀ b ∈ l.take numSeps, isCrLf b) ∧ numSeps + length ≤ l.length ∧
      countLines true (l.drop (numSeps + length)) < countLines true l := by
  obtain ⟨seps, b, rest, hseps, rfl, hall, hb⟩ := leadingSeps_eq h hne
  have hdrop (n : ℕ) : (seps ++ b :: rest).drop (seps.length + (n + 1)) = rest.drop n := by
    rw [drop_length_add_append, drop_succ_cons]
  have hplain : EndsPlain rest := by
    have hrest := h.drop (seps.length + 1)
    rwa [hdrop 0] at hrest
  obtain ⟨n, hn, hlen, hend⟩ := headerLength_eq hplain
  refine ⟨n + 1, seps.length, ?_, ?_, ?_, ?_⟩
  · unfold findNextHeader
    rw [hseps, bind_eq_bind, bind_some, hdrop 0, drop_zero, hlen]
    rfl
  · rw [take_left]
    exact hall
  · rw [length_append, length_cons]
    omega
  · have hrest := countLines_append false (rest.take n) (rest.drop n)
    rw [take_append_drop, countLines_fresh hend] at hrest
    rw [hdrop, countLines_append, countLines_separators hall, lineStarts_separators hall,
      countLines, hb,
      if_neg Bool.false_ne_true, hrest, Bool.toNat_true]
    omega

theorem parseHeaders_eq (numHeadLines n : ℕ) (lines : List HeaderLine) {text : List Octet}
    (h : EndsPlain text) (hlines : lines.length + countLines true text ≤ numHeadLines) :
    ∃ lines' rest, parseHeaders numHeadLines n lines text = some (lines ++ lines', rest) ∧
      (lines ++ lines').length ≤ numHeadLines ∧
      text = (lines'.map fun x => x.1 ++ x.2).flatten ++ rest ∧
      (∀ x ∈ lines', ∀ b ∈ x.1, isCrLf b) ∧ (lines'.length < n → rest = []) := by
  induction n generalizing lines text with
  | zero =>
    refine ⟨[], text, ?_, ?_, rfl, nofun, nofun⟩
    · rw [append_nil, parseHeaders]
    · rw [append_nil]
      omega
  | succ n ih =>
    cases text with
    | nil =>
      refine ⟨[], [], ?_, ?_, rfl, nofun, fun _ => rfl⟩
      · rw [append_nil, parseHeaders]
      · rw [append_nil]
        omega
    | cons b text =>
      obtain ⟨length, numSeps, hfind, hseps, hle, hless⟩ := findNextHeader_eq h (cons_ne_nil _ _)
      rw [parseHeaders, if_pos (by omega), hfind]
      generalize b :: text = text at *
      obtain ⟨lines', rest, hparse, hlen, htext, hall, hrest⟩ :=
        ih (lines ++ [(text.take numSeps, (text.drop numSeps).take length)])
          (h.drop (numSeps + length))
          (by rw [length_append, length_singleton]; omega)
      rw [append_assoc, singleton_append] at hparse hlen
      refine ⟨_ :: lines', rest, hparse, hlen, ?_, forall_mem_cons.mpr ⟨hseps, hall⟩, fun hlt => ?_⟩
      · rw [map_cons, flatten_cons, append_assoc, ← htext, ← take_add, take_append_drop]
      · exact hrest (by rw [length_cons] at hlt; omega)

/-! ## The cutter counts lines -/

/-- The counters of the cutter, from the octets it has seen. -/
structure Counts (l : List Octet) (s : CutState HeaderState) : Prop where
  lines : s.own.numHeadLines = countLines true l
  fresh : s.own.state = .zero ↔ lineStarts true l = false
  crlf : s.numCrlf = (l.rtakeWhile isCrLf).length

theorem Counts.separator (h : Counts l s) {b : Octet} (hb : isCrLf b) {state : LineEndState}
    (hstate : state ≠ .zero) :
    Counts (l ++ [b]) (s.separator state) where
  lines := by
    rw [countLines_append, countLines, if_pos hb]
    exact h.lines
  fresh := by
    rw [lineStarts_concat, hb]
    exact iff_of_false hstate Bool.noConfusion
  crlf := by
    rw [rtakeWhile_concat_pos _ _ _ hb, length_append]
    exact congrArg (· + 1) h.crlf

theorem Counts.newLine (h : Counts l s) {b : Octet} (hb : isCrLf b = false)
    (hstate : s.own.state ≠ .zero) : Counts (l ++ [b]) s.newLine where
  lines := by
    rw [countLines_append, countLines, hb, if_neg Bool.false_ne_true,
      eq_true_of_not_eq_false (fun hl => hstate (h.fresh.mpr hl))]
    exact congrArg (· + 1) h.lines
  fresh := by
    rw [lineStarts_concat, hb]
    exact iff_of_true rfl rfl
  crlf := by
    rw [rtakeWhile_concat_neg _ _ _ (by rw [hb]; decide)]
    rfl

theorem Counts.sameLine (h : Counts l s) {b : Octet} (hb : isCrLf b = false)
    (hstate : s.own.state = .zero) : Counts (l ++ [b]) s where
  lines := by
    rw [countLines_append, countLines, hb, if_neg Bool.false_ne_true, h.fresh.mp hstate]
    exact h.lines
  fresh := by
    rw [lineStarts_concat, hb]
    exact iff_of_true hstate rfl
  crlf := by
    have hfresh := h.fresh.mp hstate
    rw [rtakeWhile_concat_neg _ _ _ (by rw [hb]; decide), h.crlf]
    induction l using List.reverseRecOn with
    | nil => exact absurd hfresh Bool.noConfusion
    | append_singleton l b' _ =>
      rw [lineStarts_concat] at hfresh
      rw [rtakeWhile_concat_neg _ _ _ (by rw [hfresh]; decide)]

theorem headerOctet_counts (h : Counts l s) (b : Octet) :
    ∃ s', (headerOctet b s = .next s' ∨ headerOctet b s = .found 1 s') ∧ Counts (l ++ [b]) s' := by
  unfold headerOctet
  by_cases hcr : b = cr
  · have hb : isCrLf b := by rw [hcr]; rfl
    simp only [if_pos hcr]
    cases s.own.state <;> exact ⟨_, .inl rfl, h.separator hb (by decide)⟩
  · by_cases hlf : b = lf
    · have hb : isCrLf b := by rw [hlf]; rfl
      simp only [if_neg hcr, if_pos hlf]
      cases s.own.state with
      | zero | half => exact ⟨_, .inl rfl, h.separator hb (by decide)⟩
      | one | threehalf => exact ⟨_, .inr rfl, h.separator hb (by decide)⟩
    · have hb : isCrLf b = false := by
        unfold isCrLf
        rw [decide_eq_false hcr, decide_eq_false hlf]
        rfl
      simp only [if_neg hcr, if_neg hlf]
      cases hstate : s.own.state with
      | zero => exact ⟨_, .inl rfl, h.sameLine hb hstate⟩
      | half | one | threehalf => exact ⟨_, .inl rfl, h.newLine hb (by rw [hstate]; decide)⟩

theorem headerLoop_counts (done l : List Octet) (k : ℕ) (c c' : HttpCutter HeaderState)
    (h : Counts done c.toCutState) (hcut : cutLoop (fun _ => headerOctet) k l c = (.found, c')) :
    ∃ m ≤ l.length, c'.octetsSeen + c'.numFlush = c.octetsSeen + k + m ∧
      Counts (done ++ l.take m) c'.toCutState := by
  induction l generalizing done k c with
  | nil => exact ScanResult.noConfusion (congrArg Prod.fst hcut)
  | cons b l ih =>
    rw [cutLoop] at hcut
    obtain ⟨s', hoctet | hoctet, hs'⟩ := headerOctet_counts h b <;> rw [hoctet] at hcut
    · obtain ⟨m, hm, hpos, hcounts⟩ := ih _ (k + 1) { c with toCutState := s' } hs' hcut
      rw [append_assoc, singleton_append] at hcounts
      exact ⟨m + 1, succ_le_succ hm, by rw [hpos]; dsimp only; omega, hcounts⟩
    · obtain ⟨-, rfl⟩ := Prod.mk.inj hcut
      exact ⟨1, succ_le_succ (zero_le _), (Nat.add_assoc _ _ _).symm, hs'⟩

/-- The headers of a block that was cut fit into the array, and make up the block. -/
theorem header_block_parsed (segments : List (List Octet)) (c : HttpCutter HeaderState)
    (hcut : cutSegments (fun _ => headerOctet) segments headerCutter = (.found, c)) :
    let text := segments.flatten.take (c.octetsSeen + c.numFlush - c.numCrlf)
    ∃ lines rest, parseHeaderBlock c.own.numHeadLines text = some (lines, rest) ∧
      lines.length ≤ c.own.numHeadLines ∧ text = (lines.map fun x => x.1 ++ x.2).flatten ++ rest ∧
      (∀ x ∈ lines, ∀ b ∈ x.1, isCrLf b) ∧ (lines.length < maxHeaders → rest = []) := by
  intro text
  have hsame := cutSegments_flatten (fun _ => headerOctet) segments headerCutter
  rw [hcut] at hsame
  obtain ⟨m, hm, hpos, hcounts⟩ := headerLoop_counts [] segments.flatten 0 headerCutter
    (cut (fun _ => headerOctet) segments.flatten headerCutter).2 ⟨rfl, by decide, rfl⟩
    (Prod.ext hsame.result.symm rfl)
  rw [← hsame.state, nil_append] at hcounts
  change Counts _ c.toCutState at hcounts
  have hposition : c.octetsSeen + c.numFlush = m := by
    rw [hsame.position nofun, hpos]
    exact zero_add m
  -- the separators at the end are the excess
  have hsplit := rdropWhile_append_rtakeWhile (p := isCrLf) (l := segments.flatten.take m)
  have htext : text = (segments.flatten.take m).rdropWhile isCrLf := by
    have hlen := congrArg List.length hsplit
    rw [length_append, length_take_of_le hm, ← hcounts.crlf] at hlen
    rw [prefix_iff_eq_take.mp ( rdropWhile_prefix isCrLf _), take_take, min_eq_left (by omega)]
    exact congrArg segments.flatten.take (by omega)
  have hplain : EndsPlain text := by
    rw [htext]
    intro b hb
    obtain ⟨hne, hlast⟩ := mem_getLast?_eq_getLast hb
    rw [hlast]
    exact eq_false_of_not_eq_true (rdropWhile_last_not isCrLf _ hne)
  have hlines : countLines true text = c.own.numHeadLines := by
    rw [hcounts.lines, ← hsplit, countLines_append,
      countLines_separators fun b hb => mem_rtakeWhile_imp hb, htext]
    rfl
  exact parseHeaders_eq _ maxHeaders [] hplain (hlines ▸ (zero_add _).le)

/-- A header that is wrapped, and one that ends with a bare CR. -/
theorem header_block_parsed_wrapped :
    ∃ lines rest, parseHeaderBlock 3 [0x61, cr, lf, 0x20, 0x62, cr, 0x63] = some (lines, rest) ∧
      lines.length ≤ 3 ∧
      [0x61, cr, lf, 0x20, 0x62, cr, 0x63] = (lines.map fun x => x.1 ++ x.2).flatten ++ rest ∧
      (∀ x ∈ lines, ∀ b ∈ x.1, isCrLf b) ∧ (lines.length < maxHeaders → rest = []) :=
  header_block_parsed [[0x61, cr], [lf, 0x20, 0x62, cr, 0x63, lf, lf]] _ rfl
end Snort.Http
