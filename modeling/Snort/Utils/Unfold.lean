import Mathlib.Data.List.Basic
import Mathlib.Tactic.IntervalCases

/-!
# Unfolding of headers

`sf_unfold_header` copies a header without its folds. A blank that it copies is not
counted, so the count does not keep the copy inside of the buffer.
-/

namespace Snort.Utils
open List Option

def isBlank (c : UInt8) : Bool := c = 0x20 ∨ c = 0x09

/-- The variables of the loop: `outbuf[0..outbuf_ptr)` and the counters. -/
structure UnfoldState where
  out : List UInt8 := []
  n : ℕ := 0
  numSpaces : ℕ := 0
  httpheaderfolding : ℕ := 0
  foldingPresent : Bool := false

/-- What a call leaves: the written part of `outbuf`, `*output_bytes` and `*folded`. -/
structure UnfoldedHeader where
  outbuf : List UInt8
  outputBytes : ℕ
  folded : ℕ

section
variable (outbufSize : ℕ) (trimSpaces : Bool)

/-- A write of `*outbuf_ptr++`, which has to fall into the buffer. -/
def put (out : List UInt8) (c : UInt8) : Option (List UInt8) :=
  if out.length < outbufSize then some (out ++ [c]) else none

/-- The loop of `sf_unfold_header`. -/
def unfoldLoop : List UInt8 → UnfoldState → Option UnfoldState
  | [], s => some s
  | c :: inbuf, s =>
    if s.n < outbufSize then
      if isBlank c then
        let s := if s.foldingPresent then { s with numSpaces := s.numSpaces + 1 } else s
        if s.httpheaderfolding ≠ 0 then
          unfoldLoop inbuf { s with
            numSpaces := s.numSpaces + 1, foldingPresent := true, httpheaderfolding := 0 }
        else if !trimSpaces then
          (put outbufSize s.out c).bind fun out => unfoldLoop inbuf { s with out }
        else unfoldLoop inbuf s
      else if c = 0x0a ∧ s.httpheaderfolding ≠ 1 then
        unfoldLoop inbuf { s with httpheaderfolding := 1 }
      else if c = 0x0d ∧ s.httpheaderfolding = 0 then
        unfoldLoop inbuf { s with httpheaderfolding := 2 }
      else if s.httpheaderfolding = 0 then
        (put outbufSize s.out c).bind fun out => unfoldLoop inbuf { s with out, n := s.n + 1 }
      else some s
    else some s

/-- `sf_unfold_header`. It is `none` if a byte outside of `outbuf` is written. -/
def sfUnfoldHeader (inbuf : List UInt8) : Option UnfoldedHeader :=
  (unfoldLoop outbufSize trimSpaces inbuf {}).bind fun s =>
    -- a full buffer loses its last byte to the terminator
    (put outbufSize (if s.n < outbufSize then s.out else s.out.take (outbufSize - 1)) 0).map
      fun outbuf => { outbuf, outputBytes := s.out.length, folded := s.numSpaces }

/-! ## The header without its folds -/

/-- A line break (CRLF, LF or CR) is dropped with the blank behind it. One without a blank
behind it ends the header. -/
def unfolded : List UInt8 → List UInt8
  | [] => []
  | c :: rest =>
    if c = 0x0d ∧ rest.head? = some 0x0a then unfolded rest
    else if c = 0x0d ∨ c = 0x0a then
      match rest with
      | [] => []
      | d :: rest => if isBlank d then unfolded rest else []
    else if isBlank c ∧ trimSpaces then unfolded rest
    else c :: unfolded rest

/-- The line break that is read but not yet dropped. -/
def pending : ℕ → List UInt8
  | 0 => []
  | 1 => [0x0a]
  | _ => [0x0d]

/-- The writes of the loop. -/
def emit : List UInt8 → List UInt8 → ℕ → Option (List UInt8 × ℕ)
  | [], out, n => some (out, n)
  | c :: text, out, n =>
    if n < outbufSize then
      (put outbufSize out c).bind fun out => emit text out (if isBlank c then n else n + 1)
    else some (out, n)

/-- The writes fell into the buffer, with that of the terminator. -/
def Inside (r : Option (List UInt8 × ℕ)) : Prop :=
  ∃ out n, r = some (out, n) ∧ out.length ≤ outbufSize ∧ (n < outbufSize → out.length < outbufSize)
end

section
variable {outbufSize : ℕ} {trimSpaces : Bool} {b c : UInt8} (text out rest : List UInt8)

theorem emit_full {n : ℕ} (hn : ¬ n < outbufSize) : emit outbufSize text out n = some (out, n) := by
  cases text with
  | nil => rfl
  | cons c text => exact if_neg hn

theorem unfolded_behind (hb : b = 0x0d ∨ b = 0x0a) (hcrlf : ¬ (b = 0x0d ∧ c = 0x0a)) :
    unfolded trimSpaces (b :: c :: rest) = if isBlank c then unfolded trimSpaces rest else [] := by
  rw [unfolded, if_neg (by simpa using hcrlf), if_pos hb]

theorem unfolded_copy (hc : ¬ (c = 0x0d ∨ c = 0x0a)) :
    unfolded trimSpaces (c :: rest) =
      if isBlank c ∧ trimSpaces then unfolded trimSpaces rest
      else c :: unfolded trimSpaces rest := by
  rw [unfolded.eq_def]
  exact (if_neg fun h => hc (.inl h.1)).trans (if_neg hc)

theorem unfoldLoop_emits (inbuf : List UInt8) (s : UnfoldState) (hs : s.httpheaderfolding ≤ 2) :
    (unfoldLoop outbufSize trimSpaces inbuf s).map (fun s => (s.out, s.n)) =
      emit outbufSize (unfolded trimSpaces (pending s.httpheaderfolding ++ inbuf)) s.out s.n := by
  -- the state after a byte stands for the same text, less what the byte has written
  induction inbuf generalizing s with
  | nil =>
    obtain ⟨out, n, spaces, folding, present⟩ := s
    interval_cases folding <;> rfl
  | cons c inbuf ih =>
    by_cases hn : s.n < outbufSize
    · rw [unfoldLoop, if_pos hn]
      obtain ⟨out, n, spaces, folding, present⟩ := s
      by_cases hlf : c = 0x0a
      · subst hlf
        interval_cases folding <;> simp [ih, pending, unfolded, isBlank, emit]
      by_cases hcr : c = 0x0d
      · subst hcr
        interval_cases folding <;> simp [ih, pending, unfolded_behind, isBlank, emit]
      have hcopy := @unfolded_copy trimSpaces c inbuf (by simp [hlf, hcr])
      interval_cases folding <;> by_cases hblank : isBlank c <;> cases present <;>
        cases trimSpaces <;>
        simp_all [pending, unfolded_behind, emit, map_bind]
    · rw [unfoldLoop, if_neg hn, emit_full _ _ hn]
      rfl

/-! ## The bound -/

/-- Behind a blank, the end of the buffer is reached before the count is. -/
theorem inside_emit {n : ℕ} (hn : n ≤ out.length) (hout : out.length ≤ outbufSize) :
    Inside outbufSize (emit outbufSize text out n) ↔ out.length + text.length < outbufSize ∨
      n = out.length ∧ ∀ c ∈ text.take (outbufSize - out.length), ¬ isBlank c := by
  induction text generalizing out n with
  | nil =>
    simp [Inside, emit, hout]
    omega
  | cons c text ih =>
    by_cases hlt : out.length < outbufSize
    · obtain ⟨k, rfl⟩ := Nat.exists_eq_add_of_lt hlt
      have hlen : (out ++ [c]).length = out.length + 1 := length_append
      have hcount : (if isBlank c then n else n + 1) ≤ n + 1 := by split <;> omega
      rw [emit, if_pos (by omega), put, if_pos hlt, bind_some, ih _ (by omega) (by omega), hlen,
        show out.length + k + 1 - out.length = k + 1 by omega, take_succ_cons, length_cons,
        show out.length + k + 1 - (out.length + 1) = k by omega]
      by_cases hc : isBlank c
      · simp [hc]
        omega
      · simp [hc, Nat.add_right_comm _ 1, Nat.add_assoc]
    · by_cases hfull : n < outbufSize
      · rw [emit, if_pos hfull, put, if_neg hlt]
        simp [Inside]
        omega
      · rw [emit_full _ _ hfull]
        simp [Inside, show outbufSize - out.length = 0 by omega, hout, hfull]
        omega

theorem emit_of_lt {n : ℕ} (hn : n ≤ out.length) (hlt : out.length + text.length < outbufSize) :
    ∃ m < outbufSize, emit outbufSize text out n = some (out ++ text, m) := by
  induction text generalizing out n with
  | nil => exact ⟨n, by omega, by simp [emit]⟩
  | cons c text ih =>
    have hlen : (out ++ [c]).length = out.length + 1 := length_append
    have hcount : (if isBlank c then n else n + 1) ≤ n + 1 := by split <;> omega
    rw [length_cons] at hlt
    rw [emit, if_pos (by omega), put, if_pos (by omega), append_cons out c text]
    exact ih (out ++ [c]) (hcount.trans (by omega)) (by omega)

theorem unfolded_trim : ∀ c ∈ unfolded true text, ¬ isBlank c := by
  fun_induction unfolded true text <;> simp_all
end

/-- Without `trim_spaces`, the header without its folds has to be shorter than the buffer, or
to have no blank in the part that fills the buffer. -/
theorem sfUnfoldHeader_inside_iff (inbuf : List UInt8) (outbufSize : ℕ) (trimSpaces : Bool)
    (hsize : 0 < outbufSize) :
    (∃ r, sfUnfoldHeader outbufSize trimSpaces inbuf = some r ∧ r.outputBytes ≤ outbufSize ∧
      ((unfolded trimSpaces inbuf).length < outbufSize →
        r.outbuf = unfolded trimSpaces inbuf ++ [0] ∧
          r.outputBytes = (unfolded trimSpaces inbuf).length)) ↔
      trimSpaces = true ∨ (unfolded false inbuf).length < outbufSize ∨
        ∀ c ∈ (unfolded false inbuf).take outbufSize, ¬ isBlank c := by
  have hcond : (trimSpaces = true ∨ (unfolded false inbuf).length < outbufSize ∨
      ∀ c ∈ (unfolded false inbuf).take outbufSize, ¬ isBlank c) ↔
      Inside outbufSize (emit outbufSize (unfolded trimSpaces inbuf) [] 0) := by
    refine Iff.trans ?_ (inside_emit (unfolded trimSpaces inbuf) [] le_rfl (Nat.zero_le _)).symm
    cases trimSpaces with
    | false => simp
    | true => simpa using .inr fun c hc => by simpa using unfolded_trim inbuf c (mem_of_mem_take hc)
  have hemit : (unfoldLoop outbufSize trimSpaces inbuf {}).map (fun s => (s.out, s.n)) =
      emit outbufSize (unfolded trimSpaces inbuf) [] 0 := unfoldLoop_emits inbuf {} (Nat.zero_le 2)
  rw [hcond, sfUnfoldHeader, ← hemit]
  cases hloop : unfoldLoop outbufSize trimSpaces inbuf {} with
  | none => simp [Inside]
  | some s =>
    rw [hloop] at hemit
    constructor
    · rintro ⟨r, hr, hle, -⟩
      rw [bind_some, put] at hr
      split_ifs at hr with hn hlt
      · cases hr
        exact ⟨s.out, s.n, rfl, hle, fun _ => hlt⟩
      · cases hr
      · cases hr
        exact ⟨s.out, s.n, rfl, hle, fun h => absurd h hn⟩
      · cases hr
    · rintro ⟨out, n, ⟨⟩, hle, hlt⟩
      have hfit : (if s.n < outbufSize then s.out else s.out.take (outbufSize - 1)).length <
          outbufSize := by
        split
        · exact hlt ‹_›
        · exact (length_take_le _ _).trans_lt (by omega)
      rw [bind_some, put, if_pos hfit]
      refine ⟨_, rfl, hle, fun hroom => ?_⟩
      obtain ⟨m, hm, htext⟩ := emit_of_lt (unfolded trimSpaces inbuf) [] (le_refl 0)
        (by simpa using hroom)
      obtain ⟨hout, rfl⟩ := Prod.mk.inj (some.inj (hemit.trans htext))
      exact ⟨by simp [hm, hout], by simp [hout]⟩

/-- Every blank of a header is copied, whatever the size of the buffer. -/
theorem sfUnfoldHeader_blanks_overrun : sfUnfoldHeader 2 false [0x20, 0x20, 0x20] = none := by
  decide

theorem sfUnfoldHeader_inside_folded :
    ∃ r, sfUnfoldHeader 3 false [0x61, 0x0d, 0x0a, 0x20, 0x62] = some r ∧ r.outputBytes ≤ 3 ∧
      r.outbuf = [0x61, 0x62, 0] := by
  obtain ⟨r, hr, hle, hout⟩ :=
    (sfUnfoldHeader_inside_iff [0x61, 0x0d, 0x0a, 0x20, 0x62] 3 false (by decide)).mpr
      (.inr (.inl (by decide)))
  exact ⟨r, hr, hle, (hout (by decide)).1⟩
end Snort.Utils
