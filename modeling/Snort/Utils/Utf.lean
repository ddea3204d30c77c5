import Mathlib.Data.List.Basic

/-!
# Decoding of UTF-16 and UTF-32

`decode_utf` keeps its place in a character from one call to the next, but an unknown
charset is guessed from the octets of the first call only.
-/

namespace Snort.Utils
open List

inductive CharsetCode
  | default | other | utf7 | irrelevant | utf16le | utf16be | utf32le | utf32be | unknown
  deriving DecidableEq

/-- `decode_utf_state_t` -/
structure UtfDecodeSession where
  charset : CharsetCode
  state : ℕ
  deriving DecidableEq

/-- `DecodeUTF16LE`, `DecodeUTF16BE`, `DecodeUTF32LE` and `DecodeUTF32BE`: the octets of a
character, and which of them is copied -/
def decoder : CharsetCode → Option (ℕ × ℕ)
  | .utf16le => some (2, 0)
  | .utf16be => some (2, 1)
  | .utf32le => some (4, 0)
  | .utf32be => some (4, 3)
  | _ => none

/-- Their loop. The octets that are not copied have to be 0; it is `none` if the assertion on the
state fails. -/
def decodeLoop (width place : ℕ) : List UInt8 → ℕ → ℕ → Option (List UInt8 × ℕ × Bool)
  | [], _, state => some ([], state, true)
  | _, 0, state => some ([], state, true)
  | c :: src, dstLen + 1, state =>
    if state < width then
      if state = place then
        (decodeLoop width place src dstLen ((state + 1) % width)).map fun (dst, r) => (c :: dst, r)
      else
        (decodeLoop width place src (dstLen + 1) ((state + 1) % width)).map
          fun (dst, state, result) => (dst, state, c = 0 && result)
    else none

/-- The charset by the first octets, and the length of the byte order mark -/
def guessCharset : List UInt8 → CharsetCode × ℕ
  | a :: b :: c :: d :: _ =>
    if a = 0 ∧ b = 0 ∧ c = 0xfe ∧ d = 0xff then (.utf32be, 4)
    else if a = 0xff ∧ b = 0xfe ∧ c = 0 ∧ d = 0 then (.utf32le, 4)
    else if a = 0xfe ∧ b = 0xff then (.utf16be, 2)
    else if a = 0xff ∧ b = 0xfe then (.utf16le, 2)
    else if a = 0 ∧ c = 0 ∧ d ≠ 0 then (if b ≠ 0 then .utf16be else .utf32be, 0)
    else if a ≠ 0 ∧ b = 0 ∧ d = 0 then (if c ≠ 0 then .utf16le else .utf32le, 0)
    else (.default, 0)
  | _ => (.default, 0)

def determineCharset (dstate : UtfDecodeSession) (src : List UInt8) :
    UtfDecodeSession × List UInt8 :=
  if dstate.charset = .unknown then (⟨(guessCharset src).1, 0⟩, src.drop (guessCharset src).2)
  else (dstate, src)

/-- `decode_utf`: what it writes to `dst`, the session and the answer -/
def decodeUtf (dstate : UtfDecodeSession) (src : List UInt8) (dstLen : ℕ) :
    Option (List UInt8 × UtfDecodeSession × Bool) :=
  let (dstate, src) := determineCharset dstate src
  if src = [] then some ([], dstate, false)
  else match decoder dstate.charset with
    | some (width, place) =>
      (decodeLoop width place src dstLen dstate.state).map fun (dst, state, result) =>
        (dst, { dstate with state }, result)
    | none => some ([], dstate, true)

/-- The outputs for pieces, each with the length of its buffer, and the session behind them -/
def decodePieces (dstate : UtfDecodeSession) :
    List (List UInt8 × ℕ) → Option (List UInt8 × UtfDecodeSession)
  | [] => some ([], dstate)
  | (src, dstLen) :: pieces =>
    (decodeUtf dstate src dstLen).bind fun (dst, dstate, _) =>
      (decodePieces dstate pieces).map fun (rest, dstate) => (dst ++ rest, dstate)

/-! ## Cuts -/

/-- The octets of `src` at the place of a character that is copied, where `k` octets are behind -/
def copied (width place k : ℕ) (src : List UInt8) : List UInt8 :=
  ((src.zipIdx k).filter fun x => x.2 % width = place).map Prod.fst

/-- A charset without a decoder copies nothing: characters of one octet, none at place 1 -/
def decoded (charset : CharsetCode) (k : ℕ) (src : List UInt8) : List UInt8 × UtfDecodeSession :=
  let (width, place) := (decoder charset).getD (1, 1)
  (copied width place k src, ⟨charset, (k + src.length) % width⟩)

section
variable {charset : CharsetCode} {width k n : ℕ} {src rest : List UInt8}
  {p : List UInt8 × ℕ} {pieces : List (List UInt8 × ℕ)}

theorem decodeLoop_eq (place : ℕ) (hwidth : 0 < width) (hn : src.length ≤ n) :
    ∃ result, decodeLoop width place src n (k % width) =
      some (copied width place k src, (k + src.length) % width, result) := by
  -- the state is the place of the octet with number `k`
  induction src generalizing k n with
  | nil => exact ⟨true, by simp [decodeLoop, copied]⟩
  | cons c src ih =>
    obtain ⟨n, rfl⟩ := Nat.exists_eq_add_one.mpr (Nat.zero_lt_of_lt hn)
    have hn := Nat.le_of_succ_le_succ hn
    rw [decodeLoop, if_pos (Nat.mod_lt k hwidth), Nat.mod_add_mod]
    by_cases hplace : k % width = place
    · obtain ⟨result, hloop⟩ := ih (k := k + 1) hn
      exact ⟨result, by simp [hplace, hloop, copied, Nat.add_assoc, Nat.add_comm 1]⟩
    · obtain ⟨result, hloop⟩ := ih (k := k + 1) (Nat.le_succ_of_le hn)
      exact ⟨c = 0 && result, by simp [hplace, hloop, copied, Nat.add_assoc, Nat.add_comm 1]⟩

theorem decodeUtf_eq (hcharset : charset ≠ .unknown) (hn : src.length ≤ n) :
    ∃ result, decodeUtf (decoded charset k []).2 src n =
      some ((decoded charset k src).1, (decoded charset k src).2, result) := by
  have hwidth : 0 < ((decoder charset).getD (1, 1)).1 := by cases charset <;> decide
  unfold decodeUtf determineCharset decoded
  rw [if_neg hcharset]
  by_cases hsrc : src = []
  · subst hsrc
    exact ⟨false, rfl⟩
  · dsimp only
    rw [if_neg hsrc]
    cases hdecoder : decoder charset with
    | none => exact ⟨true, by simp [copied, Nat.mod_one]⟩
    | some d =>
      rw [hdecoder] at hwidth
      obtain ⟨result, hloop⟩ := decodeLoop_eq (k := k) d.2 hwidth hn
      exact ⟨result, congrArg (Option.map _) hloop⟩

theorem decoded_append : decoded charset k (src ++ rest) =
    ((decoded charset k src).1 ++ (decoded charset (k + src.length) rest).1,
      (decoded charset (k + src.length) rest).2) := by
  simp [decoded, copied, zipIdx_append, Nat.add_assoc]

theorem decodePieces_eq (pieces : List (List UInt8 × ℕ)) (hcharset : charset ≠ .unknown)
    (hroom : ∀ p ∈ pieces, p.1.length ≤ p.2) :
    decodePieces (decoded charset k []).2 pieces =
      some (decoded charset k (pieces.flatMap Prod.fst)) := by
  induction pieces generalizing k with
  | nil => rfl
  | cons p pieces ih =>
    obtain ⟨result, hp⟩ := decodeUtf_eq (k := k) hcharset (hroom p mem_cons_self)
    have hrest := ih (k := k + p.1.length) fun q hq => hroom q (mem_cons_of_mem p hq)
    rw [decodePieces, hp, flatMap_cons, decoded_append]
    exact congrArg (Option.map _) hrest

/-! ## The guess -/

theorem guessCharset_spec (src : List UInt8) : (guessCharset src).1 ≠ .unknown ∧
    (guessCharset src).2 ≤ 4 ∧ ((guessCharset src).1 = .default → (guessCharset src).2 = 0) := by
  unfold guessCharset
  split
  · split_ifs <;> decide
  · decide

theorem guessCharset_append (hsrc : 4 ≤ src.length) :
    guessCharset (src ++ rest) = guessCharset src := by
  match src with
  | _ :: _ :: _ :: _ :: _ => rfl

theorem guessCharset_short (hsrc : ¬ 4 ≤ src.length) : guessCharset src = (.default, 0) := by
  match src with
  | [] | [_] | [_, _] | [_, _, _] => rfl
  | _ :: _ :: _ :: _ :: _ => simp at hsrc

/-- The first call for an unknown charset is a call for the one that it guesses. -/
theorem decodeUtf_unknown : decodeUtf ⟨.unknown, 0⟩ src n =
    decodeUtf ⟨(guessCharset src).1, 0⟩ (src.drop (guessCharset src).2) n := by
  simp only [decodeUtf, determineCharset, if_neg (guessCharset_spec src).1]
  rfl

theorem decodePieces_unknown (hroom : ∀ q ∈ p :: pieces, q.1.length ≤ q.2) :
    decodePieces ⟨.unknown, 0⟩ (p :: pieces) = some (decoded (guessCharset p.1).1 0
      (p.1.drop (guessCharset p.1).2 ++ pieces.flatMap Prod.fst)) := by
  obtain ⟨hp, hroom⟩ := forall_mem_cons.mp hroom
  rw [decodePieces, decodeUtf_unknown]
  refine decodePieces_eq (k := 0) ((p.1.drop (guessCharset p.1).2, p.2) :: pieces)
    (guessCharset_spec p.1).1 (forall_mem_cons.mpr ⟨?_, hroom⟩)
  rw [length_drop]
  omega
end

theorem decodePieces_isSome (charset : CharsetCode) (hroom : ∀ p ∈ pieces, p.1.length ≤ p.2) :
    (decodePieces ⟨charset, 0⟩ pieces).isSome := by
  by_cases hcharset : charset = .unknown
  · subst hcharset
    cases pieces with
    | nil => rfl
    | cons p pieces =>
      rw [decodePieces_unknown hroom]
      rfl
  · have hpieces := decodePieces_eq (k := 0) _ hcharset hroom
    exact Option.isSome_of_mem hpieces

/-- No assertion on the state fails. The pieces give what the whole gives exactly if a charset was
set, or the first piece is long enough for the guess, or the guess is that there is nothing to
decode. -/
theorem decodePieces_eq_whole_iff (charset : CharsetCode) (pieces : List (List UInt8 × ℕ)) (n : ℕ)
    (hroom : ∀ p ∈ pieces, p.1.length ≤ p.2) (hn : (pieces.flatMap Prod.fst).length ≤ n) :
    (decodePieces ⟨charset, 0⟩ pieces).isSome ∧
      (decodePieces ⟨charset, 0⟩ [(pieces.flatMap Prod.fst, n)]).isSome ∧
      ((∃ r, decodePieces ⟨charset, 0⟩ pieces = some r ∧
          decodePieces ⟨charset, 0⟩ [(pieces.flatMap Prod.fst, n)] = some r) ↔
        charset ≠ .unknown ∨ ∃ p ∈ pieces.head?,
          4 ≤ p.1.length ∨ (guessCharset (pieces.flatMap Prod.fst)).1 = .default) := by
  have hwhole : ∀ q ∈ [(pieces.flatMap Prod.fst, n)], q.1.length ≤ q.2 := by simpa using hn
  refine ⟨decodePieces_isSome charset hroom, decodePieces_isSome charset hwhole, ?_⟩
  by_cases hcharset : charset = .unknown
  · subst hcharset
    obtain ⟨-, hsize, hdefault⟩ := guessCharset_spec (pieces.flatMap Prod.fst)
    rw [decodePieces_unknown hwhole, flatMap_nil, append_nil]
    cases pieces with
    | nil => simp [decodePieces, decoded, guessCharset]
    | cons p pieces =>
      rw [decodePieces_unknown hroom]
      rw [flatMap_cons] at hsize hdefault ⊢
      by_cases hlen : 4 ≤ p.1.length
      · rw [guessCharset_append hlen] at hsize ⊢
        rw [drop_append_of_le_length (Nat.le_trans hsize hlen)]
        simp [hlen]
      · rw [guessCharset_short hlen, drop_zero]
        constructor
        · rintro ⟨r, hr, hr'⟩
          rw [← hr'] at hr
          -- the session has kept the charset of the first call
          exact .inr ⟨p, rfl, .inr (congrArg (fun r => r.2.charset) (Option.some.inj hr)).symm⟩
        · rintro (hne | ⟨q, ⟨⟩, hor⟩)
          · exact absurd rfl hne
          · have hguess := hor.resolve_left hlen
            rw [hguess, hdefault hguess]
            exact ⟨_, rfl, rfl⟩
  · have hpieces := decodePieces_eq (k := 0) _ hcharset hroom
    have hone := decodePieces_eq (k := 0) _ hcharset hwhole
    rw [flatMap_singleton] at hone
    exact ⟨fun _ => .inl hcharset, fun _ => ⟨_, hpieces, hone⟩⟩

theorem decodePieces_eq_whole_mark : ∃ r,
    decodePieces ⟨.unknown, 0⟩ [([0xff, 0xfe, 0x41, 0x00], 4), ([0x42], 1)] = some r ∧
      decodePieces ⟨.unknown, 0⟩ [([0xff, 0xfe, 0x41, 0x00, 0x42], 5)] = some r :=
  (decodePieces_eq_whole_iff .unknown [([0xff, 0xfe, 0x41, 0x00], 4), ([0x42], 1)] 5
    (by decide) (by decide)).2.2.mpr (.inr ⟨_, rfl, .inl (by decide)⟩)

/-- A cut inside of the byte order mark: nothing is decoded. -/
theorem decodePieces_mark_cut :
    decodePieces ⟨.unknown, 0⟩ [([0xff], 1), ([0xfe, 0x41, 0x00], 3)] = some ([], ⟨.default, 0⟩) ∧
      decodePieces ⟨.unknown, 0⟩ [([0xff, 0xfe, 0x41, 0x00], 4)] = some ([0x41],
        ⟨.utf16le, 0⟩) := by
  decide
end Snort.Utils
