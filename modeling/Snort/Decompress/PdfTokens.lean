import Mathlib

/-!
# The end tokens of a PDF file

The searches of `file_decomp_pdf.cc` for the end of a stream, of an indirect object and of a
cross-reference section. A byte that does not fit is not looked at again, so that the first
occurrence is found exactly if nothing of the token is counted where it begins.
-/

namespace Snort.Pdf
open List

/-- `endstream` -/
def tokStrmClose : List UInt8 := [101, 110, 100, 115, 116, 114, 101, 97, 109]

/-- `endobj` -/
def tokObjClose : List UInt8 := [101, 110, 100, 111, 98, 106]

/-- `%%EOF` -/
def tokXrfEnd : List UInt8 := [37, 37, 69, 79, 70]

/-- `Elem_Index` after a byte. -/
def elemIndex (tok : List UInt8) (i : ℕ) (c : UInt8) : ℕ := if tok[i]? = some c then i + 1 else 0

/-- The number of bytes read until the token is complete. -/
def search (tok : List UInt8) : ℕ → List UInt8 → Option ℕ
  | _, [] => none
  | i, c :: input =>
    if elemIndex tok i c = tok.length then some 1
    else (search tok (elemIndex tok i c) input).map (· + 1)

/-- `Elem_Index` after the bytes of a text. -/
def indexAfter (tok : List UInt8) (i : ℕ) (text : List UInt8) : ℕ := text.foldl (elemIndex tok) i

variable {tok text input : List UInt8}

/-! ## The index -/

theorem indexAfter_append (tok text text' : List UInt8) (i : ℕ) :
    indexAfter tok i (text ++ text') = indexAfter tok (indexAfter tok i text) text' :=
  foldl_append

/-- The bytes that are counted are the last ones read. -/
theorem take_indexAfter_suffix (tok text : List UInt8) :
    tok.take (indexAfter tok 0 text) <:+ text := by
  induction text using List.reverseRecOn with
  | nil => exact suffix_rfl
  | append_singleton text c ih =>
    rw [indexAfter_append]
    show tok.take (elemIndex tok (indexAfter tok 0 text) c) <:+ _
    unfold elemIndex
    split_ifs with hc
    · rw [take_add_one, hc]
      exact suffix_concat_iff.mpr (.inr ⟨_, rfl, ih⟩)
    · exact nil_suffix

/-- The index counts bytes without a gap: it is at most one more with each byte. -/
theorem indexAfter_le (tok : List UInt8) (i : ℕ) (text : List UInt8) :
    indexAfter tok i text = i + text.length ∨ indexAfter tok i text < text.length := by
  induction text using List.reverseRecOn with
  | nil => exact .inl rfl
  | append_singleton text c ih =>
    rw [indexAfter_append, length_append, length_singleton]
    show elemIndex tok (indexAfter tok i text) c = _ ∨ elemIndex tok (indexAfter tok i text) c < _
    unfold elemIndex
    split_ifs
    · omega
    · exact .inr (Nat.succ_pos _)

theorem indexAfter_take (tok : List UInt8) {n : ℕ} (hn : n ≤ tok.length) :
    indexAfter tok 0 (tok.take n) = n := by
  induction n with
  | zero => rfl
  | succ n ih =>
    have hget := getElem?_eq_getElem (Nat.lt_of_succ_le hn)
    rw [take_add_one, hget, Option.toList_some, indexAfter_append, ih (Nat.le_of_succ_le hn)]
    exact if_pos hget

/-- The token is counted as a whole exactly if nothing was counted in front of it. -/
theorem indexAfter_token (htok : tok ≠ []) :
    indexAfter tok 0 (text ++ tok) = tok.length ↔ indexAfter tok 0 text = 0 := by
  rw [indexAfter_append]
  constructor
  · intro h
    have hpos := length_pos_of_ne_nil htok
    rcases indexAfter_le tok (indexAfter tok 0 text) tok with hle | hle
    · omega
    · omega
  · intro h
    rw [h]
    have hall := indexAfter_take tok le_rfl
    rwa [take_length] at hall

/-! ## The search -/

/-- The search ends when the index is that of the whole token. -/
theorem search_eq (hlt : indexAfter tok 0 text ≠ tok.length) :
    search tok (indexAfter tok 0 text) input =
      input.inits.findIdx? fun v => indexAfter tok 0 (text ++ v) = tok.length := by
  induction input generalizing text with
  | nil => simp [search, hlt]
  | cons c input ih =>
    have hnext : elemIndex tok (indexAfter tok 0 text) c = indexAfter tok 0 (text ++ [c]) := by
      rw [indexAfter_append]
      rfl
    have hrest : (c :: input).inits.findIdx? (fun v => indexAfter tok 0 (text ++ v) = tok.length) =
        (input.inits.findIdx? fun v => indexAfter tok 0 (text ++ [c] ++ v) = tok.length).map
          (· + 1) := by
      simp [findIdx?_cons, hlt, findIdx?_map, Function.comp_def]
    rw [search, hnext, hrest]
    split_ifs with hend
    · cases input <;> simp [findIdx?_cons, hend]
    · rw [ih hend]

/-- Of two tests, the first of which is the stronger one, both find the same if and only if the
stronger one holds where the other finds something. -/
theorem findIdx?_eq_iff {α : Type*} {p q : α → Bool} {l : List α} (hpq : ∀ a, p a → q a) :
    l.findIdx? p = l.findIdx? q ↔
      ∀ (n : ℕ) (h : n < l.length), l.findIdx? q = some n → p l[n] = true := by
  constructor
  · intro heq n _ hn
    exact (findIdx?_eq_some_iff_getElem.mp (heq.trans hn)).2.1
  · intro h
    cases hq : l.findIdx? q with
    | none =>
      rw [findIdx?_eq_none_iff] at hq ⊢
      exact fun a ha => Bool.eq_false_iff.mpr fun hp => absurd (hpq a hp) (by simp [hq a ha])
    | some n =>
      obtain ⟨hn, -, hbefore⟩ := findIdx?_eq_some_iff_getElem.mp hq
      exact findIdx?_eq_some_iff_getElem.mpr
        ⟨hn, h n hn hq, fun j hj hp => hbefore j hj (hpq _ hp)⟩

/-- A search ends where the token ends for the first time if and only if there is no such place, or
nothing is counted where that token begins. -/
theorem search_finds_first_iff (htok : tok ∈ [tokStrmClose, tokObjClose, tokXrfEnd])
    (input : List UInt8) :
    search tok 0 input = input.inits.findIdx? (tok <:+ ·) ↔
      ∀ before behind, input = before ++ tok ++ behind →
        input.inits.findIdx? (tok <:+ ·) = some (before ++ tok).length →
        indexAfter tok 0 before = 0 := by
  have hne : tok ≠ [] := by
    simp only [mem_cons, not_mem_nil, or_false] at htok
    rcases htok with rfl | rfl | rfl <;> decide
  have hsound : ∀ v : List UInt8, decide (indexAfter tok 0 v = tok.length) = true →
      decide (tok <:+ v) = true := by
    intro v hv
    have hsuf := take_indexAfter_suffix tok v
    rw [of_decide_eq_true hv, take_length] at hsuf
    exact decide_eq_true hsuf
  have hsearch : search tok 0 input =
      input.inits.findIdx? fun v => indexAfter tok 0 v = tok.length :=
    @search_eq tok [] input (length_pos_of_ne_nil hne).ne
  rw [hsearch, findIdx?_eq_iff hsound]
  constructor
  · rintro h before behind rfl hfirst
    have hfound := h _ (findIdx?_eq_some_iff_getElem.mp hfirst).1 hfirst
    rw [getElem_inits, take_left] at hfound
    exact (indexAfter_token hne).mp (of_decide_eq_true hfound)
  · intro h n hn hfirst
    have hsuf := (findIdx?_eq_some_iff_getElem.mp hfirst).2.1
    rw [getElem_inits] at hsuf ⊢
    rw [length_inits] at hn
    obtain ⟨before, hbefore⟩ := of_decide_eq_true hsuf
    have hinput : input = before ++ tok ++ input.drop n := by
      rw [hbefore, take_append_drop]
    have hlen : (before ++ tok).length = n := by
      rw [hbefore, length_take]
      omega
    rw [← hbefore]
    exact decide_eq_true ((indexAfter_token hne).mpr (h before _ hinput (hlen ▸ hfirst)))

/-- In `eexendobj` the second `e` and the `x` are thrown away, and nothing is counted behind
them. -/
theorem search_finds_first_endobj :
    tokObjClose ∈ [tokStrmClose, tokObjClose, tokXrfEnd] ∧
      search tokObjClose 0 (101 :: 101 :: 120 :: tokObjClose) =
        (101 :: 101 :: 120 :: tokObjClose).inits.findIdx? (tokObjClose <:+ ·) := by
  refine ⟨by decide, (search_finds_first_iff (by decide) _).mpr ?_⟩
  intro before behind hinput hfirst
  have hnine : (101 :: 101 :: 120 :: tokObjClose).inits.findIdx? (tokObjClose <:+ ·) = some 9 := by
    decide
  rw [hnine, Option.some.injEq] at hfirst
  have hbefore : before ++ tokObjClose = [101, 101, 120] ++ tokObjClose := by
    have htake := congrArg (take 9) hinput
    rw [take_of_length_le (by decide), hfirst, take_left] at htake
    exact htake.symm
  rw [append_cancel_right hbefore]
  decide

/-- In `eendobj` the second `e` is thrown away, and in `%%%EOF` the third `%`. -/
theorem search_misses :
    search tokObjClose 0 (101 :: tokObjClose) = none ∧
      (101 :: tokObjClose).inits.findIdx? (tokObjClose <:+ ·) = some 7 ∧
      search tokXrfEnd 0 (37 :: tokXrfEnd) = none ∧
      (37 :: tokXrfEnd).inits.findIdx? (tokXrfEnd <:+ ·) = some 6 := by
  decide
end Snort.Pdf
