import Snort.Automata.Matcher

/-!
# Common parts of the search engines

Case folding, the match callback and the two search loops that the
Aho-Corasick engines repeat: one reports a state after the transition into it,
the other before the transition out of it. Both loops leave as soon as the
callback returns a positive value.
-/

namespace Snort
open List Automata

/-! ## Case translation -/

variable {ε : Type*}

/-- `toupper` of the C locale. -/
def toupper (c : UInt8) : UInt8 :=
  if 97 ≤ c ∧ c ≤ 122 then c - 32 else c

/-- The table the `init_xlatcase` functions fill. -/
def xlatcase (c : UInt8) : UInt8 :=
  toupper c

def convertCaseEx (s : List UInt8) : List UInt8 :=
  s.map xlatcase

@[simp] theorem length_convertCaseEx (s : List UInt8) : (convertCaseEx s).length = s.length :=
  length_map _

@[simp] theorem convertCaseEx_eq_nil_iff {s : List UInt8} : convertCaseEx s = [] ↔ s = [] :=
  map_eq_nil_iff

theorem convertCaseEx_take (s : List UInt8) (i : ℕ) :
    convertCaseEx (s.take i) = (convertCaseEx s).take i :=
  map_take

theorem convertCaseEx_append (s t : List UInt8) :
    convertCaseEx (s ++ t) = convertCaseEx s ++ convertCaseEx t :=
  map_append

/-- The bytes in the order of the loops `for (i = 0; i < 256; i++)`. -/
def alphabet : List UInt8 :=
  (range 256).map UInt8.ofNat

theorem alphabet_nodup : alphabet.Nodup := by
  refine List.Nodup.map_on ?_ nodup_range
  intro x hx y hy he
  rw [mem_range] at hx hy
  have := congrArg UInt8.toNat he
  rw [UInt8.toNat_ofNat_of_lt' hx, UInt8.toNat_ofNat_of_lt' hy] at this
  exact this

theorem mem_alphabet (c : UInt8) : c ∈ alphabet :=
  mem_map.mpr ⟨c.toNat, mem_range.mpr c.toNat_lt, UInt8.ofNat_toNat⟩

/-! ## Patterns and callbacks -/

/-- The arguments of an add-pattern call. `user` is the address given as
`void*`. -/
structure PatternArgs where
  pat : List UInt8
  nocase : Bool
  negative : Bool
  user : ℕ
deriving DecidableEq, Repr

/-- The callback of a search. It is told what was found and the end index,
reads and writes its context, and stops the search by a positive value. A state
stands for the arguments taken from the head of its match list. -/
abbrev MpseMatch (ε κ : Type*) :=
  ε → ℕ → κ → ℤ × κ

namespace MpseMatch
variable {ε κ : Type*}

/-- The callback never asks to stop. -/
def ReturnsZero (mtch : MpseMatch ε κ) : Prop :=
  ∀ e i c, (mtch e i c).1 = 0

/-- The effect of a sequence of calls on the context. -/
def fire (mtch : MpseMatch ε κ) (context : κ) (calls : List (ε × ℕ)) : κ :=
  calls.foldl (fun c v => (mtch v.1 v.2 c).2) context

variable (mtch : MpseMatch ε κ) (context : κ)

@[simp] theorem fire_nil : mtch.fire context [] = context :=
  rfl

@[simp] theorem fire_cons (e : ε) (i : ℕ) (calls : List (ε × ℕ)) :
    mtch.fire context ((e, i) :: calls) = mtch.fire (mtch e i context).2 calls :=
  rfl

theorem fire_append (l l' : List (ε × ℕ)) :
    mtch.fire context (l ++ l') = mtch.fire (mtch.fire context l) l' :=
  foldl_append
end MpseMatch

/-- The callback that writes down its calls. -/
def record {ε : Type*} : MpseMatch ε (List (ε × ℕ)) :=
  fun e i log => (0, log ++ [(e, i)])

theorem record_returnsZero : MpseMatch.ReturnsZero (record (ε := ε)) :=
  fun _ _ _ => rfl

theorem fire_record (log calls : List (ε × ℕ)) :
    MpseMatch.fire record log calls = log ++ calls := by
  induction calls generalizing log with
  | nil => simp
  | cons v calls ih =>
    obtain ⟨e, i⟩ := v
    rw [MpseMatch.fire_cons, append_cons]
    exact ih (log ++ [(e, i)])

/-! ## Search loops -/

/-- How a search loop ended. -/
structure Scan (κ : Type*) where
  stopped : Bool
  state : ℕ
  nfound : ℕ
  context : κ
deriving DecidableEq, Repr

/-- What a search function leaves to its caller: the returned count, the
context and the value behind `current_state` (`none` for a null pointer). -/
structure SearchResult (κ : Type*) where
  nfound : ℕ
  context : κ
  currentState : Option ℕ
deriving DecidableEq, Repr

variable {κ : Type*} {n : ℕ} {δ : ℕ → UInt8 → ℕ}

/-- Take the transition, then report the state that was entered. `none` is a
transition out of the table or a failure loop that does not end. -/
def scanAfter (step : ℕ → UInt8 → Option ℕ) (hit : ℕ → Bool) (mtch : MpseMatch ℕ κ) :
    List UInt8 → ℕ → ℕ → ℕ → κ → Option (Scan κ)
  | [], _, state, nfound, context => some ⟨false, state, nfound, context⟩
  | c :: text, index, state, nfound, context =>
    match step state c with
    | none => none
    | some next =>
      if hit next then
        let r := mtch next (index + 1) context
        if 0 < r.1 then some ⟨true, next, nfound + 1, r.2⟩
        else scanAfter step hit mtch text (index + 1) next (nfound + 1) r.2
      else scanAfter step hit mtch text (index + 1) next nfound context

/-- Report the current state, then take the transition out of it. -/
def scanBefore (step : ℕ → UInt8 → Option ℕ) (hit : ℕ → Bool) (mtch : MpseMatch ℕ κ) :
    List UInt8 → ℕ → ℕ → ℕ → κ → Option (Scan κ)
  | [], _, state, nfound, context => some ⟨false, state, nfound, context⟩
  | c :: text, index, state, nfound, context =>
    if hit state then
      let r := mtch state index context
      if 0 < r.1 then some ⟨true, state, nfound + 1, r.2⟩
      else
        match step state c with
        | none => none
        | some next => scanBefore step hit mtch text (index + 1) next (nfound + 1) r.2
    else
      match step state c with
      | none => none
      | some next => scanBefore step hit mtch text (index + 1) next nfound context

/-- The visits that are reported. -/
def reports (hit : ℕ → Bool) (vs : List (ℕ × ℕ)) : List (ℕ × ℕ) :=
  vs.filter (fun v => hit v.1)

theorem reports_append (hit : ℕ → Bool) (u v : List (ℕ × ℕ)) :
    reports hit (u ++ v) = reports hit u ++ reports hit v :=
  filter_append ..

theorem reports_cons (hit : ℕ → Bool) (s i : ℕ) (vs : List (ℕ × ℕ)) :
    reports hit ((s, i) :: vs) = (if hit s then [(s, i)] else []) ++ reports hit vs := by
  by_cases h : hit s = true
  · simp [reports, h]
  · simp [reports, h]

section Specs
variable {n : ℕ} {δ : ℕ → UInt8 → ℕ} {step : ℕ → UInt8 → Option ℕ} {hit : ℕ → Bool}
  {mtch : MpseMatch ℕ κ}

/-- The transitions of a representation are those of the automaton. -/
def StepsAs (n : ℕ) (step : ℕ → UInt8 → Option ℕ) (δ : ℕ → UInt8 → ℕ) : Prop :=
  ∀ s, s < n → ∀ c, step s c = some (δ s c) ∧ δ s c < n

variable (hit) in
theorem scanAfter_spec (hstep : StepsAs n step δ) (hcb : mtch.ReturnsZero) :
    ∀ (text : List UInt8) (index state nfound : ℕ) (context : κ), state < n →
      scanAfter step hit mtch text index state nfound context =
        some ⟨false, text.foldl δ state, nfound + (reports hit (visits δ index state text)).length,
          mtch.fire context (reports hit (visits δ index state text))⟩ := by
  intro text
  induction text with
  | nil => intro index state nfound context _; rfl
  | cons c text ih =>
    intro index state nfound context hs
    obtain ⟨hnext, hlt⟩ := hstep state hs c
    rw [scanAfter, hnext, visits, reports_cons]
    by_cases hh : hit (δ state c) = true
    · have hstop : ¬ 0 < (mtch (δ state c) (index + 1) context).1 := by
        rw [hcb]
        omega
      simp only [hh, if_true, if_neg hstop, ih _ _ _ _ hlt, foldl_cons,
        singleton_append, length_cons, MpseMatch.fire_cons]
      rw [Nat.add_assoc, Nat.add_comm 1]
    · simp only [hh, ih _ _ _ _ hlt, foldl_cons, nil_append, Bool.false_eq_true, if_false]

variable (hit) in
theorem scanBefore_spec (hstep : StepsAs n step δ) (hcb : mtch.ReturnsZero) :
    ∀ (text : List UInt8) (index state nfound : ℕ) (context : κ), state < n →
      scanBefore step hit mtch text index state nfound context =
        some ⟨false, text.foldl δ state,
          nfound + (reports hit ((state, index) :: visits δ index state text).dropLast).length,
          mtch.fire context
            (reports hit ((state, index) :: visits δ index state text).dropLast)⟩ := by
  intro text
  induction text with
  | nil => intro index state nfound context _; rfl
  | cons c text ih =>
    intro index state nfound context hs
    obtain ⟨hnext, hlt⟩ := hstep state hs c
    rw [scanBefore, visits, dropLast_cons_cons, reports_cons, hnext]
    by_cases hh : hit state = true
    · have hstop : ¬ 0 < (mtch state index context).1 := by
        rw [hcb]
        omega
      simp only [hh, if_true, if_neg hstop, ih _ _ _ _ hlt, foldl_cons,
        singleton_append, length_cons, MpseMatch.fire_cons]
      rw [Nat.add_assoc, Nat.add_comm 1]
    · simp only [hh, ih _ _ _ _ hlt, foldl_cons, nil_append, Bool.false_eq_true, if_false]

theorem visits_lt (hδ : ∀ s, s < n → ∀ c, δ s c < n) : ∀ (text : List UInt8) (index state : ℕ),
    state < n → ∀ v ∈ visits δ index state text, v.1 < n := by
  intro text
  induction text with
  | nil => intro index state _ v hv; cases hv
  | cons c text ih =>
    intro index state hs v hv
    rcases mem_cons.mp hv with rfl | hv
    · exact hδ state hs c
    · exact ih _ _ (hδ state hs c) v hv

theorem reports_congr {hit' : ℕ → Bool} (h : ∀ s, s < n → hit s = hit' s)
    {vs : List (ℕ × ℕ)} (hvs : ∀ v ∈ vs, v.1 < n) : reports hit vs = reports hit' vs :=
  filter_congr (fun v hv => h v.1 (hvs v hv))
end Specs

theorem foldlM_step {step : ℕ → UInt8 → Option ℕ}
    (hstep : StepsAs n step δ) (text : List UInt8) : ∀ state, state < n →
    text.foldlM step state = some (text.foldl δ state) := by
  induction text with
  | nil => intro state _; rfl
  | cons c text ih =>
    intro state hs
    obtain ⟨he, hlt⟩ := hstep state hs c
    rw [foldlM_cons, he]
    exact ih (δ state c) hlt

/-! ## What a search has to find -/

/-- The end indices at which some word occurs in the text. -/
def matchEnds (words : List (List UInt8)) (text : List UInt8) : List ℕ :=
  ((range text.length).map (· + 1)).filter
    (fun i => words.any (fun w => decide (w <:+ text.take i)))

theorem matchEnds_reverse (words : List (List UInt8)) (text : List UInt8) :
    matchEnds words.reverse text = matchEnds words text := by
  simp only [matchEnds, any_reverse]

/-- The reported visits of a matcher are the ends of occurrences. -/
theorem reports_visits {ρ : Type*} {lab : ℕ → List UInt8} {word : ρ → List UInt8}
    {ps : List ρ} {out : ℕ → List ρ}
    (h : IsMatcher n lab word ps δ out) (text : List UInt8) :
    reports (fun s => !(out s).isEmpty) (visits δ 0 0 text) =
      (matchEnds (ps.map word) text).map (fun i => ((text.take i).foldl δ 0, i)) := by
  have hvisits : visits δ 0 0 text =
      ((range text.length).map (· + 1)).map (fun i => ((text.take i).foldl δ 0, i)) := by
    rw [visits_eq_map, map_map]
    rfl
  rw [hvisits, reports, filter_map, matchEnds]
  congr 1
  refine filter_congr (fun i _ => ?_)
  have hiff := h.out_run_eq_nil_iff (text.take i)
  rw [Bool.eq_iff_iff]
  simp only [Function.comp_apply, Bool.not_eq_true', isEmpty_eq_false_iff, ne_eq, hiff,
    not_not, any_map, any_eq_true, decide_eq_true_eq]
end Snort
