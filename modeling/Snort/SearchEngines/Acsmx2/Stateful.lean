import Snort.SearchEngines.Acsmx2.Equivalence
import Snort.SearchEngines.Acsmx

/-!
# Continuing a search

`SearchTool::find` lets a caller pass the state of one search to the next, so
that a text may come in pieces. Searching the pieces reports what a search of the
whole text reports with sparse rows. With full rows, the state at a split is
reported twice. With banded rows and with the NFA, the state is only stored on an
early exit, so the second piece is searched from state 0 again.
-/

namespace Snort.Acsmx2
open List Automata

/-- A search that records its calls. -/
abbrev LogSearch : Type :=
  List UInt8 → MpseMatch ℕ (List (ℕ × ℕ)) → List (ℕ × ℕ) → Option ℕ →
    Option (SearchResult (List (ℕ × ℕ)))

/-- Searching `A` and then `B` from the state left behind reports the same as
searching `A ++ B`. -/
def Composes (search : LogSearch) (A B : List UInt8) : Prop :=
  ∃ first second whole, search A record [] (some 0) = some first ∧
    search B record [] first.currentState = some second ∧
    search (A ++ B) record [] (some 0) = some whole ∧
    whole.context = first.context ++ second.context.map fun v => (v.1, v.2 + A.length)

/-! ## Splitting the reports -/

theorem reports_map_shift (hit : ℕ → Bool) (k : ℕ) (vs : List (ℕ × ℕ)) :
    reports hit (vs.map fun v => (v.1, v.2 + k)) =
      (reports hit vs).map fun v => (v.1, v.2 + k) := by
  rw [reports, filter_map]
  rfl

theorem shift_injective (k : ℕ) : Function.Injective fun v : ℕ × ℕ => (v.1, v.2 + k) := by
  rintro ⟨s, i⟩ ⟨t, j⟩ he
  simp only [Prod.mk.injEq, Nat.add_right_cancel_iff] at he
  rw [he.1, he.2]

/-- Each index is visited once, so two runs report the same only if they are in
the same match states at the same time. -/
theorem reports_range_eq_iff (hit : ℕ → Bool) (f g : ℕ → ℕ) (n : ℕ) :
    reports hit ((range n).map fun k => (f k, k + 1)) =
        reports hit ((range n).map fun k => (g k, k + 1)) ↔
      ∀ k, k < n → hit (f k) = true ∨ hit (g k) = true → f k = g k := by
  constructor
  · intro he k hk hhit
    have hmem : ∀ f : ℕ → ℕ, hit (f k) = true →
        (f k, k + 1) ∈ reports hit ((range n).map fun k => (f k, k + 1)) := by
      intro f hf
      exact mem_filter.mpr ⟨mem_map.mpr ⟨k, mem_range.mpr hk, rfl⟩, hf⟩
    have hback : ∀ (f : ℕ → ℕ) s,
        (s, k + 1) ∈ reports hit ((range n).map fun k => (f k, k + 1)) → f k = s := by
      intro f s hs
      obtain ⟨j, -, hj⟩ := mem_map.mp (mem_filter.mp hs).1
      simp only [Prod.mk.injEq, Nat.add_right_cancel_iff] at hj
      rw [← hj.2, hj.1]
    rcases hhit with hf | hg
    · exact (hback g _ (he ▸ hmem f hf)).symm
    · exact hback f _ (he ▸ hmem g hg)
  · intro h
    induction n with
    | zero => rfl
    | succ n ih =>
      simp only [range_succ, map_append, map_cons, map_nil, reports_append, reports_cons]
      rw [ih (fun k hk => h k (by omega))]
      by_cases hhit : hit (f n) = true ∨ hit (g n) = true
      · rw [h n (by omega) hhit]
      · rw [not_or] at hhit
        rw [if_neg hhit.1, if_neg hhit.2]

section Reports
variable (dfa : ℕ → TransList) (mlist : ℕ → List AcsmPattern2)

theorem dfaReports_append (state : ℕ) (A B : List UInt8) :
    dfaReports dfa mlist state (A ++ B) = dfaReports dfa mlist state A ++
        (dfaReports dfa mlist (dfaState dfa state A) B).map fun v => (v.1, v.2 + A.length) := by
  unfold dfaReports dfaState
  rw [convertCaseEx_append, visits_append, reports_append, length_convertCaseEx, visits_shift,
    reports_map_shift]

theorem dfaState_append (state : ℕ) (A B : List UInt8) :
    dfaState dfa state (A ++ B) = dfaState dfa (dfaState dfa state A) B := by
  unfold dfaState
  rw [convertCaseEx_append, foldl_append]

/-- After `A`, the whole search of `B` is in a match state only where a search of
`B` from state 0 is in the same state, and conversely. -/
def ForgetsSafely (A B : List UInt8) : Prop :=
  ∀ k, 0 < k → k ≤ B.length →
    mlist (dfaState dfa 0 (A ++ B.take k)) ≠ [] ∨ mlist (dfaState dfa 0 (B.take k)) ≠ [] →
    dfaState dfa 0 (A ++ B.take k) = dfaState dfa 0 (B.take k)

theorem dfaReports_eq_iff_forgetsSafely (A B : List UInt8) :
    dfaReports dfa mlist (dfaState dfa 0 A) B = dfaReports dfa mlist 0 B ↔
      ForgetsSafely dfa mlist A B := by
  rw [dfaReports_eq_map, dfaReports_eq_map, reports_range_eq_iff]
  simp only [← dfaState_append, Bool.not_eq_true', isEmpty_eq_false_iff]
  constructor
  · intro h k hpos hk hne
    obtain ⟨j, rfl⟩ := Nat.exists_eq_add_of_lt hpos
    rw [Nat.zero_add] at hk hne ⊢
    exact h j hk hne
  · intro h k hk hne
    exact h (k + 1) (Nat.succ_pos k) hk hne

theorem startReport_eq_nil_iff (state : ℕ) : startReport mlist state = [] ↔ mlist state = [] := by
  rw [startReport, reports_cons]
  by_cases h : mlist state = []
  · simp [h, reports]
  · simp [h, reports]

/-- A report of the start state has index 0 and cannot be made up for later. -/
theorem startReport_append_eq_iff (state s t : ℕ) (B : List UInt8) :
    startReport mlist state ++ dfaReports dfa mlist s B = dfaReports dfa mlist t B ↔
      mlist state = [] ∧ dfaReports dfa mlist t B = dfaReports dfa mlist s B := by
  constructor
  · intro he
    have hnil : mlist state = [] := by
      by_contra hne
      have hmem : (state, 0) ∈ dfaReports dfa mlist t B := by
        rw [← he, startReport, reports_cons]
        simp [hne]
      rw [dfaReports_eq_map] at hmem
      obtain ⟨j, -, hj⟩ := mem_map.mp (mem_filter.mp hmem).1
      exact absurd (congrArg Prod.snd hj) (Nat.succ_ne_zero j)
    rw [(startReport_eq_nil_iff mlist state).mpr hnil, nil_append] at he
    exact ⟨hnil, he.symm⟩
  · rintro ⟨hnil, he⟩
    rw [(startReport_eq_nil_iff mlist state).mpr hnil, nil_append, he]
end Reports

/-! ## Each engine -/

section Engines
variable {acsm : AcsmStruct2} {ps : List AcsmPattern2} {n : ℕ} {lab : ℕ → List UInt8}
  {mlist : ℕ → List AcsmPattern2} {fail : ℕ → ℕ} {nfa dfa : ℕ → TransList}

theorem composes_iff_of_eq {search : LogSearch} {A B : List UInt8}
    {first second whole : SearchResult (List (ℕ × ℕ))}
    (hfirst : search A record [] (some 0) = some first)
    (hsecond : search B record [] first.currentState = some second)
    (hwhole : search (A ++ B) record [] (some 0) = some whole) :
    Composes search A B ↔
      whole.context = first.context ++ second.context.map fun v => (v.1, v.2 + A.length) := by
  constructor
  · rintro ⟨r₁, r₂, r, h₁, h₂, h, he⟩
    rw [hfirst, Option.some.injEq] at h₁
    subst h₁
    rw [hsecond, Option.some.injEq] at h₂
    rw [hwhole, Option.some.injEq] at h
    rw [h₂, h]
    exact he
  · intro he
    exact ⟨first, second, whole, hfirst, hsecond, hwhole, he⟩

section
variable (hb : IsListBuild ps n lab mlist fail nfa dfa)
include hb

theorem dfaState_lt (A : List UInt8) : dfaState dfa 0 A < n :=
  hb.automaton.run_lt _

section
variable (h : acsm.Stored n mlist none dfa)
include h

theorem composes_sparse (hf : acsm.acsmFormat = .sparse ∨ acsm.acsmFormat = .sparseBands)
    (A B : List UInt8) : Composes (acsmSearchDfaSparse acsm) A B := by
  have hsearch := fun text state (hs : state < n) =>
    acsmSearchDfaSparse_eq hb h hf record_returnsZero text [] hs
  refine (composes_iff_of_eq (hsearch A 0 hb.automaton.pos) (hsearch B _ (dfaState_lt hb A))
    (hsearch (A ++ B) 0 hb.automaton.pos)).mpr ?_
  simp only [fire_record, nil_append]
  exact dfaReports_append dfa mlist 0 A B

theorem composes_full_iff {compress : Bool} (hf : acsm.acsmFormat = .full compress)
    (A B : List UInt8) : Composes (acsmSearchDfaFull acsm) A B ↔ mlist (dfaState dfa 0 A) = [] := by
  have hsearch := fun text state (hs : state < n) =>
    acsmSearchDfaFull_eq hb h hf record_returnsZero text [] hs
  rw [composes_iff_of_eq (hsearch A 0 hb.automaton.pos) (hsearch B _ (dfaState_lt hb A))
    (hsearch (A ++ B) 0 hb.automaton.pos)]
  simp only [fire_record, nil_append]
  rw [dfaReports_append, map_append, append_assoc, append_cancel_left_eq,
    append_cancel_left_eq, self_eq_append_left, map_eq_nil_iff,
    startReport_eq_nil_iff]

theorem composes_banded_iff (hf : acsm.acsmFormat = .banded) (A B : List UInt8) :
    Composes (acsmSearchDfaBanded acsm) A B ↔ mlist 0 = [] ∧ ForgetsSafely dfa mlist A B := by
  have hsearch := fun text => acsmSearchDfaBanded_eq hb h hf record_returnsZero text []
    hb.automaton.pos
  rw [composes_iff_of_eq (hsearch A) (hsearch B) (hsearch (A ++ B))]
  simp only [fire_record, nil_append]
  rw [dfaReports_append, append_assoc, append_cancel_left_eq,
    append_cancel_left_eq, (map_injective_iff.mpr (shift_injective _)).eq_iff, eq_comm,
    startReport_append_eq_iff, dfaReports_eq_iff_forgetsSafely]
end

theorem composes_nfa_iff (h : acsm.Stored n mlist (some fail) nfa)
    (hf : AcsmStruct2.Stored.NfaFormat acsm.acsmFormat) (A B : List UInt8) :
    Composes (acsmSearchNfa acsm) A B ↔ ForgetsSafely dfa mlist A B := by
  have hsearch := fun text => acsmSearchNfa_eq hb h hf record_returnsZero text [] hb.automaton.pos
  rw [composes_iff_of_eq (hsearch A) (hsearch B) (hsearch (A ++ B))]
  simp only [fire_record, nil_append]
  rw [dfaReports_append, append_cancel_left_eq,
    (map_injective_iff.mpr (shift_injective _)).eq_iff, dfaReports_eq_iff_forgetsSafely]
end
end Engines

/-! ## The conditions on the patterns -/

/-- Wherever a pattern ends in `B`, nothing that is being matched there started
before `B`. -/
def NoneAcross (args : List PatternArgs) (A B : List UInt8) : Prop :=
  ∀ k, 0 < k → k ≤ B.length → (∃ a ∈ args, convertCaseEx a.pat <:+ convertCaseEx (A ++ B.take k)) →
    ∀ a ∈ args, ∀ v, v <+: convertCaseEx a.pat → v <:+ convertCaseEx (A ++ B.take k) → v.length ≤ k

section Patterns
variable {args : List PatternArgs} {n : ℕ} {lab : ℕ → List UInt8}
  {mlist : ℕ → List AcsmPattern2} {fail : ℕ → ℕ} {nfa dfa : ℕ → TransList}

theorem exists_patrn_iff (P : List UInt8 → Prop) :
    (∃ p ∈ (args.map acsmPattern2).reverse, P p.patrn) ↔ ∃ a ∈ args, P (convertCaseEx a.pat) := by
  constructor
  · rintro ⟨p, hp, h⟩
    obtain ⟨a, ha, rfl⟩ := mem_map.mp (mem_reverse.mp hp)
    exact ⟨a, ha, h⟩
  · rintro ⟨a, ha, h⟩
    exact ⟨acsmPattern2 a, mem_reverse.mpr (mem_map_of_mem ha), h⟩

section
variable (hb : IsListBuild (args.map acsmPattern2).reverse n lab mlist fail nfa dfa)
include hb

theorem mlist_dfaState_eq_nil_iff (hne : ∀ a ∈ args, a.pat ≠ []) (A : List UInt8) :
    mlist (dfaState dfa 0 A) = [] ↔ ¬ ∃ a ∈ args, convertCaseEx a.pat <:+ convertCaseEx A := by
  rw [← exists_patrn_iff (fun w => w <:+ convertCaseEx A)]
  exact (hb.matcher (patrn_ne_nil hne)).out_run_eq_nil_iff _

theorem dfaState_append_eq_iff (A B : List UInt8) :
    dfaState dfa 0 (A ++ B) = dfaState dfa 0 B ↔
      ∀ a ∈ args, ∀ v, v <+: convertCaseEx a.pat → v <:+ convertCaseEx (A ++ B) →
        v.length ≤ B.length := by
  unfold dfaState
  rw [convertCaseEx_append, hb.automaton.run_append_eq_iff, length_convertCaseEx]
  constructor
  · intro h a ha
    exact h (acsmPattern2 a) (mem_reverse.mpr (mem_map_of_mem ha))
  · intro h p hp
    obtain ⟨a, ha, rfl⟩ := mem_map.mp (mem_reverse.mp hp)
    exact h a ha

theorem forgetsSafely_iff_noneAcross (hne : ∀ a ∈ args, a.pat ≠ []) (A B : List UInt8) :
    ForgetsSafely dfa mlist A B ↔ NoneAcross args A B := by
  have hhit : ∀ k, (mlist (dfaState dfa 0 (A ++ B.take k)) ≠ [] ∨
      mlist (dfaState dfa 0 (B.take k)) ≠ []) ↔
      ∃ a ∈ args, convertCaseEx a.pat <:+ convertCaseEx (A ++ B.take k) := by
    intro k
    rw [Ne, Ne, mlist_dfaState_eq_nil_iff hb hne, mlist_dfaState_eq_nil_iff hb hne, not_not,
      not_not, or_iff_left_iff_imp]
    rintro ⟨a, ha, hsuf⟩
    rw [convertCaseEx_append]
    exact ⟨a, ha, hsuf.trans (suffix_append _ _)⟩
  refine forall_congr' fun k => forall_congr' fun _ => forall_congr' fun hk => ?_
  rw [hhit k, dfaState_append_eq_iff hb, length_take_of_le hk]
end
end Patterns

/-- Searching a text in two pieces: always the same reports with sparse rows;
with full rows if the first piece does not end in a match state; with banded rows
and with the NFA if the second piece can be searched from state 0. The last part
says what this means for the patterns. -/
theorem acsm2_composes_iff (args : List PatternArgs) (A B : List UInt8) :
    ∃ (dfa : ℕ → TransList) (mlist : ℕ → List AcsmPattern2),
      (∀ format, ∃ lists, acsmBuildLists (acsmLoad2 format true args) = some lists ∧
        lists.acsmTransTable = dfa ∧ lists.acsmMatchList = mlist) ∧
      (∀ format, format = .sparse ∨ format = .sparseBands → ∃ acsm,
        acsmCompile2 (acsmLoad2 format true args) = some acsm ∧
        Composes (acsmSearchDfaSparse acsm) A B) ∧
      (∀ compressStates, ∃ acsm,
        acsmCompile2 (acsmLoad2 (.full compressStates) true args) = some acsm ∧
        (Composes (acsmSearchDfaFull acsm) A B ↔ mlist (dfaState dfa 0 A) = [])) ∧
      (∃ acsm, acsmCompile2 (acsmLoad2 .banded true args) = some acsm ∧
        (Composes (acsmSearchDfaBanded acsm) A B ↔ mlist 0 = [] ∧ ForgetsSafely dfa mlist A B)) ∧
      (∀ format, format = .full false ∨ format = .sparse ∨ format = .sparseBands → ∃ acsm,
        acsmCompile2 (acsmLoad2 format false args) = some acsm ∧
        (Composes (acsmSearchNfa acsm) A B ↔ ForgetsSafely dfa mlist A B)) ∧
      ((∀ a ∈ args, a.pat ≠ []) →
        (mlist (dfaState dfa 0 A) = [] ↔ ¬ ∃ a ∈ args, convertCaseEx a.pat <:+ convertCaseEx A) ∧
        mlist 0 = [] ∧ (ForgetsSafely dfa mlist A B ↔ NoneAcross args A B)) := by
  obtain ⟨n, lab, mlist, fail, nfa, dfa, hb, hcompile⟩ := acsmCompile2_spec args
  refine ⟨dfa, mlist, ?_, ?_, ?_, ?_, ?_, ?_⟩
  · intro format
    refine ⟨_, (hcompile format true).1, ?_, rfl⟩
    show (if (acsmLoad2 format true args).dfa then dfa else nfa) = dfa
    rw [(acsmLoad2_spec format true args).2.2]
    rfl
  · intro format hformat
    obtain ⟨-, acsm, hcomp, hf, -, hstored⟩ := hcompile format true
    rw [← hf] at hformat
    exact ⟨acsm, hcomp, composes_sparse hb hstored hformat A B⟩
  · intro compressStates
    obtain ⟨-, acsm, hcomp, hf, -, hstored⟩ := hcompile (.full compressStates) true
    exact ⟨acsm, hcomp, composes_full_iff hb hstored hf A B⟩
  · obtain ⟨-, acsm, hcomp, hf, -, hstored⟩ := hcompile .banded true
    exact ⟨acsm, hcomp, composes_banded_iff hb hstored hf A B⟩
  · intro format hformat
    obtain ⟨-, acsm, hcomp, hf, -, hstored⟩ := hcompile format false
    rw [← hf] at hformat
    exact ⟨acsm, hcomp, composes_nfa_iff hb hstored hformat A B⟩
  · intro hne
    exact ⟨mlist_dfaState_eq_nil_iff hb hne A, (hb.matcher (patrn_ne_nil hne)).out_root
      (patrn_ne_nil hne), forgetsSafely_iff_noneAcross hb hne A B⟩

/-- The text `ab` in two pieces. With full rows, a match of `a` is reported
twice; with banded rows and with the NFA, the match of `ab` is lost. -/
theorem acsm2_not_composes :
    let a : List PatternArgs := [⟨[97], true, false, 1⟩]
    let ab : List PatternArgs := [⟨[97, 98], true, false, 1⟩]
    (∃ acsm, acsmCompile2 (acsmLoad2 (.full false) true a) = some acsm ∧
      ¬ Composes (acsmSearchDfaFull acsm) [97] [98]) ∧
    (∃ acsm, acsmCompile2 (acsmLoad2 .banded true ab) = some acsm ∧
      ¬ Composes (acsmSearchDfaBanded acsm) [97] [98]) ∧
    ∃ acsm, acsmCompile2 (acsmLoad2 (.full false) false ab) = some acsm ∧
      ¬ Composes (acsmSearchNfa acsm) [97] [98] := by
  intro a ab
  have hacross : ¬ NoneAcross ab [97] [98] := by
    intro h
    have hlen := h 1 (by decide) (by decide) (by decide) ⟨[97, 98], true, false, 1⟩
      (mem_singleton_self _) [65, 66] (by decide) (by decide)
    exact absurd hlen (by decide)
  have hab : ∀ x ∈ ab, x.pat ≠ [] := by decide
  obtain ⟨n, lab, mlist, fail, nfa, dfa, hb, hcompile⟩ := acsmCompile2_spec ab
  refine ⟨?_, ?_, ?_⟩
  · obtain ⟨n, lab, mlist, fail, nfa, dfa, hb, hcompile⟩ := acsmCompile2_spec a
    obtain ⟨-, acsm, hcomp, hf, -, hstored⟩ := hcompile (.full false) true
    refine ⟨acsm, hcomp, ?_⟩
    rw [composes_full_iff hb hstored hf, mlist_dfaState_eq_nil_iff hb (by decide), not_not]
    decide
  · obtain ⟨-, acsm, hcomp, hf, -, hstored⟩ := hcompile .banded true
    refine ⟨acsm, hcomp, ?_⟩
    rw [composes_banded_iff hb hstored hf, forgetsSafely_iff_noneAcross hb hab]
    exact fun hc => hacross hc.2
  · obtain ⟨-, acsm, hcomp, hf, -, hstored⟩ := hcompile (.full false) false
    refine ⟨acsm, hcomp, ?_⟩
    rw [composes_nfa_iff hb hstored (.inl hf), forgetsSafely_iff_noneAcross hb hab]
    exact hacross

/-! ## The engine of `acsmx.cc` -/

/-- It reports after the transition and always stores the state, so that no split is noticed,
as long as the whole text fits into `Tc`. -/
theorem acsmSearch_composes (args : List PatternArgs) (A B : List UInt8) :
    ∃ acsm, acsmCompile (args.foldl acsmAddPattern acsmNew) = some acsm ∧
      (Composes (acsmSearch acsm) A B ↔ A.length + B.length ≤ tcSize) := by
  obtain ⟨acsm, lab, hcomp, hc⟩ := acsmCompile_compiled (args.foldl acsmAddPattern acsmNew)
  refine ⟨acsm, hcomp, fun ⟨_, _, _, _, _, hwhole, _⟩ => ?_, fun hfits => ?_⟩
  · by_contra hlong
    rw [acsmSearch_eq_none acsm (by rw [length_append]; omega)] at hwhole
    exact absurd hwhole (by simp)
  have hsearch := fun text (hfits : text.length ≤ tcSize) state
      (hs : state < acsm.acsmNumStates + 1) =>
    (acsmSearch_of_fits acsm hfits record [] state).trans
      (congrArg (Option.map fun r => SearchResult.mk r.nfound r.context (some r.state))
        (scanAfter_spec acsm.isMatch hc.steps record_returnsZero (convertCaseEx text) 0 state 0 []
          hs))
  have hpos := hc.automaton.pos
  refine (composes_iff_of_eq (hsearch A (by omega) 0 hpos)
    (hsearch B (by omega) _ (hc.automaton.run_lt (convertCaseEx A)))
    (hsearch (A ++ B) (by rw [length_append]; exact hfits) 0 hpos)).mpr ?_
  simp only [fire_record, nil_append]
  rw [convertCaseEx_append, visits_append, reports_append, length_convertCaseEx, visits_shift,
    reports_map_shift]

/-! ## Where occurrences end -/

/-- With the DFA and with the NFA, the calls are made where occurrences end. -/
theorem mpseSearch_matchEnds (args : List { a : PatternArgs // a.pat ≠ [] })
    (format : { f // AcsmStruct2.Stored.NfaFormat f }) (b : Bool) (text : List UInt8) :
    ∃ acsm r, acsmCompile2 (acsmLoad2 format b (args.map (·.1))) = some acsm ∧
      mpseSearch acsm text record [] (some 0) = some r ∧ r.context.map Prod.snd =
        matchEnds (args.map fun a => convertCaseEx a.1.pat) (convertCaseEx text) := by
  have hne := @patrn_ne_nil (args.map (·.1)) (by simp +contextual)
  obtain ⟨n, lab, mlist, fail, nfa, dfa, hb, hcompile⟩ := acsmCompile2_spec (args.map (·.1))
  obtain ⟨-, acsm, hcomp, hf, hd, hstored⟩ := hcompile format b
  have hf' : AcsmStruct2.Stored.NfaFormat acsm.acsmFormat := hf ▸ format.2
  have hends : dfaReports dfa mlist 0 text = _ := reports_visits (hb.matcher hne) _
  obtain ⟨r, hr, hcalls⟩ : ∃ r, mpseSearch acsm text record [] (some 0) = some r ∧
      r.context = dfaReports dfa mlist 0 text := by
    cases b with
    | true =>
      exact ⟨_, mpseSearch_dfa_eq hb hne hstored hd hf' record_returnsZero text [], fire_record _ _⟩
    | false =>
      have hsearch := acsmSearchNfa_eq hb hstored hf' record_returnsZero text [] hb.automaton.pos
      refine ⟨_, .trans ?_ hsearch, fire_record _ _⟩
      rcases hf' with hf' | hf' | hf' <;> simp [mpseSearch, hf', hd]
  refine ⟨acsm, r, hcomp, hr, ?_⟩
  rw [hcalls, hends, map_map, map_reverse, matchEnds_reverse, map_map, map_map]
  exact map_id _
end Snort.Acsmx2
