import Mathlib

/-!
# Longest suffixes in a prefix-closed language

The word-level theory behind multi-pattern matching. A language `P` is given
by membership alone; the state a matcher should be in after reading `w` is
the longest suffix of `w` that lies in `P`. Prefix closure is what makes that
state computable one letter at a time (`longestSuffix_snoc`), and the
failure word of `u`, its longest proper suffix in `P`, is what a failing
transition falls back to (`longestSuffix_snoc_of_not_mem`).
-/

namespace Automata
open List
variable {α : Type*}

/-- A language that contains the empty word and every prefix of its words. -/
structure PrefixClosed (P : List α → Prop) : Prop where
  nil : P []
  init : ∀ u a, P (u ++ [a]) → P u

theorem PrefixClosed.of_prefix {P : List α → Prop} (hP : PrefixClosed P) :
    ∀ {u v : List α}, u <+: v → P v → P u := by
  intro u v hpre
  obtain ⟨w, rfl⟩ := hpre
  induction w using List.reverseRecOn with
  | nil => simp
  | append_singleton w a ih =>
    intro hmem
    rw [← append_assoc] at hmem
    exact ih (hP.init _ _ hmem)

section
variable (P : List α → Prop) [DecidablePred P]

/-- The longest suffix of a word that belongs to `P`. -/
def longestSuffix : List α → List α
  | [] => []
  | a :: w => if P (a :: w) then a :: w else longestSuffix w

/-- The failure word: the longest suffix in `P` that drops the first letter. -/
def failWord (u : List α) : List α := longestSuffix P u.tail
end

variable {P : List α → Prop} [DecidablePred P] {w v u : List α} {a : α}

theorem longestSuffix_of_mem (h : P w) : longestSuffix P w = w := by
  cases w with
  | nil => rfl
  | cons a w => rw [longestSuffix, if_pos h]

theorem longestSuffix_cons_of_not_mem (h : ¬ P (a :: w)) :
    longestSuffix P (a :: w) = longestSuffix P w := by
  rw [longestSuffix, if_neg h]

theorem longestSuffix_suffix : ∀ w : List α, longestSuffix P w <:+ w
  | [] => suffix_rfl
  | a :: w => by
      by_cases h : P (a :: w)
      · rw [longestSuffix_of_mem h]
      · rw [longestSuffix_cons_of_not_mem h]
        exact (longestSuffix_suffix w).trans (suffix_cons a w)

theorem longestSuffix_mem (hnil : P []) : ∀ w : List α, P (longestSuffix P w)
  | [] => hnil
  | a :: w => by
      by_cases h : P (a :: w)
      · rw [longestSuffix_of_mem h]; exact h
      · rw [longestSuffix_cons_of_not_mem h]
        exact longestSuffix_mem hnil w

/-- Maximality: every suffix of `w` in `P` is a suffix of the longest one. -/
theorem suffix_longestSuffix (hv : P v) :
    ∀ {w : List α}, v <:+ w → v <:+ longestSuffix P w
  | [], h => h
  | a :: w, h => by
      by_cases hmem : P (a :: w)
      · rw [longestSuffix_of_mem hmem]; exact h
      · rw [longestSuffix_cons_of_not_mem hmem]
        rcases suffix_cons_iff.mp h with rfl | h
        · exact absurd hv hmem
        · exact suffix_longestSuffix hv h

/-- The longest suffix is the only maximal one. -/
theorem eq_longestSuffix (hnil : P []) (hsuf : v <:+ w) (hv : P v)
    (hmax : ∀ u, P u → u <:+ w → u <:+ v) : v = longestSuffix P w := by
  have h1 : v <:+ longestSuffix P w := suffix_longestSuffix hv hsuf
  have h2 : longestSuffix P w <:+ v :=
    hmax _ (longestSuffix_mem hnil w) (longestSuffix_suffix w)
  exact h1.eq_of_length (Nat.le_antisymm h1.length_le h2.length_le)

/-- Reading one more letter only needs the current longest suffix. -/
theorem longestSuffix_snoc (hP : PrefixClosed P) (w : List α) (a : α) :
    longestSuffix P (w ++ [a]) = longestSuffix P (longestSuffix P w ++ [a]) := by
  symm
  apply eq_longestSuffix hP.nil
  · refine (longestSuffix_suffix _).trans ?_
    obtain ⟨t, ht⟩ := longestSuffix_suffix (P := P) w
    exact ⟨t, by rw [← append_assoc, ht]⟩
  · exact longestSuffix_mem hP.nil _
  · intro u hu hsuf
    apply suffix_longestSuffix hu
    rcases suffix_concat_iff.mp hsuf with rfl | ⟨v, rfl, hv⟩
    · exact nil_suffix
    · exact suffix_concat_iff.mpr (.inr ⟨v, rfl, suffix_longestSuffix (hP.init _ _ hu) hv⟩)

theorem failWord_length_lt (hne : u ≠ []) : (failWord P u).length < u.length := by
  have h := (longestSuffix_suffix (P := P) u.tail).length_le
  have hpos := length_pos_iff.mpr hne
  rw [length_tail] at h
  unfold failWord
  omega

/-- When `u` has no continuation by `a`, the failure word decides. -/
theorem longestSuffix_snoc_of_not_mem (hP : PrefixClosed P) (hne : u ≠ []) (hnot : ¬ P (u ++ [a])) :
    longestSuffix P (u ++ [a]) = longestSuffix P (failWord P u ++ [a]) := by
  cases u with
  | nil => exact absurd rfl hne
  | cons b u =>
    rw [cons_append] at hnot ⊢
    rw [longestSuffix_cons_of_not_mem hnot, longestSuffix_snoc hP]
    rfl

/-- The failure word of a child, read off the failure word of its parent. -/
theorem failWord_snoc (hP : PrefixClosed P) (a : α) (hne : u ≠ []) :
    failWord P (u ++ [a]) = longestSuffix P (failWord P u ++ [a]) := by
  cases u with
  | nil => exact absurd rfl hne
  | cons b u => exact longestSuffix_snoc hP u a

theorem failWord_singleton (a : α) : failWord P [a] = [] := rfl

/-- The words of `P` that end at `u` are `u` itself and those that end at its
failure word. -/
theorem suffix_iff_failWord (hv : P v) (hne : u ≠ []) : v <:+ u ↔ v = u ∨ v <:+ failWord P u := by
  cases u with
  | nil => exact absurd rfl hne
  | cons b u =>
    rw [suffix_cons_iff]
    constructor
    · rintro (h | h)
      · exact .inl h
      · exact .inr (suffix_longestSuffix hv h)
    · rintro (h | h)
      · exact .inl h
      · exact .inr (h.trans (longestSuffix_suffix u))

/-- A word of `P` ends at `w` exactly when it ends at the longest suffix. -/
theorem suffix_iff_longestSuffix (hv : P v) : v <:+ w ↔ v <:+ longestSuffix P w :=
  ⟨suffix_longestSuffix hv, fun h => h.trans (longestSuffix_suffix w)⟩

/-- Letters read earlier matter unless no word of `P` reaches back to them. -/
theorem longestSuffix_append_eq_iff (hnil : P []) (u w : List α) :
    longestSuffix P (u ++ w) = longestSuffix P w ↔
      ∀ v, P v → v <:+ u ++ w → v.length ≤ w.length := by
  constructor
  · intro he v hv hsuf
    have hmax := suffix_longestSuffix hv hsuf
    rw [he] at hmax
    exact (hmax.trans (longestSuffix_suffix w)).length_le
  · intro hshort
    refine eq_longestSuffix hnil ?_ (longestSuffix_mem hnil _) ?_
    · exact suffix_of_suffix_length_le (longestSuffix_suffix _) (suffix_append u w)
        (hshort _ (longestSuffix_mem hnil _) (longestSuffix_suffix _))
    · intro v hv hsuf
      exact suffix_longestSuffix hv (hsuf.trans (suffix_append u w))
end Automata
