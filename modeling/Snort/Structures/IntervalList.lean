import Mathlib

/-!
# Lists of intervals

A list of pieces, each of which covers the positions from `lo x` up to `hi x`.
The list is ordered if the pieces are not empty, stand in order and do not
overlap. An editor changes such a list at one place: it inserts a piece there,
takes one out, or replaces one by a part of it.
-/

namespace IntervalList
open List
variable {ι : Type*} {lo hi : ι → ℕ}

/-- Pieces in order, without overlap, none of them empty. -/
structure Ordered (lo hi : ι → ℕ) (l : List ι) : Prop where
  lt : ∀ x ∈ l, lo x < hi x
  pairwise : l.Pairwise fun x y => hi x ≤ lo y

/-- The positions of the pieces. -/
def Covers (lo hi : ι → ℕ) (l : List ι) (p : ℕ) : Prop := ∃ x ∈ l, lo x ≤ p ∧ p < hi x

namespace Ordered
variable {l r : List ι} {x y : ι} {p : ℕ}

theorem nil : Ordered lo hi [] := ⟨fun _ h => absurd h not_mem_nil, List.Pairwise.nil⟩

theorem sublist (h : Ordered lo hi r) (hsub : l.Sublist r) : Ordered lo hi l :=
  ⟨fun x hx => h.lt x (hsub.subset hx), h.pairwise.sublist hsub⟩

theorem append_iff : Ordered lo hi (l ++ r) ↔
    Ordered lo hi l ∧ Ordered lo hi r ∧ ∀ x ∈ l, ∀ y ∈ r, hi x ≤ lo y := by
  constructor
  · intro h
    refine ⟨h.sublist (sublist_append_left _ _), h.sublist (sublist_append_right _ _), ?_⟩
    exact (pairwise_append.mp h.pairwise).2.2
  · rintro ⟨hl, hr, hlr⟩
    refine ⟨?_, pairwise_append.mpr ⟨hl.pairwise, hr.pairwise, hlr⟩⟩
    intro x hx
    rcases mem_append.mp hx with hx | hx
    · exact hl.lt x hx
    · exact hr.lt x hx

theorem cons_iff : Ordered lo hi (x :: r) ↔
    lo x < hi x ∧ Ordered lo hi r ∧ ∀ y ∈ r, hi x ≤ lo y := by
  constructor
  · intro h
    have hcons := pairwise_cons.mp h.pairwise
    exact ⟨h.lt x mem_cons_self, h.sublist (sublist_cons_self _ _), hcons.1⟩
  · rintro ⟨hx, hr, hxr⟩
    refine ⟨?_, pairwise_cons.mpr ⟨hxr, hr.pairwise⟩⟩
    intro y hy
    rcases mem_cons.mp hy with rfl | hy
    · exact hx
    · exact hr.lt y hy

theorem middle (h : Ordered lo hi (l ++ x :: r)) :
    lo x < hi x ∧ (∀ y ∈ l, hi y ≤ lo x) ∧ ∀ y ∈ r, hi x ≤ lo y := by
  obtain ⟨-, hr, hlr⟩ := append_iff.mp h
  obtain ⟨hx, -, hxr⟩ := cons_iff.mp hr
  exact ⟨hx, fun y hy => hlr y hy x mem_cons_self, hxr⟩

theorem remove (h : Ordered lo hi (l ++ x :: r)) : Ordered lo hi (l ++ r) :=
  h.sublist (List.Sublist.append (List.Sublist.refl _) (sublist_cons_self _ _))

theorem insert (h : Ordered lo hi (l ++ r)) (hx : lo x < hi x) (hl : ∀ y ∈ l, hi y ≤ lo x)
    (hr : ∀ y ∈ r, hi x ≤ lo y) : Ordered lo hi (l ++ x :: r) := by
  obtain ⟨hl', hr', hlr⟩ := append_iff.mp h
  refine append_iff.mpr ⟨hl', cons_iff.mpr ⟨hx, hr', hr⟩, ?_⟩
  intro y hy z hz
  rcases mem_cons.mp hz with rfl | hz
  · exact hl y hy
  · exact hlr y hy z hz

theorem replace (h : Ordered lo hi (l ++ x :: r)) (hy : lo y < hi y) (hlo : lo x ≤ lo y)
    (hhi : hi y ≤ hi x) : Ordered lo hi (l ++ y :: r) := by
  obtain ⟨-, hl, hr⟩ := h.middle
  exact h.remove.insert hy (fun z hz => (hl z hz).trans hlo) fun z hz => hhi.trans (hr z hz)

theorem unique (h : Ordered lo hi l) (hx : x ∈ l) (hy : y ∈ l) (hpx : lo x ≤ p ∧ p < hi x)
    (hpy : lo y ≤ p ∧ p < hi y) : x = y := by
  induction l with
  | nil => cases hx
  | cons z l ih =>
    obtain ⟨-, hl, hz⟩ := cons_iff.mp h
    rcases mem_cons.mp hx with rfl | hx'
    · rcases mem_cons.mp hy with rfl | hy'
      · rfl
      · have hle := hz y hy'
        omega
    · rcases mem_cons.mp hy with rfl | hy'
      · have hle := hz x hx'
        omega
      · exact ih hl hx' hy'
end Ordered

section Covers
variable {l r : List ι} {x : ι} {p : ℕ}

@[simp]
theorem covers_nil : ¬ Covers lo hi [] p := by
  rintro ⟨x, hx, -⟩
  cases hx

@[simp]
theorem covers_cons : Covers lo hi (x :: r) p ↔ (lo x ≤ p ∧ p < hi x) ∨ Covers lo hi r p := by
  simp only [Covers, mem_cons, exists_eq_or_imp]

@[simp]
theorem covers_append : Covers lo hi (l ++ r) p ↔ Covers lo hi l p ∨ Covers lo hi r p := by
  simp only [Covers, mem_append, or_and_right, exists_or]

@[simp]
theorem covers_reverse : Covers lo hi l.reverse p ↔ Covers lo hi l p := by
  simp only [Covers, mem_reverse]
end Covers
end IntervalList
