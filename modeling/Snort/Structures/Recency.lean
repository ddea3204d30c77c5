import Mathlib

/-!
# Recency lists

A list of entries that is kept in the order of their last use, the latest first.
Each entry has a key, and each key a stamp, the time of its last use. Using an
entry gives it the latest stamp and moves it to the front; dropping entries keeps
the order.
-/

namespace Recency
variable {α κ : Type*} {key : α → κ} {stamp : κ → ℕ} {l l' : List α} {a : α} {now : ℕ}

/-- The entries are in the order of their last use. -/
def Ordered (key : α → κ) (stamp : κ → ℕ) (l : List α) : Prop :=
  l.Pairwise fun a b => stamp (key b) < stamp (key a)

theorem Ordered.nil : Ordered key stamp ([] : List α) := List.Pairwise.nil

theorem Ordered.sublist (h : Ordered key stamp l') (hsub : l.Sublist l') : Ordered key stamp l :=
  List.Pairwise.sublist hsub h

theorem Ordered.congr {stamp' : κ → ℕ} (h : Ordered key stamp l)
    (heq : ∀ b ∈ l, stamp' (key b) = stamp (key b)) : Ordered key stamp' l :=
  List.Pairwise.imp_of_mem (fun ha hb hlt => by rwa [heq _ ha, heq _ hb]) h

theorem Ordered.use [DecidableEq κ] (h : Ordered key stamp l) (hne : ∀ b ∈ l, key b ≠ key a)
    (hle : ∀ b ∈ l, stamp (key b) < now) :
    Ordered key (Function.update stamp (key a) now) (a :: l) := by
  refine List.Pairwise.cons (fun b hb => ?_) (h.congr fun b hb => ?_)
  · rw [Function.update_of_ne (hne b hb), Function.update_self]
    exact hle b hb
  · exact Function.update_of_ne (hne b hb) _ _
end Recency
