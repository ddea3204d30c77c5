import Mathlib

/-!
# Histories of writes

A write covers some places and has a value for each of them. Two readings of a
history of writes give every place a value: the first write that covers the place
decides, or the last one does.
-/

namespace WriteHistory
variable {ω ι β : Type*} (covers : ω → ι → Prop) [∀ c p, Decidable (covers c p)] (value : ω → ι → β)

/-- The value of the first write that covers the place. -/
def first (log : List ω) (p : ι) : Option β :=
  (log.find? fun c => covers c p).map fun c => value c p

/-- The value of the last write that covers the place. -/
def last (log : List ω) (p : ι) : Option β := first covers value log.reverse p

variable {covers value} {log : List ω} {c : ω} {p : ι}

theorem first_eq_none_iff : first covers value log p = none ↔ ∀ c ∈ log, ¬ covers c p := by
  unfold first
  simp only [Option.map_eq_none_iff, List.find?_eq_none, decide_eq_true_eq]

theorem first_concat : first covers value (log ++ [c]) p =
    (first covers value log p).or (if covers c p then some (value c p) else none) := by
  unfold first
  by_cases hc : covers c p
  · simp [hc]
  · simp [hc]

theorem last_concat : last covers value (log ++ [c]) p =
    if covers c p then some (value c p) else last covers value log p := by
  unfold last first
  by_cases hc : covers c p
  · simp [hc]
  · simp [hc]
end WriteHistory
