import Mathlib

/-!
# Serial numbers

A serial number is a word of `w` bits that counts up and wraps around. Two of
them are compared by the sign of their difference, so the comparison means
something only as long as all numbers in play lie in one window of less than
half the number space. Inside such a window, fixed by its first number `o`,
every serial number has a *position*, a natural number, and the wrapped
operations are those of the positions.
-/

namespace Serial
variable {w : ℕ} {o a b : BitVec w}

/-- The distance of `a` from the start of the window. -/
def pos (o a : BitVec w) : ℕ := (a - o).toNat

theorem pos_inj : pos o a = pos o b ↔ a = b := by
  constructor
  · intro h
    have hsub : a - o = b - o := BitVec.eq_of_toNat_eq h
    rw [← BitVec.sub_add_cancel a o, hsub, BitVec.sub_add_cancel]
  · rintro rfl
    rfl

theorem sub_eq (o a b : BitVec w) : a - b = (a - o) - (b - o) := by
  ring

theorem pos_add {k : BitVec w} (h : pos o a + k.toNat < 2 ^ w) :
    pos o (a + k) = pos o a + k.toNat := by
  have hadd : a + k - o = (a - o) + k := by ring
  unfold pos at *
  rw [hadd, BitVec.toNat_add, Nat.mod_eq_of_lt h]

theorem toNat_sub (h : pos o b ≤ pos o a) : (a - b).toNat = pos o a - pos o b := by
  rw [sub_eq o a b]
  exact BitVec.toNat_sub_of_le h

/-- The numbers that follow `b` up to a distance `k` are the positions behind that of `b`. -/
theorem toNat_sub_lt_iff {k : ℕ} (h : pos o b + k ≤ 2 ^ w) :
    (a - b).toNat < k ↔ pos o b ≤ pos o a ∧ pos o a < pos o b + k := by
  by_cases hle : pos o b ≤ pos o a
  · rw [toNat_sub hle]
    omega
  · have hsub : (a - b).toNat = 2 ^ w - pos o b + pos o a := by
      rw [sub_eq o a b, BitVec.toNat_sub]
      exact Nat.mod_eq_of_lt (by unfold pos at *; omega)
    omega

theorem pos_origin_add {k : ℕ} (h : k < 2 ^ w) : pos o (o + BitVec.ofNat w k) = k := by
  unfold pos
  rw [show o + BitVec.ofNat w k - o = BitVec.ofNat w k by ring, BitVec.toNat_ofNat,
    Nat.mod_eq_of_lt h]

theorem toInt_sub (hw : 0 < w) (ha : pos o a < 2 ^ (w - 1)) (hb : pos o b < 2 ^ (w - 1)) :
    (a - b).toInt = (pos o a : ℤ) - pos o b := by
  have hpow : 2 ^ w = 2 * 2 ^ (w - 1) := by
    rw [← pow_succ', Nat.sub_add_cancel hw]
  have hbound : ∀ x : BitVec w, x.toNat < 2 ^ (w - 1) → x.toInt = x.toNat := by
    intro x hx
    exact BitVec.toInt_eq_toNat_of_lt (by omega)
  unfold pos at *
  rw [sub_eq o a b, BitVec.toInt_sub, hbound _ ha, hbound _ hb]
  apply Int.bmod_eq_of_le
  · omega
  · omega
end Serial
