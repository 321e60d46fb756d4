import Mathlib

/-!
# Bit fields as arithmetic

Masks, shifts and disjoint unions of bits of natural numbers, written with division, remainder and
addition.
-/

namespace NougatArt

theorem add_eq_or {t x k : ℕ} (hx : x < 2 ^ k) (ht : 2 ^ k ∣ t) : t ||| x = t + x := by
  obtain ⟨a, rfl⟩ := ht
  exact (Nat.two_pow_add_eq_or_of_lt hx a).symm

theorem and_two_pow_eq_zero (n i : ℕ) : n &&& 2 ^ i = 0 ↔ n / 2 ^ i % 2 = 0 := by
  rw [Nat.and_two_pow, Nat.testBit_eq_decide_div_mod_eq]
  rcases Nat.mod_two_eq_zero_or_one (n / 2 ^ i) with h | h <;> simp [h]

end NougatArt
