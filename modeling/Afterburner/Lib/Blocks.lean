import Mathlib.Tactic

/-!
# Aligned blocks

`floor n a` is the start of the block of size `n` that contains `a`.
-/

namespace Blocks
open BitVec

def floor (n a : ℕ) : ℕ := a / n * n

variable {n a b len : ℕ}

theorem dvd_floor (n a : ℕ) : n ∣ floor n a := Dvd.intro_left _ rfl
theorem floor_le (n a : ℕ) : floor n a ≤ a := Nat.div_mul_le_self a n
theorem lt_floor_add (hn : 0 < n) (a : ℕ) : a < floor n a + n := Nat.lt_div_mul_add hn
theorem floor_of_dvd (h : n ∣ a) : floor n a = a := Nat.div_mul_cancel h

theorem floor_add_of_dvd (hn : 0 < n) (h : n ∣ a) (b : ℕ) : floor n (b + a) = floor n b + a := by
  obtain ⟨k, rfl⟩ := h
  simp only [floor]
  rw [Nat.add_mul_div_left b k hn]
  ring

theorem toNat_and_not {w : ℕ} (k : ℕ) (x : BitVec w) :
    (x &&& ~~~ BitVec.ofNat w (2 ^ k - 1)).toNat = floor (2 ^ k) x.toNat := by
  apply Nat.eq_of_testBit_eq
  intro i
  rw [testBit_toNat, getLsbD_and, getLsbD_not, getLsbD_ofNat, floor,
    Nat.testBit_mul_two_pow, Nat.testBit_div_two_pow, Nat.testBit_two_pow_sub_one,
    testBit_toNat]
  by_cases hk : k ≤ i
  · rw [Nat.sub_add_cancel hk]
    by_cases hi : i < w
    · simp [hk, hi]
    · simp [getLsbD_of_ge x i (not_lt.1 hi)]
  · simp [hk, not_le.1 hk]

theorem add_le_of_dvd (ha : n ∣ a) (hb : n ∣ b) (h : a < b) : a + n ≤ b := by
  obtain ⟨k, rfl⟩ := ha
  obtain ⟨l, rfl⟩ := hb
  have hkl : k < l := lt_of_mul_lt_mul_left h (Nat.zero_le n)
  calc n * k + n = n * (k + 1) := by ring
    _ ≤ n * l := Nat.mul_le_mul_left n hkl

def Covers (b len start n : ℕ) : Prop := b ≤ start ∧ start + n ≤ b + len

instance (b len start n : ℕ) : Decidable (Covers b len start n) :=
  inferInstanceAs (Decidable (_ ∧ _))

theorem covers_floor_iff (hn : 0 < n) (ha : n ∣ a) (hlen : a + n ≤ len) :
    Covers b len (floor n (b + a)) n ↔ n ∣ b ∨ a ≠ 0 := by
  have hle := floor_le n b
  have hlt := lt_floor_add hn b
  rw [Covers, floor_add_of_dvd hn ha]
  constructor
  · rintro ⟨hb, -⟩
    by_contra hcon
    push Not at hcon
    obtain ⟨hndvd, rfl⟩ := hcon
    have hfb : floor n b = b := by omega
    exact hndvd (hfb ▸ dvd_floor n b)
  · rintro (hb | ha0)
    · rw [floor_of_dvd hb]
      omega
    · have := Nat.le_of_dvd (Nat.pos_of_ne_zero ha0) ha
      omega

end Blocks
