import Afterburner.Wedge.Lapic

/-!
# The highest vector of a register

`msb_rr` tests the lowest word of a register and then takes the highest bit of `raw[rr_sel]`, a byte
offset used as an index of words.
-/

namespace Wedge
open Bits

def bsr (undef : ℕ) (w : Word) : ℕ := if w = 0#32 then undef else msb w

namespace Lapic

def above (l : Lapic) (r : RrSel) : ℕ → ℕ → ℕ
  | 0, below => below
  | k + 1, below => l.msbRrWord r (16 * (k + 1)) (32 * (k + 1)) (l.above r k below)

def msbRrOn (undef : ℕ) (l : Lapic) (r : RrSel) : ℕ :=
  l.above r 7 (if l.raw (soToRaw r 0) ≠ 0#32 then bsr undef (l.raw r.base) else 0)

/-- The search of `Lapic` is one of these: what `bsr` leaves for zero is the highest bit of zero. -/
theorem msbRr_eq_msbRrOn (l : Lapic) (r : RrSel) : l.msbRr r = l.msbRrOn (msb 0#32) r := by
  have hbsr (w : Word) : bsr (msb 0#32) w = msb w := by
    rw [bsr]
    split_ifs with hw
    · rw [hw]
    · rfl
  rw [msbRrOn, hbsr]
  rfl

def IsHighest (l : Lapic) (r : RrSel) (v : ℕ) : Prop :=
  Bits.IsTop (fun u => l.testRr r u = true) 256 v

variable {l : Lapic} {r : RrSel}

theorem raw_soToRaw_eq_zero_iff (k : ℕ) :
    l.raw (soToRaw r (16 * k)) = 0#32 ↔ ∀ i < 32, l.testRr r (32 * k + i) = false := by
  rw [eq_zero_iff]
  constructor
  · intro h i hi
    rw [testRr_eq_getLsbD l r k hi]
    exact h i
  · intro h i
    by_cases hi : i < 32
    · rw [← testRr_eq_getLsbD l r k hi]
      exact h i hi
    · exact BitVec.getLsbD_of_ge _ _ (not_lt.1 hi)

theorem above_cases (l : Lapic) (r : RrSel) (k : ℕ) :
    (∀ v, 32 ≤ v → v < 32 * (k + 1) → l.testRr r v = false) ∧ (∀ b, l.above r k b = b) ∨
      (∃ v, 32 ≤ v ∧ v < 32 * (k + 1) ∧ l.testRr r v = true) ∧
        ∀ b b', l.above r k b = l.above r k b' := by
  induction k with
  | zero => exact .inl ⟨fun v hv hv' => absurd hv' (by omega), fun _ => rfl⟩
  | succ k ih =>
    by_cases hword : l.raw (soToRaw r (16 * (k + 1))) = 0#32
    · have habove : ∀ b, l.above r (k + 1) b = l.above r k b := fun b => by
        rw [above, msbRrWord, if_neg (not_not.2 hword)]
      simp only [habove]
      rcases ih with ⟨hnone, hpass⟩ | ⟨⟨v, hv, hv', htest⟩, hsame⟩
      · refine .inl ⟨fun v hv hv' => ?_, hpass⟩
        by_cases hlow : v < 32 * (k + 1)
        · exact hnone v hv hlow
        · obtain ⟨i, rfl⟩ := Nat.exists_eq_add_of_le (not_lt.1 hlow)
          exact (raw_soToRaw_eq_zero_iff (k + 1)).1 hword i (by omega)
      · exact .inr ⟨⟨v, hv, by omega, htest⟩, hsame⟩
    · obtain ⟨i, hi, htest⟩ : ∃ i < 32, l.testRr r (32 * (k + 1) + i) = true := by
        by_contra hnone
        refine hword ((raw_soToRaw_eq_zero_iff (k + 1)).2 fun i hi => ?_)
        exact Bool.eq_false_of_not_eq_true fun h => hnone ⟨i, hi, h⟩
      refine .inr ⟨⟨32 * (k + 1) + i, by omega, by omega, htest⟩, fun b b' => ?_⟩
      rw [above, above, msbRrWord, msbRrWord, if_pos hword, if_pos hword]

theorem isTop_above {b : ℕ} (h : Bits.IsTop (fun u => l.testRr r u = true) 32 b) (k : ℕ) :
    Bits.IsTop (fun u => l.testRr r u = true) (32 * (k + 1)) (l.above r k b) := by
  induction k with
  | zero => exact h
  | succ k ih => exact isTop_msbRrWord l r (k + 1) ih

theorem isTop_lowest (l : Lapic) (r : RrSel) :
    Bits.IsTop (fun u => l.testRr r u = true) 32
      (if l.raw (soToRaw r 0) ≠ 0#32 then msb (l.raw (soToRaw r 0)) else 0) :=
  isTop_msbRrWord l r 0 (Bits.IsTop.of_none fun _ hi => absurd hi (Nat.not_lt_zero _))

/-- **When `msb_rr` finds the highest vector**, whatever `bsr` leaves for zero: exactly when there
is one from 32 on, or none below 32, or `raw[rr_sel]` has the highest bit of the lowest word. -/
theorem highest_iff (l : Lapic) (r : RrSel) :
    (∀ undef, l.IsHighest r (l.msbRrOn undef r)) ↔
      (∃ v, 32 ≤ v ∧ v < 256 ∧ l.testRr r v = true) ∨ (∀ v < 32, l.testRr r v = false) ∨
        l.raw r.base ≠ 0#32 ∧ msb (l.raw r.base) = msb (l.raw (soToRaw r 0)) := by
  have hright := isTop_above (isTop_lowest l r) 7
  have hlow := raw_soToRaw_eq_zero_iff (l := l) (r := r) 0
  simp only [Nat.mul_zero, Nat.zero_add] at hlow
  rcases above_cases l r 7 with ⟨hnone, hpass⟩ | ⟨hexists, hsame⟩
  · have hno : ¬ ∃ v, 32 ≤ v ∧ v < 256 ∧ l.testRr r v = true := by
      rintro ⟨v, hv, hv', htest⟩
      rw [hnone v hv hv'] at htest
      cases htest
    simp only [msbRrOn, hpass, hno, false_or] at hright ⊢
    rw [← hlow]
    by_cases hzero : l.raw (soToRaw r 0) = 0#32
    · simp only [ne_eq, hzero, not_true_eq_false, if_false] at hright ⊢
      exact iff_of_true (fun _ => hright) (.inl trivial)
    · simp only [ne_eq, hzero, not_false_eq_true, if_true, false_or] at hright ⊢
      constructor
      · intro h
        have heq : ∀ undef, bsr undef (l.raw r.base) = msb (l.raw (soToRaw r 0)) :=
          fun undef => (h undef).unique hright
        by_cases hbase : l.raw r.base = 0#32
        · -- an undefined result cannot be right whatever it is
          have hwrong := heq (msb (l.raw (soToRaw r 0)) + 1)
          rw [bsr, if_pos hbase] at hwrong
          omega
        · refine ⟨hbase, ?_⟩
          have hbsr := heq 0
          rwa [bsr, if_neg hbase] at hbsr
      · rintro ⟨hbase, heq⟩ undef
        rw [bsr, if_neg hbase, heq]
        exact hright
  · refine iff_of_true (fun undef => ?_) (.inl hexists)
    rw [msbRrOn, hsame _ _]
    exact hright

def lowRequest : Lapic := ((init 0 true).setIoapic 128 0xfec00000).bitSetRr 16 .irr

theorem not_highest_lowRequest :
    lowRequest.testRr .irr 16 = true ∧ (∀ undef, lowRequest.msbRrOn undef .irr = 31) ∧
      ¬ ∀ undef, lowRequest.IsHighest .irr (lowRequest.msbRrOn undef .irr) := by
  have hsearch : ∀ undef, lowRequest.msbRrOn undef .irr = 31 := fun _ => rfl
  refine ⟨by decide, hsearch, fun h => ?_⟩
  have hmem := (h 0).mem (by rw [hsearch]; decide)
  exact absurd hmem.2 (by decide)

end Lapic
end Wedge
