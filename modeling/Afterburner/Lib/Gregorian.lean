import Mathlib.Tactic

/-!
# The Gregorian calendar

The proleptic Gregorian calendar from the year 0 on, and the number of a day in it.
-/

namespace Gregorian

def IsLeap (y : ℕ) : Prop := y % 4 = 0 ∧ (y % 100 ≠ 0 ∨ y % 400 = 0)
instance (y : ℕ) : Decidable (IsLeap y) := inferInstanceAs (Decidable (_ ∧ _))
def yearLength (y : ℕ) : ℕ := if IsLeap y then 366 else 365

def monthLength (y : ℕ) : ℕ → ℕ
  | 2 => if IsLeap y then 29 else 28
  | 4 | 6 | 9 | 11 => 30
  | 1 | 3 | 5 | 7 | 8 | 10 | 12 => 31
  | _ => 0

structure Date where
  year : ℕ
  month : ℕ
  day : ℕ
  deriving DecidableEq, Repr

structure Date.Valid (d : Date) : Prop where
  month_pos : 1 ≤ d.month
  month_le : d.month ≤ 12
  day_pos : 1 ≤ d.day
  day_le : d.day ≤ monthLength d.year d.month

def daysBeforeYear : ℕ → ℕ
  | 0 => 0
  | y + 1 => daysBeforeYear y + yearLength y

def daysBeforeMonth (y : ℕ) : ℕ → ℕ
  | 0 => 0
  | m + 1 => daysBeforeMonth y m + monthLength y m

def Date.number (d : Date) : ℕ :=
  daysBeforeYear d.year + daysBeforeMonth d.year d.month + (d.day - 1)

def Date.daysSince (epoch d : Date) : ℤ := (d.number : ℤ) - epoch.number

variable (y : ℕ)

theorem leap_add :
    (if IsLeap y then 1 else 0) + (if y % 100 = 0 then 1 else 0) =
      (if y % 4 = 0 then 1 else 0) + if y % 400 = 0 then 1 else 0 := by
  unfold IsLeap
  by_cases h₁ : y % 4 = 0 <;> by_cases h₂ : y % 100 = 0 <;> by_cases h₃ : y % 400 = 0 <;>
    simp [h₁, h₂, h₃] <;> omega

theorem yearLength_eq : yearLength y = 365 + if IsLeap y then 1 else 0 := by
  rw [yearLength]
  split_ifs <;> rfl

theorem daysBeforeYear_eq :
    daysBeforeYear y + (y + 99) / 100 = 365 * y + (y + 3) / 4 + (y + 399) / 400 := by
  induction y with
  | zero => rfl
  | succ y ih =>
    have h4 : (y + 1 + 3) / 4 = (y + 3) / 4 + if y % 4 = 0 then 1 else 0 := by
      split_ifs <;> omega
    have h100 : (y + 1 + 99) / 100 = (y + 99) / 100 + if y % 100 = 0 then 1 else 0 := by
      split_ifs <;> omega
    have h400 : (y + 1 + 399) / 400 = (y + 399) / 400 + if y % 400 = 0 then 1 else 0 := by
      split_ifs <;> omega
    have hleap := leap_add y
    rw [daysBeforeYear, yearLength_eq, h4, h100, h400]
    linarith

def marchDay (y : ℕ) : ℕ := 365 * y + y / 4 + y / 400 - y / 100

def marchMonth : ℕ → ℕ
  | 0 => 0 | 1 => 31 | 2 => 61 | 3 => 92 | 4 => 122 | 5 => 153 | 6 => 184 | 7 => 214 | 8 => 245
  | 9 => 275 | 10 => 306 | _ => 337

def Date.ofMarch (y k day : ℕ) : Date :=
  if k < 10 then ⟨y, k + 3, day⟩ else ⟨y + 1, k - 9, day⟩

theorem daysBeforeYear_march :
    daysBeforeYear y + 59 + (if IsLeap y then 1 else 0) = marchDay y + 60 := by
  have h := daysBeforeYear_eq y
  have hleap := leap_add y
  have h4 : (y + 3) / 4 + (if y % 4 = 0 then 1 else 0) = y / 4 + 1 := by split_ifs <;> omega
  have h100 : (y + 99) / 100 + (if y % 100 = 0 then 1 else 0) = y / 100 + 1 := by
    split_ifs <;> omega
  have h400 : (y + 399) / 400 + (if y % 400 = 0 then 1 else 0) = y / 400 + 1 := by
    split_ifs <;> omega
  have hmarch : marchDay y + y / 100 = 365 * y + y / 4 + y / 400 := by
    have hle : y / 100 ≤ 365 * y :=
      (Nat.div_le_self y 100).trans (Nat.le_mul_of_pos_left y (by decide))
    unfold marchDay
    omega
  linarith

theorem daysBeforeYear_succ_march : daysBeforeYear (y + 1) = marchDay y + 366 := by
  have h := daysBeforeYear_march y
  rw [daysBeforeYear, yearLength]
  by_cases hleap : IsLeap y
  · rw [if_pos hleap] at h ⊢
    omega
  · rw [if_neg hleap] at h ⊢
    omega

theorem Date.number_ofMarch (day : ℕ) {k : ℕ} (hk : k < 12) :
    (ofMarch y k day).number = marchDay y + 60 + marchMonth k + (day - 1) := by
  have h := daysBeforeYear_march y
  have h' := daysBeforeYear_succ_march y
  interval_cases k <;>
    simp only [ofMarch, Date.number, daysBeforeMonth, monthLength, marchMonth, Nat.reduceLT,
      if_true,
      if_false, Nat.reduceAdd, Nat.reduceSub] <;>
    split_ifs at h ⊢ <;> omega

theorem marchMonth_succ (day : ℕ) {k : ℕ} (hk : k < 11) :
    marchMonth (k + 1) = marchMonth k + monthLength (Date.ofMarch y k day).year
      (Date.ofMarch y k day).month := by
  interval_cases k <;> rfl

theorem Date.valid_ofMarch {y k day : ℕ} (hk : k < 12) (hpos : 1 ≤ day)
    (hle : k < 11 → marchMonth k + day ≤ marchMonth (k + 1))
    (hfebruary : k = 11 → day ≤ monthLength (y + 1) 2) : (ofMarch y k day).Valid := by
  have hmonth : 1 ≤ (ofMarch y k day).month ∧ (ofMarch y k day).month ≤ 12 := by
    rw [ofMarch]
    split_ifs <;> simp only <;> omega
  have hday : (ofMarch y k day).day = day := by
    rw [ofMarch]
    split_ifs <;> rfl
  refine ⟨hmonth.1, hmonth.2, hday.symm ▸ hpos, ?_⟩
  rw [hday]
  rcases Nat.lt_or_ge k 11 with h | h
  · have := hle h
    have := marchMonth_succ y day h
    omega
  · obtain rfl : k = 11 := by omega
    exact hfebruary rfl

theorem marchDay_century (n : ℕ) {i : ℕ} (hi : i < 100) :
    marchDay (100 * n + i) = 36524 * n + n / 4 + 365 * i + i / 4 := by
  unfold marchDay
  omega

end Gregorian
