import Afterburner.Lib.Gregorian
import Mathlib.Data.BitVec

/-!
# The date of the real time clock

`unix_to_gregorian` computes the date by way of Julian days, with divisions that
`julianDayToGregorian_spec` proves right.
-/

namespace Aftertime
open Gregorian

abbrev Word := BitVec 32

def julianDayToGregorian (jd : Word) : Word × Word × Word :=
  let l := jd + 68569
  let n := 4 * l / 146097
  let l := l - (146097 * n + 3) / 4
  let i := 4000 * (l + 1) / 1461001
  let l := l - 1461 * i / 4 + 31
  let j := 80 * l / 2447
  let day := l - 2447 * j / 80
  let l := j / 11
  (100 * (n - 49) + i + l, j + 2 - 12 * l, day)

structure GregorianTime where
  year : Word
  month : Word
  day : Word
  hours : Word
  minutes : Word
  seconds : Word
  deriving DecidableEq, Repr

def unixToGregorian (unixSeconds : Word) : GregorianTime :=
  let jd := (unixSeconds + 12 * 3600) / (24 * 3600) + 2440587
  let (year, month, day) := julianDayToGregorian jd
  let seconds := unixSeconds % 60
  let unixSeconds := unixSeconds / 60
  let minutes := unixSeconds % 60
  let unixSeconds := unixSeconds / 60
  ⟨year, month, day, unixSeconds % 24, minutes, seconds⟩

def dateOf (d : Word × Word × Word) : Date := ⟨d.1.toNat, d.2.1.toNat, d.2.2.toNat⟩
def GregorianTime.date (g : GregorianTime) : Date := dateOf (g.year, g.month, g.day)
theorem days_of_centuries (n : ℕ) : (146097 * n + 3) / 4 = 36524 * n + (n + 3) / 4 := by omega
theorem days_of_years (i : ℕ) : 1461 * i / 4 = 365 * i + i / 4 := by omega

theorem century_spec {l n : ℕ} (hn : n = 4 * l / 146097) :
    36524 * n + (n + 3) / 4 ≤ l ∧
      l - (36524 * n + (n + 3) / 4) < 36524 + ((n + 4) / 4 - (n + 3) / 4) := by
  omega

theorem year_spec {l i : ℕ} (hl : l < 36525) (hi : i = 4000 * (l + 1) / 1461001) :
    i < 100 ∧ 365 * i + i / 4 ≤ l ∧ l < 365 * (i + 1) + (i + 1) / 4 := by
  omega

theorem month_spec (r : ℕ) (hr : r < 366) :
    let j := 80 * (r + 31) / 2447
    let day := r + 31 - 2447 * j / 80
    1 ≤ j ∧ j ≤ 12 ∧ 2447 * j / 80 ≤ r + 31 ∧ 1 ≤ day ∧ r + 1 = marchMonth (j - 1) + day ∧
      (j < 12 → r + 1 ≤ marchMonth j) := by
  revert r
  decide +kernel

theorem isLeap_century_iff {n i : ℕ} (hn : 49 ≤ n) (hi : i < 100) :
    IsLeap (100 * (n - 49) + i + 1) ↔ (i + 1) % 4 = 0 ∧ (i ≠ 99 ∨ n % 4 = 0) := by
  have hyear : (100 * (n - 49) + i + 1) % 4 = (i + 1) % 4 := by omega
  have hcent : (100 * (n - 49) + i + 1) % 100 = 0 ↔ i = 99 := by omega
  have hcycle : i = 99 → ((100 * (n - 49) + i + 1) % 400 = 0 ↔ n % 4 = 0) := by omega
  rw [IsLeap, hyear, Ne, hcent]
  by_cases h99 : i = 99
  · rw [hcycle h99]
  · exact and_congr_right fun _ => iff_of_true (.inl h99) (.inl h99)

theorem february_le {n l i day : ℕ} (hn : 49 ≤ n) (hi : i < 100)
    (hlt : l < 36524 + ((n + 4) / 4 - (n + 3) / 4)) (hto : l < 365 * (i + 1) + (i + 1) / 4)
    (hday : l + 1 = 365 * i + i / 4 + 337 + day) :
    day ≤ if IsLeap (100 * (n - 49) + i + 1) then 29 else 28 := by
  split_ifs with hleap
  · omega
  · rw [isLeap_century_iff hn hi, not_and_or, not_or, not_ne_iff] at hleap
    rcases hleap with hyear | ⟨rfl, hcycle⟩
    · omega
    · omega

theorem date_of_julian {jd n l i j day : ℕ} (hjd : 1721120 ≤ jd)
    (hn : n = 4 * (jd + 68569) / 146097)
    (hl : l = jd + 68569 - (146097 * n + 3) / 4) (hi : i = 4000 * (l + 1) / 1461001)
    (hj : j = 80 * (l - 1461 * i / 4 + 31) / 2447)
    (hday : day = l - 1461 * i / 4 + 31 - 2447 * j / 80) :
    49 ≤ n ∧ (Date.ofMarch (100 * (n - 49) + i) (j - 1) day).Valid ∧
      (Date.ofMarch (100 * (n - 49) + i) (j - 1) day).number + 1721060 = jd := by
  rw [days_of_centuries] at hl
  rw [days_of_years] at hj hday
  obtain ⟨hcentury, hlt⟩ := century_spec hn
  rw [← hl] at hlt
  obtain ⟨hi100, hfrom, hto⟩ := year_spec (by omega) hi
  generalize hr : l - (365 * i + i / 4) = r at hj hday
  have hn49 : 49 ≤ n := by omega
  obtain ⟨hj1, hj12, -, hday1, hsum, hend⟩ := month_spec r (by omega)
  rw [← hj, ← hday] at hday1 hsum
  rw [← hj] at hj1 hj12 hend
  refine ⟨hn49, Date.valid_ofMarch (by omega) hday1 (fun hk => ?_) (fun hk => ?_), ?_⟩
  · rw [show j - 1 + 1 = j by omega]
    omega
  · exact february_le hn49 hi100 hlt hto (by omega)
  · rw [Date.number_ofMarch _ _ (by omega), marchDay_century _ hi100]
    omega

section Words
variable (a b c x : Word)

theorem toNat_mul_div (h : a.toNat * x.toNat < 2 ^ 32) :
    (a * x / c).toNat = a.toNat * x.toNat / c.toNat := by
  rw [BitVec.toNat_udiv, BitVec.toNat_mul, Nat.mod_eq_of_lt h]

theorem toNat_mul_add_div (h : a.toNat * x.toNat + b.toNat < 2 ^ 32) :
    ((a * x + b) / c).toNat = (a.toNat * x.toNat + b.toNat) / c.toNat := by
  rw [BitVec.toNat_udiv, BitVec.toNat_add, BitVec.toNat_mul, Nat.mod_add_mod, Nat.mod_eq_of_lt h]

theorem toNat_add_of_lt (h : a.toNat + x.toNat < 2 ^ 32) : (a + x).toNat = a.toNat + x.toNat := by
  rw [BitVec.toNat_add, Nat.mod_eq_of_lt h]

end Words

theorem dateOf_eq_ofMarch {n i j : Word} (day : Word) (hn : 49 ≤ n.toNat) (hn' : n.toNat < 2 ^ 16)
    (hi : i.toNat < 100) (hj : 1 ≤ j.toNat) (hj' : j.toNat ≤ 12) :
    dateOf (100 * (n - 49) + i + j / 11, j + 2 - 12 * (j / 11), day) =
      Date.ofMarch (100 * (n.toNat - 49) + i.toNat) (j.toNat - 1) day.toNat := by
  have hq : (j / 11).toNat = j.toNat / 11 := BitVec.toNat_udiv
  have hsub : (n - 49).toNat = n.toNat - 49 := BitVec.toNat_sub_of_le hn
  have hyear : (100 * (n - 49) + i).toNat = 100 * (n.toNat - 49) + i.toNat := by
    have hmul : (100 * (n - 49)).toNat = 100 * (n.toNat - 49) := by
      rw [BitVec.toNat_mul, hsub]
      exact Nat.mod_eq_of_lt (by show 100 * (n.toNat - 49) < _; omega)
    rw [toNat_add_of_lt _ _ (by omega), hmul]
  have hmonth : (j + 2).toNat = j.toNat + 2 := toNat_add_of_lt j 2 (by show j.toNat + 2 < _; omega)
  rcases Nat.lt_or_ge j.toNat 11 with h | h
  · have hzero : j / 11 = 0 := BitVec.eq_of_toNat_eq (by rw [hq]; exact Nat.div_eq_of_lt h)
    rw [Date.ofMarch, if_pos (by omega), hzero, mul_zero, sub_zero, add_zero, dateOf,
      hyear, hmonth, show j.toNat - 1 + 3 = j.toNat + 2 by omega]
  · have hone : j / 11 = 1 := BitVec.eq_of_toNat_eq (by rw [hq]; show j.toNat / 11 = 1; omega)
    have hnext : (100 * (n - 49) + i + 1).toNat = 100 * (n.toNat - 49) + i.toNat + 1 := by
      rw [← hyear]
      exact toNat_add_of_lt _ 1 (by rw [hyear]; show _ + 1 < _; omega)
    have hback : (j + 2 - 12).toNat = j.toNat + 2 - 12 := by
      rw [← hmonth]
      exact BitVec.toNat_sub_of_le (by rw [BitVec.le_def, hmonth]; show 12 ≤ _; omega)
    rw [Date.ofMarch, if_neg (by omega), hone, mul_one, dateOf, hnext, hback,
      show j.toNat - 1 - 9 = j.toNat + 2 - 12 by omega]

/-- **The conversion of Julian days**, from the first of March of the year 0 on. -/
theorem julianDayToGregorian_spec {jd : Word} (hjd : 1721120 ≤ jd.toNat) (hlt : jd.toNat < 2 ^ 29) :
    (dateOf (julianDayToGregorian jd)).Valid ∧
      (dateOf (julianDayToGregorian jd)).number + 1721060 = jd.toNat := by
  generalize hl : jd + 68569 = l
  generalize hn : 4 * l / 146097 = n
  generalize hl₁ : l - (146097 * n + 3) / 4 = l₁
  generalize hi : 4000 * (l₁ + 1) / 1461001 = i
  generalize hl₂ : l₁ - 1461 * i / 4 + 31 = l₂
  generalize hj : 80 * l₂ / 2447 = j
  generalize hday : l₂ - 2447 * j / 80 = day
  have hdate :
      julianDayToGregorian jd = (100 * (n - 49) + i + j / 11, j + 2 - 12 * (j / 11), day) := by
    subst hday hj hl₂ hi hl₁ hn hl
    rfl
  -- no step overflows
  have hlN : l.toNat = jd.toNat + 68569 := by
    rw [← hl]
    exact toNat_add_of_lt jd 68569 (by show jd.toNat + 68569 < _; omega)
  have hnN : n.toNat = 4 * l.toNat / 146097 := by
    rw [← hn]
    exact toNat_mul_div 4 146097 l (by show 4 * l.toNat < _; omega)
  have hcN : ((146097 * n + 3) / 4).toNat = (146097 * n.toNat + 3) / 4 :=
    toNat_mul_add_div 146097 3 4 n (by show 146097 * n.toNat + 3 < _; omega)
  have hl₁N : l₁.toNat = l.toNat - (146097 * n.toNat + 3) / 4 := by
    rw [← hl₁, BitVec.toNat_sub_of_le (by rw [BitVec.le_def, hcN]; omega), hcN]
  rw [hlN] at hnN hl₁N
  have hl₁lt : l₁.toNat < 36525 := by omega
  have hiN : i.toNat = 4000 * (l₁.toNat + 1) / 1461001 := by
    have hsucc : (l₁ + 1).toNat = l₁.toNat + 1 :=
      toNat_add_of_lt l₁ 1 (by show l₁.toNat + 1 < _; omega)
    rw [← hi, ← hsucc]
    exact toNat_mul_div 4000 1461001 (l₁ + 1) (by rw [hsucc]; show 4000 * (l₁.toNat + 1) < _; omega)
  obtain ⟨hi100, hfrom, hto⟩ := year_spec hl₁lt hiN
  have hyN : (1461 * i / 4).toNat = 1461 * i.toNat / 4 :=
    toNat_mul_div 1461 4 i (by show 1461 * i.toNat < _; omega)
  have hl₂N : l₂.toNat = l₁.toNat - 1461 * i.toNat / 4 + 31 := by
    have hsub : (l₁ - 1461 * i / 4).toNat = l₁.toNat - 1461 * i.toNat / 4 := by
      rw [BitVec.toNat_sub_of_le (by rw [BitVec.le_def, hyN]; omega), hyN]
    rw [← hl₂, ← hsub]
    exact toNat_add_of_lt _ 31 (by rw [hsub]; show _ + 31 < _; omega)
  have hjN : j.toNat = 80 * l₂.toNat / 2447 := by
    rw [← hj]
    exact toNat_mul_div 80 2447 l₂ (by show 80 * l₂.toNat < _; omega)
  rw [hl₂N] at hjN
  obtain ⟨hj1, hj12, hle, -⟩ := month_spec (l₁.toNat - 1461 * i.toNat / 4) (by omega)
  rw [← hjN] at hj1 hj12 hle
  have hmN : (2447 * j / 80).toNat = 2447 * j.toNat / 80 :=
    toNat_mul_div 2447 80 j (by show 2447 * j.toNat < _; omega)
  have hdayN : day.toNat = l₂.toNat - 2447 * j.toNat / 80 := by
    rw [← hday, BitVec.toNat_sub_of_le (by rw [BitVec.le_def, hmN]; omega), hmN]
  rw [hl₂N] at hdayN
  obtain ⟨hn49, hvalid, hnumber⟩ := date_of_julian hjd hnN hl₁N hiN hjN hdayN
  have hofMarch : dateOf (julianDayToGregorian jd) =
      Date.ofMarch (100 * (n.toNat - 49) + i.toNat) (j.toNat - 1) day.toNat := by
    rw [hdate]
    exact dateOf_eq_ofMarch day hn49 (by omega) hi100 hj1 hj12
  rw [hofMarch]
  exact ⟨hvalid, hnumber⟩

def epoch : Date := ⟨1970, 1, 1⟩

structure GregorianTime.IsTime (g : GregorianTime) (t : ℕ) : Prop where
  date : g.date.Valid
  hours : g.hours.toNat < 24
  minutes : g.minutes.toNat < 60
  seconds : g.seconds.toNat < 60
  eq : epoch.daysSince g.date * 86400 + g.hours.toNat * 3600 + g.minutes.toNat * 60 +
    g.seconds.toNat =
    (t : ℤ)

theorem timeOfDay_spec (t : Word) :
    (unixToGregorian t).hours.toNat < 24 ∧ (unixToGregorian t).minutes.toNat < 60 ∧
      (unixToGregorian t).seconds.toNat < 60 ∧
      (unixToGregorian t).hours.toNat * 3600 + (unixToGregorian t).minutes.toNat * 60 +
        (unixToGregorian t).seconds.toNat = t.toNat % 86400 := by
  have hs : (unixToGregorian t).seconds.toNat = t.toNat % 60 := BitVec.toNat_umod
  have hm : (unixToGregorian t).minutes.toNat = t.toNat / 60 % 60 := by rfl
  have hh : (unixToGregorian t).hours.toNat = t.toNat / 60 / 60 % 24 := by rfl
  omega

theorem toNat_julianDay (t : Word) :
    ((t + 12 * 3600) / (24 * 3600) + 2440587).toNat =
      (t.toNat + 43200) % 2 ^ 32 / 86400 + 2440587 := by
  have hdiv : ((t + 12 * 3600) / (24 * 3600)).toNat = (t.toNat + 43200) % 2 ^ 32 / 86400 := by
    rw [BitVec.toNat_udiv, BitVec.toNat_add]
    rfl
  rw [← hdiv]
  exact toNat_add_of_lt _ 2440587 (by rw [hdiv]; show _ + 2440587 < _; omega)

theorem date_spec (t : Word) :
    (unixToGregorian t).date.Valid ∧
      (unixToGregorian t).date.number + 1721060 = (t.toNat + 43200) % 2 ^ 32 / 86400 + 2440587 := by
  have hjd := toNat_julianDay t
  obtain ⟨hvalid, hnumber⟩ := julianDayToGregorian_spec
    (show 1721120 ≤ ((t + 12 * 3600) / (24 * 3600) + 2440587).toNat by rw [hjd]; omega)
    (by rw [hjd]; omega)
  exact ⟨hvalid, hnumber.trans hjd⟩

theorem number_epoch : epoch.number + 1721060 = 2440588 := by
  have h := daysBeforeYear_eq 1970
  rw [Date.number, show daysBeforeMonth epoch.year epoch.month = 0 from rfl]
  simp only [epoch]
  generalize daysBeforeYear 1970 = days at h ⊢
  omega

/-- **The date and the time are right in the second half of a day**, as long as half a day more is
still a 32-bit time, and at no other time. -/
theorem unixToGregorian_isTime_iff (t : Word) :
    (unixToGregorian t).IsTime t.toNat ↔ 43200 ≤ t.toNat % 86400 ∧ t.toNat + 43200 < 2 ^ 32 := by
  obtain ⟨hh, hm, hs, htime⟩ := timeOfDay_spec t
  obtain ⟨hvalid, hnumber⟩ := date_spec t
  have hepoch := number_epoch
  constructor
  · intro h
    have heq := h.eq
    rw [Date.daysSince] at heq
    omega
  · rintro ⟨hnoon, hlt⟩
    refine ⟨hvalid, hh, hm, hs, ?_⟩
    rw [Date.daysSince]
    omega

theorem not_isTime_zero :
    (unixToGregorian 0).date = ⟨1969, 12, 31⟩ ∧ ¬ (unixToGregorian 0).IsTime 0 := by
  refine ⟨by decide, fun h => ?_⟩
  have heq := h.eq
  have hepoch := number_epoch
  obtain ⟨-, hnumber⟩ := date_spec 0
  obtain ⟨-, -, -, htime⟩ := timeOfDay_spec 0
  rw [show (0 : Word).toNat = 0 from rfl] at hnumber htime
  rw [Date.daysSince] at heq
  omega

end Aftertime
