import Afterburner.Wedge.Aftertime

/-!
# The registers of the real time clock

`rtc_t::do_update` narrows the date to bytes and computes the day of the week from them; the
registers are read as BCD.
-/

namespace Aftertime
open Gregorian BitVec

abbrev Byte := BitVec 8

def dayOfWeek (year month day : Word) : Word :=
  let a := (14 - month) / 12
  let y := year - a
  let m := month + 12 * a - 2
  (day + y + y / 4 - y / 100 + y / 400 + 31 * m / 12) % 7

def binToBcd (bin : Byte) : Byte := (bin / 10) <<< 4 ||| bin % 10

structure RtcT where
  seconds : Byte
  minutes : Byte
  hours : Byte
  weekDay : Byte
  day : Byte
  month : Byte
  year : Byte
  deriving DecidableEq, Repr

def RtcT.doUpdate (unixSeconds : Word) : RtcT :=
  let g := unixToGregorian unixSeconds
  let year : Byte := g.year.setWidth 8
  let month : Byte := g.month.setWidth 8
  let day : Byte := g.day.setWidth 8
  { seconds := g.seconds.setWidth 8
    minutes := g.minutes.setWidth 8
    hours := g.hours.setWidth 8
    weekDay := (dayOfWeek (year.setWidth 32) (month.setWidth 32) (day.setWidth 32)).setWidth 8
    day := day
    month := month
    year := year }

inductive Cmos
  | seconds
  | minutes
  | hours
  | weekDay
  | day
  | month
  | year
  deriving DecidableEq, Repr

def RtcT.read (rtc : RtcT) (unixSeconds : Word) : Cmos → Byte × RtcT
  | .seconds => (binToBcd (doUpdate unixSeconds).seconds, doUpdate unixSeconds)
  | .minutes => (binToBcd rtc.minutes, rtc)
  | .hours => (binToBcd rtc.hours, rtc)
  | .weekDay => (binToBcd rtc.weekDay, rtc)
  | .day => (binToBcd rtc.day, rtc)
  | .month => (binToBcd rtc.month, rtc)
  | .year => (binToBcd rtc.year, rtc)

def RtcT.readAll (rtc : RtcT) (t later : Word) (r : Cmos) : Byte :=
  let (seconds, rtc) := rtc.read t .seconds
  if r = .seconds then seconds else (rtc.read later r).1

def bcd (n : ℕ) : ℕ := 16 * (n / 10) + n % 10
def weekday (d : Date) : ℕ := (d.number + 6) % 7

def documented (g : GregorianTime) : Cmos → ℕ
  | .seconds => bcd g.seconds.toNat
  | .minutes => bcd g.minutes.toNat
  | .hours => bcd g.hours.toNat
  | .weekDay => weekday g.date + 1
  | .day => bcd g.day.toNat
  | .month => bcd g.month.toNat
  | .year => bcd (g.year.toNat % 100)

theorem binToBcd_of_lt : ∀ b : Byte, b.toNat < 100 → (binToBcd b).toNat = bcd b.toNat := by
  decide +kernel

theorem binToBcd_mod : ∀ b : Byte, (binToBcd b).toNat % 16 = b.toNat % 10 := by
  decide +kernel

theorem binToBcd_setWidth {x : Word} (hx : x.toNat < 100) :
    (binToBcd (x.setWidth 8)).toNat = bcd x.toNat := by
  have hwidth : (x.setWidth 8 : Byte).toNat = x.toNat := by
    rw [toNat_setWidth]
    omega
  rw [binToBcd_of_lt _ (by omega), hwidth]

def weekdayFormula (y m day : ℕ) : ℕ :=
  (day + y + y / 4 + y / 400 + 31 * m / 12 + 6 * (y / 100)) % 7

theorem weekday_ofMarch (y : ℕ) {m day : ℕ} (hm : 1 ≤ m) (hm' : m ≤ 12) (hday : 1 ≤ day) :
    weekday (Date.ofMarch y (m - 1) day) = weekdayFormula y m day := by
  rw [weekday, Date.number_ofMarch _ _ (by omega), weekdayFormula, marchDay]
  interval_cases m <;> simp only [marchMonth, Nat.reduceSub] <;> omega

theorem Date.eq_ofMarch (d : Date) (hyear : 1 ≤ d.year) (hm : 1 ≤ d.month) (hm' : d.month ≤ 12) :
    d = Date.ofMarch (d.year - (14 - d.month) / 12) (d.month + 12 * ((14 - d.month) / 12) - 2 - 1)
      d.day := by
  obtain ⟨y, m, day⟩ := d
  dsimp only at *
  unfold Date.ofMarch
  interval_cases m <;> simp <;> omega

theorem toNat_sum {y m day : Word} (hm : m.toNat ≤ 12) (hday : day.toNat ≤ 31)
    (hy : y.toNat < 2 ^ 16) :
    (day + y + y / 4 - y / 100 + y / 400 + 31 * m / 12).toNat =
      day.toNat + y.toNat + y.toNat / 4 - y.toNat / 100 + y.toNat / 400 + 31 * m.toNat / 12 := by
  have hmonth : (31 * m / 12).toNat = 31 * m.toNat / 12 :=
    toNat_mul_div 31 12 m (by show 31 * m.toNat < _; omega)
  have h4 : (y / 4).toNat = y.toNat / 4 := toNat_udiv
  have h100 : (y / 100).toNat = y.toNat / 100 := toNat_udiv
  have h400 : (y / 400).toNat = y.toNat / 400 := toNat_udiv
  have hstart : (day + y + y / 4).toNat = day.toNat + y.toNat + y.toNat / 4 := by
    have hfirst := toNat_add_of_lt day y (by omega)
    rw [toNat_add_of_lt _ _ (by omega), hfirst, h4]
  have hsub : (day + y + y / 4 - y / 100).toNat =
      day.toNat + y.toNat + y.toNat / 4 - y.toNat / 100 := by
    rw [toNat_sub_of_le (by rw [le_def]; omega), hstart, h100]
  have hadd : (day + y + y / 4 - y / 100 + y / 400).toNat =
      day.toNat + y.toNat + y.toNat / 4 - y.toNat / 100 + y.toNat / 400 := by
    rw [toNat_add_of_lt _ _ (by omega), hsub, h400]
  rw [toNat_add_of_lt _ _ (by omega), hadd, hmonth]

theorem toNat_dayOfWeek {y m day : Word} (hm : 1 ≤ m.toNat) (hm' : m.toNat ≤ 12)
    (hday : day.toNat ≤ 31) (hy : (14 - m.toNat) / 12 ≤ y.toNat) (hy' : y.toNat < 2 ^ 16) :
    (dayOfWeek y m day).toNat = weekdayFormula (y.toNat - (14 - m.toNat) / 12)
      (m.toNat + 12 * ((14 - m.toNat) / 12) - 2) day.toNat := by
  have ha : ((14 - m) / 12).toNat = (14 - m.toNat) / 12 := by
    rw [toNat_udiv, toNat_sub_of_le (by rw [le_def]; show m.toNat ≤ 14; omega)]
    rfl
  have hyear : (y - (14 - m) / 12).toNat = y.toNat - (14 - m.toNat) / 12 := by
    rw [toNat_sub_of_le (by rw [le_def, ha]; exact hy), ha]
  have hmonth : (m + 12 * ((14 - m) / 12) - 2).toNat =
      m.toNat + 12 * ((14 - m.toNat) / 12) - 2 := by
    have hmul : (12 * ((14 - m) / 12)).toNat = 12 * ((14 - m.toNat) / 12) := by
      rw [toNat_mul, ha]
      exact Nat.mod_eq_of_lt (by show 12 * _ < _; omega)
    have hadd := toNat_add_of_lt m (12 * ((14 - m) / 12)) (by omega)
    rw [toNat_sub_of_le (by rw [le_def, hadd]; show 2 ≤ _; omega), hadd, hmul]
    rfl
  have hsum := toNat_sum (m := m + 12 * ((14 - m) / 12) - 2) (by omega) hday
    (show (y - (14 - m) / 12).toNat < 2 ^ 16 by omega)
  unfold dayOfWeek weekdayFormula
  dsimp only
  rw [toNat_umod, hsum, hyear, hmonth]
  show _ % 7 = _
  omega

theorem toNat_dayOfWeek_zero : ∀ m < 3, ∀ day < 32, 1 ≤ m →
    (dayOfWeek 0 (BitVec.ofNat 32 m) (BitVec.ofNat 32 day)).toNat =
      weekdayFormula 2047 (m + 10) day := by
  decide +kernel

theorem monthLength_le (y m : ℕ) : monthLength y m ≤ 31 := by
  unfold monthLength
  split <;> try split_ifs
  all_goals omega

theorem daysBeforeMonth_le (y m : ℕ) : daysBeforeMonth y m ≤ 31 * m := by
  induction m with
  | zero => exact le_rfl
  | succ m ih =>
    have := monthLength_le y m
    rw [daysBeforeMonth]
    omega

theorem year_bounds (t : Word) :
    1969 ≤ (unixToGregorian t).date.year ∧ (unixToGregorian t).date.year ≤ 2106 := by
  obtain ⟨hvalid, hnumber⟩ := date_spec t
  have hday := hvalid.day_le.trans (monthLength_le _ _)
  have hmonth := hvalid.month_le
  have hbefore := daysBeforeMonth_le (unixToGregorian t).date.year (unixToGregorian t).date.month
  have hyears := daysBeforeYear_eq (unixToGregorian t).date.year
  rw [Date.number] at hnumber
  omega

theorem toNat_widen (x : Word) :
    ((x.setWidth 8 : Byte).setWidth 32 : Word).toNat = x.toNat % 256 := by
  rw [toNat_setWidth, toNat_setWidth]
  omega

theorem lastDigit_narrow_ne {y : ℕ} (hy : 1969 ≤ y) (hy' : y ≤ 2106) : y % 10 ≠ y % 256 % 10 := by
  omega

theorem weekdayFormula_narrow_ne {y a m day : ℕ} (hy : 1969 ≤ y) (hy' : y ≤ 2106) (ha : a ≤ 1)
    (hle : a ≤ y % 256) :
    weekdayFormula (y % 256 - a) m day ≠ weekdayFormula (y - a) m day + 1 := by
  unfold weekdayFormula
  generalize 31 * m / 12 = k
  rcases Nat.lt_or_ge y 2048 with h | h
  · obtain ⟨z, hz, hz', hz''⟩ : ∃ z, y % 256 - a = z ∧ y - a = z + 1792 ∧ 176 ≤ z :=
      ⟨_, rfl, by omega, by omega⟩
    have h4 : (z + 1792) / 4 = z / 4 + 448 := by omega
    have h400 : z / 400 = 0 := by omega
    rw [hz, hz', h4, h400]
    -- the centuries of the two years change in 1992 and in 2000
    rcases Nat.lt_or_ge z 200 with h200 | h200
    · rw [show z / 100 = 1 by omega, show (z + 1792) / 100 = 19 by omega,
        show (z + 1792) / 400 = 4 by omega]
      omega
    · rw [show z / 100 = 2 by omega]
      rcases Nat.lt_or_ge z 208 with h208 | h208
      · rw [show (z + 1792) / 100 = 19 by omega, show (z + 1792) / 400 = 4 by omega]
        omega
      · rw [show (z + 1792) / 100 = 20 by omega, show (z + 1792) / 400 = 5 by omega]
        omega
  · obtain ⟨z, hz, hz', hz''⟩ : ∃ z, y % 256 - a = z ∧ y - a = z + 2048 ∧ z ≤ 58 :=
      ⟨_, rfl, by omega, by omega⟩
    have h4 : (z + 2048) / 4 = z / 4 + 512 := by omega
    rw [hz, hz', h4, show z / 400 = 0 by omega, show z / 100 = 0 by omega,
      show (z + 2048) / 400 = 5 by omega]
    rcases Nat.lt_or_ge z 52 with h52 | h52
    · rw [show (z + 2048) / 100 = 20 by omega]
      omega
    · rw [show (z + 2048) / 100 = 21 by omega]
      omega

theorem dayOfWeek_narrow_ne (t : Word) :
    (RtcT.doUpdate t).weekDay.toNat < 7 ∧
      (RtcT.doUpdate t).weekDay.toNat ≠ weekday (unixToGregorian t).date + 1 := by
  obtain ⟨⟨hm, hm', hday, hle⟩, -⟩ := date_spec t
  obtain ⟨hfrom, hto⟩ := year_bounds t
  have hday' := hle.trans (monthLength_le _ _)
  have hdate := Date.eq_ofMarch (unixToGregorian t).date (by omega) hm hm'
  rw [hdate, weekday_ofMarch _ (by omega) (by omega) hday]
  simp only [GregorianTime.date, dateOf] at hm hm' hday hday' hfrom hto ⊢
  have hy := toNat_widen (unixToGregorian t).year
  have hmonth := toNat_widen (unixToGregorian t).month
  have hd := toNat_widen (unixToGregorian t).day
  rw [Nat.mod_eq_of_lt (by omega)] at hmonth hd
  have hlast : (RtcT.doUpdate t).weekDay.toNat =
      (dayOfWeek (((unixToGregorian t).year.setWidth 8 : Byte).setWidth 32)
        (((unixToGregorian t).month.setWidth 8 : Byte).setWidth 32)
        (((unixToGregorian t).day.setWidth 8 : Byte).setWidth 32)).toNat % 256 := by
    simp only [RtcT.doUpdate, toNat_setWidth, Nat.reducePow]
  have hlt (y m d : ℕ) : weekdayFormula y m d < 7 := Nat.mod_lt _ (by decide)
  rw [hlast]
  by_cases ha : (14 - (unixToGregorian t).month.toNat) / 12 ≤ (unixToGregorian t).year.toNat % 256
  · rw [toNat_dayOfWeek (by omega) (by omega) (by omega) (by omega) (by omega), hy, hmonth, hd,
      Nat.mod_eq_of_lt ((hlt _ _ _).trans (by decide))]
    exact ⟨hlt _ _ _, weekdayFormula_narrow_ne hfrom hto (by omega) ha⟩
  · -- January and February of 2048
    have hyear : (unixToGregorian t).year.toNat = 2048 := by omega
    have hzero := toNat_dayOfWeek_zero (unixToGregorian t).month.toNat (by omega)
      (unixToGregorian t).day.toNat (by omega) hm
    rw [show (((unixToGregorian t).year.setWidth 8 : Byte).setWidth 32 : Word) = 0 from
        eq_of_toNat_eq (by rw [hy, hyear]; rfl),
      show (((unixToGregorian t).month.setWidth 8 : Byte).setWidth 32 : Word) =
        BitVec.ofNat 32 (unixToGregorian t).month.toNat from
        eq_of_toNat_eq (by rw [hmonth, ofNat_toNat, setWidth_eq]),
      show (((unixToGregorian t).day.setWidth 8 : Byte).setWidth 32 : Word) =
        BitVec.ofNat 32 (unixToGregorian t).day.toNat from
        eq_of_toNat_eq (by rw [hd, ofNat_toNat, setWidth_eq]),
      hzero, Nat.mod_eq_of_lt ((hlt _ _ _).trans (by decide)), hyear]
    rw [show 2048 - (14 - (unixToGregorian t).month.toNat) / 12 = 2047 by omega,
      show (unixToGregorian t).month.toNat +
        12 * ((14 - (unixToGregorian t).month.toNat) / 12) - 2 =
        (unixToGregorian t).month.toNat + 10 by omega]
    exact ⟨hlt _ _ _, (Nat.lt_succ_self _).ne⟩

/-- **The registers for the time, the day and the month show what the register table documents;
those for the day of the week and for the year never do.** -/
theorem readAll_iff (rtc : RtcT) (t later : Word) (r : Cmos) :
    (rtc.readAll t later r).toNat = documented (unixToGregorian t) r ↔
      r ≠ .weekDay ∧ r ≠ .year := by
  obtain ⟨hh, hmin, hs, -⟩ := timeOfDay_spec t
  obtain ⟨⟨-, hm', -, hle⟩, -⟩ := date_spec t
  have hday' := hle.trans (monthLength_le _ _)
  simp only [GregorianTime.date, dateOf] at hm' hday'
  cases r <;>
    simp only [RtcT.readAll, RtcT.read, reduceCtorEq, if_true, if_false, documented, ne_eq,
      not_true_eq_false, not_false_eq_true, and_true, and_false, iff_true, iff_false]
  case seconds => exact binToBcd_setWidth (x := (unixToGregorian t).seconds) (by omega)
  case minutes => exact binToBcd_setWidth (x := (unixToGregorian t).minutes) (by omega)
  case hours => exact binToBcd_setWidth (x := (unixToGregorian t).hours) (by omega)
  case day => exact binToBcd_setWidth (x := (unixToGregorian t).day) (by omega)
  case month => exact binToBcd_setWidth (x := (unixToGregorian t).month) (by omega)
  case weekDay =>
    obtain ⟨hlt, hne⟩ := dayOfWeek_narrow_ne t
    rw [binToBcd_of_lt _ (by omega), bcd]
    omega
  case year =>
    obtain ⟨hfrom, hto⟩ := year_bounds t
    simp only [GregorianTime.date, dateOf] at hfrom hto
    have hdigit := binToBcd_mod (RtcT.doUpdate t).year
    have hnarrow : (RtcT.doUpdate t).year.toNat = (unixToGregorian t).year.toNat % 256 := by
      simp only [RtcT.doUpdate, toNat_setWidth, Nat.reducePow]
    have hlast (n : ℕ) : bcd (n % 100) % 16 = n % 10 := by
      unfold bcd
      omega
    intro hbcd
    rw [hbcd, hnarrow, hlast] at hdigit
    exact lastDigit_narrow_ne hfrom hto hdigit

theorem readAll_ne_documented :
    ∃ (rtc : RtcT) (t later : Word) (r : Cmos),
      (rtc.readAll t later r).toNat ≠ documented (unixToGregorian t) r :=
  ⟨RtcT.doUpdate 0, 43200, 43200, .year, by decide⟩

/-- **The day of the week of a Julian day** that a 32-bit Unix time reaches: `day_of_week` of its
date is the weekday that the number of the day gives, 0 for Sunday. -/
theorem dayOfWeek_julianDayToGregorian (t : Word) :
    let jd : Word := (t + 12 * 3600) / (24 * 3600) + 2440587
    let (year, month, day) := julianDayToGregorian jd
    (dayOfWeek year month day).toNat = (jd.toNat + 1) % 7 := by
  intro jd
  obtain ⟨⟨hm, hm', hday, hle⟩, hnumber⟩ := date_spec t
  obtain ⟨hfrom, hto⟩ := year_bounds t
  have hday' := hle.trans (monthLength_le _ _)
  have hweekday : weekday (unixToGregorian t).date = (jd.toNat + 1) % 7 := by
    rw [weekday, toNat_julianDay]
    omega
  rcases hg : julianDayToGregorian jd with ⟨year, month, day⟩
  have hdate : (unixToGregorian t).date = ⟨year.toNat, month.toNat, day.toNat⟩ := by
    show dateOf (julianDayToGregorian jd) = _
    rw [hg, dateOf]
  rw [hdate] at hm hm' hday hday' hfrom hto
  dsimp only at hm hm' hday hday' hfrom hto ⊢
  rw [← hweekday, hdate,
    Date.eq_ofMarch ⟨year.toNat, month.toNat, day.toNat⟩ (by show 1 ≤ year.toNat; omega) hm hm',
    weekday_ofMarch _ (by dsimp only; omega) (by dsimp only; omega) hday]
  exact toNat_dayOfWeek hm hm' hday' (by omega) (by omega)

end Aftertime
