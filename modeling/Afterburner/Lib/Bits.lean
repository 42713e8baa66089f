import Mathlib.Tactic
import Mathlib.Data.Nat.Find

/-!
# Words as sets of bits

A machine word is a `BitVec w`, read as the set of positions whose bit is one.
-/

namespace Bits
open Function List BitVec Nat
variable {w : ℕ}

def insert (x : BitVec w) (i : ℕ) : BitVec w := x ||| twoPow w i
def erase (x : BitVec w) (i : ℕ) : BitVec w := x &&& ~~~ twoPow w i

section
variable (x : BitVec w) (i j : ℕ)

@[simp] theorem getLsbD_insert :
    (insert x i).getLsbD j = (x.getLsbD j || (decide (i < w) && decide (i = j))) := by
  simp [insert, getLsbD_twoPow]

@[simp] theorem getLsbD_erase : (erase x i).getLsbD j = (x.getLsbD j && !decide (i = j)) := by
  by_cases hj : j < w
  · by_cases hij : i = j
    · subst hij; simp [erase, hj]
    · simp [erase, hj, hij, Ne.symm hij]
  · simp [getLsbD_of_ge _ _ (not_lt.1 hj)]

@[simp] theorem getElem_insert (hj : j < w) :
    (insert x i)[j] = (x[j] || (decide (i < w) && decide (i = j))) := by
  rw [← getLsbD_eq_getElem, getLsbD_insert, getLsbD_eq_getElem]

@[simp] theorem getElem_erase (hj : j < w) : (erase x i)[j] = (x[j] && !decide (i = j)) := by
  rw [← getLsbD_eq_getElem, getLsbD_erase, getLsbD_eq_getElem]

end

theorem ne_zero_iff (x : BitVec w) : x ≠ 0#w ↔ ∃ i, x.getLsbD i = true := by
  constructor
  · intro h
    by_contra hn
    push Not at hn
    exact h (eq_of_getLsbD_eq fun i _ => by simpa using hn i)
  · rintro ⟨i, hi⟩ rfl
    simp at hi

theorem eq_zero_iff (x : BitVec w) : x = 0#w ↔ ∀ i, x.getLsbD i = false := by
  constructor
  · rintro rfl i; simp
  · intro h
    exact eq_of_getLsbD_eq fun i _ => by simpa using h i

variable {x : BitVec w} {i : ℕ}

theorem lt_of_getLsbD (h : x.getLsbD i = true) : i < w := by
  by_contra hn
  simp [getLsbD_of_ge x i (not_lt.1 hn)] at h

variable {n : ℕ}

theorem toNat_one_shiftLeft (h : n < w) : (1#w <<< n).toNat = 2 ^ n := by
  have hw : 2 ^ n < 2 ^ w := Nat.pow_lt_pow_right (by decide) h
  have hone : (1#w).toNat = 1 := by
    rw [toNat_ofNat, Nat.mod_eq_of_lt (Nat.one_lt_two_pow (by omega))]
  rw [toNat_shiftLeft, hone, Nat.one_shiftLeft, Nat.mod_eq_of_lt hw]

theorem getLsbD_one_shiftLeft (n i : ℕ) :
    (1#w <<< n).getLsbD i = (decide (i < w) && decide (i = n)) := by
  rw [← twoPow_eq, getLsbD_twoPow]
  by_cases hin : i = n
  · subst hin; simp
  · simp [hin, Ne.symm hin]

theorem getLsbD_one_shiftLeft_sub_one (h : n < w) (i : ℕ) :
    (1#w <<< n - 1#w).getLsbD i = decide (i < n) := by
  have hpos : 1 ≤ 2 ^ n := Nat.one_le_two_pow
  have hone : (1#w).toNat = 1 := by
    rw [toNat_ofNat, Nat.mod_eq_of_lt (Nat.one_lt_two_pow (by omega))]
  have hle : 1#w ≤ 1#w <<< n := by rw [le_def, hone, toNat_one_shiftLeft h]; exact hpos
  rw [getLsbD, toNat_sub_of_le hle, hone, toNat_one_shiftLeft h,
    testBit_two_pow_sub_one]

theorem lt_one_shiftLeft (h : n < w) (hx : ∀ i, x.getLsbD i = true → i < n) : x < 1#w <<< n := by
  rw [lt_def, toNat_one_shiftLeft h]
  refine lt_pow_two_of_testBit _ fun i hi => ?_
  by_contra hne
  have := hx i (by simpa [getLsbD] using hne)
  omega

theorem insert_eq_iff (hi : i < w) : insert x i = x ↔ x.getLsbD i = true := by
  constructor
  · intro h
    rw [← h, getLsbD_insert, decide_eq_true hi, decide_eq_true rfl, Bool.and_true, Bool.or_true]
  · intro h
    apply eq_of_getLsbD_eq
    intro j _
    rw [getLsbD_insert]
    by_cases hj : i = j
    · subst hj
      rw [h, Bool.true_or]
    · rw [decide_eq_false hj, Bool.and_false, Bool.or_false]

theorem copy_and (x v : BitVec w) {m f : BitVec w} (h : m &&& f = f) :
    ((x &&& ~~~ m) ||| (v &&& m)) &&& f = v &&& f := by
  apply eq_of_getLsbD_eq
  intro i hi
  have hbit : (m.getLsbD i && f.getLsbD i) = f.getLsbD i := by rw [← getLsbD_and, h]
  simp only [getLsbD_and, getLsbD_or, getLsbD_not, hi, decide_true,
    Bool.true_and]
  revert hbit
  cases x.getLsbD i <;> cases v.getLsbD i <;> cases m.getLsbD i <;> cases f.getLsbD i <;> simp

theorem merge_eq_iff (m x y z : BitVec w) :
    (x &&& ~~~ m) ||| (y &&& m) = z ↔ x &&& ~~~ m = z &&& ~~~ m ∧ y &&& m = z &&& m := by
  constructor
  · rintro rfl
    constructor
    · apply eq_of_getLsbD_eq
      intro i hi
      simp only [getLsbD_and, getLsbD_or, getLsbD_not, hi]
      cases m.getLsbD i <;> simp
    · grind
  · rintro ⟨hbeside, hon⟩
    rw [hbeside, hon]
    apply eq_of_getLsbD_eq
    intro i hi
    simp only [getLsbD_and, getLsbD_or, getLsbD_not, hi]
    cases m.getLsbD i <;> simp

theorem and_not_eq_iff {m y : BitVec w} :
    x &&& ~~~ m = y &&& ~~~ m ↔ ∀ i, m.getLsbD i = false → x.getLsbD i = y.getLsbD i := by
  constructor
  · intro h i hm
    by_cases hi : i < w
    · have hbit := congrArg (fun z : BitVec w => z.getLsbD i) h
      simpa only [getLsbD_and, getLsbD_not, hi, hm, decide_true, Bool.not_false,
        Bool.and_true] using hbit
    · rw [getLsbD_of_ge x i (not_lt.1 hi), getLsbD_of_ge y i (not_lt.1 hi)]
  · intro h
    apply eq_of_getLsbD_eq
    intro i hi
    simp only [getLsbD_and, getLsbD_not, hi, decide_true, Bool.true_and]
    cases hm : m.getLsbD i with
    | true => simp
    | false => simp [h i hm]

def msb (x : BitVec w) : ℕ := findGreatest (fun i => x.getLsbD i = true) (w - 1)
def lsb (x : BitVec w) : ℕ := ((range w).find? fun i => x.getLsbD i).getD 0

theorem getLsbD_msb (h : x.getLsbD i = true) : x.getLsbD (msb x) = true :=
  findGreatest_spec (P := fun i => x.getLsbD i = true)
    (by have := lt_of_getLsbD h; omega : i ≤ w - 1) h

theorem le_msb (h : x.getLsbD i = true) : i ≤ msb x :=
  le_findGreatest (by have := lt_of_getLsbD h; omega) h

theorem lsb_eq_of_first (h : x.getLsbD i = true) (hmin : ∀ j < i, x.getLsbD j = false) :
    lsb x = i := by
  have hi := lt_of_getLsbD h
  have hfind : (range w).find? (fun i => x.getLsbD i) = some i := by
    grind [find?_range_eq_some]
  simp [lsb, hfind]

theorem exists_first (h : x ≠ 0#w) : ∃ i, x.getLsbD i = true ∧ ∀ j < i, x.getLsbD j = false := by
  have hex := (ne_zero_iff x).1 h
  refine ⟨Nat.find hex, Nat.find_spec hex, fun j hj => ?_⟩
  simpa using Nat.find_min hex hj

theorem getLsbD_lsb (h : x ≠ 0#w) : x.getLsbD (lsb x) = true := by
  obtain ⟨i, hi, hmin⟩ := exists_first h
  rwa [lsb_eq_of_first hi hmin]

theorem getLsbD_of_lt_lsb {j : ℕ} (hj : j < lsb x) : x.getLsbD j = false := by
  by_cases h : x = 0#w
  · simp [h]
  · obtain ⟨i, hi, hmin⟩ := exists_first h
    exact hmin j (by rwa [lsb_eq_of_first hi hmin] at hj)

theorem lsb_le (h : x.getLsbD i = true) : lsb x ≤ i := by
  by_contra hn
  simp [getLsbD_of_lt_lsb (not_le.1 hn)] at h

theorem lsb_lt (h : x ≠ 0#w) : lsb x < w := lt_of_getLsbD (getLsbD_lsb h)

/-! ### Scans over several words

A long bit string is scanned from its highest word down; one without a one bit gives `0`. -/

structure IsTop (p : ℕ → Prop) (n b : ℕ) : Prop where
  eq_zero_or : b = 0 ∨ b < n ∧ p b
  le : ∀ i < n, p i → i ≤ b

variable {p : ℕ → Prop}

theorem IsTop.mem {b : ℕ} (h : IsTop p n b) (hb : b ≠ 0) : b < n ∧ p b :=
  h.eq_zero_or.resolve_left hb

theorem IsTop.of_none (h : ∀ i < n, ¬ p i) : IsTop p n 0 :=
  ⟨Or.inl rfl, fun i hi hpi => absurd hpi (h i hi)⟩

theorem IsTop.unique {b c : ℕ} (hb : IsTop p n b) (hc : IsTop p n c) : b = c := by
  have hle : ∀ {b c}, IsTop p n b → IsTop p n c → b ≤ c := fun hb hc => by
    rcases hb.eq_zero_or with rfl | ⟨hlt, hp⟩
    · exact zero_le _
    · exact hc.le _ hlt hp
  exact le_antisymm (hle hb hc) (hle hc hb)

theorem IsTop.word {k b : ℕ} (hx : ∀ i < w, p (w * k + i) ↔ x.getLsbD i = true)
    (h : IsTop p (w * k) b) : IsTop p (w * (k + 1)) (if x ≠ 0#w then msb x + w * k else b) := by
  have hsucc : w * (k + 1) = w * k + w := mul_succ w k
  by_cases hzero : x = 0#w
  · rw [if_neg (not_not.2 hzero)]
    have hnone : ∀ i < w * (k + 1), p i → i < w * k := by
      intro i hi hpi
      by_contra hge
      obtain ⟨j, rfl⟩ := Nat.exists_eq_add_of_le (not_lt.1 hge)
      have hj := (hx j (by omega)).1 hpi
      simp [hzero] at hj
    exact ⟨h.eq_zero_or.imp_right fun hb => ⟨by omega, hb.2⟩,
      fun i hi hpi => h.le i (hnone i hi hpi) hpi⟩
  · rw [if_pos hzero]
    obtain ⟨i, hi⟩ := (ne_zero_iff x).1 hzero
    have hmsb := getLsbD_msb hi
    have hlt := lt_of_getLsbD hmsb
    refine ⟨Or.inr ⟨by omega, ?_⟩, fun j hj hpj => ?_⟩
    · rw [add_comm]
      exact (hx _ hlt).2 hmsb
    · rcases lt_or_ge j (w * k) with hlow | hge
      · omega
      · obtain ⟨m, rfl⟩ := Nat.exists_eq_add_of_le hge
        have := le_msb ((hx m (by omega)).1 hpj)
        omega

/-! ### Scanning loops

`while (x) { i = lsb(x); x &= ~(1 << i); … }` takes the one bits of `x` from low to high; `scan x`
lists them. -/

def scan (x : BitVec w) : List ℕ := (range w).filter fun i => x.getLsbD i

@[simp] theorem mem_scan : i ∈ scan x ↔ x.getLsbD i = true := by
  grind [scan, lt_of_getLsbD]

theorem nodup_scan (x : BitVec w) : (scan x).Nodup := nodup_range.filter _
abbrev Str (w : ℕ) : Type := ℕ → BitVec w

namespace Str
variable (s : Str w)

def bt (n : ℕ) : Bool := (s (n / w)).getLsbD (n % w)
def bts (n : ℕ) : Str w := update s (n / w) (insert (s (n / w)) (n % w))
def btr (n : ℕ) : Str w := update s (n / w) (erase (s (n / w)) (n % w))

variable {n : ℕ}

theorem index_eq_iff {m : ℕ} : n = m ↔ n / w = m / w ∧ n % w = m % w := by
  constructor
  · rintro rfl; exact ⟨rfl, rfl⟩
  · rintro ⟨hd, hm⟩
    rw [← div_add_mod n w, ← div_add_mod m w, hd, hm]

@[simp] theorem bt_bts (hw : 0 < w) (n m : ℕ) : (s.bts n).bt m = (s.bt m || decide (n = m)) := by
  unfold bts bt
  by_cases hd : m / w = n / w
  · simp [mod_lt n hw, index_eq_iff (w := w) (n := n) (m := m), hd]
  · rw [update_of_ne hd]
    simp [index_eq_iff (w := w) (n := n) (m := m), Ne.symm hd]

@[simp] theorem bt_btr (n m : ℕ) : (s.btr n).bt m = (s.bt m && !decide (n = m)) := by
  unfold btr bt
  by_cases hd : m / w = n / w
  · simp [index_eq_iff (w := w) (n := n) (m := m), hd]
  · rw [update_of_ne hd]
    simp [index_eq_iff (w := w) (n := n) (m := m), Ne.symm hd]

theorem bt_mul_add (k : ℕ) {i : ℕ} (h : i < w) : s.bt (w * k + i) = (s k).getLsbD i := by
  have hdiv : (w * k + i) / w = k := by
    rw [mul_add_div (by omega), div_eq_of_lt h, add_zero]
  rw [bt, hdiv, mul_add_mod, mod_eq_of_lt h]

theorem bt_eq_getLsbD (h : n < w) : s.bt n = (s 0).getLsbD n := by
  simp [bt, div_eq_of_lt h, mod_eq_of_lt h]

theorem bts_zero (h : n < w) : s.bts n 0 = insert (s 0) n := by
  simp [bts, div_eq_of_lt h, mod_eq_of_lt h]

theorem btr_zero (h : n < w) : s.btr n 0 = erase (s 0) n := by
  simp [btr, div_eq_of_lt h, mod_eq_of_lt h]

theorem bts_of_bt {s : Str w} (h : s.bt n = true) : s.bts n = s := by
  have hins : insert (s (n / w)) (n % w) = s (n / w) := (insert_eq_iff (lt_of_getLsbD h)).2 h
  rw [bts, hins, update_eq_self]

theorem bts_of_ne {k : ℕ} (h : k ≠ n / w) : s.bts n k = s k := by
  simp [bts, update_of_ne h]

theorem btr_of_ne {k : ℕ} (h : k ≠ n / w) : s.btr n k = s k := by
  simp [btr, update_of_ne h]

end Str
end Bits
