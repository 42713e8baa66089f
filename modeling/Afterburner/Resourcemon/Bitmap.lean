import Afterburner.Lib.Bits
import Afterburner.Resourcemon.Vm
import Mathlib.Order.Bounds.Basic

/-!
# Searching a bitmap

`find_first_bit` keeps the bits below the start in its word instead of those from the start on, and
adds the index of the lowest to the start.
-/

namespace Resourcemon
open Bits
namespace Bitmap

def bitsPerWord : ℕ := 8 * 4
def word (bit : ℕ) : ℕ := bit / bitsPerWord
def wordOffset (bit : ℕ) : ℕ := bit % bitsPerWord
def mask (bit : ℕ) : Word := (1#32 <<< bit) - 1#32

def findFrom (size : ℕ) (bitmap : Bits.Str 32) : ℕ → ℕ → Bool × ℕ
  | 0, bit => (false, bit)
  | rounds + 1, bit =>
    if bit < size then
      if bitmap (word bit) ≠ 0#32 then (true, bit + lsb (bitmap (word bit)))
      else findFrom size bitmap rounds (bit + bitsPerWord)
    else (false, bit)

def findFirstBit (size : ℕ) (bitmap : Bits.Str 32) (bit : ℕ) : Bool × ℕ :=
  if wordOffset bit ≠ 0 ∧ bitmap (word bit) &&& mask (wordOffset bit) ≠ 0#32 then
    (true, bit + lsb (bitmap (word bit) &&& mask (wordOffset bit)))
  else findFrom size bitmap size (bit + (bitsPerWord - wordOffset bit))

def setFrom (size : ℕ) (bitmap : Bits.Str 32) (start : ℕ) : Set ℕ :=
  {p | start ≤ p ∧ p < size ∧ bitmap.bt p = true}

structure Finds (size : ℕ) (bitmap : Bits.Str 32) (start : ℕ) : Prop where
  found : ∀ p, IsLeast (setFrom size bitmap start) p →
    findFirstBit size bitmap start = (true, p)
  missing : setFrom size bitmap start = ∅ → (findFirstBit size bitmap start).1 = false

section Search
variable {size n start : ℕ} {bitmap : Bits.Str 32}

theorem setFrom_of_le (h : size ≤ start) : setFrom size bitmap start = ∅ :=
  Set.eq_empty_of_forall_notMem fun _ hp => absurd hp.2.1 (not_lt.2 (h.trans hp.1))

theorem div_eq_of_lt_next {p : ℕ} (hp : start ≤ p) (hlt : p < 32 * (start / 32 + 1)) :
    p / 32 = start / 32 := by
  omega

theorem setFrom_of_zero (h : bitmap (start / 32) = 0#32) :
    setFrom size bitmap start = setFrom size bitmap (32 * (start / 32 + 1)) := by
  ext p
  constructor
  · rintro ⟨hp, hsize, hset⟩
    refine ⟨?_, hsize, hset⟩
    by_contra hlt
    rw [Bits.Str.bt, div_eq_of_lt_next hp (not_le.1 hlt), h] at hset
    simp at hset
  · rintro ⟨hp, hsize, hset⟩
    exact ⟨by omega, hsize, hset⟩

theorem isLeast_of_ne_zero {k : ℕ} (hk : k < n) (h : bitmap k ≠ 0#32) :
    IsLeast (setFrom (32 * n) bitmap (32 * k)) (32 * k + lsb (bitmap k)) := by
  have hlt := lsb_lt h
  refine ⟨⟨by omega, by omega, ?_⟩, fun q hq => ?_⟩
  · rw [Bits.Str.bt_mul_add _ _ hlt]
    exact getLsbD_lsb h
  · obtain ⟨hle, -, hset⟩ := hq
    by_contra hbefore
    obtain ⟨j, rfl⟩ := Nat.exists_eq_add_of_le hle
    have hj : j < lsb (bitmap k) := by omega
    rw [Bits.Str.bt_mul_add _ _ (hj.trans hlt), getLsbD_of_lt_lsb hj] at hset
    cases hset

theorem findFrom_spec (bitmap : Bits.Str 32) (rounds k : ℕ) (hrounds : n ≤ k + rounds) :
    (∃ p, IsLeast (setFrom (32 * n) bitmap (32 * k)) p ∧
        findFrom (32 * n) bitmap rounds (32 * k) = (true, p)) ∨
      setFrom (32 * n) bitmap (32 * k) = ∅ ∧
        (findFrom (32 * n) bitmap rounds (32 * k)).1 = false := by
  -- one round looks at one word
  induction rounds generalizing k with
  | zero => exact .inr ⟨setFrom_of_le (by omega), rfl⟩
  | succ rounds ih =>
    have hword : word (32 * k) = k := Nat.mul_div_cancel_left k (by decide)
    rw [findFrom, hword]
    by_cases hk : k < n
    · rw [if_pos (show 32 * k < 32 * n by omega)]
      by_cases hzero : bitmap k = 0#32
      · have hskip : setFrom (32 * n) bitmap (32 * k) = setFrom (32 * n) bitmap (32 * (k + 1)) := by
          have hdiv : 32 * k / 32 = k := hword
          rw [setFrom_of_zero (by rwa [hdiv]), hdiv]
        rw [if_neg (not_not.2 hzero), hskip]
        exact ih (k + 1) (by omega)
      · rw [if_pos hzero]
        exact .inl ⟨_, isLeast_of_ne_zero hk hzero, rfl⟩
    · rw [if_neg (by omega)]
      exact .inr ⟨setFrom_of_le (by omega), rfl⟩

theorem findFrom_ne {q : ℕ} (hq : q < 32 * (start / 32 + 1)) :
    findFrom (32 * n) bitmap (32 * n) (32 * (start / 32 + 1)) ≠ (true, q) := by
  intro hfound
  rcases findFrom_spec (n := n) bitmap (32 * n) (start / 32 + 1) (by omega) with
    ⟨r, hr, hfind⟩ | ⟨-, hfind⟩
  · rw [hfound, Prod.mk.injEq] at hfind
    have hle := hr.1.1
    omega
  · rw [hfound] at hfind
    cases hfind

theorem next_word (start : ℕ) :
    start + (bitsPerWord - wordOffset start) = 32 * (start / 32 + 1) := by
  unfold bitsPerWord wordOffset bitsPerWord
  omega

theorem getLsbD_low (bitmap : Bits.Str 32) (start i : ℕ) :
    (bitmap (word start) &&& mask (wordOffset start)).getLsbD i = true ↔
      i < start % 32 ∧ (bitmap (start / 32)).getLsbD i = true := by
  have hoff : wordOffset start < 32 := Nat.mod_lt start (by decide)
  rw [BitVec.getLsbD_and, mask, getLsbD_one_shiftLeft_sub_one hoff i, Bool.and_eq_true,
    decide_eq_true_iff]
  exact and_comm

theorem wordOffset_ne_zero (h : bitmap (word start) &&& mask (wordOffset start) ≠ 0#32) :
    wordOffset start ≠ 0 := by
  intro hzero
  rw [hzero] at h
  exact h (by simp [mask])

theorem findFirstBit_of_low (h : bitmap (word start) &&& mask (wordOffset start) ≠ 0#32) :
    findFirstBit size bitmap start =
      (true, start + lsb (bitmap (word start) &&& mask (wordOffset start))) := by
  rw [findFirstBit, if_pos ⟨wordOffset_ne_zero h, h⟩]

theorem findFirstBit_of_not_low (h : bitmap (word start) &&& mask (wordOffset start) = 0#32) :
    findFirstBit size bitmap start = findFrom size bitmap size (32 * (start / 32 + 1)) := by
  rw [findFirstBit, if_neg fun hlow => hlow.2 h, next_word]

theorem exists_mem_setFrom (hstart : start < 32 * n) (hword : bitmap (word start) ≠ 0#32)
    (hlow : bitmap (word start) &&& mask (wordOffset start) = 0#32) :
    ∃ p ∈ setFrom (32 * n) bitmap start, p < 32 * (start / 32 + 1) := by
  obtain ⟨j, hj⟩ := (ne_zero_iff _).1 hword
  have hj32 := lt_of_getLsbD hj
  have hoff : start % 32 ≤ j := by
    by_contra hlt
    have hbit := (getLsbD_low bitmap start j).2 ⟨not_le.1 hlt, hj⟩
    rw [hlow] at hbit
    simp at hbit
  refine ⟨32 * (start / 32) + j, ⟨by omega, by omega, ?_⟩, by omega⟩
  rw [Bits.Str.bt_mul_add _ _ hj32]
  exact hj

theorem exists_isLeast {p : ℕ} (hp : p ∈ setFrom size bitmap start) :
    ∃ q ≤ p, IsLeast (setFrom size bitmap start) q := by
  classical
  have hex : ∃ q, q ∈ setFrom size bitmap start := ⟨p, hp⟩
  exact ⟨Nat.find hex, Nat.find_min' hex hp, Nat.find_spec hex, fun _ hq => Nat.find_min' hex hq⟩

theorem finds_of_zero (h : bitmap (word start) = 0#32) : Finds (32 * n) bitmap start := by
  have hresult : findFirstBit (32 * n) bitmap start =
      findFrom (32 * n) bitmap (32 * n) (32 * (start / 32 + 1)) :=
    findFirstBit_of_not_low (by rw [h, BitVec.zero_and])
  have hset : setFrom (32 * n) bitmap start = setFrom (32 * n) bitmap (32 * (start / 32 + 1)) :=
    setFrom_of_zero h
  rcases findFrom_spec (n := n) bitmap (32 * n) (start / 32 + 1) (by omega) with
    ⟨p, hp, hfind⟩ | ⟨hempty, hfind⟩
  · refine ⟨fun q hq => ?_, fun hnone => ?_⟩
    · rw [hset] at hq
      rw [hresult, hfind, hq.unique hp]
    · rw [hset] at hnone
      exact absurd hp.1 (hnone ▸ Set.notMem_empty p)
  · refine ⟨fun q hq => ?_, fun _ => by rw [hresult, hfind]⟩
    rw [hset, hempty] at hq
    exact absurd hq.1 (Set.notMem_empty q)

theorem isLeast_low (h : bitmap (word start) &&& mask (wordOffset start) ≠ 0#32) :
    IsLeast {i | i < start % 32 ∧ (bitmap (start / 32)).getLsbD i = true}
      (lsb (bitmap (word start) &&& mask (wordOffset start))) :=
  ⟨(getLsbD_low _ _ _).1 (getLsbD_lsb h), fun i hi =>
    lsb_le ((getLsbD_low bitmap start i).2 hi)⟩

end Search

/-- **The next set position is found exactly when** the word of the start is zero, or has a bit
below the start whose index, added to the start, happens to give it. -/
theorem finds_iff (size : ℕ) (bitmap : Bits.Str 32) (start : ℕ) (hsize : 32 ∣ size)
    (hstart : start < size) :
    Finds size bitmap start ↔
      bitmap (start / 32) = 0#32 ∨
        ∃ j, IsLeast {i | i < start % 32 ∧ (bitmap (start / 32)).getLsbD i = true} j ∧
          IsLeast (setFrom size bitmap start) (start + j) := by
  obtain ⟨n, rfl⟩ := hsize
  constructor
  · intro h
    by_cases hzero : bitmap (start / 32) = 0#32
    · exact .inl hzero
    by_cases hlow : bitmap (word start) &&& mask (wordOffset start) = 0#32
    · -- the next position is in the word that the loop skips
      obtain ⟨p, hp, hlt⟩ := exists_mem_setFrom hstart hzero hlow
      obtain ⟨q, hq, hleast⟩ := exists_isLeast hp
      have hfound := h.found q hleast
      rw [findFirstBit_of_not_low hlow] at hfound
      exact absurd hfound (findFrom_ne (hq.trans_lt hlt))
    · refine .inr ⟨_, isLeast_low hlow, ?_⟩
      rcases (setFrom (32 * n) bitmap start).eq_empty_or_nonempty with hempty | ⟨p, hp⟩
      · have hmissing := h.missing hempty
        rw [findFirstBit_of_low hlow] at hmissing
        cases hmissing
      · obtain ⟨q, -, hleast⟩ := exists_isLeast hp
        have hfound := h.found q hleast
        rw [findFirstBit_of_low hlow, Prod.mk.injEq] at hfound
        rwa [hfound.2]
  · rintro (hzero | ⟨j, hj, hleast⟩)
    · exact finds_of_zero hzero
    have hlow : bitmap (word start) &&& mask (wordOffset start) ≠ 0#32 :=
      (ne_zero_iff _).2 ⟨j, (getLsbD_low bitmap start j).2 hj.1⟩
    refine ⟨fun p hp => ?_, fun hempty => ?_⟩
    · rw [findFirstBit_of_low hlow, (isLeast_low hlow).unique hj, hleast.unique hp]
    · exact absurd hleast.1 (hempty ▸ Set.notMem_empty _)

def oneBit : Bits.Str 32 := fun k => if k = 1 then 0x10 else 0

theorem finds_oneBit : Finds 64 oneBit 5 :=
  (finds_iff 64 oneBit 5 (by decide) (by decide)).2 (.inl rfl)

theorem not_finds_oneBit : oneBit.bt 36 = true ∧ (findFirstBit 64 oneBit 32).1 = false ∧
    ¬ Finds 64 oneBit 32 := by
  have hmissed : (findFirstBit 64 oneBit 32).1 = false := by decide
  refine ⟨by decide, hmissed, fun h => ?_⟩
  have hmem : (36 : ℕ) ∈ setFrom 64 oneBit 32 := ⟨by decide, by decide, by decide⟩
  obtain ⟨q, -, hleast⟩ := exists_isLeast hmem
  rw [h.found q hleast] at hmissed
  cases hmissed

end Bitmap
end Resourcemon
