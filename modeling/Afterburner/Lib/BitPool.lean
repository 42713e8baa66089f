import Afterburner.Lib.Bits
import Afterburner.Lib.Runs

/-!
# Numbers handed out from a bit string

A pool hands out the numbers below `limit`. The search takes the first clear bit in the first `n`
words, also one beyond the limit.
-/

namespace BitPool
open Bits List BitVec Option
variable {w : ℕ}

def firstClear (s : Str w) (n : ℕ) : Option ℕ :=
  ((range n).find? fun k => s k ≠ allOnes w).map fun k => w * k + lsb (~~~ s k)

theorem not_ne_zero {x : BitVec w} (h : x ≠ allOnes w) : ~~~ x ≠ 0#w := by
  intro h0
  apply h
  rw [← not_not (b := x), h0, not_zero]

variable {s : Str w}

theorem bt_of_eq_allOnes {k : ℕ} (h : s k = allOnes w) {i : ℕ} (hi : i < w) :
    s.bt (w * k + i) = true := by
  rw [Str.bt_mul_add s k hi, h]
  simp [hi]

theorem exists_word {n i : ℕ} (hi : i < w * n) : ∃ k < n, ∃ j < w, i = w * k + j := by
  have hw : 0 < w := by
    rcases Nat.eq_zero_or_pos w with rfl | hw
    · simp at hi
    · exact hw
  exact ⟨i / w, Nat.div_lt_of_lt_mul hi, i % w, Nat.mod_lt i hw, (Nat.div_add_mod i w).symm⟩

theorem firstClear_eq_none {n : ℕ} (h : firstClear s n = none) {i : ℕ} (hi : i < w * n) :
    s.bt i = true := by
  obtain ⟨k, hk, j, hj, rfl⟩ := exists_word hi
  rw [firstClear, map_eq_none_iff, find?_eq_none] at h
  exact bt_of_eq_allOnes (by simpa using h k (mem_range.2 hk)) hj

theorem firstClear_eq_some {n i : ℕ} (h : firstClear s n = some i) :
    i < w * n ∧ s.bt i = false ∧ ∀ j < i, s.bt j = true := by
  rw [firstClear, map_eq_some_iff] at h
  obtain ⟨k, hfind, rfl⟩ := h
  obtain ⟨hne, hmem, hfirst⟩ := find?_range_eq_some.1 hfind
  have hne : ~~~ s k ≠ 0#w := not_ne_zero (by simpa using hne)
  have hlt := lsb_lt hne
  have hk := mem_range.1 hmem
  refine ⟨?_, ?_, fun j hj => ?_⟩
  · calc w * k + lsb (~~~ s k) < w * k + w := by omega
      _ = w * (k + 1) := (Nat.mul_succ w k).symm
      _ ≤ w * n := Nat.mul_le_mul_left w hk
  · have hbit := getLsbD_lsb hne
    rw [getLsbD_not, Bool.and_eq_true] at hbit
    rw [Str.bt_mul_add s k hlt]
    simpa using hbit.2
  · -- below, the bit lies in an earlier word, which is full, or before the lowest clear bit
    by_cases hj' : j < w * k
    · obtain ⟨m, hm, l, hl, rfl⟩ := exists_word hj'
      exact bt_of_eq_allOnes (by simpa using hfirst m hm) hl
    · obtain ⟨l, rfl⟩ := Nat.exists_eq_add_of_le (not_lt.1 hj')
      have hl : l < lsb (~~~ s k) := by omega
      have hbit := getLsbD_of_lt_lsb hl
      have hlw : l < w := hl.trans hlt
      rw [Str.bt_mul_add s k hlw]
      simpa [hlw] using hbit

theorem exists_firstClear {n r : ℕ} (hr : r < w * n) (hclear : s.bt r = false) :
    ∃ i ≤ r, firstClear s n = some i := by
  cases h : firstClear s n with
  | none => rw [firstClear_eq_none h hr] at hclear; cases hclear
  | some i =>
    refine ⟨i, ?_, rfl⟩
    by_contra hlt
    rw [(firstClear_eq_some h).2.2 r (not_le.1 hlt)] at hclear
    cases hclear

structure Pool (w : ℕ) where
  mask : Str w
  out : List ℕ

inductive Op
  | allocate
  | release (k : ℕ)

namespace Pool
variable (n limit : ℕ) (p : Pool w)

def result : Option ℕ := (firstClear p.mask n).filter (· < limit)

def step : Op → Pool w
  | .allocate =>
    ⟨match firstClear p.mask n with
      | some i => p.mask.bts i
      | none => p.mask,
      (p.result n limit).toList ++ p.out⟩
  | .release k => ⟨p.mask.btr k, p.out.erase k⟩

def Ok : Op → Prop
  | .allocate => True
  | .release k => k ∈ p.out

structure Inv : Prop where
  nodup : p.out.Nodup
  lt : ∀ k ∈ p.out, k < limit
  marked : ∀ k ∈ p.out, p.mask.bt k = true

def Reserves (r : ℕ) : Prop := p.mask.bt r = true ∧ r ∉ p.out

variable {n limit} {p}

theorem result_eq_some {i : ℕ} (h : p.result n limit = some i) :
    firstClear p.mask n = some i ∧ i < limit := by
  rw [result, filter_eq_some_iff] at h
  exact ⟨h.1, by simpa using h.2⟩

theorem mem_toList_result {i : ℕ} (h : i ∈ (p.result n limit).toList) :
    firstClear p.mask n = some i ∧ i < limit :=
  result_eq_some (mem_toList.1 h)

theorem bt_step_allocate (hw : 0 < w) (k : ℕ) : (p.step n limit .allocate).mask.bt k = true ↔
    p.mask.bt k = true ∨ firstClear p.mask n = some k := by
  rw [step]
  cases h : firstClear p.mask n with
  | none => simp
  | some i => simp [Str.bt_bts _ hw]

theorem inv_step (hw : 0 < w) (h : p.Inv limit) {op : Op} (hop : p.Ok op) :
    (p.step n limit op).Inv limit := by
  cases op with
  | allocate =>
    refine ⟨?_, fun k hk => ?_, fun k hk => ?_⟩
    · refine nodup_append.2 ⟨?_, h.nodup, fun i hi j hj hij => ?_⟩
      · grind
      · -- what is handed out was not marked
        subst hij
        have hclear := (firstClear_eq_some (mem_toList_result hi).1).2.1
        rw [h.marked i hj] at hclear
        cases hclear
    · rcases mem_append.1 hk with hk | hk
      · exact (mem_toList_result hk).2
      · exact h.lt k hk
    · rw [bt_step_allocate hw]
      rcases mem_append.1 hk with hk | hk
      · exact .inr (mem_toList_result hk).1
      · exact .inl (h.marked k hk)
  | release r =>
    refine ⟨h.nodup.erase r, fun k hk => h.lt k (mem_of_mem_erase hk), fun k hk => ?_⟩
    obtain ⟨hne, hk⟩ := (List.Nodup.mem_erase_iff h.nodup).1 hk
    rw [step, Str.bt_btr, h.marked k hk]
    simp [Ne.symm hne]

theorem reserves_step (hw : 0 < w) {r : ℕ} (h : p.Reserves r) {op : Op} (hop : p.Ok op) :
    (p.step n limit op).Reserves r := by
  cases op with
  | allocate =>
    refine ⟨(bt_step_allocate hw r).2 (.inl h.1), fun hmem => ?_⟩
    rcases mem_append.1 hmem with hmem | hmem
    · have hclear := (firstClear_eq_some (mem_toList_result hmem).1).2.1
      rw [h.1] at hclear
      cases hclear
    · exact h.2 hmem
  | release k =>
    refine ⟨?_, fun hmem => h.2 (mem_of_mem_erase hmem)⟩
    rw [step, Str.bt_btr, h.1]
    have hne : k ≠ r := fun hkr => h.2 (hkr ▸ hop)
    simp [hne]

def clearBelow (p : Pool w) (r : ℕ) : Finset ℕ :=
  (Finset.range r).filter fun k => p.mask.bt k = false

theorem exists_mem_out (hw : 0 < w) {r : ℕ} (hlimit : r < limit) (hn : r < w * n)
    (hclear : p.mask.bt r = false) :
    ∃ m, r ∈ (Runs.run (step n limit) p (replicate m .allocate)).out := by
  -- an allocation hands out `r`, or marks one of the numbers below it
  induction hd : (p.clearBelow r).card using Nat.strong_induction_on generalizing p with
  | _ d ih =>
    obtain ⟨i, hle, hfirst⟩ := exists_firstClear hn hclear
    obtain ⟨-, hi, -⟩ := firstClear_eq_some hfirst
    rcases Nat.eq_or_lt_of_le hle with rfl | hlt
    · refine ⟨1, mem_append_left _ ?_⟩
      rw [mem_toList, result, filter_eq_some_iff]
      exact ⟨hfirst, by simpa using hlimit⟩
    · have hstill : (p.step n limit .allocate).mask.bt r = false := by
        by_contra hne
        rcases (bt_step_allocate hw r).1 (by simpa using hne) with h | h
        · rw [hclear] at h
          cases h
        · obtain rfl := some.inj (hfirst.symm.trans h)
          exact lt_irrefl _ hlt
      have hfewer : (p.step n limit .allocate).clearBelow r ⊂ p.clearBelow r := by
        refine Finset.ssubset_iff_subset_ne.2 ⟨fun k hk => ?_, fun heq => ?_⟩
        · obtain ⟨hk, hb⟩ := Finset.mem_filter.1 hk
          refine Finset.mem_filter.2 ⟨hk, ?_⟩
          by_contra hne
          rw [(bt_step_allocate hw k).2 (.inl (by simpa using hne))] at hb
          cases hb
        · have hmem : i ∈ p.clearBelow r := Finset.mem_filter.2 ⟨Finset.mem_range.2 hlt, hi⟩
          rw [← heq] at hmem
          have hb := (Finset.mem_filter.1 hmem).2
          rw [(bt_step_allocate hw i).2 (.inr hfirst)] at hb
          cases hb
      obtain ⟨m, hm⟩ := ih _ (hd ▸ Finset.card_lt_card hfewer) hstill rfl
      exact ⟨m + 1, hm⟩

end Pool
end BitPool
