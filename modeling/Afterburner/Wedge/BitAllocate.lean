import Afterburner.Lib.Search
import Afterburner.Wedge.L4thread

/-!
# Taking a bit of a mask

`bit_allocate_atomic` sets a clear bit below `bit_end`, but counts words as if they had four bits
(`sizeof(word_t)`).
-/

namespace Wedge
open BitVec BitPool List

def bitAllocateAccesses (base : Masks) (bitEnd : ℕ) : List ℕ :=
  let totWords := if bitEnd / sizeofWord = 0 then 1 else bitEnd / sizeofWord
  Search.visited (fun wordCount => base wordCount ≠ ~~~ 0#32) (range totWords)

structure Allocates (base : Masks) (bitEnd : ℕ) : Prop where
  accesses : ∀ k ∈ bitAllocateAccesses base bitEnd, ∃ b < bitEnd, b / 32 = k
  found : ∀ i, IsLeast {b | b < bitEnd ∧ base.bt b = false} i →
    bitAllocateAtomic base bitEnd = (i, base.bts i)
  full : (∀ b < bitEnd, base.bt b = true) →
    bitEnd ≤ (bitAllocateAtomic base bitEnd).1 ∧ (bitAllocateAtomic base bitEnd).2 = base

section Allocate
variable {base : Masks} {bitEnd : ℕ}

theorem bitAllocateAccesses_eq (base : Masks) (bitEnd : ℕ) :
    bitAllocateAccesses base bitEnd =
      Search.visited (fun k => base k ≠ allOnes 32) (range (totWords bitEnd)) := by
  have hwords : (if bitEnd / sizeofWord = 0 then 1 else bitEnd / sizeofWord) = totWords bitEnd := by
    rw [totWords]
    generalize bitEnd / sizeofWord = n
    split_ifs <;> omega
  have hones : (~~~ 0#32) = allOnes 32 := by decide
  rw [bitAllocateAccesses, hwords, hones]

theorem le_of_mem_accesses {i k : ℕ} (hi : firstClear base (totWords bitEnd) = some i)
    (hk : k ∈ bitAllocateAccesses base bitEnd) : 32 * k ≤ i := by
  rw [firstClear, Option.map_eq_some_iff] at hi
  obtain ⟨word, hfind, rfl⟩ := hi
  rw [bitAllocateAccesses_eq] at hk
  have hle := Search.le_of_mem_visited pairwise_lt_range hfind hk
  omega

theorem mem_accesses_of_none (h : firstClear base (totWords bitEnd) = none) {k : ℕ}
    (hk : k < totWords bitEnd) : k ∈ bitAllocateAccesses base bitEnd := by
  rw [firstClear, Option.map_eq_none_iff] at h
  rw [bitAllocateAccesses_eq, Search.visited_of_find?_eq_none h]
  exact mem_range.2 hk

theorem getLsbD_ones {j : ℕ} (hj : j < 32) : (~~~ 0#32).getLsbD j = true := by
  rw [getLsbD_not, getLsbD_zero, decide_eq_true hj]
  rfl

theorem le_totWords (bitEnd : ℕ) : bitEnd ≤ 32 * totWords bitEnd := by
  unfold totWords sizeofWord
  omega

theorem allocates_of_clear {r : ℕ} (hr : r < bitEnd) (hclear : base.bt r = false) :
    Allocates base bitEnd := by
  obtain ⟨i, hle, hfirst⟩ :=
    exists_firstClear (hr.trans_le (le_totWords bitEnd)) hclear
  obtain ⟨-, hi, hbefore⟩ := firstClear_eq_some hfirst
  refine ⟨fun k hk => ⟨32 * k, ?_, by omega⟩, fun j hj => ?_, fun hfull => ?_⟩
  · exact (le_of_mem_accesses hfirst hk).trans_lt (hle.trans_lt hr)
  · -- the first clear bit is the least one
    obtain ⟨⟨hj, hjclear⟩, hleast⟩ := hj
    have hij : i = j := by
      refine le_antisymm ?_ (hleast ⟨hle.trans_lt hr, hi⟩)
      by_contra hlt
      rw [hbefore j (not_le.1 hlt)] at hjclear
      cases hjclear
    rw [bitAllocateAtomic_eq, hfirst, hij]
  · rw [hfull r hr] at hclear
    cases hclear

theorem allocates_of_small (hpos : 0 < bitEnd) (hlt : bitEnd < 8) (hones : base 0 = ~~~ 0#32) :
    Allocates base bitEnd := by
  have hwords : totWords bitEnd = 1 := by
    unfold totWords sizeofWord
    omega
  have hset : ∀ b < bitEnd, base.bt b = true := by grind [Bits.Str.bt_eq_getLsbD, getLsbD_ones]
  have hnone : firstClear base (totWords bitEnd) = none := by
    cases hfirst : firstClear base (totWords bitEnd) with
    | none => rfl
    | some i =>
      obtain ⟨hi, hclear, -⟩ := firstClear_eq_some hfirst
      have hi32 : i < 32 := by omega
      rw [Bits.Str.bt_eq_getLsbD base hi32, hones, getLsbD_ones hi32] at hclear
      cases hclear
  refine ⟨fun k hk => ⟨0, hpos, ?_⟩, fun i hi => ?_, fun _ => ?_⟩
  · rw [bitAllocateAccesses_eq, hwords] at hk
    have hmem := Search.visited_subset _ hk
    simp at hmem
    omega
  · have hclear := hi.1.2
    rw [hset i hi.1.1] at hclear
    cases hclear
  · simp [bitAllocateAtomic_eq, hnone]

/-- **When a bit is taken as promised.** Exactly when there is a clear bit below `bit_end`, or up to
seven bits are asked for and the first word is full. -/
theorem allocates_iff (base : Masks) (bitEnd : ℕ) :
    Allocates base bitEnd ↔
      (∃ b < bitEnd, base.bt b = false) ∨ 0 < bitEnd ∧ bitEnd < 8 ∧ base 0 = ~~~ 0#32 := by
  constructor
  · intro h
    by_cases hex : ∃ b < bitEnd, base.bt b = false
    · exact .inl hex
    have hfull : ∀ b < bitEnd, base.bt b = true := by
      intro b hb
      by_contra hne
      exact hex ⟨b, hb, Bool.eq_false_of_not_eq_true hne⟩
    obtain ⟨-, hsame⟩ := h.full hfull
    rw [bitAllocateAtomic_eq] at hsame
    cases hfirst : firstClear base (totWords bitEnd) with
    | some i =>
      -- a bit behind has been set
      rw [hfirst] at hsame
      have hset : (base.bts i).bt i = true := by simp
      rw [show base.bts i = base from hsame, (firstClear_eq_some hfirst).2.1] at hset
      cases hset
    | none =>
      -- the last word that is read has a bit below `bit_end`
      have hlast : totWords bitEnd - 1 < totWords bitEnd := by
        unfold totWords
        omega
      obtain ⟨b, hb, hword⟩ := h.accesses _ (mem_accesses_of_none hfirst hlast)
      have hsmall : 0 < bitEnd ∧ bitEnd < 8 := by
        unfold totWords sizeofWord at hword
        omega
      refine .inr ⟨hsmall.1, hsmall.2, eq_of_getLsbD_eq fun j hj => ?_⟩
      rw [← Bits.Str.bt_eq_getLsbD base hj, firstClear_eq_none hfirst (by omega),
        getLsbD_ones hj]
  · rintro (⟨b, hb, hclear⟩ | ⟨hpos, hlt, hones⟩)
    · exact allocates_of_clear hb hclear
    · exact allocates_of_small hpos hlt hones

end Allocate

def eightTaken : Masks := fun k => if k = 0 then 0xff else 0

theorem not_allocates_eightTaken :
    bitAllocateAtomic eightTaken 8 = (8, eightTaken.bts 8) ∧ ¬ Allocates eightTaken 8 := by
  have hresult : bitAllocateAtomic eightTaken 8 = (8, eightTaken.bts 8) := rfl
  refine ⟨hresult, fun h => ?_⟩
  obtain ⟨-, hsame⟩ := h.full (by decide)
  have hbit : (eightTaken.bts 8).bt 8 = eightTaken.bt 8 := by
    rw [show eightTaken.bts 8 = eightTaken from hsame]
  exact absurd hbit (by decide)

end Wedge
