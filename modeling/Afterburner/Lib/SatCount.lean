import Mathlib.Data.Set.Insert

/-!
# Reference counts of two bits

A count that knows zero, one and several. It saturates, and counting down does not leave the
saturated value.
-/

structure SatCount where
  inuse : Bool
  multi : Bool
  deriving DecidableEq, Repr

namespace SatCount
variable {ι : Type*} {b : SatCount} {L : Set ι} {x : ι}

def zero : SatCount := ⟨false, false⟩
def inc (b : SatCount) : SatCount := ⟨true, b.multi || b.inuse⟩
def dec (b : SatCount) : SatCount := ⟨false, b.multi⟩
def isZero (b : SatCount) : Bool := !(b.inuse || b.multi)
def isOne (b : SatCount) : Bool := b.inuse && !b.multi

def Counts (b : SatCount) (L : Set ι) : Prop :=
  (b.isZero = true → L = ∅) ∧ (b.isOne = true → ∃ x, L = {x})

theorem cases (b : SatCount) : b = zero ∨ b = ⟨true, false⟩ ∨ b.multi = true := by
  rcases b with ⟨_ | _, _ | _⟩
  · exact Or.inl rfl
  · exact Or.inr (Or.inr rfl)
  · exact Or.inr (Or.inl rfl)
  · exact Or.inr (Or.inr rfl)

theorem counts_of_multi (h : b.multi = true) (L : Set ι) : Counts b L := by
  unfold Counts isZero isOne
  rw [h]
  simp

theorem counts_zero_iff : Counts zero L ↔ L = ∅ := by
  unfold Counts zero isZero isOne
  simp

theorem counts_one_iff : Counts ⟨true, false⟩ L ↔ ∃ x, L = {x} := by
  unfold Counts isZero isOne
  simp

theorem not_isOne_of_multi (h : b.multi = true) : b.isOne = false := by
  unfold isOne
  rw [h]
  simp

theorem not_isZero_of_isOne (h1 : b.isOne = true) : ¬ b.isZero = true := by
  rcases b.cases with rfl | rfl | hm
  · cases h1
  · exact Bool.false_ne_true
  · rw [not_isOne_of_multi hm] at h1
    cases h1

theorem Counts.inc (h : Counts b L) (hx : x ∉ L) : Counts b.inc (insert x L) := by
  rcases b.cases with rfl | rfl | hm
  · rw [counts_zero_iff] at h
    subst h
    exact counts_one_iff.2 ⟨x, insert_empty_eq x⟩
  · exact counts_of_multi rfl _
  · exact counts_of_multi (by unfold SatCount.inc; rw [hm]; rfl) _

theorem Counts.dec (h : Counts b L) (hx : x ∈ L) : Counts b.dec (L \ {x}) := by
  rcases b.cases with rfl | rfl | hm
  · rw [counts_zero_iff] at h
    subst h
    exact absurd hx (Set.notMem_empty x)
  · obtain ⟨y, rfl⟩ := counts_one_iff.1 h
    obtain rfl : x = y := hx
    exact counts_zero_iff.2 (by ext y; simp)
  · exact counts_of_multi (b := b.dec) hm _

theorem Counts.dec_of_not_isOne (h : Counts b L) (h1 : b.isOne = false) : Counts b.dec L := by
  rcases b.cases with rfl | rfl | hm
  · exact h
  · cases h1
  · exact counts_of_multi (b := b.dec) hm _

theorem not_counts_dec (h1 : b.isOne = true) (hx : x ∈ L) : ¬ Counts b.dec L := by
  rcases b.cases with rfl | rfl | hm
  · cases h1
  · intro h
    have hempty : L = ∅ := counts_zero_iff.1 h
    rw [hempty] at hx
    exact hx
  · rw [not_isOne_of_multi hm] at h1
    cases h1

theorem eq_of_counts_dec_inc {y : ι} (h1 : b.isOne = true) (h : Counts b.dec.inc L) (hx : x ∈ L)
    (hy : y ∈ L) : x = y := by
  rcases b.cases with rfl | rfl | hm
  · cases h1
  · obtain ⟨z, rfl⟩ := counts_one_iff.1 h
    obtain rfl : x = z := hx
    exact hy.symm
  · rw [not_isOne_of_multi hm] at h1
    cases h1

theorem Counts.multi_of_mem {L' : Set ι} (h : Counts b L) (h' : Counts b L') (hsub : L ⊆ L')
    (hx : x ∈ L') (hnew : x ∉ L) : b.multi = true := by
  rcases b.cases with rfl | rfl | hm
  · rw [counts_zero_iff.1 h'] at hx
    exact absurd hx (Set.notMem_empty x)
  · obtain ⟨y, rfl⟩ := counts_one_iff.1 h
    obtain ⟨z, rfl⟩ := counts_one_iff.1 h'
    have hy : y = z := hsub rfl
    have hz : x = z := hx
    exact absurd (hz.trans hy.symm) hnew
  · exact hm

theorem Counts.insert_iff (h : Counts b L) (hx : x ∉ L) :
    Counts b (insert x L) ↔ b.multi = true :=
  ⟨fun h' => h.multi_of_mem h' (Set.subset_insert x L) (Set.mem_insert x L) hx,
    fun hm => counts_of_multi hm _⟩

end SatCount
