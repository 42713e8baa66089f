import Mathlib.Data.List.Range
import Mathlib.Tactic

/-!
# Linear search

A loop that ends at the first index that meets a test; `visited` is what it has looked at.
-/

namespace Search
open List
variable {α : Type*} (f : α → Bool)

def visited : List α → List α
  | [] => []
  | a :: as => if f a then [a] else a :: visited as

variable {f}

theorem visited_subset (as : List α) : visited f as ⊆ as := by
  induction as with
  | nil => exact List.Subset.refl _
  | cons a as ih =>
    rw [visited]
    split_ifs
    · exact cons_subset_cons a (nil_subset as)
    · exact cons_subset_cons a ih

variable {as : List α}

theorem visited_of_find?_eq_none (h : as.find? f = none) : visited f as = as := by
  induction as with
  | nil => rfl
  | cons a as ih =>
    rw [find?_cons] at h
    cases hf : f a with
    | true => simp [hf] at h
    | false => rw [visited, if_neg (by simp [hf]), ih (by simpa [hf] using h)]

theorem mem_visited_of_find?_eq_some {b : α} (h : as.find? f = some b) : b ∈ visited f as := by
  induction as with
  | nil => cases h
  | cons a as ih =>
    rw [find?_cons] at h
    cases hf : f a with
    | true =>
      obtain rfl : a = b := by simpa [hf] using h
      rw [visited, if_pos hf]
      exact mem_singleton.2 rfl
    | false =>
      rw [visited, if_neg (by simp [hf])]
      exact mem_cons_of_mem a (ih (by simpa [hf] using h))

theorem le_of_mem_visited [Preorder α] (hsorted : as.Pairwise (· < ·)) {b c : α}
    (h : as.find? f = some b) (hc : c ∈ visited f as) : c ≤ b := by
  induction as with
  | nil => cases h
  | cons a as ih =>
    obtain ⟨hlt, hsorted⟩ := pairwise_cons.1 hsorted
    rw [find?_cons] at h
    cases hf : f a with
    | true =>
      obtain rfl : a = b := by simpa [hf] using h
      rw [visited, if_pos hf] at hc
      exact (mem_singleton.1 hc).le
    | false =>
      have hfind : as.find? f = some b := by simpa [hf] using h
      rw [visited, if_neg (by simp [hf])] at hc
      rcases mem_cons.1 hc with rfl | hc
      · exact (hlt b (mem_of_find?_eq_some hfind)).le
      · exact ih hsorted hfind hc

end Search
