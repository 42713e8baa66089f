import Mathlib.Data.List.Basic

/-!
# Order of events in a trace

`Preceded p q l`: every `q` of the trace has a `p` in front of it with no other `q` in between.
-/

namespace Traces
open List
variable {α : Type*} {p q : α → Prop} {l : List α} {x : α}

def Open (p q : α → Prop) (l : List α) : Prop :=
  ∃ l₁ x l₂, l = l₁ ++ x :: l₂ ∧ p x ∧ ∀ y ∈ l₂, ¬ q y

def Preceded (p q : α → Prop) (l : List α) : Prop :=
  ∀ l₁ y l₂, l = l₁ ++ y :: l₂ → q y → Open p q l₁

theorem open_snoc_self (h : p x) : Open p q (l ++ [x]) :=
  ⟨l, x, [], rfl, h, fun _ hy => absurd hy not_mem_nil⟩

theorem Open.snoc (h : Open p q l) (hx : ¬ q x) : Open p q (l ++ [x]) := by
  obtain ⟨l₁, y, l₂, rfl, hy, hl₂⟩ := h
  refine ⟨l₁, y, l₂ ++ [x], by simp, hy, fun z hz => ?_⟩
  rcases mem_append.1 hz with hz | hz
  · exact hl₂ z hz
  · rwa [mem_singleton.1 hz]

theorem Preceded.nil : Preceded p q [] := by
  intro l₁ y l₂ h
  exact absurd h (by simp)

theorem Preceded.snoc (h : Preceded p q l) (hx : q x → Open p q l) : Preceded p q (l ++ [x]) := by
  intro l₁ y l₂ heq hy
  -- the `q` is the new event, or an old one
  rcases eq_nil_or_concat l₂ with rfl | ⟨l₂, z, rfl⟩
  · obtain ⟨rfl, hxy⟩ := append_inj' heq rfl
    obtain rfl : x = y := by simpa using hxy
    exact hx hy
  · have heq' : l ++ [x] = (l₁ ++ y :: l₂) ++ [z] := by rw [heq]; simp
    obtain ⟨rfl, _⟩ := append_inj' heq' rfl
    exact h l₁ y l₂ rfl hy

theorem getElem?_of_prefix {l' : List α} (h : l <+: l') {i : ℕ} (hx : l[i]? = some x) :
    l'[i]? = some x := by
  obtain ⟨t, rfl⟩ := h
  rw [getElem?_append_left (List.getElem?_eq_some_iff.1 hx).1, hx]

theorem prefix_snoc {l' : List α} (h : l <+: l') (hx : l'[l.length]? = some x) :
    l ++ [x] <+: l' := by
  obtain ⟨t, rfl⟩ := h
  cases t with
  | nil => simp at hx
  | cons y t =>
    obtain rfl : y = x := by simpa using hx
    exact ⟨t, by simp⟩

end Traces
