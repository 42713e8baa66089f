import Mathlib.Data.List.Basic

/-!
# Lists in memory

`put` writes a list from an address on, `Holds` says that it is there, `upTo` reads up to a given
value.
-/

namespace Cells
open List
variable {α : Type*} {m : ℕ → α} {a b i n : ℕ} {xs ys : List α}

def put (m : ℕ → α) (a : ℕ) (xs : List α) : ℕ → α := fun i =>
  if a ≤ i then xs[i - a]?.getD (m i) else m i

def Holds (m : ℕ → α) (a : ℕ) (xs : List α) : Prop := ∀ i x, xs[i]? = some x → m (a + i) = x

theorem put_of_lt (m : ℕ → α) (xs : List α) (h : i < a) : put m a xs i = m i :=
  if_neg (Nat.not_le.2 h)

theorem put_of_le (m : ℕ → α) (h : a + xs.length ≤ i) : put m a xs i = m i := by
  rw [put, if_pos (by omega), getElem?_eq_none (by omega), Option.getD_none]

@[simp] theorem put_nil (m : ℕ → α) (a : ℕ) : put m a [] = m :=
  funext fun i => if h : a ≤ i then put_of_le m h else put_of_lt m [] (Nat.not_le.1 h)

theorem holds_put (m : ℕ → α) (a : ℕ) (xs : List α) : Holds (put m a xs) a xs := by
  intro i x hx
  rw [put, if_pos (Nat.le_add_right a i), Nat.add_sub_cancel_left, hx, Option.getD_some]

theorem lt_length_of_getElem? {x : α} (h : xs[i]? = some x) : i < xs.length :=
  (List.getElem?_eq_some_iff.1 h).1

theorem Holds.put (h : Holds m a xs) (hdisj : b + ys.length ≤ a ∨ a + xs.length ≤ b) :
    Holds (put m b ys) a xs := by
  intro i x hx
  have hi := lt_length_of_getElem? hx
  rcases hdisj with hle | hle
  · rw [put_of_le m (by omega), h i x hx]
  · rw [put_of_lt m ys (by omega), h i x hx]

theorem holds_append : Holds m a (xs ++ ys) ↔ Holds m a xs ∧ Holds m (a + xs.length) ys := by
  constructor
  · intro h
    refine ⟨fun i x hx => h i x ?_, fun i x hx => ?_⟩
    · rw [getElem?_append_left (lt_length_of_getElem? hx), hx]
    · rw [Nat.add_assoc]
      refine h _ x ?_
      rw [getElem?_append_right (Nat.le_add_right _ _), Nat.add_sub_cancel_left, hx]
  · rintro ⟨hxs, hys⟩ i x hx
    by_cases hi : i < xs.length
    · rw [getElem?_append_left hi] at hx
      exact hxs i x hx
    · rw [getElem?_append_right (Nat.not_lt.1 hi)] at hx
      have hsum : a + i = a + xs.length + (i - xs.length) := by omega
      rw [hsum]
      exact hys _ x hx

theorem put_append (m : ℕ → α) (a : ℕ) (xs ys : List α) :
    put m a (xs ++ ys) = put (put m a xs) (a + xs.length) ys := by
  funext i
  by_cases hlt : i < a
  · rw [put_of_lt m _ hlt, put_of_lt _ ys (by omega), put_of_lt m xs hlt]
  by_cases hxs : i < a + xs.length
  · rw [put_of_lt _ ys hxs, put, put, if_pos (Nat.not_lt.1 hlt), if_pos (Nat.not_lt.1 hlt),
      getElem?_append_left (by omega)]
  · rw [put, if_pos (Nat.not_lt.1 hlt), getElem?_append_right (by omega), put,
      if_pos (Nat.not_lt.1 hxs), put_of_le m (Nat.not_lt.1 hxs), Nat.sub_sub]

def upTo [DecidableEq α] (z : α) (m : ℕ → α) : ℕ → ℕ → List α
  | 0, _ => []
  | n + 1, a => if m a = z then [] else m a :: upTo z m n (a + 1)

theorem not_mem_upTo [DecidableEq α] (z : α) (m : ℕ → α) (n a : ℕ) : z ∉ upTo z m n a := by
  induction n generalizing a with
  | zero => exact not_mem_nil
  | succ n ih =>
    rw [upTo]
    split_ifs with hz
    · exact not_mem_nil
    · exact fun hmem => (mem_cons.1 hmem).elim (fun heq => hz heq.symm) (ih _)

/-- A list without `z` is not longer than one behind which `z` stands. -/
theorem Holds.length_le {z : α} (hz : z ∉ ys) (hys : Holds m a ys) (hxs : Holds m a (xs ++ [z])) :
    ys.length ≤ xs.length := by
  by_contra hlt
  have hin := Nat.not_le.1 hlt
  have hend : m (a + xs.length) = z := (holds_append.1 hxs).2 0 z rfl
  rw [hys _ _ (getElem?_eq_getElem hin)] at hend
  exact hz (hend ▸ getElem_mem hin)

section
variable [DecidableEq α] {z : α} (hz : z ∉ xs)
include hz

theorem upTo_append (h : Holds m a xs) (n : ℕ) :
    upTo z m (xs.length + n) a = xs ++ upTo z m n (a + xs.length) := by
  induction xs generalizing a with
  | nil => rw [length_nil, Nat.zero_add, Nat.add_zero, nil_append]
  | cons x xs ih =>
    have hne : x ≠ z := fun hx => hz (hx ▸ mem_cons_self)
    have hz : z ∉ xs := fun hmem => hz (mem_cons_of_mem x hmem)
    have hx : m a = x := h 0 x rfl
    have hrest : Holds m (a + 1) xs := (holds_append.1 (show Holds m a ([x] ++ xs) from h)).2
    rw [length_cons, Nat.succ_add, upTo, hx, if_neg hne, ih hz hrest, cons_append,
      Nat.add_assoc a, Nat.add_comm 1]

theorem upTo_length (h : Holds m a xs) : upTo z m xs.length a = xs := by
  have hall := upTo_append hz h 0
  rwa [Nat.add_zero, upTo, append_nil] at hall

theorem upTo_of_holds (h : Holds m a (xs ++ [z])) (hn : xs.length < n) : upTo z m n a = xs := by
  obtain ⟨hxs, hend⟩ := holds_append.1 h
  obtain ⟨k, rfl⟩ : ∃ k, n = xs.length + (k + 1) := ⟨n - xs.length - 1, by omega⟩
  have hz' : m (a + xs.length) = z := hend 0 z rfl
  rw [upTo_append hz hxs, upTo, if_pos hz', append_nil]

end

end Cells
