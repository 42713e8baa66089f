import Mathlib.Tactic

/-!
# Windows of a memory

A memory maps addresses of a fixed width to bytes; `store m a bs` writes `bs` from `a` on.
-/

namespace Slots
variable {w : ℕ} {β : Type*} {m : BitVec w → β} {a b x : BitVec w} {bs : List β}

def store (m : BitVec w → β) (a : BitVec w) (bs : List β) (x : BitVec w) : β :=
  (bs[(x - a).toNat]?).getD (m x)

def Inside (a b x : BitVec w) : Prop := a ≤ x ∧ x < b

theorem store_of_length_le (h : bs.length ≤ (x - a).toNat) : store m a bs x = m x := by
  unfold store
  rw [List.getElem?_eq_none h]
  rfl

theorem store_add {i : ℕ} {y : β} (hi : i < 2 ^ w) (h : bs[i]? = some y) :
    store m a bs (a + BitVec.ofNat w i) = y := by
  have hsub : (a + BitVec.ofNat w i - a).toNat = i := by
    rw [BitVec.add_comm, BitVec.add_sub_cancel, BitVec.toNat_ofNat, Nat.mod_eq_of_lt hi]
  rw [store, hsub, h]
  rfl

theorem foldl_update_of_not_mem {stores : List (BitVec w × β)} (h : x ∉ stores.map Prod.fst) :
    stores.foldl (fun m y => Function.update m y.1 y.2) m x = m x := by
  induction stores generalizing m with
  | nil => rfl
  | cons y stores ih =>
    rw [List.map_cons, List.mem_cons, not_or] at h
    rw [List.foldl_cons, ih h.2, Function.update_of_ne h.1]

end Slots
