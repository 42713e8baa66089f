import Mathlib.Tactic

/-!
# Running a string of bytes

A decoder reads an instruction at the head of a string of bytes; `run` executes a whole string.
-/

namespace Decoding
open List
variable {w : ℕ} {β ι σ : Type*}

def run (decode : BitVec w → List β → Option (ι × List β)) (exec : σ → ι → σ) :
    ℕ → BitVec w → List β → σ → Option σ
  | _, _, [], s => some s
  | 0, _, _ :: _, _ => none
  | fuel + 1, addr, b :: bytes, s =>
    match decode addr (b :: bytes) with
    | none => none
    | some (i, rest) =>
      run decode exec fuel (addr + BitVec.ofNat w ((b :: bytes).length - rest.length)) rest
        (exec s i)

variable (decode : BitVec w → List β → Option (ι × List β)) (exec : σ → ι → σ)

def Encodes (addr : BitVec w) (b : List β) (i : ι) : Prop :=
  b ≠ [] ∧ ∀ rest, decode addr (b ++ rest) = some (i, rest)

inductive Decodes : BitVec w → List β → List ι → Prop
  | nil (addr : BitVec w) : Decodes addr [] []
  | cons {addr : BitVec w} {b bytes : List β} {i : ι} {is : List ι} (h : Encodes decode addr b i)
      (hs : Decodes (addr + BitVec.ofNat w b.length) bytes is) :
      Decodes addr (b ++ bytes) (i :: is)

variable {decode} {addr : BitVec w} {b bytes : List β} {i : ι} {is : List ι}

theorem Decodes.snoc (hs : Decodes decode addr bytes is)
    (h : Encodes decode (addr + BitVec.ofNat w bytes.length) b i) :
    Decodes decode addr (bytes ++ b) (is ++ [i]) := by
  induction hs with
  | nil addr =>
    rw [length_nil, BitVec.add_zero] at h
    have := Decodes.cons h (.nil _)
    rwa [append_nil] at this
  | cons h' hs ih =>
    rw [append_assoc]
    refine .cons h' (ih ?_)
    rwa [length_append, BitVec.ofNat_add, ← BitVec.add_assoc] at h

theorem Decodes.length_le (h : Decodes decode addr bytes is) : is.length ≤ bytes.length := by
  induction h with
  | nil => exact le_rfl
  | cons h hs ih =>
    have := length_pos_of_ne_nil h.1
    rw [length_cons, length_append]
    omega

theorem run_of_decodes (h : Decodes decode addr bytes is) {fuel : ℕ} (hfuel : is.length ≤ fuel)
    (s : σ) : run decode exec fuel addr bytes s = some (is.foldl exec s) := by
  induction h generalizing fuel s with
  | nil addr => cases fuel <;> rfl
  | @cons addr b bytes i is h hs ih =>
    rw [length_cons] at hfuel
    obtain ⟨fuel, rfl⟩ : ∃ n, fuel = n + 1 := ⟨fuel - 1, by omega⟩
    obtain ⟨c, b, rfl⟩ := exists_cons_of_ne_nil h.1
    have hdec := h.2 bytes
    rw [cons_append] at hdec ⊢
    have hlen : (c :: (b ++ bytes)).length - bytes.length = (c :: b).length := by
      simp only [length_cons, length_append]
      omega
    rw [run, hdec]
    show run decode exec fuel (addr + BitVec.ofNat w ((c :: (b ++ bytes)).length - bytes.length))
      bytes (exec s i) = _
    rw [hlen, ih (by omega)]
    rfl

end Decoding
