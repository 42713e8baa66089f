import Mathlib

/-!
# `memmove`

The downward loop of `memmove` uses `n - i` as its index, from `n` to `1`: it copies the byte behind
both ranges and not the first one.
-/

namespace Wedge.Memmove
open Function List

abbrev Word := BitVec 32
abbrev Byte := BitVec 8

structure Access where
  mem : Word → Byte
  reads : List Word
  writes : List Word

/-- `*d = *s`. -/
def Access.assign (m : Access) (d s : Word) : Access :=
  ⟨update m.mem d (m.mem s), m.reads ++ [s], m.writes ++ [d]⟩

def upwards (dest src : Word) (m : Access) (i : ℕ) : Access :=
  m.assign (dest + BitVec.ofNat 32 i) (src + BitVec.ofNat 32 i)

def downwards (dest src n : Word) (m : Access) (i : ℕ) : Access :=
  m.assign (dest + (n - BitVec.ofNat 32 i)) (src + (n - BitVec.ofNat 32 i))

def memmove (mem : Word → Byte) (dest src n : Word) : Access :=
  if dest ≤ src then (range n.toNat).foldl (upwards dest src) ⟨mem, [], []⟩
  else (range n.toNat).foldl (downwards dest src n) ⟨mem, [], []⟩

/-- The address lies in `base[0..n)`. -/
def InRange (base n a : Word) : Prop := base.toNat ≤ a.toNat ∧ a.toNat < base.toNat + n.toNat

structure Moves (mem : Word → Byte) (dest src n : Word) : Prop where
  copied : ∀ i < n.toNat, (memmove mem dest src n).mem (dest + BitVec.ofNat 32 i) =
    mem (src + BitVec.ofNat 32 i)
  reads : ∀ a ∈ (memmove mem dest src n).reads, InRange src n a
  writes : ∀ a ∈ (memmove mem dest src n).writes, InRange dest n a

variable {mem : Word → Byte} {dest src n : Word}

theorem toNat_index {base : Word} (hbase : base.toNat + n.toNat ≤ 2 ^ 32) {i : ℕ}
    (hi : i < n.toNat) : (base + BitVec.ofNat 32 i).toNat = base.toNat + i := by
  rw [BitVec.toNat_add, BitVec.toNat_ofNat, Nat.add_mod_mod, Nat.mod_eq_of_lt (by omega)]

structure Copied (mem : Word → Byte) (dest src n : Word) (k : ℕ) (m : Access) : Prop where
  copied : ∀ i < k, m.mem (dest + BitVec.ofNat 32 i) = mem (src + BitVec.ofNat 32 i)
  others : ∀ a : Word, (∀ i < k, a ≠ dest + BitVec.ofNat 32 i) → m.mem a = mem a
  reads : ∀ a ∈ m.reads, InRange src n a
  writes : ∀ a ∈ m.writes, InRange dest n a

theorem Copied.upwards {k : ℕ} {m : Access} (h : Copied mem dest src n k m) (hk : k < n.toNat)
    (hle : dest ≤ src) (hsrc : src.toNat + n.toNat ≤ 2 ^ 32)
    (hdest : dest.toNat + n.toNat ≤ 2 ^ 32) :
    Copied mem dest src n (k + 1) (upwards dest src m k) := by
  have hs := toNat_index hsrc hk
  have hd := toNat_index hdest hk
  rw [BitVec.le_def] at hle
  -- the bytes that are written so far lie below the one that is read now
  have hread : m.mem (src + BitVec.ofNat 32 k) = mem (src + BitVec.ofNat 32 k) := by
    refine h.others _ fun i hi he => ?_
    have := toNat_index hdest (hi.trans hk)
    rw [← he] at this
    omega
  refine ⟨fun i hi => ?_, fun a ha => ?_, fun a ha => ?_, fun a ha => ?_⟩
  · rcases Nat.lt_succ_iff_lt_or_eq.1 hi with hlt | rfl
    · have hne : dest + BitVec.ofNat 32 i ≠ dest + BitVec.ofNat 32 k := fun he => by
        have := toNat_index hdest (hlt.trans hk)
        rw [he] at this
        omega
      exact (update_of_ne hne ..).trans (h.copied i hlt)
    · exact (update_self ..).trans hread
  · exact (update_of_ne (ha k k.lt_succ_self) ..).trans
      (h.others a fun i hi => ha i (hi.trans k.lt_succ_self))
  · rcases mem_append.1 ha with ha | ha
    · exact h.reads a ha
    · rw [mem_singleton.1 ha, InRange]
      omega
  · rcases mem_append.1 ha with ha | ha
    · exact h.writes a ha
    · rw [mem_singleton.1 ha, InRange]
      omega

theorem copied_foldl (hle : dest ≤ src) (hsrc : src.toNat + n.toNat ≤ 2 ^ 32)
    (hdest : dest.toNat + n.toNat ≤ 2 ^ 32) {k : ℕ} (hk : k ≤ n.toNat) :
    Copied mem dest src n k ((range k).foldl (upwards dest src) ⟨mem, [], []⟩) := by
  induction k with
  | zero => exact ⟨by simp, by simp, by simp, by simp⟩
  | succ k ih =>
    rw [range_succ, foldl_append]
    exact (ih (by omega)).upwards hk hle hsrc hdest

theorem mem_foldl_downwards (hdest : dest.toNat + n.toNat ≤ 2 ^ 32) {k : ℕ} (hk : k ≤ n.toNat) :
    ((range k).foldl (downwards dest src n) ⟨mem, [], []⟩).mem dest = mem dest := by
  induction k with
  | zero => rfl
  | succ k ih =>
    rw [range_succ, foldl_append]
    have hne : dest ≠ dest + (n - BitVec.ofNat 32 k) := fun he => by
      have hzero := congrArg BitVec.toNat he
      have hlt := n.isLt
      have hoff : (n - BitVec.ofNat 32 k).toNat = n.toNat - k := by
        rw [BitVec.toNat_sub_of_le (by rw [BitVec.le_def, BitVec.toNat_ofNat]; omega),
          BitVec.toNat_ofNat, Nat.mod_eq_of_lt (by omega)]
      rw [BitVec.toNat_add, hoff] at hzero
      omega
    exact (update_of_ne hne ..).trans (ih (by omega))

/-- **`memmove` copies the source and touches nothing else**, for ranges that do not wrap, exactly
when the destination does not lie behind the source, or there is nothing to copy. -/
theorem moves_iff (hsrc : src.toNat + n.toNat ≤ 2 ^ 32) (hdest : dest.toNat + n.toNat ≤ 2 ^ 32) :
    (∀ mem, Moves mem dest src n) ↔ dest ≤ src ∨ n = 0 := by
  constructor
  · intro h
    by_contra hnot
    rw [not_or] at hnot
    have hn : 0 < n.toNat := by
      rw [Nat.pos_iff_ne_zero]
      exact fun h0 => hnot.2 (BitVec.eq_of_toNat_eq h0)
    have hne : src ≠ dest := fun he => hnot.1 (he ▸ BitVec.le_refl _)
    -- a memory with a one in the first byte of the source only
    have hcopied := (h (update (fun _ => 0) src 1)).copied 0 hn
    rw [memmove, if_neg hnot.1, BitVec.add_zero, BitVec.add_zero, mem_foldl_downwards hdest le_rfl,
      update_self, update_of_ne hne.symm] at hcopied
    exact absurd hcopied (by decide)
  · rintro (hle | rfl) mem
    · obtain ⟨hcopied, -, hreads, hwrites⟩ : Copied mem dest src n n.toNat _ :=
        copied_foldl hle hsrc hdest le_rfl
      constructor <;> rw [memmove, if_pos hle]
      exacts [hcopied, hreads, hwrites]
    · constructor <;> simp [memmove]

theorem moves_down : (4 : Word) ≤ 5 ∧ ∀ mem, Moves mem 4 5 2 :=
  ⟨by decide, (moves_iff (by decide) (by decide)).2 (.inl (by decide))⟩

theorem not_moves_up : ∃ (mem : Word → Byte) (dest src n : Word), src.toNat + n.toNat ≤ 2 ^ 32 ∧
    dest.toNat + n.toNat ≤ 2 ^ 32 ∧ (memmove mem dest src n).mem dest ≠ mem src ∧
      dest + n ∈ (memmove mem dest src n).writes ∧ ¬ Moves mem dest src n := by
  have hfirst : (memmove (fun a => a.setWidth 8) 5 4 2).mem 5 ≠ 4 := by decide
  exact ⟨fun a => a.setWidth 8, 5, 4, 2, by decide, by decide, hfirst, by decide,
    fun h => hfirst (h.copied 0 (by decide))⟩

end Wedge.Memmove
