import Mathlib.Logic.Function.Basic
import Mathlib.Tactic

/-!
# Tables with linear probing and deletion in place

A key is searched from its hash through all cells, put into the first empty one, and deleted by
writing the mark.
-/

namespace Probing
open Function Nat

def scanFrom (n start : ℕ) (test : ℕ → Bool) : ℕ → ℕ → Option ℕ
  | 0, _ => none
  | rounds + 1, idx =>
    if test idx = true then some idx
    else if (idx + 1) % n = start then none
    else scanFrom n start test rounds ((idx + 1) % n)

def scan (n start : ℕ) (test : ℕ → Bool) : Option ℕ := scanFrom n start test n start

variable {n start : ℕ} {test : ℕ → Bool}

theorem scanFrom_eq_some {rounds idx i : ℕ} (hidx : idx < n)
    (h : scanFrom n start test rounds idx = some i) : i < n ∧ test i = true := by
  induction rounds generalizing idx with
  | zero => exact absurd h (by simp [scanFrom])
  | succ rounds ih =>
    rw [scanFrom] at h
    split_ifs at h with htest hwrap
    · obtain rfl := Option.some.inj h
      exact ⟨hidx, htest⟩
    · exact ih (mod_lt _ (by omega)) h

theorem scan_eq_some (hstart : start < n) {i : ℕ} (h : scan n start test = some i) :
    i < n ∧ test i = true := scanFrom_eq_some hstart h

theorem scan_of_start (hn : 0 < n) (h : test start = true) : scan n start test = some start := by
  obtain ⟨n, rfl⟩ := exists_eq_succ_of_ne_zero hn.ne'
  rw [scan, scanFrom, if_pos h]

theorem add_mod_of_le (hstart : start < n) {d : ℕ} (hd : d ≤ n) :
    (start + d) % n = if start + d < n then start + d else start + d - n := by
  split_ifs with hlt
  · exact mod_eq_of_lt hlt
  · rw [mod_eq_sub_mod (not_lt.1 hlt), mod_eq_of_lt (by omega)]

theorem scanFrom_eq_none (hstart : start < n) {rounds d : ℕ} (hrounds : rounds + d = n)
    (h : scanFrom n start test rounds ((start + d) % n) = none) {e : ℕ} (hde : d ≤ e)
    (he : e < n) : test ((start + e) % n) = false := by
  induction rounds generalizing d with
  | zero => omega
  | succ rounds ih =>
    rw [scanFrom] at h
    split_ifs at h with htest hwrap
    · -- the next cell is the first one: this was the last
      obtain rfl : e = d := by
        rw [mod_add_mod, add_assoc, add_mod_of_le hstart (by omega)] at hwrap
        split_ifs at hwrap <;> omega
      simpa using htest
    · rw [mod_add_mod, add_assoc] at h
      rcases eq_or_lt_of_le hde with rfl | hlt
      · simpa using htest
      · exact ih (by omega) h hlt

/-- **The loop looks at every cell.** -/
theorem scan_eq_none_iff (hstart : start < n) :
    scan n start test = none ↔ ∀ i < n, test i = false := by
  constructor
  · intro h i hi
    have hzero : (start + 0) % n = start := mod_eq_of_lt hstart
    have hrot : ∃ e < n, (start + e) % n = i := by
      by_cases hle : start ≤ i
      · refine ⟨i - start, by omega, ?_⟩
        rw [Nat.add_sub_cancel' hle, Nat.mod_eq_of_lt hi]
      · refine ⟨i + n - start, by omega, ?_⟩
        rw [Nat.add_sub_cancel' (by omega), Nat.add_mod_right, Nat.mod_eq_of_lt hi]
    obtain ⟨e, he, rfl⟩ := hrot
    exact scanFrom_eq_none hstart (Nat.add_zero n) (hzero.symm ▸ h) (Nat.zero_le e) he
  · intro hall
    cases h : scan n start test with
    | none => rfl
    | some i =>
      obtain ⟨hi, htest⟩ := scan_eq_some hstart h
      rw [hall i hi] at htest
      exact absurd htest (by decide)

variable {κ : Type*}

def Represents (empty : κ) (n : ℕ) (t : ℕ → κ) (m : κ → Option ℕ) : Prop :=
  ∀ k ≠ empty, ∀ i, m k = some i ↔ i < n ∧ t i = k

def Full (empty : κ) (n : ℕ) (t : ℕ → κ) : Prop := ∀ i < n, t i ≠ empty

variable {hash : κ → ℕ} {empty : κ} {t : ℕ → κ} {m : κ → Option ℕ} {k : κ}

theorem represents_empty : Represents empty n (fun _ => empty) fun _ => none :=
  fun _ hk _ => ⟨fun h => absurd h (by simp), fun h => absurd h.2.symm hk⟩

theorem Represents.eq_none_iff (h : Represents empty n t m) (hk : k ≠ empty) :
    m k = none ↔ ∀ i < n, t i ≠ k := by
  rw [Option.eq_none_iff_forall_ne_some]
  refine forall_congr' fun i => ?_
  rw [ne_eq, h k hk i, not_and]

theorem Represents.clear (h : Represents empty n t m) (i : ℕ) :
    Represents empty n (update t i empty)
      fun k => if m k = some i then none else m k := by
  intro k hk j
  dsimp only
  by_cases hji : j = i
  · subst hji
    rw [update_self]
    refine iff_of_false ?_ fun hj => hk hj.2.symm
    split_ifs with hm
    · simp
    · exact hm
  · rw [update_of_ne hji, ← h k hk j]
    split_ifs with hm
    · rw [hm]
      simp [Ne.symm hji]
    · rfl

variable [DecidableEq κ]

def find (hash : κ → ℕ) (n : ℕ) (t : ℕ → κ) (k : κ) : Option ℕ :=
  scan n (hash k) fun i => t i = k

def room (hash : κ → ℕ) (empty : κ) (n : ℕ) (t : ℕ → κ) (k : κ) : Option ℕ :=
  scan n (hash k) fun i => t i = empty

/-- **A search is an application of the map.** -/
theorem Represents.find_eq (h : Represents empty n t m) (hk : k ≠ empty) (hhash : hash k < n) :
    find hash n t k = m k := by
  cases hfind : find hash n t k with
  | none =>
    refine ((h.eq_none_iff hk).2 fun i hi => ?_).symm
    have hne := (scan_eq_none_iff hhash).1 hfind i hi
    exact of_decide_eq_false hne
  | some i =>
    obtain ⟨hi, htest⟩ := scan_eq_some hhash hfind
    exact ((h k hk i).2 ⟨hi, of_decide_eq_true htest⟩).symm

theorem room_eq_some (hhash : hash k < n) {i : ℕ} (h : room hash empty n t k = some i) :
    i < n ∧ t i = empty := by
  obtain ⟨hi, htest⟩ := scan_eq_some hhash h
  exact ⟨hi, of_decide_eq_true htest⟩

theorem room_eq_none_iff (hhash : hash k < n) :
    room hash empty n t k = none ↔ Full empty n t := by
  rw [room, scan_eq_none_iff hhash]
  exact forall₂_congr fun i _ => decide_eq_false_iff_not

theorem Represents.put (h : Represents empty n t m) (hk : k ≠ empty) (hnew : m k = none) {i : ℕ}
    (hi : i < n) (hempty : t i = empty) :
    Represents empty n (update t i k) (update m k (some i)) := by
  intro k' hk' j
  by_cases hkk : k' = k
  · subst hkk
    rw [update_self, Option.some.injEq]
    constructor
    · rintro rfl
      exact ⟨hi, update_self ..⟩
    · rintro ⟨hj, heq⟩
      by_contra hne
      rw [update_of_ne (Ne.symm hne)] at heq
      exact (h.eq_none_iff hk).1 hnew j hj heq
  · rw [update_of_ne hkk, h k' hk' j]
    refine and_congr_right fun hj => ?_
    by_cases hji : j = i
    · grind
    · rw [update_of_ne hji]

end Probing
