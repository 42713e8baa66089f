import Mathlib.Data.Nat.ModEq
import Mathlib.Tactic

/-!
# Rings addressed by growing positions

Position `p` of a run, without wrapping, lives in slot `p % cnt`; only a window of `cnt` positions
matters.
-/

namespace Ring
open Function Nat List
variable {α : Type*} {cnt a p q : ℕ}

def InWindow (cnt a p : ℕ) : Prop := a ≤ p ∧ p < a + cnt

theorem mod_eq_iff (hp : InWindow cnt a p) (hq : InWindow cnt a q) :
    p % cnt = q % cnt ↔ p = q := by
  constructor
  · intro h
    obtain ⟨hp, hp'⟩ := hp
    obtain ⟨hq, hq'⟩ := hq
    have key : ∀ m n, m ≤ n → n < m + cnt → m % cnt = n % cnt → m = n := by
      intro m n hmn hlt hmod
      have hdvd : cnt ∣ n - m := (modEq_iff_dvd' hmn).1 hmod
      have hzero := eq_zero_of_dvd_of_lt hdvd (by omega)
      omega
    rcases le_total p q with hpq | hqp
    · exact key p q hpq (by omega) h
    · exact (key q p hqp (by omega) h.symm).symm
  · rintro rfl
    rfl

theorem exists_inWindow (a : ℕ) {i : ℕ} (hi : i < cnt) : ∃ p, InWindow cnt a p ∧ p % cnt = i := by
  have hpos : 0 < cnt := by omega
  have hmod := mod_lt a hpos
  have hlt := mod_lt (i + cnt - a % cnt) hpos
  refine ⟨a + (i + cnt - a % cnt) % cnt, ⟨by omega, by omega⟩, ?_⟩
  have hsum : a + (i + cnt - a % cnt) = i + cnt * (a / cnt + 1) := by
    have := div_add_mod a cnt
    rw [mul_succ]
    omega
  rw [add_mod_mod, hsum, add_mul_mod_self_left, mod_eq_of_lt hi]

def view (cnt : ℕ) (f : ℕ → α) (p : ℕ) : α := f (p % cnt)

@[simp] theorem view_update_self (f : ℕ → α) (p : ℕ) (x : α) :
    view cnt (update f (p % cnt) x) p = x := update_self ..

theorem view_update_of_ne (hp : InWindow cnt a p) (hq : InWindow cnt a q) (h : q ≠ p) (f : ℕ → α)
    (x : α) : view cnt (update f (p % cnt) x) q = view cnt f q :=
  update_of_ne (fun hmod => h ((mod_eq_iff hq hp).1 hmod)) ..

theorem view_update (hp : InWindow cnt a p) (hq : InWindow cnt a q) (f : ℕ → α) (x : α) :
    view cnt (update f (p % cnt) x) q = if q = p then x else view cnt f q := by
  split_ifs with h
  · rw [h, view_update_self]
  · exact view_update_of_ne hp hq h ..

theorem succ_mod (cnt p : ℕ) : (p % cnt + 1) % cnt = (p + 1) % cnt := mod_add_mod p cnt 1

theorem available_eq {d f : ℕ} (h : InWindow cnt d f) :
    (d % cnt + cnt - (f % cnt + 1)) % cnt = cnt - 1 - (f - d) := by
  obtain ⟨hle, hlt⟩ := h
  obtain ⟨m, rfl⟩ := Nat.exists_eq_add_of_le hle
  have hd := Nat.mod_lt d (by omega : cnt > 0)
  rw [Nat.add_mod, Nat.mod_eq_of_lt (by omega : m < cnt)]
  generalize d % cnt = r at *
  rcases lt_or_ge (r + m) cnt with hwrap | hwrap
  · rw [mod_eq_of_lt hwrap, mod_eq_of_lt (by omega)]
    omega
  · rw [mod_eq_sub_mod hwrap, mod_eq_of_lt (by omega : r + m - cnt < cnt),
      mod_eq_sub_mod (by omega), mod_eq_of_lt (by omega)]
    omega

theorem pending_eq {d f : ℕ} (h : InWindow cnt d f) : (f % cnt + cnt - d % cnt) % cnt = f - d := by
  obtain ⟨hle, hlt⟩ := h
  obtain ⟨m, rfl⟩ := Nat.exists_eq_add_of_le hle
  have hd := Nat.mod_lt d (by omega : cnt > 0)
  rw [Nat.add_mod, Nat.mod_eq_of_lt (by omega : m < cnt)]
  generalize d % cnt = r at *
  rcases lt_or_ge (r + m) cnt with hwrap | hwrap
  · rw [mod_eq_of_lt hwrap, mod_eq_sub_mod (by omega), mod_eq_of_lt (by omega)]
    omega
  · rw [mod_eq_sub_mod hwrap, mod_eq_of_lt (by omega : r + m - cnt < cnt),
      mod_eq_of_lt (by omega)]
    omega

section Groups
variable {k k' : ℕ → ℕ} {m n i j : ℕ}

def start (k : ℕ → ℕ) (n : ℕ) : ℕ := ∑ i ∈ Finset.range n, (k i + 1)
@[simp] theorem start_zero (k : ℕ → ℕ) : start k 0 = 0 := rfl

theorem start_succ (k : ℕ → ℕ) (n : ℕ) : start k (n + 1) = start k n + k n + 1 :=
  Finset.sum_range_succ ..

theorem start_congr (h : ∀ i < n, k i = k' i) : start k n = start k' n :=
  Finset.sum_congr rfl fun i hi => by rw [h i (Finset.mem_range.1 hi)]

theorem start_mono (k : ℕ → ℕ) (h : m ≤ n) : start k m ≤ start k n :=
  Finset.sum_le_sum_of_subset (Finset.range_mono h)

theorem start_add_lt (k : ℕ → ℕ) (h : m < n) : start k m + k m < start k n := by
  have hle := start_mono k (succ_le_of_lt h)
  rw [succ_eq_add_one, start_succ] at hle
  omega

theorem lt_of_start_add_lt (h : start k m + i < start k n) : m < n := by
  by_contra hle
  have := start_mono k (not_lt.1 hle)
  omega

theorem exists_start_add (k : ℕ → ℕ) (p : ℕ) : ∃ n i, i ≤ k n ∧ p = start k n + i := by
  induction p with
  | zero => exact ⟨0, 0, zero_le _, rfl⟩
  | succ p ih =>
    obtain ⟨n, i, hi, rfl⟩ := ih
    rcases hi.lt_or_eq with hlt | rfl
    · exact ⟨n, i + 1, hlt, rfl⟩
    · exact ⟨n + 1, 0, zero_le _, by rw [start_succ]⟩

theorem start_add_inj (hi : i ≤ k m) (hj : j ≤ k n) :
    start k m + i = start k n + j ↔ m = n ∧ i = j := by
  constructor
  · intro h
    rcases lt_trichotomy m n with hlt | rfl | hlt
    · have := start_add_lt k hlt
      omega
    · exact ⟨rfl, by omega⟩
    · have := start_add_lt k hlt
      omega
  · rintro ⟨rfl, rfl⟩
    rfl

end Groups

/-! ### A log behind a ring

A producer puts each entry of a log into the slot of its position; a consumer frees those from `c`
on. -/

section Log
variable {β : Type*} {full : α → β} {free : β → Prop} {c : ℕ} {log : List α} {cells : ℕ → β}

structure Holds (cnt : ℕ) (full : α → β) (free : β → Prop) (c : ℕ) (log : List α) (cells : ℕ → β) :
    Prop where
  held : ∀ k x, c ≤ k → log[k]? = some x → view cnt cells k = full x
  free : ∀ k, log.length ≤ k → k < c + cnt → free (view cnt cells k)
  le : c ≤ log.length
  fits : log.length ≤ c + cnt

theorem Holds.init (h : ∀ i, free (cells i)) : Holds cnt full free 0 [] cells :=
  ⟨fun k x _ hx => by simp at hx, fun _ _ _ => h _, le_rfl, by simp⟩

section
variable (h : Holds cnt full free c log cells)
include h

theorem Holds.touch (hroom : log.length < c + cnt) {b : β} (hb : free b) :
    Holds cnt full free c log (update cells (log.length % cnt) b) := by
  have hn : InWindow cnt c log.length := ⟨h.le, hroom⟩
  refine ⟨fun k x hk hx => ?_, fun k hk hk' => ?_, h.le, h.fits⟩
  · have hlt : k < log.length := (List.getElem?_eq_some_iff.1 hx).1
    rw [view_update_of_ne hn ⟨hk, by omega⟩ (by omega)]
    exact h.held k x hk hx
  · by_cases hkn : k = log.length
    · subst hkn
      rwa [view_update_self]
    · rw [view_update_of_ne hn ⟨h.le.trans hk, hk'⟩ hkn]
      exact h.free k hk hk'

theorem Holds.push (hroom : log.length < c + cnt) (x : α) :
    Holds cnt full free c (log ++ [x]) (update cells (log.length % cnt) (full x)) := by
  have hn : InWindow cnt c log.length := ⟨h.le, hroom⟩
  have hlen : (log ++ [x]).length = log.length + 1 := length_append
  refine ⟨fun k y hk hy => ?_, fun k hk hk' => ?_, ?_, ?_⟩
  · have hlt : k < (log ++ [x]).length := (List.getElem?_eq_some_iff.1 hy).1
    by_cases hkn : k = log.length
    · subst hkn
      obtain rfl : x = y := by simpa using hy
      exact view_update_self ..
    · rw [view_update_of_ne hn ⟨hk, by omega⟩ hkn]
      rw [getElem?_append_left (by omega)] at hy
      exact h.held k y hk hy
  · rw [view_update_of_ne hn ⟨h.le.trans (by omega), hk'⟩ (by omega)]
    exact h.free k (by omega) hk'
  · have := h.le
    omega
  · omega

theorem Holds.pop (hc : c < log.length) (hcnt : 0 < cnt) {b : β} (hb : free b) :
    Holds cnt full free (c + 1) log (update cells (c % cnt) b) := by
  have hin : InWindow cnt c c := ⟨le_rfl, by omega⟩
  refine ⟨fun k x hk hx => ?_, fun k hk hk' => ?_, hc, by have := h.fits; omega⟩
  · have hlt : k < log.length := (List.getElem?_eq_some_iff.1 hx).1
    have hfits := h.fits
    rw [view_update_of_ne hin ⟨by omega, by omega⟩ (by omega)]
    exact h.held k x (by omega) hx
  · by_cases hkc : k = c + cnt
    · -- the slot that has been freed is the next one of the producer
      have hview : view cnt (update cells (c % cnt) b) k = b := by
        unfold view
        rw [hkc, add_mod_right, update_self]
      rwa [hview]
    · rw [view_update_of_ne hin ⟨by omega, by omega⟩ (by omega)]
      exact h.free k hk (by omega)

theorem Holds.front (hc : c < log.length) : ∃ x, log[c]? = some x ∧ cells (c % cnt) = full x :=
  ⟨log[c], getElem?_eq_getElem hc, h.held c _ le_rfl (getElem?_eq_getElem hc)⟩

theorem Holds.lt_of_not_free (hcnt : 0 < cnt) (hc : ¬ free (cells (c % cnt))) : c < log.length := by
  by_contra hge
  exact hc (h.free c (by omega) (by omega))

theorem Holds.lt_of_free (hfull : ∀ x, ¬ free (full x)) (hcnt : 0 < cnt)
    (hn : free (cells (log.length % cnt))) : log.length < c + cnt := by
  by_contra hge
  have hlen : log.length = c + cnt := le_antisymm h.fits (not_lt.1 hge)
  obtain ⟨x, -, hx⟩ := h.front (by omega)
  rw [hlen, add_mod_right, hx] at hn
  exact hfull x hn

end

theorem Holds.view_eq {cells : ℕ → Option α} (h : Holds cnt some (· = none) c log cells) {k : ℕ}
    (hc : c ≤ k) (hk : k < c + cnt) : view cnt cells k = log[k]? := by
  rcases lt_or_ge k log.length with hlt | hge
  · have hx : log[k]? = some log[k] := getElem?_eq_getElem hlt
    rw [hx]
    exact h.held k _ hc hx
  · rw [getElem?_eq_none hge]
    exact h.free k hge hk

theorem filterMap_range_getElem? (l : List α) (n : ℕ) :
    (range n).filterMap (fun j => l[j]?) = l.take n := by
  induction n with
  | zero => rfl
  | succ n ih =>
    rw [range_succ, filterMap_append, ih, take_add_one]
    cases h : l[n]? <;> simp [h]

theorem Holds.filterMap_range {cells : ℕ → Option α} (h : Holds cnt some (· = none) c log cells) :
    (range cnt).filterMap (fun j => cells ((c % cnt + j) % cnt)) = log.drop c := by
  have hslot : ∀ j ∈ range cnt, cells ((c % cnt + j) % cnt) = (log.drop c)[j]? := by
    intro j hj
    rw [mod_add_mod, getElem?_drop]
    exact h.view_eq (le_add_right c j) (by have := mem_range.1 hj; omega)
  have hfits : (log.drop c).length ≤ cnt := by
    have := h.fits
    rw [length_drop]
    omega
  rw [filterMap_congr hslot, filterMap_range_getElem?, take_of_length_le hfits]

end Log
end Ring
