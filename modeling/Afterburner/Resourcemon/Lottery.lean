import Mathlib

/-!
# The lottery of the virtual interrupt scheduler

Every runnable VM has tickets; a random number below their sum is drawn, and the VM whose tickets
cover it is scheduled.
-/

namespace Resourcemon.Lottery
open List Option Function

abbrev Word := BitVec 32

def rand (s : Word) : Int × Word :=
  let s := 48271 * (s % 44488) - 3399 * (s / 44488)
  let s := if s < 0 then s + (1 <<< 31 - 1) else s
  (s.toInt, s)

/-- The modulus `2 ^ 31 - 1`. -/
def modulus : ℕ := 2147483647

structure Lawful (s : Word) : Prop where
  state : (rand s).2.toNat = 48271 * s.toNat % modulus
  returned : 1 ≤ (rand s).1 ∧ (rand s).1 ≤ modulus - 1

def stateAt (n : ℕ) : Word := (fun s => (rand s).2)^[n] 1

theorem toNat_rand (s : Word) : (rand s).2.toNat =
    if 3399 * (s.toNat / 44488) ≤ 48271 * (s.toNat % 44488) then
      48271 * (s.toNat % 44488) - 3399 * (s.toNat / 44488)
    else 2 ^ 32 - (3399 * (s.toNat / 44488) - 48271 * (s.toNat % 44488)) := by
  have hs := s.isLt
  have hmod : (48271 * (s % 44488) : Word).toNat = 48271 * (s.toNat % 44488) := by
    grind [BitVec.toNat_mul, BitVec.toNat_umod, Nat.mod_eq_of_lt]
  have hdiv : (3399 * (s / 44488) : Word).toNat = 3399 * (s.toNat / 44488) := by
    grind [BitVec.toNat_mul, BitVec.toNat_udiv, Nat.mod_eq_of_lt]
  have hstate : (rand s).2 = 48271 * (s % 44488) - 3399 * (s / 44488) := by
    simp [rand]
  rw [hstate, BitVec.toNat_sub, hmod, hdiv]
  split_ifs <;> omega

theorem schrage (s : ℕ) (h : 3399 * (s / 44488) ≤ 48271 * (s % 44488)) :
    48271 * s % modulus = 48271 * (s % 44488) - 3399 * (s / 44488) := by
  have hsum : 48271 * s =
      48271 * (s % 44488) - 3399 * (s / 44488) + modulus * (s / 44488) := by
    unfold modulus
    omega
  rw [hsum, Nat.add_mul_mod_self_left, Nat.mod_eq_of_lt]
  unfold modulus
  omega

/-- **A call of `rand` steps through the sequence of Park and Miller** exactly when the difference
of the two products is positive; the state is unsigned, and a negative difference is not
corrected. -/
theorem lawful_stateAt_iff (n : ℕ) : Lawful (stateAt n) ↔
    3399 * ((stateAt n).toNat / 44488) < 48271 * ((stateAt n).toNat % 44488) := by
  generalize stateAt n = s
  have hrand := toNat_rand s
  have hint : (rand s).1 = (rand s).2.toInt := rfl
  constructor
  · rintro ⟨hstate, hpos, -⟩
    by_contra hle
    rw [Nat.not_lt] at hle
    rcases hle.eq_or_lt with heq | hlt
    · rw [if_pos heq.ge, heq, Nat.sub_self] at hrand
      rw [hint, BitVec.toInt, hrand] at hpos
      simp at hpos
    · rw [if_neg (by omega)] at hrand
      unfold modulus at *
      omega
  · intro hlt
    rw [if_pos hlt.le] at hrand
    refine ⟨by rw [hrand, schrage _ hlt.le], ?_⟩
    rw [hint, BitVec.toInt, hrand, if_pos (by omega)]
    unfold modulus
    omega

theorem not_lawful_fifth : (rand (stateAt 4)).1 < 0 ∧ ¬ Lawful (stateAt 4) := by
  have hneg : (rand (stateAt 4)).1 < 0 := by decide
  exact ⟨hneg, fun h => absurd h.returned.1 (by omega)⟩

inductive VmState
  | runnable
  | yield
  | blocked
  | invalid
  deriving DecidableEq, Repr

structure VmContext where
  state : VmState
  ticket : Word
  eticket : Word
  apower : Word
  vpower : Word
  deriving DecidableEq, Repr

/-- `scheduler`: 0, 1 or 2. -/
inductive Scheduler
  | apower
  | vpower
  | ticket
  deriving DecidableEq, Repr

structure Virq where
  vctx : ℕ → VmContext
  numVms : ℕ
  scheduler : Scheduler
  apower : Word
  cpower : Word
  scheduled : ℕ

variable (v : Virq)

def eticketOf (c : VmContext) : Scheduler → Word
  | .apower => 1 + 100 * c.ticket / (c.apower / 1000 + 1)
  | .vpower => 1 + 100 * c.ticket / (c.vpower / 1000 + 1)
  | .ticket => c.ticket

def countTicket (p : Virq × Word) (i : ℕ) : Virq × Word :=
  if (p.1.vctx i).state = .runnable then
    let e := eticketOf (p.1.vctx i) p.1.scheduler
    ({ p.1 with vctx := update p.1.vctx i { p.1.vctx i with eticket := e } }, p.2 + e)
  else p

def countTickets : Virq × Word := (range v.numVms).foldl countTicket (v, 0)

def capped (esum seed : Word) : Word × Word :=
  if v.cpower ≠ 0 ∧ v.cpower * 100 / (v.apower + 1) < 100 then
    let (r, seed) := rand seed
    let lottery := BitVec.ofInt 32 (r.tmod 100)
    (if v.cpower * 100 / (v.apower + 1) < lottery then 0 else esum, seed)
  else (esum, seed)

def draw (v : Virq) (lottery : Word) : List ℕ → Word → Option ℕ
  | [], _ => none
  | i :: is, winner =>
    if (v.vctx i).state = .runnable then
      let winner := winner + (v.vctx i).eticket
      if lottery < winner then some i else draw v lottery is winner
    else draw v lottery is winner

def elect (lottery : Word) : Virq :=
  match draw v lottery (range v.numVms) 0 with
  | some i => { v with scheduled := i }
  | none => v

def reschedule (seed : Word) : Virq × Word :=
  let (v, esum) := countTickets v
  let (esum, seed) := capped v esum seed
  if esum ≠ 0 then
    let (r, seed) := rand seed
    (elect v (BitVec.ofInt 32 r % esum), seed)
  else ({ v with scheduled := 0 }, seed)

def share (i : ℕ) : ℕ :=
  if (v.vctx i).state = .runnable then (v.vctx i).eticket.toNat else 0

/-- Every number below `esum` elects a runnable VM, and each runnable VM is elected by as many of
them as it has tickets. -/
structure Fair (esum : Word) : Prop where
  winner : ∀ l < esum, (elect v l).scheduled < v.numVms ∧
    (v.vctx (elect v l).scheduled).state = .runnable
  share : ∀ i < v.numVms, (v.vctx i).state = .runnable →
    ((Finset.range esum.toNat).filter fun l =>
      (elect v (BitVec.ofNat 32 l)).scheduled = i).card = (v.vctx i).eticket.toNat

/-- The VMs below `k` have their tickets. -/
def ticketed (k : ℕ) : Virq :=
  { v with vctx := fun i =>
      if i < k ∧ (v.vctx i).state = .runnable then
        { v.vctx i with eticket := eticketOf (v.vctx i) v.scheduler }
      else v.vctx i }

@[simp] theorem state_ticketed (k i : ℕ) :
    ((ticketed v k).vctx i).state = (v.vctx i).state := by
  simp only [ticketed]
  split_ifs <;> rfl

theorem ticketed_succ (k : ℕ) : ticketed v (k + 1) =
    if (v.vctx k).state = .runnable then
      { ticketed v k with
        vctx := update (ticketed v k).vctx k
          { v.vctx k with eticket := eticketOf (v.vctx k) v.scheduler } }
    else ticketed v k := by
  split_ifs with hk <;> simp only [ticketed, Virq.mk.injEq, and_true] <;> funext i <;>
    rcases eq_or_ne i k with rfl | hne
  · simp [hk]
  · rw [update_of_ne hne]
    simp only [Nat.lt_succ_iff_lt_or_eq, hne, or_false]
  · simp [hk]
  · simp only [Nat.lt_succ_iff_lt_or_eq, hne, or_false]

/-- The sum of `f 0`, …, `f (n - 1)`. -/
def upTo (f : ℕ → ℕ) (n : ℕ) : ℕ := ((range n).map f).sum

theorem upTo_succ (f : ℕ → ℕ) (n : ℕ) : upTo f (n + 1) = upTo f n + f n := by
  simp [upTo, range_succ]

theorem upTo_mono (f : ℕ → ℕ) : Monotone (upTo f) :=
  monotone_nat_of_le_succ fun n => by rw [upTo_succ]; omega

def weight (i : ℕ) : ℕ :=
  if (v.vctx i).state = .runnable then (eticketOf (v.vctx i) v.scheduler).toNat else 0

theorem foldl_countTicket (k : ℕ) :
    (range k).foldl countTicket (v, 0) =
      (ticketed v k, BitVec.ofNat 32 (upTo (weight v) k)) := by
  induction k with
  | zero => simp [ticketed, upTo]
  | succ k ih =>
    have hctx : (ticketed v k).vctx k = v.vctx k := by simp [ticketed]
    rw [range_succ, foldl_append, ih, foldl_cons, foldl_nil, countTicket, hctx,
      ticketed_succ, upTo_succ, weight]
    split_ifs
    · rw [BitVec.ofNat_add, BitVec.ofNat_toNat, BitVec.setWidth_eq]
      rfl
    · rfl

theorem share_ticketed {k i : ℕ} (hi : i < k) : share (ticketed v k) i = weight v i := by
  rw [share, weight, state_ticketed]
  split_ifs with hrun
  · simp [ticketed, hi, hrun]
  · rfl

theorem upTo_share_ticketed (n : ℕ) :
    upTo (share (ticketed v n)) n = upTo (weight v) n := by
  rw [upTo, upTo, map_congr_left fun i hi => share_ticketed v (mem_range.1 hi)]

variable {v} {l : Word}

theorem draw_cons (i : ℕ) (is : List ℕ) (a : Word) : draw v l (i :: is) a =
    if (v.vctx i).state = .runnable ∧ l < a + BitVec.ofNat 32 (share v i) then some i
    else draw v l is (a + BitVec.ofNat 32 (share v i)) := by
  by_cases hrun : (v.vctx i).state = .runnable <;> simp [draw, share, hrun]

theorem draw_append (is js : List ℕ) (a : Word) : draw v l (is ++ js) a =
    (draw v l is a).or (draw v l js (a + BitVec.ofNat 32 (is.map (share v)).sum)) := by
  induction is generalizing a with
  | nil => simp [draw]
  | cons i is ih =>
    rw [cons_append, draw_cons, draw_cons, ih, map_cons, sum_cons, BitVec.ofNat_add,
      BitVec.add_assoc]
    split_ifs <;> rfl

theorem draw_range {n : ℕ} (hfits : upTo (share v) n < 2 ^ 32) :
    (∀ i, draw v l (range n) 0 = some i ↔
      i < n ∧ upTo (share v) i ≤ l.toNat ∧ l.toNat < upTo (share v) (i + 1)) ∧
      (draw v l (range n) 0 = none ↔ upTo (share v) n ≤ l.toNat) := by
  induction n with
  | zero => simp [draw, upTo]
  | succ n ih =>
    have hsum := upTo_succ (share v) n
    obtain ⟨hsome, hnone⟩ := ih (by omega)
    have hrun : share v n ≠ 0 → (v.vctx n).state = .runnable := fun h => by
      by_contra hnot
      exact h (if_neg hnot)
    have hbound : (0 + BitVec.ofNat 32 (upTo (share v) n) + BitVec.ofNat 32 (share v n)).toNat =
        upTo (share v) (n + 1) := by
      rw [BitVec.add_assoc, ← BitVec.ofNat_add, ← hsum]
      simpa using hfits
    have hdraw : draw v l (range (n + 1)) 0 = (draw v l (range n) 0).or
        (if (v.vctx n).state = .runnable ∧ l.toNat < upTo (share v) (n + 1) then some n
          else none) := by
      rw [range_succ, draw_append, ← upTo, draw_cons]
      simp only [BitVec.lt_def, hbound, draw]
    rw [hdraw]
    rcases Nat.lt_or_ge l.toNat (upTo (share v) n) with hlt | hge
    · -- the number is covered by an earlier VM
      obtain ⟨j, hj⟩ := ne_none_iff_exists'.1 fun h => (hnone.1 h).not_gt hlt
      refine ⟨fun i => ?_, ?_⟩
      · rw [← (hsome i).trans (and_congr_left fun h => ?_), hj, some_or]
        constructor
        · intro hi
          exact hi.trans n.lt_succ_self
        · intro hi
          by_contra hle
          have := upTo_mono (share v) (show n ≤ i by omega)
          omega
      · rw [hj, some_or]
        exact iff_of_false (some_ne_none j) (by omega)
    · rw [hnone.2 hge, none_or]
      refine ⟨fun i => ?_, ?_⟩
      · constructor
        · intro hi
          split_ifs at hi with hif
          cases hi
          exact ⟨n.lt_succ_self, hge, hif.2⟩
        · rintro ⟨hi, -, hlt⟩
          obtain rfl : i = n := by
            by_contra hne
            have := upTo_mono (share v) (show i + 1 ≤ n by omega)
            omega
          rw [if_pos ⟨hrun (by omega), hlt⟩]
      · rw [ite_eq_right_iff]
        constructor
        · intro h
          by_contra hlt
          exact absurd (h ⟨hrun (by omega), by omega⟩) (some_ne_none n)
        · intro h hif
          omega

theorem share_eq {i : ℕ} (h : (v.vctx i).state = .runnable) :
    share v i = (v.vctx i).eticket.toNat := if_pos h

theorem scheduled_elect (hfits : upTo (share v) v.numVms < 2 ^ 32)
    (hl : l.toNat < upTo (share v) v.numVms) {i : ℕ} : (elect v l).scheduled = i ↔
      i < v.numVms ∧ upTo (share v) i ≤ l.toNat ∧ l.toNat < upTo (share v) (i + 1) := by
  obtain ⟨hsome, hnone⟩ := draw_range (l := l) hfits
  obtain ⟨j, hj⟩ := ne_none_iff_exists'.1 fun h => (hnone.1 h).not_gt hl
  rw [← hsome i, elect, hj]
  exact some_inj.symm

theorem fair_of_fits (hfits : upTo (share v) v.numVms < 2 ^ 32) :
    Fair v (BitVec.ofNat 32 (upTo (share v) v.numVms)) := by
  have hsum : (BitVec.ofNat 32 (upTo (share v) v.numVms)).toNat = upTo (share v) v.numVms := by
    rw [BitVec.toNat_ofNat, Nat.mod_eq_of_lt hfits]
  refine ⟨fun l hl => ?_, fun i hi hrun => ?_⟩
  · rw [BitVec.lt_def, hsum] at hl
    obtain ⟨hin, hfrom, hto⟩ := (scheduled_elect hfits hl).1 rfl
    refine ⟨hin, ?_⟩
    by_contra hnot
    rw [upTo_succ, share, if_neg hnot] at hto
    omega
  · rw [← share_eq hrun, hsum]
    have hcover : ((Finset.range (upTo (share v) v.numVms)).filter fun l =>
        (elect v (BitVec.ofNat 32 l)).scheduled = i) =
          Finset.Ico (upTo (share v) i) (upTo (share v) i + share v i) := by
      ext l
      have hle := upTo_mono (share v) (show i + 1 ≤ v.numVms by omega)
      rw [Finset.mem_filter, Finset.mem_range, Finset.mem_Ico, ← upTo_succ]
      have hword (hl : l < upTo (share v) v.numVms) : (BitVec.ofNat 32 l).toNat = l := by
        rw [BitVec.toNat_ofNat, Nat.mod_eq_of_lt (by omega)]
      constructor
      · rintro ⟨hl, helect⟩
        have := (scheduled_elect hfits (by rwa [hword hl])).1 helect
        rw [hword hl] at this
        exact this.2
      · rintro ⟨hfrom, hto⟩
        have hl : l < upTo (share v) v.numVms := by omega
        refine ⟨hl, (scheduled_elect hfits (by rwa [hword hl])).2 ?_⟩
        rw [hword hl]
        exact ⟨hi, hfrom, hto⟩
    rw [hcover, Nat.card_Ico, Nat.add_sub_cancel_left]

theorem capped_eq_or (v : Virq) (esum seed : Word) :
    (capped v esum seed).1 = esum ∨ (capped v esum seed).1 = 0 := by
  unfold capped
  dsimp only
  split_ifs
  exacts [.inr rfl, .inl rfl, .inl rfl]

/-- **The lottery is fair.** If the tickets add up to a word, each runnable VM is elected by as many
of the `esum` possible numbers as it has tickets; when a lottery is held, the scheduler elects by
one of these numbers, and the VM it schedules is runnable. -/
theorem lottery_fair (v : Virq) (seed : Word) (hfits : upTo (weight v) v.numVms < 2 ^ 32) :
    let (v', esum) := countTickets v
    Fair v' esum ∧ ((capped v' esum seed).1 ≠ 0 →
      let lottery := BitVec.ofInt 32 (rand (capped v' esum seed).2).1 % esum
      lottery < esum ∧ (reschedule v seed).1 = elect v' lottery ∧
        (reschedule v seed).1.scheduled < v.numVms ∧
        (v.vctx (reschedule v seed).1.scheduled).state = .runnable) := by
  have hcount : countTickets v =
      (ticketed v v.numVms, BitVec.ofNat 32 (upTo (weight v) v.numVms)) := foldl_countTicket v _
  have hfair : Fair (ticketed v v.numVms) (BitVec.ofNat 32 (upTo (weight v) v.numVms)) := by
    rw [← upTo_share_ticketed] at hfits ⊢
    exact fair_of_fits hfits
  rw [hcount]
  refine ⟨hfair, fun hheld => ?_⟩
  have hcap := (capped_eq_or (ticketed v v.numVms) _ seed).resolve_right hheld
  set esum := BitVec.ofNat 32 (upTo (weight v) v.numVms)
  intro lottery
  have hlt : lottery < esum := BitVec.umod_lt _ ((BitVec.pos_iff_ne_zero _).2 (hcap ▸ hheld))
  have helect : (reschedule v seed).1 = elect (ticketed v v.numVms) lottery := by
    simp only [reschedule, hcount, hcap, ne_eq, hcap ▸ hheld, not_false_eq_true, if_true]
    rfl
  obtain ⟨hi, hrun⟩ := hfair.winner lottery hlt
  rw [helect]
  exact ⟨hlt, rfl, hi, state_ticketed v v.numVms _ ▸ hrun⟩

def threeVms : Virq where
  vctx i := ⟨if i = 1 then .blocked else .runnable, BitVec.ofNat 32 (i + 1), 0, 0, 0⟩
  numVms := 3
  scheduler := .ticket
  apower := 0
  cpower := 0
  scheduled := 0

theorem lottery_fair_threeVms : Fair (countTickets threeVms).1 4 ∧
    (threeVms.vctx (reschedule threeVms 1).1.scheduled).state = .runnable := by
  obtain ⟨hfair, hheld⟩ := lottery_fair threeVms 1 (by decide)
  exact ⟨hfair, (hheld (by decide)).2.2.2⟩

end Resourcemon.Lottery
