import Afterburner.Lib.Runs

/-!
# The disk energy controller

`earmeas` moves a client's throttle value `dt` down when its average power is above its budget, and
up when it is below a band under the budget.
-/

namespace Resourcemon.DiskThrottle
open Runs Function List

abbrev Word := BitVec 32

/-- `EARM_EAS_DISK_DELTA_PWR` -/
def deltaPwr : Word := 100

/-- `EARM_EAS_DISK_THROTTLE` -/
def maxThrottle : ℤ := 6000

/-- `EARM_EAS_DISK_DTF` -/
def dtf : ℤ := 4

/-- `EARM_EAS_DISK_MIN_LOGID` -/
def minLogid : ℕ := 4

/-- `dt` and `odt` of a client. -/
structure Client where
  dt : ℤ
  odt : ℤ
  deriving DecidableEq, Repr

variable (c : Client)

/-- The values of `earmeas_init`. -/
def Client.init : Client := ⟨maxThrottle, 0⟩

structure Measurement where
  avg : BitVec 64
  budget : Word
  deriving DecidableEq, Repr

variable (m : Measurement)

def Client.lowered : ℤ :=
  let dt :=
    if c.odt ≤ c.dt then c.dt - ((c.dt - c.odt).tdiv dtf + 1)
    else c.dt - ((dtf * (c.odt - c.dt)).tdiv (dtf - 1) + 1)
  if dt ≤ 1 then 1 else dt

def Client.raised : ℤ :=
  let dt :=
    if c.dt ≤ c.odt then c.dt + ((c.odt - c.dt).tdiv dtf + 1)
    else c.dt + ((dtf * (c.dt - c.odt)).tdiv (dtf - 1) + 1)
  if maxThrottle ≤ dt then maxThrottle else dt

def control : Client :=
  let cdt : Word := BitVec.ofInt 32 c.dt
  let dt :=
    if m.budget.setWidth 64 < m.avg then c.lowered
    else if m.avg < (m.budget - deltaPwr).setWidth 64 then c.raised
    else c.dt
  ⟨dt, cdt.toNat⟩

def controlDisk (maxLogidInUse : ℕ) (cs : ℕ → Client) (ms : ℕ → Measurement) : ℕ → Client :=
  (range' minLogid (maxLogidInUse + 1 - minLogid)).foldl
    (fun cs d => update cs d (control (cs d) (ms d))) cs

structure Obeyed (dt : ℤ) (m : Measurement) (dt' : ℤ) : Prop where
  range : 1 ≤ dt' ∧ dt' ≤ maxThrottle
  above : m.budget.toNat < m.avg.toNat → dt' < dt ∨ dt = 1 ∧ dt' = 1
  within : (m.budget.toNat : ℤ) - deltaPwr.toNat ≤ m.avg.toNat → m.avg.toNat ≤ m.budget.toNat →
    dt' = dt
  below : (m.avg.toNat : ℤ) < m.budget.toNat - deltaPwr.toNat →
    dt < dt' ∨ dt = maxThrottle ∧ dt' = maxThrottle

def Allowed : Prop :=
  deltaPwr.toNat ≤ m.budget.toNat ∨ m.budget.toNat < m.avg.toNat ∨ c.dt = maxThrottle

instance  : Decidable (Allowed c m) :=
  inferInstanceAs (Decidable (_ ∨ _))

structure Inv : Prop where
  dt : 1 ≤ c.dt ∧ c.dt ≤ maxThrottle
  odt : 0 ≤ c.odt ∧ c.odt ≤ maxThrottle

variable {c} {m}

theorem Inv.lowered (h : Inv c) : 1 ≤ c.lowered ∧ c.lowered ≤ maxThrottle ∧
    (c.lowered < c.dt ∨ c.dt = 1 ∧ c.lowered = 1) := by
  obtain ⟨⟨hpos, hle⟩, -, -⟩ := h
  have hdown : c.odt ≤ c.dt → 0 ≤ (c.dt - c.odt).tdiv dtf := fun h =>
    Int.tdiv_nonneg (by omega) (by decide)
  have hdown' : c.dt ≤ c.odt → 0 ≤ (dtf * (c.odt - c.dt)).tdiv (dtf - 1) := fun h =>
    Int.tdiv_nonneg (Int.mul_nonneg (by decide) (by omega)) (by decide)
  simp only [Client.lowered]
  split_ifs <;> omega

theorem Inv.raised (h : Inv c) : 1 ≤ c.raised ∧ c.raised ≤ maxThrottle ∧
    (c.dt < c.raised ∨ c.dt = maxThrottle ∧ c.raised = maxThrottle) := by
  obtain ⟨⟨hpos, hle⟩, -, -⟩ := h
  have hup : c.dt ≤ c.odt → 0 ≤ (c.odt - c.dt).tdiv dtf := fun h =>
    Int.tdiv_nonneg (by omega) (by decide)
  have hup' : c.odt ≤ c.dt → 0 ≤ (dtf * (c.dt - c.odt)).tdiv (dtf - 1) := fun h =>
    Int.tdiv_nonneg (Int.mul_nonneg (by decide) (by omega)) (by decide)
  simp only [Client.raised]
  split_ifs <;> omega

theorem toNat_budget (m : Measurement) : (m.budget.setWidth 64).toNat = m.budget.toNat := by rfl

theorem toNat_edge (m : Measurement) : ((m.budget - deltaPwr).setWidth 64).toNat =
    if deltaPwr.toNat ≤ m.budget.toNat then m.budget.toNat - deltaPwr.toNat
    else m.budget.toNat + 2 ^ 32 - deltaPwr.toNat := by
  have hdelta : deltaPwr.toNat = 100 := rfl
  rw [BitVec.toNat_setWidth, BitVec.toNat_sub, hdelta]
  split_ifs <;> omega

theorem dt_control (c : Client) (m : Measurement) : (control c m).dt =
    if m.budget.toNat < m.avg.toNat then c.lowered
    else if m.avg.toNat < ((m.budget - deltaPwr).setWidth 64).toNat then c.raised
    else c.dt := by
  simp only [control, BitVec.lt_def, toNat_budget]

theorem Inv.control (h : Inv c) (m : Measurement) : Inv (control c m) := by
  obtain ⟨hlow, hlow', -⟩ := h.lowered
  obtain ⟨hup, hup', -⟩ := h.raised
  constructor
  · rw [dt_control]
    split_ifs
    exacts [⟨hlow, hlow'⟩, ⟨hup, hup'⟩, h.dt]
  · have hdt := h.dt
    simp only [DiskThrottle.control, maxThrottle] at hdt ⊢
    rw [BitVec.toNat_ofInt]
    omega

theorem obeyed_control_iff (h : Inv c) (m : Measurement) :
    Obeyed c.dt m (control c m).dt ↔ Allowed c m := by
  have hinv := (h.control m).dt
  obtain ⟨-, -, hlow⟩ := h.lowered
  obtain ⟨-, hle, hup⟩ := h.raised
  have hdt := dt_control c m
  have hedge := toNat_edge m
  rw [Allowed]
  constructor
  · intro ho
    by_contra hnot
    rw [not_or, not_or] at hnot
    rw [if_neg hnot.1] at hedge
    have hsame := ho.within (by omega) (by omega)
    omega
  · intro hallowed
    refine ⟨hinv, fun habove => ?_, fun hfrom hto => ?_, fun hbelow => ?_⟩
    · omega
    · split_ifs at hedge ⊢ <;> omega
    · rw [if_pos (by omega)] at hedge
      rw [hdt, if_neg (by omega), if_pos (by omega)]
      exact hup

theorem foldl_update_apply {ι α : Type} [DecidableEq ι] (f : ι → α → α) {l : List ι} (hl : l.Nodup)
    {d : ι} (hd : d ∈ l) (cs : ι → α) :
    l.foldl (fun cs d => update cs d (f d (cs d))) cs d = f d (cs d) := by
  have hother (l : List ι) (cs : ι → α) (hd : d ∉ l) :
      l.foldl (fun cs d => update cs d (f d (cs d))) cs d = cs d := by
    induction l generalizing cs with
    | nil => rfl
    | cons e l ih =>
      rw [mem_cons, not_or] at hd
      rw [foldl_cons, ih _ hd.2, update_of_ne hd.1]
  induction l generalizing cs with
  | nil => simp at hd
  | cons e l ih =>
    rw [foldl_cons]
    rcases eq_or_ne d e with rfl | hne
    · rw [hother l _ (nodup_cons.1 hl).1, update_self]
    · rw [ih hl.of_cons (mem_of_ne_of_mem hne hd), update_of_ne hne]

theorem controlDisk_apply {maxLogidInUse d : ℕ} (hd : minLogid ≤ d) (hd' : d ≤ maxLogidInUse)
    (cs : ℕ → Client) (ms : ℕ → Measurement) :
    controlDisk maxLogidInUse cs ms d = control (cs d) (ms d) :=
  foldl_update_apply (fun d c => control c (ms d)) nodup_range'
    (mem_range'_1.2 (by omega)) cs

/-- **The throttle value stays in its range, goes down above the budget, up below the band, and
rests within it**, throughout a run, exactly when at each measurement the budget is at least the
width of the band, or the average is above it, or the value is at its maximum. -/
theorem obeyed_iff {maxLogidInUse d : ℕ} (hd : minLogid ≤ d) (hd' : d ≤ maxLogidInUse)
    (rounds : List (ℕ → Measurement)) :
    (∀ pre ms post, rounds = pre ++ ms :: post →
      Obeyed (run (controlDisk maxLogidInUse) (fun _ => Client.init) pre d).dt (ms d)
        (run (controlDisk maxLogidInUse) (fun _ => Client.init) (pre ++ [ms]) d).dt) ↔
      Guarded (controlDisk maxLogidInUse) (fun cs ms => Allowed (cs d) (ms d))
        (fun _ => Client.init) rounds := by
  rw [guarded_iff_forall_split]
  refine forall₄_congr fun pre ms post _ => ?_
  have hinv : Inv (run (controlDisk maxLogidInUse) (fun _ => Client.init) pre d) :=
    run_invariant_of_forall (I := fun cs : ℕ → Client => Inv (cs d))
      (fun cs ms h => (controlDisk_apply hd hd' cs ms).symm ▸ h.control (ms d))
      (by exact ⟨by decide, by decide⟩) pre
  rw [run_append, run_cons, run_nil, controlDisk_apply hd hd']
  exact obeyed_control_iff hinv (ms d)

theorem obeyed_twoRounds : minLogid ≤ 4 ∧ ∀ pre ms post,
    [fun _ => ⟨2000, 1000⟩, fun _ => ⟨500, 1000⟩] = pre ++ ms :: post →
      Obeyed (run (controlDisk 4) (fun _ => Client.init) pre 4).dt (ms 4)
        (run (controlDisk 4) (fun _ => Client.init) (pre ++ [ms]) 4).dt :=
  ⟨by decide, (obeyed_iff (by decide) (by decide) _).2 (by decide)⟩

theorem not_obeyed_smallBudget : ∃ (rounds pre post : List (ℕ → Measurement))
    (ms : ℕ → Measurement), rounds = pre ++ ms :: post ∧ (ms 4).avg.toNat = (ms 4).budget.toNat ∧
      ¬ Obeyed (run (controlDisk 4) (fun _ => Client.init) pre 4).dt (ms 4)
        (run (controlDisk 4) (fun _ => Client.init) (pre ++ [ms]) 4).dt :=
  ⟨_, [fun _ => ⟨60, 50⟩], [], fun _ => ⟨50, 50⟩, rfl, rfl, fun h =>
    absurd (h.within (by decide) (by decide)) (by decide)⟩

/-- **A client that stays above its budget is throttled down to `1`**: whatever has happened before,
each round takes at least one away. -/
theorem dt_le_of_above {maxLogidInUse d : ℕ} (hd : minLogid ≤ d) (hd' : d ≤ maxLogidInUse)
    (rounds above : List (ℕ → Measurement))
    (habove : ∀ ms ∈ above, (ms d).budget.toNat < (ms d).avg.toNat) :
    (run (controlDisk maxLogidInUse) (fun _ => Client.init) (rounds ++ above) d).dt ≤
      max 1 ((run (controlDisk maxLogidInUse) (fun _ => Client.init) rounds d).dt -
        above.length) := by
  have hinv (rs : List (ℕ → Measurement)) :
      Inv (run (controlDisk maxLogidInUse) (fun _ => Client.init) rs d) :=
    run_invariant_of_forall (I := fun cs : ℕ → Client => Inv (cs d))
      (fun cs ms h => controlDisk_apply hd hd' cs ms ▸ h.control (ms d))
      ⟨by decide, by decide⟩ rs
  induction above using reverseRecOn with
  | nil => simp
  | append_singleton above ms ih =>
    have hms := habove ms (by simp)
    have hle := ih fun ms h => habove ms (mem_append_left _ h)
    have hlow := (hinv (rounds ++ above)).lowered.2.2
    rw [← append_assoc, run_append, run_cons, run_nil, controlDisk_apply hd hd', dt_control,
      if_pos hms, length_append, length_singleton]
    omega

theorem dt_above_once : minLogid ≤ 4 ∧
    (run (controlDisk 4) (fun _ => Client.init) [fun _ => ⟨2000, 1000⟩] 4).dt ≤ 5999 :=
  ⟨by decide, dt_le_of_above (by decide) (by decide) [] [fun _ => ⟨2000, 1000⟩] (by simp)⟩

end Resourcemon.DiskThrottle
