import Afterburner.Lib.Runs

/-!
# The periodic interrupt of the real time clock

`rtc_t::periodic_tick` is called with the time and raises IRQ 8 when more than a period has passed
since the time that it remembers.
-/

namespace Wedge.RtcPeriodic
open Runs List

abbrev Time := BitVec 64

structure RtcT where
  periodicFreq : BitVec 32
  periodicEnabled : Bool
  lastTickUs : Time
  deriving DecidableEq, Repr

variable (rtc : RtcT)

/-- In microseconds; for frequency 0, where the source divides by zero, it is 0 here. -/
def RtcT.period : BitVec 32 := 1000 * 1000 / rtc.periodicFreq

def RtcT.periodicTick (nowUs : Time) : Bool × RtcT :=
  if !rtc.periodicEnabled then (false, rtc)
  else
    let delta := nowUs - rtc.lastTickUs
    (decide (rtc.period.setWidth 64 < delta), { rtc with lastTickUs := nowUs })

structure State where
  rtc : RtcT
  raised : Option Time
  deriving DecidableEq, Repr

def State.raises (s : State) (now : Time) : Bool := (s.rtc.periodicTick now).1

def step (s : State) (now : Time) : State :=
  ⟨(s.rtc.periodicTick now).2, if s.raises now then some now else s.raised⟩

def after (calls : List Time) : State := run step ⟨rtc, none⟩ calls

def Prompt (calls : List Time) : Prop :=
  ∀ pre now post, calls = pre ++ now :: post → ∀ r ∈ (after rtc pre).raised,
    r.toNat + rtc.period.toNat < now.toNat → (after rtc pre).raises now = true

def NeverPostponed (calls : List Time) : Prop :=
  ∀ pre extra now post, calls = pre ++ extra ++ now :: post → (after rtc pre).raises now = true →
    ∃ more t rest, extra ++ [now] = more ++ t :: rest ∧ (after rtc (pre ++ more)).raises t = true

def Allowed (start : Time) (s : State) (now : Time) : Prop :=
  now.toNat ≤ (s.raised.getD start).toNat + s.rtc.period.toNat ∨
    s.rtc.lastTickUs.toNat + s.rtc.period.toNat < now.toNat

instance (start : Time) (s : State) (now : Time) : Decidable (Allowed start s now) :=
  inferInstanceAs (Decidable (_ ∨ _))

variable {rtc} {calls : List Time} {s : State} {now : Time}

theorem raises_iff (hon : s.rtc.periodicEnabled = true) (hle : s.rtc.lastTickUs ≤ now) :
    s.raises now = true ↔ s.rtc.lastTickUs.toNat + s.rtc.period.toNat < now.toNat := by
  have hwidth : (s.rtc.period.setWidth 64).toNat = s.rtc.period.toNat := by
    rw [BitVec.toNat_setWidth, Nat.mod_eq_of_lt (by omega)]
  have hdelta : (now - s.rtc.lastTickUs).toNat = now.toNat - s.rtc.lastTickUs.toNat :=
    BitVec.toNat_sub_of_le hle
  simp only [State.raises, RtcT.periodicTick, hon, Bool.not_true, Bool.false_eq_true, if_false,
    decide_eq_true_eq, BitVec.lt_def, hwidth, hdelta]
  omega

structure Inv (rtc : RtcT) (s : State) : Prop where
  on : s.rtc.periodicEnabled = true
  freq : s.rtc.periodicFreq = rtc.periodicFreq
  le : s.raised.getD rtc.lastTickUs ≤ s.rtc.lastTickUs

theorem Inv.period_eq (h : Inv rtc s) : s.rtc.period = rtc.period := by
  rw [RtcT.period, h.freq, RtcT.period]

theorem Inv.step (h : Inv rtc s) (hle : s.rtc.lastTickUs ≤ now) :
    Inv rtc (step s now) ∧ (RtcPeriodic.step s now).rtc.lastTickUs = now := by
  have hrtc : (s.rtc.periodicTick now).2 = { s.rtc with lastTickUs := now } := by
    simp [RtcT.periodicTick, h.on]
  simp only [RtcPeriodic.step, hrtc, and_true]
  refine ⟨h.on, h.freq, ?_⟩
  split_ifs
  · exact BitVec.le_refl _
  · exact BitVec.le_trans h.le hle

theorem Inv.run (h : Inv rtc s) {pre post : List Time}
    (hmono : (s.rtc.lastTickUs :: (pre ++ post)).Pairwise (· ≤ ·)) :
    Inv rtc (run RtcPeriodic.step s pre) ∧
      ∀ t ∈ post, (Runs.run RtcPeriodic.step s pre).rtc.lastTickUs ≤ t := by
  induction pre generalizing s with
  | nil => exact ⟨h, (pairwise_cons.1 hmono).1⟩
  | cons now pre ih =>
    obtain ⟨hfirst, hrest⟩ := pairwise_cons.1 hmono
    obtain ⟨hnext, hlast⟩ := h.step (hfirst now mem_cons_self)
    exact ih hnext (by rw [hlast]; exact hrest)

theorem raised_run_of_quiet (more : List Time)
    (hquiet : ∀ pre t post, more = pre ++ t :: post → (run step s pre).raises t = false) :
    (run step s more).raised = s.raised := by
  induction more generalizing s with
  | nil => rfl
  | cons t more ih =>
    rw [run_cons, ih fun pre u post he => hquiet (t :: pre) u post (by rw [he, cons_append])]
    have hfirst := hquiet [] t more rfl
    rw [run_nil] at hfirst
    simp [step, hfirst]

theorem isSome_raised_of_raises {more rest : List Time} {t : Time}
    (h : (run step s more).raises t = true) : (run step s (more ++ t :: rest)).raised.isSome := by
  rw [run_append, run_cons]
  refine run_invariant_of_forall (I := fun s : State => s.raised.isSome) (fun s u hs => ?_) ?_ rest
  · simp only [step]
    split_ifs
    exacts [rfl, hs]
  · simp [step, h]

/-- **IRQ 8 is never raised early**: more than a period after the call that last raised it, and the
first time more than a period after `last_tick_us`. -/
theorem period_lt_of_raises (hon : rtc.periodicEnabled = true)
    (hmono : (rtc.lastTickUs :: calls).Pairwise (· ≤ ·)) {pre post : List Time}
    (he : calls = pre ++ now :: post) (hraise : (after rtc pre).raises now = true) :
    ((after rtc pre).raised.getD rtc.lastTickUs).toNat + rtc.period.toNat < now.toNat := by
  have h0 : Inv rtc ⟨rtc, none⟩ := ⟨hon, rfl, BitVec.le_refl _⟩
  obtain ⟨hinv, hlast⟩ := h0.run (he ▸ hmono)
  have hlate := (raises_iff hinv.on (hlast now mem_cons_self)).1 hraise
  rw [hinv.period_eq] at hlate
  exact (Nat.add_le_add_right hinv.le _).trans_lt hlate

theorem period_lt_second : let rtc : RtcT := ⟨1000, true, 0⟩
    ((after rtc [1001]).raised.getD 0).toNat + rtc.period.toNat < (2002 : Time).toNat :=
  @period_lt_of_raises ⟨1000, true, 0⟩ [1001, 2002] 2002 rfl (by decide) [1001] [] rfl (by decide)

end Wedge.RtcPeriodic
