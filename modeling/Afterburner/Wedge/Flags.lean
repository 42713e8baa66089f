import Afterburner.Lib.Bits
import Mathlib.Data.BitVec

/-!
# The flags register

System bits are in the virtual CPU, user bits in the processor. PUSHF merges them (`readFlags`),
POPF splits the image (`writeFlags`).
-/

namespace Wedge
open BitVec Bits
namespace Flags

abbrev Word := BitVec 32
def userMask : Word := 0xffc08cff
def systemAtUser : Word := 0x00083200
def fiBit : ℕ := 9
def reserved : Word := 0xffc0802a

structure Eflags where
  raw : Word
  raw_and_reserved : raw &&& reserved = 2

namespace Eflags

def iopl (r : Eflags) : Word := (r.raw >>> 12) &&& 3

def writable (cpl : Word) (r : Eflags) : Word :=
  0x00244dd5 ||| (if cpl ≤ r.iopl then 0x00000200 else 0) |||
    (if cpl = 0 then 0x00003000 else 0)

def resume : Word := 0x00010000

variable (cpl : Word) (r : Eflags)

theorem writable_and_reserved : r.writable cpl &&& reserved = 0#32 := by
  unfold writable
  split_ifs <;> decide

theorem writable_and_userMask : r.writable cpl &&& userMask = 0x00000cd5 := by
  unfold writable
  split_ifs <;> decide

def popped (cpl : Word) (r : Eflags) (x : Word) : Word :=
  ((r.raw &&& ~~~ r.writable cpl) ||| (x &&& r.writable cpl)) &&& ~~~ resume

theorem popped_and (x f : Word) (hf : f &&& resume = 0#32) :
    popped cpl r x &&& f =
      (r.raw &&& (f &&& ~~~ r.writable cpl)) ||| (x &&& (r.writable cpl &&& f)) := by
  apply eq_of_getLsbD_eq
  intro i hi
  have hbit : (f.getLsbD i && resume.getLsbD i) = false := by
    rw [← getLsbD_and, hf, getLsbD_zero]
  simp only [popped, getLsbD_and, getLsbD_or, getLsbD_not, hi, decide_true,
    Bool.true_and]
  revert hbit
  cases f.getLsbD i <;> cases resume.getLsbD i <;> cases (r.writable cpl).getLsbD i <;> simp

def popf (cpl : Word) (r : Eflags) (x : Word) : Eflags where
  raw := popped cpl r x
  raw_and_reserved := by
    have hkeep : reserved &&& ~~~ r.writable cpl = reserved := by
      unfold writable
      split_ifs <;> decide
    rw [popped_and cpl r x reserved (by decide), writable_and_reserved, hkeep, r.raw_and_reserved,
      and_zero, or_zero]

def pushf : Word := r.raw &&& 0x00fcffff

theorem popf_and_userMask (x : Word) :
    (r.popf cpl x).raw &&& userMask = 2 ||| (x &&& 0x00000cd5) := by
  have hkeep : userMask &&& ~~~ r.writable cpl = reserved := by
    unfold writable
    split_ifs <;> decide
  rw [popf, popped_and cpl r x userMask (by decide), writable_and_userMask, hkeep,
    r.raw_and_reserved]

end Eflags

def prepareForGate (isInterrupt : Bool) (flags : Word) : Word :=
  let flags := erase (erase (erase (erase flags 8) 17) 16) 14
  if isInterrupt then erase flags fiBit else flags

def iretKernel (frameFlags : Word) : Word × Word :=
  (frameFlags, (frameFlags &&& userMask) ||| systemAtUser)

inductive Pending
  | none
  | noGate
  | gate (isInterrupt : Bool) (handler : Word → Word → Word)

variable (p : Pending)

def deliverSynchronousIrq (flags : Word) : Word :=
  let savedIntState := flags.getLsbD fiBit
  let flags := erase flags fiBit
  if savedIntState = false then flags
  else
    match p with
    | .none => insert flags fiBit
    | .noGate => flags
    | .gate isInterrupt handler =>
      let oldFlags := insert flags fiBit
      (iretKernel (handler (prepareForGate isInterrupt flags) oldFlags)).1

def readFlags (virt flagsToPush : Word) : Word :=
  (virt &&& ~~~ userMask) ||| (flagsToPush &&& userMask)

def writeFlags (virt flagsToPop : Word) : Word × Word :=
  let wasEnabled := virt.getLsbD fiBit
  let virt := flagsToPop
  let virt :=
    if wasEnabled = false ∧ virt.getLsbD fiBit = true then deliverSynchronousIrq p virt else virt
  (virt, (virt &&& ~~~ userMask) ||| systemAtUser)

structure State where
  virt : Word
  real : Eflags

namespace State

def popf (p : Pending) (cpl : Word) (s : State) (f : Word) : State :=
  let r := writeFlags p s.virt f
  ⟨r.1, s.real.popf cpl r.2⟩

def pushf (s : State) : Word := readFlags s.virt s.real.pushf

structure RoundTrips (cpl : Word) (s : State) (f : Word) : Prop where
  user : (s.popf p cpl f).real.raw &&& userMask = f &&& userMask
  pushes : (s.popf p cpl f).pushf = f

theorem writeFlags_and (virt f : Word) :
    (writeFlags p virt f).2 &&& 0x00000cd5 = 0#32 := by
  have hmask : ~~~ userMask &&& 0x00000cd5 = 0#32 := by decide
  have hsystem : systemAtUser &&& 0x00000cd5 = 0#32 := by decide
  simp only [writeFlags]
  rw [BitVec.and_or_distrib_right, BitVec.and_assoc, hmask, hsystem, BitVec.and_zero,
    BitVec.or_zero]

theorem real_popf (cpl : Word) (s : State) (f : Word) :
    (s.popf p cpl f).real.raw &&& userMask = 2 := by
  simp only [popf]
  rw [Eflags.popf_and_userMask, writeFlags_and, or_zero]

end State

def Pending.Keeps (f : Word) : Pending → Prop
  | .none => True
  | .noGate => False
  | .gate isInterrupt handler =>
    handler (prepareForGate isInterrupt (erase f fiBit)) f &&& ~~~ userMask =
      f &&& ~~~ userMask

section
variable {f : Word} (h : f.getLsbD fiBit = true)
include h

theorem insert_erase_fiBit : insert (erase f fiBit) fiBit = f := by
  apply eq_of_getLsbD_eq
  intro i _
  by_cases hi : i = fiBit
  · rw [hi, h, getLsbD_insert]
    simp [fiBit]
  · simp [getLsbD_insert, getLsbD_erase, Ne.symm hi]

theorem erase_fiBit_ne : erase f fiBit &&& ~~~ userMask ≠ f &&& ~~~ userMask := by
  intro heq
  have hbit := congrArg (fun x => x.getLsbD fiBit) heq
  have hmask : (~~~ userMask).getLsbD fiBit = true := by decide
  simp only [getLsbD_and, getLsbD_erase, h, hmask] at hbit
  simp at hbit

theorem deliverSynchronousIrq_and_iff :
    deliverSynchronousIrq p f &&& ~~~ userMask = f &&& ~~~ userMask ↔ p.Keeps f := by
  unfold deliverSynchronousIrq
  simp only [h, Bool.true_eq_false, if_false, insert_erase_fiBit h]
  cases p with
  | none => exact iff_of_true rfl trivial
  | noGate => exact iff_of_false (erase_fiBit_ne h) not_false
  | gate isInterrupt handler => exact Iff.rfl

end

theorem virt_popf_and_iff (cpl : Word) (s : State) (f : Word) :
    (s.popf p cpl f).virt &&& ~~~ userMask = f &&& ~~~ userMask ↔
      (s.virt.getLsbD fiBit = false → f.getLsbD fiBit = true → p.Keeps f) := by
  simp only [State.popf, writeFlags]
  by_cases hwas : s.virt.getLsbD fiBit = false
  · by_cases hnow : f.getLsbD fiBit = true
    · grind [deliverSynchronousIrq_and_iff]
    · rw [if_neg fun h => hnow h.2]
      exact iff_of_true rfl fun _ h => absurd h hnow
  · rw [if_neg fun h => hwas h.1]
    exact iff_of_true rfl fun h => absurd h hwas

/-- **When flags make the round trip.** Exactly when the image has no user flag, and what runs when
it enables the interrupts returns with its system flags. -/
theorem popf_roundTrips_iff (p : Pending) (cpl : Word) (s : State) (f : Word) :
    s.RoundTrips p cpl f ↔
      f &&& userMask = 2 ∧
        (s.virt.getLsbD fiBit = false → f.getLsbD fiBit = true → p.Keeps f) := by
  have hpushed : (s.popf p cpl f).real.pushf &&& userMask = 2 := by
    have hcomm : (0x00fcffff : Word) &&& userMask = userMask &&& 0x00fcffff := BitVec.and_comm _ _
    rw [Eflags.pushf, BitVec.and_assoc, hcomm, ← BitVec.and_assoc, State.real_popf]
    decide
  rw [← virt_popf_and_iff p cpl s f]
  constructor
  · rintro ⟨huser, hpushes⟩
    rw [State.real_popf] at huser
    exact ⟨huser.symm, ((merge_eq_iff _ _ _ _).1 hpushes).1⟩
  · rintro ⟨huser, hvirt⟩
    refine ⟨by rw [State.real_popf, huser], (merge_eq_iff _ _ _ _).2 ⟨hvirt, ?_⟩⟩
    rw [hpushed, huser]

theorem two_and_reserved : (2 : Word) &&& reserved = 2 := by decide
def boot : State := ⟨2, ⟨2, two_and_reserved⟩⟩

theorem not_roundTrips_zeroFlag :
    (boot.popf .none 3 0x246).real.raw &&& userMask = 2 ∧ (boot.popf .none 3 0x246).pushf = 0x202 ∧
      ¬ boot.RoundTrips .none 3 0x246 := by
  refine ⟨by decide, by decide, fun h => ?_⟩
  exact absurd h.pushes (by decide)

end Flags
end Wedge
