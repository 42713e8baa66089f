import Mathlib
import Afterburner.Lib.Bits
import Afterburner.Lib.Runs

/-!
# The registers and the interrupt line of the DP83820

The registers lie in an array behind a pointer; a reset assigns only some of them.
-/

namespace Wedge.Dp83820
open Bits List

abbrev Word := BitVec 32

/-- The words of the registers that have a name. -/
def named : List ℕ := [0, 1, 2, 3, 4, 5, 6, 8, 10, 12, 14, 18, 19, 22, 61]

inductive Reg
  | cr | cfg | mear | ptscr | isr | imr | ier | txdp | txcfg | rxdp | rxcfg | rfcr | rfdr | srr
  | tesr
  | other (word : ℕ) (unnamed : word ∉ named)
  deriving DecidableEq, Repr

def Reg.word : Reg → ℕ
  | .cr => 0x00 / 4
  | .cfg => 0x04 / 4
  | .mear => 0x08 / 4
  | .ptscr => 0x0c / 4
  | .isr => 0x10 / 4
  | .imr => 0x14 / 4
  | .ier => 0x18 / 4
  | .txdp => 0x20 / 4
  | .txcfg => 0x28 / 4
  | .rxdp => 0x30 / 4
  | .rxcfg => 0x38 / 4
  | .rfcr => 0x48 / 4
  | .rfdr => 0x4c / 4
  | .srr => 0x58 / 4
  | .tesr => 0xf4 / 4
  | .other word _ => word

def last : ℕ := 0xf8 / 4

structure State where
  regs : Reg → Word
  irqPending : Bool
  backendConnect : Bool
  lanAddress : Fin 6 → BitVec 8

structure Init where
  connects : Bool
  lanAddress : Fin 6 → BitVec 8

namespace State
variable (s : State)

def set (r : Reg) (value : Word) : State := { s with regs := Function.update s.regs r value }

@[simp] theorem set_regs (r r' : Reg) (value : Word) :
    (s.set r value).regs r' = if r' = r then value else s.regs r' := Function.update_apply ..

@[simp] theorem set_irqPending (r : Reg) (value : Word) :
    (s.set r value).irqPending = s.irqPending := rfl

def cause (bit : ℕ) : State := s.set .isr (insert (s.regs .isr) bit)

def raiseIrq : State :=
  if !s.irqPending && s.regs .isr &&& s.regs .imr != 0 && s.regs .ier != 0 then
    { s with irqPending := true }
  else s

def cfgFields (value : Word) : Word :=
  let value := Bits.erase (Bits.insert value 22) 28
  let value := if s.backendConnect then Bits.insert value 31 else Bits.erase value 31
  Bits.erase (Bits.insert value 29) 30

def assigned : List Reg := [.cr, .cfg, .mear, .isr, .txcfg, .rxcfg, .srr, .tesr]

def globalSimpleReset : State :=
  let s := s.set .cr 0
  let s := s.set .cfg (s.cfgFields 0)
  let s := s.set .mear 0x12
  let s := s.set .isr 0x00608000
  let s := s.set .txcfg 0x120
  let s := s.set .rxcfg 0x4
  let s := s.set .srr 0x0103
  s.set .tesr 0xc000

def new : State :=
  globalSimpleReset ⟨fun _ => 0, false, false, ![2, 0, 0xef, 0xbe, 0xad, 0xde]⟩

def backendInit (o : Init) : State :=
  if s.backendConnect then s
  else { s with backendConnect := o.connects, lanAddress := o.lanAddress }

def completes (bit isrBit : ℕ) (vs : Word × State) : Word × State :=
  if vs.1.getLsbD bit then (erase vs.1 bit, (vs.2.cause isrBit).raiseIrq) else vs

def crRequests (value : Word) : Word × State :=
  let value := if value.getLsbD 1 then erase (erase value 1) 0 else value
  let value := if value.getLsbD 3 then erase (erase value 3) 2 else value
  completes 7 12 (completes 5 21 (completes 4 22 (value, s)))

def writeCr (value : Word) (o : Init) : State :=
  if value &&& ~~~ 5 ≠ 0 then
    let vs := s.crRequests value
    if value.getLsbD 8 then ((vs.2.backendInit o).globalSimpleReset).set .cr 0
    else vs.2.set .cr vs.1
  else s.set .cr value

def lanWord (i j : Fin 6) : Word :=
  (s.lanAddress i).setWidth 32 ||| (s.lanAddress j).setWidth 32 <<< 8

def writeWord (value : Word) (reg : Reg) (o : Init) : State :=
  match reg with
  | .cr => s.writeCr value o
  | .isr => s
  | .ptscr => s.set .ptscr (1#32 <<< 9)
  | .cfg => s.set .cfg (s.cfgFields value)
  | .rfcr =>
    let s' :=
      if value = 0 then s.set .rfdr (s.lanWord 0 1)
      else if value = 2 then s.set .rfdr (s.lanWord 2 3)
      else if value = 4 then s.set .rfdr (s.lanWord 4 5)
      else s
    s'.set .rfcr value
  | reg => if reg.word < last then s.set reg value else s

def readWord (reg : Reg) : Word × State :=
  (if reg.word < last then s.regs reg else 0,
    if reg = .isr then { s.set .isr 0 with irqPending := false } else s)

end State

inductive Event
  | write (value : Word) (reg : Reg) (o : Init)
  | read (reg : Reg)
  | claimRx (link : Word)
  | received (desc : Bool)
  | rxIdle (lastGroup : Bool)
  | nextTx (link : Word)
  | descReleased (desc : Bool)
  | emptyQueue

def step (s : State) : Event → State
  | .write value reg o => s.writeWord value reg o
  | .read reg => (s.readWord reg).2
  | .claimRx link => if s.regs .rxdp = 0 then s else s.set .rxdp link
  | .received desc => (((if desc then s.cause 1 else s)).cause 0).raiseIrq
  | .rxIdle lastGroup => if lastGroup then (s.cause 4).raiseIrq else s
  | .nextTx link => s.set .txdp link
  | .descReleased desc => if desc then (s.cause 6).cause 7 else s.cause 6
  | .emptyQueue => s.cause 9

abbrev after (es : List Event) : State := Runs.run step State.new es

namespace State
variable {s : State}

theorem raiseIrq_regs : s.raiseIrq.regs = s.regs := by
  unfold raiseIrq
  split_ifs <;> rfl

theorem completes_regs {bit isrBit : ℕ} {vs : Word × State} {r : Reg} (hr : r ≠ .isr) :
    (completes bit isrBit vs).2.regs r = vs.2.regs r := by
  unfold completes
  split_ifs
  · simp [raiseIrq_regs, cause, hr]
  · rfl

theorem crRequests_regs {value : Word} {r : Reg} (hr : r ≠ .isr) :
    (s.crRequests value).2.regs r = s.regs r := by
  simp only [crRequests, completes_regs hr]

theorem backendInit_regs (o : Init) : (s.backendInit o).regs = s.regs := by
  unfold backendInit
  split_ifs <;> rfl

theorem globalSimpleReset_of_notMem {r : Reg} (hr : r ∉ assigned) :
    s.globalSimpleReset.regs r = s.regs r := by
  simp only [assigned, mem_cons, not_mem_nil, or_false, not_or] at hr
  simp [globalSimpleReset, hr]

def SameRegs (s t : State) : Prop :=
  ∀ r, if r = .cfg then (s.regs r).setWidth 31 = (t.regs r).setWidth 31 else s.regs r = t.regs r

theorem setWidth_cfgFields (t : State) :
    (s.cfgFields 0).setWidth 31 = (t.cfgFields 0).setWidth 31 := by
  cases hs : s.backendConnect <;> cases ht : t.backendConnect <;>
    simp [cfgFields, hs, ht] <;> decide

def Resets (s : State) : Prop :=
  ∀ (value : Word) (o : Init), value.getLsbD 8 = true →
    (step s (.write value .cr o)).SameRegs new

theorem step_reset {value : Word} (o : Init) (h : value.getLsbD 8 = true) :
    step s (.write value .cr o) =
      (((s.crRequests value).2.backendInit o).globalSimpleReset).set .cr 0 := by
  have hne : value &&& ~~~ 5 ≠ 0 := by
    refine (ne_zero_iff _).2 ⟨8, ?_⟩
    rw [BitVec.getLsbD_and, h]
    decide
  show s.writeCr value o = _
  rw [writeCr, if_pos hne]
  exact if_pos h

theorem regs_step_reset {value : Word} (o : Init) (h : value.getLsbD 8 = true) {r : Reg}
    (hr : r ∉ assigned) : (step s (.write value .cr o)).regs r = s.regs r := by
  have hcr : r ≠ .cr := fun e => hr (e ▸ by decide)
  have hisr : r ≠ .isr := fun e => hr (e ▸ by decide)
  rw [step_reset o h, set_regs, if_neg hcr, globalSimpleReset_of_notMem hr, backendInit_regs,
    crRequests_regs hisr]

theorem new_of_notMem {r : Reg} (hr : r ∉ assigned) : new.regs r = 0 :=
  globalSimpleReset_of_notMem hr

/-- **A reset restores the registers** after any events exactly when every register that
`global_simple_reset` does not assign is zero already. -/
theorem resets_iff (es : List Event) :
    (after es).Resets ↔ ∀ r, r ∉ assigned → (after es).regs r = 0 := by
  generalize after es = s
  constructor
  · intro h r hr
    have hsame := h 0x100 ⟨false, fun _ => 0⟩ (by decide) r
    rwa [if_neg (fun e : r = .cfg => hr (e ▸ by decide)), regs_step_reset _ (by decide) hr,
      new_of_notMem hr] at hsame
  · intro h value o hreset r
    by_cases hr : r ∈ assigned
    · rw [step_reset o hreset]
      simp only [assigned, mem_cons, not_mem_nil, or_false] at hr
      rcases hr with rfl | rfl | rfl | rfl | rfl | rfl | rfl | rfl <;>
        simp [globalSimpleReset, new]
      exact setWidth_cfgFields _
    · rw [if_neg (fun e : r = .cfg => hr (e ▸ by decide)), regs_step_reset o hreset hr,
        new_of_notMem hr]
      exact h r hr

theorem not_resets_imr : ¬ (after [.write 1 .imr ⟨false, fun _ => 0⟩]).Resets :=
  fun h => absurd (h 0x100 ⟨false, fun _ => 0⟩ (by decide) .imr) (by decide)

/-- An enabled and unacknowledged cause has its interrupt. -/
def Announced (s : State) : Prop :=
  s.regs .isr &&& s.regs .imr ≠ 0 ∧ s.regs .ier ≠ 0 → s.irqPending = true

instance : Decidable s.Announced := inferInstanceAs (Decidable (_ → _))

/-- Before a write to IMR or IER, a reset or a report of the server: the line is set, interrupts
are or get disabled, or no cause that is there (or that the event sets) is or gets unmasked. A
reset also raises the line first, for a request in the same word whose cause is unmasked. -/
def Allowed (s : State) : Event → Prop
  | .write value .imr _ => s.irqPending = true ∨ s.regs .ier = 0 ∨ s.regs .isr &&& value = 0
  | .write value .ier _ => s.irqPending = true ∨ value = 0 ∨ s.regs .isr &&& s.regs .imr = 0
  | .write value .cr _ => value.getLsbD 8 = true →
      s.irqPending = true ∨ s.regs .ier = 0 ∨ 0x00608000 &&& s.regs .imr = 0 ∨
        ∃ request ∈ [(4, 22), (5, 21), (7, 12)],
          value.getLsbD request.1 = true ∧ (s.regs .imr).getLsbD request.2 = true
  | .descReleased desc => s.irqPending = true ∨ s.regs .ier = 0 ∨
      (s.regs .imr).getLsbD 6 = false ∧ (desc = true → (s.regs .imr).getLsbD 7 = false)
  | .emptyQueue => s.irqPending = true ∨ s.regs .ier = 0 ∨ (s.regs .imr).getLsbD 9 = false
  | _ => True

theorem announced_iff {i m e : Word} {p : Bool} (hi : s.regs .isr = i) (hm : s.regs .imr = m)
    (he : s.regs .ier = e) (hp : s.irqPending = p) :
    s.Announced ↔ p = true ∨ e = 0 ∨ i &&& m = 0 := by
  subst hi hm he hp
  unfold Announced
  tauto

theorem insert_and_eq_zero {x m : Word} {i : ℕ} (hi : i < 32) :
    insert x i &&& m = 0 ↔ x &&& m = 0 ∧ m.getLsbD i = false := by
  simp only [BitVec.eq_of_getLsbD_eq_iff, BitVec.getLsbD_and, getLsbD_insert]
  grind

theorem announced_cause {bit : ℕ} (hbit : bit < 32) : (s.cause bit).Announced ↔ s.Announced ∧
    (s.irqPending = true ∨ s.regs .ier = 0 ∨ (s.regs .imr).getLsbD bit = false) := by
  rw [announced_iff rfl rfl rfl rfl, announced_iff rfl rfl rfl rfl]
  simp only [cause, set_regs, set_irqPending, reduceCtorEq, if_true, if_false,
    insert_and_eq_zero hbit]
  tauto

theorem irqPending_raiseIrq : s.raiseIrq.irqPending = true ↔
    s.irqPending = true ∨ s.regs .isr &&& s.regs .imr ≠ 0 ∧ s.regs .ier ≠ 0 := by
  unfold raiseIrq
  cases hp : s.irqPending <;> split_ifs <;> simp_all

theorem announced_raiseIrq : s.raiseIrq.Announced := by
  intro hcause
  rw [raiseIrq_regs] at hcause
  exact irqPending_raiseIrq.2 (.inr hcause)

/-- A request in a write to CR raises the line when its cause is unmasked. -/
theorem irqPending_completes {bit isrBit : ℕ} {vs : Word × State} (hbit : isrBit < 32)
    (h : vs.2.Announced) (hier : vs.2.regs .ier ≠ 0) :
    (completes bit isrBit vs).2.irqPending = true ↔ vs.2.irqPending = true ∨
      vs.1.getLsbD bit = true ∧ (vs.2.regs .imr).getLsbD isrBit = true := by
  have hquiet := (announced_iff rfl rfl rfl rfl).1 h
  unfold completes
  split_ifs with hv
  · rw [irqPending_raiseIrq]
    simp only [cause, set_regs, set_irqPending, reduceCtorEq, if_true, if_false, ne_eq,
      insert_and_eq_zero hbit]
    grind
  · simp [hv]

theorem announced_set {r : Reg} {value : Word} (hs : s.Announced)
    (hr : r ≠ .isr ∧ r ≠ .imr ∧ r ≠ .ier) : (s.set r value).Announced := by
  simpa [Announced, hr.1.symm, hr.2.1.symm, hr.2.2.symm] using hs

theorem announced_completes {bit isrBit : ℕ} {vs : Word × State} (h : vs.2.Announced) :
    (completes bit isrBit vs).2.Announced := by
  unfold completes
  split_ifs
  · exact announced_raiseIrq
  · exact h

theorem irqPending_crRequests {value : Word} (h : s.Announced) (hier : s.regs .ier ≠ 0) :
    (s.crRequests value).2.irqPending = true ↔ s.irqPending = true ∨
      value.getLsbD 4 = true ∧ (s.regs .imr).getLsbD 22 = true ∨
      value.getLsbD 5 = true ∧ (s.regs .imr).getLsbD 21 = true ∨
      value.getLsbD 7 = true ∧ (s.regs .imr).getLsbD 12 = true := by
  have hother {bit isrBit j : ℕ} {vs : Word × State} (hj : j ≠ bit) :
      (completes bit isrBit vs).1.getLsbD j = vs.1.getLsbD j := by
    unfold completes
    split_ifs <;> simp [hj.symm]
  have hstart (j : ℕ) (hj : 4 ≤ j) :
      (let value := if value.getLsbD 1 then erase (erase value 1) 0 else value
      if value.getLsbD 3 then erase (erase value 3) 2 else value).getLsbD j =
        value.getLsbD j := by
    have h (k : ℕ) (hk : k < 4) : ¬ k = j := by omega
    dsimp only
    split_ifs <;> simp [h]
  simp only [crRequests]
  rw [irqPending_completes (by decide) (announced_completes (announced_completes h))
      (by simpa [completes_regs] using hier),
    irqPending_completes (by decide) (announced_completes h) (by simpa [completes_regs] using hier),
    irqPending_completes (by decide) h hier]
  simp only [hother (show 7 ≠ 5 by decide), hother (show 7 ≠ 4 by decide),
    hother (show 5 ≠ 4 by decide), completes_regs (show Reg.imr ≠ .isr by decide)]
  rw [hstart 4 le_rfl, hstart 5 (by decide), hstart 7 (by decide), or_assoc, or_assoc]

theorem announced_writeCr {value : Word} (o : Init) (hs : s.Announced) :
    (s.writeCr value o).Announced ↔ s.Allowed (.write value .cr o) := by
  by_cases hreset : value.getLsbD 8 = true
  · have himr : (s.crRequests value).2.regs .imr = s.regs .imr := crRequests_regs (by decide)
    have hier : (s.crRequests value).2.regs .ier = s.regs .ier := crRequests_regs (by decide)
    have hwrite : s.writeCr value o = _ := step_reset o hreset
    rw [hwrite, announced_iff (i := 0x00608000) (m := s.regs .imr) (e := s.regs .ier)
      (p := (s.crRequests value).2.irqPending)]
    · by_cases hoff : s.regs .ier = 0
      · simp [Allowed, hoff]
      · rw [irqPending_crRequests hs hoff]
        simp only [Allowed, hreset, mem_cons, not_mem_nil, or_false, exists_eq_or_imp,
          exists_eq_left]
        tauto
    all_goals
      simp only [backendInit]
      split_ifs <;> simp [globalSimpleReset, himr, hier]
  · refine iff_of_true ?_ fun h => absurd h hreset
    unfold writeCr
    split_ifs
    · exact announced_set (announced_completes (announced_completes (announced_completes hs)))
        (by decide)
    · exact announced_set hs (by decide)

theorem announced_write {value : Word} {reg : Reg} (o : Init) (hs : s.Announced) :
    (s.writeWord value reg o).Announced ↔ s.Allowed (.write value reg o) := by
  cases reg with
  | cr => exact announced_writeCr o hs
  | imr => exact announced_iff rfl rfl rfl rfl
  | ier => exact announced_iff rfl rfl rfl rfl
  | isr => exact iff_of_true hs trivial
  | rfcr =>
    refine iff_of_true (announced_set ?_ (by decide)) trivial
    split_ifs <;> exact hs
  | other word _ =>
    refine iff_of_true ?_ trivial
    unfold writeWord
    dsimp only
    split_ifs
    · exact announced_set hs (by simp)
    · exact hs
  | cfg | mear | ptscr | txdp | txcfg | rxdp | rxcfg | rfdr | srr | tesr =>
    exact iff_of_true (announced_set hs (by decide)) trivial

theorem announced_step (e : Event) (hs : s.Announced) : (step s e).Announced ↔ s.Allowed e := by
  cases e with
  | write value reg o => exact announced_write o hs
  | read reg =>
    refine iff_of_true ?_ trivial
    unfold step readWord
    dsimp only
    split_ifs
    · simp [Announced]
    · exact hs
  | claimRx link =>
    refine iff_of_true ?_ trivial
    unfold step
    dsimp only
    split_ifs
    · exact hs
    · exact announced_set hs (by decide)
  | received desc => exact iff_of_true announced_raiseIrq trivial
  | rxIdle lastGroup =>
    refine iff_of_true ?_ trivial
    unfold step
    dsimp only
    split_ifs
    · exact announced_raiseIrq
    · exact hs
  | nextTx link => exact iff_of_true (announced_set hs (by decide)) trivial
  | descReleased desc =>
    cases desc with
    | false => exact (announced_cause (by decide)).trans (by simp [hs, Allowed])
    | true =>
      refine (announced_cause (by decide)).trans ?_
      rw [announced_cause (by decide)]
      simp only [hs, true_and, cause, set_regs, set_irqPending, reduceCtorEq, if_false, Allowed,
        forall_const]
      tauto
  | emptyQueue => exact (announced_cause (by decide)).trans (by simp [hs, Allowed])

/-- **An enabled cause has its interrupt**, in every state, exactly when every write to IMR or IER,
every reset and every report of the server is allowed in the state before it. -/
theorem announced_iff_allowed (es : List Event) :
    (∀ pre, pre <+: es → (after pre).Announced) ↔ Runs.Guarded step Allowed new es :=
  Runs.forall_prefix_iff_guarded (A := fun _ => True) (I := fun _ => True)
    (Q := fun s _ => Announced s) (fun _ _ _ _ => trivial)
      (fun _ _ e _ _ _ hs => announced_step e hs)
    trivial (by decide) fun _ _ => trivial

theorem not_announced_unmask :
    ¬ (after [.write 1 .ier ⟨false, fun _ => 0⟩,
      .write 0x8000 .imr ⟨false, fun _ => 0⟩]).Announced := by
  decide

end State
end Wedge.Dp83820
