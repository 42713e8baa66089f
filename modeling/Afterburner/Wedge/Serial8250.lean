import Mathlib
import Afterburner.Lib.Bits
import Afterburner.Lib.Runs

/-!
# The interrupt causes of the serial ports

IIR reports one cause, the others wait in `pending`; a read of IIR brings the next, with an
interrupt.
-/

namespace Wedge.Serial
open Function Bits

abbrev Byte := BitVec 8

inductive IntStatus
  | modemStatus
  | txEmpty
  | rcvData
  | rcvLine
  deriving DecidableEq, Repr

instance : Fintype IntStatus where
  elems := {.modemStatus, .txEmpty, .rcvData, .rcvLine}
  complete c := by cases c <;> decide

structure Iir where
  noInterruptPending : Bool
  interruptStatus : IntStatus
  pending : IntStatus → Bool
  raised : Bool

namespace Iir
variable (i : Iir)

def setInterruptPending (status : IntStatus) : Bool × Iir :=
  if !i.noInterruptPending then
    (false, { i with pending := update i.pending status true })
  else (true, { i with interruptStatus := status, noInterruptPending := false, raised := false })

def order : List IntStatus := [.modemStatus, .txEmpty, .rcvData, .rcvLine]

def nextInterruptPending : Bool × Iir :=
  match order.find? i.pending with
  | some bit => (true, ⟨false, bit, update i.pending bit false, false⟩)
  | none => (false, { i with noInterruptPending := true })

def clearInterruptPending (status : IntStatus) : Iir :=
  let i := { i with pending := update i.pending status false }
  if i.interruptStatus = status then i.nextInterruptPending.2 else i

def raiseIf (r : Bool × Iir) : Iir := if r.1 then { r.2 with raised := true } else r.2

def raise (enabled : Bool) (status : IntStatus) : Iir :=
  if !enabled then i else raiseIf (i.setInterruptPending status)

def Announced : Prop := i.noInterruptPending = false → i.raised = true
instance : DecidablePred Announced := fun _ => inferInstanceAs (Decidable (_ → _))

def enables (tx rx : Bool) : IntStatus → Bool
  | .txEmpty => tx
  | .rcvData => rx
  | _ => false

def Ok (tx rx : Bool) : Prop :=
  (∀ c, i.pending c = true → enables tx rx c = true ∧ i.noInterruptPending = false) ∧
    (i.noInterruptPending = false → enables tx rx i.interruptStatus = true)

instance  (tx rx : Bool) : Decidable (i.Ok tx rx) := inferInstanceAs (Decidable (_ ∧ _))

def Loses (tx tx' rx' : Bool) : Prop :=
  i.noInterruptPending = false ∧
    ((i.interruptStatus = .txEmpty ∧ tx' = false ∧ i.pending .rcvData = true ∧ rx' = true) ∨
      (i.interruptStatus = .rcvData ∧ rx' = false ∧ tx' = true ∧
        (i.pending .txEmpty = true ∨ tx = false)))

instance  (tx tx' rx' : Bool) : Decidable (i.Loses tx tx' rx') :=
  inferInstanceAs (Decidable (_ ∧ _))

def change (old new : Bool) (status : IntStatus) : Iir :=
  if new && !old then i.raise new status
  else if !new && old then i.clearInterruptPending status
  else i

variable (tx rx tx' rx' : Bool)

theorem raise_spec : i.Ok tx rx →
    (i.raise tx .txEmpty).Ok tx rx ∧ (i.raise rx .rcvData).Ok tx rx ∧
      (i.Announced → (i.raise tx .txEmpty).Announced ∧ (i.raise rx .rcvData).Announced) := by
  obtain ⟨none, status, pending, raised⟩ := i
  revert none status pending raised tx rx
  decide +kernel

theorem next_spec : i.Ok tx rx →
    (raiseIf i.nextInterruptPending).Ok tx rx ∧ (raiseIf i.nextInterruptPending).Announced := by
  obtain ⟨none, status, pending, raised⟩ := i
  revert none status pending raised tx rx
  decide +kernel

theorem change_spec : i.Ok tx rx →
    ((i.change tx tx' .txEmpty).change rx rx' .rcvData).Ok tx' rx' ∧ (i.Announced →
      (((i.change tx tx' .txEmpty).change rx rx' .rcvData).Announced ↔ ¬ i.Loses tx tx' rx')) := by
  obtain ⟨none, status, pending, raised⟩ := i
  revert none status pending raised tx rx tx' rx'
  decide +kernel

end Iir

structure Serial8250 where
  ier : Byte
  iir : Iir
  lcr : Byte
  lsr : Byte
  mcr : Byte
  msr : Byte
  fcr : Byte
  dlabLow : Byte
  dlabHigh : Byte
  recvBuffer : Byte

namespace Serial8250
variable (d : Serial8250)

def enableRcvData : Bool := d.ier.getLsbD 0
def enableTxEmpty : Bool := d.ier.getLsbD 1
def isDlabEnabled : Bool := d.lcr.getLsbD 7
def dataReady : Bool := d.lsr.getLsbD 0
def raiseRxInterrupt : Serial8250 := { d with iir := d.iir.raise d.enableRcvData .rcvData }
def raiseTxInterrupt : Serial8250 := { d with iir := d.iir.raise d.enableTxEmpty .txEmpty }

def disableRxInterrupt : Serial8250 :=
  { d with ier := erase d.ier 0, iir := d.iir.clearInterruptPending .rcvData }

def disableTxInterrupt : Serial8250 :=
  { d with ier := erase d.ier 1, iir := d.iir.clearInterruptPending .txEmpty }

def init : Serial8250 :=
  ⟨0, ⟨true, .modemStatus, fun _ => false, false⟩, 0, 0x60, 0, 0x90, 0, 1, 0, 0⟩

def receiveByte (byte : Byte) : Serial8250 :=
  if d.dataReady then d
  else { d with recvBuffer := byte, lsr := insert d.lsr 0 }.raiseRxInterrupt

def read (addr : Fin 8) : Byte × Serial8250 :=
  match addr with
  | 0 =>
    if d.isDlabEnabled then (d.dlabLow, d)
    else (d.recvBuffer, { d with lsr := erase d.lsr 0 })
  | 1 => (if d.isDlabEnabled then d.dlabHigh else d.ier, d)
  | 2 =>
    let status : Byte := match d.iir.interruptStatus with
      | .modemStatus => 0
      | .txEmpty => 2
      | .rcvData => 4
      | .rcvLine => 6
    (if d.iir.noInterruptPending then status + 1 else status,
      { d with iir := Iir.raiseIf d.iir.nextInterruptPending })
  | 3 => (d.lcr, d)
  | 4 => (d.mcr, d)
  | 5 => (d.lsr, d)
  | 6 => (d.msr, d)
  | 7 => (0, d)

def writeIer (value : Byte) : Serial8250 :=
  let old := d
  let d := { d with ier := value }
  let d :=
    if d.enableTxEmpty && !old.enableTxEmpty then d.raiseTxInterrupt
    else if !d.enableTxEmpty && old.enableTxEmpty then d.disableTxInterrupt
    else d
  if d.enableRcvData && !old.enableRcvData then d.raiseRxInterrupt
  else if !d.enableRcvData && old.enableRcvData then d.disableRxInterrupt
  else d

def write (addr : Fin 8) (value : Byte) : Serial8250 :=
  match addr with
  | 0 => if d.isDlabEnabled then { d with dlabLow := value } else d.raiseTxInterrupt
  | 1 => if d.isDlabEnabled then { d with dlabHigh := value } else d.writeIer value
  | 2 => { d with fcr := value }
  | 3 => { d with lcr := value }
  | 4 => { d with mcr := value }
  | _ => d

def Ok : Prop := d.iir.Ok d.enableTxEmpty d.enableRcvData

theorem writeIer_fields (value : Byte) :
    (d.writeIer value).iir = (d.iir.change d.enableTxEmpty (value.getLsbD 1) .txEmpty).change
        d.enableRcvData (value.getLsbD 0) .rcvData ∧
      (d.writeIer value).enableTxEmpty = value.getLsbD 1 ∧
      (d.writeIer value).enableRcvData = value.getLsbD 0 := by
  unfold writeIer
  cases ht : d.ier.getLsbD 1 <;> cases hr : d.ier.getLsbD 0 <;> cases h1 : value.getLsbD 1 <;>
    cases h0 : value.getLsbD 0 <;>
    simp [-BitVec.getLsbD_eq_getElem, Iir.change, ht, hr, h1, h0, enableTxEmpty, enableRcvData,
      raiseTxInterrupt, raiseRxInterrupt, disableTxInterrupt, disableRxInterrupt]

inductive Event
  | read (addr : Fin 8)
  | write (addr : Fin 8) (value : Byte)
  | receive (byte : Byte)

def step : Event → Serial8250
  | .read addr => (d.read addr).2
  | .write addr value => d.write addr value
  | .receive byte => d.receiveByte byte

def KeepsCauses : Event → Prop
  | .write 1 value => d.isDlabEnabled = false →
      ¬ d.iir.Loses d.enableTxEmpty (value.getLsbD 1) (value.getLsbD 0)
  | _ => True

variable {d}

theorem Ok.step (h : d.Ok) (e : Event) :
    (d.step e).Ok ∧ (d.iir.Announced → ((d.step e).iir.Announced ↔ d.KeepsCauses e)) := by
  obtain ⟨htx, hrx, hraise⟩ := d.iir.raise_spec _ _ h
  have hsame : d.Ok ∧ (d.iir.Announced → (d.iir.Announced ↔ True)) :=
    ⟨h, fun ha => iff_of_true ha trivial⟩
  cases e with
  | read addr =>
    match addr with
    | 0 =>
      unfold Serial8250.step read
      dsimp only
      split_ifs <;> exact hsame
    | 2 =>
      obtain ⟨hok, ha⟩ := d.iir.next_spec _ _ h
      exact ⟨hok, fun _ => iff_of_true ha trivial⟩
    | 1 | 3 | 4 | 5 | 6 | 7 => exact hsame
  | write addr value =>
    match addr with
    | 0 =>
      unfold Serial8250.step write
      dsimp only
      split_ifs
      · exact hsame
      · exact ⟨htx, fun ha => iff_of_true (hraise ha).1 trivial⟩
    | 1 =>
      unfold Serial8250.step write KeepsCauses
      dsimp only
      split_ifs with hdlab
      · exact ⟨h, fun ha => iff_of_true ha fun hd => absurd (hdlab.symm.trans hd) (by decide)⟩
      · obtain ⟨hiir, htx', hrx'⟩ := d.writeIer_fields value
        obtain ⟨hok, ha⟩ := d.iir.change_spec _ _ (value.getLsbD 1) (value.getLsbD 0) h
        show (d.writeIer value).Ok ∧ (_ → ((d.writeIer value).iir.Announced ↔ _))
        rw [Ok, hiir, htx', hrx']
        exact ⟨hok, fun h => (ha h).trans ⟨fun h _ => h, fun h => h (by simpa using hdlab)⟩⟩
    | 2 | 3 | 4 | 5 | 6 | 7 => exact hsame
  | receive byte =>
    unfold Serial8250.step receiveByte
    dsimp only
    split_ifs
    · exact hsame
    · exact ⟨hrx, fun ha => iff_of_true (hraise ha).2 trivial⟩

end Serial8250

abbrev Ports := Fin 4 → Serial8250

def which (port : BitVec 16) : Option (Fin 4) :=
  let base := port &&& ~~~ 7
  if base = 0x3f8 then some 0
  else if base = 0x2f8 then some 1
  else if base = 0x3e8 then some 2
  else if base = 0x2e8 then some 3
  else none

def regAddr (port : BitVec 16) : Fin 8 := ⟨(port &&& 7).toNat % 8, Nat.mod_lt _ (by decide)⟩

inductive Op
  | read (port : BitVec 16)
  | write (port : BitVec 16) (value : Byte)
  | receive (which : Fin 4) (byte : Byte)

def Op.event : Op → Option (Fin 4 × Serial8250.Event)
  | .read port => (which port).map fun w => (w, .read (regAddr port))
  | .write port value => (which port).map fun w => (w, .write (regAddr port) value)
  | .receive w byte => some (w, .receive byte)

def step (s : Ports) (op : Op) : Ports :=
  match op.event with
  | none => s
  | some (w, e) => update s w ((s w).step e)

def KeepsCauses (s : Ports) (op : Op) : Prop :=
  match op.event with
  | none => True
  | some (w, e) => (s w).KeepsCauses e

def Announced (s : Ports) : Prop := ∀ w, (s w).iir.Announced

/-- **Reported causes are announced by an interrupt**, in every state of a run, exactly when no
write to IER disables the reported cause while the other one is or becomes pending. -/
theorem announced_iff_keepsCauses (ops : List Op) :
    (∀ pre, pre <+: ops → Announced (Runs.run step (fun _ => Serial8250.init) pre)) ↔
      Runs.Guarded step KeepsCauses (fun _ => Serial8250.init) ops := by
  refine Runs.forall_prefix_iff_guarded (A := fun _ => True) (I := fun s => ∀ w, (s w).Ok)
    (Q := fun s _ => Announced s) (fun s op _ h w => ?_) (fun s _ op h _ _ ha => ?_)
    (fun _ => (by decide : Serial8250.init.iir.Ok false false)) (fun _ h => nomatch h)
    fun _ _ => trivial
  · cases hop : op.event with
    | none => simpa only [step, hop] using h w
    | some we =>
      simp only [step, hop, update_apply]
      split_ifs
      · exact ((h _).step _).1
      · exact h w
  · cases hop : op.event with
    | none => simpa only [step, KeepsCauses, hop, iff_true] using ha
    | some we =>
      simp only [step, KeepsCauses, hop, ← ((h we.1).step we.2).2 (ha we.1)]
      refine ⟨fun hs => by simpa using hs we.1, fun hs w => ?_⟩
      rw [update_apply]
      split_ifs
      · exact hs
      · exact ha w

theorem not_announced_disableTx :
    ¬ Announced (Runs.run step (fun _ => Serial8250.init)
      [.write 0x3f9 3, .receive 0 0x41, .write 0x3f9 1]) :=
  fun h => absurd (h 0) (by decide)

end Wedge.Serial
