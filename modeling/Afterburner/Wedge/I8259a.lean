import Afterburner.Lib.Runs
import Afterburner.Wedge.Intlogic

/-!
# The 8259 interrupt controllers

The pair of 8259A controllers and the interrupt logic over them in a build without local APIC.
-/

namespace Wedge
open Bits

inductive PicMode
  | ocw
  | icw2
  | icw3
  | icw4
  deriving DecidableEq, Repr

structure I8259a where
  icw1 : Byte
  icw2 : Byte
  icw3 : Byte
  icw4 : Byte
  mode : PicMode
  irqInService : Word
  irqRequest : Word
  irqMask : Word
  ocwRead : Byte
  deriving DecidableEq

namespace I8259a
variable (p : I8259a)

def init : I8259a where
  icw1 := 0
  icw2 := 0
  icw3 := 0
  icw4 := 0
  mode := .ocw
  irqInService := 0
  irqRequest := 0
  irqMask := 0xff
  ocwRead := 0x02

def masterOnly : Bool := p.icw1.getLsbD 1
def icw4Enabled : Bool := p.icw1.getLsbD 0
def isAutoEoi : Bool := p.icw4.getLsbD 1
def getIdtOffset : ℕ := p.icw2.toNat
def maskedIrr : Word := p.irqRequest &&& ~~~ p.irqMask
def resetMode : I8259a := { p with mode := .icw2 }

def succMode : PicMode → PicMode
  | .ocw => .icw2
  | .icw2 => .icw3
  | .icw3 => .icw4
  | .icw4 => .ocw

def nextMode : I8259a :=
  let m := succMode p.mode
  let m := if m = .icw3 ∧ p.masterOnly then succMode m else m
  let m := if m = .icw4 ∧ ¬ p.icw4Enabled then succMode m else m
  { p with mode := m }

def request (picIrq : ℕ) : I8259a :=
  { p with irqRequest := insert p.irqRequest picIrq }

def claim (picIrq : ℕ) : I8259a :=
  let p := { p with irqRequest := erase p.irqRequest picIrq }
  if p.isAutoEoi then p else { p with irqInService := insert p.irqInService picIrq }

def seoi (irq : ℕ) : Bool × I8259a :=
  if p.irqInService.getLsbD irq then
    (true, { p with irqInService := erase p.irqInService irq })
  else (false, p)

def eoi (irq : ℕ) : Bool × ℕ × I8259a :=
  if p.irqInService ≠ 0 then
    let irq := lsb p.irqInService
    ((p.seoi irq).1, irq, (p.seoi irq).2)
  else (false, irq, p)

end I8259a
namespace Ocw

inductive Op2
  | clearRotateOnAeoi
  | nonSpecificEoi
  | nop
  | specificEoi
  | setRotateOnAeoi
  | rotateOnNonSpecificEoi
  | setPriority
  | rotateOnSpecificEoi
  deriving DecidableEq, Repr

def isIcw1 (v : Byte) : Bool := v.getLsbD 4
def isOcw3 (v : Byte) : Bool := v.getLsbD 3
def getLevel (v : Byte) : ℕ := (v &&& 7).toNat

def getOp (v : Byte) : Op2 :=
  match (v >>> 5).toNat with
  | 0 => .clearRotateOnAeoi
  | 1 => .nonSpecificEoi
  | 2 => .nop
  | 3 => .specificEoi
  | 4 => .setRotateOnAeoi
  | 5 => .rotateOnNonSpecificEoi
  | 6 => .setPriority
  | _ => .rotateOnSpecificEoi

def isReadRequest (v : Byte) : Bool := v.getLsbD 1
def isPollMode (v : Byte) : Bool := v.getLsbD 2
def isReadIsr (v : Byte) : Bool := v.getLsbD 0

end Ocw

inductive Chip
  | master
  | slave
  deriving DecidableEq, Repr

def Chip.irqBase : Chip → ℕ
  | .master => 0
  | .slave => 8

structure Pics where
  cpu : Cpu
  hwirq : Hwirq
  master : I8259a
  slave : I8259a
  calls : List BackendCall

namespace Pics
variable (s : Pics) (c : Chip)

def chip : Chip → I8259a
  | .master => s.master
  | .slave => s.slave

def setChip : Chip → I8259a → Pics
  | .master, p => { s with master := p }
  | .slave, p => { s with slave := p }

def setCpu (k : Cpu) : Pics := { s with cpu := k }
def setHwirq (h : Hwirq) : Pics := { s with hwirq := h }
def call (b : BackendCall) : Pics := { s with calls := s.calls ++ [b] }

def init (squash : Word) : Pics where
  cpu := Cpu.boot
  hwirq := ⟨fun i => if i = 2 then squash else 0⟩
  master := I8259a.init
  slave := I8259a.init
  calls := []

def chipRaiseIrq (irq : ℕ) : Pics :=
  let p := s.chip c
  let picIrq := irq - c.irqBase
  let s := s.setChip c (p.request picIrq)
  let s := s.setHwirq (s.hwirq.setHwirqMask irq)
  if p.irqMask.getLsbD picIrq then s else s.setCpu (s.cpu.setIrqVector irq)

def chipReraiseVector (vector : ℕ) : Pics :=
  let p := s.chip c
  if vector < p.getIdtOffset ∨ vector ≥ p.getIdtOffset + 8 then s
  else
    let picIrq := vector - p.getIdtOffset
    let s := s.setChip c (p.request picIrq)
    if p.irqMask.getLsbD picIrq then s else s.setCpu (s.cpu.setIrqVector (picIrq + c.irqBase))

def chipPendingVector : Option (ℕ × ℕ) × Pics :=
  let p := s.chip c
  if p.maskedIrr = 0 then (none, s.setCpu (s.cpu.clearIrqVector c.irqBase))
  else
    let picIrq := lsb p.maskedIrr
    let p := p.claim picIrq
    let s := s.setChip c p
    let s := if p.maskedIrr = 0 then s.setCpu (s.cpu.clearIrqVector c.irqBase) else s
    (some (picIrq + p.getIdtOffset, picIrq + c.irqBase), s)

def unmaskRetired (irq : ℕ) : Pics :=
  if s.hwirq.isHwirqSquashed irq then s
  else
    let s' := s.setHwirq (s.hwirq.clearHwirqMask irq)
    if s.hwirq.testHwirqMask irq then s'.call (.unmask irq) else s'

def retire : Pics :=
  let r := (s.chip c).eoi 0
  let s := s.setChip c r.2.2
  if r.1 then s.unmaskRetired r.2.1 else s

def portAWrite (value : Byte) : Pics :=
  let p := s.chip c
  if Ocw.isIcw1 value then
    let p := { p with icw1 := (value &&& 0xb) ||| 0x10 }
    let p := if p.icw4Enabled then p else { p with icw4 := 0 }
    s.setChip c { p.resetMode with irqMask := 0xff }
  else if Ocw.isOcw3 value then
    if Ocw.isReadRequest value ∨ Ocw.isPollMode value then s.setChip c { p with ocwRead := value }
    else s
  else match Ocw.getOp value with
    | .specificEoi => s.retire c
    | .nonSpecificEoi => s.retire c
    | _ => s

def globalMask (m : Word) (c : Chip) : Word := (m <<< c.irqBase) ||| ~~~ (0xff#32 <<< c.irqBase)

def enableHwirq (newIrq : ℕ) : Pics :=
  (s.setHwirq (s.hwirq.setHwirqLatch newIrq)).call (.enable newIrq)

def unmaskHwirq (unmaskedIrq : ℕ) : Pics :=
  (s.setHwirq (s.hwirq.clearHwirqMask unmaskedIrq)).call (.unmask unmaskedIrq)

def portBWrite (value : Byte) : Pics :=
  let p := s.chip c
  match p.mode with
  | .ocw =>
    let oldMask := p.irqMask
    let p := { p with irqMask := value.setWidth 32 }
    let s := s.setChip c p
    let s := if p.irqRequest &&& oldMask &&& ~~~ p.irqMask = 0 then s
      else s.setCpu (s.cpu.setIrqVector c.irqBase)
    let newlyEnabled := ~~~ globalMask p.irqMask c &&& ~~~ s.hwirq.latch &&& ~~~ s.hwirq.squash
    let s := (scan newlyEnabled).foldl enableHwirq s
    let deviceUnmasked := globalMask oldMask c &&& ~~~ globalMask p.irqMask c &&& s.hwirq.mask &&&
      ~~~ s.hwirq.squash
    (scan deviceUnmasked).foldl unmaskHwirq s
  | .icw2 => s.setChip c ({ p with icw2 := value &&& 0xf8 } : I8259a).nextMode
  | .icw3 => s.setChip c ({ p with icw3 := value } : I8259a).nextMode
  | .icw4 => s.setChip c ({ p with icw4 := value &&& 0x1f } : I8259a).nextMode

def portARead : Byte × Pics :=
  let p := s.chip c
  if Ocw.isPollMode p.ocwRead then
    let r := p.eoi 0
    (if r.1 then BitVec.ofNat 8 r.2.1 else 0x7, s.setChip c r.2.2)
  else if Ocw.isReadIsr p.ocwRead then (p.irqInService.setWidth 8, s)
  else (p.irqRequest.setWidth 8, s)

def raiseIrq (irq : ℕ) : Pics :=
  let s := s.setHwirq (s.hwirq.setHwirqMask irq)
  if irq < 8 then s.chipRaiseIrq .master irq
  else if irq < 16 then s.chipRaiseIrq .slave irq
  else s

def reraiseVector (vector : ℕ) : Pics :=
  (s.chipReraiseVector .master vector).chipReraiseVector .slave vector

def askChip : Option (ℕ × ℕ) × Pics :=
  if (s.chip c).irqRequest ≠ 0 then s.chipPendingVector c else (none, s)

def picPendingVector : Option (ℕ × ℕ) × Pics :=
  match (s.askChip .master).1 with
  | some v => (some v, (s.askChip .master).2)
  | none => (s.askChip .master).2.askChip .slave

def pendingVector : Option (ℕ × ℕ) × Pics :=
  if s.cpu.irqVectors = 0 then (none, s) else s.picPendingVector

inductive Op
  | raiseIrq (irq : Fin 16)
  | reraiseVector (vector : ℕ)
  | pendingVector
  | portAWrite (c : Chip) (value : Byte)
  | portBWrite (c : Chip) (value : Byte)
  | portARead (c : Chip)

def step : Op → Pics
  | .raiseIrq irq => s.raiseIrq irq
  | .reraiseVector vector => s.reraiseVector vector
  | .pendingVector => s.pendingVector.2
  | .portAWrite c value => s.portAWrite c value
  | .portBWrite c value => s.portBWrite c value
  | .portARead c => (s.portARead c).2

section Fields
variable (p : I8259a)

@[simp] theorem chip_setChip_self : (s.setChip c p).chip c = p := by cases c <;> rfl

theorem chip_setChip_of_ne {c d : Chip} (h : d ≠ c) : (s.setChip c p).chip d = s.chip d := by
  cases c <;> cases d <;> first | rfl | exact absurd rfl h

@[simp] theorem setChip_cpu : (s.setChip c p).cpu = s.cpu := by cases c <;> rfl
@[simp] theorem setChip_hwirq : (s.setChip c p).hwirq = s.hwirq := by cases c <;> rfl
@[simp] theorem setChip_calls : (s.setChip c p).calls = s.calls := by cases c <;> rfl

variable (k : Cpu) (h : Hwirq) (b : BackendCall)

@[simp] theorem setCpu_cpu : (s.setCpu k).cpu = k := rfl
@[simp] theorem setCpu_chip : (s.setCpu k).chip c = s.chip c := by cases c <;> rfl
@[simp] theorem setCpu_hwirq : (s.setCpu k).hwirq = s.hwirq := rfl
@[simp] theorem setCpu_calls : (s.setCpu k).calls = s.calls := rfl
@[simp] theorem setHwirq_cpu : (s.setHwirq h).cpu = s.cpu := rfl
@[simp] theorem setHwirq_chip : (s.setHwirq h).chip c = s.chip c := by cases c <;> rfl
@[simp] theorem setHwirq_hwirq : (s.setHwirq h).hwirq = h := rfl
@[simp] theorem setHwirq_calls : (s.setHwirq h).calls = s.calls := rfl
@[simp] theorem call_cpu : (s.call b).cpu = s.cpu := rfl
@[simp] theorem call_chip : (s.call b).chip c = s.chip c := by cases c <;> rfl
@[simp] theorem call_hwirq : (s.call b).hwirq = s.hwirq := rfl
@[simp] theorem call_calls : (s.call b).calls = s.calls ++ [b] := rfl

end Fields
end Pics
end Wedge
