import Afterburner.Lib.Runs
import Afterburner.Wedge.I8259a
import Afterburner.Wedge.Lapic

/-!
# The local APICs, the IO-APICs and the interrupt logic over them

The interrupt system of a build with local APICs.
-/

namespace Wedge
open Function Bits

structure RedirEntry where
  lo : Word
  hi : Word

namespace RedirEntry
variable (e : RedirEntry)

def vec : ℕ := (e.lo &&& 0xff).toNat
def del : ℕ := (e.lo >>> 8 &&& 7).toNat
def dstm : Bool := e.lo.getLsbD 11
def trg : Bool := e.lo.getLsbD 15
def msk : Bool := e.lo.getLsbD 16
def pdst : ℕ := (e.hi >>> 24 &&& 0xf).toNat
def ldst : Byte := (e.hi >>> 24).setWidth 8

end RedirEntry

structure I82093 where
  irqBase : Word
  redtbl : ℕ → RedirEntry

namespace I82093
variable (x : I82093)

def entry (hwirq : Word) : ℕ := (hwirq - x.irqBase).toNat
def redir (hwirq : Word) : RedirEntry := x.redtbl (x.entry hwirq)

def setLo (hwirq : Word) (lo : Word) : I82093 :=
  { x with redtbl := update x.redtbl (x.entry hwirq) { x.redir hwirq with lo := lo } }

end I82093

structure Apics where
  nrVcpus : ℕ
  cpu : ℕ → Cpu
  lapic : ℕ → Lapic
  ioapic : Word → I82093
  hwirq : Hwirq
  master : I8259a
  slave : I8259a
  calls : List BackendCall

namespace Apics
variable (s : Apics)

def setCpu (i : ℕ) (k : Cpu) : Apics := { s with cpu := update s.cpu i k }

def setLapic (i : ℕ) (l : Lapic) : Apics :=
  { s with lapic := update s.lapic i l }

def setIoapic (addr : Word) (x : I82093) : Apics :=
  { s with ioapic := update s.ioapic addr x }

def setHwirq (h : Hwirq) : Apics := { s with hwirq := h }
def call (b : BackendCall) : Apics := { s with calls := s.calls ++ [b] }

def pics (self : ℕ) : Pics where
  cpu := s.cpu self
  hwirq := s.hwirq
  master := s.master
  slave := s.slave
  calls := s.calls

def setPics (self : ℕ) (p : Pics) : Apics :=
  { s.setCpu self p.cpu with
    hwirq := p.hwirq, master := p.master, slave := p.slave, calls := p.calls }

def boot (nrVcpus : ℕ) (squash : Word) : Apics where
  nrVcpus := nrVcpus
  cpu _ := Cpu.boot
  lapic i := Lapic.init (BitVec.ofNat 8 i) (decide (i = 0))
  ioapic _ := ⟨0, fun _ => ⟨0, 0⟩⟩
  hwirq := (Pics.init squash).hwirq
  master := I8259a.init
  slave := I8259a.init
  calls := []

def raiseVector (self dest vector : ℕ) (irq : Word) (reraise fromEoi : Bool)
    (fromIoapic : Word) : Apics :=
  if vector > 15 then
    (s.setCpu self ((s.cpu self).setIrqVector (vector + 16))).setLapic dest
      ((s.lapic dest).raise vector irq reraise fromEoi fromIoapic)
  else s

def logicalMask (ldest : Byte) : Word :=
  (List.range s.nrVcpus).foldl
    (fun m destId => if (s.lapic destId).lidMatches ldest then m ||| 1#32 <<< destId else m) 0

def redirDestMask (e : RedirEntry) : Word :=
  if e.dstm then s.logicalMask e.ldst else 1#32 <<< e.pdst &&& (1#32 <<< s.nrVcpus - 1#32)

def unmaskHwirq (hwirq : ℕ) : Apics :=
  if s.hwirq.isHwirqSquashed hwirq then s
  else
    let s' := s.setHwirq (s.hwirq.clearHwirqMask hwirq)
    if s.hwirq.testHwirqMask hwirq then s'.call (.unmask hwirq) else s'

def ioapicRaiseIrq (self : ℕ) (addr irq : Word) (reraise : Bool) : Apics :=
  let x := s.ioapic addr
  let e := x.redir irq
  if e.vec ≤ 15 then s
  else if e.msk = false then
    let s' := if e.trg then s.setIoapic addr (x.setLo irq (insert e.lo 14))
      else s.unmaskHwirq irq.toNat
    let fromEoi := e.trg && decide (e.del ≤ 1)
    let fromIoapic := if e.trg then addr else 0
    (scan (s.redirDestMask e)).foldl
      (fun s destId => s.raiseVector self destId e.vec irq reraise fromEoi fromIoapic) s'
  -- a masked level interrupt is marked pending in bit 17
  else if e.trg then s.setIoapic addr (x.setLo irq (insert e.lo 17))
  else s.unmaskHwirq irq.toNat

def ioapicEoi (self : ℕ) (addr hwirq : Word) : Apics :=
  let x := s.ioapic addr
  let lo := (x.redir hwirq).lo
  if lo.getLsbD 14 then
    let s := s.setIoapic addr (x.setLo hwirq (erase lo 14))
    let s := s.unmaskHwirq hwirq.toNat
    if lo.getLsbD 17 then
      let s := s.setIoapic addr (x.setLo hwirq (erase (erase lo 14) 17))
      s.ioapicRaiseIrq self addr hwirq true
    else s
  else s

def retireSummary (self : ℕ) (l : Lapic) (vector : ℕ) : Apics :=
  if l.msbRrCluster .isr vector = 0 then
    s.setCpu self ((s.cpu self).clearIrqVector (vector + 16))
  else s

def notifyIoapic (self : ℕ) (l : Lapic) (vector : ℕ) : Apics :=
  if l.testRr .tmr vector ∧ l.getIoapic vector ≠ 0 then
    s.ioapicEoi self (l.getIoapic vector) (l.getPin vector)
  else s

def writeEoi (self : ℕ) : Apics :=
  let vector := (s.lapic self).msbRr .isr
  if vector > 15 ∧ (s.lapic self).testRr .isr vector then
    let l := (s.lapic self).bitClearRr vector .isr
    let s := s.retireSummary self l vector
    let s := s.setLapic self (l.bitClearRr vector .tmr)
    s.notifyIoapic self l vector
  else s

inductive Shorthand
  | no
  | self
  | all
  | allButSelf
  deriving DecidableEq, Repr

def Icr.vector (icrlo : Word) : ℕ := (icrlo &&& 0xff).toNat
def Icr.deliveryMode (icrlo : Word) : ℕ := (icrlo >>> 8 &&& 7).toNat
def Icr.destinationMode (icrlo : Word) : Bool := icrlo.getLsbD 11

def Icr.destShorthand (icrlo : Word) : Shorthand :=
  match (icrlo >>> 18 &&& 3).toNat with
  | 0 => .no
  | 1 => .self
  | 2 => .all
  | _ => .allButSelf

def Icr.dest (icrhi : Word) : Byte := (icrhi >>> 24).setWidth 8

def destIdMask (self : ℕ) (icrlo icrhi : Word) : Word :=
  let id := (s.lapic self).getId
  match Icr.destShorthand icrlo with
  | .no =>
    if Icr.destinationMode icrlo then s.logicalMask (Icr.dest icrhi)
    else 1#32 <<< ((Icr.dest icrhi).toNat % 32)
  | .self => 1#32 <<< (id % 32)
  | .all => 1#32 <<< s.nrVcpus - 1#32
  | .allButSelf => (1#32 <<< s.nrVcpus - 1#32) &&& ~~~ (1#32 <<< (id % 32))

def writeIntrCmdlo (self : ℕ) (value : Word) : Apics :=
  let l := (s.lapic self).copyFields 0xc0 0xccfff value
  let s := s.setLapic self l
  let mask := s.destIdMask self l.icrlo l.icrhi
  if mask ≥ 1#32 <<< s.nrVcpus then s
  else if Icr.deliveryMode l.icrlo = 0 then
    (scan mask).foldl
      (fun s destId =>
        if destId < s.nrVcpus then
          s.raiseVector self destId (Icr.vector l.icrlo) 256 false false 0
        else s) s
  else s

def write (self : ℕ) (value : Word) (reg : ℕ) : Apics :=
  let l := s.lapic self
  match reg with
  -- LDR, DFR
  | 0x0d0 => s.setLapic self (l.copyFields 0x34 0xff000000 value)
  | 0x0e0 => s.setLapic self (l.copyFields 0x38 0xf0000000 value)
  | 0x0b0 => s.writeEoi self
  -- SVR: enabling is kept in a word of its own and is not undone
  | 0x0f0 =>
    let l := l.copyFields 0x3c 0x3ff value
    s.setLapic self (if value.getLsbD 8 then l.setRaw 0x2 1 else l)
  -- the local vector table: timer, PMC, LINT0, LINT1, error
  | 0x320 => s.setLapic self (l.copyFields 0xc8 0x300ff value)
  | 0x340 => s.setLapic self (l.copyFields 0xd0 0x1a7ff value)
  | 0x350 => s.setLapic self (l.copyFields 0xd4 0x1a7ff value)
  | 0x360 => s.setLapic self (l.copyFields 0xd8 0x1a7ff value)
  | 0x370 => s.setLapic self (l.copyFields 0xdc 0x1a7ff value)
  | 0x300 => s.writeIntrCmdlo self value
  | 0x310 => s.setLapic self (l.copyFields 0xc4 0xff000000 value)
  -- timer count and divide
  | 0x380 => s.setLapic self (l.setRaw 0xe0 value)
  | 0x3e0 => s.setLapic self (l.copyFields 0xf8 0xb value)
  | _ => s

theorem write_intrCmdlo (self : ℕ) (value : Word) :
    s.write self value 0x300 = s.writeIntrCmdlo self value := rfl

def maybePendingVector (self : ℕ) : Bool := (s.cpu self).irqVectors ≠ 0

def askLapic (self : ℕ) : Option (ℕ × Word) × Apics :=
  let r := (s.lapic self).pendingVector
  if (s.lapic self).isEnabled then (r.1, s.setLapic self r.2) else (none, s)

def pendingVector (self : ℕ) : Option (ℕ × Word) × Apics :=
  if (s.cpu self).irqVectors = 0 then (none, s)
  else match (s.askLapic self).1 with
    | some r => (some r, (s.askLapic self).2)
    | none =>
      if (s.lapic self).isVirtualWire then
        let r := (s.pics self).picPendingVector
        (r.1.map fun v => (v.1, BitVec.ofNat 32 v.2), s.setPics self r.2)
      else (none, s)

section Fields

variable (i : ℕ) (k : Cpu) (l : Lapic) (a : Word) (x : I82093) (h : Hwirq) (b : BackendCall)
  (p : Pics)

@[simp] theorem setCpu_cpu_self : (s.setCpu i k).cpu i = k := update_self ..

theorem setCpu_cpu_of_ne {i j : ℕ} (hj : j ≠ i) : (s.setCpu i k).cpu j = s.cpu j :=
  update_of_ne hj ..

@[simp] theorem setCpu_lapic : (s.setCpu i k).lapic = s.lapic := rfl
@[simp] theorem setCpu_ioapic : (s.setCpu i k).ioapic = s.ioapic := rfl
@[simp] theorem setCpu_nrVcpus : (s.setCpu i k).nrVcpus = s.nrVcpus := rfl
@[simp] theorem setLapic_cpu : (s.setLapic i l).cpu = s.cpu := rfl
@[simp] theorem setLapic_lapic_self : (s.setLapic i l).lapic i = l := update_self ..

theorem setLapic_lapic_of_ne {i j : ℕ} (hj : j ≠ i) : (s.setLapic i l).lapic j = s.lapic j :=
  update_of_ne hj ..

@[simp] theorem setLapic_ioapic : (s.setLapic i l).ioapic = s.ioapic := rfl
@[simp] theorem setLapic_nrVcpus : (s.setLapic i l).nrVcpus = s.nrVcpus := rfl
@[simp] theorem setIoapic_cpu : (s.setIoapic a x).cpu = s.cpu := rfl
@[simp] theorem setIoapic_lapic : (s.setIoapic a x).lapic = s.lapic := rfl
@[simp] theorem setIoapic_ioapic_self : (s.setIoapic a x).ioapic a = x := update_self ..

theorem setIoapic_ioapic_of_ne {a c : Word} (hc : c ≠ a) :
    (s.setIoapic a x).ioapic c = s.ioapic c := update_of_ne hc ..

@[simp] theorem setHwirq_cpu : (s.setHwirq h).cpu = s.cpu := rfl
@[simp] theorem setHwirq_lapic : (s.setHwirq h).lapic = s.lapic := rfl
@[simp] theorem setHwirq_ioapic : (s.setHwirq h).ioapic = s.ioapic := rfl
@[simp] theorem call_cpu : (s.call b).cpu = s.cpu := rfl
@[simp] theorem call_lapic : (s.call b).lapic = s.lapic := rfl
@[simp] theorem call_ioapic : (s.call b).ioapic = s.ioapic := rfl
@[simp] theorem setPics_lapic : (s.setPics i p).lapic = s.lapic := rfl
@[simp] theorem setPics_ioapic : (s.setPics i p).ioapic = s.ioapic := rfl

@[simp] theorem setPics_cpu_self : (s.setPics i p).cpu i = p.cpu :=
  update_self ..

@[simp] theorem pics_cpu : (s.pics i).cpu = s.cpu i := rfl

@[simp] theorem unmaskHwirq_cpu (n : ℕ) : (s.unmaskHwirq n).cpu = s.cpu := by
  unfold unmaskHwirq
  split_ifs <;> rfl

@[simp] theorem unmaskHwirq_lapic (n : ℕ) : (s.unmaskHwirq n).lapic = s.lapic := by
  unfold unmaskHwirq
  split_ifs <;> rfl

@[simp] theorem unmaskHwirq_ioapic (n : ℕ) : (s.unmaskHwirq n).ioapic = s.ioapic := by
  unfold unmaskHwirq
  split_ifs <;> rfl

end Fields

def raiseAll (self vector : ℕ) (irq : Word) (reraise fromEoi : Bool) (fromIoapic : Word)
    (dests : List ℕ) : Apics :=
  dests.foldl (fun s d => s.raiseVector self d vector irq reraise fromEoi fromIoapic) s

section RaiseAll

variable (self vector : ℕ) (irq : Word) (reraise fromEoi : Bool) (fromIoapic : Word)
  (dests : List ℕ)

@[simp] theorem raiseVector_hwirq (dest : ℕ) :
    (s.raiseVector self dest vector irq reraise fromEoi fromIoapic).hwirq = s.hwirq := by
  unfold raiseVector
  split_ifs <;> rfl

@[simp] theorem raiseVector_ioapic (dest : ℕ) :
    (s.raiseVector self dest vector irq reraise fromEoi fromIoapic).ioapic = s.ioapic := by
  unfold raiseVector
  split_ifs <;> rfl

@[simp] theorem raiseAll_hwirq :
    (s.raiseAll self vector irq reraise fromEoi fromIoapic dests).hwirq = s.hwirq := by
  induction dests generalizing s with
  | nil => rfl
  | cons d dests ih => exact (ih _).trans (raiseVector_hwirq ..)

@[simp] theorem raiseAll_ioapic :
    (s.raiseAll self vector irq reraise fromEoi fromIoapic dests).ioapic = s.ioapic := by
  induction dests generalizing s with
  | nil => rfl
  | cons d dests ih => exact (ih _).trans (raiseVector_ioapic ..)

theorem raiseAll_cons {vector : ℕ} (hv : 15 < vector) (d : ℕ) (dests : List ℕ) :
    s.raiseAll self vector irq reraise fromEoi fromIoapic (d :: dests) =
      ((s.setCpu self ((s.cpu self).setIrqVector (vector + 16))).setLapic d
        ((s.lapic d).raise vector irq reraise fromEoi fromIoapic)).raiseAll self vector irq reraise
          fromEoi fromIoapic dests := by
  rw [raiseAll, List.foldl_cons, raiseVector, if_pos hv]
  rfl

theorem lapic_raiseAll {vector : ℕ} {dests : List ℕ} (hv : 15 < vector) (hnodup : dests.Nodup)
    (j : ℕ) : (s.raiseAll self vector irq reraise fromEoi fromIoapic dests).lapic j =
      if j ∈ dests then (s.lapic j).raise vector irq reraise fromEoi fromIoapic else s.lapic j := by
  induction dests generalizing s with
  | nil => rfl
  | cons d dests ih =>
    obtain ⟨hd, hdests⟩ := List.nodup_cons.1 hnodup
    rw [raiseAll_cons _ _ _ _ _ _ hv, ih _ hdests]
    by_cases hjd : j = d
    · subst hjd
      simp [hd]
    · simp [hjd, setLapic_lapic_of_ne]

theorem cpu_raiseAll {vector : ℕ} {dests : List ℕ} (hv : 15 < vector) (i : ℕ) :
    (s.raiseAll self vector irq reraise fromEoi fromIoapic dests).cpu i =
      if i = self ∧ dests ≠ [] then (s.cpu self).setIrqVector (vector + 16) else s.cpu i := by
  induction dests generalizing s with
  | nil => simp [raiseAll]
  | cons d dests ih =>
    rw [raiseAll_cons _ _ _ _ _ _ hv, ih]
    by_cases his : i = self
    · subst his
      have htwice : ((s.cpu i).setIrqVector (vector + 16)).setIrqVector (vector + 16) =
          (s.cpu i).setIrqVector (vector + 16) := by simp [Bits.Str.bts_of_bt, Cpu.setIrqVector]
      by_cases hnil : dests = [] <;> simp [hnil, htwice]
    · simp [his, setCpu_cpu_of_ne]

end RaiseAll
end Apics
end Wedge
