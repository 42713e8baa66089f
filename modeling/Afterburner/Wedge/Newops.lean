import Afterburner.Wedge.Rewrite

/-!
# Emitting the replacement of a sensitive instruction

What `rewrite_stackless.h` writes to `newops`, with lengths; for segment and control registers there
are two sets (`CONFIG_CALLOUT_VCPULOCAL`).
-/
variable (e : Emitter) (modrm : Modrm)

namespace Rewrite
open Ia32 List

inductive Segment
  | es | cs | ss | ds | fs | gs
  deriving DecidableEq, Repr

def Segment.ofReg (r : Reg) : Option Segment :=
  if r = 0 then some .es
  else if r = 1 then some .cs
  else if r = 2 then some .ss
  else if r = 3 then some .ds
  else if r = 4 then some .fs
  else if r = 5 then some .gs
  else none

def Segment.reg : Segment → Reg
  | .es => 0 | .cs => 1 | .ss => 2 | .ds => 3 | .fs => 4 | .gs => 5

theorem Segment.ofReg_reg (s : Segment) : Segment.ofReg s.reg = some s := by
  cases s <;> rfl

inductive Burn
  | interruptibleHlt | int | iret | lret | out | outs | inPort | ins | deliverInterrupt | popf
  | pushf
  | cli | sti | movTofsofs | movFromfsofs | wbinvd | invd | ud2 | cpuid | lss | readCr | readDr
  | writeDr
  | clts | ltr | lldt | str | lgdt | lidt | invlpg | unimplemented | wrmsr | rdmsr
  | writeSeg (s : Segment)
  | readSeg (s : Segment)
  | device8259In (port : Byte)
  | device8259Out (port : Byte)
  deriving DecidableEq, Repr

inductive CpuField
  | flags | irqVectors
  | seg (s : Segment)
  | cr (r : Reg)
  deriving DecidableEq, Repr

inductive WedgeKind
  | l4ka | kaxen | xen | linux
  deriving DecidableEq, Repr

structure Config where
  wedge : WedgeKind
  hardwareSegments : Bool
  strictIrq : Bool
  deviceApic : Bool
  calloutVcpulocal : Bool
  /-- not `CONFIG_OPTIMIZE`: the assertions are checked -/
  asserts : Bool
  kernelVaddr : Word
  burn : Burn → Word
  cpu : CpuField → Word
  /-- `burn_write_cr`, or what is found behind the table -/
  burnWriteCr : Reg → Word
  /-- what the local variables `suffixes` and `modrm` hold before they are set, for the site at an
  address -/
  suffixes : Word → ℕ → Byte
  modrm : Word → Byte

variable (cfg : Config) (s : Segment)

inductive Report
  | lockIgnored
  | repneNotSupported
  | ignoredSegmentPrefix
  | segmentPrefix
  | movGs
  | unsupportedPrefix
  | unknownSegment
  | unknownCr
  | unknownLltl
  | unknownLdtl
  | unknownTwoByte
  | unknownOpcode
  | unsupportedDevice
  | unsupportedInstruction
  | unsupportedBitop
  deriving DecidableEq, Repr

def Report.isNotice : Report → Bool
  | .lockIgnored => true
  | .segmentPrefix => true
  | _ => false

inductive Exit
  /-- on to the comparison of `newops` with `opstream_end` -/
  | check
  /-- the same, but `newops` is `NULL` -/
  | null
  /-- `return false` -/
  | refused
  | panic
  deriving DecidableEq, Repr

structure Patched where
  newops : Emitter
  exit : Exit
  reports : List Report
  /-- bytes that are written elsewhere than to `newops`, in order -/
  stores : List (Word × Byte)
  /-- a new value for `curr_virt_addr` -/
  currVirtAddr : Option Word

namespace Patched

def done : Patched := ⟨e, .check, [], [], none⟩
def refuse (r : Report) : Patched := ⟨e, .refused, [r], [], none⟩

def assert (c : Bool) (e : Emitter) (p : Patched) : Patched :=
  if cfg.asserts && !c then ⟨e, .panic, [], [], none⟩ else p

end Patched
namespace Emitter

def pushByte (value : Byte) : Emitter :=
  { e.put [0x6a, value] with stackOffset := e.stackOffset + 4 }

def pushWord (value : Word) : Emitter :=
  { e.put (0x68 :: bytes32 value) with stackOffset := e.stackOffset + 4 }

def cleanStack (bytes : Byte) : Emitter :=
  e.put [0x83, (⟨3, 0, 4⟩ : Modrm).raw, bytes]

def opJmp (func : Word) : Emitter :=
  e.put (0xe9 :: bytes32 (func - (e.start + BitVec.ofNat 32 e.out.length + 5)))

def jmpShortZero (target : Word) : Emitter :=
  e.put [0x74, (target - (e.start + BitVec.ofNat 32 e.out.length + 2)).setWidth 8]

def pushMem32 (address : Word) : Emitter :=
  { e.put (0xff :: (⟨0, 6, 5⟩ : Modrm).raw :: bytes32 address) with
    stackOffset := e.stackOffset + 4 }

def popMem32 (address : Word) : Emitter :=
  { e.put (0x8f :: (⟨0, 0, 5⟩ : Modrm).raw :: bytes32 address) with
    stackOffset := e.stackOffset - 4 }

def btsMem32Immediate (address : Word) (immediate : Byte) : Emitter :=
  e.put (0x0f :: 0xba :: (⟨0, 5, 5⟩ : Modrm).raw :: bytes32 address ++ [immediate])

def btrMem32Immediate (address : Word) (immediate : Byte) : Emitter :=
  e.put (0x0f :: 0xba :: (⟨0, 6, 5⟩ : Modrm).raw :: bytes32 address ++ [immediate])

def cmpMemImm8 (address : Word) (imm8 : Byte) : Emitter :=
  e.put (0x83 :: (⟨0, 7, 5⟩ : Modrm).raw :: bytes32 address ++ [imm8])

def movMem32ToReg (address : Word) (r : Reg) : Emitter :=
  e.put (0x8b :: (⟨0, r, 5⟩ : Modrm).raw :: bytes32 address)

def movRegToMem32 (r : Reg) (address : Word) : Emitter :=
  e.put (0x89 :: (⟨0, r, 5⟩ : Modrm).raw :: bytes32 address)

def insertOperandSizePrefix : Emitter := e.put [0x66]
def opPushf : Emitter := e.put [0x9c]
def opPopf : Emitter := e.put [0x9d]

def putModrm (op : List Byte) (modrm : Modrm) (suffixes : ℕ → Byte) : Emitter :=
  (e.put (op ++ [modrm.raw])).appendModrm modrm suffixes

def pushModrm (suffixes : ℕ → Byte) : Emitter :=
  { e with stackOffset := e.stackOffset + 4 }.putModrm [0xff] { modrm with reg := 6 } suffixes

def popModrm (suffixes : ℕ → Byte) : Emitter :=
  { e with stackOffset := e.stackOffset - 4 }.putModrm [0x8f] { modrm with reg := 0 } suffixes

def movToModrm (src : Reg) (modrm : Modrm) (suffixes : ℕ → Byte) : Emitter :=
  e.putModrm [0x89] { modrm with reg := src } suffixes

def movFromModrm (dst : Reg) (modrm : Modrm) (suffixes : ℕ → Byte) : Emitter :=
  e.putModrm [0x8b] { modrm with reg := dst } suffixes

def movzxModrm (dst : Reg) (modrm : Modrm) (suffixes : ℕ → Byte) : Emitter :=
  e.putModrm [0x0f, 0xb7] { modrm with reg := dst } suffixes

def newopsPushf (e : Emitter) : Emitter :=
  if cfg.calloutVcpulocal then e.opPushf.opCall (cfg.burn .pushf) else e.pushMem32 (cfg.cpu .flags)

def newopsCli (e : Emitter) : Emitter :=
  if cfg.calloutVcpulocal then e.opCall (cfg.burn .cli) else e.btrMem32Immediate (cfg.cpu .flags) 9

def newopsPushSeg (e : Emitter) : Emitter :=
  if cfg.calloutVcpulocal then (e.pushReg eax).opCall (cfg.burn (.readSeg s))
  else e.pushMem32 (cfg.cpu (.seg s))

def newopsPopSeg (e : Emitter) : Emitter :=
  if cfg.calloutVcpulocal then (e.opCall (cfg.burn (.writeSeg s))).cleanStack 4
  else e.popMem32 (cfg.cpu (.seg s))

def callSeg (func : Segment → Word) (r : Reg) : Emitter :=
  match Segment.ofReg r with
  | some s => e.opCall (func s)
  | none => e

def reportSeg (r : Reg) : List Report :=
  match Segment.ofReg r with
  | some _ => []
  | none => [.unknownSegment]

def newopsMovToseg (e : Emitter) (modrm : Modrm) (suffixes : ℕ → Byte) : Patched :=
  if cfg.calloutVcpulocal then
    let e :=
      if modrm.mod = 3 then e.pushReg modrm.rm
      else (((e.pushReg eax).insertOperandSizePrefix).movFromModrm eax modrm suffixes).pushReg eax
    let e := (e.callSeg (fun s => cfg.burn (.writeSeg s)) modrm.reg).cleanStack 4
    { Patched.done (if modrm.mod = 3 then e else e.popReg eax) with reports := reportSeg modrm.reg }
  else
    match Segment.ofReg modrm.reg with
    | none => { Patched.done e with reports := [.unknownSegment] }
    | some s =>
      Patched.done
        (if modrm.mod = 3 then e.movRegToMem32 modrm.rm (cfg.cpu (.seg s))
        else (e.pushModrm modrm suffixes).popMem32 (cfg.cpu (.seg s)))

def newopsMovfromseg (e : Emitter) (modrm : Modrm) (suffixes : ℕ → Byte) : Patched :=
  if cfg.calloutVcpulocal then
    let e := if modrm.mod = 3 then e else e.pushReg eax
    let e := (e.pushReg eax).callSeg (fun s => cfg.burn (.readSeg s)) modrm.reg
    { Patched.done
        (if modrm.mod = 3 then e.popReg modrm.rm
        else (((e.popReg eax).insertOperandSizePrefix).movToModrm eax modrm suffixes).popReg
          eax) with
      reports := reportSeg modrm.reg }
  else
    match Segment.ofReg modrm.reg with
    | none => ⟨e, .null, [.unknownSegment], [], none⟩
    | some s =>
      Patched.done
        (if modrm.mod = 3 then e.movMem32ToReg (cfg.cpu (.seg s)) modrm.rm
        else (e.pushMem32 (cfg.cpu (.seg s))).popModrm modrm suffixes)

def isCr (r : Reg) : Bool := r = 0 || r = 2 || r = 3 || r = 4

def newopsMovfromcreg (e : Emitter) (modrm : Modrm) (suffixes : ℕ → Byte) :
    Patched :=
  if cfg.calloutVcpulocal then
    Patched.assert cfg (modrm.mod = 3) e <|
      Patched.assert cfg (modrm.reg ≠ 1 && modrm.reg ≤ 4) e <|
        Patched.done (((((e.pushReg eax).pushByte (modrm.reg.setWidth 8)).opCall
          (cfg.burn .readCr)).cleanStack 4).popReg modrm.rm)
  else if isCr modrm.reg then
    Patched.done
      (if modrm.mod = 3 then e.movMem32ToReg (cfg.cpu (.cr modrm.reg)) modrm.rm
      else (e.pushMem32 (cfg.cpu (.cr modrm.reg))).popModrm modrm suffixes)
  else { Patched.done e with reports := [.unknownCr] }

end Emitter

def operandLength (suffixes : ℕ → Byte) : ℕ :=
  if modrm.mod = 3 then 0
  else if modrm.mod = 0 then
    if modrm.rm = 5 then 4
    else if modrm.rm = 4 then
      if (Sib.ofRaw (suffixes 0)).base = 5 then 5
      else if (Sib.ofRaw (suffixes 0)).base = 4 then 2
      else 1
    else 0
  else (if modrm.rm = 4 then 1 else 0) + (if modrm.mod = 1 then 1 else 4)

namespace Emitter
@[simp] theorem length_put (b : List Byte) : (e.put b).out.length = e.out.length + b.length :=
  length_append

@[simp] theorem length_bytes32 (v : Word) : (bytes32 v).length = 4 := rfl

variable (r : Reg)

@[simp] theorem length_pushReg : (e.pushReg r).out.length = e.out.length + 1 :=
  e.length_put _

@[simp] theorem length_popReg : (e.popReg r).out.length = e.out.length + 1 :=
  e.length_put _

@[simp] theorem length_movRegToReg (src dst : Reg) :
    (e.movRegToReg src dst).out.length = e.out.length + 2 := e.length_put _

@[simp] theorem length_movImm32ToReg (imm32 : Word) (r : Reg) :
    (e.movImm32ToReg imm32 r).out.length = e.out.length + 6 := e.length_put _

@[simp] theorem length_setReg (v : Word) : (e.setReg r v).out.length = e.out.length + 5 :=
  e.length_put _

@[simp] theorem length_opCall (func : Word) : (e.opCall func).out.length = e.out.length + 5 :=
  e.length_put _

@[simp] theorem length_opJmp (func : Word) : (e.opJmp func).out.length = e.out.length + 5 :=
  e.length_put _

@[simp] theorem length_pushByte (v : Byte) : (e.pushByte v).out.length = e.out.length + 2 :=
  e.length_put _

@[simp] theorem length_pushWord (v : Word) : (e.pushWord v).out.length = e.out.length + 5 :=
  e.length_put _

@[simp] theorem length_cleanStack (n : Byte) : (e.cleanStack n).out.length = e.out.length + 3 :=
  e.length_put _

@[simp] theorem length_jmpShortZero (t : Word) : (e.jmpShortZero t).out.length = e.out.length + 2 :=
  e.length_put _

variable (a : Word)

@[simp] theorem length_pushMem32 : (e.pushMem32 a).out.length = e.out.length + 6 :=
  e.length_put _

@[simp] theorem length_popMem32 : (e.popMem32 a).out.length = e.out.length + 6 :=
  e.length_put _

@[simp] theorem length_btsMem32Immediate (i : Byte) :
    (e.btsMem32Immediate a i).out.length = e.out.length + 8 := e.length_put _

@[simp] theorem length_btrMem32Immediate (i : Byte) :
    (e.btrMem32Immediate a i).out.length = e.out.length + 8 := e.length_put _

@[simp] theorem length_cmpMemImm8 (i : Byte) :
    (e.cmpMemImm8 a i).out.length = e.out.length + 7 := e.length_put _

@[simp] theorem length_movMem32ToReg (r : Reg) :
    (e.movMem32ToReg a r).out.length = e.out.length + 6 := e.length_put _

@[simp] theorem length_movRegToMem32 (a : Word) :
    (e.movRegToMem32 r a).out.length = e.out.length + 6 := e.length_put _

@[simp] theorem length_insertOperandSizePrefix :
    e.insertOperandSizePrefix.out.length = e.out.length + 1 := e.length_put _

@[simp] theorem length_opPushf : e.opPushf.out.length = e.out.length + 1 := e.length_put _
@[simp] theorem length_opPopf : e.opPopf.out.length = e.out.length + 1 := e.length_put _

@[simp] theorem length_appendModrm (suffixes : ℕ → Byte) :
    (e.appendModrm modrm suffixes).out.length = e.out.length + operandLength modrm suffixes := by
  unfold appendModrm operandLength
  by_cases h3 : modrm.mod = 3
  · rw [if_pos h3, if_pos h3]
    rfl
  · rw [if_neg h3, if_neg h3]
    by_cases h4 : modrm.rm = 4
    · -- a SIB byte, which may name the stack pointer or no base
      by_cases h0 : modrm.mod = 0
      · by_cases hbase5 : (Sib.ofRaw (suffixes 0)).base = 5
        · simp [h4, h0, hbase5]
        · by_cases hbase4 : (Sib.ofRaw (suffixes 0)).base = 4
          · simp [h4, h0, hbase4]
          · have h45 : (4 : Reg) ≠ 5 := by decide
            simp only [h4, h0, hbase4, hbase5, h45, and_false, reduceIte, length_put,
              length_singleton]
      · by_cases h1 : modrm.mod = 1
        · simp [h4, h1]
        · simp only [h4, h0, h1, reduceIte, length_put, length_singleton, length_bytes32]
    · by_cases h0 : modrm.mod = 0
      · by_cases h5 : modrm.rm = 5
        · simp [h5, h0]
        · simp only [h4, h5, h0, false_and, reduceIte, Nat.add_zero]
      · by_cases h1 : modrm.mod = 1
        · simp only [if_neg h0, if_pos h1, if_neg h4, length_put, length_singleton,
            Nat.zero_add]
        · simp only [h4, h0, h1, false_and, reduceIte, length_put, length_bytes32, Nat.zero_add]

@[simp] theorem operandLength_reg (r : Reg) (suffixes : ℕ → Byte) :
    operandLength { modrm with reg := r } suffixes = operandLength modrm suffixes := rfl

@[simp] theorem length_leaModrm (dst : Reg) (modrm : Modrm) (suffixes : ℕ → Byte) :
    (e.leaModrm dst modrm suffixes).out.length =
      e.out.length + 2 + operandLength modrm suffixes := by
  unfold leaModrm
  simp

theorem length_putModrm (op : List Byte) (modrm : Modrm) (suffixes : ℕ → Byte) :
    (e.putModrm op modrm suffixes).out.length =
      e.out.length + (op.length + 1) + operandLength modrm suffixes := by
  unfold putModrm
  simp

@[simp] theorem length_pushModrm (suffixes : ℕ → Byte) :
    (e.pushModrm modrm suffixes).out.length =
      e.out.length + 2 + operandLength modrm suffixes :=
  length_putModrm ..

@[simp] theorem length_popModrm (suffixes : ℕ → Byte) :
    (e.popModrm modrm suffixes).out.length =
      e.out.length + 2 + operandLength modrm suffixes :=
  length_putModrm ..

@[simp] theorem length_movToModrm (src : Reg) (modrm : Modrm) (suffixes : ℕ → Byte) :
    (e.movToModrm src modrm suffixes).out.length =
      e.out.length + 2 + operandLength modrm suffixes :=
  length_putModrm ..

@[simp] theorem length_movFromModrm (dst : Reg) (modrm : Modrm) (suffixes : ℕ → Byte) :
    (e.movFromModrm dst modrm suffixes).out.length =
      e.out.length + 2 + operandLength modrm suffixes :=
  length_putModrm ..

@[simp] theorem length_movzxModrm (dst : Reg) (modrm : Modrm) (suffixes : ℕ → Byte) :
    (e.movzxModrm dst modrm suffixes).out.length =
      e.out.length + 3 + operandLength modrm suffixes :=
  length_putModrm ..

end Emitter
end Rewrite
