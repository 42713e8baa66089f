import Afterburner.Lib.Slots
import Afterburner.Wedge.Newops

/-!
# The patch-up passes

A guest comes with an array of sites, each a sensitive instruction in a slot of padding, that the
wedge rewrites in place.
-/

namespace Rewrite
open Ia32 Slots List

structure Prefixes where
  count : ℕ
  rep : Bool
  repne : Bool
  operandSize : Bool
  segment : Bool
  ignored : Bool
  reports : List Report

def Prefixes.empty : Prefixes := ⟨0, false, false, false, false, false, []⟩
def opNop1 : Byte := 0x90

def scanPrefixes (mem : Word → Byte) : ℕ → Word → Prefixes → Prefixes
  | 0, _, p => p
  | fuel + 1, opstream, p =>
    let b := mem opstream
    let next := { p with count := p.count + 1 }
    if b = 0xf0 then
      scanPrefixes mem fuel (opstream + 1) { next with reports := p.reports ++ [.lockIgnored] }
    else if b = 0xf2 then
      scanPrefixes mem fuel (opstream + 1)
        { next with repne := true, reports := p.reports ++ [.repneNotSupported] }
    else if b = 0xf3 then scanPrefixes mem fuel (opstream + 1) { next with rep := true }
    else if b = 0x66 then scanPrefixes mem fuel (opstream + 1) { next with operandSize := true }
    else if b = 0x67 then scanPrefixes mem fuel (opstream + 1) next
    else if b = 0x2e ∨ b = 0x36 ∨ b = 0x3e ∨ b = 0x26 then
      { next with ignored := true, reports := p.reports ++ [.ignoredSegmentPrefix] }
    else if b = 0x64 ∨ b = 0x65 then
      scanPrefixes mem fuel (opstream + 1)
        { next with segment := true, reports := p.reports ++ [.segmentPrefix] }
    else p

inductive Opcode
  | hlt | int3 | int | iret | lret | jmpFar
  | out | outDx | outb | outbDx | outsDx | outsbDx | inPort | inDx | inb | inbDx | insDx | insbDx
  | pushf | popf
  | movTomem32 | movFrommem32 | movTosegofs | movFromsegofs
  | movToseg | pushCs | pushSs | popSs | pushDs | popDs | pushEs | popEs | movFromseg
  | cli | sti
  | twoByte
  deriving DecidableEq, Repr

namespace Opcode

def code : Opcode → Byte
  | hlt => 0xf4 | int3 => 0xcc | int => 0xcd | iret => 0xcf | lret => 0xcb | jmpFar => 0xea
  | out => 0xe7 | outDx => 0xef | outb => 0xe6 | outbDx => 0xee | outsDx => 0x6f | outsbDx => 0x6e
  | inPort => 0xe5 | inDx => 0xed | inb => 0xe4 | inbDx => 0xec | insDx => 0x6d | insbDx => 0x6c
  | pushf => 0x9c | popf => 0x9d
  | movTomem32 => 0x89 | movFrommem32 => 0x8b | movTosegofs => 0xa3 | movFromsegofs => 0xa1
  | movToseg => 0x8e | pushCs => 0x0e | pushSs => 0x16 | popSs => 0x17 | pushDs => 0x1e
  | popDs => 0x1f | pushEs => 0x06 | popEs => 0x07 | movFromseg => 0x8c
  | cli => 0xfa | sti => 0xfb
  | twoByte => 0x0f

def all : List Opcode :=
  [hlt, int3, int, iret, lret, jmpFar, out, outDx, outb, outbDx, outsDx, outsbDx, inPort, inDx, inb,
    inbDx, insDx, insbDx, pushf, popf, movTomem32, movFrommem32, movTosegofs, movFromsegofs,
    movToseg,
    pushCs, pushSs, popSs, pushDs, popDs, pushEs, popEs, movFromseg, cli, sti, twoByte]

def ofByte (b : Byte) : Option Opcode := all.find? fun o => o.code = b

end Opcode

inductive Opcode2
  | wbinvd | invd | ud2 | pushFs | popFs | pushGs | popGs | cpuid | lss
  | movFromcreg | movFromdreg | movTocreg | movTodreg | clts | lltl | ldtl | wrmsr | rdmsr
  deriving DecidableEq, Repr

namespace Opcode2

def code : Opcode2 → Byte
  | wbinvd => 0x09 | invd => 0x08 | ud2 => 0x0b | pushFs => 0xa0 | popFs => 0xa1 | pushGs => 0xa8
  | popGs => 0xa9 | cpuid => 0xa2 | lss => 0xb2 | movFromcreg => 0x20 | movFromdreg => 0x21
  | movTocreg => 0x22 | movTodreg => 0x23 | clts => 0x06 | lltl => 0x00 | ldtl => 0x01
  | wrmsr => 0x30 | rdmsr => 0x32

def all : List Opcode2 :=
  [wbinvd, invd, ud2, pushFs, popFs, pushGs, popGs, cpuid, lss, movFromcreg, movFromdreg, movTocreg,
    movTodreg, clts, lltl, ldtl, wrmsr, rdmsr]

def ofByte (b : Byte) : Option Opcode2 := all.find? fun o => o.code = b

end Opcode2

structure Insn where
  mem : Word → Byte
  site : Word
  opstream : Word
  opstreamEnd : Word
  currVirtAddr : Word
  prefixes : Prefixes

namespace Insn
variable (cfg : Config) (s : Insn) (e : Emitter)

def byte (k : Word) : Byte := s.mem (s.opstream + k)
def word (k : Word) : Word := word32 fun i => s.mem (s.opstream + k + BitVec.ofNat 32 i)
def modrm (k : Word) : Modrm := Modrm.ofRaw (s.byte k)
def suffixes (k : Word) (i : ℕ) : Byte := s.mem (s.opstream + k + BitVec.ofNat 32 i)
def width : Byte := if s.prefixes.operandSize then 16 else 32

def patchPort (device : Byte → Burn) (func : Burn) (width port : Byte) : Emitter :=
  if port = 0x20 ∨ port = 0x21 ∨ port = 0xa0 ∨ port = 0xa1 then
    ((({ e with stackOffset := 0 }.pushReg ecx).pushReg edx).opCall
      (cfg.burn (device port))).popReg edx
      |>.popReg ecx
  else
    ((({ e with stackOffset := 0 }.pushByte width).pushWord (port.setWidth 32)).opCall
      (cfg.burn func)).cleanStack 8

def patchPortDx (func : Burn) (width : Byte) : Emitter :=
  (((e.pushByte width).pushReg edx).opCall (cfg.burn func)).cleanStack 8

def patchString (func : Burn) (width : Byte) (reg : Reg) : Emitter :=
  let e := e.pushByte width
  let e := if s.prefixes.rep then e.pushReg ecx else e.pushReg 1
  ((e.pushReg reg).opCall (cfg.burn func)).cleanStack 12

def patchInt (value : Word) : Emitter :=
  ((e.pushWord value).opCall (cfg.burn .int)).put [0xeb, -12]

def patchPopf : Emitter :=
  if cfg.strictIrq then
    if cfg.deviceApic then (e.opCall (cfg.burn .popf)).opPopf
    else
      let e := (e.popMem32 (cfg.cpu .flags)).cmpMemImm8 (cfg.cpu .irqVectors) 0
      let e := e.jmpShortZero (s.opstreamEnd + s.currVirtAddr)
      (e.opCall (cfg.burn .deliverInterrupt)).popMem32 (cfg.cpu .flags)
  else e.popMem32 (cfg.cpu .flags)

def patchSti : Emitter :=
  if cfg.strictIrq then
    if cfg.deviceApic then e.opCall (cfg.burn .sti)
    else
      let e := (e.btsMem32Immediate (cfg.cpu .flags) 9).cmpMemImm8 (cfg.cpu .irqVectors) 0
      let e := e.jmpShortZero (s.opstreamEnd + s.currVirtAddr)
      e.opCall (cfg.burn .deliverInterrupt)
  else e.btsMem32Immediate (cfg.cpu .flags) 9

def segPrefix : Byte := s.mem (s.opstream - 1)
def callSegofs (func : Burn) : Emitter := if s.segPrefix = 0x64 then e.opCall (cfg.burn func) else e

def reportSegofs : List Report :=
  if s.segPrefix = 0x64 then [] else if s.segPrefix = 0x65 then [.movGs] else [.unsupportedPrefix]

def patchMovTomem32 : Patched :=
  let modrm := s.modrm 1
  let e := ((e.pushReg modrm.reg).pushReg modrm.reg).leaModrm modrm.reg modrm (s.suffixes 2)
  let e := s.callSegofs cfg (e.pushReg modrm.reg) .movTofsofs
  { Patched.done ((e.cleanStack 8).popReg modrm.reg) with reports := s.reportSegofs }

def patchMovFrommem32 : Patched :=
  let modrm := s.modrm 1
  let e := (e.leaModrm modrm.reg modrm (s.suffixes 2)).pushReg modrm.reg
  let e := s.callSegofs cfg e .movFromfsofs
  { Patched.done (e.popReg modrm.reg) with reports := s.reportSegofs }

def patchMovTosegofs : Patched :=
  let e := ((e.pushReg eax).pushReg eax).pushWord (s.word 1)
  let e := s.callSegofs cfg e .movTofsofs
  { Patched.done ((e.cleanStack 8).popReg (Modrm.ofRaw (cfg.modrm s.site)).reg) with
    reports := s.reportSegofs }

def patchMovFromsegofs : Patched :=
  let e := s.callSegofs cfg (e.pushWord (s.word 1)) .movFromfsofs
  { Patched.done (e.popReg eax) with reports := s.reportSegofs }

def unlessHardwareSegments (p : Patched) : Patched :=
  if cfg.hardwareSegments then Patched.done e else p

def patchJmpFar : Patched :=
  let e :=
    if cfg.wedge = .l4ka ∨ cfg.wedge = .kaxen then
      { e with start := e.start - s.currVirtAddr + cfg.kernelVaddr }
    else e
  let segment : Word := (s.byte 6 ++ s.byte 5).setWidth 32
  { Patched.done (((e.pushWord segment).pushWord (s.word 1)).opJmp (cfg.burn (.writeSeg .cs))) with
    currVirtAddr := some (if cfg.wedge = .linux then 0 else cfg.kernelVaddr) }

def patchLss : Emitter :=
  let e := (e.pushReg eax).leaModrm eax (s.modrm 2) (s.suffixes 3)
  ((e.opCall (cfg.burn .lss)).popReg eax).movFromModrm esp (s.modrm 2) (s.suffixes 3)

def patchLltl : Patched :=
  let e := (e.pushReg eax).movzxModrm eax (s.modrm 2) (s.suffixes 3)
  let call (func : Burn) := Patched.done ((e.opCall (cfg.burn func)).popReg eax)
  if (s.modrm 2).reg = 3 then call .ltr
  else if (s.modrm 2).reg = 2 then call .lldt
  else if (s.modrm 2).reg = 1 then call .str
  else Patched.refuse e .unknownLltl

def ldtlFunc (r : Reg) : Option Burn :=
  if r = 0 ∨ r = 1 ∨ r = 4 ∨ r = 6 then some .unimplemented
  else if r = 2 then some .lgdt
  else if r = 3 then some .lidt
  else if r = 7 then some .invlpg
  else none

def patchLdtl : Patched :=
  let e := (e.pushReg eax).leaModrm eax (s.modrm 2) (s.suffixes 3)
  match ldtlFunc (s.modrm 2).reg with
  | some func => Patched.done ((e.opCall (cfg.burn func)).popReg eax)
  | none => Patched.refuse e .unknownLdtl

def patchOpcode2 : Opcode2 → Patched
  | .wbinvd => .done (e.opCall (cfg.burn .wbinvd))
  | .invd => .done (e.opCall (cfg.burn .invd))
  | .ud2 => .done (e.opCall (cfg.burn .ud2))
  | .pushFs => unlessHardwareSegments cfg e (.done (e.newopsPushSeg cfg .fs))
  | .popFs => unlessHardwareSegments cfg e (.done (e.newopsPopSeg cfg .fs))
  | .pushGs => unlessHardwareSegments cfg e (.done (e.newopsPushSeg cfg .gs))
  | .popGs => unlessHardwareSegments cfg e (.done (e.newopsPopSeg cfg .gs))
  | .cpuid => .done (e.opCall (cfg.burn .cpuid))
  | .lss => .done (s.patchLss cfg e)
  -- `suffixes` has not been set here
  | .movFromcreg => e.newopsMovfromcreg cfg (s.modrm 2) (cfg.suffixes s.site)
  | .movFromdreg =>
    .assert cfg ((s.modrm 2).mod = 3) e <|
      .done (((((e.pushReg eax).pushByte ((s.modrm 2).reg.setWidth 8)).opCall
        (cfg.burn .readDr)).cleanStack 4).popReg (s.modrm 2).rm)
  | .movTocreg =>
    .assert cfg ((s.modrm 2).mod = 3) e <|
      .assert cfg ((s.modrm 2).reg ≠ 1 && (s.modrm 2).reg ≤ 4) e <|
        .done (((e.pushReg (s.modrm 2).rm).opCall (cfg.burnWriteCr (s.modrm 2).reg)).cleanStack 4)
  | .movTodreg =>
    .assert cfg ((s.modrm 2).mod = 3) e <|
      .done ((((e.pushReg (s.modrm 2).rm).pushByte ((s.modrm 2).reg.setWidth 8)).opCall
        (cfg.burn .writeDr)).cleanStack 8)
  | .clts => .done (e.opCall (cfg.burn .clts))
  | .lltl => s.patchLltl cfg e
  | .ldtl => s.patchLdtl cfg e
  | .wrmsr => .done (e.opCall (cfg.burn .wrmsr))
  | .rdmsr => .done (e.opCall (cfg.burn .rdmsr))

def patchOpcode : Opcode → Patched
  | .hlt => .done (e.opCall (cfg.burn .interruptibleHlt))
  -- The kernel debugger of L4Ka wants the int3 at the end of the slot. Otherwise the vector is
  -- stored to `opstream[1]`, which the new code overwrites.
  | .int3 =>
    if cfg.wedge = .l4ka then
      { Patched.done e with stores := [(s.opstreamEnd - 1, s.byte 0), (s.opstream, opNop1)] }
    else .done (patchInt cfg e 3)
  | .int => .done (patchInt cfg e ((s.byte 1).setWidth 32))
  | .iret => .done (e.opJmp (cfg.burn .iret))
  | .lret => .done (e.opJmp (cfg.burn .lret))
  | .jmpFar => s.patchJmpFar cfg e
  | .out => .done (patchPort cfg e .device8259Out .out s.width (s.byte 1))
  | .outDx => .done (patchPortDx cfg e .out s.width)
  | .outb => .done (patchPort cfg e .device8259Out .out 8 (s.byte 1))
  | .outbDx => .done (patchPortDx cfg e .out 8)
  | .outsDx => .done (s.patchString cfg e .outs s.width 6)
  | .outsbDx => .done (s.patchString cfg e .outs 8 6)
  | .inPort => .done (patchPort cfg e .device8259In .inPort s.width (s.byte 1))
  | .inDx => .done (patchPortDx cfg e .inPort s.width)
  | .inb => .done (patchPort cfg e .device8259In .inPort 8 (s.byte 1))
  | .inbDx => .done (patchPortDx cfg e .inPort 8)
  | .insDx => .done (s.patchString cfg e .ins s.width 7)
  | .insbDx => .done (s.patchString cfg e .ins 8 7)
  | .pushf => .done (e.newopsPushf cfg)
  | .popf => .done (s.patchPopf cfg e)
  | .movTomem32 => .assert cfg s.prefixes.segment e (s.patchMovTomem32 cfg e)
  | .movFrommem32 => .assert cfg s.prefixes.segment e (s.patchMovFrommem32 cfg e)
  | .movTosegofs => .assert cfg s.prefixes.segment e (s.patchMovTosegofs cfg e)
  | .movFromsegofs => .assert cfg s.prefixes.segment e (s.patchMovFromsegofs cfg e)
  | .movToseg =>
    unlessHardwareSegments cfg e (e.newopsMovToseg cfg (s.modrm 1) (s.suffixes 2))
  | .pushCs => unlessHardwareSegments cfg e (.done (e.newopsPushSeg cfg .cs))
  | .pushSs => unlessHardwareSegments cfg e (.done (e.newopsPushSeg cfg .ss))
  | .popSs => unlessHardwareSegments cfg e (.done (e.newopsPopSeg cfg .ss))
  | .pushDs => unlessHardwareSegments cfg e (.done (e.newopsPushSeg cfg .ds))
  | .popDs => unlessHardwareSegments cfg e (.done (e.newopsPopSeg cfg .ds))
  | .pushEs => unlessHardwareSegments cfg e (.done (e.newopsPushSeg cfg .es))
  | .popEs => unlessHardwareSegments cfg e (.done (e.newopsPopSeg cfg .es))
  | .movFromseg =>
    unlessHardwareSegments cfg e (e.newopsMovfromseg cfg (s.modrm 1) (s.suffixes 2))
  | .cli => .done (e.newopsCli cfg)
  | .sti => .done (s.patchSti cfg e)
  | .twoByte =>
    match Opcode2.ofByte (s.byte 1) with
    | some o => s.patchOpcode2 cfg e o
    | none => .refuse e .unknownTwoByte

end Insn

structure PatchState where
  mem : Word → Byte
  currVirtAddr : Word

def PatchState.emitter (st : PatchState) (opstream : Word) (out : List Byte) : Emitter :=
  ⟨opstream + st.currVirtAddr, out, 0⟩

def PatchState.prefixes (st : PatchState) (opstream : Word) : Prefixes :=
  scanPrefixes st.mem (2 ^ 32) opstream Prefixes.empty

def PatchState.insn (st : PatchState) (opstream opstreamEnd : Word) : Insn :=
  let p := st.prefixes opstream
  { mem := store st.mem opstream (replicate p.count opNop1)
    site := opstream
    opstream := opstream + BitVec.ofNat 32 p.count
    opstreamEnd := opstreamEnd
    currVirtAddr := st.currVirtAddr
    prefixes := p }

def patchup (cfg : Config) (st : PatchState) (opstream opstreamEnd : Word) : Patched :=
  let s := st.insn opstream opstreamEnd
  let e := st.emitter opstream (replicate s.prefixes.count opNop1)
  let p :=
    if s.prefixes.ignored then Patched.done e
    else
      match Opcode.ofByte (s.byte 0) with
      | some o => s.patchOpcode cfg e o
      | none => Patched.refuse e .unknownOpcode
  { p with reports := s.prefixes.reports ++ p.reports }

section Site
variable {cfg : Config} {st : PatchState} {a b : Word}

theorem patchup_eq (hignored : (st.insn a b).prefixes.ignored = false) {o : Opcode}
    (ho : Opcode.ofByte ((st.insn a b).byte 0) = some o) :
    let p := (st.insn a b).patchOpcode cfg
      (st.emitter a (replicate (st.insn a b).prefixes.count opNop1)) o
    patchup cfg st a b = { p with reports := (st.insn a b).prefixes.reports ++ p.reports } := by
  simp_all [patchup]

theorem patchup_of_none (hignored : (st.insn a b).prefixes.ignored = false)
    (ho : Opcode.ofByte ((st.insn a b).byte 0) = none) :
    patchup cfg st a b =
      { Patched.refuse (st.emitter a (replicate (st.insn a b).prefixes.count opNop1))
          .unknownOpcode with
        reports := (st.insn a b).prefixes.reports ++ [.unknownOpcode] } := by
  unfold patchup
  dsimp only
  rw [hignored, ho]
  rfl

theorem patchup_of_ignored (h : (st.insn a b).prefixes.ignored = true) :
    patchup cfg st a b =
      { Patched.done (st.emitter a (replicate (st.insn a b).prefixes.count opNop1)) with
        reports := (st.insn a b).prefixes.reports ++ [] } := by
  unfold patchup
  dsimp only
  rw [if_pos h]
  rfl

end Site

def callHandler (cfg : Config) (func : Word) (e : Emitter) (rest : Emitter → Emitter) : Patched :=
  .assert cfg (func ≠ 0) e (.done (rest (e.opCall func)))

def devicePatchup (cfg : Config) (f : Handlers) (st : PatchState) (opstream : Word) : Patched :=
  let byte (k : ℕ) := st.mem (opstream + BitVec.ofNat 32 k)
  let e := st.emitter opstream []
  let modrm := Modrm.ofRaw (byte 1)
  let suffixes := fun i => byte (i + 2)
  let moffs := word32 fun i => byte (i + 1)
  if byte 0 = 0x09 then callHandler cfg f.orFunc (e.saveAll.loadArgs modrm suffixes) (·.restoreAll)
  else if byte 0 = 0x21 then callHandler cfg f.andFunc (e.saveAll.loadArgs modrm suffixes)
    (·.restoreAll)
  else if byte 0 = 0x89 then
    callHandler cfg f.writeFunc (e.saveAll.loadArgs modrm suffixes) (·.restoreAll)
  else if byte 0 = 0xa3 then callHandler cfg f.writeFunc (e.saveAll.setReg edx moffs) (·.restoreAll)
  else if byte 0 = 0xa1 then
    callHandler cfg f.readFunc (((e.movImm32ToReg moffs eax).pushReg ecx).pushReg edx)
      fun e => (e.popReg edx).popReg ecx
  else if byte 0 = 0x8b then
    callHandler cfg f.readFunc ((e.saveOthers modrm.reg).leaModrm eax modrm suffixes)
      (·.restoreOthers modrm.reg)
  else if byte 0 = 0x87 then
    callHandler cfg f.xchgFunc ((e.saveOthers modrm.reg).loadArgs modrm suffixes)
      (·.restoreOthers modrm.reg)
  else .refuse e .unsupportedDevice

def bitopStart (st : PatchState) (opstream : Word) : Word :=
  if st.mem opstream = 0xf0 then opstream + 1 else opstream

def bitopPatchup (cfg : Config) (clearBitFunc setBitFunc : Word) (st : PatchState)
    (opstream : Word) :
    Patched :=
  let byte (k : ℕ) := st.mem (bitopStart st opstream + BitVec.ofNat 32 k)
  let e := st.emitter opstream []
  let modrm := Modrm.ofRaw (byte 2)
  .assert cfg (setBitFunc = 0) e <|
    if byte 0 = 0x0f then
      if byte 1 = 0xb3 then
        .assert cfg (modrm.reg = eax) e <|
          callHandler cfg clearBitFunc
            (((e.pushReg ecx).pushReg edx).leaModrm edx modrm fun i => byte (i + 3))
            fun e => (e.popReg edx).popReg ecx
      else .refuse e .unsupportedBitop
    else .refuse e .unsupportedInstruction

inductive Verdict
  | returns (good : Bool)
  | panics
  deriving DecidableEq, Repr

def Patched.finish (p : Patched) (st : PatchState) (opstream opstreamEnd : Word) :
    PatchState × Verdict :=
  ({ mem := p.stores.foldl (fun m x => Function.update m x.1 x.2)
       (store st.mem opstream p.newops.out)
     currVirtAddr := p.currVirtAddr.getD st.currVirtAddr },
    match p.exit with
    | .check => .returns (decide (opstream + BitVec.ofNat 32 p.newops.out.length ≤ opstreamEnd))
    | .null => .returns true
    | .refused => .returns false
    | .panic => .panics)

/-- The addresses that are written for a site. -/
def Patched.Writes (p : Patched) (a x : Word) : Prop :=
  (x - a).toNat < p.newops.out.length ∨ x ∈ p.stores.map Prod.fst

structure PatchupInfo where
  start : Word
  stop : Word

def applyAll (site : PatchState → Word → Word → PatchState × Verdict) (heed : Bool)
    (vaddrOffset : Word) : List PatchupInfo → PatchState → PatchState × Verdict
  | [], st => (st, .returns true)
  | i :: rest, st =>
    match site st (i.start - vaddrOffset) (i.stop - vaddrOffset) with
    | (st, .panics) => (st, .panics)
    | (st, .returns good) =>
      if heed && !good then (st, .returns false) else applyAll site heed vaddrOffset rest st

def applyPatchup (cfg : Config) (st : PatchState) (opstream opstreamEnd : Word) :
    PatchState × Verdict :=
  (patchup cfg st opstream opstreamEnd).finish st opstream opstreamEnd

def applyDeviceSite (cfg : Config) (f : Handlers) (st : PatchState) (opstream opstreamEnd : Word) :
    PatchState × Verdict :=
  (devicePatchup cfg f st opstream).finish st opstream opstreamEnd

def applyBitopPatchup (cfg : Config) (clearBitFunc setBitFunc : Word) (st : PatchState)
    (opstream opstreamEnd : Word) : PatchState × Verdict :=
  (bitopPatchup cfg clearBitFunc setBitFunc st opstream).finish st opstream opstreamEnd

def initPatchup (cfg : Config) (st : PatchState) : PatchState :=
  { st with currVirtAddr := if cfg.wedge = .linux then -cfg.kernelVaddr else 0 }

def archApplyPatchups (cfg : Config) (vaddrOffset : Word) (patchups : List PatchupInfo)
    (st : PatchState) : PatchState × Verdict :=
  applyAll (applyPatchup cfg) true vaddrOffset patchups (initPatchup cfg st)

def archApplyDevicePatchups (cfg : Config) (f : Handlers) (vaddrOffset : Word)
    (patchups : List PatchupInfo) (st : PatchState) : PatchState × Verdict :=
  applyAll (applyDeviceSite cfg f) false vaddrOffset patchups st

def archApplyBitopPatchups (cfg : Config) (clearBitFunc setBitFunc vaddrOffset : Word)
    (patchups : List PatchupInfo) (st : PatchState) : PatchState × Verdict :=
  applyAll (applyBitopPatchup cfg clearBitFunc setBitFunc) false vaddrOffset patchups st

inductive Pass
  | patchups
  | devicePatchups (f : Handlers)
  | bitopPatchups (clearBitFunc setBitFunc : Word)

namespace Pass

def run (cfg : Config) (vaddrOffset : Word) (sites : List PatchupInfo) (st : PatchState) :
    Pass → PatchState × Verdict
  | patchups => archApplyPatchups cfg vaddrOffset sites st
  | devicePatchups f => archApplyDevicePatchups cfg f vaddrOffset sites st
  | bitopPatchups clearBitFunc setBitFunc =>
    archApplyBitopPatchups cfg clearBitFunc setBitFunc vaddrOffset sites st

def patch (cfg : Config) (st : PatchState) (opstream opstreamEnd : Word) : Pass → Patched
  | patchups => patchup cfg st opstream opstreamEnd
  | devicePatchups f => devicePatchup cfg f st opstream
  | bitopPatchups clearBitFunc setBitFunc => bitopPatchup cfg clearBitFunc setBitFunc st opstream

end Pass

def callSegSize (r : Reg) : ℕ := if (Segment.ofReg r).isSome then 5 else 0

def movTosegSize (cfg : Config) (modrm : Modrm) (suffixes : ℕ → Byte) : ℕ :=
  if cfg.calloutVcpulocal then
    (if modrm.mod = 3 then 4 else 9 + operandLength modrm suffixes) + callSegSize modrm.reg
  else if (Segment.ofReg modrm.reg).isSome then
    if modrm.mod = 3 then 6 else 8 + operandLength modrm suffixes
  else 0

def movFromsegSize (cfg : Config) (modrm : Modrm) (suffixes : ℕ → Byte) : ℕ :=
  if cfg.calloutVcpulocal then
    (if modrm.mod = 3 then 2 else 7 + operandLength modrm suffixes) + callSegSize modrm.reg
  else if (Segment.ofReg modrm.reg).isSome then
    if modrm.mod = 3 then 6 else 8 + operandLength modrm suffixes
  else 0

def movFromcregSize (cfg : Config) (modrm : Modrm) (suffixes : ℕ → Byte) : ℕ :=
  if cfg.calloutVcpulocal then 12
  else if Emitter.isCr modrm.reg then
    if modrm.mod = 3 then 6 else 8 + operandLength modrm suffixes
  else 0

namespace Insn
variable (cfg : Config) (s : Insn)

def segofsSize (n : ℕ) : ℕ := if s.segPrefix = 0x64 then n + 5 else n
def operandSize (k k' : Word) : ℕ := operandLength (s.modrm k) (s.suffixes k')

def size2 : Opcode2 → ℕ
  | .wbinvd | .invd | .ud2 | .cpuid | .clts | .wrmsr | .rdmsr => 5
  | .pushFs | .pushGs => if cfg.hardwareSegments then 0 else 6
  | .popFs | .popGs =>
    if cfg.hardwareSegments then 0 else if cfg.calloutVcpulocal then 8 else 6
  | .lss => 11 + 2 * s.operandSize 2 3
  | .movFromcreg => movFromcregSize cfg (s.modrm 2) (cfg.suffixes s.site)
  | .movFromdreg => 12
  | .movTocreg => 9
  | .movTodreg => 11
  | .lltl =>
    let r := (s.modrm 2).reg
    if r = 1 ∨ r = 2 ∨ r = 3 then 10 + s.operandSize 2 3 else 4 + s.operandSize 2 3
  | .ldtl => if (s.modrm 2).reg = 5 then 3 + s.operandSize 2 3 else 9 + s.operandSize 2 3

def portSize (port : Byte) : ℕ :=
  if port = 0x20 ∨ port = 0x21 ∨ port = 0xa0 ∨ port = 0xa1 then 9 else 15

def size : Opcode → ℕ
  | .hlt | .iret | .lret => 5
  | .int3 => if cfg.wedge = .l4ka then 1 else 12
  | .int => 12
  | .jmpFar => 15
  | .out | .outb | .inPort | .inb => portSize (s.byte 1)
  | .outDx | .outbDx | .inDx | .inbDx => 11
  | .outsDx | .outsbDx | .insDx | .insbDx => 12
  | .pushf => 6
  | .popf => if cfg.strictIrq && !cfg.deviceApic then 26 else 6
  | .movTomem32 => s.segofsSize (9 + s.operandSize 1 2)
  | .movFrommem32 => s.segofsSize (4 + s.operandSize 1 2)
  | .movTosegofs => s.segofsSize 11
  | .movFromsegofs => s.segofsSize 6
  | .movToseg => if cfg.hardwareSegments then 0 else movTosegSize cfg (s.modrm 1) (s.suffixes 2)
  | .movFromseg => if cfg.hardwareSegments then 0 else movFromsegSize cfg (s.modrm 1) (s.suffixes 2)
  | .pushCs | .pushSs | .pushDs | .pushEs => if cfg.hardwareSegments then 0 else 6
  | .popSs | .popDs | .popEs =>
    if cfg.hardwareSegments then 0 else if cfg.calloutVcpulocal then 8 else 6
  | .cli => if cfg.calloutVcpulocal then 5 else 8
  | .sti => if cfg.strictIrq then if cfg.deviceApic then 5 else 22 else 8
  | .twoByte =>
    match Opcode2.ofByte (s.byte 1) with
    | some o => s.size2 cfg o
    | none => 0

end Insn

def l4kaConfig : Config :=
  { wedge := .l4ka, hardwareSegments := false, strictIrq := false, deviceApic := false,
    calloutVcpulocal := false, asserts := true, kernelVaddr := 0xc0000000, burn := fun _ => 0,
    cpu := fun _ => 0, burnWriteCr := fun _ => 0, suffixes := fun _ _ => 0, modrm := fun _ => 0 }

end Rewrite
