import Afterburner.Lib.Ia32

/-!
# Rewriting device accesses

`apply_device_patchup` saves the registers that the handler may change, puts the operand's address
and the source where it takes its arguments, calls it and restores.
-/

namespace Rewrite
open Ia32

structure Emitter where
  start : Word
  out : List Byte
  stackOffset : Word

def word32 (bytes : ℕ → Byte) : Word := le32 (bytes 0) (bytes 1) (bytes 2) (bytes 3)

namespace Emitter
variable (e : Emitter)

def put (b : List Byte) : Emitter := { e with out := e.out ++ b }

def pushReg (r : Reg) : Emitter :=
  { e.put [0x50 + r.setWidth 8] with stackOffset := e.stackOffset + 4 }

def popReg (r : Reg) : Emitter :=
  { e.put [0x58 + r.setWidth 8] with stackOffset := e.stackOffset - 4 }

def movRegToReg (src dst : Reg) : Emitter :=
  e.put [0x89, (⟨3, src, dst⟩ : Modrm).raw]

def movImm32ToReg (imm32 : Word) (r : Reg) : Emitter :=
  e.put (0xc7 :: (⟨3, r, 0⟩ : Modrm).raw :: bytes32 imm32)

def setReg (r : Reg) (value : Word) : Emitter :=
  e.put ((0xb8 + r.setWidth 8) :: bytes32 value)

def opCall (func : Word) : Emitter :=
  e.put (0xe8 :: bytes32 (func - (e.start + BitVec.ofNat 32 e.out.length + 5)))

def appendModrm (modrm : Modrm) (suffixes : ℕ → Byte) : Emitter :=
  if modrm.mod = 3 then e
  else
    let sib := Sib.ofRaw (suffixes 0)
    let espRelative := modrm.rm = 4 ∧ sib.base = 4
    let moved (disp : Word) := if espRelative then disp + e.stackOffset else disp
    let e := if modrm.rm = 4 then e.put [suffixes 0] else e
    let suffixes := if modrm.rm = 4 then fun i => suffixes (i + 1) else suffixes
    if modrm.mod = 0 then
      if modrm.rm = 5 then e.put (bytes32 (moved (word32 suffixes)))
      else if modrm.rm = 4 ∧ sib.base = 5 then e.put (bytes32 (moved (word32 suffixes)))
      else if espRelative then
        { e with out := e.out.set (e.out.length - 2) { modrm with mod := 1 }.raw ++
                          [e.stackOffset.setWidth 8] }
      else e
    else if modrm.mod = 1 then
      e.put [if espRelative then suffixes 0 + e.stackOffset.setWidth 8 else suffixes 0]
    else e.put (bytes32 (moved (word32 suffixes)))

def leaModrm (dst : Reg) (modrm : Modrm) (suffixes : ℕ → Byte) : Emitter :=
  let modrm := { modrm with reg := dst }
  (e.put [0x8d, modrm.raw]).appendModrm modrm suffixes

def saveAll : Emitter := ((e.pushReg eax).pushReg ecx).pushReg edx
def restoreAll : Emitter := ((e.popReg edx).popReg ecx).popReg eax

def saveOthers (reg : Reg) : Emitter :=
  let e := if reg ≠ eax then e.pushReg eax else e
  let e := if reg ≠ ecx then e.pushReg ecx else e
  if reg ≠ edx then e.pushReg edx else e

def restoreOthers (reg : Reg) : Emitter :=
  let e := if reg = edx then e.movRegToReg eax edx else e.popReg edx
  let e := if reg = ecx then e.movRegToReg eax ecx else e.popReg ecx
  let e := if reg ≠ eax ∧ reg ≠ ecx ∧ reg ≠ edx then e.movRegToReg eax reg else e
  if reg ≠ eax then e.popReg eax else e

def loadArgs (modrm : Modrm) (suffixes : ℕ → Byte) : Emitter :=
  if modrm.reg = eax then e.leaModrm edx modrm suffixes
  else if modrm.reg ≠ edx then (e.leaModrm edx modrm suffixes).movRegToReg modrm.reg eax
  else if modrm.rm = 0 then
    ((e.movRegToReg edx ecx).leaModrm edx modrm suffixes).movRegToReg ecx eax
  else (e.movRegToReg edx eax).leaModrm edx modrm suffixes

def patchStore (func : Word) (modrm : Modrm) (suffixes : ℕ → Byte) : Emitter :=
  ((e.saveAll.loadArgs modrm suffixes).opCall func).restoreAll

def patchStoreMoffs (func : Word) (moffs : Word) : Emitter :=
  ((e.saveAll.setReg edx moffs).opCall func).restoreAll

def patchLoadMoffs (func : Word) (moffs : Word) : Emitter :=
  (((((e.movImm32ToReg moffs eax).pushReg ecx).pushReg edx).opCall func).popReg edx).popReg ecx

def patchLoad (func : Word) (modrm : Modrm) (suffixes : ℕ → Byte) : Emitter :=
  (((e.saveOthers modrm.reg).leaModrm eax modrm suffixes).opCall func).restoreOthers modrm.reg

def patchXchg (func : Word) (modrm : Modrm) (suffixes : ℕ → Byte) : Emitter :=
  (((e.saveOthers modrm.reg).loadArgs modrm suffixes).opCall func).restoreOthers modrm.reg

end Emitter

structure Handlers where
  readFunc : Word
  writeFunc : Word
  xchgFunc : Word
  orFunc : Word
  andFunc : Word

def applyDevicePatchup (f : Handlers) (start : Word) (opstream : ℕ → Byte) (room : ℕ) :
    Option (List Byte × Bool) :=
  let e : Emitter := ⟨start, [], 0⟩
  let modrm := Modrm.ofRaw (opstream 1)
  let suffixes := fun i => opstream (i + 2)
  let moffs := word32 fun i => opstream (i + 1)
  let newops : Option Emitter :=
    if opstream 0 = 0x09 then some (e.patchStore f.orFunc modrm suffixes)
    else if opstream 0 = 0x21 then some (e.patchStore f.andFunc modrm suffixes)
    else if opstream 0 = 0x89 then some (e.patchStore f.writeFunc modrm suffixes)
    else if opstream 0 = 0xa3 then some (e.patchStoreMoffs f.writeFunc moffs)
    else if opstream 0 = 0xa1 then some (e.patchLoadMoffs f.readFunc moffs)
    else if opstream 0 = 0x8b then some (e.patchLoad f.readFunc modrm suffixes)
    else if opstream 0 = 0x87 then some (e.patchXchg f.xchgFunc modrm suffixes)
    else none
  newops.map fun e => (e.out, decide (e.out.length ≤ room))

structure Access where
  func : Word
  source : Option Reg
  dest : Option Reg
  addr : Addr

def access (f : Handlers) (opstream : ℕ → Byte) : Option Access :=
  let m := Modrm.ofRaw (opstream 1)
  let operand := (decodeAddr m ((List.range 6).map fun i => opstream (i + 2))).map Prod.fst
  let moffs : Addr := ⟨none, none, 0, word32 fun i => opstream (i + 1)⟩
  if opstream 0 = 0x09 then operand.map (⟨f.orFunc, some m.reg, none, ·⟩)
  else if opstream 0 = 0x21 then operand.map (⟨f.andFunc, some m.reg, none, ·⟩)
  else if opstream 0 = 0x89 then operand.map (⟨f.writeFunc, some m.reg, none, ·⟩)
  else if opstream 0 = 0xa3 then some ⟨f.writeFunc, some eax, none, moffs⟩
  else if opstream 0 = 0xa1 then some ⟨f.readFunc, none, some eax, moffs⟩
  else if opstream 0 = 0x8b then operand.map (⟨f.readFunc, none, some m.reg, ·⟩)
  else if opstream 0 = 0x87 then operand.map (⟨f.xchgFunc, some m.reg, some m.reg, ·⟩)
  else none

structure Access.Made (a : Access) (cpu : Cpu) (s : State) (c : Call) : Prop where
  called : s.calls = [c]
  target : c.target = a.func
  args : match a.source with
    | some r => c.eax = cpu.regs r ∧ c.edx = a.addr.ea cpu.regs
    | none => c.eax = a.addr.ea cpu.regs
  kept : ∀ r, a.dest ≠ some r → s.cpu.regs r = cpu.regs r
  result : ∀ r, a.dest = some r → s.cpu.regs r = c.result

def Makes (start : Word) (code : List Byte) (a : Access) : Prop :=
  ∀ env, Regparm env → ∀ cpu, ∃ s c, run env code.length start code ⟨cpu, []⟩ = some s ∧
    a.Made cpu s c

end Rewrite
