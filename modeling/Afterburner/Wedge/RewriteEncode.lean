import Afterburner.Wedge.RewriteOperand

/-!
# What the emitted bytes are read as

Every function of the emitter appends the encoding of one instruction.
-/
variable (e : Emitter)

namespace Rewrite
open Ia32

structure Emitter.Emits (addr : Word) (is : List Instr) : Prop where
  start : e.start = addr
  decodes : Decodes addr e.out is

namespace Emitter
variable {e} {start : Word} {is : List Instr}

theorem emits_nil (start off : Word) : (⟨start, [], off⟩ : Emitter).Emits start [] :=
  ⟨rfl, .nil start⟩

section
variable (h : e.Emits start is)
include h

theorem Emits.put {b : List Byte} {i : Instr} {off : Word}
    (hb : Encodes (start + BitVec.ofNat 32 e.out.length) b i) :
    ({ e.put b with stackOffset := off } : Emitter).Emits start (is ++ [i]) :=
  ⟨h.start, h.decodes.snoc hb⟩

theorem Emits.pushReg (r : Reg) : (e.pushReg r).Emits start (is ++ [.push r]) :=
  h.put (encodes_push _ r)

theorem Emits.popReg (r : Reg) : (e.popReg r).Emits start (is ++ [.pop r]) :=
  h.put (encodes_pop _ r)

theorem Emits.movRegToReg (src dst : Reg) :
    (e.movRegToReg src dst).Emits start (is ++ [.mov dst src]) :=
  h.put (encodes_mov _ dst src)

theorem Emits.movImm32ToReg (imm : Word) :
    (e.movImm32ToReg imm eax).Emits start (is ++ [.movImm eax imm]) :=
  h.put (encodes_movImm_modrm _ eax imm)

theorem Emits.setReg (r : Reg) (value : Word) :
    (e.setReg r value).Emits start (is ++ [.movImm r value]) :=
  h.put (encodes_movImm _ r value)

theorem Emits.opCall (func : Word) : (e.opCall func).Emits start (is ++ [.call func]) := by
  obtain ⟨rfl, h⟩ := h
  exact Emits.put ⟨rfl, h⟩ (encodes_call _ func)

end

end Emitter

def LeaAppends (dst : Reg) (m : Modrm) (suffixes : ℕ → Byte) (a : Addr) : Prop :=
  ∃ (m' : Modrm) (tail : List Byte), m'.reg = dst ∧
    e.leaModrm dst m suffixes = e.put (0x8d :: m'.raw :: tail) ∧
    ∀ rest, decodeAddr m' (tail ++ rest) = some (a, rest)

variable {suffixes : ℕ → Byte} {rest₀ : List Byte}

/-- **The operand of an emitted `lea`.** -/
theorem leaAppends (dst : Reg) {m : Modrm} {a : Addr}
    (ha : decodeAddr m ((List.range 6).map suffixes) = some (a, rest₀)) :
    LeaAppends e dst m suffixes (reencode m.mod e.stackOffset a) := by
  have ha' : decodeAddr { m with reg := dst } ((List.range 6).map suffixes) = some (a, rest₀) := ha
  obtain ⟨m', tail, hreg, heq, hdec⟩ := appends (e.put [0x8d]) ha'
  exact ⟨m', tail, hreg, by simpa [Emitter.put, Emitter.leaModrm] using heq, hdec⟩

theorem Emitter.Emits.leaModrm {e : Emitter} {start : Word} {is : List Instr} (h : e.Emits start is)
    (dst : Reg) {m : Modrm} {a : Addr}
    (ha : decodeAddr m ((List.range 6).map suffixes) = some (a, rest₀)) :
    (e.leaModrm dst m suffixes).Emits start
      (is ++ [.lea dst (reencode m.mod e.stackOffset a)]) := by
  obtain ⟨m', tail, rfl, heq, hdec⟩ := leaAppends e dst ha
  rw [heq]
  exact h.put (encodes_lea _ hdec)

end Rewrite
