import Afterburner.Lib.Decoding
import Afterburner.Lib.Ia32Stack
import Mathlib.Data.BitVec

/-!
# More IA-32 instructions

Pushes of immediates, pushes and pops of memory, moves between registers and memory, and additions.
-/

namespace Ia32
open Function List BitVec

inductive Op
  | instr (i : Instr)
  | nop
  | pushImm (v : Word)
  | pushMem (a : Addr)
  | popMem (a : Addr)
  | load (dst : Reg) (a : Addr)
  | store (src : Reg) (a : Addr)
  | addImm (dst : Reg) (v : Word)
  deriving DecidableEq, Repr

def decodeOperand (op : Byte) : List Byte → Option (Op × List Byte)
  | [] => none
  | b :: bytes =>
    let m := Modrm.ofRaw b
    if op = 0x83 ∧ m.mod = 3 ∧ m.reg = 0 then (take8 bytes).map fun d => (.addImm m.rm d.1, d.2)
    else if op = 0xff ∧ m.reg = 6 then (decodeAddr m bytes).map fun d => (.pushMem d.1, d.2)
    else if op = 0x8f ∧ m.reg = 0 then (decodeAddr m bytes).map fun d => (.popMem d.1, d.2)
    else if op = 0x8b then (decodeAddr m bytes).map fun d => (.load m.reg d.1, d.2)
    else if op = 0x89 then (decodeAddr m bytes).map fun d => (.store m.reg d.1, d.2)
    else none

def decodeMore : List Byte → Option (Op × List Byte)
  | [] => none
  | op :: bytes =>
    if op = 0x90 then some (.nop, bytes)
    else if op = 0x6a then (take8 bytes).map fun d => (.pushImm d.1, d.2)
    else if op = 0x68 then (take32 bytes).map fun d => (.pushImm d.1, d.2)
    else decodeOperand op bytes

def decodeOp (addr : Word) (bytes : List Byte) : Option (Op × List Byte) :=
  match decode addr bytes with
  | some d => some (.instr d.1, d.2)
  | none => decodeMore bytes

namespace Cpu

def push (s : Cpu) (v : Word) : Cpu :=
  (s.store32 (s.regs esp - 4) v).setReg esp (s.regs esp - 4)

def pop (s : Cpu) : Cpu := s.setReg esp (s.regs esp + 4)

end Cpu

structure Trace where
  cpu : Cpu
  calls : List (Word × Cpu)

def execOp (env : Word → Cpu → Cpu) (s : Trace) : Op → Trace
  | .instr (.call t) => ⟨env t s.cpu, s.calls ++ [(t, s.cpu)]⟩
  | .instr i => { s with cpu := (exec env ⟨s.cpu, []⟩ i).cpu }
  | .nop => s
  | .pushImm v => { s with cpu := s.cpu.push v }
  -- the address is computed before the stack pointer moves
  | .pushMem a => { s with cpu := s.cpu.push (s.cpu.load32 (a.ea s.cpu.regs)) }
  -- and here after it has moved
  | .popMem a =>
    { s with cpu := s.cpu.pop.store32 (a.ea s.cpu.pop.regs) (s.cpu.load32 (s.cpu.regs esp)) }
  | .load dst a => { s with cpu := s.cpu.setReg dst (s.cpu.load32 (a.ea s.cpu.regs)) }
  | .store src a => { s with cpu := s.cpu.store32 (a.ea s.cpu.regs) (s.cpu.regs src) }
  | .addImm dst v => { s with cpu := s.cpu.setReg dst (s.cpu.regs dst + v) }

section Exec
variable (env : Word → Cpu → Cpu) (s : Trace) (r : Reg) (a : Addr) (v : Word)

@[simp] theorem execOp_push :
    execOp env s (.instr (.push r)) = { s with cpu := s.cpu.push (s.cpu.regs r) } := rfl

@[simp] theorem execOp_pop : execOp env s (.instr (.pop r)) =
    { s with cpu := s.cpu.pop.setReg r (s.cpu.load32 (s.cpu.regs esp)) } := rfl

@[simp] theorem execOp_lea :
    execOp env s (.instr (.lea r a)) = { s with cpu := s.cpu.setReg r (a.ea s.cpu.regs) } := rfl

@[simp] theorem execOp_call :
    execOp env s (.instr (.call v)) = ⟨env v s.cpu, s.calls ++ [(v, s.cpu)]⟩ := rfl

@[simp] theorem execOp_pushImm : execOp env s (.pushImm v) = { s with cpu := s.cpu.push v } := rfl

@[simp] theorem execOp_pushMem : execOp env s (.pushMem a) =
    { s with cpu := s.cpu.push (s.cpu.load32 (a.ea s.cpu.regs)) } := rfl

@[simp] theorem execOp_popMem : execOp env s (.popMem a) =
    { s with cpu := s.cpu.pop.store32 (a.ea s.cpu.pop.regs) (s.cpu.load32 (s.cpu.regs esp)) } := rfl

@[simp] theorem execOp_load : execOp env s (.load r a) =
    { s with cpu := s.cpu.setReg r (s.cpu.load32 (a.ea s.cpu.regs)) } := rfl

@[simp] theorem execOp_store : execOp env s (.store r a) =
    { s with cpu := s.cpu.store32 (a.ea s.cpu.regs) (s.cpu.regs r) } := rfl

@[simp] theorem execOp_addImm : execOp env s (.addImm r v) =
    { s with cpu := s.cpu.setReg r (s.cpu.regs r + v) } := rfl

end Exec

def runOps (env : Word → Cpu → Cpu) (addr : Word) (code : List Byte) (cpu : Cpu) : Option Trace :=
  Decoding.run decodeOp (execOp env) code.length addr code ⟨cpu, []⟩

abbrev EncodesOp (addr : Word) (b : List Byte) (o : Op) : Prop :=
  Decoding.Encodes decodeOp addr b o

section Encodes
variable (addr : Word)

theorem encodes_instr {b : List Byte} {i : Instr} (h : Ia32.Encodes addr b i) :
    EncodesOp addr b (.instr i) :=
  ⟨h.1, fun rest => by rw [decodeOp, h.2]⟩

theorem encodes_of_more {b : List Byte} {o : Op} (hne : b ≠ [])
    (hnone : ∀ rest, decode addr (b ++ rest) = none)
    (h : ∀ rest, decodeMore (b ++ rest) = some (o, rest)) : EncodesOp addr b o :=
  ⟨hne, fun rest => by rw [decodeOp, hnone]; exact h rest⟩

theorem encodes_nop : EncodesOp addr [0x90] .nop :=
  encodes_of_more addr (cons_ne_nil _ _) (fun rest => by cases rest <;> rfl) fun _ => rfl

theorem encodes_pushImm8 (v : Byte) : EncodesOp addr [0x6a, v] (.pushImm (v.signExtend 32)) :=
  encodes_of_more addr (cons_ne_nil _ _) (fun _ => rfl) fun _ => rfl

theorem encodes_pushImm32 (v : Word) : EncodesOp addr (0x68 :: bytes32 v) (.pushImm v) := by
  refine encodes_of_more addr (cons_ne_nil _ _) (fun rest => ?_) fun rest => ?_
  · simp [decode, decodeModrm, bytes32]
  · simp [decodeMore]

theorem encodes_addImm (r : Reg) (v : Byte) :
    EncodesOp addr [0x83, (⟨3, 0, r⟩ : Modrm).raw, v] (.addImm r (v.signExtend 32)) := by
  refine encodes_of_more addr (cons_ne_nil _ _) (fun rest => ?_) fun rest => ?_
  · simp [decode, decodeModrm]
  · simp [decodeMore, decodeOperand, take8]

variable {m : Modrm} {b : List Byte} {a : Addr}

theorem encodes_pushMem (hreg : m.reg = 6) (h : ∀ rest, decodeAddr m (b ++ rest) = some (a, rest)) :
    EncodesOp addr (0xff :: m.raw :: b) (.pushMem a) := by
  refine encodes_of_more addr (cons_ne_nil _ _) (fun rest => ?_) fun rest => ?_
  · simp [decode, decodeModrm]
  · simp [decodeMore, decodeOperand, hreg, h]

theorem encodes_popMem (hreg : m.reg = 0) (h : ∀ rest, decodeAddr m (b ++ rest) = some (a, rest)) :
    EncodesOp addr (0x8f :: m.raw :: b) (.popMem a) := by
  refine encodes_of_more addr (cons_ne_nil _ _) (fun rest => ?_) fun rest => ?_
  · simp [decode, decodeModrm]
  · simp [decodeMore, decodeOperand, hreg, h]

theorem encodes_load (h : ∀ rest, decodeAddr m (b ++ rest) = some (a, rest)) :
    EncodesOp addr (0x8b :: m.raw :: b) (.load m.reg a) := by
  refine encodes_of_more addr (cons_ne_nil _ _) (fun rest => ?_) fun rest => ?_
  · simp [decode, decodeModrm]
  · simp [decodeMore, decodeOperand, h]

theorem encodes_store (h : ∀ rest, decodeAddr m (b ++ rest) = some (a, rest)) :
    EncodesOp addr (0x89 :: m.raw :: b) (.store m.reg a) := by
  have hmod : ¬ m.mod = 3#2 := by
    intro hmod
    have := h []
    simp [decodeAddr, hmod] at this
  refine encodes_of_more addr (cons_ne_nil _ _) (fun rest => ?_) fun rest => ?_
  · simp [decode, decodeModrm, hmod]
  · simp [decodeMore, decodeOperand, h]

theorem decodeAddr_disp32 (reg : BitVec 3) (v : Word) (rest : List Byte) :
    decodeAddr ⟨0, reg, 5⟩ (bytes32 v ++ rest) = some (⟨none, none, 0, v⟩, rest) := by
  simp [decodeAddr, takeDisp]

theorem ea_disp32 (regs : Reg → Word) (v : Word) : (⟨none, none, 0, v⟩ : Addr).ea regs = v := by
  simp [Addr.ea]

end Encodes
namespace Cpu

def param (s : Cpu) (k : ℕ) : Word := s.load32 (s.regs esp + BitVec.ofNat 32 (4 * k))

variable (s : Cpu) (v : Word) {r : Reg} {k : ℕ}

@[simp] theorem regs_setReg_self (r : Reg) : (s.setReg r v).regs r = v := by
  simp [setReg]

@[simp] theorem regs_setReg_of_ne {q : Reg} (hr : r ≠ q) : (s.setReg q v).regs r = s.regs r := by
  simp [setReg, hr]

theorem regs_push : (s.push v).regs = update s.regs esp (s.regs esp - 4) := rfl
theorem regs_pop : s.pop.regs = update s.regs esp (s.regs esp + 4) := rfl

@[simp] theorem regs_push_esp : (s.push v).regs esp = s.regs esp - 4 := by
  rw [regs_push, update_self]

@[simp] theorem regs_push_of_ne (hr : r ≠ esp) : (s.push v).regs r = s.regs r := by
  rw [regs_push, update_of_ne hr]

@[simp] theorem regs_pop_esp : s.pop.regs esp = s.regs esp + 4 := by
  rw [regs_pop, update_self]

@[simp] theorem regs_pop_of_ne (hr : r ≠ esp) : s.pop.regs r = s.regs r := by
  rw [regs_pop, update_of_ne hr]

@[simp] theorem param_push_zero : (s.push v).param 0 = v := by
  rw [param, regs_push_esp, Nat.mul_zero, BitVec.add_zero]
  exact s.load32_store32_self _ _

theorem param_push_succ (hk : k < 2 ^ 20) : (s.push v).param (k + 1) = s.param k := by
  have hnat : (BitVec.ofNat 32 (4 * (k + 1))).toNat = 4 * (k + 1) := by
    rw [toNat_ofNat, Nat.mod_eq_of_lt (by omega)]
  have hsub : s.regs esp - 4 + BitVec.ofNat 32 (4 * (k + 1)) - (s.regs esp - 4) =
      BitVec.ofNat 32 (4 * (k + 1)) := by rw [BitVec.add_comm, BitVec.add_sub_cancel]
  have haddr : s.regs esp - 4 + BitVec.ofNat 32 (4 * (k + 1)) =
      s.regs esp + BitVec.ofNat 32 (4 * k) := by
    rw [Nat.mul_succ, ofNat_add, BitVec.add_comm (BitVec.ofNat 32 (4 * k)),
      ← BitVec.add_assoc]
    exact congrArg (· + BitVec.ofNat 32 (4 * k)) (BitVec.sub_add_cancel ..)
  rw [param, param, regs_push_esp, ← haddr]
  exact s.load32_store32_of_le _ _ _ (by rw [hsub, hnat]; omega) (by rw [hsub, hnat]; omega)

@[simp] theorem load32_setReg (r : Reg) (x : Word) : (s.setReg r v).load32 x = s.load32 x := rfl

theorem param_setReg_of_ne (hr : r ≠ esp) : (s.setReg r v).param k = s.param k := by
  rw [param, param, regs_setReg_of_ne _ _ hr.symm, load32_setReg]

theorem extractLsb'_load32 (x : Word) {k : ℕ} (hk : k < 4) :
    (s.load32 x).extractLsb' (8 * k) 8 = s.mem (x + BitVec.ofNat 32 k) := by
  apply eq_of_getLsbD_eq
  intro i hi
  have hk' : k = 0 ∨ k = 1 ∨ k = 2 ∨ k = 3 := by omega
  rw [load32, le32]
  simp only [getLsbD_extractLsb', getLsbD_append, hi, decide_true, Bool.true_and]
  rcases hk' with rfl | rfl | rfl | rfl
  · rw [if_pos (by omega), BitVec.add_zero, Nat.mul_zero, Nat.zero_add]
  · rw [if_neg (by omega), if_pos (by omega)]
    congr 1
    omega
  · rw [if_neg (by omega), if_neg (by omega), if_pos (by omega)]
    congr 1
    omega
  · rw [if_neg (by omega), if_neg (by omega), if_neg (by omega)]
    congr 1
    omega

theorem load32_push : (s.push v).load32 ((s.push v).regs esp) = v := by
  have h := s.param_push_zero v
  rwa [param, Nat.mul_zero, BitVec.add_zero] at h

theorem push_pop : (s.push v).pop = s.store32 (s.regs esp - 4) v := by
  have hesp : s.regs esp - 4 + 4 = s.regs esp := BitVec.sub_add_cancel ..
  rw [pop, regs_push_esp, hesp, push, setReg, setReg, update_idem]
  show (⟨update s.regs esp (s.regs esp), _⟩ : Cpu) = _
  rw [update_eq_self]
  rfl

theorem regs_push_pop (r : Reg) :
    ((s.push v).pop.setReg r ((s.push v).load32 ((s.push v).regs esp))).regs =
      update s.regs r v := by
  rw [load32_push, push_pop]
  rfl

end Cpu
end Ia32
