import Mathlib.Tactic
import Mathlib.Logic.Function.Basic

/-!
# A part of the IA-32 instruction set

Moves between registers, the stack and immediate operands, effective addresses and calls, with their
encodings.
-/

namespace Ia32
open List

abbrev Byte := BitVec 8
abbrev Word := BitVec 32
abbrev Reg := BitVec 3
def eax : Reg := 0
def ecx : Reg := 1
def edx : Reg := 2
def esp : Reg := 4

@[simp] theorem reg_ne : eax ≠ ecx ∧ eax ≠ edx ∧ eax ≠ esp ∧ ecx ≠ eax ∧ ecx ≠ edx ∧ ecx ≠ esp ∧
    edx ≠ eax ∧ edx ≠ ecx ∧ edx ≠ esp ∧ esp ≠ eax ∧ esp ≠ ecx ∧ esp ≠ edx := by
  decide

structure Modrm where
  mod : BitVec 2
  reg : BitVec 3
  rm : BitVec 3
  deriving DecidableEq, Repr

variable (m : Modrm)

def Modrm.raw : Byte := m.mod ++ m.reg ++ m.rm
def Modrm.ofRaw (b : Byte) : Modrm := ⟨b.extractLsb' 6 2, b.extractLsb' 3 3, b.extractLsb' 0 3⟩

structure Sib where
  scale : BitVec 2
  index : BitVec 3
  base : BitVec 3
  deriving DecidableEq, Repr

def Sib.ofRaw (b : Byte) : Sib := ⟨b.extractLsb' 6 2, b.extractLsb' 3 3, b.extractLsb' 0 3⟩

structure Addr where
  base : Option Reg
  index : Option Reg
  scale : BitVec 2
  disp : Word
  deriving DecidableEq, Repr

def Addr.ea (regs : Reg → Word) (a : Addr) : Word :=
  a.base.elim 0 regs + a.index.elim 0 regs <<< a.scale.toNat + a.disp

def le32 (b₀ b₁ b₂ b₃ : Byte) : Word := b₃ ++ b₂ ++ b₁ ++ b₀

def bytes32 (w : Word) : List Byte :=
  [w.extractLsb' 0 8, w.extractLsb' 8 8, w.extractLsb' 16 8, w.extractLsb' 24 8]

def take8 : List Byte → Option (Word × List Byte)
  | b :: rest => some (b.signExtend 32, rest)
  | _ => none

def take32 : List Byte → Option (Word × List Byte)
  | b₀ :: b₁ :: b₂ :: b₃ :: rest => some (le32 b₀ b₁ b₂ b₃, rest)
  | _ => none

def takeDisp (mod : BitVec 2) (noBase : Bool) (bytes : List Byte) : Option (Word × List Byte) :=
  if mod = 1 then take8 bytes
  else if mod = 2 ∨ noBase = true then take32 bytes
  else some (0, bytes)

def decodeSib (mod : BitVec 2) : List Byte → Option (Addr × List Byte)
  | [] => none
  | b :: bytes =>
    let sib := Sib.ofRaw b
    let noBase := decide (sib.base = 5 ∧ mod = 0)
    (takeDisp mod noBase bytes).map fun d =>
      (⟨if noBase then none else some sib.base, if sib.index = 4 then none else some sib.index,
        sib.scale, d.1⟩, d.2)

def decodeAddr (bytes : List Byte) : Option (Addr × List Byte) :=
  if m.mod = 3 then none
  else if m.rm = 4 then decodeSib m.mod bytes
  else
    let noBase := decide (m.rm = 5 ∧ m.mod = 0)
    (takeDisp m.mod noBase bytes).map fun d =>
      (⟨if noBase then none else some m.rm, none, 0, d.1⟩, d.2)

inductive Instr
  | push (r : Reg)
  | pop (r : Reg)
  | lea (dst : Reg) (a : Addr)
  | mov (dst src : Reg)
  | movImm (dst : Reg) (imm : Word)
  | call (target : Word)
  deriving DecidableEq, Repr

def decodeModrm (op : Byte) : List Byte → Option (Instr × List Byte)
  | [] => none
  | b :: bytes =>
    let m := Modrm.ofRaw b
    if op = 0x8d then (decodeAddr m bytes).map fun d => (.lea m.reg d.1, d.2)
    else if op = 0x89 ∧ m.mod = 3 then some (.mov m.rm m.reg, bytes)
    else if op = 0xc7 ∧ m.mod = 3 ∧ m.reg = 0 then
      (take32 bytes).map fun d => (.movImm m.rm d.1, d.2)
    else none

def decode (addr : Word) : List Byte → Option (Instr × List Byte)
  | [] => none
  | op :: bytes =>
    if op.extractLsb' 3 5 = 0x0a then some (.push (op.extractLsb' 0 3), bytes)
    else if op.extractLsb' 3 5 = 0x0b then some (.pop (op.extractLsb' 0 3), bytes)
    else if op.extractLsb' 3 5 = 0x17 then
      (take32 bytes).map fun d => (.movImm (op.extractLsb' 0 3) d.1, d.2)
    else if op = 0xe8 then (take32 bytes).map fun d => (.call (addr + 5 + d.1), d.2)
    else decodeModrm op bytes

structure Cpu where
  regs : Reg → Word
  mem : Word → Byte

namespace Cpu

def setReg (s : Cpu) (r : Reg) (v : Word) : Cpu := { s with regs := Function.update s.regs r v }

def load32 (s : Cpu) (a : Word) : Word :=
  le32 (s.mem a) (s.mem (a + 1)) (s.mem (a + 2)) (s.mem (a + 3))

def store32 (s : Cpu) (a v : Word) : Cpu :=
  { s with mem := fun x => if (x - a).toNat < 4 then v.extractLsb' (8 * (x - a).toNat) 8
                           else s.mem x }

end Cpu

structure Call where
  target : Word
  eax : Word
  edx : Word
  result : Word
  deriving DecidableEq, Repr

structure State where
  cpu : Cpu
  calls : List Call

def exec (env : Word → Cpu → Cpu) (s : State) : Instr → State
  | .push r =>
    let a := s.cpu.regs esp - 4
    { s with cpu := (s.cpu.store32 a (s.cpu.regs r)).setReg esp a }
  | .pop r =>
    let a := s.cpu.regs esp
    { s with cpu := (s.cpu.setReg esp (a + 4)).setReg r (s.cpu.load32 a) }
  | .lea dst a => { s with cpu := s.cpu.setReg dst (a.ea s.cpu.regs) }
  | .mov dst src => { s with cpu := s.cpu.setReg dst (s.cpu.regs src) }
  | .movImm dst imm => { s with cpu := s.cpu.setReg dst imm }
  | .call t =>
    let cpu := env t s.cpu
    ⟨cpu, s.calls ++ [⟨t, s.cpu.regs eax, s.cpu.regs edx, cpu.regs eax⟩]⟩

def execAll (env : Word → Cpu → Cpu) (is : List Instr) (s : State) : State :=
  is.foldl (exec env) s

def run (env : Word → Cpu → Cpu) : ℕ → Word → List Byte → State → Option State
  | _, _, [], s => some s
  | 0, _, _ :: _, _ => none
  | fuel + 1, addr, b :: bytes, s =>
    match decode addr (b :: bytes) with
    | none => none
    | some (i, rest) =>
      run env fuel (addr + BitVec.ofNat 32 ((b :: bytes).length - rest.length)) rest (exec env s i)

structure Regparm (env : Word → Cpu → Cpu) : Prop where
  regs : ∀ t s r, r ≠ eax → r ≠ ecx → r ≠ edx → (env t s).regs r = s.regs r
  stack : ∀ t s (k : Word), k.toNat < 12 → (env t s).mem (s.regs esp + k) = s.mem (s.regs esp + k)

@[simp] theorem Modrm.ofRaw_raw : Modrm.ofRaw m.raw = m := by
  obtain ⟨mod, reg, rm⟩ := m
  revert mod reg rm
  decide

theorem le32_extractLsb' (w : Word) : le32 (w.extractLsb' 0 8) (w.extractLsb' 8 8)
    (w.extractLsb' 16 8) (w.extractLsb' 24 8) = w := by
  apply BitVec.eq_of_getLsbD_eq
  intro i hi
  simp only [le32, BitVec.getLsbD_append, BitVec.getLsbD_extractLsb']
  by_cases h₁ : i < 8
  · simp [h₁]
  · by_cases h₂ : i < 16
    · simp [h₁, show i - 8 < 8 by omega, show 8 + (i - 8) = i by omega]
    · by_cases h₃ : i < 24
      · simp [h₁, show ¬ i - 8 < 8 by omega, show i - 8 - 8 < 8 by omega,
          show 16 + (i - 8 - 8) = i by omega]
      · simp [h₁, show ¬ i - 8 < 8 by omega, show ¬ i - 8 - 8 < 8 by omega,
          show i - 8 - 8 - 8 < 8 by omega, show 24 + (i - 8 - 8 - 8) = i by omega]

@[simp] theorem take32_bytes32 (w : Word) (rest : List Byte) :
    take32 (bytes32 w ++ rest) = some (w, rest) := by
  show some (le32 _ _ _ _, rest) = some (w, rest)
  rw [le32_extractLsb']

def Encodes (addr : Word) (b : List Byte) (i : Instr) : Prop :=
  b ≠ [] ∧ ∀ rest, decode addr (b ++ rest) = some (i, rest)

section Encodes
variable (addr : Word)
variable (r : Reg)

theorem opcode_add :
    ((0x50 : Byte) + r.setWidth 8).extractLsb' 3 5 = 0x0a ∧
      ((0x50 : Byte) + r.setWidth 8).extractLsb' 0 3 = r ∧
    ((0x58 : Byte) + r.setWidth 8).extractLsb' 3 5 = 0x0b ∧
      ((0x58 : Byte) + r.setWidth 8).extractLsb' 0 3 = r ∧
    ((0xb8 : Byte) + r.setWidth 8).extractLsb' 3 5 = 0x17 ∧
      ((0xb8 : Byte) + r.setWidth 8).extractLsb' 0 3 = r := by
  revert r
  decide

theorem encodes_push : Encodes addr [0x50 + r.setWidth 8] (.push r) := by
  obtain ⟨hop, hr, -⟩ := opcode_add r
  refine ⟨cons_ne_nil _ _, fun rest => ?_⟩
  show decode addr (_ :: rest) = _
  rw [decode, if_pos hop, hr]

theorem encodes_pop : Encodes addr [0x58 + r.setWidth 8] (.pop r) := by
  obtain ⟨-, -, hop, hr, -⟩ := opcode_add r
  refine ⟨cons_ne_nil _ _, fun rest => ?_⟩
  show decode addr (_ :: rest) = _
  rw [decode, if_neg (by rw [hop]; decide), if_pos hop, hr]

theorem encodes_movImm (w : Word) :
    Encodes addr ((0xb8 + r.setWidth 8) :: bytes32 w) (.movImm r w) := by
  obtain ⟨-, -, -, -, hop, hr⟩ := opcode_add r
  refine ⟨cons_ne_nil _ _, fun rest => ?_⟩
  rw [cons_append, decode, if_neg (by rw [hop]; decide), if_neg (by rw [hop]; decide),
    if_pos hop, take32_bytes32, hr]
  rfl

theorem encodes_call (target : Word) :
    Encodes addr (0xe8 :: bytes32 (target - (addr + 5))) (.call target) := by
  refine ⟨cons_ne_nil _ _, fun rest => ?_⟩
  have htarget : addr + 5 + (target - (addr + 5)) = target := by
    rw [BitVec.add_comm, BitVec.sub_add_cancel]
  rw [cons_append, decode, if_neg (by decide), if_neg (by decide), if_neg (by decide),
    if_pos rfl, take32_bytes32, Option.map_some, htarget]

theorem encodes_mov (dst src : Reg) :
    Encodes addr [0x89, (⟨3, src, dst⟩ : Modrm).raw] (.mov dst src) := by
  refine ⟨cons_ne_nil _ _, fun rest => ?_⟩
  simp [decode, decodeModrm]

theorem encodes_movImm_modrm (dst : Reg) (w : Word) :
    Encodes addr (0xc7 :: (⟨3, 0, dst⟩ : Modrm).raw :: bytes32 w) (.movImm dst w) := by
  refine ⟨cons_ne_nil _ _, fun rest => ?_⟩
  simp [decode, decodeModrm]

theorem encodes_lea {m : Modrm} {b : List Byte} {a : Addr}
    (h : ∀ rest, decodeAddr m (b ++ rest) = some (a, rest)) :
    Encodes addr (0x8d :: m.raw :: b) (.lea m.reg a) := by
  refine ⟨cons_ne_nil _ _, fun rest => ?_⟩
  simp [decode, decodeModrm, h]

end Encodes

inductive Decodes : Word → List Byte → List Instr → Prop
  | nil (addr : Word) : Decodes addr [] []
  | cons {addr : Word} {b bytes : List Byte} {i : Instr} {is : List Instr} (h : Encodes addr b i)
      (hs : Decodes (addr + BitVec.ofNat 32 b.length) bytes is) :
      Decodes addr (b ++ bytes) (i :: is)

variable {addr : Word} {bytes : List Byte} {is : List Instr}

theorem Decodes.snoc {b : List Byte} {i : Instr} (hs : Decodes addr bytes is)
    (h : Encodes (addr + BitVec.ofNat 32 bytes.length) b i) :
    Decodes addr (bytes ++ b) (is ++ [i]) := by
  induction hs with
  | nil addr =>
    rw [length_nil, BitVec.add_zero] at h
    have := Decodes.cons h (.nil _)
    rwa [append_nil] at this
  | @cons addr b' bytes i' is h' hs ih =>
    rw [append_assoc]
    refine .cons h' (ih ?_)
    rwa [length_append, BitVec.ofNat_add, ← BitVec.add_assoc] at h

theorem Decodes.length_le (h : Decodes addr bytes is) : is.length ≤ bytes.length := by
  induction h with
  | nil => exact le_rfl
  | cons h hs ih =>
    have := length_pos_of_ne_nil h.1
    rw [length_cons, length_append]
    omega

theorem run_of_decodes (env : Word → Cpu → Cpu) (h : Decodes addr bytes is) :
    ∀ fuel s, is.length ≤ fuel → run env fuel addr bytes s = some (execAll env is s) := by
  induction h with
  | nil addr =>
    intro fuel s _
    cases fuel <;> rfl
  | @cons addr b bytes i is h hs ih =>
    intro fuel s hfuel
    obtain ⟨fuel, rfl⟩ : ∃ n, fuel = n + 1 := ⟨fuel - 1, by rw [length_cons] at hfuel; omega⟩
    obtain ⟨c, b, rfl⟩ := exists_cons_of_ne_nil h.1
    have hdec := h.2 bytes
    rw [cons_append] at hdec ⊢
    have hlen : (c :: (b ++ bytes)).length - bytes.length = (c :: b).length := by
      simp only [length_cons, length_append]
      omega
    rw [run, hdec]
    show run env fuel (addr + BitVec.ofNat 32 ((c :: (b ++ bytes)).length - bytes.length)) bytes
      (exec env s i) = _
    rw [hlen, ih fuel _ (by rw [length_cons] at hfuel; omega)]
    rfl

end Ia32
