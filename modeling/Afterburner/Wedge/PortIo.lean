import Afterburner.Wedge.PatchupCode

/-!
# Port instructions

`in`, `out`, `ins` and `outs` are replaced by calls of a port handler with its arguments pushed.
-/

namespace Rewrite
open Ia32 Slots List

inductive PortPrefix
  | operandSize
  | rep
  deriving DecidableEq

def PortPrefix.code : PortPrefix → Byte
  | operandSize => 0x66
  | rep => 0xf3

inductive PortForm
  | imm (port : Byte)
  | dx
  | string
  deriving DecidableEq

structure PortInsn where
  prefixes : List PortPrefix
  form : PortForm
  /-- `in` or `ins` -/
  input : Bool
  wide : Bool
  length_le : prefixes.length ≤ 15

structure PortRequest where
  input : Bool
  width : Word
  port : BitVec 16
  buffer : Option (Word × Word)
  deriving DecidableEq

namespace PortInsn
variable (i : PortInsn)

def opcode : Byte :=
  match i.form, i.input, i.wide with
  | .imm _, true, false => 0xe4
  | .imm _, true, true => 0xe5
  | .imm _, false, false => 0xe6
  | .imm _, false, true => 0xe7
  | .dx, true, false => 0xec
  | .dx, true, true => 0xed
  | .dx, false, false => 0xee
  | .dx, false, true => 0xef
  | .string, true, false => 0x6c
  | .string, true, true => 0x6d
  | .string, false, false => 0x6e
  | .string, false, true => 0x6f

def operands : List Byte :=
  match i.form with
  | .imm port => [port]
  | _ => []

def bytes : List Byte := i.prefixes.map PortPrefix.code ++ i.opcode :: i.operands
def width : Byte := if i.wide then if .operandSize ∈ i.prefixes then 16 else 32 else 8
def bufferReg : Reg := if i.input then 7 else 6

def request (cpu : Cpu) : PortRequest where
  input := i.input
  width := i.width.setWidth 32
  port :=
    match i.form with
    | .imm port => port.setWidth 16
    | _ => (cpu.regs edx).setWidth 16
  buffer :=
    match i.form with
    | .string => some (cpu.regs i.bufferReg, if .rep ∈ i.prefixes then cpu.regs ecx else 1)
    | _ => none

end PortInsn

structure Linked extends Config where
  burn_injective : Function.Injective burn

def Burn.singles : List Burn :=
  [.interruptibleHlt, .int, .iret, .lret, .out, .outs, .inPort, .ins, .deliverInterrupt, .popf,
    .pushf, .cli, .sti, .movTofsofs, .movFromfsofs, .wbinvd, .invd, .ud2, .cpuid, .lss, .readCr,
    .readDr, .writeDr, .clts, .ltr, .lldt, .str, .lgdt, .lidt, .invlpg, .unimplemented, .wrmsr,
    .rdmsr]

def Burn.address : Burn → Word
  | .writeSeg s => 0x100 + s.reg.setWidth 32
  | .readSeg s => 0x200 + s.reg.setWidth 32
  | .device8259In port => 0x300 + port.setWidth 32
  | .device8259Out port => 0x400 + port.setWidth 32
  | b => BitVec.ofNat 32 (Burn.singles.idxOf b)

def Burn.ofAddress (w : Word) : Option Burn :=
  let low : Byte := w.setWidth 8
  let segment := Segment.ofReg (w.setWidth 3)
  match (w.extractLsb' 8 8).toNat with
  | 0 => Burn.singles[w.toNat]?
  | 1 => segment.map .writeSeg
  | 2 => segment.map .readSeg
  | 3 => some (.device8259In low)
  | _ => some (.device8259Out low)

theorem Burn.ofAddress_address (f : Burn) : Burn.ofAddress f.address = some f := by
  cases f with
  | writeSeg s => cases s <;> rfl
  | readSeg s => cases s <;> rfl
  | device8259In port => revert port; decide
  | device8259Out port => revert port; decide
  | _ => rfl

theorem Burn.address_injective : Function.Injective Burn.address := by
  intro f g h
  have := congrArg Burn.ofAddress h
  rwa [Burn.ofAddress_address, Burn.ofAddress_address, Option.some.injEq] at this

structure Returning where
  call : Word → Cpu → Cpu
  esp : ∀ t s, (call t s).regs esp = s.regs esp

def Burn.portRequest (cpu : Cpu) : Burn → Option PortRequest
  | .out => some ⟨false, cpu.param 1, (cpu.param 0).setWidth 16, none⟩
  | .inPort => some ⟨true, cpu.param 1, (cpu.param 0).setWidth 16, none⟩
  | .outs =>
    some ⟨false, cpu.param 2, (cpu.regs edx).setWidth 16, some (cpu.param 0, cpu.param 1)⟩
  | .ins => some ⟨true, cpu.param 2, (cpu.regs edx).setWidth 16, some (cpu.param 0, cpu.param 1)⟩
  | .device8259In port => some ⟨true, 8, port.setWidth 16, none⟩
  | .device8259Out port => some ⟨false, 8, port.setWidth 16, none⟩
  | _ => none

def Served (cfg : Config) (i : PortInsn) (addr : Word) (code : List Byte) (env : Returning)
    (cpu : Cpu) : Prop :=
  ∃ s func cpu', runOps env.call addr code cpu = some s ∧ s.calls = [(cfg.burn func, cpu')] ∧
    func.portRequest cpu' = some (i.request cpu) ∧ s.cpu.regs esp = cpu.regs esp

def isPic (port : Byte) : Bool := port = 0x20 || port = 0x21 || port = 0xa0 || port = 0xa1

def PortInsn.Handled (i : PortInsn) (cpu : Cpu) : Prop :=
  match i.form with
  | .imm port => isPic port = true → i.wide = false
  | .dx => True
  | .string => .rep ∈ i.prefixes ∨ cpu.regs ecx = 1

section Run

variable (cfg : Config) {e : Emitter} {addr : Word} {n : ℕ}
  (he : e.EmitsOps addr (replicate n .nop)) (env : Returning) (cpu : Cpu)

include he

theorem run_patchPort {port : Byte} (hport : isPic port = false) (device : Byte → Burn)
    (func : Burn) (width : Byte) :
    ∃ s, runOps env.call addr (Insn.patchPort cfg e device func width port).out cpu = some s ∧
      s.calls = [(cfg.burn func, (cpu.push (width.signExtend 32)).push (port.setWidth 32))] ∧
      s.cpu.regs esp = cpu.regs esp := by
  have hne : ¬ (port = 0x20 ∨ port = 0x21 ∨ port = 0xa0 ∨ port = 0xa1) := by
    simpa [isPic, not_or, and_assoc] using hport
  rw [Insn.patchPort, if_neg hne,
    (((((he.stackOffset 0).pushByte width).pushWord (port.setWidth 32)).opCall
      (cfg.burn func)).cleanStack 8).runOps]
  refine ⟨_, rfl, ?_, ?_⟩
  · simp
  · simp [env.esp]
    bv_omega

theorem run_patchPort_of_isPic {port : Byte} (hport : isPic port = true) (device : Byte → Burn)
    (func : Burn) (width : Byte) :
    ∃ s, runOps env.call addr (Insn.patchPort cfg e device func width port).out cpu = some s ∧
      s.calls = [(cfg.burn (device port), (cpu.push (cpu.regs ecx)).push (cpu.regs edx))] ∧
      s.cpu.regs esp = cpu.regs esp := by
  have heq : port = 0x20 ∨ port = 0x21 ∨ port = 0xa0 ∨ port = 0xa1 := by
    simpa [isPic, or_assoc] using hport
  rw [Insn.patchPort, if_pos heq,
    ((((((he.stackOffset 0).pushReg ecx).pushReg edx).opCall (cfg.burn (device port))).popReg
      edx).popReg ecx).runOps]
  refine ⟨_, rfl, ?_, ?_⟩
  · simp
  · simp [env.esp]

theorem run_patchPortDx (func : Burn) (width : Byte) :
    ∃ s, runOps env.call addr (Insn.patchPortDx cfg e func width).out cpu = some s ∧
      s.calls = [(cfg.burn func, (cpu.push (width.signExtend 32)).push (cpu.regs edx))] ∧
      s.cpu.regs esp = cpu.regs esp := by
  rw [Insn.patchPortDx,
    ((((he.pushByte width).pushReg edx).opCall (cfg.burn func)).cleanStack 8).runOps]
  refine ⟨_, rfl, ?_, ?_⟩
  · simp
  · simp [env.esp]
    bv_omega

theorem run_patchString (i : Insn) (func : Burn) (width : Byte) {reg : Reg} (hreg : reg ≠ esp) :
    ∃ s, runOps env.call addr (i.patchString cfg e func width reg).out cpu = some s ∧
      s.calls = [(cfg.burn func,
        ((cpu.push (width.signExtend 32)).push (cpu.regs ecx)).push (cpu.regs reg))] ∧
      s.cpu.regs esp = cpu.regs esp := by
  have hone : (if i.prefixes.rep then (e.pushByte width).pushReg ecx
      else (e.pushByte width).pushReg 1) = (e.pushByte width).pushReg ecx := by
    split_ifs <;> rfl
  rw [Insn.patchString, hone,
    (((((he.pushByte width).pushReg ecx).pushReg reg).opCall (cfg.burn func)).cleanStack
    12).runOps]
  refine ⟨_, rfl, ?_, ?_⟩
  · simp [hreg]
  · simp [env.esp]
    bv_omega

end Run

theorem PortPrefix.code_injective : Function.Injective PortPrefix.code := by
  intro p q h
  cases p <;> cases q <;> first | rfl | cases h

namespace PortInsn
variable (i : PortInsn)

def op : Opcode :=
  match i.form, i.input, i.wide with
  | .imm _, true, false => .inb
  | .imm _, true, true => .inPort
  | .imm _, false, false => .outb
  | .imm _, false, true => .out
  | .dx, true, false => .inbDx
  | .dx, true, true => .inDx
  | .dx, false, false => .outbDx
  | .dx, false, true => .outDx
  | .string, true, false => .insbDx
  | .string, true, true => .insDx
  | .string, false, false => .outsbDx
  | .string, false, true => .outsDx

theorem ofByte_opcode : Opcode.ofByte i.opcode = some i.op := by
  obtain ⟨prefixes, form, input, wide, -⟩ := i
  cases form <;> cases input <;> cases wide <;> rfl

theorem opcode_ok : isPrefix i.opcode = false ∧ isSegmentPrefix i.opcode = false := by
  obtain ⟨prefixes, form, input, wide, -⟩ := i
  cases form <;> cases input <;> cases wide <;> exact ⟨rfl, rfl⟩

theorem length_operands_le : i.operands.length ≤ 1 := by
  rw [operands]
  split <;> simp

theorem placed (mem : Word → Byte) (a : Word) :
    Placed (store mem a i.bytes) a (i.prefixes.map PortPrefix.code) i.opcode i.operands := by
  refine placed_store mem a (fun b hb => ?_) i.opcode_ok ?_
  · obtain ⟨p, -, rfl⟩ := mem_map.1 hb
    cases p <;> rfl
  · have := i.length_operands_le
    have := i.length_le
    rw [length_map]
    omega

def func : Burn :=
  match i.form, i.input with
  | .string, true => .ins
  | .string, false => .outs
  | _, true => .inPort
  | _, false => .out

def device : Byte → Burn := if i.input then .device8259In else .device8259Out

theorem newops_patchup (cfg : Config) (mem : Word → Byte) (a b curr : Word) :
    let st : PatchState := ⟨store mem a i.bytes, curr⟩
    let e : Emitter := ⟨a + curr, replicate i.prefixes.length opNop1, 0⟩
    (patchup cfg st a b).newops =
      match i.form with
      | .imm port => Insn.patchPort cfg e i.device i.func i.width port
      | .dx => Insn.patchPortDx cfg e i.func i.width
      | .string => (st.insn a b).patchString cfg e i.func i.width i.bufferReg := by
  intro st e
  have h : Placed st.mem a (i.prefixes.map PortPrefix.code) i.opcode i.operands := i.placed mem a
  have hsize : (st.insn a b).width = if .operandSize ∈ i.prefixes then 16 else 32 := by
    have hmem : 0x66 ∈ i.prefixes.map PortPrefix.code ↔ .operandSize ∈ i.prefixes :=
      mem_map_of_injective PortPrefix.code_injective (a := .operandSize)
    simp only [Insn.width, (h.prefixes_insn (b := b)).2.2.1, decide_eq_true_eq, hmem]
  have hbyte : ∀ port, i.form = .imm port → (st.insn a b).byte 1 = port := by
    intro port hform
    refine h.mem_insn (k := 1) ?_
    rw [operands, hform]
    rfl
  rw [h.newops_patchup cfg i.ofByte_opcode, length_map]
  obtain ⟨prefixes, form, input, wide, hlen⟩ := i
  cases form with
  | imm port =>
    have hport := hbyte port rfl
    cases input <;> cases wide <;>
      simp only [op, Insn.patchOpcode, hport, hsize] <;> rfl
  | dx => cases input <;> cases wide <;> simp only [op, Insn.patchOpcode, hsize] <;> rfl
  | string => cases input <;> cases wide <;> simp only [op, Insn.patchOpcode, hsize] <;> rfl

end PortInsn
variable {i : PortInsn}

theorem served_iff_request (cfg : Linked) {addr : Word} {code : List Byte} {env : Returning}
    {cpu cpu' : Cpu} {func : Burn} {s : Trace} (hrun : runOps env.call addr code cpu = some s)
    (hcalls : s.calls = [(cfg.burn func, cpu')]) (hesp : s.cpu.regs esp = cpu.regs esp) :
    Served cfg.toConfig i addr code env cpu ↔ func.portRequest cpu' = some (i.request cpu) := by
  constructor
  · rintro ⟨s', func', cpu'', hrun', hcalls', hrequest, -⟩
    obtain rfl := Option.some.inj (hrun.symm.trans hrun')
    obtain ⟨hburn, rfl⟩ := Prod.mk.inj (cons.inj (hcalls.symm.trans hcalls')).1
    rwa [cfg.burn_injective hburn]
  · exact fun hrequest => ⟨s, func, cpu', hrun, hcalls, hrequest, hesp⟩

theorem PortInsn.signExtend_width (i : PortInsn) : i.width.signExtend 32 = i.width.setWidth 32 := by
  rw [width]
  split_ifs <;> rfl

theorem PortInsn.width_eq_byte_iff (i : PortInsn) :
    (8 : Word) = i.width.setWidth 32 ↔ i.wide = false := by
  rw [width]
  split_ifs with hwide hsize
  · simp [hwide]
  · simp [hwide]
  · simp [hwide]

theorem request_iff_of_isPic {port : Byte} (hform : i.form = .imm port) (hpic : isPic port = true)
    (cpu cpu' : Cpu) : (i.device port).portRequest cpu' = some (i.request cpu) ↔ i.Handled cpu := by
  have hdevice : (i.device port).portRequest cpu' = some ⟨i.input, 8, port.setWidth 16, none⟩ := by
    rw [PortInsn.device]
    split_ifs with hinput
    · rw [hinput]
      rfl
    · rw [Bool.not_eq_true] at hinput
      rw [hinput]
      rfl
  rw [hdevice]
  simp only [PortInsn.request, PortInsn.Handled, hform, hpic, Option.some.injEq,
    PortRequest.mk.injEq, true_and, and_true, forall_const]
  exact i.width_eq_byte_iff

theorem request_imm {port : Byte} (hform : i.form = .imm port) (cpu : Cpu) :
    i.func.portRequest ((cpu.push (i.width.signExtend 32)).push (port.setWidth 32)) =
      some (i.request cpu) := by
  have hparams : ((cpu.push (i.width.signExtend 32)).push (port.setWidth 32)).param 0 =
        port.setWidth 32 ∧
      ((cpu.push (i.width.signExtend 32)).push (port.setWidth 32)).param 1 =
        i.width.setWidth 32 := by
    simp_all [Cpu.param_push_succ, Cpu.param_push_zero, i.signExtend_width]
  have hport : (port.setWidth 32).setWidth 16 = port.setWidth 16 := by simp
  rw [PortInsn.func]
  cases hinput : i.input <;>
    simp only [Burn.portRequest, PortInsn.request, hform, hinput, hparams.1, hparams.2, hport]

theorem request_dx (hform : i.form = .dx) (cpu : Cpu) :
    i.func.portRequest ((cpu.push (i.width.signExtend 32)).push (cpu.regs edx)) =
      some (i.request cpu) := by
  have hparams : ((cpu.push (i.width.signExtend 32)).push (cpu.regs edx)).param 0 = cpu.regs edx ∧
      ((cpu.push (i.width.signExtend 32)).push (cpu.regs edx)).param 1 = i.width.setWidth 32 := by
    simp_all [Cpu.param_push_succ, Cpu.param_push_zero, i.signExtend_width]
  rw [PortInsn.func]
  cases hinput : i.input <;>
    simp only [Burn.portRequest, PortInsn.request, hform, hinput, hparams.1, hparams.2]

theorem request_string_iff (hform : i.form = .string) (cpu : Cpu) :
    i.func.portRequest (((cpu.push (i.width.signExtend 32)).push (cpu.regs ecx)).push
      (cpu.regs i.bufferReg)) = some (i.request cpu) ↔ i.Handled cpu := by
  set cpu' := ((cpu.push (i.width.signExtend 32)).push (cpu.regs ecx)).push
    (cpu.regs i.bufferReg) with hcpu'
  have hbuffer : cpu'.param 0 = cpu.regs i.bufferReg := Cpu.param_push_zero ..
  have hcount : cpu'.param 1 = cpu.regs ecx := by
    rw [Cpu.param_push_succ _ _ (by decide), Cpu.param_push_zero]
  have hwidth : cpu'.param 2 = i.width.setWidth 32 := by
    simp [hcpu', Cpu.param_push_succ, Cpu.param_push_zero, i.signExtend_width]
  have hedx : cpu'.regs edx = cpu.regs edx := by simp [hcpu']
  have hfunc : i.func.portRequest cpu' = some ⟨i.input, i.width.setWidth 32,
      (cpu.regs edx).setWidth 16, some (cpu.regs i.bufferReg, cpu.regs ecx)⟩ := by
    rw [PortInsn.func, hform]
    cases hinput : i.input <;>
      simp only [Burn.portRequest, hbuffer, hcount, hwidth, hedx]
  rw [hfunc]
  simp only [PortInsn.request, PortInsn.Handled, hform, Option.some.injEq, PortRequest.mk.injEq,
    Prod.mk.injEq, true_and]
  split_ifs with hrep
  · simp [hrep]
  · simp [hrep]

section Served

variable (cfg : Linked) {i : PortInsn} (mem : Word → Byte) (a b curr : Word) (env : Returning)
  (cpu : Cpu)

theorem served_iff_of_isPic {port : Byte} (hform : i.form = .imm port) (hpic : isPic port = true) :
    Served cfg.toConfig i (a + curr)
      (patchup cfg.toConfig ⟨store mem a i.bytes, curr⟩ a b).newops.out env cpu ↔
      i.Handled cpu := by
  have hnops := Emitter.emitsOps_nops (a + curr) i.prefixes.length 0
  obtain ⟨s, hrun, hcalls, hesp⟩ :=
    run_patchPort_of_isPic cfg.toConfig hnops env cpu hpic i.device i.func i.width
  rw [i.newops_patchup, hform, served_iff_request cfg hrun hcalls hesp]
  exact request_iff_of_isPic hform hpic cpu _

theorem served_string_iff (hform : i.form = .string) :
    Served cfg.toConfig i (a + curr)
      (patchup cfg.toConfig ⟨store mem a i.bytes, curr⟩ a b).newops.out env cpu ↔
      i.Handled cpu := by
  have hnops := Emitter.emitsOps_nops (a + curr) i.prefixes.length 0
  have hreg : i.bufferReg ≠ esp := by
    rw [PortInsn.bufferReg]
    split_ifs <;> decide
  obtain ⟨s, hrun, hcalls, hesp⟩ :=
    run_patchString cfg.toConfig hnops env cpu _ i.func i.width hreg
  rw [i.newops_patchup, hform, served_iff_request cfg hrun hcalls hesp]
  exact request_string_iff hform cpu

end Served

/-- **A port instruction is served right exactly when it meets the condition.** -/
theorem served_iff_handled (cfg : Linked) (i : PortInsn) (mem : Word → Byte) (a b curr : Word)
    (env : Returning) (cpu : Cpu) :
    Served cfg.toConfig i (a + curr)
      (patchup cfg.toConfig ⟨store mem a i.bytes, curr⟩ a b).newops.out env cpu ↔
      i.Handled cpu := by
  have hnops := Emitter.emitsOps_nops (a + curr) i.prefixes.length 0
  cases hform : i.form with
  | imm port =>
    by_cases hpic : isPic port = true
    · exact served_iff_of_isPic cfg mem a b curr env cpu hform hpic
    · rw [Bool.not_eq_true] at hpic
      obtain ⟨s, hrun, hcalls, hesp⟩ :=
        run_patchPort cfg.toConfig hnops env cpu hpic i.device i.func i.width
      rw [i.newops_patchup, hform, served_iff_request cfg hrun hcalls hesp]
      refine iff_of_true (request_imm hform cpu) ?_
      rw [PortInsn.Handled, hform]
      simp [hpic]
  | dx =>
    obtain ⟨s, hrun, hcalls, hesp⟩ :=
      run_patchPortDx cfg.toConfig hnops env cpu i.func i.width
    rw [i.newops_patchup, hform, served_iff_request cfg hrun hcalls hesp]
    refine iff_of_true (request_dx hform cpu) ?_
    rw [PortInsn.Handled, hform]
    trivial
  | string => exact served_string_iff cfg mem a b curr env cpu hform

def linkedConfig : Linked where
  wedge := .l4ka
  hardwareSegments := false
  strictIrq := false
  deviceApic := false
  calloutVcpulocal := false
  asserts := true
  kernelVaddr := 0
  burn := Burn.address
  cpu := fun _ => 0
  burnWriteCr := fun _ => 0
  suffixes := fun _ _ => 0
  modrm := fun _ => 0
  burn_injective := Burn.address_injective

def outsb : PortInsn := ⟨[], .string, false, false, by decide⟩
def outPic : PortInsn := ⟨[], .imm 0x20, false, true, by decide⟩
def idleCpu : Cpu := ⟨fun _ => 0, fun _ => 0⟩
def idleEnv : Returning := ⟨fun _ s => s, fun _ _ => rfl⟩

/-- **With `ecx` = 0, `outsb` asks its handler for no element, and a word to the interrupt
controller is given to the handler for bytes.** -/
theorem not_served_outsb :
    ¬ Served linkedConfig.toConfig outsb (0x1000 + 0)
        (patchup linkedConfig.toConfig ⟨store (fun _ => 0x90) 0x1000 outsb.bytes, 0⟩ 0x1000
          0x1010).newops.out idleEnv idleCpu ∧
      ¬ Served linkedConfig.toConfig outPic (0x1000 + 0)
        (patchup linkedConfig.toConfig ⟨store (fun _ => 0x90) 0x1000 outPic.bytes, 0⟩ 0x1000
          0x1010).newops.out idleEnv idleCpu := by
  constructor
  · rw [served_string_iff _ _ _ _ _ _ _ rfl]
    rintro (h | h)
    · cases h
    · cases h
  · rw [served_iff_of_isPic _ _ _ _ _ _ _ rfl rfl]
    intro h
    cases h rfl

end Rewrite
