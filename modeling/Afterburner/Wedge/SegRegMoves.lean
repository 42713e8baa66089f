import Afterburner.Wedge.PatchupCode

/-!
# Moves of segment registers

A move of a virtual segment register is one of the word in its field, over the stack for a memory
operand.
-/

namespace Rewrite
open Ia32 Slots List BitVec

structure FieldConfig extends Config where
  hardwareSegments_eq : hardwareSegments = false
  calloutVcpulocal_eq : calloutVcpulocal = false

/-- A move of a segment register, with a number of operand-size prefixes. -/
structure SegRegMove where
  sizePrefixes : Fin 16
  toSeg : Bool
  seg : Segment
  mod : BitVec 2
  rm : Reg
  suffixes : ℕ → Byte

namespace SegRegMove
variable (i : SegRegMove)

def modrm : Modrm := ⟨i.mod, i.seg.reg, i.rm⟩
def prefixes : List Byte := replicate i.sizePrefixes 0x66
def opcode : Byte := if i.toSeg then 0x8e else 0x8c
def operands : List Byte := i.modrm.raw :: (range 6).map i.suffixes
def bytes : List Byte := i.prefixes ++ i.opcode :: i.operands

def ea (regs : Reg → Word) : Word :=
  ((decodeAddr i.modrm ((range 6).map i.suffixes)).map fun d => d.1.ea regs).getD 0

def EspBased : Prop :=
  i.modrm.mod ≠ 3 ∧ i.modrm.rm = 4 ∧ (Sib.ofRaw (i.suffixes 0)).base = esp

instance : Decidable i.EspBased := inferInstanceAs (Decidable (_ ∧ _ ∧ _))

/-- The word at the operand. -/
def source (cpu : Cpu) : Word :=
  if i.modrm.mod = 3 then cpu.regs i.modrm.rm else cpu.load32 (i.ea cpu.regs)

/-- How far from the operand the emitted PUSH reads: `push_modrm` raises the displacement of an
operand relative to ESP by 4, which wraps in a byte from 124 on. -/
def skew : Word :=
  if ¬ i.EspBased then 0
  else if i.modrm.mod = 1 ∧ 124 ≤ (i.suffixes 1).toInt then -252
  else 4

/-- The word that the emitted code moves to the field. -/
def fetched (cpu : Cpu) : Word :=
  if i.modrm.mod = 3 then cpu.regs i.modrm.rm else cpu.load32 (i.ea cpu.regs + i.skew)

def selected (field : Word) (cpu : Cpu) : Word :=
  let v := (cpu.load32 field).setWidth 16
  if 0 < i.sizePrefixes then (cpu.regs i.modrm.rm).extractLsb' 16 16 ++ v else v.setWidth 32

def Within (a : Word) (n : ℕ) (x : Word) : Prop := (x - a).toNat < n

instance (a : Word) (n : ℕ) (x : Word) : Decidable (Within a n x) :=
  inferInstanceAs (Decidable (_ < _))

/-- The operand has been moved to the field, or the field to the operand, and nothing else has
changed but the word below the stack. -/
def After (field : Word) (cpu cpu' : Cpu) : Prop :=
  if i.toSeg then
    cpu'.load32 field = ((i.source cpu).setWidth 16).setWidth 32 ∧ cpu'.regs = cpu.regs ∧
      ∀ x, ¬ Within field 4 x → ¬ Within (cpu.regs esp - 4) 4 x → cpu'.mem x = cpu.mem x
  else if i.modrm.mod = 3 then cpu' = cpu.setReg i.modrm.rm (i.selected field cpu)
  else
    (∀ k < 2, cpu'.mem (i.ea cpu.regs + BitVec.ofNat 32 k) = cpu.mem (field + BitVec.ofNat 32 k)) ∧
      cpu'.regs = cpu.regs ∧
      ∀ x, ¬ Within (i.ea cpu.regs) 2 x → ¬ Within (cpu.regs esp - 4) 4 x → cpu'.mem x = cpu.mem x

def Transferred (field addr : Word) (code : List Byte) (env : Word → Cpu → Cpu) (cpu : Cpu) :
    Prop :=
  ∃ s, runOps env addr code cpu = some s ∧ i.After field cpu s.cpu

/-- The 16 bits too many do not matter, and what is read beside an operand relative to ESP is the
operand. -/
def Clean (field : Word) (cpu : Cpu) : Prop :=
  if i.toSeg then i.fetched cpu = ((i.source cpu).setWidth 16).setWidth 32
  else if i.modrm.mod = 3 then
    (cpu.load32 field).extractLsb' 16 16 =
      if 0 < i.sizePrefixes then (cpu.regs i.modrm.rm).extractLsb' 16 16 else 0
  else
    ∀ k, 2 ≤ k → k < 4 → Within (cpu.regs esp - 4) 4 (i.ea cpu.regs + BitVec.ofNat 32 k) ∨
      cpu.mem (i.ea cpu.regs + BitVec.ofNat 32 k) = cpu.mem (field + BitVec.ofNat 32 k)

end SegRegMove
section Run

variable {e : Emitter} {addr : Word} {n : ℕ} (he : e.EmitsOps addr (replicate n .nop))
  (env : Word → Cpu → Cpu) (cpu : Cpu)

include he

theorem run_movRegToMem32 (r : Reg) (field : Word) :
    runOps env addr (e.movRegToMem32 r field).out cpu =
      some ⟨cpu.store32 field (cpu.regs r), []⟩ := by
  rw [(he.movRegToMem32 r field).runOps]
  simp only [foldl_append, foldl_cons, foldl_nil, foldl_nops, execOp_store,
    ea_disp32]

theorem run_movMem32ToReg (field : Word) (r : Reg) :
    runOps env addr (e.movMem32ToReg field r).out cpu =
      some ⟨cpu.setReg r (cpu.load32 field), []⟩ := by
  rw [(he.movMem32ToReg field r).runOps]
  simp only [foldl_append, foldl_cons, foldl_nil, foldl_nops, execOp_load, ea_disp32]

variable (hoff : e.stackOffset = 0) {m : Modrm} {suffixes : ℕ → Byte} {a : Addr} {rest : List Byte}
  (ha : decodeAddr m ((range 6).map suffixes) = some (a, rest))

include hoff ha

theorem run_pushModrm_popMem32 (field : Word) :
    let w := cpu.load32 ((reencode m.mod 4 a).ea cpu.regs)
    runOps env addr ((e.pushModrm m suffixes).popMem32 field).out cpu =
      some ⟨(cpu.store32 (cpu.regs esp - 4) w).store32 field w, []⟩ := by
  intro w
  rw [((he.pushModrm ha).popMem32 field).runOps]
  simp only [foldl_append, foldl_cons, foldl_nil, foldl_nops, execOp_pushMem,
    execOp_popMem, ea_disp32, hoff, Cpu.load32_push, Cpu.push_pop]
  rfl

theorem run_pushMem32_popModrm (field : Word) :
    let w := cpu.load32 field
    runOps env addr ((e.pushMem32 field).popModrm m suffixes).out cpu =
      some ⟨(cpu.store32 (cpu.regs esp - 4) w).store32 (a.ea cpu.regs) w, []⟩ := by
  intro w
  have hzero : (e.pushMem32 field).stackOffset - 4 = 0 := by
    show e.stackOffset + 4 - 4 = 0
    rw [hoff]
    rfl
  have hregs : (cpu.store32 (cpu.regs esp - 4) w).regs = cpu.regs := rfl
  rw [((he.pushMem32 field).popModrm ha).runOps]
  simp only [foldl_append, foldl_cons, foldl_nil, foldl_nops, execOp_pushMem,
    execOp_popMem, ea_disp32, hzero, Cpu.load32_push, Cpu.push_pop]
  rw [hregs, ea_reencode_zero ha]

end Run

theorem eq_append_setWidth_iff (v : Word) (h : BitVec 16) :
    v = h ++ v.setWidth 16 ↔ v.extractLsb' 16 16 = h := by
  constructor
  · intro heq
    apply eq_of_getLsbD_eq
    intro i hi
    have hge : ¬ 16 + i < 16 := by omega
    rw [heq, getLsbD_extractLsb', getLsbD_append, if_neg hge, decide_eq_true hi,
      Bool.true_and, Nat.add_sub_cancel_left]
  · rintro rfl
    apply eq_of_getLsbD_eq
    intro i hi
    rw [getLsbD_append]
    by_cases hlow : i < 16
    · simp [hlow]
    · have hhigh : i - 16 < 16 := by omega
      have hi' : 16 + (i - 16) = i := by omega
      simp [hlow, hhigh, hi']

theorem zero_append_setWidth (x : BitVec 16) : (0 : BitVec 16) ++ x = x.setWidth 32 := by
  apply eq_of_getLsbD_eq
  intro i hi
  rw [getLsbD_append]
  by_cases hlow : i < 16
  · simp [hlow, hi]
  · simp [hlow, x.getLsbD_of_ge i (by omega)]

theorem eq_setWidth_setWidth_iff (v : Word) :
    v = (v.setWidth 16).setWidth 32 ↔ v.extractLsb' 16 16 = 0 := by
  rw [← zero_append_setWidth]
  exact eq_append_setWidth_iff v 0

section Bytes
variable (cpu : Cpu) (x y w : Word)

theorem mem_store32_store32 {z : Word} (hx : ¬ SegRegMove.Within x 4 z)
    (hy : ¬ SegRegMove.Within y 4 z) : ((cpu.store32 y w).store32 x w).mem z = cpu.mem z := by
  rw [Cpu.mem_store32_of_le _ _ _ (not_lt.1 hx), Cpu.mem_store32_of_le _ _ _ (not_lt.1 hy)]

theorem mem_store32_load32 (cpu' : Cpu) {k : ℕ} (hk : k < 4) :
    (cpu'.store32 x (cpu.load32 y)).mem (x + BitVec.ofNat 32 k) =
      cpu.mem (y + BitVec.ofNat 32 k) := by
  have hnat : (BitVec.ofNat 32 k).toNat = k := by
    rw [toNat_ofNat, Nat.mod_eq_of_lt (by omega)]
  rw [Cpu.mem_store32_add _ _ _ (by omega), hnat, Cpu.extractLsb'_load32 _ _ hk]

end Bytes
namespace SegRegMove
variable (i : SegRegMove)
section After
variable (field : Word) (cpu : Cpu)

theorem after_toSeg_iff (htoSeg : i.toSeg = true) {w : Word} {cpu' : Cpu}
    (hregs : cpu'.regs = cpu.regs)
    (hmem : ∀ z, ¬ Within (cpu.regs esp - 4) 4 z → cpu'.mem z = cpu.mem z) :
    i.After field cpu (cpu'.store32 field w) ↔ w = ((i.source cpu).setWidth 16).setWidth 32 := by
  rw [After, if_pos htoSeg, Cpu.load32_store32_self]
  refine and_iff_left ⟨hregs, fun z hz hz' => ?_⟩
  rw [Cpu.mem_store32_of_le _ _ _ (not_lt.1 hz), hmem z hz']

theorem after_fromSeg_reg_iff (htoSeg : i.toSeg = false) (hmod : i.modrm.mod = 3) :
    i.After field cpu (cpu.setReg i.modrm.rm (cpu.load32 field)) ↔ i.Clean field cpu := by
  have hne : ¬ i.toSeg = true := by rw [htoSeg]; decide
  rw [After, Clean]
  have hset : cpu.setReg i.modrm.rm (cpu.load32 field) =
      cpu.setReg i.modrm.rm (i.selected field cpu) ↔ cpu.load32 field = i.selected field cpu := by
    refine ⟨fun h => ?_, fun h => by rw [← h]⟩
    have := congrArg (fun c => c.regs i.modrm.rm) h
    simpa using this
  rw [hset, selected]
  split_ifs
  · exact eq_append_setWidth_iff _ _
  · exact eq_setWidth_setWidth_iff _

theorem after_fromSeg_mem_iff (htoSeg : i.toSeg = false) (hmod : i.modrm.mod ≠ 3) :
    i.After field cpu ((cpu.store32 (cpu.regs esp - 4) (cpu.load32 field)).store32 (i.ea cpu.regs)
      (cpu.load32 field)) ↔ i.Clean field cpu := by
  have hne : ¬ i.toSeg = true := by rw [htoSeg]; decide
  rw [After, Clean, if_neg hne, if_neg hne, if_neg hmod, if_neg hmod]
  have hbyte {k : ℕ} (hk : k < 4) :=
    mem_store32_load32 cpu (i.ea cpu.regs) field
      (cpu.store32 (cpu.regs esp - 4) (cpu.load32 field)) hk
  have hnat {k : ℕ} (hk : k < 4) : (BitVec.ofNat 32 k).toNat = k := by
    rw [toNat_ofNat, Nat.mod_eq_of_lt (by omega)]
  constructor
  · rintro ⟨-, -, hframe⟩ k hk hk'
    by_cases hstack : Within (cpu.regs esp - 4) 4 (i.ea cpu.regs + BitVec.ofNat 32 k)
    · exact .inl hstack
    · have hout : ¬ Within (i.ea cpu.regs) 2 (i.ea cpu.regs + BitVec.ofNat 32 k) := by
        rw [Within, BitVec.add_comm, BitVec.add_sub_cancel, hnat hk']
        omega
      exact .inr ((hframe _ hout hstack).symm.trans (hbyte hk'))
  · intro h
    refine ⟨fun k hk => hbyte (by omega), rfl, fun z hz hz' => ?_⟩
    by_cases hin : Within (i.ea cpu.regs) 4 z
    · -- one of the two bytes behind the operand
      have heq : i.ea cpu.regs + BitVec.ofNat 32 (z - i.ea cpu.regs).toNat = z := by
        rw [ofNat_toNat, setWidth_eq, BitVec.add_comm, BitVec.sub_add_cancel]
      have hclean := h _ (not_lt.1 hz) hin
      rw [heq] at hclean
      have hthere := hbyte hin
      rw [heq] at hthere
      exact hthere.trans (hclean.resolve_left hz').symm
    · exact mem_store32_store32 cpu _ _ _ hin hz'

end After

def op : Opcode := if i.toSeg then .movToseg else .movFromseg

theorem ofByte_opcode : Opcode.ofByte i.opcode = some i.op := by
  rw [opcode, op]
  split_ifs <;> rfl

def state (mem : Word → Byte) (a curr : Word) : PatchState := ⟨Slots.store mem a i.bytes, curr⟩

theorem placed (mem : Word → Byte) (a curr : Word) :
    Placed (i.state mem a curr).mem a i.prefixes i.opcode i.operands := by
  have hlen := i.sizePrefixes.isLt
  refine placed_store mem a (fun b hb => ?_) ?_ ?_
  · rw [eq_of_mem_replicate hb]
    rfl
  · rw [opcode]
    split_ifs <;> exact ⟨rfl, rfl⟩
  · rw [prefixes, operands, length_replicate, length_cons, length_map,
      length_range]
    omega

section Newops
variable (cfg : FieldConfig) (mem : Word → Byte) (a b curr : Word)

def emitter : Emitter := ⟨a + curr, replicate i.prefixes.length opNop1, 0⟩

theorem emitsOps_emitter :
    (i.emitter a curr).EmitsOps (a + curr) (replicate i.prefixes.length .nop) :=
  Emitter.emitsOps_nops ..

def suffixesRead : ℕ → Byte := ((i.state mem a curr).insn a b).suffixes 2

theorem newops_patchup :
    (patchup cfg.toConfig (i.state mem a curr) a b).newops =
      let e := i.emitter a curr
      let field := cfg.cpu (.seg i.seg)
      let suffixes := i.suffixesRead mem a b curr
      if i.toSeg then
        if i.modrm.mod = 3 then e.movRegToMem32 i.modrm.rm field
        else (e.pushModrm i.modrm suffixes).popMem32 field
      else
        if i.modrm.mod = 3 then e.movMem32ToReg field i.modrm.rm
        else (e.pushMem32 field).popModrm i.modrm suffixes := by
  have h := i.placed mem a curr
  have hmodrm : ((i.state mem a curr).insn a b).modrm 1 = i.modrm := h.modrm_insn
  rw [h.newops_patchup cfg.toConfig i.ofByte_opcode, op]
  by_cases htoSeg : i.toSeg = true
  · simp only [if_pos htoSeg, Insn.patchOpcode, Insn.unlessHardwareSegments,
      cfg.hardwareSegments_eq, hmodrm, Emitter.newopsMovToseg, cfg.calloutVcpulocal_eq,
      show Segment.ofReg i.modrm.reg = some i.seg from i.seg.ofReg_reg]
    rfl
  · simp only [if_neg htoSeg, Insn.patchOpcode, Insn.unlessHardwareSegments,
      cfg.hardwareSegments_eq, hmodrm, Emitter.newopsMovfromseg, cfg.calloutVcpulocal_eq,
      show Segment.ofReg i.modrm.reg = some i.seg from i.seg.ofReg_reg]
    rfl

theorem map_suffixesRead :
    (range 6).map (i.suffixesRead mem a b curr) = (range 6).map i.suffixes :=
  (i.placed mem a curr).map_suffixes_insn

theorem exists_operand (hmod : i.modrm.mod ≠ 3) :
    ∃ a₀ rest,
      decodeAddr i.modrm ((range 6).map (i.suffixesRead mem a b curr)) = some (a₀, rest) ∧
      ∀ regs, i.ea regs = a₀.ea regs := by
  obtain ⟨a₀, rest, ha⟩ := exists_decodeAddr i.suffixes hmod
  refine ⟨a₀, rest, by rw [i.map_suffixesRead]; exact ha, fun regs => ?_⟩
  simp only [ea, ha]
  rfl

theorem signExtend_add_four (x : Byte) : (x + 4).signExtend 32 =
    x.signExtend 32 + if 124 ≤ x.toInt then (-252 : Word) else 4 := by
  revert x
  decide

theorem ea_reencode {a₀ : Addr} {rest : List Byte}
    (ha : decodeAddr i.modrm ((range 6).map (i.suffixesRead mem a b curr)) = some (a₀, rest))
    (regs : Reg → Word) : (reencode i.modrm.mod 4 a₀).ea regs = a₀.ea regs + i.skew := by
  rw [i.map_suffixesRead] at ha
  have hmod := mod_ne_of_decodeAddr ha
  have hnames := names_of_decodeAddr ha
  by_cases hesp : i.EspBased
  · obtain ⟨-, hrm, hsib⟩ := hesp
    rw [reencode, if_pos (hnames.base_esp.2 ⟨hrm, hsib⟩), skew,
      if_neg (not_not.2 ⟨hmod, hrm, hsib⟩)]
    simp only [Addr.ea, BitVec.add_assoc]
    congr 2
    rcases mod_cases i.modrm.mod hmod with h | h | h
    · rw [disp_of_decodeAddr ha h hrm hsib, h, if_neg (by decide), if_neg fun h => by cases h.1]
      rfl
    · rw [hnames.disp h hrm, setWidth_signExtend, h]
      simpa using signExtend_add_four (i.suffixes 1)
    · simp [h]
  · rw [reencode, if_neg fun hbase => hesp ⟨hmod, hnames.base_esp.1 hbase⟩, skew, if_pos hesp,
      add_zero]

variable (env : Word → Cpu → Cpu) (cpu : Cpu)

theorem transferred_iff_of_run {field addr : Word} {code : List Byte} {s : Trace}
    (h : runOps env addr code cpu = some s) :
    i.Transferred field addr code env cpu ↔ i.After field cpu s.cpu := by
  constructor
  · rintro ⟨s', hrun, hafter⟩
    obtain rfl := Option.some.inj (h.symm.trans hrun)
    exact hafter
  · exact fun hafter => ⟨s, h, hafter⟩

abbrev Rewritten : Prop :=
  i.Transferred (cfg.cpu (.seg i.seg)) (a + curr)
    (patchup cfg.toConfig (i.state mem a curr) a b).newops.out env cpu

theorem rewritten_toSeg_reg_iff (htoSeg : i.toSeg = true) (hmod : i.modrm.mod = 3) :
    i.Rewritten cfg mem a b curr env cpu ↔ i.Clean (cfg.cpu (.seg i.seg)) cpu := by
  have hrun :=
    run_movRegToMem32 (i.emitsOps_emitter a curr) env cpu i.modrm.rm (cfg.cpu (.seg i.seg))
  rw [Rewritten, i.newops_patchup, if_pos htoSeg, if_pos hmod,
    i.transferred_iff_of_run env cpu hrun,
    i.after_toSeg_iff _ _ htoSeg rfl fun _ _ => rfl, Clean, if_pos htoSeg, fetched, if_pos hmod]

theorem rewritten_toSeg_mem_iff (htoSeg : i.toSeg = true) (hmod : i.modrm.mod ≠ 3) :
    i.Rewritten cfg mem a b curr env cpu ↔ i.Clean (cfg.cpu (.seg i.seg)) cpu := by
  obtain ⟨a₀, rest, ha, hea⟩ := i.exists_operand mem a b curr hmod
  have hrun := run_pushModrm_popMem32 (i.emitsOps_emitter a curr) env cpu rfl ha
    (cfg.cpu (.seg i.seg))
  rw [Rewritten, i.newops_patchup, if_pos htoSeg, if_neg hmod,
    i.transferred_iff_of_run env cpu hrun, Clean, if_pos htoSeg, fetched, if_neg hmod, hea,
    ← i.ea_reencode mem a b curr ha]
  exact i.after_toSeg_iff _ _ htoSeg rfl fun z hz => Cpu.mem_store32_of_le _ _ _ (not_lt.1 hz)

theorem rewritten_fromSeg_iff (htoSeg : i.toSeg = false) :
    i.Rewritten cfg mem a b curr env cpu ↔ i.Clean (cfg.cpu (.seg i.seg)) cpu := by
  have hne : ¬ i.toSeg = true := by rw [htoSeg]; decide
  have he := i.emitsOps_emitter a curr
  rw [Rewritten, i.newops_patchup, if_neg hne]
  by_cases hmod : i.modrm.mod = 3
  · have hrun := run_movMem32ToReg he env cpu (cfg.cpu (.seg i.seg)) i.modrm.rm
    rw [if_pos hmod, i.transferred_iff_of_run env cpu hrun]
    exact i.after_fromSeg_reg_iff _ _ htoSeg hmod
  · obtain ⟨a₀, rest, ha, hea⟩ := i.exists_operand mem a b curr hmod
    have hrun := run_pushMem32_popModrm he env cpu rfl ha (cfg.cpu (.seg i.seg))
    rw [if_neg hmod, i.transferred_iff_of_run env cpu hrun, ← hea]
    exact i.after_fromSeg_mem_iff _ _ htoSeg hmod

end Newops
end SegRegMove

def fieldConfig : FieldConfig := ⟨l4kaConfig, rfl, rfl⟩
def loadDsStack : SegRegMove := ⟨0, true, .ds, 0, 4, fun _ => 0x24⟩
def storeDs : SegRegMove := ⟨0, false, .ds, 0, 3, fun _ => 0⟩
def byteAt (a : Word) : Cpu := ⟨fun _ => 0x1000, fun x => if x = a then 0x10 else 0⟩

end Rewrite
