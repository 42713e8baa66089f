import Afterburner.Wedge.PatchupCode

/-!
# Moves with a segment override

A move with `fs` or `gs` should be replaced by a call of a function that finds the base of the
segment. The prefix is gone before it is looked at, so what is left of a load takes the offset for
the value, and what is left of a store only pushes and pops.
-/

namespace Rewrite
open Ia32 Slots Function List Cpu Option

inductive SegOperand
  | modrm (m : Modrm) (suffixes : ℕ → Byte) (memory : m.mod ≠ 3)
  | moffs (offset : Word)

inductive SizePrefix
  | operand
  | address
  deriving DecidableEq

def SizePrefix.byte : SizePrefix → Byte
  | operand => 0x66
  | address => 0x67

/-- A `mov` with one segment override and any size prefixes on both sides of it. -/
structure SegMove where
  gs : Bool
  before : List SizePrefix
  after : List SizePrefix
  store : Bool
  operand : SegOperand
  length_le : before.length + after.length ≤ 15

/-- The registers of a 16-bit address: 3, 5, 6 and 7 are `BX`, `BP`, `SI` and `DI`. -/
def regs16 (m : Modrm) : List Reg :=
  if m.mod = 0 ∧ m.rm = 6 then []
  else [[3, 6], [3, 7], [5, 6], [5, 7], [6], [7], [5], [3]].getD m.rm.toNat []

/-- The 16-bit address of an operand. -/
def ea16 (m : Modrm) (suffixes : ℕ → Byte) (regs : Reg → Word) : Word :=
  let disp : Word :=
    if m.mod = 1 then (suffixes 0).signExtend 32
    else if m.mod = 2 ∨ m.mod = 0 ∧ m.rm = 6 then (suffixes 1 ++ suffixes 0).setWidth 32
    else 0
  (((regs16 m).map regs).sum + disp) &&& 0xffff

namespace SegMove
variable (i : SegMove)

def prefixes : List Byte :=
  i.before.map SizePrefix.byte ++ (if i.gs then 0x65 else 0x64) :: i.after.map SizePrefix.byte

def opcode : Byte :=
  match i.operand, i.store with
  | .modrm .., true => 0x89
  | .modrm .., false => 0x8b
  | .moffs _, true => 0xa3
  | .moffs _, false => 0xa1

def operands : List Byte :=
  match i.operand with
  | .modrm m suffixes _ => m.raw :: (range 6).map suffixes
  | .moffs offset => bytes32 offset

def bytes : List Byte := i.prefixes ++ i.opcode :: i.operands
def narrow : Bool := .operand ∈ i.before ++ i.after

def reg : Reg :=
  match i.operand with
  | .modrm m _ _ => m.reg
  | .moffs _ => eax

/-- The effective offset of the instruction. -/
def offset (cpu : Cpu) : Word :=
  let short := SizePrefix.address ∈ i.before ++ i.after
  match i.operand with
  | .modrm m suffixes _ =>
    if short then ea16 m suffixes cpu.regs
    else ((decodeAddr m ((range 6).map suffixes)).map fun d => d.1.ea cpu.regs).getD 0
  | .moffs offset => if short then offset &&& 0xffff else offset

/-- The offset that the new code takes, with `pushed` bytes on the stack: always a 32-bit address,
of which the rewriter encodes the displacement anew. -/
def taken (pushed : Word) (cpu : Cpu) : Word :=
  match i.operand with
  | .modrm m suffixes _ => ((decodeAddr m ((range 6).map suffixes)).map fun d =>
      (reencode m.mod pushed d.1).ea (below cpu.regs pushed)).getD 0
  | .moffs offset => offset

def linear (base : Segment → Word) (cpu : Cpu) : Word :=
  base (if i.gs then .gs else .fs) + i.offset cpu

/-- What a store has to leave in memory. -/
def agrees (v w : Word) : Prop := if i.narrow then v.setWidth 16 = w.setWidth 16 else v = w

/-- What a load has to leave in its register. -/
def loaded (base : Segment → Word) (cpu : Cpu) : Word :=
  let v := cpu.load32 (i.linear base cpu)
  if i.narrow then (cpu.regs i.reg).extractLsb' 16 16 ++ v.extractLsb' 0 16 else v

/-- The value is moved and the other registers are kept. -/
def Moved (base : Segment → Word) (addr : Word) (code : List Byte) (env : Word → Cpu → Cpu)
    (cpu : Cpu) : Prop :=
  ∃ s, runOps env addr code cpu = some s ∧
    if i.store then
      i.agrees (s.cpu.load32 (i.linear base cpu)) (cpu.regs i.reg) ∧
        ∀ r, s.cpu.regs r = cpu.regs r
    else s.cpu.regs i.reg = i.loaded base cpu ∧ ∀ r, r ≠ i.reg → s.cpu.regs r = cpu.regs r

/-- The machine with the register twice and the offset on the stack. -/
def scratch (cpu : Cpu) : Cpu :=
  let c := cpu.push (cpu.regs i.reg)
  let c := c.push (c.regs i.reg)
  match i.operand with
  | .modrm .. => (c.setReg i.reg (i.taken 8 cpu)).push (i.taken 8 cpu)
  | .moffs offset => c.push offset

/-- There is nothing to move: a load finds its offset in memory, a store its value, at least after
the pushes. `ESP` and, for the short form, the register of an uninitialised variable have to get
their own values by the last `pop`. -/
def Idle (cfg : Config) (site : Word) (base : Segment → Word) (cpu : Cpu) : Prop :=
  if i.store then
    i.agrees ((i.scratch cpu).load32 (i.linear base cpu)) (cpu.regs i.reg) ∧
      match i.operand with
      | .modrm m _ _ => m.reg = esp → (i.scratch cpu).load32 (i.taken 8 cpu + 4) = cpu.regs esp
      | .moffs _ => cpu.regs (Modrm.ofRaw (cfg.modrm site)).reg = cpu.regs eax
  else i.loaded base cpu = i.taken 0 cpu

end SegMove

/-- `add esp, 8; pop q` -/
def restore (c : Cpu) (q : Reg) : Cpu :=
  let d := c.setReg esp (c.regs esp + 8)
  d.pop.setReg q (d.load32 (d.regs esp))

theorem restore_of_param {c : Cpu} {v esp₀ : Word} (q : Reg) (hparam : c.param 2 = v)
    (hesp : c.regs esp = esp₀ - 12) :
    (restore c q).regs = update (update c.regs esp esp₀) q v := by
  have hsaved : (c.setReg esp (c.regs esp + 8)).load32 (c.regs esp + 8) = v := hparam
  have hback : c.regs esp + 8 + 4 = esp₀ := by
    rw [hesp]
    bv_omega
  unfold restore
  simp only [regs_setReg_self, hsaved]
  funext r
  by_cases hq : r = q
  · subst hq
    simp
  · by_cases hr : r = esp
    · subst hr
      simpa [hq] using hback
    · simp [hq, hr]

section Run

variable {e : Emitter} {addr : Word} {n : ℕ} (he : e.EmitsOps addr (replicate n .nop))
  (hoff : e.stackOffset = 0) (env : Word → Cpu → Cpu) (cpu : Cpu)

include he

theorem run_storeMoffs (offset : Word) (q : Reg) :
    ∃ s, runOps env addr (((((e.pushReg eax).pushReg eax).pushWord offset).cleanStack 8).popReg
        q).out cpu = some s ∧
      s.cpu = restore (((cpu.push (cpu.regs eax)).push (cpu.regs eax)).push offset) q := by
  rw [(((((he.pushReg eax).pushReg eax).pushWord offset).cleanStack 8).popReg q).runOps]
  refine ⟨_, rfl, ?_⟩
  simp only [foldl_append, foldl_cons, foldl_nil, foldl_nops, execOp_push,
    execOp_pushImm, execOp_addImm, execOp_pop, regs_push_of_ne _ _ (show eax ≠ esp by decide)]
  rfl

theorem run_loadMoffs (offset : Word) :
    ∃ s, runOps env addr ((e.pushWord offset).popReg eax).out cpu = some s ∧
      s.cpu.regs = update cpu.regs eax offset := by
  rw [((he.pushWord offset).popReg eax).runOps]
  refine ⟨_, rfl, ?_⟩
  simp only [foldl_append, foldl_cons, foldl_nil, foldl_nops, execOp_pushImm,
    execOp_pop, regs_push_pop]

include hoff
variable {m : Modrm} {suffixes : ℕ → Byte} {a : Addr} {rest : List Byte}
  (ha : decodeAddr m ((range 6).map suffixes) = some (a, rest))

include ha

theorem run_store :
    let c := cpu.push (cpu.regs m.reg)
    let x := (reencode m.mod 8 a).ea (below cpu.regs 8)
    ∃ s, runOps env addr ((((((e.pushReg m.reg).pushReg m.reg).leaModrm m.reg m suffixes).pushReg
        m.reg).cleanStack 8).popReg m.reg).out cpu = some s ∧
      s.cpu = restore (((c.push (c.regs m.reg)).setReg m.reg x).push x) m.reg := by
  intro c x
  have hregs : (c.push (c.regs m.reg)).regs = below cpu.regs 8 := by
    rw [regs_push, regs_push_esp, regs_push, update_idem, below, sub_sub]
    rfl
  rw [((((((he.pushReg m.reg).pushReg m.reg).leaModrm ha m.reg).pushReg m.reg).cleanStack
    8).popReg m.reg).runOps]
  refine ⟨_, rfl, ?_⟩
  have hpushed : ((e.pushReg m.reg).pushReg m.reg).stackOffset = 8 := by
    simp [Emitter.pushReg, hoff]
  simp only [foldl_append, foldl_cons, foldl_nil, foldl_nops, execOp_push,
    execOp_lea, execOp_addImm, execOp_pop, regs_setReg_self, hpushed]
  show restore (((c.push (c.regs m.reg)).setReg m.reg ((reencode m.mod 8 a).ea
    (c.push (c.regs m.reg)).regs)).push ((reencode m.mod 8 a).ea
    (c.push (c.regs m.reg)).regs)) m.reg = _
  rw [hregs]

theorem run_load :
    ∃ s, runOps env addr (((e.leaModrm m.reg m suffixes).pushReg m.reg).popReg m.reg).out cpu =
        some s ∧
      s.cpu.regs = update cpu.regs m.reg ((reencode m.mod 0 a).ea (below cpu.regs 0)) := by
  have hbelow : below cpu.regs 0 = cpu.regs := by rw [below, sub_zero, update_eq_self]
  rw [(((he.leaModrm ha m.reg).pushReg m.reg).popReg m.reg).runOps]
  refine ⟨_, rfl, ?_⟩
  simp only [foldl_append, foldl_cons, foldl_nil, foldl_nops, execOp_push,
    execOp_lea, execOp_pop, hoff, regs_setReg_self, regs_push_pop, hbelow]
  rw [setReg, update_idem]

end Run

theorem segPrefix_insn {st : PatchState} {a b : Word} {prefixes operands : List Byte}
    {opcode : Byte} (h : Placed st.mem a prefixes opcode operands) (hne : prefixes ≠ []) :
    (st.insn a b).segPrefix = opNop1 := by
  have hcount := (h.prefixes_insn (b := b)).1
  have hlength := h.length_lt
  have hpos := length_pos_of_ne_nil hne
  have hsub : (a + BitVec.ofNat 32 prefixes.length - 1 - a).toNat = prefixes.length - 1 := by
    bv_omega
  show store st.mem a (replicate (st.insn a b).prefixes.count opNop1)
    (a + BitVec.ofNat 32 (st.insn a b).prefixes.count - 1) = opNop1
  rw [hcount, store, getElem?_replicate, if_pos (by omega)]
  rfl

theorem callSegofs_of_nop {s : Insn} (h : s.segPrefix = opNop1) (cfg : Config) (e : Emitter)
    (func : Burn) : s.callSegofs cfg e func = e := by
  rw [Insn.callSegofs, h, if_neg (by decide)]

theorem assert_true (cfg : Config) (e : Emitter) (p : Patched) :
    Patched.assert cfg true e p = p := by
  simp [Patched.assert]

namespace SegMove
variable (i : SegMove)

def op : Opcode :=
  match i.operand, i.store with
  | .modrm .., true => .movTomem32
  | .modrm .., false => .movFrommem32
  | .moffs _, true => .movTosegofs
  | .moffs _, false => .movFromsegofs

theorem ofByte_opcode : Opcode.ofByte i.opcode = some i.op := by
  obtain ⟨gs, before, after, store, operand, -⟩ := i
  cases operand <;> cases store <;> rfl

def state (mem : Word → Byte) (a curr : Word) : PatchState := ⟨Slots.store mem a i.bytes, curr⟩

theorem placed (mem : Word → Byte) (a curr : Word) :
    Placed (i.state mem a curr).mem a i.prefixes i.opcode i.operands := by
  have hlen := i.length_le
  have hoperands : i.operands.length ≤ 7 := by
    rw [operands]
    split <;> simp [bytes32]
  refine placed_store mem a (fun b hb => ?_) ?_ ?_
  · have hsize (p : SizePrefix) : isPrefix p.byte = true := by cases p <;> rfl
    rcases mem_append.1 hb with hb | hb
    · obtain ⟨p, -, rfl⟩ := mem_map.1 hb
      exact hsize p
    · rcases mem_cons.1 hb with rfl | hb
      · split_ifs <;> rfl
      · obtain ⟨p, -, rfl⟩ := mem_map.1 hb
        exact hsize p
  · obtain ⟨gs, before, after, store, operand, -⟩ := i
    cases operand <;> cases store <;> exact ⟨rfl, rfl⟩
  · rw [prefixes, length_append, length_cons, length_map, length_map]
    omega

theorem prefixes_ne_nil : i.prefixes ≠ [] := by
  rw [prefixes]
  simp

section Newops
variable (cfg : Config) (mem : Word → Byte) (a b curr : Word)

def insn : Insn := (i.state mem a curr).insn a b
def emitter : Emitter := ⟨a + curr, replicate i.prefixes.length opNop1, 0⟩

theorem newops_patchup :
    (patchup cfg (i.state mem a curr) a b).newops =
      match i.operand, i.store with
      | .modrm .., true => ((i.insn mem a b curr).patchMovTomem32 cfg (i.emitter a curr)).newops
      | .modrm .., false => ((i.insn mem a b curr).patchMovFrommem32 cfg (i.emitter a curr)).newops
      | .moffs _, true => ((i.insn mem a b curr).patchMovTosegofs cfg (i.emitter a curr)).newops
      | .moffs _, false =>
        ((i.insn mem a b curr).patchMovFromsegofs cfg (i.emitter a curr)).newops := by
  have h := i.placed mem a curr
  have hsegment : ((i.state mem a curr).insn a b).prefixes.segment = true := by
    rw [(h.prefixes_insn (b := b)).2.2.2.1, prefixes]
    cases i.gs <;> simp
  rw [h.newops_patchup cfg i.ofByte_opcode]
  obtain ⟨gs, before, after, store, operand, hlen⟩ := i
  cases operand <;> cases store <;>
    simp only [op, Insn.patchOpcode, hsegment, assert_true] <;> rfl

theorem callSegofs_insn (e : Emitter) (func : Burn) :
    (i.insn mem a b curr).callSegofs cfg e func = e :=
  callSegofs_of_nop (segPrefix_insn (i.placed mem a curr) i.prefixes_ne_nil) cfg e func

section
variable {m : Modrm} {suffixes : ℕ → Byte} {memory : m.mod ≠ 3}
  (hoperand : i.operand = .modrm m suffixes memory)
include hoperand

theorem modrm_insn : (i.insn mem a b curr).modrm 1 = m := by
  have h := i.placed mem a curr
  rw [operands, hoperand] at h
  exact h.modrm_insn

theorem suffixes_insn :
    (range 6).map ((i.insn mem a b curr).suffixes 2) = (range 6).map suffixes := by
  have h := i.placed mem a curr
  rw [operands, hoperand] at h
  exact h.map_suffixes_insn

end

theorem word_insn {offset : Word} (hoperand : i.operand = .moffs offset) :
    (i.insn mem a b curr).word 1 = offset := by
  have h := i.placed mem a curr
  rw [operands, hoperand] at h
  have hbyte : ∀ k x, (bytes32 offset)[k]? = some x → (i.insn mem a b curr).suffixes 1 k = x := by
    intro k x hx
    refine h.suffixes_insn (j := 1) ?_
    rwa [Nat.add_comm 1 k]
  show le32 ((i.insn mem a b curr).suffixes 1 0) ((i.insn mem a b curr).suffixes 1 1)
    ((i.insn mem a b curr).suffixes 1 2) ((i.insn mem a b curr).suffixes 1 3) = offset
  rw [hbyte 0 _ rfl, hbyte 1 _ rfl, hbyte 2 _ rfl, hbyte 3 _ rfl]
  exact le32_extractLsb' offset

theorem emitsOps_emitter :
    (i.emitter a curr).EmitsOps (a + curr) (replicate i.prefixes.length .nop) :=
  Emitter.emitsOps_nops ..

variable (env : Word → Cpu → Cpu) (base : Segment → Word) (cpu : Cpu)

theorem run_patchup_store (hstore : i.store = true) :
    ∃ s, runOps env (a + curr) (patchup cfg (i.state mem a curr) a b).newops.out cpu = some s ∧
      s.cpu = restore (i.scratch cpu)
        (match i.operand with
          | .modrm m _ _ => m.reg
          | .moffs _ => (Modrm.ofRaw (cfg.modrm a)).reg) := by
  have he := i.emitsOps_emitter a curr
  rw [i.newops_patchup, hstore, scratch, taken, reg]
  cases hoperand : i.operand with
  | modrm m suffixes memory =>
    obtain ⟨a₀, rest, ha⟩ := exists_decodeAddr suffixes memory
    simp only [ha, map_some, getD_some]
    rw [← i.suffixes_insn mem a b curr hoperand] at ha
    simp only [Insn.patchMovTomem32, i.modrm_insn mem a b curr hoperand, i.callSegofs_insn]
    exact run_store he rfl env cpu ha
  | moffs offset =>
    have hsite : (i.insn mem a b curr).site = a := rfl
    simp only [Insn.patchMovTosegofs, i.word_insn mem a b curr hoperand, i.callSegofs_insn, hsite,
      regs_push_of_ne _ _ (show eax ≠ esp by decide)]
    exact run_storeMoffs he env cpu offset _

theorem run_patchup_load (hstore : i.store = false) :
    ∃ s, runOps env (a + curr) (patchup cfg (i.state mem a curr) a b).newops.out cpu = some s ∧
      s.cpu.regs = update cpu.regs i.reg (i.taken 0 cpu) := by
  have he := i.emitsOps_emitter a curr
  rw [i.newops_patchup, hstore, taken, reg]
  cases hoperand : i.operand with
  | modrm m suffixes memory =>
    obtain ⟨a₀, rest, ha⟩ := exists_decodeAddr suffixes memory
    simp only [ha, map_some, getD_some]
    rw [← i.suffixes_insn mem a b curr hoperand] at ha
    simp only [Insn.patchMovFrommem32, i.modrm_insn mem a b curr hoperand, i.callSegofs_insn]
    exact run_load he rfl env cpu ha
  | moffs offset =>
    simp only [Insn.patchMovFromsegofs, i.word_insn mem a b curr hoperand, i.callSegofs_insn]
    exact run_loadMoffs he env cpu offset

theorem moved_load_iff (hstore : i.store = false) :
    i.Moved base (a + curr) (patchup cfg (i.state mem a curr) a b).newops.out env cpu ↔
      i.loaded base cpu = i.taken 0 cpu := by
  obtain ⟨s, hrun, hregs⟩ := i.run_patchup_load cfg mem a b curr env cpu hstore
  have hne : ¬ i.store = true := by rw [hstore]; decide
  constructor
  · rintro ⟨s', hrun', h⟩
    obtain rfl := some.inj (hrun.symm.trans hrun')
    rw [if_neg hne, hregs, update_self] at h
    exact h.1.symm
  · intro h
    refine ⟨s, hrun, ?_⟩
    rw [if_neg hne, hregs, h]
    exact ⟨update_self .., fun r hr => update_of_ne hr ..⟩

end Newops

/-- The registers after a store of `r` by `ModRM`. -/
theorem regs_restore_modrm_iff (cpu : Cpu) (r : Reg) (x : Word) :
    let c := cpu.push (cpu.regs r)
    let d := ((c.push (c.regs r)).setReg r x).push x
    (∀ q, (restore d r).regs q = cpu.regs q) ↔ (r = esp → d.load32 (x + 4) = cpu.regs esp) := by
  intro c d
  by_cases hr : r = esp
  · subst hr
    have hesp : d.regs esp + 8 = x + 4 := by
      simp only [d, regs_push_esp, regs_setReg_self]
      bv_omega
    have hlast : (restore d esp).regs esp = d.load32 (x + 4) := by
      simp only [restore, regs_setReg_self, load32_setReg, hesp]
    refine ⟨fun h _ => hlast.symm.trans (h esp), fun h q => ?_⟩
    by_cases hq : q = esp
    · subst hq
      exact hlast.trans (h rfl)
    · simp [restore, hq, d, c]
  · refine iff_of_true (fun q => ?_) fun h => absurd h hr
    have hparam : d.param 2 = cpu.regs r := by
      simp only [d, c]
      rw [param_push_succ _ _ (by decide), param_setReg_of_ne _ _ hr,
        param_push_succ _ _ (by decide), param_push_zero]
    have hesp : d.regs esp = cpu.regs esp - 12 := by
      simp [d, c, Ne.symm hr]
      bv_omega
    rw [restore_of_param r hparam hesp]
    by_cases hq : q = r
    · subst hq
      exact update_self ..
    · by_cases hq' : q = esp
      · subst hq'
        simp [hq]
      · simp [hq, hq', d, c]

/-- The registers after a store of `EAX` by its short form. -/
theorem regs_restore_moffs_iff (cpu : Cpu) (q : Reg) (x : Word) :
    (∀ r, (restore (((cpu.push (cpu.regs eax)).push (cpu.regs eax)).push x) q).regs r =
      cpu.regs r) ↔ cpu.regs q = cpu.regs eax := by
  have hparam : (((cpu.push (cpu.regs eax)).push (cpu.regs eax)).push x).param 2 =
      cpu.regs eax := by
    rw [param_push_succ _ _ (by decide), param_push_succ _ _ (by decide), param_push_zero]
  have hesp : (((cpu.push (cpu.regs eax)).push (cpu.regs eax)).push x).regs esp =
      cpu.regs esp - 12 := by
    simp
    bv_omega
  rw [restore_of_param q hparam hesp]
  constructor
  · intro h
    have hq := h q
    rw [update_self] at hq
    exact hq.symm
  · intro h r
    by_cases hr : r = q
    · subst hr
      rw [update_self, h]
    · by_cases hr' : r = esp
      · subst hr'
        simp [hr]
      · simp [hr, hr']

end SegMove

/-- **A move with a segment override is done exactly where there is nothing to do.** -/
theorem moved_iff_idle (cfg : Config) (i : SegMove) (base : Segment → Word) (cpu : Cpu)
    (mem : Word → Byte) (a b curr : Word) (env : Word → Cpu → Cpu) :
    i.Moved base (a + curr) (patchup cfg (i.state mem a curr) a b).newops.out env cpu ↔
      i.Idle cfg a base cpu := by
  cases hstore : i.store with
  | true =>
    obtain ⟨s, hrun, hcpu⟩ := i.run_patchup_store cfg mem a b curr env cpu hstore
    have hregs : (∀ r, s.cpu.regs r = cpu.regs r) ↔
        match i.operand with
        | .modrm m _ _ => m.reg = esp → (i.scratch cpu).load32 (i.taken 8 cpu + 4) = cpu.regs esp
        | .moffs _ => cpu.regs (Modrm.ofRaw (cfg.modrm a)).reg = cpu.regs eax := by
      rw [hcpu, SegMove.scratch, SegMove.reg]
      cases i.operand with
      | modrm m suffixes memory => exact SegMove.regs_restore_modrm_iff cpu m.reg _
      | moffs offset =>
        simp only [regs_push_of_ne _ _ (show eax ≠ esp by decide)]
        exact SegMove.regs_restore_moffs_iff cpu _ offset
    have hmem : s.cpu.load32 (i.linear base cpu) = (i.scratch cpu).load32 (i.linear base cpu) := by
      rw [hcpu]
      rfl
    rw [SegMove.Idle, if_pos hstore, ← hregs, ← hmem]
    constructor
    · rintro ⟨s', hrun', h⟩
      obtain rfl := some.inj (hrun.symm.trans hrun')
      rwa [if_pos hstore] at h
    · intro h
      refine ⟨s, hrun, ?_⟩
      rwa [if_pos hstore]
  | false =>
    rw [SegMove.Idle, if_neg (by rw [hstore]; decide)]
    exact i.moved_load_iff cfg mem a b curr env base cpu hstore

def loadFs : SegMove := ⟨false, [], [], false, .moffs 0x1000, Nat.zero_le 15⟩

/-- **With zero in memory, the offset is in the register instead.** -/
theorem not_moved_loadFs :
    ¬ loadFs.Moved (fun _ => 0) (0x2000 + 0)
      (patchup l4kaConfig (loadFs.state (fun _ => 0x90) 0x2000 0) 0x2000 0x2010).newops.out
      (fun _ s => s) ⟨fun _ => 0, fun _ => 0⟩ := by
  rw [loadFs.moved_load_iff l4kaConfig _ _ _ _ _ _ _ rfl]
  decide

end Rewrite
