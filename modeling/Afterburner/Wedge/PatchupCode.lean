import Afterburner.Lib.Ia32Ops
import Afterburner.Wedge.Patchup
import Afterburner.Wedge.RewriteOperand

/-!
# What a rewritten slot does

The code that `apply_patchup` leaves in a slot, as instructions of the machine.
-/

namespace Rewrite
open Ia32 Slots List

def isPrefix (b : Byte) : Bool :=
  b = 0xf0 || b = 0xf2 || b = 0xf3 || b = 0x66 || b = 0x67 || b = 0x64 || b = 0x65

def isSegmentPrefix (b : Byte) : Bool := b = 0x2e || b = 0x36 || b = 0x3e || b = 0x26

def Prefixes.add (p : Prefixes) (b : Byte) : Prefixes :=
  { count := p.count + 1
    rep := p.rep || b = 0xf3
    repne := p.repne || b = 0xf2
    operandSize := p.operandSize || b = 0x66
    segment := p.segment || b = 0x64 || b = 0x65
    ignored := p.ignored
    reports := p.reports ++
      if b = 0xf0 then [.lockIgnored] else if b = 0xf2 then [.repneNotSupported]
      else if b = 0x64 ∨ b = 0x65 then [.segmentPrefix] else [] }

variable {mem : Word → Byte} {fuel : ℕ} {opstream : Word} {p : Prefixes}

theorem scanPrefixes_succ (h : isPrefix (mem opstream) = true) :
    scanPrefixes mem (fuel + 1) opstream p =
      scanPrefixes mem fuel (opstream + 1) (p.add (mem opstream)) := by
  rw [scanPrefixes]
  generalize mem opstream = b at h
  simp only [isPrefix, Bool.or_eq_true, decide_eq_true_eq] at h
  rcases h with (((((rfl | rfl) | rfl) | rfl) | rfl) | rfl) | rfl <;>
    simp [Prefixes.add]

theorem scanPrefixes_stop (h : isPrefix (mem opstream) = false)
    (h' : isSegmentPrefix (mem opstream) = false) : scanPrefixes mem fuel opstream p = p := by
  cases fuel with
  | zero => rfl
  | succ fuel =>
    rw [scanPrefixes]
    simp only [isPrefix, isSegmentPrefix, Bool.or_eq_false_iff, decide_eq_false_iff_not] at h h'
    obtain ⟨⟨⟨⟨⟨⟨h0, h1⟩, h2⟩, h3⟩, h4⟩, h5⟩, h6⟩ := h
    obtain ⟨⟨⟨h7, h8⟩, h9⟩, h10⟩ := h'
    simp only [h0, h1, h2, h3, h4, h5, h6, h7, h8, h9, h10, or_self, if_false]

theorem scanPrefixes_ignore (h : isSegmentPrefix (mem opstream) = true) :
    (scanPrefixes mem (fuel + 1) opstream p).count = p.count + 1 ∧
      (scanPrefixes mem (fuel + 1) opstream p).ignored = true := by
  rw [scanPrefixes]
  generalize mem opstream = b at h
  simp only [isSegmentPrefix, Bool.or_eq_true, decide_eq_true_eq] at h
  rcases h with ((rfl | rfl) | rfl) | rfl <;> simp

theorem scanPrefixes_of_prefixes {a : Word} {prefixes : List Byte}
    (hbytes : ∀ i x, prefixes[i]? = some x → mem (a + BitVec.ofNat 32 i) = x)
    (hprefixes : ∀ b ∈ prefixes, isPrefix b = true) (fuel : ℕ) (p : Prefixes) :
    scanPrefixes mem (prefixes.length + fuel) a p =
      scanPrefixes mem fuel (a + BitVec.ofNat 32 prefixes.length)
        (prefixes.foldl Prefixes.add p) := by
  induction prefixes generalizing a p with
  | nil => simp
  | cons b prefixes ih =>
    have hb : mem a = b := by
      have := hbytes 0 b rfl
      rwa [BitVec.add_zero] at this
    have hrest : ∀ i x, prefixes[i]? = some x → mem (a + 1 + BitVec.ofNat 32 i) = x := by
      intro i x hx
      have := hbytes (i + 1) x hx
      rwa [Nat.add_comm i 1, BitVec.ofNat_add, ← BitVec.add_assoc] at this
    have hprefix := hprefixes b mem_cons_self
    rw [← hb] at hprefix
    rw [length_cons, Nat.add_right_comm, scanPrefixes_succ hprefix,
      ih hrest fun b hb => hprefixes b (mem_cons_of_mem _ hb), hb, foldl_cons,
      Nat.add_comm prefixes.length 1, BitVec.ofNat_add, ← BitVec.add_assoc]
    rfl

structure Placed (mem : Word → Byte) (a : Word) (prefixes : List Byte) (opcode : Byte)
    (operands : List Byte) : Prop where
  bytes : ∀ i x, (prefixes ++ opcode :: operands)[i]? = some x → mem (a + BitVec.ofNat 32 i) = x
  prefixes_ok : ∀ b ∈ prefixes, isPrefix b = true
  opcode_ok : isPrefix opcode = false ∧ isSegmentPrefix opcode = false
  length_lt : prefixes.length + operands.length < 2 ^ 31

theorem placed_store (mem : Word → Byte) (a : Word) {prefixes operands : List Byte} {opcode : Byte}
    (hprefixes : ∀ b ∈ prefixes, isPrefix b = true)
    (hopcode : isPrefix opcode = false ∧ isSegmentPrefix opcode = false)
    (hlength : prefixes.length + operands.length < 2 ^ 31) :
    Placed (store mem a (prefixes ++ opcode :: operands)) a prefixes opcode operands where
  bytes := by
    intro i x hx
    have hi := (List.getElem?_eq_some_iff.1 hx).1
    rw [length_append, length_cons] at hi
    exact store_add (by omega) hx
  prefixes_ok := hprefixes
  opcode_ok := hopcode
  length_lt := hlength

namespace Placed
variable {mem : Word → Byte} {a b : Word} {prefixes operands : List Byte} {opcode : Byte}

theorem scanPrefixes_eq (h : Placed mem a prefixes opcode operands) {fuel : ℕ}
    (hfuel : prefixes.length ≤ fuel) (p : Prefixes) :
    scanPrefixes mem fuel a p = prefixes.foldl Prefixes.add p := by
  have hop : mem (a + BitVec.ofNat 32 prefixes.length) = opcode := by
    refine h.bytes _ _ ?_
    rw [getElem?_append_right le_rfl, Nat.sub_self]
    rfl
  obtain ⟨h₁, h₂⟩ := h.opcode_ok
  rw [← hop] at h₁ h₂
  obtain ⟨rest, rfl⟩ := Nat.exists_eq_add_of_le hfuel
  rw [scanPrefixes_of_prefixes (fun i x hx => h.bytes i x ?_) h.prefixes_ok,
    scanPrefixes_stop h₁ h₂]
  rw [getElem?_append_left (List.getElem?_eq_some_iff.1 hx).1, hx]

end Placed

theorem foldl_add (prefixes : List Byte) (p : Prefixes) :
    (prefixes.foldl Prefixes.add p).count = p.count + prefixes.length ∧
      (prefixes.foldl Prefixes.add p).rep = (p.rep || decide (0xf3 ∈ prefixes)) ∧
      (prefixes.foldl Prefixes.add p).operandSize =
        (p.operandSize || decide (0x66 ∈ prefixes)) ∧
      (prefixes.foldl Prefixes.add p).segment =
        (p.segment || decide (0x64 ∈ prefixes) || decide (0x65 ∈ prefixes)) ∧
      (prefixes.foldl Prefixes.add p).ignored = p.ignored := by
  induction prefixes generalizing p with
  | nil => simp
  | cons b prefixes ih =>
    obtain ⟨hcount, hrep, hsize, hsegment, hignored⟩ := ih (p.add b)
    rw [foldl_cons]
    refine ⟨?_, ?_, ?_, ?_, hignored⟩
    · rw [hcount, length_cons]
      simp only [Prefixes.add]
      omega
    · rw [hrep]
      simp [Prefixes.add, mem_cons, Bool.or_assoc, eq_comm]
    · rw [hsize]
      simp [Prefixes.add, mem_cons, Bool.or_assoc, eq_comm]
    · rw [hsegment]
      simp [Prefixes.add, mem_cons, Bool.or_assoc, Bool.or_left_comm, eq_comm]

namespace Placed
variable {st : PatchState} {a b : Word} {prefixes operands : List Byte} {opcode : Byte}

section
variable (h : Placed st.mem a prefixes opcode operands)
include h

theorem prefixes_insn :
    (st.insn a b).prefixes.count = prefixes.length ∧
      (st.insn a b).prefixes.rep = decide (0xf3 ∈ prefixes) ∧
      (st.insn a b).prefixes.operandSize = decide (0x66 ∈ prefixes) ∧
      (st.insn a b).prefixes.segment = (decide (0x64 ∈ prefixes) || decide (0x65 ∈ prefixes)) ∧
      (st.insn a b).prefixes.ignored = false := by
  have hscan : (st.insn a b).prefixes = prefixes.foldl Prefixes.add Prefixes.empty :=
    h.scanPrefixes_eq (by have := h.length_lt; omega) _
  obtain ⟨hcount, hrep, hsize, hsegment, hignored⟩ := foldl_add prefixes Prefixes.empty
  rw [hscan]
  exact ⟨hcount.trans (Nat.zero_add _), hrep, hsize, hsegment, hignored⟩

theorem mem_insn {k : ℕ} {x : Byte} (hx : (opcode :: operands)[k]? = some x) :
    (st.insn a b).mem ((st.insn a b).opstream + BitVec.ofNat 32 k) = x := by
  have hcount := (h.prefixes_insn (b := b)).1
  have hlength := h.length_lt
  have hk := (List.getElem?_eq_some_iff.1 hx).1
  rw [length_cons] at hk
  have haddr : (st.insn a b).opstream + BitVec.ofNat 32 k =
      a + BitVec.ofNat 32 (prefixes.length + k) := by
    show a + BitVec.ofNat 32 (st.insn a b).prefixes.count + _ = _
    rw [hcount, BitVec.ofNat_add, BitVec.add_assoc]
  rw [haddr]
  show store st.mem a (replicate (st.insn a b).prefixes.count opNop1) _ = x
  rw [hcount, store_of_length_le]
  · refine h.bytes _ x ?_
    rwa [getElem?_append_right (by omega), Nat.add_sub_cancel_left]
  · rw [BitVec.add_comm, BitVec.add_sub_cancel, BitVec.toNat_ofNat, length_replicate,
      Nat.mod_eq_of_lt (by omega)]
    omega

theorem suffixes_insn {j k : ℕ} {x : Byte} (hx : (opcode :: operands)[j + k]? = some x) :
    (st.insn a b).suffixes (BitVec.ofNat 32 j) k = x := by
  have := h.mem_insn (b := b) hx
  rwa [BitVec.ofNat_add, ← BitVec.add_assoc] at this

end

section
variable {m : Modrm} {suffixes : ℕ → Byte}
  (h : Placed st.mem a prefixes opcode (m.raw :: (range 6).map suffixes))
include h

theorem modrm_insn : (st.insn a b).modrm 1 = m := by
  have hbyte : (st.insn a b).byte 1 = m.raw := h.mem_insn (k := 1) rfl
  rw [Insn.modrm, hbyte, Modrm.ofRaw_raw]

theorem map_suffixes_insn : (range 6).map ((st.insn a b).suffixes 2) = (range 6).map suffixes := by
  refine map_congr_left fun k hk => ?_
  refine h.suffixes_insn (j := 2) ?_
  rw [Nat.add_comm 2 k]
  show ((range 6).map suffixes)[k]? = some (suffixes k)
  rw [getElem?_map, getElem?_range (mem_range.1 hk)]
  rfl

end

theorem newops_patchup (cfg : Config) (h : Placed st.mem a prefixes opcode operands) {o : Opcode}
    (ho : Opcode.ofByte opcode = some o) :
    (patchup cfg st a b).newops = ((st.insn a b).patchOpcode cfg
      ⟨a + st.currVirtAddr, replicate prefixes.length opNop1, 0⟩ o).newops := by
  obtain ⟨hcount, -, -, -, hignored⟩ := h.prefixes_insn (b := b)
  have hbyte : (st.insn a b).byte 0 = opcode := h.mem_insn (k := 0) rfl
  rw [patchup_eq hignored (by rw [hbyte]; exact ho), hcount]
  rfl

end Placed

structure Emitter.EmitsOps (e : Emitter) (addr : Word) (ops : List Op) : Prop where
  start : e.start = addr
  decodes : Decoding.Decodes decodeOp addr e.out ops

namespace Emitter
variable {e : Emitter} {addr : Word} {ops : List Op}

theorem EmitsOps.put (h : e.EmitsOps addr ops) {b : List Byte} {o : Op} {off : Word}
    (hb : EncodesOp (addr + BitVec.ofNat 32 e.out.length) b o) :
    ({ e.put b with stackOffset := off } : Emitter).EmitsOps addr (ops ++ [o]) :=
  ⟨h.start, h.decodes.snoc hb⟩

theorem emitsOps_nops (addr : Word) (n : ℕ) (off : Word) :
    (⟨addr, replicate n opNop1, off⟩ : Emitter).EmitsOps addr (replicate n .nop) := by
  induction n with
  | zero => exact ⟨rfl, .nil addr⟩
  | succ n ih =>
    rw [replicate_succ', replicate_succ']
    exact ih.put (encodes_nop _)

section
variable (h : e.EmitsOps addr ops)

include h

theorem EmitsOps.stackOffset (off : Word) : { e with stackOffset := off }.EmitsOps addr ops :=
  ⟨h.start, h.decodes⟩

theorem EmitsOps.pushReg (r : Reg) : (e.pushReg r).EmitsOps addr (ops ++ [.instr (.push r)]) :=
  h.put (encodes_instr _ (encodes_push _ r))

theorem EmitsOps.popReg (r : Reg) : (e.popReg r).EmitsOps addr (ops ++ [.instr (.pop r)]) :=
  h.put (encodes_instr _ (encodes_pop _ r))

theorem EmitsOps.opCall (func : Word) :
    (e.opCall func).EmitsOps addr (ops ++ [.instr (.call func)]) := by
  have hb := encodes_instr _ (encodes_call (addr + BitVec.ofNat 32 e.out.length) func)
  rw [Emitter.opCall, h.start]
  exact h.put hb

theorem EmitsOps.pushByte (v : Byte) :
    (e.pushByte v).EmitsOps addr (ops ++ [.pushImm (v.signExtend 32)]) :=
  h.put (encodes_pushImm8 _ v)

variable (v : Word)

theorem EmitsOps.pushWord : (e.pushWord v).EmitsOps addr (ops ++ [.pushImm v]) :=
  h.put (encodes_pushImm32 _ v)

theorem EmitsOps.cleanStack (n : Byte) :
    (e.cleanStack n).EmitsOps addr (ops ++ [.addImm esp (n.signExtend 32)]) :=
  h.put (encodes_addImm _ esp n)

theorem EmitsOps.pushMem32 : (e.pushMem32 v).EmitsOps addr (ops ++ [.pushMem ⟨none, none, 0, v⟩]) :=
  h.put (encodes_pushMem _ rfl (decodeAddr_disp32 _ v))

theorem EmitsOps.popMem32 : (e.popMem32 v).EmitsOps addr (ops ++ [.popMem ⟨none, none, 0, v⟩]) :=
  h.put (encodes_popMem _ rfl (decodeAddr_disp32 _ v))

theorem EmitsOps.movMem32ToReg (r : Reg) :
    (e.movMem32ToReg v r).EmitsOps addr (ops ++ [.load r ⟨none, none, 0, v⟩]) :=
  h.put (encodes_load _ (decodeAddr_disp32 _ v))

theorem EmitsOps.movRegToMem32 (r : Reg) (v : Word) :
    (e.movRegToMem32 r v).EmitsOps addr (ops ++ [.store r ⟨none, none, 0, v⟩]) :=
  h.put (encodes_store _ (decodeAddr_disp32 _ v))

variable {m : Modrm} {suffixes : ℕ → Byte} {a : Addr} {rest : List Byte}
  (ha : decodeAddr m ((range 6).map suffixes) = some (a, rest))

include ha

theorem EmitsOps.putModrm (op : Byte) {o : Addr → Op}
    (hb : ∀ (m' : Modrm) (tail : List Byte) (a' : Addr), m'.reg = m.reg →
      (∀ rest, decodeAddr m' (tail ++ rest) = some (a', rest)) →
      EncodesOp (addr + BitVec.ofNat 32 e.out.length) (op :: m'.raw :: tail) (o a')) :
    (e.putModrm [op] m suffixes).EmitsOps addr (ops ++ [o (reencode m.mod e.stackOffset a)]) := by
  obtain ⟨m', tail, hreg, heq, hdec⟩ := appends (e.put [op]) ha
  have heq' : e.putModrm [op] m suffixes = e.put (op :: m'.raw :: tail) := by
    simpa [Emitter.putModrm, Emitter.put] using heq
  rw [heq']
  exact h.put (hb m' tail _ hreg hdec)

theorem EmitsOps.leaModrm (dst : Reg) : (e.leaModrm dst m suffixes).EmitsOps addr
    (ops ++ [.instr (.lea dst (reencode m.mod e.stackOffset a))]) :=
  h.putModrm (m := { m with reg := dst }) ha 0x8d (o := fun a => .instr (.lea dst a))
    fun m' _ _ hreg hdec => by
      have := encodes_lea (addr + BitVec.ofNat 32 e.out.length) hdec
      rw [hreg] at this
      exact encodes_instr _ this

theorem EmitsOps.pushModrm : (e.pushModrm m suffixes).EmitsOps addr
    (ops ++ [.pushMem (reencode m.mod (e.stackOffset + 4) a)]) :=
  (h.stackOffset (e.stackOffset + 4)).putModrm (m := { m with reg := 6 }) ha 0xff
    fun _ _ _ hreg hdec => encodes_pushMem _ hreg hdec

theorem EmitsOps.popModrm : (e.popModrm m suffixes).EmitsOps addr
    (ops ++ [.popMem (reencode m.mod (e.stackOffset - 4) a)]) :=
  (h.stackOffset (e.stackOffset - 4)).putModrm (m := { m with reg := 0 }) ha 0x8f
    fun _ _ _ hreg hdec => encodes_popMem _ hreg hdec

end

theorem EmitsOps.runOps (h : e.EmitsOps addr ops) (env : Word → Cpu → Cpu) (cpu : Cpu) :
    Ia32.runOps env addr e.out cpu = some (ops.foldl (execOp env) ⟨cpu, []⟩) :=
  Decoding.run_of_decodes _ h.decodes h.decodes.length_le _

end Emitter

@[simp] theorem foldl_nops (env : Word → Cpu → Cpu) (n : ℕ) (s : Trace) :
    (replicate n Op.nop).foldl (execOp env) s = s := by
  induction n with
  | zero => rfl
  | succ n ih => exact ih

end Rewrite
