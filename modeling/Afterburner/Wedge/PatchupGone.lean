import Afterburner.Wedge.PatchupCode
import Afterburner.Wedge.PatchupLength

/-!
# Instructions with prefixes

`apply_patchup` overwrites prefixes with `nop`, reads on without regard to the slot, and stops at a
CS, SS, DS or ES prefix as if done.
-/

namespace Rewrite
open Ia32 Slots List

def operandBytes (address16 : Bool) (m : Modrm) (sib : Byte) : ℕ :=
  if m.mod = 3 then 0
  else if address16 then
    if m.mod = 1 then 1 else if m.mod = 2 ∨ m.mod = 0 ∧ m.rm = 6 then 2 else 0
  else
    let noBase := if m.rm = 4 then (Sib.ofRaw sib).base = 5 else m.rm = 5
    (if m.rm = 4 then 1 else 0) +
      if m.mod = 1 then 1 else if m.mod = 2 ∨ m.mod = 0 ∧ noBase then 4 else 0

def Opcode2.length (address16 : Bool) (b₂ b₃ : Byte) : Opcode2 → ℕ
  | .lss | .lltl | .ldtl => 3 + operandBytes address16 (Modrm.ofRaw b₂) b₃
  | .movFromcreg | .movFromdreg | .movTocreg | .movTodreg => 3
  | _ => 2

def Opcode.length (operand16 address16 : Bool) (b₁ b₂ b₃ : Byte) : Opcode → ℕ
  | .int | .out | .outb | .inPort | .inb => 2
  | .jmpFar => if operand16 then 5 else 7
  | .movTomem32 | .movFrommem32 | .movToseg | .movFromseg =>
    2 + operandBytes address16 (Modrm.ofRaw b₁) b₂
  | .movTosegofs | .movFromsegofs => if address16 then 3 else 5
  | .twoByte =>
    match Opcode2.ofByte b₁ with
    | some o => o.length address16 b₂ b₃
    | none => 2
  | _ => 1

structure Sensitive where
  prefixes : List Byte
  opcode : Opcode
  rest : ℕ → Byte
  legal : ∀ b ∈ prefixes, isPrefix b = true ∨ isSegmentPrefix b = true
  length_le : prefixes.length ≤ 14

namespace Sensitive
variable (i : Sensitive)

def length : ℕ :=
  i.prefixes.length + i.opcode.length (decide (0x66 ∈ i.prefixes)) (decide (0x67 ∈ i.prefixes))
    (i.rest 0) (i.rest 1) (i.rest 2)

def operands : List Byte := (range 8).map i.rest

def state (mem : Word → Byte) (a curr : Word) : PatchState :=
  ⟨store mem a (i.prefixes ++ i.opcode.code :: i.operands), curr⟩

end Sensitive

def Opcode2.accesses : Opcode2 → List ℕ
  | .lss | .lltl | .ldtl => 2 :: range' 3 6
  | .movFromcreg | .movFromdreg | .movTocreg | .movTodreg => [2]
  | _ => []

def Opcode.accesses (cfg : Config) (segment : Bool) (b₁ : Byte) : Opcode → List ℕ
  | .int3 => if cfg.wedge = .l4ka then [] else [1]
  | .int | .out | .outb | .inPort | .inb => [1]
  | .jmpFar => range' 1 4 ++ range' 5 2
  | .movTomem32 | .movFrommem32 =>
    if cfg.asserts && !segment then [] else 1 :: range' 2 6
  -- six bytes are copied, of which none is used
  | .movTosegofs | .movFromsegofs =>
    if cfg.asserts && !segment then [] else range' 1 4 ++ range' 2 6
  | .movToseg | .movFromseg => if cfg.hardwareSegments then [] else 1 :: range' 2 6
  | .twoByte =>
    1 :: match Opcode2.ofByte b₁ with
      | some o => o.accesses
      | none => []
  | _ => []

def Insn.accesses (cfg : Config) (s : Insn) : List ℕ :=
  if s.prefixes.ignored then range s.prefixes.count
  else
    range (s.prefixes.count + 1) ++
      match Opcode.ofByte (s.byte 0) with
      | some o => (o.accesses cfg s.prefixes.segment (s.byte 1)).map (s.prefixes.count + ·)
      | none => []

def Opcode2.window : Opcode2 → ℕ
  | .lss | .lltl | .ldtl => 8
  | .movFromcreg | .movFromdreg | .movTocreg | .movTodreg => 2
  | _ => 1

def Opcode.window (cfg : Config) (segment : Bool) (b₁ : Byte) : Opcode → ℕ
  | .int3 => if cfg.wedge = .l4ka then 0 else 1
  | .int | .out | .outb | .inPort | .inb => 1
  | .jmpFar => 6
  | .movTomem32 | .movFrommem32 | .movTosegofs | .movFromsegofs =>
    if cfg.asserts && !segment then 0 else 7
  | .movToseg | .movFromseg => if cfg.hardwareSegments then 0 else 7
  | .twoByte =>
    match Opcode2.ofByte b₁ with
    | some o => o.window
    | none => 1
  | _ => 0

namespace Sensitive
variable (i : Sensitive) (cfg : Config) (mem : Word → Byte) (a b curr : Word)

def Replaced : Prop :=
  (applyPatchup cfg (i.state mem a curr) a b).2 = .returns true →
    ∀ k < i.length, (patchup cfg (i.state mem a curr) a b).Writes a (a + BitVec.ofNat 32 k)

def InSlot : Prop :=
  ∀ k ∈ ((i.state mem a curr).insn a b).accesses cfg, a.toNat + k < b.toNat

end Sensitive

def Opcode.Skips (cfg : Config) (b₁ b₂ : Byte) : Opcode → Prop
  | .movToseg | .movFromseg =>
    cfg.hardwareSegments = true ∨
      cfg.calloutVcpulocal = false ∧ Segment.ofReg (Modrm.ofRaw b₁).reg = none
  | .pushCs | .pushSs | .popSs | .pushDs | .popDs | .pushEs | .popEs => cfg.hardwareSegments = true
  | .twoByte =>
    match Opcode2.ofByte b₁ with
    | some .pushFs | some .popFs | some .pushGs | some .popGs => cfg.hardwareSegments = true
    | some .movFromcreg =>
      cfg.calloutVcpulocal = false ∧ Emitter.isCr (Modrm.ofRaw b₂).reg = false
    | _ => False
  | _ => False

def Sensitive.Decoded (i : Sensitive) (cfg : Config) (a b : Word) : Prop :=
  (∀ g ∈ i.prefixes, isSegmentPrefix g = false) ∧
    ¬ i.opcode.Skips cfg (i.rest 0) (i.rest 1) ∧
    a.toNat + i.prefixes.length + i.opcode.window cfg
      (decide (0x64 ∈ i.prefixes) || decide (0x65 ∈ i.prefixes)) (i.rest 0) < b.toNat

theorem Opcode.ofByte_code (o : Opcode) : Opcode.ofByte o.code = some o := by
  cases o <;> rfl

theorem Opcode.code_ok (o : Opcode) : isPrefix o.code = false ∧ isSegmentPrefix o.code = false := by
  cases o <;> exact ⟨rfl, rfl⟩

theorem accesses_lt_iff_of_mem {l : List ℕ} {w : ℕ} (hle : ∀ k ∈ l, k ≤ w)
    (hmem : w = 0 ∨ w ∈ l) (m n : ℕ) : (m < n ∧ ∀ k ∈ l, m + k < n) ↔ m + w < n := by
  constructor
  · rintro ⟨h, hall⟩
    rcases hmem with rfl | hw
    · exact h
    · exact hall w hw
  · intro h
    refine ⟨by omega, fun k hk => ?_⟩
    have := hle k hk
    omega

theorem Opcode2.accesses_le (o : Opcode2) : (∀ k ∈ 1 :: o.accesses, k ≤ o.window) ∧
    o.window ∈ 1 :: o.accesses := by
  cases o <;> decide

theorem Opcode.accesses_le (cfg : Config) (segment : Bool) (b₁ : Byte) (o : Opcode) :
    (∀ k ∈ o.accesses cfg segment b₁, k ≤ o.window cfg segment b₁) ∧
      (o.window cfg segment b₁ = 0 ∨ o.window cfg segment b₁ ∈ o.accesses cfg segment b₁) := by
  -- nothing is read after a failed assertion, or of segments that the hardware has
  have hguard {l : List ℕ} (hl : (∀ k ∈ l, k ≤ 7) ∧ 7 ∈ l) (c : Bool) :
      (∀ k ∈ (if c then [] else l), k ≤ if c then 0 else 7) ∧
        ((if c then 0 else 7) = 0 ∨ (if c then 0 else 7) ∈ if c then [] else l) := by grind
  have hmodrm := hguard (l := 1 :: range' 2 6) (by decide)
  have hmoffs := hguard (l := range' 1 4 ++ range' 2 6) (by decide)
  cases o with
  | int3 =>
    simp only [Opcode.accesses, Opcode.window]
    split_ifs <;> decide
  | movTomem32 => exact hmodrm _
  | movFrommem32 => exact hmodrm _
  | movTosegofs => exact hmoffs _
  | movFromsegofs => exact hmoffs _
  | movToseg => exact hmodrm _
  | movFromseg => exact hmodrm _
  | twoByte =>
    simp only [Opcode.accesses, Opcode.window]
    cases Opcode2.ofByte b₁ with
    | none => decide
    | some o => exact ⟨o.accesses_le.1, .inr o.accesses_le.2⟩
  | _ =>
    simp only [Opcode.accesses, Opcode.window]
    decide

structure Patched.Leaves (p : Patched) (e : Emitter) : Prop where
  newops : p.newops = e
  stores : p.stores = []
  exit : p.exit = .check ∨ p.exit = .null

theorem operandBytes_le (address16 : Bool) (m : Modrm) (suffixes : ℕ → Byte) :
    operandBytes address16 m (suffixes 0) ≤ operandLength m suffixes + 2 := by
  unfold operandBytes operandLength
  grind

namespace Insn
variable {cfg : Config} {s : Insn} {e : Emitter}

theorem suffixes_zero (k : Word) : s.suffixes k 0 = s.byte k := by
  simp [BitVec.ofNat, BitVec.add_zero, suffixes, byte]

variable (address16 : Bool)

theorem operandBytes_le_operandSize (k k' : Word) :
    operandBytes address16 (s.modrm k) (s.byte k') ≤ s.operandSize k k' + 2 := by
  rw [← suffixes_zero]
  exact operandBytes_le address16 _ _

theorem length_le_movSegSize {modrm : Modrm} (suffixes : ℕ → Byte)
    (h : ¬ (cfg.hardwareSegments = true ∨
      cfg.calloutVcpulocal = false ∧ Segment.ofReg modrm.reg = none)) :
    2 + operandBytes address16 modrm (suffixes 0) ≤
        (if cfg.hardwareSegments then 0 else movTosegSize cfg modrm suffixes) ∧
      2 + operandBytes address16 modrm (suffixes 0) ≤
        (if cfg.hardwareSegments then 0 else movFromsegSize cfg modrm suffixes) := by
  have hle := operandBytes_le address16 modrm suffixes
  have hzero : modrm.mod = 3 → operandBytes address16 modrm (suffixes 0) = 0 := fun h => if_pos h
  unfold movTosegSize movFromsegSize
  rw [← Option.not_isSome_iff_eq_none] at h
  grind

theorem three_le_movFromcregSize {modrm : Modrm} {suffixes : ℕ → Byte}
    (h : ¬ (cfg.calloutVcpulocal = false ∧ Emitter.isCr modrm.reg = false)) :
    3 ≤ movFromcregSize cfg modrm suffixes := by
  unfold movFromcregSize
  grind

theorem length2_le_size {o : Opcode2} {b₁ : Byte} (hb₁ : Opcode2.ofByte b₁ = some o)
    (hskips : ¬ Opcode.twoByte.Skips cfg b₁ (s.byte 2))
    (hexit : (s.patchOpcode2 cfg e o).exit ≠ .refused) :
    o.length address16 (s.byte 2) (s.byte 3) ≤ s.size2 cfg o := by
  have hoperand := s.operandBytes_le_operandSize address16 2 3
  unfold Opcode.Skips at hskips
  rw [hb₁] at hskips
  cases o with
  | lss =>
    show 3 + operandBytes address16 (s.modrm 2) (s.byte 3) ≤ 11 + 2 * s.operandSize 2 3
    omega
  | lltl =>
    have hreg : (s.modrm 2).reg = 1 ∨ (s.modrm 2).reg = 2 ∨ (s.modrm 2).reg = 3 := by
      by_contra hreg
      refine hexit ?_
      obtain ⟨h1, h2, h3⟩ : (s.modrm 2).reg ≠ 1 ∧ (s.modrm 2).reg ≠ 2 ∧ (s.modrm 2).reg ≠ 3 := by
        tauto
      unfold patchOpcode2 patchLltl
      rw [if_neg h3, if_neg h2, if_neg h1]
      rfl
    have hsize : s.size2 cfg .lltl = 10 + s.operandSize 2 3 := if_pos hreg
    show 3 + operandBytes address16 (s.modrm 2) (s.byte 3) ≤ _
    omega
  | ldtl =>
    have hreg : (s.modrm 2).reg ≠ 5 := by
      intro hreg
      refine hexit ?_
      unfold patchOpcode2 patchLdtl
      rw [(ldtlFunc_eq_none_iff _).2 hreg]
      rfl
    have hsize : s.size2 cfg .ldtl = 9 + s.operandSize 2 3 := if_neg hreg
    show 3 + operandBytes address16 (s.modrm 2) (s.byte 3) ≤ _
    omega
  | movFromcreg => exact three_le_movFromcregSize hskips
  | _ =>
    simp only [Opcode2.length, size2]
    grind

theorem length_le_size {o : Opcode} (operand16 address16 : Bool)
    (hskips : ¬ o.Skips cfg (s.byte 1) (s.byte 2))
    (hexit : (s.patchOpcode cfg e o).exit ≠ .refused) :
    o.length operand16 address16 (s.byte 1) (s.byte 2) (s.byte 3) ≤ s.size cfg o := by
  have hoperand : operandBytes address16 (Modrm.ofRaw (s.byte 1)) (s.byte 2) ≤ _ :=
    s.operandBytes_le_operandSize address16 1 2
  cases o with
  | movToseg =>
    have h := (length_le_movSegSize address16 (s.suffixes 2) hskips).1
    rwa [suffixes_zero] at h
  | movFromseg =>
    have h := (length_le_movSegSize address16 (s.suffixes 2) hskips).2
    rwa [suffixes_zero] at h
  | twoByte =>
    unfold Opcode.length size
    unfold patchOpcode at hexit
    cases ho : Opcode2.ofByte (s.byte 1) with
    | none =>
      rw [ho] at hexit
      exact absurd rfl hexit
    | some o =>
      rw [ho] at hexit
      exact length2_le_size address16 ho hskips hexit
  | _ =>
    simp only [Opcode.Skips] at hskips
    simp only [Opcode.length, size, segofsSize, portSize]
    grind

theorem leaves_of_hardwareSegments (p : Patched) (h : cfg.hardwareSegments = true) :
    (unlessHardwareSegments cfg e p).Leaves e := by
  rw [unlessHardwareSegments, if_pos h]
  exact ⟨rfl, rfl, .inl rfl⟩

theorem leaves_unlessHardwareSegments {p : Patched} (h : p.Leaves e) :
    (unlessHardwareSegments cfg e p).Leaves e := by
  rw [unlessHardwareSegments]
  split_ifs
  · exact ⟨rfl, rfl, .inl rfl⟩
  · exact h

theorem leaves_patchOpcode {o : Opcode} (h : o.Skips cfg (s.byte 1) (s.byte 2)) :
    (s.patchOpcode cfg e o).Leaves e := by
  cases o with
  | movToseg =>
    rcases h with hw | ⟨hv, hnone⟩
    · exact leaves_of_hardwareSegments _ hw
    · refine leaves_unlessHardwareSegments ?_
      have hnone' : Segment.ofReg (s.modrm 1).reg = none := hnone
      unfold Emitter.newopsMovToseg
      rw [hv, hnone']
      exact ⟨rfl, rfl, .inl rfl⟩
  | movFromseg =>
    rcases h with hw | ⟨hv, hnone⟩
    · exact leaves_of_hardwareSegments _ hw
    · refine leaves_unlessHardwareSegments ?_
      have hnone' : Segment.ofReg (s.modrm 1).reg = none := hnone
      unfold Emitter.newopsMovfromseg
      rw [hv, hnone']
      exact ⟨rfl, rfl, .inr rfl⟩
  | twoByte =>
    unfold Opcode.Skips at h
    unfold patchOpcode
    cases ho : Opcode2.ofByte (s.byte 1) with
    | none =>
      rw [ho] at h
      exact h.elim
    | some o =>
      rw [ho] at h
      cases o with
      | movFromcreg =>
        obtain ⟨hv, hcr⟩ := h
        have hcr' : Emitter.isCr (s.modrm 2).reg = false := hcr
        show (e.newopsMovfromcreg cfg (s.modrm 2) (cfg.suffixes s.site)).Leaves e
        unfold Emitter.newopsMovfromcreg
        rw [hv, hcr']
        exact ⟨rfl, rfl, .inl rfl⟩
      | _ => first | exact h.elim | exact leaves_of_hardwareSegments _ h
  | _ => first | exact h.elim | exact leaves_of_hardwareSegments _ h

end Insn

theorem exists_first_segmentPrefix {l : List Byte}
    (h : ∀ b ∈ l, isPrefix b = true ∨ isSegmentPrefix b = true) :
    (∀ b ∈ l, isPrefix b = true) ∨
      ∃ pre g post, l = pre ++ g :: post ∧ (∀ b ∈ pre, isPrefix b = true) ∧
        isSegmentPrefix g = true := by
  induction l with
  | nil => exact .inl fun b hb => absurd hb not_mem_nil
  | cons b l ih =>
    rcases h b mem_cons_self with hb | hb
    · rcases ih fun c hc => h c (mem_cons_of_mem b hc) with hall |
        ⟨pre, g, post, rfl, hpre, hg⟩
      · exact .inl (forall_mem_cons.2 ⟨hb, hall⟩)
      · exact .inr ⟨b :: pre, g, post, rfl, forall_mem_cons.2 ⟨hb, hpre⟩, hg⟩
    · exact .inr ⟨[], b, l, rfl, fun c hc => absurd hc not_mem_nil, hb⟩

theorem isSegmentPrefix_eq_false {b : Byte} (h : isPrefix b = true) :
    isSegmentPrefix b = false := by
  revert b
  decide

theorem Opcode.length_pos (operand16 address16 : Bool) (b₁ b₂ b₃ : Byte) (o : Opcode) :
    0 < o.length operand16 address16 b₁ b₂ b₃ := by
  cases o with
  | twoByte =>
    unfold Opcode.length
    cases Opcode2.ofByte b₁ with
    | none => exact two_pos
    | some o => cases o <;> simp [Opcode2.length]
  | _ => simp [Opcode.length] <;> split_ifs <;> decide

namespace Sensitive
variable {i : Sensitive} {cfg : Config} {mem : Word → Byte} {a b curr : Word}

theorem prefixes_length_lt (i : Sensitive) : i.prefixes.length < i.length :=
  Nat.lt_add_of_pos_right (Opcode.length_pos ..)

variable {p : Patched}

theorem returns_true {st : PatchState} (hexit : p.exit = .check ∨ p.exit = .null)
    (hroom : a.toNat + p.newops.out.length ≤ b.toNat) : (p.finish st a b).2 = .returns true := by
  have hle : a + BitVec.ofNat 32 p.newops.out.length ≤ b := by
    rw [BitVec.le_def, BitVec.toNat_add, BitVec.toNat_ofNat, Nat.add_mod_mod,
      Nat.mod_eq_of_lt (by omega)]
    exact hroom
  rcases hexit with hexit | hexit
  · simp_all [Patched.finish]
  · rw [Patched.finish, hexit]

theorem exit_of_returns_true {st : PatchState} (h : (p.finish st a b).2 = .returns true) :
    p.exit = .check ∨ p.exit = .null := by
  rw [Patched.finish] at h
  cases hexit : p.exit <;> simp_all

theorem not_replaced (hp : patchup cfg (i.state mem a curr) a b = p)
    (hlen : p.newops.out.length ≤ i.prefixes.length) (hstores : p.stores = [])
    (hexit : p.exit = .check ∨ p.exit = .null) (hroom : a.toNat + p.newops.out.length ≤ b.toNat) :
    ¬ i.Replaced cfg mem a b curr := by
  intro h
  have hlt := i.length_le
  have hverdict : (applyPatchup cfg (i.state mem a curr) a b).2 = .returns true := by
    rw [applyPatchup, hp]
    exact returns_true hexit hroom
  have hwrites := h hverdict i.prefixes.length i.prefixes_length_lt
  rw [hp, Patched.Writes, hstores, BitVec.add_comm, BitVec.add_sub_cancel, BitVec.toNat_ofNat,
    Nat.mod_eq_of_lt (by omega)] at hwrites
  rcases hwrites with hwrites | hwrites
  · omega
  · exact absurd hwrites not_mem_nil

theorem replaced_of_length
    (h : i.length ≤ (patchup cfg (i.state mem a curr) a b).newops.out.length) :
    i.Replaced cfg mem a b curr := by
  intro _ k hk
  refine .inl ?_
  rw [BitVec.add_comm, BitVec.add_sub_cancel]
  exact (Nat.mod_le _ _).trans_lt (hk.trans_le h)

theorem prefixes_of_segmentPrefix (mem : Word → Byte) (a b curr : Word) {pre post : List Byte}
    {g : Byte}
    (heq : i.prefixes = pre ++ g :: post) (hpre : ∀ b ∈ pre, isPrefix b = true)
    (hg : isSegmentPrefix g = true) :
    ((i.state mem a curr).insn a b).prefixes.count = pre.length + 1 ∧
      ((i.state mem a curr).insn a b).prefixes.ignored = true := by
  have hlen := i.length_le
  rw [heq, length_append, length_cons] at hlen
  have hbytes : ∀ k x, (pre ++ g :: post)[k]? = some x →
      (i.state mem a curr).mem (a + BitVec.ofNat 32 k) = x := by
    intro k x hx
    have hk := (List.getElem?_eq_some_iff.1 hx).1
    have hk' := hk
    rw [List.length_append, List.length_cons] at hk'
    refine store_add (by omega) ?_
    rw [heq, getElem?_append_left hk, hx]
  have hstop :
      isSegmentPrefix ((i.state mem a curr).mem (a + BitVec.ofNat 32 pre.length)) = true := by
    simp_all
  obtain ⟨fuel, hfuel⟩ : ∃ fuel, 2 ^ 32 = pre.length + (fuel + 1) :=
    ⟨2 ^ 32 - pre.length - 1, by omega⟩
  have hscan : ((i.state mem a curr).insn a b).prefixes =
      scanPrefixes (i.state mem a curr).mem (fuel + 1) (a + BitVec.ofNat 32 pre.length)
        (pre.foldl Prefixes.add Prefixes.empty) := by
    show scanPrefixes _ (2 ^ 32) a _ = _
    rw [hfuel]
    refine scanPrefixes_of_prefixes (fun k x hx => hbytes k x ?_) hpre _ _
    rw [List.getElem?_append_left (List.getElem?_eq_some_iff.1 hx).1, hx]
  obtain ⟨hcount, hignored⟩ : _ ∧ _ :=
    scanPrefixes_ignore (p := pre.foldl Prefixes.add Prefixes.empty) hstop
  rw [hscan]
  refine ⟨hcount.trans ?_, hignored⟩
  rw [(foldl_add pre Prefixes.empty).1]
  exact congrArg (· + 1) (Nat.zero_add _)

theorem not_replaced_of_segmentPrefix {g : Byte} (hmem : g ∈ i.prefixes)
    (hg : isSegmentPrefix g = true) (hslot : i.InSlot cfg mem a b curr) :
    ¬ i.Replaced cfg mem a b curr := by
  rcases exists_first_segmentPrefix i.legal with hall | ⟨pre, g, post, heq, hpre, hg⟩
  · simp_all [isSegmentPrefix_eq_false]
  · obtain ⟨hcount, hignored⟩ := prefixes_of_segmentPrefix mem a b curr heq hpre hg
    have hlast : a.toNat + pre.length < b.toNat := by
      refine hslot _ ?_
      rw [Insn.accesses, if_pos hignored, hcount]
      exact mem_range.2 (Nat.lt_succ_self _)
    have hlen : i.prefixes.length = pre.length + (post.length + 1) := by
      rw [heq, length_append, length_cons]
    have hout : (replicate (pre.length + 1) opNop1).length = pre.length + 1 :=
      length_replicate
    rw [← hcount] at hout
    exact not_replaced (patchup_of_ignored hignored) (hout.trans_le (by omega)) rfl (.inl rfl)
      ((congrArg (a.toNat + ·) hout).trans_le (by omega))

section Placed
variable (hall : ∀ b ∈ i.prefixes, isPrefix b = true)

include hall

theorem placed : Placed (i.state mem a curr).mem a i.prefixes i.opcode.code i.operands := by
  have hlen := i.length_le
  refine placed_store mem a hall i.opcode.code_ok ?_
  rw [operands, length_map, length_range]
  omega

theorem byte_zero : ((i.state mem a curr).insn a b).byte 0 = i.opcode.code :=
  (placed hall).mem_insn (k := 0) rfl

theorem byte_succ {k : ℕ} (hk : k < 8) :
    ((i.state mem a curr).insn a b).byte (BitVec.ofNat 32 (k + 1)) = i.rest k := by
  refine (placed hall).mem_insn (k := k + 1) ?_
  show ((range 8).map i.rest)[k]? = _
  rw [getElem?_map, getElem?_range hk]
  rfl

theorem inSlot_iff : i.InSlot cfg mem a b curr ↔
    a.toNat + i.prefixes.length + i.opcode.window cfg
      (decide (0x64 ∈ i.prefixes) || decide (0x65 ∈ i.prefixes)) (i.rest 0) < b.toNat := by
  have hplaced : Placed (i.state mem a curr).mem a _ _ _ := placed hall
  obtain ⟨hcount, -, -, hsegment, hignored⟩ := hplaced.prefixes_insn (b := b)
  obtain ⟨hle, hmem⟩ := i.opcode.accesses_le cfg
    (decide (0x64 ∈ i.prefixes) || decide (0x65 ∈ i.prefixes)) (i.rest 0)
  have hbyte : ((i.state mem a curr).insn a b).byte 1 = i.rest 0 := byte_succ hall (by decide)
  have hne : ¬ ((i.state mem a curr).insn a b).prefixes.ignored = true := by
    rw [hignored]
    decide
  rw [← accesses_lt_iff_of_mem hle hmem, InSlot, Insn.accesses, if_neg hne, byte_zero hall,
    Opcode.ofByte_code, hcount, hsegment, hbyte]
  simp only [mem_append, mem_range, mem_map]
  constructor
  · intro h
    refine ⟨h _ (.inl (Nat.lt_succ_self _)), fun k hk => ?_⟩
    rw [Nat.add_assoc]
    exact h _ (.inr ⟨k, hk, rfl⟩)
  · rintro ⟨hlast, hrest⟩ k (hk | ⟨j, hj, rfl⟩)
    · omega
    · have := hrest j hj
      omega

theorem patchup_placed (cfg : Config) (mem : Word → Byte) (a b curr : Word) : ∃ reports,
    patchup cfg (i.state mem a curr) a b = { ((i.state mem a curr).insn a b).patchOpcode cfg
        ((i.state mem a curr).emitter a (replicate i.prefixes.length opNop1)) i.opcode with
      reports := reports } := by
  have hplaced : Placed (i.state mem a curr).mem a _ _ _ := placed hall
  obtain ⟨hcount, -, -, -, hignored⟩ := hplaced.prefixes_insn (b := b)
  have ho : Opcode.ofByte (((i.state mem a curr).insn a b).byte 0) = some i.opcode := by
    rw [byte_zero hall, Opcode.ofByte_code]
  rw [patchup_eq hignored ho, hcount]
  exact ⟨_, rfl⟩

theorem not_replaced_of_skips (hskips : i.opcode.Skips cfg (i.rest 0) (i.rest 1))
    (hslot : i.InSlot cfg mem a b curr) : ¬ i.Replaced cfg mem a b curr := by
  have hroom := (inSlot_iff hall).1 hslot
  obtain ⟨reports, hp⟩ := patchup_placed hall cfg mem a b curr
  have hb₁ : ((i.state mem a curr).insn a b).byte 1 = i.rest 0 := byte_succ hall (by decide)
  have hb₂ : ((i.state mem a curr).insn a b).byte 2 = i.rest 1 := byte_succ hall (by decide)
  rw [← hb₁, ← hb₂] at hskips
  have hleaves := Insn.leaves_patchOpcode (e := (i.state mem a curr).emitter a
    (replicate i.prefixes.length opNop1)) hskips
  have hlen : (replicate i.prefixes.length opNop1).length = i.prefixes.length :=
    length_replicate
  refine not_replaced hp ?_ hleaves.stores hleaves.exit ?_
  · rw [hleaves.newops]
    exact hlen.le
  · rw [hleaves.newops]
    show a.toNat + (replicate _ opNop1).length ≤ _
    omega

theorem replaced_of_not_skips (hskips : ¬ i.opcode.Skips cfg (i.rest 0) (i.rest 1)) :
    i.Replaced cfg mem a b curr := by
  intro hverdict
  obtain ⟨reports, hp⟩ := patchup_placed hall cfg mem a b curr
  have hplaced : Placed (i.state mem a curr).mem a _ _ _ := placed hall
  have hcount := (hplaced.prefixes_insn (b := b)).1
  have hb₁ : ((i.state mem a curr).insn a b).byte 1 = i.rest 0 := byte_succ hall (by decide)
  have hb₂ : ((i.state mem a curr).insn a b).byte 2 = i.rest 1 := byte_succ hall (by decide)
  have hb₃ : ((i.state mem a curr).insn a b).byte 3 = i.rest 2 := byte_succ hall (by decide)
  rw [← hb₁, ← hb₂] at hskips
  set s := (i.state mem a curr).insn a b with hs
  set e := (i.state mem a curr).emitter a (replicate i.prefixes.length opNop1) with he
  have hout : e.out.length = i.prefixes.length := length_replicate
  rw [applyPatchup, hp] at hverdict
  have hexit : (s.patchOpcode cfg e i.opcode).exit = .check ∨
      (s.patchOpcode cfg e i.opcode).exit = .null := exit_of_returns_true hverdict
  by_cases hint3 : i.opcode = .int3 ∧ cfg.wedge = .l4ka
  · -- the `int3` itself is overwritten with a `nop`
    obtain ⟨ho, hw⟩ := hint3
    have hlen : i.length = i.prefixes.length + 1 := by rw [length, ho]; rfl
    rw [hp, ho, Insn.patchOpcode_int3 cfg s e hw, hlen]
    intro k hk
    rcases Nat.lt_succ_iff_lt_or_eq.1 hk with hk | rfl
    · refine .inl ?_
      show (a + BitVec.ofNat 32 k - a).toNat < e.out.length
      rw [BitVec.add_comm, BitVec.add_sub_cancel, hout]
      exact (Nat.mod_le _ _).trans_lt hk
    · refine .inr (mem_cons_of_mem _ ?_)
      have hopstream : s.opstream = a + BitVec.ofNat 32 i.prefixes.length := by
        show a + BitVec.ofNat 32 s.prefixes.count = _
        rw [hcount]
      rw [← hopstream]
      exact mem_singleton_self _
  · have hemits := s.emits_patchOpcode cfg e fun h hw => hint3 ⟨h, hw⟩
    have hle := Insn.length_le_size (decide (0x66 ∈ i.prefixes)) (decide (0x67 ∈ i.prefixes))
      hskips (e := e) (by rcases hexit with h | h <;> rw [h] <;> decide)
    have hlen := hemits.length
    rw [if_neg (by rcases hexit with h | h <;> rw [h] <;> decide)] at hlen
    refine replaced_of_length ?_ (by rw [applyPatchup, hp]; exact hverdict)
    rw [hp, length, ← hb₁, ← hb₂, ← hb₃]
    show _ ≤ (s.patchOpcode cfg e i.opcode).newops.out.length
    omega

end Placed
end Sensitive

/-- **No byte of the instruction is left where the rewriting succeeds, and nothing behind the slot
is accessed, exactly if there is no CS, SS, DS or ES prefix, the instruction is not left alone, and
the slot is as long as what is read.** -/
theorem replaced_and_inSlot_iff (i : Sensitive) (cfg : Config) (mem : Word → Byte)
    (a b curr : Word) :
    i.Replaced cfg mem a b curr ∧ i.InSlot cfg mem a b curr ↔ i.Decoded cfg a b := by
  by_cases hseg : ∀ g ∈ i.prefixes, isSegmentPrefix g = false
  · have hall : ∀ g ∈ i.prefixes, isPrefix g = true := by
      intro g hg
      refine (i.legal g hg).resolve_right ?_
      rw [hseg g hg]
      decide
    rw [Sensitive.Decoded, Sensitive.inSlot_iff hall]
    constructor
    · rintro ⟨hreplaced, hroom⟩
      refine ⟨hseg, fun hskips => ?_, hroom⟩
      exact Sensitive.not_replaced_of_skips hall hskips ((Sensitive.inSlot_iff hall).2 hroom)
        hreplaced
    · simp_all [Sensitive.replaced_of_not_skips]
  · refine iff_of_false ?_ fun h => hseg h.1
    rintro ⟨hreplaced, hslot⟩
    push Not at hseg
    obtain ⟨g, hmem, hg⟩ := hseg
    exact Sensitive.not_replaced_of_segmentPrefix hmem (Bool.eq_true_of_not_eq_false hg) hslot
      hreplaced

def csHlt : Sensitive := ⟨[0x2e], .hlt, fun _ => 0x90, by decide, Nat.le_add_left 1 13⟩
def movDsAx : Sensitive := ⟨[], .movToseg, fun _ => 0xd8, forall_mem_nil _, Nat.zero_le 14⟩

/-- **The `hlt` is still there when `apply_patchup` has returned true. In a slot of six bytes, which
the code for `mov ds, ax` needs, two bytes behind it are read.** -/
theorem not_replaced_csHlt :
    (¬ (csHlt.Replaced l4kaConfig (fun _ => 0x90) 0x1000 0x1010 0 ∧
        csHlt.InSlot l4kaConfig (fun _ => 0x90) 0x1000 0x1010 0) ∧
      (applyPatchup l4kaConfig (csHlt.state (fun _ => 0x90) 0x1000 0) 0x1000 0x1010).2 =
        .returns true ∧
      (applyPatchup l4kaConfig (csHlt.state (fun _ => 0x90) 0x1000 0) 0x1000 0x1010).1.mem 0x1001 =
        0xf4) ∧
    ¬ (movDsAx.Replaced l4kaConfig (fun _ => 0x90) 0x1000 0x1006 0 ∧
      movDsAx.InSlot l4kaConfig (fun _ => 0x90) 0x1000 0x1006 0) := by
  refine ⟨⟨fun h => ?_, ?_, ?_⟩, fun h => ?_⟩
  · exact Sensitive.not_replaced_of_segmentPrefix mem_cons_self rfl h.2 h.1
  · rfl
  · rfl
  · have := (Sensitive.inSlot_iff fun _ hb => absurd hb not_mem_nil).1 h.2
    exact absurd this (by decide)

end Rewrite
