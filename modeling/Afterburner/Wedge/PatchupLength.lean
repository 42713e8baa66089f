import Afterburner.Wedge.Patchup

/-!
# The length of the code

What `apply_patchup` emits for an opcode has the length `Insn.size`, unless an assertion fails
(`Insn.emits_patchOpcode`).
-/

namespace Rewrite
open Ia32 Slots Patched Emitter Exit
namespace Patched
variable {cfg : Config} {c : Bool} {e e' : Emitter} {p : Patched} {n : ℕ}

structure Emits (p : Patched) (e : Emitter) (n : ℕ) : Prop where
  length : p.newops.out.length = e.out.length + if p.exit = .panic then 0 else n
  stores : p.stores = []

theorem Emits.of_length (hexit : p.exit ≠ .panic) (h : p.newops.out.length = e.out.length + n)
    (hstores : p.stores = []) : p.Emits e n :=
  ⟨by rw [if_neg hexit, h], hstores⟩

theorem Emits.done (h : e'.out.length = e.out.length + n) : (done e').Emits e n :=
  .of_length (by decide : check ≠ .panic) h rfl

theorem Emits.assert (h : p.Emits e n) : (assert cfg c e p).Emits e n := by
  unfold Patched.assert
  split_ifs
  · exact ⟨rfl, rfl⟩
  · exact h

theorem Emits.unlessHardwareSegments (h : p.Emits e n) :
    (Insn.unlessHardwareSegments cfg e p).Emits e (if cfg.hardwareSegments then 0 else n) := by
  unfold Insn.unlessHardwareSegments
  split_ifs
  · exact .done rfl
  · exact h

end Patched
section Newops
variable (cfg : Config) (e : Emitter) (modrm : Modrm) (suffixes : ℕ → Byte)

@[simp] theorem length_callSeg (func : Segment → Word) (r : Reg) :
    (e.callSeg func r).out.length = e.out.length + callSegSize r := by
  unfold callSeg callSegSize
  cases Segment.ofReg r with
  | none => rfl
  | some s => exact e.length_opCall _

theorem emits_movToseg :
    (e.newopsMovToseg cfg modrm suffixes).Emits e (movTosegSize cfg modrm suffixes) := by
  unfold newopsMovToseg movTosegSize
  cases cfg.calloutVcpulocal with
  | true =>
    refine .of_length (by decide : check ≠ .panic) ?_ rfl
    simp only [reduceIte, done]
    split_ifs <;> simp <;> omega
  | false =>
    cases Segment.ofReg modrm.reg with
    | none => exact .of_length (by decide : check ≠ .panic) rfl rfl
    | some s =>
      refine .done ?_
      simp only [Option.isSome_some, Bool.false_eq_true, reduceIte]
      split_ifs <;> simp
      omega

theorem emits_movfromseg :
    (e.newopsMovfromseg cfg modrm suffixes).Emits e (movFromsegSize cfg modrm suffixes) := by
  unfold newopsMovfromseg movFromsegSize
  cases cfg.calloutVcpulocal with
  | true =>
    refine .of_length (by decide : check ≠ .panic) ?_ rfl
    simp only [reduceIte, done]
    split_ifs <;> simp <;> omega
  | false =>
    cases Segment.ofReg modrm.reg with
    | none => exact .of_length (by decide : null ≠ .panic) rfl rfl
    | some s =>
      refine .done ?_
      simp only [Option.isSome_some, Bool.false_eq_true, reduceIte]
      split_ifs <;> simp
      omega

theorem emits_movfromcreg :
    (e.newopsMovfromcreg cfg modrm suffixes).Emits e (movFromcregSize cfg modrm suffixes) := by
  unfold newopsMovfromcreg movFromcregSize
  cases cfg.calloutVcpulocal with
  | true =>
    exact .assert (.assert (.done (by simp)))
  | false =>
    rw [if_neg Bool.false_ne_true, if_neg Bool.false_ne_true]
    cases isCr modrm.reg with
    | false => exact .of_length (by decide : check ≠ .panic) rfl rfl
    | true =>
      rw [if_pos rfl, if_pos rfl]
      refine .done ?_
      split_ifs <;> simp
      omega

end Newops
namespace Insn
variable (cfg : Config) (s : Insn) (e : Emitter)
variable (g : Segment)

@[simp] theorem length_pushSeg : (e.newopsPushSeg cfg g).out.length = e.out.length + 6 := by
  unfold newopsPushSeg
  split_ifs <;> simp

@[simp] theorem length_popSeg : (e.newopsPopSeg cfg g).out.length =
    e.out.length + if cfg.calloutVcpulocal then 8 else 6 := by
  unfold newopsPopSeg
  split_ifs <;> simp

theorem emits_pushSeg : (unlessHardwareSegments cfg e
    (.done (e.newopsPushSeg cfg g))).Emits e (if cfg.hardwareSegments then 0 else 6) :=
  .unlessHardwareSegments (.done (length_pushSeg cfg e g))

theorem emits_popSeg : (unlessHardwareSegments cfg e
    (.done (e.newopsPopSeg cfg g))).Emits e
      (if cfg.hardwareSegments then 0 else if cfg.calloutVcpulocal then 8 else 6) :=
  .unlessHardwareSegments (.done (length_popSeg cfg e g))

theorem emits_patchLltl : (s.patchLltl cfg e).Emits e
    (if (s.modrm 2).reg = 1 ∨ (s.modrm 2).reg = 2 ∨ (s.modrm 2).reg = 3 then 10 + s.operandSize 2 3
    else 4 + s.operandSize 2 3) := by
  have hcall : ∀ func : Word, ((((e.pushReg eax).movzxModrm eax (s.modrm 2) (s.suffixes 3)).opCall
      func).popReg eax).out.length = e.out.length + (10 + s.operandSize 2 3) := by
    intro func
    simp [operandSize]
    omega
  unfold patchLltl
  split_ifs <;> first | exact .done (hcall _) | tauto | skip
  refine .of_length (by decide : refused ≠ .panic) ?_ rfl
  simp [refuse, operandSize]
  omega

theorem ldtlFunc_eq_none_iff : ∀ r : Reg, ldtlFunc r = none ↔ r = 5 := by decide

theorem emits_patchLdtl : (s.patchLdtl cfg e).Emits e
    (if (s.modrm 2).reg = 5 then 3 + s.operandSize 2 3 else 9 + s.operandSize 2 3) := by
  unfold patchLdtl
  have hnone := ldtlFunc_eq_none_iff (s.modrm 2).reg
  cases hfunc : ldtlFunc (s.modrm 2).reg with
  | none =>
    rw [if_pos (hnone.1 hfunc)]
    refine .of_length (by decide : refused ≠ .panic) ?_ rfl
    simp [refuse, operandSize]
    omega
  | some func =>
    rw [if_neg fun h => by rw [hnone.2 h] at hfunc; cases hfunc]
    refine .done ?_
    simp [operandSize]
    omega

theorem emits_patchOpcode2 (o : Opcode2) : (s.patchOpcode2 cfg e o).Emits e (s.size2 cfg o) := by
  cases o with
  | pushFs => exact emits_pushSeg cfg e .fs
  | pushGs => exact emits_pushSeg cfg e .gs
  | popFs => exact emits_popSeg cfg e .fs
  | popGs => exact emits_popSeg cfg e .gs
  | lss =>
    refine .done ?_
    simp [patchLss, size2, operandSize]
    omega
  | movFromcreg => exact emits_movfromcreg ..
  | movFromdreg => exact .assert (.done (by simp [size2]))
  | movTocreg => exact .assert (.assert (.done (by simp [size2])))
  | movTodreg => exact .assert (.done (by simp [size2]))
  | lltl => exact emits_patchLltl cfg s e
  | ldtl => exact emits_patchLdtl cfg s e
  | _ => exact .done (e.length_opCall _)

theorem length_patchPort (device : Byte → Burn) (func : Burn) (width port : Byte) :
    (patchPort cfg e device func width port).out.length = e.out.length + portSize port := by
  unfold patchPort portSize
  split_ifs <;> simp

variable (func : Burn)

theorem length_patchPortDx (width : Byte) :
    (patchPortDx cfg e func width).out.length = e.out.length + 11 := by
  unfold patchPortDx
  simp

theorem length_patchString (width : Byte) (reg : Reg) :
    (s.patchString cfg e func width reg).out.length = e.out.length + 12 := by
  unfold patchString
  split_ifs <;> simp

theorem length_patchInt (value : Word) :
    (patchInt cfg e value).out.length = e.out.length + 12 := by
  unfold patchInt
  simp

theorem length_patchJmpFar :
    (s.patchJmpFar cfg e).newops.out.length = e.out.length + 15 := by
  unfold patchJmpFar
  split_ifs <;> simp [done]

theorem length_newopsPushf : (e.newopsPushf cfg).out.length = e.out.length + 6 := by
  unfold newopsPushf
  split_ifs <;> simp

theorem length_newopsCli : (e.newopsCli cfg).out.length =
    e.out.length + if cfg.calloutVcpulocal then 5 else 8 := by
  unfold newopsCli
  split_ifs <;> simp

theorem length_patchPopf : (s.patchPopf cfg e).out.length =
    e.out.length + if cfg.strictIrq && !cfg.deviceApic then 26 else 6 := by
  unfold patchPopf
  cases cfg.strictIrq <;> cases cfg.deviceApic <;> simp

theorem length_patchSti : (s.patchSti cfg e).out.length =
    e.out.length + if cfg.strictIrq then if cfg.deviceApic then 5 else 22 else 8 := by
  unfold patchSti
  cases cfg.strictIrq <;> cases cfg.deviceApic <;> simp

@[simp] theorem length_callSegofs : (s.callSegofs cfg e func).out.length =
    e.out.length + s.segofsSize 0 := by
  unfold callSegofs segofsSize
  split_ifs
  · exact e.length_opCall _
  · rfl

theorem segofsSize_eq (n : ℕ) : s.segofsSize n = n + s.segofsSize 0 := by
  unfold segofsSize
  split_ifs <;> omega

theorem emits_patchOpcode {o : Opcode} (hne : o = .int3 → cfg.wedge ≠ .l4ka) :
    (s.patchOpcode cfg e o).Emits e (s.size cfg o) := by
  cases o with
  | int3 =>
    unfold patchOpcode size
    rw [if_neg (hne rfl), if_neg (hne rfl)]
    exact .done (length_patchInt ..)
  | int => exact .done (length_patchInt ..)
  | jmpFar =>
    exact .of_length (by decide : check ≠ .panic) (length_patchJmpFar ..) rfl
  | out => exact .done (length_patchPort ..)
  | outb => exact .done (length_patchPort ..)
  | inPort => exact .done (length_patchPort ..)
  | inb => exact .done (length_patchPort ..)
  | outDx => exact .done (length_patchPortDx ..)
  | outbDx => exact .done (length_patchPortDx ..)
  | inDx => exact .done (length_patchPortDx ..)
  | inbDx => exact .done (length_patchPortDx ..)
  | outsDx => exact .done (length_patchString ..)
  | outsbDx => exact .done (length_patchString ..)
  | insDx => exact .done (length_patchString ..)
  | insbDx => exact .done (length_patchString ..)
  | pushf => exact .done (length_newopsPushf ..)
  | popf => exact .done (length_patchPopf ..)
  | movTomem32 =>
    refine .assert (.of_length (by decide : check ≠ .panic) ?_ rfl)
    simp [patchMovTomem32, done, size, segofsSize_eq s (_ + _), operandSize]
    omega
  | movFrommem32 =>
    refine .assert (.of_length (by decide : check ≠ .panic) ?_ rfl)
    simp [patchMovFrommem32, done, size, segofsSize_eq s (_ + _), operandSize]
    omega
  | movTosegofs =>
    refine .assert (.of_length (by decide : check ≠ .panic) ?_ rfl)
    simp [patchMovTosegofs, done, size, segofsSize_eq s 11]
    omega
  | movFromsegofs =>
    refine .assert (.of_length (by decide : check ≠ .panic) ?_ rfl)
    simp [patchMovFromsegofs, done, size, segofsSize_eq s 6]
    omega
  | movToseg => exact .unlessHardwareSegments (emits_movToseg ..)
  | movFromseg => exact .unlessHardwareSegments (emits_movfromseg ..)
  | pushCs => exact emits_pushSeg cfg e .cs
  | pushSs => exact emits_pushSeg cfg e .ss
  | pushDs => exact emits_pushSeg cfg e .ds
  | pushEs => exact emits_pushSeg cfg e .es
  | popSs => exact emits_popSeg cfg e .ss
  | popDs => exact emits_popSeg cfg e .ds
  | popEs => exact emits_popSeg cfg e .es
  | cli => exact .done (length_newopsCli ..)
  | sti => exact .done (length_patchSti ..)
  | twoByte =>
    unfold patchOpcode size
    cases Opcode2.ofByte (s.byte 1) with
    | none => exact .of_length (by decide : refused ≠ .panic) rfl rfl
    | some o => exact s.emits_patchOpcode2 cfg e o
  | hlt => exact .done (e.length_opCall _)
  | iret => exact .done (e.length_opJmp _)
  | lret => exact .done (e.length_opJmp _)

theorem patchOpcode_int3 (hw : cfg.wedge = .l4ka) : s.patchOpcode cfg e .int3 =
    { done e with stores := [(s.opstreamEnd - 1, s.byte 0), (s.opstream, opNop1)] } := by
  unfold patchOpcode
  rw [if_pos hw]

end Insn
end Rewrite
