import Afterburner.Wedge.RewriteFrame
import Mathlib.Data.BitVec

/-!
# Which device accesses are rewritten exactly

A patch is right when its `lea`, with a lower stack pointer and perhaps another `edx`, computes the
address of the original operand.
-/

namespace Rewrite
open Ia32 Function Option List
theorem ea_ne_of_uses {a : Addr} (huse : a.base = some eax ∨ a.index = some eax) :
    a.ea (update (fun _ => 0) eax 1) ≠ a.ea fun _ => 0 := by
  have hscale : ∀ k : BitVec 2,
      (1 : Word) <<< k.toNat ≠ 0 ∧ (1 : Word) + (1 : Word) <<< k.toNat ≠ 0 := by
    decide
  have hshift : (0 : Word) <<< a.scale.toNat = 0 := BitVec.zero_shiftLeft _
  obtain ⟨hone, hsum⟩ := hscale a.scale
  have helim : ∀ o : Option Reg, o.elim 0 (update (fun _ => (0 : Word)) eax 1) =
      if o = some eax then 1 else 0 := by
    intro o
    cases o with
    | none => rfl
    | some q => simp [update_apply]
  have hzero : ∀ o : Option Reg, o.elim 0 (fun _ => (0 : Word)) = 0 := by
    intro o
    cases o <;> rfl
  intro h
  rw [Addr.ea, Addr.ea, helim, helim, hzero, hzero, hshift] at h
  have h : (if a.base = some eax then (1 : Word) else 0) +
      (if a.index = some eax then (1 : Word) else 0) <<< a.scale.toNat = 0 := by
    linear_combination h
  by_cases hbase : a.base = some eax
  · by_cases hindex : a.index = some eax
    · simp_all
    · rw [if_pos hbase, if_neg hindex, hshift] at h
      exact absurd h (by decide)
  · rw [if_neg hbase, if_pos (huse.resolve_left hbase), zero_add] at h
    exact hone h

def ClobbersEax (m : Modrm) (suffixes : ℕ → Byte) : Prop :=
  m.reg = edx ∧ m.rm = 4 ∧
    ((Sib.ofRaw (suffixes 0)).base = eax ∨ (Sib.ofRaw (suffixes 0)).index = eax)

def OverflowsDisp (m : Modrm) (suffixes : ℕ → Byte) (off : ℕ) : Prop :=
  m.mod = 1 ∧ m.rm = 4 ∧ (Sib.ofRaw (suffixes 0)).base = esp ∧ 127 < (suffixes 1).toInt + off

section Exact

variable {m : Modrm} {suffixes : ℕ → Byte} {a : Addr} {off : Word} {rest : List Byte}

theorem inByte_iff (hoff : off = 8 ∨ off = 12) :
    InByte m suffixes off ↔ ¬ OverflowsDisp m suffixes off.toNat := by
  have hle := (suffixes 1).le_toInt
  unfold InByte OverflowsDisp
  rcases hoff with rfl | rfl
  · simp only [show (8 : Word).toInt = 8 from rfl, show (8 : Word).toNat = 8 from rfl]
    grind
  · simp only [show (12 : Word).toInt = 12 from rfl, show (12 : Word).toNat = 12 from rfl]
    grind

variable (ha : decodeAddr m ((range 6).map suffixes) = some (a, rest))
include ha

theorem ea_clobbered_iff :
    (∀ regs, (reencode m.mod off a).ea (update (below regs off) eax (regs edx)) = a.ea regs) ↔
      ¬ (a.base = some eax ∨ a.index = some eax) ∧
        (a.base = some esp → (reencode m.mod off a).disp = a.disp + off) := by
  have hkeep : ∀ (regs : Reg → Word) (v : Word), ¬ (a.base = some eax ∨ a.index = some eax) →
      (reencode m.mod off a).ea (update regs eax v) = (reencode m.mod off a).ea regs := by
    intro regs v huse
    rw [not_or] at huse
    exact ea_update_of_ne (by rw [reencode_base]; exact huse.1)
      (by rw [reencode_index]; exact huse.2) v
  constructor
  · intro h
    have huse : ¬ (a.base = some eax ∨ a.index = some eax) := by
      intro huse
      apply ea_ne_of_uses huse
      -- the `lea` does not see the change
      have hsame : update (below (update (fun _ => (0 : Word)) eax 1) off) eax
          (update (fun _ => (0 : Word)) eax 1 edx) =
          update (below (fun _ => 0) off) eax 0 := by
        simp [below, update_comm]
      refine (h _).symm.trans (Eq.trans ?_ (h fun _ => 0))
      rw [hsame]
    refine ⟨huse, ?_⟩
    have h₀ := h fun _ => 0
    rw [hkeep _ _ huse] at h₀
    exact (ea_reencode_iff ha _).1 h₀
  · rintro ⟨huse, hdisp⟩ regs
    rw [hkeep _ _ huse]
    exact (ea_reencode_iff ha _).2 hdisp

variable (hoff : off = 8 ∨ off = 12)
include hoff

theorem ea_lea_iff : (∀ regs, (reencode m.mod off a).ea (below regs off) = a.ea regs) ↔
    ¬ OverflowsDisp m suffixes off.toNat := by
  simp only [ea_reencode_iff ha, forall_const, disp_reencode_iff ha, inByte_iff hoff]

theorem ea_leaRegs_iff :
    (∀ regs, (reencode m.mod off a).ea (leaRegs m (below regs off)) = a.ea regs) ↔
      ¬ ClobbersEax m suffixes ∧ ¬ OverflowsDisp m suffixes off.toNat := by
  have hedx : ∀ regs : Reg → Word, below regs off edx = regs edx :=
    fun regs => update_of_ne (by decide) ..
  have hn := names_of_decodeAddr ha
  rw [ClobbersEax]
  by_cases hreg : m.reg = edx
  · by_cases hrm : m.rm = 0
    · -- the base is `eax`, and nothing else is used
      obtain ⟨hbase, hindex⟩ := hn.rm_eax hrm
      have hne : m.rm ≠ 4 := by rw [hrm]; decide
      have hkeep : ∀ regs, (reencode m.mod off a).ea (leaRegs m (below regs off)) =
          (reencode m.mod off a).ea (below regs off) := by
        intro regs
        rw [leaRegs, if_pos hreg, if_pos hrm]
        refine ea_update_of_ne ?_ ?_ _
        · rw [reencode_base, hbase]
          decide
        · simp_all [reencode_index]
      simp only [hkeep]
      rw [ea_lea_iff ha hoff]
      tauto
    · have hsee : ∀ regs, leaRegs m (below regs off) =
          update (below regs off) eax (regs edx) := by simp_all [leaRegs]
      simp only [hsee]
      rw [ea_clobbered_iff ha, hn.uses_eax hrm, disp_reencode_iff ha, inByte_iff hoff]
      tauto
  · grind [leaRegs, below, ea_lea_iff]

end Exact
section Patches

variable {m : Modrm} {suffixes : ℕ → Byte} {a : Addr} {rest : List Byte} (start func : Word)
  (ha : decodeAddr m ((range 6).map suffixes) = some (a, rest))

include ha

theorem makes_args_iff {code : List Byte} {dest : Option Reg} (hreg : m.reg ≠ esp)
    (hdest : dest ≠ some esp)
    (hcode : Decodes start code (savePlan dest ++ argsPlan m (reencode m.mod (pushed dest) a) ++
      .call func :: restorePlan dest)) :
    Makes start code ⟨func, some m.reg, dest, a⟩ ↔
      ¬ ClobbersEax m suffixes ∧ ¬ OverflowsDisp m suffixes (pushed dest).toNat := by
  rw [makes_iff (a := ⟨func, some m.reg, dest, a⟩) hdest hcode (loads_argsPlan dest m _),
    ← ea_leaRegs_iff ha (pushed_cases dest)]
  refine forall_congr' fun regs => ?_
  have hsrc : below regs (pushed dest) m.reg = regs m.reg := update_of_ne hreg ..
  simp [Access.ArgsRight, argsRegs, hsrc]

theorem makes_store_iff (hreg : m.reg ≠ esp) :
    Makes start ((⟨start, [], 0⟩ : Emitter).patchStore func m suffixes).out
        ⟨func, some m.reg, none, a⟩ ↔
      ¬ ClobbersEax m suffixes ∧ ¬ OverflowsDisp m suffixes 12 := by
  obtain ⟨hsave, hoff⟩ := (Emitter.emits_nil start 0).saveAll
  replace hoff := hoff.trans (BitVec.zero_add _)
  have hargs := hsave.loadArgs ha
  have hpatch := (hargs.opCall func).restoreAll
  rw [append_assoc] at hpatch
  exact makes_args_iff start func ha hreg (fun h => by cases h) hpatch.decodes

theorem makes_xchg_iff (hreg : m.reg ≠ esp) :
    Makes start ((⟨start, [], 0⟩ : Emitter).patchXchg func m suffixes).out
        ⟨func, some m.reg, some m.reg, a⟩ ↔
      ¬ ClobbersEax m suffixes ∧ ¬ OverflowsDisp m suffixes (pushed (some m.reg)).toNat := by
  obtain ⟨hsave, hoff⟩ := (Emitter.emits_nil start 0).saveOthers m.reg
  replace hoff := hoff.trans (BitVec.zero_add _)
  have hargs := hsave.loadArgs ha
  rw [hoff] at hargs
  have hpatch := (hargs.opCall func).restoreOthers m.reg
  rw [append_assoc] at hpatch
  exact makes_args_iff start func ha hreg (fun h => hreg (some.inj h)) hpatch.decodes

theorem makes_load_iff (hreg : m.reg ≠ esp) :
    Makes start ((⟨start, [], 0⟩ : Emitter).patchLoad func m suffixes).out
        ⟨func, none, some m.reg, a⟩ ↔
      ¬ OverflowsDisp m suffixes (pushed (some m.reg)).toNat := by
  obtain ⟨hsave, hoff⟩ := (Emitter.emits_nil start 0).saveOthers m.reg
  replace hoff := hoff.trans (BitVec.zero_add _)
  have hargs := hsave.leaModrm eax ha
  rw [hoff] at hargs
  have hpatch := (hargs.opCall func).restoreOthers m.reg
  rw [append_assoc] at hpatch
  have hload : Loads (some m.reg)
      (savePlan (some m.reg) ++ [.lea eax (reencode m.mod (pushed (some m.reg)) a)])
      fun regs => update (below regs (pushed (some m.reg))) eax
        ((reencode m.mod (pushed (some m.reg)) a).ea (below regs (pushed (some m.reg)))) := by
    refine .of_args (g := fun regs => update regs eax
      ((reencode m.mod (pushed (some m.reg)) a).ea regs)) (by simp) (fun regs cells => ?_)
      fun regs r h₁ _ _ => update_of_ne h₁ ..
    simp [View.execAll, View.exec, View.setReg]
  rw [Emitter.patchLoad, makes_iff (a := ⟨func, none, some m.reg, a⟩)
      (fun h => hreg (some.inj h)) hpatch.decodes hload,
    ← ea_lea_iff ha (pushed_cases (some m.reg))]
  refine forall_congr' fun regs => ?_
  simp [Access.ArgsRight]

end Patches

theorem ea_moffs (regs : Reg → Word) (moffs : Word) :
    (⟨none, none, 0, moffs⟩ : Addr).ea regs = moffs := by
  simp [Addr.ea]

theorem makes_storeMoffs (start func moffs : Word) :
    Makes start ((⟨start, [], 0⟩ : Emitter).patchStoreMoffs func moffs).out
      ⟨func, some eax, none, ⟨none, none, 0, moffs⟩⟩ := by
  have hpatch := (((Emitter.emits_nil start 0).saveAll.1.setReg edx moffs).opCall func).restoreAll
  have hload : Loads none (savePlan none ++ [.movImm edx moffs])
      fun regs => update (below regs (pushed none)) edx moffs := by
    refine .of_args (g := fun regs => update regs edx moffs) (by simp)
      (fun regs cells => ?_) fun regs r _ _ h₃ => update_of_ne h₃ ..
    simp [View.execAll, View.exec, View.setReg]
  rw [Emitter.patchStoreMoffs, makes_iff (a := ⟨func, some eax, none, ⟨none, none, 0, moffs⟩⟩)
    (fun h => by cases h) hpatch.decodes hload]
  intro regs
  have heax : below regs (pushed none) eax = regs eax := update_of_ne (by decide) ..
  show update (below regs (pushed none)) edx moffs eax = regs eax ∧
    update (below regs (pushed none)) edx moffs edx = _
  rw [ea_moffs]
  exact ⟨heax, rfl⟩

theorem makes_loadMoffs (start func moffs : Word) :
    Makes start ((⟨start, [], 0⟩ : Emitter).patchLoadMoffs func moffs).out
      ⟨func, none, some eax, ⟨none, none, 0, moffs⟩⟩ := by
  have hpatch := ((((((Emitter.emits_nil start 0).movImm32ToReg moffs).pushReg ecx).pushReg
    edx).opCall func).popReg edx).popReg ecx
  have hload : Loads (some eax) ([.movImm eax moffs] ++ [.push ecx] ++ [.push edx])
      fun regs => update (below regs (pushed (some eax))) eax moffs := by
    refine ⟨by simp, fun regs => ?_, fun regs r h₁ _ _ => update_of_ne h₁ ..⟩
    have htwo : regs esp - 4#32 - 4#32 = regs esp - 8#32 := by bv_omega
    simp [View.execAll, View.exec, View.setReg, savedCells, below, pushed, htwo,
      update_comm]
  rw [Emitter.patchLoadMoffs, makes_iff (a := ⟨func, none, some eax, ⟨none, none, 0, moffs⟩⟩)
    (fun h => absurd (some.inj h) (by decide)) hpatch.decodes hload]
  intro regs
  show update (below regs (pushed (some eax))) eax moffs eax = _
  rw [update_self, ea_moffs]

def Clobbers (opstream : ℕ → Byte) : Prop :=
  (opstream 0 = 0x09 ∨ opstream 0 = 0x21 ∨ opstream 0 = 0x89 ∨ opstream 0 = 0x87) ∧
    ClobbersEax (Modrm.ofRaw (opstream 1)) fun i => opstream (i + 2)

def pushedBytes (opstream : ℕ → Byte) : ℕ :=
  if opstream 0 = 0x8b ∨ opstream 0 = 0x87 then
    (pushed (some (Modrm.ofRaw (opstream 1)).reg)).toNat
  else 12

def Overflows (opstream : ℕ → Byte) : Prop :=
  (opstream 0 = 0x09 ∨ opstream 0 = 0x21 ∨ opstream 0 = 0x89 ∨ opstream 0 = 0x8b ∨
      opstream 0 = 0x87) ∧
    OverflowsDisp (Modrm.ofRaw (opstream 1)) (fun i => opstream (i + 2)) (pushedBytes opstream)

theorem exists_of_operand {m : Modrm} {bs : List Byte} {mk : Addr → Access} {a : Access}
    (h : ((decodeAddr m bs).map Prod.fst).map mk = some a) :
    ∃ addr rest, decodeAddr m bs = some (addr, rest) ∧ mk addr = a := by
  obtain ⟨addr, haddr, rfl⟩ := map_eq_some_iff.1 h
  obtain ⟨⟨_, rest⟩, hdec, rfl⟩ := map_eq_some_iff.1 haddr
  exact ⟨_, rest, hdec, rfl⟩

/-- **When the rewriting of a device access is right.** For every supported instruction with a
register operand other than `esp`, for all registers, memory and handlers: exactly when the operand
neither uses a clobbered `eax` nor overflows its displacement. -/
theorem makes_applyDevicePatchup_iff (f : Handlers) (start : Word) (opstream : ℕ → Byte) (room : ℕ)
    (code : List Byte) (fits : Bool) (a : Access) (hacc : access f opstream = some a)
    (hcode : applyDevicePatchup f start opstream room = some (code, fits))
    (hsource : a.source ≠ some esp) (hdest : a.dest ≠ some esp) :
    Makes start code a ↔ ¬ Clobbers opstream ∧ ¬ Overflows opstream := by
  rw [Clobbers, Overflows, pushedBytes]
  rw [access] at hacc
  obtain ⟨e, he, heq⟩ := map_eq_some_iff.1 hcode
  obtain rfl : e.out = code := congrArg Prod.fst heq
  -- one case for each opcode, in the order in which the patcher tries them
  split_ifs at hacc he with h₁ h₂ h₃ h₄ h₅ h₆ h₇ <;> obtain rfl := some.inj he
  · obtain ⟨addr, rest, ha, rfl⟩ := exists_of_operand hacc
    simpa [h₁] using makes_store_iff start _ ha fun h => hsource (congrArg some h)
  · obtain ⟨addr, rest, ha, rfl⟩ := exists_of_operand hacc
    simpa [h₂] using makes_store_iff start _ ha fun h => hsource (congrArg some h)
  · grind [exists_of_operand, makes_store_iff]
  · obtain rfl := some.inj hacc
    exact iff_of_true (makes_storeMoffs start _ _) (by simp [h₄])
  · obtain rfl := some.inj hacc
    exact iff_of_true (makes_loadMoffs start _ _) (by simp [h₅])
  · obtain ⟨addr, rest, ha, rfl⟩ := exists_of_operand hacc
    simpa [h₆] using makes_load_iff start _ ha fun h => hdest (congrArg some h)
  · grind [exists_of_operand, makes_xchg_iff]

section Runs

def someHandlers : Handlers := ⟨0x2000, 0x2100, 0x2200, 0x2300, 0x2400⟩
def storeOnStack : ℕ → Byte := fun i => [0x89, 0x44, 0x24, 0x10].getD i 0

theorem makes_storeOnStack : ∃ code a, access someHandlers storeOnStack = some a ∧
    applyDevicePatchup someHandlers 0x1000 storeOnStack 32 = some (code, true) ∧
    Makes 0x1000 code a := by
  refine ⟨_, _, rfl, rfl, (makes_applyDevicePatchup_iff someHandlers 0x1000 storeOnStack 32
    _ _ _ rfl rfl (by decide) (by decide)).2 ⟨?_, ?_⟩⟩
  · rintro ⟨-, h, -⟩
    exact absurd h (by decide)
  · rintro ⟨-, -, -, -, h⟩
    exact absurd h (by decide)

def storeIndexed : ℕ → Byte := fun i => [0x89, 0x14, 0x08].getD i 0
def storeFarOnStack : ℕ → Byte := fun i => [0x89, 0x54, 0x24, 0x7c].getD i 0

def beforeStore : Cpu :=
  ⟨fun r => if r = eax then 0x5000 else if r = edx then 0x55 else 0, fun _ => 0⟩

def callsOf (code : List Byte) : Option (List Call) :=
  (run (fun _ cpu => cpu) code.length 0x1000 code ⟨beforeStore, []⟩).map State.calls

theorem not_makes_of_callsOf {code : List Byte} {a : Access} {r : Reg} {c : Call}
    (hcalls : callsOf code = some [c]) (hsource : a.source = some r)
    (hedx : c.edx ≠ a.addr.ea beforeStore.regs) : ¬ Makes 0x1000 code a := by
  intro h
  obtain ⟨s, c', hrun, hmade⟩ :=
    h (fun _ cpu => cpu) ⟨fun _ _ _ _ _ _ => rfl, fun _ _ _ _ => rfl⟩ beforeStore
  have hargs := hmade.args
  rw [hsource] at hargs
  rw [callsOf, hrun, map_some, hmade.called] at hcalls
  obtain rfl : c' = c := head_eq_of_cons_eq (some.inj hcalls)
  exact hedx hargs.2

theorem not_makes_store :
    (∃ code a, access someHandlers storeIndexed = some a ∧
      applyDevicePatchup someHandlers 0x1000 storeIndexed 64 = some (code, true) ∧
      callsOf code = some [⟨0x2100, 0x55, 0x55, 0x55⟩] ∧ a.addr.ea beforeStore.regs = 0x5000 ∧
      ¬ Makes 0x1000 code a) ∧
    ∃ code a, access someHandlers storeFarOnStack = some a ∧
      applyDevicePatchup someHandlers 0x1000 storeFarOnStack 64 = some (code, true) ∧
      callsOf code = some [⟨0x2100, 0x55, 0xffffff7c, 0x55⟩] ∧ a.addr.ea beforeStore.regs = 0x7c ∧
      ¬ Makes 0x1000 code a := by
  constructor
  · refine ⟨_, _, rfl, rfl, by decide +kernel, by decide +kernel, ?_⟩
    exact not_makes_of_callsOf (c := ⟨0x2100, 0x55, 0x55, 0x55⟩) (by decide +kernel) rfl
      (by decide +kernel)
  · refine ⟨_, _, rfl, rfl, by decide +kernel, by decide +kernel, ?_⟩
    exact not_makes_of_callsOf (c := ⟨0x2100, 0x55, 0xffffff7c, 0x55⟩) (by decide +kernel) rfl
      (by decide +kernel)

end Runs
end Rewrite
