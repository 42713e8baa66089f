import Afterburner.Wedge.RewriteEncode
import Afterburner.Lib.Ia32Stack

/-!
# Saving, calling, restoring

All patches save the scratch registers but the destination, load the arguments, call and restore;
they are right when the arguments are.
-/

namespace Rewrite
open Ia32 Function List

def savePlan : Option Reg → List Instr
  | none => [.push eax, .push ecx, .push edx]
  | some reg =>
    (if reg ≠ eax then [.push eax] else []) ++ (if reg ≠ ecx then [.push ecx] else []) ++
      (if reg ≠ edx then [.push edx] else [])

def restorePlan : Option Reg → List Instr
  | none => [.pop edx, .pop ecx, .pop eax]
  | some reg =>
    (if reg = edx then [.mov edx eax] else [.pop edx]) ++
      (if reg = ecx then [.mov ecx eax] else [.pop ecx]) ++
      (if reg ≠ eax ∧ reg ≠ ecx ∧ reg ≠ edx then [.mov reg eax] else []) ++
      (if reg ≠ eax then [.pop eax] else [])

def pushed : Option Reg → Word
  | none => 12
  | some reg => if reg = eax ∨ reg = ecx ∨ reg = edx then 8 else 12

def argsPlan (m : Modrm) (a : Addr) : List Instr :=
  if m.reg = eax then [.lea edx a]
  else if m.reg ≠ edx then [.lea edx a, .mov eax m.reg]
  else if m.rm = 0 then [.mov ecx edx, .lea edx a, .mov eax ecx]
  else [.mov eax edx, .lea edx a]

variable (dest : Option Reg) (m : Modrm) (a : Addr)

theorem length_savePlan : (savePlan dest).length ≤ 3 := by
  cases dest with
  | none => exact le_rfl
  | some reg =>
    rw [savePlan]
    split_ifs <;> simp

theorem length_restorePlan : (restorePlan dest).length ≤ 4 := by
  cases dest with
  | none => exact Nat.le_succ 3
  | some reg =>
    rw [restorePlan]
    split_ifs <;> simp

theorem pushed_cases : pushed dest = 8 ∨ pushed dest = 12 := by
  cases dest with
  | none => exact .inr rfl
  | some reg =>
    rw [pushed]
    split_ifs
    · exact .inl rfl
    · exact .inr rfl

theorem scratch_cases (reg : Reg) :
    reg = eax ∨ reg = ecx ∨ reg = edx ∨ (reg ≠ eax ∧ reg ≠ ecx ∧ reg ≠ edx) := by
  tauto

namespace Emitter
variable {e : Emitter} {start : Word} {is : List Instr}

section
variable (h : e.Emits start is)
include h

theorem Emits.saveAll :
    e.saveAll.Emits start (is ++ savePlan none) ∧
      e.saveAll.stackOffset = e.stackOffset + pushed none := by
  constructor
  · have := ((h.pushReg eax).pushReg ecx).pushReg edx
    rw [append_assoc, append_assoc] at this
    exact this
  · show e.stackOffset + 4 + 4 + 4 = e.stackOffset + 12
    bv_omega

theorem Emits.restoreAll : e.restoreAll.Emits start (is ++ restorePlan none) := by
  have := ((h.popReg edx).popReg ecx).popReg eax
  rw [append_assoc, append_assoc] at this
  exact this

theorem Emits.saveOthers (reg : Reg) :
    (e.saveOthers reg).Emits start (is ++ savePlan (some reg)) ∧
      (e.saveOthers reg).stackOffset = e.stackOffset + pushed (some reg) := by
  have htwo : e.stackOffset + 4 + 4 = e.stackOffset + 8 := by bv_omega
  rcases scratch_cases reg with rfl | rfl | rfl | ⟨hne₁, hne₂, hne₃⟩
  · have := (h.pushReg ecx).pushReg edx
    rw [append_assoc] at this
    exact ⟨this, htwo⟩
  · have := (h.pushReg eax).pushReg edx
    rw [append_assoc] at this
    exact ⟨this, htwo⟩
  · have := (h.pushReg eax).pushReg ecx
    rw [append_assoc] at this
    exact ⟨this, htwo⟩
  · have hsame : e.saveOthers reg = e.saveAll := by
      simp [Emitter.saveOthers, Emitter.saveAll, hne₁, hne₂, hne₃]
    have hplan : savePlan (some reg) = savePlan none := by
      simp [savePlan, hne₁, hne₂, hne₃]
    have hpushed : pushed (some reg) = pushed none := by
      simp [pushed, hne₁, hne₂, hne₃]
    rw [hsame, hplan, hpushed]
    exact h.saveAll

theorem Emits.restoreOthers (reg : Reg) :
    (e.restoreOthers reg).Emits start (is ++ restorePlan (some reg)) := by
  rcases scratch_cases reg with rfl | rfl | rfl | ⟨hne₁, hne₂, hne₃⟩
  · have := (h.popReg edx).popReg ecx
    rw [append_assoc] at this
    exact this
  · have := ((h.popReg edx).movRegToReg eax ecx).popReg eax
    rw [append_assoc, append_assoc] at this
    exact this
  · have := ((h.movRegToReg eax edx).popReg ecx).popReg eax
    rw [append_assoc, append_assoc] at this
    exact this
  · have hsame : e.restoreOthers reg =
        (((e.popReg edx).popReg ecx).movRegToReg eax reg).popReg eax := by
      simp [Emitter.restoreOthers, hne₁, hne₂, hne₃]
    have hplan : restorePlan (some reg) = [.pop edx, .pop ecx, .mov reg eax, .pop eax] := by
      simp [restorePlan, hne₁, hne₂, hne₃]
    have := (((h.popReg edx).popReg ecx).movRegToReg eax reg).popReg eax
    rw [append_assoc, append_assoc, append_assoc] at this
    rw [hsame, hplan]
    exact this

theorem Emits.loadArgs {m : Modrm} {suffixes : ℕ → Byte} {a : Addr} {rest : List Byte}
    (ha : decodeAddr m ((range 6).map suffixes) = some (a, rest)) :
    (e.loadArgs m suffixes).Emits start (is ++ argsPlan m (reencode m.mod e.stackOffset a)) := by
  rw [Emitter.loadArgs, argsPlan]
  split_ifs
  · exact h.leaModrm edx ha
  · have := (h.leaModrm edx ha).movRegToReg m.reg eax
    rwa [append_assoc] at this
  · have := ((h.movRegToReg edx ecx).leaModrm edx ha).movRegToReg ecx eax
    rwa [append_assoc, append_assoc] at this
  · have := (h.movRegToReg edx eax).leaModrm edx ha
    rwa [append_assoc] at this

end

end Emitter

def savedCells (regs : Reg → Word) : Option Reg → List Word
  | none => [regs edx, regs ecx, regs eax]
  | some reg =>
    (if reg ≠ edx then [regs edx] else []) ++ (if reg ≠ ecx then [regs ecx] else []) ++
      (if reg ≠ eax then [regs eax] else [])

theorem length_savedCells (regs : Reg → Word) (dest : Option Reg) :
    (savedCells regs dest).length ≤ 3 := by
  cases dest with
  | none => exact le_rfl
  | some reg =>
    rw [savedCells]
    split_ifs <;> simp

theorem execAll_savePlan (regs : Reg → Word) (dest : Option Reg) :
    (⟨regs, []⟩ : View).execAll (savePlan dest) =
      some ⟨below regs (pushed dest), savedCells regs dest⟩ := by
  have htwo : regs esp - 4#32 - 4#32 = regs esp - 8#32 := by bv_omega
  have hthree : regs esp - 4#32 - 4#32 - 4#32 = regs esp - 12#32 := by bv_omega
  have hall : (⟨regs, []⟩ : View).execAll (savePlan none) =
      some ⟨below regs (pushed none), savedCells regs none⟩ := by
    simp [savePlan, View.execAll, View.exec, below, pushed, savedCells, hthree]
  cases dest with
  | none => exact hall
  | some reg =>
    rcases scratch_cases reg with rfl | rfl | rfl | ⟨hne₁, hne₂, hne₃⟩
    · simp [savePlan, View.execAll, View.exec, below, pushed, savedCells, htwo]
    · simp [savePlan, View.execAll, View.exec, below, pushed, savedCells, htwo]
    · simp [savePlan, View.execAll, View.exec, below, pushed, savedCells, htwo]
    · simpa [savePlan, pushed, savedCells, hne₁, hne₂, hne₃] using hall

theorem forall_reg {P : Reg → Prop} (h₀ : P eax) (h₁ : P ecx) (h₂ : P edx) (h₃ : P esp)
    (h : ∀ r, r ≠ eax → r ≠ ecx → r ≠ edx → r ≠ esp → P r) (r : Reg) : P r := by grind

theorem execAll_restorePlan {regs regs' : Reg → Word} {dest : Option Reg} (hdest : dest ≠ some esp)
    (hkept : ∀ r, r ≠ eax → r ≠ ecx → r ≠ edx → regs' r = below regs (pushed dest) r) :
    ∃ v, (⟨regs', savedCells regs dest⟩ : View).execAll (restorePlan dest) = some v ∧
      (∀ r, dest ≠ some r → v.regs r = regs r) ∧ (∀ r, dest = some r → v.regs r = regs' eax) := by
  have hesp : regs' esp = regs esp - pushed dest := by
    rw [hkept esp (by decide) (by decide) (by decide), below, update_self]
  have hother : ∀ r, r ≠ eax → r ≠ ecx → r ≠ edx → r ≠ esp → regs' r = regs r := by
    intro r h₁ h₂ h₃ h₄
    rw [hkept r h₁ h₂ h₃, below, update_of_ne h₄]
  have htwo : regs esp - 8#32 + 4#32 + 4#32 = regs esp := by bv_omega
  have hthree : regs esp - 12#32 + 4#32 + 4#32 + 4#32 = regs esp := by bv_omega
  cases dest with
  | none =>
    have hesp : regs' esp = regs esp - 12#32 := hesp
    refine ⟨_, by simp [restorePlan, savedCells, View.execAll, View.exec]; rfl, ?_, by simp⟩
    exact forall_reg (by simp) (by simp) (by simp) (by simp [hesp, hthree])
      fun r h₁ h₂ h₃ h₄ => by simp [h₁, h₂, h₃, h₄, hother]
  | some reg =>
    have hreg : reg ≠ esp := fun h => hdest (congrArg some h)
    rcases scratch_cases reg with rfl | rfl | rfl | ⟨hne₁, hne₂, hne₃⟩
    · have hesp : regs' esp = regs esp - 8#32 := hesp
      refine ⟨_, by simp [restorePlan, savedCells, View.execAll, View.exec]; rfl, ?_, ?_⟩
      · exact forall_reg (by simp) (by simp) (by simp) (by simp [hesp, htwo])
          fun r h₁ h₂ h₃ h₄ => by simp [h₁, h₂, h₃, h₄, hother]
      · simp
    · have hesp : regs' esp = regs esp - 8#32 := hesp
      refine ⟨_, by simp [restorePlan, savedCells, View.execAll, View.exec, View.setReg]; rfl, ?_,
        ?_⟩
      · exact forall_reg (by simp) (by simp) (by simp) (by simp [hesp, htwo])
          fun r h₁ h₂ h₃ h₄ => by simp [h₁, h₂, h₃, h₄, hother]
      · simp
    · have hesp : regs' esp = regs esp - 8#32 := hesp
      refine ⟨_, by simp [restorePlan, savedCells, View.execAll, View.exec, View.setReg]; rfl, ?_,
        ?_⟩
      · exact forall_reg (by simp) (by simp) (by simp) (by simp [hesp, htwo])
          fun r h₁ h₂ h₃ h₄ => by simp [h₁, h₂, h₃, h₄, hother]
      · simp
    · have hpushed : pushed (some reg) = 12#32 := by simp [pushed, hne₁, hne₂, hne₃]
      rw [hpushed] at hesp
      refine ⟨_, by simp [restorePlan, savedCells, View.execAll, View.exec, View.setReg, hne₁, hne₂,
        hne₃, hreg]; rfl, ?_, ?_⟩
      · refine forall_reg (by simp) (by simp [hne₂.symm]) (by simp [hne₃.symm])
          (by simp [hreg.symm, hesp, hthree]) fun r h₁ h₂ h₃ h₄ hr => ?_
        have hr : r ≠ reg := fun h => hr (congrArg some h.symm)
        simp [h₁, h₂, h₃, h₄, hr, hother]
      · simp [hne₁, hreg]

structure Loads (dest : Option Reg) (before : List Instr) (argRegs : (Reg → Word) → Reg → Word) :
    Prop where
  short : before.length ≤ 10
  execAll : ∀ regs, (⟨regs, []⟩ : View).execAll before =
    some ⟨argRegs regs, savedCells regs dest⟩
  kept : ∀ regs r, r ≠ eax → r ≠ ecx → r ≠ edx → argRegs regs r = below regs (pushed dest) r

theorem Loads.of_args {dest : Option Reg} {args : List Instr} {g : (Reg → Word) → Reg → Word}
    (hshort : args.length ≤ 3)
    (hexec : ∀ regs cells, (⟨regs, cells⟩ : View).execAll args = some ⟨g regs, cells⟩)
    (hkept : ∀ regs r, r ≠ eax → r ≠ ecx → r ≠ edx → g regs r = regs r) :
    Loads dest (savePlan dest ++ args) fun regs => g (below regs (pushed dest)) where
  short := by
    have := length_savePlan dest
    rw [length_append]
    omega
  execAll regs := by
    rw [View.execAll_append, execAll_savePlan]
    exact hexec _ _
  kept regs := hkept _

def leaRegs (regs : Reg → Word) : Reg → Word :=
  if m.reg = edx then
    if m.rm = 0 then update regs ecx (regs edx) else update regs eax (regs edx)
  else regs

def argsRegs (regs : Reg → Word) : Reg → Word :=
  update (update (leaRegs m regs) edx (a.ea (leaRegs m regs))) eax (regs m.reg)

theorem execAll_argsPlan (regs : Reg → Word) (cells : List Word) :
    (⟨regs, cells⟩ : View).execAll (argsPlan m a) = some ⟨argsRegs m a regs, cells⟩ := by
  rw [argsPlan, argsRegs, leaRegs]
  by_cases hedx : m.reg = edx
  · by_cases hrm : m.rm = 0#3
    · simp [hedx, hrm, View.execAll, View.exec, View.setReg]
    · have hsame : ∀ x,
          update (update (update regs eax (regs edx)) edx x) eax
            (regs edx) = update (update regs eax (regs edx)) edx x := by simp
      simp [hedx, hrm, View.execAll, View.exec, View.setReg, hsame]
  · by_cases heax : m.reg = eax
    · have hsame : ∀ x, update (update regs edx x) eax (regs eax) =
          update regs edx x := by simp
      simp [heax, View.execAll, View.exec, View.setReg, hsame]
    · simp [hedx, heax, View.execAll, View.exec, View.setReg]

theorem loads_argsPlan :
    Loads dest (savePlan dest ++ argsPlan m a)
      fun regs => argsRegs m a (below regs (pushed dest)) := by
  refine .of_args ?_ (execAll_argsPlan m a) fun regs r h₁ h₂ h₃ => ?_
  · rw [argsPlan]
    split_ifs <;> simp
  · rw [argsRegs, leaRegs]
    split_ifs <;> simp [h₁, h₂, h₃]

def Access.ArgsRight (a : Access) (regs argRegs : Reg → Word) : Prop :=
  match a.source with
  | some r => argRegs eax = regs r ∧ argRegs edx = a.addr.ea regs
  | none => argRegs eax = a.addr.ea regs

/-- **A patch makes its access exactly when it always loads the right arguments.** -/
theorem makes_iff {start : Word} {code : List Byte} {a : Access} {before : List Instr}
    {argRegs : (Reg → Word) → Reg → Word} (hdest : a.dest ≠ some esp)
    (hcode : Decodes start code (before ++ .call a.func :: restorePlan a.dest))
    (hargs : Loads a.dest before argRegs) :
    Makes start code a ↔ ∀ regs, a.ArgsRight regs (argRegs regs) := by
  -- what the code does, for any handler and any processor
  have hrun : ∀ env, Regparm env → ∀ cpu : Cpu, ∃ (s : State) (r : Word),
      run env code.length start code ⟨cpu, []⟩ = some s ∧
      s.calls = [⟨a.func, argRegs cpu.regs eax, argRegs cpu.regs edx, r⟩] ∧
      (∀ q, a.dest ≠ some q → s.cpu.regs q = cpu.regs q) ∧
      (∀ q, a.dest = some q → s.cpu.regs q = r) := by
    intro env henv cpu
    have hlen : before.length ≤ 2 ^ 10 ∧ (restorePlan a.dest).length ≤ 2 ^ 10 := by
      have hbefore := hargs.short
      have hrestore := length_restorePlan a.dest
      omega
    obtain ⟨regs, hkept, hafter⟩ := execAll_call henv hlen (hargs.execAll cpu.regs)
      (length_savedCells _ _) a.func
    obtain ⟨v, hv, hv₁, hv₂⟩ := execAll_restorePlan hdest
      fun r h₁ h₂ h₃ => (hkept r h₁ h₂ h₃).trans (hargs.kept cpu.regs r h₁ h₂ h₃)
    obtain ⟨hregs, hcalls⟩ := hafter v hv
    refine ⟨_, regs eax, run_of_decodes env hcode _ _ hcode.length_le, hcalls, ?_, ?_⟩
    · intro q hq
      rw [hregs, hv₁ q hq]
    · intro q hq
      rw [hregs, hv₂ q hq]
  constructor
  · intro h regs
    have hid : Regparm fun _ s => s := ⟨fun _ _ _ _ _ _ => rfl, fun _ _ _ _ => rfl⟩
    obtain ⟨s, c, hs, hmade⟩ := h _ hid ⟨regs, fun _ => 0⟩
    obtain ⟨s', r, hs', hcalls, -, -⟩ := hrun _ hid ⟨regs, fun _ => 0⟩
    obtain rfl : s' = s := Option.some.inj (hs'.symm.trans hs)
    obtain rfl : c = _ := singleton_injective (hmade.called.symm.trans hcalls)
    exact hmade.args
  · intro h env henv cpu
    obtain ⟨s, r, hs, hcalls, hkept, hresult⟩ := hrun env henv cpu
    exact ⟨s, _, hs, hcalls, rfl, h cpu.regs, hkept, hresult⟩

end Rewrite
