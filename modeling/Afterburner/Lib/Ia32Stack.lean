import Afterburner.Lib.Ia32

/-!
# The stack of a piece of IA-32 code

Code that uses the stack only for what it pushes is followed on a `View`: the registers and the
words pushed.
-/

namespace Ia32
open Function List
namespace Cpu
variable (s : Cpu) (a b v : Word)

theorem mem_store32_add {j : Word} (hj : j.toNat < 4) :
    (s.store32 a v).mem (a + j) = v.extractLsb' (8 * j.toNat) 8 := by
  grind [BitVec.add_comm, BitVec.add_sub_cancel, store32]

theorem load32_store32_self : (s.store32 a v).load32 a = v := by
  have h₀ := s.mem_store32_add a v (j := 0#32) (by decide)
  have h₁ := s.mem_store32_add a v (j := 1) (by decide)
  have h₂ := s.mem_store32_add a v (j := 2) (by decide)
  have h₃ := s.mem_store32_add a v (j := 3) (by decide)
  rw [BitVec.add_zero] at h₀
  rw [load32, h₀, h₁, h₂, h₃]
  exact le32_extractLsb' v

theorem mem_store32_of_le {x : Word} (hx : 4 ≤ (x - a).toNat) :
    (s.store32 a v).mem x = s.mem x := if_neg (by omega)

theorem load32_store32_of_le (h : 4 ≤ (b - a).toNat) (h' : (b - a).toNat + 4 ≤ 2 ^ 32) :
    (s.store32 a v).load32 b = s.load32 b := by
  have hbyte : ∀ j : Word, j.toNat < 4 → (s.store32 a v).mem (b + j) = s.mem (b + j) := by
    intro j hj
    apply mem_store32_of_le
    have hsub : b + j - a = (b - a) + j := by grind
    rw [hsub, BitVec.toNat_add, Nat.mod_eq_of_lt (by omega)]
    omega
  have h₀ := hbyte 0#32 (by decide)
  rw [BitVec.add_zero] at h₀
  rw [load32, load32, h₀, hbyte 1 (by decide), hbyte 2 (by decide), hbyte 3 (by decide)]

end Cpu

structure View where
  regs : Reg → Word
  cells : List Word

variable (v : View)

namespace View

def setReg (r : Reg) (w : Word) : View := { v with regs := update v.regs r w }

def exec : Instr → Option View
  | .push r => some ⟨update v.regs esp (v.regs esp - 4), v.regs r :: v.cells⟩
  | .pop r =>
    match v.cells with
    | [] => none
    | w :: cells =>
      if r = esp then none
      else some ⟨update (update v.regs esp (v.regs esp + 4)) r w, cells⟩
  | .lea dst a => if dst = esp then none else some (v.setReg dst (a.ea v.regs))
  | .mov dst src => if dst = esp then none else some (v.setReg dst (v.regs src))
  | .movImm dst imm => if dst = esp then none else some (v.setReg dst imm)
  | .call _ => none

def execAll (v : View) : List Instr → Option View
  | [] => some v
  | i :: is => (v.exec i).bind fun v => v.execAll is

end View

theorem View.execAll_append (is js : List Instr) :
    v.execAll (is ++ js) = (v.execAll is).bind fun v => v.execAll js := by
  induction is generalizing v with
  | nil => rfl
  | cons i is ih =>
    rw [cons_append, View.execAll, View.execAll, Option.bind_assoc]
    exact congrArg _ (funext fun v => ih v)

theorem View.length_exec_le {v v' : View} {i : Instr} (h : v.exec i = some v') :
    v'.cells.length ≤ v.cells.length + 1 := by
  cases i with
  | push r =>
    cases h
    exact le_rfl
  | pop r =>
    rw [View.exec] at h
    split at h
    · cases h
    next w cells hcells =>
      split_ifs at h
      cases h
      rw [hcells]
      exact (Nat.le_succ _).trans (Nat.le_succ _)
  | lea dst a =>
    rw [View.exec] at h
    split_ifs at h
    cases h
    exact Nat.le_succ _
  | mov dst src =>
    rw [View.exec] at h
    split_ifs at h
    cases h
    exact Nat.le_succ _
  | movImm dst imm =>
    rw [View.exec] at h
    split_ifs at h
    cases h
    exact Nat.le_succ _
  | call t => cases h

structure Cpu.Views (s : Cpu) (v : View) : Prop where
  regs : s.regs = v.regs
  cells : ∀ i w, v.cells[i]? = some w → s.load32 (v.regs esp + BitVec.ofNat 32 (4 * i)) = w

section Views
variable {env : Word → Cpu → Cpu} {s : State} {v} {v' : View} {i : Instr}

theorem Cpu.Views.setReg {s : Cpu} (h : s.Views v) {r : Reg} (hr : r ≠ esp) (w : Word) :
    (s.setReg r w).Views (v.setReg r w) where
  regs := by rw [Cpu.setReg, View.setReg, h.regs]
  cells := by
    have hesp : (v.setReg r w).regs esp = v.regs esp := update_of_ne hr.symm ..
    rw [hesp]
    exact h.cells

theorem Cpu.Views.push {s : Cpu} (h : s.Views v) (hlen : v.cells.length ≤ 2 ^ 20) (w : Word) :
    ((s.store32 (v.regs esp - 4) w).setReg esp (v.regs esp - 4)).Views
      ⟨update v.regs esp (v.regs esp - 4), w :: v.cells⟩ where
  regs := by rw [← h.regs]; rfl
  cells := by
    intro i x hx
    show (s.store32 (v.regs esp - 4) w).load32
      (update v.regs esp (v.regs esp - 4) esp + BitVec.ofNat 32 (4 * i)) = x
    rw [update_self]
    cases i with
    | zero =>
      obtain rfl : w = x := Option.some.inj hx
      rw [Nat.mul_zero, BitVec.add_zero]
      exact s.load32_store32_self _ _
    | succ i =>
      have hx : v.cells[i]? = some x := hx
      have hi : i < v.cells.length := (List.getElem?_eq_some_iff.1 hx).1
      have hsub : v.regs esp - 4 + BitVec.ofNat 32 (4 * (i + 1)) - (v.regs esp - 4) =
          BitVec.ofNat 32 (4 * (i + 1)) := by rw [BitVec.add_comm, BitVec.add_sub_cancel]
      have hnat : (BitVec.ofNat 32 (4 * (i + 1))).toNat = 4 * (i + 1) := by
        rw [BitVec.toNat_ofNat, Nat.mod_eq_of_lt (by omega)]
      have haddr : v.regs esp - 4 + BitVec.ofNat 32 (4 * (i + 1)) =
          v.regs esp + BitVec.ofNat 32 (4 * i) := by
        rw [Nat.mul_succ, BitVec.ofNat_add, BitVec.add_comm (BitVec.ofNat 32 (4 * i)),
          ← BitVec.add_assoc]
        exact congrArg (· + BitVec.ofNat 32 (4 * i)) (BitVec.sub_add_cancel ..)
      rw [s.load32_store32_of_le _ _ _ (by rw [hsub, hnat]; omega) (by rw [hsub, hnat]; omega),
        haddr]
      exact h.cells i x hx

theorem Cpu.Views.pop {s : Cpu} {w : Word} {cells : List Word} (h : s.Views ⟨v.regs, w :: cells⟩) :
    (s.setReg esp (v.regs esp + 4)).Views
      ⟨update v.regs esp (v.regs esp + 4), cells⟩ where
  regs := by rw [Cpu.setReg, h.regs]
  cells := by
    intro i x hx
    show s.load32
      (update v.regs esp (v.regs esp + 4) esp + BitVec.ofNat 32 (4 * i)) = x
    rw [update_self]
    have haddr : v.regs esp + 4 + BitVec.ofNat 32 (4 * i) =
        v.regs esp + BitVec.ofNat 32 (4 * (i + 1)) := by
      rw [Nat.mul_succ, BitVec.ofNat_add, BitVec.add_comm (BitVec.ofNat 32 (4 * i)),
        ← BitVec.add_assoc]
      rfl
    rw [haddr]
    exact h.cells (i + 1) x hx

theorem Cpu.Views.exec (env : Word → Cpu → Cpu) (h : s.cpu.Views v) (hlen : v.cells.length ≤ 2 ^ 20)
    (hi : v.exec i = some v') :
    (Ia32.exec env s i).cpu.Views v' ∧ (Ia32.exec env s i).calls = s.calls := by
  cases i with
  | push r =>
    cases hi
    rw [Ia32.exec, h.regs]
    exact ⟨h.push hlen _, rfl⟩
  | pop r =>
    rw [View.exec] at hi
    split at hi
    · cases hi
    next w cells hcells =>
      split_ifs at hi with hr
      cases hi
      have h : s.cpu.Views ⟨v.regs, w :: cells⟩ := hcells ▸ h
      have htop : s.cpu.load32 (v.regs esp) = w := by
        have := h.cells 0 w rfl
        rwa [Nat.mul_zero, BitVec.add_zero] at this
      rw [Ia32.exec, h.regs]
      rw [htop]
      exact ⟨h.pop.setReg hr w, rfl⟩
  | lea dst a =>
    rw [View.exec] at hi
    split_ifs at hi with hr
    cases hi
    rw [Ia32.exec, h.regs]
    exact ⟨h.setReg hr _, rfl⟩
  | mov dst src =>
    rw [View.exec] at hi
    split_ifs at hi with hr
    cases hi
    rw [Ia32.exec, h.regs]
    exact ⟨h.setReg hr _, rfl⟩
  | movImm dst imm =>
    rw [View.exec] at hi
    split_ifs at hi with hr
    cases hi
    exact ⟨h.setReg hr _, rfl⟩
  | call t => cases hi

theorem Cpu.Views.execAll (env : Word → Cpu → Cpu) {is : List Instr} (h : s.cpu.Views v)
    (hlen : v.cells.length + is.length ≤ 2 ^ 20) (hi : v.execAll is = some v') :
    (Ia32.execAll env is s).cpu.Views v' ∧ (Ia32.execAll env is s).calls = s.calls := by
  induction is generalizing s v with
  | nil =>
    cases hi
    exact ⟨h, rfl⟩
  | cons i is ih =>
    rw [length_cons] at hlen
    obtain ⟨u, hu, hi⟩ := Option.bind_eq_some_iff.1 hi
    obtain ⟨h', hcalls⟩ := h.exec env (by omega) hu
    have hgrow := View.length_exec_le hu
    obtain ⟨h'', hcalls'⟩ := ih h' (by omega) hi
    exact ⟨h'', hcalls'.trans hcalls⟩

theorem Regparm.views {s : Cpu} (henv : Regparm env) (h : s.Views v) (hlen : v.cells.length ≤ 3)
    (t : Word) : (env t s).Views ⟨(env t s).regs, v.cells⟩ where
  regs := rfl
  cells := by
    intro i w hw
    have hi : i < v.cells.length := (List.getElem?_eq_some_iff.1 hw).1
    have hesp : (env t s).regs esp = v.regs esp := by
      rw [henv.regs t s esp (by decide) (by decide) (by decide), h.regs]
    have hbyte : ∀ j : Word, j.toNat < 4 →
        (env t s).mem (v.regs esp + BitVec.ofNat 32 (4 * i) + j) =
          s.mem (v.regs esp + BitVec.ofNat 32 (4 * i) + j) := by
      intro j hj
      have hnat : (BitVec.ofNat 32 (4 * i) + j).toNat = 4 * i + j.toNat := by
        rw [BitVec.toNat_add, BitVec.toNat_ofNat, Nat.mod_add_mod, Nat.mod_eq_of_lt (by omega)]
      have := henv.stack t s (BitVec.ofNat 32 (4 * i) + j) (by omega)
      rwa [h.regs, ← BitVec.add_assoc] at this
    have h₀ := hbyte 0#32 (by decide)
    rw [BitVec.add_zero] at h₀
    rw [← h.cells i w hw]
    show (env t s).load32 ((env t s).regs esp + BitVec.ofNat 32 (4 * i)) = _
    rw [hesp, Cpu.load32, Cpu.load32, h₀, hbyte 1 (by decide), hbyte 2 (by decide),
      hbyte 3 (by decide)]

/-- **A call between two pieces of code.** -/
theorem execAll_call (henv : Regparm env) {cpu : Cpu} {before after : List Instr}
    (hshort : before.length ≤ 2 ^ 10 ∧ after.length ≤ 2 ^ 10)
    (hb : (⟨cpu.regs, []⟩ : View).execAll before = some v) (hlen : v.cells.length ≤ 3) (f : Word) :
    ∃ regs : Reg → Word, (∀ r, r ≠ eax → r ≠ ecx → r ≠ edx → regs r = v.regs r) ∧
      ∀ v', (⟨regs, v.cells⟩ : View).execAll after = some v' →
        (execAll env (before ++ .call f :: after) ⟨cpu, []⟩).cpu.regs = v'.regs ∧
        (execAll env (before ++ .call f :: after) ⟨cpu, []⟩).calls =
          [⟨f, v.regs eax, v.regs edx, regs eax⟩] := by
  have hcpu : cpu.Views ⟨cpu.regs, []⟩ := ⟨rfl, fun i w hw => by cases hw⟩
  obtain ⟨hv, hcalls⟩ := Cpu.Views.execAll env (s := ⟨cpu, []⟩) hcpu
    (by rw [length_nil]; omega) hb
  generalize hs : execAll env before ⟨cpu, []⟩ = s at hv hcalls
  refine ⟨(env f s.cpu).regs, fun r h₁ h₂ h₃ => ?_, fun v' hv' => ?_⟩
  · rw [henv.regs f s.cpu r h₁ h₂ h₃, hv.regs]
  · have hsplit : execAll env (before ++ .call f :: after) ⟨cpu, []⟩ =
        execAll env after (exec env s (.call f)) := by
      rw [← hs]
      exact foldl_append ..
    have hcall : (exec env s (.call f)).cpu.Views ⟨(env f s.cpu).regs, v.cells⟩ :=
      henv.views hv hlen f
    obtain ⟨h', hcalls'⟩ := hcall.execAll env (by simp only; omega) hv'
    rw [hsplit]
    refine ⟨h'.regs, hcalls'.trans ?_⟩
    show s.calls ++ [⟨f, s.cpu.regs eax, s.cpu.regs edx, (env f s.cpu).regs eax⟩] = _
    rw [hcalls, hv.regs]
    rfl

end Views
end Ia32
