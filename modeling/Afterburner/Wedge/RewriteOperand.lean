import Afterburner.Wedge.Rewrite
import Mathlib.Data.BitVec

/-!
# Operands that are moved

An operand relative to the stack pointer has to be moved by what has been pushed, which
`append_modrm` does.
-/
variable (e : Emitter)

namespace Rewrite
open Ia32 Function List Emitter Option

def reencode (mod : BitVec 2) (off : Word) (a : Addr) : Addr :=
  if a.base = some esp then
    { a with disp := if mod = 2 then a.disp + off
                     else (a.disp.setWidth 8 + off.setWidth 8).signExtend 32 }
  else a

theorem setWidth_signExtend (b : Byte) : (b.signExtend 32).setWidth 8 = b := by
  apply BitVec.eq_of_getLsbD_eq
  intro i hi
  simp only [BitVec.getLsbD_setWidth, BitVec.getLsbD_signExtend, hi, decide_true, Bool.true_and,
    if_true, Bool.and_eq_right_iff_imp, decide_eq_true_eq]
  intro _
  omega

def Appends (m : Modrm) (suffixes : ℕ → Byte) (a : Addr) : Prop :=
  ∃ (m' : Modrm) (tail : List Byte), m'.reg = m.reg ∧
    (e.put [m.raw]).appendModrm m suffixes = e.put (m'.raw :: tail) ∧
    ∀ rest, decodeAddr m' (tail ++ rest) = some (a, rest)

theorem mod_cases (x : BitVec 2) (h : x ≠ 3) : x = 0 ∨ x = 1 ∨ x = 2 := by
  revert x
  decide

section Append

variable {mod : BitVec 2} {reg rm : BitVec 3} {suffixes : ℕ → Byte} {a : Addr} {rest₀ : List Byte}

theorem appends_of_esp (hmod : mod ≠ 3) (hesp : (Sib.ofRaw (suffixes 0)).base = 4)
    (ha : decodeAddr ⟨mod, reg, 4⟩ ((range 6).map suffixes) = some (a, rest₀)) :
    Appends e ⟨mod, reg, 4⟩ suffixes (reencode mod e.stackOffset a) := by
  rw [show (range 6).map suffixes =
    [suffixes 0, suffixes 1, suffixes 2, suffixes 3, suffixes 4, suffixes 5] from rfl] at ha
  rcases mod_cases mod hmod with rfl | rfl | rfl
  · -- there was no displacement: now it is the offset
    simp [decodeAddr, decodeSib, takeDisp, hesp] at ha
    obtain ⟨rfl, -⟩ := ha
    refine ⟨⟨1, reg, 4⟩, [suffixes 0, e.stackOffset.setWidth 8], rfl, ?_, fun rest => ?_⟩
    · simp [appendModrm, put, hesp]
    · simp [decodeAddr, decodeSib, takeDisp, take8, reencode, esp, hesp]
  · obtain ⟨rfl, -⟩ := ha
    refine ⟨⟨1, reg, 4⟩, [suffixes 0, suffixes 1 + e.stackOffset.setWidth 8], rfl, ?_,
      fun rest => ?_⟩
    · simp [appendModrm, put, hesp]
    · simp [decodeAddr, decodeSib, takeDisp, take8, reencode, esp, hesp, setWidth_signExtend]
  · obtain ⟨rfl, -⟩ := ha
    refine ⟨⟨2, reg, 4⟩,
      suffixes 0 :: bytes32 (word32 (fun i => suffixes (i + 1)) + e.stackOffset), rfl, ?_,
      fun rest => ?_⟩
    · simp [appendModrm, put, hesp]
    · simp [decodeAddr, decodeSib, takeDisp, reencode, esp, hesp, word32]

theorem appends_of_sib (hmod : mod ≠ 3) (hesp : (Sib.ofRaw (suffixes 0)).base ≠ 4#3)
    (ha : decodeAddr ⟨mod, reg, 4⟩ ((range 6).map suffixes) = some (a, rest₀)) :
    a.base ≠ some esp ∧ Appends e ⟨mod, reg, 4⟩ suffixes a := by
  rw [show (range 6).map suffixes =
    [suffixes 0, suffixes 1, suffixes 2, suffixes 3, suffixes 4, suffixes 5] from rfl] at ha
  rcases mod_cases mod hmod with rfl | rfl | rfl
  · by_cases hnone : (Sib.ofRaw (suffixes 0)).base = 5#3
    · simp [decodeAddr, decodeSib, takeDisp, take32, hnone] at ha
      obtain ⟨rfl, -⟩ := ha
      refine ⟨by simp, ⟨0, reg, 4⟩,
        suffixes 0 :: bytes32 (word32 fun i => suffixes (i + 1)), rfl, ?_, fun rest => ?_⟩
      · simp [appendModrm, put, hnone]
      · simp [decodeAddr, decodeSib, takeDisp, hnone, word32]
    · simp [decodeAddr, decodeSib, takeDisp, hnone] at ha
      obtain ⟨rfl, -⟩ := ha
      refine ⟨by simpa [esp] using hesp, ⟨0, reg, 4⟩, [suffixes 0], rfl, ?_, fun rest => ?_⟩
      · simp [appendModrm, put, hnone, hesp]
      · simp [decodeAddr, decodeSib, takeDisp, hnone]
  · obtain ⟨rfl, -⟩ := ha
    refine ⟨by simpa [esp] using hesp, ⟨1, reg, 4⟩, [suffixes 0, suffixes 1], rfl, ?_,
      fun rest => ?_⟩
    · simp [appendModrm, put, hesp]
    · simp [decodeAddr, decodeSib, takeDisp, take8]
  · obtain ⟨rfl, -⟩ := ha
    refine ⟨by simpa [esp] using hesp, ⟨2, reg, 4⟩,
      suffixes 0 :: bytes32 (word32 fun i => suffixes (i + 1)), rfl, ?_, fun rest => ?_⟩
    · simp [appendModrm, put, hesp]
    · simp [decodeAddr, decodeSib, takeDisp, word32]

theorem appends_of_rm (hmod : mod ≠ 3) (hrm : rm ≠ 4#3)
    (ha : decodeAddr ⟨mod, reg, rm⟩ ((range 6).map suffixes) = some (a, rest₀)) :
    a.base ≠ some esp ∧ Appends e ⟨mod, reg, rm⟩ suffixes a := by
  rw [show (range 6).map suffixes =
    [suffixes 0, suffixes 1, suffixes 2, suffixes 3, suffixes 4, suffixes 5] from rfl] at ha
  rcases mod_cases mod hmod with rfl | rfl | rfl
  · by_cases hnone : rm = 5#3
    · subst hnone
      obtain ⟨rfl, -⟩ := ha
      refine ⟨by simp, ⟨0, reg, 5⟩, bytes32 (word32 suffixes), rfl, ?_, fun rest => ?_⟩
      · simp [appendModrm, put]
      · simp [decodeAddr, takeDisp, word32]
    · simp [decodeAddr, takeDisp, hrm, hnone] at ha
      obtain ⟨rfl, -⟩ := ha
      refine ⟨by simpa [esp] using hrm, ⟨0, reg, rm⟩, [], rfl, ?_, fun rest => ?_⟩
      · simp [appendModrm, put, hrm, hnone]
      · simp [decodeAddr, takeDisp, hrm, hnone]
  · simp [decodeAddr, takeDisp, take8, hrm] at ha
    obtain ⟨rfl, -⟩ := ha
    refine ⟨by simpa [esp] using hrm, ⟨1, reg, rm⟩, [suffixes 0], rfl, ?_, fun rest => ?_⟩
    · simp [appendModrm, put, hrm]
    · simp [decodeAddr, takeDisp, take8, hrm]
  · simp [decodeAddr, takeDisp, take32, hrm] at ha
    obtain ⟨rfl, -⟩ := ha
    refine ⟨by simpa [esp] using hrm, ⟨2, reg, rm⟩, bytes32 (word32 suffixes), rfl, ?_,
      fun rest => ?_⟩
    · simp [appendModrm, put, hrm]
    · simp [decodeAddr, takeDisp, hrm, word32]

end Append
variable {m : Modrm} {suffixes : ℕ → Byte} {a : Addr}

/-- **The operand that is written.** -/
theorem appends {rest₀ : List Byte}
    (ha : decodeAddr m ((range 6).map suffixes) = some (a, rest₀)) :
    Appends e m suffixes (reencode m.mod e.stackOffset a) := by
  obtain ⟨mod, reg, rm⟩ := m
  have hmod : mod ≠ 3 := by
    rintro rfl
    simp [decodeAddr] at ha
  by_cases hrm : rm = 4#3
  · subst hrm
    by_cases hesp : (Sib.ofRaw (suffixes 0)).base = 4#3
    · exact appends_of_esp e hmod hesp ha
    · obtain ⟨hbase, h⟩ := appends_of_sib e hmod hesp ha
      rwa [reencode, if_neg hbase]
  · obtain ⟨hbase, h⟩ := appends_of_rm e hmod hrm ha
    rwa [reencode, if_neg hbase]

section Ea
variable {a a' : Addr} {regs : Reg → Word} {off : Word}

def below (regs : Reg → Word) (off : Word) : Reg → Word :=
  update regs esp (regs esp - off)

theorem ea_update_of_ne {r : Reg} (hbase : a.base ≠ some r) (hindex : a.index ≠ some r) (v : Word) :
    a.ea (update regs r v) = a.ea regs := by
  have helim : ∀ o : Option Reg, o ≠ some r →
      o.elim 0 (update regs r v) = o.elim 0 regs := by
    intro o ho
    cases o with
    | none => rfl
    | some q => exact update_of_ne (fun h => ho (congrArg some h)) ..
  rw [Addr.ea, Addr.ea, helim _ hbase, helim _ hindex]

theorem sub_add_iff (e o i d d' : Word) : e - o + i + d' = e + i + d ↔ d' = d + o := by
  constructor
  · intro h
    linear_combination h
  · intro h
    linear_combination h

theorem ea_below_iff (hbase : a'.base = a.base) (hindex : a'.index = a.index)
    (hscale : a'.scale = a.scale) (hne : a.index ≠ some esp) (hkeep : a.base ≠ some esp → a' = a) :
    a'.ea (below regs off) = a.ea regs ↔ (a.base = some esp → a'.disp = a.disp + off) := by
  by_cases hesp : a.base = some esp
  · have hidx : a.index.elim 0 (below regs off) = a.index.elim 0 regs := by
      cases hi : a.index with
      | none => rfl
      | some q => exact update_of_ne (fun h => hne (hi.trans (congrArg some h))) ..
    have hval : below regs off esp = regs esp - off := update_self ..
    rw [Addr.ea, Addr.ea, hbase, hindex, hscale, hidx, hesp]
    simp only [elim_some, hval, forall_const]
    exact sub_add_iff ..
  · rw [hkeep hesp, below, ea_update_of_ne hesp hne]
    exact iff_of_true rfl fun h => absurd h hesp

end Ea

structure Names (m : Modrm) (suffixes : ℕ → Byte) (a : Addr) : Prop where
  index_ne : a.index ≠ some esp
  base_esp : a.base = some esp ↔ m.rm = 4 ∧ (Sib.ofRaw (suffixes 0)).base = esp
  uses_eax : m.rm ≠ 0 → (a.base = some eax ∨ a.index = some eax ↔ m.rm = 4 ∧
    ((Sib.ofRaw (suffixes 0)).base = eax ∨ (Sib.ofRaw (suffixes 0)).index = eax))
  rm_eax : m.rm = 0 → a.base = some eax ∧ a.index = none
  disp : m.mod = 1 → m.rm = 4 → a.disp = (suffixes 1).signExtend 32

theorem base_eq_some_iff {q r : Reg} (mod : BitVec 2) (hr : r ≠ 5) :
    (if decide (q = 5 ∧ mod = 0) then none else some q) = some r ↔ q = r := by
  split_ifs with hnone
  · refine iff_of_false (fun h => by cases h) fun h => hr (h.symm.trans ?_)
    exact (of_decide_eq_true hnone).1
  · exact some_inj

theorem index_eq_some_iff {q r : Reg} :
    (if q = 4 then none else some q) = some r ↔ q = r ∧ r ≠ 4 := by
  split_ifs with hnone
  · refine iff_of_false (fun h => by cases h) fun h => h.2 (h.1.symm.trans hnone)
  · rw [some_inj]
    exact ⟨fun h => ⟨h, h ▸ hnone⟩, And.left⟩

theorem mod_ne_of_decodeAddr {bytes rest : List Byte} (h : decodeAddr m bytes = some (a, rest)) :
    m.mod ≠ 3 := by simp_all [decodeAddr]

section
variable {rest : List Byte} (h : decodeAddr m ((range 6).map suffixes) = some (a, rest))
include h

theorem names_of_decodeAddr : Names m suffixes a := by
  rw [decodeAddr, if_neg (mod_ne_of_decodeAddr h)] at h
  by_cases hrm : m.rm = 4
  · rw [if_pos hrm] at h
    obtain ⟨⟨d, rest'⟩, hd, heq⟩ := map_eq_some_iff.1 h
    cases heq
    constructor
    · exact fun h => (index_eq_some_iff.1 h).2 rfl
    · rw [base_eq_some_iff _ (by decide)]
      tauto
    · intro _
      rw [base_eq_some_iff _ (by decide), index_eq_some_iff]
      tauto
    · simp [hrm]
    · intro h1 _
      rw [takeDisp, if_pos h1] at hd
      cases hd
      rfl
  · rw [if_neg hrm] at h
    obtain ⟨⟨d, rest'⟩, hd, heq⟩ := map_eq_some_iff.1 h
    cases heq
    constructor
    · simp
    · rw [base_eq_some_iff _ (by decide)]
      exact iff_of_false hrm fun h => hrm h.1
    · intro h0
      rw [base_eq_some_iff _ (by decide)]
      refine iff_of_false ?_ fun h => hrm h.1
      rintro (h | h)
      · exact h0 h
      · cases h
    · intro h0
      exact ⟨(base_eq_some_iff _ (by decide)).2 h0, rfl⟩
    · intro _ h4
      exact absurd h4 hrm

theorem disp_of_decodeAddr (hmod : m.mod = 0) (hrm : m.rm = 4)
    (hsib : (Sib.ofRaw (suffixes 0)).base = esp) : a.disp = 0 := by
  rw [decodeAddr, if_neg (mod_ne_of_decodeAddr h), if_pos hrm] at h
  obtain ⟨⟨d, rest'⟩, hd, heq⟩ := map_eq_some_iff.1 h
  cases heq
  rw [hmod, hsib] at hd
  cases hd
  rfl

end

def SameOperand (m : Modrm) (suffixes : ℕ → Byte) : Prop :=
  ∀ a rest, decodeAddr m ((range 6).map suffixes) = some (a, rest) →
    ∃ (m' : Modrm) (tail : List Byte) (a' : Addr),
      (e.put [m.raw]).appendModrm m suffixes = e.put (m'.raw :: tail) ∧ m'.reg = m.reg ∧
        (∀ rest, decodeAddr m' (tail ++ rest) = some (a', rest)) ∧
        ∀ regs, a'.ea (below regs e.stackOffset) = a.ea regs

def InByte (m : Modrm) (suffixes : ℕ → Byte) (off : Word) : Prop :=
  m.rm = 4 → (Sib.ofRaw (suffixes 0)).base = esp →
    (m.mod = 0 → -128 ≤ off.toInt ∧ off.toInt ≤ 127) ∧
    (m.mod = 1 → -128 ≤ (suffixes 1).toInt + off.toInt ∧ (suffixes 1).toInt + off.toInt ≤ 127)

section Same

variable {e} {m : Modrm} {suffixes : ℕ → Byte} {a : Addr} {off : Word} {rest : List Byte}

variable (mod : BitVec 2)

theorem reencode_base : (reencode mod off a).base = a.base := by
  rw [reencode]
  split_ifs <;> rfl

theorem reencode_index : (reencode mod off a).index = a.index := by
  rw [reencode]
  split_ifs <;> rfl

theorem reencode_scale : (reencode mod off a).scale = a.scale := by
  rw [reencode]
  split_ifs <;> rfl

theorem ea_reencode_iff (ha : decodeAddr m ((range 6).map suffixes) = some (a, rest))
    (regs : Reg → Word) : (reencode m.mod off a).ea (below regs off) = a.ea regs ↔
      (a.base = some esp → (reencode m.mod off a).disp = a.disp + off) :=
  ea_below_iff (reencode_base m.mod) (reencode_index m.mod) (reencode_scale m.mod)
    (names_of_decodeAddr ha).index_ne fun hbase => if_neg hbase

theorem sameOperand_iff_disp
    (ha : decodeAddr m ((range 6).map suffixes) = some (a, rest)) :
    SameOperand e m suffixes ↔
      (a.base = some esp → (reencode m.mod e.stackOffset a).disp = a.disp + e.stackOffset) := by
  obtain ⟨m', tail, hreg, heq, hdec⟩ := appends e ha
  constructor
  · intro h
    obtain ⟨m'', tail', a', heq', -, hdec', hea⟩ := h a rest ha
    have hout : e.out ++ m'.raw :: tail = e.out ++ m''.raw :: tail' :=
      congrArg out (heq.symm.trans heq')
    obtain ⟨hraw, htail⟩ := cons.inj (append_cancel_left hout)
    have hm : m' = m'' := by rw [← m'.ofRaw_raw, hraw, m''.ofRaw_raw]
    subst hm htail
    obtain rfl : reencode m.mod e.stackOffset a = a' :=
      congrArg Prod.fst (some.inj ((hdec []).symm.trans (hdec' [])))
    exact (ea_reencode_iff ha 0).1 (hea 0)
  · intro h a₂ rest₂ ha₂
    obtain ⟨rfl, rfl⟩ := Prod.mk.inj (some.inj (ha.symm.trans ha₂))
    exact ⟨m', tail, _, heq, hreg, hdec, fun regs => (ea_reencode_iff ha regs).2 h⟩

theorem signExtend_add_eq_iff (d : Byte) (off : Word) :
    (d + off.setWidth 8).signExtend 32 = d.signExtend 32 + off ↔
      -128 ≤ d.toInt + off.toInt ∧ d.toInt + off.toInt ≤ 127 := by
  have hd := d.toInt_lt
  have hd' := d.le_toInt
  have hoff := off.toInt_lt
  have hoff' := off.le_toInt
  rw [← BitVec.toInt_inj, BitVec.toInt_signExtend_of_le (by decide), BitVec.toInt_add,
    BitVec.toInt_add, BitVec.toInt_signExtend_of_le (by decide), BitVec.toInt_setWidth,
    Int.add_bmod_bmod]
  have hcong : (off.toNat : ℤ) = off.toInt ∨ (off.toNat : ℤ) = off.toInt + 2 ^ 32 := by
    rw [BitVec.toInt_eq_toNat_cond]
    split_ifs
    · exact .inl rfl
    · exact .inr (by norm_num)
  generalize (off.toNat : ℤ) = z at *
  simp only [Int.bmod_def]
  rcases hcong with rfl | rfl <;> split_ifs <;> omega

theorem exists_decodeAddr (suffixes : ℕ → Byte) (hmod : m.mod ≠ 3) :
    ∃ a rest, decodeAddr m ((range 6).map suffixes) = some (a, rest) := by
  have hdisp (noBase : Bool) (b₀ b₁ b₂ b₃ : Byte) (bytes : List Byte) :
      ∃ d, takeDisp m.mod noBase (b₀ :: b₁ :: b₂ :: b₃ :: bytes) = some d := by
    rw [takeDisp]
    split_ifs <;> exact ⟨_, rfl⟩
  rw [decodeAddr, if_neg hmod]
  split_ifs with hrm
  · obtain ⟨d, hd⟩ := hdisp (decide ((Sib.ofRaw (suffixes 0)).base = 5 ∧ m.mod = 0))
      (suffixes 1) (suffixes 2) (suffixes 3) (suffixes 4) [suffixes 5]
    exact ⟨_, _, congrArg (Option.map _) hd⟩
  · obtain ⟨d, hd⟩ := hdisp (decide (m.rm = 5 ∧ m.mod = 0))
      (suffixes 0) (suffixes 1) (suffixes 2) (suffixes 3) [suffixes 4, suffixes 5]
    exact ⟨_, _, congrArg (Option.map _) hd⟩

theorem disp_reencode_iff (ha : decodeAddr m ((range 6).map suffixes) = some (a, rest)) :
    (a.base = some esp → (reencode m.mod off a).disp = a.disp + off) ↔ InByte m suffixes off := by
  have hn := names_of_decodeAddr ha
  by_cases hbase : a.base = some esp
  · obtain ⟨hrm, hsib⟩ := hn.base_esp.1 hbase
    simp only [InByte, hbase, hrm, hsib, reencode, forall_const, if_true]
    rcases mod_cases m.mod (mod_ne_of_decodeAddr ha) with hmod | hmod | hmod
    · rw [if_neg (by rw [hmod]; decide), disp_of_decodeAddr ha hmod hrm hsib]
      have hzero := signExtend_add_eq_iff 0 off
      rw [show (0 : Byte).signExtend 32 = 0 from rfl] at hzero
      rw [show (0 : Word).setWidth 8 = 0 from rfl, hzero]
      simp [hmod]
    · rw [if_neg (by rw [hmod]; decide), hn.disp hmod hrm, setWidth_signExtend,
        signExtend_add_eq_iff]
      simp [hmod]
    · simp [hmod]
  · refine iff_of_true (fun h => absurd h hbase) fun hrm hsib => ?_
    exact absurd (hn.base_esp.2 ⟨hrm, hsib⟩) hbase

theorem ea_reencode_zero (ha : decodeAddr m ((range 6).map suffixes) = some (a, rest))
    (regs : Reg → Word) : (reencode m.mod 0 a).ea regs = a.ea regs := by
  have hbyte := (suffixes 1).le_toInt
  have hbyte' := (suffixes 1).toInt_lt
  have hzero : (0 : Word).toInt = 0 := rfl
  have hin : InByte m suffixes 0 := fun _ _ =>
    ⟨fun _ => by rw [hzero]; omega, fun _ => by rw [hzero]; omega⟩
  have hbelow : below regs 0 = regs := by
    rw [below, sub_zero, update_eq_self]
  have h := (ea_reencode_iff ha regs).2 ((disp_reencode_iff ha).2 hin)
  rwa [hbelow] at h

end Same

/-- **The operand that is written is the original one exactly when its displacement, if it is
relative to the stack pointer and not a word, can be written in a byte.** -/
theorem sameOperand_iff_inByte (e : Emitter) (m : Modrm) (suffixes : ℕ → Byte) :
    SameOperand e m suffixes ↔ InByte m suffixes e.stackOffset := by
  by_cases hmod : m.mod = 3
  · refine iff_of_true (fun a rest ha => absurd hmod (mod_ne_of_decodeAddr ha)) fun _ _ => ?_
    rw [hmod]
    exact ⟨fun h => absurd h (by decide), fun h => absurd h (by decide)⟩
  · obtain ⟨a, rest, ha⟩ := exists_decodeAddr suffixes hmod
    rw [sameOperand_iff_disp ha, disp_reencode_iff ha]

theorem not_sameOperand_load :
    ¬ SameOperand (((⟨0, [], 0⟩ : Emitter).saveOthers eax).put [0x8d]) ⟨1, eax, 4⟩
      fun i => if i = 0 then 0x24 else 0x7f := by
  have ha : decodeAddr ⟨1, eax, 4⟩ ((range 6).map fun i => if i = 0 then 0x24 else 0x7f) =
      some (⟨some esp, none, 0, 0x7f⟩, replicate 4 0x7f) := by decide
  rw [sameOperand_iff_disp ha]
  decide

end Rewrite
