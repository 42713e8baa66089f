import Afterburner.Wedge.Apics

/-!
# The redirection table and the raising of device interrupts

What a guest does to an IO-APIC and what a device does to the interrupt logic above it.
-/
variable (x : I82093) (s : Apics) (e : RedirEntry)

namespace Wedge
open BitVec I82093 Bits
namespace RedirEntry

def oldDstm : Bool := e.lo.getLsbD 18
def oldPdst : ℕ := (e.hi >>> 16 &&& 0xf).toNat
def oldLdst : Byte := (e.hi >>> 16).setWidth 8

def storeLo (value : Word) : RedirEntry :=
  { e with lo := (e.lo &&& ~~~ 0x1afff) ||| (value &&& 0x1afff) }

def storeHi (value : Word) : RedirEntry :=
  let mask : Word := if e.dstm then 0xff000000 else 0x0f000000
  { e with hi := (e.hi &&& ~~~ mask) ||| (value &&& mask) }

def saveDest : RedirEntry :=
  let mask : Word := if e.dstm then 0x00ff0000 else 0x000f0000
  { lo := if e.dstm then insert e.lo 18 else erase e.lo 18
    hi := (e.hi &&& ~~~ mask) ||| (e.hi >>> 8 &&& mask) }

def pnd : Bool := e.lo.getLsbD 17
def irr : Bool := e.lo.getLsbD 14
def clearPnd : RedirEntry := { e with lo := erase e.lo 17 }

section Fields
variable (value : Word)

theorem vec_lt : e.vec < 256 := by
  have : (e.lo &&& 0xff).toNat ≤ (0xff : Word).toNat := by
    exact Nat.and_le_right
  exact Nat.lt_succ_of_le this

@[simp] theorem irr_storeLo : (e.storeLo value).irr = e.irr := by simp [storeLo, irr]
@[simp] theorem pnd_storeLo : (e.storeLo value).pnd = e.pnd := by simp [storeLo, pnd]
@[simp] theorem msk_storeLo : (e.storeLo value).msk = value.getLsbD 16 := by simp [storeLo, msk]

@[simp] theorem vec_storeLo : (e.storeLo value).vec = (value &&& 0xff).toNat := by
  have h : (e.storeLo value).lo &&& 0xff = value &&& 0xff := by
    apply eq_of_getLsbD_eq
    intro i hi
    simp only [storeLo]
    interval_cases i <;> simp
  rw [vec, h]

@[simp] theorem irr_storeHi : (e.storeHi value).irr = e.irr := rfl
@[simp] theorem pnd_storeHi : (e.storeHi value).pnd = e.pnd := rfl
@[simp] theorem msk_storeHi : (e.storeHi value).msk = e.msk := rfl

theorem getLsbD_lo_saveDest {n : ℕ} (hn : n ≠ 18) : e.saveDest.lo.getLsbD n = e.lo.getLsbD n := by
  rw [saveDest]
  split_ifs
  · simp [Ne.symm hn]
  · simp [Ne.symm hn]

@[simp] theorem irr_saveDest : e.saveDest.irr = e.irr := getLsbD_lo_saveDest e (by decide)
@[simp] theorem pnd_saveDest : e.saveDest.pnd = e.pnd := getLsbD_lo_saveDest e (by decide)
@[simp] theorem msk_saveDest : e.saveDest.msk = e.msk := getLsbD_lo_saveDest e (by decide)
@[simp] theorem trg_saveDest : e.saveDest.trg = e.trg := getLsbD_lo_saveDest e (by decide)
@[simp] theorem dstm_saveDest : e.saveDest.dstm = e.dstm := getLsbD_lo_saveDest e (by decide)

theorem hi_shift_saveDest : e.saveDest.hi >>> 24 = e.hi >>> 24 := by
  apply eq_of_getLsbD_eq
  intro i hi
  rw [saveDest]
  split_ifs
  · interval_cases i <;> simp
  · interval_cases i <;> simp

@[simp] theorem pdst_saveDest : e.saveDest.pdst = e.pdst := by rw [pdst, pdst, hi_shift_saveDest]
@[simp] theorem ldst_saveDest : e.saveDest.ldst = e.ldst := by rw [ldst, ldst, hi_shift_saveDest]

@[simp] theorem del_saveDest : e.saveDest.del = e.del := by
  have h : e.saveDest.lo >>> 8 &&& (7 : Word) = e.lo >>> 8 &&& 7 := by
    apply eq_of_getLsbD_eq
    intro i hi
    rw [getLsbD_and, getLsbD_and, getLsbD_ushiftRight,
      getLsbD_ushiftRight]
    by_cases hn : 8 + i = 18
    · obtain rfl : i = 10 := by omega
      simp
    · rw [getLsbD_lo_saveDest e hn]
  rw [del, del, h]

@[simp] theorem vec_saveDest : e.saveDest.vec = e.vec := by
  have h : e.saveDest.lo &&& 0xff = e.lo &&& 0xff := by
    apply eq_of_getLsbD_eq
    intro i hi
    rw [getLsbD_and, getLsbD_and]
    by_cases hn : i = 18
    · subst hn
      simp
    · rw [getLsbD_lo_saveDest e hn]
  rw [vec, vec, h]

@[simp] theorem irr_clearPnd : e.clearPnd.irr = e.irr := by
  rw [clearPnd]
  simp [irr]

@[simp] theorem pnd_clearPnd : e.clearPnd.pnd = false := by
  rw [pnd, clearPnd]
  simp

@[simp] theorem msk_clearPnd : e.clearPnd.msk = e.msk := by
  rw [clearPnd]
  simp [msk]

@[simp] theorem trg_clearPnd : e.clearPnd.trg = e.trg := by
  rw [clearPnd]
  simp [trg]

@[simp] theorem dstm_clearPnd : e.clearPnd.dstm = e.dstm := by
  rw [clearPnd]
  simp [dstm]

@[simp] theorem pdst_clearPnd : e.clearPnd.pdst = e.pdst := rfl
@[simp] theorem ldst_clearPnd : e.clearPnd.ldst = e.ldst := rfl

@[simp] theorem del_clearPnd : e.clearPnd.del = e.del := by
  have h : e.clearPnd.lo >>> 8 &&& (7 : Word) = e.lo >>> 8 &&& 7 := by
    apply eq_of_getLsbD_eq
    intro i hi
    simp only [clearPnd, getLsbD_and, getLsbD_ushiftRight, getLsbD_erase]
    by_cases hn : 17 = 8 + i
    · obtain rfl : i = 9 := by omega
      simp
    · simp [hn]
  rw [del, del, h]

@[simp] theorem vec_clearPnd : e.clearPnd.vec = e.vec := by
  have h : e.clearPnd.lo &&& 0xff = e.lo &&& 0xff := by
    apply eq_of_getLsbD_eq
    intro i hi
    simp only [clearPnd, getLsbD_and, getLsbD_erase]
    by_cases hn : 17 = i
    · subst hn
      simp
    · simp [hn]
  rw [vec, vec, h]

end Fields

def store (lower : Bool) (value : Word) : RedirEntry :=
  if lower then e.storeLo value else e.storeHi value

def Enabled (lower : Bool) (value : Word) : Prop :=
  if lower then value.getLsbD 16 = false ∧ e.msk = true else e.msk = false

instance  (lower : Bool) (value : Word) : Decidable (e.Enabled lower value) :=
  inferInstanceAs (Decidable (ite _ _ _))

def Raised (lower : Bool) (value : Word) : Prop :=
  e.Enabled lower value ∧ lower = true ∧ e.pnd = true

instance  (lower : Bool) (value : Word) : Decidable (e.Raised lower value) :=
  inferInstanceAs (Decidable (_ ∧ _))

def stored (lower : Bool) (value : Word) : RedirEntry :=
  if e.Raised lower value then (e.store lower value).saveDest.clearPnd
  else if e.Enabled lower value then (e.store lower value).saveDest
  else e.store lower value

variable {e} {lower : Bool} {value : Word}

theorem stored_of_raised (h : e.Raised lower value) :
    e.stored lower value = (e.store lower value).saveDest.clearPnd := if_pos h

theorem stored_of_enabled (h : ¬ e.Raised lower value) (hen : e.Enabled lower value) :
    e.stored lower value = (e.store lower value).saveDest := (if_neg h).trans (if_pos hen)

theorem stored_of_not_enabled (h : ¬ e.Enabled lower value) :
    e.stored lower value = e.store lower value :=
  (if_neg fun hr => h hr.1).trans (if_neg h)

end RedirEntry
namespace I82093

def setEntry (entry : ℕ) (e : RedirEntry) : I82093 :=
  { x with redtbl := Function.update x.redtbl entry e }

def hwirqOf (entry : ℕ) : Word := BitVec.ofNat 32 entry + x.irqBase

end I82093

abbrev RedtblReg := {r : ℕ // 0x10 ≤ r ∧ r ≤ 0x3f}
def RedtblReg.entry (r : RedtblReg) : ℕ := (r.1 - 0x10) / 2
def RedtblReg.lower (r : RedtblReg) : Bool := decide (r.1 % 2 = 0)
/-- The lower half of entry 5. -/
def lowFive : RedtblReg := ⟨0x1a, by decide, by decide⟩

namespace Apics

def setEntry (s : Apics) (addr : Word) (entry : ℕ) (e : RedirEntry) : Apics :=
  s.setIoapic addr ((s.ioapic addr).setEntry entry e)

def redirOldDestMask : Word :=
  if e.oldDstm then s.logicalMask e.oldLdst
  else 1#32 <<< e.oldPdst &&& (1#32 <<< s.nrVcpus - 1#32)

def destId (mask : Word) : Option ℕ := if mask = 0 then none else some (lsb mask)

def callOn (b : ℕ → BackendCall) : Option ℕ → Apics
  | some vcpu => s.call (b vcpu)
  | none => s

def enableRedirEntryHwirq (addr : Word) (entry : ℕ) : Apics :=
  let e := (s.ioapic addr).redtbl entry
  let hwirq := ((s.ioapic addr).hwirqOf entry).toNat
  let newDestId := destId (s.redirDestMask e)
  let oldDestId := destId (s.redirOldDestMask e)
  let t := s.setHwirq (s.hwirq.setHwirqLatch hwirq)
  let t :=
    if s.hwirq.testHwirqLatch hwirq then
      -- migration
      if oldDestId = newDestId then t
      else (t.callOn (.disableOn hwirq) oldDestId).callOn (.enableOn hwirq) newDestId
    else t.callOn (.enableOn hwirq) newDestId
  t.setEntry addr entry e.saveDest

def redtblStoreAt (addr : Word) (entry : ℕ) (lower : Bool) (value : Word) :
    Apics × Bool :=
  let e := (s.ioapic addr).redtbl entry
  if lower then
    let s := s.setEntry addr entry (e.storeLo value)
    if value.getLsbD 16 = false ∧ e.msk then
      let s := s.enableRedirEntryHwirq addr entry
      let e := (s.ioapic addr).redtbl entry
      if e.pnd then (s.setEntry addr entry e.clearPnd, true) else (s, false)
    else (s, false)
  else
    let s := s.setEntry addr entry (e.storeHi value)
    if e.msk then (s, false) else (s.enableRedirEntryHwirq addr entry, false)

def redtblWriteAt (self : ℕ) (addr : Word) (entry : ℕ) (lower : Bool) (value : Word) :
    Apics :=
  let t := (s.redtblStoreAt addr entry lower value).1
  if (s.redtblStoreAt addr entry lower value).2 then
    t.ioapicRaiseIrq self addr ((s.ioapic addr).hwirqOf entry) true
  else t

def redtblStore (addr : Word) (r : RedtblReg) (value : Word) : Apics × Bool :=
  s.redtblStoreAt addr r.entry r.lower value

def redtblWrite (self : ℕ) (addr : Word) (r : RedtblReg) (value : Word) : Apics :=
  s.redtblWriteAt self addr r.entry r.lower value

def raiseTimerIrq (self : ℕ) : Apics :=
  let timer := (s.lapic self).raw 0xc8
  if timer.getLsbD 16 then s
  else s.raiseVector self self (timer &&& 0xff).toNat 0 false false 0

def raiseWire (self irq : ℕ) : Apics :=
  if (s.lapic self).isVirtualWire = false ∨ irq > 16 then s
  else if irq < 8 then s.setPics self ((s.pics self).chipRaiseIrq .master irq)
  else if irq < 16 then s.setPics self ((s.pics self).chipRaiseIrq .slave irq)
  else s

def raiseIrq (route : ℕ → Word) (self irq : ℕ) : Apics :=
  let s := s.setHwirq (s.hwirq.setHwirqMask irq)
  let s :=
    if irq = 0 then if (s.lapic self).isEnabled then s.raiseTimerIrq self else s
    else if route irq ≠ 0 then
      s.ioapicRaiseIrq self (route irq) (BitVec.ofNat 32 irq) false
    else s
  s.raiseWire self irq

def reraiseVector (s : Apics) (self vector : ℕ) : Apics :=
  let s := s.raiseVector self self vector 0 true false 0
  if (s.lapic self).isVirtualWire then s.setPics self ((s.pics self).reraiseVector vector) else s

inductive Op
  | raiseIrq (self irq : ℕ)
  | redtblWrite (self : ℕ) (addr : Word) (r : RedtblReg) (value : Word)
  | write (self : ℕ) (value : Word) (reg : ℕ)
  | pendingVector (self : ℕ)
  | reraiseVector (self vector : ℕ)

def step (route : ℕ → Word) (s : Apics) : Op → Apics
  | .raiseIrq self irq => s.raiseIrq route self irq
  | .redtblWrite self addr r value => s.redtblWrite self addr r value
  | .write self value reg => s.write self value reg
  | .pendingVector self => (s.pendingVector self).2
  | .reraiseVector self vector => s.reraiseVector self vector

section IoapicRaise
variable (self : ℕ) (addr irq : Word) (reraise : Bool)

def redir (s : Apics) (addr irq : Word) : RedirEntry := (s.ioapic addr).redir irq

def dests (addr irq : Word) : List ℕ :=
  if 15 < (s.redir addr irq).vec ∧ (s.redir addr irq).msk = false then
    scan (s.redirDestMask (s.redir addr irq))
  else []

def levelBit : ℕ := if e.msk then 17 else 14

theorem ioapicRaiseIrq_eq :
    s.ioapicRaiseIrq self addr irq reraise =
      if 15 < (s.redir addr irq).vec then
        ((if (s.redir addr irq).trg then
            s.setIoapic addr ((s.ioapic addr).setLo irq
              (insert (s.redir addr irq).lo (levelBit (s.redir addr irq))))
          else s.unmaskHwirq irq.toNat).raiseAll self (s.redir addr irq).vec irq reraise
            ((s.redir addr irq).trg && decide ((s.redir addr irq).del ≤ 1))
            (if (s.redir addr irq).trg then addr else 0) (s.dests addr irq))
      else s := by
  have hentry : (s.ioapic addr).redir irq = s.redir addr irq := rfl
  rw [ioapicRaiseIrq]
  rw [hentry, dests]
  by_cases hv : 15 < (s.redir addr irq).vec
  · grind [levelBit, raiseAll]
  · rw [if_pos (not_lt.1 hv), if_neg hv]

theorem hwirq_ioapicRaiseIrq :
    (s.ioapicRaiseIrq self addr irq reraise).hwirq =
      if 15 < (s.redir addr irq).vec ∧ (s.redir addr irq).trg = false then
        (s.unmaskHwirq irq.toNat).hwirq
      else s.hwirq := by
  rw [ioapicRaiseIrq_eq]
  by_cases hv : 15 < (s.redir addr irq).vec
  · cases ht : (s.redir addr irq).trg <;> simp [hv, setIoapic]
  · simp [hv]

theorem lapic_ioapicRaiseIrq (j : ℕ) :
    (s.ioapicRaiseIrq self addr irq reraise).lapic j =
      if j ∈ s.dests addr irq then
        (s.lapic j).raise (s.redir addr irq).vec irq reraise
          ((s.redir addr irq).trg && decide ((s.redir addr irq).del ≤ 1))
          (if (s.redir addr irq).trg then addr else 0)
      else s.lapic j := by
  have hnodup : (s.dests addr irq).Nodup := by
    unfold dests
    split_ifs
    · exact nodup_scan _
    · exact List.nodup_nil
  rw [ioapicRaiseIrq_eq]
  by_cases hv : 15 < (s.redir addr irq).vec
  · rw [if_pos hv, lapic_raiseAll _ _ _ _ _ _ hv hnodup]
    cases (s.redir addr irq).trg <;> simp
  · have hnone : s.dests addr irq = [] := if_neg fun h => hv h.1
    rw [if_neg hv, hnone, if_neg List.not_mem_nil]

end IoapicRaise
section Entries

theorem entry_inj {w irq : Word} : x.entry w = x.entry irq ↔ w = irq := by
  rw [entry, entry]
  constructor
  · intro h
    bv_omega
  · rintro rfl
    rfl

theorem entry_hwirqOf {k : ℕ} (hk : k < 2 ^ 32) (w : Word) :
    x.entry w = k ↔ w = x.hwirqOf k := by
  rw [entry, hwirqOf, ← toNat_inj]
  rw [toNat_sub, toNat_add, toNat_ofNat]
  omega

variable (addr : Word) (r : RedtblReg)

@[simp] theorem irqBase_setEntry (a : Word) (k : ℕ) (e : RedirEntry) :
    ((s.setEntry addr k e).ioapic a).irqBase = (s.ioapic a).irqBase := by
  by_cases ha : a = addr
  · subst ha
    rw [setEntry, setIoapic_ioapic_self]
    rfl
  · rw [setEntry, setIoapic_ioapic_of_ne _ _ ha]

theorem redtbl_setEntry (a : Word) (k n : ℕ) (e : RedirEntry) :
    ((s.setEntry addr k e).ioapic a).redtbl n =
      if a = addr ∧ n = k then e else (s.ioapic a).redtbl n := by
  by_cases ha : a = addr
  · subst ha
    rw [setEntry]
    by_cases hn : n = k
    · subst hn
      simp [I82093.setEntry]
    · simp [I82093.setEntry, hn]
  · rw [setEntry, setIoapic_ioapic_of_ne _ _ ha, if_neg fun h => ha h.1]

theorem redtbl_setEntry_self (k : ℕ) (e : RedirEntry) :
    ((s.setEntry addr k e).ioapic addr).redtbl k = e :=
  (redtbl_setEntry ..).trans (if_pos ⟨rfl, rfl⟩)

theorem ioapic_setEntry_setEntry {s t : Apics} {addr : Word} {k : ℕ} {e₁ : RedirEntry}
    (h : t.ioapic = (s.setEntry addr k e₁).ioapic) (e₂ : RedirEntry) :
    (t.setEntry addr k e₂).ioapic = (s.setEntry addr k e₂).ioapic := by
  funext a
  by_cases ha : a = addr
  · subst ha
    simp [setEntry, h, I82093.setEntry]
  · simp [setEntry, setIoapic_ioapic_of_ne _ _ ha, h]

theorem hwirqOf_setEntry (k n : ℕ) (e : RedirEntry) :
    ((s.setEntry addr k e).ioapic addr).hwirqOf n = (s.ioapic addr).hwirqOf n := by
  rw [hwirqOf, irqBase_setEntry]
  rfl

theorem setIoapic_setLo (irq lo : Word) :
    s.setIoapic addr ((s.ioapic addr).setLo irq lo) =
      s.setEntry addr ((s.ioapic addr).entry irq) { s.redir addr irq with lo := lo } := rfl

variable (self : ℕ)

theorem ioapic_ioapicRaiseIrq (addr irq : Word) (reraise : Bool) :
    (s.ioapicRaiseIrq self addr irq reraise).ioapic =
      if 15 < (s.redir addr irq).vec ∧ (s.redir addr irq).trg = true then
        (s.setEntry addr ((s.ioapic addr).entry irq)
          { s.redir addr irq with
            lo := insert (s.redir addr irq).lo (levelBit (s.redir addr irq)) }).ioapic
      else s.ioapic := by
  rw [ioapicRaiseIrq_eq]
  by_cases hv : 15 < (s.redir addr irq).vec
  · cases ht : (s.redir addr irq).trg with
    | false => simp [hv]
    | true =>
      rw [if_pos hv, raiseAll_ioapic, if_pos rfl, if_pos ⟨hv, rfl⟩]
      rfl
  · rw [if_neg hv, if_neg fun h => hv h.1]

@[simp] theorem irqBase_ioapicRaiseIrq (addr irq a : Word) (reraise : Bool) :
    ((s.ioapicRaiseIrq self addr irq reraise).ioapic a).irqBase = (s.ioapic a).irqBase := by
  rw [ioapic_ioapicRaiseIrq]
  split_ifs
  · exact irqBase_setEntry ..
  · rfl

theorem redir_eq_redtbl (a w : Word) : s.redir a w = (s.ioapic a).redtbl ((s.ioapic a).entry w) :=
  rfl

theorem redir_setEntry (a w : Word) (k : ℕ) (e : RedirEntry) :
    (s.setEntry addr k e).redir a w =
      if a = addr ∧ (s.ioapic a).entry w = k then e else s.redir a w := by
  rw [redir_eq_redtbl, redtbl_setEntry, entry, irqBase_setEntry]
  rfl

theorem redir_ioapicRaiseIrq (addr irq a w : Word) (reraise : Bool) :
    (s.ioapicRaiseIrq self addr irq reraise).redir a w =
      if (a = addr ∧ w = irq) ∧ 15 < (s.redir a w).vec ∧ (s.redir a w).trg = true then
        { s.redir a w with lo := insert (s.redir a w).lo (levelBit (s.redir a w)) }
      else s.redir a w := by
  have hentry : ((s.ioapicRaiseIrq self addr irq reraise).ioapic a).entry w =
      (s.ioapic a).entry w := by
    rw [entry, irqBase_ioapicRaiseIrq]
    rfl
  rw [redir_eq_redtbl, hentry, ioapic_ioapicRaiseIrq]
  by_cases hown : a = addr ∧ w = irq
  · obtain ⟨rfl, rfl⟩ := hown
    split_ifs with h₁ h₂ h₂
    · rw [redtbl_setEntry, if_pos ⟨rfl, rfl⟩]
    · exact absurd ⟨⟨rfl, rfl⟩, h₁⟩ h₂
    · exact absurd h₂.2 h₁
    · rfl
  · rw [if_neg (show ¬ ((a = addr ∧ w = irq) ∧ 15 < (s.redir a w).vec ∧
      (s.redir a w).trg = true) from fun h => hown h.1)]
    split_ifs
    · rw [redtbl_setEntry, if_neg]
      · rfl
      · simp_all [entry_inj]
    · rfl

def Enables (addr : Word) (r : RedtblReg) (value : Word) : Prop :=
  ((s.ioapic addr).redtbl r.entry).Enabled r.lower value

def Reraises (addr : Word) (r : RedtblReg) (value : Word) : Prop :=
  ((s.ioapic addr).redtbl r.entry).Raised r.lower value

theorem reraises_iff {r : RedtblReg} {value : Word} : s.Reraises addr r value ↔
    r.1 % 2 = 0 ∧ value.getLsbD 16 = false ∧ ((s.ioapic addr).redtbl r.entry).msk = true ∧
      ((s.ioapic addr).redtbl r.entry).pnd = true := by
  unfold Reraises RedirEntry.Raised RedirEntry.Enabled RedtblReg.lower
  by_cases h : r.1 % 2 = 0
  · simp only [h, decide_true, if_true, true_and]
    tauto
  · simp [h]

instance  (value : Word) : Decidable (s.Enables addr r value) :=
  inferInstanceAs (Decidable (RedirEntry.Enabled ..))

instance  (value : Word) : Decidable (s.Reraises addr r value) :=
  inferInstanceAs (Decidable (RedirEntry.Raised ..))

variable (b : ℕ → BackendCall)

section
variable (d : Option ℕ)

@[simp] theorem callOn_ioapic :
    (s.callOn b d).ioapic = s.ioapic := by cases d <;> rfl

@[simp] theorem callOn_hwirq : (s.callOn b d).hwirq = s.hwirq := by cases d <;> rfl

@[simp] theorem callOn_nrVcpus :
    (s.callOn b d).nrVcpus = s.nrVcpus := by cases d <;> rfl

@[simp] theorem callOn_lapic : (s.callOn b d).lapic = s.lapic := by cases d <;> rfl

@[simp] theorem callOn_cpu : (s.callOn b d).cpu = s.cpu := by
  cases d <;> rfl

@[simp] theorem callOn_master :
    (s.callOn b d).master = s.master := by cases d <;> rfl

@[simp] theorem callOn_slave : (s.callOn b d).slave = s.slave := by cases d <;> rfl

end

structure SameRest (s t : Apics) : Prop where
  nrVcpus : t.nrVcpus = s.nrVcpus
  cpu : t.cpu = s.cpu
  lapic : t.lapic = s.lapic
  master : t.master = s.master
  slave : t.slave = s.slave

theorem SameRest.refl : SameRest s s := ⟨rfl, rfl, rfl, rfl, rfl⟩

theorem enableRedirEntryHwirq_fields (k : ℕ) :
    (s.enableRedirEntryHwirq addr k).hwirq =
        s.hwirq.setHwirqLatch ((s.ioapic addr).hwirqOf k).toNat ∧
      (s.enableRedirEntryHwirq addr k).ioapic =
        (s.setEntry addr k ((s.ioapic addr).redtbl k).saveDest).ioapic ∧
      SameRest s (s.enableRedirEntryHwirq addr k) := by
  unfold enableRedirEntryHwirq
  dsimp only
  refine ⟨?_, ?_, ?_, ?_, ?_, ?_, ?_⟩ <;> split_ifs <;> simp [setEntry, setIoapic, setHwirq]

theorem enable_setEntry (k : ℕ) (e : RedirEntry) :
    ((s.setEntry addr k e).enableRedirEntryHwirq addr k).ioapic =
        (s.setEntry addr k e.saveDest).ioapic ∧
      ((s.setEntry addr k e).enableRedirEntryHwirq addr k).hwirq =
        s.hwirq.setHwirqLatch ((s.ioapic addr).hwirqOf k).toNat ∧
      SameRest s ((s.setEntry addr k e).enableRedirEntryHwirq addr k) := by
  obtain ⟨hhwirq, hioapic, hrest⟩ := enableRedirEntryHwirq_fields (s.setEntry addr k e) addr k
  rw [hwirqOf_setEntry] at hhwirq
  rw [redtbl_setEntry_self] at hioapic
  exact ⟨hioapic.trans (ioapic_setEntry_setEntry rfl _), hhwirq, { hrest with }⟩

open RedirEntry in
theorem redtblStoreAt_spec (k : ℕ) (lower : Bool) (value : Word) :
    (s.redtblStoreAt addr k lower value).1.ioapic =
        (s.setEntry addr k (((s.ioapic addr).redtbl k).stored lower value)).ioapic ∧
      (s.redtblStoreAt addr k lower value).1.hwirq =
        (if ((s.ioapic addr).redtbl k).Enabled lower value then
          s.hwirq.setHwirqLatch ((s.ioapic addr).hwirqOf k).toNat else s.hwirq) ∧
      SameRest s (s.redtblStoreAt addr k lower value).1 ∧
      ((s.redtblStoreAt addr k lower value).2 = true ↔
        ((s.ioapic addr).redtbl k).Raised lower value) := by
  generalize he : (s.ioapic addr).redtbl k = e
  unfold redtblStoreAt
  dsimp only
  rw [he]
  cases lower with
  | true =>
    obtain ⟨hioapic, hhwirq, hrest⟩ := enable_setEntry s addr k (e.storeLo value)
    by_cases hen : e.Enabled true value
    · have hunmasks : value.getLsbD 16 = false ∧ e.msk = true := hen
      rw [if_pos hunmasks, if_pos hen, hioapic, redtbl_setEntry_self, pnd_saveDest,
        pnd_storeLo]
      by_cases hp : e.pnd = true
      · have hr : e.Raised true value := ⟨hen, rfl, hp⟩
        rw [if_pos hp, stored_of_raised hr]
        exact ⟨ioapic_setEntry_setEntry hioapic _, hhwirq, { hrest with }, iff_of_true rfl hr⟩
      · have hr : ¬ e.Raised true value := fun h => hp h.2.2
        rw [if_neg hp, stored_of_enabled hr hen]
        exact ⟨hioapic, hhwirq, hrest, iff_of_false Bool.false_ne_true hr⟩
    · have hunmasks : ¬ (value.getLsbD 16 = false ∧ e.msk = true) := hen
      rw [if_neg hunmasks, if_neg hen, stored_of_not_enabled hen]
      exact ⟨rfl, rfl, ⟨rfl, rfl, rfl, rfl, rfl⟩,
        iff_of_false Bool.false_ne_true fun h => hen h.1⟩
  | false =>
    obtain ⟨hioapic, hhwirq, hrest⟩ := enable_setEntry s addr k (e.storeHi value)
    have hr : ¬ e.Raised false value := fun h => Bool.false_ne_true h.2.1
    by_cases hen : e.Enabled false value
    · have hm : ¬ e.msk = true := by rw [show e.msk = false from hen]; exact Bool.false_ne_true
      rw [if_neg hm, if_pos hen, stored_of_enabled hr hen]
      exact ⟨hioapic, hhwirq, hrest, iff_of_false Bool.false_ne_true hr⟩
    · have hm : e.msk = true := Bool.eq_true_of_not_eq_false hen
      rw [if_pos hm, if_neg hen, stored_of_not_enabled hen]
      exact ⟨rfl, rfl, ⟨rfl, rfl, rfl, rfl, rfl⟩, iff_of_false Bool.false_ne_true hr⟩

structure SameRoute (e e' : RedirEntry) : Prop where
  vec : e'.vec = e.vec
  del : e'.del = e.del
  trg : e'.trg = e.trg
  dstm : e'.dstm = e.dstm
  pdst : e'.pdst = e.pdst
  ldst : e'.ldst = e.ldst

theorem SameRoute.redirDestMask_eq {e e' : RedirEntry} (h : SameRoute e e') :
    s.redirDestMask e' = s.redirDestMask e := by
  rw [redirDestMask, redirDestMask, h.dstm, h.pdst, h.ldst]

theorem redirDestMask_congr {s t : Apics} (hl : t.lapic = s.lapic) (hn : t.nrVcpus = s.nrVcpus)
    (e : RedirEntry) : t.redirDestMask e = s.redirDestMask e := by
  simp only [redirDestMask, logicalMask, hl, hn]

theorem sameRoute_saveDest_clearPnd : SameRoute e e.saveDest.clearPnd := by
  constructor <;> simp

structure Stored (value : Word) (raised : Bool) (e' : RedirEntry) :
    Prop where
  irr : e'.irr = e.irr
  pnd : e'.pnd = (e.pnd && !raised)
  msk : e'.msk = if r.1 % 2 = 0 then value.getLsbD 16 else e.msk
  route : raised = true → SameRoute (e.storeLo value) e'

theorem Stored.vec {e e' : RedirEntry} {r : RedtblReg} {value : Word}
    (h : Stored e r value true e') : e'.vec = (value &&& 0xff).toNat :=
  (h.route rfl).vec.trans (RedirEntry.vec_storeLo e value)

open RedirEntry in
theorem stored_spec (value : Word) :
    Stored e r value (decide (e.Raised r.lower value)) (e.stored r.lower value) := by
  by_cases hr : e.Raised r.lower value
  · have hlower : r.1 % 2 = 0 := of_decide_eq_true hr.2.1
    rw [stored_of_raised hr, decide_eq_true hr, store, if_pos hr.2.1]
    refine ⟨?_, ?_, ?_, fun _ => sameRoute_saveDest_clearPnd _⟩
    all_goals simp [hlower]
  · rw [decide_eq_false hr]
    by_cases hen : e.Enabled r.lower value
    · rw [stored_of_enabled hr hen]
      constructor <;> by_cases hlower : r.1 % 2 = 0 <;>
        simp [store, RedtblReg.lower, hlower]
    · rw [stored_of_not_enabled hen]
      constructor <;> by_cases hlower : r.1 % 2 = 0 <;>
        simp [store, RedtblReg.lower, hlower]

theorem redtblStore_spec (value : Word) :
    ∃ e', (s.redtblStore addr r value).1.ioapic = (s.setEntry addr r.entry e').ioapic ∧
      Stored ((s.ioapic addr).redtbl r.entry) r value (s.redtblStore addr r value).2 e' ∧
      (s.Enables addr r value → (s.redtblStore addr r value).1.hwirq =
        s.hwirq.setHwirqLatch ((s.ioapic addr).hwirqOf r.entry).toNat) ∧
      (¬ s.Enables addr r value → (s.redtblStore addr r value).1.hwirq = s.hwirq) ∧
      (s.redtblStore addr r value).1.lapic = s.lapic ∧
      (s.redtblStore addr r value).1.nrVcpus = s.nrVcpus ∧
      ((s.redtblStore addr r value).2 = true ↔ s.Reraises addr r value) := by
  obtain ⟨hioapic, hhwirq, hrest, hraised⟩ := redtblStoreAt_spec s addr r.entry r.lower value
  have hflag : decide (s.Reraises addr r value) = (s.redtblStore addr r value).2 :=
    Bool.eq_iff_iff.2 (decide_eq_true_iff.trans hraised.symm)
  refine ⟨_, hioapic, hflag ▸ stored_spec _ r value, fun hen => hhwirq.trans (if_pos hen),
    fun hen => hhwirq.trans (if_neg hen), hrest.lapic, hrest.nrVcpus, hraised⟩

theorem redtblWrite_eq (self : ℕ) (addr : Word) (r : RedtblReg) (value : Word) :
    s.redtblWrite self addr r value =
      if (s.redtblStore addr r value).2 then
        (s.redtblStore addr r value).1.ioapicRaiseIrq self addr ((s.ioapic addr).hwirqOf r.entry)
          true
      else (s.redtblStore addr r value).1 := rfl

end Entries
end Apics
end Wedge
