import Afterburner.Lib.Runs
import Afterburner.Wedge.Redirection

/-!
# Device interrupts that are held back

`raise_irq` sets the bit of a hardware interrupt in `hwirq_mask`; the back end then keeps the device
quiet until the bit is cleared.
-/

namespace Wedge
open Runs Bits

structure Routing where
  ioapic : ℕ → Word
  lt : ∀ irq, ioapic irq ≠ 0 → irq < 256

namespace Hwirq
variable (h : Hwirq) {i : ℕ} (n : ℕ)

theorem isHwirqSquashed_eq (hi : i < 32) : h.isHwirqSquashed i = h.words.bt (64 + i) := by
  rw [isHwirqSquashed, Nat.mod_eq_of_lt hi]
  exact (Bits.Str.bt_mul_add h.words 2 hi).symm

@[simp] theorem testHwirqMask_setHwirqMask :
    (h.setHwirqMask n).testHwirqMask i = (h.testHwirqMask i || decide (n = i)) := by
  simp [testHwirqMask, setHwirqMask]

@[simp] theorem testHwirqMask_clearHwirqMask :
    (h.clearHwirqMask n).testHwirqMask i = (h.testHwirqMask i && !decide (n = i)) := by
  simp [testHwirqMask, clearHwirqMask]

theorem testHwirqMask_setHwirqLatch :
    (h.setHwirqLatch n).testHwirqMask i = (h.testHwirqMask i || decide (n = 32 + i)) := by
  simp [testHwirqMask, setHwirqLatch]

theorem isHwirqSquashed_setHwirqMask (hi : i < 32) :
    (h.setHwirqMask n).isHwirqSquashed i = (h.isHwirqSquashed i || decide (n = 32 + i)) := by
  rw [isHwirqSquashed_eq _ hi, isHwirqSquashed_eq _ hi, setHwirqMask]
  have heq : 32 + n = 64 + i ↔ n = 32 + i := by omega
  simp [heq]

theorem isHwirqSquashed_setHwirqLatch (hi : i < 32) :
    (h.setHwirqLatch n).isHwirqSquashed i = (h.isHwirqSquashed i || decide (n = 64 + i)) := by
  simp_all [isHwirqSquashed_eq, setHwirqLatch]

theorem isHwirqSquashed_clearHwirqMask (hi : i < 32) (hn : h.isHwirqSquashed n = false) :
    (h.clearHwirqMask n).isHwirqSquashed i = h.isHwirqSquashed i := by
  rw [isHwirqSquashed_eq _ hi, clearHwirqMask, Bits.Str.bt_btr, ← isHwirqSquashed_eq _ hi]
  by_cases hni : 32 + n = 64 + i
  · -- the bit that is cleared is the one that was found clear
    have hmod : n % 32 = i % 32 := by omega
    have hsame : h.isHwirqSquashed i = h.isHwirqSquashed n := by
      rw [isHwirqSquashed, isHwirqSquashed, hmod]
    rw [hsame, hn, Bool.false_and]
  · simp [hni]

end Hwirq
namespace Apics
variable (s : Apics) {i : ℕ} (n : ℕ) (route : Routing)

theorem hwirq_unmaskHwirq : (s.unmaskHwirq n).hwirq =
    if s.hwirq.isHwirqSquashed n then s.hwirq else s.hwirq.clearHwirqMask n := by
  unfold unmaskHwirq
  split_ifs <;> rfl

theorem isHwirqSquashed_unmaskHwirq (hi : i < 32) :
    (s.unmaskHwirq n).hwirq.isHwirqSquashed i = s.hwirq.isHwirqSquashed i := by
  grind [hwirq_unmaskHwirq, Hwirq.isHwirqSquashed_clearHwirqMask]

theorem testHwirqMask_unmaskHwirq :
    (s.unmaskHwirq n).hwirq.testHwirqMask i =
      (s.hwirq.testHwirqMask i && (s.hwirq.isHwirqSquashed n || !decide (n = i))) := by
  rw [hwirq_unmaskHwirq]
  split_ifs with hn
  · simp [hn]
  · simp [hn]

def Remembered (s : Apics) (addr : Word) (i : ℕ) : Prop :=
  s.hwirq.isHwirqSquashed i = true ∨ (s.redir addr (BitVec.ofNat 32 i)).irr = true ∨
    (s.redir addr (BitVec.ofNat 32 i)).pnd = true

def HeldAt (s : Apics) (addr : Word) (i : ℕ) : Prop :=
  s.hwirq.testHwirqMask i = true → s.Remembered addr i

def Held (s : Apics) (route : Routing) : Prop :=
  ∀ i < 32, route.ioapic i ≠ 0 → s.HeldAt (route.ioapic i) i

variable {s}

theorem HeldAt.mono {t : Apics} {a : Word} (h : s.HeldAt a i)
    (hmask : t.hwirq.testHwirqMask i = true → s.hwirq.testHwirqMask i = true)
    (hsquash : t.hwirq.isHwirqSquashed i = s.hwirq.isHwirqSquashed i)
    (hentry : t.redir a (BitVec.ofNat 32 i) = s.redir a (BitVec.ofNat 32 i)) : t.HeldAt a i := by
  intro hm
  rw [Remembered, hsquash, hentry]
  exact h (hmask hm)

theorem heldAt_congr {t : Apics} {a : Word} (hhwirq : t.hwirq = s.hwirq)
    (hioapic : t.ioapic = s.ioapic) : t.HeldAt a i ↔ s.HeldAt a i := by
  rw [HeldAt, HeldAt, Remembered, Remembered, redir, redir, hhwirq, hioapic]

section Raise
variable {a : Word} (self : ℕ) (addr irq : Word) (reraise : Bool)

theorem isHwirqSquashed_ioapicRaiseIrq (hi : i < 32) :
    (s.ioapicRaiseIrq self addr irq reraise).hwirq.isHwirqSquashed i =
      s.hwirq.isHwirqSquashed i := by
  rw [hwirq_ioapicRaiseIrq]
  split_ifs
  · exact isHwirqSquashed_unmaskHwirq _ _ hi
  · rfl

theorem testHwirqMask_ioapicRaiseIrq_le
    (h : (s.ioapicRaiseIrq self addr irq reraise).hwirq.testHwirqMask i = true) :
    s.hwirq.testHwirqMask i = true := by
  rw [hwirq_ioapicRaiseIrq] at h
  split_ifs at h
  · rw [testHwirqMask_unmaskHwirq, Bool.and_eq_true] at h
    exact h.1
  · exact h

theorem toNat_ofNat (hi : i < 32) : (BitVec.ofNat 32 i : Word).toNat = i := by
  rw [BitVec.toNat_ofNat]
  omega

theorem HeldAt.raise_of_ne (hi : i < 32) (h : s.HeldAt a i)
    (hne : ¬ (a = addr ∧ BitVec.ofNat 32 i = irq)) :
    (s.ioapicRaiseIrq self addr irq reraise).HeldAt a i := by
  refine h.mono (testHwirqMask_ioapicRaiseIrq_le self addr irq reraise)
    (isHwirqSquashed_ioapicRaiseIrq self addr irq reraise hi) ?_
  rw [redir_ioapicRaiseIrq, if_neg fun h => hne h.1]

theorem heldAt_raise_iff_of_ne (hi : i < 32) (hne : BitVec.ofNat 32 i ≠ irq) :
    (s.ioapicRaiseIrq self addr irq reraise).HeldAt a i ↔ s.HeldAt a i := by
  have hmask : (s.ioapicRaiseIrq self addr irq reraise).hwirq.testHwirqMask i =
      s.hwirq.testHwirqMask i := by
    rw [hwirq_ioapicRaiseIrq]
    split_ifs
    · have hirq : irq.toNat ≠ i := by
        intro heq
        apply hne
        rw [← heq, BitVec.ofNat_toNat, BitVec.setWidth_eq]
      rw [testHwirqMask_unmaskHwirq]
      simp [hirq]
    · rfl
  rw [HeldAt, HeldAt, Remembered, Remembered, hmask,
    isHwirqSquashed_ioapicRaiseIrq _ _ _ _ hi, redir_ioapicRaiseIrq, if_neg fun h => hne h.1.2]

theorem heldAt_raise_self (hi : i < 32) (hv : 15 < (s.redir a (BitVec.ofNat 32 i)).vec) :
    (s.ioapicRaiseIrq self a (BitVec.ofNat 32 i) reraise).HeldAt a i := by
  intro hm
  cases ht : (s.redir a (BitVec.ofNat 32 i)).trg with
  | false =>
    -- an edge triggered one is released unless it is squashed
    rw [hwirq_ioapicRaiseIrq, if_pos ⟨hv, ht⟩, testHwirqMask_unmaskHwirq, toNat_ofNat hi] at hm
    simp only [decide_true, Bool.not_true, Bool.or_false, Bool.and_eq_true] at hm
    exact .inl ((isHwirqSquashed_ioapicRaiseIrq _ _ _ _ hi).trans hm.2)
  | true =>
    have hredir := redir_ioapicRaiseIrq s self a (BitVec.ofNat 32 i) a (BitVec.ofNat 32 i) reraise
    rw [if_pos ⟨⟨rfl, rfl⟩, hv, ht⟩] at hredir
    refine .inr ?_
    rw [hredir, RedirEntry.irr, RedirEntry.pnd, levelBit]
    cases (s.redir a (BitVec.ofNat 32 i)).msk with
    | false => exact .inl (by simp)
    | true => exact .inr (by simp)

theorem ioapicRaiseIrq_of_vec_le (hv : (s.redir addr irq).vec ≤ 15) :
    s.ioapicRaiseIrq self addr irq reraise = s := by
  rw [ioapicRaiseIrq_eq, if_neg (not_lt.2 hv)]

end Raise

section RaiseIrq
variable (self : ℕ)

def Wired (s : Apics) (self irq : ℕ) : Prop := (s.lapic self).isVirtualWire = true ∧ irq < 16

theorem hwirq_chipRaiseIrq (p : Pics) (c : Chip) (irq : ℕ) :
    (p.chipRaiseIrq c irq).hwirq = p.hwirq.setHwirqMask irq := by
  unfold Pics.chipRaiseIrq
  dsimp only
  split_ifs <;> cases c <;> rfl

theorem ioapic_raiseWire (irq : ℕ) : (s.raiseWire self irq).ioapic = s.ioapic := by
  unfold raiseWire
  split_ifs <;> rfl

theorem hwirq_raiseWire_of_wired {irq : ℕ} (h : s.Wired self irq) :
    (s.raiseWire self irq).hwirq = s.hwirq.setHwirqMask irq := by
  have hgt : ¬ (irq > 16) := not_lt.2 (le_of_lt h.2 |>.trans (by decide))
  rw [raiseWire, if_neg (by simp [h.1, hgt])]
  split_ifs with h8
  · exact hwirq_chipRaiseIrq _ _ _
  · exact hwirq_chipRaiseIrq _ _ _
  · exact absurd h.2 ‹_›

theorem raiseWire_of_not_wired {irq : ℕ} (h : ¬ s.Wired self irq) : s.raiseWire self irq = s := by
  unfold raiseWire
  split_ifs with hoff h8 h16
  · rfl
  · exact absurd ⟨by simpa using fun hf => hoff (.inl hf), by omega⟩ h
  · exact absurd ⟨by simpa using fun hf => hoff (.inl hf), h16⟩ h
  · rfl

theorem wired_ioapicRaiseIrq (addr w : Word) (reraise : Bool) (irq : ℕ) :
    (s.ioapicRaiseIrq self addr w reraise).Wired self irq ↔ s.Wired self irq := by
  have hlint : ((s.ioapicRaiseIrq self addr w reraise).lapic self).lint0 =
      (s.lapic self).lint0 := by
    rw [lapic_ioapicRaiseIrq]
    by_cases hd : self ∈ s.dests addr w
    · rw [if_pos hd]
      exact Lapic.raw_raise _ (RedirEntry.vec_lt _) (.inr ⟨by decide, by decide⟩) _ _ _ _
    · rw [if_neg hd]
  rw [Wired, Wired, Lapic.isVirtualWire, Lapic.isVirtualWire, hlint]

def RaiseGuard (s : Apics) (addr : Word) (self i : ℕ) : Prop :=
  s.Remembered addr i ∨ 15 < (s.redir addr (BitVec.ofNat 32 i)).vec ∧
    ((s.redir addr (BitVec.ofNat 32 i)).trg = true ∨ ¬ s.Wired self i)

variable {self}

theorem heldAt_raiseIrq_self_iff (route : Routing) (hi : i < 32) (h0 : i ≠ 0)
    (hr : route.ioapic i ≠ 0) :
    (s.raiseIrq route.ioapic self i).HeldAt (route.ioapic i) i ↔
      s.RaiseGuard (route.ioapic i) self i := by
  generalize ha : route.ioapic i = a at hr
  -- the bit is set before the IO-APIC is asked
  generalize hs₁ : s.setHwirq (s.hwirq.setHwirqMask i) = s₁
  have hredir : ∀ w, s₁.redir a w = s.redir a w := fun w => by rw [← hs₁]; rfl
  have hsquash : s₁.hwirq.isHwirqSquashed i = s.hwirq.isHwirqSquashed i := by
    rw [← hs₁, setHwirq, Hwirq.isHwirqSquashed_setHwirqMask _ _ hi]
    simp
  have hrem : s₁.Remembered a i ↔ s.Remembered a i := by
    rw [Remembered, Remembered, hredir, hsquash]
  have hmask : s₁.hwirq.testHwirqMask i = true := by simp [← hs₁, setHwirq]
  have hraise : s.raiseIrq route.ioapic self i =
      (s₁.ioapicRaiseIrq self a (BitVec.ofNat 32 i) false).raiseWire self i := by
    rw [raiseIrq, if_neg h0, ha, if_pos hr, hs₁]
  have hwire : (s₁.ioapicRaiseIrq self a (BitVec.ofNat 32 i) false).Wired self i ↔
      s.Wired self i := by
    rw [wired_ioapicRaiseIrq, ← hs₁]
    rfl
  generalize hs₂ : s₁.ioapicRaiseIrq self a (BitVec.ofNat 32 i) false = s₂ at hraise hwire
  have hset : s.Wired self i →
      ((s₂.raiseWire self i).HeldAt a i ↔ s₂.Remembered a i) := by
    intro hw
    rw [HeldAt, Remembered, Remembered, redir, redir, hwirq_raiseWire_of_wired self (hwire.2 hw),
      ioapic_raiseWire, Hwirq.isHwirqSquashed_setHwirqMask _ _ hi]
    simp
  rw [hraise, RaiseGuard]
  by_cases hv : 15 < (s.redir a (BitVec.ofNat 32 i)).vec
  · have hheld : s₂.HeldAt a i := by
      rw [← hs₂]
      exact heldAt_raise_self self false hi (by rwa [hredir])
    by_cases hw : s.Wired self i
    · rw [hset hw]
      have hentry := redir_ioapicRaiseIrq s₁ self a (BitVec.ofNat 32 i) a (BitVec.ofNat 32 i) false
      have hsq := isHwirqSquashed_ioapicRaiseIrq (s := s₁) self a (BitVec.ofNat 32 i) false hi
      rw [hs₂, hredir] at hentry
      rw [hs₂, hsquash] at hsq
      rw [Remembered, hentry, hsq]
      cases ht : (s.redir a (BitVec.ofNat 32 i)).trg with
      | true =>
        refine iff_of_true (.inr ?_) (.inr ⟨hv, .inl rfl⟩)
        rw [if_pos ⟨⟨rfl, rfl⟩, hv, rfl⟩, RedirEntry.irr, RedirEntry.pnd, levelBit]
        cases (s.redir a (BitVec.ofNat 32 i)).msk with
        | false => exact .inl (by simp)
        | true => exact .inr (by simp)
      | false => simp [Remembered, hw]
    · rw [raiseWire_of_not_wired self (mt hwire.1 hw)]
      exact iff_of_true hheld (.inr ⟨hv, .inr hw⟩)
  · have hs₂' : s₂ = s₁ := by simp_all [ioapicRaiseIrq_of_vec_le]
    have hout : (s₂.raiseWire self i).HeldAt a i ↔ s₂.Remembered a i := by
      by_cases hw : s.Wired self i
      · exact hset hw
      · rw [raiseWire_of_not_wired self (mt hwire.1 hw), HeldAt, hs₂']
        simp [hmask]
    rw [hout, hs₂', hrem]
    simp [hv]

theorem HeldAt.raiseIrq_of_ne (route : Routing) (hi : i < 32) {a : Word} (h : s.HeldAt a i)
    {irq : ℕ} (h0 : irq ≠ 0) (hirq : route.ioapic irq ≠ 0) (hne : irq ≠ i) :
    (s.raiseIrq route.ioapic self irq).HeldAt a i := by
  have hlt := route.lt irq hirq
  have hword : BitVec.ofNat 32 i ≠ (BitVec.ofNat 32 irq : Word) := by
    grind [BitVec.toNat, toNat_ofNat, BitVec.toNat_ofNat]
  have hset : ∀ t : Apics, t.HeldAt a i → (t.setHwirq (t.hwirq.setHwirqMask irq)).HeldAt a i := by
    intro t ht hm
    rw [setHwirq] at hm
    have := ht (by simpa [hne] using hm)
    rw [Remembered, setHwirq, Hwirq.isHwirqSquashed_setHwirqMask _ _ hi]
    rcases this with hsq | hentry
    · exact .inl (by simp [hsq])
    · exact .inr hentry
  rw [raiseIrq, if_neg h0, if_pos hirq]
  have hraised := (heldAt_raise_iff_of_ne self (route.ioapic irq) _ false hi hword).2 (hset s h)
  generalize
    (s.setHwirq (s.hwirq.setHwirqMask irq)).ioapicRaiseIrq self (route.ioapic irq) _ false = t
    at hraised
  by_cases hw : t.Wired self irq
  · refine (heldAt_congr (s := t.setHwirq (t.hwirq.setHwirqMask irq)) ?_ ?_).2 (hset t hraised)
    · exact hwirq_raiseWire_of_wired self hw
    · exact ioapic_raiseWire self irq
  · rwa [raiseWire_of_not_wired self hw]

end RaiseIrq

section Redtbl
variable {a : Word} (self : ℕ) (addr : Word) (r : RedtblReg) (value : Word)

def RedtblGuard (s : Apics) (a : Word) (i : ℕ) (addr : Word) (r : RedtblReg) (value : Word) :
    Prop :=
  (s.Enables addr r value → ((s.ioapic addr).hwirqOf r.entry).toNat = 32 + i →
    s.Remembered a i) ∧
  (s.Reraises addr r value → (value &&& 0xff).toNat ≤ 15 → a = addr →
    BitVec.ofNat 32 i = (s.ioapic addr).hwirqOf r.entry → s.hwirq.testHwirqMask i = true →
    s.hwirq.isHwirqSquashed i = true ∨ (s.redir a (BitVec.ofNat 32 i)).irr = true)

theorem RedtblReg.entry_lt : r.entry < 2 ^ 32 := by
  rw [RedtblReg.entry]
  omega

theorem redir_redtblStore {e' : RedirEntry} (w : Word)
    (h : (s.redtblStore addr r value).1.ioapic = (s.setEntry addr r.entry e').ioapic) :
    (s.redtblStore addr r value).1.redir a w =
      if a = addr ∧ w = (s.ioapic addr).hwirqOf r.entry then e' else s.redir a w := by
  have hredir :
      (s.redtblStore addr r value).1.redir a w = (s.setEntry addr r.entry e').redir a w := by
    rw [redir, redir, h]
  rw [hredir, redir_setEntry]
  refine if_congr ⟨?_, ?_⟩ rfl rfl
  · rintro ⟨rfl, hk⟩
    exact ⟨rfl, (entry_hwirqOf _ (RedtblReg.entry_lt r) _).1 hk⟩
  · rintro ⟨rfl, hw⟩
    exact ⟨rfl, (entry_hwirqOf _ (RedtblReg.entry_lt r) _).2 hw⟩

theorem heldAt_redtblWrite_self_iff (hi : i < 32) (h : s.HeldAt addr i)
    (hw : BitVec.ofNat 32 i = (s.ioapic addr).hwirqOf r.entry) :
    (s.redtblWrite self addr r value).HeldAt addr i ↔ s.RedtblGuard addr i addr r value := by
  obtain ⟨e', hioapic, hstored, hlatch, hkeep, -, -, hraised⟩ := s.redtblStore_spec addr r value
  have hhwirq : ((s.ioapic addr).hwirqOf r.entry).toNat = i := by rw [← hw, toNat_ofNat hi]
  have hmask : (s.redtblStore addr r value).1.hwirq.testHwirqMask i = s.hwirq.testHwirqMask i := by
    by_cases hen : s.Enables addr r value
    · simp_all [Hwirq.testHwirqMask_setHwirqLatch]
    · rw [hkeep hen]
  have hsquash : (s.redtblStore addr r value).1.hwirq.isHwirqSquashed i =
      s.hwirq.isHwirqSquashed i := by
    by_cases hen : s.Enables addr r value
    · simp_all [Hwirq.isHwirqSquashed_setHwirqLatch]
    · rw [hkeep hen]
  have hentry : (s.ioapic addr).redtbl r.entry = s.redir addr (BitVec.ofNat 32 i) := by
    rw [redir_eq_redtbl, (entry_hwirqOf _ (RedtblReg.entry_lt r) _).2 hw]
  have hredir := redir_redtblStore (a := addr) addr r value (BitVec.ofNat 32 i) hioapic
  rw [if_pos ⟨rfl, hw⟩] at hredir
  rw [hentry] at hstored
  have halias : s.RedtblGuard addr i addr r value ↔ (s.Reraises addr r value →
      (value &&& 0xff).toNat ≤ 15 → s.hwirq.testHwirqMask i = true →
      s.hwirq.isHwirqSquashed i = true ∨ (s.redir addr (BitVec.ofNat 32 i)).irr = true) := by
    grind [RedtblGuard]
  -- the state after the write, before the interrupt is raised again
  have hheld : (s.redtblStore addr r value).1.HeldAt addr i ↔
      (s.hwirq.testHwirqMask i = true → s.hwirq.isHwirqSquashed i = true ∨ e'.irr = true ∨
        e'.pnd = true) := by
    rw [HeldAt, Remembered, hmask, hsquash, hredir]
  rw [halias, redtblWrite_eq]
  cases hb : (s.redtblStore addr r value).2 with
  | false =>
    have hno : ¬ s.Reraises addr r value := fun hre => by simp [hraised.2 hre] at hb
    rw [if_neg (by simp), hheld, hstored.irr, hstored.pnd, hb]
    refine iff_of_true (fun hm => ?_) (fun hre => absurd hre hno)
    have hrem := h hm
    rw [Remembered] at hrem
    simpa using hrem
  | true =>
    rw [if_pos rfl, ← hw]
    have hvec := (hb ▸ hstored).vec
    by_cases hv : 15 < e'.vec
    · refine iff_of_true (heldAt_raise_self self true hi (by rwa [hredir])) fun _ hle => ?_
      omega
    · rw [ioapicRaiseIrq_of_vec_le self addr _ true (by rw [hredir]; omega), hheld, hstored.irr,
        hstored.pnd, hb]
      simp only [Bool.not_true, Bool.and_false, Bool.false_eq_true, or_false]
      exact ⟨fun hrem _ _ => hrem, fun hrem => hrem (hraised.1 hb) (by omega)⟩

theorem heldAt_redtblWrite_iff_of_ne (hi : i < 32) (h : s.HeldAt a i)
    (hne : ¬ (a = addr ∧ BitVec.ofNat 32 i = (s.ioapic addr).hwirqOf r.entry)) :
    (s.redtblWrite self addr r value).HeldAt a i ↔ s.RedtblGuard a i addr r value := by
  obtain ⟨e', hioapic, -, hlatch, hkeep, -⟩ := s.redtblStore_spec addr r value
  have hredir := redir_redtblStore (a := a) addr r value (BitVec.ofNat 32 i) hioapic
  rw [if_neg hne] at hredir
  have hguard : s.RedtblGuard a i addr r value ↔ (s.Enables addr r value →
      ((s.ioapic addr).hwirqOf r.entry).toNat = 32 + i → s.Remembered a i) :=
    ⟨And.left, fun hg => ⟨hg, fun _ _ ha hw => absurd ⟨ha, hw⟩ hne⟩⟩
  have hheld : (s.redtblStore addr r value).1.HeldAt a i ↔ (s.Enables addr r value →
      ((s.ioapic addr).hwirqOf r.entry).toNat = 32 + i → s.Remembered a i) := by
    rw [HeldAt, Remembered, hredir]
    by_cases hen : s.Enables addr r value
    · rw [hlatch hen, Hwirq.testHwirqMask_setHwirqLatch, Hwirq.isHwirqSquashed_setHwirqLatch _ _ hi]
      simp only [Bool.or_eq_true, decide_eq_true_eq]
      constructor
      · rintro hg - h32
        rcases hg (.inr h32) with (hsq | h64) | hentry
        · exact .inl hsq
        · omega
        · exact .inr hentry
      · rintro hg (hm | h32)
        · exact (h hm).imp_left .inl
        · exact (hg hen h32).imp_left .inl
    · rw [hkeep hen]
      exact iff_of_true h fun hen' => absurd hen' hen
  rw [hguard, redtblWrite_eq]
  split_ifs
  · by_cases hw : BitVec.ofNat 32 i = (s.ioapic addr).hwirqOf r.entry
    · -- the interrupt of the same number at another IO-APIC
      have hhwirq : ((s.ioapic addr).hwirqOf r.entry).toNat = i := by rw [← hw, toNat_ofNat hi]
      have hvac : s.Enables addr r value → ((s.ioapic addr).hwirqOf r.entry).toNat = 32 + i →
          s.Remembered a i := fun _ h32 => by omega
      exact iff_of_true ((hheld.2 hvac).raise_of_ne self addr _ true hi hne) hvac
    · rw [heldAt_raise_iff_of_ne self addr _ true hi hw, hheld]
  · exact hheld

theorem heldAt_redtblWrite_iff (hi : i < 32) (h : s.HeldAt a i) :
    (s.redtblWrite self addr r value).HeldAt a i ↔ s.RedtblGuard a i addr r value := by
  by_cases hown : a = addr ∧ BitVec.ofNat 32 i = (s.ioapic addr).hwirqOf r.entry
  · simp_all [heldAt_redtblWrite_self_iff]
  · exact heldAt_redtblWrite_iff_of_ne self addr r value hi h hown

end Redtbl

section Eoi
variable {a : Word} (self : ℕ) (addr irq : Word)

theorem heldAt_of_released (hrel : s.hwirq.testHwirqMask i = true →
    s.hwirq.isHwirqSquashed i = true) : s.HeldAt a i := fun hm => .inl (hrel hm)

theorem released_raise (hi : i < 32) (reraise : Bool)
    (hrel : s.hwirq.testHwirqMask i = true → s.hwirq.isHwirqSquashed i = true) :
    (s.ioapicRaiseIrq self addr irq reraise).HeldAt a i := by
  refine heldAt_of_released fun hm => ?_
  rw [isHwirqSquashed_ioapicRaiseIrq _ _ _ _ hi]
  exact hrel (testHwirqMask_ioapicRaiseIrq_le self addr irq reraise hm)

theorem redir_of_setLo {t : Apics} {lo w : Word}
    (h : t.ioapic = (s.setIoapic addr ((s.ioapic addr).setLo irq lo)).ioapic)
    (hne : ¬ (a = addr ∧ w = irq)) : t.redir a w = s.redir a w := by
  have hredir : t.redir a w = (s.setIoapic addr ((s.ioapic addr).setLo irq lo)).redir a w := by
    rw [redir, redir, h]
  rw [hredir, setIoapic_setLo, redir_setEntry, if_neg]
  rintro ⟨rfl, hk⟩
  exact hne ⟨rfl, (entry_inj _).1 hk⟩

theorem heldAt_unmask (hi : i < 32) (h : s.HeldAt a i) {t : Apics} (lo : Word)
    (hhwirq : t.hwirq = (s.unmaskHwirq irq.toNat).hwirq)
    (hioapic : t.ioapic = (s.setIoapic addr ((s.ioapic addr).setLo irq lo)).ioapic) :
    (t.hwirq.testHwirqMask i = true → t.hwirq.isHwirqSquashed i = true) ∨
      ¬ (a = addr ∧ BitVec.ofNat 32 i = irq) ∧ t.HeldAt a i := by
  by_cases hown : a = addr ∧ BitVec.ofNat 32 i = irq
  · grind [testHwirqMask_unmaskHwirq, toNat_ofNat, isHwirqSquashed_unmaskHwirq]
  · refine .inr ⟨hown, h.mono (fun hm => ?_) ?_ (redir_of_setLo addr irq hioapic hown)⟩
    · simp_all [testHwirqMask_unmaskHwirq]
    · rw [hhwirq]
      exact isHwirqSquashed_unmaskHwirq _ _ hi

theorem HeldAt.ioapicEoi (hi : i < 32) (h : s.HeldAt a i) :
    (s.ioapicEoi self addr irq).HeldAt a i := by
  unfold Apics.ioapicEoi
  dsimp only
  generalize (s.ioapic addr).redir irq = e
  split_ifs
  · -- the pending interrupt is raised again
    generalize ht : ((s.setIoapic addr _).unmaskHwirq irq.toNat).setIoapic addr _ = t
    rcases heldAt_unmask addr irq hi h (t := t) (erase (erase e.lo 14) 17)
      (by rw [← ht, setIoapic, hwirq_unmaskHwirq, hwirq_unmaskHwirq]; rfl)
      (by rw [← ht]; funext b; by_cases hb : b = addr <;> simp [setIoapic, hb])
      with hrel | ⟨hne, hheld⟩
    · exact released_raise self addr irq hi true hrel
    · exact hheld.raise_of_ne self addr irq true hi hne
  · rcases heldAt_unmask addr irq hi h
      (t := (s.setIoapic addr ((s.ioapic addr).setLo irq (erase e.lo 14))).unmaskHwirq
        irq.toNat)
      (erase e.lo 14) (by rw [hwirq_unmaskHwirq, hwirq_unmaskHwirq]; rfl) (by simp)
      with hrel | ⟨-, hheld⟩
    · exact heldAt_of_released hrel
    · exact hheld
  · exact h

theorem HeldAt.writeEoi (hi : i < 32) (h : s.HeldAt a i) : (s.writeEoi self).HeldAt a i := by
  unfold Apics.writeEoi
  dsimp only
  split_ifs
  · rw [notifyIoapic]
    generalize ((s.lapic self).bitClearRr ((s.lapic self).msbRr .isr) .isr) = l
    generalize ht : ((s.retireSummary self l _).setLapic self _) = t
    have hretired : t.HeldAt a i := by
      refine (heldAt_congr ?_ ?_).2 h
      · rw [← ht, retireSummary]
        split_ifs <;> rfl
      · rw [← ht, retireSummary]
        split_ifs <;> rfl
    split_ifs
    · exact hretired.ioapicEoi self _ _ hi
    · exact hretired
  · exact h

end Eoi

section Others
variable (s) (self : ℕ)

theorem writeIntrCmdlo_fields (value : Word) :
    (s.writeIntrCmdlo self value).hwirq = s.hwirq ∧
      (s.writeIntrCmdlo self value).ioapic = s.ioapic := by
  have hfold : ∀ (ds : List ℕ) (v : ℕ) (t : Apics),
      (ds.foldl (fun s d => if d < s.nrVcpus then s.raiseVector self d v 256 false false 0 else s)
        t).hwirq = t.hwirq ∧
      (ds.foldl (fun s d => if d < s.nrVcpus then s.raiseVector self d v 256 false false 0 else s)
        t).ioapic = t.ioapic := by
    intro ds v
    induction ds with
    | nil => exact fun t => ⟨rfl, rfl⟩
    | cons d ds ih =>
      intro t
      rw [List.foldl_cons, (ih _).1, (ih _).2]
      split_ifs <;> simp
  unfold writeIntrCmdlo
  dsimp only
  split_ifs
  · exact ⟨rfl, rfl⟩
  · exact ⟨(hfold _ _ _).1, (hfold _ _ _).2⟩
  · exact ⟨rfl, rfl⟩

theorem write_fields (value : Word) {reg : ℕ} (hreg : reg ≠ 0x0b0) :
    (s.write self value reg).hwirq = s.hwirq ∧ (s.write self value reg).ioapic = s.ioapic := by
  by_cases hipi : reg = 0x300
  · subst hipi
    exact s.writeIntrCmdlo_fields self value
  · unfold write
    split <;> first | exact ⟨rfl, rfl⟩ | exact absurd rfl hreg | exact absurd rfl hipi

theorem picPendingVector_hwirq (p : Pics) : p.picPendingVector.2.hwirq = p.hwirq := by
  have hchip : ∀ (q : Pics) (c : Chip), (q.askChip c).2.hwirq = q.hwirq := by
    intro q c
    unfold Pics.askChip Pics.chipPendingVector
    dsimp only
    split_ifs <;> cases c <;> rfl
  unfold Pics.picPendingVector
  split
  · exact hchip _ _
  · rw [hchip, hchip]

theorem pendingVector_fields :
    (s.pendingVector self).2.hwirq = s.hwirq ∧ (s.pendingVector self).2.ioapic = s.ioapic := by
  unfold pendingVector askLapic
  split
  · exact ⟨rfl, rfl⟩
  · split
    · split_ifs <;> exact ⟨rfl, rfl⟩
    · split_ifs
      · exact ⟨picPendingVector_hwirq _, rfl⟩
      · exact ⟨rfl, rfl⟩

theorem reraiseVector_fields (vector : ℕ) :
    (s.reraiseVector self vector).hwirq = s.hwirq ∧
      (s.reraiseVector self vector).ioapic = s.ioapic := by
  have hchip : ∀ (q : Pics) (c : Chip), (q.chipReraiseVector c vector).hwirq = q.hwirq := by
    intro q c
    unfold Pics.chipReraiseVector
    dsimp only
    split_ifs <;> cases c <;> rfl
  unfold reraiseVector
  dsimp only
  split_ifs
  · refine ⟨?_, raiseVector_ioapic ..⟩
    show (((Apics.pics _ self).chipReraiseVector .master vector).chipReraiseVector .slave
      vector).hwirq = s.hwirq
    rw [hchip, hchip]
    exact raiseVector_hwirq ..
  · exact ⟨raiseVector_hwirq .., raiseVector_ioapic ..⟩

end Others

def FromDevice : Op → Prop
  | .raiseIrq _ irq => irq ≠ 0 ∧ route.ioapic irq ≠ 0
  | _ => True

def HeldGuard (s : Apics) : Op → Prop
  | .raiseIrq self irq => irq < 32 → s.RaiseGuard (route.ioapic irq) self irq
  | .redtblWrite _ addr r value =>
    ∀ i < 32, route.ioapic i ≠ 0 → s.RedtblGuard (route.ioapic i) i addr r value
  | _ => True

theorem held_step_iff {route : Routing} (h : s.Held route) {op : Op} (hop : FromDevice route op) :
    (s.step route.ioapic op).Held route ↔ s.HeldGuard route op := by
  cases op with
  | raiseIrq self irq =>
    constructor
    · exact fun hstep hirq =>
        (heldAt_raiseIrq_self_iff route hirq hop.1 hop.2).1 (hstep irq hirq hop.2)
    · intro hg i hi hr
      by_cases hne : irq = i
      · subst hne
        exact (heldAt_raiseIrq_self_iff route hi hop.1 hop.2).2 (hg hi)
      · exact (h i hi hr).raiseIrq_of_ne route hi hop.1 hop.2 hne
  | redtblWrite self addr r value =>
    exact forall_congr' fun i => forall_congr' fun hi => forall_congr' fun hr =>
      heldAt_redtblWrite_iff self addr r value hi (h i hi hr)
  | write self value reg =>
    refine iff_of_true (fun i hi hr => ?_) trivial
    by_cases hreg : reg = 0x0b0
    · subst hreg
      exact (h i hi hr).writeEoi self hi
    · have hf := s.write_fields self value hreg
      exact (heldAt_congr hf.1 hf.2).2 (h i hi hr)
  | pendingVector self =>
    have hf := s.pendingVector_fields self
    exact iff_of_true (fun i hi hr => (heldAt_congr hf.1 hf.2).2 (h i hi hr)) trivial
  | reraiseVector self vector =>
    have hf := s.reraiseVector_fields self vector
    exact iff_of_true (fun i hi hr => (heldAt_congr hf.1 hf.2).2 (h i hi hr)) trivial

/-- **When no device interrupt stays masked for ever.** From a state in which none is masked, every
run whose steps meet their condition keeps all of them releasable; a step that does not meet it
breaks that. -/
theorem held_of_guarded_run (route : Routing) (s : Apics) (ops : List Op)
    (hquiet : ∀ i < 32, s.hwirq.testHwirqMask i = false)
    (hdev : ∀ op ∈ ops, FromDevice route op)
    (hguard : Runs.Guarded (step route.ioapic) (HeldGuard route) s ops) :
    (run (step route.ioapic) s ops).Held route ∧
      ∀ op, FromDevice route op →
        (((run (step route.ioapic) s ops).step route.ioapic op).Held route ↔
          (run (step route.ioapic) s ops).HeldGuard route op) := by
  have hinit : s.Held route := by
    intro i hi _ hm
    rw [hquiet i hi] at hm
    cases hm
  have hrun : (run (step route.ioapic) s ops).Held route :=
    run_invariant_of_mem (I := fun s => s.Held route)
      (fun _ _ hop h hg => (held_step_iff h hop).2 hg) hinit hdev hguard
  exact ⟨hrun, fun op hop => held_step_iff hrun hop⟩

section Examples

def oneIoapic : Routing where
  ioapic irq := if irq < 24 then 0x1000 else 0
  lt irq h := by
    by_contra hge
    exact h (if_neg (by omega))

theorem held_level_sixtyFive :
    (run (step oneIoapic.ioapic) (boot 1 0)
      [.redtblWrite 0 0x1000 lowFive 0x8041, .raiseIrq 0 5]).Held oneIoapic := by
  have hguard : Runs.Guarded (step oneIoapic.ioapic) (HeldGuard oneIoapic) (boot 1 0)
      [.redtblWrite 0 0x1000 lowFive 0x8041, .raiseIrq 0 5] := by
    refine ⟨fun i _ _ => ⟨fun hen => ?_, fun hre => ?_⟩, fun _ => ?_, trivial⟩
    · exact absurd hen.2 (by decide)
    · exact absurd hre.2.2 (by decide)
    · exact .inr ⟨by decide +kernel, .inl (by decide +kernel)⟩
  refine (held_of_guarded_run oneIoapic (boot 1 0) _ ?_ ?_ hguard).1
  · intro i hi
    interval_cases i <;> rfl
  · intro op hop
    rcases List.mem_cons.1 hop with rfl | hop
    · trivial
    · obtain rfl := List.mem_singleton.1 hop
      exact ⟨by decide, by decide⟩

theorem not_held_five :
    ¬ (run (step oneIoapic.ioapic) (boot 1 0) [.raiseIrq 0 5]).Held oneIoapic ∧
    ¬ (run (step oneIoapic.ioapic) (boot 1 0)
      [.redtblWrite 0 0x1000 lowFive 0x41, .raiseIrq 0 5]).Held oneIoapic ∧
    ¬ (run (step oneIoapic.ioapic) (boot 1 0)
      [.redtblWrite 0 0x1000 lowFive 0x18041, .raiseIrq 0 5,
        .redtblWrite 0 0x1000 lowFive 0x8000]).Held oneIoapic := by
  refine ⟨fun h => ?_, fun h => ?_, fun h => ?_⟩
  all_goals
    have hrem := h 5 (by decide) (by decide) (by decide +kernel)
    rw [Remembered] at hrem
    exact absurd hrem (by decide +kernel)

end Examples
end Apics
end Wedge
