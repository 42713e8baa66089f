import Afterburner.Wedge.Apics

/-!
# The summary word and the requests of a local APIC

Bit `(v + 16) / 8` of `irq_vectors` stands for the vectors around `v`; delivery gives up when the
word is zero.
-/
variable (l : Lapic) (s : Apics)

namespace Wedge
open Lapic Runs Bits
namespace Lapic

theorem testRr_raise (q : RrSel) {v u : ℕ} (hv : v < 256) (hu : u < 256) (irq : Word)
    (fromEoi : Bool) (fromIoapic : Word) :
    (l.raise v irq false fromEoi fromIoapic).testRr q u =
      (l.testRr q u || decide (q = .irr ∧ v = u) || (fromEoi && decide (q = .tmr ∧ v = u))) := by
  rw [testRr_raise_eq l q hv hu]
  simp

theorem isEnabled_raise {v : ℕ} (hv : v < 256) (irq : Word) (reraise fromEoi : Bool)
    (fromIoapic : Word) : (l.raise v irq reraise fromEoi fromIoapic).isEnabled = l.isEnabled := by
  simp only [isEnabled, raw_raise l hv (by omega : 0x2 < 0x40 ∨ _)]

theorem getPin_raise {v : ℕ} (hv : v < 256) (irq : Word) :
    (l.raise v irq false false 0).getPin v = irq := by
  have hraise : l.raise v irq false false 0 = (l.setPin v irq).bitSetRr v .irr := rfl
  rw [hraise, getPin, raw_bitSetRr _ _ hv (by omega), setPin, raw_setRaw_self]

end Lapic
namespace Apics

def Requested (i v : ℕ) : Prop := v < 256 ∧ (s.lapic i).testRr .irr v = true
def InService (i v : ℕ) : Prop := v < 256 ∧ (s.lapic i).testRr .isr v = true
def summary (i v : ℕ) : Bool := (s.cpu i).irqVectors.getLsbD ((v + 16) / 8)
def Summarised (i : ℕ) : Prop := ∀ v, s.Requested i v → s.summary i v = true

structure Sane (i : ℕ) : Prop where
  enabled : (s.lapic i).isEnabled = true
  requested : ∀ v, s.Requested i v → 32 ≤ v ∧ v ≤ 239
  inService : ∀ v, s.InService i v → 32 ≤ v ∧ v ≤ 239
  notMarked : ∀ addr e, ((s.ioapic addr).redtbl e).lo.getLsbD 17 = false

section Raise
variable {s} {i v : ℕ} (irq : Word) (fromEoi : Bool) (fromIoapic : Word)

section
variable (hv : 32 ≤ v) (hv' : v ≤ 239) (u : ℕ)
include hv hv'

theorem requested_raise :
    (s.raiseVector i i v irq false fromEoi fromIoapic).Requested i u ↔
      s.Requested i u ∨ u = v := by
  rw [raiseVector, if_pos (by omega)]
  by_cases hu : u < 256
  · simp [Requested, hu, testRr_raise _ _ (by omega : v < 256) hu, eq_comm (a := u)]
  · simp only [Requested, hu, false_and, false_or, false_iff]
    omega

theorem inService_raise :
    (s.raiseVector i i v irq false fromEoi fromIoapic).InService i u ↔ s.InService i u := by
  rw [raiseVector, if_pos (by omega)]
  by_cases hu : u < 256
  · simp [InService, hu, testRr_raise _ _ (by omega : v < 256) hu]
  · simp [InService, hu]

theorem summary_raise :
    (s.raiseVector i i v irq false fromEoi fromIoapic).summary i u =
      (s.summary i u || decide ((v + 16) / 8 = (u + 16) / 8)) := by
  have hlt : (v + 16) / 8 < 32 := by omega
  rw [raiseVector, if_pos (by omega)]
  simp [summary, Cpu.irqVectors_setIrqVector _ (by omega : v + 16 < 256), hlt]

end

theorem Sane.raise (hs : s.Sane i) (hv : 32 ≤ v) (hv' : v ≤ 239) :
    (s.raiseVector i i v irq false fromEoi fromIoapic).Sane i where
  enabled := by
    rw [raiseVector, if_pos (by omega), setLapic_lapic_self,
      isEnabled_raise _ (by omega)]
    exact hs.enabled
  requested u hu := by
    rcases (requested_raise irq fromEoi fromIoapic hv hv' u).1 hu with hu | rfl
    · exact hs.requested u hu
    · exact ⟨hv, hv'⟩
  inService u hu := hs.inService u ((inService_raise irq fromEoi fromIoapic hv hv' u).1 hu)
  notMarked := by
    rw [raiseVector, if_pos (by omega)]
    exact hs.notMarked

theorem Summarised.raise (hs : s.Summarised i) (hv : 32 ≤ v) (hv' : v ≤ 239) :
    (s.raiseVector i i v irq false fromEoi fromIoapic).Summarised i := by
  intro u hu
  rw [summary_raise irq fromEoi fromIoapic hv hv']
  rcases (requested_raise irq fromEoi fromIoapic hv hv' u).1 hu with hu | rfl
  · simp [hs u hu]
  · simp

end Raise
variable {s} {i : ℕ}

theorem Sane.isTop_irr (hs : s.Sane i) :
    Bits.IsTop (fun v => (s.lapic i).testRr .irr v = true) 256 ((s.lapic i).msbRr .irr) := by
  refine isTop_msbRr _ _ fun v hv => ?_
  by_contra hne
  have := hs.requested v ⟨by omega, by simpa using hne⟩
  omega

theorem Sane.isTop_isr (hs : s.Sane i) :
    Bits.IsTop (fun v => (s.lapic i).testRr .isr v = true) 256 ((s.lapic i).msbRr .isr) := by
  refine isTop_msbRr _ _ fun v hv => ?_
  by_contra hne
  have := hs.inService v ⟨by omega, by simpa using hne⟩
  omega

theorem Sane.pendingVector_lapic {w : ℕ} {irq : Word} {l : Lapic} (hs : s.Sane i)
    (h : (s.lapic i).pendingVector = (some (w, irq), l)) :
    s.Requested i w ∧ l = ((s.lapic i).bitClearRr w .irr).bitSetRr w .isr := by
  unfold Lapic.pendingVector at h
  simp only at h
  split_ifs at h with hgt
  · obtain ⟨⟨rfl, _⟩, rfl⟩ := h
    exact ⟨hs.isTop_irr.mem (by omega), rfl⟩
  · simp at h

theorem pendingVector_of_lapic {r : ℕ × Word} {l : Lapic} (hne : (s.cpu i).irqVectors ≠ 0)
    (henabled : (s.lapic i).isEnabled = true) (hl : (s.lapic i).pendingVector = (some r, l)) :
    s.pendingVector i = (some r, s.setLapic i l) := by
  simp only [pendingVector, if_neg hne, askLapic, henabled, hl, if_true]

theorem pendingVector_cases (s : Apics) (i : ℕ) :
    (s.pendingVector i).2 = s ∨
    (∃ r l, (s.lapic i).pendingVector = (some r, l) ∧ (s.pendingVector i).2 = s.setLapic i l) ∨
    (s.pendingVector i).2 = s.setPics i (s.pics i).picPendingVector.2 := by
  unfold pendingVector
  split
  · exact Or.inl rfl
  · split
    · rename_i r hr
      unfold askLapic at hr ⊢
      split_ifs at hr ⊢ with henabled
      exact Or.inr (Or.inl ⟨r, _, Prod.ext hr rfl, rfl⟩)
    · split_ifs with hwire
      · exact Or.inr (Or.inr rfl)
      · exact Or.inl rfl

theorem Sane.congr {t : Apics} (hs : s.Sane i) (hl : t.lapic i = s.lapic i)
    (hm : ∀ addr e, ((t.ioapic addr).redtbl e).lo.getLsbD 17 = false) :
    t.Sane i where
  enabled := by rw [hl]; exact hs.enabled
  requested v hv := hs.requested v (by rwa [Requested, hl] at hv)
  inService v hv := hs.inService v (by rwa [InService, hl] at hv)
  notMarked := hm

theorem Sane.setLapic_claim {w : ℕ} (hs : s.Sane i) (hw : s.Requested i w) :
    (s.setLapic i (((s.lapic i).bitClearRr w .irr).bitSetRr w .isr)).Sane i where
  enabled := by
    have := hs.enabled
    simpa [isEnabled, raw_bitSetRr _ _ hw.1, raw_bitClearRr _ _ hw.1] using this
  requested v hv := by
    obtain ⟨hlt, hv⟩ := hv
    simp only [setLapic_lapic_self, testRr_bitSetRr _ _ _ hw.1 hlt,
      testRr_bitClearRr _ _ _ hw.1 hlt] at hv
    exact hs.requested v ⟨hlt, by simp_all⟩
  inService v hv := by
    obtain ⟨hlt, hv⟩ := hv
    by_cases hwv : w = v
    · exact hwv ▸ hs.requested w hw
    · simp only [setLapic_lapic_self, testRr_bitSetRr _ _ _ hw.1 hlt,
        testRr_bitClearRr _ _ _ hw.1 hlt] at hv
      exact hs.inService v ⟨hlt, by simp_all⟩
  notMarked := hs.notMarked

theorem requested_of_claim {w v : ℕ} (hw : w < 256)
    (hv : (s.setLapic i (((s.lapic i).bitClearRr w .irr).bitSetRr w .isr)).Requested i v) :
    s.Requested i v := by
  obtain ⟨hlt, hv⟩ := hv
  simp only [setLapic_lapic_self, testRr_bitSetRr _ _ _ hw hlt,
    testRr_bitClearRr _ _ _ hw hlt] at hv
  exact ⟨hlt, by simp_all⟩

end Apics
namespace Pics
variable {b : ℕ}

theorem irqVectors_clearIrqVector_irqBase (k : Cpu) (c : Chip) (hb : 2 ≤ b) :
    (k.clearIrqVector c.irqBase).irqVectors.getLsbD b = k.irqVectors.getLsbD b := by
  have hc : c.irqBase < 256 ∧ c.irqBase / 8 ≠ b := by
    cases c <;> simp only [Chip.irqBase] <;> omega
  simp [Cpu.irqVectors_clearIrqVector _ hc.1, hc.2]

theorem irqVectors_chipPendingVector (s : Pics) (c : Chip) (hb : 2 ≤ b) :
    (s.chipPendingVector c).2.cpu.irqVectors.getLsbD b = s.cpu.irqVectors.getLsbD b := by
  unfold chipPendingVector
  simp only
  split_ifs <;> simp [irqVectors_clearIrqVector_irqBase _ _ hb]

theorem irqVectors_askChip (s : Pics) (c : Chip) (hb : 2 ≤ b) :
    (s.askChip c).2.cpu.irqVectors.getLsbD b = s.cpu.irqVectors.getLsbD b := by
  unfold askChip
  split_ifs
  · exact irqVectors_chipPendingVector s c hb
  · rfl

theorem irqVectors_picPendingVector (s : Pics) (hb : 2 ≤ b) :
    s.picPendingVector.2.cpu.irqVectors.getLsbD b = s.cpu.irqVectors.getLsbD b := by
  grind [picPendingVector, irqVectors_askChip]

end Pics
namespace Apics
variable {s} {i : ℕ}

theorem sane_pendingVector (hs : s.Sane i) : (s.pendingVector i).2.Sane i := by
  rcases pendingVector_cases s i with h | ⟨⟨w, irq⟩, l, hl, h⟩ | h
  · rwa [h]
  · obtain ⟨hw, rfl⟩ := hs.pendingVector_lapic hl
    rw [h]
    exact hs.setLapic_claim hw
  · rw [h]
    exact hs.congr rfl hs.notMarked

theorem summarised_pendingVector (hs : s.Sane i) (hsum : s.Summarised i) :
    (s.pendingVector i).2.Summarised i := by
  rcases pendingVector_cases s i with h | ⟨⟨w, irq⟩, l, hl, h⟩ | h
  · rwa [h]
  · obtain ⟨hw, rfl⟩ := hs.pendingVector_lapic hl
    rw [h]
    intro v hv
    exact hsum v (requested_of_claim hw.1 hv)
  · rw [h]
    intro v hv
    have hgroup : 2 ≤ (v + 16) / 8 := by omega
    rw [summary, setPics_cpu_self, Pics.irqVectors_picPendingVector _ hgroup]
    exact hsum v hv

theorem pendingVector_of_highest {v : ℕ} (hne : (s.cpu i).irqVectors ≠ 0)
    (henabled : (s.lapic i).isEnabled = true) (hv : s.Requested i v)
    (hirr : ∀ u, s.Requested i u → 32 ≤ u ∧ u ≤ v)
    (hisr : ∀ u, s.InService i u → 32 ≤ u ∧ u / 16 < v / 16) :
    (s.pendingVector i).1 = some (v, (s.lapic i).getPin v) := by
  have hirrTop := isTop_msbRr (s.lapic i) .irr fun u hu => by
    by_contra hne
    have := hirr u ⟨by omega, by simpa using hne⟩
    omega
  have hisrTop := isTop_msbRr (s.lapic i) .isr fun u hu => by
    by_contra hne
    have := hisr u ⟨by omega, by simpa using hne⟩
    omega
  have hv32 := (hirr v hv).1
  have hle := hirrTop.le v hv.1 hv.2
  have htop : (s.lapic i).msbRr .irr = v := by
    have := hirr _ (hirrTop.mem (by omega))
    omega
  have hclass : (s.lapic i).msbRr .isr / 16 < v / 16 := by
    rcases hisrTop.eq_zero_or with hzero | hmem
    · rw [hzero]; omega
    · exact (hisr _ hmem).2
  have hpin :
      (((s.lapic i).bitClearRr v .irr).bitSetRr v .isr).getPin v = (s.lapic i).getPin v := by
    rw [getPin, raw_bitSetRr _ _ hv.1 (by omega),
      raw_bitClearRr _ _ hv.1 (by omega)]
    rfl
  have hl : (s.lapic i).pendingVector.1 = some (v, (s.lapic i).getPin v) := by
    grind [Lapic.pendingVector]
  exact congrArg Prod.fst (pendingVector_of_lapic hne henabled (Prod.ext hl rfl))

theorem found_of_summarised {v : ℕ} (hs : s.Sane i) (hsum : s.Summarised i) (hv : s.Requested i v)
    (habove : ∀ u, s.InService i u → u / 16 < v / 16) :
    ∃ w irq, (s.pendingVector i).1 = some (w, irq) ∧ s.Requested i w ∧ v ≤ w := by
  have hne : (s.cpu i).irqVectors ≠ 0 := (ne_zero_iff _).2 ⟨_, hsum v hv⟩
  have htop := hs.isTop_irr
  have hle := htop.le v hv.1 hv.2
  have hw := htop.mem (by have := (hs.requested v hv).1; omega)
  refine ⟨_, _,
    pendingVector_of_highest hne hs.enabled hw (fun u hu => ?_) (fun u hu => ?_), hw, hle⟩
  · exact ⟨(hs.requested u hu).1, htop.le u hu.1 hu.2⟩
  · have := habove u hu
    exact ⟨(hs.inService u hu).1, by omega⟩

theorem redtbl_setLo (x : I82093) (hwirq lo : Word) (e : ℕ) :
    ((x.setLo hwirq lo).redtbl e).lo = if e = x.entry hwirq then lo else (x.redtbl e).lo := by
  by_cases he : e = x.entry hwirq
  · subst he; simp [I82093.setLo]
  · simp [I82093.setLo, he]

section
variable (hm : ∀ addr e, ((s.ioapic addr).redtbl e).lo.getLsbD 17 = false) (i : ℕ)
include hm

theorem ioapicEoi_of_notMarked (a hwirq : Word) :
    (s.ioapicEoi i a hwirq).cpu = s.cpu ∧ (s.ioapicEoi i a hwirq).lapic = s.lapic ∧
      ∀ addr e, (((s.ioapicEoi i a hwirq).ioapic addr).redtbl e).lo.getLsbD 17 = false := by
  have h17 : ((s.ioapic a).redir hwirq).lo.getLsbD 17 = false := hm a _
  unfold ioapicEoi
  simp only [h17, Bool.false_eq_true, if_false]
  split_ifs with h14
  · refine ⟨by simp, by simp, fun addr e => ?_⟩
    rw [unmaskHwirq_ioapic]
    by_cases haddr : addr = a
    · subst haddr
      rw [setIoapic_ioapic_self, redtbl_setLo]
      split_ifs
      · rw [getLsbD_erase, h17, Bool.false_and]
      · exact hm addr e
    · rw [setIoapic_ioapic_of_ne _ _ haddr]
      exact hm addr e
  · exact ⟨rfl, rfl, hm⟩

theorem notifyIoapic_of_notMarked (l : Lapic) (v : ℕ) :
    (s.notifyIoapic i l v).cpu = s.cpu ∧ (s.notifyIoapic i l v).lapic = s.lapic ∧
      ∀ addr e, (((s.notifyIoapic i l v).ioapic addr).redtbl e).lo.getLsbD 17 = false := by
  unfold notifyIoapic
  split_ifs
  · exact ioapicEoi_of_notMarked hm i _ _
  · exact ⟨rfl, rfl, hm⟩

end

def HighestInService (s : Apics) (i v : ℕ) : Prop :=
  s.InService i v ∧ ∀ u, s.InService i u → u ≤ v

def ClusterBusy (s : Apics) (i v : ℕ) : Prop := ∃ u, s.InService i u ∧ u ≠ v ∧ 32 ≤ u ∧ u < 64

theorem writeEoi_of_none (hs : s.Sane i) (h : ∀ v, ¬ s.InService i v) : s.writeEoi i = s := by
  have hzero : (s.lapic i).msbRr .isr = 0 := by
    rcases hs.isTop_isr.eq_zero_or with hzero | hmem
    · exact hzero
    · exact absurd hmem (h _)
  simp [writeEoi, hzero]

theorem Sane.msbRr_of_highest {v : ℕ} (hs : s.Sane i) (h : s.HighestInService i v) :
    (s.lapic i).msbRr .isr = v := by
  have hle := hs.isTop_isr.le v h.1.1 h.1.2
  have hv := (hs.inService v h.1).1
  have hmem := hs.isTop_isr.mem (by omega)
  have := h.2 _ hmem
  omega

theorem writeEoi_of_highest {v : ℕ} (hs : s.Sane i) (h : s.HighestInService i v) :
    (s.writeEoi i).lapic i = ((s.lapic i).bitClearRr v .isr).bitClearRr v .tmr ∧
      (s.ClusterBusy i v → (s.writeEoi i).cpu i = s.cpu i) ∧
      (¬ s.ClusterBusy i v → (s.writeEoi i).cpu i = (s.cpu i).clearIrqVector (v + 16)) ∧
      ∀ addr e, (((s.writeEoi i).ioapic addr).redtbl e).lo.getLsbD 17 = false := by
  have hv := hs.inService v h.1
  have hcluster : ((s.lapic i).bitClearRr v .isr).msbRrCluster .isr v = 0 ↔
      ¬ s.ClusterBusy i v := by
    rw [msbRrCluster_eq_zero_iff _ _ hv.1 h.1.1]
    constructor
    · rintro hnone ⟨u, hu, hne, hlow, hhigh⟩
      have := hnone u hlow hhigh
      rw [testRr_bitClearRr _ _ _ h.1.1 hu.1, hu.2] at this
      simp [Ne.symm hne] at this
    · intro hnot u hlow hhigh
      rw [testRr_bitClearRr _ _ _ h.1.1 (by omega)]
      by_contra hne
      simp only [true_and, Bool.and_eq_true, Bool.not_eq_true', decide_eq_false_iff_not,
        Bool.not_eq_false] at hne
      exact hnot ⟨u, ⟨by omega, hne.1⟩, Ne.symm hne.2, hlow, hhigh⟩
  have heq : s.writeEoi i = ((s.retireSummary i ((s.lapic i).bitClearRr v .isr) v).setLapic i
      (((s.lapic i).bitClearRr v .isr).bitClearRr v .tmr)).notifyIoapic i
        ((s.lapic i).bitClearRr v .isr) v := by
    have hgt : v > 15 := by omega
    simp only [writeEoi, hs.msbRr_of_highest h, hgt, h.1.2, and_self, if_true]
  have hio : (s.retireSummary i ((s.lapic i).bitClearRr v .isr) v).ioapic = s.ioapic := by
    unfold retireSummary
    split_ifs <;> rfl
  obtain ⟨hcpu, hlapic, hmarked⟩ := notifyIoapic_of_notMarked
    (s := (s.retireSummary i ((s.lapic i).bitClearRr v .isr) v).setLapic i
      (((s.lapic i).bitClearRr v .isr).bitClearRr v .tmr))
    (by rw [setLapic_ioapic, hio]; exact hs.notMarked) i ((s.lapic i).bitClearRr v .isr) v
  rw [heq]
  refine ⟨by rw [hlapic, setLapic_lapic_self], fun hbusy => ?_, fun hidle => ?_, hmarked⟩
  · rw [hcpu, setLapic_cpu, retireSummary, if_neg (fun hc => hcluster.1 hc hbusy)]
  · rw [hcpu, setLapic_cpu, retireSummary, if_pos (hcluster.2 hidle), setCpu_cpu_self]

theorem exists_highest (hs : s.Sane i) (h : ¬ ∀ v, ¬ s.InService i v) :
    ∃ v, s.HighestInService i v := by
  push Not at h
  obtain ⟨u, hu⟩ := h
  have hle := hs.isTop_isr.le u hu.1 hu.2
  have hu32 := (hs.inService u hu).1
  exact ⟨_, hs.isTop_isr.mem (by omega), fun w hw => hs.isTop_isr.le w hw.1 hw.2⟩

theorem requested_writeEoi {v : ℕ} (hs : s.Sane i) (h : s.HighestInService i v) (u : ℕ) :
    (s.writeEoi i).Requested i u ↔ s.Requested i u := by
  unfold Requested
  rw [(writeEoi_of_highest hs h).1]
  refine and_congr_right fun hu => ?_
  simp [testRr_bitClearRr _ _ _ h.1.1 hu]

def EoiSafe (s : Apics) (i : ℕ) : Prop :=
  ∀ v, s.HighestInService i v →
    s.ClusterBusy i v ∨ ∀ w, s.Requested i w → (w + 16) / 8 ≠ (v + 16) / 8

theorem sane_writeEoi (hs : s.Sane i) : (s.writeEoi i).Sane i := by
  by_cases hnone : ∀ v, ¬ s.InService i v
  · rwa [writeEoi_of_none hs hnone]
  · obtain ⟨v, hv⟩ := exists_highest hs hnone
    obtain ⟨hlapic, -, -, hmarked⟩ := writeEoi_of_highest hs hv
    have hlt := hv.1.1
    refine ⟨?_, fun u hu => hs.requested u ?_, fun u hu => hs.inService u ?_, hmarked⟩
    · have := hs.enabled
      rw [hlapic]
      simpa [isEnabled, raw_bitClearRr _ _ hlt] using this
    · exact (requested_writeEoi hs hv u).1 hu
    · obtain ⟨hu', hu⟩ := hu
      rw [hlapic, testRr_bitClearRr _ _ _ hlt hu',
        testRr_bitClearRr _ _ _ hlt hu'] at hu
      exact ⟨hu', by simp_all⟩

theorem summarised_writeEoi_iff (hs : s.Sane i) (hsum : s.Summarised i) :
    (s.writeEoi i).Summarised i ↔ s.EoiSafe i := by
  by_cases hnone : ∀ v, ¬ s.InService i v
  · rw [writeEoi_of_none hs hnone]
    exact iff_of_true hsum fun v hv => absurd hv.1 (hnone v)
  · obtain ⟨v, hv⟩ := exists_highest hs hnone
    obtain ⟨-, hbusy, hidle, -⟩ := writeEoi_of_highest hs hv
    have hrange := hs.inService v hv.1
    have hsafe : s.EoiSafe i ↔
        (s.ClusterBusy i v ∨ ∀ w, s.Requested i w → (w + 16) / 8 ≠ (v + 16) / 8) := by
      refine ⟨fun h => h v hv, fun h u hu => ?_⟩
      rwa [le_antisymm (hv.2 u hu.1) (hu.2 v hv.1)]
    rw [hsafe]
    by_cases hcluster : s.ClusterBusy i v
    · refine iff_of_true (fun w hw => ?_) (Or.inl hcluster)
      rw [summary, hbusy hcluster]
      exact hsum w ((requested_writeEoi hs hv w).1 hw)
    · have hbit : ∀ w, (s.writeEoi i).summary i w =
          (s.summary i w && !decide ((v + 16) / 8 = (w + 16) / 8)) := by
        grind [summary, Cpu.irqVectors_clearIrqVector, getLsbD_erase]
      constructor
      · intro h
        refine Or.inr fun w hw hgroup => ?_
        have := h w ((requested_writeEoi hs hv w).2 hw)
        rw [hbit] at this
        simp [hgroup] at this
      · rintro (hc | hfree) w hw
        · exact absurd hc hcluster
        · have hw := (requested_writeEoi hs hv w).1 hw
          rw [hbit]
          simp [hsum w hw, Ne.symm (hfree w hw)]

inductive LapicOp
  | raiseVector (vector : {v : ℕ // 32 ≤ v ∧ v ≤ 239}) (irq : Word) (fromEoi : Bool)
      (fromIoapic : Word)
  | pendingVector
  | writeEoi (value : Word)

def lapicStep (i : ℕ) (s : Apics) : LapicOp → Apics
  | .raiseVector vector irq fromEoi fromIoapic =>
    s.raiseVector i i vector irq false fromEoi fromIoapic
  | .pendingVector => (s.pendingVector i).2
  | .writeEoi value => s.write i value 0x0b0

def EoiGuard (i : ℕ) (s : Apics) : LapicOp → Prop
  | .writeEoi _ => s.EoiSafe i
  | _ => True

structure Quiet (s : Apics) (i : ℕ) : Prop where
  enabled : (s.lapic i).isEnabled = true
  notRequested : ∀ v, ¬ s.Requested i v
  notInService : ∀ v, ¬ s.InService i v
  notMarked : ∀ addr e, ((s.ioapic addr).redtbl e).lo.getLsbD 17 = false

theorem quiet_boot (nrVcpus : ℕ) (squash : Word) : (boot nrVcpus squash).Quiet 0 where
  enabled := rfl
  notRequested v hv := by simpa [boot, testRr_init _ _ _ hv.1] using hv.2
  notInService v hv := by simpa [boot, testRr_init _ _ _ hv.1] using hv.2
  notMarked _ _ := by simp [boot]

structure NothingOverlooked (s : Apics) (i : ℕ) : Prop where
  summarised : s.Summarised i
  maybe : ∀ v, s.Requested i v → s.maybePendingVector i = true
  found : ∀ v, s.Requested i v → (∀ u, s.InService i u → u / 16 < v / 16) →
    ∃ w irq, (s.pendingVector i).1 = some (w, irq) ∧ s.Requested i w ∧ v ≤ w

theorem Quiet.sane (h : s.Quiet i) : s.Sane i :=
  ⟨h.enabled, fun v hv => absurd hv (h.notRequested v),
    fun v hv => absurd hv (h.notInService v), h.notMarked⟩

theorem sound_lapicStep {op : LapicOp} (hs : s.Sane i ∧ s.Summarised i) (hg : EoiGuard i s op) :
    (lapicStep i s op).Sane i ∧ (lapicStep i s op).Summarised i := by
  obtain ⟨hsane, hsum⟩ := hs
  cases op with
  | raiseVector vector irq fromEoi fromIoapic =>
    obtain ⟨hv, hv'⟩ := vector.2
    exact ⟨hsane.raise irq fromEoi fromIoapic hv hv', hsum.raise irq fromEoi fromIoapic hv hv'⟩
  | pendingVector => exact ⟨sane_pendingVector hsane, summarised_pendingVector hsane hsum⟩
  | writeEoi value =>
    exact ⟨sane_writeEoi hsane, (summarised_writeEoi_iff hsane hsum).2 hg⟩

theorem sound_run {ops : List LapicOp} (hs : s.Quiet i)
    (hg : Runs.Guarded (lapicStep i) (EoiGuard i) s ops) :
    (run (lapicStep i) s ops).Sane i ∧ (run (lapicStep i) s ops).Summarised i :=
  run_invariant (I := fun s => s.Sane i ∧ s.Summarised i)
    (fun _ _ => sound_lapicStep) ⟨hs.sane, fun v hv => absurd hv (hs.notRequested v)⟩ hg

/-- **No request is overlooked in a run whose EOI writes are safe.** Every requested vector has its
summary bit and is reported, and `pending_vector` finds it or a higher one. A further EOI write
keeps that exactly when it is safe. -/
theorem found_of_guarded_run (i : ℕ) (s : Apics) (ops : List LapicOp) (hs : s.Quiet i)
    (hg : Runs.Guarded (lapicStep i) (EoiGuard i) s ops) :
    (run (lapicStep i) s ops).NothingOverlooked i ∧
      ∀ value, ((lapicStep i (run (lapicStep i) s ops) (.writeEoi value)).Summarised i ↔
        (run (lapicStep i) s ops).EoiSafe i) := by
  obtain ⟨hsane, hsum⟩ := sound_run hs hg
  refine ⟨⟨hsum, fun v hv => ?_, fun v hv habove => found_of_summarised hsane hsum hv habove⟩,
    fun value => summarised_writeEoi_iff hsane hsum⟩
  have hne := (ne_zero_iff _).2 ⟨_, hsum v hv⟩
  simpa [maybePendingVector] using hne

theorem found_of_raise_deliver_eoi :
    (run (lapicStep 0) (boot 1 0) [.raiseVector ⟨65, by decide⟩ 4 false 0, .pendingVector,
      .writeEoi 0]).NothingOverlooked 0 := by
  -- the delivery has taken the only request
  have hnone : ∀ w < 256, ((run (lapicStep 0) (boot 1 0)
      [.raiseVector ⟨65, by decide⟩ 4 false 0, .pendingVector]).lapic 0).testRr .irr w = false := by
    decide +kernel
  have hg : Runs.Guarded (lapicStep 0) (EoiGuard 0) (boot 1 0)
      [.raiseVector ⟨65, by decide⟩ 4 false 0, .pendingVector, .writeEoi 0] :=
    ⟨trivial, trivial, fun v _ => Or.inr fun w hw => absurd hw.2 (by
      rw [Bool.not_eq_true]; exact hnone w hw.1), trivial⟩
  exact (found_of_guarded_run 0 (boot 1 0) _ (quiet_boot 1 0) hg).1

theorem overlooked_after_eoi :
    let s := run (lapicStep 0) (boot 1 0) [.raiseVector ⟨65, by decide⟩ 4 false 0,
      .pendingVector, .raiseVector ⟨65, by decide⟩ 4 false 0, .writeEoi 0]
    s.Requested 0 65 ∧ s.summary 0 65 = false ∧ s.maybePendingVector 0 = false ∧
      (s.pendingVector 0).1 = none := by
  intro s
  have hirr : (s.lapic 0).testRr .irr 65 = true := by decide +kernel
  have hzero : (s.cpu 0).irqVectors = 0 := by decide +kernel
  refine ⟨⟨by decide, hirr⟩, by rw [summary, hzero]; rfl, by simp [maybePendingVector, hzero], ?_⟩
  rw [pendingVector, if_pos hzero]

end Apics
end Wedge
