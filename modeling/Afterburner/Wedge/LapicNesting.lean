import Afterburner.Lib.Runs
import Afterburner.Wedge.Apics

/-!
# Nesting of interrupts at a local APIC

Vectors are accepted by `pending_vector` while others are in service, retired by an EOI, the highest
first, or given back by a reraise.
-/
variable (l : Lapic)

namespace Wedge
open List Lapic Runs

abbrev DeviceVector := {v : ℕ // 32 ≤ v ∧ v < 256}

namespace Lapic

def eoi : Lapic :=
  let vector := l.msbRr .isr
  if vector > 15 ∧ l.testRr .isr vector then (l.bitClearRr vector .isr).bitClearRr vector .tmr
  else l

end Lapic

/-- An EOI write does this to the registers before it tells the I/O APIC. -/
theorem Apics.writeEoi_of_inService {s : Apics} {self : ℕ} (h : 15 < (s.lapic self).msbRr .isr ∧
    (s.lapic self).testRr .isr ((s.lapic self).msbRr .isr) = true) :
    let vector := (s.lapic self).msbRr .isr
    let l := (s.lapic self).bitClearRr vector .isr
    s.writeEoi self = ((s.retireSummary self l vector).setLapic self
      (s.lapic self).eoi).notifyIoapic self l vector := by
  simp only [writeEoi, Lapic.eoi, gt_iff_lt, if_pos h]

structure Nest where
  lapic : Lapic
  stack : List ℕ

namespace Nest
variable (x : Nest)

inductive Op
  | raise (vector : DeviceVector) (irq : Word) (reraise fromEoi : Bool) (fromIoapic : Word)
  | pendingVector
  | eoi

def accept : Option (ℕ × Word) → List ℕ
  | some (v, _) => v :: x.stack
  | none => x.stack

def step : Op → Nest
  | .raise v irq reraise fromEoi fromIoapic =>
    ⟨x.lapic.raise v irq reraise fromEoi fromIoapic,
      if reraise then x.stack.filter (· ≠ v.1) else x.stack⟩
  | .pendingVector => ⟨x.lapic.pendingVector.2, x.accept x.lapic.pendingVector.1⟩
  | .eoi => ⟨x.lapic.eoi, x.stack.tail⟩

def OnlyDevices (r : RrSel) : Prop := ∀ v < 256, l.testRr r v = true → 32 ≤ v

structure Inv : Prop where
  requested : OnlyDevices x.lapic .irr
  device : ∀ v ∈ x.stack, 32 ≤ v ∧ v < 256
  inService : ∀ v < 256, x.lapic.testRr .isr v = true ↔ v ∈ x.stack
  nested : x.stack.Pairwise fun v w => w / 16 < v / 16

variable {x}

theorem isTop_of_onlyDevices {l : Lapic} {r : RrSel} (h : OnlyDevices l r) :
    Bits.IsTop (fun v => l.testRr r v = true) 256 (l.msbRr r) := by
  refine isTop_msbRr l r fun v hv => ?_
  by_contra hne
  have := h v (by omega) (by simpa using hne)
  omega

theorem Inv.onlyDevices (h : x.Inv) : OnlyDevices x.lapic .isr :=
  fun v hv hin => (h.device v ((h.inService v hv).1 hin)).1

theorem Inv.msbRr_isr (h : x.Inv) : x.lapic.msbRr .isr = x.stack.headD 0 := by
  have htop := isTop_of_onlyDevices h.onlyDevices
  cases hs : x.stack with
  | nil =>
    rcases htop.eq_zero_or with hzero | ⟨hlt, hin⟩
    · exact hzero
    · have := (h.inService _ hlt).1 hin
      rw [hs] at this
      exact absurd this not_mem_nil
  | cons v rest =>
    have hv : v ∈ x.stack := by rw [hs]; exact mem_cons_self
    have hdev := h.device v hv
    have hle := htop.le v hdev.2 ((h.inService v hdev.2).2 hv)
    obtain ⟨hlt, hin⟩ := htop.mem (by omega)
    have hmem := (h.inService _ hlt).1 hin
    have hnested := h.nested
    rw [hs] at hmem hnested
    rcases mem_cons.1 hmem with heq | hrest
    · exact heq
    · -- everything below the top has a lower class
      have := (pairwise_cons.1 hnested).1 _ hrest
      omega

theorem Inv.raise (h : x.Inv) (v : DeviceVector) (irq : Word) (reraise fromEoi : Bool)
    (fromIoapic : Word) : (x.step (.raise v irq reraise fromEoi fromIoapic)).Inv := by
  obtain ⟨v, hv, hv'⟩ := v
  have hbit := fun (q : RrSel) (u : ℕ) (hu : u < 256) =>
    testRr_raise_eq x.lapic q hv' hu irq reraise fromEoi fromIoapic
  constructor
  · intro u hu hreq
    simp only [step, hbit _ u hu] at hreq
    by_cases huv : v = u
    · omega
    · exact h.requested u hu (by simpa [huv] using hreq)
  · intro u hu
    cases reraise with
    | false => exact h.device u hu
    | true => exact h.device u (mem_of_mem_filter hu)
  · intro u hu
    have := h.inService u hu
    cases reraise with
    | false => simpa [step, hbit _ u hu] using this
    | true => simp [step, hbit _ u hu, this, eq_comm (a := u)]
  · cases reraise with
    | false => exact h.nested
    | true => exact h.nested.filter _

theorem pendingVector_cases :
    l.pendingVector = (none, l) ∨ ∃ irq, l.msbRr .isr / 16 < l.msbRr .irr / 16 ∧
      l.pendingVector = (some (l.msbRr .irr, irq),
        (l.bitClearRr (l.msbRr .irr) .irr).bitSetRr (l.msbRr .irr) .isr) := by
  unfold pendingVector
  dsimp only
  split_ifs with hgt
  · exact .inr ⟨_, hgt.1, rfl⟩
  · exact .inl rfl

theorem Inv.accepted (h : x.Inv) {v : ℕ} {irq : Word}
    (hv : x.lapic.pendingVector.1 = some (v, irq)) :
    x.lapic.testRr .irr v = true ∧ 32 ≤ v ∧ v < 256 ∧ ∀ w ∈ x.stack, w / 16 < v / 16 := by
  rcases pendingVector_cases x.lapic with hnone | ⟨irq', hclass, hsome⟩
  · rw [hnone] at hv
    cases hv
  · rw [hsome] at hv
    cases hv
    obtain ⟨hlt, hreq⟩ := (isTop_of_onlyDevices h.requested).mem (by omega)
    refine ⟨hreq, h.requested _ hlt hreq, hlt, fun w hw => ?_⟩
    have hdev := h.device w hw
    have := (isTop_of_onlyDevices h.onlyDevices).le w hdev.2 ((h.inService w hdev.2).2 hw)
    omega

theorem Inv.pendingVector (h : x.Inv) : (x.step .pendingVector).Inv := by
  rcases pendingVector_cases x.lapic with hnone | ⟨irq, -, hsome⟩
  · rw [step, hnone]
    exact h
  · obtain ⟨hreq, hv, hlt, habove⟩ := h.accepted (congrArg Prod.fst hsome)
    rw [step, hsome]
    generalize x.lapic.msbRr .irr = v at *
    have hbit := fun (q : RrSel) (u : ℕ) (hu : u < 256) =>
      (testRr_bitSetRr (x.lapic.bitClearRr v .irr) .isr q hlt hu).trans
        (congrArg (· || _) (testRr_bitClearRr x.lapic .irr q hlt hu))
    constructor
    · intro u hu hreq'
      exact h.requested u hu (by simp_all)
    · intro u hu
      rcases mem_cons.1 hu with rfl | hu
      · exact ⟨hv, hlt⟩
      · exact h.device u hu
    · intro u hu
      simp [accept, hbit _ u hu, h.inService u hu, eq_comm (a := u), or_comm]
    · exact pairwise_cons.2 ⟨habove, h.nested⟩

theorem Inv.eoi_inService (h : x.Inv) {w : ℕ} (hw : w < 256) :
    x.lapic.eoi.testRr .isr w = true ↔ w ∈ x.stack.tail := by
  have htop := h.msbRr_isr
  cases hs : x.stack with
  | nil =>
    rw [hs, headD_nil] at htop
    have heoi : x.lapic.eoi = x.lapic := by simp [eoi, htop]
    rw [heoi, h.inService w hw, hs]
    rfl
  | cons v rest =>
    have hdev := h.device v (by rw [hs]; exact mem_cons_self)
    have hin : x.lapic.testRr .isr v = true :=
      (h.inService v hdev.2).2 (by rw [hs]; exact mem_cons_self)
    have hnotin : v ∉ rest := by
      intro hmem
      have hnested := h.nested
      rw [hs] at hnested
      exact absurd ((pairwise_cons.1 hnested).1 v hmem) (lt_irrefl _)
    have hmem := h.inService w hw
    rw [hs, mem_cons] at hmem
    have heoi : x.lapic.eoi = (x.lapic.bitClearRr v .isr).bitClearRr v .tmr := by
      rw [hs, headD_cons] at htop
      rw [eoi, htop]
      exact if_pos ⟨by omega, hin⟩
    rw [heoi, tail_cons, testRr_bitClearRr _ _ _ hdev.2 hw,
      testRr_bitClearRr _ _ _ hdev.2 hw]
    by_cases hwv : v = w
    · subst hwv
      simp [hnotin]
    · have hwv' : w ≠ v := fun h => hwv h.symm
      simpa [hwv, hwv'] using hmem

theorem testRr_eoi_irr (h : l.msbRr .isr < 256) {w : ℕ} (hw : w < 256) :
    l.eoi.testRr .irr w = l.testRr .irr w := by
  rw [eoi]
  split_ifs
  · rw [testRr_bitClearRr _ _ _ h hw, testRr_bitClearRr _ _ _ h hw]
    simp
  · rfl

theorem Inv.eoi (h : x.Inv) : (x.step .eoi).Inv := by
  have hlt : x.lapic.msbRr .isr < 256 := by
    rcases (isTop_of_onlyDevices h.onlyDevices).eq_zero_or with hzero | hmem
    · omega
    · exact hmem.1
  constructor
  · intro u hu hreq
    exact h.requested u hu ((testRr_eoi_irr _ hlt hu).symm.trans hreq)
  · exact fun v hv => h.device v (mem_of_mem_tail hv)
  · exact fun v hv => h.eoi_inService hv
  · exact h.nested.tail

theorem inv_init (id : Byte) (bsp : Bool) : Inv ⟨init id bsp, []⟩ where
  requested v hv hreq := by
    rw [testRr_init id bsp .irr hv] at hreq
    cases hreq
  device v hv := absurd hv not_mem_nil
  inService v hv := by simp [testRr_init id bsp .isr hv]
  nested := List.Pairwise.nil

theorem inv_run (id : Byte) (bsp : Bool) (ops : List Op) :
    (run step ⟨init id bsp, []⟩ ops).Inv := by
  refine run_invariant_of_forall (fun x op h => ?_) (inv_init id bsp) ops
  cases op with
  | raise v irq reraise fromEoi fromIoapic => exact h.raise v irq reraise fromEoi fromIoapic
  | pendingVector => exact h.pendingVector
  | eoi => exact h.eoi

structure Disciplined (x : Nest) : Prop where
  inService : ∀ v < 256, x.lapic.testRr .isr v = true ↔ v ∈ x.stack
  oneOfClass : ∀ v < 256, ∀ w < 256, x.lapic.testRr .isr v = true → x.lapic.testRr .isr w = true →
    v / 16 = w / 16 → v = w
  accepted : ∀ v irq, x.lapic.pendingVector.1 = some (v, irq) →
    ∀ w < 256, x.lapic.testRr .isr w = true → w / 16 < v / 16
  retired : ∀ w < 256, x.lapic.eoi.testRr .isr w = true ↔ w ∈ x.stack.tail

/-- **The nesting discipline holds after every run** of raised vectors, deliveries and EOI
writes. -/
theorem disciplined_run (id : Byte) (bsp : Bool) (ops : List Op) :
    (run step ⟨init id bsp, []⟩ ops).Disciplined := by
  have h := inv_run id bsp ops
  refine ⟨h.inService, fun v hv w hw hin hin' hclass => ?_, fun v irq hv w hw hin => ?_,
    fun w hw => h.eoi_inService hw⟩
  · by_contra hne
    have hsymm : Std.Symm fun v w : ℕ => v / 16 ≠ w / 16 := ⟨fun _ _ h => h.symm⟩
    exact (h.nested.imp fun hlt => (ne_of_lt hlt).symm).forall ((h.inService v hv).1 hin)
      ((h.inService w hw).1 hin') hne hclass
  · exact (h.accepted hv).2.2.2 w ((h.inService w hw).1 hin)

/-- **At most fourteen vectors are in service at once**, one for each class of device vectors. -/
theorem card_inService_le (id : Byte) (bsp : Bool) (ops : List Op) :
    ((Finset.range 256).filter fun v =>
      (run step ⟨init id bsp, []⟩ ops).lapic.testRr .isr v = true).card ≤ 14 := by
  have h := inv_run id bsp ops
  have hstack : ∀ v ∈ (Finset.range 256).filter fun v =>
      (run step ⟨init id bsp, []⟩ ops).lapic.testRr .isr v = true,
        v ∈ (run step ⟨init id bsp, []⟩ ops).stack := by
    intro v hv
    obtain ⟨hlt, hin⟩ := Finset.mem_filter.1 hv
    exact (h.inService v (Finset.mem_range.1 hlt)).1 hin
  refine Finset.card_le_card_of_injOn (t := Finset.Ico 2 16) (· / 16) (fun v hv => ?_)
    fun v hv w hw hclass => ?_
  · have := h.device v (hstack v hv)
    simp only [Finset.coe_Ico, Set.mem_Ico]
    omega
  · by_contra hne
    have hsymm : Std.Symm fun v w : ℕ => v / 16 ≠ w / 16 := ⟨fun _ _ h => h.symm⟩
    exact (h.nested.imp fun hlt => (ne_of_lt hlt).symm).forall (hstack v hv) (hstack w hw) hne
      hclass

end Nest
end Wedge
