import Afterburner.Lib.Runs

/-!
# Ownership of hardware interrupts in the resource monitor

VMs associate hardware interrupts with their threads; the mode of the scheduler says in which of two
tables.
-/

namespace Resourcemon
open Function

def maxIrqs : ℕ := 256
def maxVirqVms : ℕ := 16
def prioIrq : ℕ := 255

structure Platform where
  /-- `l4_pmsched_enabled` -/
  pmsched : Bool
  /-- `L4_ProcessorNo()` -/
  processorNo : ℕ
  ptimerIrqnoStart : ℕ
  vcpuCount : ℕ → ℕ
  vcpuCount_pos : ∀ vm, 0 < vcpuCount vm
  monitorTid : ℕ → ℕ → ℕ
  pcpu : ℕ → ℕ → ℕ
  /-- the monitor threads registered with the `virq` thread of a processor -/
  vctx : ℕ → List ℕ

variable (p : Platform)

structure IrqTables where
  irqToVm : ℕ → Option ℕ
  pirqhandler : ℕ → Option (ℕ × ℕ)

variable (s : IrqTables)

structure L4Calls where
  associate : Bool
  schedule : Bool
  deassociate : Bool
  deriving DecidableEq

namespace IrqTables

def init : IrqTables := ⟨fun _ => none, fun _ => none⟩

def setOwner (irq : ℕ) (vm : Option ℕ) : IrqTables :=
  { s with irqToVm := update s.irqToVm irq vm }

def setHandler (irq : ℕ) (h : ℕ × ℕ) : IrqTables :=
  { s with pirqhandler := update s.pirqhandler irq (some h) }

def handlerVcpu (vm handlerTid : ℕ) : Option ℕ :=
  (List.range (p.vcpuCount vm)).find? fun vcpu => handlerTid = p.monitorTid vm vcpu

def tidToVmIdx (vctx : List ℕ) (tid : ℕ) : ℕ := (vctx.findIdx? (· = tid)).getD maxVirqVms

def registerHwirqHandler (vm hwirq handlerTid : ℕ) (l4 : L4Calls) :
    Bool × IrqTables :=
  match handlerVcpu p vm handlerTid with
  | none => (false, s)
  | some vcpu =>
    let pcpu := p.pcpu vm vcpu
    let handler := (pcpu, tidToVmIdx (p.vctx pcpu) handlerTid)
    -- a handler that is registered already is replaced
    if (s.pirqhandler hwirq).isSome then (true, s.setHandler hwirq handler)
    else if l4.associate = false then (false, s)
    else if (prioIrq ≠ 255 ∨ pcpu ≠ p.processorNo) ∧ l4.schedule = false then (false, s)
    else (true, s.setHandler hwirq handler)

def scheduleAssociateIrq (vm irq handlerTid irqCpu irqPrio : ℕ)
    (l4 : L4Calls) : Bool × IrqTables :=
  if p.pmsched = false then
    if s.irqToVm irq = none ∨ s.irqToVm irq = some vm then
      if l4.associate = false then (false, s)
      else if (irqPrio ≠ 255 ∨ irqCpu ≠ p.processorNo) ∧ l4.schedule = false then (false, s)
      else (true, s.setOwner irq (some vm))
    else (false, s)
  else s.registerHwirqHandler p vm irq handlerTid l4

def scheduleDeassociateIrq (vm irq : ℕ) (l4 : L4Calls) :
    Bool × IrqTables :=
  if p.pmsched then
    if s.irqToVm irq = some vm then (l4.deassociate, s.setOwner irq none) else (false, s)
  else (false, s)

end IrqTables

inductive IrqRequest
  | associate (vm irq handlerTid irqCpu irqPrio : ℕ) (l4 : L4Calls)
  | deassociate (vm irq : ℕ) (l4 : L4Calls)

namespace IrqRequest

def irq : IrqRequest → ℕ
  | associate _ irq _ _ _ _ => irq
  | deassociate _ irq _ => irq

def OnHwirq (r : IrqRequest) : Prop :=
  r.irq < maxIrqs ∧ (p.pmsched = true → r.irq < p.ptimerIrqnoStart)

def serve : IrqRequest → Bool × IrqTables
  | associate vm irq handlerTid irqCpu irqPrio l4 =>
    s.scheduleAssociateIrq p vm irq handlerTid irqCpu irqPrio l4
  | deassociate vm irq l4 => s.scheduleDeassociateIrq p vm irq l4

end IrqRequest

structure Ledger where
  tables : IrqTables
  owners : ℕ → Set ℕ

namespace Ledger
variable (t : Ledger) (r : IrqRequest)

def init : Ledger := ⟨IrqTables.init, fun _ => ∅⟩

def enter : IrqRequest → ℕ → Set ℕ
  | .associate vm irq .. => update t.owners irq (insert vm (t.owners irq))
  | .deassociate vm irq _ => update t.owners irq (t.owners irq \ {vm})

def step : Ledger where
  tables := (r.serve p t.tables).2
  owners := if (r.serve p t.tables).1 then t.enter r else t.owners

def Available (irq : ℕ) : Prop :=
  ∀ vm handlerTid irqCpu irqPrio l4, (IrqTables.handlerVcpu p vm handlerTid).isSome →
    l4.associate = true → l4.schedule = true →
    (t.tables.scheduleAssociateIrq p vm irq handlerTid irqCpu irqPrio l4).1 = true

def Lawful : Prop :=
  (∀ irq, ((t.step p r).owners irq).Subsingleton) ∧
  match r with
  | .associate vm irq .. => (∃ other ∈ t.owners irq, other ≠ vm) → (r.serve p t.tables).1 = false
  | .deassociate vm irq l4 => vm ∈ t.owners irq → l4.deassociate = true →
      (r.serve p t.tables).1 = true ∧ vm ∉ (t.step p r).owners irq ∧ (t.step p r).Available p irq

def Allowed : IrqRequest → Prop
  | .associate vm irq handlerTid _ _ _ => ¬ (p.pmsched = true ∧
      (∃ other ∈ t.owners irq, other ≠ vm) ∧ (IrqTables.handlerVcpu p vm handlerTid).isSome)
  | .deassociate vm irq l4 => ¬ (vm ∈ t.owners irq ∧ l4.deassociate = true)

structure Kept : Prop where
  one : ∀ irq, (t.owners irq).Subsingleton
  irqToVm : p.pmsched = false → ∀ irq vm, vm ∈ t.owners irq → t.tables.irqToVm irq = some vm
  unused : p.pmsched = true → ∀ irq, t.tables.irqToVm irq = none
  pirqhandler : p.pmsched = true → ∀ irq vm, vm ∈ t.owners irq →
    (t.tables.pirqhandler irq).isSome

variable {p} {t}

theorem kept_init (p : Platform) : init.Kept p where
  one _ := Set.subsingleton_empty
  irqToVm _ _ _ h := h.elim
  unused _ _ := rfl
  pirqhandler _ _ _ h := h.elim

theorem Kept.serve_deassociate (h : t.Kept p) (vm irq : ℕ) (l4 : L4Calls) :
    (IrqRequest.deassociate vm irq l4).serve p t.tables = (false, t.tables) := by
  unfold IrqRequest.serve IrqTables.scheduleDeassociateIrq
  dsimp only
  cases hp : p.pmsched with
  | false => rfl
  | true =>
    rw [h.unused hp]
    rfl

theorem scheduleAssociateIrq_of_not_pmsched (hp : p.pmsched = false) (s : IrqTables)
    (vm irq tid cpu prio : ℕ) (l4 : L4Calls) :
    s.scheduleAssociateIrq p vm irq tid cpu prio l4 = (false, s) ∨
      (s.irqToVm irq = none ∨ s.irqToVm irq = some vm) ∧
        s.scheduleAssociateIrq p vm irq tid cpu prio l4 = (true, s.setOwner irq (some vm)) := by
  unfold IrqTables.scheduleAssociateIrq
  split_ifs with hfree
  · exact Or.inl rfl
  · exact Or.inl rfl
  · exact Or.inr ⟨hfree, rfl⟩
  · exact Or.inl rfl

theorem scheduleAssociateIrq_of_pmsched (hp : p.pmsched = true) (s : IrqTables)
    (vm irq tid cpu prio : ℕ) (l4 : L4Calls) :
    (s.scheduleAssociateIrq p vm irq tid cpu prio l4 = (false, s) ∧
        ¬ ((IrqTables.handlerVcpu p vm tid).isSome ∧ (s.pirqhandler irq).isSome)) ∨
      (IrqTables.handlerVcpu p vm tid).isSome ∧
        ∃ handler, s.scheduleAssociateIrq p vm irq tid cpu prio l4 =
          (true, s.setHandler irq handler) := by
  unfold IrqTables.scheduleAssociateIrq IrqTables.registerHwirqHandler
  rw [if_neg (by simp [hp])]
  cases hv : IrqTables.handlerVcpu p vm tid with
  | none => exact Or.inl ⟨rfl, fun h => Bool.false_ne_true h.1⟩
  | some vcpu =>
    dsimp only
    split_ifs with hreg
    · exact Or.inr ⟨rfl, _, rfl⟩
    · exact Or.inl ⟨rfl, fun h => hreg h.2⟩
    · exact Or.inl ⟨rfl, fun h => hreg h.2⟩
    · exact Or.inr ⟨rfl, _, rfl⟩

theorem step_of_refused {r : IrqRequest} (h : r.serve p t.tables = (false, t.tables)) :
    t.step p r = t := by
  rw [step, h]
  rfl

variable {l4 : L4Calls}

theorem owners_of_granted {vm irq tid cpu prio : ℕ}
    (h : ((IrqRequest.associate vm irq tid cpu prio l4).serve p t.tables).1 = true) (i : ℕ) :
    (t.step p (.associate vm irq tid cpu prio l4)).owners i =
      if i = irq then insert vm (t.owners irq) else t.owners i := by
  rw [step, h]
  exact update_apply ..

theorem Kept.subsingleton_insert {vm irq : ℕ} (hno : ∀ other ∈ t.owners irq, other = vm) :
    (insert vm (t.owners irq) : Set ℕ).Subsingleton := by
  intro a ha b hb
  have hall : ∀ c ∈ (insert vm (t.owners irq) : Set ℕ), c = vm := by
    rintro c (rfl | hc)
    · rfl
    · exact hno c hc
  rw [hall a ha, hall b hb]

theorem Kept.associate {vm irq tid cpu prio : ℕ} (h : t.Kept p)
    (hno : ((IrqRequest.associate vm irq tid cpu prio l4).serve p t.tables).1 = true →
      ∀ other ∈ t.owners irq, other = vm) :
    (t.step p (.associate vm irq tid cpu prio l4)).Kept p := by
  cases hp : p.pmsched with
  | false =>
    rcases scheduleAssociateIrq_of_not_pmsched hp t.tables vm irq tid cpu prio l4 with
      href | ⟨_, hgrant⟩
    · rwa [step_of_refused (r := .associate vm irq tid cpu prio l4) href]
    · have htrue := congrArg Prod.fst hgrant
      have htab : (t.step p (.associate vm irq tid cpu prio l4)).tables =
        t.tables.setOwner irq (some vm) := congrArg Prod.snd hgrant
      refine ⟨fun i => ?_, fun _ i v hv => ?_, fun hp' => ?_, fun hp' => ?_⟩
      · rw [owners_of_granted htrue]
        split_ifs
        · exact subsingleton_insert (hno htrue)
        · exact h.one i
      · rw [owners_of_granted htrue] at hv
        rw [htab]
        by_cases hi : i = irq
        · subst hi
          rw [if_pos rfl] at hv
          have hvm : v = vm := by
            rcases hv with rfl | hv
            · rfl
            · exact hno htrue v hv
          rw [hvm]
          exact update_self ..
        · rw [if_neg hi] at hv
          exact (update_of_ne hi ..).trans (h.irqToVm hp i v hv)
      · exact absurd (hp.symm.trans hp') Bool.false_ne_true
      · exact absurd (hp.symm.trans hp') Bool.false_ne_true
  | true =>
    rcases scheduleAssociateIrq_of_pmsched hp t.tables vm irq tid cpu prio l4 with
      ⟨href, _⟩ | ⟨_, handler, hgrant⟩
    · rwa [step_of_refused (r := .associate vm irq tid cpu prio l4) href]
    · have htrue := congrArg Prod.fst hgrant
      have htab : (t.step p (.associate vm irq tid cpu prio l4)).tables =
        t.tables.setHandler irq handler := congrArg Prod.snd hgrant
      refine ⟨fun i => ?_, fun hp' => ?_, fun _ i => ?_, fun _ i v hv => ?_⟩
      · rw [owners_of_granted htrue]
        split_ifs
        · exact subsingleton_insert (hno htrue)
        · exact h.one i
      · exact absurd (hp'.symm.trans hp) Bool.false_ne_true
      · rw [htab]
        exact h.unused hp i
      · rw [htab, IrqTables.setHandler]
        by_cases hi : i = irq
        · subst hi
          simp
        · rw [owners_of_granted htrue, if_neg hi] at hv
          simpa [update_of_ne hi] using h.pirqhandler hp i v hv

theorem Kept.granted_iff {vm irq tid cpu prio : ℕ} (h : t.Kept p) {other : ℕ}
    (hother : other ∈ t.owners irq) (hne : other ≠ vm) :
    ((IrqRequest.associate vm irq tid cpu prio l4).serve p t.tables).1 = true ↔
      p.pmsched = true ∧ (IrqTables.handlerVcpu p vm tid).isSome := by
  unfold IrqRequest.serve
  dsimp only
  cases hp : p.pmsched with
  | false =>
    rcases scheduleAssociateIrq_of_not_pmsched hp t.tables vm irq tid cpu prio l4 with
      href | ⟨hfree, _⟩
    · rw [href]
      simp
    · rw [h.irqToVm hp irq other hother] at hfree
      rcases hfree with hnone | hsame
      · cases hnone
      · exact absurd (Option.some.inj hsame) hne
  | true =>
    rcases scheduleAssociateIrq_of_pmsched hp t.tables vm irq tid cpu prio l4 with
      ⟨href, hnot⟩ | ⟨hv, handler, hgrant⟩
    · rw [href]
      have hnv : ¬ (IrqTables.handlerVcpu p vm tid).isSome = true := fun hv =>
        hnot ⟨hv, h.pirqhandler hp irq other hother⟩
      simp [hnv]
    · rw [hgrant]
      simp [hv]

theorem Kept.lawful_iff (h : t.Kept p) (r : IrqRequest) : t.Lawful p r ↔ t.Allowed p r := by
  cases r with
  | deassociate vm irq l4 =>
    have hserve := h.serve_deassociate vm irq l4
    unfold Lawful Allowed
    rw [step_of_refused hserve, hserve]
    constructor
    · simp
    · intro hnot
      exact ⟨h.one, fun hown hl4 => absurd ⟨hown, hl4⟩ hnot⟩
  | associate vm irq tid cpu prio l4 =>
    constructor
    · rintro ⟨_, hlaw⟩ ⟨hp, hother, hv⟩
      have hrefused := hlaw hother
      obtain ⟨other, hown, hne⟩ := hother
      rw [(h.granted_iff hown hne).2 ⟨hp, hv⟩] at hrefused
      cases hrefused
    · intro hallowed
      have hrefused : (∃ other ∈ t.owners irq, other ≠ vm) →
          ((IrqRequest.associate vm irq tid cpu prio l4).serve p t.tables).1 = false := by
        rintro ⟨other, hown, hne⟩
        rw [Bool.eq_false_iff]
        intro hgrant
        obtain ⟨hp, hv⟩ := (h.granted_iff hown hne).1 hgrant
        exact hallowed ⟨hp, ⟨other, hown, hne⟩, hv⟩
      have hkept : (t.step p (.associate vm irq tid cpu prio l4)).Kept p := by
        refine h.associate fun hgrant other hown => ?_
        by_contra hne
        rw [hrefused ⟨other, hown, hne⟩] at hgrant
        cases hgrant
      exact ⟨hkept.one, hrefused⟩

theorem Kept.step (h : t.Kept p) {r : IrqRequest} (hr : t.Lawful p r) : (t.step p r).Kept p := by
  cases r with
  | deassociate vm irq l4 => rwa [step_of_refused (h.serve_deassociate vm irq l4)]
  | associate vm irq tid cpu prio l4 =>
    refine h.associate fun hgrant other hown => ?_
    by_contra hne
    rw [hr.2 ⟨other, hown, hne⟩] at hgrant
    cases hgrant

/-- **In both modes, over every sequence of requests with every outcome of the L4 calls, all
requests are lawful exactly when all of them are allowed.** -/
theorem lawful_iff_allowed (p : Platform) (rs : List IrqRequest) (hrs : ∀ r ∈ rs, r.OnHwirq p) :
    Runs.Guarded (step p) (Lawful p) init rs ↔ Runs.Guarded (step p) (Allowed p) init rs :=
  Runs.guarded_congr (I := Kept p) (A := fun r => r.OnHwirq p) (fun _ _ _ h hr => h.step hr)
    (fun _ r _ h => h.lawful_iff r) (kept_init p) hrs

section Examples

def uniprocessor (pmsched : Bool) : Platform where
  pmsched := pmsched
  processorNo := 0
  ptimerIrqnoStart := 16
  vcpuCount _ := 1
  vcpuCount_pos _ := Nat.one_pos
  monitorTid vm _ := vm
  pcpu _ _ := 0
  vctx _ := [0, 1]

def allOk : L4Calls := ⟨true, true, true⟩

theorem lawful_refused_second :
    Runs.Guarded (step (uniprocessor false)) (Lawful (uniprocessor false)) init
      [.associate 0 5 0 0 255 allOk, .associate 1 5 1 0 255 allOk, .deassociate 1 5 allOk] := by
  refine (lawful_iff_allowed (uniprocessor false) _ ?_).2 ⟨?_, ?_, ?_, trivial⟩
  · intro r hr
    simp only [List.mem_cons, List.not_mem_nil, or_false] at hr
    rcases hr with rfl | rfl | rfl <;> exact ⟨by decide, fun h => absurd h (by decide)⟩
  · exact fun h => Bool.false_ne_true h.1
  · exact fun h => Bool.false_ne_true h.1
  · rintro ⟨hown, -⟩
    simp [step, enter, init, IrqTables.init, IrqRequest.serve, IrqTables.scheduleAssociateIrq,
      uniprocessor, allOk, IrqTables.setOwner] at hown

theorem not_lawful_owned :
    (∀ pmsched, ¬ Runs.Guarded (step (uniprocessor pmsched)) (Lawful (uniprocessor pmsched)) init
      [.associate 0 5 0 0 255 allOk, .deassociate 0 5 allOk]) ∧
    ¬ Runs.Guarded (step (uniprocessor true)) (Lawful (uniprocessor true)) init
      [.associate 0 5 0 0 255 allOk, .associate 1 5 1 0 255 allOk] := by
  refine ⟨fun pmsched h => ?_, fun h => ?_⟩
  · have hgone := (h.2.1.2 ?_ rfl).1
    · cases pmsched <;> exact absurd hgone (by decide)
    · cases pmsched <;> exact Or.inl rfl
  · have hrefused := h.2.1.2 ⟨0, Or.inl rfl, Nat.zero_ne_one⟩
    exact absurd hrefused (by decide)

end Examples
end Ledger
end Resourcemon
