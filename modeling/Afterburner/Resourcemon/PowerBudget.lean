import Afterburner.Lib.Runs

/-!
# Power budgets of the scheduler contexts

`schedule_set_pbudget` takes a logical id as a place in `vctx[]` of the CPU it runs on, but the
places are assigned in the order of the registrations, close up when a handler leaves, and each CPU
has its own array.
-/

namespace Resourcemon.PowerBudget
open Runs Function

abbrev Word := BitVec 32

/-- `MAX_VIRQ_VMS` -/
def maxVirqVms : ℕ := 16

def resCpuMax : ℕ := 15

structure Config where
  /-- `L4_LOG_ROOTSERVER_LOGID` -/
  rootserverLogid : ℕ
  /-- `L4_LOG_MAX_LOGIDS` -/
  maxLogids : ℕ
  /-- `l4_pmsched_enabled` -/
  pmschedEnabled : Bool

variable (cfg : Config)

structure VmContext where
  logid : ℕ
  ticket : Word
  deriving DecidableEq, Repr

/-- The contexts that are registered at each CPU, `virqs[cpu].vctx[0..num_vms]`. -/
abbrev State := ℕ → List VmContext

/-- A migration unregisters a handler at one CPU and registers it at another one. -/
inductive Event
  | registerSystemTask (cpu : ℕ)
  | registerTimerHandler (cpu spaceId : ℕ)
  | unregisterTimerHandler (cpu idx : ℕ)
  deriving DecidableEq, Repr

variable (s : State)

def register (vctx : List VmContext) (c : VmContext) : List VmContext :=
  if vctx.length = maxVirqVms then vctx else vctx ++ [c]

def step : Event → State
  | .registerSystemTask cpu => update s cpu (register (s cpu) ⟨0, 1⟩)
  | .registerTimerHandler cpu spaceId =>
    update s cpu (register (s cpu) ⟨cfg.rootserverLogid + spaceId, 10⟩)
  | .unregisterTimerHandler cpu idx => update s cpu ((s cpu).eraseIdx idx)

/-- Where `schedule_set_pbudget` stores. -/
inductive Store
  | cpower (cpu : ℕ) (value : Word)
  | ticket (cpu place : ℕ) (value : Word)
  | easCpuBudget (guid logid : ℕ) (value : Word)
  deriving DecidableEq, Repr

/-- A call on the CPU `here`. -/
def setPbudget (here guid logid : ℕ) (budget : Word) : List Store :=
  (if cfg.pmschedEnabled then
    (if logid = 0 then [.cpower here (budget * 100)] else []) ++ [.ticket here logid budget]
  else []) ++ [.easCpuBudget guid logid budget]

def Config.Inside : Store → Prop
  | .cpower _ _ => True
  | .ticket _ place _ => place < maxVirqVms
  | .easCpuBudget guid logid _ => guid < resCpuMax ∧ logid < cfg.maxLogids

/-- The context at `place` of the CPU carries the logical id. -/
def State.Carries (logid cpu place : ℕ) : Prop :=
  ∃ c, (s cpu)[place]? = some c ∧ c.logid = logid

structure Exact (here guid logid : ℕ) (budget : Word) : Prop where
  tickets : ∀ cpu place,
    (∃ value, .ticket cpu place value ∈ setPbudget cfg here guid logid budget) ↔
      s.Carries logid cpu place
  values : ∀ cpu place value,
    .ticket cpu place value ∈ setPbudget cfg here guid logid budget → value = budget
  cap : ∀ cpu value, .cpower cpu value ∈ setPbudget cfg here guid logid budget → logid = 0
  inside : ∀ store ∈ setPbudget cfg here guid logid budget, cfg.Inside store

/-- Without the scheduler there are no contexts. -/
def contexts (hist : List Event) : State :=
  if cfg.pmschedEnabled then run (step cfg) (fun _ => []) hist else fun _ => []

theorem length_step {s : State} (h : ∀ cpu, (s cpu).length ≤ maxVirqVms) (e : Event)
    (cpu : ℕ) : (step cfg s e cpu).length ≤ maxVirqVms := by
  have hregister (k : ℕ) (c : VmContext) : (register (s k) c).length ≤ maxVirqVms := by
    have := h k
    unfold register
    split_ifs
    · exact this
    · rw [List.length_append, List.length_singleton]
      omega
  cases e <;> simp only [step, update_apply] <;> split_ifs <;> try exact h cpu
  · exact hregister _ _
  · exact hregister _ _
  · exact ((List.eraseIdx_sublist _ _).length_le).trans (h _)

theorem length_contexts_le (hist : List Event) (cpu : ℕ) :
    (contexts cfg hist cpu).length ≤ maxVirqVms := by
  have hrun := run_invariant_of_forall
    (I := fun s : State => ∀ cpu, (s cpu).length ≤ maxVirqVms) (fun _ e h => length_step cfg h e)
    (s := fun _ => []) (fun _ => Nat.zero_le _) hist
  unfold contexts
  split_ifs
  · exact hrun cpu
  · exact Nat.zero_le _

/-- **Setting a budget changes the tickets of exactly the contexts of the logical id, the cap only
for the logical id 0, and nothing outside the arrays**, exactly when the resource is not the last of
the CPUs and only the context at the place of the logical id, of the CPU of the call, carries it. -/
theorem setPbudget_exact_iff (cfg : Config) (hist : List Event) (here guid : ℕ) {logid : ℕ}
    (hlogid : logid < cfg.maxLogids) (budget : Word) :
    Exact cfg (contexts cfg hist) here guid logid budget ↔ guid < resCpuMax ∧
      (cfg.pmschedEnabled = true → ∀ cpu place,
        (contexts cfg hist).Carries logid cpu place ↔ cpu = here ∧ place = logid) := by
  cases hon : cfg.pmschedEnabled with
  | false =>
    constructor
    · intro h
      exact ⟨(h.inside (.easCpuBudget guid logid budget) (by simp [setPbudget])).1, by simp⟩
    · rintro ⟨hguid, -⟩
      constructor <;> simp [setPbudget, contexts, State.Carries, hon, Config.Inside, hguid, hlogid]
  | true =>
    have hstored (cpu place : ℕ) :
        (∃ value, .ticket cpu place value ∈ setPbudget cfg here guid logid budget) ↔
          cpu = here ∧ place = logid := by
      by_cases h0 : logid = 0 <;> simp [setPbudget, hon, h0]
    constructor
    · intro h
      refine ⟨(h.inside (.easCpuBudget guid logid budget) (by simp [setPbudget])).1,
        fun _ cpu place => ?_⟩
      rw [← h.tickets, hstored]
    · rintro ⟨hguid, hplaces⟩
      have hlt : logid < maxVirqVms := by
        obtain ⟨c, hc, -⟩ := (hplaces rfl here logid).2 ⟨rfl, rfl⟩
        exact (List.getElem?_eq_some_iff.1 hc).1.trans_le (length_contexts_le cfg hist here)
      refine ⟨fun cpu place => ?_, ?_, ?_, ?_⟩
      · rw [hplaces rfl, hstored]
      all_goals
        by_cases h0 : logid = 0 <;> simp_all [setPbudget, Config.Inside]

theorem exact_rootTask :
    Exact ⟨2, 64, true⟩ (contexts ⟨2, 64, true⟩ [.registerSystemTask 0]) 0 0 0 50 := by
  refine (setPbudget_exact_iff _ _ 0 0 (by decide) 50).2 ⟨by decide, fun _ cpu place => ?_⟩
  rcases cpu with _ | cpu <;> rcases place with _ | place <;>
    simp [State.Carries, contexts, step, register, maxVirqVms]

theorem not_exact_firstVm : ∃ (cfg : Config) (hist : List Event) (here guid logid : ℕ)
    (budget : Word), logid < cfg.maxLogids ∧
      ¬ Exact cfg (contexts cfg hist) here guid logid budget := by
  refine ⟨⟨2, 64, true⟩, [.registerSystemTask 0, .registerSystemTask 0, .registerTimerHandler 0 1],
    0, 0, 3, 50, by decide, fun h => ?_⟩
  have hplace := (h.tickets 0 2).2 ⟨⟨3, 10⟩, by decide, rfl⟩
  simp [setPbudget] at hplace

end Resourcemon.PowerBudget
