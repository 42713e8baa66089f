import Afterburner.Lib.Traces
import Afterburner.Wedge.I8259a

/-!
# Device interrupts behind the two controllers

A run records the pair together with every `raise_irq` and every call into the back end, oldest
first.
-/

namespace Wedge
open List Bits Bits.Str Runs Bool
namespace Pics

inductive Event
  | raise (irq : ℕ)
  | call (b : BackendCall)
  deriving DecidableEq, Repr

def Event.IsRaise (irq : ℕ) (e : Event) : Prop := e = .raise irq
def Event.IsUnmask (irq : ℕ) (e : Event) : Prop := e = .call (.unmask irq)

def Op.raised : Op → List Event
  | .raiseIrq irq => [.raise irq]
  | _ => []

structure Logged where
  pics : Pics
  log : List Event

namespace Logged

def init (squash : Word) : Logged := ⟨Pics.init squash, []⟩

def step (t : Logged) (op : Op) : Logged where
  pics := t.pics.step op
  log := t.log ++ op.raised ++
    ((t.pics.step op).calls.drop t.pics.calls.length).map Event.call

end Logged

structure Tidy (squash : Word) (h : Hwirq) (log : List Event) : Prop where
  squash_eq : h.squash = squash
  owed : ∀ i, h.mask.getLsbD i = true → Traces.Open (Event.IsRaise i) (Event.IsUnmask i) log
  preceded : ∀ i, Traces.Preceded (Event.IsRaise i) (Event.IsUnmask i) log
  unsquashed : ∀ i, Event.call (.enable i) ∈ log ∨ Event.call (.unmask i) ∈ log →
    squash.getLsbD i = false
  latched : ∀ i, Event.call (.enable i) ∈ log → h.latch.getLsbD i = true
  once : ∀ i, log.count (Event.call (.enable i)) ≤ 1

end Pics
namespace Hwirq
variable (h : Hwirq) {i : ℕ}

theorem latch_setHwirqMask : (h.setHwirqMask i).latch = h.latch :=
  bts_of_ne _ (by omega)

theorem latch_clearHwirqMask : (h.clearHwirqMask i).latch = h.latch :=
  btr_of_ne _ (by omega)

section
variable (hi : i < 32)
include hi

theorem latch_setHwirqLatch :
    (h.setHwirqLatch i).latch = insert h.latch i := bts_zero _ hi

theorem mask_setHwirqMask : (h.setHwirqMask i).mask = insert h.mask i := by
  have hd : (32 + i) / 32 = 1 := by omega
  have hm : (32 + i) % 32 = i := by omega
  simp [mask, setHwirqMask, bts, hd, hm]

theorem mask_clearHwirqMask : (h.clearHwirqMask i).mask = erase h.mask i := by
  have hd : (32 + i) / 32 = 1 := by omega
  have hm : (32 + i) % 32 = i := by omega
  simp [mask, clearHwirqMask, btr, hd, hm]

theorem mask_setHwirqLatch : (h.setHwirqLatch i).mask = h.mask :=
  bts_of_ne _ (by omega)

theorem squash_setHwirqMask : (h.setHwirqMask i).squash = h.squash :=
  bts_of_ne _ (by omega)

theorem squash_clearHwirqMask : (h.clearHwirqMask i).squash = h.squash :=
  btr_of_ne _ (by omega)

theorem squash_setHwirqLatch : (h.setHwirqLatch i).squash = h.squash :=
  bts_of_ne _ (by omega)

theorem testHwirqMask_eq : h.testHwirqMask i = h.mask.getLsbD i :=
  bt_mul_add h.words 1 hi

end

end Hwirq
namespace Pics
section Moves
variable {squash : Word} {h : Hwirq} {log : List Event} {i : ℕ}

theorem Tidy.raise (ht : Tidy squash h log) (irq : ℕ) : Tidy squash h (log ++ [.raise irq]) where
  squash_eq := ht.squash_eq
  owed i hi := (ht.owed i hi).snoc (by simp [Event.IsUnmask])
  preceded i := (ht.preceded i).snoc (by simp [Event.IsUnmask])
  unsquashed i hi := ht.unsquashed i (by simpa using hi)
  latched i hi := ht.latched i (by simpa using hi)
  once i := by
    simpa using ht.once i

section
variable (ht : Tidy squash h log) (hi : i < 32)
include ht hi

theorem Tidy.setHwirqMask (hopen : Traces.Open (Event.IsRaise i) (Event.IsUnmask i) log) :
    Tidy squash (h.setHwirqMask i) log where
  squash_eq := (h.squash_setHwirqMask hi).trans ht.squash_eq
  owed j hj := by
    rw [h.mask_setHwirqMask hi] at hj
    by_cases hij : i = j
    · exact hij ▸ hopen
    · exact ht.owed j (by simpa [hij] using hj)
  preceded := ht.preceded
  unsquashed := ht.unsquashed
  latched j hj := by
    rw [h.latch_setHwirqMask]
    exact ht.latched j hj
  once := ht.once

theorem Tidy.clearHwirqMask :
    Tidy squash (h.clearHwirqMask i) log where
  squash_eq := (h.squash_clearHwirqMask hi).trans ht.squash_eq
  owed j hj := by
    rw [h.mask_clearHwirqMask hi, getLsbD_erase] at hj
    exact ht.owed j (and_eq_true _ _ ▸ hj).1
  preceded := ht.preceded
  unsquashed := ht.unsquashed
  latched j hj := by
    rw [h.latch_clearHwirqMask]
    exact ht.latched j hj
  once := ht.once

theorem Tidy.unmask (hmask : h.mask.getLsbD i = true) (hsq : squash.getLsbD i = false) :
    Tidy squash (h.clearHwirqMask i) (log ++ [.call (.unmask i)]) where
  squash_eq := (h.squash_clearHwirqMask hi).trans ht.squash_eq
  owed j hj := by
    rw [h.mask_clearHwirqMask hi, getLsbD_erase, and_eq_true] at hj
    have hne : i ≠ j := by simpa using hj.2
    refine (ht.owed j hj.1).snoc ?_
    simpa [Event.IsUnmask] using hne
  preceded j := by
    refine (ht.preceded j).snoc fun hj => ?_
    obtain rfl : i = j := by simpa [Event.IsUnmask] using hj
    exact ht.owed i hmask
  unsquashed j hj := by
    by_cases hij : i = j
    · exact hij ▸ hsq
    · refine ht.unsquashed j ?_
      simpa [Ne.symm hij] using hj
  latched j hj := by
    rw [h.latch_clearHwirqMask]
    exact ht.latched j (by simpa using hj)
  once j := by
    simpa using ht.once j

theorem Tidy.enable (hlatch : h.latch.getLsbD i = false) (hsq : squash.getLsbD i = false) :
    Tidy squash (h.setHwirqLatch i) (log ++ [.call (.enable i)]) where
  squash_eq := (h.squash_setHwirqLatch hi).trans ht.squash_eq
  owed j hj := by
    rw [h.mask_setHwirqLatch hi] at hj
    exact (ht.owed j hj).snoc (by simp [Event.IsUnmask])
  preceded j := (ht.preceded j).snoc (by simp [Event.IsUnmask])
  unsquashed j hj := by
    by_cases hij : i = j
    · exact hij ▸ hsq
    · refine ht.unsquashed j ?_
      simpa [Ne.symm hij] using hj
  latched j hj := by
    rw [h.latch_setHwirqLatch hi, getLsbD_insert]
    by_cases hij : i = j
    · simp [hij, show j < 32 by omega]
    · rw [ht.latched j (by simpa [Ne.symm hij] using hj), Bool.true_or]
  once j := by
    by_cases hij : i = j
    · -- it was not enabled before, being not latched
      have hnot : Event.call (.enable i) ∉ log := fun hmem => by
        rw [ht.latched i hmem] at hlatch
        cases hlatch
      subst hij
      rw [count_append, count_eq_zero.2 hnot]
      simp
    · simpa [hij] using ht.once j

end

end Moves

def Since (squash : Word) (calls : List BackendCall) (log : List Event) (s : Pics) : Prop :=
  ∃ new, s.calls = calls ++ new ∧ Tidy squash s.hwirq (log ++ new.map Event.call)

section Since
variable {squash : Word} {calls : List BackendCall} {log : List Event} {s t : Pics} {i : ℕ}

section
variable (hs : Since squash calls log s)
include hs

theorem Since.congr (hh : t.hwirq = s.hwirq) (hc : t.calls = s.calls) :
    Since squash calls log t := by
  obtain ⟨new, hnew, htidy⟩ := hs
  exact ⟨new, hc.trans hnew, hh ▸ htidy⟩

theorem Since.squash_eq : s.hwirq.squash = squash := by
  obtain ⟨_, _, htidy⟩ := hs
  exact htidy.squash_eq

theorem Since.clear (hi : i < 32) :
    Since squash calls log (s.setHwirq (s.hwirq.clearHwirqMask i)) := by
  obtain ⟨new, hnew, htidy⟩ := hs
  exact ⟨new, hnew, htidy.clearHwirqMask hi⟩

theorem Since.unmaskHwirq (hi : i < 32) (hmask : s.hwirq.mask.getLsbD i = true)
    (hsq : squash.getLsbD i = false) : Since squash calls log (s.unmaskHwirq i) := by
  obtain ⟨new, hnew, htidy⟩ := hs
  refine ⟨new ++ [.unmask i], ?_, ?_⟩
  · simp [Pics.unmaskHwirq, hnew]
  · simpa [Pics.unmaskHwirq] using htidy.unmask hi hmask hsq

theorem Since.enableHwirq (hi : i < 32) (hlatch : s.hwirq.latch.getLsbD i = false)
    (hsq : squash.getLsbD i = false) : Since squash calls log (s.enableHwirq i) := by
  obtain ⟨new, hnew, htidy⟩ := hs
  refine ⟨new ++ [.enable i], ?_, ?_⟩
  · simp [Pics.enableHwirq, hnew]
  · simpa [Pics.enableHwirq] using htidy.enable hi hlatch hsq

theorem Since.foldl_enableHwirq {l : List ℕ} (hnd : l.Nodup)
    (hl : ∀ i ∈ l, i < 32 ∧ s.hwirq.latch.getLsbD i = false ∧ squash.getLsbD i = false) :
    Since squash calls log (l.foldl Pics.enableHwirq s) := by
  induction l generalizing s with
  | nil => exact hs
  | cons i l ih =>
    obtain ⟨hi, hlatch, hsq⟩ := hl i mem_cons_self
    obtain ⟨hil, hnd⟩ := nodup_cons.1 hnd
    refine ih (hs.enableHwirq hi hlatch hsq) hnd fun j hj => ?_
    obtain ⟨hj32, hjlatch, hjsq⟩ := hl j (mem_cons_of_mem i hj)
    have hij : i ≠ j := fun h => hil (h ▸ hj)
    refine ⟨hj32, ?_, hjsq⟩
    rw [Pics.enableHwirq, call_hwirq, setHwirq_hwirq, Hwirq.latch_setHwirqLatch _ hi,
      getLsbD_insert, hjlatch]
    simp [hij]

theorem Since.foldl_unmaskHwirq {l : List ℕ} (hnd : l.Nodup)
    (hl : ∀ i ∈ l, i < 32 ∧ s.hwirq.mask.getLsbD i = true ∧ squash.getLsbD i = false) :
    Since squash calls log (l.foldl Pics.unmaskHwirq s) := by
  induction l generalizing s with
  | nil => exact hs
  | cons i l ih =>
    obtain ⟨hi, hmask, hsq⟩ := hl i mem_cons_self
    obtain ⟨hil, hnd⟩ := nodup_cons.1 hnd
    refine ih (hs.unmaskHwirq hi hmask hsq) hnd fun j hj => ?_
    obtain ⟨hj32, hjmask, hjsq⟩ := hl j (mem_cons_of_mem i hj)
    have hij : i ≠ j := fun h => hil (h ▸ hj)
    refine ⟨hj32, ?_, hjsq⟩
    rw [Pics.unmaskHwirq, call_hwirq, setHwirq_hwirq, Hwirq.mask_clearHwirqMask _ hi,
      getLsbD_erase, hjmask]
    simp [hij]

theorem Since.unmaskRetired (hi : i < 32) : Since squash calls log (s.unmaskRetired i) := by
  unfold Pics.unmaskRetired
  split
  next => exact hs
  next hsq =>
    rw [Hwirq.isHwirqSquashed, hs.squash_eq, Nat.mod_eq_of_lt hi, not_eq_true] at hsq
    rw [Hwirq.testHwirqMask_eq _ hi]
    split
    next hmask => exact hs.unmaskHwirq hi hmask hsq
    next => exact hs.clear hi

theorem Since.setChip (c : Chip) (p : I8259a) : Since squash calls log (s.setChip c p) :=
  hs.congr (setChip_hwirq s c p) (setChip_calls s c p)

theorem Since.setCpu (k : Cpu) : Since squash calls log (s.setCpu k) :=
  hs.congr (setCpu_hwirq s k) (setCpu_calls s k)

theorem Since.retire (c : Chip) : Since squash calls log (s.retire c) := by
  unfold Pics.retire
  dsimp only
  split
  next h =>
    refine (hs.setChip c _).unmaskRetired ?_
    unfold I8259a.eoi at h ⊢
    split at h
    next hne =>
      rw [if_pos hne]
      exact lsb_lt hne
    next => cases h
  next => exact hs.setChip c _

theorem Since.portAWrite (c : Chip) (value : Byte) :
    Since squash calls log (s.portAWrite c value) := by
  unfold Pics.portAWrite
  dsimp only
  split_ifs
  · exact hs.setChip c _
  · exact hs.setChip c _
  · exact hs.setChip c _
  · exact hs
  · split
    · exact hs.retire c
    · exact hs.retire c
    · exact hs

end

theorem newlyEnabled_spec {m latch squash : Word} {i : ℕ}
    (hi : i ∈ scan (~~~ m &&& ~~~ latch &&& ~~~ squash)) :
    i < 32 ∧ latch.getLsbD i = false ∧ squash.getLsbD i = false := by
  rw [mem_scan] at hi
  have hlt : i < 32 := lt_of_getLsbD hi
  simp only [BitVec.getLsbD_and, BitVec.getLsbD_not, hlt, decide_true, Bool.true_and,
    and_eq_true, not_eq_true'] at hi
  exact ⟨hlt, hi.1.2, hi.2⟩

theorem deviceUnmasked_spec {m m' mask squash : Word} {i : ℕ}
    (hi : i ∈ scan (m &&& ~~~ m' &&& mask &&& ~~~ squash)) :
    i < 32 ∧ mask.getLsbD i = true ∧ squash.getLsbD i = false := by
  rw [mem_scan] at hi
  have hlt : i < 32 := lt_of_getLsbD hi
  simp only [BitVec.getLsbD_and, BitVec.getLsbD_not, hlt, decide_true, Bool.true_and,
    and_eq_true, not_eq_true'] at hi
  exact ⟨hlt, hi.1.2, hi.2⟩

theorem Since.portBWrite (hs : Since squash calls log s) (c : Chip) (value : Byte) :
    Since squash calls log (s.portBWrite c value) := by
  -- both loops, from any state of this step
  have hloops : ∀ {u : Pics} (m m' m'' : Word), Since squash calls log u →
      let v := (scan (~~~ m &&& ~~~ u.hwirq.latch &&& ~~~ u.hwirq.squash)).foldl
        Pics.enableHwirq u
      Since squash calls log ((scan (m' &&& ~~~ m'' &&& v.hwirq.mask &&&
        ~~~ v.hwirq.squash)).foldl Pics.unmaskHwirq v) := by
    intro u m m' m'' hu v
    have hv : Since squash calls log v := by
      refine hu.foldl_enableHwirq (nodup_scan _) fun i hi => ?_
      rw [← hu.squash_eq]
      exact newlyEnabled_spec hi
    refine hv.foldl_unmaskHwirq (nodup_scan _) fun i hi => ?_
    rw [← hv.squash_eq]
    exact deviceUnmasked_spec hi
  unfold Pics.portBWrite
  dsimp only
  split
  · refine hloops _ _ _ ?_
    split_ifs
    · exact hs.setChip c _
    · exact (hs.setChip c _).setCpu _
  · exact hs.setChip c _
  · exact hs.setChip c _
  · exact hs.setChip c _

theorem hwirq_chipPendingVector (s : Pics) (c : Chip) :
    (s.chipPendingVector c).2.hwirq = s.hwirq ∧ (s.chipPendingVector c).2.calls = s.calls := by
  unfold chipPendingVector
  dsimp only
  split_ifs <;> simp

theorem hwirq_pendingVector (s : Pics) :
    s.pendingVector.2.hwirq = s.hwirq ∧ s.pendingVector.2.calls = s.calls := by
  have hask : ∀ (t : Pics) (c : Chip),
      (t.askChip c).2.hwirq = t.hwirq ∧ (t.askChip c).2.calls = t.calls := by
    grind [askChip, hwirq_chipPendingVector]
  unfold pendingVector picPendingVector
  split_ifs
  · exact ⟨rfl, rfl⟩
  · split
    · exact hask s .master
    · simp_all

theorem hwirq_chipReraiseVector (s : Pics) (c : Chip) (vector : ℕ) :
    (s.chipReraiseVector c vector).hwirq = s.hwirq ∧
      (s.chipReraiseVector c vector).calls = s.calls := by
  unfold chipReraiseVector
  dsimp only
  split_ifs <;> simp

theorem hwirq_portARead (s : Pics) (c : Chip) :
    (s.portARead c).2.hwirq = s.hwirq ∧ (s.portARead c).2.calls = s.calls := by
  unfold portARead
  dsimp only
  split_ifs <;> simp

theorem hwirq_raiseIrq (s : Pics) (irq : Fin 16) :
    (s.raiseIrq irq).hwirq = (s.hwirq.setHwirqMask irq).setHwirqMask irq ∧
      (s.raiseIrq irq).calls = s.calls := by
  have hchip : ∀ (t : Pics) (c : Chip), (t.chipRaiseIrq c irq).hwirq = t.hwirq.setHwirqMask irq ∧
      (t.chipRaiseIrq c irq).calls = t.calls := by
    intro t c
    unfold chipRaiseIrq
    dsimp only
    split_ifs <;> simp
  have hlt : (irq : ℕ) < 16 := irq.isLt
  unfold raiseIrq
  split_ifs
  · exact hchip _ .master
  · exact hchip _ .slave

theorem Since.step {op : Op} (hs : Since squash calls log s) (hop : op.raised = []) :
    Since squash calls log (s.step op) := by
  cases op with
  | raiseIrq irq => cases hop
  | reraiseVector vector =>
    obtain ⟨hm, hc⟩ := hwirq_chipReraiseVector s .master vector
    obtain ⟨hm', hc'⟩ := hwirq_chipReraiseVector (s.chipReraiseVector .master vector) .slave vector
    exact hs.congr (hm'.trans hm) (hc'.trans hc)
  | pendingVector => exact hs.congr (hwirq_pendingVector s).1 (hwirq_pendingVector s).2
  | portAWrite c value => exact hs.portAWrite c value
  | portBWrite c value => exact hs.portBWrite c value
  | portARead c => exact hs.congr (hwirq_portARead s c).1 (hwirq_portARead s c).2

end Since

def Event.backendCall : Event → Option BackendCall
  | .raise _ => none
  | .call b => some b

structure Logged.Inv (squash : Word) (t : Logged) : Prop where
  tidy : Tidy squash t.pics.hwirq t.log
  calls_eq : t.log.filterMap Event.backendCall = t.pics.calls

theorem Logged.inv_step {squash : Word} (t : Logged) (op : Op) (ht : t.Inv squash) :
    (t.step op).Inv squash := by
  have hsince : Since squash t.pics.calls (t.log ++ op.raised) (t.pics.step op) := by
    by_cases hop : op.raised = []
    · have hnow : Since squash t.pics.calls (t.log ++ op.raised) t.pics :=
        ⟨[], by simp, by simpa [hop] using ht.tidy⟩
      exact hnow.step hop
    · cases op with
      | raiseIrq irq =>
        have hlt : (irq : ℕ) < 32 := by omega
        have hopen := Traces.open_snoc_self (p := Event.IsRaise irq) (q := Event.IsUnmask irq)
          (l := t.log) (x := .raise irq) rfl
        have hraised := (((ht.tidy.raise irq).setHwirqMask hlt hopen).setHwirqMask hlt hopen)
        refine ⟨[], ?_, ?_⟩
        · simpa [Pics.step] using (hwirq_raiseIrq t.pics irq).2
        · simpa [Pics.step, Op.raised, (hwirq_raiseIrq t.pics irq).1] using hraised
      | _ => exact absurd rfl hop
  obtain ⟨new, hnew, htidy⟩ := hsince
  have hdrop : (t.pics.step op).calls.drop t.pics.calls.length = new := by
    rw [hnew, drop_left]
  have hraised : op.raised.filterMap Event.backendCall = [] := by
    cases op <;> rfl
  have hcalls : (new.map Event.call).filterMap Event.backendCall = new := by
    rw [filterMap_map]
    exact filterMap_some
  refine ⟨?_, ?_⟩
  · rw [Logged.step, hdrop]
    exact htidy
  · rw [Logged.step, hdrop, filterMap_append, filterMap_append, hraised, hcalls,
      ht.calls_eq, append_nil, hnew]

theorem Logged.inv_init (squash : Word) : (Logged.init squash).Inv squash where
  tidy :=
    { squash_eq := rfl
      owed := fun i hi => by simp [Logged.init, Pics.init, Hwirq.mask] at hi
      preceded := fun _ => Traces.Preceded.nil
      unsquashed := fun i hi => by simp [Logged.init] at hi
      latched := fun i hi => by simp [Logged.init] at hi
      once := fun i => by simp [Logged.init] }
  calls_eq := rfl

theorem Logged.inv_run (squash : Word) (ops : List Op) :
    (run Logged.step (Logged.init squash) ops).Inv squash :=
  run_invariant_of_forall Logged.inv_step (Logged.inv_init squash) ops

/-- **Each unmasking of a device interrupt has a `raise_irq` before it with no other unmasking in
between; no squashed interrupt is enabled or unmasked, none is enabled twice.** -/
theorem calls_follow_discipline (squash : Word) (ops : List Op) (i : ℕ) :
    let log := (run Logged.step (Logged.init squash) ops).log
    Traces.Preceded (Event.IsRaise i) (Event.IsUnmask i) log ∧
    (Event.call (.enable i) ∈ log ∨ Event.call (.unmask i) ∈ log → squash.getLsbD i = false) ∧
    log.count (Event.call (.enable i)) ≤ 1 := by
  have h := (Logged.inv_run squash ops).tidy
  exact ⟨h.preceded i, h.unsquashed i, h.once i⟩

/-- Unmask all lines of the master, take interrupt 1 and retire it twice. -/
example : (run Logged.step (Logged.init 0xfffffffd) [.portBWrite .master 0, .raiseIrq 1,
    .pendingVector, .portAWrite .master 0x20, .portAWrite .master 0x20]).log =
      [.call (.enable 1), .raise 1, .call (.unmask 1)] := by decide +kernel

end Pics
end Wedge
