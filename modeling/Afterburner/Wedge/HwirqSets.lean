import Afterburner.Lib.Runs
import Afterburner.Wedge.Intlogic

/-!
# The bookkeeping sets of the interrupt logic

Four sets in four adjacent words. `btsl` and `btrl` reach beyond their word for a number of 32 or
more, C shifts take it modulo 32.
-/

namespace Wedge
open Function Bits.Str Runs Bits

namespace Hwirq

def virtualHwirqs (h : Hwirq) : Word := h.words 3
def isHwirqLatched (h : Hwirq) (hwirq : ℕ) : Bool := h.latch.getLsbD (hwirq % 32)

def addHwirqSquash (h : Hwirq) (hwirq : ℕ) : Hwirq :=
  ⟨update h.words 2 (insert h.squash (hwirq % 32))⟩

def clearHwirqSquash (h : Hwirq) (hwirq : ℕ) : Hwirq :=
  ⟨update h.words 2 (erase h.squash (hwirq % 32))⟩

def addVirtualHwirq (h : Hwirq) (virq : ℕ) : Hwirq :=
  ⟨update h.words 3 (insert h.virtualHwirqs (virq % 32))⟩

def clearVirtualHwirq (h : Hwirq) (virq : ℕ) : Hwirq :=
  ⟨update h.words 3 (erase h.virtualHwirqs (virq % 32))⟩

def isVirtualHwirq (h : Hwirq) (virq : ℕ) : Bool := h.virtualHwirqs.getLsbD (virq % 32)

inductive Op
  | setHwirqLatch (hwirq : ℕ)
  | testAndSetHwirqLatch (hwirq : ℕ)
  | isHwirqLatched (hwirq : ℕ)
  | setHwirqMask (hwirq : ℕ)
  | clearHwirqMask (hwirq : ℕ)
  | testAndClearHwirqMask (hwirq : ℕ)
  | addHwirqSquash (hwirq : ℕ)
  | clearHwirqSquash (hwirq : ℕ)
  | isHwirqSquashed (hwirq : ℕ)
  | addVirtualHwirq (virq : ℕ)
  | clearVirtualHwirq (virq : ℕ)
  | isVirtualHwirq (virq : ℕ)
  deriving DecidableEq, Repr

def exec (h : Hwirq) : Op → Option Bool × Hwirq
  | .setHwirqLatch n => (none, h.setHwirqLatch n)
  | .testAndSetHwirqLatch n => (some (h.testHwirqLatch n), h.setHwirqLatch n)
  | .isHwirqLatched n => (some (h.isHwirqLatched n), h)
  | .setHwirqMask n => (none, h.setHwirqMask n)
  | .clearHwirqMask n => (none, h.clearHwirqMask n)
  | .testAndClearHwirqMask n => (some (h.testHwirqMask n), h.clearHwirqMask n)
  | .addHwirqSquash n => (none, h.addHwirqSquash n)
  | .clearHwirqSquash n => (none, h.clearHwirqSquash n)
  | .isHwirqSquashed n => (some (h.isHwirqSquashed n), h)
  | .addVirtualHwirq n => (none, h.addVirtualHwirq n)
  | .clearVirtualHwirq n => (none, h.clearVirtualHwirq n)
  | .isVirtualHwirq n => (some (h.isVirtualHwirq n), h)

end Hwirq

inductive HwirqSet
  | latch
  | mask
  | squash
  | virtual
  deriving DecidableEq, Repr

inductive SetAct
  | insert
  | delete
  | test
  | testAndInsert
  | testAndDelete
  deriving DecidableEq, Repr

def SetAct.answer : SetAct → Bool → Option Bool
  | .insert, _ => none
  | .delete, _ => none
  | .test, b => some b
  | .testAndInsert, b => some b
  | .testAndDelete, b => some b

def SetAct.result : SetAct → Bool → Bool
  | .insert, _ => true
  | .delete, _ => false
  | .test, b => b
  | .testAndInsert, _ => true
  | .testAndDelete, _ => false

namespace Hwirq.Op

def number : Op → ℕ
  | setHwirqLatch n | testAndSetHwirqLatch n | isHwirqLatched n => n
  | setHwirqMask n | clearHwirqMask n | testAndClearHwirqMask n => n
  | addHwirqSquash n | clearHwirqSquash n | isHwirqSquashed n => n
  | addVirtualHwirq n | clearVirtualHwirq n | isVirtualHwirq n => n

def set : Op → HwirqSet
  | setHwirqLatch _ | testAndSetHwirqLatch _ | isHwirqLatched _ => .latch
  | setHwirqMask _ | clearHwirqMask _ | testAndClearHwirqMask _ => .mask
  | addHwirqSquash _ | clearHwirqSquash _ | isHwirqSquashed _ => .squash
  | addVirtualHwirq _ | clearVirtualHwirq _ | isVirtualHwirq _ => .virtual

def act : Op → SetAct
  | setHwirqLatch _ | setHwirqMask _ | addHwirqSquash _ | addVirtualHwirq _ => .insert
  | clearHwirqMask _ | clearHwirqSquash _ | clearVirtualHwirq _ => .delete
  | isHwirqLatched _ | isHwirqSquashed _ | isVirtualHwirq _ => .test
  | testAndSetHwirqLatch _ => .testAndInsert
  | testAndClearHwirqMask _ => .testAndDelete

end Hwirq.Op

abbrev Sets : Type := HwirqSet → ℕ → Bool

def Sets.exec (a : Sets) (op : Hwirq.Op) : Option Bool × Sets :=
  (op.act.answer (a op.set op.number), fun x n =>
    if x = op.set ∧ n = op.number then op.act.result (a op.set op.number) else a x n)

def IndependentSets (N : ℕ) : Prop :=
  ∀ h : Hwirq, ∃ a : Sets, ∀ ops : List Hwirq.Op, (∀ op ∈ ops, op.number < N) →
    outputs Hwirq.exec h ops = outputs Sets.exec a ops ∧
    ∀ k, 4 ≤ k → (run (fun h op => (Hwirq.exec h op).2) h ops).words k = h.words k

def HwirqSet.word : HwirqSet → ℕ
  | .latch => 0
  | .mask => 1
  | .squash => 2
  | .virtual => 3

def HwirqSet.bit (x : HwirqSet) (n : ℕ) : ℕ := 32 * x.word + n

theorem HwirqSet.bit_eq_iff {x y : HwirqSet} {n m : ℕ} (hn : n < 32) (hm : m < 32) :
    x.bit n = y.bit m ↔ x = y ∧ n = m := by
  unfold bit
  cases x <;> cases y <;> simp [word] <;> omega

namespace Hwirq
variable (h : Hwirq) {n : ℕ}

theorem addHwirqSquash_eq (hn : n < 32) : h.addHwirqSquash n = ⟨h.words.bts (64 + n)⟩ := by
  have hd : (64 + n) / 32 = 2 := by omega
  have hm : (64 + n) % 32 = n % 32 := by omega
  rw [addHwirqSquash, bts, hd, hm, squash]

theorem clearHwirqSquash_eq (hn : n < 32) : h.clearHwirqSquash n = ⟨h.words.btr (64 + n)⟩ := by
  have hd : (64 + n) / 32 = 2 := by omega
  have hm : (64 + n) % 32 = n % 32 := by omega
  rw [clearHwirqSquash, btr, hd, hm, squash]

theorem addVirtualHwirq_eq (hn : n < 32) : h.addVirtualHwirq n = ⟨h.words.bts (96 + n)⟩ := by
  have hd : (96 + n) / 32 = 3 := by omega
  have hm : (96 + n) % 32 = n % 32 := by omega
  rw [addVirtualHwirq, bts, hd, hm, virtualHwirqs]

theorem clearVirtualHwirq_eq (hn : n < 32) : h.clearVirtualHwirq n = ⟨h.words.btr (96 + n)⟩ := by
  have hd : (96 + n) / 32 = 3 := by omega
  have hm : (96 + n) % 32 = n % 32 := by omega
  rw [clearVirtualHwirq, btr, hd, hm, virtualHwirqs]

variable {op : Op}

theorem exec_answer (hn : op.number < 32) :
    (h.exec op).1 = op.act.answer (h.words.bt (op.set.bit op.number)) := by
  cases op <;> simp only [Op.number] at hn <;>
    simp [exec, Op.number, Op.act, Op.set, SetAct.answer, HwirqSet.bit, HwirqSet.word,
      testHwirqLatch, testHwirqMask, isHwirqLatched, isHwirqSquashed, isVirtualHwirq, latch,
      squash, virtualHwirqs, Nat.mod_eq_of_lt hn, bt_eq_getLsbD _ hn,
      bt_mul_add h.words 2 hn, bt_mul_add h.words 3 hn]

theorem exec_words (hn : op.number < 32) :
    (h.exec op).2.words = match op.act with
      | .insert => h.words.bts (op.set.bit op.number)
      | .delete => h.words.btr (op.set.bit op.number)
      | .test => h.words
      | .testAndInsert => h.words.bts (op.set.bit op.number)
      | .testAndDelete => h.words.btr (op.set.bit op.number) := by
  cases op <;> simp only [Op.number] at hn <;>
    simp [exec, Op.number, Op.act, Op.set, HwirqSet.bit, HwirqSet.word, setHwirqLatch,
      setHwirqMask, clearHwirqMask, addHwirqSquash_eq h hn, clearHwirqSquash_eq h hn,
      addVirtualHwirq_eq h hn, clearVirtualHwirq_eq h hn]

theorem exec_bit (hn : op.number < 32) (x : HwirqSet) {m : ℕ} (hm : m < 32) :
    (h.exec op).2.words.bt (x.bit m) = if x = op.set ∧ m = op.number then
      op.act.result (h.words.bt (op.set.bit op.number)) else h.words.bt (x.bit m) := by
  have hbit : op.set.bit op.number = x.bit m ↔ x = op.set ∧ m = op.number := by
    rw [HwirqSet.bit_eq_iff hn hm, eq_comm, @eq_comm ℕ]
  rw [exec_words h hn]
  by_cases hxm : x = op.set ∧ m = op.number
  · rw [if_pos hxm, hxm.1, hxm.2]
    cases op.act <;> simp [SetAct.result]
  · rw [if_neg hxm]
    have hne : ¬ op.set.bit op.number = x.bit m := fun h => hxm (hbit.1 h)
    cases op.act <;> simp [hne]

theorem exec_words_of_le (hn : op.number < 32) {k : ℕ} (hk : 4 ≤ k) :
    (h.exec op).2.words k = h.words k := by
  have hlt : op.set.bit op.number / 32 < 4 := by
    unfold HwirqSet.bit
    cases op.set <;> simp only [HwirqSet.word] <;> omega
  have hne : k ≠ op.set.bit op.number / 32 := by omega
  rw [exec_words h hn]
  cases op.act <;> simp [bts_of_ne _ hne, btr_of_ne _ hne]

def sets (h : Hwirq) : Sets := fun x n => h.words.bt (x.bit n)

end Hwirq

def Sets.Agree (a b : Sets) : Prop := ∀ x n, n < 32 → a x n = b x n

theorem Hwirq.exec_refines {h : Hwirq} {a : Sets} {op : Hwirq.Op} (hn : op.number < 32)
    (hagree : h.sets.Agree a) :
    (h.exec op).1 = (a.exec op).1 ∧ (h.exec op).2.sets.Agree (a.exec op).2 := by
  have hmem : h.words.bt (op.set.bit op.number) = a op.set op.number :=
    hagree op.set op.number hn
  constructor
  · rw [exec_answer h hn, hmem, Sets.exec]
  · intro x m hm
    change (h.exec op).2.words.bt (x.bit m) = _
    rw [exec_bit h hn x hm, hmem]
    unfold Sets.exec
    dsimp only
    split_ifs with hxm
    · rfl
    · exact hagree x m hm

theorem independentSets_of_le {N : ℕ} (hN : N ≤ 32) : IndependentSets N := by
  intro h
  refine ⟨h.sets, fun ops hops => ⟨?_, fun k hk => ?_⟩⟩
  · refine outputs_eq_of_rel (A := fun op => op.number < 32)
      (R := fun h a => h.sets.Agree a) (fun h a op hop hR => Hwirq.exec_refines hop hR)
      (fun _ _ _ => rfl) fun op hop => ?_
    exact lt_of_lt_of_le (hops op hop) hN
  · induction ops generalizing h with
    | nil => rfl
    | cons op ops ih =>
      rw [run_cons, ih _ fun o ho => hops o (List.mem_cons_of_mem op ho)]
      exact h.exec_words_of_le (lt_of_lt_of_le (hops op List.mem_cons_self) hN) hk

theorem not_independentSets_of_lt {N : ℕ} (hN : 32 < N) : ¬ IndependentSets N := by
  intro hind
  obtain ⟨a, ha⟩ := hind ⟨fun _ => 0⟩
  have hask := (ha [.isHwirqSquashed 0] (by simp [Hwirq.Op.number]; omega)).1
  have hadd := (ha [.addHwirqSquash 32, .isHwirqSquashed 0]
    (by simp [Hwirq.Op.number]; omega)).1
  simp [outputs, Hwirq.exec, Sets.exec, Hwirq.Op.act, Hwirq.Op.set, Hwirq.Op.number,
    SetAct.answer, SetAct.result, Hwirq.isHwirqSquashed, Hwirq.squash, Hwirq.addHwirqSquash]
    at hask hadd
  exact absurd hask (by simp [← hadd])

/-- **The four words behave as four independent sets of the numbers below `N` exactly when no
number is 32 or more.** -/
theorem independentSets_iff_le (N : ℕ) : IndependentSets N ↔ N ≤ 32 := by
  refine ⟨fun h => ?_, independentSets_of_le⟩
  by_contra hN
  exact not_independentSets_of_lt (by omega) h

def VectorConfined (v : ℕ) : Prop :=
  ∀ c : Cpu,
    ((∀ k, k ≠ 0 → (c.setIrqVector (v + 16)).tail k = c.tail k) ∧
      ∀ j < 32, (c.setIrqVector (v + 16)).irqVectors.getLsbD j =
        (c.irqVectors.getLsbD j || decide ((v + 16) / 8 = j))) ∧
    (∀ k, k ≠ 0 → (c.clearIrqVector (v + 16)).tail k = c.tail k) ∧
      ∀ j < 32, (c.clearIrqVector (v + 16)).irqVectors.getLsbD j =
        (c.irqVectors.getLsbD j && !decide ((v + 16) / 8 = j))

theorem vectorConfined_iff_lt (v : ℕ) : VectorConfined v ↔ v < 240 := by
  constructor
  · intro h
    by_contra hv
    -- the group lies in a later word, which `btsl` changes there
    have hk : (v + 16) / 8 / 32 ≠ 0 := by omega
    have hword := (h Cpu.boot).1.1 _ hk
    have hbit : (Cpu.boot.setIrqVector (v + 16)).tail.bt ((v + 16) / 8) = true := by
      simp [Cpu.setIrqVector]
    rw [bt, hword] at hbit
    simp [Cpu.boot] at hbit
  · intro hv c
    refine ⟨⟨fun k hk0 => ?_, fun j hj => ?_⟩, fun k hk0 => ?_, fun j hj => ?_⟩
    · exact bts_of_ne _ (by omega)
    · rw [Cpu.irqVectors_setIrqVector c (by omega), getLsbD_insert,
        decide_eq_true (p := (v + 16) / 8 < 32) (by omega), Bool.true_and]
    · exact btr_of_ne _ (by omega)
    · rw [Cpu.irqVectors_clearIrqVector c (by omega), getLsbD_erase]

/-- **The bookkeeping of the interrupt logic keeps its sets apart exactly for hardware interrupts
below 32, and its summary word to itself exactly for vectors below 240.** -/
theorem bookkeeping_iff (N v : ℕ) :
    (IndependentSets N ↔ N ≤ 32) ∧ (VectorConfined v ↔ v < 240) :=
  ⟨independentSets_iff_le N, vectorConfined_iff_lt v⟩

theorem bookkeeping_overlaps :
    (¬ IndependentSets maxHwirqs ∧ ¬ VectorConfined 240) ∧
    ((⟨fun _ => 0⟩ : Hwirq).exec (.setHwirqLatch 32)).2.mask = 1 ∧
    ((⟨fun _ => 0⟩ : Hwirq).exec (.addHwirqSquash 32)).2.isHwirqSquashed 0 = true ∧
    (Cpu.boot.setIrqVector (240 + 16)).lapic = 1 := by
  refine ⟨⟨?_, ?_⟩, by decide +kernel, by decide +kernel, by decide +kernel⟩
  · rw [independentSets_iff_le]; decide
  · rw [vectorConfined_iff_lt]; decide

end Wedge
