import Afterburner.Wedge.I8259a

/-!
# No request of the 8259 pair is overlooked

The word `irq_vectors` gates every delivery: `pending_vector` gives up when it is zero.
-/
variable (p : I8259a)

namespace Wedge
open BitVec Runs Bool

def I8259a.Pending (k : ℕ) : Prop :=
  p.irqRequest.getLsbD k = true ∧ p.irqMask.getLsbD k = false

instance  (k : ℕ) : Decidable (p.Pending k) :=
  inferInstanceAs (Decidable (_ ∧ _))

theorem I8259a.maskedIrr_ne_zero_iff : p.maskedIrr ≠ 0 ↔ ∃ k, p.Pending k := by
  refine (Bits.ne_zero_iff _).trans (exists_congr fun k => ?_)
  simp only [maskedIrr, Pending, getLsbD_and, getLsbD_not, and_eq_true,
    not_eq_true', decide_eq_true_eq]
  exact ⟨fun h => ⟨h.1, h.2.2⟩, fun h => ⟨h.1, Bits.lt_of_getLsbD h.1, h.2⟩⟩

namespace Pics

def summary (s : Pics) (c : Chip) : Bool := s.cpu.irqVectors.getLsbD (c.irqBase / 8)

def Summarised (s : Pics) : Prop :=
  ∀ c k, (s.chip c).irqRequest.getLsbD k = true →
    k < 8 ∧ ((s.chip c).irqMask.getLsbD k = false → s.summary c = true)

variable {s : Pics} {c : Chip} {k : ℕ}

theorem Summarised.of_pending (hs : s.Summarised) (h : (s.chip c).Pending k) :
    k < 8 ∧ s.summary c = true :=
  ⟨(hs c k h.1).1, (hs c k h.1).2 h.2⟩

theorem irqBase_div_inj {d : Chip} : c.irqBase / 8 = d.irqBase / 8 ↔ c = d := by
  cases c <;> cases d <;> decide

theorem irqBase_lt (c : Chip) : c.irqBase < 256 := by cases c <;> decide

theorem line_div_eight (hk : k < 8) (c : Chip) : (k + c.irqBase) / 8 = c.irqBase / 8 := by
  cases c <;> simp only [Chip.irqBase] <;> omega

@[simp] theorem summary_setIrqVector (s : Pics) (hk : k < 8) (d : Chip) :
    (s.setCpu (s.cpu.setIrqVector (k + c.irqBase))).summary d =
      (s.summary d || decide (c = d)) := by
  have hlt : k + c.irqBase < 256 := by cases c <;> simp only [Chip.irqBase] <;> omega
  have hg : c.irqBase / 8 < 32 := by cases c <;> decide
  simp [summary, Cpu.irqVectors_setIrqVector _ hlt, line_div_eight hk, irqBase_div_inj, hg]

@[simp] theorem summary_clearIrqVector (s : Pics) (c d : Chip) :
    (s.setCpu (s.cpu.clearIrqVector c.irqBase)).summary d = (s.summary d && !decide (c = d)) := by
  simp [summary, Cpu.irqVectors_clearIrqVector _ (irqBase_lt c), irqBase_div_inj]

@[simp] theorem summary_setChip (s : Pics) (c d : Chip) (p : I8259a) :
    (s.setChip c p).summary d = s.summary d := by simp [summary]

/-! ### Keeping the summary

Every method touches the lines and the summary bit of one controller only. -/

section
variable (hs : s.Summarised)
include hs

theorem Summarised.of_chip {t : Pics} (c : Chip)
    (hother : ∀ d, d ≠ c → t.chip d = s.chip d ∧ t.summary d = s.summary d)
    (hc : ∀ k, (t.chip c).irqRequest.getLsbD k = true →
      k < 8 ∧ ((t.chip c).irqMask.getLsbD k = false → t.summary c = true)) : t.Summarised := by
  intro d k hk
  by_cases hdc : d = c
  · subst hdc; exact hc k hk
  · rw [(hother d hdc).1] at hk ⊢
    rw [(hother d hdc).2]
    exact hs d k hk

theorem Summarised.congr {t : Pics} (hchip : ∀ d, t.chip d = s.chip d) (hcpu : t.cpu = s.cpu) :
    t.Summarised := by
  intro d k hk
  rw [hchip] at hk ⊢
  rw [summary, hcpu]
  exact hs d k hk

theorem Summarised.setHwirq (h : Hwirq) :
    (s.setHwirq h).Summarised := hs.congr (fun _ => setHwirq_chip ..) rfl

theorem Summarised.call (b : BackendCall) :
    (s.call b).Summarised := hs.congr (fun _ => call_chip ..) rfl

theorem Summarised.setChip (c : Chip) (p : I8259a)
    (hreq : ∀ k, p.irqRequest.getLsbD k = true → (s.chip c).irqRequest.getLsbD k = true)
    (hmask : ∀ k < 8, (s.chip c).irqMask.getLsbD k = true → p.irqMask.getLsbD k = true) :
    (s.setChip c p).Summarised := by
  refine hs.of_chip c (fun d hd => ⟨chip_setChip_of_ne _ _ hd, summary_setChip ..⟩) fun k hk => ?_
  rw [chip_setChip_self] at hk ⊢
  obtain ⟨hlt, hsum⟩ := hs c k (hreq k hk)
  refine ⟨hlt, fun hm => ?_⟩
  rw [summary_setChip]
  refine hsum (eq_false_iff.2 fun ht => ?_)
  rw [hmask k hlt ht] at hm
  cases hm

theorem Summarised.setChip_of_eq (c : Chip) (p : I8259a)
    (hreq : p.irqRequest = (s.chip c).irqRequest) (hmask : p.irqMask = (s.chip c).irqMask) :
    (s.setChip c p).Summarised :=
  hs.setChip c p (fun _ h => hreq ▸ h) fun _ _ h => hmask ▸ h

theorem Summarised.set (c : Chip) (p : I8259a) (hk : k < 8)
    (hlines : ∀ j, p.irqRequest.getLsbD j = true → j < 8) :
    ((s.setChip c p).setCpu (s.cpu.setIrqVector (k + c.irqBase))).Summarised := by
  have hcpu : s.cpu = (s.setChip c p).cpu := (setChip_cpu ..).symm
  rw [hcpu]
  refine hs.of_chip c (fun d hd => ⟨?_, ?_⟩) fun j hj => ⟨?_, fun _ => ?_⟩
  · rw [setCpu_chip, chip_setChip_of_ne _ _ hd]
  · rw [summary_setIrqVector _ hk, summary_setChip, decide_eq_false (Ne.symm hd), Bool.or_false]
  · rw [setCpu_chip, chip_setChip_self] at hj
    exact hlines j hj
  · rw [summary_setIrqVector _ hk, decide_eq_true rfl, Bool.or_true]

theorem Summarised.clear (h0 : (s.chip c).maskedIrr = 0) :
    (s.setCpu (s.cpu.clearIrqVector c.irqBase)).Summarised := by
  refine hs.of_chip c (fun d hd => ⟨setCpu_chip .., ?_⟩) fun k hk => ?_
  · rw [summary_clearIrqVector, decide_eq_false (Ne.symm hd), Bool.not_false, Bool.and_true]
  · refine ⟨(hs c k hk).1, fun hm => absurd h0 ?_⟩
    exact (I8259a.maskedIrr_ne_zero_iff _).2 ⟨k, hk, hm⟩

theorem Summarised.request (c : Chip) (hk : k < 8) :
    (if (s.chip c).irqMask.getLsbD k then s.setChip c ((s.chip c).request k)
      else (s.setChip c ((s.chip c).request k)).setCpu
        (s.cpu.setIrqVector (k + c.irqBase))).Summarised := by
  have hreq : ∀ j, ((s.chip c).request k).irqRequest.getLsbD j = true →
      (s.chip c).irqRequest.getLsbD j = true ∨ j = k := by
    intro j hj
    simp only [I8259a.request, Bits.getLsbD_insert, or_eq_true, and_eq_true,
      decide_eq_true_eq] at hj
    exact hj.imp id fun h => h.2.symm
  split_ifs with hm
  · refine hs.of_chip c (fun d hd => ⟨chip_setChip_of_ne _ _ hd, summary_setChip ..⟩) fun j hj => ?_
    rw [chip_setChip_self] at hj ⊢
    rw [summary_setChip]
    rcases hreq j hj with hj | rfl
    · exact hs c j hj
    · exact ⟨hk, fun hm' => by rw [I8259a.request, hm] at hm'; cases hm'⟩
  · refine hs.set c _ hk fun j hj => ?_
    rcases hreq j hj with hj | rfl
    · exact (hs c j hj).1
    · exact hk

theorem summarised_chipRaiseIrq (c : Chip) {irq : ℕ} (hle : c.irqBase ≤ irq)
    (hlt : irq < c.irqBase + 8) : (s.chipRaiseIrq c irq).Summarised := by
  have h := hs.request c (k := irq - c.irqBase) (by omega)
  rw [Nat.sub_add_cancel hle] at h
  simp only [chipRaiseIrq, setHwirq_cpu, setChip_cpu]
  split_ifs at h ⊢ with hm
  · exact h.setHwirq _
  · exact h.setHwirq _

theorem summarised_raiseIrq (irq : ℕ) : (s.raiseIrq irq).Summarised := by
  simp only [raiseIrq]
  split_ifs with h8 h16
  · exact summarised_chipRaiseIrq (hs.setHwirq _) .master (Nat.zero_le _) h8
  · exact summarised_chipRaiseIrq (hs.setHwirq _) .slave (not_lt.1 h8) h16
  · exact hs.setHwirq _

theorem summarised_chipReraiseVector (c : Chip) (vector : ℕ) :
    (s.chipReraiseVector c vector).Summarised := by
  simp only [chipReraiseVector, setChip_cpu]
  split_ifs with hr hm
  · exact hs
  · have h := hs.request c (k := vector - (s.chip c).getIdtOffset) (by omega)
    rwa [if_pos hm] at h
  · have h := hs.request c (k := vector - (s.chip c).getIdtOffset) (by omega)
    rwa [if_neg hm] at h

end

theorem irqRequest_claim (k : ℕ) : (p.claim k).irqRequest = Bits.erase p.irqRequest k := by
  simp only [I8259a.claim]
  split_ifs <;> rfl

theorem irqMask_claim (k : ℕ) : (p.claim k).irqMask = p.irqMask := by
  simp only [I8259a.claim]
  split_ifs <;> rfl

theorem summarised_chipPendingVector (hs : s.Summarised) (c : Chip) :
    (s.chipPendingVector c).2.Summarised := by
  have hclaim : ∀ k, (s.setChip c ((s.chip c).claim k)).Summarised := by
    intro k
    refine hs.setChip c _ (fun j hj => ?_) fun j _ hj => by rwa [irqMask_claim]
    rw [irqRequest_claim, Bits.getLsbD_erase, and_eq_true] at hj
    exact hj.1
  simp only [chipPendingVector]
  split_ifs with h0 hleft
  · exact hs.clear h0
  · refine (hclaim _).clear ?_
    rwa [chip_setChip_self]
  · exact hclaim _

theorem summarised_askChip (hs : s.Summarised) (c : Chip) : (s.askChip c).2.Summarised := by
  simp only [askChip]
  split_ifs
  · exact summarised_chipPendingVector hs c
  · exact hs

theorem summarised_pendingVector (hs : s.Summarised) : s.pendingVector.2.Summarised := by
  simp only [pendingVector, picPendingVector]
  split_ifs
  · exact hs
  · cases (s.askChip .master).1 with
    | some v => exact summarised_askChip hs .master
    | none => exact summarised_askChip (summarised_askChip hs .master) .slave

theorem eoi_lines (irq : ℕ) :
    (p.eoi irq).2.2.irqRequest = p.irqRequest ∧ (p.eoi irq).2.2.irqMask = p.irqMask := by
  simp only [I8259a.eoi, I8259a.seoi]
  split_ifs <;> exact ⟨rfl, rfl⟩

theorem Summarised.eoi (hs : s.Summarised) (c : Chip) :
    (s.setChip c ((s.chip c).eoi 0).2.2).Summarised :=
  hs.setChip_of_eq c _ (eoi_lines _ _).1 (eoi_lines _ _).2

theorem summarised_retire (hs : s.Summarised) (c : Chip) : (s.retire c).Summarised := by
  simp only [retire, unmaskRetired]
  split_ifs
  · exact hs.eoi c
  · exact ((hs.eoi c).setHwirq _).call _
  · exact (hs.eoi c).setHwirq _
  · exact hs.eoi c

theorem summarised_portAWrite (hs : s.Summarised) (c : Chip) (value : Byte) :
    (s.portAWrite c value).Summarised := by
  have hff : ∀ k < 8, (0xff : Word).getLsbD k = true := by decide
  simp only [portAWrite]
  split_ifs
  · exact hs.setChip c _ (fun _ h => h) fun k hk _ => hff k hk
  · exact hs.setChip c _ (fun _ h => h) fun k hk _ => hff k hk
  · exact hs.setChip_of_eq c _ rfl rfl
  · exact hs
  · grind [Ocw.getOp, summarised_retire]

theorem summarised_foldl {f : Pics → ℕ → Pics} (hf : ∀ s n, Summarised s → (f s n).Summarised)
    (hs : s.Summarised) (l : List ℕ) :
    (l.foldl f s).Summarised := run_invariant_of_forall hf hs l

theorem Summarised.writeMask (hs : s.Summarised) (c : Chip) (m : Word) :
    (if (s.chip c).irqRequest &&& (s.chip c).irqMask &&& ~~~ m = 0 then
        s.setChip c { s.chip c with irqMask := m }
      else (s.setChip c { s.chip c with irqMask := m }).setCpu
        (s.cpu.setIrqVector c.irqBase)).Summarised := by
  split_ifs with h0
  · refine hs.of_chip c (fun d hd => ⟨chip_setChip_of_ne _ _ hd, summary_setChip ..⟩) fun k hk => ?_
    rw [chip_setChip_self] at hk ⊢
    obtain ⟨hlt, hsum⟩ := hs c k hk
    refine ⟨hlt, fun hm => ?_⟩
    rw [summary_setChip]
    refine hsum (eq_false_iff.2 fun hold => ?_)
    have hbit := (Bits.eq_zero_iff _).1 h0 k
    simp only [getLsbD_and, getLsbD_not, hk, hold, hm] at hbit
    simp [show k < 32 by omega] at hbit
  · have h := hs.set c { s.chip c with irqMask := m } (k := 0) (by omega) fun j hj => (hs c j hj).1
    rwa [Nat.zero_add] at h

theorem summarised_portBWrite (hs : s.Summarised) (c : Chip) (value : Byte) :
    (s.portBWrite c value).Summarised := by
  simp only [portBWrite, setChip_cpu]
  split
  · refine summarised_foldl (f := unmaskHwirq) (fun t n ht => (ht.setHwirq _).call _) ?_ _
    refine summarised_foldl (f := enableHwirq) (fun t n ht => (ht.setHwirq _).call _) ?_ _
    exact hs.writeMask c (value.setWidth 32)
  -- an initialisation word leaves the lines alone
  · exact hs.setChip_of_eq c _ rfl rfl
  · exact hs.setChip_of_eq c _ rfl rfl
  · exact hs.setChip_of_eq c _ rfl rfl

theorem summarised_portARead (hs : s.Summarised) (c : Chip) : (s.portARead c).2.Summarised := by
  simp only [portARead]
  split_ifs
  · exact hs.eoi c
  · exact hs.eoi c
  · exact hs
  · exact hs

theorem summarised_step (s : Pics) (op : Op) (hs : s.Summarised) : (s.step op).Summarised := by
  cases op with
  | raiseIrq irq => exact summarised_raiseIrq hs irq
  | reraiseVector vector =>
    exact summarised_chipReraiseVector
      (summarised_chipReraiseVector hs .master vector) .slave vector
  | pendingVector => exact summarised_pendingVector hs
  | portAWrite c value => exact summarised_portAWrite hs c value
  | portBWrite c value => exact summarised_portBWrite hs c value
  | portARead c => exact summarised_portARead hs c

theorem summarised_init (squash : Word) : (init squash).Summarised := by
  intro c k hk
  cases c <;> simp [chip, init, I8259a.init] at hk

theorem summarised_run (squash : Word) (ops : List Op) :
    (run step (init squash) ops).Summarised :=
  run_invariant_of_forall summarised_step (summarised_init squash) ops

theorem chipPendingVector_none_iff (s : Pics) (c : Chip) :
    (s.chipPendingVector c).1 = none ↔ ∀ k, ¬ (s.chip c).Pending k := by
  have h := (s.chip c).maskedIrr_ne_zero_iff
  simp only [chipPendingVector]
  split_ifs with h0 <;> simp_all

theorem irqRequest_ne_zero_of_pending {p : I8259a} (h : p.Pending k) : p.irqRequest ≠ 0 :=
  (Bits.ne_zero_iff _).2 ⟨k, h.1⟩

theorem askChip_none_iff (s : Pics) (c : Chip) :
    (s.askChip c).1 = none ↔ ∀ k, ¬ (s.chip c).Pending k := by
  grind [askChip, chipPendingVector_none_iff, irqRequest_ne_zero_of_pending]

theorem chip_askChip_of_none (h : (s.askChip c).1 = none) (d : Chip) :
    (s.askChip c).2.chip d = s.chip d := by
  simp only [askChip, chipPendingVector] at h ⊢
  split_ifs at h ⊢
  · exact setCpu_chip ..
  · rfl

theorem picPendingVector_isSome_iff (s : Pics) :
    s.picPendingVector.1.isSome ↔ ∃ c k, (s.chip c).Pending k := by
  have hmaster := askChip_none_iff s .master
  simp only [picPendingVector]
  cases hr : (s.askChip .master).1 with
  | some v => grind
  | none =>
    have hslave := askChip_none_iff (s.askChip .master).2 .slave
    rw [chip_askChip_of_none hr] at hslave
    rw [Option.isSome_iff_ne_none, ne_eq, hslave]
    constructor
    · intro h
      push Not at h
      exact ⟨.slave, h⟩
    · rintro ⟨c, k, hk⟩ h
      cases c with
      | master => exact hmaster.1 hr k hk
      | slave => exact h k hk

theorem pendingVector_isSome_iff (hs : s.Summarised) :
    s.pendingVector.1.isSome ↔ ∃ c k, (s.chip c).Pending k := by
  simp only [pendingVector]
  split_ifs with h0
  · constructor
    · intro h
      cases h
    · rintro ⟨c, k, hk⟩
      have hsum := (hs.of_pending hk).2
      simp [summary, h0] at hsum
  · exact picPendingVector_isSome_iff s

/-- **No interrupt of the pair is overlooked.** Bits `0` and `1` of `irq_vectors` are set when the
master and the slave have a requested and unmasked line, and `pending_vector` delivers exactly when
there is one. -/
theorem pendingVector_complete (squash : Word) (ops : List Op) :
    let s := run step (init squash) ops
    ((∃ k, s.master.Pending k) → s.cpu.irqVectors.getLsbD 0 = true) ∧
    ((∃ k, s.slave.Pending k) → s.cpu.irqVectors.getLsbD 1 = true) ∧
    (s.pendingVector.1.isSome ↔ ∃ k < 8, s.master.Pending k ∨ s.slave.Pending k) := by
  intro s
  have hs : s.Summarised := summarised_run squash ops
  refine ⟨fun ⟨k, hk⟩ => (hs.of_pending (c := .master) hk).2,
    fun ⟨k, hk⟩ => (hs.of_pending (c := .slave) hk).2, ?_⟩
  rw [pendingVector_isSome_iff hs]
  constructor
  · rintro ⟨c, k, hk⟩
    cases c with
    | master => exact ⟨k, (hs.of_pending hk).1, .inl hk⟩
    | slave => exact ⟨k, (hs.of_pending hk).1, .inr hk⟩
  · rintro ⟨k, -, hk | hk⟩
    · exact ⟨.master, k, hk⟩
    · exact ⟨.slave, k, hk⟩

end Pics
end Wedge
