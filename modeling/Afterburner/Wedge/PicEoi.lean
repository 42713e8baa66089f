import Afterburner.Wedge.I8259a

/-!
# End of interrupt at the 8259 pair

What an EOI command should do, `EoiExact`, and when `port_a_write` does it.
-/

namespace Wedge
open Runs Bits

def Ocw.IsEoi (value : Byte) : Prop :=
  isIcw1 value = false ∧ isOcw3 value = false ∧
    (getOp value = .nonSpecificEoi ∨ getOp value = .specificEoi)

instance (value : Byte) : Decidable (Ocw.IsEoi value) := inferInstanceAs (Decidable (_ ∧ _))

namespace Pics

def LowestInService (p : I8259a) (k : ℕ) : Prop :=
  p.irqInService.getLsbD k = true ∧ ∀ j < k, p.irqInService.getLsbD j = false

def ToRetire (p : I8259a) (value : Byte) (k : ℕ) : Prop :=
  match Ocw.getOp value with
  | .specificEoi => k = Ocw.getLevel value ∧ p.irqInService.getLsbD k = true
  | _ => LowestInService p k

def Masked (s : Pics) (irq : ℕ) : Prop :=
  s.hwirq.isHwirqSquashed irq = false ∧ s.hwirq.testHwirqMask irq = true

instance (s : Pics) (irq : ℕ) : Decidable (s.Masked irq) := inferInstanceAs (Decidable (_ ∧ _))
def releases (s : Pics) (irq : ℕ) : List BackendCall := if s.Masked irq then [.unmask irq] else []

def EoiExact (s : Pics) (c : Chip) (value : Byte) : Prop :=
  let t := s.portAWrite c value
  (∀ k, ToRetire (s.chip c) value k →
    (∀ j, (t.chip c).irqInService.getLsbD j =
      ((s.chip c).irqInService.getLsbD j && !decide (j = k))) ∧
    t.calls = s.calls ++ s.releases (c.irqBase + k)) ∧
  ((∀ k, ¬ ToRetire (s.chip c) value k) →
    (t.chip c).irqInService = (s.chip c).irqInService ∧ t.calls = s.calls)

variable {value : Byte}

theorem portAWrite_eoi (h : Ocw.IsEoi value) (s : Pics) (c : Chip) :
    s.portAWrite c value = s.retire c := by
  obtain ⟨h1, h3, hop⟩ := h
  simp only [portAWrite, h1, h3]
  rcases hop with hop | hop <;> simp [hop]

theorem lowestInService_iff (p : I8259a) (k : ℕ) :
    LowestInService p k ↔ p.irqInService ≠ 0 ∧ k = lsb p.irqInService := by
  constructor
  · rintro ⟨hk, hmin⟩
    exact ⟨(ne_zero_iff _).2 ⟨k, hk⟩, (lsb_eq_of_first hk hmin).symm⟩
  · rintro ⟨hne, rfl⟩
    exact ⟨getLsbD_lsb hne, fun j hj => getLsbD_of_lt_lsb hj⟩

theorem LowestInService.unique {p : I8259a} {k l : ℕ} (hk : LowestInService p k)
    (hl : LowestInService p l) : k = l :=
  ((lowestInService_iff p k).1 hk).2.trans ((lowestInService_iff p l).1 hl).2.symm

theorem retire_of_none {s : Pics} {c : Chip} (h : ∀ k, ¬ LowestInService (s.chip c) k) :
    ((s.retire c).chip c).irqInService = (s.chip c).irqInService ∧
      (s.retire c).calls = s.calls := by
  have h0 : (s.chip c).irqInService = 0 := by
    by_contra hne
    exact h _ ((lowestInService_iff _ _).2 ⟨hne, rfl⟩)
  simp [retire, I8259a.eoi, h0]

variable (s : Pics)

@[simp] theorem unmaskRetired_chip (irq : ℕ) (c : Chip) :
    (s.unmaskRetired irq).chip c = s.chip c := by
  simp only [unmaskRetired]
  split_ifs <;> simp

@[simp] theorem releases_setChip (c : Chip) (p : I8259a) (irq : ℕ) :
    (s.setChip c p).releases irq = s.releases irq := by
  exact if_congr (by simp [Masked]) rfl rfl

theorem unmaskRetired_calls (irq : ℕ) :
    (s.unmaskRetired irq).calls = s.calls ++ s.releases irq := by
  simp only [unmaskRetired, releases, Masked]
  split_ifs <;> simp_all

theorem retire_of_lowest {s : Pics} {c : Chip} {k : ℕ} (h : LowestInService (s.chip c) k) :
    ((s.retire c).chip c).irqInService = erase (s.chip c).irqInService k ∧
      (s.retire c).calls = s.calls ++ s.releases k := by
  obtain ⟨hne, hlow⟩ := (lowestInService_iff _ _).1 h
  have heoi : (s.chip c).eoi 0 = (true, k,
      { s.chip c with irqInService := erase (s.chip c).irqInService k }) := by
    simp only [I8259a.eoi, I8259a.seoi, ← hlow, h.1, if_pos hne, if_true]
  simp only [retire, heoi, if_true, unmaskRetired_chip, unmaskRetired_calls, chip_setChip_self,
    setChip_calls, releases_setChip, and_self]

theorem toRetire_nonSpecific (h : Ocw.getOp value = .nonSpecificEoi) (p : I8259a) (k : ℕ) :
    ToRetire p value k ↔ LowestInService p k := by simp [ToRetire, h]

theorem toRetire_specific (h : Ocw.getOp value = .specificEoi) (p : I8259a) (k : ℕ) :
    ToRetire p value k ↔ k = Ocw.getLevel value ∧ p.irqInService.getLsbD k = true := by
  simp [ToRetire, h]

theorem releases_eq_iff (c : Chip) (k : ℕ) :
    s.releases k = s.releases (c.irqBase + k) ↔
      (c = .slave → ¬ s.Masked k ∧ ¬ s.Masked (8 + k)) := by
  cases c with
  | master => simp [Chip.irqBase]
  | slave =>
    simp only [releases, Chip.irqBase, forall_const]
    split_ifs with h1 h2 <;> simp_all

theorem eoiExact_of_toRetire {s : Pics} {c : Chip} {k l : ℕ} (h : Ocw.IsEoi value)
    (hlow : LowestInService (s.chip c) l) (hret : ∀ j, ToRetire (s.chip c) value j ↔ j = k) :
    s.EoiExact c value ↔ k = l ∧ (c = .slave → ¬ s.Masked l ∧ ¬ s.Masked (8 + l)) := by
  obtain ⟨hisr, hcalls⟩ := retire_of_lowest hlow
  simp only [EoiExact, portAWrite_eoi h, hret, hisr, hcalls, getLsbD_erase, forall_eq]
  rw [and_iff_left False.elim, List.append_right_inj]
  constructor
  · rintro ⟨hbits, hrel⟩
    -- the line that is cleared is the one that was to be cleared
    have hkl : k = l := by
      have hl := hbits l
      simp only [hlow.1, Bool.true_and, decide_true, Bool.not_true] at hl
      have hl' : decide (l = k) = true := by simpa using hl.symm
      exact (of_decide_eq_true hl').symm
    subst hkl
    exact ⟨rfl, (releases_eq_iff s c k).1 hrel⟩
  · rintro ⟨rfl, hc⟩
    refine ⟨fun j => ?_, (releases_eq_iff s c k).2 hc⟩
    simp only [eq_comm (a := k) (b := j)]

/-- **When an EOI is exact.** Always with no line in service. Otherwise, with `k` the lowest, a
specific EOI must name `k`, and at the slave neither device interrupt `k` nor `8 + k` may be waiting
for its release. -/
theorem eoiExact_iff (s : Pics) (c : Chip) (value : Byte) (h : Ocw.IsEoi value) :
    s.EoiExact c value ↔
      ∀ k, LowestInService (s.chip c) k →
        (Ocw.getOp value = .specificEoi → Ocw.getLevel value = k) ∧
        (c = .slave → ¬ s.Masked k ∧ ¬ s.Masked (8 + k)) := by
  by_cases hnone : ∀ k, ¬ LowestInService (s.chip c) k
  · -- nothing is in service, so nothing is to be retired and nothing is
    have hret : ∀ k, ¬ ToRetire (s.chip c) value k := by
      intro k hk
      rcases h.2.2 with hop | hop
      · exact hnone k ((toRetire_nonSpecific hop _ _).1 hk)
      · have hne := (ne_zero_iff _).2 ⟨k, ((toRetire_specific hop _ _).1 hk).2⟩
        exact hnone _ ((lowestInService_iff _ _).2 ⟨hne, rfl⟩)
    simp only [EoiExact, portAWrite_eoi h]
    exact ⟨fun _ k hk => absurd hk (hnone k),
      fun _ => ⟨fun k hk => absurd hk (hret k), fun _ => retire_of_none hnone⟩⟩
  · push Not at hnone
    obtain ⟨l, hl⟩ := hnone
    have hall : (∀ k, LowestInService (s.chip c) k →
        (Ocw.getOp value = .specificEoi → Ocw.getLevel value = k) ∧
        (c = .slave → ¬ s.Masked k ∧ ¬ s.Masked (8 + k))) ↔
        (Ocw.getOp value = .specificEoi → Ocw.getLevel value = l) ∧
        (c = .slave → ¬ s.Masked l ∧ ¬ s.Masked (8 + l)) :=
      ⟨fun hk => hk l hl, fun hk k hk' => hk'.unique hl ▸ hk⟩
    rw [hall]
    rcases h.2.2 with hop | hop
    · have hret : ∀ j, ToRetire (s.chip c) value j ↔ j = l := fun j =>
        (toRetire_nonSpecific hop _ _).trans ⟨fun hj => hj.unique hl, fun hj => hj ▸ hl⟩
      rw [eoiExact_of_toRetire h hl hret]
      simp [hop]
    · by_cases hin : (s.chip c).irqInService.getLsbD (Ocw.getLevel value) = true
      · have hret : ∀ j, ToRetire (s.chip c) value j ↔ j = Ocw.getLevel value := fun j =>
          (toRetire_specific hop _ _).trans ⟨fun hj => hj.1, fun hj => ⟨hj, hj ▸ hin⟩⟩
        rw [eoiExact_of_toRetire h hl hret]
        simp [hop]
      · -- the named line is not in service, yet the lowest one is retired
        have hret : ∀ j, ¬ ToRetire (s.chip c) value j := fun j hj => by
          obtain ⟨rfl, hj⟩ := (toRetire_specific hop _ _).1 hj
          exact hin hj
        refine iff_of_false (fun hex => ?_) fun hlev => ?_
        · have hsame := (hex.2 hret).1
          rw [portAWrite_eoi h, (retire_of_lowest hl).1] at hsame
          have hbit := congrArg (fun x => x.getLsbD l) hsame
          simp [hl.1] at hbit
        · rw [hlev.1 hop] at hin
          exact hin hl.1

theorem eoiExact_lone_line : (run step (init 0)
    [.portBWrite .master 0, .raiseIrq 3, .pendingVector]).EoiExact .master 0x63 := by
  refine (eoiExact_iff _ .master 0x63 (by decide)).2 fun k hk => ⟨fun _ => ?_, fun h => by cases h⟩
  have h3 : LowestInService ((run step (init 0)
      [.portBWrite .master 0, .raiseIrq 3, .pendingVector]).chip .master) 3 :=
    ⟨by decide +kernel, by decide +kernel⟩
  exact h3.unique hk

theorem not_eoiExact :
    (Ocw.IsEoi 0x20 ∧ ¬ (run step (init 0)
      [.portBWrite .slave 0, .raiseIrq 9, .pendingVector]).EoiExact .slave 0x20) ∧
    (Ocw.IsEoi 0x63 ∧ ¬ (run step (init 0) [.portBWrite .master 0, .raiseIrq 3,
      .pendingVector, .raiseIrq 1, .pendingVector]).EoiExact .master 0x63) := by
  refine ⟨⟨by decide, fun h => ?_⟩, ⟨by decide, fun h => ?_⟩⟩
  · have hret : ToRetire ((run step (init 0)
        [.portBWrite .slave 0, .raiseIrq 9, .pendingVector]).chip .slave) 0x20 1 := by
      refine ⟨by decide +kernel, by decide +kernel⟩
    have hcalls := (h.1 1 hret).2
    revert hcalls
    decide +kernel
  · have hret : ToRetire ((run step (init 0) [.portBWrite .master 0, .raiseIrq 3,
        .pendingVector, .raiseIrq 1, .pendingVector]).chip .master) 0x63 3 := by
      refine ⟨by decide +kernel, by decide +kernel⟩
    have hbits := (h.1 3 hret).1 1
    revert hbits
    decide +kernel

end Pics
end Wedge
