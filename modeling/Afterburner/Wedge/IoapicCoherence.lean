import Afterburner.Wedge.IoapicWindow

/-!
# Reading through the register window of an IO-APIC

A read of the window returns the word that the last write to the select register has fetched.
-/
variable (s : Ioapics)

namespace Wedge
open Function Apics Runs Bits

inductive WindowOp
  | write (self : ℕ) (addr value reg : Word)
  | raiseIrq (self : ℕ) (addr : Word) (entry : Fin 64) (reraise : Bool)
  | eoi (self : ℕ) (addr : Word) (entry : Fin 64)

namespace Ioapics

def step : WindowOp → Ioapics
  | .write self addr value reg => s.write self addr value reg
  | .raiseIrq self addr entry reraise =>
    { s with apics :=
        s.apics.ioapicRaiseIrq self addr ((s.apics.ioapic addr).hwirqOf entry) reraise }
  | .eoi self addr entry =>
    { s with apics := s.apics.ioapicEoi self addr ((s.apics.ioapic addr).hwirqOf entry) }

def Coherent (addr : Word) (s : Ioapics) : Prop :=
  IsRegister (s.window addr).regsel → s.ioapicReadPatch addr = s.selected addr

def LowerSelected (addr : Word) (entry : Fin 64) : Prop :=
  (s.window addr).regsel = 0x10 + 2 * BitVec.ofNat 32 entry

structure KeepsWindow (addr value : Word) : Prop where
  id : (s.window addr).regsel = 0 → (s.windowEntry addr).storeId value = s.windowEntry addr
  table : ((s.window addr).regsel = 1 ∨ (s.window addr).regsel = 2) ∨
      0x10 ≤ (s.window addr).regsel ∧ (s.window addr).regsel ≤ 0x3f →
    (s.windowEntry addr).store (s.windowLower addr) value = s.windowEntry addr ∧
      (s.windowLower addr = false → (s.windowEntry addr).msk = false →
        (s.windowEntry addr).saveDest.hi = (s.windowEntry addr).hi)

def Keeps (addr : Word) (s : Ioapics) : WindowOp → Prop
  | .write _ a value reg => a = addr → reg = 0x10 → s.KeepsWindow addr value
  | .raiseIrq _ a entry _ => a = addr → s.LowerSelected addr entry →
    15 < (s.windowEntry addr).vec → (s.windowEntry addr).trg = true →
      (s.windowEntry addr).lo.getLsbD (levelBit (s.windowEntry addr)) = true
  | .eoi _ a entry => a = addr → s.LowerSelected addr entry → (s.windowEntry addr).irr = false

end Ioapics
namespace RedirEntry

def half (e : RedirEntry) (lower : Bool) : Word := if lower then e.lo else e.hi

variable {e : RedirEntry} {lower : Bool} {value : Word}

theorem msk_written_true : (e.written true value).msk = value.getLsbD 16 := by
  have hstored : (e.stored true value).msk = value.getLsbD 16 := by
    have hstore : (e.store true value).msk = value.getLsbD 16 := msk_storeLo e value
    unfold stored
    split_ifs <;> simp only [msk_clearPnd, msk_saveDest, hstore]
  unfold written
  dsimp only
  split_ifs
  · rw [msk, getLsbD_insert]
    have hlevel : ∀ e' : RedirEntry, levelBit e' ≠ 16 := by
      intro e'
      unfold levelBit
      split_ifs <;> decide
    rw [decide_eq_false (hlevel _), Bool.and_false, Bool.or_false]
    exact hstored
  · exact hstored

theorem lo_written_iff : (e.written true value).lo = e.lo ↔ e.store true value = e := by
  -- both sides say that the entry is masked after the write as it was before
  by_cases hen : e.Enabled true value
  · refine iff_of_false (fun h => ?_) fun h => ?_
    · have hmsk : (e.written true value).msk = e.msk := congrArg (fun x : Word => x.getLsbD 16) h
      rw [msk_written_true, hen.1, hen.2] at hmsk
      exact Bool.false_ne_true hmsk
    · have hmsk : (e.store true value).msk = e.msk := congrArg msk h
      rw [show (e.store true value).msk = value.getLsbD 16 from msk_storeLo e value, hen.1,
        hen.2] at hmsk
      exact Bool.false_ne_true hmsk
  · rw [written_of_not_raised fun h => hen h.1, stored_of_not_enabled hen]
    exact ⟨fun h => eq_of_halves h rfl, fun h => congrArg lo h⟩

theorem hi_written_iff : (e.written false value).hi = e.hi ↔
    e.store false value = e ∧ (e.msk = false → e.saveDest.hi = e.hi) := by
  have hr : ¬ e.Raised false value := fun h => Bool.false_ne_true h.2.1
  rw [written_of_not_raised hr]
  by_cases hen : e.Enabled false value
  · rw [stored_of_enabled hr hen]
    constructor
    · intro h
      have hstore : e.store false value = e := by
        have hlo : (e.store false value).lo = e.lo := rfl
        apply eq_of_halves hlo
        apply BitVec.eq_of_getLsbD_eq
        intro i _
        rcases Nat.lt_or_ge i 24 with hi | hi
        · exact sameOff_store.getLsbD_hi (guests_guestBits.oldDest i hi)
        · rw [← getLsbD_hi_saveDest hi, h]
      rw [hstore] at h
      exact ⟨hstore, fun _ => h⟩
    · rintro ⟨hstore, hsave⟩
      rw [hstore]
      exact hsave hen
  · rw [stored_of_not_enabled hen]
    exact ⟨fun h => ⟨eq_of_halves rfl h, fun hm => absurd hm hen⟩, fun h => congrArg hi h.1⟩

end RedirEntry
namespace Ioapics
variable {s} {t : Ioapics} {addr : Word}

theorem selected_eq_half : s.selected addr = (s.windowEntry addr).half (s.windowLower addr) := by
  simp only [selected, I82093.raw, windowEntry, windowLower, RedirEntry.half, decide_eq_true_eq]

theorem coherent_iff_selected (hc : s.Coherent addr) (hw : t.window addr = s.window addr) :
    t.Coherent addr ↔ (IsRegister (s.window addr).regsel → t.selected addr = s.selected addr) := by
  unfold Coherent ioapicReadPatch
  rw [hw]
  refine forall_congr' fun hreg => ?_
  rw [show (s.window addr).regwin = s.selected addr from hc hreg]
  exact eq_comm

end Ioapics
namespace Apics
variable (s : Apics) (self : ℕ) (addr : Word)

theorem ioapic_setEntry_same (k : ℕ) :
    (s.setEntry addr k ((s.ioapic addr).redtbl k)).ioapic = s.ioapic := by
  simp only [setEntry, setIoapic, I82093.setEntry, update_eq_self]

section Event
variable (k : Fin 64)

theorem entry_of_fin : (s.ioapic addr).entry ((s.ioapic addr).hwirqOf k) = k :=
  (entry_hwirqOf _ (k.2.trans (by decide)) _).2 rfl

theorem redir_of_fin : s.redir addr ((s.ioapic addr).hwirqOf k) = (s.ioapic addr).redtbl k := by
  rw [redir_eq_redtbl, entry_of_fin]

theorem ioapicRaiseIrq_lower (reraise : Bool) :
    ∃ lo, (s.ioapicRaiseIrq self addr ((s.ioapic addr).hwirqOf k) reraise).ioapic =
        (s.setEntry addr k { (s.ioapic addr).redtbl k with lo := lo }).ioapic ∧
      (lo = ((s.ioapic addr).redtbl k).lo ↔
        (15 < ((s.ioapic addr).redtbl k).vec → ((s.ioapic addr).redtbl k).trg = true →
          ((s.ioapic addr).redtbl k).lo.getLsbD (levelBit ((s.ioapic addr).redtbl k)) =
            true)) := by
  rw [ioapic_ioapicRaiseIrq, redir_of_fin, entry_of_fin]
  generalize he : (s.ioapic addr).redtbl k = e
  by_cases h : 15 < e.vec ∧ e.trg = true
  · have hlevel : levelBit e < 32 := by
      unfold levelBit
      split_ifs <;> decide
    rw [if_pos h]
    refine ⟨_, rfl, (insert_eq_iff hlevel).trans ?_⟩
    exact ⟨fun hbit _ _ => hbit, fun hbit => hbit h.1 h.2⟩
  · rw [if_neg h]
    refine ⟨e.lo, ?_, iff_of_true rfl fun hv ht => absurd ⟨hv, ht⟩ h⟩
    rw [← he, ioapic_setEntry_same]

theorem setLo_of_fin (lo : Word) : (s.ioapic addr).setLo ((s.ioapic addr).hwirqOf k) lo =
    (s.ioapic addr).setEntry k { (s.ioapic addr).redtbl k with lo := lo } := by
  rw [I82093.setLo, I82093.redir, entry_of_fin]
  rfl

theorem ioapicEoi_lower :
    ∃ lo, (s.ioapicEoi self addr ((s.ioapic addr).hwirqOf k)).ioapic =
        (s.setEntry addr k { (s.ioapic addr).redtbl k with lo := lo }).ioapic ∧
      (lo = ((s.ioapic addr).redtbl k).lo ↔ ((s.ioapic addr).redtbl k).irr = false) := by
  have hredir : (s.ioapic addr).redir ((s.ioapic addr).hwirqOf k) = (s.ioapic addr).redtbl k :=
    redir_of_fin s addr k
  unfold ioapicEoi
  dsimp only
  rw [hredir, setLo_of_fin, setLo_of_fin]
  generalize he : (s.ioapic addr).redtbl k = e
  -- a word that lacks one of the two bits is not the old one
  have hlost : ∀ {lo : Word} {i : ℕ}, lo.getLsbD i = false → e.lo.getLsbD i = true → lo ≠ e.lo := by
    rintro lo i hnew hold rfl
    rw [hnew] at hold
    exact Bool.false_ne_true hold
  have hgone : ∀ (x : Word) (i : ℕ), (erase x i).getLsbD i = false := by simp
  by_cases hirr : e.lo.getLsbD 14 = true
  · have hset : e.irr ≠ false := fun h => Bool.false_ne_true (h.symm.trans hirr)
    rw [if_pos hirr]
    by_cases hpnd : e.lo.getLsbD 17 = true
    · rw [if_pos hpnd]
      generalize ht : setIoapic _ addr ((s.ioapic addr).setEntry k
        { e with lo := erase (erase e.lo 14) 17 }) = t
      have hioapic : t.ioapic = (s.setEntry addr k
          { e with lo := erase (erase e.lo 14) 17 }).ioapic := by
        rw [← ht]
        simp only [setIoapic, unmaskHwirq_ioapic, update_idem, setEntry]
      have hhwirq : (s.ioapic addr).hwirqOf k = (t.ioapic addr).hwirqOf k := by
        rw [hioapic, hwirqOf_setEntry]
      have hentry : (t.ioapic addr).redtbl k =
          { e with lo := erase (erase e.lo 14) 17 } := by
        rw [hioapic, redtbl_setEntry_self]
      rw [hhwirq, ioapic_ioapicRaiseIrq, redir_of_fin, entry_of_fin, hentry]
      split_ifs
      · refine ⟨_, ioapic_setEntry_setEntry hioapic _, iff_of_false ?_ hset⟩
        -- one of the two bits may be set again, the other one stays clear
        unfold levelBit
        split_ifs
        · exact hlost (i := 14) (by rw [getLsbD_insert, getLsbD_erase, hgone]; rfl) hirr
        · exact hlost (i := 17) (by rw [getLsbD_insert, hgone]; rfl) hpnd
      · exact ⟨_, hioapic, iff_of_false (hlost (hgone _ _) hpnd) hset⟩
    · rw [if_neg hpnd]
      refine ⟨erase e.lo 14, unmaskHwirq_ioapic _ _, iff_of_false ?_ hset⟩
      exact hlost (hgone _ _) hirr
  · rw [if_neg hirr]
    refine ⟨e.lo, ?_, iff_of_true rfl (Bool.eq_false_of_not_eq_true hirr)⟩
    rw [← he, ioapic_setEntry_same]

end Event
end Apics
namespace Ioapics
variable {s} {t : Ioapics} {addr : Word}
variable {k : Fin 64}

theorem lowerSelected_iff : s.LowerSelected addr k ↔
    s.windowLower addr = true ∧ ioEntry (s.window addr).regsel = k := by
  rw [windowLower, decide_eq_true_eq, even_ioEntry_iff _ k.2]
  rfl

theorem selected_eq_iff_lower {lo : Word} (hw : t.window = s.window)
    (ht : t.apics.ioapic = (s.apics.setEntry addr k
      { (s.apics.ioapic addr).redtbl k with lo := lo }).ioapic) :
    t.selected addr = s.selected addr ↔
      (s.LowerSelected addr k → lo = ((s.apics.ioapic addr).redtbl k).lo) := by
  have hlower : t.windowLower addr = s.windowLower addr := by rw [windowLower, hw, windowLower]
  rw [selected_eq_half, selected_eq_half, hlower, lowerSelected_iff]
  by_cases hk : ioEntry (s.window addr).regsel = k
  · have hentry : t.windowEntry addr = { s.windowEntry addr with lo := lo } := by
      rw [windowEntry, hw, hk, ht, redtbl_setEntry_self, windowEntry, hk]
    have hown : s.windowEntry addr = (s.apics.ioapic addr).redtbl k := by rw [windowEntry, hk]
    rw [hentry, ← hown]
    cases hl : s.windowLower addr with
    | true => exact ⟨fun h _ => h, fun h => h ⟨rfl, hk⟩⟩
    | false => exact iff_of_true rfl fun h => absurd h.1 Bool.false_ne_true
  · have hentry : t.windowEntry addr = s.windowEntry addr := by
      rw [windowEntry, hw, ht, redtbl_setEntry, if_neg fun h => hk h.2, windowEntry]
    rw [hentry]
    exact iff_of_true rfl fun h => absurd h.2 hk

theorem selected_of_ne {a : Word} {k : ℕ} {e : RedirEntry} (hw : t.window = s.window)
    (ht : t.apics.ioapic = (s.apics.setEntry a k e).ioapic) (ha : a ≠ addr) :
    t.selected addr = s.selected addr := by
  rw [selected, hw, ht, setEntry, setIoapic_ioapic_of_ne _ _ ha.symm, selected]

theorem coherent_select (s : Ioapics) (addr value : Word) :
    (s.select addr value).Coherent addr := by
  have hregsel : ((s.select addr value).window addr).regsel = value := by
    rw [select]
    dsimp only
    rw [update_self]
  intro hreg
  rw [hregsel] at hreg
  have hlt : value < 144 := by
    rcases hreg with h | h
    · bv_omega
    · exact h.2
  rw [selected, ioapicReadPatch, select]
  dsimp only
  rw [update_self, if_pos hlt]

theorem coherent_select_of_ne {a : Word} (hc : s.Coherent addr) (ha : a ≠ addr) (value : Word) :
    (s.select a value).Coherent addr := by
  have hw : (s.select a value).window addr = s.window addr :=
    update_of_ne ha.symm _ _
  rw [coherent_iff_selected hc hw, selected, hw]
  exact fun _ => rfl

theorem selected_write_iff (s : Ioapics) (self : ℕ) (addr value : Word) :
    (s.write self addr value 0x10).selected addr = s.selected addr ↔
      s.KeepsWindow addr value := by
  have hlower : (s.write self addr value 0x10).windowLower addr = s.windowLower addr := rfl
  rw [selected_eq_half, selected_eq_half, hlower]
  by_cases hn : ((s.window addr).regsel = 1 ∨ (s.window addr).regsel = 2) ∨
      0x10 ≤ (s.window addr).regsel ∧ (s.window addr).regsel ≤ 0x3f
  · have hentry : (s.write self addr value 0x10).windowEntry addr =
        (s.windowEntry addr).written (s.windowLower addr) value := by
      rw [windowEntry, ioapic_write_table self value hn]
      exact redtbl_setEntry_self ..
    have hkeeps : s.KeepsWindow addr value ↔
        (s.windowEntry addr).store (s.windowLower addr) value = s.windowEntry addr ∧
          (s.windowLower addr = false → (s.windowEntry addr).msk = false →
            (s.windowEntry addr).saveDest.hi = (s.windowEntry addr).hi) :=
      ⟨fun h => h.table hn, fun h => ⟨fun hid => absurd hid (regsel_ne_zero hn), fun _ => h⟩⟩
    rw [hentry, hkeeps]
    cases hl : s.windowLower addr with
    | true =>
      refine RedirEntry.lo_written_iff.trans (and_iff_left ?_).symm
      exact fun h => absurd h.symm Bool.false_ne_true
    | false => exact RedirEntry.hi_written_iff.trans (and_congr_right' (imp_iff_right rfl).symm)
  · by_cases hid : (s.window addr).regsel = 0
    · have hentry : (s.write self addr value 0x10).windowEntry addr =
          (s.windowEntry addr).storeId value := by
        grind [windowEntry, write_window, windowWrite, redtbl_setEntry_self]
      have hl : s.windowLower addr = true := by
        rw [windowLower, hid]
        rfl
      rw [hentry, hl]
      constructor
      · intro h
        exact ⟨fun _ => RedirEntry.eq_of_halves h rfl, fun h => absurd h hn⟩
      · intro h
        rw [h.id hid]
    · have hsame : s.write self addr value 0x10 = s := by
        rw [write_window, windowWrite, if_neg hid, if_neg hn]
      rw [hsame]
      exact iff_of_true rfl ⟨fun h => absurd h hid, fun h => absurd h hn⟩

theorem exists_ioapic_write (s : Ioapics) (self : ℕ) (addr value : Word) :
    ∃ k e, (s.write self addr value 0x10).apics.ioapic = (s.apics.setEntry addr k e).ioapic := by
  by_cases hn : ((s.window addr).regsel = 1 ∨ (s.window addr).regsel = 2) ∨
      0x10 ≤ (s.window addr).regsel ∧ (s.window addr).regsel ≤ 0x3f
  · exact ⟨_, _, ioapic_write_table self value hn⟩
  · rw [write_window, windowWrite, if_neg hn]
    by_cases hid : (s.window addr).regsel = 0
    · rw [if_pos hid]
      exact ⟨_, _, rfl⟩
    · rw [if_neg hid]
      exact ⟨0, _, (ioapic_setEntry_same s.apics addr 0).symm⟩

theorem LowerSelected.isRegister (h : s.LowerSelected addr k) :
    IsRegister (s.window addr).regsel := by
  rw [show (s.window addr).regsel = _ from h]
  exact Or.inr ⟨by bv_omega, by bv_omega⟩

theorem LowerSelected.windowEntry_eq (h : s.LowerSelected addr k) :
    s.windowEntry addr = (s.apics.ioapic addr).redtbl k := by
  rw [windowEntry, (lowerSelected_iff.1 h).2]

theorem keepsWindow_of_not_isRegister {value : Word} (h : ¬ IsRegister (s.window addr).regsel) :
    s.KeepsWindow addr value where
  id hid := absurd (Or.inl (by rw [hid]; decide)) h
  table hn := by
    refine absurd ?_ h
    rcases hn with (hn | hn) | hn
    · exact Or.inl (by rw [hn]; decide)
    · exact Or.inl (by rw [hn]; decide)
    · exact Or.inr ⟨hn.1, by bv_omega⟩

theorem coherent_iff_lower {a : Word} {lo : Word} (hc : s.Coherent addr)
    (hw : t.window = s.window) (ht : t.apics.ioapic = (s.apics.setEntry a k
      { (s.apics.ioapic a).redtbl k with lo := lo }).ioapic) :
    t.Coherent addr ↔
      (a = addr → s.LowerSelected addr k → lo = (s.windowEntry addr).lo) := by
  rw [coherent_iff_selected hc (congrFun hw addr)]
  by_cases ha : a = addr
  · subst ha
    rw [selected_eq_iff_lower hw ht]
    constructor
    · intro h _ hl
      rw [hl.windowEntry_eq]
      exact h hl.isRegister hl
    · intro h _ hl
      rw [← hl.windowEntry_eq]
      exact h rfl hl
  · exact iff_of_true (fun _ => selected_of_ne hw ht ha) fun h => absurd h ha

theorem coherent_step_iff (hc : s.Coherent addr) (op : WindowOp) :
    (s.step op).Coherent addr ↔ s.Keeps addr op := by
  cases op with
  | write self a value reg =>
    by_cases hsel : reg = 0
    · subst hsel
      refine iff_of_true ?_ fun _ h => absurd h (by decide)
      by_cases ha : a = addr
      · subst ha
        exact coherent_select s a value
      · exact coherent_select_of_ne hc ha value
    · by_cases hwin : reg = 0x10
      · subst hwin
        have hw : (s.step (.write self a value 0x10)).window = s.window := rfl
        rw [coherent_iff_selected hc (congrFun hw addr)]
        by_cases ha : a = addr
        · subst ha
          rw [show s.step (.write self a value 0x10) = s.write self a value 0x10 from rfl,
            selected_write_iff]
          constructor
          · intro h _ _
            by_cases hreg : IsRegister (s.window a).regsel
            · exact h hreg
            · exact keepsWindow_of_not_isRegister hreg
          · exact fun h _ => h rfl rfl
        · obtain ⟨k, e, hioapic⟩ := exists_ioapic_write s self a value
          exact iff_of_true (fun _ => selected_of_ne hw hioapic ha) fun h => absurd h ha
      · have hsame : s.step (.write self a value reg) = s :=
          (if_neg hsel).trans (if_neg hwin)
        rw [hsame]
        exact iff_of_true hc fun _ h => absurd h hwin
  | raiseIrq self a k reraise =>
    obtain ⟨lo, hioapic, hlo⟩ := ioapicRaiseIrq_lower s.apics self a k reraise
    have hw : (s.step (.raiseIrq self a k reraise)).window = s.window := rfl
    rw [coherent_iff_lower hc hw hioapic]
    refine forall_congr' fun ha => forall_congr' fun hl => ?_
    subst ha
    rw [hl.windowEntry_eq]
    exact hlo
  | eoi self a k =>
    obtain ⟨lo, hioapic, hlo⟩ := ioapicEoi_lower s.apics self a k
    have hw : (s.step (.eoi self a k)).window = s.window := rfl
    rw [coherent_iff_lower hc hw hioapic]
    refine forall_congr' fun ha => forall_congr' fun hl => ?_
    subst ha
    rw [hl.windowEntry_eq]
    exact hlo

/-- **Reads of the window.** A register is shown right after it has been selected. The window shows
it throughout a run exactly when it does at the start and every input keeps the selected register.
-/
theorem coherent_iff_guarded (s : Ioapics) (addr : Word) (ops : List WindowOp) :
    (∀ self value, (s.write self addr value 0).Coherent addr) ∧
      ((∀ pre, pre <+: ops → (run step s pre).Coherent addr) ↔
        s.Coherent addr ∧ Runs.Guarded step (Keeps addr) s ops) := by
  refine ⟨fun _ value => coherent_select s addr value, ?_⟩
  rw [forall_prefix_iff]
  refine and_congr_right fun hc => ?_
  exact guarded_congr (A := fun _ => True) (I := Coherent addr) (fun _ _ _ _ h => h)
    (fun s op _ hc => coherent_step_iff hc op) hc fun _ _ => trivial

def maskedVector : List WindowOp := [.write 0 0 0x10 0, .write 0 0 0x10030 0x10]

theorem not_coherent_maskedVector :
    (run step (start 1) maskedVector).ioapicReadPatch 0 = 0 ∧
      (run step (start 1) maskedVector).selected 0 = 0x10030 ∧
      ¬ (run step (start 1) maskedVector).Coherent 0 := by
  have hread : (run step (start 1) maskedVector).ioapicReadPatch 0 = 0 := by decide
  have hselected : (run step (start 1) maskedVector).selected 0 = 0x10030 := by decide
  refine ⟨hread, hselected, fun h => ?_⟩
  have heq := h (by decide)
  exact absurd heq (by decide)

end Ioapics
end Wedge
