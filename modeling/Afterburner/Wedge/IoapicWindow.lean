import Afterburner.Wedge.Redirection

/-!
# The register window of an IO-APIC

A guest selects a register by its number and reads or writes it through the window.
-/
variable (e : RedirEntry)

namespace Wedge
open RedirEntry Apics BitVec Bits

/-! ### Numbered registers

`io_regs` is declared as the words `raw[n]` and as a record with `redtbl` at offset `0x70`, so
`raw[n]` is one half of `redtbl[(n - 16) >> 1]`, also for `n` below 16: `id` and `ver` are the
halves of entry `0x7ffffff8`, `arb` is the lower half of the next. -/

def ioEntry (regno : Word) : ℕ := ((regno - 0x10) >>> 1).toNat

theorem and_one_eq (n : Word) : n &&& 1 = BitVec.ofNat 32 (n.toNat % 2) := by
  have hone : (1 : Word).toNat = 2 ^ 1 - 1 := rfl
  rw [← BitVec.toNat_inj, BitVec.toNat_and, BitVec.toNat_ofNat, hone,
    Nat.and_two_pow_sub_one_eq_mod]
  omega

theorem even_ioEntry_iff (n : Word) {k : ℕ} (hk : k < 64) :
    n &&& 1 = 0 ∧ ioEntry n = k ↔ n = 0x10 + 2 * BitVec.ofNat 32 k := by
  rw [and_one_eq, ioEntry]
  constructor
  · rintro ⟨heven, hentry⟩
    bv_omega
  · rintro rfl
    constructor <;> bv_omega

theorem ioEntry_lt (n : Word) : ioEntry n < 2 ^ 32 := isLt _

namespace I82093

def raw (x : I82093) (n : Word) : Word :=
  if n &&& 1 = 0 then (x.redtbl (ioEntry n)).lo else (x.redtbl (ioEntry n)).hi

def init (id base maxRedirEntry : Word) : I82093 where
  irqBase := base
  redtbl := Function.update (fun _ => ⟨0, 0⟩) (ioEntry 0)
    ⟨(id &&& 0xf) <<< 24, 0x13 ||| (maxRedirEntry &&& 0xff) <<< 16⟩

end I82093

def IsRegister (n : Word) : Prop := n ≤ 2 ∨ 0x10 ≤ n ∧ n < 144
instance (n : Word) : Decidable (IsRegister n) := inferInstanceAs (Decidable (_ ∨ _))

namespace RedirEntry

def storeId (value : Word) : RedirEntry :=
  { e with lo := (e.lo &&& ~~~ 0x0f000000) ||| (value &&& 0x0f000000) }

end RedirEntry
namespace Apics

def windowWrite (s : Apics) (self : ℕ) (addr regsel value : Word) : Apics :=
  if regsel = 0 then
    s.setEntry addr (ioEntry 0) (((s.ioapic addr).redtbl (ioEntry 0)).storeId value)
  -- the case of the version and arbitration registers has no `break` before the table's
  else if (regsel = 1 ∨ regsel = 2) ∨ 0x10 ≤ regsel ∧ regsel ≤ 0x3f then
    s.redtblWriteAt self addr (ioEntry regsel) (decide (regsel &&& 1 = 0)) value
  else s

end Apics

structure Window where
  regsel : Word
  regwin : Word

structure Ioapics where
  apics : Apics
  window : Word → Window

namespace Ioapics
variable (s : Ioapics)

def start (nrVcpus : ℕ) : Ioapics where
  apics :=
    { boot nrVcpus 0 with ioapic := fun _ => I82093.init (BitVec.ofNat 32 nrVcpus + 1) 0 23 }
  window _ := ⟨0, 0⟩

def select (addr value : Word) : Ioapics :=
  let w : Window :=
    { regsel := value
      regwin := if value < 144 then (s.apics.ioapic addr).raw value
        else (s.window addr).regwin }
  { s with window := Function.update s.window addr w }

def write (self : ℕ) (addr value reg : Word) : Ioapics :=
  if reg = 0 then s.select addr value
  else if reg = 0x10 then
    { s with apics := s.apics.windowWrite self addr (s.window addr).regsel value }
  else s

def ioapicReadPatch (addr : Word) : Word := (s.window addr).regwin

def selected (addr : Word) : Word :=
  (s.apics.ioapic addr).raw (s.window addr).regsel

end Ioapics
namespace RedirEntry

def written (lower : Bool) (value : Word) : RedirEntry :=
  let e' := e.stored lower value
  if e.Raised lower value ∧ 15 < e'.vec ∧ e'.trg = true then
    { e' with lo := insert e'.lo (levelBit e') }
  else e'

variable {e} {lower : Bool} {value : Word}

theorem written_of_not_raised (h : ¬ e.Raised lower value) :
    e.written lower value = e.stored lower value := if_neg fun hr => h hr.1

theorem pnd_written (h : e.Raised lower value) : (e.written lower value).pnd = false := by
  obtain rfl : lower = true := h.2.1
  have hunmasked : (e.store true value).msk = false := (msk_storeLo e value).trans h.1.1
  rw [written, stored_of_raised h]
  split_ifs
  · have hbit : levelBit (e.store true value).saveDest.clearPnd = 14 := by
      rw [levelBit, msk_clearPnd, msk_saveDest, hunmasked]
      rfl
    rw [hbit, pnd, getLsbD_insert]
    exact Bool.or_eq_false_iff.2 ⟨pnd_clearPnd _, by decide⟩
  · exact pnd_clearPnd _

end RedirEntry
namespace Apics
variable (s : Apics)

theorem ioapic_redtblWriteAt (self : ℕ) (addr : Word) {k : ℕ} (hk : k < 2 ^ 32) (lower : Bool)
    (value : Word) :
    (s.redtblWriteAt self addr k lower value).ioapic =
      (s.setEntry addr k (((s.ioapic addr).redtbl k).written lower value)).ioapic := by
  obtain ⟨hioapic, -, -, hraise⟩ := redtblStoreAt_spec s addr k lower value
  generalize he : (s.ioapic addr).redtbl k = e at *
  rw [redtblWriteAt, written]
  by_cases hr : e.Raised lower value
  · have hentry : ((s.redtblStoreAt addr k lower value).1.ioapic addr).entry
        ((s.ioapic addr).hwirqOf k) = k := by
      rw [hioapic, entry_hwirqOf _ hk, hwirqOf_setEntry]
    have hredir : (s.redtblStoreAt addr k lower value).1.redir addr ((s.ioapic addr).hwirqOf k) =
        e.stored lower value := by
      rw [redir_eq_redtbl, hentry, hioapic, redtbl_setEntry_self]
    rw [if_pos (hraise.2 hr), ioapic_ioapicRaiseIrq, hredir, hentry]
    by_cases hlevel : 15 < (e.stored lower value).vec ∧ (e.stored lower value).trg = true
    · rw [if_pos hlevel, if_pos ⟨hr, hlevel⟩]
      exact ioapic_setEntry_setEntry hioapic _
    · rw [if_neg hlevel, if_neg fun h => hlevel h.2, hioapic]
  · rw [if_neg fun h => hr (hraise.1 h), if_neg fun h => hr h.1, hioapic]

end Apics
namespace RedirEntry
variable {e' : RedirEntry}

theorem eq_of_halves {e : RedirEntry} (hlo : e'.lo = e.lo) (hhi : e'.hi = e.hi) : e' = e := by
  cases e
  cases e'
  obtain rfl : _ = _ := hlo
  obtain rfl : _ = _ := hhi
  rfl

structure SameOff (m e e' : RedirEntry) : Prop where
  lo : e'.lo &&& ~~~ m.lo = e.lo &&& ~~~ m.lo
  hi : e'.hi &&& ~~~ m.hi = e.hi &&& ~~~ m.hi

instance (m e e' : RedirEntry) : Decidable (SameOff m e e') :=
  decidable_of_iff (_ ∧ _) ⟨fun h => ⟨h.1, h.2⟩, fun h => ⟨h.lo, h.hi⟩⟩

def guestBits : RedirEntry where
  lo := 0x1afff
  hi := if e.dstm then 0xff000000 else 0x0f000000

variable {m : RedirEntry} {e} {e₁ : RedirEntry} {lower : Bool} {value : Word}

theorem SameOff.rfl : SameOff m e e := ⟨Eq.refl _, Eq.refl _⟩

theorem sameOff_zero : SameOff ⟨0#32, 0#32⟩ e e' ↔ e' = e := by
  constructor
  · rintro ⟨hlo, hhi⟩
    rw [not_zero, and_allOnes, and_allOnes] at hlo hhi
    exact eq_of_halves hlo hhi
  · rintro rfl
    exact SameOff.rfl

theorem sameOff_storeId : SameOff ⟨0x0f000000, 0⟩ e (e.storeId value) where
  lo := ((merge_eq_iff 0x0f000000 e.lo value _).1 (Eq.refl _)).1.symm
  hi := Eq.refl _

theorem sameOff_store : SameOff e.guestBits e (e.store lower value) := by
  cases lower with
  | true =>
    have hlo := (merge_eq_iff 0x1afff e.lo value _).1 (Eq.refl _)
    exact ⟨hlo.1.symm, Eq.refl _⟩
  | false =>
    have hhi := (merge_eq_iff e.guestBits.hi e.hi value _).1 (Eq.refl _)
    exact ⟨Eq.refl _, hhi.1.symm⟩

theorem getLsbD_hi_saveDest {i : ℕ} (hi : 24 ≤ i) : e.saveDest.hi.getLsbD i = e.hi.getLsbD i := by
  obtain ⟨j, rfl⟩ := Nat.exists_eq_add_of_le hi
  have hshift := congrArg (fun x : Word => x.getLsbD j) (hi_shift_saveDest e)
  simpa only [getLsbD_ushiftRight] using hshift

structure Guests (m : RedirEntry) : Prop where
  pnd : m.lo.getLsbD 17 = false
  oldDstm : m.lo.getLsbD 18 = false
  oldDest : ∀ i < 24, m.hi.getLsbD i = false

theorem guests_zero : Guests ⟨0#32, 0#32⟩ where
  pnd := by decide
  oldDstm := by decide
  oldDest := by decide

theorem guests_guestBits : Guests e.guestBits where
  pnd := show (0x1afff : Word).getLsbD 17 = false by decide
  oldDstm := show (0x1afff : Word).getLsbD 18 = false by decide
  oldDest := by
    unfold guestBits
    cases e.dstm <;> decide

theorem SameOff.getLsbD_lo (h : SameOff m e e') {i : ℕ} (hi : m.lo.getLsbD i = false) :
    e'.lo.getLsbD i = e.lo.getLsbD i :=
  and_not_eq_iff.1 h.lo i hi

theorem SameOff.getLsbD_hi (h : SameOff m e e') {i : ℕ} (hi : m.hi.getLsbD i = false) :
    e'.hi.getLsbD i = e.hi.getLsbD i :=
  and_not_eq_iff.1 h.hi i hi

theorem sameOff_saveDest_iff {g : RedirEntry} (hm : Guests m) (hg : Guests g)
    (hstore : SameOff g e e₁) :
    SameOff m e e₁.saveDest ↔ SameOff m e e₁ ∧ e₁.saveDest = e₁ := by
  constructor
  · intro h
    have hsave : e₁.saveDest = e₁ := by
      apply eq_of_halves
      · apply eq_of_getLsbD_eq
        intro i _
        by_cases hi : i = 18
        · subst hi
          rw [h.getLsbD_lo hm.oldDstm, hstore.getLsbD_lo hg.oldDstm]
        · exact getLsbD_lo_saveDest e₁ hi
      · apply eq_of_getLsbD_eq
        intro i _
        rcases Nat.lt_or_ge i 24 with hi | hi
        · rw [h.getLsbD_hi (hm.oldDest i hi), hstore.getLsbD_hi (hg.oldDest i hi)]
        · exact getLsbD_hi_saveDest hi
    exact ⟨hsave ▸ h, hsave⟩
  · simp_all

theorem sameOff_written_iff (hm : Guests m) :
    SameOff m e (e.written lower value) ↔
      SameOff m e (e.store lower value) ∧ (e.Enabled lower value →
        (e.store lower value).saveDest = e.store lower value ∧ ¬ e.Raised lower value) := by
  by_cases hr : e.Raised lower value
  · -- the pending mark is gone
    refine iff_of_false (fun h => ?_) fun h => (h.2 hr.1).2 hr
    have hpnd : (e.written lower value).pnd = e.pnd := h.getLsbD_lo hm.pnd
    rw [pnd_written hr, hr.2.2] at hpnd
    exact Bool.false_ne_true hpnd
  · rw [written_of_not_raised hr]
    by_cases hen : e.Enabled lower value
    · rw [stored_of_enabled hr hen, sameOff_saveDest_iff hm guests_guestBits sameOff_store]
      exact and_congr_right fun _ => ⟨fun h _ => ⟨h, hr⟩, fun h => (h hen).1⟩
    · simp_all [stored_of_not_enabled]

end RedirEntry
namespace Ioapics
variable (s : Ioapics)

def IsSelected (regsel : Word) (k : ℕ) : Prop :=
  (0x10 ≤ regsel ∧ regsel ≤ 0x3f) ∧ k = ioEntry regsel

def idBits (regsel : Word) (k : ℕ) : RedirEntry :=
  if regsel = 0 ∧ k = ioEntry 0 then ⟨0x0f000000, 0⟩ else ⟨0#32, 0#32⟩

structure Framed (addr : Word) (s t : Ioapics) : Prop where
  others : ∀ a, a ≠ addr → t.apics.ioapic a = s.apics.ioapic a
  irqBase : (t.apics.ioapic addr).irqBase = (s.apics.ioapic addr).irqBase
  unselected : ∀ k, ¬ IsSelected (s.window addr).regsel k →
    RedirEntry.SameOff (idBits (s.window addr).regsel k) ((s.apics.ioapic addr).redtbl k)
      ((t.apics.ioapic addr).redtbl k)
  window : t.window = s.window

structure Confined (addr : Word) (s t : Ioapics) : Prop extends Framed addr s t where
  entry : ∀ k, IsSelected (s.window addr).regsel k →
    RedirEntry.SameOff ((s.apics.ioapic addr).redtbl k).guestBits
      ((s.apics.ioapic addr).redtbl k) ((t.apics.ioapic addr).redtbl k)
  hwirq : t.apics.hwirq = s.apics.hwirq
  rest : Apics.SameRest s.apics t.apics

def windowEntry (addr : Word) : RedirEntry :=
  (s.apics.ioapic addr).redtbl (ioEntry (s.window addr).regsel)

def windowLower (addr : Word) : Bool := decide ((s.window addr).regsel &&& 1 = 0)

structure Quiet (addr value : Word) : Prop where
  readOnly : (s.window addr).regsel = 1 ∨ (s.window addr).regsel = 2 →
    (s.windowEntry addr).store (s.windowLower addr) value = s.windowEntry addr
  enabled : ((s.window addr).regsel = 1 ∨ (s.window addr).regsel = 2) ∨
      0x10 ≤ (s.window addr).regsel ∧ (s.window addr).regsel ≤ 0x3f →
    (s.windowEntry addr).Enabled (s.windowLower addr) value →
    s.apics.hwirq.testHwirqLatch
        ((s.apics.ioapic addr).hwirqOf (ioEntry (s.window addr).regsel)).toNat = true ∧
      ((s.windowEntry addr).store (s.windowLower addr) value).saveDest =
        (s.windowEntry addr).store (s.windowLower addr) value ∧
      ¬ (s.windowEntry addr).Raised (s.windowLower addr) value

theorem Confined.refl (addr : Word) (s : Ioapics) : Confined addr s s where
  others _ _ := rfl
  irqBase := rfl
  unselected _ _ := RedirEntry.SameOff.rfl
  window := rfl
  entry _ _ := RedirEntry.SameOff.rfl
  hwirq := rfl
  rest := Apics.SameRest.refl _

section Entry
variable {s} {t : Ioapics} {addr : Word} {e' : RedirEntry}

section
variable (ht : t.apics.ioapic = (s.apics.setEntry addr (ioEntry (s.window addr).regsel) e').ioapic)
include ht

theorem redtbl_of_ne {k : ℕ} (hk : k ≠ ioEntry (s.window addr).regsel) :
    (t.apics.ioapic addr).redtbl k = (s.apics.ioapic addr).redtbl k := by
  rw [ht, redtbl_setEntry, if_neg fun h => hk h.2]

theorem others_of_entry {a : Word} (ha : a ≠ addr) : t.apics.ioapic a = s.apics.ioapic a := by
  rw [ht, setEntry, setIoapic_ioapic_of_ne _ _ ha]

end

theorem framed_of_entry (hw : t.window = s.window) (ht : t.apics.ioapic =
      (s.apics.setEntry addr (ioEntry (s.window addr).regsel) e').ioapic)
    (hown : ¬ IsSelected (s.window addr).regsel (ioEntry (s.window addr).regsel) →
      RedirEntry.SameOff (idBits (s.window addr).regsel (ioEntry (s.window addr).regsel))
        (s.windowEntry addr) e') : Framed addr s t where
  others a ha := others_of_entry ht ha
  irqBase := by rw [ht, irqBase_setEntry]
  unselected k hk := by
    by_cases hkn : k = ioEntry (s.window addr).regsel
    · subst hkn
      rw [ht, redtbl_setEntry_self]
      exact hown hk
    · rw [redtbl_of_ne ht hkn]
      exact RedirEntry.SameOff.rfl
  window := hw

def changeable (s : Ioapics) (addr : Word) : RedirEntry :=
  if 0x10 ≤ (s.window addr).regsel ∧ (s.window addr).regsel ≤ 0x3f then
    (s.windowEntry addr).guestBits
  else ⟨0#32, 0#32⟩

theorem guests_changeable : RedirEntry.Guests (s.changeable addr) := by
  unfold changeable
  split_ifs
  · exact guests_guestBits
  · exact guests_zero

theorem confined_iff_entry (hid : (s.window addr).regsel ≠ 0) (hw : t.window = s.window)
    (ht : t.apics.ioapic =
      (s.apics.setEntry addr (ioEntry (s.window addr).regsel) e').ioapic) :
    Confined addr s t ↔ RedirEntry.SameOff (s.changeable addr) (s.windowEntry addr) e' ∧
      t.apics.hwirq = s.apics.hwirq ∧ Apics.SameRest s.apics t.apics := by
  have hread : (t.apics.ioapic addr).redtbl (ioEntry (s.window addr).regsel) = e' := by
    rw [ht, redtbl_setEntry_self]
  have hzero : idBits (s.window addr).regsel (ioEntry (s.window addr).regsel) = ⟨0#32, 0#32⟩ :=
    if_neg fun h => hid h.1
  by_cases htable : 0x10 ≤ (s.window addr).regsel ∧ (s.window addr).regsel ≤ 0x3f
  · rw [changeable, if_pos htable]
    constructor
    · intro h
      refine ⟨?_, h.hwirq, h.rest⟩
      have hentry := h.entry _ ⟨htable, rfl⟩
      rwa [hread] at hentry
    · rintro ⟨hentry, hhwirq, hrest⟩
      refine ⟨framed_of_entry hw ht fun h => absurd ⟨htable, rfl⟩ h, ?_, hhwirq, hrest⟩
      rintro k ⟨-, rfl⟩
      rwa [hread]
  · have hnone : ∀ k, ¬ IsSelected (s.window addr).regsel k := fun k h => htable h.1
    rw [changeable, if_neg htable]
    constructor
    · intro h
      refine ⟨?_, h.hwirq, h.rest⟩
      have hentry := h.unselected (ioEntry (s.window addr).regsel) (hnone _)
      rwa [hread, hzero] at hentry
    · rintro ⟨hentry, hhwirq, hrest⟩
      refine ⟨framed_of_entry hw ht fun _ => ?_, fun k hk => absurd hk (hnone k), hhwirq, hrest⟩
      rwa [hzero]

end Entry

theorem setHwirqLatch_eq_iff (h : Hwirq) (n : ℕ) :
    h.setHwirqLatch n = h ↔ h.testHwirqLatch n = true := by
  constructor
  · intro heq
    have hbit : (h.setHwirqLatch n).testHwirqLatch n = (h.testHwirqLatch n || decide (n = n)) :=
      Bits.Str.bt_bts h.words (by decide) n n
    rw [heq, decide_eq_true rfl, Bool.or_true] at hbit
    exact hbit
  · intro hbit
    exact congrArg Hwirq.mk (Bits.Str.bts_of_bt hbit)

end Ioapics
namespace Apics

theorem redtblWriteAt_of_not_raised (s : Apics) (self : ℕ) (addr : Word) {k : ℕ} {lower : Bool}
    {value : Word} (hr : ¬ ((s.ioapic addr).redtbl k).Raised lower value) :
    (s.redtblWriteAt self addr k lower value).hwirq =
        (if ((s.ioapic addr).redtbl k).Enabled lower value then
          s.hwirq.setHwirqLatch ((s.ioapic addr).hwirqOf k).toNat else s.hwirq) ∧
      SameRest s (s.redtblWriteAt self addr k lower value) := by
  obtain ⟨-, hhwirq, hrest, hraise⟩ := redtblStoreAt_spec s addr k lower value
  have hwrite : s.redtblWriteAt self addr k lower value =
      (s.redtblStoreAt addr k lower value).1 := if_neg fun h => hr (hraise.1 h)
  rw [hwrite]
  exact ⟨hhwirq, hrest⟩

end Apics
namespace Ioapics
variable (s : Ioapics) (self : ℕ) (addr value : Word)

theorem write_window : s.write self addr value 0x10 =
    { s with apics := s.apics.windowWrite self addr (s.window addr).regsel value } := rfl

section Table

variable {s addr} (hn : ((s.window addr).regsel = 1 ∨ (s.window addr).regsel = 2) ∨
  0x10 ≤ (s.window addr).regsel ∧ (s.window addr).regsel ≤ 0x3f)

include hn

theorem regsel_ne_zero : (s.window addr).regsel ≠ 0 := by
  intro h
  rw [h] at hn
  revert hn
  decide

theorem windowWrite_table :
    s.apics.windowWrite self addr (s.window addr).regsel value =
      s.apics.redtblWriteAt self addr (ioEntry (s.window addr).regsel) (s.windowLower addr)
        value := by
  rw [windowWrite, if_neg (regsel_ne_zero hn), if_pos hn]
  rfl

theorem ioapic_write_table :
    (s.write self addr value 0x10).apics.ioapic =
      (s.apics.setEntry addr (ioEntry (s.window addr).regsel)
        ((s.windowEntry addr).written (s.windowLower addr) value)).ioapic := by
  rw [write_window, windowWrite_table self value hn]
  exact ioapic_redtblWriteAt s.apics self addr (ioEntry_lt _) _ _

theorem sameOff_changeable_store :
    RedirEntry.SameOff (s.changeable addr) (s.windowEntry addr)
        ((s.windowEntry addr).store (s.windowLower addr) value) ↔
      ((s.window addr).regsel = 1 ∨ (s.window addr).regsel = 2 →
        (s.windowEntry addr).store (s.windowLower addr) value = s.windowEntry addr) := by
  by_cases htable : 0x10 ≤ (s.window addr).regsel ∧ (s.window addr).regsel ≤ 0x3f
  · have hnot : ¬ ((s.window addr).regsel = 1 ∨ (s.window addr).regsel = 2) := by
      rintro (h | h) <;> rw [h] at htable <;> revert htable <;> decide
    rw [changeable, if_pos htable]
    exact iff_of_true sameOff_store fun h => absurd h hnot
  · rw [changeable, if_neg htable, sameOff_zero]
    exact (imp_iff_right (hn.resolve_right htable)).symm

theorem confined_table_iff :
    Confined addr s (s.write self addr value 0x10) ↔ Quiet s addr value := by
  have hwindow : (s.write self addr value 0x10).window = s.window := rfl
  rw [confined_iff_entry (regsel_ne_zero hn) hwindow (ioapic_write_table self value hn),
    sameOff_written_iff guests_changeable, sameOff_changeable_store value hn,
    write_window, windowWrite_table self value hn]
  constructor
  · rintro ⟨⟨hreadOnly, henabled⟩, hhwirq, -⟩
    refine ⟨hreadOnly, fun _ hen => ⟨?_, henabled hen⟩⟩
    have hset := (redtblWriteAt_of_not_raised s.apics self addr (henabled hen).2).1
    exact (setHwirqLatch_eq_iff _ _).1 ((hhwirq.symm.trans hset).trans (if_pos hen)).symm
  · intro hq
    have hr : ¬ (s.windowEntry addr).Raised (s.windowLower addr) value :=
      fun h => (hq.enabled hn h.1).2.2 h
    obtain ⟨hhwirq, hrest⟩ := redtblWriteAt_of_not_raised s.apics self addr hr
    refine ⟨⟨hq.readOnly, fun hen => (hq.enabled hn hen).2⟩, hhwirq.trans ?_, hrest⟩
    split_ifs with hen
    · exact (setHwirqLatch_eq_iff _ _).2 (hq.enabled hn hen).1
    · rfl

end Table

theorem confined_id (hid : (s.window addr).regsel = 0) :
    Confined addr s (s.write self addr value 0x10) := by
  have ht : (s.write self addr value 0x10).apics = s.apics.setEntry addr
      (ioEntry (s.window addr).regsel) ((s.windowEntry addr).storeId value) := by
    rw [write_window, windowWrite, if_pos hid, windowEntry, hid]
  have hbits : idBits (s.window addr).regsel (ioEntry (s.window addr).regsel) =
      ⟨0x0f000000, 0⟩ := by
    rw [idBits, hid, if_pos ⟨rfl, rfl⟩]
  refine ⟨framed_of_entry rfl (congrArg ioapic ht) fun _ => ?_, ?_, ?_, ?_⟩
  · rw [hbits]
    exact sameOff_storeId
  · rintro k ⟨hsel, -⟩
    rw [hid] at hsel
    exact absurd hsel (by decide)
  · rw [ht]
    rfl
  · rw [ht]
    exact ⟨rfl, rfl, rfl, rfl, rfl⟩

/-- **A write to the window is confined exactly when it is quiet.** Unless version or arbitration is
selected it stays within the IO-APIC and the selected entry. -/
theorem confined_iff_quiet :
    (Confined addr s (s.write self addr value 0x10) ↔ Quiet s addr value) ∧
      (¬ ((s.window addr).regsel = 1 ∨ (s.window addr).regsel = 2) →
        Framed addr s (s.write self addr value 0x10)) := by
  by_cases hn : ((s.window addr).regsel = 1 ∨ (s.window addr).regsel = 2) ∨
      0x10 ≤ (s.window addr).regsel ∧ (s.window addr).regsel ≤ 0x3f
  · refine ⟨confined_table_iff self value hn, fun hnot => ?_⟩
    exact framed_of_entry rfl (ioapic_write_table self value hn)
      fun h => absurd ⟨hn.resolve_left hnot, rfl⟩ h
  · have hquiet : Quiet s addr value :=
      ⟨fun h => absurd (Or.inl h) hn, fun h => absurd h hn⟩
    have hconf : Confined addr s (s.write self addr value 0x10) := by
      by_cases hid : (s.window addr).regsel = 0
      · exact confined_id s self addr value hid
      · have hsame : s.write self addr value 0x10 = s := by
          rw [write_window, windowWrite, if_neg hid, if_neg hn]
        rw [hsame]
        exact Confined.refl addr s
    exact ⟨iff_of_true hconf hquiet, fun _ => hconf.toFramed⟩

def arbSelected : Ioapics := (start 1).write 0 0 2 0

theorem not_confined_arb :
    (arbSelected.apics.ioapic 0).raw 2 = 0 ∧
      ((arbSelected.write 0 0 0x30 0x10).apics.ioapic 0).raw 2 = 0x30 ∧
      ¬ Confined 0 arbSelected (arbSelected.write 0 0 0x30 0x10) := by
  have hunselected : ¬ IsSelected (arbSelected.window 0).regsel (ioEntry 2) := fun h => by
    revert h
    unfold IsSelected
    decide
  refine ⟨by decide, by decide, fun h => ?_⟩
  exact absurd (h.unselected (ioEntry 2) hunselected) (by decide)

end Ioapics
end Wedge
