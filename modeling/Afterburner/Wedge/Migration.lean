import Afterburner.Wedge.Redirection

/-!
# Migration of device interrupts between VCPUs

The IO-APIC enables a device interrupt on the lowest VCPU of its destination and moves it when that
changes.
-/

namespace Wedge
open List BitVec RedirEntry BackendCall RedtblReg Runs

def enables (irq vcpu : ℕ) (b : Bool) : BackendCall → Bool
  | .enableOn i v => if i = irq ∧ v = vcpu then true else b
  | .disableOn i v => if i = irq ∧ v = vcpu then false else b
  | _ => b

def enabledOn (calls : List BackendCall) (irq vcpu : ℕ) : Bool :=
  calls.foldl (enables irq vcpu) false

theorem enabledOn_append (calls new : List BackendCall) (irq vcpu : ℕ) :
    enabledOn (calls ++ new) irq vcpu =
      new.foldl (enables irq vcpu) (enabledOn calls irq vcpu) := foldl_append ..

def switchCalls (irq : ℕ) (latched : Bool) (old new : Option ℕ) : List BackendCall :=
  if latched then
    if old = new then []
    else (old.map (disableOn irq)).toList ++ (new.map (enableOn irq)).toList
  else (new.map (enableOn irq)).toList

theorem enabledOn_switchCalls (calls : List BackendCall) (i : ℕ) (latched : Bool)
    (old new : Option ℕ) (irq vcpu : ℕ) :
    enabledOn (calls ++ switchCalls i latched old new) irq vcpu =
      if i ≠ irq ∨ latched = true ∧ old = new then enabledOn calls irq vcpu
      else if new = some vcpu then true
      else if latched = true ∧ old = some vcpu then false
      else enabledOn calls irq vcpu := by
  rw [enabledOn_append, switchCalls]
  cases old <;> cases new <;> grind [enables]

namespace Apics

structure RedtblWrite where
  self : ℕ
  addr : Word
  r : RedtblReg
  value : Word

namespace RedtblWrite

def stores (w : RedtblWrite) (e : RedirEntry) : RedirEntry :=
  if w.r.1 % 2 = 0 then e.storeLo w.value else e.storeHi w.value

def Hits (w : RedtblWrite) (a : Word) (k : ℕ) : Prop := w.addr = a ∧ w.r.entry = k

instance (w : RedtblWrite) (a : Word) (k : ℕ) : Decidable (w.Hits a k) :=
  inferInstanceAs (Decidable (_ ∧ _))

end RedtblWrite

def writeRedtbl (s : Apics) (w : RedtblWrite) : Apics := s.redtblWrite w.self w.addr w.r w.value
def entryAt (s : Apics) (a : Word) (k : ℕ) : RedirEntry := (s.ioapic a).redtbl k
def irqAt (s : Apics) (a : Word) (k : ℕ) : ℕ := ((s.ioapic a).hwirqOf k).toNat

structure Wrote (s : Apics) (w : RedtblWrite) (t : Apics) : Prop where
  entryAt_eq : ∀ a k, t.entryAt a k = if w.Hits a k then
    if s.Enables w.addr w.r w.value then (w.stores (s.entryAt a k)).saveDest
    else w.stores (s.entryAt a k) else s.entryAt a k
  irqAt_eq : ∀ a k, t.irqAt a k = s.irqAt a k
  latch : ∀ i, t.hwirq.testHwirqLatch i = (s.hwirq.testHwirqLatch i ||
    (decide (s.Enables w.addr w.r w.value) && decide (s.irqAt w.addr w.r.entry = i)))
  calls : t.calls = s.calls ++ if s.Enables w.addr w.r w.value then
    switchCalls (s.irqAt w.addr w.r.entry)
      (s.hwirq.testHwirqLatch (s.irqAt w.addr w.r.entry))
      (destId (s.redirOldDestMask (w.stores (s.entryAt w.addr w.r.entry))))
      (destId (s.redirDestMask (w.stores (s.entryAt w.addr w.r.entry)))) else []
  lapic : t.lapic = s.lapic
  nrVcpus : t.nrVcpus = s.nrVcpus

variable (s : Apics)

theorem calls_callOn (b : ℕ → BackendCall) (d : Option ℕ) :
    (s.callOn b d).calls = s.calls ++ (d.map b).toList := by
  cases d <;> simp [callOn, call]

theorem calls_enableRedirEntryHwirq (addr : Word) (k : ℕ) :
    (s.enableRedirEntryHwirq addr k).calls = s.calls ++
      switchCalls (s.irqAt addr k) (s.hwirq.testHwirqLatch (s.irqAt addr k))
        (destId (s.redirOldDestMask (s.entryAt addr k)))
        (destId (s.redirDestMask (s.entryAt addr k))) := by
  unfold enableRedirEntryHwirq switchCalls irqAt entryAt
  dsimp only
  split_ifs <;> simp [setEntry, setIoapic, setHwirq, calls_callOn]

theorem testHwirqLatch_setHwirqLatch (h : Hwirq) (n i : ℕ) :
    (h.setHwirqLatch n).testHwirqLatch i = (h.testHwirqLatch i || decide (n = i)) :=
  Bits.Str.bt_bts h.words (by decide) n i

theorem redirOldDestMask_congr {s t : Apics} (hl : t.lapic = s.lapic) (hn : t.nrVcpus = s.nrVcpus)
    (e : RedirEntry) : t.redirOldDestMask e = s.redirOldDestMask e := by
  simp only [redirOldDestMask, logicalMask, hl, hn]

theorem entryAt_setEntry (addr a : Word) (j k : ℕ) (e : RedirEntry) :
    (s.setEntry addr j e).entryAt a k = if a = addr ∧ k = j then e else s.entryAt a k :=
  redtbl_setEntry ..

theorem irqAt_setEntry (addr a : Word) (j k : ℕ) (e : RedirEntry) :
    (s.setEntry addr j e).irqAt a k = s.irqAt a k := by
  rw [irqAt, irqAt, I82093.hwirqOf, I82093.hwirqOf, irqBase_setEntry]

theorem irqAt_congr {s t : Apics} (h : t.ioapic = s.ioapic) (a : Word) (k : ℕ) :
    t.irqAt a k = s.irqAt a k := by rw [irqAt, irqAt, h]

theorem entryAt_congr {s t : Apics} (h : t.ioapic = s.ioapic) (a : Word) (k : ℕ) :
    t.entryAt a k = s.entryAt a k := by rw [entryAt, entryAt, h]

theorem writeRedtbl_eq (w : RedtblWrite) (hpnd : (s.entryAt w.addr w.r.entry).pnd = false) :
    s.writeRedtbl w =
      let t := s.setEntry w.addr w.r.entry (w.stores (s.entryAt w.addr w.r.entry))
      if s.Enables w.addr w.r w.value then t.enableRedirEntryHwirq w.addr w.r.entry else t := by
  have hread : ∀ e : RedirEntry,
      ((s.setEntry w.addr w.r.entry e).enableRedirEntryHwirq w.addr w.r.entry).entryAt w.addr
        w.r.entry = e.saveDest := by
    intro e
    rw [entryAt_congr (enableRedirEntryHwirq_fields _ w.addr w.r.entry).2.1, entryAt_setEntry,
      if_pos ⟨rfl, rfl⟩]
    change ((s.setEntry w.addr w.r.entry e).entryAt w.addr w.r.entry).saveDest = _
    rw [entryAt_setEntry, if_pos ⟨rfl, rfl⟩]
  obtain ⟨_, _, _, _, _, _, _, hraised⟩ := redtblStore_spec s w.addr w.r w.value
  have hquiet : (s.redtblStore w.addr w.r w.value).2 = false :=
    Bool.eq_false_iff.2 fun h => Bool.false_ne_true (hpnd.symm.trans (hraised.1 h).2.2)
  rw [writeRedtbl, redtblWrite_eq, hquiet, if_neg Bool.false_ne_true, redtblStore, redtblStoreAt]
  unfold entryAt at hread hpnd ⊢
  unfold RedtblWrite.stores Enables Enabled RedtblReg.lower
  split_ifs <;> simp_all [pnd_saveDest, pnd_storeLo]

theorem wrote_writeRedtbl (w : RedtblWrite) (hpnd : (s.entryAt w.addr w.r.entry).pnd = false) :
    Wrote s w (s.writeRedtbl w) := by
  rw [writeRedtbl_eq s w hpnd]
  generalize hu : w.stores (s.entryAt w.addr w.r.entry) = e
  have hat : (s.setEntry w.addr w.r.entry e).entryAt w.addr w.r.entry = e := by
    rw [entryAt_setEntry, if_pos ⟨rfl, rfl⟩]
  obtain ⟨hhw, hio, hrest⟩ :=
    enableRedirEntryHwirq_fields (s.setEntry w.addr w.r.entry e) w.addr w.r.entry
  have hcalls := calls_enableRedirEntryHwirq (s.setEntry w.addr w.r.entry e) w.addr w.r.entry
  rw [hat, irqAt_setEntry] at hcalls
  change _ = Hwirq.setHwirqLatch _ ((s.setEntry w.addr w.r.entry e).irqAt w.addr w.r.entry) at hhw
  rw [irqAt_setEntry] at hhw
  change _ = (Apics.setEntry _ _ _ ((s.setEntry w.addr w.r.entry e).entryAt _ _).saveDest).ioapic
    at hio
  rw [hat] at hio
  by_cases hen : s.Enables w.addr w.r w.value
  · rw [if_pos hen]
    refine ⟨fun a k => ?_, fun a k => ?_, fun i => ?_, ?_, hrest.lapic, hrest.nrVcpus⟩
    · rw [entryAt_congr hio, entryAt_setEntry, entryAt_setEntry]
      grind [RedtblWrite.Hits]
    · rw [irqAt_congr hio, irqAt_setEntry, irqAt_setEntry]
    · rw [hhw, testHwirqLatch_setHwirqLatch]
      simp only [hen, decide_true, Bool.true_and]
      rfl
    · rw [hcalls, if_pos hen, hu]
      rfl
  · rw [if_neg hen]
    refine ⟨fun a k => ?_, fun a k => irqAt_setEntry .., fun i => ?_, ?_, rfl, rfl⟩
    · rw [entryAt_setEntry]
      grind [RedtblWrite.Hits]
    · simp only [hen, decide_false, Bool.false_and, Bool.or_false]
      rfl
    · rw [if_neg hen, append_nil]
      rfl

variable (w : RedtblWrite)

theorem oldDstm_stores (e : RedirEntry) : (w.stores e).oldDstm = e.oldDstm := by
  unfold RedtblWrite.stores
  split_ifs
  · simp [oldDstm, storeLo]
  · rfl

theorem hi_shift_storeHi (e : RedirEntry) (value : Word) {i : ℕ} (hi : i < 8) :
    ((e.storeHi value).hi >>> 16).getLsbD i = (e.hi >>> 16).getLsbD i := by
  unfold storeHi
  split_ifs
  · interval_cases i <;> simp
  · interval_cases i <;> simp

theorem oldLdst_stores (e : RedirEntry) : (w.stores e).oldLdst = e.oldLdst := by
  unfold RedtblWrite.stores
  split_ifs
  · rfl
  · apply eq_of_getLsbD_eq
    intro i hi
    rw [oldLdst, oldLdst, getLsbD_setWidth, getLsbD_setWidth,
      hi_shift_storeHi e w.value hi]

theorem oldPdst_stores (e : RedirEntry) : (w.stores e).oldPdst = e.oldPdst := by
  unfold RedtblWrite.stores
  split_ifs
  · rfl
  · have h : (e.storeHi w.value).hi >>> 16 &&& (0xf : Word) = e.hi >>> 16 &&& 0xf := by
      apply eq_of_getLsbD_eq
      intro i hi
      rw [getLsbD_and, getLsbD_and]
      by_cases hlt : i < 8
      · rw [hi_shift_storeHi e w.value hlt]
      · have hzero : (0xf : Word).getLsbD i = false := by
          interval_cases i <;> rfl
        rw [hzero, Bool.and_false, Bool.and_false]
    rw [oldPdst, oldPdst, h]

theorem redirOldDestMask_stores (w : RedtblWrite) (e : RedirEntry) :
    s.redirOldDestMask (w.stores e) = s.redirOldDestMask e := by
  rw [redirOldDestMask, redirOldDestMask, oldDstm_stores, oldLdst_stores, oldPdst_stores]

theorem pnd_stores (e : RedirEntry) : (w.stores e).pnd = e.pnd := by
  grind [RedtblWrite.stores, pnd_storeLo, pnd_storeHi]

theorem redirDestMask_saveDest (e : RedirEntry) :
    s.redirDestMask e.saveDest = s.redirDestMask e := by
  rw [redirDestMask, redirDestMask, dstm_saveDest, ldst_saveDest,
    pdst_saveDest]

theorem redirOldDestMask_saveDest (e : RedirEntry) :
    s.redirOldDestMask e.saveDest = s.redirDestMask e := by
  have hdstm : e.saveDest.oldDstm = e.dstm := by
    rw [oldDstm, saveDest]
    split_ifs with hd
    · simp_all
    · simp_all
  rw [redirOldDestMask, redirDestMask, hdstm]
  cases hd : e.dstm with
  | true =>
    have hldst : e.saveDest.oldLdst = e.ldst := by
      apply eq_of_getLsbD_eq
      intro i hi
      simp only [oldLdst, ldst, saveDest, hd, if_true]
      interval_cases i <;> simp
    rw [if_pos rfl, if_pos rfl, hldst]
  | false =>
    have hpdst : e.saveDest.hi >>> 16 &&& (0xf : Word) = e.hi >>> 24 &&& 0xf := by
      apply eq_of_getLsbD_eq
      intro i hi
      simp only [saveDest, hd]
      interval_cases i <;> simp
    rw [if_neg Bool.false_ne_true, if_neg Bool.false_ne_true, oldPdst, pdst,
      hpdst]

theorem entry_lt_24 (r : RedtblReg) : r.entry < 24 := by
  unfold entry
  omega

def Separate (s : Apics) (used : Set Word) : Prop :=
  ∀ a ∈ used, ∀ b ∈ used, ∀ k < 24, ∀ l < 24, s.irqAt a k = s.irqAt b l → a = b ∧ k = l

structure Placed (used : Set Word) (s : Apics) : Prop where
  separate : s.Separate used
  pnd : ∀ a ∈ used, ∀ k < 24, (s.entryAt a k).pnd = false
  latched : ∀ i v, enabledOn s.calls i v = true → s.hwirq.testHwirqLatch i = true
  remembered : ∀ i v, enabledOn s.calls i v = true → ∃ a ∈ used, ∃ k < 24,
    i = s.irqAt a k ∧ destId (s.redirOldDestMask (s.entryAt a k)) = some v

def Moves (s : Apics) (w : RedtblWrite) : Prop :=
  s.Enables w.addr w.r w.value ∧ ¬ (s.hwirq.testHwirqLatch (s.irqAt w.addr w.r.entry) = true ∧
    destId (s.redirOldDestMask (s.entryAt w.addr w.r.entry)) =
      destId (s.redirDestMask (w.stores (s.entryAt w.addr w.r.entry))))

instance (s : Apics) (w : RedtblWrite) : Decidable (s.Moves w) :=
  inferInstanceAs (Decidable (_ ∧ ¬ (_ ∧ _)))

section Placed
variable {used : Set Word} {s : Apics}

theorem Placed.destId_eq (h : Placed used s) {a : Word} (ha : a ∈ used) {k v : ℕ} (hk : k < 24)
    (hon : enabledOn s.calls (s.irqAt a k) v = true) :
    destId (s.redirOldDestMask (s.entryAt a k)) = some v := by
  obtain ⟨b, hb, l, hl, hirq, hdest⟩ := h.remembered _ v hon
  obtain ⟨rfl, rfl⟩ := h.separate a ha b hb k hk l hl hirq
  exact hdest

theorem Placed.unique (h : Placed used s) {i v v' : ℕ} (hv : enabledOn s.calls i v = true)
    (hv' : enabledOn s.calls i v' = true) : v = v' := by
  obtain ⟨a, ha, k, hk, rfl, hdest⟩ := h.remembered i v hv
  exact Option.some.inj (hdest.symm.trans (h.destId_eq ha hk hv'))

variable {w : RedtblWrite}

theorem Placed.enabledOn_written (h : Placed used s) (hw : w.addr ∈ used) {t : Apics}
    (ht : Wrote s w t) (v : ℕ) :
    enabledOn t.calls (s.irqAt w.addr w.r.entry) v =
      if s.Moves w then
        decide (destId (s.redirDestMask (w.stores (s.entryAt w.addr w.r.entry))) = some v)
      else enabledOn s.calls (s.irqAt w.addr w.r.entry) v := by
  -- it was not on another VCPU than the remembered one
  have hold := fun hon => h.destId_eq hw (entry_lt_24 w.r) (v := v) hon
  have hlatched := h.latched (s.irqAt w.addr w.r.entry) v
  rw [ht.calls]
  split_ifs with hen hm hm
  · rw [enabledOn_switchCalls, redirOldDestMask_stores]
    grind [Moves]
  · rw [enabledOn_switchCalls, redirOldDestMask_stores]
    grind [Moves]
  · exact absurd hm.1 hen
  · rw [append_nil]

theorem enabledOn_of_ne {t : Apics} (ht : Wrote s w t) {i : ℕ} (hi : i ≠ s.irqAt w.addr w.r.entry)
    (v : ℕ) : enabledOn t.calls i v = enabledOn s.calls i v := by
  rw [ht.calls]
  split_ifs
  · rw [enabledOn_switchCalls, if_pos (.inl hi.symm)]
  · rw [append_nil]

theorem Placed.writeRedtbl (h : Placed used s) (hw : w.addr ∈ used) :
    Placed used (s.writeRedtbl w) := by
  have hk := entry_lt_24 w.r
  have ht := wrote_writeRedtbl s w (h.pnd w.addr hw _ hk)
  generalize s.writeRedtbl w = t at ht
  have hold : ∀ e, t.redirOldDestMask e = s.redirOldDestMask e :=
    redirOldDestMask_congr ht.lapic ht.nrVcpus
  refine ⟨?_, ?_, ?_, ?_⟩
  · intro a ha b hb k hk l hl hirq
    rw [ht.irqAt_eq, ht.irqAt_eq] at hirq
    exact h.separate a ha b hb k hk l hl hirq
  · intro a ha k hk
    rw [ht.entryAt_eq]
    split_ifs <;> simp only [pnd_saveDest, pnd_stores, h.pnd a ha k hk]
  · intro i v hon
    have hlatched := h.latched i v
    rw [ht.latch]
    by_cases hi : i = s.irqAt w.addr w.r.entry
    · grind [h.enabledOn_written hw ht, Moves]
    · grind [enabledOn_of_ne ht hi]
  · intro i v hon
    by_cases hi : i = s.irqAt w.addr w.r.entry
    · subst hi
      refine ⟨w.addr, hw, w.r.entry, hk, (ht.irqAt_eq _ _).symm, ?_⟩
      have hdest := fun hon => h.destId_eq hw hk (v := v) hon
      rw [h.enabledOn_written hw ht] at hon
      rw [ht.entryAt_eq, if_pos ⟨rfl, rfl⟩]
      grind [redirOldDestMask_saveDest, redirOldDestMask_stores, Moves]
    · rw [enabledOn_of_ne ht hi] at hon
      obtain ⟨a, ha, k, hk', rfl, hdest⟩ := h.remembered i v hon
      refine ⟨a, ha, k, hk', (ht.irqAt_eq _ _).symm, ?_⟩
      rw [ht.entryAt_eq, if_neg (by rintro ⟨rfl, rfl⟩; exact hi rfl), hold]
      exact hdest

def Settled (s : Apics) (a : Word) (k : ℕ) : Prop :=
  (s.entryAt a k).msk = false → s.redirDestMask (s.entryAt a k) ≠ 0 →
    ∀ v, enabledOn s.calls (s.irqAt a k) v = true ↔ v = Bits.lsb (s.redirDestMask (s.entryAt a k))

def WriteGuard (s : Apics) (w : RedtblWrite) : Prop :=
  let e := w.stores (s.entryAt w.addr w.r.entry)
  e.msk = true ∨ s.redirDestMask e = 0 ∨
    enabledOn s.calls (s.irqAt w.addr w.r.entry) (Bits.lsb (s.redirDestMask e)) = true ∨ s.Moves w

instance (s : Apics) (w : RedtblWrite) : Decidable (s.WriteGuard w) :=
  inferInstanceAs (Decidable (_ ∨ _ ∨ _ ∨ _))

/-- **The condition is exact: a write leaves its entry settled just when it meets it.** -/
theorem Placed.settled_writeRedtbl_iff (h : Placed used s) (hw : w.addr ∈ used) :
    (s.writeRedtbl w).Settled w.addr w.r.entry ↔ s.WriteGuard w := by
  have hk := entry_lt_24 w.r
  have ht := wrote_writeRedtbl s w (h.pnd w.addr hw _ hk)
  have hafter := h.writeRedtbl hw
  generalize s.writeRedtbl w = t at ht hafter
  have hmsk : (t.entryAt w.addr w.r.entry).msk =
      (w.stores (s.entryAt w.addr w.r.entry)).msk := by
    rw [ht.entryAt_eq, if_pos ⟨rfl, rfl⟩]
    split_ifs
    · exact msk_saveDest _
    · rfl
  have hdest : t.redirDestMask (t.entryAt w.addr w.r.entry) =
      s.redirDestMask (w.stores (s.entryAt w.addr w.r.entry)) := by
    rw [redirDestMask_congr ht.lapic ht.nrVcpus, ht.entryAt_eq, if_pos ⟨rfl, rfl⟩]
    split_ifs
    · exact redirDestMask_saveDest s _
    · rfl
  have hon := h.enabledOn_written hw ht
  have huniq : ∀ {v v'}, enabledOn t.calls (s.irqAt w.addr w.r.entry) v = true →
      enabledOn t.calls (s.irqAt w.addr w.r.entry) v' = true → v = v' := hafter.unique
  unfold Settled WriteGuard
  dsimp only
  rw [hmsk, hdest, ht.irqAt_eq]
  generalize s.redirDestMask (w.stores (s.entryAt w.addr w.r.entry)) = mask at hon ⊢
  cases hm : (w.stores (s.entryAt w.addr w.r.entry)).msk with
  | true => simp
  | false =>
    by_cases h0 : mask = 0
    · simp [h0]
    · have hd : destId mask = some (Bits.lsb mask) := if_neg h0
      constructor
      · intro hset
        grind
      · intro hguard v
        grind

theorem Placed.settled_writeRedtbl_of_ne (h : Placed used s) (hw : w.addr ∈ used) {a : Word}
    (ha : a ∈ used) {k : ℕ} (hk : k < 24) (hne : ¬ w.Hits a k) (hs : s.Settled a k) :
    (s.writeRedtbl w).Settled a k := by
  have hlt := entry_lt_24 w.r
  have ht := wrote_writeRedtbl s w (h.pnd w.addr hw _ hlt)
  have hirq : s.irqAt a k ≠ s.irqAt w.addr w.r.entry := by
    intro heq
    obtain ⟨rfl, rfl⟩ := h.separate a ha w.addr hw k hk _ hlt heq
    exact hne ⟨rfl, rfl⟩
  unfold Settled
  rw [ht.entryAt_eq, if_neg hne, redirDestMask_congr ht.lapic ht.nrVcpus, ht.irqAt_eq]
  intro hm h0 v
  rw [enabledOn_of_ne ht hirq]
  exact hs hm h0 v

end Placed

def Migrated (s : Apics) (ws : List RedtblWrite) : Prop :=
  (∀ i v v', enabledOn s.calls i v = true → enabledOn s.calls i v' = true → v = v') ∧
    ∀ w ∈ ws, s.Settled w.addr w.r.entry

theorem Placed.migrated_iff {used : Set Word} {s : Apics} (h : Placed used s)
    {ws : List RedtblWrite} (hws : ∀ w ∈ ws, w.addr ∈ used) {w : RedtblWrite} (hw : w.addr ∈ used)
    (hs : s.Migrated ws) : (s.writeRedtbl w).Migrated (ws ++ [w]) ↔ s.WriteGuard w := by
  rw [← h.settled_writeRedtbl_iff hw]
  constructor
  · intro hm
    exact hm.2 w (by simp)
  · intro hset
    refine ⟨fun i v v' => (h.writeRedtbl hw).unique, fun u hu => ?_⟩
    rcases mem_append.1 hu with hu | hu
    · by_cases hit : w.Hits u.addr u.r.entry
      · simp_all [hit.1, hit.2]
      · exact h.settled_writeRedtbl_of_ne hw (hws u hu) (entry_lt_24 u.r) hit (hs.2 u hu)
    · rwa [mem_singleton.1 hu]

/-- **An interrupt is never enabled on two VCPUs, and every entry written so far is settled after
every write, exactly when every write meets its condition.** -/
theorem migrated_iff_guarded (s : Apics) (used : Set Word) (hsep : s.Separate used)
    (hcalls : s.calls = []) (hentries : ∀ a ∈ used, ∀ k < 24, s.entryAt a k = ⟨0, 0⟩)
    (ws : List RedtblWrite) (hws : ∀ w ∈ ws, w.addr ∈ used) :
    (∀ pre, pre <+: ws → (run writeRedtbl s pre).Migrated pre) ↔
      Runs.Guarded writeRedtbl WriteGuard s ws := by
  have hnone : ∀ i v, enabledOn s.calls i v = false := fun i v => by rw [hcalls]; rfl
  have hinit : Placed used s := by
    refine ⟨hsep, fun a ha k hk => ?_, fun i v hon => ?_, fun i v hon => ?_⟩
    · rw [hentries a ha k hk]
      rfl
    · exact absurd (hnone i v ▸ hon) Bool.false_ne_true
    · exact absurd (hnone i v ▸ hon) Bool.false_ne_true
  refine forall_prefix_iff_guarded (I := Placed used) (A := fun w => w.addr ∈ used)
    (Q := Migrated) (fun s w hw h => h.writeRedtbl hw)
    (fun s pre w h hpre hw hm => h.migrated_iff hpre hw hm) hinit ?_ hws
  exact ⟨fun i v v' hv => absurd (hnone i v ▸ hv) Bool.false_ne_true, fun w hw => nomatch hw⟩

section Examples

def highFive : RedtblReg := ⟨0x1b, by decide, by decide⟩
def lowEighteen : RedtblReg := ⟨0x34, by decide, by decide⟩

theorem separate_boot (nrVcpus : ℕ) (squash : Word) :
    (boot nrVcpus squash).Separate {0x1000} := by
  rintro a rfl b rfl k hk l hl h
  refine ⟨rfl, ?_⟩
  simp only [irqAt, boot, I82093.hwirqOf] at h
  bv_omega

theorem migrated_five :
    (boot 2 0).Separate {0x1000} ∧
      ∀ pre, pre <+: [⟨0, 0x1000, lowFive, 0x10041⟩, ⟨0, 0x1000, highFive, 0x01000000⟩,
          ⟨0, 0x1000, lowFive, 0x41⟩, ⟨0, 0x1000, highFive, 0⟩] →
        (run writeRedtbl (boot 2 0) pre).Migrated pre := by
  refine ⟨separate_boot 2 0, ?_⟩
  refine (migrated_iff_guarded (boot 2 0) {0x1000} (separate_boot 2 0) rfl
    (fun _ _ _ _ => rfl) _ fun w hw => ?_).2 ?_
  · simp only [mem_cons, not_mem_nil, or_false] at hw
    rcases hw with rfl | rfl | rfl | rfl <;> rfl
  · exact ⟨by decide +kernel, by decide +kernel, by decide +kernel, by decide +kernel, trivial⟩

theorem not_migrated_unmasked :
    ¬ (run writeRedtbl (boot 1 0) [⟨0, 0x1000, lowFive, 0x41⟩]).Migrated
      [⟨0, 0x1000, lowFive, 0x41⟩] ∧
    ¬ (run writeRedtbl { boot 1 4 with ioapic := fun _ => ⟨48, fun _ => ⟨0, 0⟩⟩ }
        [⟨0, 0x1000, lowEighteen, 0x10041⟩, ⟨0, 0x1000, lowEighteen, 0x41⟩]).Migrated
      [⟨0, 0x1000, lowEighteen, 0x10041⟩, ⟨0, 0x1000, lowEighteen, 0x41⟩] := by
  refine ⟨fun h => ?_, fun h => ?_⟩
  · have hon := (h.2 _ mem_cons_self (by decide +kernel) (by decide +kernel) 0).2
      (by decide +kernel)
    exact absurd hon (by decide +kernel)
  · have hon := (h.2 _ mem_cons_self (by decide +kernel) (by decide +kernel) 0).2
      (by decide +kernel)
    exact absurd hon (by decide +kernel)

end Examples
end Apics
end Wedge
