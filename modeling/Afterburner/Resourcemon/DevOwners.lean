import Afterburner.Resourcemon.DevRemap

/-!
# Who holds a device page

The references to a device page are counted for all VMs together. `Owned` keeps who was given how
many.
-/
variable (area : RemapArea) (op : DeviceOp)

namespace Resourcemon
open Option TableOp RemapTable Finset Runs

def Monitor.spaceId (m : Monitor) (tid : ThreadId) : ℕ :=
  if tid.isLocal then 0 else m.tidToSpaceId tid

namespace DeviceOp

def vm : DeviceOp → Option ℕ
  | .requestDevice m caller .. => some (m.spaceId caller)
  | .unmapDevice m caller .. => some (m.spaceId caller)
  | .getDevice .. => none

def Grants (t : RemapTable) (op : DeviceOp) (a : ℕ) (p : Page) : Prop :=
  op.vm = some a ∧ (op.tableOp area).granted t = some p

instance  (t : RemapTable) (op : DeviceOp) (a : ℕ) (p : Page) :
    Decidable (op.Grants area t a p) := inferInstanceAs (Decidable (_ ∧ _))

def Releases (a : ℕ) (p : Page) : Prop :=
  op.vm = some a ∧ (op.tableOp area).released = some p

instance  (a : ℕ) (p : Page) : Decidable (op.Releases area a p) :=
  inferInstanceAs (Decidable (_ ∧ _))

end DeviceOp

structure Owned where
  table : RemapTable
  requests : ℕ → Page → ℕ
  unmaps : ℕ → Page → ℕ
  held : ℕ → Page → ℕ

namespace Owned
variable (o : Owned) (op : DeviceOp)

def step : Owned where
  table := (op.perform area o.table).table
  requests a p := o.requests a p + if op.Grants area o.table a p then 1 else 0
  unmaps a p := o.unmaps a p + if op.Releases area a p then 1 else 0
  held a p :=
    if op.Grants area o.table a p then o.held a p + 1
    else if op.Releases area a p then o.held a p - 1
    else o.held a p

def init (beyond : ℕ → RemapEntry) : Owned where
  table := (Counted.init beyond).table
  requests _ _ := 0
  unmaps _ _ := 0
  held _ _ := 0

def total (held : ℕ → Page → ℕ) (p : Page) : ℕ := ∑ a ∈ range maxVm, held a p

def Protected : Prop :=
  ∀ p, total o.held p ≠ 0 →
    ∃ i < devRemapTblsize, (o.table.entry i).Maps p ∧
      total o.held p ≤ (o.table.entry i).ref.toNat

def Keeps : Prop :=
  ∀ i < devRemapTblsize, ∀ p, (o.table.entry i).Maps p → total (o.step area op).held p ≠ 0 →
    ((o.step area op).table.entry i).Maps p ∧
      .flush ((area.windowFp i).addRights Fpage.fullyAccessible) ∉ (op.perform area o.table).calls

def HoldGuard : Prop :=
  ∀ a, op.vm = some a → ∀ i < devRemapTblsize, ∀ p, (o.table.entry i).Maps p →
    ((∃ map, op.tableOp area = .grant p map) → (o.table.entry i).ref ≠ 4095) ∧
      ((op.tableOp area).released = some p → o.held a p ≠ 0)

structure Inv : Prop where
  wellFormed : o.table.WellFormed
  counts : Counted.Counts o.table (total o.held)
  requests_le : ∀ a p, o.requests a p ≤ o.held a p + o.unmaps a p
  held_eq_zero : ∀ a p, maxVm ≤ a → o.held a p = 0

theorem inv_init (beyond : ℕ → RemapEntry) : (init beyond).Inv := by
  have hs := Counted.sound_init beyond
  have htotal : total (init beyond).held = (Counted.init beyond).count := by
    funext p
    exact sum_const_zero
  refine ⟨hs.wellFormed, ?_, fun _ _ => le_rfl, fun _ _ _ => rfl⟩
  rw [htotal]
  exact hs.counts

theorem spaceId_lt {m : Monitor} {tid : ThreadId} {vm : Vm} (h : m.tidToVm tid = some vm) :
    m.spaceId tid < maxVm := by
  rw [Monitor.tidToVm] at h
  by_contra hge
  rw [Monitor.spaceId, not_lt] at hge
  simp only [hge, if_true] at h
  cases h

variable {op}

theorem vm_lt {a : ℕ} (hvm : op.vm = some a) (h : op.tableOp area ≠ .skip) :
    a < maxVm := by
  cases op with
  | requestDevice m caller req first second =>
    obtain rfl := some.inj hvm
    rw [DeviceOp.tableOp] at h
    cases hv : m.tidToVm caller with
    | none => simp [hv] at h
    | some vm => exact spaceId_lt hv
  | getDevice addr first => cases hvm
  | unmapDevice m caller req attr old =>
    obtain rfl := some.inj hvm
    rw [DeviceOp.tableOp] at h
    cases hv : m.tidToVm caller with
    | none => simp [hv] at h
    | some vm => exact spaceId_lt hv

variable {area}

theorem tableOp_eq_grant {t : RemapTable} {p : Page} (h : (op.tableOp area).granted t = some p) :
    ∃ map, op.tableOp area = .grant p map := by
  cases htop : op.tableOp area with
  | skip => rw [htop] at h; cases h
  | grant q map => grind [granted, map_eq_some_iff]
  | unmap req attr old => rw [htop] at h; cases h

theorem tableOp_eq_unmap {p : Page} (h : (op.tableOp area).released = some p) :
    ∃ req old, op.tableOp area = .unmap req 7 old ∧ pageOf req.base = p := by
  cases htop : op.tableOp area with
  | skip => rw [htop] at h; cases h
  | grant q map => rw [htop] at h; cases h
  | unmap req attr old =>
    rw [htop, released] at h
    split_ifs at h with hattr
    · subst hattr
      exact ⟨req, old, rfl, some.inj h⟩

theorem total_eq_add {f g : ℕ → Page → ℕ} {b : ℕ} (hb : b < maxVm) {p q : Page}
    (h : ∀ a < maxVm, f a p = g a p + if a = b ∧ p = q then 1 else 0) :
    total f p = total g p + if p = q then 1 else 0 := by
  have hone : ∀ a,
      (if a = b ∧ p = q then 1 else 0) = if a = b then (if p = q then 1 else 0) else 0 :=
    fun a => ite_and ..
  calc total f p
      = ∑ a ∈ range maxVm, (g a p + if a = b then (if p = q then 1 else 0) else 0) :=
        sum_congr rfl fun a ha => by rw [h a (mem_range.1 ha), hone]
    _ = total g p + if p = q then 1 else 0 := by
        rw [sum_add_distrib, sum_ite_eq', if_pos (mem_range.2 hb)]
        rfl

theorem held_le_total (held : ℕ → Page → ℕ) {a : ℕ} (ha : a < maxVm) (p : Page) :
    held a p ≤ total held p :=
  single_le_sum (f := fun a => held a p) (fun _ _ => Nat.zero_le _) (mem_range.2 ha)

section Step
variable {o} {a : ℕ}
variable {p : Page}

theorem total_step_of_granted (hvm : op.vm = some a)
    (h : (op.tableOp area).granted o.table = some p) (q : Page) :
    total (o.step area op).held q = total o.held q + if q = p then 1 else 0 := by
  obtain ⟨map, htop⟩ := tableOp_eq_grant h
  refine total_eq_add (vm_lt area hvm (by rw [htop]; exact TableOp.noConfusion)) fun b _ => ?_
  show (if _ then _ else _) = _
  have hno : ¬ op.Releases area b q := fun hr => by simp [DeviceOp.Releases, htop,
    released] at hr
  by_cases hbq : b = a ∧ q = p
  · obtain ⟨rfl, rfl⟩ := hbq
    rw [if_pos ⟨hvm, h⟩, if_pos ⟨rfl, rfl⟩]
  · rw [if_neg, if_neg hno, if_neg hbq, Nat.add_zero]
    rintro ⟨hb, hq⟩
    exact hbq ⟨some.inj (hb.symm.trans hvm), some.inj (hq.symm.trans h)⟩

theorem total_step_of_released (hvm : op.vm = some a) (h : (op.tableOp area).released = some p)
    (q : Page) :
    total o.held q = total (o.step area op).held q +
      if q = p ∧ o.held a p ≠ 0 then 1 else 0 := by
  obtain ⟨req, old, htop, -⟩ := tableOp_eq_unmap h
  have hno : ∀ b, ¬ op.Grants area o.table b q := fun b hg => by
    simp [DeviceOp.Grants, htop, granted] at hg
  have hheld : ∀ b, (o.step area op).held b q =
      if b = a ∧ q = p then o.held b q - 1 else o.held b q := by
    intro b
    show (if _ then _ else if _ then _ else _) = _
    rw [if_neg (hno b)]
    refine if_congr ⟨?_, ?_⟩ rfl rfl
    · rintro ⟨hb, hq⟩
      exact ⟨some.inj (hb.symm.trans hvm), some.inj (hq.symm.trans h)⟩
    · rintro ⟨rfl, rfl⟩
      exact ⟨hvm, h⟩
  have hlt := vm_lt area hvm (by rw [htop]; exact TableOp.noConfusion)
  by_cases hzero : o.held a p = 0
  · rw [if_neg fun hc => hc.2 hzero, Nat.add_zero]
    refine sum_congr rfl fun b _ => ?_
    rw [hheld b]
    split_ifs with hb
    · obtain ⟨rfl, rfl⟩ := hb
      rw [hzero]
    · rfl
  · have := total_eq_add (f := o.held) (g := (o.step area op).held) hlt (p := q) (q := p)
      fun b _ => by
        rw [hheld b]
        by_cases hb : b = a ∧ q = p
        · obtain ⟨rfl, rfl⟩ := hb
          simp only [and_self, if_true]
          omega
        · rw [if_neg hb, if_neg hb, Nat.add_zero]
    rw [this]
    simp only [hzero, ne_eq, not_false_eq_true, and_true]

theorem held_step_of_neither (hg : (op.tableOp area).granted o.table = none)
    (hr : (op.tableOp area).released = none) : (o.step area op).held = o.held := by
  funext b q
  show (if _ then _ else if _ then _ else _) = _
  rw [if_neg, if_neg]
  · rintro ⟨-, h⟩
    rw [hr] at h
    cases h
  · rintro ⟨-, h⟩
    rw [hg] at h
    cases h

theorem counts_perform (area : RemapArea) {t : RemapTable} {count : Page → ℕ} (hwf : t.WellFormed)
    (hc : Counted.Counts t count) {op : TableOp} (hmax : ∀ p map, op = .grant p map →
      ∀ i < devRemapTblsize, (t.entry i).Maps p → (t.entry i).ref ≠ 4095) :
    (op.perform area t).table.WellFormed ∧ Counted.Counts (op.perform area t).table fun p =>
      if op.granted t = some p then count p + 1
      else if op.released = some p then count p - 1
      else count p := by
  by_cases hg : op.Guard t
  · obtain ⟨hwf', hc', -⟩ := (Counted.leaves_iff area hwf hc op).2 hg
    exact ⟨hwf', hc'⟩
  · cases op with
    | skip => exact absurd trivial hg
    | unmap req attr old => exact absurd trivial hg
    | grant p map =>
      -- the table is full
      rw [TableOp.Guard, RemapTable.GrantGuard, not_and] at hg
      have hfull := hg (hmax p map rfl)
      push Not at hfull
      have hgrant := t.grantWindow_of_full hwf hfull.1 hfull.2 map
      have hgranted : (grant p map).granted t = none := by
        rw [granted, hgrant]
        rfl
      rw [perform, hgrant, hgranted]
      exact ⟨hwf, hc⟩

theorem HoldGuard.ref_ne (hvm : op.vm = some a) (h : o.HoldGuard area op) (p : Page)
    (map : ℕ → List KernelCall × Bool) (htop : op.tableOp area = .grant p map) (i : ℕ)
    (hi : i < devRemapTblsize) (hm : (o.table.entry i).Maps p) : (o.table.entry i).ref ≠ 4095 :=
  (h a hvm i hi p hm).1 ⟨map, htop⟩

theorem total_step (hinv : o.Inv) (hvm : op.vm = some a) (hguard : o.HoldGuard area op) :
    total (o.step area op).held = fun p =>
      if (op.tableOp area).granted o.table = some p then total o.held p + 1
      else if (op.tableOp area).released = some p then total o.held p - 1
      else total o.held p := by
  funext q
  cases hg : (op.tableOp area).granted o.table with
  | some p =>
    rw [total_step_of_granted hvm hg q]
    have hr : (op.tableOp area).released = none := by
      obtain ⟨map, htop⟩ := tableOp_eq_grant hg
      rw [htop]
      rfl
    by_cases hqp : q = p
    · subst hqp
      simp
    · simp [hqp, Ne.symm hqp, hr]
  | none =>
    cases hr : (op.tableOp area).released with
    | none => simp [held_step_of_neither hg hr]
    | some p =>
      have htotal := total_step_of_released (o := o) hvm hr q
      by_cases hqp : q = p
      · subst hqp
        simp only [reduceCtorEq, if_false, if_true]
        by_cases hzero : o.held a q = 0
        · -- the page has no slot, and nobody holds it
          have hnobody : total o.held q = 0 := by
            by_contra hne
            obtain ⟨i, hi, hm⟩ := hinv.counts.slot q hne
            exact (hguard a hvm i hi q hm).2 hr hzero
          omega
        · simp_all
      · simp only [hqp, false_and, if_false] at htotal
        simp only [reduceCtorEq, if_false, some.injEq, Ne.symm hqp]
        omega

theorem inv_step (hinv : o.Inv) (hvm : op.vm = some a) (hguard : o.HoldGuard area op) :
    (o.step area op).Inv := by
  obtain ⟨hwf, hcounts⟩ :=
    counts_perform area hinv.wellFormed hinv.counts (hguard.ref_ne hvm)
  have htable : (o.step area op).table = ((op.tableOp area).perform area o.table).table :=
    (perform_tableOp area o.table op).1
  rw [← total_step hinv hvm hguard, ← htable] at hcounts
  rw [← htable] at hwf
  refine ⟨hwf, hcounts, fun b p => ?_, fun b p hb => ?_⟩
  · have := hinv.requests_le b p
    simp only [step]
    split_ifs <;> omega
  · have hzero := hinv.held_eq_zero b p hb
    simp only [step]
    split_ifs with hg hr
    · obtain ⟨map, htop⟩ := tableOp_eq_grant hg.2
      have := vm_lt area hg.1 (by rw [htop]; exact TableOp.noConfusion)
      omega
    · rw [hzero]
    · exact hzero

theorem Inv.isProtected (hinv : o.Inv) : o.Protected := by
  intro p hp
  obtain ⟨i, hi, hm⟩ := hinv.counts.slot p hp
  exact ⟨i, hi, hm, (hinv.counts.ref i hi p hm).ge⟩

theorem protected_step_iff (hinv : o.Inv) (hvm : op.vm = some a) :
    (o.step area op).Protected ↔ o.HoldGuard area op := by
  refine ⟨fun h b hb i hi p hm => ⟨?_, fun hr hzero => ?_⟩,
    fun h => (inv_step hinv hvm h).isProtected⟩
  · rintro ⟨map, htop⟩ hmax
    -- one reference more than a count can hold
    have hgranted : (op.tableOp area).granted o.table = some p := by
      rw [htop, granted, o.table.grantWindow_of_maps hinv.wellFormed hi hm map]
      rfl
    have htotal := total_step_of_granted hvm hgranted p
    have hcount := hinv.counts.ref i hi p hm
    have hval : (4095 : BitVec 12).toNat = 4095 := rfl
    rw [if_pos rfl, ← hcount, hmax] at htotal
    obtain ⟨j, -, -, hle⟩ := h p (by omega)
    omega
  · obtain rfl : a = b := some.inj (hvm.symm.trans hb)
    have htotal := total_step_of_released (o := o) hvm hr p
    rw [if_neg fun hc => hc.2 hzero] at htotal
    have hcount := hinv.counts.ref i hi p hm
    have hpos : (o.table.entry i).ref.toNat ≠ 0 := fun h0 => hm.1 (BitVec.eq_of_toNat_eq h0)
    obtain ⟨j, hj, hmj, hle⟩ := h p (by omega)
    -- the slot of the page has one reference less
    obtain ⟨req, old, htop, rfl⟩ := tableOp_eq_unmap hr
    have htable : (o.step area op).table = (o.table.unmapWindow area req 7 old).table := by
      refine (perform_tableOp area o.table op).1.trans ?_
      rw [htop]
      rfl
    rw [htable, (o.table.unmapWindow_of_maps hinv.wellFormed area hi hm 7 old).1,
      if_neg (by simp)] at hmj hle
    by_cases hji : j = i
    · subst hji
      have hsub := Counted.toNat_sub_one hm.1
      split_ifs at hmj hle with hlast
      · simp_all
      · rw [setRef, entry_setEntry_self] at hle
        have : total (o.step area op).held (pageOf req.base) ≤
          ((o.table.entry j).ref - 1).toNat := hle
        omega
    · refine hji (hinv.wellFormed.distinct j hj i hi _ ?_ hm)
      split_ifs at hmj with hlast
      · rwa [entry_setEntry_of_ne hji] at hmj
      · rwa [setRef, entry_setEntry_of_ne hji] at hmj

theorem toNat_windowAddr (area : RemapArea) {i : ℕ} (hi : i < devRemapTblsize) :
    (area.windowAddr i 0).toNat = area.base.toNat + i * devRemapPgsize := by
  have hle : area.base.toNat + 2 ^ 25 ≤ 2 ^ 32 :=
    Blocks.add_le_of_dvd area.aligned (pow_dvd_pow 2 (by decide)) area.base.isLt
  have hsize : devRemapTblsize = 8192 := by decide
  have hpage : devRemapPgsize = 4096 := by decide
  have hzero : ((0 : Word) &&& 0xfff).toNat = 0 := rfl
  rw [RemapArea.windowAddr, BitVec.toNat_add, BitVec.toNat_add, BitVec.toNat_ofNat, hzero, hpage]
  omega

theorem windowFp_inj (area : RemapArea) {i j : ℕ} (hi : i < devRemapTblsize)
    (hj : j < devRemapTblsize) (rights : BitVec 4)
    (h : (area.windowFp i).addRights rights = (area.windowFp j).addRights rights) : i = j := by
  have hdvd : ∀ k, 2 ^ devRemapPgsizelog2 ∣ area.base.toNat + k * devRemapPgsize := fun k =>
    Nat.dvd_add ((pow_dvd_pow 2 (by decide)).trans area.aligned) (Dvd.intro_left k rfl)
  have hbase : ((area.windowFp i).addRights rights).base.toNat =
      ((area.windowFp j).addRights rights).base.toNat := by rw [h]
  rw [Fpage.addRights, Fpage.addRights] at hbase
  rw [RemapArea.windowFp, RemapArea.windowFp, Fpage.toNat_log2, Fpage.toNat_log2,
    toNat_windowAddr area hi, toNat_windowAddr area hj, Blocks.floor_of_dvd (hdvd i),
    Blocks.floor_of_dvd (hdvd j)] at hbase
  have hpage : devRemapPgsize = 4096 := by decide
  rw [hpage] at hbase
  omega

theorem not_flush_of_grant {map : ℕ → List KernelCall × Bool}
    (htop : op.tableOp area = .grant p map) (f : Fpage) :
    .flush f ∉ ((op.tableOp area).perform area o.table).calls := by
  have hmap : ∀ k, .flush f ∉ (map k).1 := by
    intro k
    cases op with
    | unmapDevice m caller req attr old =>
      rw [DeviceOp.tableOp] at htop
      split at htop
      · split_ifs at htop
      · cases htop
    | getDevice addr first =>
      cases htop
      simp [RemapArea.mapOwn]
    | requestDevice m caller req first second =>
      rw [DeviceOp.tableOp] at htop
      split at htop
      · cases htop
        rw [RemapArea.mapDevice]
        split_ifs
        · split <;> simp
        · simp
      · cases htop
  rw [htop, perform, grantWindow]
  cases o.table.find p with
  | some idx => exact List.not_mem_nil
  | none =>
    dsimp only
    split_ifs
    · exact List.not_mem_nil
    · exact hmap _
    · exact hmap _

theorem entry_perform_of_maps (area : RemapArea) {t : RemapTable} (hwf : t.WellFormed) {i : ℕ}
    (hi : i < devRemapTblsize) (hm : (t.entry i).Maps p) (op : TableOp) :
    ((∃ map, op = .grant p map) ∧
        (op.perform area t).table.entry i = ⟨(t.entry i).ref + 1, p⟩) ∨
      (op.released = some p ∧ (op.perform area t).table.entry i =
        if (t.entry i).ref - 1 = 0 then ⟨0, 0⟩ else ⟨(t.entry i).ref - 1, p⟩) ∨
      (op.released ≠ some p ∧ (op.perform area t).table.entry i = t.entry i) := by
  cases op with
  | skip => exact .inr (.inr ⟨(some_ne_none p).symm, rfl⟩)
  | grant q map =>
    by_cases hqp : q = p
    · subst hqp
      refine .inl ⟨⟨map, rfl⟩, ?_⟩
      rw [perform, t.grantWindow_of_maps hwf hi hm map, ← hm.2]
      exact entry_setEntry_self ..
    · refine .inr (.inr ⟨(some_ne_none p).symm, ?_⟩)
      rw [perform]
      by_cases hnone : ∀ k < devRemapTblsize, ¬ (t.entry k).Maps q
      · by_cases hfull : ∀ k < devRemapTblsize, (t.entry k).ref ≠ 0
        · rw [t.grantWindow_of_full hwf hnone hfull map]
        · push Not at hfull
          obtain ⟨k, hk, hfree⟩ := hfull
          obtain ⟨k, hk, hfind, href, -⟩ := findFree_of_free hk hfree
          rw [t.grantWindow_of_free hwf hnone hk hfind href map]
          split_ifs
          · refine Function.update_of_ne ?_ _ _
            rintro rfl
            exact hm.1 href
          · rfl
      · push Not at hnone
        obtain ⟨k, hk, hmk⟩ := hnone
        rw [t.grantWindow_of_maps hwf hk hmk map]
        refine entry_setEntry_of_ne ?_ _
        rintro rfl
        exact hqp (hmk.2.symm.trans hm.2)
  | unmap req attr old =>
    rw [perform, released]
    by_cases hnone : ∀ k < devRemapTblsize, ¬ (t.entry k).Maps (pageOf req.base)
    · refine .inr (.inr ⟨fun hr => ?_, by rw [t.unmapWindow_of_none hwf area hnone attr old]⟩)
      split_ifs at hr
      · exact hnone i hi (some.inj hr ▸ hm)
    · push Not at hnone
      obtain ⟨k, hk, hmk⟩ := hnone
      rw [(t.unmapWindow_of_maps hwf area hk hmk attr old).1]
      by_cases hattr : attr = 7
      · rw [if_pos hattr, if_neg (not_not.2 hattr)]
        by_cases hki : i = k
        · subst hki
          refine .inr (.inl ⟨congrArg some (hmk.2.symm.trans hm.2), ?_⟩)
          split_ifs
          · exact entry_setEntry_self ..
          · rw [← hm.2]
            exact entry_setEntry_self ..
        · refine .inr (.inr ⟨fun hr => hki ?_, ?_⟩)
          · obtain rfl := some.inj hr
            exact hwf.distinct i hi k hk _ hm hmk
          · split_ifs
            · exact entry_setEntry_of_ne hki _
            · exact entry_setEntry_of_ne hki _
      · simp_all

theorem keeps_of_holdGuard (hinv : o.Inv) (hvm : op.vm = some a) (hguard : o.HoldGuard area op) :
    o.Keeps area op := by
  intro i hi p hm hstill
  obtain ⟨htable, -, hflush⟩ := perform_tableOp area o.table op
  have hcount := hinv.counts.ref i hi p hm
  -- the last reference is not given back
  have hlast : (op.tableOp area).released = some p → (o.table.entry i).ref - 1 ≠ 0 := by
    intro hr h0
    have hsub := Counted.toNat_sub_one hm.1
    have htotal := total_step_of_released (o := o) hvm hr p
    have hz : (0 : BitVec 12).toNat = 0 := rfl
    rw [if_pos ⟨rfl, (hguard a hvm i hi p hm).2 hr⟩] at htotal
    rw [h0] at hsub
    omega
  rw [hflush]
  constructor
  · show ((op.perform area o.table).table.entry i).Maps p
    rw [htable]
    rcases entry_perform_of_maps area hinv.wellFormed hi hm (op.tableOp area) with
      ⟨⟨map, htop⟩, he⟩ | ⟨hr, he⟩ | ⟨-, he⟩
    · rw [he]
      refine ⟨fun h0 => ?_, rfl⟩
      have hadd := Counted.toNat_add_one (hguard.ref_ne hvm p map htop i hi hm)
      have hwrap : ((o.table.entry i).ref + 1).toNat = 0 := congrArg BitVec.toNat h0
      omega
    · rw [he, if_neg (hlast hr)]
      exact ⟨hlast hr, rfl⟩
    · rwa [he]
  · cases htop : op.tableOp area with
    | skip => exact List.not_mem_nil
    | grant q map => exact htop ▸ not_flush_of_grant htop _
    | unmap req attr old =>
      rw [perform]
      by_cases hnone : ∀ k < devRemapTblsize, ¬ (o.table.entry k).Maps (pageOf req.base)
      · rw [o.table.unmapWindow_of_none hinv.wellFormed area hnone attr old]
        exact List.not_mem_nil
      · push Not at hnone
        obtain ⟨k, hk, hmk⟩ := hnone
        rw [(o.table.unmapWindow_of_maps hinv.wellFormed area hk hmk attr old).2.2]
        rintro ⟨rfl, h0, hwindow⟩
        obtain rfl := windowFp_inj area hi hk _ hwindow
        refine hlast ?_ h0
        rw [htop, released, if_pos rfl, ← hmk.2, hm.2]

end Step

def ByVm (op : DeviceOp) : Prop := op.vm ≠ none

theorem inv_run {o : Owned} (hinv : o.Inv) {ops : List DeviceOp} (hops : ∀ op ∈ ops, ByVm op)
    (hguard : Runs.Guarded (step area) (HoldGuard area) o ops) :
    (run (step area) o ops).Inv := by
  refine run_invariant_of_mem (I := Inv) (fun o op hop h hg => ?_) hinv hops hguard
  obtain ⟨a, hvm⟩ := ne_none_iff_exists'.1 hop
  exact inv_step h hvm hg

/-- **When a VM keeps the device pages that it holds.** In every run of requests and unmaps by VMs
whose calls meet their condition, a slot has at least as many references as the VMs hold together,
and a call leaves the slots of held pages as they are. A call that does not meet its condition takes
away a held reference. -/
theorem protected_of_guarded_run (area : RemapArea) (beyond : ℕ → RemapEntry) (ops : List DeviceOp)
    (hops : ∀ op ∈ ops, ByVm op)
    (hguard : Runs.Guarded (step area) (HoldGuard area) (init beyond) ops) :
    let o := run (step area) (init beyond) ops
    o.Protected ∧
      (∀ a p, o.unmaps a p < o.requests a p →
        ∃ i < devRemapTblsize, (o.table.entry i).Maps p) ∧
      ∀ op, ByVm op → (o.HoldGuard area op → o.Keeps area op) ∧
        ((o.step area op).Protected ↔ o.HoldGuard area op) := by
  intro o
  have hinv : o.Inv := inv_run (inv_init beyond) hops hguard
  refine ⟨hinv.isProtected, fun a p hlt => ?_, fun op hop => ?_⟩
  · have hle := hinv.requests_le a p
    have ha : a < maxVm := by
      by_contra hge
      have := hinv.held_eq_zero a p (not_lt.1 hge)
      omega
    have := held_le_total o.held ha p
    exact hinv.counts.slot p (by omega)
  · obtain ⟨a, hvm⟩ := ne_none_iff_exists'.1 hop
    exact ⟨keeps_of_holdGuard hinv hvm, protected_step_iff hinv hvm⟩

section TwoVms

def vmAt12M : Vm :=
  { Monitor.vmAt4M with haddrBase := 0xc00000, base_aligned := by decide, fits := by decide }

def monitorWithTwoVms : Monitor :=
  { Monitor.monitorWithVmAt4M with
    vmList := fun i =>
      if i = 1 then some Monitor.vmAt4M else if i = 2 then some vmAt12M else none }

def tidOfVmAt12M : ThreadId := ⟨false, 0x2100, 2⟩
def screenPage : Fpage := .log2 0xb8000 12 pageBits_le

def requestScreen (tid : ThreadId) : DeviceOp :=
  .requestDevice monitorWithTwoVms tid screenPage (screenPage.addRights Fpage.fullyAccessible)
    screenPage

def unmapScreen (tid : ThreadId) : DeviceOp := .unmapDevice monitorWithTwoVms tid screenPage 7 7

open Counted (areaAt2G zeroes)

theorem holdGuard_requestScreen :
    (init zeroes).HoldGuard areaAt2G (requestScreen Monitor.tidOfVmAt4M) := by
  intro a _ i hi p hm
  refine absurd ?_ hm.1
  simp [init, Counted.init, hi]

theorem protected_own_screen :
    (run (step areaAt2G) (init zeroes)
      [requestScreen Monitor.tidOfVmAt4M, unmapScreen Monitor.tidOfVmAt4M]).Protected := by
  have hguard : Runs.Guarded (step areaAt2G) (HoldGuard areaAt2G) (init zeroes)
      [requestScreen Monitor.tidOfVmAt4M, unmapScreen Monitor.tidOfVmAt4M] := by
    have hscreen : ((unmapScreen Monitor.tidOfVmAt4M).tableOp areaAt2G).released = some 0xb8 := by
      decide +kernel
    refine ⟨holdGuard_requestScreen, fun a ha i hi p hm => ⟨?_, fun hr => ?_⟩, trivial⟩
    · rintro ⟨map, htop⟩
      rw [htop] at hscreen
      cases hscreen
    · obtain rfl : 1 = a := some.inj ha
      obtain rfl : 0xb8 = p := some.inj (hscreen.symm.trans hr)
      decide +kernel
  refine (protected_of_guarded_run areaAt2G zeroes _ ?_ hguard).1
  intro op hop
  fin_cases hop <;> exact some_ne_none _

theorem not_protected_other_screen :
    let o := run (step areaAt2G) (init zeroes)
      [requestScreen Monitor.tidOfVmAt4M, unmapScreen tidOfVmAt12M]
    ¬ o.Protected ∧ o.requests 1 0xb8 = 1 ∧ o.unmaps 1 0xb8 = 0 ∧ o.table.entry 0 = ⟨0, 0⟩ := by
  refine ⟨fun h => ?_, by decide +kernel, by decide +kernel, by decide +kernel⟩
  have hinv : ((init zeroes).step areaAt2G (requestScreen Monitor.tidOfVmAt4M)).Inv :=
    inv_step (inv_init zeroes) rfl holdGuard_requestScreen
  have hguard : HoldGuard areaAt2G _ (unmapScreen tidOfVmAt12M) := (protected_step_iff hinv rfl).1 h
  exact (hguard 2 rfl 0 (by decide) 0xb8 (by decide +kernel)).2 (by decide +kernel)
    (by decide +kernel)

end TwoVms
end Owned
end Resourcemon
