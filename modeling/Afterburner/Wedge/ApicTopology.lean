import Afterburner.Lib.Runs
import Afterburner.Wedge.Intlogic

/-!
# The virtual APICs of a VM

`init_virtual_apics` gives 24 interrupts to each IO-APIC and numbers them behind the VCPUs, in four
bits, of which `0xf` marks an unused one.
-/

namespace Wedge
open Function List BitVec

structure ApicBuild where
  /-- `CONFIG_MAX_IOAPICS` -/
  maxIoapics : ℕ
  /-- `ASSERT` is not empty -/
  asserts : Bool

structure VirtualIoapic where
  id : BitVec 4
  irqBase : Word
  mre : BitVec 8

def VirtualIoapic.isValid (x : VirtualIoapic) : Bool := x.id ≠ 0xf

structure ApicTopology where
  virtualIoapic : ℕ → VirtualIoapic
  hwirqToIoapic : ℕ → Option ℕ
  configured : ℕ → Bool

namespace ApicTopology
variable (s : ApicTopology) (b : ApicBuild)

def gsiPerIoapic : Word := 24
def virtualIrqSources : Word := 10
def empty : ApicTopology := ⟨fun _ => ⟨0, 0, 0x17⟩, fun _ => none, fun _ => false⟩

def hwirqRegisterIoapic (k : ℕ) (s : ApicTopology) (hwirq : ℕ) :
    Option ApicTopology :=
  if ¬ hwirq < maxHwirqs ∨ b.asserts = true ∧ ¬ (s.virtualIoapic k).isValid = true then none
  else some { s with hwirqToIoapic := update s.hwirqToIoapic hwirq (some k) }

def gsiMax (irqSources gsiMin : Word) : Word :=
  (if gsiMin + gsiPerIoapic < irqSources then gsiMin + gsiPerIoapic else irqSources) - 1

def initIoapic (irqSources startId : Word) (s : ApicTopology) (k : ℕ) :
    Option ApicTopology :=
  let gsiMin := gsiPerIoapic * BitVec.ofNat 32 k
  let max := gsiMax irqSources gsiMin
  let x : VirtualIoapic :=
    ⟨(startId + BitVec.ofNat 32 k).setWidth 4, gsiMin, (max - gsiMin).setWidth 8⟩
  (range' gsiMin.toNat (max.toNat + 1 - gsiMin.toNat)).foldlM (hwirqRegisterIoapic b k)
    { s with
      virtualIoapic := update s.virtualIoapic k x
      configured := update s.configured k true }

def invalidate (k : ℕ) : ApicTopology :=
  { s with
    virtualIoapic := update s.virtualIoapic k { s.virtualIoapic k with id := 0xf }
    configured := update s.configured k false }

def nrIoapics (irqSources : Word) : ℕ :=
  (irqSources / gsiPerIoapic + if irqSources % gsiPerIoapic ≠ 0 then 1 else 0).toNat

def initVirtualApics (realIrqSources numVcpus : Word) : Option ApicTopology :=
  let irqSources := realIrqSources + virtualIrqSources
  let nr := nrIoapics irqSources
  if nr ≥ b.maxIoapics then none
  else
    ((range nr).foldlM (initIoapic b irqSources (numVcpus + 1)) empty).map fun s =>
      (range' nr (b.maxIoapics - nr)).foldl invalidate s

def Serves (k gsi : ℕ) : Prop :=
  (s.virtualIoapic k).irqBase.toNat ≤ gsi ∧
    gsi ≤ (s.virtualIoapic k).irqBase.toNat + (s.virtualIoapic k).mre.toNat

def ids (w numVcpus : ℕ) : List ℕ :=
  (range numVcpus).map (fun vcpu => vcpu % 2 ^ w) ++
    ((range b.maxIoapics).filter s.configured).map fun k => (s.virtualIoapic k).id.toNat

structure Sound (w total numVcpus : ℕ) : Prop where
  gsi : ∀ gsi < total, ∃ k, s.hwirqToIoapic gsi = some k ∧ s.configured k = true ∧
    s.Serves k gsi ∧ ∀ j, s.configured j = true → s.Serves j gsi → j = k
  distinct : (s.ids b w numVcpus).Nodup
  valid : 0xf ∉ s.ids b w numVcpus

section Loops
variable {b} {irqSources startId : Word} {s} {s' : ApicTopology}

theorem nrIoapics_eq (irqSources : Word) : nrIoapics irqSources = (irqSources.toNat + 23) / 24 := by
  have hdiv : (irqSources / gsiPerIoapic).toNat = irqSources.toNat / 24 := toNat_udiv
  have hzero : irqSources % gsiPerIoapic = 0 ↔ irqSources.toNat % 24 = 0 := by
    rw [← toNat_inj]
    rfl
  rw [nrIoapics, toNat_add]
  simp only [ne_eq, hzero]
  split_ifs with h
  · rw [show (0 : Word).toNat = 0 from rfl]
    omega
  · rw [show (1 : Word).toNat = 1 from rfl]
    omega

theorem register_all {k : ℕ} {gsis : List ℕ}
    (h : gsis.foldlM (hwirqRegisterIoapic b k) s = some s') :
    s' = { s with hwirqToIoapic := fun g => if g ∈ gsis then some k else s.hwirqToIoapic g } ∧
      ∀ g ∈ gsis, g < maxHwirqs := by
  refine Runs.foldlM_invariant (I := fun gsis s' => s' = { s with
    hwirqToIoapic := fun g => if g ∈ gsis then some k else s.hwirqToIoapic g } ∧
      ∀ g ∈ gsis, g < maxHwirqs) ?_ ?_ h
  · rintro gsis g t t' ⟨rfl, hall⟩ ht
    rw [hwirqRegisterIoapic] at ht
    split_ifs at ht with hcond
    obtain rfl := Option.some.inj ht
    refine ⟨?_, fun i hi => ?_⟩
    · congr 1
      funext i
      by_cases hi : i = g
      · subst hi
        simp
      · simp_all
    · obtain hi | hi := mem_append.1 hi
      · exact hall i hi
      · simp_all
  · simp

theorem toNat_gsi {k : ℕ} (hroom : 24 * k ≤ maxHwirqs) (hk : 24 * k < irqSources.toNat) :
    (gsiPerIoapic * BitVec.ofNat 32 k).toNat = 24 * k ∧
      (gsiMax irqSources (gsiPerIoapic * BitVec.ofNat 32 k)).toNat =
        min (24 * k + 24) irqSources.toNat - 1 := by
  have hmax : maxHwirqs = 256 := rfl
  have hmin : (gsiPerIoapic * BitVec.ofNat 32 k).toNat = 24 * k := by
    rw [toNat_mul, toNat_ofNat, show gsiPerIoapic.toNat = 24 from rfl]
    omega
  have hsum : (gsiPerIoapic * BitVec.ofNat 32 k + gsiPerIoapic).toNat = 24 * k + 24 := by
    rw [BitVec.toNat_add, show gsiPerIoapic.toNat = 24 from rfl]
    omega
  refine ⟨hmin, ?_⟩
  have hsub : ∀ x : Word, 0 < x.toNat → (x - 1).toNat = x.toNat - 1 := fun x hx =>
    toNat_sub_of_le (le_def.2 hx)
  rw [gsiMax]
  simp only [lt_def, hsum]
  split_ifs with hlt
  · rw [hsub _ (by omega)]
    omega
  · rw [hsub _ (by omega)]
    omega

def entry (irqSources startId : Word) (k : ℕ) : VirtualIoapic :=
  ⟨(startId + BitVec.ofNat 32 k).setWidth 4, BitVec.ofNat 32 (24 * k),
    BitVec.ofNat 8 (min (24 * k + 24) irqSources.toNat - 1 - 24 * k)⟩

structure After (irqSources startId : Word) (n : ℕ) (s : ApicTopology) : Prop where
  ioapic : ∀ k < n, s.virtualIoapic k = entry irqSources startId k
  configured : ∀ k, s.configured k = decide (k < n)
  table : ∀ g, s.hwirqToIoapic g =
    if g < min (24 * n) irqSources.toNat then some (g / 24) else none
  room : min (24 * n) irqSources.toNat ≤ maxHwirqs

theorem after_empty (irqSources startId : Word) : After irqSources startId 0 empty :=
  ⟨fun _ hk => absurd hk (Nat.not_lt_zero _), fun _ => rfl, fun g => (if_neg (by omega)).symm,
    by omega⟩

theorem After.initIoapic {k : ℕ} (hk : 24 * k < irqSources.toNat)
    (h : After irqSources startId k s) (hs : s.initIoapic b irqSources startId k = some s') :
    After irqSources startId (k + 1) s' := by
  have hroom := h.room
  obtain ⟨hmin, hmax⟩ := toNat_gsi (by omega) hk
  obtain ⟨rfl, hall⟩ := register_all hs
  have hentry : (⟨(startId + BitVec.ofNat 32 k).setWidth 4, gsiPerIoapic * BitVec.ofNat 32 k,
      (gsiMax irqSources (gsiPerIoapic * BitVec.ofNat 32 k) -
        gsiPerIoapic * BitVec.ofNat 32 k).setWidth 8⟩ : VirtualIoapic) =
      entry irqSources startId k := by
    have hle : gsiPerIoapic * BitVec.ofNat 32 k ≤
        gsiMax irqSources (gsiPerIoapic * BitVec.ofNat 32 k) := by
      rw [le_def]
      omega
    rw [entry, VirtualIoapic.mk.injEq]
    refine ⟨rfl, ?_, ?_⟩
    · rw [← toNat_inj, toNat_ofNat]
      omega
    · rw [← toNat_inj, toNat_setWidth, toNat_sub_of_le hle, hmin, hmax,
        toNat_ofNat]
  refine ⟨fun j hj => ?_, fun j => ?_, fun g => ?_, ?_⟩
  · dsimp only
    by_cases hjk : j = k
    · simp [*]
    · rw [update_of_ne hjk]
      exact h.ioapic j (by omega)
  · dsimp only
    by_cases hjk : j = k
    · subst hjk
      simp
    · rw [update_of_ne hjk, h.configured]
      exact decide_eq_decide.2 (by omega)
  · simp only [h.table, mem_range'_1, hmin, hmax]
    by_cases hg : 24 * k ≤ g ∧ g < min (24 * k + 24) irqSources.toNat
    · rw [if_pos (by omega), if_pos (by omega)]
      congr 1
      omega
    · rw [if_neg (by omega)]
      exact if_congr (by omega) rfl rfl
  · -- the last interrupt has been registered
    have hlast := hall (min (24 * k + 24) irqSources.toNat - 1)
    rw [mem_range'_1] at hlast
    omega

theorem After.invalidate {n k : ℕ} (hk : n ≤ k) (h : After irqSources startId n s) :
    After irqSources startId n (s.invalidate k) := by
  refine ⟨fun j hj => ?_, fun j => ?_, h.table, h.room⟩
  · rw [← h.ioapic j hj]
    exact update_of_ne (by omega) ..
  · by_cases hjk : j = k
    · subst hjk
      rw [decide_eq_false (not_lt.2 hk)]
      exact update_self ..
    · rw [← h.configured j]
      exact update_of_ne hjk ..

end Loops
section Configuration
variable {b} {real numVcpus : Word} {s}

theorem nrIoapics_lt (h : initVirtualApics b real numVcpus = some s) :
    nrIoapics (real + virtualIrqSources) < b.maxIoapics := by simp_all [initVirtualApics]

theorem after_init (h : initVirtualApics b real numVcpus = some s) :
    After (real + virtualIrqSources) (numVcpus + 1) (nrIoapics (real + virtualIrqSources)) s := by
  have hlt := nrIoapics_lt h
  have hnr := nrIoapics_eq (real + virtualIrqSources)
  rw [initVirtualApics, if_neg (not_le.2 hlt), Option.map_eq_some_iff] at h
  obtain ⟨t, ht, rfl⟩ := h
  -- the IO-APICs done so far are always the first ones
  have hloop := Runs.foldlM_invariant (I := fun ks s =>
    ks <+: range (nrIoapics (real + virtualIrqSources)) →
      After (real + virtualIrqSources) (numVcpus + 1) ks.length s)
    (fun ks k s s' ih hs hpre => by
      have hk : k = ks.length ∧ ks.length < nrIoapics (real + virtualIrqSources) := by
        have hget := hpre.getElem (i := ks.length) (by simp)
        have hlen := hpre.length_le
        rw [getElem_concat_length rfl, getElem_range] at hget
        rw [length_append, length_range] at hlen
        exact ⟨hget, hlen⟩
      obtain ⟨rfl, hks⟩ := hk
      rw [length_append]
      exact (ih ((prefix_append ..).trans hpre)).initIoapic (by omega) hs)
    (fun _ => after_empty ..) ht (prefix_refl _)
  rw [length_range] at hloop
  exact foldlRecOn _ _ hloop fun s hs k hk => hs.invalidate (mem_range'_1.1 hk).1

theorem After.serves_iff {irqSources startId : Word} {n k g : ℕ}
    (h : After irqSources startId n s) (hn : n = nrIoapics irqSources) (hk : k < n) :
    s.Serves k g ↔ g / 24 = k ∧ g < irqSources.toNat := by
  have hnr := nrIoapics_eq irqSources
  have hbase : (BitVec.ofNat 32 (24 * k)).toNat = 24 * k := by
    rw [toNat_ofNat]
    omega
  have hmre : (BitVec.ofNat 8 (min (24 * k + 24) irqSources.toNat - 1 - 24 * k)).toNat =
      min (24 * k + 24) irqSources.toNat - 1 - 24 * k := by
    rw [toNat_ofNat]
    omega
  rw [Serves, h.ioapic k hk, entry, hbase, hmre]
  omega

section
variable (h : initVirtualApics b real numVcpus = some s)
include h

theorem gsi_iff :
    (∀ gsi < real.toNat + 10, ∃ k, s.hwirqToIoapic gsi = some k ∧ s.configured k = true ∧
      s.Serves k gsi ∧ ∀ j, s.configured j = true → s.Serves j gsi → j = k) ↔
      real.toNat + 10 < 2 ^ 32 := by
  have hafter := after_init h
  have hnr := nrIoapics_eq (real + virtualIrqSources)
  have hsum : (real + virtualIrqSources).toNat = (real.toNat + 10) % 2 ^ 32 := toNat_add ..
  constructor
  · intro hall
    by_contra hwrap
    obtain ⟨k, hk, -⟩ := hall (2 ^ 32 - 1) (by omega)
    rw [hafter.table, if_neg (by omega)] at hk
    exact absurd hk (by simp)
  · intro hwrap g hg
    have hserves := fun k hk => hafter.serves_iff (k := k) (g := g) rfl hk
    have hk : g / 24 < nrIoapics (real + virtualIrqSources) := by omega
    refine ⟨g / 24, ?_, ?_, (hserves _ hk).2 ⟨rfl, by omega⟩, fun j hj hsj => ?_⟩
    · rw [hafter.table, if_pos (by omega)]
    · simp_all [hafter.configured]
    · rw [hafter.configured, decide_eq_true_eq] at hj
      exact ((hserves j hj).1 hsj).1.symm

theorem ids_eq (w : ℕ) : s.ids b w numVcpus.toNat =
      (range numVcpus.toNat).map (fun vcpu => vcpu % 2 ^ w) ++
        (range (nrIoapics (real + virtualIrqSources))).map
          fun k => (numVcpus.toNat + 1 + k) % 16 := by
  have hafter := after_init h
  have hlt := nrIoapics_lt h
  have hfilter : (range b.maxIoapics).filter s.configured =
      range (nrIoapics (real + virtualIrqSources)) := by
    have hsplit : b.maxIoapics = nrIoapics (real + virtualIrqSources) +
        (b.maxIoapics - nrIoapics (real + virtualIrqSources)) := by omega
    rw [hsplit, range_add, filter_append, filter_eq_self.2,
      filter_eq_nil_iff.2, append_nil]
    · simp [hafter.configured]
    · simp [hafter.configured]
  rw [ids, hfilter]
  congr 1
  refine map_congr_left fun k hk => ?_
  rw [hafter.ioapic k (mem_range.1 hk), entry, toNat_setWidth, toNat_add,
    toNat_add, toNat_ofNat, show (1 : Word).toNat = 1 from rfl]
  omega

/-- **The ids are different and valid exactly when those of the IO-APICs end before `0xf`.** -/
theorem ids_iff {w : ℕ} (hw : 4 ≤ w) (hpos : 0 < nrIoapics (real + virtualIrqSources)) :
    (s.ids b w numVcpus.toNat).Nodup ∧ 0xf ∉ s.ids b w numVcpus.toNat ↔
      numVcpus.toNat + nrIoapics (real + virtualIrqSources) ≤ 14 := by
  have hpow : 2 ^ 4 ≤ 2 ^ w := Nat.pow_le_pow_right (by decide) hw
  have hsmall : ∀ {i : ℕ}, i < 16 → i % 2 ^ w = i := fun hi => Nat.mod_eq_of_lt (by omega)
  rw [ids_eq h]
  generalize numVcpus.toNat = nv
  constructor
  · rintro ⟨hnodup, hvalid⟩
    by_contra hle
    obtain hnv | rfl | hnv : nv ≤ 14 ∨ nv = 15 ∨ 16 ≤ nv := by omega
    · -- one of the IO-APICs gets the invalid id
      refine hvalid (mem_append_right _ (mem_map.2 ⟨14 - nv, ?_, by omega⟩))
      exact mem_range.2 (by omega)
    · -- the id of the first IO-APIC is that of the first local APIC
      refine (nodup_append.1 hnodup).2.2 0 ?_ 0 ?_ rfl
      · exact mem_map.2 ⟨0, mem_range.2 (by omega), Nat.zero_mod _⟩
      · exact mem_map.2 ⟨0, mem_range.2 hpos, rfl⟩
    · -- a local APIC has the invalid id
      refine hvalid (mem_append_left _ (mem_map.2 ⟨15, ?_, hsmall (by omega)⟩))
      exact mem_range.2 (by omega)
  · intro hle
    refine ⟨nodup_append.2 ⟨?_, ?_, ?_⟩, ?_⟩
    · refine List.Nodup.map_on (fun i hi j hj hij => ?_) nodup_range
      rw [mem_range] at hi hj
      rwa [hsmall (by omega), hsmall (by omega)] at hij
    · refine List.Nodup.map_on (fun i hi j hj hij => ?_) nodup_range
      rw [mem_range] at hi hj
      omega
    · intro a ha c hc hac
      obtain ⟨i, hi, rfl⟩ := mem_map.1 ha
      obtain ⟨j, hj, rfl⟩ := mem_map.1 hc
      rw [mem_range] at hi hj
      rw [hsmall (by omega)] at hac
      omega
    · intro hmem
      obtain hmem | hmem := mem_append.1 hmem
      · obtain ⟨i, hi, heq⟩ := mem_map.1 hmem
        rw [mem_range] at hi
        rw [hsmall (by omega)] at heq
        omega
      · obtain ⟨j, hj, heq⟩ := mem_map.1 hmem
        rw [mem_range] at hj
        omega

theorem sound_of_width {w : ℕ} (hw : 4 ≤ w) :
    s.Sound b w (real.toNat + 10) numVcpus.toNat ↔ real.toNat + 10 < 2 ^ 32 ∧
      numVcpus.toNat + nrIoapics (real + virtualIrqSources) ≤ 14 := by
  have hpos : real.toNat + 10 < 2 ^ 32 → 0 < nrIoapics (real + virtualIrqSources) := by
    grind [virtualIrqSources, nrIoapics_eq]
  constructor
  · intro hsound
    have hwrap := (gsi_iff h).1 hsound.gsi
    exact ⟨hwrap, (ids_iff h hw (hpos hwrap)).1 ⟨hsound.distinct, hsound.valid⟩⟩
  · rintro ⟨hwrap, hle⟩
    obtain ⟨hdistinct, hvalid⟩ := (ids_iff h hw (hpos hwrap)).2 hle
    exact ⟨(gsi_iff h).2 hwrap, hdistinct, hvalid⟩

/-- **The APICs are sound exactly when the number of interrupts fits in a word and the ids of the
IO-APICs end before `0xf`**, whether the local APICs are taken to have four bits of id or eight. -/
theorem topology_sound_iff :
    (s.Sound b 4 (real.toNat + 10) numVcpus.toNat ↔ real.toNat + 10 < 2 ^ 32 ∧
      numVcpus.toNat + nrIoapics (real + virtualIrqSources) ≤ 14) ∧
    (s.Sound b 8 (real.toNat + 10) numVcpus.toNat ↔ real.toNat + 10 < 2 ^ 32 ∧
      numVcpus.toNat + nrIoapics (real + virtualIrqSources) ≤ 14) :=
  ⟨sound_of_width h (le_refl 4), sound_of_width h (by decide)⟩

end

theorem sound_one_vcpu : ∃ s, initVirtualApics ⟨4, true⟩ 16 1 = some s ∧
    s.Sound ⟨4, true⟩ 4 26 1 ∧ s.Sound ⟨4, true⟩ 8 26 1 := by
  have hsome : (initVirtualApics ⟨4, true⟩ 16 1).isSome = true := by decide
  obtain ⟨s, hs⟩ := Option.isSome_iff_exists.1 hsome
  obtain ⟨hfour, height⟩ := topology_sound_iff hs
  exact ⟨s, hs, hfour.2 (by decide), height.2 (by decide)⟩

theorem not_sound_fifteen_vcpus : ∃ s, initVirtualApics ⟨4, true⟩ 16 15 = some s ∧
    s.configured 0 = true ∧ (s.virtualIoapic 0).id = 0 ∧
    ¬ s.Sound ⟨4, true⟩ 4 26 15 ∧ ¬ s.Sound ⟨4, true⟩ 8 26 15 := by
  have hsome : (initVirtualApics ⟨4, true⟩ 16 15).isSome = true := by decide
  obtain ⟨s, hs⟩ := Option.isSome_iff_exists.1 hsome
  refine ⟨s, hs, ?_, ?_, mt (sound_of_width hs (le_refl 4)).1 (by decide),
    mt (sound_of_width hs (by decide)).1 (by decide)⟩
  · exact ((after_init hs).configured 0).trans (by decide)
  · rw [(after_init hs).ioapic 0 (by decide)]
    rfl

end Configuration
end ApicTopology
end Wedge
