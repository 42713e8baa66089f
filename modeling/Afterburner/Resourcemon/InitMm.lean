import Afterburner.Lib.Blocks
import Afterburner.Lib.Runs
import Afterburner.Resourcemon.Vm

/-!
# Placing a VM in host memory

`vm_t::init_mm` starts at address `0` and moves behind what is in the way: the VMs, then the
reserved memory of the KIP.
-/

namespace Resourcemon
open Runs Option List

def roundUp (addr size : Word) : Word :=
  if size = 0 then addr
  else if addr % size ≠ 0 then (addr + size) &&& ~~~ (size - 1) else addr

def mb4 : Word := 0x400000

theorem toNat_roundUp (a : Word) :
    (roundUp a mb4).toNat =
      if a.toNat % 2 ^ 22 = 0 then a.toNat
      else Blocks.floor (2 ^ 22) ((a.toNat + 2 ^ 22) % 2 ^ 32) := by
  have hsize : mb4.toNat = 2 ^ 22 := by decide
  have hmask : mb4 - 1 = 0x3fffff := by decide
  have hmod : a % mb4 = 0 ↔ a.toNat % 2 ^ 22 = 0 := by
    rw [← BitVec.toNat_inj, BitVec.toNat_umod, hsize, show (0 : Word).toNat = 0 from rfl]
  unfold roundUp
  rw [if_neg (by decide)]
  by_cases h : a % mb4 = 0
  · rw [if_neg (not_not.2 h), if_pos (hmod.1 h)]
  · rw [if_pos h, if_neg (fun h' => h (hmod.2 h'))]
    rw [hmask, ← hsize, ← BitVec.toNat_add]
    exact Blocks.toNat_and_not 22 _

theorem roundUp_mod (a : Word) : (roundUp a mb4).toNat % 2 ^ 22 = 0 := by
  rw [toNat_roundUp]
  split_ifs with h
  · exact h
  · exact Nat.mod_eq_zero_of_dvd (Blocks.dvd_floor _ _)

structure Region where
  base : Word
  len : Word
  base_aligned : superPageSize ∣ base.toNat
  len_aligned : superPageSize ∣ len.toNat
  fits : base.toNat + len.toNat < 2 ^ 32

inductive MemoryType
  | conventional
  | shared
  | other
  deriving DecidableEq

structure MemoryDesc where
  lowBits : BitVec 22
  highBits : BitVec 22
  isVirtual : Bool
  type : MemoryType

namespace MemoryDesc
variable (d : MemoryDesc)

def low : Word := BitVec.ofNat 32 (d.lowBits.toNat * 1024)
def high : Word := BitVec.ofNat 32 (d.highBits.toNat * 1024 + 1023)

def isReserved : Bool :=
  !d.isVirtual && d.type ≠ .conventional && !(d.type = .shared && d.low = 0 && d.high + 1 = 0)

def conflicts (start last : Word) : Bool :=
  (start < d.low && last ≥ d.low) || (start < d.high && last ≥ d.high) ||
    (start ≥ d.low && last ≤ d.high)

theorem toNat_high : d.high.toNat % 1024 = 1023 := by
  rw [high, BitVec.toNat_ofNat]
  omega

end MemoryDesc

structure Placement where
  regions : List Region
  descs : List MemoryDesc
  maxPhysAddr : Word
  request : Word

namespace Placement
variable (p : Placement)

def size : Word := roundUp p.request mb4

def vmConflict (start : Word) : Option Word :=
  let last := start + p.size
  (p.regions.find? fun r =>
      r.len ≠ 0 && !(last ≤ r.base || start ≥ r.base + r.len)).map
    fun r => roundUp (r.base + r.len) mb4

def kipConflict (start : Word) : Option Word :=
  let last := p.size - 1 + start
  (p.descs.find? fun d => d.isReserved && d.conflicts start last).map fun d => d.high + 1

inductive Probe
  | vms (start : Word)
  | kip (start : Word) (found : Bool)
  deriving DecidableEq

def probeStep : Probe → Probe ⊕ Option Word
  | .vms start =>
    match p.vmConflict start with
    | some next => .inl (.vms next)
    | none => .inl (.kip start true)
  | .kip start found =>
    match p.kipConflict start with
    | some next =>
      if roundUp next mb4 = 0 then .inr none else .inl (.kip (roundUp next mb4) false)
    | none => if found then .inr (some start) else .inl (.vms start)

def decideRegion : Option Word → Option (Word × Word)
  | none => none
  | some start => if start + p.size - 1 ≥ p.maxPhysAddr then none else some (start, p.size)

def initMm (fuel : ℕ) : Option (Option (Word × Word)) :=
  match runFor p.probeStep fuel (.vms 0) with
  | .inl _ => none
  | .inr found => some (p.decideRegion found)

def Terminates : Prop := ∃ fuel r, p.initMm fuel = some r
def InRegion (base len : Word) (x : ℕ) : Prop := base.toNat ≤ x ∧ x < base.toNat + len.toNat

def Sound : Prop :=
  ∀ fuel base len, p.initMm fuel = some (some (base, len)) →
    base.toNat + len.toNat ≤ 2 ^ 32 ∧
    (∀ x, InRegion base len x → x < p.maxPhysAddr.toNat) ∧
    (∀ r ∈ p.regions, ∀ x, InRegion base len x → ¬ InRegion r.base r.len x) ∧
    (∀ d ∈ p.descs, d.isReserved = true → ∀ x, InRegion base len x →
      ¬ (d.low.toNat ≤ x ∧ x ≤ d.high.toNat))

def Probed (a : Word) : Prop := Runs.Reach (Runs.Moves p.probeStep) (.vms 0) (.vms a)

def Probe.start : Probe → Word
  | .vms a => a
  | .kip a _ => a

theorem initMm_eq_some_iff {r : Option (Word × Word)} :
    (∃ fuel, p.initMm fuel = some r) ↔
      ∃ found, p.decideRegion found = r ∧
        ∃ fuel, runFor p.probeStep fuel (.vms 0) = .inr found := by
  constructor
  · rintro ⟨fuel, h⟩
    unfold initMm at h
    cases hrun : runFor p.probeStep fuel (.vms 0) with
    | inl _ => rw [hrun] at h; cases h
    | inr found =>
      rw [hrun] at h
      exact ⟨found, some.inj h, fuel, hrun⟩
  · rintro ⟨found, rfl, fuel, hrun⟩
    exact ⟨fuel, by rw [initMm, hrun]⟩

variable {p}

theorem reach_invariant_probe {q : Probe} (h : Runs.Reach (Runs.Moves p.probeStep) (.vms 0) q) :
    q.start.toNat % 2 ^ 22 = 0 ∧
      ∀ a, q = .kip a true → p.Probed a ∧ p.vmConflict a = none := by
  induction h with
  | refl => exact ⟨rfl, fun a ha => by cases ha⟩
  | @tail s t hs hst ih =>
    have hst' : p.probeStep s = .inl t := hst
    cases s with
    | vms a =>
      simp only [probeStep] at hst'
      cases hc : p.vmConflict a with
      | none =>
        rw [hc] at hst'
        obtain rfl := Sum.inl.inj hst'
        refine ⟨ih.1, fun b hb => ?_⟩
        obtain rfl : a = b := by simpa using hb
        exact ⟨hs, hc⟩
      | some next =>
        rw [hc] at hst'
        obtain rfl := Sum.inl.inj hst'
        refine ⟨?_, fun b hb => by cases hb⟩
        obtain ⟨r, -, rfl⟩ := map_eq_some_iff.1 hc
        exact roundUp_mod _
    | kip a found =>
      simp only [probeStep] at hst'
      cases hc : p.kipConflict a with
      | none =>
        rw [hc] at hst'
        cases found with
        | true => simp at hst'
        | false =>
          obtain rfl : Probe.vms a = t := by simpa using hst'
          exact ⟨ih.1, fun b hb => by cases hb⟩
      | some next =>
        rw [hc] at hst'
        dsimp only at hst'
        split_ifs at hst' with h0
        obtain rfl := Sum.inl.inj hst'
        exact ⟨roundUp_mod _, fun b hb => by simp at hb⟩

variable {a : Word}

theorem found_iff :
    (∃ fuel, runFor p.probeStep fuel (.vms 0) = .inr (some a)) ↔
      p.Probed a ∧ p.vmConflict a = none ∧ p.kipConflict a = none := by
  rw [exists_runFor_inr_iff]
  constructor
  · rintro ⟨q, hq, hstop⟩
    cases q with
    | vms b =>
      simp only [probeStep] at hstop
      split at hstop <;> cases hstop
    | kip b found =>
      simp only [probeStep] at hstop
      cases hc : p.kipConflict b with
      | some next =>
        rw [hc] at hstop
        dsimp only at hstop
        split_ifs at hstop
        cases hstop
      | none =>
        rw [hc] at hstop
        cases found with
        | false => simp at hstop
        | true =>
          obtain rfl : b = a := by simpa using hstop
          obtain ⟨hprobed, hvm⟩ := (reach_invariant_probe hq).2 b rfl
          exact ⟨hprobed, hvm, hc⟩
  · rintro ⟨hprobed, hvm, hkip⟩
    refine ⟨.kip a true, hprobed.tail ?_, by simp [probeStep, hkip]⟩
    show p.probeStep (.vms a) = .inl (.kip a true)
    simp [probeStep, hvm]

theorem mem_regions_of_vmConflict (h : p.vmConflict a = none) {r : Region} (hr : r ∈ p.regions) :
    r.len = 0 ∨ a + p.size ≤ r.base ∨ a ≥ r.base + r.len := by
  have hnone := map_eq_none_iff.1 h
  have hr' := find?_eq_none.1 hnone r hr
  simp only [Bool.and_eq_true, Bool.not_eq_true', Bool.or_eq_false_iff, decide_eq_true_eq,
    decide_eq_false_iff_not] at hr'
  tauto

theorem not_conflicts_of_kipConflict (h : p.kipConflict a = none) {d : MemoryDesc}
    (hd : d ∈ p.descs) (hres : d.isReserved = true) : d.conflicts a (p.size - 1 + a) = false := by
  have hnone := map_eq_none_iff.1 h
  have hd' := find?_eq_none.1 hnone d hd
  simpa [hres] using hd'

theorem sound_of_passed (hmod : a.toNat % 2 ^ 22 = 0) (hvm : p.vmConflict a = none)
    (hkip : p.kipConflict a = none) (hfit : a.toNat + p.size.toNat ≤ 2 ^ 32)
    (hmax : (a + p.size - 1).toNat < p.maxPhysAddr.toNat) :
    (∀ x, InRegion a p.size x → x < p.maxPhysAddr.toNat) ∧
    (∀ r ∈ p.regions, ∀ x, InRegion a p.size x → ¬ InRegion r.base r.len x) ∧
    (∀ d ∈ p.descs, d.isReserved = true → ∀ x, InRegion a p.size x →
      ¬ (d.low.toNat ≤ x ∧ x ≤ d.high.toNat)) := by
  have hone : (1 : Word).toNat = 1 := rfl
  rw [BitVec.toNat_sub, BitVec.toNat_add, hone] at hmax
  refine ⟨fun x hx => ?_, fun r hr x hx hxr => ?_, fun d hd hres x hx hxd => ?_⟩
  · unfold InRegion at hx
    omega
  · unfold InRegion at hx hxr
    have hfits := r.fits
    rcases mem_regions_of_vmConflict hvm hr with h | h | h
    · rw [h, show (0 : Word).toNat = 0 from rfl] at hxr
      omega
    · rw [BitVec.le_def, BitVec.toNat_add] at h
      omega
    · rw [ge_iff_le, BitVec.le_def, BitVec.toNat_add] at h
      omega
  · unfold InRegion at hx
    -- the end of a descriptor is never the start of a block
    have hhigh := d.toNat_high
    have hcon := not_conflicts_of_kipConflict hkip hd hres
    simp only [MemoryDesc.conflicts, Bool.or_eq_false_iff, Bool.and_eq_false_iff,
      decide_eq_false_iff_not, BitVec.lt_def, BitVec.le_def, ge_iff_le, BitVec.toNat_add,
      BitVec.toNat_sub, hone] at hcon
    omega

theorem initMm_eq_some_some_iff {base len : Word} :
    (∃ fuel, p.initMm fuel = some (some (base, len))) ↔
      len = p.size ∧ p.Probed base ∧ p.vmConflict base = none ∧ p.kipConflict base = none ∧
        (base + p.size - 1).toNat < p.maxPhysAddr.toNat := by
  rw [initMm_eq_some_iff]
  constructor
  · rintro ⟨found, hdec, hrun⟩
    cases found with
    | none => cases hdec
    | some a =>
      simp only [decideRegion] at hdec
      split_ifs at hdec with hmax
      obtain ⟨rfl, rfl⟩ : a = base ∧ p.size = len := by simpa using hdec
      obtain ⟨hprobed, hvm, hkip⟩ := found_iff.1 hrun
      refine ⟨rfl, hprobed, hvm, hkip, ?_⟩
      rw [ge_iff_le, BitVec.le_def, not_le] at hmax
      exact hmax
  · rintro ⟨rfl, hprobed, hvm, hkip, hmax⟩
    refine ⟨some base, ?_, found_iff.2 ⟨hprobed, hvm, hkip⟩⟩
    rw [decideRegion, if_neg]
    rw [ge_iff_le, BitVec.le_def]
    omega

instance : Finite Probe := by
  have hword : Finite Word :=
    Finite.of_injective BitVec.toFin fun a b h => BitVec.eq_of_toNat_eq (congrArg Fin.val h)
  refine Finite.of_injective (fun q : Probe => (q.start, match q with
    | .vms _ => none
    | .kip _ found => some found)) ?_
  rintro (a | ⟨a, f⟩) (b | ⟨b, g⟩) h <;> simp_all [Probe.start]

theorem terminates_iff : p.Terminates ↔ ¬ Runs.Loops p.probeStep (.vms 0) := by
  rw [← stops_iff]
  constructor
  · rintro ⟨fuel, r, h⟩
    obtain ⟨found, -, fuel, hrun⟩ := (initMm_eq_some_iff p).1 ⟨fuel, h⟩
    exact ⟨fuel, found, hrun⟩
  · rintro ⟨fuel, found, hrun⟩
    obtain ⟨fuel, h⟩ := (initMm_eq_some_iff p).2 ⟨found, rfl, fuel, hrun⟩
    exact ⟨fuel, _, h⟩

/-- The start of a block of 4 MB at which the search finds nothing in the way. -/
def Passes (p : Placement) (a : Word) : Prop :=
  a.toNat % 2 ^ 22 = 0 ∧ p.vmConflict a = none ∧ p.kipConflict a = none

/-- No block below `a` is free and ends below the top of the address space. -/
def NoneBelow (p : Placement) (a : Word) : Prop :=
  ∀ g < a, p.Passes g → 0 < p.size.toNat → ¬ g.toNat + p.size.toNat < 2 ^ 32

/-- Up to the first free block below the top: a descriptor that is in the way ends behind the block,
and a block that crosses the top is refused in the end. -/
def Climbs (p : Placement) : Prop :=
  ∀ a : Word, a.toNat % 2 ^ 22 = 0 → p.NoneBelow a →
    (∀ next, p.kipConflict a = some next → roundUp next mb4 = 0 ∨ a < roundUp next mb4) ∧
      (p.Passes a → a.toNat + p.size.toNat ≤ 2 ^ 32 ∨
        p.maxPhysAddr.toNat ≤ a.toNat + p.size.toNat - 1 - 2 ^ 32)

theorem exists_region_of_vmConflict {next : Word} (h : p.vmConflict a = some next) :
    ∃ r ∈ p.regions, r.len ≠ 0 ∧ next.toNat = r.base.toNat + r.len.toNat ∧ a < next ∧
      r.base.toNat < (a.toNat + p.size.toNat) % 2 ^ 32 := by
  obtain ⟨r, hr, rfl⟩ := map_eq_some_iff.1 h
  have htest := find?_some hr
  have hfits := r.fits
  have hbase := r.base_aligned
  have hlen := r.len_aligned
  have hend : (r.base + r.len).toNat = r.base.toNat + r.len.toNat := by
    rw [BitVec.toNat_add, Nat.mod_eq_of_lt hfits]
  have haligned : (r.base + r.len).toNat % 2 ^ 22 = 0 := by
    rw [hend]
    exact Nat.mod_eq_zero_of_dvd (Nat.dvd_add hbase hlen)
  have hround : (roundUp (r.base + r.len) mb4).toNat = r.base.toNat + r.len.toNat := by
    rw [toNat_roundUp, if_pos haligned, hend]
  simp only [Bool.and_eq_true, Bool.not_eq_true', Bool.or_eq_false_iff, decide_eq_true_eq,
    decide_eq_false_iff_not, BitVec.le_def, ge_iff_le, BitVec.toNat_add] at htest
  refine ⟨r, mem_of_find?_eq_some hr, htest.1, hround, ?_, not_le.1 htest.2.1⟩
  rw [BitVec.lt_def, hround]
  have := htest.2.2
  omega

theorem le_of_vmConflict {next g : Word} (h : p.vmConflict a = some next) (hag : a ≤ g)
    (hg : p.Passes g) (htop : g.toNat + p.size.toNat < 2 ^ 32) : next ≤ g := by
  obtain ⟨r, hr, hlen, hnext, hlt, hbase⟩ := exists_region_of_vmConflict h
  have hfits := r.fits
  rw [BitVec.le_def] at hag ⊢
  rw [BitVec.lt_def] at hlt
  rcases mem_regions_of_vmConflict hg.2.1 hr with h0 | h0 | h0
  · exact absurd h0 hlen
  · rw [BitVec.le_def, BitVec.toNat_add] at h0
    omega
  · rw [ge_iff_le, BitVec.le_def, BitVec.toNat_add] at h0
    omega

theorem le_of_kipConflict {next g : Word} (h : p.kipConflict a = some next)
    (hag : a ≤ g) (hg : p.Passes g) (hpos : 0 < p.size.toNat)
    (htop : g.toNat + p.size.toNat < 2 ^ 32) : roundUp next mb4 ≤ g := by
  obtain ⟨d, hd, rfl⟩ := map_eq_some_iff.1 h
  have htest := find?_some hd
  rw [Bool.and_eq_true] at htest
  have hfree := not_conflicts_of_kipConflict hg.2.2 (mem_of_find?_eq_some hd) htest.1
  have hhigh := d.toNat_high
  have hone : (1 : Word).toNat = 1 := rfl
  have hlt : d.high.toNat < g.toNat := by
    have hcon := htest.2
    have hmod := hg.1
    rw [BitVec.le_def] at hag
    simp only [MemoryDesc.conflicts, Bool.or_eq_false_iff, Bool.and_eq_false_iff,
      decide_eq_false_iff_not, Bool.or_eq_true, Bool.and_eq_true, decide_eq_true_eq,
      BitVec.lt_def, BitVec.le_def, ge_iff_le, BitVec.toNat_add, BitVec.toNat_sub, hone]
      at hfree hcon
    omega
  have hsucc : (d.high + 1).toNat = d.high.toNat + 1 := by
    rw [BitVec.toNat_add, hone, Nat.mod_eq_of_lt (by omega)]
  rw [BitVec.le_def, toNat_roundUp, hsucc]
  have hmod := hg.1
  split_ifs
  · omega
  · unfold Blocks.floor
    omega

/-- The order in which the search goes on as long as it goes up. -/
def Probe.rank : Probe → ℕ
  | .vms a => 3 * a.toNat + 1
  | .kip a false => 3 * a.toNat
  | .kip a true => 3 * a.toNat + 2

theorem NoneBelow.of_le {b : Word} (h : p.NoneBelow a)
    (hle : ∀ g, a ≤ g → p.Passes g → 0 < p.size.toNat → g.toNat + p.size.toNat < 2 ^ 32 → b ≤ g) :
    p.NoneBelow b := by
  intro g hgb hg hpos htop
  by_cases hga : g < a
  · exact h g hga hg hpos htop
  · exact absurd hgb (BitVec.not_lt.2 (hle g (BitVec.not_lt.1 hga) hg hpos htop))

theorem Climbs.moves (h : p.Climbs) {q q' : Probe} (hmod : q.start.toNat % 2 ^ 22 = 0)
    (hq : p.NoneBelow q.start) (hmove : p.probeStep q = .inl q') :
    p.NoneBelow q'.start ∧ q.rank < q'.rank := by
  cases q with
  | vms a =>
    simp only [probeStep] at hmove
    cases hc : p.vmConflict a with
    | none =>
      rw [hc] at hmove
      obtain rfl := Sum.inl.inj hmove
      exact ⟨hq, Nat.lt_succ_self _⟩
    | some next =>
      rw [hc] at hmove
      obtain rfl := Sum.inl.inj hmove
      obtain ⟨-, -, -, -, hlt, -⟩ := exists_region_of_vmConflict hc
      refine ⟨hq.of_le fun g hag hg _ htop => le_of_vmConflict hc hag hg htop, ?_⟩
      rw [BitVec.lt_def] at hlt
      simp only [Probe.rank]
      omega
  | kip a found =>
    simp only [probeStep] at hmove
    cases hc : p.kipConflict a with
    | none =>
      rw [hc] at hmove
      cases found with
      | true => simp at hmove
      | false =>
        obtain rfl : Probe.vms a = q' := by simpa using hmove
        exact ⟨hq, Nat.lt_succ_self _⟩
    | some next =>
      rw [hc] at hmove
      dsimp only at hmove
      split_ifs at hmove with h0
      obtain rfl := Sum.inl.inj hmove
      have hlt := ((h a hmod hq).1 next hc).resolve_left h0
      refine ⟨hq.of_le fun g hag hg hpos htop => le_of_kipConflict hc hag hg hpos htop, ?_⟩
      rw [BitVec.lt_def] at hlt
      cases found <;> simp only [Probe.rank] <;> omega

section
variable (h : p.Climbs) {q : Probe} (hq : Runs.Reach (Runs.Moves p.probeStep) (.vms 0) q)
include h hq

theorem Climbs.noneBelow : p.NoneBelow q.start := by
  induction hq with
  | refl => exact fun g hg => absurd hg (BitVec.not_lt_zero)
  | tail hs hst ih => exact (h.moves (reach_invariant_probe hs).1 ih hst).1

theorem Climbs.rank_lt {q' : Probe} (hmoves : Relation.TransGen (Runs.Moves p.probeStep) q q') :
    q.rank < q'.rank := by
  induction hmoves with
  | single hst => exact (h.moves (reach_invariant_probe hq).1 (h.noneBelow hq) hst).2
  | tail hs hst ih =>
    have hreach := hq.trans hs.to_reflTransGen
    exact ih.trans (h.moves (reach_invariant_probe hreach).1 (h.noneBelow hreach) hst).2

end

/-- With descriptors that are not empty, a free block below the top is enough. -/
theorem climbs_of_passes {g : Word} (hdescs : ∀ d ∈ p.descs, d.isReserved = true → d.low ≤ d.high)
    (hpos : 0 < p.size.toNat) (hg : p.Passes g) (htop : g.toNat + p.size.toNat < 2 ^ 32) :
    p.Climbs := by
  intro a hmod hnone
  have hag : a ≤ g := BitVec.not_lt.1 fun hga => hnone g hga hg hpos htop
  rw [BitVec.le_def] at hag
  refine ⟨fun next hnext => ?_, fun _ => .inl (by omega)⟩
  obtain ⟨d, hd, rfl⟩ := map_eq_some_iff.1 hnext
  have htest := find?_some hd
  rw [Bool.and_eq_true] at htest
  have hle := hdescs d (mem_of_find?_eq_some hd) htest.1
  have hhigh := d.toNat_high
  have hone : (1 : Word).toNat = 1 := rfl
  have hlt : a.toNat < d.high.toNat := by
    have hcon := htest.2
    simp only [MemoryDesc.conflicts, Bool.or_eq_true, Bool.and_eq_true, decide_eq_true_eq,
      BitVec.lt_def, BitVec.le_def, ge_iff_le, BitVec.toNat_add, BitVec.toNat_sub, hone]
      at hle hcon
    omega
  by_cases h0 : roundUp (d.high + 1) mb4 = 0
  · exact .inl h0
  · refine .inr ?_
    rw [← BitVec.toNat_inj, show (0 : Word).toNat = 0 from rfl] at h0
    rw [BitVec.lt_def]
    rw [toNat_roundUp, BitVec.toNat_add, hone] at h0 ⊢
    split_ifs at h0 ⊢
    · omega
    · unfold Blocks.floor at h0 ⊢
      omega

def smallRequest : Placement where
  regions := [⟨0, 0x800000, by decide, by decide, by decide⟩]
  descs := []
  maxPhysAddr := 0x1fffffff
  request := 0x400000

def hugeRequest : Placement where
  regions := [⟨0, 0x800000, by decide, by decide, by decide⟩]
  descs := []
  maxPhysAddr := 0x1fffffff
  request := 0xffc00000

def fullMemory : Placement where
  regions := [⟨0, 0x400000, by decide, by decide, by decide⟩,
    ⟨0x400000, 0xff800000, by decide, by decide, by decide⟩]
  descs := [⟨0, 0xfff, false, .other⟩]
  maxPhysAddr := 0xfffff3ff
  request := 0x800000

end Placement
end Resourcemon
