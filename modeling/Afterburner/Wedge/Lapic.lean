import Afterburner.Wedge.Intlogic

/-!
# The registers of a local APIC

The object `local_apic_t` is an array of 1024 words; the registers are overlaid on it.
-/

namespace Wedge
open Function Bits

inductive RrSel
  | isr
  | tmr
  | irr
  deriving DecidableEq, Repr

def RrSel.base : RrSel → ℕ
  | .isr => 0x100
  | .tmr => 0x180
  | .irr => 0x200

structure Lapic where
  raw : Bits.Str 32

namespace Lapic

def soToRaw (rrSel : RrSel) (offset : ℕ) : ℕ := (rrSel.base + offset) / 4
def sbToRaw (rrSel : RrSel) (bit : ℕ) : ℕ := (rrSel.base + bit / 2 / 16 * 16) / 4
def rrIndex (rrSel : RrSel) (bit : ℕ) : ℕ := 32 * sbToRaw rrSel bit + bit % 32
def testRr (l : Lapic) (rrSel : RrSel) (bit : ℕ) : Bool := l.raw.bt (rrIndex rrSel bit)
def bitSetRr (l : Lapic) (bit : ℕ) (rrSel : RrSel) : Lapic := ⟨l.raw.bts (rrIndex rrSel bit)⟩
def bitClearRr (l : Lapic) (bit : ℕ) (rrSel : RrSel) : Lapic := ⟨l.raw.btr (rrIndex rrSel bit)⟩

def msbRrWord (l : Lapic) (rrSel : RrSel) (offset first below : ℕ) : ℕ :=
  if l.raw (soToRaw rrSel offset) ≠ 0#32 then msb (l.raw (soToRaw rrSel offset)) + first
  else below

def msbRr (l : Lapic) (rrSel : RrSel) : ℕ :=
  l.msbRrWord rrSel 0x70 0xe0 <|
  l.msbRrWord rrSel 0x60 0xc0 <|
  l.msbRrWord rrSel 0x50 0xa0 <|
  l.msbRrWord rrSel 0x40 0x80 <|
  l.msbRrWord rrSel 0x30 0x60 <|
  l.msbRrWord rrSel 0x20 0x40 <|
  l.msbRrWord rrSel 0x10 0x20 <|
  if l.raw (soToRaw rrSel 0) ≠ 0#32 then msb (l.raw rrSel.base) else 0

def msbRrCluster (l : Lapic) (rrSel : RrSel) (cluster : ℕ) : ℕ :=
  if cluster = 0 then 0
  else
    let clusterBit := msb (BitVec.ofNat 32 cluster) * 8 / 32 * 32
    let clusterRaw := l.raw (sbToRaw rrSel clusterBit)
    if clusterRaw ≠ 0#32 then clusterBit + msb clusterRaw else 0

def isEnabled (l : Lapic) : Bool := l.raw 0x2 ≠ 0
def lint0 (l : Lapic) : Word := l.raw 0xd4
def isVirtualWire (l : Lapic) : Bool := l.lint0 >>> 8 &&& 7 = 7 ∧ l.lint0.getLsbD 16 = false
def getId (l : Lapic) : ℕ := (l.raw 0x8 >>> 24).toNat
def getLid (l : Lapic) : Byte := (l.raw 0x34 >>> 24).setWidth 8
def lidMatches (l : Lapic) (ldest : Byte) : Bool := l.getLid &&& ldest ≠ 0
def icrlo (l : Lapic) : Word := l.raw 0xc0
def icrhi (l : Lapic) : Word := l.raw 0xc4
def getIoapic (l : Lapic) (vector : ℕ) : Word := l.raw (0x100 + 2 * vector)
def getPin (l : Lapic) (vector : ℕ) : Word := l.raw (0x101 + 2 * vector)
def setRaw (l : Lapic) (k : ℕ) (x : Word) : Lapic := ⟨update l.raw k x⟩

def setIoapic (l : Lapic) (vector : ℕ) (ioapic : Word) : Lapic :=
  l.setRaw (0x100 + 2 * vector) ioapic

def setPin (l : Lapic) (vector : ℕ) (pin : Word) : Lapic := l.setRaw (0x101 + 2 * vector) pin

def copyFields (l : Lapic) (k : ℕ) (mask value : Word) : Lapic :=
  l.setRaw k ((l.raw k &&& ~~~ mask) ||| (value &&& mask))

def init (id : Byte) (bsp : Bool) : Lapic where
  raw k :=
    match k with
    | 0x2 => if bsp then 1 else 0
    | 0x8 => id.setWidth 32 <<< 24
    | 0xc => 0x00050010
    | 0x38 => 0xffffffff
    | 0x3c => 0x1ff
    | 0xd4 => if bsp then 0x00000700 else 0x00010000
    | 0xd8 => if bsp then 0x00008400 else 0x00010000
    | 0xc8 | 0xcc | 0xd0 | 0xdc => 0x00010000
    | k => if 0x100 ≤ k ∧ k < 0x300 ∧ k % 2 = 1 then 256 else 0

def pendingVector (l : Lapic) : Option (ℕ × Word) × Lapic :=
  let vector := l.msbRr .irr
  let vectorInService := l.msbRr .isr
  if vector / 16 > vectorInService / 16 ∧ vector > 15 then
    let l := (l.bitClearRr vector .irr).bitSetRr vector .isr
    (some (vector, l.getPin vector), l)
  else (none, l)

def raise (l : Lapic) (vector : ℕ) (irq : Word) (reraise fromEoi : Bool) (fromIoapic : Word) :
    Lapic :=
  let l := if reraise then l.bitClearRr vector .isr else l.setPin vector irq
  let l := l.bitSetRr vector .irr
  if fromEoi then (l.setIoapic vector fromIoapic).bitSetRr vector .tmr else l

variable (r : RrSel)

theorem rrIndex_eq (v : ℕ) : rrIndex r v = 8 * r.base + 128 * (v / 32) + v % 32 := by
  unfold rrIndex sbToRaw
  cases r <;> simp only [RrSel.base] <;> omega

variable {v : ℕ}

theorem rrIndex_inj {r q : RrSel} {u : ℕ} (hv : v < 256) (hu : u < 256) :
    rrIndex r v = rrIndex q u ↔ r = q ∧ v = u := by
  constructor
  · intro h
    rw [rrIndex_eq, rrIndex_eq] at h
    cases r <;> cases q <;> simp only [RrSel.base] at h <;>
      first | exact ⟨rfl, by omega⟩ | omega
  · rintro ⟨rfl, rfl⟩
    rfl

variable (l : Lapic)

theorem testRr_bitSetRr (r q : RrSel) {u : ℕ} (hv : v < 256) (hu : u < 256) :
    (l.bitSetRr v r).testRr q u = (l.testRr q u || decide (r = q ∧ v = u)) := by
  simp [testRr, bitSetRr, rrIndex_inj hv hu]

theorem testRr_bitClearRr (r q : RrSel) {u : ℕ} (hv : v < 256) (hu : u < 256) :
    (l.bitClearRr v r).testRr q u = (l.testRr q u && !decide (r = q ∧ v = u)) := by
  simp [testRr, bitClearRr, rrIndex_inj hv hu]

theorem sbToRaw_bounds (hv : v < 256) : 0x40 ≤ sbToRaw r v ∧ sbToRaw r v < 0xa0 := by
  cases r <;> simp only [sbToRaw, RrSel.base] <;> omega

theorem rrIndex_div (v : ℕ) : rrIndex r v / 32 = sbToRaw r v := by
  unfold rrIndex
  omega

section
variable (r : RrSel) (hv : v < 256)
include hv

theorem testRr_setRaw {k : ℕ} (hk : k < 0x40 ∨ 0xa0 ≤ k) (x : Word) :
    (l.setRaw k x).testRr r v = l.testRr r v := by
  have hb := sbToRaw_bounds r hv
  have hne : rrIndex r v / 32 ≠ k := by rw [rrIndex_div]; omega
  simp [testRr, setRaw, Bits.Str.bt, update_of_ne hne]

theorem testRr_setPin (u : ℕ) (pin : Word) :
    (l.setPin u pin).testRr r v = l.testRr r v := testRr_setRaw l r hv (by omega) pin

theorem testRr_setIoapic (u : ℕ) (ioapic : Word) :
    (l.setIoapic u ioapic).testRr r v = l.testRr r v := testRr_setRaw l r hv (by omega) ioapic

theorem raw_bitSetRr {k : ℕ} (hk : k < 0x40 ∨ 0xa0 ≤ k) : (l.bitSetRr v r).raw k = l.raw k := by
  have hb := sbToRaw_bounds r hv
  exact Bits.Str.bts_of_ne _ (by rw [rrIndex_div]; omega)

theorem raw_bitClearRr {k : ℕ} (hk : k < 0x40 ∨ 0xa0 ≤ k) : (l.bitClearRr v r).raw k = l.raw k := by
  have hb := sbToRaw_bounds r hv
  exact Bits.Str.btr_of_ne _ (by rw [rrIndex_div]; omega)

end

theorem raw_setRaw_self (k : ℕ) (x : Word) : (l.setRaw k x).raw k = x := by
  simp [setRaw]

theorem raw_setRaw_of_ne {j k : ℕ} (h : j ≠ k) (x : Word) :
    (l.setRaw k x).raw j = l.raw j := update_of_ne h _ _

theorem testRr_init (id : Byte) (bsp : Bool) (r : RrSel) (hv : v < 256) :
    (init id bsp).testRr r v = false := by
  have hb := sbToRaw_bounds r hv
  have hraw : (init id bsp).raw (sbToRaw r v) = 0 := by
    simp only [init]
    split <;> first | omega | exact if_neg (by omega)
  simp [testRr, Bits.Str.bt, rrIndex_div, hraw]

theorem raw_raise {k : ℕ} (hv : v < 256) (hk : k < 0x40 ∨ 0xa0 ≤ k ∧ k < 0x100) (irq : Word)
    (reraise fromEoi : Bool) (fromIoapic : Word) :
    (l.raise v irq reraise fromEoi fromIoapic).raw k = l.raw k := by
  grind [raise, setPin, setIoapic, raw_bitSetRr, raw_bitClearRr, raw_setRaw_of_ne]

theorem testRr_raise_eq (q : RrSel) {u : ℕ} (hv : v < 256) (hu : u < 256) (irq : Word)
    (reraise fromEoi : Bool) (fromIoapic : Word) :
    (l.raise v irq reraise fromEoi fromIoapic).testRr q u =
      (l.testRr q u && !(reraise && decide (q = .isr ∧ v = u)) || decide (q = .irr ∧ v = u) ||
        (fromEoi && decide (q = .tmr ∧ v = u))) := by
  cases reraise <;> cases fromEoi <;>
    simp [raise, testRr_bitSetRr _ _ _ hv hu, testRr_bitClearRr _ _ _ hv hu, testRr_setPin _ _ hu,
      testRr_setIoapic _ _ hu, eq_comm (a := q)]

theorem soToRaw_eq (k : ℕ) {i : ℕ} (hi : i < 32) : soToRaw r (16 * k) = sbToRaw r (32 * k + i) := by
  unfold soToRaw sbToRaw
  omega

theorem testRr_eq_getLsbD (r : RrSel) (k : ℕ) {i : ℕ} (hi : i < 32) :
    l.testRr r (32 * k + i) = (l.raw (soToRaw r (16 * k))).getLsbD i := by
  have hmod : (32 * k + i) % 32 = i := by omega
  rw [testRr, rrIndex, hmod, soToRaw_eq r k hi, Bits.Str.bt_mul_add _ _ hi]

theorem isTop_msbRrWord (r : RrSel) (k : ℕ) {b : ℕ}
    (h : Bits.IsTop (fun v => l.testRr r v = true) (32 * k) b) :
    Bits.IsTop (fun v => l.testRr r v = true) (32 * (k + 1))
      (l.msbRrWord r (16 * k) (32 * k) b) :=
  Bits.IsTop.word (fun i hi => by rw [testRr_eq_getLsbD l r k hi]) h

theorem isTop_msbRr (r : RrSel) (hlow : ∀ v < 32, l.testRr r v = false) :
    Bits.IsTop (fun v => l.testRr r v = true) 256 (l.msbRr r) := by
  have hword : l.raw (soToRaw r 0) = 0#32 := by
    rw [eq_zero_iff]
    intro i
    by_cases hi : i < 32
    · have := testRr_eq_getLsbD l r 0 hi
      rw [← this, Nat.mul_zero, Nat.zero_add]
      exact hlow i hi
    · exact BitVec.getLsbD_of_ge _ _ (not_lt.1 hi)
  have hbase : Bits.IsTop (fun v => l.testRr r v = true) (32 * 1)
      (if l.raw (soToRaw r 0) ≠ 0#32 then msb (l.raw r.base) else 0) := by
    rw [if_neg (not_not.2 hword)]
    exact Bits.IsTop.of_none fun v hv => by simp [hlow v hv]
  exact isTop_msbRrWord l r 7 <| isTop_msbRrWord l r 6 <| isTop_msbRrWord l r 5 <|
    isTop_msbRrWord l r 4 <| isTop_msbRrWord l r 3 <| isTop_msbRrWord l r 2 <|
    isTop_msbRrWord l r 1 hbase

theorem msb_ofNat_bounds (hv : 32 ≤ v) (hv' : v < 256) :
    5 ≤ msb (BitVec.ofNat 32 v) ∧ msb (BitVec.ofNat 32 v) < 8 := by
  have hbit : ∀ i, (BitVec.ofNat 32 v).getLsbD i = v.testBit i := by
    intro i
    rw [BitVec.getLsbD, BitVec.toNat_ofNat, Nat.mod_eq_of_lt (by omega)]
  obtain ⟨i, hi, hvi⟩ := Nat.exists_ge_and_testBit_of_ge_two_pow (n := 5) hv
  have hi' : (BitVec.ofNat 32 v).getLsbD i = true := (hbit i).trans hvi
  refine ⟨hi.trans (le_msb hi'), ?_⟩
  have hle := Nat.ge_two_pow_of_testBit ((hbit _).symm.trans (getLsbD_msb hi'))
  exact (Nat.pow_lt_pow_iff_right (a := 2) (by omega)).1 (by omega : _ < 2 ^ 8)

theorem msbRrCluster_eq_zero_iff (r : RrSel) (hv : 32 ≤ v) (hv' : v < 256) :
    l.msbRrCluster r v = 0 ↔ ∀ u, 32 ≤ u → u < 64 → l.testRr r u = false := by
  have hmsb := msb_ofNat_bounds hv hv'
  have hbit : msb (BitVec.ofNat 32 v) * 8 / 32 * 32 = 32 := by omega
  have hword : l.raw (sbToRaw r 32) = 0#32 ↔ ∀ u, 32 ≤ u → u < 64 → l.testRr r u = false := by
    rw [eq_zero_iff]
    constructor
    · intro h u hu hu'
      obtain ⟨i, rfl⟩ := Nat.exists_eq_add_of_le hu
      exact (testRr_eq_getLsbD l r 1 (by omega : i < 32)).trans (h i)
    · intro h i
      by_cases hi : i < 32
      · exact (testRr_eq_getLsbD l r 1 hi).symm.trans (h _ (by omega) (by omega))
      · exact BitVec.getLsbD_of_ge _ _ (not_lt.1 hi)
  simp only [msbRrCluster, hbit]
  split_ifs <;> first | omega | simp_all

end Lapic
end Wedge
