import Afterburner.Lib.BitPool
import Afterburner.Wedge.Intlogic

/-!
# Thread ids and UTCBs of the wedge

`l4thread_manager_t` hands out thread numbers and UTCBs from bit masks, in which `init` marks those
of its own thread.
-/

namespace Wedge
open List BitVec Nat Bits.Str Runs Bits Option

abbrev Masks := Bits.Str 32
def sizeofWord : ℕ := 4

def bitAllocateAtomic (base : Masks) (bitEnd : ℕ) : ℕ × Masks :=
  let totWords := if bitEnd / sizeofWord = 0 then 1 else bitEnd / sizeofWord
  match (range totWords).find? fun wordCount => base wordCount ≠ ~~~ 0#32 with
  | some wordCount =>
    let word := base wordCount
    let bit := if word = 0 then 0 else lsb (~~~ word)
    (bit + wordCount * sizeofWord * 8, Function.update base wordCount (insert word bit))
  | none => (bitEnd, base)

structure L4threadManager where
  /-- `CONFIG_NR_VCPUS` -/
  nrVcpus : ℕ
  threadSpaceStart : Word
  threadSpaceLen : Word
  utcbSize : Word
  utcbBase : Word
  utcbMask : Masks
  tidMask : Masks

namespace L4threadManager
variable (m : L4threadManager)

def maxThreads : ℕ := 4096
def maxLocalThreads (nrVcpus : ℕ) : ℕ := nrVcpus * 3 + 5
def utcbMaskWords (nrVcpus : ℕ) : ℕ := maxLocalThreads nrVcpus / sizeofWord + 1
def setBit (s : Masks) (word bit : ℕ) : Masks := Function.update s word (insert (s word) bit)

def setUtcbBit (word bit : ℕ) : L4threadManager :=
  if word < utcbMaskWords m.nrVcpus then { m with utcbMask := setBit m.utcbMask word bit }
  else { m with tidMask := setBit m.tidMask (word - utcbMaskWords m.nrVcpus) bit }

def init (nrVcpus : ℕ) (tidSpaceStart tidSpaceLen utcbSize myself myLocalId : Word) :
    L4threadManager :=
  let myTidx := myself - tidSpaceStart
  let utcbBase := (myLocalId &&& ~~~ (utcbSize - 1)) - myTidx * utcbSize
  let myUidx := (myLocalId - utcbBase) / utcbSize
  let m : L4threadManager :=
    { nrVcpus := nrVcpus
      threadSpaceStart := tidSpaceStart
      threadSpaceLen := if tidSpaceLen.toNat > maxThreads then BitVec.ofNat 32 maxThreads
        else tidSpaceLen
      utcbSize := utcbSize
      utcbBase := utcbBase
      utcbMask := fun _ => 0
      tidMask := setBit (fun _ => 0) (myTidx.toNat / sizeofWord) (myTidx.toNat % sizeofWord) }
  m.setUtcbBit (myUidx.toNat / sizeofWord) (myUidx.toNat % sizeofWord)

def threadIdAllocate : Option Word × L4threadManager :=
  let r := bitAllocateAtomic m.tidMask m.threadSpaceLen.toNat
  (if r.1 ≥ m.threadSpaceLen.toNat then none
    else some (m.threadSpaceStart + BitVec.ofNat 32 r.1), { m with tidMask := r.2 })

def threadIdRelease (tid : Word) : L4threadManager :=
  { m with tidMask := m.tidMask.btr (tid - m.threadSpaceStart).toNat }

def utcbAllocate : Word × L4threadManager :=
  let r := bitAllocateAtomic m.utcbMask (maxLocalThreads m.nrVcpus)
  (if r.1 ≥ maxLocalThreads m.nrVcpus then 0
    else BitVec.ofNat 32 r.1 * m.utcbSize + m.utcbBase, { m with utcbMask := r.2 })

def utcbRelease (utcb : Word) : L4threadManager :=
  { m with utcbMask := m.utcbMask.btr ((utcb - m.utcbBase) / m.utcbSize).toNat }

end L4threadManager

structure Startup where
  nrVcpus : ℕ
  start : Word
  len : Word
  idx : ℕ
  area : Word
  utcbBits : ℕ
  low : ℕ
  idx_lt : idx < len.toNat
  area_ne : area ≠ 0
  area_aligned : 2 ^ utcbBits ∣ area.toNat
  low_lt : low < 2 ^ utcbBits
  fits : area.toNat + max (idx + 1) (L4threadManager.maxLocalThreads nrVcpus) * 2 ^ utcbBits ≤
    2 ^ 32

variable (c : Startup)

namespace Startup
def tid (k : ℕ) : Word := c.start + BitVec.ofNat 32 k
def utcb (k : ℕ) : Word := BitVec.ofNat 32 (c.area.toNat + k * 2 ^ c.utcbBits)
def space : ℕ := min c.len.toNat L4threadManager.maxThreads
def localThreads : ℕ := L4threadManager.maxLocalThreads c.nrVcpus

def init : L4threadManager :=
  .init c.nrVcpus c.start c.len (BitVec.ofNat 32 (2 ^ c.utcbBits)) (c.tid c.idx)
    (BitVec.ofNat 32 (c.area.toNat + c.idx * 2 ^ c.utcbBits + c.low))

end Startup

structure Allocations where
  mgr : L4threadManager
  tids : List Word
  utcbs : List Word

variable (s : Allocations)

namespace Allocations

inductive Op
  | threadIdAllocate
  | threadIdRelease (tid : Word)
  | utcbAllocate
  | utcbRelease (utcb : Word)

def step : Op → Allocations
  | .threadIdAllocate =>
    { s with mgr := s.mgr.threadIdAllocate.2, tids := s.mgr.threadIdAllocate.1.toList ++ s.tids }
  | .threadIdRelease tid => { s with mgr := s.mgr.threadIdRelease tid, tids := s.tids.erase tid }
  | .utcbAllocate =>
    { s with
      mgr := s.mgr.utcbAllocate.2
      utcbs := if s.mgr.utcbAllocate.1 = 0 then s.utcbs else s.mgr.utcbAllocate.1 :: s.utcbs }
  | .utcbRelease utcb => { s with mgr := s.mgr.utcbRelease utcb, utcbs := s.utcbs.erase utcb }

def Ok : Op → Prop
  | .threadIdRelease tid => tid ∈ s.tids
  | .utcbRelease utcb => utcb ∈ s.utcbs
  | _ => True

def start : Allocations := ⟨c.init, [], []⟩

structure Exclusive : Prop where
  tids_nodup : s.tids.Nodup
  utcbs_nodup : s.utcbs.Nodup
  tids_mem : ∀ tid ∈ s.tids, ∃ k < c.len.toNat, tid = c.tid k
  utcbs_mem : ∀ utcb ∈ s.utcbs, ∃ k < c.localThreads, utcb = c.utcb k
  own_tid : c.tid c.idx ∉ s.tids
  own_utcb : c.utcb c.idx ∉ s.utcbs

end Allocations

def totWords (bitEnd : ℕ) : ℕ := max (bitEnd / sizeofWord) 1

theorem bitAllocateAtomic_eq (base : Masks) (bitEnd : ℕ) :
    bitAllocateAtomic base bitEnd =
      match BitPool.firstClear base (totWords bitEnd) with
      | some i => (i, bts base i)
      | none => (bitEnd, base) := by
  have hwords : (if bitEnd / sizeofWord = 0 then 1 else bitEnd / sizeofWord) = totWords bitEnd := by
    rw [totWords]
    generalize bitEnd / sizeofWord = n
    split_ifs <;> omega
  have hones : (~~~ 0#32) = allOnes 32 := by decide
  simp only [bitAllocateAtomic, BitPool.firstClear, hwords, hones]
  cases h : (range (totWords bitEnd)).find? fun k => base k ≠ allOnes 32 with
  | none => rfl
  | some k =>
    have hne : ~~~ base k ≠ 0#32 := BitPool.not_ne_zero (by simpa using find?_some h)
    -- for an empty word the lowest clear bit is bit 0, too
    have hbit : (if base k = 0 then 0 else lsb (~~~ base k)) = lsb (~~~ base k) := by
      split_ifs with h0
      · rw [h0]
        decide
      · rfl
    have hlt := lsb_lt hne
    simp only [map_some, hbit, sizeofWord]
    rw [bts, show (32 * k + lsb (~~~ base k)) / 32 = k by omega,
      show (32 * k + lsb (~~~ base k)) % 32 = lsb (~~~ base k) by omega]
    simp only [Prod.mk.injEq, and_true]
    omega

theorem bt_setBit (s : Masks) (word : ℕ) {bit : ℕ} (hbit : bit < 32) (i : ℕ) :
    bt (L4threadManager.setBit s word bit) i =
      (bt s i || decide (i = 32 * word + bit)) := by
  have hbts : L4threadManager.setBit s word bit = bts s (32 * word + bit) := by
    rw [bts, show (32 * word + bit) / 32 = word by omega,
      show (32 * word + bit) % 32 = bit by omega]
    rfl
  rw [hbts, bt_bts _ (by decide)]
  simp only [eq_comm]

namespace Startup
theorem utcbBits_le : c.utcbBits ≤ 29 := by
  have hfits := c.fits
  have hlocal : 5 ≤ L4threadManager.maxLocalThreads c.nrVcpus := le_add_left 5 _
  have hmul : 5 * 2 ^ c.utcbBits ≤
      max (c.idx + 1) (L4threadManager.maxLocalThreads c.nrVcpus) * 2 ^ c.utcbBits :=
    mul_le_mul_right _ (hlocal.trans (le_max_right _ _))
  by_contra hlt
  have hpow : 2 ^ 30 ≤ 2 ^ c.utcbBits := Nat.pow_le_pow_right (by decide) (by omega)
  omega

theorem slot_lt {k : ℕ} (hk : k ≤ c.idx ∨ k < c.localThreads) {l : ℕ} (hl : l < 2 ^ c.utcbBits) :
    c.area.toNat + k * 2 ^ c.utcbBits + l < 2 ^ 32 := by
  have hle : k + 1 ≤ max (c.idx + 1) (L4threadManager.maxLocalThreads c.nrVcpus) := by
    rcases hk with hk | hk
    · exact (succ_le_succ hk).trans (le_max_left _ _)
    · exact (succ_le_of_lt hk).trans (le_max_right _ _)
  have hmul := mul_le_mul_right (2 ^ c.utcbBits) hle
  have hfits := c.fits
  rw [Nat.succ_mul] at hmul
  omega

theorem toNat_size : (BitVec.ofNat 32 (2 ^ c.utcbBits)).toNat = 2 ^ c.utcbBits := by
  have hpow : 2 ^ c.utcbBits ≤ 2 ^ 29 := Nat.pow_le_pow_right (by decide) c.utcbBits_le
  rw [toNat_ofNat, Nat.mod_eq_of_lt (by omega)]

theorem toNat_utcb {k : ℕ} (hk : k ≤ c.idx ∨ k < c.localThreads) :
    (c.utcb k).toNat = c.area.toNat + k * 2 ^ c.utcbBits := by
  have := c.slot_lt hk (Nat.two_pow_pos _)
  rw [utcb, toNat_ofNat]
  omega

theorem toNat_tid_sub {k : ℕ} (hk : k < c.len.toNat) : (c.tid k - c.start).toNat = k := by
  rw [tid, BitVec.add_comm, BitVec.add_sub_cancel, toNat_ofNat]
  omega

theorem toNat_slot_div {x : Word} {k l : ℕ} (hl : l < 2 ^ c.utcbBits)
    (hx : x.toNat = c.area.toNat + k * 2 ^ c.utcbBits + l) :
    ((x - c.area) / BitVec.ofNat 32 (2 ^ c.utcbBits)).toNat = k := by
  have hsub : (x - c.area).toNat = 2 ^ c.utcbBits * k + l := by
    rw [Nat.mul_comm]
    rw [toNat_sub]
    omega
  rw [toNat_udiv, hsub, c.toNat_size, Nat.mul_add_div (Nat.two_pow_pos _),
    Nat.div_eq_of_lt hl, Nat.add_zero]

theorem myUtcb_eq :
    BitVec.ofNat 32 (c.area.toNat + c.idx * 2 ^ c.utcbBits + c.low) &&&
      ~~~ (BitVec.ofNat 32 (2 ^ c.utcbBits) - 1) = c.utcb c.idx := by
  obtain ⟨a, ha⟩ := c.area_aligned
  have hsum : c.area.toNat + c.idx * 2 ^ c.utcbBits = 2 ^ c.utcbBits * (a + c.idx) := by
    rw [ha, Nat.mul_add, Nat.mul_comm c.idx]
  have hbits := c.utcbBits_le
  have hone : BitVec.ofNat 32 (2 ^ c.utcbBits) = 1#32 <<< c.utcbBits := by
    apply eq_of_toNat_eq
    rw [c.toNat_size, toNat_one_shiftLeft (by omega)]
  rw [utcb, hsum, hone]
  apply eq_of_getLsbD_eq
  intro i hi
  have hmask := getLsbD_one_shiftLeft_sub_one (show c.utcbBits < 32 by omega) i
  rw [getLsbD_and, getLsbD_not, show (1 : Word) = 1#32 from rfl, hmask,
    getLsbD_ofNat, getLsbD_ofNat, testBit_two_pow_mul_add _ c.low_lt,
    testBit_two_pow_mul]
  by_cases hik : i < c.utcbBits
  · simp [hik]
  · simp [hik, hi, not_lt.1 hik]

theorem utcbBase_eq : (c.utcb c.idx) - BitVec.ofNat 32 c.idx * BitVec.ofNat 32 (2 ^ c.utcbBits) =
    c.area := by
  rw [utcb, ofNat_add, ofNat_mul, ofNat_toNat, setWidth_eq,
    BitVec.add_sub_cancel]

def words : ℕ := L4threadManager.utcbMaskWords c.nrVcpus

theorem init_fields :
    c.init.nrVcpus = c.nrVcpus ∧ c.init.threadSpaceStart = c.start ∧
      c.init.threadSpaceLen.toNat = c.space ∧
      c.init.utcbSize = BitVec.ofNat 32 (2 ^ c.utcbBits) ∧ c.init.utcbBase = c.area ∧
      (∀ i, c.init.tidMask.bt i = true ↔ i = 32 * (c.idx / 4) + c.idx % 4 ∨
        c.words ≤ c.idx / 4 ∧ i = 32 * (c.idx / 4 - c.words) + c.idx % 4) ∧
      ∀ i, c.init.utcbMask.bt i = true ↔
        c.idx / 4 < c.words ∧ i = 32 * (c.idx / 4) + c.idx % 4 := by
  have hidx : c.tid c.idx - c.start = BitVec.ofNat 32 c.idx := by
    rw [tid, BitVec.add_comm, BitVec.add_sub_cancel]
  have hnat : (BitVec.ofNat 32 c.idx).toNat = c.idx := by
    rw [← hidx]
    exact c.toNat_tid_sub c.idx_lt
  have hlocal : (BitVec.ofNat 32 (c.area.toNat + c.idx * 2 ^ c.utcbBits + c.low)).toNat =
      c.area.toNat + c.idx * 2 ^ c.utcbBits + c.low := by
    rw [toNat_ofNat, mod_eq_of_lt (c.slot_lt (.inl le_rfl) c.low_lt)]
  have huidx := c.toNat_slot_div c.low_lt hlocal
  have hlen : (if c.len.toNat > L4threadManager.maxThreads then
      BitVec.ofNat 32 L4threadManager.maxThreads else c.len).toNat = c.space := by
    have hmax : (BitVec.ofNat 32 L4threadManager.maxThreads).toNat = L4threadManager.maxThreads :=
      rfl
    rw [space]
    split_ifs with h
    · rw [hmax, min_eq_right h.le]
    · rw [min_eq_left (not_lt.1 h)]
  have hzero : ∀ i, bt (fun _ => (0 : Word)) i = false :=
    fun i => getLsbD_zero
  have hmod : c.idx % 4 < 32 := by omega
  rw [init, L4threadManager.init]
  simp only [hidx, hnat, c.myUtcb_eq, c.utcbBase_eq, huidx, sizeofWord]
  rw [L4threadManager.setUtcbBit]
  simp only [show L4threadManager.utcbMaskWords c.nrVcpus = c.words from rfl]
  by_cases hw : c.idx / 4 < c.words
  · rw [if_pos hw]
    refine ⟨rfl, rfl, hlen, rfl, rfl, fun i => ?_, fun i => ?_⟩
    · rw [bt_setBit _ _ hmod, hzero]
      simp [not_le.2 hw]
    · rw [bt_setBit _ _ hmod, hzero]
      simp [hw]
  · rw [if_neg hw]
    refine ⟨rfl, rfl, hlen, rfl, rfl, fun i => ?_, fun i => ?_⟩
    · rw [bt_setBit _ _ hmod, bt_setBit _ _ hmod, hzero]
      simp [not_lt.1 hw]
    · rw [hzero]
      simp [hw]

def OwnReserved : Prop :=
  c.idx < 4 ∨ c.localThreads ≤ c.idx ∧ (c.space ≤ c.idx ∨ 7 * (c.idx / 4) = 8 * c.words)

theorem ownReserved_iff : c.OwnReserved ↔
    (c.init.tidMask.bt c.idx = true ∨ c.space ≤ c.idx) ∧
      (c.init.utcbMask.bt c.idx = true ∨ c.localThreads ≤ c.idx) := by
  obtain ⟨-, -, -, -, -, htid, hutcb⟩ := c.init_fields
  have hwords : c.words = c.localThreads / 4 + 1 := rfl
  rw [OwnReserved, htid, hutcb]
  omega

end Startup
namespace Allocations
open BitPool (Pool)

structure Sim (p q : Pool 32) : Prop where
  mgr : s.mgr = { c.init with tidMask := p.mask, utcbMask := q.mask }
  tids : s.tids = p.out.map c.tid
  utcbs : s.utcbs = q.out.map c.utcb
  inv_tid : p.Inv c.space
  inv_utcb : q.Inv c.localThreads

variable {c} {s} {p q : Pool 32}

theorem space_le (c : Startup) : c.space ≤ c.len.toNat := min_le_left _ _

theorem tid_inj {i k : ℕ} (hi : i < c.len.toNat) (hk : k < c.len.toNat) (h : c.tid i = c.tid k) :
    i = k := by
  rw [← c.toNat_tid_sub hi, ← c.toNat_tid_sub hk, h]

theorem utcb_inj {i k : ℕ} (hi : i ≤ c.idx ∨ i < c.localThreads)
    (hk : k ≤ c.idx ∨ k < c.localThreads) (h : c.utcb i = c.utcb k) : i = k := by
  have hnat := congrArg BitVec.toNat h
  rw [c.toNat_utcb hi, c.toNat_utcb hk] at hnat
  exact Nat.eq_of_mul_eq_mul_right (Nat.two_pow_pos c.utcbBits) (by omega)

theorem map_erase_of_inj {f : ℕ → Word} {l : List ℕ} {k : ℕ}
    (h : ∀ i ∈ l, f i = f k → i = k) : (l.map f).erase (f k) = (l.erase k).map f := by
  induction l with
  | nil => rfl
  | cons i l ih =>
    by_cases hik : i = k
    · subst hik
      simp
    · simp_all

theorem sim_start (c : Startup) :
    Sim c (start c) ⟨c.init.tidMask, []⟩ ⟨c.init.utcbMask, []⟩ :=
  ⟨rfl, rfl, rfl, ⟨nodup_nil, fun _ h => absurd h not_mem_nil,
    fun _ h => absurd h not_mem_nil⟩, ⟨nodup_nil,
    fun _ h => absurd h not_mem_nil, fun _ h => absurd h not_mem_nil⟩⟩

section Steps
variable (h : Sim c s p q)

include h

theorem sim_threadIdAllocate :
    Sim c (s.step .threadIdAllocate) (p.step (totWords c.space) c.space .allocate) q := by
  obtain ⟨-, hstart, hlen, -⟩ := c.init_fields
  have halloc := bitAllocateAtomic_eq p.mask c.space
  have hres : s.mgr.threadIdAllocate =
      ((p.result (totWords c.space) c.space).map c.tid,
        { c.init with
          tidMask := (p.step (totWords c.space) c.space .allocate).mask, utcbMask := q.mask }) := by
    rw [h.mgr, L4threadManager.threadIdAllocate]
    simp only [hstart, hlen, Pool.result, Pool.step, halloc]
    cases BitPool.firstClear p.mask (totWords c.space) with
    | none => simp
    | some i =>
      by_cases hi : i < c.space
      · simp_all [filter_some_pos, not_le.2, Startup.tid]
      · simp [not_lt.1 hi]
  refine ⟨?_, ?_, h.utcbs, Pool.inv_step (by decide) h.inv_tid trivial, h.inv_utcb⟩
  · rw [step, hres]
  · rw [step, hres, h.tids]
    cases hr : p.result (totWords c.space) c.space <;> simp [Pool.step, hr]

theorem sim_threadIdRelease {k : ℕ} (hk : k ∈ p.out) :
    Sim c (s.step (.threadIdRelease (c.tid k))) (p.step (totWords c.space) c.space (.release k))
      q := by
  obtain ⟨-, hstart, -⟩ := c.init_fields
  have hlt : ∀ i ∈ p.out, i < c.len.toNat :=
    fun i hi => (h.inv_tid.lt i hi).trans_le (space_le c)
  refine ⟨?_, ?_, h.utcbs, Pool.inv_step (by decide) h.inv_tid hk, h.inv_utcb⟩
  · rw [step, h.mgr, L4threadManager.threadIdRelease]
    simp only [hstart, c.toNat_tid_sub (hlt k hk)]
    rfl
  · rw [step, h.tids]
    exact map_erase_of_inj fun i hi hf => tid_inj (hlt i hi) (hlt k hk) hf

theorem sim_utcbAllocate :
    Sim c (s.step .utcbAllocate) p
      (q.step (totWords c.localThreads) c.localThreads .allocate) := by
  obtain ⟨hnr, -, -, hsize, hbase, -⟩ := c.init_fields
  have hlocal : L4threadManager.maxLocalThreads c.init.nrVcpus = c.localThreads := by
    rw [hnr]
    rfl
  have halloc := bitAllocateAtomic_eq q.mask c.localThreads
  have hutcb : ∀ i, BitVec.ofNat 32 i * BitVec.ofNat 32 (2 ^ c.utcbBits) + c.area = c.utcb i := by
    intro i
    rw [Startup.utcb, ofNat_add, ofNat_mul, ofNat_toNat, setWidth_eq,
      BitVec.add_comm]
  have hne : ∀ i < c.localThreads, c.utcb i ≠ 0 := by
    intro i hi h0
    have hnat := c.toNat_utcb (.inr hi)
    rw [h0, show (0 : Word).toNat = 0 from rfl] at hnat
    exact c.area_ne (eq_of_toNat_eq (show c.area.toNat = 0 by omega))
  have hres : s.mgr.utcbAllocate =
      (((q.result (totWords c.localThreads) c.localThreads).map c.utcb).getD 0,
        { c.init with
          tidMask := p.mask
          utcbMask := (q.step (totWords c.localThreads) c.localThreads .allocate).mask }) := by
    rw [h.mgr, L4threadManager.utcbAllocate]
    simp only [hlocal, hsize, hbase, Pool.result, Pool.step, halloc]
    cases BitPool.firstClear q.mask (totWords c.localThreads) with
    | none => simp
    | some i =>
      by_cases hi : i < c.localThreads
      · rw [filter_some_pos (by simpa using hi)]
        simp only [hutcb]
        simp [not_le.2 hi]
      · rw [filter_some_neg (by simpa using hi)]
        simp [not_lt.1 hi]
  refine ⟨?_, h.tids, ?_, h.inv_tid, Pool.inv_step (by decide) h.inv_utcb trivial⟩
  · rw [step, hres]
  · rw [step, hres, h.utcbs]
    cases hr : q.result (totWords c.localThreads) c.localThreads with
    | none => simp [Pool.step, hr]
    | some i =>
      have hi := hne i (Pool.result_eq_some hr).2
      simpa [Pool.step, hr] using hi

theorem sim_utcbRelease {k : ℕ} (hk : k ∈ q.out) :
    Sim c (s.step (.utcbRelease (c.utcb k))) p
      (q.step (totWords c.localThreads) c.localThreads (.release k)) := by
  obtain ⟨-, -, -, hsize, hbase, -⟩ := c.init_fields
  have hlt := h.inv_utcb.lt
  have hslot := c.toNat_slot_div (x := c.utcb k) (l := 0) (Nat.two_pow_pos _)
    (c.toNat_utcb (.inr (hlt k hk)))
  refine ⟨?_, h.tids, ?_, h.inv_tid, Pool.inv_step (by decide) h.inv_utcb hk⟩
  · rw [step, h.mgr, L4threadManager.utcbRelease]
    simp only [hsize, hbase, hslot]
    rfl
  · rw [step, h.utcbs]
    exact map_erase_of_inj fun i hi hf => utcb_inj (.inr (hlt i hi)) (.inr (hlt k hk)) hf

end Steps

structure Safe (c : Startup) (s : Allocations) (p q : Pool 32) : Prop where
  sim : Sim c s p q
  tid : p.Reserves c.idx ∨ c.space ≤ c.idx
  utcb : q.Reserves c.idx ∨ c.localThreads ≤ c.idx

theorem safe_step (h : Safe c s p q) {op : Op} (hop : s.Ok op) :
    ∃ p' q', Safe c (s.step op) p' q' := by
  have hw : 0 < 32 := by decide
  cases op with
  | threadIdAllocate =>
    exact ⟨_, q, sim_threadIdAllocate h.sim,
      h.tid.imp_left fun hr => Pool.reserves_step hw hr trivial, h.utcb⟩
  | threadIdRelease tid =>
    have hmem : tid ∈ s.tids := hop
    obtain ⟨k, hk, rfl⟩ := mem_map.1 (h.sim.tids ▸ hmem)
    exact ⟨_, q, sim_threadIdRelease h.sim hk,
      h.tid.imp_left fun hr => Pool.reserves_step hw hr hk, h.utcb⟩
  | utcbAllocate =>
    exact ⟨p, _, sim_utcbAllocate h.sim, h.tid,
      h.utcb.imp_left fun hr => Pool.reserves_step hw hr trivial⟩
  | utcbRelease utcb =>
    have hmem : utcb ∈ s.utcbs := hop
    obtain ⟨k, hk, rfl⟩ := mem_map.1 (h.sim.utcbs ▸ hmem)
    exact ⟨p, _, sim_utcbRelease h.sim hk, h.tid,
      h.utcb.imp_left fun hr => Pool.reserves_step hw hr hk⟩

theorem not_mem_out {limit r : ℕ} {p : Pool 32} (hinv : p.Inv limit)
    (h : p.Reserves r ∨ limit ≤ r) : r ∉ p.out := by
  intro hr
  rcases h with h | h
  · exact h.2 hr
  · exact absurd (hinv.lt r hr) (not_lt.2 h)

theorem sim_step (h : Sim c s p q) {op : Op} (hop : s.Ok op) :
    ∃ p' q', Sim c (s.step op) p' q' := by
  cases op with
  | threadIdAllocate => exact ⟨_, q, sim_threadIdAllocate h⟩
  | threadIdRelease tid =>
    have hmem : tid ∈ s.tids := hop
    obtain ⟨k, hk, rfl⟩ := mem_map.1 (h.tids ▸ hmem)
    exact ⟨_, q, sim_threadIdRelease h hk⟩
  | utcbAllocate => exact ⟨p, _, sim_utcbAllocate h⟩
  | utcbRelease utcb =>
    have hmem : utcb ∈ s.utcbs := hop
    obtain ⟨k, hk, rfl⟩ := mem_map.1 (h.utcbs ▸ hmem)
    exact ⟨p, _, sim_utcbRelease h hk⟩

theorem sim_run (h : Sim c s p q) {ops : List Op} (hops : Runs.Guarded step Ok s ops) :
    ∃ p' q', Sim c (run step s ops) p' q' :=
  run_invariant (I := fun s => ∃ p q, Sim c s p q)
    (fun _ _ ⟨_, _, h⟩ hop => sim_step h hop) ⟨p, q, h⟩ hops

theorem Sim.tids_nodup (h : Sim c s p q) : s.tids.Nodup := by
  have hlt : ∀ i ∈ p.out, i < c.len.toNat :=
    fun i hi => (h.inv_tid.lt i hi).trans_le (space_le c)
  rw [h.tids]
  exact h.inv_tid.nodup.map_on fun i hi k hk hf => tid_inj (hlt i hi) (hlt k hk) hf

theorem Safe.exclusive (h : Safe c s p q) : Exclusive c s := by
  have hlt : ∀ i ∈ p.out, i < c.len.toNat :=
    fun i hi => (h.sim.inv_tid.lt i hi).trans_le (space_le c)
  have hult := h.sim.inv_utcb.lt
  constructor
  · exact h.sim.tids_nodup
  · rw [h.sim.utcbs]
    exact h.sim.inv_utcb.nodup.map_on fun i hi k hk hf =>
      utcb_inj (.inr (hult i hi)) (.inr (hult k hk)) hf
  · intro tid htid
    obtain ⟨k, hk, rfl⟩ := mem_map.1 (h.sim.tids ▸ htid)
    exact ⟨k, hlt k hk, rfl⟩
  · intro utcb hutcb
    obtain ⟨k, hk, rfl⟩ := mem_map.1 (h.sim.utcbs ▸ hutcb)
    exact ⟨k, hult k hk, rfl⟩
  · intro hown
    obtain ⟨k, hk, hf⟩ := mem_map.1 (h.sim.tids ▸ hown)
    obtain rfl := tid_inj (hlt k hk) c.idx_lt hf
    exact not_mem_out h.sim.inv_tid h.tid hk
  · intro hown
    obtain ⟨k, hk, hf⟩ := mem_map.1 (h.sim.utcbs ▸ hown)
    obtain rfl := utcb_inj (.inr (hult k hk)) (.inl le_rfl) hf
    exact not_mem_out h.sim.inv_utcb h.utcb hk

theorem lt_mul_totWords {r limit : ℕ} (hr : r < limit) : r < 32 * totWords limit := by
  rw [totWords, sizeofWord]
  omega

theorem exists_run_tid (h : Sim c s p q) {r : ℕ} (hr : r < c.space)
    (hclear : p.mask.bt r = false) :
    ∃ m, c.tid r ∈ (run step s (replicate m .threadIdAllocate)).tids := by
  obtain ⟨m, hm⟩ := Pool.exists_mem_out (by decide) hr (lt_mul_totWords hr) hclear
  have hsim := run_replicate_rel (R := fun s p => Sim c s p q)
    (fun _ _ h => sim_threadIdAllocate h) h m
  refine ⟨m, ?_⟩
  rw [hsim.tids]
  exact mem_map_of_mem hm

theorem exists_run_utcb (h : Sim c s p q) {r : ℕ} (hr : r < c.localThreads)
    (hclear : q.mask.bt r = false) :
    ∃ m, c.utcb r ∈ (run step s (replicate m .utcbAllocate)).utcbs := by
  obtain ⟨m, hm⟩ := Pool.exists_mem_out (by decide) hr (lt_mul_totWords hr) hclear
  have hsim := run_replicate_rel (R := fun s q => Sim c s p q)
    (fun _ _ h => sim_utcbAllocate h) h m
  refine ⟨m, ?_⟩
  rw [hsim.utcbs]
  exact mem_map_of_mem hm

theorem guarded_replicate (op : Op) (hop : ∀ s : Allocations, s.Ok op) (m : ℕ)
    (s : Allocations) : Runs.Guarded step Ok s (replicate m op) := by
  induction m generalizing s with
  | zero => trivial
  | succ m ih => exact ⟨hop s, ih _⟩

/-- **When no thread is given the id or the UTCB of the running one**, in every run of allocations
and releases: exactly when that thread has one of the first four indices, or one beyond the UTCBs
and beyond the used thread space or marked through the overflow of `utcb_mask`. -/
theorem exclusive_iff (c : Startup) :
    (∀ ops, Runs.Guarded step Ok (start c) ops → Exclusive c (run step (start c) ops)) ↔
      c.OwnReserved := by
  rw [c.ownReserved_iff]
  constructor
  · intro h
    refine ⟨?_, ?_⟩
    · by_contra hne
      push Not at hne
      obtain ⟨m, hm⟩ := exists_run_tid (sim_start c) hne.2 (by simpa using hne.1)
      exact (h _ (guarded_replicate .threadIdAllocate (fun _ => trivial) m _)).own_tid hm
    · by_contra hne
      push Not at hne
      obtain ⟨m, hm⟩ := exists_run_utcb (sim_start c) hne.2 (by simpa using hne.1)
      exact (h _ (guarded_replicate .utcbAllocate (fun _ => trivial) m _)).own_utcb hm
  · rintro ⟨htid, hutcb⟩ ops hops
    have hstart : ∃ p q, Safe c (start c) p q :=
      ⟨_, _, sim_start c, htid.imp_left fun hb => ⟨hb, not_mem_nil⟩,
        hutcb.imp_left fun hb => ⟨hb, not_mem_nil⟩⟩
    obtain ⟨p, q, hsafe⟩ := run_invariant (I := fun s => ∃ p q, Safe c s p q)
      (fun s op ⟨p, q, h⟩ hop => safe_step h hop) hstart hops
    exact hsafe.exclusive

def fifthThread : Startup where
  nrVcpus := 1
  start := 0x1000
  len := 4096
  idx := 5
  area := 0xbf000000
  utcbBits := 9
  low := 0
  idx_lt := by decide
  area_ne := by decide
  area_aligned := by decide
  low_lt := by decide
  fits := by decide

theorem not_exclusive_fifthThread :
    Runs.Guarded step Ok (start fifthThread)
        (replicate 6 .threadIdAllocate ++ replicate 6 .utcbAllocate) ∧
      (let s := run step (start fifthThread)
        (replicate 6 .threadIdAllocate ++ replicate 6 .utcbAllocate)
      s.tids = [0x1005, 0x1004, 0x1003, 0x1002, 0x1001, 0x1000] ∧
        fifthThread.tid fifthThread.idx = 0x1005 ∧
        s.utcbs.head? = some (fifthThread.utcb fifthThread.idx) ∧
        ¬ Exclusive fifthThread s) := by
  have htids : (run step (start fifthThread) (replicate 6 .threadIdAllocate ++
      replicate 6 .utcbAllocate)).tids =
        [0x1005, 0x1004, 0x1003, 0x1002, 0x1001, 0x1000] := by decide +kernel
  refine ⟨⟨trivial, trivial, trivial, trivial, trivial, trivial, trivial, trivial, trivial, trivial,
    trivial, trivial, trivial⟩, htids, by decide +kernel, by decide +kernel, fun h => h.own_tid ?_⟩
  decide +kernel

end Allocations
end Wedge
