import Afterburner.Wedge.L4thread

/-!
# Creating a thread of the wedge

`create_thread` takes a thread id and a UTCB and has the kernel create, schedule and start the
thread; where a step fails it gives back what it took.
-/
variable (m : L4threadManager)

namespace Wedge
open Runs

inductive CreateFailure
  | stackTooSmall
  | outOfThreadIds
  | alreadyRunning
  | outOfUtcbs
  | threadControl
  | schedule
  | exchangeRegisters
  deriving DecidableEq

def CreateFailure.hasUtcb : CreateFailure → Bool
  | .threadControl | .schedule | .exchangeRegisters => true
  | _ => false

structure ThreadArgs where
  stackBottom : Word
  stackSize : Word
  startFunc : Word
  startParam : Word
  /-- `0` is `NULL` -/
  tlocalData : Word
  tlocalSize : Word

structure ThreadAnswers where
  running : Word → Bool
  threadControl : Word → Word → Bool
  schedule : Word → Bool
  exchangeRegisters : Word → Word → Word

structure L4thread where
  addr : Word
  startSp : Word
  tlocalData : Word
  startFunc : Word
  startParam : Word
  localTid : Word
  deriving DecidableEq

def sizeofL4thread : Word := 24
def stackSafety : Word := 4
def stackAlign : Word := 16

namespace ThreadArgs
variable (a : ThreadArgs)

def addr : Word := a.stackBottom + a.stackSize - sizeofL4thread
def dataSp : Word := if a.tlocalData ≠ 0 then a.addr - a.tlocalSize else a.addr
def startSp : Word := (a.dataSp - stackSafety) &&& ~~~ (stackAlign - 1)

end ThreadArgs
namespace L4threadManager

def createThread (a : ThreadArgs) (k : ThreadAnswers) :
    Except CreateFailure L4thread × L4threadManager :=
  if a.tlocalSize > a.stackSize / 2 then (.error .stackTooSmall, m)
  else
    match m.threadIdAllocate with
    | (none, m) => (.error .outOfThreadIds, m)
    | (some tid, m) =>
      if k.running tid = true then (.error .alreadyRunning, m.threadIdRelease tid)
      else
        let utcb := m.utcbAllocate.1
        let m := m.utcbAllocate.2
        if utcb = 0 then (.error .outOfUtcbs, m.threadIdRelease tid)
        else if k.threadControl tid utcb = false then
          (.error .threadControl, m.threadIdRelease tid)
        else if k.schedule tid = false then (.error .schedule, m.threadIdRelease tid)
        else
          let localTid := k.exchangeRegisters tid a.startSp
          if localTid = 0 then (.error .exchangeRegisters, m.threadIdRelease tid)
          else
            (.ok ⟨a.addr, a.startSp, if a.tlocalData ≠ 0 then a.dataSp else 0, a.startFunc,
              a.startParam, localTid⟩, m)

end L4threadManager

def used (s : Masks) (limit : ℕ) : Finset ℕ :=
  (Finset.range limit).filter fun k => s.bt k = true

theorem mem_used {s : Masks} {limit k : ℕ} : k ∈ used s limit ↔ k < limit ∧ s.bt k = true := by
  rw [used, Finset.mem_filter, Finset.mem_range]

theorem used_bitAllocateAtomic (base : Masks) (limit : ℕ) :
    limit ≤ (bitAllocateAtomic base limit).1 ∧
      used (bitAllocateAtomic base limit).2 limit = used base limit ∨
    (bitAllocateAtomic base limit).1 < limit ∧
      used (bitAllocateAtomic base limit).2 limit ≠ used base limit ∧
      used ((bitAllocateAtomic base limit).2.btr (bitAllocateAtomic base limit).1) limit =
        used base limit := by
  rw [bitAllocateAtomic_eq]
  cases hfirst : BitPool.firstClear base (totWords limit) with
  | none => exact .inl ⟨le_refl _, rfl⟩
  | some i =>
    obtain ⟨-, hclear, -⟩ := BitPool.firstClear_eq_some hfirst
    have hbts := Bits.Str.bt_bts base (show 0 < 32 by decide) i
    by_cases hi : i < limit
    · refine .inr ⟨hi, fun heq => ?_, ?_⟩
      · have hmem : i ∈ used (Bits.Str.bts base i) limit :=
          mem_used.2 ⟨hi, by rw [hbts]; simp⟩
        rw [heq, mem_used, hclear] at hmem
        exact absurd hmem.2 (by decide)
      · ext k
        rw [mem_used, mem_used, Bits.Str.bt_btr, hbts]
        by_cases hk : i = k
        · subst hk
          simp [hclear]
        · simp [hk]
    · refine .inl ⟨not_lt.1 hi, ?_⟩
      ext k
      rw [mem_used, mem_used, hbts]
      refine and_congr_right fun hk => ?_
      have hne : i ≠ k := by omega
      simp [hne]

namespace L4threadManager

def usedTids : Finset ℕ := used m.tidMask m.threadSpaceLen.toNat
def usedUtcbs : Finset ℕ := used m.utcbMask (maxLocalThreads m.nrVcpus)

variable {m}

theorem usedTids_of_none (h : m.threadIdAllocate.1 = none) :
    m.threadIdAllocate.2.usedTids = m.usedTids := by
  obtain ⟨-, hused⟩ | ⟨hlt, -⟩ := used_bitAllocateAtomic m.tidMask m.threadSpaceLen.toNat
  · exact hused
  · rw [threadIdAllocate] at h
    simp only [ge_iff_le, not_le.2 hlt, if_false] at h
    exact absurd h (by simp)

theorem usedTids_release {tid : Word} (h : m.threadIdAllocate.1 = some tid) :
    (m.threadIdAllocate.2.threadIdRelease tid).usedTids = m.usedTids := by
  have hlen := m.threadSpaceLen.isLt
  obtain ⟨hge, -⟩ | ⟨hlt, -, hbtr⟩ := used_bitAllocateAtomic m.tidMask m.threadSpaceLen.toNat
  · rw [threadIdAllocate] at h
    simp only [ge_iff_le, hge, if_true] at h
    exact absurd h (by simp)
  · rw [threadIdAllocate] at h
    simp only [ge_iff_le, not_le.2 hlt, if_false] at h
    obtain rfl := Option.some.inj h
    have hidx : (m.threadSpaceStart + BitVec.ofNat 32
        (bitAllocateAtomic m.tidMask m.threadSpaceLen.toNat).1 - m.threadSpaceStart).toNat =
        (bitAllocateAtomic m.tidMask m.threadSpaceLen.toNat).1 := by
      rw [BitVec.add_comm, BitVec.add_sub_cancel, BitVec.toNat_ofNat]
      exact Nat.mod_eq_of_lt (hlt.trans hlen)
    rw [← hidx] at hbtr
    exact hbtr

def NoNullUtcb (m : L4threadManager) : Prop :=
  ∀ k < maxLocalThreads m.nrVcpus, BitVec.ofNat 32 k * m.utcbSize + m.utcbBase ≠ 0

theorem usedUtcbs_utcbAllocate (hm : m.NoNullUtcb) :
    m.utcbAllocate.2.usedUtcbs = m.usedUtcbs ↔ m.utcbAllocate.1 = 0 := by
  obtain ⟨hge, hused⟩ | ⟨hlt, hused, -⟩ :=
    used_bitAllocateAtomic m.utcbMask (maxLocalThreads m.nrVcpus)
  · refine iff_of_true hused ?_
    simp only [utcbAllocate, ge_iff_le, hge, if_true]
  · refine iff_of_false hused ?_
    simp only [utcbAllocate, ge_iff_le, not_le.2 hlt, if_false]
    exact hm _ hlt

theorem createThread_cases {a : ThreadArgs} {k : ThreadAnswers} {f : CreateFailure}
    (h : (m.createThread a k).1 = .error f) :
    f.hasUtcb = false ∧ (m.createThread a k).2 = m ∨
    f.hasUtcb = false ∧ m.threadIdAllocate.1 = none ∧
      (m.createThread a k).2 = m.threadIdAllocate.2 ∨
    ∃ tid, m.threadIdAllocate.1 = some tid ∧
      (f.hasUtcb = false ∧
        (m.createThread a k).2 = m.threadIdAllocate.2.threadIdRelease tid ∨
      (f.hasUtcb = true ↔ m.threadIdAllocate.2.utcbAllocate.1 ≠ 0) ∧
        (m.createThread a k).2 =
          m.threadIdAllocate.2.utcbAllocate.2.threadIdRelease tid) := by
  rw [createThread] at h ⊢
  by_cases hsize : a.tlocalSize > a.stackSize / 2
  · rw [if_pos hsize] at h ⊢
    cases h
    exact .inl ⟨rfl, rfl⟩
  rw [if_neg hsize] at h ⊢
  generalize m.threadIdAllocate = r at h ⊢
  obtain ⟨_ | tid, m'⟩ := r
  · cases h
    exact .inr (.inl ⟨rfl, rfl, rfl⟩)
  refine .inr (.inr ⟨tid, rfl, ?_⟩)
  dsimp only at h ⊢
  by_cases hrunning : k.running tid = true
  · rw [if_pos hrunning] at h ⊢
    cases h
    exact .inl ⟨rfl, rfl⟩
  rw [if_neg hrunning] at h ⊢
  refine .inr ?_
  by_cases hutcb : m'.utcbAllocate.1 = 0
  · rw [if_pos hutcb] at h ⊢
    cases h
    exact ⟨iff_of_false (by decide) (not_not.2 hutcb), rfl⟩
  rw [if_neg hutcb] at h ⊢
  by_cases hcontrol : k.threadControl tid m'.utcbAllocate.1 = false
  · rw [if_pos hcontrol] at h ⊢
    cases h
    exact ⟨iff_of_true rfl hutcb, rfl⟩
  rw [if_neg hcontrol] at h ⊢
  by_cases hschedule : k.schedule tid = false
  · rw [if_pos hschedule] at h ⊢
    cases h
    exact ⟨iff_of_true rfl hutcb, rfl⟩
  rw [if_neg hschedule] at h ⊢
  by_cases hlocal : k.exchangeRegisters tid a.startSp = 0
  · rw [if_pos hlocal] at h ⊢
    cases h
    exact ⟨iff_of_true rfl hutcb, rfl⟩
  · rw [if_neg hlocal] at h
    cases h

theorem used_createThread (hm : m.NoNullUtcb) {a : ThreadArgs} {k : ThreadAnswers}
    {f : CreateFailure} (h : (m.createThread a k).1 = .error f) :
    (m.createThread a k).2.usedTids = m.usedTids ∧
      ((m.createThread a k).2.usedUtcbs = m.usedUtcbs ↔ f.hasUtcb = false) := by
  obtain ⟨hf, heq⟩ | ⟨hf, hnone, heq⟩ | ⟨tid, htid, ⟨hf, heq⟩ | ⟨hf, heq⟩⟩ := createThread_cases h
  · rw [heq]
    exact ⟨rfl, iff_of_true rfl hf⟩
  · rw [heq]
    exact ⟨usedTids_of_none hnone, iff_of_true rfl hf⟩
  · rw [heq]
    exact ⟨usedTids_release htid, iff_of_true rfl hf⟩
  · rw [heq]
    refine ⟨usedTids_release htid, ?_⟩
    have hutcbs := usedUtcbs_utcbAllocate (m := m.threadIdAllocate.2) hm
    rw [← Bool.not_eq_true, hf, not_not]
    exact hutcbs

end L4threadManager
namespace Allocations

theorem noNullUtcb_run (c : Startup) (ops : List Op) :
    (run step (start c) ops).mgr.NoNullUtcb := by
  refine run_invariant_of_forall (I := fun s : Allocations => s.mgr.NoNullUtcb)
    (fun s op hs => ?_) ?_ ops
  · cases op <;> exact hs
  · obtain ⟨hnr, -, -, hsize, hbase, -⟩ := c.init_fields
    intro k hk h0
    have hlocal : k < c.localThreads := by
      rw [Startup.localThreads, ← hnr]
      exact hk
    have hutcb := c.toNat_utcb (.inr hlocal)
    have hzero : c.utcb k = 0 := by
      rw [Startup.utcb, BitVec.ofNat_add, BitVec.ofNat_mul, BitVec.ofNat_toNat,
        BitVec.setWidth_eq, BitVec.add_comm, ← hsize, ← hbase]
      exact h0
    rw [hzero, show (0 : Word).toNat = 0 from rfl] at hutcb
    exact c.area_ne (BitVec.eq_of_toNat_eq (show c.area.toNat = 0 by omega))

/-- **When `create_thread` returns `NULL`, the taken thread ids and UTCBs are what they were before
exactly when it has not got as far as a UTCB.** -/
theorem unchanged_iff (c : Startup) (ops : List Op) (a : ThreadArgs) (k : ThreadAnswers)
    {f : CreateFailure}
    (h : ((run step (start c) ops).mgr.createThread a k).1 = .error f) :
    (((run step (start c) ops).mgr.createThread a k).2.usedTids =
        (run step (start c) ops).mgr.usedTids ∧
      ((run step (start c) ops).mgr.createThread a k).2.usedUtcbs =
        (run step (start c) ops).mgr.usedUtcbs) ↔ f.hasUtcb = false := by
  obtain ⟨htids, hutcbs⟩ := L4threadManager.used_createThread (noNullUtcb_run c ops) h
  rw [← hutcbs]
  exact and_iff_right htids

def pageStack : ThreadArgs := ⟨0x80000, 0x1000, 0x9000, 0, 0, 0⟩

theorem unchanged_alreadyRunning :
    (((start fifthThread).mgr.createThread pageStack
        ⟨fun _ => true, fun _ _ => true, fun _ => true, fun _ _ => 1⟩).2.usedTids =
      (start fifthThread).mgr.usedTids ∧
    ((start fifthThread).mgr.createThread pageStack
        ⟨fun _ => true, fun _ _ => true, fun _ => true, fun _ _ => 1⟩).2.usedUtcbs =
      (start fifthThread).mgr.usedUtcbs) :=
  (unchanged_iff fifthThread [] pageStack
    ⟨fun _ => true, fun _ _ => true, fun _ => true, fun _ _ => 1⟩
    (f := .alreadyRunning) (by decide +kernel)).2 rfl

theorem changed_threadControl :
    ((start fifthThread).mgr.createThread pageStack
        ⟨fun _ => false, fun _ _ => false, fun _ => true, fun _ _ => 1⟩).1 =
      .error .threadControl ∧
    0 ∉ (start fifthThread).mgr.usedUtcbs ∧
    0 ∈ ((start fifthThread).mgr.createThread pageStack
        ⟨fun _ => false, fun _ _ => false, fun _ => true, fun _ _ => 1⟩).2.usedUtcbs := by
  refine ⟨?_, ?_, ?_⟩
  · decide +kernel
  · decide +kernel
  · decide +kernel

end Allocations
end Wedge
