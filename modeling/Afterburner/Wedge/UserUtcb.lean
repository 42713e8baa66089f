import Afterburner.Wedge.UserTables
import Mathlib.Data.BitVec

/-!
# The UTCBs of user threads

`task_info_t` hands out the indices of its UTCB area from a bit mask.
-/

namespace Wedge.UserUtcb
open Function List Runs

structure Area where
  address : ℕ
  size : ℕ

structure Platform where
  /-- `L4_UtcbSize` and `L4_UtcbAreaSize` are powers of two -/
  utcbBits : ℕ
  utcbAreaBits : ℕ
  bits_lt : utcbBits < 32 ∧ utcbAreaBits < 32
  nrVcpus : Word
  /-- `CONFIG_L4_MAX_THREADS_PER_TASK` -/
  maxThreads : ℕ
  kernelVaddr : Word
  /-- of the L4 library -/
  l4Fpage : Word → Word → Area

variable (c : Platform)

namespace Platform
def l4UtcbSize : Word := BitVec.ofNat 32 (2 ^ c.utcbBits)
def l4UtcbAreaSize : Word := BitVec.ofNat 32 (2 ^ c.utcbAreaBits)

def areaSize : Word :=
  if c.nrVcpus * c.l4UtcbSize > c.l4UtcbAreaSize then c.nrVcpus else c.l4UtcbAreaSize

end Platform

structure Thread where
  task : ℕ
  uidx : ℕ
  utcb : Word
  deriving DecidableEq

structure State where
  utcbAreaSize : Word
  utcbSize : Word
  utcbAreaBase : Word
  utcbMask : ℕ → Option Masks
  live : List Thread

variable (s : State)

def State.empty : State := ⟨0, 0, 0, fun _ => none, []⟩

namespace State
def init (t : ℕ) : State :=
  { s with
    utcbAreaSize := if s.utcbSize = 0 then c.areaSize else s.utcbAreaSize
    utcbAreaBase := if s.utcbSize = 0 then c.kernelVaddr else s.utcbAreaBase
    utcbMask := update s.utcbMask t (some fun _ => 0)
    live := s.live.filter (·.task ≠ t) }

def utcbAllocate (t : ℕ) : Option Thread × State :=
  match s.utcbMask t with
  | none => (none, s)
  | some mask =>
    let r := bitAllocateAtomic mask c.maxThreads
    (if r.1 ≥ c.maxThreads then none
      else some ⟨t, r.1, BitVec.ofNat 32 r.1 * s.utcbSize + s.utcbAreaBase⟩,
      { s with utcbMask := update s.utcbMask t (some r.2) })

def utcbRelease (t uidx : ℕ) : State :=
  if uidx < c.maxThreads then
    { s with
      utcbMask := update s.utcbMask t ((s.utcbMask t).map (·.btr uidx))
      live := s.live.filter fun th => ¬ (th.task = t ∧ th.uidx = uidx) }
  else s

end State

inductive Op
  | init (t : ℕ)
  | allocate (t : ℕ)
  | release (t uidx : ℕ)

def step : Op → State
  | .init t => s.init c t
  | .allocate t =>
    let r := s.utcbAllocate c t
    { r.2 with live := r.1.toList ++ r.2.live }
  | .release t uidx => s.utcbRelease c t uidx

def Area.HasUtcb (a : Area) (c : Platform) (utcb : Word) : Prop :=
  a.address ≤ utcb.toNat ∧ utcb.toNat + 2 ^ c.utcbBits ≤ a.address + a.size

def Apart (u v : Word) : Prop :=
  u.toNat + 2 ^ c.utcbBits ≤ v.toNat ∨ v.toNat + 2 ^ c.utcbBits ≤ u.toNat

/-- The UTCBs of a task do not overlap and lie in its UTCB area. -/
structure LaidOut : Prop where
  apart : s.live.Pairwise fun a b => a.task = b.task → Apart c a.utcb b.utcb
  inside : ∀ th ∈ s.live, (c.l4Fpage s.utcbAreaBase s.utcbAreaSize).HasUtcb c th.utcb

def State.HasFree (t : ℕ) : Prop :=
  ∃ mask, s.utcbMask t = some mask ∧ ∃ i < c.maxThreads, mask.bt i = false

/-- A thread is created in a task without threads, and one UTCB fits in the area. -/
def Alone : Op → Prop
  | .allocate t => s.HasFree c t →
      (∀ th ∈ s.live, th.task ≠ t) ∧ (c.l4Fpage c.kernelVaddr c.areaSize).HasUtcb c c.kernelVaddr
  | _ => True

/-- The mask of a task is the one in its `TaskInfo`, which the same calls change alike. -/
theorem utcbMask_eq {t : ℕ} {info : TaskInfo} (h : s.utcbMask t = some info.utcbMask) :
    (s.init c t).utcbMask t = some info.init.utcbMask ∧
      (s.utcbAllocate c t).1.map (·.uidx) = (info.utcbAllocate c.maxThreads).1 ∧
      (s.utcbAllocate c t).2.utcbMask t = some (info.utcbAllocate c.maxThreads).2.utcbMask ∧
      ∀ i < c.maxThreads,
        (s.utcbRelease c t i).utcbMask t = some (info.utcbRelease i).utcbMask := by
  refine ⟨update_self .., ?_, ?_, fun i hi => ?_⟩
  · rw [State.utcbAllocate, h, TaskInfo.utcbAllocate]
    dsimp only
    split_ifs <;> rfl
  · rw [State.utcbAllocate, h]
    exact update_self ..
  · rw [State.utcbRelease, if_pos hi, h]
    exact update_self ..

structure Inv : Prop where
  utcbSize : s.utcbSize = 0
  area : ∀ t mask, s.utcbMask t = some mask →
    s.utcbAreaSize = c.areaSize ∧ s.utcbAreaBase = c.kernelVaddr
  live : ∀ th ∈ s.live, (∃ mask, s.utcbMask th.task = some mask) ∧ th.utcb = c.kernelVaddr

theorem inv_empty : Inv c State.empty :=
  ⟨rfl, fun _ _ h => (nomatch h), forall_mem_nil _⟩

section Step
variable {c} {s}

theorem utcbAllocate_cases (c : Platform) (s : State) (t : ℕ) :
    s.utcbAllocate c t = (none, s) ∨
      ∃ mask mask', s.utcbMask t = some mask ∧
        (s.utcbAllocate c t).2 = { s with utcbMask := update s.utcbMask t (some mask') } ∧
        ((s.utcbAllocate c t).1 = none ∨ ∃ uidx, (s.utcbAllocate c t).1 =
          some ⟨t, uidx, BitVec.ofNat 32 uidx * s.utcbSize + s.utcbAreaBase⟩) := by
  rw [State.utcbAllocate]
  cases hm : s.utcbMask t with
  | none => exact .inl rfl
  | some mask =>
    refine .inr ⟨mask, (bitAllocateAtomic mask c.maxThreads).2, rfl, rfl, ?_⟩
    by_cases h : (bitAllocateAtomic mask c.maxThreads).1 ≥ c.maxThreads
    · exact .inl (if_pos h)
    · exact .inr ⟨_, if_neg h⟩

theorem isSome_utcbAllocate (c : Platform) (s : State) (t : ℕ) :
    (s.utcbAllocate c t).1.isSome = true ↔ s.HasFree c t := by
  rw [State.utcbAllocate, State.HasFree]
  cases hm : s.utcbMask t with
  | none => simp
  | some mask =>
    have halloc := bitAllocateAtomic_eq mask c.maxThreads
    have hwords : c.maxThreads ≤ 32 * totWords c.maxThreads := by
      rw [totWords, sizeofWord]
      omega
    constructor
    · intro hsome
      cases hfirst : BitPool.firstClear mask (totWords c.maxThreads) with
      | none => simp [halloc, hfirst] at hsome
      | some i =>
        have hi : i < c.maxThreads := by simpa [halloc, hfirst] using hsome
        exact ⟨mask, rfl, i, hi, (BitPool.firstClear_eq_some hfirst).2.1⟩
    · rintro ⟨mask', heq, j, hj, hclear⟩
      obtain rfl := Option.some.inj heq
      obtain ⟨i, hij, hfirst⟩ := BitPool.exists_firstClear (lt_of_lt_of_le hj hwords) hclear
      have hi : i < c.maxThreads := lt_of_le_of_lt hij hj
      simpa [halloc, hfirst] using hi

theorem Inv.eq_of_utcbAllocate (h : Inv c s) {t : ℕ} {th : Thread}
    (hth : (s.utcbAllocate c t).1 = some th) :
    (∃ mask, s.utcbMask t = some mask) ∧ th.task = t ∧ th.utcb = c.kernelVaddr := by
  rcases utcbAllocate_cases c s t with hnone | ⟨mask, mask', hmask, -, hnone | ⟨uidx, heq⟩⟩
  · rw [hnone] at hth
    cases hth
  · rw [hnone] at hth
    cases hth
  · rw [h.utcbSize, (h.area t mask hmask).2, mul_zero, zero_add] at heq
    obtain rfl := Option.some.inj (heq.symm.trans hth)
    exact ⟨⟨mask, hmask⟩, rfl, rfl⟩

theorem utcbAllocate_state (c : Platform) (s : State) (t : ℕ) :
    ∃ masks, (s.utcbAllocate c t).2 = { s with utcbMask := masks } ∧
      (∀ t', (∃ mask, s.utcbMask t' = some mask) ↔ ∃ mask, masks t' = some mask) := by
  rcases utcbAllocate_cases c s t with hnone | ⟨mask, mask', hmask, hstate, -⟩
  · exact ⟨s.utcbMask, by rw [hnone], fun _ => Iff.rfl⟩
  · refine ⟨_, hstate, fun t' => ?_⟩
    by_cases ht : t' = t
    · subst ht
      rw [update_self, hmask]
      exact ⟨fun _ => ⟨_, rfl⟩, fun _ => ⟨_, rfl⟩⟩
    · rw [update_of_ne ht]

theorem inv_step (h : Inv c s) (op : Op) : Inv c (step c s op) := by
  cases op with
  | init t =>
    refine ⟨h.utcbSize, fun _ _ _ => ⟨if_pos h.utcbSize, if_pos h.utcbSize⟩, fun th hth => ?_⟩
    obtain ⟨hth, hne⟩ := mem_filter.1 hth
    obtain ⟨hmask, hutcb⟩ := h.live th hth
    have hne : th.task ≠ t := by simpa using hne
    refine ⟨?_, hutcb⟩
    show ∃ mask, update s.utcbMask t _ th.task = some mask
    rwa [update_of_ne hne]
  | allocate t =>
    obtain ⟨masks, hstate, hmasks⟩ := utcbAllocate_state c s t
    rw [step, hstate]
    refine ⟨h.utcbSize, fun t' mask hmask => ?_, fun th hth => ?_⟩
    · obtain ⟨mask', hmask'⟩ := (hmasks t').2 ⟨mask, hmask⟩
      exact h.area t' mask' hmask'
    · rcases mem_append.1 hth with hth | hth
      · obtain ⟨hmask, rfl, hutcb⟩ := h.eq_of_utcbAllocate (Option.mem_toList.1 hth)
        exact ⟨(hmasks _).1 hmask, hutcb⟩
      · exact ⟨(hmasks _).1 (h.live th hth).1, (h.live th hth).2⟩
  | release t uidx =>
    have hmasks : ∀ t', (∃ mask, update s.utcbMask t ((s.utcbMask t).map (·.btr uidx)) t' =
        some mask) ↔ ∃ mask, s.utcbMask t' = some mask := by
      intro t'
      by_cases ht : t' = t
      · subst ht
        cases s.utcbMask t' <;> simp
      · rw [update_of_ne ht]
    rw [step, State.utcbRelease]
    split_ifs with hlt
    · refine ⟨h.utcbSize, fun t' mask hmask => ?_, fun th hth => ?_⟩
      · obtain ⟨mask', hmask'⟩ := (hmasks t').1 ⟨mask, hmask⟩
        exact h.area t' mask' hmask'
      · obtain ⟨hmask, hutcb⟩ := h.live th (mem_of_mem_filter hth)
        exact ⟨(hmasks _).2 hmask, hutcb⟩
    · exact h

theorem LaidOut.sublist {s' : State} (h : LaidOut c s) (hlive : s'.live.Sublist s.live)
    (harea : s'.live ≠ [] → s'.utcbAreaSize = s.utcbAreaSize ∧ s'.utcbAreaBase = s.utcbAreaBase) :
    LaidOut c s' where
  apart := h.apart.sublist hlive
  inside := by
    intro th hth
    obtain ⟨hsize, hbase⟩ := harea (ne_nil_of_mem hth)
    rw [hsize, hbase]
    exact h.inside th (hlive.subset hth)

theorem not_apart_self (c : Platform) (u : Word) : ¬ Apart c u u := by
  have := Nat.two_pow_pos c.utcbBits
  rintro (h | h) <;> omega

theorem laidOut_step_iff (h : Inv c s) (hl : LaidOut c s) (op : Op) :
    LaidOut c (step c s op) ↔ Alone c s op := by
  cases op with
  | init t =>
    refine iff_of_true (hl.sublist filter_sublist fun hne => ?_) trivial
    obtain ⟨th, hth⟩ := exists_mem_of_ne_nil _ hne
    obtain ⟨⟨mask, hmask⟩, -⟩ := h.live th (mem_of_mem_filter hth)
    obtain ⟨hsize, hbase⟩ := h.area _ mask hmask
    rw [hsize, hbase]
    exact ⟨if_pos h.utcbSize, if_pos h.utcbSize⟩
  | allocate t =>
    obtain ⟨masks, hstate, -⟩ := utcbAllocate_state c s t
    rw [step, hstate, Alone, ← isSome_utcbAllocate]
    cases hth : (s.utcbAllocate c t).1 with
    | none =>
      exact iff_of_true (hl.sublist (List.Sublist.refl _) fun _ => ⟨rfl, rfl⟩) fun hsome => by
        cases hsome
    | some th =>
      obtain ⟨⟨mask, hmask⟩, rfl, hutcb⟩ := h.eq_of_utcbAllocate hth
      obtain ⟨hsize, hbase⟩ := h.area _ mask hmask
      constructor
      · rintro ⟨hapart, hinside⟩ -
        refine ⟨fun th' hth' heq => ?_, ?_⟩
        · have := (pairwise_cons.1 hapart).1 th' hth' heq.symm
          rw [hutcb, (h.live th' hth').2] at this
          exact not_apart_self c _ this
        · grind
      · intro halone
        obtain ⟨hnone, hfits⟩ := halone rfl
        refine ⟨pairwise_cons.2 ⟨fun th' hth' heq => absurd heq.symm (hnone th' hth'),
          hl.apart⟩,
          forall_mem_cons.2 ⟨?_, hl.inside⟩⟩
        rwa [hsize, hbase, hutcb]
  | release t uidx =>
    refine iff_of_true ?_ trivial
    rw [step, State.utcbRelease]
    split_ifs with hlt
    · exact hl.sublist filter_sublist fun _ => ⟨rfl, rfl⟩
    · exact hl

end Step

/-- **The UTCBs of every task are apart and in its area throughout a run exactly when every thread
is created in a task without threads, and one UTCB fits in the area.** -/
theorem laidOut_iff_alone (c : Platform) (ops : List Op) :
    (∀ pre, pre <+: ops → LaidOut c (run (step c) State.empty pre)) ↔
      Runs.Guarded (step c) (Alone c) State.empty ops :=
  forall_prefix_iff_guarded (A := fun _ => True) (I := Inv c) (Q := fun s _ => LaidOut c s)
    (fun _ a _ hs => inv_step hs a) (fun _ _ a hs _ _ hl => laidOut_step_iff hs hl a) (inv_empty c)
    ⟨List.Pairwise.nil, forall_mem_nil _⟩ fun _ _ => trivial

def onePlatform : Platform :=
  ⟨9, 12, by decide, 1, 256, 0xc0000000, fun base size => ⟨base.toNat, size.toNat⟩⟩

theorem not_laidOut_two :
    (run (step onePlatform) State.empty [.init 0, .allocate 0, .allocate 0]).live =
        [⟨0, 1, 0xc0000000⟩, ⟨0, 0, 0xc0000000⟩] ∧
      ¬ LaidOut onePlatform
        (run (step onePlatform) State.empty [.init 0, .allocate 0, .allocate 0]) := by
  have hlive : (run (step onePlatform) State.empty [.init 0, .allocate 0, .allocate 0]).live =
      [⟨0, 1, 0xc0000000⟩, ⟨0, 0, 0xc0000000⟩] := by decide +kernel
  refine ⟨hlive, fun h => ?_⟩
  have hapart := h.apart
  exact not_apart_self onePlatform 0xc0000000
    ((pairwise_cons.1 hapart).1 ⟨0, 0, 0xc0000000⟩ mem_cons_self rfl)

end Wedge.UserUtcb
