import Afterburner.Lib.Runs
import Mathlib.Data.BitVec

/-!
# The queue of page table operations for Xen 3.0

Updates of page tables and extended operations are collected in an `xen_mmop_queue_t` and issued
together.
-/

namespace Wedge
open Function List

inductive MmuCommand
  | normalPtUpdate
  | machphysUpdate
  deriving DecidableEq

inductive MmuHypercall
  | mmuUpdate
  | mmuextOp
  deriving DecidableEq

variable {w : ℕ}

structure MmuUpdate (w : ℕ) where
  ptr : BitVec w
  val : BitVec w
  deriving DecidableEq

structure MmuextOp (w : ℕ) where
  cmd : BitVec 32
  arg1 : BitVec w
  deriving DecidableEq

inductive MmuOperation (w : ℕ)
  | update (cmd ptr val : BitVec w)
  | ext (cmd : BitVec 32) (arg1 : BitVec w)
  deriving DecidableEq

def MmuCommand.toWord : MmuCommand → BitVec w
  | .normalPtUpdate => 0
  | .machphysUpdate => 1

def MmuUpdate.operation (u : MmuUpdate w) : MmuOperation w :=
  .update (u.ptr &&& 3) (u.ptr &&& ~~~3) u.val

def MmuextOp.operation (e : MmuextOp w) : MmuOperation w := .ext e.cmd e.arg1

structure MulticallEntry where
  op : MmuHypercall
  first : ℕ
  num : ℕ
  success : ℕ
  deriving DecidableEq

inductive MmopArray
  | req
  | extReq
  | multicall
  | multicallSuccess
  deriving DecidableEq

def argsPerMulticallEntry : ℕ := 8

def MmopArray.length : MmopArray → ℕ
  | .req | .extReq => argsPerMulticallEntry
  | .multicall | .multicallSuccess => argsPerMulticallEntry * 2

structure MmopQueue (w : ℕ) where
  count : ℕ
  req : ℕ → MmuUpdate w
  extCount : ℕ
  extReq : ℕ → MmuextOp w
  mcCount : ℕ
  multicall : ℕ → MulticallEntry

variable (q : MmopQueue w) (op : MmuHypercall)

structure MulticallResult (w : ℕ) where
  status : BitVec w
  result : ℕ → BitVec w

structure Mmop (w : ℕ) where
  queue : MmopQueue w
  issued : List (List (MmuOperation w))
  accesses : List (MmopArray × ℕ)

variable (s : Mmop w) (type : MmuCommand)

namespace MmopQueue

def counter : MmuHypercall → ℕ
  | .mmuUpdate => q.count
  | .mmuextOp => q.extCount

def slot : MmuHypercall → ℕ → MmuOperation w
  | .mmuUpdate, i => (q.req i).operation
  | .mmuextOp, i => (q.extReq i).operation

def describes (m : MulticallEntry) : List (MmuOperation w) :=
  (range m.num).map fun i => q.slot m.op (m.first + i)

def pending : List (MmuOperation w) :=
  (range q.mcCount).flatMap fun i => q.describes (q.multicall i)

def NeedsEntry : Prop :=
  q.mcCount = 0 ∨ (q.multicall (q.mcCount - 1)).op ≠ op

instance  : Decidable (q.NeedsEntry op) :=
  inferInstanceAs (Decidable (_ ∨ _))

def openEntry (first : ℕ) : MmopQueue w :=
  if q.NeedsEntry op then
    { q with
      multicall := update q.multicall q.mcCount ⟨op, first, 0, q.mcCount⟩
      mcCount := q.mcCount + 1 }
  else q

def extendEntry : MmopQueue w :=
  let m := q.multicall (q.mcCount - 1)
  { q with multicall := update q.multicall (q.mcCount - 1) { m with num := m.num + 1 } }

end MmopQueue

def MmuHypercall.array : MmuHypercall → MmopArray
  | .mmuUpdate => .req
  | .mmuextOp => .extReq

namespace Mmop

def init (req : ℕ → MmuUpdate w) (extReq : ℕ → MmuextOp w) (multicall : ℕ → MulticallEntry) :
    Mmop w :=
  ⟨⟨0, req, 0, extReq, 0, multicall⟩, [], []⟩

def entryAccesses (m : MulticallEntry) : List (MmopArray × ℕ) :=
  (.multicallSuccess, m.success) :: (range m.num).map fun i => (m.op.array, m.first + i)

def commitAccesses : List (MmopArray × ℕ) :=
  (range q.mcCount).flatMap fun i => (.multicall, i) :: entryAccesses (q.multicall i)

def commit (r : MulticallResult w) : Mmop w × Bool :=
  if s.queue.count = 0 ∧ s.queue.extCount = 0 then (s, true)
  else
    (⟨{ s.queue with count := 0, extCount := 0, mcCount := 0 }, s.issued ++ [s.queue.pending],
        s.accesses ++ commitAccesses s.queue⟩,
      r.status = 0 ∧ ∀ i ∈ range s.queue.mcCount, r.result i = 0)

def addAccesses : List (MmopArray × ℕ) :=
  (if q.mcCount = 0 then [] else [(.multicall, q.mcCount - 1)]) ++
    (if q.NeedsEntry op then [(.multicall, q.mcCount), (.multicallSuccess, q.mcCount)] else []) ++
    [(op.array, q.counter op), (.multicall, (q.openEntry op (q.counter op)).mcCount - 1)]

def add (ptr val : BitVec w) (sync : Bool)
    (r : MulticallResult w) : Mmop w × Bool :=
  let q := s.queue.openEntry .mmuUpdate s.queue.count
  let q := { q with
    req := update q.req q.count ⟨type.toWord ||| (ptr &&& ~~~3), val⟩
    count := q.count + 1 }
  let s' : Mmop w := ⟨q.extendEntry, s.issued, s.accesses ++ addAccesses s.queue .mmuUpdate⟩
  if s'.queue.count = MmopArray.req.length ∨ sync = true then s'.commit r else (s', true)

def addExt (type : BitVec 32) (ptr : BitVec w) (sync : Bool)
    (r : MulticallResult w) : Mmop w × Bool :=
  let q := s.queue.openEntry .mmuextOp s.queue.extCount
  let q := { q with
    extReq := update q.extReq q.extCount ⟨type, ptr⟩
    extCount := q.extCount + 1 }
  let s' : Mmop w := ⟨q.extendEntry, s.issued, s.accesses ++ addAccesses s.queue .mmuextOp⟩
  if s'.queue.extCount = MmopArray.extReq.length ∨ sync = true then s'.commit r else (s', true)

end Mmop

inductive MmopCall (w : ℕ)
  | add (type : MmuCommand) (ptr val : BitVec w) (sync : Bool)
  | addExt (type : BitVec 32) (ptr : BitVec w) (sync : Bool)
  | commit

def MmopCall.operations : MmopCall w → List (MmuOperation w)
  | .add type ptr val _ => [.update type.toWord (ptr &&& ~~~3) val]
  | .addExt type ptr _ => [.ext type ptr]
  | .commit => []

def MmopCall.sync : MmopCall w → Bool
  | .add _ _ _ sync => sync
  | .addExt _ _ sync => sync
  | .commit => true

namespace Mmop

def call (c : MmopCall w × MulticallResult w) : Mmop w × Bool :=
  match c.1 with
  | .add type ptr val sync => s.add type ptr val sync c.2
  | .addExt type ptr sync => s.addExt type ptr sync c.2
  | .commit => s.commit c.2

def run (s : Mmop w) (cs : List (MmopCall w × MulticallResult w)) : Mmop w :=
  Runs.run (fun s c => (s.call c).1) s cs

end Mmop

structure MmopQueue.Appended (o : MmuOperation w)
    (q' : MmopQueue w) : Prop where
  counter : ∀ k, q'.counter k = if k = op then q.counter op + 1 else q.counter k
  slot : ∀ k i, q'.slot k i = if k = op ∧ i = q.counter op then o else q.slot k i
  mcCount : q'.mcCount = (q.openEntry op (q.counter op)).mcCount
  multicall : q'.multicall = (q.openEntry op (q.counter op)).extendEntry.multicall

theorem MmuCommand.toWord_and :
    (type.toWord : BitVec w) &&& 3 = type.toWord := by
  cases type with
  | normalPtUpdate => exact BitVec.zero_and
  | machphysUpdate =>
    obtain _ | _ | w := w
    · rfl
    · rfl
    · refine BitVec.eq_of_toNat_eq ?_
      have hpow : 2 ^ 2 ≤ 2 ^ (w + 2) := Nat.pow_le_pow_right (by decide) (by omega)
      change (1 % 2 ^ (w + 2)) &&& (3 % 2 ^ (w + 2)) = 1 % 2 ^ (w + 2)
      rw [Nat.mod_eq_of_lt (by omega), Nat.mod_eq_of_lt (by omega)]
      rfl

theorem request_operation (ptr val : BitVec w) :
    (⟨type.toWord ||| (ptr &&& ~~~3), val⟩ : MmuUpdate w).operation =
      .update type.toWord (ptr &&& ~~~3) val := by
  have htype := type.toWord_and (w := w)
  have hbit : ∀ i (hi : i < w), (type.toWord : BitVec w)[i] = true → (3 : BitVec w)[i] = true := by
    intro i hi h
    rw [← htype, BitVec.getElem_and, Bool.and_eq_true] at h
    exact h.2
  rw [MmuUpdate.operation, MmuOperation.update.injEq]
  refine ⟨?_, ?_, rfl⟩
  · ext i hi
    have h := hbit i hi
    simp only [BitVec.getElem_and, BitVec.getElem_or, BitVec.getElem_not]
    revert h
    cases (type.toWord : BitVec w)[i] <;> cases (3 : BitVec w)[i] <;> simp
  · ext i hi
    have h := hbit i hi
    simp only [BitVec.getElem_and, BitVec.getElem_or, BitVec.getElem_not]
    revert h
    cases (type.toWord : BitVec w)[i] <;> cases (3 : BitVec w)[i] <;> simp

namespace MmopQueue
variable {q} {q' : MmopQueue w} {op} {o : MmuOperation w}

section
variable (q : MmopQueue w) (op : MmuHypercall) (first : ℕ)

@[simp] theorem openEntry_req : (q.openEntry op first).req = q.req := by
  unfold openEntry
  split_ifs <;> rfl

@[simp] theorem openEntry_count : (q.openEntry op first).count = q.count := by
  unfold openEntry
  split_ifs <;> rfl

@[simp] theorem openEntry_extReq : (q.openEntry op first).extReq = q.extReq := by
  unfold openEntry
  split_ifs <;> rfl

@[simp] theorem openEntry_extCount : (q.openEntry op first).extCount = q.extCount := by
  unfold openEntry
  split_ifs <;> rfl

end

structure Inv (q : MmopQueue w) : Prop where
  covered : ∀ i < q.mcCount, (q.multicall i).first + (q.multicall i).num ≤
    q.counter (q.multicall i).op ∧ (q.multicall i).success < MmopArray.multicallSuccess.length
  last : 0 < q.mcCount → (q.multicall (q.mcCount - 1)).first +
    (q.multicall (q.mcCount - 1)).num = q.counter (q.multicall (q.mcCount - 1)).op
  mcCount_le : q.mcCount ≤ q.count + q.extCount

section
variable (h : q.Appended op o q')
include h

theorem Appended.entries :
    q.NeedsEntry op ∧ q'.mcCount = q.mcCount + 1 ∧
      q'.multicall = update q.multicall q.mcCount ⟨op, q.counter op, 1, q.mcCount⟩ ∨
    ∃ n, ¬ q.NeedsEntry op ∧ q.mcCount = n + 1 ∧ (q.multicall n).op = op ∧ q'.mcCount = n + 1 ∧
      q'.multicall =
        update q.multicall n { q.multicall n with num := (q.multicall n).num + 1 } := by
  have hcount := h.mcCount
  have hmulticall := h.multicall
  by_cases hneeds : q.NeedsEntry op
  · rw [openEntry, if_pos hneeds] at hcount hmulticall
    refine .inl ⟨hneeds, hcount, hmulticall.trans ?_⟩
    simp only [extendEntry, Nat.add_sub_cancel, update_self, update_idem]
  · rw [openEntry, if_neg hneeds] at hcount hmulticall
    obtain ⟨hpos, hop⟩ := not_or.1 hneeds
    obtain ⟨n, hn⟩ := Nat.exists_eq_succ_of_ne_zero hpos
    rw [hn, not_not] at hop
    refine .inr ⟨n, hneeds, hn, hop, hcount.trans hn, hmulticall.trans ?_⟩
    rw [extendEntry, hn]
    rfl

theorem Appended.describes {m : MulticallEntry} (hm : m.first + m.num ≤ q.counter m.op) :
    q'.describes m = q.describes m := by
  refine map_congr_left fun i hi => ?_
  have hi := mem_range.1 hi
  rw [h.slot, if_neg]
  rintro ⟨rfl, heq⟩
  omega

/-- **The operation is the last one that a commit would issue.** -/
theorem Appended.pending (hq : q.Inv) : q'.pending = q.pending ++ [o] := by
  -- the entries before the last one are those of `q`
  have hbefore : ∀ (n : ℕ) (m : MulticallEntry), n ≤ q.mcCount →
      (range n).flatMap (fun i => q'.describes (update q.multicall n m i)) =
        (range n).flatMap fun i => q.describes (q.multicall i) := by
    intro n m hn
    refine flatMap_congr fun i hi => ?_
    have hi := mem_range.1 hi
    rw [update_of_ne (by omega)]
    exact h.describes (hq.covered i (by omega)).1
  obtain ⟨-, hcount, hmulticall⟩ | ⟨n, -, hn, hop, hcount, hmulticall⟩ := h.entries
  · rw [MmopQueue.pending, hcount, hmulticall, range_succ, flatMap_append,
      hbefore _ _ (le_refl _), flatMap_singleton, update_self]
    congr 1
    change [q'.slot op (q.counter op + 0)] = [o]
    rw [h.slot, if_pos ⟨rfl, rfl⟩]
  · have hlast := hq.last (by omega)
    rw [hn, Nat.add_sub_cancel] at hlast
    rw [MmopQueue.pending, MmopQueue.pending, hcount, hmulticall, hn, range_succ,
      flatMap_append, flatMap_append, hbefore _ _ (by omega), flatMap_singleton,
      flatMap_singleton, update_self, append_assoc]
    congr 1
    rw [← h.describes hlast.le]
    simp only [MmopQueue.describes, range_succ, map_append, map_singleton, hop]
    rw [hop] at hlast
    rw [h.slot, if_pos ⟨rfl, hlast⟩]

theorem Appended.inv (hq : q.Inv) (hroom : q.mcCount < MmopArray.multicallSuccess.length) :
    q'.Inv := by
  have hmono : ∀ k, q.counter k ≤ q'.counter k := by
    intro k
    rw [h.counter]
    split_ifs with hk
    · rw [hk]
      omega
    · exact le_refl _
  have htotal : q'.count + q'.extCount = q.count + q.extCount + 1 := by
    have hcount := h.counter .mmuUpdate
    have hext := h.counter .mmuextOp
    cases op with
    | mmuUpdate =>
      change q'.count = q.count + 1 at hcount
      change q'.extCount = q.extCount at hext
      omega
    | mmuextOp =>
      change q'.count = q.count at hcount
      change q'.extCount = q.extCount + 1 at hext
      omega
  have hop := (h.counter op).trans (if_pos rfl)
  have hmc := hq.mcCount_le
  obtain ⟨-, hcount, hmulticall⟩ | ⟨n, -, hn, heq, hcount, hmulticall⟩ := h.entries
  · refine ⟨fun i hi => ?_, fun _ => ?_, by omega⟩
    · rw [hmulticall]
      by_cases hi' : i = q.mcCount
      · simp_all
      · rw [update_of_ne hi']
        obtain ⟨hle, hsuccess⟩ := hq.covered i (by omega)
        exact ⟨hle.trans (hmono _), hsuccess⟩
    · simp_all
  · have hlast := hq.last (by omega)
    rw [hn, Nat.add_sub_cancel, heq] at hlast
    refine ⟨fun i hi => ?_, fun _ => ?_, by omega⟩
    · obtain ⟨hle, hsuccess⟩ := hq.covered i (by omega)
      rw [hmulticall]
      by_cases hi' : i = n
      · subst hi'
        rw [update_self]
        refine ⟨?_, hsuccess⟩
        change (q.multicall i).first + ((q.multicall i).num + 1) ≤ q'.counter (q.multicall i).op
        rw [heq]
        omega
      · rw [update_of_ne hi']
        exact ⟨hle.trans (hmono _), hsuccess⟩
    · rw [hcount, hmulticall, Nat.add_sub_cancel, update_self]
      change (q.multicall n).first + ((q.multicall n).num + 1) = q'.counter (q.multicall n).op
      rw [heq]
      omega

end

theorem appended_add (q : MmopQueue w) (type : MmuCommand) (ptr val : BitVec w) :
    q.Appended .mmuUpdate (.update type.toWord (ptr &&& ~~~3) val)
      (extendEntry { q.openEntry .mmuUpdate q.count with
        req := update (q.openEntry .mmuUpdate q.count).req
          (q.openEntry .mmuUpdate q.count).count ⟨type.toWord ||| (ptr &&& ~~~3), val⟩
        count := (q.openEntry .mmuUpdate q.count).count + 1 }) := by
  refine ⟨fun k => ?_, fun k i => ?_, rfl, rfl⟩
  · cases k with
    | mmuUpdate => exact congrArg (· + 1) (openEntry_count ..)
    | mmuextOp => exact openEntry_extCount ..
  · cases k with
    | mmuUpdate =>
      simp only [slot, extendEntry, openEntry_count, openEntry_req, counter]
      by_cases hi : i = q.count
      · rw [if_pos ⟨trivial, hi⟩, hi, update_self, request_operation]
      · rw [if_neg fun h => hi h.2, update_of_ne hi]
    | mmuextOp =>
      exact congrArg (fun f : ℕ → MmuextOp w => (f i).operation) (openEntry_extReq ..)

theorem appended_addExt (q : MmopQueue w) (type : BitVec 32) (ptr : BitVec w) :
    q.Appended .mmuextOp (.ext type ptr)
      (extendEntry { q.openEntry .mmuextOp q.extCount with
        extReq := update (q.openEntry .mmuextOp q.extCount).extReq
          (q.openEntry .mmuextOp q.extCount).extCount ⟨type, ptr⟩
        extCount := (q.openEntry .mmuextOp q.extCount).extCount + 1 }) := by
  refine ⟨fun k => ?_, fun k i => ?_, rfl, rfl⟩
  · cases k with
    | mmuUpdate => exact openEntry_count ..
    | mmuextOp => exact congrArg (· + 1) (openEntry_extCount ..)
  · cases k with
    | mmuUpdate =>
      exact congrArg (fun f : ℕ → MmuUpdate w => (f i).operation) (openEntry_req ..)
    | mmuextOp =>
      simp only [slot, extendEntry, openEntry_extCount, openEntry_extReq, counter]
      by_cases hi : i = q.extCount
      · rw [if_pos ⟨trivial, hi⟩, hi, update_self]
        rfl
      · rw [if_neg fun h => hi h.2, update_of_ne hi]

end MmopQueue
namespace Mmop
variable {s} {queued : List (MmuOperation w)}

structure Inv (s : Mmop w) (queued : List (MmuOperation w)) : Prop where
  queue : s.queue.Inv
  room : ∀ k, s.queue.counter k ≤ argsPerMulticallEntry
  bounds : ∀ a ∈ s.accesses, a.2 < a.1.length
  flow : s.issued.flatten ++ s.queue.pending = queued

theorem inv_init (req : ℕ → MmuUpdate w) (extReq : ℕ → MmuextOp w)
    (multicall : ℕ → MulticallEntry) : (init req extReq multicall).Inv [] where
  queue := ⟨fun _ hi => absurd hi (Nat.not_lt_zero _), fun h => absurd h (lt_irrefl 0), le_refl 0⟩
  room k := by cases k <;> exact Nat.zero_le _
  bounds := fun _ ha => absurd ha not_mem_nil
  flow := rfl

theorem array_length : op.array.length = argsPerMulticallEntry := by
  cases op <;> rfl

theorem Inv.mcCount_le (hs : s.Inv queued) : s.queue.mcCount ≤ MmopArray.multicall.length := by
  have hle := hs.queue.mcCount_le
  have hcount := hs.room .mmuUpdate
  have hext := hs.room .mmuextOp
  simp only [MmopQueue.counter] at hcount hext
  simp only [MmopArray.length]
  omega

theorem Inv.commitAccesses (hs : s.Inv queued) {a : MmopArray × ℕ}
    (ha : a ∈ commitAccesses s.queue) : a.2 < a.1.length := by
  obtain ⟨i, hi, ha⟩ := mem_flatMap.1 ha
  have hi := mem_range.1 hi
  obtain ⟨hcovered, hsuccess⟩ := hs.queue.covered i hi
  rw [entryAccesses, mem_cons, mem_cons] at ha
  obtain rfl | rfl | ha := ha
  · exact hi.trans_le hs.mcCount_le
  · exact hsuccess
  · obtain ⟨j, hj, rfl⟩ := mem_map.1 ha
    have hj := mem_range.1 hj
    have hroom := hs.room (s.queue.multicall i).op
    rw [array_length]
    omega

/-- **A commit issues all that is pending.** -/
theorem Inv.commit (hs : s.Inv queued) (r : MulticallResult w) :
    (s.commit r).1.Inv queued ∧ (s.commit r).1.queue.pending = [] ∧
      ∀ k, (s.commit r).1.queue.counter k = 0 := by
  rw [Mmop.commit]
  split_ifs with hempty
  · have hmc := hs.queue.mcCount_le
    refine ⟨hs, ?_, fun k => ?_⟩
    · simp_all [MmopQueue.pending]
    · cases k with
      | mmuUpdate => exact hempty.1
      | mmuextOp => exact hempty.2
  · refine ⟨⟨⟨fun _ hi => absurd hi (Nat.not_lt_zero _), fun h => absurd h (lt_irrefl 0),
      le_refl 0⟩, fun k => ?_, fun a ha => ?_, ?_⟩, rfl, fun k => ?_⟩
    · cases k <;> exact Nat.zero_le _
    · exact (mem_append.1 ha).elim (hs.bounds a) hs.commitAccesses
    · rw [flatten_append, flatten_singleton, append_assoc]
      exact (congrArg (s.issued.flatten ++ ·) (append_nil _)).trans hs.flow
    · cases k <;> rfl

def HasRoom (s : Mmop w) : Prop := ∀ k, s.queue.counter k < argsPerMulticallEntry

theorem Inv.mcCount_lt (hs : s.Inv queued) (hroom : s.HasRoom) :
    s.queue.mcCount < MmopArray.multicall.length := by
  have hle := hs.queue.mcCount_le
  have hcount := hroom .mmuUpdate
  have hext := hroom .mmuextOp
  simp only [MmopQueue.counter] at hcount hext
  simp only [MmopArray.length]
  omega

theorem Inv.addAccesses (hs : s.Inv queued) (hroom : s.HasRoom) (op : MmuHypercall)
    {a : MmopArray × ℕ} (ha : a ∈ addAccesses s.queue op) : a.2 < a.1.length := by
  have hlt := hs.mcCount_lt hroom
  simp only [Mmop.addAccesses, mem_append, mem_cons, not_mem_nil, or_false] at ha
  obtain (ha | ha) | rfl | rfl := ha
  · grind
  · split_ifs at ha with hneeds
    · obtain rfl | rfl : a = (.multicall, s.queue.mcCount) ∨
          a = (.multicallSuccess, s.queue.mcCount) := by simpa using ha
      · exact hlt
      · exact hlt
    · exact absurd ha not_mem_nil
  · exact (hroom op).trans_eq (array_length op).symm
  · rw [MmopQueue.openEntry]
    split_ifs
    · exact hlt
    · exact (Nat.sub_le _ 1).trans_lt hlt

variable {op} {o : MmuOperation w} {q' : MmopQueue w}

section
variable (hs : s.Inv queued) (hroom : s.HasRoom)
include hs hroom

theorem Inv.append (h : s.queue.Appended op o q') :
    Inv ⟨q', s.issued, s.accesses ++ Mmop.addAccesses s.queue op⟩ (queued ++ [o]) where
  queue := h.inv hs.queue (hs.mcCount_lt hroom)
  room k := by
    have hk := hroom k
    have hop := hroom op
    rw [h.counter]
    split_ifs <;> omega
  bounds a ha := (mem_append.1 ha).elim (hs.bounds a) (hs.addAccesses hroom op)
  flow := by rw [h.pending hs.queue, ← append_assoc, hs.flow]

theorem Inv.finish (h : s.queue.Appended op o q') {full : Prop} [Decidable full]
    (hfull : full ↔ q'.counter op = argsPerMulticallEntry) (sync : Bool) (r : MulticallResult w)
    {t : Mmop w × Bool}
    (ht : t = if full ∨ sync = true then
      Mmop.commit ⟨q', s.issued, s.accesses ++ Mmop.addAccesses s.queue op⟩ r
      else (⟨q', s.issued, s.accesses ++ Mmop.addAccesses s.queue op⟩, true)) :
    t.1.Inv (queued ++ [o]) ∧ t.1.HasRoom ∧ (sync = true → t.1.queue.pending = []) := by
  have happend := hs.append hroom h
  subst ht
  split_ifs with hcommit
  · obtain ⟨hinv, hpending, hzero⟩ := happend.commit r
    exact ⟨hinv, fun k => (hzero k).trans_lt (by decide), fun _ => hpending⟩
  · refine ⟨happend, fun k => ?_, fun hsync => absurd (.inr hsync) hcommit⟩
    have hk := hroom k
    have hle := happend.room k
    have hop := mt (Or.inl ∘ hfull.2) hcommit
    have hcounter := h.counter k
    change q'.counter k < argsPerMulticallEntry
    change q'.counter k ≤ argsPerMulticallEntry at hle
    by_cases hkop : k = op
    · subst hkop
      omega
    · simp_all

/-- **What a call preserves.** -/
theorem Inv.call (c : MmopCall w × MulticallResult w) :
    (s.call c).1.Inv (queued ++ c.1.operations) ∧ (s.call c).1.HasRoom ∧
      (c.1.sync = true → (s.call c).1.queue.pending = []) := by
  obtain ⟨c, r⟩ := c
  cases c with
  | add type ptr val sync =>
    exact hs.finish hroom (s.queue.appended_add type ptr val) Iff.rfl sync r rfl
  | addExt type ptr sync =>
    exact hs.finish hroom (s.queue.appended_addExt type ptr) Iff.rfl sync r rfl
  | commit =>
    obtain ⟨hinv, hpending, hzero⟩ := hs.commit r
    refine ⟨?_, fun k => (hzero k).trans_lt (by decide), fun _ => hpending⟩
    rw [MmopCall.operations, append_nil]
    exact hinv

theorem inv_run (cs : List (MmopCall w × MulticallResult w)) :
    (s.run cs).Inv (queued ++ cs.flatMap fun c => c.1.operations) ∧ (s.run cs).HasRoom := by
  induction cs generalizing s queued with
  | nil =>
    rw [flatMap_nil, append_nil]
    exact ⟨hs, hroom⟩
  | cons c cs ih =>
    obtain ⟨hinv, hroom, -⟩ := hs.call hroom c
    rw [flatMap_cons, ← append_assoc]
    exact ih hinv hroom

end

/-- **The operations issued followed by those still queued are those that were queued, in order**;
after a commit none is queued, and no index has left its array. -/
theorem issued_append_pending (req : ℕ → MmuUpdate w) (extReq : ℕ → MmuextOp w)
    (multicall : ℕ → MulticallEntry) (cs : List (MmopCall w × MulticallResult w)) :
    ((init req extReq multicall).run cs).issued.flatten ++
        ((init req extReq multicall).run cs).queue.pending = cs.flatMap (fun c => c.1.operations) ∧
      (∀ c, c.1.sync = true →
        ((init req extReq multicall).run (cs ++ [c])).issued.flatten =
          (cs ++ [c]).flatMap (fun c => c.1.operations) ∧
        ((init req extReq multicall).run (cs ++ [c])).queue.pending = []) ∧
      ∀ a ∈ ((init req extReq multicall).run cs).accesses, a.2 < a.1.length := by
  have hinit : (init req extReq multicall).HasRoom := fun k => by
    cases k <;> exact Nat.zero_lt_succ 7
  obtain ⟨hinv, hroom⟩ := inv_run (inv_init req extReq multicall) hinit cs
  refine ⟨hinv.flow, fun c hc => ?_, hinv.bounds⟩
  obtain ⟨hcall, -, hpending⟩ := hinv.call hroom c
  have hflow := hcall.flow
  rw [hpending hc, append_nil] at hflow
  rw [run, Runs.run_append, flatMap_append, flatMap_singleton]
  exact ⟨hflow, hpending hc⟩

end Mmop
end Wedge
