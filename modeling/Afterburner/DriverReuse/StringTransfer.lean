import Mathlib

/-!
# Partial transfer of packets as string items

Packets are the string items of one IPC. When it is cut short, both sides compute from the byte
count how many have arrived.
-/

namespace DriverReuse.StringTransfer
open List

abbrev Word := BitVec 32

def rcvTransferred : Option Word → Word
  | none => ~~~ 0
  | some err => err >>> 4

def swallow (transferredBytes : Word) : List Word → List Word
  | [] => []
  | len :: items =>
    if transferredBytes = 0 then [] else len :: swallow (transferredBytes - len) items

def rcvThreadWait (err : Option Word) (items : List Word) : List Word :=
  swallow (rcvTransferred err) items

def xmitTransferred (total : Word) : Option Word → Word
  | none => total
  | some err => if err >>> 1 &&& 7 ≤ 3 then 0 else err >>> 4

def commit (transferredBytes : Word) : List Word → ℕ
  | [] => 0
  | len :: items =>
    if transferredBytes = 0 then 0
    else if transferredBytes ≥ len then commit (transferredBytes - len) items + 1
    else commit 0 items

def xmitPackets (err : Option Word) (items : List Word) : ℕ :=
  commit (xmitTransferred items.sum err) items

def bytes (items : List Word) : ℕ := (items.map BitVec.toNat).sum

def Arrived (items : List Word) (b : ℕ) : Set ℕ :=
  {k | k ≤ items.length ∧ bytes (items.take k) ≤ b}

def AtBoundary (items : List Word) (b : ℕ) : Prop :=
  (∃ k ≤ items.length, bytes (items.take k) = b) ∨ bytes items ≤ b

@[simp] theorem bytes_nil : bytes [] = 0 := rfl

@[simp] theorem bytes_cons (len : Word) (items : List Word) :
    bytes (len :: items) = len.toNat + bytes items := rfl

theorem commit_zero (items : List Word) : commit 0 items = 0 := by
  cases items <;> simp [commit]

theorem swallow_eq_take (b : Word) (items : List Word) :
    swallow b items = items.take (swallow b items).length := by
  induction items generalizing b with
  | nil => rfl
  | cons len items ih =>
    unfold swallow
    split_ifs
    · rfl
    · rw [length_cons, take_succ_cons, ← ih]

section Arrived
variable {items : List Word} {len : Word} {b : ℕ}

theorem mem_arrived {k : ℕ} :
    k ∈ Arrived items b ↔ k ≤ items.length ∧ bytes (items.take k) ≤ b := Iff.rfl

theorem zero_mem_arrived : 0 ∈ Arrived items b := ⟨Nat.zero_le _, Nat.zero_le _⟩

theorem succ_mem_arrived {k : ℕ} :
    k + 1 ∈ Arrived (len :: items) b ↔ len.toNat ≤ b ∧ k ∈ Arrived items (b - len.toNat) := by
  simp only [mem_arrived, length_cons, take_succ_cons, bytes_cons]
  omega

theorem isGreatest_arrived_succ {k : ℕ} (hlen : len.toNat ≤ b)
    (h : IsGreatest (Arrived items (b - len.toNat)) k) :
    IsGreatest (Arrived (len :: items) b) (k + 1) := by
  refine ⟨succ_mem_arrived.2 ⟨hlen, h.1⟩, fun j hj => ?_⟩
  cases j with
  | zero => exact Nat.zero_le _
  | succ j => exact Nat.succ_le_succ (h.2 (succ_mem_arrived.1 hj).2)

theorem isGreatest_arrived_zero (hlen : b < len.toNat) :
    IsGreatest (Arrived (len :: items) b) 0 := by
  refine ⟨zero_mem_arrived, fun j hj => ?_⟩
  cases j with
  | zero => exact le_rfl
  | succ j => exact absurd (succ_mem_arrived.1 hj).1 (by omega)

theorem atBoundary_cons_of_le (hlen : len.toNat ≤ b) (hb : b ≠ 0) :
    AtBoundary (len :: items) b ↔ AtBoundary items (b - len.toNat) := by
  refine or_congr ?_ ?_
  · constructor
    · rintro ⟨k, hk, hsum⟩
      cases k with
      | zero => exact absurd hsum.symm hb
      | succ k =>
        rw [take_succ_cons, bytes_cons] at hsum
        exact ⟨k, Nat.le_of_succ_le_succ hk, by omega⟩
    · rintro ⟨k, hk, hsum⟩
      refine ⟨k + 1, Nat.succ_le_succ hk, ?_⟩
      rw [take_succ_cons, bytes_cons]
      omega
  · rw [bytes_cons]
    omega

theorem not_atBoundary_cons_of_lt (hlen : b < len.toNat) (hb : b ≠ 0) :
    ¬ AtBoundary (len :: items) b := by
  rintro (⟨k, _, hsum⟩ | htotal)
  · cases k with
    | zero => exact hb hsum.symm
    | succ k =>
      rw [take_succ_cons, bytes_cons] at hsum
      omega
  · rw [bytes_cons] at htotal
    omega

end Arrived

theorem commit_mem_arrived (b : Word) (items : List Word) :
    commit b items ∈ Arrived items b.toNat := by
  induction items generalizing b with
  | nil => exact zero_mem_arrived
  | cons len items ih =>
    unfold commit
    split_ifs with h0 hle
    · exact zero_mem_arrived
    · have hrest := ih (b - len)
      rw [BitVec.toNat_sub_of_le hle] at hrest
      exact succ_mem_arrived.2 ⟨hle, hrest⟩
    · rw [commit_zero]
      exact zero_mem_arrived

theorem isGreatest_commit {items : List Word} (hpos : ∀ len ∈ items, len ≠ 0) (b : Word) :
    IsGreatest (Arrived items b.toNat) (commit b items) := by
  induction items generalizing b with
  | nil => exact ⟨zero_mem_arrived, fun j hj => hj.1⟩
  | cons len items ih =>
    have hlen : 0 < len.toNat := by
      have := hpos len mem_cons_self
      bv_omega
    unfold commit
    split_ifs with h0 hle
    · subst h0
      exact isGreatest_arrived_zero hlen
    · have hle' : len.toNat ≤ b.toNat := hle
      have hrest := ih (fun l hl => hpos l (mem_cons_of_mem len hl)) (b - len)
      rw [BitVec.toNat_sub_of_le hle] at hrest
      exact isGreatest_arrived_succ hle' hrest
    · rw [commit_zero]
      exact isGreatest_arrived_zero (by bv_omega)

theorem length_swallow_eq_commit_iff (b : Word) (items : List Word) :
    (swallow b items).length = commit b items ↔ AtBoundary items b.toNat := by
  induction items generalizing b with
  | nil => exact iff_of_true rfl (Or.inr (Nat.zero_le _))
  | cons len items ih =>
    by_cases h0 : b = 0
    · subst h0
      exact iff_of_true rfl (Or.inl ⟨0, Nat.zero_le _, rfl⟩)
    · have hb : b.toNat ≠ 0 := by bv_omega
      rw [swallow, commit, if_neg h0, if_neg h0, length_cons]
      split_ifs with hle
      · rw [atBoundary_cons_of_le hle hb, ← BitVec.toNat_sub_of_le hle, ← ih, Nat.succ_inj]
      · rw [commit_zero]
        exact iff_of_false (Nat.succ_ne_zero _) (not_atBoundary_cons_of_lt (by bv_omega) hb)

def TransferAgrees (items : List Word) (b : ℕ) (released : List Word) (dequeued : ℕ) : Prop :=
  IsGreatest (Arrived items b) dequeued ∧ released = items.take dequeued

/-- **After a cut transfer the client has released the descriptors of exactly the packets that the
server has taken off its queue, those that arrived as a whole, iff the transfer ended between two
packets or behind the last.** -/
theorem transferAgrees_iff (items : List Word) (hpos : ∀ len ∈ items, len ≠ 0)
    (errClient errServer : Word) (hsame : errClient >>> 4 = errServer >>> 4)
    (hcut : ¬ errServer >>> 1 &&& 7 ≤ 3) :
    TransferAgrees items (errServer >>> 4).toNat (rcvThreadWait (some errClient) items)
        (xmitPackets (some errServer) items) ↔
      AtBoundary items (errServer >>> 4).toNat := by
  have hclient : rcvThreadWait (some errClient) items = swallow (errServer >>> 4) items := by
    rw [rcvThreadWait, rcvTransferred, hsame]
  have hserver : xmitPackets (some errServer) items = commit (errServer >>> 4) items := by
    rw [xmitPackets, xmitTransferred, if_neg hcut]
  rw [hclient, hserver, ← length_swallow_eq_commit_iff]
  have hgreatest := isGreatest_commit hpos (errServer >>> 4)
  constructor
  · rintro ⟨_, hreleased⟩
    rw [hreleased, length_take]
    exact min_eq_left hgreatest.1.1
  · intro hcount
    refine ⟨hgreatest, ?_⟩
    rw [← hcount]
    exact swallow_eq_take _ items

theorem transferAgrees_between :
    TransferAgrees [100, 200] 100 (rcvThreadWait (some 0x648) [100, 200])
      (xmitPackets (some 0x648) [100, 200]) :=
  (transferAgrees_iff [100, 200] (by simp) 0x648 0x648 rfl (by decide)).2
    (Or.inl ⟨1, by decide, by decide⟩)

theorem not_transferAgrees_inside :
    rcvThreadWait (some 0x968) [100, 200] = [100, 200] ∧ xmitPackets (some 0x968) [100, 200] = 1 ∧
    ¬ TransferAgrees [100, 200] 150 (rcvThreadWait (some 0x968) [100, 200])
      (xmitPackets (some 0x968) [100, 200]) := by
  refine ⟨by decide, by decide, fun h => ?_⟩
  exact absurd h.2 (by decide)

end DriverReuse.StringTransfer
