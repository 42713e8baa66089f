import Afterburner.Wedge.IdeChannel

/-!
# Bus master transfers

`ide_start_dma` adds up the descriptor table, `l4vm_transfer_dma` copies it, both by
`get_prdt_entry`.
-/

namespace Wedge
open List Function
namespace IdeT
variable (cfg : IdeConfig)

def getPrdtEntry (mem : Word → ℕ → PrdtEntry) (s : IdeT) : ℕ → PrdtEntry :=
  mem (s.busMaster primary).dtba

def startBusMaster (mem : Word → ℕ → PrdtEntry) (s : IdeT) (c : Fin 2) (value : Word) : IdeT :=
  s.busMasterWrite cfg c .command value (s.getPrdtEntry mem)

def byteCount (e : PrdtEntry) : ℕ := if e.size = 0 then 65536 else e.size.toNat

/-- The start puts one request into a free slot, with the programmed direction, the sector of the
drive and the entries of the channel's table, or is refused with the error bit of the status set
when the table is too small. -/
def Started (s t : IdeT) (c d : Fin 2) (value : Word) (prdt : ℕ → PrdtEntry) : Prop :=
  let dev := (s.dev (c, d)).dev
  let entries := prdtEntries prdt 0 512
  t.halted = false ∧
    if (entries.map byteCount).sum < dev.reqSectors * ideSectorSize then
      t.ring = s.ring ∧ t.startFree = s.startFree ∧ t.dmaVec = s.dmaVec ∧
        (t.busMaster c).bmisx.getLsbD 1 = true
    else
      (s.ring s.startFree).serverOwned = false ∧
      t.ring = update s.ring s.startFree
        ⟨cfg.handle, 0, dev.getSector, entries.length, (c, d), !value.getLsbD 3, true, false⟩ ∧
      t.startFree = (s.startFree + 1) % cfg.cnt ∧
      t.dmaVec.map (fun v => (v.1.toNat, v.2)) = entries.map fun e => (byteCount e, e.baseAddr)

section Tables
variable {prdt : ℕ → PrdtEntry}

/-- The entries are counted right where the table has an end. -/
theorem prdtEnd_succ_iff (prdt : ℕ → PrdtEntry) (n fuel : ℕ) :
    prdtEnd prdt n fuel + 1 = n + (prdtEntries prdt n fuel).length ↔
      ∃ k < fuel, (prdt (n + k)).eot = true := by
  induction fuel generalizing n with
  | zero => simp [prdtEnd, prdtEntries]
  | succ fuel ih =>
    unfold prdtEnd prdtEntries
    by_cases hn : (prdt n).eot = true
    · simp only [hn, if_true]
      exact iff_of_true rfl ⟨0, Nat.succ_pos fuel, hn⟩
    · have hshift : (∃ k < fuel + 1, (prdt (n + k)).eot = true) ↔
          ∃ k < fuel, (prdt (n + 1 + k)).eot = true := by
        constructor
        · rintro ⟨k, hk, heot⟩
          obtain ⟨k, rfl⟩ : ∃ j, k = j + 1 :=
            Nat.exists_eq_succ_of_ne_zero fun hk0 => hn (by simpa [hk0] using heot)
          exact ⟨k, by omega, by rwa [Nat.add_right_comm, Nat.add_assoc]⟩
        · rintro ⟨k, hk, heot⟩
          exact ⟨k + 1, by omega, by rwa [Nat.add_right_comm, Nat.add_assoc] at heot⟩
      rw [if_neg hn, if_neg hn, hshift, ← ih, length_cons]
      omega

theorem length_prdtEntries_le (n fuel : ℕ) : (prdtEntries prdt n fuel).length ≤ fuel := by
  induction fuel generalizing n with
  | zero => exact le_rfl
  | succ fuel ih =>
    unfold prdtEntries
    split_ifs
    · exact Nat.succ_le_succ (Nat.zero_le _)
    · exact Nat.succ_le_succ (ih _)

theorem toNat_sum_size (es : List PrdtEntry) (h : es.length ≤ 512) :
    (es.map fun e => (PrdtEntry.size e).setWidth 32).sum.toNat =
        (es.map fun e => e.size.toNat).sum ∧
      (es.map fun e => e.size.toNat).sum ≤ es.length * 65535 := by
  induction es with
  | nil => exact ⟨rfl, le_rfl⟩
  | cons e es ih =>
    rw [length_cons] at h ⊢
    obtain ⟨hsum, hle⟩ := ih (by omega)
    have he := e.size.isLt
    rw [map_cons, map_cons, sum_cons, sum_cons, BitVec.toNat_add, hsum,
      BitVec.toNat_setWidth]
    omega

theorem toNat_prdtSize :
    (prdtSize prdt).toNat = ((prdtEntries prdt 0 512).map fun e => e.size.toNat).sum :=
  (toNat_sum_size _ (length_prdtEntries_le 0 512)).1

theorem size_eq_byteCount_iff {e e' : PrdtEntry} :
    e.size.toNat = byteCount e' ↔ e'.size ≠ 0 ∧ e.size = e'.size := by
  have he := e.size.isLt
  unfold byteCount
  split_ifs with hzero
  · exact iff_of_false (by omega) fun h => h.1 hzero
  · rw [and_iff_right hzero, BitVec.toNat_inj]

/-- The copied entries are the due ones where no byte count is 0. -/
theorem copied_iff {used due : List PrdtEntry} :
    (used.map fun e => (e.size.toNat, e.baseAddr)) = (due.map fun e => (byteCount e, e.baseAddr)) ↔
      (∀ e ∈ due, e.size ≠ 0) ∧
        (used.map fun e => (e.size, e.baseAddr)) = due.map fun e => (e.size, e.baseAddr) := by
  induction used generalizing due with
  | nil => cases due <;> simp
  | cons e used ih =>
    cases due with
    | nil => simp
    | cons e' due =>
      simp only [map_cons, cons.injEq, ih, Prod.mk.injEq, size_eq_byteCount_iff, mem_cons,
        forall_eq_or_imp]
      tauto

end Tables

/-- The table in use, that of channel 0, is as good as the channel's own: for a table too small the
one in use is too small as well, and the error bit is set already; for one large enough there is a
free slot, the table in use has an end and the entries of the other one, and no count is 0. -/
def Regular (mem : Word → ℕ → PrdtEntry) (s : IdeT) (c d : Fin 2) : Prop :=
  let used := prdtEntries (mem (s.busMaster primary).dtba) 0 512
  let due := prdtEntries (mem (s.busMaster c).dtba) 0 512
  let wanted := (s.dev (c, d)).dev.reqSectors * ideSectorSize
  if (due.map byteCount).sum < wanted then
    (used.map fun e => e.size.toNat).sum < wanted ∧ (s.busMaster c).bmisx.getLsbD 1 = true
  else
    (s.ring s.startFree).serverOwned = false ∧
      (∃ k < 512, (mem (s.busMaster primary).dtba k).eot = true) ∧ (∀ e ∈ due, e.size ≠ 0) ∧
      (used.map fun e => (e.size, e.baseAddr)) = due.map fun e => (e.size, e.baseAddr)

section Start
variable {mem : Word → ℕ → PrdtEntry} {s : IdeT} {c d : Fin 2} {value : Word}

theorem startBusMaster_eq (hdev : (s.busMaster c).dev = some (c, d))
    (hstart : value.getLsbD 0 = true) :
    s.startBusMaster cfg mem c value =
      (s.setBusMaster c { s.busMaster c with bmicx := value.setWidth 8 }).ideStartDma cfg (c, d)
        (mem (s.busMaster primary).dtba) (!value.getLsbD 3) := by
  have hrw : BusMaster.rwcon { s.busMaster c with bmicx := value.setWidth 8 } =
      value.getLsbD 3 := by simp [BusMaster.rwcon]
  rw [← hrw]
  unfold startBusMaster getPrdtEntry busMasterWrite
  dsimp only
  rw [if_pos hstart, hdev]

/-- A start that is refused issues nothing and leaves the error bit as it is. -/
theorem ideStartDma_refused {b : BusMaster} {prdt : ℕ → PrdtEntry} {write : Bool}
    (h : ((prdtEntries prdt 0 512).map fun e => e.size.toNat).sum <
      (s.dev (c, d)).dev.reqSectors * ideSectorSize) :
    let t := (s.setBusMaster c b).ideStartDma cfg (c, d) prdt write
    t.halted = s.halted ∧ t.ring = s.ring ∧ t.startFree = s.startFree ∧ t.dmaVec = s.dmaVec ∧
      (t.busMaster c).bmisx.getLsbD 1 = b.bmisx.getLsbD 1 := by
  have hkept : (s.setBusMaster c b).dev = s.dev := rfl
  unfold ideStartDma
  dsimp only
  rw [hkept, toNat_prdtSize, if_pos (show _ > _ from h)]
  unfold perform Outcome.raiseIrq
  split_ifs <;> exact ⟨rfl, rfl, rfl, rfl, by
    simp [setBusMaster, BusMaster.setDmaTransferError, IdeDrive.done]⟩

theorem ideStartDma_accepted {b : BusMaster} {prdt : ℕ → PrdtEntry} {write : Bool}
    (h : ¬ ((prdtEntries prdt 0 512).map fun e => e.size.toNat).sum <
      (s.dev (c, d)).dev.reqSectors * ideSectorSize) :
    let t := (s.setBusMaster c b).ideStartDma cfg (c, d) prdt write
    t.dmaVec = ((prdtEntries prdt 0 512).map fun e => (e.size, e.baseAddr)) ∧
      if (s.ring s.startFree).serverOwned then t.halted = true
      else t.halted = s.halted ∧ t.startFree = (s.startFree + 1) % cfg.cnt ∧
        t.ring = update s.ring s.startFree ⟨cfg.handle, 0,
          (s.dev (c, d)).dev.getSector, prdtEnd prdt 0 512 + 1, (c, d), write, true, false⟩ := by
  have hkept : (s.setBusMaster c b).dev = s.dev := rfl
  unfold ideStartDma
  dsimp only
  rw [hkept, toNat_prdtSize, if_neg (show ¬ _ > _ from h)]
  refine ⟨rfl, ?_⟩
  split_ifs with hfree
  · simp [transferDma, fillDescriptor, setBusMaster, hfree]
  · simp [transferDma, fillDescriptor, setBusMaster, hfree]

theorem update_owned_ne {r : RingDescriptor} (hfree : (s.ring s.startFree).serverOwned = false)
    (howned : r.serverOwned = true) : update s.ring s.startFree r ≠ s.ring := by
  intro h
  have hat := congrArg (fun ring => (ring s.startFree).serverOwned) h
  simp [howned, hfree] at hat

/-- **A transfer is started as it should be** exactly when the tables are regular. -/
theorem started_iff_regular (mem : Word → ℕ → PrdtEntry) (s : IdeT) (c d : Fin 2) (value : Word)
    (hrun : s.halted = false) (hdev : (s.busMaster c).dev = some (c, d))
    (hstart : value.getLsbD 0 = true) :
    Started cfg s (s.startBusMaster cfg mem c value) c d value (mem (s.busMaster c).dtba) ↔
      Regular mem s c d := by
  rw [startBusMaster_eq cfg hdev hstart]
  unfold Started Regular
  dsimp only
  by_cases hused :
      ((prdtEntries (mem (s.busMaster primary).dtba) 0 512).map fun e => e.size.toNat).sum <
        (s.dev (c, d)).dev.reqSectors * ideSectorSize
  · obtain ⟨hhalted, hring, hstartFree, hvec, hbit⟩ := ideStartDma_refused cfg
      (b := { s.busMaster c with bmicx := value.setWidth 8 }) hused
    rw [hhalted, hring, hstartFree, hvec, hbit]
    split_ifs with hdue
    · simp [hrun, hused]
    · -- the code refuses a table that is large enough
      refine iff_of_false (fun h => update_owned_ne h.2.1 rfl h.2.2.1.symm) fun h => hdue ?_
      have hsum := congrArg (fun l => (l.map Prod.fst).sum) (copied_iff.2 h.2.2)
      simp only [map_map, comp_def] at hsum
      exact hsum ▸ hused
  · obtain ⟨hvec, hrest⟩ := ideStartDma_accepted cfg
      (b := { s.busMaster c with bmicx := value.setWidth 8 }) hused
    cases hfree : (s.ring s.startFree).serverOwned with
    | true =>
      rw [if_pos hfree] at hrest
      refine iff_of_false (fun h => Bool.false_ne_true (h.1.symm.trans hrest)) ?_
      split_ifs <;> simp [hused]
    | false =>
      rw [if_neg (by simp [hfree])] at hrest
      obtain ⟨hhalted, hstartFree, hring⟩ := hrest
      rw [hhalted, hring, hstartFree, hvec, and_iff_right hrun]
      split_ifs with hdue
      · exact iff_of_false (fun h => update_owned_ne hfree rfl h.1) fun h => hused h.1
      · have hends := prdtEnd_succ_iff (mem (s.busMaster primary).dtba) 0 512
        simp only [Nat.zero_add] at hends
        simp only [true_and, map_map, comp_def, copied_iff, ← hends]
        rw [(update_injective s.ring s.startFree).eq_iff]
        simp only [RingDescriptor.mk.injEq, true_and, and_true]
        refine ⟨fun h => ⟨?_, h.2⟩, fun h => ⟨?_, h.2⟩⟩
        · rw [h.1, ← length_map (f := fun e => (PrdtEntry.size e, e.baseAddr)), ← h.2.2, length_map]
        · rw [h.1, ← length_map (f := fun e => (PrdtEntry.size e, e.baseAddr)), h.2.2, length_map]

end Start

def twoChannels : IdeConfig := ⟨true, 16, 7, fun _ => ⟨true, false, [], 4096, 7⟩⟩

def waiting (sectors : ℕ) (dtba : Fin 2 → Word) : IdeT :=
  let d := initDrive (twoChannels.info (primary, master))
  { init twoChannels with
    dev := fun _ => { d with dev := { d.dev with reqSectors := sectors } }
    busMaster := fun c => ⟨0, 0, dtba c, some (c, master)⟩ }

def tables (base : Word) (_ : ℕ) : PrdtEntry :=
  ⟨base <<< 20, if base = 1 then 512 else if base = 2 then 1024 else 0, true⟩

theorem started_firstChannel :
    Started twoChannels (waiting 1 fun _ => 1)
      ((waiting 1 fun _ => 1).startBusMaster twoChannels tables 0 1) 0 0 1 (tables 1) := by
  refine (started_iff_regular twoChannels tables _ 0 0 1 rfl rfl (by decide)).2 ?_
  rw [Regular, if_neg (by decide)]
  exact ⟨rfl, ⟨0, by decide, rfl⟩, fun e he => by
    obtain rfl := mem_singleton.1 he
    decide, rfl⟩

theorem not_started_waiting :
    ¬ Started twoChannels (waiting 1 ![1, 2])
        ((waiting 1 ![1, 2]).startBusMaster twoChannels tables 1 1) 1 0 1 (tables 2) ∧
      ¬ Started twoChannels (waiting 1 fun _ => 3)
        ((waiting 1 fun _ => 3).startBusMaster twoChannels tables 0 1) 0 0 1 (tables 3) ∧
      ¬ Started twoChannels (waiting 2 fun _ => 1)
        ((waiting 2 fun _ => 1).startBusMaster twoChannels tables 0 1) 0 0 1 (tables 1) := by
  refine ⟨?_, ?_, ?_⟩
  · rw [Started, if_neg (by decide)]
    exact fun h => absurd h.2.2.2.2 (by decide)
  · rw [Started, if_neg (by decide)]
    exact fun h => absurd h.2.2.2.1 (by decide)
  · rw [Started, if_pos (by decide)]
    exact fun h => absurd h.2.2.2.2 (by decide)

end IdeT
end Wedge
