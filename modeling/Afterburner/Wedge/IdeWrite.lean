import Afterburner.Wedge.Ide

/-!
# WRITE SECTORS by programmed output

The guest issues WRITE SECTORS and writes `256 * N` words, each time waiting until BSY is clear.
-/

namespace Wedge
open List IdeDevice
namespace Ide

theorem length_sectorAccesses (b : Bool) (offset n : ℕ) (f : ℕ → Word16) :
    (sectorAccesses b offset n f).length = n := by simp [sectorAccesses]

theorem offset_eq_of_sectorAccesses {b : Bool} {m m' n : ℕ} {f g : ℕ → Word16} (hn : 0 < n)
    (h : sectorAccesses b m n f = sectorAccesses b m' n g) : m = m' := by
  have h0 := congrArg (fun l => (l[0]?).map SectorAccess.sector) h
  simpa [sectorAccesses, hn] using h0

def feed (s : Ide) (w : ℕ → Word16) (base : ℕ) : ℕ → Ide
  | 0 => s
  | m + 1 => ((feed s w base m).ioDataWrite (w (base + m))).settle

def pioWrite (s : Ide) (w : ℕ → Word16) : Ide :=
  s.writeSectors.settle.feed w 0 (256 * s.dev.sectorCount)

theorem feed_add (s : Ide) (w : ℕ → Word16) (base m n : ℕ) :
    s.feed w base (m + n) = (s.feed w base m).feed w (base + m) n := by
  induction n with
  | zero => rfl
  | succ n ih => rw [← Nat.add_assoc, feed, ih, feed, Nat.add_assoc]

structure Filling (s : Ide) (w : ℕ → Word16) (base m n : ℕ) (sector : Word) (left : ℕ)
    (log : List SectorAccess) : Prop where
  queue : s.queue = []
  held : s.held = none
  bsy : s.dev.bsy = false
  out : s.dev.dataTransfer = .dataOut
  index : s.dev.ioBufferIndex = 2 * m
  size : s.dev.ioBufferSize = 512 * n
  left : s.dev.reqSectors = left
  sector : s.dev.getSector = sector
  buffer : ∀ i < m, s.dev.ioBuffer i = w (base + i)
  log : s.log = log

variable {s : Ide} {w : ℕ → Word16} {base m n left : ℕ} {sector : Word} {log : List SectorAccess}

section
variable (h : Filling s w base m n sector left log)
include h

theorem Filling.of_raiseIrq : Filling s.raiseIrq w base m n sector left log := by
  obtain ⟨h1, h2, h3, h4, h5, h6, h7, h8, h9, h10⟩ := h
  constructor <;> simpa

theorem Filling.settle_eq : s.settle = s := by
  simp [settle, resume_of_none h.held, h.bsy]

theorem Filling.store : Filling (s.store (w (base + m))) w base (m + 1) n sector left log := by
  have hbuf : ∀ i < m + 1, (s.store (w (base + m))).dev.ioBuffer i = w (base + i) := by
    intro i hi
    have hm : s.dev.ioBufferIndex / 2 = m := by rw [h.index]; omega
    simp only [Ide.store, hm]
    by_cases him : i = m
    · subst him; simp
    · rw [Function.update_of_ne him]
      exact h.buffer i (by omega)
  exact ⟨h.queue, h.held, h.bsy, h.out, by simp only [Ide.store, h.index]; ring, h.size, h.left,
    h.sector, hbuf, h.log⟩

theorem Filling.write_next (hm : m + 1 < 256 * n) :
    Filling (s.ioDataWrite (w (base + m))).settle w base (m + 1) n sector left log := by
  have ht := h.store
  rw [ioDataWrite, if_neg (by simp [h.out])]
  rw [if_neg (by rw [ht.index, ht.size]; omega), nextDrqBlock]
  split_ifs
  · rw [ht.of_raiseIrq.settle_eq]; exact ht.of_raiseIrq
  · rw [ht.settle_eq]; exact ht

end

theorem Filling.feed (h : Filling s w base 0 n sector left log) (hm : m < 256 * n) :
    Filling (s.feed w base m) w base m n sector left log := by
  induction m with
  | zero => exact h
  | succ m ih => exact (ih (by omega)).write_next hm

theorem settle_write {t : Ide} {size : ℕ} (ht : s.resume = t) (hheld : t.held = none)
    (hbsy : t.dev.bsy = true) (hout : t.dev.dataTransfer = .dataOut)
    (hq : t.queue = [⟨sector, size, true⟩]) :
    s.settle.queue = [] ∧ s.settle.held = none ∧ s.settle.dev.bsy = false ∧
    (∃ status error, s.settle.dev = { t.dev with regStatus := status, regError := error }) ∧
    s.settle.log =
      t.log ++ sectorAccesses true sector.toNat (size / ideSectorSize) t.dev.ioBuffer := by
  have hdev : s.settle.dev =
      (if t.dev.reqSectors > 0 then t.dev.setDataWait else t.dev.setCmdWait) := by
    simp [settle, ht, hbsy, serve, hq, transfer, complete, hout]
  refine ⟨by simp [settle, ht, hbsy, serve, hq, transfer, complete, hout],
    by simp [settle, ht, hbsy, serve, hq, transfer, complete, hout, hheld], ?_, ?_,
    by simp [settle, ht, hbsy, serve, hq, transfer, complete, hout]⟩
  · grind [bsy_setDataWait, bsy_setCmdWait]
  · rw [hdev]
    split_ifs
    · exact ⟨_, _, rfl⟩
    · exact ⟨_, _, rfl⟩

theorem Filling.write_chunk (h : Filling s w base m n sector left log) (hm : m + 1 = 256 * n)
    (hleft : 0 < left) (hn : min left 128 ≤ n) :
    Filling (s.ioDataWrite (w (base + m))).settle w (base + 256 * n) 0 (min left 128)
      ((sector + BitVec.ofNat 32 (min left 128)) &&& 0x0fffffff) (left - min left 128)
      (log ++ sectorAccesses true sector.toNat (min left 128) fun i => w (base + i)) := by
  have ht := h.store
  generalize hts : s.store (w (base + m)) = t at ht
  have hw : s.ioDataWrite (w (base + m)) = t.nextChunk true := by
    rw [ioDataWrite, if_neg (by simp [h.out]), hts]
    rw [if_pos (by rw [ht.index, ht.size]; omega), if_pos (by rw [ht.left]; exact hleft)]
  have hresume : (t.nextChunk true).resume =
      { t.transferBlock sector (min left 128 * ideSectorSize) true with
        dev := t.dev.resume (.nextChunk (min left 128)), held := none } := by
    rw [resume_of_some rfl, nextChunk, ht.left, ht.sector]
    rfl
  rw [hw]
  have hq : (t.transferBlock sector (min left 128 * ideSectorSize) true).queue =
      [⟨sector, min left 128 * ideSectorSize, true⟩] := by simp [transferBlock, ht.queue]
  obtain ⟨hq', hheld', hbsy', ⟨status, error, hdev⟩, hlog⟩ := settle_write hresume rfl
    (by simp [IdeDevice.resume, IdeDevice.bsy, IdeDevice.setBsy]) ht.out hq
  -- the buffer that is sent still holds the words of this chunk
  have hsent : ∀ i < 256 * min left 128,
      (t.dev.resume (.nextChunk (min left 128))).ioBuffer i = w (base + i) :=
    fun i hi => ht.buffer i (by omega)
  have hsector : (t.dev.resume (.nextChunk (min left 128))).getSector =
      (sector + BitVec.ofNat 32 (min left 128)) &&& 0x0fffffff := by
    rw [← ht.sector]
    exact getSector_setSector _ _
  refine ⟨hq', hheld', hbsy', by rw [hdev]; exact ht.out, by rw [hdev]; rfl, ?_, ?_,
    by rw [hdev]; exact hsector, fun i hi => absurd hi (Nat.not_lt_zero i), ?_⟩
  · rw [hdev]; exact Nat.mul_comm _ _
  · rw [hdev, ← ht.left]; rfl
  · rw [hlog, transferBlock, ht.log, Nat.mul_div_cancel _ (by decide), sectorAccesses_congr hsent]

theorem Filling.write_last (h : Filling s w base m n sector 0 log) (hm : m + 1 = 256 * n) :
    (s.ioDataWrite (w (base + m))).settle.log =
      log ++ sectorAccesses true sector.toNat n fun i => w (base + i) := by
  have ht := h.store
  generalize hts : s.store (w (base + m)) = t at ht
  have hw : s.ioDataWrite (w (base + m)) =
      ({ t with dev := t.dev.setBsy }).transferBlock t.dev.getSector t.dev.ioBufferSize true := by
    rw [ioDataWrite, if_neg (by simp [h.out]), hts]
    rw [if_pos (by rw [ht.index, ht.size]; omega), if_neg (by rw [ht.left]; omega)]
  rw [hw, ht.sector, ht.size]
  generalize hu : ({ t with dev := t.dev.setBsy } : Ide).transferBlock sector (512 * n) true = u
  have hq : u.queue = [⟨sector, 512 * n, true⟩] := by simp [← hu, transferBlock, ht.queue]
  have hheld : u.held = none := by rw [← hu]; exact ht.held
  have hbsy : u.dev.bsy = true := by
    simp [← hu, transferBlock, IdeDevice.bsy, IdeDevice.setBsy]
  have hout : u.dev.dataTransfer = .dataOut := by rw [← hu]; exact ht.out
  obtain ⟨-, -, -, -, hlog⟩ := settle_write (resume_of_none hheld) hheld hbsy hout hq
  have hlog' : u.log = log := by rw [← hu]; exact ht.log
  rw [hlog, hlog', ideSectorSize, Nat.mul_div_cancel_left _ (by decide)]
  congr 1
  refine sectorAccesses_congr fun i hi => ?_
  rw [← hu]
  exact ht.buffer i (by omega)

theorem feed_buffer (s : Ide) (w : ℕ → Word16) (base : ℕ) (hn : 0 < n) :
    s.feed w base (256 * n) =
      ((s.feed w base (256 * n - 1)).ioDataWrite (w (base + (256 * n - 1)))).settle := by
  conv_lhs => rw [show 256 * n = 256 * n - 1 + 1 by omega, Ide.feed]

theorem Filling.feed_chunk (h : Filling s w base 0 n sector left log) (hn : 0 < n)
    (hleft : 0 < left) (hle : min left 128 ≤ n) :
    Filling (s.feed w base (256 * n)) w (base + 256 * n) 0 (min left 128)
      ((sector + BitVec.ofNat 32 (min left 128)) &&& 0x0fffffff) (left - min left 128)
      (log ++ sectorAccesses true sector.toNat (min left 128) fun i => w (base + i)) := by
  rw [feed_buffer s w base hn]
  exact (h.feed (by omega)).write_chunk (by omega) hleft hle

theorem Filling.feed_last (h : Filling s w base 0 n sector 0 log) (hn : 0 < n) :
    (s.feed w base (256 * n)).log =
      log ++ sectorAccesses true sector.toNat n fun i => w (base + i) := by
  rw [feed_buffer s w base hn]
  exact (h.feed (by omega)).write_last (by omega)

section
variable (w : ℕ → Word16) (hq : s.queue = []) (hheld : s.held = none) (hlba : s.dev.lba = true)
include hq hheld hlba

theorem filling_writeSectors :
    Filling s.writeSectors.settle w 0 0 (min s.dev.sectorCount 128) s.dev.getSector
      (s.dev.sectorCount - min s.dev.sectorCount 128) s.log := by
  have h : Filling s.writeSectors w 0 0 (min s.dev.sectorCount 128) s.dev.getSector
      (s.dev.sectorCount - min s.dev.sectorCount 128) s.log := by
    rw [writeSectors, requireLba_of_lba hlba]
    exact Filling.of_raiseIrq
      ⟨hq, hheld, bsy_setDataWait _, rfl, rfl, rfl, rfl, rfl,
        fun i hi => absurd hi (Nat.not_lt_zero i), rfl⟩
  rw [h.settle_eq]
  exact h

theorem log_pioWrite_of_le (hN : s.dev.sectorCount ≤ 128) :
    (s.pioWrite w).log =
      s.log ++ sectorAccesses true s.dev.getSector.toNat s.dev.sectorCount w := by
  have h := filling_writeSectors w hq hheld hlba
  rw [min_eq_left hN, Nat.sub_self] at h
  rw [pioWrite, h.feed_last (sectorCount_pos _)]
  simp only [Nat.zero_add]

theorem log_pioWrite_of_gt (hN : 128 < s.dev.sectorCount) :
    (s.pioWrite w).log = s.log ++
      (sectorAccesses true s.dev.getSector.toNat (s.dev.sectorCount - 128) w ++
      sectorAccesses true ((s.dev.getSector.toNat + (s.dev.sectorCount - 128)) % 2 ^ 28)
        (s.dev.sectorCount - 128) fun i => w (256 * 128 + i)) := by
  have hle := s.dev.sectorCount_le
  have h := filling_writeSectors w hq hheld hlba
  rw [min_eq_right hN.le] at h
  have hwords : 256 * s.dev.sectorCount = 256 * 128 + 256 * (s.dev.sectorCount - 128) := by omega
  rw [pioWrite, hwords, feed_add]
  generalize hr : s.dev.sectorCount - 128 = r at h ⊢
  have hmin : min r 128 = r := by omega
  have hfirst := h.feed_chunk (by omega) (by omega) (by omega)
  rw [hmin, Nat.sub_self] at hfirst
  have hsec : ((s.dev.getSector + BitVec.ofNat 32 r) &&& 0x0fffffff).toNat =
      (s.dev.getSector.toNat + r) % 2 ^ 28 := by
    rw [toNat_and_sector, BitVec.toNat_add, BitVec.toNat_ofNat]
    omega
  rw [hfirst.feed_last (by omega), hsec]
  simp only [Nat.zero_add, append_assoc]

end

def WriteExact (s : Ide) (w : ℕ → Word16) : Prop :=
  (s.pioWrite w).log =
    s.log ++ sectorAccesses true s.dev.getSector.toNat s.dev.sectorCount w

/-- **When WRITE SECTORS writes the right sectors.** All fit into the buffer, or there are two full
buffers and the second starts at a sector the registers can hold. -/
theorem writeExact_iff (s : Ide) (w : ℕ → Word16) (hq : s.queue = []) (hheld : s.held = none)
    (hlba : s.dev.lba = true) :
    s.WriteExact w ↔ s.dev.sectorCount ≤ 128 ∨
      s.dev.sectorCount = 256 ∧ s.dev.getSector.toNat + 128 < 2 ^ 28 := by
  unfold WriteExact
  rcases le_or_gt s.dev.sectorCount 128 with hN | hN
  · exact iff_of_true (log_pioWrite_of_le w hq hheld hlba hN) (.inl hN)
  · rw [log_pioWrite_of_gt w hq hheld hlba hN, append_right_inj]
    constructor
    · intro h
      -- the requests cover twice the remainder
      have hlen := congrArg length h
      simp only [length_append, length_sectorAccesses] at hlen
      have hN' : s.dev.sectorCount = 256 := by omega
      refine .inr ⟨hN', ?_⟩
      rw [hN', sectorAccesses_add true _ 128 128 w] at h
      have hsec := offset_eq_of_sectorAccesses (by norm_num) (append_cancel_left h)
      omega
    · rintro (hN' | ⟨hN', hsec⟩)
      · omega
      · rw [hN', sectorAccesses_add true _ 128 128 w, Nat.mod_eq_of_lt hsec]

def programmed (nsector : Byte) : Ide where
  dev :=
    { regStatus := 0x40, regError := 0, regDevice := 0xe0, regDevControl := 0, regNsector := nsector
      regLbaLow := 0, regLbaMid := 0, regLbaHigh := 0, ioBuffer := fun _ => 0, ioBufferIndex := 0
      ioBufferSize := 0, dataTransfer := .dataNone, reqSectors := 0 }
  queue := []
  held := none
  disk := fun _ _ => 0
  log := []
  irqs := 0
  debugger := false

theorem writeExact_programmed_zero : (programmed 0).WriteExact fun i => BitVec.ofNat 16 i :=
  (writeExact_iff (programmed 0) _ rfl rfl rfl).2 (.inr ⟨rfl, by decide⟩)

theorem not_writeExact_programmed_129 :
    ¬ (programmed 129).WriteExact (fun i => BitVec.ofNat 16 i) ∧
      ((programmed 129).pioWrite fun i => BitVec.ofNat 16 i).log.map (·.sector) = [0, 1] := by
  have hN : (programmed 129).dev.sectorCount = 129 := rfl
  have hsec : (programmed 129).dev.getSector.toNat = 0 := by decide
  have hlog := log_pioWrite_of_gt (s := programmed 129) (fun i => BitVec.ofNat 16 i) rfl rfl
    rfl (by rw [hN]; norm_num)
  rw [hN, hsec] at hlog
  refine ⟨fun h => ?_, ?_⟩
  · have hlen := congrArg length (hlog.symm.trans h)
    simp only [length_append, length_sectorAccesses, hN] at hlen
    omega
  · rw [hlog]
    simp [sectorAccesses, programmed]

end Ide
end Wedge
