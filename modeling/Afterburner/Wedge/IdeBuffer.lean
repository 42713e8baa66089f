import Afterburner.Wedge.IdeSelection

/-!
# The bounds of the data buffer

`io_data_read` and `io_data_write` look at the kind of the transfer, not at the index. Reads stay in
the buffer, since a read command ends with its last word; writes do if the guest heeds BSY and DRQ.
-/

namespace Wedge
open IdeDrive

def ioBufferBytes : ℕ := ideIobufferBlocks * ideSectorSize

def IdeDevice.drq (d : IdeDevice) : Bool := d.regStatus.getLsbD 3

namespace IdeT
variable (cfg : IdeConfig) (s : IdeT)

def accessed : Op → Option ℕ
  | .write c .data _ =>
    let d := (s.dev (c, s.current c)).dev
    if d.dataTransfer = .dataOut then some d.ioBufferIndex else none
  | .read c .data =>
    let d := (s.dev (c, s.current c)).dev
    if (cfg.info (c, s.current c)).present = true ∧ d.dataTransfer = .dataIn then
      some d.ioBufferIndex
    else none
  | _ => none

def Inside (op : Op) : Prop :=
  s.halted = false → ∀ k ∈ accessed cfg (s.ready op) op, k + 2 ≤ ioBufferBytes

/-- In a data-out transfer a data word is written only while the drive asks for data: BSY is clear
and DRQ set. -/
def Asked : Op → Prop
  | .write c .data _ =>
    let d := (s.dev (c, s.current c)).dev
    d.dataTransfer = .dataOut → d.bsy = false ∧ d.drq = true
  | _ => True

def Polite (op : Op) : Prop := s.halted = false → (s.ready op).Asked op

end IdeT

/-- The index is inside the buffer where a word may follow; `present` drives only take data. -/
structure IdeDevice.Buffered (present : Bool) (d : IdeDevice) : Prop where
  index_even : d.ioBufferIndex % 2 = 0
  size_even : d.ioBufferSize % 2 = 0
  size_le : d.ioBufferSize ≤ ioBufferBytes
  dataIn : d.dataTransfer = .dataIn → d.ioBufferIndex < d.ioBufferSize
  dataOut : d.dataTransfer = .dataOut → present = true ∧
    (d.bsy = false → d.drq = true → d.ioBufferIndex < d.ioBufferSize) ∧
    (0 < d.reqSectors → d.ioBufferIndex < d.ioBufferSize)

/-- `e` is `d` up to the status, and asks for data only where `d` does or sectors are left. -/
structure IdeDevice.Follows (e d : IdeDevice) : Prop where
  index : e.ioBufferIndex = d.ioBufferIndex
  size : e.ioBufferSize = d.ioBufferSize
  transfer : e.dataTransfer = d.dataTransfer
  req : e.reqSectors = d.reqSectors
  status : e.dataTransfer = .dataOut → e.bsy = false → e.drq = true →
    (d.bsy = false ∧ d.drq = true) ∨ 0 < d.reqSectors

namespace IdeDevice
variable {d e : IdeDevice} {present : Bool}

theorem Follows.of_regStatus (hindex : e.ioBufferIndex = d.ioBufferIndex)
    (hsize : e.ioBufferSize = d.ioBufferSize) (ht : e.dataTransfer = d.dataTransfer)
    (hreq : e.reqSectors = d.reqSectors) (hstatus : e.regStatus = d.regStatus) : e.Follows d :=
  ⟨hindex, hsize, ht, hreq, fun _ hb hd => .inl (by rw [bsy, drq, ← hstatus]; exact ⟨hb, hd⟩)⟩

theorem Follows.refl (d : IdeDevice) : d.Follows d := .of_regStatus rfl rfl rfl rfl rfl

theorem follows_setCmdWait (d : IdeDevice) : d.setCmdWait.Follows d :=
  ⟨rfl, rfl, rfl, rfl, fun _ _ h => absurd h (by simp [drq, setCmdWait])⟩

theorem bsy_resume (d : IdeDevice) (p : Pending) : (d.resume p).bsy = true := by
  cases p <;> simp [resume, bsy, setBsy]

theorem Follows.resume (h : e.Follows d) (p : Pending) : (e.resume p).Follows (d.resume p) := by
  obtain ⟨-, -, ht, hreq, -⟩ := h
  have hstatus (hb : (e.resume p).bsy = false) : False :=
    Bool.false_ne_true (hb.symm.trans (bsy_resume e p))
  cases p with
  | readSectors sector n =>
    exact ⟨rfl, rfl, rfl, congrArg (· - n) hreq, fun _ hb => (hstatus hb).elim⟩
  | nextChunk n => exact ⟨rfl, rfl, ht, congrArg (· - n) hreq, fun _ hb => (hstatus hb).elim⟩

theorem Buffered.follows (h : d.Buffered present) (he : e.Follows d) : e.Buffered present := by
  obtain ⟨h₁, h₂, h₃, h₄, h₅⟩ := h
  obtain ⟨hindex, hsize, ht, hreq, hstatus⟩ := he
  rw [← hindex] at h₁ h₄ h₅
  rw [← hsize] at h₂ h₃ h₄ h₅
  rw [← ht] at h₄ h₅
  refine ⟨h₁, h₂, h₃, h₄, fun hout => ?_⟩
  obtain ⟨hpresent, hasked, hleft⟩ := h₅ hout
  refine ⟨hpresent, fun hb hd => ?_, fun hr => hleft (hreq ▸ hr)⟩
  exact (hstatus hout hb hd).elim (fun h => hasked h.1 h.2) hleft

theorem Buffered.start {n : ℕ} (hn : 0 < n) (hle : n ≤ ideIobufferBlocks)
    (hindex : d.ioBufferIndex = 0) (hsize : d.ioBufferSize = ideSectorSize * n)
    (hpresent : d.dataTransfer = .dataOut → present = true) : d.Buffered present := by
  unfold ideIobufferBlocks at hle
  have hlt : 0 < ideSectorSize * n := Nat.mul_pos (by decide) hn
  refine ⟨?_, ?_, ?_, fun _ => ?_, fun hout => ⟨hpresent hout, fun _ _ => ?_, fun _ => ?_⟩⟩ <;>
    simp only [hindex, hsize, ioBufferBytes, ideIobufferBlocks, ideSectorSize] at * <;> omega

end IdeDevice
section Methods
variable {d : IdeDrive} {present : Bool} (o : Outcome) (m : Ide)

theorem buffered_chunk (n : ℕ) (hn : 0 < n) :
    0 < min n ideIobufferBlocks ∧ min n ideIobufferBlocks ≤ ideIobufferBlocks :=
  ⟨lt_min hn (by decide), Nat.min_le_right ..⟩

theorem buffered_readSectors : m.readSectors.resume.dev.Buffered present := by
  obtain ⟨hpos, hle⟩ := buffered_chunk _ m.requireLba.dev.sectorCount_pos
  rw [Ide.resume_of_some rfl]
  exact IdeDevice.Buffered.start hpos hle rfl rfl nofun

theorem buffered_writeSectors : m.writeSectors.dev.Buffered true := by
  obtain ⟨hpos, hle⟩ := buffered_chunk _ m.requireLba.dev.sectorCount_pos
  refine IdeDevice.Buffered.start hpos hle ?_ ?_ fun _ => rfl <;>
    simp [Ide.writeSectors, IdeDevice.setDataWait]

theorem buffered_nextChunk (write : Bool) (h : 0 < m.dev.reqSectors)
    (hpresent : m.dev.dataTransfer = .dataOut → present = true) :
    (m.nextChunk write).resume.dev.Buffered present := by
  obtain ⟨hpos, hle⟩ := buffered_chunk _ h
  rw [Ide.resume_of_some rfl]
  exact IdeDevice.Buffered.start hpos hle rfl (Nat.mul_comm ..) hpresent

theorem dev_nextDrqBlock : m.nextDrqBlock.dev = m.dev := by
  unfold Ide.nextDrqBlock
  split_ifs <;> simp

theorem held_nextDrqBlock : m.nextDrqBlock.held = m.held := by
  unfold Ide.nextDrqBlock
  split_ifs <;> simp

theorem buffered_ioDataRead {m : Ide} (h : m.dev.Buffered present) (hheld : m.held = none) :
    m.ioDataRead.2.resume.dev.Buffered present := by
  obtain ⟨h₁, h₂, h₃, h₄, h₅⟩ := h
  have heven : (m.dev.ioBufferIndex + 2) % 2 = 0 := by omega
  unfold Ide.ioDataRead
  dsimp only
  split_ifs with hin hend hreq
  · rw [Ide.resume_of_none hheld]
    exact ⟨h₁, h₂, h₃, h₄, h₅⟩
  · exact buffered_nextChunk _ _ hreq fun hout => (h₅ hout).1
  · rw [Ide.resume_of_none (by exact hheld)]
    exact ⟨heven, h₂, h₃, nofun, nofun⟩
  · rw [Ide.resume_of_none (by rw [held_nextDrqBlock]; exact hheld), dev_nextDrqBlock]
    refine ⟨heven, h₂, h₃, fun _ => not_le.1 hend, fun hout => ?_⟩
    exact absurd (hout.symm.trans (not_not.1 hin)) (by decide)

theorem buffered_ioDataWrite {m : Ide} (h : m.dev.Buffered present) (hheld : m.held = none)
    (value : Word16) : (m.ioDataWrite value).resume.dev.Buffered present := by
  obtain ⟨h₁, h₂, h₃, h₄, h₅⟩ := h
  have heven : (m.dev.ioBufferIndex + 2) % 2 = 0 := by omega
  unfold Ide.ioDataWrite
  dsimp only
  split_ifs with hout hend hreq
  · rw [Ide.resume_of_none hheld]
    exact ⟨h₁, h₂, h₃, h₄, h₅⟩
  · exact buffered_nextChunk _ _ hreq fun hout => (h₅ hout).1
  · rw [Ide.resume_of_none (by exact hheld)]
    refine ⟨heven, h₂, h₃, fun hin => ?_, fun hout => ⟨(h₅ hout).1, fun hb => ?_, fun h => ?_⟩⟩
    · exact absurd ((not_not.1 hout).symm.trans hin) (by decide)
    · exact absurd hb (by simp [Ide.transferBlock, IdeDevice.bsy, IdeDevice.setBsy])
    · exact absurd h hreq
  · rw [Ide.resume_of_none (by rw [held_nextDrqBlock]; exact hheld), dev_nextDrqBlock]
    have hlt := not_le.1 hend
    exact ⟨heven, h₂, h₃, fun _ => hlt, fun hout => ⟨(h₅ hout).1, fun _ _ => hlt, fun _ => hlt⟩⟩

theorem ioDataWrite_of_lt {m : Ide} (value : Word16) (hout : m.dev.dataTransfer = .dataOut)
    (hlt : m.dev.ioBufferIndex + 2 < m.dev.ioBufferSize) :
    m.ioDataWrite value = (m.store value).nextDrqBlock := by
  simp [Ide.ioDataWrite, Ide.store, hout, hlt]

theorem ioDataWrite_last {m : Ide} (value : Word16) (hout : m.dev.dataTransfer = .dataOut)
    (hle : m.dev.ioBufferSize ≤ m.dev.ioBufferIndex + 2) (hreq : m.dev.reqSectors = 0) :
    m.ioDataWrite value = Ide.transferBlock
      { m.store value with dev := (m.store value).dev.setBsy } (m.store value).dev.getSector
      (m.store value).dev.ioBufferSize true := by
  simp [Ide.ioDataWrite, Ide.store, hout, hle, hreq]

/-- A completion changes the status only, and asks for data only where sectors are left. -/
theorem follows_complete : m.complete.dev.Follows m.dev := by
  unfold Ide.complete
  cases ht : m.dev.dataTransfer <;> dsimp only <;> try exact .refl _
  case dataIn =>
    rw [Ide.raiseIrq_dev]
    exact ⟨rfl, rfl, rfl, rfl, fun hout => absurd (ht.symm.trans hout) (by decide)⟩
  case dataOut =>
    rw [Ide.raiseIrq_dev]
    split_ifs with hreq
    · exact ⟨rfl, rfl, rfl, rfl, fun _ _ _ => .inr hreq⟩
    · exact IdeDevice.follows_setCmdWait _

theorem held_complete : m.complete.held = m.held := by
  unfold Ide.complete
  split <;> simp

@[simp] theorem drive_raiseIrq : o.raiseIrq.drive = o.drive := by
  unfold Outcome.raiseIrq
  split_ifs <;> rfl

@[simp] theorem held_raiseIrq : o.raiseIrq.held = o.held := by
  unfold Outcome.raiseIrq
  split_ifs <;> rfl

/-- The device of an outcome when the access has come to its end. -/
def Outcome.settled : IdeDevice :=
  match o.held with
  | none => o.drive.dev
  | some p => o.drive.dev.resume p

theorem settled_of_none {o : Outcome} (h : o.held = none) : o.settled = o.drive.dev := by
  rw [Outcome.settled, h]

theorem settled_pio (f : Ide → Ide) :
    (d.pio f).settled = (f ⟨d.dev, [], none, fun _ _ => 0, [], 0, false⟩).resume.dev := by
  unfold Outcome.settled pio Ide.resume
  dsimp only
  generalize f ⟨d.dev, [], none, fun _ _ => 0, [], 0, false⟩ = m
  cases m.held <;> rfl

theorem follows_abortCommand : d.abortCommand.dev.Follows d.dev :=
  ⟨rfl, rfl, rfl, rfl, fun _ _ h => absurd h (by simp [IdeDevice.drq, abortCommand])⟩

theorem buffered_offer (words : List (ℕ × Word16)) : (d.offer words).dev.Buffered present :=
  IdeDevice.Buffered.start Nat.one_pos (by decide) rfl rfl nofun

theorem buffered_startDma (h : d.dev.Buffered present) (b : Bool) {t : IdeTransfer}
    (hin : t ≠ .dataIn) (hout : t ≠ .dataOut) :
    (d.startDma b t).settled.Buffered present := by
  unfold startDma
  split_ifs
  · exact ⟨h.index_even, h.size_even, h.size_le, fun ht => absurd ht hin, fun ht => absurd ht hout⟩
  · rw [settled_of_none (held_raiseIrq _), drive_raiseIrq]
    exact h.follows follows_abortCommand

theorem buffered_command (h : d.dev.Buffered true) (b : Bool) (i : DriveInfo) (cmd : Word16) :
    (d.command b i cmd).settled.Buffered true := by
  have hdone {d' : IdeDrive} (h' : d'.dev.Buffered true) :
      d'.done.raiseIrq.settled.Buffered true := by
    rw [settled_of_none (held_raiseIrq _), drive_raiseIrq]
    exact h'
  have habort := hdone (h.follows follows_abortCommand)
  have hwait {d' : IdeDrive} (heq : d'.dev = d.dev) : d'.setCmdWait.done.raiseIrq.settled.Buffered
      true := hdone (h.follows (heq ▸ IdeDevice.follows_setCmdWait _))
  unfold command
  cases IdeCommand.decode cmd <;> dsimp only
  case identifyDevice => exact hdone (buffered_offer _)
  case identifyPacketDevice =>
    unfold identifyCdrom
    split_ifs
    · exact habort
    · exact hdone (buffered_offer _)
    · exact hdone (buffered_offer _)
  case packet =>
    unfold readPacket
    split_ifs
    · rw [settled_of_none (held_raiseIrq _), drive_raiseIrq]
      exact (h.follows follows_abortCommand).follows follows_abortCommand
    · rw [settled_of_none (held_raiseIrq _), drive_raiseIrq]
      exact h.follows follows_abortCommand
  case readDma => exact buffered_startDma h b (by decide) (by decide)
  case writeDma => exact buffered_startDma h b (by decide) (by decide)
  case readSectors =>
    rw [settled_pio]
    exact buffered_readSectors _
  case writeSectors =>
    rw [settled_pio, Ide.resume_of_none]
    · exact buffered_writeSectors _
    · simp only [Ide.writeSectors, Ide.raiseIrq_held, Ide.requireLba]
      split_ifs <;> rfl
  case setFeatures =>
    unfold setFeatures
    split_ifs
    exacts [hwait rfl, hwait rfl, habort, habort]
  case setMultipleMode =>
    unfold setMultipleMode
    split_ifs
    exacts [habort, hwait rfl]
  case obsolete => exact hwait rfl
  all_goals exact habort

end Methods
namespace IdeT
section Runs
variable {cfg : IdeConfig} {s : IdeT}

/-- The invariant between two accesses. -/
structure Buffered (cfg : IdeConfig) (s : IdeT) : Prop where
  held : s.held = none
  dev : ∀ id, (s.dev id).dev.Buffered (cfg.info id).present

theorem resume_of_none (h : s.held = none) : s.resume = s := by
  rw [resume, h]

theorem held_resume : s.resume.held = none := by
  unfold resume
  split
  · assumption
  · rfl

theorem Buffered.resume (h : s.Buffered cfg) : s.resume.Buffered cfg := by
  rwa [resume_of_none h.held]

theorem Buffered.of_dev {t : IdeT} (h : s.Buffered cfg) (hdev : t.dev = s.dev)
    (hheld : t.held = s.held) : t.Buffered cfg :=
  ⟨hheld.trans h.held, fun id => hdev ▸ h.dev id⟩

/-- The server and the interrupt thread only change the status of drives. -/
theorem Buffered.follows {t : IdeT} (h : s.resume.Buffered cfg) (hheld : t.held = s.held)
    (hdev : ∀ id, (t.dev id).dev.Follows (s.dev id).dev) : t.resume.Buffered cfg := by
  refine ⟨held_resume, fun id => (h.dev id).follows ?_⟩
  unfold IdeT.resume setDrive
  rw [hheld]
  split
  · exact hdev id
  · next id' p _ =>
    by_cases hid : id = id'
    · subst hid
      simp only [Function.update_self]
      exact (hdev id).resume p
    · simp only [Function.update_of_ne hid]
      exact hdev id

theorem Buffered.perform (h : s.Buffered cfg) {id : DriveId} {o : Outcome}
    (ho : o.settled.Buffered (cfg.info id).present) : (s.perform cfg id o).resume.Buffered cfg := by
  obtain ⟨-, hdev, hheld⟩ := foldl_transferBlock_kept s id o.requests
  refine ⟨held_resume, fun id' => ?_⟩
  unfold Outcome.settled at ho
  unfold IdeT.resume IdeT.perform setDrive
  dsimp only
  rw [hdev, hheld, h.held]
  cases hp : o.held with
  | none =>
    rw [hp] at ho
    by_cases hid : id' = id
    · subst hid
      simpa using ho
    · simpa [hid] using h.dev id'
  | some p =>
    rw [hp] at ho
    by_cases hid : id' = id
    · subst hid
      simpa using ho
    · simpa [hid] using h.dev id'

theorem Buffered.broadcast (h : s.Buffered cfg) (c : Fin 2) {f : IdeDrive → IdeDrive}
    (hf : ∀ d : IdeDrive, (f d).dev.Follows d.dev) : (s.broadcast c f).Buffered cfg := by
  refine ⟨h.held, fun id => ?_⟩
  unfold IdeT.broadcast
  dsimp only
  split_ifs
  · exact (h.dev id).follows (hf _)
  · exact h.dev id

theorem softwareReset_cases (c : Fin 2) (id : DriveId) :
    ((s.softwareReset cfg c).dev id = s.dev id ∧
        (id.1 = c → (cfg.info id).present = false)) ∨
      ∃ d : IdeDrive, (s.softwareReset cfg c).dev id = resetDrive (cfg.info id) d ∧
        d.dev.Follows (s.dev id).dev := by
  obtain ⟨c', k⟩ := id
  have hsame (d : Byte) (e : Byte) : IdeDevice.Follows
      { (s.dev (c', k)).dev with regDevice := d, regError := e } (s.dev (c', k)).dev :=
    .of_regStatus rfl rfl rfl rfl rfl
  unfold softwareReset setDrive
  by_cases hc : c' = c
  · subst hc
    cases h0 : (cfg.info (c', 0)).present <;> cases h1 : (cfg.info (c', 1)).present <;>
      rcases (show k = 0 ∨ k = 1 by omega) with rfl | rfl <;>
      simp only [h0, h1, if_true, if_false, Bool.false_eq_true, Function.update_self, ne_eq,
        Prod.mk.injEq, zero_ne_one, one_ne_zero, not_false_eq_true, Function.update_of_ne,
        reduceCtorEq, imp_false, not_true, and_false, false_or, and_self, imp_self, true_or]
    all_goals exact ⟨_, rfl, hsame _ _⟩
  · left
    refine ⟨?_, fun h => absurd h hc⟩
    dsimp only
    split_ifs <;> simp [hc]

theorem Buffered.softwareReset (h : s.Buffered cfg) (c : Fin 2) :
    ((s.broadcast c (setBusy false)).softwareReset cfg c).Buffered cfg := by
  refine ⟨?_, fun id => ?_⟩
  · unfold IdeT.softwareReset setDrive
    dsimp only
    split_ifs <;> exact h.held
  have hkept : ((s.broadcast c (setBusy false)).dev id).dev.ioBufferIndex =
        (s.dev id).dev.ioBufferIndex ∧
      ((s.broadcast c (setBusy false)).dev id).dev.ioBufferSize = (s.dev id).dev.ioBufferSize ∧
      ((s.broadcast c (setBusy false)).dev id).dev.dataTransfer = (s.dev id).dev.dataTransfer ∧
      ((s.broadcast c (setBusy false)).dev id).dev.reqSectors = (s.dev id).dev.reqSectors := by
    unfold IdeT.broadcast
    dsimp only
    split_ifs <;> exact ⟨rfl, rfl, rfl, rfl⟩
  obtain ⟨hindex, hsize, ht, hreq⟩ := hkept
  rcases softwareReset_cases (s := s.broadcast c (setBusy false)) c id with
    ⟨heq, habsent⟩ | ⟨d, heq, hd⟩
  · rw [heq]
    refine (h.dev id).follows ⟨hindex, hsize, ht, hreq, fun hout hb hd => ?_⟩
    by_cases hid : id.1 = c
    · -- a drive that is not there takes no data
      have hpresent := ((h.dev id).dataOut (ht ▸ hout)).1
      exact absurd (hpresent.symm.trans (habsent hid)) (by decide)
    · unfold IdeT.broadcast at hb hd
      simp only [hid, if_false] at hb hd
      exact .inl ⟨hb, hd⟩
  · rw [heq]
    refine (h.dev id).follows ⟨hd.index.trans hindex, hd.size.trans hsize, hd.transfer.trans ht,
      hd.req.trans hreq, fun _ _ hdrq => absurd hdrq ?_⟩
    simp [resetDrive, setSignature, IdeDevice.drq]

theorem Buffered.writeDevControl (h : s.Buffered cfg) (c : Fin 2) (value : Word16) :
    (s.writeDevControl cfg c value).Buffered cfg := by
  unfold IdeT.writeDevControl
  refine Buffered.broadcast ?_ c fun _ => .of_regStatus rfl rfl rfl rfl rfl
  split_ifs
  · refine h.broadcast c fun d => ⟨rfl, rfl, rfl, rfl, fun _ hb => absurd hb ?_⟩
    simp [setBusy, IdeDevice.bsy]
  · exact h.softwareReset c
  · exact h

theorem Buffered.writeRegister (h : s.Buffered cfg) (c : Fin 2) (reg : Reg) (value : Word16) :
    (s.writeRegister cfg c reg value).resume.Buffered cfg := by
  cases reg with
  | data =>
    refine h.perform ?_
    rw [settled_pio]
    exact buffered_ioDataWrite (h.dev _) rfl value
  | command =>
    unfold IdeT.writeRegister IdeT.command
    dsimp only
    split_ifs with hpresent
    · have hdev := h.dev (c, master)
      rw [hpresent] at hdev
      have hcommand := buffered_command hdev cfg.i82371ab (cfg.info (c, master)) value
      exact (h.perform (hpresent ▸ hcommand)).follows rfl fun _ => .refl _
    · exact Buffered.resume (h.of_dev rfl rfl)
  | devControl => exact (h.writeDevControl c value).resume
  | unknown => exact h.resume
  | _ =>
    refine h.resume.follows rfl fun id => ?_
    unfold IdeT.writeRegister IdeT.broadcast
    dsimp only
    split_ifs
    · exact .of_regStatus rfl rfl rfl rfl rfl
    · exact .refl _

theorem settled_done (d : IdeDrive) : d.done.raiseIrq.settled = d.dev := by
  rw [settled_of_none (held_raiseIrq _), drive_raiseIrq]
  rfl

theorem Buffered.busMasterWrite (h : s.Buffered cfg) (c : Fin 2) (reg : BusMasterReg) (value : Word)
    (prdt : ℕ → PrdtEntry) : (s.busMasterWrite cfg c reg value prdt).resume.Buffered cfg := by
  have hset (b : BusMaster) : (s.setBusMaster c b).resume.Buffered cfg :=
    Buffered.resume (h.of_dev rfl rfl)
  unfold IdeT.busMasterWrite
  cases reg with
  | command =>
    dsimp only
    split_ifs
    · cases (s.busMaster c).dev with
      | none => exact Buffered.resume (h.of_dev rfl rfl)
      | some id =>
        unfold IdeT.ideStartDma
        dsimp only
        split_ifs
        · refine Buffered.perform ?_ ?_
          · exact h.of_dev rfl rfl
          · rw [settled_done]
            exact h.dev id
        · refine Buffered.resume (h.of_dev ?_ ?_)
          · exact (fillDescriptor_kept _ id _ _ _ _).2.1
          · exact (fillDescriptor_kept _ id _ _ _ _).2.2
    · exact hset _
  | unknown => exact h.resume
  | _ => exact hset _

theorem Buffered.complete (h : s.resume.Buffered cfg) (id : DriveId) :
    (s.complete cfg id).resume.Buffered cfg := by
  have hperform (t : IdeT) (o : Outcome) (hdev : t.dev = s.dev) (hheld : t.held = s.held)
      (ho : o.held = none) (hreq : o.requests = []) (hf : o.drive.dev.Follows (s.dev id).dev) :
      (t.perform cfg id o).resume.Buffered cfg := by
    refine h.follows ?_ fun id' => ?_
    · unfold IdeT.perform
      rw [ho, hreq]
      exact hheld
    · unfold IdeT.perform
      rw [hreq]
      by_cases hid : id' = id
      · subst hid
        simpa using hf
      · simpa [hid, hdev] using IdeDevice.Follows.refl _
  unfold IdeT.complete
  dsimp only
  split_ifs
  · refine hperform _ _ rfl rfl (by simp [done]) (by simp) ?_
    rw [drive_raiseIrq]
    exact IdeDevice.follows_setCmdWait _
  · refine hperform _ _ rfl rfl (by simp [done]) (by simp) ?_
    rw [drive_raiseIrq]
    exact IdeDevice.follows_setCmdWait _
  · exact hperform _ _ rfl rfl (held_complete _) (queue_complete _) (follows_complete _)

theorem Buffered.irqLoop (h : s.resume.Buffered cfg) : (s.irqLoop cfg).resume.Buffered cfg := by
  unfold IdeT.irqLoop
  dsimp only
  split_ifs
  · exact h
  · exact h.follows rfl fun _ => .refl _
  · exact (h.complete _).follows rfl fun _ => .refl _

/-- **Every access keeps the drives as they should be**, whatever the guest and the server do. -/
theorem Buffered.step (h : s.resume.Buffered cfg) (op : Op) :
    (s.step cfg op).resume.Buffered cfg := by
  unfold IdeT.step
  split_ifs
  · exact h
  cases op with
  | write c reg value => exact Buffered.writeRegister h c reg value
  | read c reg =>
    unfold exec readRegister
    dsimp only
    split_ifs
    · exact Buffered.resume h
    · cases reg with
      | data =>
        refine Buffered.perform h ?_
        rw [settled_pio]
        exact buffered_ioDataRead (h.dev _) rfl
      | _ => exact Buffered.resume h
  | busMaster c reg value prdt =>
    unfold exec
    split_ifs
    · exact Buffered.busMasterWrite h c reg value prdt
    · exact Buffered.resume h
  | answer i err buffer =>
    unfold exec answer
    dsimp only [ready]
    split_ifs
    · refine h.follows rfl fun id => ?_
      by_cases hid : id = (s.ring i).clientData
      · subst hid
        simp only [setDrive, Function.update_self]
        exact .of_regStatus rfl rfl rfl rfl rfl
      · simpa [setDrive, hid] using IdeDevice.Follows.refl _
    · exact h.follows rfl fun _ => .refl _
    · exact h
  | irqLoop => exact Buffered.irqLoop h
  | resume => exact Buffered.resume h

theorem buffered_init : (init cfg).Buffered cfg := by
  refine ⟨rfl, fun id => ?_⟩
  unfold init initDrive
  dsimp only
  split_ifs <;> exact ⟨rfl, rfl, Nat.zero_le _, nofun, nofun⟩

theorem Buffered.accessed_le (h : s.Buffered cfg) {op : Op} (hop : s.Asked op) {k : ℕ}
    (hk : k ∈ accessed cfg s op) : k + 2 ≤ ioBufferBytes := by
  cases op with
  | write c reg value =>
    cases reg with
    | data =>
      obtain ⟨heven, hsize, hle, -, hlt⟩ := h.dev (c, s.current c)
      unfold accessed at hk
      dsimp only at hk
      split_ifs at hk with hout
      · obtain rfl := Option.mem_some_iff.1 hk
        obtain ⟨hb, hd⟩ := hop hout
        have := (hlt hout).2.1 hb hd
        omega
      · exact nomatch hk
    | _ => exact nomatch hk
  | read c reg =>
    cases reg with
    | data =>
      obtain ⟨heven, hsize, hle, hlt, -⟩ := h.dev (c, s.current c)
      unfold accessed at hk
      dsimp only at hk
      split_ifs at hk with hin
      · obtain rfl := Option.mem_some_iff.1 hk
        have := hlt hin.2
        omega
      · exact nomatch hk
    | _ => exact nomatch hk
  | _ => exact nomatch hk

theorem Buffered.inside (h : s.resume.Buffered cfg) {op : Op} (hop : Polite s op) :
    Inside cfg s op := by
  intro hrun k hk
  cases op with
  | answer i err buffer => exact nomatch hk
  | irqLoop => exact nomatch hk
  | _ => exact h.accessed_le (hop hrun) hk

end Runs

/-- **The bounds of the buffer**: from power-on, all accesses are inside in every run in which the
guest writes data only when the drive asks for it. -/
theorem inside_of_polite (cfg : IdeConfig) (ops : List Op)
    (h : Runs.Guarded (step cfg) Polite (init cfg) ops) :
    Runs.Guarded (step cfg) (Inside cfg) (init cfg) ops :=
  Runs.guarded_of_guarded (I := fun s => s.resume.Buffered cfg) (fun _ op h _ => h.step op)
    (fun _ _ h hop => h.inside hop) buffered_init.resume h

section Overrun
variable {s : IdeT}

def oneDrive : IdeConfig := ⟨false, 16, 0, fun id => ⟨id.2 = master, false, [], 4096, 0⟩⟩
def writeAll : List Op := [.write primary .nsector 128, .write primary .command 0x30]

theorem inside_writeAll :
    Runs.Guarded (step oneDrive) (Inside oneDrive) (init oneDrive)
      (writeAll ++ [.write 0 .data 7]) :=
  inside_of_polite oneDrive _ ⟨fun _ => trivial, fun _ => trivial, fun _ _ => ⟨rfl, rfl⟩, trivial⟩

structure Filling (i : ℕ) (s : IdeT) : Prop where
  halted : s.halted = false
  held : s.held = none
  free : (s.ring s.startFree).serverOwned = false
  out : (s.dev (0, s.current 0)).dev.dataTransfer = .dataOut
  index : (s.dev (0, s.current 0)).dev.ioBufferIndex = i
  size : (s.dev (0, s.current 0)).dev.ioBufferSize = ioBufferBytes
  req : (s.dev (0, s.current 0)).dev.reqSectors = 0

variable {i : ℕ}

theorem Filling.exec_eq (h : s.Filling i) (v : Word16) :
    s.step oneDrive (.write 0 .data v) = s.perform oneDrive (0, s.current 0)
      ((s.dev (0, s.current 0)).pio fun m => m.ioDataWrite v) := by
  rw [step_of_running h.halted, show s.ready (.write 0 .data v) = s from resume_of_none h.held]
  rfl

theorem Filling.step (h : s.Filling i) (hi : i + 2 < ioBufferBytes) :
    (s.step oneDrive (.write 0 .data 0)).Filling (i + 2) := by
  rw [h.exec_eq]
  unfold pio
  dsimp only
  rw [ioDataWrite_of_lt 0 h.out (by rw [h.size, h.index]; exact hi)]
  unfold perform
  constructor <;>
    simp [held_nextDrqBlock, dev_nextDrqBlock, Ide.store, h.halted, h.held, h.free, h.out, h.index,
      h.size, h.req]

theorem Filling.run (h : s.Filling i) (n : ℕ) (hi : i + 2 * n < ioBufferBytes) :
    (Runs.run (IdeT.step oneDrive) s (List.replicate n (.write 0 .data 0))).Filling
      (i + 2 * n) := by
  induction n generalizing s i with
  | zero => exact h
  | succ n ih =>
    have hrest := ih (h.step (by omega)) (by omega)
    rwa [show i + 2 + 2 * n = i + 2 * (n + 1) by omega] at hrest

theorem Filling.last (h : s.Filling (ioBufferBytes - 2)) :
    let t := s.step oneDrive (.write 0 .data 0)
    t.halted = false ∧ t.held = none ∧ (t.dev (0, t.current 0)).dev.dataTransfer = .dataOut ∧
      (t.dev (0, t.current 0)).dev.ioBufferIndex = ioBufferBytes := by
  rw [h.exec_eq]
  unfold pio
  dsimp only
  rw [ioDataWrite_last 0 h.out (by rw [h.size, h.index]; decide) h.req]
  unfold perform
  simp [Ide.transferBlock, Ide.store, IdeDevice.setBsy, transferBlock, fillDescriptor, h.free,
    h.halted, h.held, h.out, h.index]
  decide

/-- **The word after the last one of a full buffer is stored outside of it.** -/
theorem not_inside_overrun :
    ¬ Runs.Guarded (step oneDrive) (Inside oneDrive) (init oneDrive)
      (writeAll ++ List.replicate 32767 (.write 0 .data 0) ++
        [.write 0 .data 0, .write 0 .data 0]) := by
  intro h
  have hfull := Filling.run (s := Runs.run (step oneDrive) (init oneDrive) writeAll) (i := 0)
    ⟨rfl, rfl, rfl, rfl, rfl, rfl, rfl⟩ 32767 (by decide)
  have hlast := (Runs.guarded_append.1 h).2.2.1
  rw [Runs.run_append] at hlast
  generalize Runs.run (step oneDrive) (Runs.run (step oneDrive) (init oneDrive) writeAll)
    (List.replicate 32767 (.write 0 .data 0)) = t at *
  obtain ⟨hrun, hheld, hout, hindex⟩ := hfull.last
  have hready : ready (t.step oneDrive (.write 0 .data 0)) (.write 0 .data 0) =
      t.step oneDrive (.write 0 .data 0) := resume_of_none hheld
  have hlt := hlast hrun _ (by rw [hready]; exact if_pos hout)
  rw [hindex] at hlt
  exact absurd hlt (by decide)

end Overrun
end IdeT
end Wedge
