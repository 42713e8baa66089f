import Afterburner.Wedge.IdeChannel

/-!
# Drive selection of the IDE controller

Bit 4 of the device register selects the drive for a command; its requests carry the handle of its
own connection.
-/

namespace Wedge
open Function Runs
namespace IdeT
variable (cfg : IdeConfig) (s : IdeT) (op : Op)

def selectedBy (c cur : Fin 2) : Op → Fin 2
  | .write c' .device value => if c' = c then (if value.getLsbD 4 then slave else master) else cur
  | _ => cur

def lastSelected (c : Fin 2) (history : List Op) : Fin 2 := history.foldl (selectedBy c) master

theorem lastSelected_snoc (c : Fin 2) (history : List Op) (op : Op) :
    lastSelected c (history ++ [op]) = selectedBy c (lastSelected c history) op := by
  unfold lastSelected
  rw [List.foldl_append]
  rfl

def Paired (c : Fin 2) : Prop := ∀ d, (cfg.info (c, d)).present = true

def Addressed : Prop :=
  ∀ i, (s.ring i).serverOwned = true →
    (s.ring i).handle = (cfg.info (s.ring i).clientData).conhandle

def CommandServed (history : List Op) (s : IdeT) : Op → Prop
  | .write c .command value => Paired cfg c →
      (s.step cfg (.write c .command value)).commands =
          s.commands ++ [((c, lastSelected c history), value)] ∧
        ∀ id, id ≠ (c, lastSelected c history) →
          (s.step cfg (.write c .command value)).dev id = s.resume.dev id
  | _ => True

def Served (history : List Op) (s : IdeT) (op : Op) : Prop :=
  s.halted = false → CommandServed cfg history s op ∧ Addressed cfg (s.step cfg op)

def Issues : Op → DriveId → Prop
  | .write c .command value, id =>
    id = (c, master) ∧ (cfg.info id).present = true ∧ IdeCommand.decode value = .readSectors
  | .write c .data _, id =>
    id = (c, s.current c) ∧ (s.dev id).dev.dataTransfer = .dataOut ∧
      (s.dev id).dev.ioBufferSize ≤ (s.dev id).dev.ioBufferIndex + 2
  | .read c .data, id =>
    id = (c, s.current c) ∧ (cfg.info id).present = true ∧ (s.dev id).dev.dataTransfer = .dataIn ∧
      (s.dev id).dev.ioBufferSize ≤ (s.dev id).dev.ioBufferIndex + 2 ∧ 0 < (s.dev id).dev.reqSectors
  | .busMaster c .command value prdt, id =>
    cfg.i82371ab = true ∧ value.getLsbD 0 = true ∧ (s.busMaster c).dev = some id ∧
      (s.dev id).dev.reqSectors * ideSectorSize ≤ (prdtSize prdt).toNat
  | _, _ => False

def InOrder : Prop :=
  s.halted = false →
    (∀ c value, op = .write c .command value → Paired cfg c → s.current c = master) ∧
      ∀ id, Issues cfg (s.ready op) op id → (s.ring s.startFree).serverOwned = false →
        cfg.handle = (cfg.info id).conhandle

section Ring
variable {cfg} {s} {id : DriveId}

theorem Addressed.of_ring {t : IdeT} (hs : Addressed cfg s) (h : t.ring = s.ring) :
    Addressed cfg t := by
  unfold Addressed
  rw [h]
  exact hs

theorem Addressed.setBusMaster (hs : Addressed cfg s) (c : Fin 2) (b : BusMaster) :
    Addressed cfg (s.setBusMaster c b) := hs.of_ring rfl

theorem addressed_fillDescriptor (hs : Addressed cfg s) (offset : Word) (size count : ℕ)
    (write : Bool) :
    Addressed cfg (s.fillDescriptor cfg id offset size count write) ↔
      ((s.ring s.startFree).serverOwned = false → cfg.handle = (cfg.info id).conhandle) := by
  unfold Addressed at hs ⊢
  unfold fillDescriptor
  split_ifs with hfree
  · simpa [hfree] using hs
  · simp only [update_apply, hfree]
    grind

def Asks (o : Outcome) (P : Prop) : Prop :=
  (P ∧ ∃ r, o.requests = [r]) ∨ (¬ P ∧ o.requests = [])

theorem addressed_perform {o : Outcome} {P : Prop} (ho : Asks o P) (hs : Addressed cfg s) :
    Addressed cfg (s.perform cfg id o) ↔
      (P → (s.ring s.startFree).serverOwned = false → cfg.handle = (cfg.info id).conhandle) := by
  rcases ho with ⟨hP, r, hr⟩ | ⟨hP, hr⟩
  · have hfill : Addressed cfg (s.perform cfg id o) ↔ Addressed cfg (s.transferBlock cfg id r) := by
      unfold perform
      rw [hr]
      exact Iff.rfl
    rw [hfill]
    unfold transferBlock
    rw [addressed_fillDescriptor hs]
    exact ⟨fun h _ => h, fun h => h hP⟩
  · refine iff_of_true (hs.of_ring ?_) fun h => absurd h hP
    unfold perform
    rw [hr]
    rfl

theorem ring_perform {o : Outcome} (ho : o.requests = []) :
    (s.perform cfg id o).ring = s.ring := by
  unfold perform
  rw [ho]
  rfl

end Ring
section Requests
variable (d : IdeDrive)

@[simp] theorem requests_raiseIrq (o : Outcome) : o.raiseIrq.requests = o.requests := by
  unfold Outcome.raiseIrq
  split_ifs <;> rfl

@[simp] theorem requests_done : d.done.requests = [] := rfl

@[simp] theorem requests_startDma (b : Bool) (t : IdeTransfer) :
    (d.startDma b t).requests = [] := by
  unfold IdeDrive.startDma
  split_ifs <;> simp

@[simp] theorem requests_readPacket (i : DriveInfo) : (d.readPacket i).requests = [] := by
  unfold IdeDrive.readPacket
  split_ifs <;> rfl

variable (m : Ide)

@[simp] theorem queue_requireLba : m.requireLba.queue = m.queue := by
  unfold Ide.requireLba
  split_ifs <;> rfl

theorem queue_writeSectors : m.writeSectors.queue = m.queue := by
  simp [Ide.writeSectors]

theorem queue_readSectors : ∃ r, m.readSectors.queue = m.queue ++ [r] := by
  simp [Ide.readSectors, Ide.transferBlock]

theorem queue_complete : m.complete.queue = m.queue := by
  unfold Ide.complete
  split <;> simp

@[simp] theorem queue_nextDrqBlock : m.nextDrqBlock.queue = m.queue := by
  unfold Ide.nextDrqBlock
  split_ifs <;> simp

theorem asks_command (b : Bool) (i : DriveInfo) (cmd : Word16) :
    Asks (d.command b i cmd) (IdeCommand.decode cmd = .readSectors) := by
  unfold IdeDrive.command
  cases hc : IdeCommand.decode cmd with
  | readSectors => exact Or.inl ⟨rfl, queue_readSectors _⟩
  | writeSectors => exact Or.inr ⟨by simp, queue_writeSectors _⟩
  | _ => exact Or.inr ⟨by simp, by simp [IdeDrive.readDma, IdeDrive.writeDma]⟩

theorem asks_ioDataWrite (value : Word16) :
    Asks (d.pio fun m => m.ioDataWrite value)
      (d.dev.dataTransfer = .dataOut ∧ d.dev.ioBufferSize ≤ d.dev.ioBufferIndex + 2) := by
  unfold Asks IdeDrive.pio Ide.ioDataWrite Ide.store
  dsimp only
  split_ifs <;> simp_all [Ide.transferBlock, Ide.nextChunk]

theorem asks_ioDataRead :
    Asks (d.pio fun m => m.ioDataRead.2)
      (d.dev.dataTransfer = .dataIn ∧ d.dev.ioBufferSize ≤ d.dev.ioBufferIndex + 2 ∧
        0 < d.dev.reqSectors) := by
  unfold Asks IdeDrive.pio Ide.ioDataRead
  dsimp only
  split_ifs <;> simp_all [Ide.transferBlock, Ide.nextChunk]

end Requests
section Kept
variable {cfg} (id : DriveId) (o : Outcome)

theorem fillDescriptor_kept (offset : Word) (size count : ℕ) (write : Bool) :
    (s.fillDescriptor cfg id offset size count write).current = s.current ∧
      (s.fillDescriptor cfg id offset size count write).dev = s.dev ∧
      (s.fillDescriptor cfg id offset size count write).held = s.held := by
  unfold fillDescriptor
  split_ifs <;> exact ⟨rfl, rfl, rfl⟩

theorem foldl_transferBlock_kept (requests : List BlockRequest) :
    let t := requests.foldl (fun s r => s.transferBlock cfg id r) s
    t.current = s.current ∧ t.dev = s.dev ∧ t.held = s.held := by
  induction requests generalizing s with
  | nil => exact ⟨rfl, rfl, rfl⟩
  | cons r requests ih =>
    obtain ⟨hc, hd, hh⟩ := ih (s.transferBlock cfg id r)
    obtain ⟨hc', hd', hh'⟩ := fillDescriptor_kept s id r.offset r.size
      (s.ring s.startFree).count r.doWrite
    exact ⟨hc.trans hc', hd.trans hd', hh.trans hh'⟩

@[simp] theorem current_perform : (s.perform cfg id o).current = s.current :=
  (foldl_transferBlock_kept s id o.requests).1

theorem dev_perform_of_ne {id' : DriveId} (h : id' ≠ id) :
    (s.perform cfg id o).dev id' = s.dev id' := by
  unfold perform
  dsimp only
  rw [(foldl_transferBlock_kept s id o.requests).2.1, update_of_ne h]

@[simp] theorem current_command (cmd : Word16) : (s.command cfg id cmd).current = s.current := by
  unfold command
  split_ifs
  · exact current_perform s id _
  · rfl

variable (c : Fin 2)

@[simp] theorem current_softwareReset : (s.softwareReset cfg c).current = s.current := by
  unfold softwareReset setDrive
  split_ifs <;> rfl

@[simp] theorem ring_softwareReset : (s.softwareReset cfg c).ring = s.ring := by
  unfold softwareReset setDrive
  split_ifs <;> rfl

@[simp] theorem current_broadcast (f : IdeDrive → IdeDrive) :
    (s.broadcast c f).current = s.current := rfl

@[simp] theorem ring_broadcast (f : IdeDrive → IdeDrive) : (s.broadcast c f).ring = s.ring := rfl

@[simp] theorem current_writeDevControl (value : Word16) :
    (s.writeDevControl cfg c value).current = s.current := by
  unfold writeDevControl
  dsimp only
  split_ifs <;> simp

@[simp] theorem ring_writeDevControl (value : Word16) :
    (s.writeDevControl cfg c value).ring = s.ring := by
  unfold writeDevControl
  dsimp only
  split_ifs <;> simp

@[simp] theorem current_ideStartDma (prdt : ℕ → PrdtEntry) (write : Bool) :
    (s.ideStartDma cfg id prdt write).current = s.current := by
  unfold ideStartDma
  dsimp only
  split_ifs
  · rw [current_perform]
    rfl
  · exact (fillDescriptor_kept _ id _ _ _ _).1

@[simp] theorem current_busMasterWrite (reg : BusMasterReg) (value : Word) (prdt : ℕ → PrdtEntry) :
    (s.busMasterWrite cfg c reg value prdt).current = s.current := by
  cases reg with
  | command =>
    unfold busMasterWrite
    dsimp only
    split_ifs
    · cases (s.busMaster c).dev with
      | none => rfl
      | some id => exact current_ideStartDma _ id prdt _
    · rfl
  | status => rfl
  | dtba => rfl
  | unknown => rfl

@[simp] theorem current_complete : (s.complete cfg id).current = s.current := by
  unfold complete
  dsimp only
  split_ifs <;> exact current_perform _ id _

@[simp] theorem ring_complete : (s.complete cfg id).ring = s.ring := by
  unfold complete
  dsimp only
  split_ifs
  · exact ring_perform (by simp)
  · exact ring_perform (by simp)
  · exact ring_perform (queue_complete _)

theorem current_irqLoop : (s.irqLoop cfg).current = s.current := by
  unfold irqLoop
  dsimp only
  split_ifs <;> simp

theorem ring_irqLoop : (s.irqLoop cfg).ring = s.ring := by
  unfold irqLoop
  dsimp only
  split_ifs <;> simp

theorem current_answer (i : ℕ) (err : Bool) (buffer : ℕ → Word16) :
    (s.answer i err buffer).current = s.current := by
  unfold answer setDrive
  dsimp only
  split_ifs <;> rfl

theorem current_readRegister (reg : Reg) : (s.readRegister cfg c reg).2.current = s.current := by
  unfold readRegister
  dsimp only
  split_ifs
  · rfl
  · cases reg with
    | data => exact current_perform s _ _
    | _ => rfl

theorem current_exec (c : Fin 2) :
    (s.exec cfg op).current c = selectedBy c (s.current c) op := by
  cases op with
  | write c' reg value =>
    cases reg with
    | device =>
      unfold exec writeRegister selectedBy
      simp only [update_apply, eq_comm]
    | data => exact congrFun (current_perform s _ _) c
    | command => exact congrFun (current_command s _ value) c
    | devControl => exact congrFun (current_writeDevControl s c' value) c
    | _ => rfl
  | read c' reg => exact congrFun (current_readRegister s c' reg) c
  | busMaster c' reg value prdt =>
    unfold exec
    split_ifs
    · exact congrFun (current_busMasterWrite s c' reg value prdt) c
    · rfl
  | answer i err buffer => exact congrFun (current_answer s i err buffer) c
  | irqLoop => exact congrFun (current_irqLoop s) c
  | resume => rfl

theorem ready_kept : (s.ready op).current = s.current ∧ (s.ready op).ring = s.ring ∧
    (s.ready op).startFree = s.startFree ∧ (s.ready op).commands = s.commands ∧
    (s.ready op).halted = s.halted := by
  unfold ready resume setDrive
  split <;> try split
  all_goals exact ⟨rfl, rfl, rfl, rfl, rfl⟩

end Kept
section Access
variable {cfg} {s}

theorem step_of_running (h : s.halted = false) (op : Op) :
    s.step cfg op = (s.ready op).exec cfg op := by
  unfold step
  rw [h]
  rfl

theorem step_of_halted (h : s.halted = true) (op : Op) : s.step cfg op = s := by
  unfold step
  rw [h]
  rfl

theorem addressed_answer (hs : Addressed cfg s) (i : ℕ) (err : Bool) (buffer : ℕ → Word16) :
    Addressed cfg (s.answer i err buffer) := by
  unfold Addressed at hs ⊢
  unfold answer setDrive
  dsimp only
  split_ifs <;> grind [update_apply]

theorem addressed_ideStartDma (hs : Addressed cfg s) (id : DriveId) (prdt : ℕ → PrdtEntry)
    (write : Bool) :
    Addressed cfg (s.ideStartDma cfg id prdt write) ↔
      ((s.dev id).dev.reqSectors * ideSectorSize ≤ (prdtSize prdt).toNat →
        (s.ring s.startFree).serverOwned = false → cfg.handle = (cfg.info id).conhandle) := by
  unfold ideStartDma
  dsimp only
  split_ifs with hsize
  · exact iff_of_true (hs.of_ring ((ring_perform (by simp)).trans rfl)) fun h =>
      absurd h (not_le.2 hsize)
  · have hs' : Addressed cfg { s with debugger := s.debugger || !(s.dev id).dev.lba } :=
      hs.of_ring rfl
    exact (addressed_fillDescriptor hs' (s.dev id).dev.getSector 0 _ write).trans
      ⟨fun h _ => h, fun h => h (not_lt.1 hsize)⟩

theorem addressed_busMasterCommand (hs : Addressed cfg s) (c : Fin 2) (value : Word)
    (prdt : ℕ → PrdtEntry) :
    Addressed cfg (s.busMasterWrite cfg c .command value prdt) ↔
      ∀ id, value.getLsbD 0 = true ∧ (s.busMaster c).dev = some id ∧
          (s.dev id).dev.reqSectors * ideSectorSize ≤ (prdtSize prdt).toNat →
        (s.ring s.startFree).serverOwned = false → cfg.handle = (cfg.info id).conhandle := by
  unfold busMasterWrite
  dsimp only
  split_ifs with hstart
  · cases hdev : (s.busMaster c).dev with
    | none =>
      refine iff_of_true (hs.of_ring rfl) fun id h => ?_
      exact absurd h.2.1 (Option.some_ne_none id).symm
    | some id =>
      refine (addressed_ideStartDma (hs.setBusMaster c _) id prdt _).trans ?_
      constructor
      · rintro h id' ⟨-, hid, hsize⟩
        obtain rfl : id = id' := Option.some.inj hid
        exact h hsize
      · exact fun h hsize => h id ⟨hstart, rfl, hsize⟩
  · exact iff_of_true (hs.of_ring rfl) fun id h => absurd h.1 hstart

theorem addressed_exec (hs : Addressed cfg s) (op : Op) :
    Addressed cfg (s.exec cfg op) ↔
      ∀ id, Issues cfg s op id → (s.ring s.startFree).serverOwned = false →
        cfg.handle = (cfg.info id).conhandle := by
  cases op with
  | write c reg value =>
    cases reg with
    | data =>
      refine (addressed_perform (asks_ioDataWrite _ value) hs).trans ?_
      constructor
      · rintro h id ⟨rfl, hid⟩
        exact h hid
      · exact fun h hid => h _ ⟨rfl, hid⟩
    | command =>
      unfold exec writeRegister command
      dsimp only
      split_ifs with hp
      · refine (addressed_perform (asks_command _ _ _ value) hs).trans ?_
        constructor
        · rintro h id ⟨rfl, -, hid⟩
          exact h hid
        · exact fun h hid => h _ ⟨rfl, hp, hid⟩
      · refine iff_of_true (hs.of_ring rfl) ?_
        rintro id ⟨rfl, hid, -⟩
        exact absurd hid hp
    | devControl =>
      exact iff_of_true (hs.of_ring (ring_writeDevControl s c value)) fun _ h => h.elim
    | _ => exact iff_of_true (hs.of_ring rfl) fun _ h => h.elim
  | read c reg =>
    unfold exec readRegister
    dsimp only
    by_cases hp : (cfg.info (c, s.current c)).present = true
    · rw [if_neg (by rw [hp]; exact Bool.noConfusion)]
      cases reg with
      | data =>
        refine (addressed_perform (asks_ioDataRead _) hs).trans ?_
        constructor
        · rintro h id ⟨rfl, -, hid⟩
          exact h hid
        · exact fun h hid => h _ ⟨rfl, hp, hid⟩
      | _ => exact iff_of_true hs fun _ h => h.elim
    · rw [if_pos (Bool.eq_false_iff.2 hp)]
      refine iff_of_true hs fun id h => ?_
      cases reg with
      | data =>
        obtain ⟨rfl, hid, -⟩ := h
        exact absurd hid hp
      | _ => exact h.elim
  | busMaster c reg value prdt =>
    unfold exec
    split_ifs with hb
    · cases reg with
      | command =>
        rw [addressed_busMasterCommand hs]
        exact ⟨fun h id hid => h id hid.2, fun h id hid => h id ⟨hb, hid⟩⟩
      | _ => exact iff_of_true (hs.of_ring rfl) fun _ h => h.elim
    · refine iff_of_true hs fun id h => ?_
      cases reg with
      | command => exact absurd h.1 hb
      | _ => exact h.elim
  | answer i err buffer => exact iff_of_true (addressed_answer hs i err buffer) fun _ h => h.elim
  | irqLoop => exact iff_of_true (hs.of_ring (ring_irqLoop s)) fun _ h => h.elim
  | resume => exact iff_of_true hs fun _ h => h.elim

theorem command_served {c : Fin 2} (hpaired : Paired cfg c) (value : Word16) :
    (s.exec cfg (.write c .command value)).commands = s.commands ++ [((c, master), value)] ∧
      ∀ id, id ≠ (c, master) → (s.exec cfg (.write c .command value)).dev id = s.dev id := by
  unfold exec writeRegister command
  dsimp only
  rw [if_pos (hpaired master)]
  exact ⟨rfl, fun id hid => dev_perform_of_ne s (c, master) _ hid⟩

theorem commandServed_iff {history : List Op} (hrun : s.halted = false)
    (hcur : ∀ c, s.current c = lastSelected c history) (op : Op) :
    CommandServed cfg history s op ↔
      ∀ c value, op = .write c .command value → Paired cfg c → s.current c = master := by
  unfold CommandServed
  split
  · rename_i c value
    obtain ⟨-, -, -, hcommands, -⟩ := ready_kept s (.write c .command value)
    rw [step_of_running hrun, ← hcommands]
    constructor
    · rintro h c' value' heq hpaired
      obtain ⟨rfl, -, -⟩ := Op.write.inj heq
      have hlog := (h hpaired).1
      rw [(command_served hpaired value).1] at hlog
      have hid := congrArg (fun x => x.1.2) (List.cons.inj (List.append_cancel_left hlog)).1
      rw [hcur]
      exact hid.symm
    · intro h hpaired
      rw [← hcur, h c value rfl hpaired]
      exact command_served hpaired value
  · simp_all

end Access

structure Tracked (history : List Op) (s : IdeT) : Prop where
  current : s.halted = false → ∀ c, s.current c = lastSelected c history
  addressed : s.halted = false → Addressed cfg s

theorem Tracked.step {cfg : IdeConfig} {history : List Op} {s : IdeT} {op : Op}
    (h : Tracked cfg history s) (hop : Served cfg history s op) :
    Tracked cfg (history ++ [op]) (s.step cfg op) := by
  cases hrun : s.halted with
  | true =>
    rw [step_of_halted hrun]
    have hne : s.halted ≠ false := by rw [hrun]; exact Bool.noConfusion
    exact ⟨fun h' => absurd h' hne, fun h' => absurd h' hne⟩
  | false =>
    refine ⟨fun _ c => ?_, fun _ => (hop hrun).2⟩
    rw [step_of_running hrun, current_exec, (ready_kept s op).1, h.current hrun, lastSelected_snoc]

theorem Tracked.served_iff {cfg : IdeConfig} {history : List Op} {s : IdeT}
    (h : Tracked cfg history s) (op : Op) : Served cfg history s op ↔ InOrder cfg s op := by
  refine forall_congr' fun hrun => and_congr (commandServed_iff hrun (h.current hrun) op) ?_
  obtain ⟨-, hring, hfree, -⟩ := ready_kept s op
  rw [step_of_running hrun, ← hring, ← hfree]
  exact addressed_exec ((h.addressed hrun).of_ring hring) op

theorem Initial.tracked {cfg : IdeConfig} {s : IdeT} (h : s.Initial) : Tracked cfg [] s :=
  ⟨fun _ c => h.current c, fun _ i hi => by rw [h.ring i] at hi; cases hi⟩

/-- **Drive selection.** Every command is executed by the drive selected last, for it alone, and
every request carries its handle, exactly when every access is in order. -/
theorem served_iff_inOrder (s : IdeT) (hs : s.Initial) (ops : List Op) :
    (∀ pre op post, ops = pre ++ op :: post →
        Served cfg pre (run (step cfg) s pre) op) ↔
      Runs.Guarded (step cfg) (InOrder cfg) s ops :=
  forall_split_iff_guarded (J := Tracked cfg) (P := Served cfg)
    (fun _ _ _ h hop => h.step hop) (fun _ _ op h => h.served_iff op) hs.tracked ops

def twoDrives (h0 h1 : Word) : IdeConfig where
  i82371ab := false
  cnt := 16
  handle := 1
  info := fun id => ⟨true, false, [], 4096, if id.2 = master then h0 else h1⟩

theorem served_readSector :
    (init (twoDrives 1 2)).Initial ∧
      ∀ pre op post, [Op.write 0 .device 0x40, .write 0 .nsector 1, .write 0 .command 0x20] =
          pre ++ op :: post →
        Served (twoDrives 1 2) pre (run (step (twoDrives 1 2)) (init (twoDrives 1 2)) pre)
          op := by
  refine ⟨init_initial _, (served_iff_inOrder _ _ (init_initial _) _).2 ?_⟩
  refine ⟨fun _ => ⟨?_, ?_⟩, fun _ => ⟨?_, ?_⟩, fun _ => ⟨?_, ?_⟩, trivial⟩
  · simp
  · exact fun id h => h.elim
  · simp
  · exact fun id h => h.elim
  · intro c value heq _
    cases heq
    decide
  · rintro id ⟨rfl, -⟩ _
    rfl

theorem not_served_secondDrive :
    (¬ ∀ pre op post, [Op.write 0 .device 0x50, .write 0 .command 0xEC] = pre ++ op :: post →
        Served (twoDrives 1 1) pre (run (step (twoDrives 1 1)) (init (twoDrives 1 1)) pre)
          op) ∧
      ¬ ∀ pre op post, [Op.write 0 .device 0x40, .write 0 .command 0x20] = pre ++ op :: post →
        Served (twoDrives 2 3) pre (run (step (twoDrives 2 3)) (init (twoDrives 2 3)) pre)
          op := by
  constructor
  · intro h
    have hcmd := (h [.write 0 .device 0x50] (.write 0 .command 0xEC) [] rfl rfl).1 fun _ => rfl
    have hlog := hcmd.1
    revert hlog
    decide
  · intro h
    have haddr := (h [.write 0 .device 0x40] (.write 0 .command 0x20) [] rfl rfl).2 0 rfl
    revert haddr
    decide

end IdeT
end Wedge
