import Mathlib
import Afterburner.Lib.Runs
import Afterburner.Wedge.Ide

/-!
# The IDE controller: two channels with two drives each

`ide_t` with its channels, the ring that it shares with the block server and the registers of the
bus master (`i82371ab_t`).
-/

namespace Wedge
open Function Bits

structure DriveInfo where
  present : Bool
  cdrom : Bool
  serial : List Byte
  lbaSector : Word
  /-- the handle that `IVMblock_Control_attach` returned for the drive -/
  conhandle : Word

variable (i : DriveInfo)

structure IdeDrive where
  dev : IdeDevice
  regFeature : Byte
  regAltStatus : Byte
  multSectors : ℕ
  udmaMode : Byte
  dma : Bool

variable (d : IdeDrive)

structure Outcome where
  drive : IdeDrive
  requests : List BlockRequest
  held : Option Pending
  irqs : ℕ
  debugger : Bool
  register : Bool

namespace Outcome

def raiseIrq (o : Outcome) : Outcome :=
  if o.drive.dev.nien then o else { o with irqs := o.irqs + 1 }

end Outcome

def ideMaxReadWriteMultiple : ℕ := 8

namespace DriveInfo

def cylinder : Word :=
  if i.lbaSector / 1008 > 16383 then 16383 else i.lbaSector / 1008

def padstr (src : List Byte) (len : ℕ) : List Word16 :=
  (List.range (len / 2)).map fun j =>
    (src.getD (2 * j) 0x20 ++ src.getD (2 * j + 1) 0x20 : BitVec (8 + 8))

def bytes (text : String) : List Byte := text.toList.map fun ch => BitVec.ofNat 8 ch.toNat

def wordsAt (pos : ℕ) (words : List Word16) : List (ℕ × Word16) :=
  words.mapIdx fun k w => (pos + k, w)

def identifyWords (i82371ab : Bool) (d : IdeDrive) (signature : Word16)
    (model : List Word16) : List (ℕ × Word16) :=
  [(0, signature), (1, i.cylinder.setWidth 16), (3, 16), (6, 63)] ++
    wordsAt 10 (padstr i.serial 20) ++ wordsAt 23 (padstr (bytes "l4ka 0.1") 8) ++
    wordsAt 27 model ++
    [(47, 0x8000 ||| BitVec.ofNat 16 ideMaxReadWriteMultiple), (49, 0x0300),
      (53, if i82371ab then 6 else 2), (59, 0x0101), (60, i.lbaSector.setWidth 16),
      (61, (i.lbaSector >>> 16).setWidth 16), (64, 3), (67, 120), (68, 120), (80, 0x0070),
      (81, 0x0019), (82, 0x4200), (83, 0x4000), (84, 0x4000), (85, 0), (86, 0), (87, 0x4000),
      (88, if d.dma then 7 ||| (1 <<< (d.udmaMode.toNat + 8)) else 7), (93, 0x4001), (100, 0)]

end DriveInfo
namespace IdeDrive

def done : Outcome := ⟨d, [], none, 0, false, false⟩

def pio (f : Ide → Ide) : Outcome :=
  let s := f ⟨d.dev, [], none, fun _ _ => 0, [], 0, false⟩
  ⟨{ d with dev := s.dev }, s.queue, s.held, s.irqs, s.debugger, false⟩

def setCmdWait (d : IdeDrive) : IdeDrive := { d with dev := d.dev.setCmdWait }

def abortCommand : IdeDrive :=
  { d with dev := { d.dev with regStatus := 0x41, regError := 0x04 }, regAltStatus := 0x41 }

def setSignature : IdeDrive :=
  { d with dev := { d.dev with
    regError := 0x01
    regNsector := 0x01
    regDevice := 0x00
    regLbaLow := 0x01
    regLbaMid := if i.cdrom then 0x14 else 0x00
    regLbaHigh := if i.cdrom then 0xeb else 0x00 } }

def offer (words : List (ℕ × Word16)) : IdeDrive :=
  let cleared : ℕ → Word16 := fun k => if k < 256 then 0 else d.dev.ioBuffer k
  { d with dev := { d.dev with
    ioBuffer := words.foldl (fun b (w : ℕ × Word16) => update b w.1 w.2) cleared
    ioBufferIndex := 0
    ioBufferSize := ideSectorSize
    dataTransfer := .dataIn }.setDataWait }

def identify (i82371ab : Bool) (i : DriveInfo) (d : IdeDrive) : IdeDrive :=
  d.offer (i.identifyWords i82371ab d 0xff02
    (DriveInfo.padstr (DriveInfo.bytes "L4KA AFTERBURNER HARDDISK") 40))

def identifyCdrom (i82371ab : Bool) (i : DriveInfo) (d : IdeDrive) : IdeDrive :=
  if i.cdrom = false then d.abortCommand
  else if i.present then
    d.offer (i.identifyWords i82371ab d 0x0503
      (DriveInfo.padstr (DriveInfo.bytes "L4KA AFTERBURNER CD-ROM") 38))
  else d.offer []

def readPacket : Outcome :=
  if i.cdrom = false then d.abortCommand.done else { d.done with debugger := true }

def startDma (i82371ab : Bool) (d : IdeDrive) (transfer : IdeTransfer) : Outcome :=
  if i82371ab = true ∧ d.dma = true then
    { drive := { d with dev := { d.dev with
        reqSectors := d.dev.sectorCount
        dataTransfer := transfer }.setDataWait }
      requests := []
      held := none
      irqs := 0
      debugger := false
      register := true }
  else d.abortCommand.done.raiseIrq

def readDma (i82371ab : Bool) (d : IdeDrive) : Outcome := d.startDma i82371ab .dmaIn
def writeDma (i82371ab : Bool) (d : IdeDrive) : Outcome := d.startDma i82371ab .dmaOut

def setFeatures : IdeDrive :=
  if d.regFeature = 0x03 then
    if d.dev.regNsector >>> 3 = 0x0 then { d with dma := false }.setCmdWait
    else if d.dev.regNsector >>> 3 = 0x8 then
      { d with dma := true, udmaMode := d.dev.regNsector &&& 0x7 }.setCmdWait
    else d.abortCommand
  else d.abortCommand

def setMultipleMode : IdeDrive :=
  if d.dev.regNsector.toNat > ideMaxReadWriteMultiple then d.abortCommand
  else { d with multSectors := d.dev.regNsector.toNat }.setCmdWait

end IdeDrive

inductive IdeCommand
  | identifyDevice
  | identifyPacketDevice
  | packet
  | readDma
  | readSectors
  | setFeatures
  | setMultipleMode
  | writeDma
  | writeSectors
  | obsolete
  | unsupported
  | unknown
  deriving DecidableEq, Repr

def idePacketCommands : List Word16 := [0xE3, 0xE1, 0xED, 0xDE, 0xDF, 0x00, 0xA0]

def ideUnsupportedCommands : List Word16 :=
  [0xC0, 0x03, 0x87, 0xCD, 0x38, 0xD1, 0xE5, 0xB1, 0x08, 0x92, 0x90, 0xE7, 0xEA, 0xDA, 0xE4, 0x25,
    0xC7, 0x26, 0x2F, 0xC4, 0x29, 0xF8, 0x27, 0x24, 0x40, 0x42, 0xF6, 0xF3, 0xF4, 0xF5, 0xF1, 0xF2,
    0x70, 0xA2, 0xF9, 0x37, 0xE6, 0xB0, 0xE2, 0xE0, 0xE8, 0x35, 0xCC, 0x36, 0x3F, 0xC5, 0x39, 0x34]

def IdeCommand.decode (cmd : Word16) : IdeCommand :=
  if cmd = 0xEC then .identifyDevice
  else if cmd = 0xA1 then .identifyPacketDevice
  else if cmd ∈ idePacketCommands then .packet
  else if cmd = 0xC8 then .readDma
  else if cmd = 0x20 then .readSectors
  else if cmd = 0xEF then .setFeatures
  else if cmd = 0xC6 then .setMultipleMode
  else if cmd = 0xCA then .writeDma
  else if cmd = 0x30 then .writeSectors
  else if cmd = 0x91 ∨ cmd = 0x10 then .obsolete
  else if cmd ∈ ideUnsupportedCommands then .unsupported
  else .unknown

def IdeDrive.command (i82371ab : Bool) (i : DriveInfo) (d : IdeDrive) (cmd : Word16) : Outcome :=
  match IdeCommand.decode cmd with
  | .identifyDevice => (d.identify i82371ab i).done.raiseIrq
  | .identifyPacketDevice => (d.identifyCdrom i82371ab i).done.raiseIrq
  | .packet =>
    let o := d.readPacket i
    { o with drive := o.drive.abortCommand }.raiseIrq
  | .readDma => d.readDma i82371ab
  | .readSectors => d.pio Ide.readSectors
  | .setFeatures => d.setFeatures.done.raiseIrq
  | .setMultipleMode => d.setMultipleMode.done.raiseIrq
  | .writeDma => d.writeDma i82371ab
  | .writeSectors => d.pio Ide.writeSectors
  | .obsolete => d.setCmdWait.done.raiseIrq
  | .unsupported => d.abortCommand.done.raiseIrq
  | .unknown => d.abortCommand.done.raiseIrq

abbrev DriveId := Fin 2 × Fin 2
def master : Fin 2 := 0
def slave : Fin 2 := 1
/-- The channel at 0x1f0. -/
def primary : Fin 2 := 0

structure IdeConfig where
  /-- `CONFIG_DEVICE_I82371AB` -/
  i82371ab : Bool
  /-- `IVMblock_descriptor_ring_size` -/
  cnt : ℕ
  /-- the handle that `IVMblock_Control_register` returned for the wedge -/
  handle : Word
  info : DriveId → DriveInfo

structure RingDescriptor where
  handle : Word
  size : ℕ
  offset : Word
  count : ℕ
  clientData : DriveId
  doWrite : Bool
  serverOwned : Bool
  serverErr : Bool

structure PrdtEntry where
  baseAddr : Word
  size : Word16
  eot : Bool

structure BusMaster where
  bmicx : Byte
  bmisx : Byte
  dtba : Word
  dev : Option DriveId

namespace BusMaster
variable (b : BusMaster)

def ssbm : Bool := b.bmicx.getLsbD 0
def rwcon : Bool := b.bmicx.getLsbD 3

def setDmaTransferError : BusMaster :=
  { b with bmisx := erase (erase b.bmisx 2) 0 }

def setDmaEnd : BusMaster :=
  { b with bmisx := erase (insert b.bmisx 2) 0 }

end BusMaster

structure IdeT where
  dev : DriveId → IdeDrive
  current : Fin 2 → Fin 2
  ring : ℕ → RingDescriptor
  startFree : ℕ
  startDirty : ℕ
  /-- the rest of the access that has handed over a request -/
  held : Option (DriveId × Pending)
  dmaVec : List (Word16 × Word)
  busMaster : Fin 2 → BusMaster
  irqs : Fin 2 → ℕ
  debugger : Bool
  halted : Bool
  commands : List (DriveId × Word16)

namespace IdeT
variable (cfg : IdeConfig) (s : IdeT) (id : DriveId)

def fillDescriptor (offset : Word) (size count : ℕ) (write : Bool) :
    IdeT :=
  if (s.ring s.startFree).serverOwned then { s with halted := true }
  else
    { s with
      ring := update s.ring s.startFree
        { handle := cfg.handle
          size := size
          offset := offset
          count := count
          clientData := id
          doWrite := write
          serverOwned := true
          serverErr := false }
      startFree := (s.startFree + 1) % cfg.cnt }

def transferBlock (r : BlockRequest) : IdeT :=
  s.fillDescriptor cfg id r.offset r.size (s.ring s.startFree).count r.doWrite

def prdtEntries (prdt : ℕ → PrdtEntry) : ℕ → ℕ → List PrdtEntry
  | _, 0 => []
  | n, fuel + 1 => prdt n :: if (prdt n).eot then [] else prdtEntries prdt (n + 1) fuel

def prdtEnd (prdt : ℕ → PrdtEntry) : ℕ → ℕ → ℕ
  | n, 0 => n
  | n, fuel + 1 => if (prdt n).eot then n else prdtEnd prdt (n + 1) fuel

def transferDma (block : Word) (prdt : ℕ → PrdtEntry) (write : Bool) :
    IdeT :=
  { s.fillDescriptor cfg id block 0 (prdtEnd prdt 0 512 + 1) write with
    dmaVec := (prdtEntries prdt 0 512).map fun e => (e.size, e.baseAddr) }

def perform (o : Outcome) : IdeT :=
  let s := o.requests.foldl (fun s r => s.transferBlock cfg id r) s
  { s with
    dev := update s.dev id o.drive
    irqs := update s.irqs id.1 (s.irqs id.1 + o.irqs)
    debugger := s.debugger || o.debugger
    held :=
      match o.held with
      | some p => some (id, p)
      | none => s.held
    busMaster :=
      if o.register then
        update s.busMaster id.1 { s.busMaster id.1 with dev := some id }
      else s.busMaster }

def command (s : IdeT) (id : DriveId) (cmd : Word16) : IdeT :=
  if (cfg.info id).present then
    { s.perform cfg id ((s.dev id).command cfg.i82371ab (cfg.info id) cmd) with
      commands := s.commands ++ [(id, cmd)] }
  else { s with halted := true }

def broadcast (c : Fin 2) (f : IdeDrive → IdeDrive) : IdeT :=
  { s with dev := fun id => if id.1 = c then f (s.dev id) else s.dev id }

def setDrive (d : IdeDrive) : IdeT :=
  { s with dev := update s.dev id d }

def resetDrive : IdeDrive :=
  { d with dev := { d.dev with regStatus := d.dev.regStatus &&& ~~~ 0xD } }.setSignature i

def softwareReset (c : Fin 2) : IdeT :=
  let d0 := s.dev (c, 0)
  let s :=
    if (cfg.info (c, 0)).present then
      let d0 : IdeDrive :=
        if (cfg.info (c, 1)).present then
          { d0 with dev := { d0.dev with regDevice := erase d0.dev.regDevice 4 } }
        else { d0 with dev := { d0.dev with regError := erase d0.dev.regError 7 } }
      s.setDrive (c, 0) (resetDrive (cfg.info (c, 0)) d0)
    else s
  let d1 := s.dev (c, 1)
  if (cfg.info (c, 1)).present then
    s.setDrive (c, 1) (resetDrive (cfg.info (c, 1))
      { d1 with dev := { d1.dev with regDevice := erase d1.dev.regDevice 4 } })
  else s

def setBusy (b : Bool) (d : IdeDrive) : IdeDrive :=
  { d with dev := { d.dev with
    regStatus := if b then insert d.dev.regStatus 7 else erase d.dev.regStatus 7 } }

def writeDevControl (c : Fin 2) (value : Word16) : IdeT :=
  let srst := (s.dev (c, 0)).dev.regDevControl.getLsbD 2
  let s :=
    if srst = false ∧ value.getLsbD 2 = true then s.broadcast c (setBusy true)
    else if srst = true ∧ value.getLsbD 2 = false then
      (s.broadcast c (setBusy false)).softwareReset cfg c
    else s
  s.broadcast c fun d => { d with dev := { d.dev with regDevControl := value.setWidth 8 } }

inductive Reg
  | data
  | feature
  | nsector
  | lbaLow
  | lbaMid
  | lbaHigh
  | device
  | command
  | devControl
  | unknown
  deriving DecidableEq, Repr

def writeRegister (c : Fin 2) (reg : Reg) (value : Word16) : IdeT :=
  match reg with
  | .data =>
    s.perform cfg (c, s.current c) ((s.dev (c, s.current c)).pio fun m => m.ioDataWrite value)
  | .feature => s.broadcast c fun d => { d with regFeature := value.setWidth 8 }
  | .nsector =>
    s.broadcast c fun d => { d with dev := { d.dev with regNsector := value.setWidth 8 } }
  | .lbaLow =>
    s.broadcast c fun d => { d with dev := { d.dev with regLbaLow := value.setWidth 8 } }
  | .lbaMid =>
    s.broadcast c fun d => { d with dev := { d.dev with regLbaMid := value.setWidth 8 } }
  | .lbaHigh =>
    s.broadcast c fun d => { d with dev := { d.dev with regLbaHigh := value.setWidth 8 } }
  | .device =>
    { s.broadcast c fun d => { d with dev := { d.dev with regDevice := value.setWidth 8 } } with
      current := update s.current c (if value.getLsbD 4 then slave else master) }
  -- the pointer `dev` is the array, so the command goes to its first element
  | .command => s.command cfg (c, master) value
  | .devControl => s.writeDevControl cfg c value
  | .unknown => s

def readRegister (c : Fin 2) (reg : Reg) : Word16 × IdeT :=
  let id : DriveId := (c, s.current c)
  let d := s.dev id
  if (cfg.info id).present = false then (0, s)
  else
    match reg with
    | .data =>
      ((Ide.ioDataRead ⟨d.dev, [], none, fun _ _ => 0, [], 0, false⟩).1,
        s.perform cfg id (d.pio fun m => m.ioDataRead.2))
    | .feature => (d.dev.regError.setWidth 16, s)
    | .nsector => (d.dev.regNsector.setWidth 16, s)
    | .lbaLow => (d.dev.regLbaLow.setWidth 16, s)
    | .lbaMid => (d.dev.regLbaMid.setWidth 16, s)
    | .lbaHigh => (d.dev.regLbaHigh.setWidth 16, s)
    | .device => (d.dev.regDevice.setWidth 16, s)
    | .command => (d.dev.regStatus.setWidth 16, s)
    | .devControl => (d.dev.regStatus.setWidth 16, s)
    | .unknown => (0, s)

def setBusMaster (c : Fin 2) (b : BusMaster) : IdeT :=
  { s with busMaster := update s.busMaster c b }

def prdtSize (prdt : ℕ → PrdtEntry) : Word :=
  ((prdtEntries prdt 0 512).map fun e => e.size.setWidth 32).sum

def ideStartDma (prdt : ℕ → PrdtEntry) (write : Bool) : IdeT :=
  let d := (s.dev id).dev
  if d.reqSectors * ideSectorSize > (prdtSize prdt).toNat then
    (s.setBusMaster id.1 (s.busMaster id.1).setDmaTransferError).perform cfg id
      (s.dev id).done.raiseIrq
  else
    transferDma cfg { s with debugger := s.debugger || !d.lba } id d.getSector prdt write

inductive BusMasterReg
  | command
  | status
  | dtba
  | unknown
  deriving DecidableEq, Repr

def busMasterWrite (c : Fin 2) (reg : BusMasterReg) (value : Word)
    (prdt : ℕ → PrdtEntry) : IdeT :=
  let b := s.busMaster c
  match reg with
  | .command =>
    let b : BusMaster := { b with bmicx := value.setWidth 8 }
    let s := s.setBusMaster c b
    if value.getLsbD 0 then
      match b.dev with
      | some id => s.ideStartDma cfg id prdt (!b.rwcon)
      | none => { s with halted := true }
    else s
  | .status =>
    let raw : Byte := value.setWidth 8
    let raw := if value.getLsbD 1 then erase raw 1 else raw
    let raw := if value.getLsbD 2 then erase raw 2 else raw
    s.setBusMaster c { b with bmisx := raw }
  | .dtba => s.setBusMaster c { b with dtba := value }
  | .unknown => s

def complete (s : IdeT) (id : DriveId) : IdeT :=
  let d := s.dev id
  if cfg.i82371ab = true ∧ (d.dev.dataTransfer = .dmaIn ∨ d.dev.dataTransfer = .dmaOut) then
    let b := s.busMaster id.1
    (s.setBusMaster id.1 (if b.ssbm then b.setDmaEnd else b.setDmaTransferError)).perform cfg id
      d.setCmdWait.done.raiseIrq
  else s.perform cfg id (d.pio Ide.complete)

def irqLoop : IdeT :=
  let r := s.ring s.startDirty
  if s.startDirty = s.startFree ∨ r.serverOwned = true then s
  else
    let s := if r.serverErr then { s with debugger := true } else s.complete cfg r.clientData
    { s with startDirty := (s.startDirty + 1) % cfg.cnt }

def answer (i : ℕ) (err : Bool) (buffer : ℕ → Word16) : IdeT :=
  let r := s.ring i
  if r.serverOwned then
    let s := { s with
      ring := update s.ring i { r with serverOwned := false, serverErr := err } }
    if r.doWrite = false ∧ r.size ≠ 0 then
      let d := s.dev r.clientData
      s.setDrive r.clientData { d with dev := { d.dev with ioBuffer := buffer } }
    else s
  else s

inductive Op
  | write (c : Fin 2) (reg : Reg) (value : Word16)
  | read (c : Fin 2) (reg : Reg)
  | busMaster (c : Fin 2) (reg : BusMasterReg) (value : Word) (prdt : ℕ → PrdtEntry)
  | answer (i : ℕ) (err : Bool) (buffer : ℕ → Word16)
  | irqLoop
  | resume

def resume (s : IdeT) : IdeT :=
  match s.held with
  | none => s
  | some (id, p) =>
    { s.setDrive id { s.dev id with dev := (s.dev id).dev.resume p } with held := none }

/-- The server and the interrupt thread may act in the middle of an access, the guest may not. -/
def ready : Op → IdeT
  | .answer _ _ _ => s
  | .irqLoop => s
  | _ => s.resume

def exec : Op → IdeT
  | .write c reg value => s.writeRegister cfg c reg value
  | .read c reg => (s.readRegister cfg c reg).2
  | .busMaster c reg value prdt =>
    if cfg.i82371ab then s.busMasterWrite cfg c reg value prdt else s
  | .answer i err buffer => s.answer i err buffer
  | .irqLoop => s.irqLoop cfg
  | .resume => s

def step (op : Op) : IdeT := if s.halted then s else (s.ready op).exec cfg op

structure Initial : Prop where
  current : ∀ c, s.current c = master
  ring : ∀ i, (s.ring i).serverOwned = false
  commands : s.commands = []

def initDrive : IdeDrive :=
  let d := IdeDrive.setSignature { i with cdrom := false }
    { dev :=
        { regStatus := 0, regError := 0, regDevice := 0, regDevControl := 0, regNsector := 0,
          regLbaLow := 0, regLbaMid := 0, regLbaHigh := 0, ioBuffer := fun _ => 0,
          ioBufferIndex := 0, ioBufferSize := 0, dataTransfer := .dataNone, reqSectors := 0 }
      regFeature := 0, regAltStatus := 0, multSectors := 0, udmaMode := 0, dma := false }
  if i.present then { d with dev := { d.dev with regStatus := 0x40 } } else d

def init : IdeT where
  dev := fun id => initDrive (cfg.info id)
  current := fun _ => 0
  ring := fun _ => ⟨0, 0, 0, 0, (0, 0), false, false, false⟩
  startFree := 0
  startDirty := 0
  held := none
  dmaVec := []
  busMaster := fun _ => ⟨0, 0, 0, none⟩
  irqs := fun _ => 0
  debugger := false
  halted := false
  commands := []

theorem init_initial : (init cfg).Initial := ⟨fun _ => rfl, fun _ => rfl, rfl⟩

end IdeT
end Wedge
