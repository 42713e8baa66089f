import Afterburner.Wedge.Intlogic

/-!
# The IDE device: programmed input and output

One `ide_device_t` with the block server behind it.
-/

namespace Wedge
open List BitVec

abbrev Word16 := BitVec 16

inductive IdeTransfer
  | dataNone
  | dataOut
  | dataIn
  | dmaOut
  | dmaIn
  deriving DecidableEq, Repr

structure IdeDevice where
  regStatus : Byte
  regError : Byte
  regDevice : Byte
  regDevControl : Byte
  regNsector : Byte
  regLbaLow : Byte
  regLbaMid : Byte
  regLbaHigh : Byte
  ioBuffer : ℕ → Word16
  ioBufferIndex : ℕ
  ioBufferSize : ℕ
  dataTransfer : IdeTransfer
  reqSectors : ℕ

variable (d : IdeDevice)

def ideSectorSize : ℕ := 512
def ideIobufferBlocks : ℕ := 128

namespace IdeDevice

def bsy : Bool := d.regStatus.getLsbD 7
def lba : Bool := d.regDevice.getLsbD 6
def nien : Bool := d.regDevControl.getLsbD 1

def getSector : Word :=
  d.regLbaLow.setWidth 32 ||| (d.regLbaMid.setWidth 32 <<< 8) |||
    (d.regLbaHigh.setWidth 32 <<< 16) ||| ((d.regDevice &&& 0x0f).setWidth 32 <<< 24)

def setSector (sec : Word) : IdeDevice :=
  { d with
    regLbaLow := sec.setWidth 8
    regLbaMid := (sec >>> 8).setWidth 8
    regLbaHigh := (sec >>> 16).setWidth 8
    regDevice := (d.regDevice &&& 0xf0) ||| (sec >>> 24).setWidth 8 }

def setCmdWait : IdeDevice := { d with regStatus := 0x50, regError := 0 }
def setDataWait : IdeDevice := { d with regStatus := 0x58, regError := 0 }
def setBsy : IdeDevice := { d with regStatus := Bits.insert d.regStatus 7 }
def sectorCount : ℕ := if d.regNsector = 0 then 256 else d.regNsector.toNat

theorem getLsbD_nibble (i : ℕ) : (0x0f : Byte).getLsbD i = decide (i < 4) :=
  Bits.getLsbD_one_shiftLeft_sub_one (show 4 < 8 by decide) i

theorem getLsbD_sectorMask (i : ℕ) : (0x0fffffff : Word).getLsbD i = decide (i < 28) :=
  Bits.getLsbD_one_shiftLeft_sub_one (show 28 < 32 by decide) i

theorem getLsbD_getSector (i : ℕ) :
    d.getSector.getLsbD i =
      if i < 8 then d.regLbaLow.getLsbD i
      else if i < 16 then d.regLbaMid.getLsbD (i - 8)
      else if i < 24 then d.regLbaHigh.getLsbD (i - 16)
      else if i < 28 then d.regDevice.getLsbD (i - 24)
      else false := by
  have hbyte : ∀ (b : Byte) {j : ℕ}, 8 ≤ j → b.getLsbD j = false := fun b j hj =>
    getLsbD_of_ge b j hj
  simp only [getSector, getLsbD_or, getLsbD_shiftLeft, getLsbD_setWidth,
    getLsbD_and, getLsbD_nibble]
  split_ifs with h₁ h₂ h₃ h₄
  · simp [h₁, show i < 32 by omega, show i < 16 by omega, show i < 24 by omega]
  · simp [h₁, h₂, show i < 32 by omega, show i < 24 by omega, hbyte _ (show 8 ≤ i by omega),
      show i - 8 < 32 by omega]
  · simp [h₁, h₂, h₃, show i < 32 by omega, hbyte _ (show 8 ≤ i by omega),
      hbyte _ (show 8 ≤ i - 8 by omega), show i - 16 < 32 by omega]
  · simp [h₁, h₂, h₃, show i < 32 by omega, hbyte _ (show 8 ≤ i by omega),
      hbyte _ (show 8 ≤ i - 8 by omega), hbyte _ (show 8 ≤ i - 16 by omega),
      show i - 24 < 32 by omega, show i - 24 < 4 by omega]
  · simp [h₁, h₂, h₃, hbyte _ (show 8 ≤ i by omega), hbyte _ (show 8 ≤ i - 8 by omega),
      hbyte _ (show 8 ≤ i - 16 by omega), show ¬ i - 24 < 4 by omega]

theorem getSector_setSector (sec : Word) : (d.setSector sec).getSector = sec &&& 0x0fffffff := by
  apply eq_of_getLsbD_eq
  intro i _
  rw [getLsbD_getSector, getLsbD_and, getLsbD_sectorMask]
  simp only [setSector, getLsbD_setWidth, getLsbD_ushiftRight, getLsbD_or,
    getLsbD_and]
  split_ifs with h₁ h₂ h₃ h₄
  · simp [h₁, show i < 28 by omega]
  · simp [show i - 8 < 8 by omega, show 8 + (i - 8) = i by omega, show i < 28 by omega]
  · simp [show i - 16 < 8 by omega, show 16 + (i - 16) = i by omega, show i < 28 by omega]
  · -- the upper half of the device register has no part in the number
    have hupper : ((0xf0 : ℕ) : Byte).getLsbD (i - 24) = false := by
      have hlt : i - 24 < 4 := by omega
      generalize i - 24 = j at hlt
      interval_cases j <;> rfl
    have hlt : i - 24 < 8 := by omega
    have hsum : 24 + (i - 24) = i := by omega
    rw [hupper, Bool.and_false, Bool.false_or, decide_eq_true hlt, Bool.true_and, hsum,
      decide_eq_true h₄, Bool.and_true]
  · simp [h₄]

theorem toNat_and_sector (sec : Word) : (sec &&& 0x0fffffff).toNat = sec.toNat % 2 ^ 28 := by
  exact Nat.and_two_pow_sub_one_eq_mod _ 28

theorem bsy_setDataWait : d.setDataWait.bsy = false := by
  simp [bsy, setDataWait]

theorem bsy_setCmdWait : d.setCmdWait.bsy = false := by
  simp [bsy, setCmdWait]

theorem sectorCount_pos : 0 < d.sectorCount := by
  unfold sectorCount
  split_ifs with h
  · norm_num
  · exact Nat.pos_of_ne_zero fun h0 => h (eq_of_toNat_eq h0)

theorem sectorCount_le : d.sectorCount ≤ 256 := by
  unfold sectorCount
  split_ifs
  · exact le_rfl
  · omega

end IdeDevice

/-- What an access has still to do once its request has been handed to the block server; the
interrupt thread may run before. -/
inductive Pending
  | readSectors (sector : Word) (n : ℕ)
  | nextChunk (n : ℕ)
  deriving DecidableEq, Repr

def IdeDevice.resume : Pending → IdeDevice
  | .readSectors sector n =>
    ({ d with
      dataTransfer := .dataIn
      ioBufferIndex := 0
      ioBufferSize := ideSectorSize * n
      reqSectors := d.reqSectors - n }.setSector (sector + BitVec.ofNat 32 n)).setBsy
  | .nextChunk n =>
    ({ d with
      reqSectors := d.reqSectors - n
      ioBufferIndex := 0
      ioBufferSize := n * ideSectorSize }.setSector (d.getSector + BitVec.ofNat 32 n)).setBsy

structure BlockRequest where
  offset : Word
  size : ℕ
  doWrite : Bool

structure SectorAccess where
  doWrite : Bool
  sector : ℕ
  words : List Word16
  deriving DecidableEq

structure Ide where
  dev : IdeDevice
  queue : List BlockRequest
  /-- the rest of an access that has handed over a request -/
  held : Option Pending
  disk : ℕ → ℕ → Word16
  log : List SectorAccess
  irqs : ℕ
  debugger : Bool

namespace Ide
variable (s : Ide)

def raiseIrq : Ide := if s.dev.nien then s else { s with irqs := s.irqs + 1 }

@[simp] theorem raiseIrq_dev : s.raiseIrq.dev = s.dev := by
  unfold raiseIrq; split_ifs <;> rfl

@[simp] theorem raiseIrq_queue : s.raiseIrq.queue = s.queue := by
  unfold raiseIrq; split_ifs <;> rfl

@[simp] theorem raiseIrq_held : s.raiseIrq.held = s.held := by
  unfold raiseIrq; split_ifs <;> rfl

@[simp] theorem raiseIrq_disk : s.raiseIrq.disk = s.disk := by
  unfold raiseIrq; split_ifs <;> rfl

@[simp] theorem raiseIrq_log : s.raiseIrq.log = s.log := by
  unfold raiseIrq; split_ifs <;> rfl

def transferBlock (block : Word) (size : ℕ) (write : Bool) : Ide :=
  { s with queue := s.queue ++ [⟨block, size, write⟩] }

def requireLba : Ide := if s.dev.lba then s else { s with debugger := true }

theorem requireLba_of_lba {s : Ide} (h : s.dev.lba = true) : s.requireLba = s := by
  simp [requireLba, h]

def resume (s : Ide) : Ide :=
  match s.held with
  | none => s
  | some p => { s with dev := s.dev.resume p, held := none }

theorem resume_of_none {s : Ide} (h : s.held = none) : s.resume = s := by
  rw [resume, h]

theorem resume_of_some {s : Ide} {p : Pending} (h : s.held = some p) :
    s.resume = { s with dev := s.dev.resume p, held := none } := by
  rw [resume, h]

def readSectors (s : Ide) : Ide :=
  let s := s.requireLba
  let sector := if s.dev.lba then s.dev.getSector else 0
  let n := min s.dev.sectorCount ideIobufferBlocks
  { s.transferBlock sector (n * ideSectorSize) false with
    dev := { s.dev with reqSectors := s.dev.sectorCount }
    held := some (.readSectors sector n) }

def writeSectors : Ide :=
  let s := s.requireLba
  let n := min s.dev.sectorCount ideIobufferBlocks
  let d := { s.dev with
    dataTransfer := .dataOut
    ioBufferSize := ideSectorSize * n
    ioBufferIndex := 0
    reqSectors := s.dev.sectorCount - n }
  raiseIrq { s with dev := d.setDataWait }

def nextChunk (s : Ide) (write : Bool) : Ide :=
  let n := min s.dev.reqSectors ideIobufferBlocks
  { s.transferBlock s.dev.getSector (n * ideSectorSize) write with held := some (.nextChunk n) }

def nextDrqBlock : Ide :=
  if s.dev.ioBufferIndex % ideSectorSize = 0 then s.raiseIrq else s

def ioDataRead : Word16 × Ide :=
  if s.dev.dataTransfer ≠ .dataIn then (0xff, s)
  else
    let data := s.dev.ioBuffer (s.dev.ioBufferIndex / 2)
    let s := { s with dev := { s.dev with ioBufferIndex := s.dev.ioBufferIndex + 2 } }
    if s.dev.ioBufferIndex ≥ s.dev.ioBufferSize then
      if s.dev.reqSectors > 0 then (data, s.nextChunk false)
      else (data, { s with dev := { s.dev with dataTransfer := .dataNone }.setCmdWait })
    else (data, s.nextDrqBlock)

def store (value : Word16) : Ide :=
  { s with dev := { s.dev with
    ioBuffer := Function.update s.dev.ioBuffer (s.dev.ioBufferIndex / 2) value
    ioBufferIndex := s.dev.ioBufferIndex + 2 } }

def ioDataWrite (value : Word16) : Ide :=
  if s.dev.dataTransfer ≠ .dataOut then s
  else
    let s := s.store value
    if s.dev.ioBufferIndex ≥ s.dev.ioBufferSize then
      if s.dev.reqSectors > 0 then s.nextChunk true
      else ({ s with dev := s.dev.setBsy }).transferBlock s.dev.getSector s.dev.ioBufferSize true
    else s.nextDrqBlock

def complete : Ide :=
  match s.dev.dataTransfer with
  | .dataIn => raiseIrq { s with dev := s.dev.setDataWait }
  | .dataOut =>
    raiseIrq { s with dev := if s.dev.reqSectors > 0 then s.dev.setDataWait else s.dev.setCmdWait }
  | _ => { s with debugger := true }

def sectorAccesses (doWrite : Bool) (offset count : ℕ) (words : ℕ → Word16) : List SectorAccess :=
  (range count).map fun k =>
    ⟨doWrite, offset + k, (range 256).map fun i => words (256 * k + i)⟩

theorem sectorAccesses_congr {b : Bool} {offset count : ℕ} {f g : ℕ → Word16}
    (h : ∀ i < 256 * count, f i = g i) :
    sectorAccesses b offset count f = sectorAccesses b offset count g := by
  refine map_congr_left fun k hk => ?_
  have hk' := mem_range.1 hk
  have : (range 256).map (fun i => f (256 * k + i)) =
      (range 256).map fun i => g (256 * k + i) := by
    refine map_congr_left fun i hi => h _ ?_
    have := mem_range.1 hi
    omega
  rw [this]

theorem sectorAccesses_add (b : Bool) (offset m n : ℕ) (f : ℕ → Word16) :
    sectorAccesses b offset (m + n) f =
      sectorAccesses b offset m f ++ sectorAccesses b (offset + m) n fun i => f (256 * m + i) := by
  simp only [sectorAccesses, range_add, map_append, map_map]
  congr 1
  refine map_congr_left fun k _ => ?_
  simp only [Function.comp_apply, Nat.add_assoc, Nat.mul_add]

def transfer (r : BlockRequest) : Ide :=
  let offset := r.offset.toNat
  let count := r.size / ideSectorSize
  if r.doWrite then
    { s with
      disk := fun sec i =>
        if offset ≤ sec ∧ sec < offset + count then s.dev.ioBuffer (256 * (sec - offset) + i)
        else s.disk sec i
      log := s.log ++ sectorAccesses true offset count s.dev.ioBuffer }
  else
    let buffer := fun k =>
      if k < 256 * count then s.disk (offset + k / 256) (k % 256) else s.dev.ioBuffer k
    { s with
      dev := { s.dev with ioBuffer := buffer }
      log := s.log ++ sectorAccesses false offset count buffer }

def serve : Ide :=
  match s.queue with
  | [] => s
  | r :: rest => (({ s with queue := rest } : Ide).transfer r).complete

/-- The access comes to its end, and the server answers while the drive is busy. -/
def settle : Ide := if s.resume.dev.bsy then s.resume.serve else s.resume

end Ide
end Wedge
