import Afterburner.Wedge.Ide
import Afterburner.Lib.Runs

/-!
# READ SECTORS by programmed input

The guest reads words while BSY is clear; the block server answers at any time, in chunks of at most
128 sectors. An answer that comes before the access which asked for it has set BSY is lost.
-/

namespace Wedge

open List
namespace Ide

inductive PioEvent
  | read
  | serve
  | resume
  deriving DecidableEq, Repr

structure PioReader where
  ide : Ide
  words : List Word16

variable (s₀ s : Ide) (x : PioReader)

def PioReader.step : PioEvent → PioReader
  -- the guest goes on when its last access has come to its end
  | .read =>
    if x.ide.resume.dev.bsy then ⟨x.ide.resume, x.words⟩
    else ⟨x.ide.resume.ioDataRead.2, x.words ++ [x.ide.resume.ioDataRead.1]⟩
  | .serve => ⟨x.ide.serve, x.words⟩
  | .resume => ⟨x.ide.resume, x.words⟩

/-- The server does not answer a request in the middle of the access that has handed it over. -/
def PioReader.Timely (e : PioEvent) : Prop := e = .serve → x.ide.held = none

def pioRead (events : List PioEvent) : PioReader :=
  Runs.run PioReader.step ⟨s.readSectors, []⟩ events

def sectorWords (i : ℕ) : Word16 := s.disk (s.dev.getSector.toNat + i / 256) (i % 256)

def expected (i : ℕ) : Word16 :=
  if i < 256 * s.dev.sectorCount then s.sectorWords i else 0xff

def ReadLog (n : ℕ) : Prop :=
  s.log = s₀.log ++ sectorAccesses false s₀.dev.getSector.toNat n s₀.sectorWords

structure Chunk (b n : ℕ) : Prop where
  pos : 0 < n
  le : b + n ≤ s₀.dev.sectorCount
  dataIn : s.dev.dataTransfer = .dataIn
  size : s.dev.ioBufferSize = 512 * n
  left : s.dev.reqSectors = s₀.dev.sectorCount - (b + n)
  sector : s.dev.getSector.toNat = (s₀.dev.getSector.toNat + (b + n)) % 2 ^ 28
  disk : s.disk = s₀.disk

structure Waiting (b n : ℕ) : Prop extends Chunk s₀ s b n where
  held : s.held = none
  bsy : s.dev.bsy = true
  index : s.dev.ioBufferIndex = 0
  queue : ∃ offset : Word, s.queue = [⟨offset, n * ideSectorSize, false⟩] ∧
    offset.toNat = s₀.dev.getSector.toNat + b
  log : ReadLog s₀ s b

structure Ready (b n m : ℕ) : Prop extends Chunk s₀ s b n where
  held : s.held = none
  bsy : s.dev.bsy = false
  lt : m < 256 * n
  index : s.dev.ioBufferIndex = 2 * m
  queue : s.queue = []
  buffer : ∀ i < 256 * n, s.dev.ioBuffer i = s₀.sectorWords (256 * b + i)
  log : ReadLog s₀ s (b + n)

structure Done : Prop where
  held : s.held = none
  dataNone : s.dev.dataTransfer = .dataNone
  bsy : s.dev.bsy = false
  queue : s.queue = []
  log : ReadLog s₀ s s₀.dev.sectorCount

inductive At (s₀ s : Ide) (k : ℕ) : Prop
  | waiting (b n : ℕ) (h : Waiting s₀ s.resume b n) (hk : k = 256 * b)
  | ready (b n m : ℕ) (h : Ready s₀ s b n m) (hk : k = 256 * b + m)
  | done (h : Done s₀ s) (hk : 256 * s₀.dev.sectorCount ≤ k)

variable {s₀ s} {b n m k : ℕ}

theorem toNat_getSector_setSector (d : IdeDevice) (sec : Word) :
    (d.setSector sec).getSector.toNat = sec.toNat % 2 ^ 28 := by
  rw [IdeDevice.getSector_setSector, IdeDevice.toNat_and_sector]

theorem bsy_setBsy (d : IdeDevice) : d.setBsy.bsy = true := by
  simp [IdeDevice.bsy, IdeDevice.setBsy]

theorem toNat_add_ofNat (x : Word) (n : ℕ) :
    (x + BitVec.ofNat 32 n).toNat % 2 ^ 28 = (x.toNat + n) % 2 ^ 28 := by simp

theorem waiting_readSectors (s₀ : Ide) (hq : s₀.queue = []) (hlba : s₀.dev.lba = true) :
    Waiting s₀ s₀.readSectors.resume 0 (min s₀.dev.sectorCount 128) := by
  have hpos := s₀.dev.sectorCount_pos
  have heq : s₀.readSectors.resume =
      { s₀.transferBlock s₀.dev.getSector (min s₀.dev.sectorCount 128 * ideSectorSize) false with
        dev := IdeDevice.resume { s₀.dev with reqSectors := s₀.dev.sectorCount }
          (.readSectors s₀.dev.getSector (min s₀.dev.sectorCount 128))
        held := none } := by
    rw [resume_of_some (p := .readSectors s₀.dev.getSector (min s₀.dev.sectorCount 128))] <;>
      simp [readSectors, requireLba_of_lba hlba, hlba, ideIobufferBlocks]
  rw [heq]
  refine ⟨⟨by omega, by omega, rfl, rfl, ?_, ?_, rfl⟩, rfl, bsy_setBsy _, rfl,
    ⟨s₀.dev.getSector, ?_, rfl⟩, ?_⟩
  · rw [Nat.zero_add]
    rfl
  · rw [Nat.zero_add, ← toNat_add_ofNat]
    exact toNat_getSector_setSector _ _
  · simp [transferBlock, hq]
  · simp [ReadLog, sectorAccesses, transferBlock]

theorem Waiting.serve (h : Waiting s₀ s b n) : Ready s₀ s.serve b n 0 := by
  obtain ⟨offset, hq, hoffset⟩ := h.queue
  have hcount : n * ideSectorSize / ideSectorSize = n := Nat.mul_div_cancel _ (by decide)
  generalize hbuf : (fun k => if k < 256 * n then s.disk (offset.toNat + k / 256) (k % 256)
    else s.dev.ioBuffer k) = buffer
  have hserve : s.serve = raiseIrq { s with
      queue := []
      dev := { s.dev with ioBuffer := buffer }.setDataWait
      log := s.log ++ sectorAccesses false offset.toNat n buffer } := by
    simp only [Ide.serve, hq, transfer, hcount, hbuf, complete, h.dataIn, Bool.false_eq_true,
      if_false]
  have hwords : ∀ i < 256 * n, buffer i = s₀.sectorWords (256 * b + i) := by
    intro i hi
    have hdiv : (256 * b + i) / 256 = b + i / 256 := by omega
    have hmod : (256 * b + i) % 256 = i % 256 := by omega
    rw [← hbuf, sectorWords, hdiv, hmod, ← Nat.add_assoc, ← hoffset, ← h.disk]
    exact if_pos hi
  have hlog : ReadLog s₀ s.serve (b + n) := by
    rw [ReadLog, hserve, raiseIrq_log, sectorAccesses_add, ← append_assoc, ← hoffset,
      sectorAccesses_congr hwords]
    exact congrArg (· ++ _) h.log
  have hpos := h.pos
  exact ⟨⟨h.pos, h.le, by rw [hserve, raiseIrq_dev]; exact h.dataIn,
    by rw [hserve, raiseIrq_dev]; exact h.size, by rw [hserve, raiseIrq_dev]; exact h.left,
    by rw [hserve, raiseIrq_dev]; exact h.sector, by rw [hserve, raiseIrq_disk]; exact h.disk⟩,
    by rw [hserve, raiseIrq_held]; exact h.held,
    by rw [hserve, raiseIrq_dev]; exact IdeDevice.bsy_setDataWait _, by omega,
    by rw [hserve, raiseIrq_dev]; exact h.index, by rw [hserve, raiseIrq_queue],
    by rw [hserve, raiseIrq_dev]; exact hwords, hlog⟩

def advance (s : Ide) : Ide :=
  { s with dev := { s.dev with ioBufferIndex := s.dev.ioBufferIndex + 2 } }

section
variable (h : Ready s₀ s b n m)
include h

theorem Ready.ioDataRead_fst : s.ioDataRead.1 = s₀.sectorWords (256 * b + m) := by
  have hword : s.dev.ioBuffer (s.dev.ioBufferIndex / 2) = s₀.sectorWords (256 * b + m) := by
    rw [h.index, Nat.mul_div_cancel_left _ (by decide), h.buffer m h.lt]
  rw [ioDataRead, if_neg (by simp [h.dataIn])]
  dsimp only
  split_ifs <;> exact hword

theorem Ready.ioDataRead_snd :
    s.ioDataRead.2 =
      if m + 1 < 256 * n then s.advance.nextDrqBlock
      else if b + n < s₀.dev.sectorCount then s.advance.nextChunk false
      else { s with dev := { s.advance.dev with dataTransfer := .dataNone }.setCmdWait } := by
  rw [ioDataRead, if_neg (by simp [h.dataIn])]
  dsimp only
  by_cases hm : m + 1 < 256 * n
  · rw [if_pos hm, if_neg (by rw [h.index, h.size]; omega)]
    rfl
  · rw [if_neg hm, if_pos (by rw [h.index, h.size]; omega)]
    by_cases hb : b + n < s₀.dev.sectorCount
    · rw [if_pos hb, if_pos (by rw [h.left]; omega)]
      rfl
    · rw [if_neg hb, if_neg (by rw [h.left]; omega)]
      rfl

theorem Ready.read_next (hm : m + 1 < 256 * n) : Ready s₀ s.advance.nextDrqBlock b n (m + 1) := by
  have hadv : Ready s₀ s.advance b n (m + 1) :=
    { h with
      lt := hm
      index := by simp only [advance, h.index]; ring }
  rw [nextDrqBlock]
  split_ifs
  · exact ⟨⟨hadv.pos, hadv.le, by simpa using hadv.dataIn, by simpa using hadv.size,
      by simpa using hadv.left, by simpa using hadv.sector, by simpa using hadv.disk⟩,
      by simpa using hadv.held, by simpa using hadv.bsy, hm, by simpa using hadv.index,
      by simpa using hadv.queue, by simpa using hadv.buffer, by simpa [ReadLog] using hadv.log⟩
  · exact hadv

theorem Ready.read_chunk (hfit : s₀.dev.getSector.toNat + s₀.dev.sectorCount ≤ 2 ^ 28)
    (hb : b + n < s₀.dev.sectorCount) :
    Waiting s₀ (s.advance.nextChunk false).resume (b + n)
      (min (s₀.dev.sectorCount - (b + n)) 128) := by
  have hleft : s.advance.dev.reqSectors = s₀.dev.sectorCount - (b + n) := h.left
  have hoffset : s.advance.dev.getSector.toNat = s₀.dev.getSector.toNat + (b + n) :=
    h.sector.trans (Nat.mod_eq_of_lt (by omega))
  have hrest : s.advance.dev.reqSectors - min (s₀.dev.sectorCount - (b + n)) 128 =
      s₀.dev.sectorCount - (b + n + min (s₀.dev.sectorCount - (b + n)) 128) := by
    rw [hleft, Nat.sub_sub]
  rw [resume_of_some rfl, nextChunk, hleft]
  refine ⟨⟨by omega, by omega, h.dataIn, Nat.mul_comm _ _, hrest, ?_, h.disk⟩, rfl, bsy_setBsy _,
    rfl, ⟨s.advance.dev.getSector, ?_, hoffset⟩, h.log⟩
  · rw [← Nat.add_assoc, ← hoffset, ← toNat_add_ofNat]
    exact toNat_getSector_setSector _ _
  · simp [transferBlock, advance, h.queue, ideIobufferBlocks]

end

theorem Done.ioDataRead_eq (h : Done s₀ s) : s.ioDataRead = (0xff, s) := by
  rw [ioDataRead, if_pos]
  rw [h.dataNone]
  decide

theorem At.serve (h : At s₀ s k) (hheld : s.held = none) : At s₀ s.serve k := by
  cases h with
  | waiting b n h hk => exact .ready b n 0 (resume_of_none hheld ▸ h).serve hk
  | ready b n m h hk =>
    rw [Ide.serve, h.queue]
    exact .ready b n m h hk
  | done h hk =>
    rw [Ide.serve, h.queue]
    exact .done h hk

theorem At.resume (h : At s₀ s k) : At s₀ s.resume k ∧ s.resume.held = none := by
  cases h with
  | waiting b n h hk => exact ⟨.waiting b n (by rwa [resume_of_none h.held]) hk, h.held⟩
  | ready b n m h hk =>
    rw [resume_of_none h.held]
    exact ⟨.ready b n m h hk, h.held⟩
  | done h hk =>
    rw [resume_of_none h.held]
    exact ⟨.done h hk, h.held⟩

theorem At.read (h : At s₀ s k) (hfit : s₀.dev.getSector.toNat + s₀.dev.sectorCount ≤ 2 ^ 28)
    (hheld : s.held = none) (hbsy : s.dev.bsy = false) :
    s.ioDataRead.1 = s₀.expected k ∧ At s₀ s.ioDataRead.2 (k + 1) := by
  cases h with
  | waiting b n h hk =>
    rw [resume_of_none hheld] at h
    exact absurd h.bsy (by simp [hbsy])
  | ready b n m h hk =>
    have hle := h.le
    have hlt := h.lt
    have hk' : k < 256 * s₀.dev.sectorCount := by omega
    refine ⟨by rw [h.ioDataRead_fst, expected, if_pos hk', hk], ?_⟩
    rw [h.ioDataRead_snd]
    split_ifs with hm hb
    · exact .ready b n (m + 1) (h.read_next hm) (by omega)
    · exact .waiting _ _ (h.read_chunk hfit hb) (by omega)
    · have hbn : b + n = s₀.dev.sectorCount := by omega
      exact .done ⟨h.held, rfl, IdeDevice.bsy_setCmdWait _, h.queue, hbn ▸ h.log⟩ (by omega)
  | done h hk =>
    rw [h.ioDataRead_eq]
    exact ⟨(if_neg (by omega)).symm, .done h (by omega)⟩

structure PioReader.Inv (s₀ : Ide) (x : PioReader) : Prop where
  at_ : At s₀ x.ide x.words.length
  words : x.words = (range x.words.length).map s₀.expected

theorem PioReader.Inv.step {x : PioReader} {e : PioEvent} (h : x.Inv s₀)
    (hfit : s₀.dev.getSector.toNat + s₀.dev.sectorCount ≤ 2 ^ 28) (he : x.Timely e) :
    (x.step e).Inv s₀ := by
  obtain ⟨hresume, hheld⟩ := h.at_.resume
  cases e with
  | read =>
    rw [PioReader.step]
    split_ifs with hbsy
    · exact ⟨hresume, h.words⟩
    · obtain ⟨hword, hat⟩ := hresume.read hfit hheld (by simpa using hbsy)
      refine ⟨by simpa using hat, ?_⟩
      rw [length_append, length_singleton, range_succ, map_append, ← h.words,
        hword]
      rfl
  | serve => exact ⟨h.at_.serve (he rfl), h.words⟩
  | resume => exact ⟨hresume, h.words⟩

/-- The reader after a round in which the access ends, the server answers and the guest reads. -/
def PioReader.round : PioReader := ((x.step .resume).step .serve).step .read

theorem PioReader.Inv.progress {x : PioReader} (h : x.Inv s₀)
    (hlt : x.words.length < 256 * s₀.dev.sectorCount) :
    x.round.words.length = x.words.length + 1 := by
  obtain ⟨hresume, hheld⟩ := h.at_.resume
  have hready : x.ide.resume.serve.held = none ∧ x.ide.resume.serve.dev.bsy = false := by
    cases h.at_ with
    | waiting b n hw hk => exact ⟨hw.serve.held, hw.serve.bsy⟩
    | ready b n m hr hk =>
      rw [resume_of_none hr.held, Ide.serve, hr.queue]
      exact ⟨hr.held, hr.bsy⟩
    | done hd hk => omega
  simp [round, PioReader.step, resume_of_none hready.1, hready.2]

/-- The words are those of the sectors, in order; as long as some are missing the next one comes
when the server answers; and after the last one each sector has been read once. -/
structure ReadExact (s : Ide) (x : PioReader) : Prop where
  words : x.words = (range x.words.length).map s.expected
  progress : x.words.length < 256 * s.dev.sectorCount →
    x.round.words.length = x.words.length + 1
  done : 256 * s.dev.sectorCount ≤ x.words.length →
    x.ide.log = s.log ++
        sectorAccesses false s.dev.getSector.toNat s.dev.sectorCount s.sectorWords ∧
      x.ide.queue = [] ∧ x.ide.dev.bsy = false ∧ x.ide.dev.dataTransfer = .dataNone ∧
      x.ide.ioDataRead = (0xff, x.ide)

theorem PioReader.Inv.readExact {x : PioReader} (h : x.Inv s₀) : s₀.ReadExact x := by
  refine ⟨h.words, h.progress, fun hlen => ?_⟩
  cases h.at_ with
  | waiting b n hw hk =>
    have := hw.le
    have := hw.pos
    omega
  | ready b n m hr hk =>
    have := hr.le
    have := hr.lt
    omega
  | done hd hk => exact ⟨hd.log, hd.queue, hd.bsy, hd.dataNone, hd.ioDataRead_eq⟩

/-- An answer in the middle of the access is lost: the drive stays busy with nothing asked for. -/
theorem PioReader.Inv.not_readExact {x : PioReader} {p : Pending} (h : x.Inv s₀)
    (hheld : x.ide.held = some p) : ¬ s₀.ReadExact (x.step .serve) := by
  cases h.at_ with
  | ready b n m hr hk => exact absurd (hr.held.symm.trans hheld) (by simp)
  | done hd hk => exact absurd (hd.held.symm.trans hheld) (by simp)
  | waiting b n hw hk =>
    obtain ⟨offset, hq, -⟩ := hw.queue
    have hserve : x.ide.serve.queue = [] ∧ x.ide.serve.held = some p := by
      rw [resume_of_some hheld] at hq
      simp only at hq
      rw [Ide.serve, hq]
      simp only [complete, transfer]
      split <;> split_ifs <;> simp [hheld]
    have hstuck : x.ide.serve.resume.serve = x.ide.serve.resume ∧
        x.ide.serve.resume.resume = x.ide.serve.resume ∧
        x.ide.serve.resume.dev.bsy = true := by
      rw [resume_of_some hserve.2]
      refine ⟨?_, resume_of_none rfl, ?_⟩
      · rw [Ide.serve]
        simp only [hserve.1]
      · cases p <;> exact bsy_setBsy _
    intro hexact
    have hle := hw.le
    have hpos := hw.pos
    have hmore := hexact.progress (by simp only [PioReader.step]; omega)
    simp [round, PioReader.step, hstuck] at hmore

/-- **READ SECTORS gives the guest the sectors it asked for** exactly when the server answers no
request before the access that has handed it over has come to its end. -/
theorem readExact_iff_timely (s : Ide) (hq : s.queue = []) (hlba : s.dev.lba = true)
    (hfit : s.dev.getSector.toNat + s.dev.sectorCount ≤ 2 ^ 28) (events : List PioEvent) :
    (∀ pre, pre <+: events → s.ReadExact (s.pioRead pre)) ↔
      Runs.Guarded PioReader.step PioReader.Timely ⟨s.readSectors, []⟩ events := by
  have hstart : PioReader.Inv s ⟨s.readSectors, []⟩ :=
    ⟨.waiting _ _ (waiting_readSectors s hq hlba) rfl, rfl⟩
  refine Runs.forall_prefix_iff.trans ((and_iff_right hstart.readExact).trans ?_)
  refine (Runs.guarded_congr (A := fun _ => True) (I := PioReader.Inv s)
    (fun x e _ h he => h.step hfit he) (fun x e _ h => ?_) hstart fun _ _ => trivial).symm
  refine ⟨fun he => (h.step hfit he).readExact, fun hexact he => ?_⟩
  subst he
  cases hheld : x.ide.held with
  | none => rfl
  | some p => exact absurd hexact (h.not_readExact hheld)

def lastSectors : Ide where
  dev :=
    { regStatus := 0x40, regError := 0, regDevice := 0xef, regDevControl := 0, regNsector := 200
      regLbaLow := 0x38, regLbaMid := 0xff, regLbaHigh := 0xff, ioBuffer := fun _ => 0
      ioBufferIndex := 0, ioBufferSize := 0, dataTransfer := .dataNone, reqSectors := 0 }
  queue := []
  held := none
  disk := fun sec i => BitVec.ofNat 16 (sec + i)
  log := []
  irqs := 0
  debugger := false

theorem readExact_lastSectors :
    lastSectors.ReadExact (lastSectors.pioRead [.resume, .read, .serve, .read, .read]) :=
  (readExact_iff_timely lastSectors rfl rfl (by decide) [.resume, .read, .serve, .read, .read]).2
    ⟨nofun, nofun, fun _ => rfl, nofun, nofun, trivial⟩ _ List.prefix_rfl

theorem not_readExact_lastSectors :
    ¬ lastSectors.ReadExact (lastSectors.pioRead [.serve, .resume]) := fun h =>
  absurd (h.progress (by decide)) (by decide)

end Ide
end Wedge
