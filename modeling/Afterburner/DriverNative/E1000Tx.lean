import Afterburner.Lib.Ring
import Afterburner.Lib.Runs

/-!
# The transmit path of the E1000 driver

All clients share the ring of the card. A client's own ring is linked by addresses; `own` hands a
descriptor over.
-/

namespace DriverNative.E1000
open Function List

abbrev Word := BitVec 32

structure NetClientDesc where
  own : Bool
  ok : Bool
  intr : Bool
  more : Bool
  link : Word
  buffer : Word
  bufferLen : BitVec 16
  udpPkt : Bool
  tcpPkt : Bool
  ipPkt : Bool
  deriving DecidableEq

namespace NetClientDesc

def hasCsum (d : NetClientDesc) : Bool := d.udpPkt || d.tcpPkt || d.ipPkt
def csumStartOffset : Word := 34

def csumStoreOffset (d : NetClientDesc) : Option Word :=
  if d.udpPkt then some 40 else if d.tcpPkt then some 50 else none

end NetClientDesc

structure E1000TxDesc where
  bufferLow : Word
  bufferHigh : Word
  lower : Word
  upper : Word
  deriving DecidableEq

inductive Shadow (ι : Type)
  | anon
  | iface (i : ι)
  deriving DecidableEq

structure Setup (ι : Type) where
  txdCmd : Word
  /-- `client_space.bus_start` and `bus_size` -/
  busStart : ι → Word
  busSize : ι → Word

def slots : ℕ := 512
def statDD : Word := 0x00000001
def cmdDext : Word := 0x20000000
def dtypD : Word := 0x00100000
def poptsTxsm : Word := 0x02
def cmdEop : Word := 0x01000000

structure State (ι : Type) where
  desc : ι → Word → NetClientDesc
  /-- `dp83820_regs[TXDP]` -/
  txdp : ι → Word
  /-- `dp83820.dirty` -/
  dirtyDesc : ι → Option Word
  /-- two bits of `dp83820_regs[ISR]` -/
  isrTxok : ι → Bool
  isrTxdesc : ι → Bool
  txShadow : ℕ → Option (Shadow ι)
  ring : ℕ → E1000TxDesc
  free : ℕ
  dirty : ℕ
  failed : Bool
  /-- the driver is in a `PANIC`, or in a loop without end -/
  stopped : Bool
  marked : ℕ
  log : List (Option (ι × Word))
  cleaned : ℕ
  released : List (ι × Word)

namespace State
variable {ι : Type} [DecidableEq ι] (c : Setup ι) (s : State ι)

def assert (b : Bool) : State ι := { s with failed := s.failed || !b }

def setDesc (i : ι) (a : Word) (d : NetClientDesc) : State ι :=
  { s with desc := update s.desc i (update (s.desc i) a d) }

def available : ℕ := (s.dirty + slots - (s.free + 1)) % slots

def mark : State ι :=
  let k := s.marked % slots
  if k = s.free then s
  else
    { s with
      ring := update s.ring k { s.ring k with upper := (s.ring k).upper ||| statDD }
      marked := s.marked + 1 }

def nic (n : ℕ) : State ι := mark^[n] s

def release (i : ι) (k : ℕ) : State ι :=
  let a := (s.dirtyDesc i).getD 0
  let d := s.desc i a
  let s := s.assert ((s.ring k).bufferLow ≠ 0)
  let s := s.assert (d.buffer < c.busSize i)
  let s := s.assert (c.busStart i + d.buffer = (s.ring k).bufferLow)
  let s := s.assert d.own
  { s.setDesc i a { d with ok := true, own := false } with
    dirtyDesc := update s.dirtyDesc i (some d.link)
    isrTxok := update s.isrTxok i true
    isrTxdesc := update s.isrTxdesc i (s.isrTxdesc i || d.intr)
    released := s.released ++ [(i, a)] }

def clearSlot (k : ℕ) : State ι :=
  { s with
    txShadow := update s.txShadow k none
    ring := update s.ring k { s.ring k with bufferLow := 0, upper := 0 }
    cleaned := s.cleaned + 1 }

def cleanSlot (k : ℕ) : Shadow ι → State ι
  | .anon => s.clearSlot k
  | .iface i => (s.release c i k).clearSlot k

def cleanLoop : ℕ → List ℕ → ℕ → ℕ → State ι → State ι × ℕ
  | 0, _, k, n, s => ({ s with dirty := k }, n)
  | fuel + 1, marks, k, n, s =>
    let s := s.nic (marks.headD 0)
    if (s.ring k).upper &&& statDD = 0 then ({ s with dirty := k }, n)
    else
      match s.txShadow k with
      | none => ({ s with dirty := k }, n)
      | some x => cleanLoop fuel marks.tail ((k + 1) % slots) (n + 1) (s.cleanSlot c k x)

def cleanTxRing (marks : List ℕ) : State ι × ℕ := cleanLoop c slots marks s.dirty 0 s

/-- The end of the loop over the fragments, with the descriptors that it has looked at. -/
inductive Fragments
  | count (read : List Word)
  | aborted (read : List Word)
  | forever

def countFragments (desc : Word → NetClientDesc) (first : Word) :
    ℕ → List Word → Word → Fragments
  | 0, _, _ => .forever
  | fuel + 1, read, a =>
    if (desc a).more then
      if !(desc (desc a).link).own then .aborted (read ++ [a, (desc a).link])
      else if (desc a).link = first then .aborted (read ++ [a, (desc a).link])
      else countFragments desc first fuel (read ++ [a]) (desc a).link
    else .count (read ++ [a])

def injectCsum (d : NetClientDesc) : Option (State ι) :=
  d.csumStoreOffset.map fun (off : Word) =>
    let k := s.free
    let s := s.assert (s.txShadow k).isNone
    { s with
      txShadow := update s.txShadow k (some .anon)
      ring := update s.ring k
        { s.ring k with
          bufferHigh := NetClientDesc.csumStartOffset ||| off <<< 8
          upper := 0
          lower := c.txdCmd ||| cmdDext }
      free := (k + 1) % slots
      log := s.log ++ [none] }

def fillSlot (i : ι) (lower upper : Word) (a : Word) (k : ℕ) : State ι :=
  let d := s.desc i a
  let s := s.assert (s.txShadow k).isNone
  let s := s.assert ((s.ring k).upper = 0)
  let s := s.assert (d.buffer < c.busSize i)
  { s with
    txShadow := update s.txShadow k (some (.iface i))
    ring := update s.ring k
      ⟨c.busStart i + d.buffer, 0, lower ||| d.bufferLen.setWidth 32, upper⟩
    txdp := update s.txdp i d.link
    log := s.log ++ [some (i, a)] }

def endPacket (last : Option ℕ) : State ι :=
  match last with
  | none => s
  | some k =>
    { s with
      ring := update s.ring k { s.ring k with lower := (s.ring k).lower ||| cmdEop } }

/-- For a link 0 `get_next_tx_pkt` returns a null pointer, which is followed. -/
def queueFragments (i : ι) (lower upper : Word) : ℕ → Word → ℕ → Option ℕ → State ι → State ι
  | 0, _, k, last, s => { s with free := k }.endPacket last
  | n + 1, a, k, _, s =>
    if a = 0 then { s with stopped := true }
    else
      let s := s.fillSlot c i lower upper a k
      queueFragments i lower upper n (s.txdp i) ((k + 1) % slots) (some k) s

def sendPacket (i : ι) (fragments : ℕ) : State ι × ℕ :=
  let a := s.txdp i
  let d := s.desc i a
  let s := { s with dirtyDesc := update s.dirtyDesc i (some ((s.dirtyDesc i).getD a)) }
  if d.hasCsum then
    match s.injectCsum c d with
    | none => ({ s with stopped := true }, 0)
    | some s =>
      let lower := c.txdCmd ||| cmdDext ||| dtypD
      (s.queueFragments c i lower (poptsTxsm <<< 8) fragments a s.free none, fragments + 1)
  else (s.queueFragments c i c.txdCmd 0 fragments a s.free none, fragments)

def txPacket (i : ι) (marks : List ℕ) : State ι × ℕ :=
  let a := s.txdp i
  let d := s.desc i a
  if !d.own then (s, 0)
  else
    match countFragments (s.desc i) a (2 ^ 32) [] a with
    | .aborted _ => (s, 0)
    | .forever => ({ s with stopped := true }, 0)
    | .count read =>
      let fragments := read.length % 2 ^ 16
      let descriptorCnt := if d.hasCsum then (fragments + 1) % 2 ^ 16 else fragments
      if s.available < descriptorCnt then
        let r := s.cleanTxRing c marks
        let s' := r.1.assert (r.1.desc i a).own
        if s.available + r.2 < descriptorCnt then (s', 0) else s'.sendPacket c i fragments
      else s.sendPacket c i fragments

end State

inductive Action (ι : Type)
  | txPacket (i : ι) (marks : List ℕ)
  | clean (marks : List ℕ)
  | nic
  | client (i : ι) (a : Word) (d : NetClientDesc)

section Step
variable {ι : Type} [DecidableEq ι] (c : Setup ι) (s : State ι)

def step : Action ι → State ι
  | .txPacket i marks => if s.stopped ∨ s.txdp i = 0 then s else (s.txPacket c i marks).1
  | .clean marks => if s.stopped then s else (s.cleanTxRing c marks).1
  | .nic => s.mark
  | .client i a d => s.setDesc i a d

def init (desc : ι → Word → NetClientDesc) (txdp : ι → Word) : State ι where
  desc := desc
  txdp := txdp
  dirtyDesc _ := none
  isrTxok _ := false
  isrTxdesc _ := false
  txShadow _ := none
  ring _ := ⟨0, 0, 0, 0⟩
  free := 0
  dirty := 0
  failed := false
  stopped := false
  marked := 0
  log := []
  cleaned := 0
  released := []

def State.pending : ℕ := (s.free + slots - s.dirty) % slots

def shadowOf : Option (ι × Word) → Shadow ι
  | none => .anon
  | some x => .iface x.1

/-- No assertion has failed; the slots in use are those from `dirty` to `free`; what was queued has
been released in order, or is in these slots, and is released once the card has sent it. -/
structure Correct : Prop where
  not_failed : s.failed = false
  shadow_iff : ∀ k < slots, (s.txShadow k).isSome ↔ (k + slots - s.dirty) % slots < s.pending
  released : ∃ done out, s.log = done ++ out ∧ s.released = done.filterMap id ∧
    out.length = s.pending ∧
    ∀ j x, out[j]? = some x → s.txShadow ((s.dirty + j) % slots) = some (shadowOf x)
  drains : ((s.nic slots).cleanTxRing c []).1.released = s.log.filterMap id

/-- The `j`-th fragment behind `a`. -/
def fragment (desc : Word → NetClientDesc) (a : Word) (j : ℕ) : Word :=
  (fun a => (desc a).link)^[j] a

theorem map_fragment_succ (desc : Word → NetClientDesc) (a : Word) (l : ℕ) :
    (range (l + 1)).map (fragment desc a) =
      a :: (range l).map (fragment desc (desc a).link) := by
  rw [range_succ_eq_map, map_cons, map_map]
  rfl

/-- If the client has handed over a complete packet: it is not too long, and none of its fragments
is in a slot, at the address 0 or has a buffer out of bounds. -/
def Fresh (i : ι) : Prop :=
  (s.desc i (s.txdp i)).own = true →
    match State.countFragments (s.desc i) (s.txdp i) (2 ^ 32) [] (s.txdp i) with
    | .count read =>
      read.length + 1 < 2 ^ 16 ∧ ∀ a ∈ read,
        a ≠ 0 ∧ some (i, a) ∉ s.log.drop s.cleaned ∧ (s.desc i a).buffer < c.busSize i ∧
          c.busStart i + (s.desc i a).buffer ≠ 0
    | _ => True

/-- `tx_packet` is called for fresh packets, and clients write only what is theirs. -/
def Allowed : Action ι → Prop
  | .txPacket i _ => Fresh c s i
  | .client i a _ => (s.desc i a).own = false
  | _ => True

end Step
end DriverNative.E1000
