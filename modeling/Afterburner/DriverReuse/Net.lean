import Afterburner.Lib.Ring
import Afterburner.Lib.Runs

/-!
# The send ring of the network driver reuse layer

A packet takes one head descriptor and one for each fragment; all but its last have the fragment bit
set.
-/

namespace DriverReuse.Net
open Function

structure Frag where
  buffer : ℕ
  size : ℕ
  deriving DecidableEq, Repr

structure Header where
  buffer : ℕ
  bufferLen : ℕ
  pktType : ℕ
  protocol : ℕ
  csumStart : ℕ
  csumOffset : ℕ
  csum : Bool
  deriving DecidableEq, Repr

structure Packet where
  header : Header
  frags : List Frag
  deriving DecidableEq, Repr

def Packet.fragments (x : Packet) : ℕ := 1 + x.frags.length

structure Desc where
  serverOwned : Bool
  fragment : Bool
  dropped : Bool
  header : Header

structure Wrapped where
  header : Header
  frags : List Frag
  startFrag : ℕ
  fragCount : ℕ
  idx : ℕ
  destroyed : Bool

inductive Pc
  | idle
  /-- In the loop of `L4VMnet_clean_send_ring`; a packet waits when `L4VMnet_xmit_frame` called. -/
  | cleaning (next : Option Packet)
  /-- `L4VMnet_xmit_available` has returned true. -/
  | ready (x : Packet)
  | filling (desc fragDesc f : ℕ)
  deriving DecidableEq, Repr

structure Config where
  cnt : ℕ
  cnt_pos : 0 < cnt
  /-- `MAX_SKB_FRAGS`. -/
  maxFrags : ℕ

structure State where
  descRing : ℕ → Desc
  sendShadow : ℕ → Option ℕ
  startFree : ℕ
  startDirty : ℕ
  pc : Pc
  /-- `start_free` of the server. -/
  serverFree : ℕ
  fault : Bool
  pkt : ℕ → Packet
  nrPkts : ℕ
  wrapped : ℕ → Wrapped
  nrWrapped : ℕ
  freed : List ℕ
  tooLarge : List Packet

namespace State
variable (c : Config) (s : State) (x : Packet)

def emptyHeader : Header := ⟨0, 0, 0, 0, 0, 0, false⟩

def init : State where
  descRing _ := ⟨false, false, false, emptyHeader⟩
  sendShadow _ := none
  startFree := 0
  startDirty := 0
  pc := .idle
  serverFree := 0
  fault := false
  pkt _ := ⟨emptyHeader, []⟩
  nrPkts := 0
  wrapped _ := ⟨emptyHeader, [], 0, 0, 0, false⟩
  nrWrapped := 0
  freed := []
  tooLarge := []

def check (b : Bool) : State := { s with fault := s.fault || !b }
def setPc (pc : Pc) : State := { s with pc := pc }

def setDesc (k : ℕ) (d : Desc) : State :=
  { s with descRing := update s.descRing k d }

def ringAvailable : ℕ :=
  (s.startDirty + c.cnt - (s.startFree + 1)) % c.cnt

def noneOwned (c : Config) (s : State) : ℕ → ℕ → Bool
  | _, 0 => true
  | i, fragments + 1 =>
    !(s.descRing i).serverOwned && noneOwned c s ((i + 1) % c.cnt) fragments

def xmitFrame : State :=
  if x.fragments ≥ c.cnt then { s with tooLarge := s.tooLarge ++ [x] }
  else if s.ringAvailable c ≤ x.fragments then
    if s.noneOwned c s.startDirty x.fragments then s.setPc (.cleaning (some x)) else s
  else s.setPc (.ready x)

def cleaned : Option Packet → State
  | none => s.setPc .idle
  | some x => (s.check (s.sendShadow s.startFree).isNone).setPc (.ready x)

def cleanDesc (n : ℕ) : State :=
  let k := s.startDirty
  let desc := s.descRing k
  { s with
    freed := if desc.fragment then s.freed else s.freed ++ [n]
    sendShadow := update s.sendShadow k none
    descRing := update s.descRing k
      { desc with header := { desc.header with buffer := 0, bufferLen := 0 } }
    startDirty := (k + 1) % c.cnt }

def cleanStep (next : Option Packet) : State :=
  if (s.descRing s.startDirty).serverOwned then s.cleaned next
  else match s.sendShadow s.startDirty with
    | none => (s.check (s.startDirty = s.startFree)).cleaned next
    | some n => s.cleanDesc c n

def cleanLoop (c : Config) : ℕ → State → State
  | 0, s => s
  | fuel + 1, s =>
    match s.pc with
    | .cleaning next => cleanLoop c fuel (s.cleanStep c next)
    | _ => s

def cleanSendRing : State := cleanLoop c c.cnt (s.setPc (.cleaning none))

def fillHead : State :=
  let k := s.startFree
  { s.check (!(s.descRing k).serverOwned && (s.sendShadow k).isNone) with
    descRing := update s.descRing k ⟨false, false, false, x.header⟩
    sendShadow := update s.sendShadow k (some s.nrPkts)
    startFree := (k + 1) % c.cnt
    pkt := update s.pkt s.nrPkts x
    nrPkts := s.nrPkts + 1
    pc := .filling k k 0 }

def fragDesc (d : Desc) (frag : Frag) : Desc :=
  ⟨true, false, false,
    { d.header with buffer := frag.buffer, bufferLen := frag.size, csum := false }⟩

def fillFrag (desc prior f : ℕ) (frag : Frag) : State :=
  let s := s.setDesc prior { s.descRing prior with fragment := true }
  let k := s.startFree
  { s.check (!(s.descRing k).serverOwned && (s.sendShadow k).isNone) with
    descRing := update s.descRing k (fragDesc (s.descRing k) frag)
    sendShadow := update s.sendShadow k (some (s.nrPkts - 1))
    startFree := (k + 1) % c.cnt
    pc := .filling desc k (f + 1) }

def handOver (desc : ℕ) : State :=
  (s.setDesc desc { s.descRing desc with serverOwned := true }).setPc .idle

def collect (c : Config) (descRing : ℕ → Desc) : ℕ → ℕ → Desc → List Frag × ℕ
  | 0, k, _ => ([], k)
  | fuel + 1, k, d =>
    if d.fragment && (descRing k).serverOwned then
      let rest := collect c descRing fuel ((k + 1) % c.cnt) (descRing k)
      (⟨(descRing k).header.buffer, (descRing k).header.bufferLen⟩ :: rest.1, rest.2)
    else ([], k)

def skbWrapPacket : State :=
  let k := s.serverFree
  let desc := s.descRing k
  if desc.serverOwned = false ∨ desc.dropped = true then s
  else
    let r := collect c s.descRing c.maxFrags ((k + 1) % c.cnt) desc
    { s.setDesc k { desc with dropped := true } with
      serverFree := r.2
      wrapped := update s.wrapped s.nrWrapped
        ⟨desc.header, r.1, k, r.1.length, (k + 1) % c.cnt, false⟩
      nrWrapped := s.nrWrapped + 1 }

def destructorStep (n : ℕ) : State :=
  let w := s.wrapped n
  let desc := s.descRing w.startFrag
  let s := s.check (decide (w.startFrag < c.cnt) && (desc.serverOwned && desc.dropped))
  if desc.fragment && decide (0 < w.fragCount) then
    let fragDesc := s.descRing w.idx
    { (s.check fragDesc.serverOwned).setDesc w.idx { fragDesc with serverOwned := false } with
      wrapped := update s.wrapped n
        { w with idx := (w.idx + 1) % c.cnt, fragCount := w.fragCount - 1 } }
  else
    { s.setDesc w.startFrag { desc with serverOwned := false } with
      wrapped := update s.wrapped n { w with destroyed := true } }

end State

inductive Step (c : Config) : State → State → Prop
  | xmitFrame {s : State} (x : Packet) (hfrags : x.frags.length ≤ c.maxFrags) (hpc : s.pc = .idle) :
      Step c s (s.xmitFrame c x)
  | cleanSendRing {s : State} (hpc : s.pc = .idle) : Step c s (s.setPc (.cleaning none))
  | clean {s : State} {next : Option Packet} (hpc : s.pc = .cleaning next) :
      Step c s (s.cleanStep c next)
  | fillHead {s : State} {x : Packet} (hpc : s.pc = .ready x) : Step c s (s.fillHead c x)
  | fillFrag {s : State} {desc prior f : ℕ} {frag : Frag} (hpc : s.pc = .filling desc prior f)
      (hfrag : (s.pkt (s.nrPkts - 1)).frags[f]? = some frag) :
      Step c s (s.fillFrag c desc prior f frag)
  | handOver {s : State} {desc prior f : ℕ} (hpc : s.pc = .filling desc prior f)
      (hend : (s.pkt (s.nrPkts - 1)).frags.length = f) : Step c s (s.handOver desc)
  | wrap {s : State} : Step c s (s.skbWrapPacket c)
  | destructor {s : State} {n : ℕ} (hn : n < s.nrWrapped)
      (halive : (s.wrapped n).destroyed = false) :
      Step c s (s.destructorStep c n)

end DriverReuse.Net
