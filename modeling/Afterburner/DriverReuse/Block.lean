import Afterburner.Lib.Ring
import Afterburner.Lib.Runs

/-!
# The block ring of the driver reuse layer

A client and a block server share a ring of descriptors. Each side keeps its own pair of cursors.
-/

namespace DriverReuse.Block
open Function

structure Desc where
  serverOwned : Bool
  doWrite : Bool
  speculative : Bool
  serverErr : Bool
  handle : ℕ
  page : ℕ
  offset : ℕ
  size : ℕ
  count : ℕ
  clientData : ℕ
  tag : ℕ

structure Shadow where
  req : Option ℕ
  bio : Option ℕ

structure Cursors where
  startFree : ℕ
  startDirty : ℕ

inductive Rw
  | read
  | write
  | readAhead
  deriving DecidableEq, Repr

structure Bio where
  biPrivate : Option ℕ
  biSector : ℕ
  biIoVec : List (ℕ × ℕ)
  rw : Rw
  tag : ℕ
  failed : Bool

structure Sub where
  req : ℕ
  bio : ℕ
  handle : ℕ
  page : ℕ
  offset : ℕ
  size : ℕ
  rw : Rw

structure Reaped where
  req : Option ℕ
  bio : Option ℕ
  size : ℕ
  err : Bool
  tag : ℕ

structure Config where
  cnt : ℕ
  cnt_pos : 0 < cnt
  live : ℕ → Bool
  busToPhys : ℕ → ℕ

structure State where
  descRing : ℕ → Desc
  dmaVec : ℕ → ℕ × ℕ
  shadowRing : ℕ → Shadow
  client : Cursors
  server : Cursors
  bioRing : ℕ → Option ℕ
  bios : ℕ → Bio
  nrBios : ℕ
  inFlight : ℕ → Bool
  picked : Option ℕ
  hardNrSectors : ℕ → ℕ
  errors : ℕ → ℕ
  ended : List ℕ
  fault : Bool
  subs : List Sub
  done : List Bio
  reaped : List Reaped

namespace State
variable (c : Config) (s : State)

def init (dmaVec : ℕ → ℕ × ℕ) (sectors : ℕ → ℕ) : State where
  descRing i := ⟨false, false, false, false, 0, 0, 0, 0, 0, i, 0⟩
  dmaVec := dmaVec
  shadowRing _ := ⟨none, none⟩
  client := ⟨0, 0⟩
  server := ⟨0, 0⟩
  bioRing _ := none
  bios _ := ⟨none, 0, [], .read, 0, false⟩
  nrBios := 0
  inFlight _ := false
  picked := none
  hardNrSectors := sectors
  errors _ := 0
  ended := []
  fault := false
  subs := []
  done := []
  reaped := []

def check (b : Bool) : State := { s with fault := s.fault || !b }

def ringAvailable (r : Cursors) : ℕ :=
  (r.startDirty + c.cnt - (r.startFree + 1)) % c.cnt

def processRequest (x : Sub) : State :=
  let k := s.client.startFree
  let rdesc := s.descRing k
  { s.check (!rdesc.serverOwned) with
    shadowRing := update s.shadowRing rdesc.clientData ⟨some x.req, some x.bio⟩
    descRing := update s.descRing k
      { rdesc with
        handle := x.handle
        size := x.size
        offset := x.offset
        page := x.page
        serverErr := false
        doWrite := x.rw = .write
        speculative := x.rw = .readAhead
        serverOwned := true
        tag := s.subs.length }
    client := { s.client with startFree := (k + 1) % c.cnt }
    subs := s.subs ++ [x] }

def canReap : Bool :=
  s.client.startDirty ≠ s.client.startFree ∧ (s.descRing s.client.startDirty).serverOwned = false

def reap : State :=
  let k := s.client.startDirty
  let rdesc := s.descRing k
  let shadow := s.shadowRing rdesc.clientData
  let req := shadow.req.getD 0
  let nsect := rdesc.size / 512
  let last := s.hardNrSectors req ≤ nsect
  { s with
    errors := if rdesc.serverErr then update s.errors req (s.errors req + 1) else s.errors
    hardNrSectors := update s.hardNrSectors req
      (if last then 0 else s.hardNrSectors req - nsect)
    ended := if last then s.ended ++ [req] else s.ended
    shadowRing := update s.shadowRing rdesc.clientData ⟨none, none⟩
    client := { s.client with startDirty := (k + 1) % c.cnt }
    reaped := s.reaped ++ [⟨shadow.req, shadow.bio, rdesc.size, rdesc.serverErr, rdesc.tag⟩] }

def finishTransfers (c : Config) : ℕ → State → State
  | 0, s => s
  | fuel + 1, s => if s.canReap then finishTransfers c fuel (s.reap c) else s

def processIoQueue : State :=
  let k := s.server.startFree
  if (s.descRing k).serverOwned = false ∨ (s.bioRing k).isSome then s
  else
    { s with server := { s.server with startFree := (k + 1) % c.cnt }, picked := some k }

def ioVec (desc : Desc) : List (ℕ × ℕ) :=
  if desc.size ≠ 0 then [(c.busToPhys desc.page, desc.size)]
  else (List.range desc.count).map fun i => (c.busToPhys (s.dmaVec i).1, (s.dmaVec i).2)

def rwOf (desc : Desc) : Rw :=
  if desc.doWrite then .write else if desc.speculative then .readAhead else .read

def initiateIo (k : ℕ) : State :=
  let desc := s.descRing k
  { s with
    bioRing := update s.bioRing k (some s.nrBios)
    bios := update s.bios s.nrBios
      ⟨some k, desc.offset, s.ioVec c desc, rwOf desc, desc.tag, false⟩
    inFlight := update s.inFlight s.nrBios true
    nrBios := s.nrBios + 1
    picked := none }

def processPicked (k : ℕ) : State :=
  if c.live (s.descRing k).handle then s.initiateIo c k
  else
    { s with
      descRing := update s.descRing k
        { s.descRing k with serverErr := true, serverOwned := false }
      picked := none }

def noteErr (b k : ℕ) (err : Bool) : State :=
  if err then
    { s with
      descRing := update s.descRing k { s.descRing k with serverErr := true }
      bios := update s.bios b { s.bios b with failed := true } }
  else s

def relocate (k f : ℕ) : State :=
  match s.bioRing f with
  | none => s.check false
  | some b =>
    { s with
      descRing := update (update s.descRing k (s.descRing f)) f (s.descRing k)
      bioRing := update s.bioRing k (some b)
      bios := update s.bios b { s.bios b with biPrivate := some k } }

def release (f : ℕ) : State :=
  { s with
    server := { s.server with startDirty := (f + 1) % c.cnt }
    bioRing := update s.bioRing f none
    descRing := update s.descRing f { s.descRing f with serverOwned := false } }

def putBio (b : ℕ) : State :=
  { s with
    bios := update s.bios b { s.bios b with biPrivate := none }
    inFlight := update s.inFlight b false
    done := s.done ++ [s.bios b] }

def complete (k : ℕ) : State :=
  let f := s.server.startDirty
  let s := s.check (s.descRing f).serverOwned
  let s := if f ≠ k then s.relocate k f else s
  s.release c f

def endIo (b : ℕ) (err finished : Bool) : State :=
  match (s.bios b).biPrivate with
  | none => s.check false
  | some k =>
    let s := s.noteErr b k err
    if finished then
      let s := if c.live (s.descRing k).handle then s.complete c k else s
      s.putBio b
    else s

end State

inductive Step (c : Config) : State → State → Prop
  | submit {s : State} (x : Sub) (hlive : c.live x.handle = true)
      (hfree : State.ringAvailable c s.client > 0) : Step c s (s.processRequest c x)
  | pick {s : State} (hidle : s.picked = none) : Step c s (s.processIoQueue c)
  | initiate {s : State} {k : ℕ} (hpicked : s.picked = some k) : Step c s (s.processPicked c k)
  | endIo {s : State} {b : ℕ} (err finished : Bool) (hflight : s.inFlight b = true) :
      Step c s (s.endIo c b err finished)
  | reap {s : State} (hcan : s.canReap = true) : Step c s (s.reap c)

end DriverReuse.Block
