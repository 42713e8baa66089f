import Afterburner.Lib.Ring
import Afterburner.Lib.Runs
import Afterburner.Lib.Traces

/-!
# The command ring of a server

The server thread allocates one of eight slots, fills it in and stores `handler` last; the
dispatcher calls the handlers. A slot with a null handler is free.
-/

namespace DriverReuse.CmdRing
open Ring Function List Runs

def ringLen : ℕ := 8

section Model
variable (H T D : Type*)

structure Cmd where
  handler : Option H
  replyToTid : T
  data : D

structure Request where
  handler : H
  replyToTid : T
  data : D
  deriving DecidableEq

variable {H T D} in
def Request.cmd (r : Request H T D) : Cmd H T D := ⟨some r.handler, r.replyToTid, r.data⟩

inductive Server
  | idle
  /-- `cmd_idx = ring->next_free` -/
  | readFree (r : Request H T D)
  /-- `while( cmd->handler )` -/
  | testHandler (i : ℕ) (r : Request H T D)
  /-- `ring->wake_server = 1` -/
  | setWake (i : ℕ) (r : Request H T D)
  /-- the read of `*irq_status |= irq_flags` -/
  | readStatus (i : ℕ) (r : Request H T D)
  /-- the write of `*irq_status |= irq_flags`, when `word` has been read -/
  | writeStatus (i : ℕ) (r : Request H T D) (word : BitVec 32)
  /-- `*irq_status & irq_mask` -/
  | testStatus (i : ℕ) (r : Request H T D)
  /-- `!*irq_pending` -/
  | testPending (i : ℕ) (r : Request H T D)
  /-- `*irq_pending = TRUE` -/
  | setPending (i : ℕ) (r : Request H T D)
  /-- `L4_Ipc`, with a message to the interrupt thread or without -/
  | ipc (i : ℕ) (r : Request H T D) (toIrq : Bool)
  /-- the receive phase of `L4_Ipc` -/
  | waiting (i : ℕ) (r : Request H T D)
  /-- the read of `ring->next_free + 1` -/
  | readNext (i : ℕ) (r : Request H T D)
  | writeNext (i : ℕ) (r : Request H T D) (next : ℕ)
  | storeReply (i : ℕ) (r : Request H T D)
  | storeData (i : ℕ) (r : Request H T D)
  | storeHandler (i : ℕ) (r : Request H T D)
  deriving DecidableEq

inductive Dispatcher
  | idle
  /-- `&cmd_ring->cmds[ cmd_ring->next_cmd ]` -/
  | readCmd
  /-- `!cmd->handler` -/
  | testHandler (i : ℕ)
  /-- the read of `handler` for the call -/
  | call (i : ℕ)
  | readReply (i : ℕ) (h : H)
  | readData (i : ℕ) (h : H) (tid : T)
  | running (i : ℕ) (h : H) (tid : T) (d : D)
  /-- `cmd->handler = NULL` -/
  | clear (i : ℕ)
  /-- the read of `cmd_ring->next_cmd + 1` -/
  | readNext
  | writeNext (next : ℕ)
  /-- `if( cmd_ring->wake_server )` -/
  | testWake
  /-- `cmd_ring->wake_server = 0` -/
  | clearWake
  /-- `L4_Reply( server_tid )` -/
  | reply
  | fault
  deriving DecidableEq

structure State where
  nextFree : ℕ
  nextCmd : ℕ
  wakeServer : Bool
  cmds : ℕ → Cmd H T D
  irqStatus : BitVec 32
  irqPending : Bool
  server : Server H T D
  dispatcher : Dispatcher H T D
  stored : List (ℕ × Request H T D)
  called : List (ℕ × H)
  returned : List (ℕ × Request H T D)

inductive Action
  | allocate (r : Request H T D)
  /-- the next access of the server thread; `sent` is the outcome of a send phase -/
  | server (sent : Bool)
  | dispatch
  | dispatcher
  | message
  | irqStatus (word : BitVec 32)
  | irqPending (b : Bool)

end Model
variable {H T D : Type*} (s : State H T D)
namespace State

def init (nilthread : T) (data : ℕ → D) : State H T D where
  nextFree := 0
  nextCmd := 0
  wakeServer := false
  cmds := fun i => ⟨none, nilthread, data i⟩
  irqStatus := 0
  irqPending := false
  server := .idle
  dispatcher := .idle
  stored := []
  called := []
  returned := []

def setCmd (i : ℕ) (c : Cmd H T D) : State H T D :=
  { s with cmds := update s.cmds i c }

def serverStep (flags mask : BitVec 32) (s : State H T D) (sent : Bool) : State H T D :=
  match s.server with
  | .idle => s
  | .readFree r => { s with server := .testHandler s.nextFree r }
  | .testHandler i r =>
    match (s.cmds i).handler with
    | some _ => { s with server := .setWake i r }
    | none => { s with server := .readNext i r }
  | .setWake i r => { s with wakeServer := true, server := .readStatus i r }
  | .readStatus i r => { s with server := .writeStatus i r s.irqStatus }
  | .writeStatus i r word => { s with irqStatus := word ||| flags, server := .testStatus i r }
  | .testStatus i r =>
    { s with server := if s.irqStatus &&& mask ≠ 0 then .testPending i r else .ipc i r false }
  | .testPending i r =>
    { s with server := if s.irqPending then .ipc i r false else .setPending i r }
  | .setPending i r => { s with irqPending := true, server := .ipc i r true }
  -- a failed send ends the system call, and the loop goes on
  | .ipc i r toIrq =>
    { s with server := if toIrq = true ∧ sent = false then .testHandler i r else .waiting i r }
  | .waiting _ _ => s
  | .readNext i r => { s with server := .writeNext i r s.nextFree }
  | .writeNext i r next => { s with nextFree := (next + 1) % ringLen, server := .storeReply i r }
  | .storeReply i r =>
    { s.setCmd i { s.cmds i with replyToTid := r.replyToTid } with server := .storeData i r }
  | .storeData i r => { s.setCmd i { s.cmds i with data := r.data } with
      server := .storeHandler i r }
  | .storeHandler i r =>
    { s.setCmd i { s.cmds i with handler := some r.handler } with
      server := .idle
      stored := s.stored ++ [(i, r)] }

def receive : State H T D :=
  match s.server with
  | .waiting i r => { s with server := .testHandler i r }
  | _ => s

def dispatcherStep : State H T D :=
  match s.dispatcher with
  | .idle => s
  | .readCmd => { s with dispatcher := .testHandler s.nextCmd }
  | .testHandler i =>
    match (s.cmds i).handler with
    | some _ => { s with dispatcher := .call i }
    | none => { s with dispatcher := .testWake }
  | .call i =>
    match (s.cmds i).handler with
    | some h => { s with dispatcher := .readReply i h, called := s.called ++ [(i, h)] }
    | none => { s with dispatcher := .fault }
  | .readReply i h => { s with dispatcher := .readData i h (s.cmds i).replyToTid }
  | .readData i h tid => { s with dispatcher := .running i h tid (s.cmds i).data }
  | .running i h tid d =>
    { s with dispatcher := .clear i, returned := s.returned ++ [(i, ⟨h, tid, d⟩)] }
  | .clear i => { s.setCmd i { s.cmds i with handler := none } with dispatcher := .readNext }
  | .readNext => { s with dispatcher := .writeNext s.nextCmd }
  | .writeNext next => { s with nextCmd := (next + 1) % ringLen, dispatcher := .readCmd }
  | .testWake => { s with dispatcher := if s.wakeServer then .clearWake else .idle }
  | .clearWake => { s with wakeServer := false, dispatcher := .reply }
  | .reply => { s.receive with dispatcher := .idle }
  | .fault => s

def step (flags mask : BitVec 32) (s : State H T D) : Action H T D → State H T D
  | .allocate r =>
    match s.server with
    | .idle => { s with server := .readFree r }
    | _ => s
  | .server sent => s.serverStep flags mask sent
  | .dispatch =>
    match s.dispatcher with
    | .idle => { s with dispatcher := .readCmd }
    | _ => s
  | .dispatcher => s.dispatcherStep
  | .message => s.receive
  | .irqStatus word => { s with irqStatus := word }
  | .irqPending b => { s with irqPending := b }

end State

def Server.fills : Server H T D → Option ℕ
  | .storeReply i _ | .storeData i _ | .storeHandler i _ => some i
  | _ => none

namespace State

structure Fifo : Prop where
  called : s.called <+: s.stored.map fun x => (x.1, x.2.handler)
  returned : s.returned <+: s.stored
  once : s.returned.length ≤ s.called.length ∧ s.called.length ≤ s.returned.length + 1
  held : ∀ x ∈ s.stored.drop s.returned.length, s.cmds x.1 = x.2.cmd
  reuse : ∀ i, s.server.fills = some i →
    s.stored.filter (fun x => x.1 = i) = s.returned.filter (fun x => x.1 = i)
  noFault : s.dispatcher ≠ .fault

def Wakes : Prop :=
  ∀ i r, s.server = .waiting i r → (∃ j < ringLen, (s.cmds j).handler = none) →
    s.wakeServer = true ∨ s.dispatcher = .reply

end State

def Server.Prepares : Server H T D → Prop
  | .readStatus _ _ | .writeStatus _ _ _ | .testStatus _ _ | .testPending _ _ | .setPending _ _
  | .ipc _ _ _ => True
  | _ => False

def State.Timely : Action H T D → Prop
  | .dispatcher => s.dispatcher = .reply → s.wakeServer = false → ¬ s.server.Prepares
  | _ => True

/-! ### The order of the commands

The invariant counts the cleared slots; the requests from that number on are in their slots, and the
program counters say how far the threads are. -/

abbrev Ordered (c : ℕ) (stored : List (ℕ × Request H T D)) (cmds : ℕ → Cmd H T D) : Prop :=
  Holds ringLen (fun x => x.2.cmd) (fun cmd => cmd.handler = none) c stored cmds

def ServerAt (c n : ℕ) (cmds : ℕ → Cmd H T D) (nextFree : ℕ) : Server H T D → Prop
  | .idle | .readFree _ => nextFree = n % ringLen
  | .testHandler i _ | .setWake i _ | .readStatus i _ | .writeStatus i _ _ | .testStatus i _
  | .testPending i _ | .setPending i _ | .ipc i _ _ | .waiting i _ =>
    nextFree = n % ringLen ∧ i = n % ringLen
  | .readNext i _ => nextFree = n % ringLen ∧ i = n % ringLen ∧ n < c + ringLen
  | .writeNext i _ next => next = n % ringLen ∧ i = n % ringLen ∧ n < c + ringLen
  | .storeReply i _ => nextFree = (n + 1) % ringLen ∧ i = n % ringLen ∧ n < c + ringLen
  | .storeData i r =>
    nextFree = (n + 1) % ringLen ∧ i = n % ringLen ∧ n < c + ringLen ∧
      (cmds i).replyToTid = r.replyToTid
  | .storeHandler i r =>
    nextFree = (n + 1) % ringLen ∧ i = n % ringLen ∧ n < c + ringLen ∧
      (cmds i).replyToTid = r.replyToTid ∧ (cmds i).data = r.data

def DispatcherAt (c : ℕ) (stored : List (ℕ × Request H T D)) (nextCmd called returned : ℕ) :
    Dispatcher H T D → Prop
  | .idle | .readCmd | .testWake | .clearWake | .reply =>
    nextCmd = c % ringLen ∧ called = c ∧ returned = c
  | .testHandler i => nextCmd = c % ringLen ∧ i = c % ringLen ∧ called = c ∧ returned = c
  | .call i =>
    nextCmd = c % ringLen ∧ i = c % ringLen ∧ c < stored.length ∧ called = c ∧ returned = c
  | .readReply i h =>
    nextCmd = c % ringLen ∧ called = c + 1 ∧ returned = c ∧
      ∃ r, stored[c]? = some (i, r) ∧ i = c % ringLen ∧ h = r.handler
  | .readData i h tid =>
    nextCmd = c % ringLen ∧ called = c + 1 ∧ returned = c ∧
      ∃ r, stored[c]? = some (i, r) ∧ i = c % ringLen ∧ h = r.handler ∧ tid = r.replyToTid
  | .running i h tid d =>
    nextCmd = c % ringLen ∧ called = c + 1 ∧ returned = c ∧
      stored[c]? = some (i, ⟨h, tid, d⟩) ∧ i = c % ringLen
  | .clear i =>
    nextCmd = c % ringLen ∧ i = c % ringLen ∧ c < stored.length ∧ called = c + 1 ∧
      returned = c + 1
  | .readNext => (nextCmd + 1) % ringLen = c % ringLen ∧ called = c ∧ returned = c
  | .writeNext next => (next + 1) % ringLen = c % ringLen ∧ called = c ∧ returned = c
  | .fault => False

structure Inv (c : ℕ) (s : State H T D) : Prop where
  ordered : Ordered c s.stored s.cmds
  slot : ∀ k x, s.stored[k]? = some x → x.1 = k % ringLen
  server : ServerAt c s.stored.length s.cmds s.nextFree s.server
  dispatcher : DispatcherAt c s.stored s.nextCmd s.called.length s.returned.length s.dispatcher
  called : s.called <+: s.stored.map fun x => (x.1, x.2.handler)
  returned : s.returned <+: s.stored

theorem ringLen_pos : 0 < ringLen := by decide
theorem cmd_not_free (x : ℕ × Request H T D) : ¬ x.2.cmd.handler = none := by simp [Request.cmd]

theorem ServerAt.mono {c c' n : ℕ} {cmds cmds' : ℕ → Cmd H T D} {nextFree : ℕ}
    {srv : Server H T D} (h : ServerAt c n cmds nextFree srv) (hc : c ≤ c')
    (hcmds : ∀ i, (cmds' i).replyToTid = (cmds i).replyToTid ∧ (cmds' i).data = (cmds i).data) :
    ServerAt c' n cmds' nextFree srv := by
  have hlt : n < c + ringLen → n < c' + ringLen := fun hn => by omega
  cases srv with
  | readNext i r => exact ⟨h.1, h.2.1, hlt h.2.2⟩
  | writeNext i r next => exact ⟨h.1, h.2.1, hlt h.2.2⟩
  | storeReply i r => exact ⟨h.1, h.2.1, hlt h.2.2⟩
  | storeData i r => exact ⟨h.1, h.2.1, hlt h.2.2.1, (hcmds i).1.trans h.2.2.2⟩
  | storeHandler i r =>
    exact ⟨h.1, h.2.1, hlt h.2.2.1, (hcmds i).1.trans h.2.2.2.1, (hcmds i).2.trans h.2.2.2.2⟩
  | _ => exact h

theorem DispatcherAt.append {c : ℕ} {stored : List (ℕ × Request H T D)}
    {nextCmd called returned : ℕ} {d : Dispatcher H T D}
    (h : DispatcherAt c stored nextCmd called returned d) (x : ℕ × Request H T D) :
    DispatcherAt c (stored ++ [x]) nextCmd called returned d := by
  have hget : ∀ y, stored[c]? = some y → (stored ++ [x])[c]? = some y := fun y hy => by
    rw [List.getElem?_append_left (List.getElem?_eq_some_iff.1 hy).1]
    exact hy
  have hlt : c < stored.length → c < (stored ++ [x]).length := fun hc => by
    rw [length_append]
    omega
  cases d with
  | call i => exact ⟨h.1, h.2.1, hlt h.2.2.1, h.2.2.2⟩
  | clear i => exact ⟨h.1, h.2.1, hlt h.2.2.1, h.2.2.2⟩
  | readReply i hd => exact ⟨h.1, h.2.1, h.2.2.1, h.2.2.2.imp fun r => And.imp_left (hget _)⟩
  | readData i hd tid => exact ⟨h.1, h.2.1, h.2.2.1, h.2.2.2.imp fun r => And.imp_left (hget _)⟩
  | running i hd tid data => exact ⟨h.1, h.2.1, h.2.2.1, hget _ h.2.2.2.1, h.2.2.2.2⟩
  | _ => exact h

namespace Inv
variable {c : ℕ} {s}

theorem init (nilthread : T) (data : ℕ → D) : Inv 0 (State.init (H := H) nilthread data) where
  ordered := Holds.init fun _ => rfl
  slot := fun k x hx => by simp [State.init] at hx
  server := rfl
  dispatcher := ⟨rfl, rfl, rfl⟩
  called := prefix_rfl
  returned := prefix_rfl

theorem moveServer (h : Inv c s) {srv : Server H T D} {w : Bool} {word : BitVec 32} {b : Bool}
    {nextFree : ℕ} (hsrv : ServerAt c s.stored.length s.cmds nextFree srv) :
    Inv c { s with
      server := srv, wakeServer := w, irqStatus := word, irqPending := b, nextFree := nextFree } :=
  ⟨h.ordered, h.slot, hsrv, h.dispatcher, h.called, h.returned⟩

theorem moveDispatcher (h : Inv c s) {d : Dispatcher H T D} {w : Bool} {nextCmd : ℕ}
    (hd : DispatcherAt c s.stored nextCmd s.called.length s.returned.length d) :
    Inv c { s with dispatcher := d, wakeServer := w, nextCmd := nextCmd } :=
  ⟨h.ordered, h.slot, h.server, hd, h.called, h.returned⟩

variable {i : ℕ}

section
variable (h : Inv c s) (hroom : s.stored.length < c + ringLen) (hi : i = s.stored.length % ringLen)
include h hroom hi

theorem touch (cmd : Cmd H T D) (hcmd : cmd.handler = none) (srv : Server H T D)
    (hsrv : ServerAt c s.stored.length (update s.cmds i cmd) s.nextFree srv) :
    Inv c { s.setCmd i cmd with server := srv } := by
  subst hi
  exact ⟨h.ordered.touch hroom hcmd, h.slot, hsrv, h.dispatcher, h.called, h.returned⟩

theorem handler_eq_none : (s.cmds i).handler = none := by
  subst hi
  exact h.ordered.free s.stored.length le_rfl hroom

theorem store {r : Request H T D} (hfree : s.nextFree = (s.stored.length + 1) % ringLen)
    (hreply : (s.cmds i).replyToTid = r.replyToTid) (hdata : (s.cmds i).data = r.data) :
    Inv c { s.setCmd i { s.cmds i with handler := some r.handler } with
      server := .idle
      stored := s.stored ++ [(i, r)] } := by
  have hcmd : ({ s.cmds i with handler := some r.handler } : Cmd H T D) = r.cmd := by
    unfold Request.cmd
    rw [← hreply, ← hdata]
  have hlen : (s.stored ++ [(i, r)]).length = s.stored.length + 1 := length_append
  rw [hcmd]
  refine ⟨?_, fun k x hx => ?_, ?_, h.dispatcher.append (i, r), ?_,
    h.returned.trans (prefix_append ..)⟩
  · have hpush := h.ordered.push hroom (i, r)
    rw [← hi] at hpush
    exact hpush
  · by_cases hk : k < s.stored.length
    · rw [getElem?_append_left hk] at hx
      exact h.slot k x hx
    · have hlt : k < (s.stored ++ [(i, r)]).length := (List.getElem?_eq_some_iff.1 hx).1
      obtain rfl : k = s.stored.length := by omega
      obtain rfl : (i, r) = x := by simpa using hx
      exact hi
  · exact hfree.trans (by rw [hlen])
  · rw [map_append]
    exact h.called.trans (prefix_append ..)

end

section
variable (h : Inv c s)
include h

theorem serverStep (flags mask : BitVec 32) (sent : Bool) :
    Inv c (s.serverStep flags mask sent) := by
  have hsrv := h.server
  unfold State.serverStep
  cases hpc : s.server <;> rw [hpc] at hsrv <;> dsimp only
  case idle | waiting => exact h
  case readFree r => exact h.moveServer ⟨hsrv, hsrv⟩
  case testHandler i r =>
    cases hh : (s.cmds i).handler with
    | some _ => exact h.moveServer hsrv
    | none =>
      have hroom := h.ordered.lt_of_free cmd_not_free ringLen_pos (by rw [← hsrv.2]; exact hh)
      exact h.moveServer ⟨hsrv.1, hsrv.2, hroom⟩
  case testStatus | testPending | ipc =>
    split_ifs
    · exact h.moveServer hsrv
    · exact h.moveServer hsrv
  case readNext i r => exact h.moveServer ⟨hsrv.1, hsrv.2⟩
  case writeNext i r next =>
    obtain ⟨rfl, hi, hroom⟩ := hsrv
    exact h.moveServer ⟨succ_mod _ _, hi, hroom⟩
  case storeReply i r =>
    obtain ⟨hfree, hi, hroom⟩ := hsrv
    refine h.touch hroom hi { s.cmds i with replyToTid := r.replyToTid }
      (h.handler_eq_none hroom hi) (.storeData i r) ⟨hfree, hi, hroom, ?_⟩
    rw [update_self]
  case storeData i r =>
    obtain ⟨hfree, hi, hroom, hreply⟩ := hsrv
    refine h.touch hroom hi { s.cmds i with data := r.data } (h.handler_eq_none hroom hi)
      (.storeHandler i r) ⟨hfree, hi, hroom, ?_, ?_⟩
    · simp_all
    · rw [update_self]
  case storeHandler i r =>
    obtain ⟨hfree, hi, hroom, hreply, hdata⟩ := hsrv
    exact h.store hroom hi hfree hreply hdata
  -- the accesses on the way to the system call decide nothing
  all_goals exact h.moveServer hsrv

theorem receive : Inv c s.receive := by
  have hsrv := h.server
  unfold State.receive
  split
  · rename_i i r hpc
    rw [hpc] at hsrv
    exact h.moveServer hsrv
  · exact h

theorem clear (hpc : s.dispatcher = .clear i) :
    Inv (c + 1) { s.setCmd i { s.cmds i with handler := none } with dispatcher := .readNext } := by
  have hd := h.dispatcher
  rw [hpc] at hd
  obtain ⟨hnext, hi, hlt, hcalled, hreturned⟩ := hd
  have hfields : ∀ j,
      (update s.cmds i { s.cmds i with handler := none } j).replyToTid =
          (s.cmds j).replyToTid ∧
        (update s.cmds i { s.cmds i with handler := none } j).data = (s.cmds j).data := by
    intro j
    simp only [update_apply]
    split_ifs with hj
    · simp_all
    · exact ⟨rfl, rfl⟩
  refine ⟨?_, h.slot, h.server.mono (Nat.le_succ c) hfields, ⟨?_, hcalled, hreturned⟩, h.called,
    h.returned⟩
  · subst hi
    exact h.ordered.pop hlt ringLen_pos rfl
  · dsimp only [State.setCmd]
    rw [hnext, succ_mod]

theorem call (hpc : s.dispatcher = .call i) : Inv c s.dispatcherStep := by
  have hd := h.dispatcher
  rw [hpc] at hd
  obtain ⟨hnext, hi, hlt, hcalled, hreturned⟩ := hd
  obtain ⟨⟨j, r⟩, hget, hcmd⟩ := h.ordered.front hlt
  obtain rfl : j = i := (h.slot c (j, r) hget).trans hi.symm
  rw [← hi] at hcmd
  have hhandler : (s.cmds j).handler = some r.handler := by rw [hcmd]; rfl
  have hstep : s.dispatcherStep =
      { s with dispatcher := .readReply j r.handler, called := s.called ++ [(j, r.handler)] } := by
    simp [hpc, hhandler, State.dispatcherStep]
  rw [hstep]
  refine ⟨h.ordered, h.slot, h.server, ⟨hnext, ?_, hreturned, r, hget, hi, rfl⟩, ?_, h.returned⟩
  · simp_all
  · refine Traces.prefix_snoc h.called ?_
    rw [hcalled, getElem?_map, hget]
    rfl

theorem finish {hd : H} {tid : T} {d : D} (hpc : s.dispatcher = .running i hd tid d) :
    Inv c { s with
      dispatcher := .clear i, returned := s.returned ++ [(i, ⟨hd, tid, d⟩)] } := by
  have hat := h.dispatcher
  rw [hpc] at hat
  obtain ⟨hnext, hcalled, hreturned, hget, hi⟩ := hat
  refine ⟨h.ordered, h.slot, h.server, ⟨hnext, hi, ?_, hcalled, ?_⟩, h.called, ?_⟩
  · exact (List.getElem?_eq_some_iff.1 hget).1
  · simp_all
  · refine Traces.prefix_snoc h.returned ?_
    rw [hreturned]
    exact hget

theorem dispatcherStep : ∃ c', Inv c' s.dispatcherStep := by
  have hat := h.dispatcher
  have hheld : ∀ i r, s.stored[c]? = some (i, r) → i = c % ringLen → s.cmds i = r.cmd := by
    intro i r hget hi
    have hcmd := h.ordered.held c (i, r) le_rfl hget
    rwa [view, ← hi] at hcmd
  by_cases hcall : ∃ i, s.dispatcher = .call i
  · exact ⟨c, h.call hcall.choose_spec⟩
  unfold State.dispatcherStep
  cases hpc : s.dispatcher <;> rw [hpc] at hat <;> dsimp only
  case idle => exact ⟨c, h⟩
  case fault => exact hat.elim
  case call i => exact absurd ⟨i, hpc⟩ hcall
  case clear i => exact ⟨c + 1, h.clear hpc⟩
  case running i hd tid d => exact ⟨c, h.finish hpc⟩
  case reply =>
    have hrec := h.receive
    refine ⟨c, hrec.ordered, hrec.slot, hrec.server, ?_, hrec.called, hrec.returned⟩
    have hkept : DispatcherAt c s.receive.stored s.receive.nextCmd s.receive.called.length
        s.receive.returned.length (.idle : Dispatcher H T D) := by
      unfold State.receive
      split <;> exact hat
    exact hkept
  case readCmd => exact ⟨c, h.moveDispatcher ⟨hat.1, hat.1, hat.2⟩⟩
  case testHandler i =>
    cases hh : (s.cmds i).handler with
    | none => exact ⟨c, h.moveDispatcher ⟨hat.1, hat.2.2⟩⟩
    | some hd =>
      have hlt := h.ordered.lt_of_not_free ringLen_pos (by
        rw [← hat.2.1, hh]
        exact Option.some_ne_none hd)
      exact ⟨c, h.moveDispatcher ⟨hat.1, hat.2.1, hlt, hat.2.2⟩⟩
  case readReply i hd =>
    obtain ⟨hnext, hcalled, hreturned, r, hget, hi, hhd⟩ := hat
    refine ⟨c, h.moveDispatcher ⟨hnext, hcalled, hreturned, r, hget, hi, hhd, ?_⟩⟩
    rw [hheld i r hget hi]
    rfl
  case readData i hd tid =>
    obtain ⟨hnext, hcalled, hreturned, r, hget, hi, rfl, rfl⟩ := hat
    refine ⟨c, h.moveDispatcher ⟨hnext, hcalled, hreturned, ?_, hi⟩⟩
    rw [hget, hheld i r hget hi]
    rfl
  case testWake =>
    split_ifs
    · exact ⟨c, h.moveDispatcher hat⟩
    · exact ⟨c, h.moveDispatcher hat⟩
  all_goals exact ⟨c, h.moveDispatcher hat⟩

end

theorem step (flags mask : BitVec 32) (h : Inv c s) (a : Action H T D) :
    ∃ c', Inv c' (s.step flags mask a) := by
  cases a with
  | allocate r =>
    have hsrv := h.server
    unfold State.step
    dsimp only
    split
    · rename_i hpc
      rw [hpc] at hsrv
      exact ⟨c, h.moveServer hsrv⟩
    · exact ⟨c, h⟩
  | server sent => exact ⟨c, h.serverStep flags mask sent⟩
  | dispatch =>
    have hat := h.dispatcher
    unfold State.step
    dsimp only
    split
    · rename_i hpc
      rw [hpc] at hat
      exact ⟨c, h.moveDispatcher hat⟩
    · exact ⟨c, h⟩
  | dispatcher => exact h.dispatcherStep
  | message => exact ⟨c, h.receive⟩
  | irqStatus word => exact ⟨c, h.moveServer h.server⟩
  | irqPending b => exact ⟨c, h.moveServer h.server⟩

theorem counts (h : Inv c s) : c ≤ s.returned.length ∧ s.returned.length ≤ s.called.length ∧
    s.called.length ≤ s.returned.length + 1 := by
  have hat := h.dispatcher
  cases hpc : s.dispatcher <;> rw [hpc] at hat <;> unfold DispatcherAt at hat
  case readReply | readData | running =>
    omega
  case fault => exact hat.elim
  all_goals omega

theorem fifo (h : Inv c s) : s.Fifo where
  called := h.called
  returned := h.returned
  once := h.counts.2
  held := fun x hx => by
    obtain ⟨k, hk⟩ := mem_iff_getElem?.1 hx
    rw [getElem?_drop] at hk
    have hle := h.counts.1
    have hcmd := h.ordered.held _ x (by omega) hk
    rwa [view, ← h.slot _ x hk] at hcmd
  reuse := fun i hi => by
    obtain ⟨rest, hrest⟩ := h.returned
    have hroom : i = s.stored.length % ringLen ∧ s.stored.length < c + ringLen := by
      have hsrv := h.server
      cases hpc : s.server <;> rw [hpc] at hi hsrv <;> cases hi <;> exact ⟨hsrv.2.1, by
        first | exact hsrv.2.2 | exact hsrv.2.2.1⟩
    -- what has not returned is in the window of the ring, so in other slots
    have hnone : rest.filter (fun x => x.1 = i) = [] := by
      rw [filter_eq_nil_iff]
      intro x hx
      obtain ⟨k, hk⟩ := mem_iff_getElem?.1 hx
      have hget : s.stored[s.returned.length + k]? = some x := by
        rw [← hrest, getElem?_append_right (Nat.le_add_right ..), Nat.add_sub_cancel_left]
        exact hk
      have hlt := (List.getElem?_eq_some_iff.1 hget).1
      have hle := h.counts.1
      rw [decide_eq_true_iff, h.slot _ x hget, hroom.1,
        mod_eq_iff (a := c) ⟨by omega, by omega⟩ ⟨by omega, hroom.2⟩]
      omega
    rw [← hrest, filter_append, hnone, append_nil]
  noFault := fun hpc => by
    have hat := h.dispatcher
    rw [hpc] at hat
    exact hat

end Inv

def Server.Sleepy : Server H T D → Prop
  | .waiting _ _ => True
  | srv => srv.Prepares

def Armed : Prop :=
  s.server.Sleepy → s.wakeServer = true ∨ s.dispatcher = .reply

namespace Armed
variable {s}

theorem wakeServer (h : Armed s) (hpc : s.dispatcher ≠ .reply) (hs : s.server.Sleepy) :
    s.wakeServer = true := (h hs).resolve_right hpc

theorem serverStep (h : Armed s) (flags mask : BitVec 32) (sent : Bool) :
    Armed (s.serverStep flags mask sent) := by
  unfold State.serverStep
  cases hpc : s.server <;> dsimp only
  case idle | waiting => exact h
  case setWake => exact fun _ => Or.inl rfl
  case readStatus | writeStatus | testStatus | testPending | setPending | ipc =>
    exact fun _ => h (by rw [hpc]; trivial)
  case testHandler =>
    split
    · exact fun hs => hs.elim
    · exact fun hs => hs.elim
  all_goals exact fun hs => hs.elim

theorem receive (h : Armed s) : Armed s.receive := by
  unfold State.receive
  split
  · exact fun hs => hs.elim
  · exact h

theorem sleepy_receive (h : s.receive.server.Sleepy) : s.server.Prepares := by
  unfold State.receive at h
  split at h
  · exact h.elim
  · rename_i hne
    cases hpc : s.server with
    | waiting i r => exact absurd hpc (hne i r)
    | _ =>
      rw [hpc] at h
      exact h

theorem reply (hpc : s.dispatcher = .reply) (ht : s.Timely .dispatcher) :
    Armed s.dispatcherStep := by
  have hkept : s.receive.wakeServer = s.wakeServer := by
    unfold State.receive
    split <;> rfl
  unfold State.dispatcherStep
  rw [hpc]
  intro hs
  have hprep := sleepy_receive hs
  left
  refine hkept.trans ?_
  by_contra hne
  exact ht hpc (Bool.eq_false_iff.2 hne) hprep

theorem dispatcherStep (h : Armed s) (ht : s.Timely .dispatcher) : Armed s.dispatcherStep := by
  by_cases hreply : s.dispatcher = .reply
  · exact reply hreply ht
  have hkept := h.wakeServer hreply
  unfold State.dispatcherStep
  cases hpc : s.dispatcher <;> dsimp only
  case reply => exact absurd hpc hreply
  case idle | fault => exact h
  case clearWake => exact fun _ => Or.inr rfl
  case testHandler | call =>
    split
    · exact fun hs => Or.inl (hkept hs)
    · exact fun hs => Or.inl (hkept hs)
  all_goals exact fun hs => Or.inl (hkept hs)

theorem step (flags mask : BitVec 32) (h : Armed s) {a : Action H T D} (ht : s.Timely a) :
    Armed (s.step flags mask a) := by
  cases a with
  | allocate r =>
    unfold State.step
    dsimp only
    split
    · exact fun hs => hs.elim
    · exact h
  | server sent => exact h.serverStep flags mask sent
  | dispatch =>
    unfold State.step
    dsimp only
    split
    · rename_i hpc
      exact fun hs => Or.inl (h.wakeServer (by simp [hpc]) hs)
    · exact h
  | dispatcher => exact h.dispatcherStep ht
  | message => exact h.receive
  | irqStatus word => exact h
  | irqPending b => exact h

theorem wakes (h : Armed s) : s.Wakes := by
  intro i r hpc _
  exact h (by rw [hpc]; trivial)

end Armed

def fillRing : List (Action ℕ ℕ ℕ) :=
  (replicate 8 (.allocate ⟨1, 2, 3⟩ :: replicate 7 (.server true))).flatten

end DriverReuse.CmdRing
