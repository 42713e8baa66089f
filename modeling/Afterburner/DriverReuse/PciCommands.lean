import Afterburner.DriverReuse.CmdRing

/-!
# The deferred commands of the PCI server

The server thread queues a command for each request, with its parameters in `bottom_half_params`;
the bottom half calls the handlers later.
-/

namespace DriverReuse.PciCommands
open Ring CmdRing Option List CmdRing.State Runs Function

abbrev Word := BitVec 32

structure DevId where
  vendorId : BitVec 16
  deviceId : BitVec 16

inductive Request
  | register (devs : List DevId)
  | deregister (tid : Word)
  | read (idx reg len offset : Word)
  | write (idx reg len offset val : Word)

inductive Handler
  | register
  | deregister
  | read
  | write
  deriving DecidableEq

inductive Params
  | register (devNum : ℕ)
  | deregister (tid : Word)
  | read (idx reg len offset : Word)
  | write (idx reg len offset val : Word)
  deriving DecidableEq

structure Message where
  caller : Word
  request : Request
  extra : List (BitVec 16)

namespace Message
variable (m : Message)

def handler : Handler :=
  match m.request with
  | .register _ => .register
  | .deregister _ => .deregister
  | .read .. => .read
  | .write .. => .write

def params : Params :=
  match m.request with
  | .register devs => .register devs.length
  | .deregister tid => .deregister tid
  | .read idx reg len offset => .read idx reg len offset
  | .write idx reg len offset val => .write idx reg len offset val

def ids : List (BitVec 16) :=
  match m.request with
  | .register devs => devs.flatMap fun d => [d.vendorId, d.deviceId]
  | _ => []

def string : List (BitVec 16) :=
  match m.request with
  | .register _ => m.ids
  | _ => m.extra

def stored (k : ℕ) : CmdRing.Request Handler Word ℕ := ⟨m.handler, m.caller, k % ringLen⟩

end Message

def bufLen : ℕ := 40

def overwrite (devIds : ℕ → BitVec 16) (string : List (BitVec 16)) (j : ℕ) : BitVec 16 :=
  (string.take bufLen)[j]?.getD (devIds j)

def Params.toRead : Params → ℕ
  | .register devNum => 2 * devNum
  | _ => 0

structure Progress where
  params : Params
  ids : List (BitVec 16)

structure Executed where
  handler : Handler
  caller : Word
  params : Params
  ids : List (BitVec 16)
  deriving DecidableEq

def Executed.command (e : Executed) : Handler × Word × Params := (e.handler, e.caller, e.params)
def Message.command (m : Message) : Handler × Word × Params := (m.handler, m.caller, m.params)
def Message.expected (m : Message) : Executed := ⟨m.handler, m.caller, m.params, m.ids⟩

structure State where
  ring : CmdRing.State Handler Word ℕ
  /-- `bottom_half_params` -/
  params : ℕ → Params
  /-- `dev_ids` -/
  devIds : ℕ → BitVec 16
  current : Option Message
  handler : Option Progress
  received : List Message
  executed : List Executed

variable (s : State)

inductive Action
  | receive (m : Message)
  /-- the next access of the server thread; `sent` is the outcome of a send phase -/
  | server (sent : Bool)
  | dispatch
  | dispatcher
  | irqStatus (word : BitVec 32)
  | irqPending (b : Bool)

namespace State

def init (nilthread : Word) (data : ℕ → ℕ) (params : ℕ → Params) (devIds : ℕ → BitVec 16) :
    State where
  ring := CmdRing.State.init nilthread data
  params := params
  devIds := devIds
  current := none
  handler := none
  received := []
  executed := []

def Listens : Prop := s.ring.server = .idle ∨ ∃ i r, s.ring.server = .waiting i r

variable (flags mask : BitVec 32)

def receive (s : State) (m : Message) : State :=
  match s.ring.server with
  | .idle =>
    if m.string.length ≤ bufLen then
      { s with
        devIds := overwrite s.devIds m.string
        ring := s.ring.step flags mask (.allocate ⟨m.handler, m.caller, s.ring.nextFree⟩)
        current := some m
        received := s.received ++ [m] }
    else { s with devIds := overwrite s.devIds m.string }
  | .waiting _ _ => { s with devIds := overwrite s.devIds m.string, ring := s.ring.receive }
  | _ => s

def serverStep (s : State) (sent : Bool) : State :=
  match s.ring.server, s.current with
  | .storeReply i _, some m =>
    { s with params := update s.params i m.params, current := none }
  | _, _ => { s with ring := s.ring.serverStep flags mask sent }

def dispatcherStep (s : State) : State :=
  match s.ring.dispatcher with
  | .running _ h tid d =>
    match s.handler with
    | none => { s with handler := some ⟨s.params d, []⟩ }
    | some p =>
      if p.ids.length < p.params.toRead then
        { s with handler := some ⟨p.params, p.ids ++ [s.devIds p.ids.length]⟩ }
      else
        { s with
          ring := s.ring.dispatcherStep
          handler := none
          executed := s.executed ++ [⟨h, tid, p.params, p.ids⟩] }
  | _ => { s with ring := s.ring.dispatcherStep }

def step (s : State) : Action → State
  | .receive m => s.receive flags mask m
  | .server sent => s.serverStep flags mask sent
  | .dispatch => { s with ring := s.ring.step flags mask .dispatch }
  | .dispatcher => s.dispatcherStep
  | .irqStatus word => { s with ring := s.ring.step flags mask (.irqStatus word) }
  | .irqPending b => { s with ring := s.ring.step flags mask (.irqPending b) }

def Orderly : Prop :=
  s.executed.map Executed.command <+: s.received.map Message.command

structure Correct : Prop where
  executed : s.executed <+: s.received.map Message.expected
  running : ∀ p, s.handler = some p →
    ∃ m, s.received[s.executed.length]? = some m ∧ p.ids <+: m.ids

/-- The field of the ids that the handler reads is still the caller's own. -/
def ReadsOwn : Action → Prop
  | .dispatcher => ∀ p, s.handler = some p → p.ids.length < p.params.toRead →
      ∃ m, s.received[s.executed.length]? = some m ∧
        m.ids[p.ids.length]? = some (s.devIds p.ids.length)
  | _ => True

/-- No string is received while a register request waits for its handler to end. -/
def Exclusive : Action → Prop
  | .receive m => s.Listens → m.string ≠ [] →
      ∀ m' ∈ s.received.drop s.executed.length, m'.ids = []
  | _ => True

end State

/-! ### The invariant

The requests received are those in `log` and the one that the server thread works on, `cur`. -/

def request : CmdRing.Server Handler Word ℕ → Option (CmdRing.Request Handler Word ℕ)
  | .idle => none
  | .readFree r | .testHandler _ r | .setWake _ r | .readStatus _ r | .writeStatus _ r _
  | .testStatus _ r | .testPending _ r | .setPending _ r | .ipc _ r _ | .waiting _ r | .readNext _ r
  | .writeNext _ r _ | .storeReply _ r | .storeData _ r | .storeHandler _ r => some r

def Early : CmdRing.Server Handler Word ℕ → Prop
  | .storeData _ _ | .storeHandler _ _ => False
  | _ => True

structure ServerKnows (n : ℕ) (params : ℕ → Params) (current cur : Option Message)
    (srv : CmdRing.Server Handler Word ℕ) : Prop where
  request : request srv = cur.map (·.stored n)
  place : current = cur ∧ Early srv ∨
    current = none ∧ srv.fills.isSome ∧ ∀ m ∈ cur, params (n % ringLen) = m.params

def HandlerKnows (log : List Message) (e : ℕ) : Option Progress → Prop
  | none => True
  | some p => ∃ m, log[e]? = some m ∧ p.params = m.params ∧ p.ids.length ≤ m.ids.length

structure Inv (c : ℕ) (log : List Message) (cur : Option Message) (s : State) : Prop where
  ring : CmdRing.Inv c s.ring
  received : s.received = log ++ cur.toList
  stored : s.ring.stored = log.mapIdx fun k m => (k % ringLen, m.stored k)
  params : Holds ringLen Message.params (fun _ => True) s.executed.length log s.params
  returned : s.ring.returned.length = s.executed.length
  server : ServerKnows log.length s.params s.current cur s.ring.server
  handler : HandlerKnows log s.executed.length s.handler
  running : s.handler ≠ none → ∃ i h tid d, s.ring.dispatcher = .running i h tid d
  executed : s.executed.map Executed.command <+: log.map Message.command

theorem inv_init (nilthread : Word) (data : ℕ → ℕ) (params : ℕ → Params)
    (devIds : ℕ → BitVec 16) : Inv 0 [] none (State.init nilthread data params devIds) where
  ring := CmdRing.Inv.init nilthread data
  received := rfl
  stored := rfl
  params := Holds.init fun _ => trivial
  returned := rfl
  server := ⟨rfl, Or.inl ⟨rfl, trivial⟩⟩
  handler := trivial
  running := fun h => absurd rfl h
  executed := prefix_rfl

section Ring
variable (ring : CmdRing.State Handler Word ℕ)

theorem serverStep_cases (flags mask : BitVec 32) (sent : Bool) :
    (∃ i r, ring.server = .storeHandler i r) ∨
    (request (ring.serverStep flags mask sent).server = request ring.server ∧
      (ring.serverStep flags mask sent).stored = ring.stored ∧
      (ring.serverStep flags mask sent).returned = ring.returned ∧
      (ring.serverStep flags mask sent).dispatcher = ring.dispatcher ∧
      (ring.server.fills.isSome → (ring.serverStep flags mask sent).server.fills.isSome) ∧
      (ring.server.fills = none → Early (ring.serverStep flags mask sent).server)) := by
  unfold serverStep
  cases hpc : ring.server with
  | storeHandler i r => exact Or.inl ⟨i, r, rfl⟩
  | idle => simp [hpc, request, Early, Server.fills]
  | waiting i r => simp [hpc, request, Early, Server.fills]
  | testHandler i r =>
    right
    dsimp only
    split <;> simp [request, Early, Server.fills]
  | testStatus i r =>
    right
    split_ifs <;> simp [request, Early, Server.fills]
  | testPending i r =>
    right
    split_ifs <;> simp [request, Early, Server.fills]
  | ipc i r toIrq =>
    right
    dsimp only
    split_ifs <;> simp [request, Early, Server.fills]
  | _ => simp [request, Early, Server.fills, setCmd]

theorem receive_frame :
    ring.receive.stored = ring.stored ∧ ring.receive.returned = ring.returned ∧
      ring.receive.dispatcher = ring.dispatcher ∧
      request ring.receive.server = request ring.server ∧
      ring.receive.server.fills = ring.server.fills ∧
      (Early ring.receive.server ↔ Early ring.server) := by
  unfold receive
  cases hpc : ring.server with
  | waiting i r => exact ⟨rfl, rfl, rfl, rfl, rfl, Iff.rfl⟩
  | _ => simp [hpc]

variable {ring}

theorem ServerKnows.receive {n : ℕ} {params : ℕ → Params} {current cur : Option Message}
    (h : ServerKnows n params current cur ring.server) :
    ServerKnows n params current cur ring.receive.server := by
  obtain ⟨-, -, -, hreq, hfills, hearly⟩ := receive_frame ring
  refine ⟨hreq.trans h.request, ?_⟩
  rw [hfills, hearly]
  exact h.place

theorem dispatcherStep_frame
    (h : ∀ i hd tid d, ring.dispatcher ≠ .running i hd tid d) :
    ring.dispatcherStep.stored = ring.stored ∧ ring.dispatcherStep.returned = ring.returned ∧
      (ring.dispatcherStep.server = ring.server ∨
        ring.dispatcherStep.server = ring.receive.server) := by
  unfold dispatcherStep
  cases hpc : ring.dispatcher with
  | running i hd tid d => exact absurd hpc (h i hd tid d)
  | reply => simp [receive_frame]
  | testHandler i => dsimp only; split <;> exact ⟨rfl, rfl, Or.inl rfl⟩
  | call i => dsimp only; split <;> exact ⟨rfl, rfl, Or.inl rfl⟩
  | _ => exact ⟨rfl, rfl, Or.inl rfl⟩

end Ring

theorem HandlerKnows.mono {log log' : List Message} (hlog : log <+: log') {e : ℕ} :
    ∀ {o : Option Progress}, HandlerKnows log e o → HandlerKnows log' e o
  | none, _ => trivial
  | some _, ⟨m, hm, hrest⟩ => ⟨m, Traces.getElem?_of_prefix hlog hm, hrest⟩

section Inv

variable {c : ℕ} {log : List Message} {cur : Option Message} {s} {i d : ℕ} {hd : Handler}
  {tid : Word} {r : CmdRing.Request Handler Word ℕ} {m : Message} {p : Progress}
  (flags mask : BitVec 32) (sent : Bool) (h : Inv c log cur s)

include h

theorem Inv.stored_length : s.ring.stored.length = log.length := by
  rw [h.stored, length_mapIdx]

theorem Inv.log_prefix : log <+: s.received := by simp [h.received]

theorem Inv.running_eq (hpc : s.ring.dispatcher = .running i hd tid d) :
    ∃ m, log[s.executed.length]? = some m ∧ hd = m.handler ∧ tid = m.caller ∧
      s.params d = m.params := by
  have hat := h.ring.dispatcher
  rw [hpc] at hat
  obtain ⟨-, -, hreturned, hget, -⟩ := hat
  obtain rfl : c = s.executed.length := hreturned.symm.trans h.returned
  rw [h.stored, getElem?_mapIdx] at hget
  obtain ⟨m, hm, heq⟩ := map_eq_some_iff.1 hget
  obtain ⟨rfl, hreq⟩ := Prod.mk.inj heq
  obtain ⟨rfl, rfl, rfl⟩ := CmdRing.Request.mk.inj hreq
  exact ⟨m, hm, rfl, rfl, h.params.held _ m le_rfl hm⟩

theorem Inv.knows (hpc : s.ring.dispatcher = .running i hd tid d) (hp : s.handler = some p) :
    ∃ m, log[s.executed.length]? = some m ∧ hd = m.handler ∧ tid = m.caller ∧
      p.params = m.params ∧ p.ids.length ≤ m.ids.length := by
  obtain ⟨m, hm, hhandler, hcaller, -⟩ := h.running_eq hpc
  have hknows := h.handler
  rw [hp] at hknows
  obtain ⟨m', hm', hknows⟩ := hknows
  obtain rfl : m = m' := some.inj (hm.symm.trans hm')
  exact ⟨m, hm, hhandler, hcaller, hknows⟩

theorem Inv.room (hroom : s.ring.stored.length < c + ringLen) :
    log.length < s.executed.length + ringLen := by
  have hle := h.ring.counts.1
  rw [h.returned] at hle
  rw [h.stored_length] at hroom
  omega

theorem Inv.moveRing {c' : ℕ} {ring : CmdRing.State Handler Word ℕ}
    (hring : CmdRing.Inv c' ring) (hstored : ring.stored = s.ring.stored)
    (hreturned : ring.returned = s.ring.returned)
    (hsrv : ServerKnows log.length s.params s.current cur ring.server)
    (hdisp : s.handler ≠ none → ring.dispatcher = s.ring.dispatcher) (devIds : ℕ → BitVec 16) :
    Inv c' log cur { s with ring := ring, devIds := devIds } where
  ring := hring
  received := h.received
  stored := hstored.trans h.stored
  params := h.params
  returned := (congrArg length hreturned).trans h.returned
  server := hsrv
  handler := h.handler
  running hne := by
    obtain ⟨i, hd, tid, d, hpc⟩ := h.running hne
    exact ⟨i, hd, tid, d, (hdisp hne).trans hpc⟩
  executed := h.executed

theorem Inv.accept (m : Message) (devIds : ℕ → BitVec 16) (hpc : s.ring.server = .idle) :
    ∃ c', Inv c' log (some m) { s with
      devIds := devIds
      ring := s.ring.step flags mask (.allocate ⟨m.handler, m.caller, s.ring.nextFree⟩)
      current := some m
      received := s.received ++ [m] } := by
  have hfree := h.ring.server
  rw [hpc] at hfree
  have hnext : s.ring.nextFree = log.length % ringLen := by
    rw [← h.stored_length]
    exact hfree
  have hcur : cur = none := by
    have hreq := h.server.request
    rw [hpc] at hreq
    exact map_eq_none_iff.1 hreq.symm
  have hstep : s.ring.step flags mask (.allocate ⟨m.handler, m.caller, s.ring.nextFree⟩) =
      { s.ring with server := .readFree (m.stored log.length) } := by
    unfold step Message.stored
    simp only [hpc, hnext]
  obtain ⟨c', hring⟩ := h.ring.step flags mask (.allocate ⟨m.handler, m.caller, s.ring.nextFree⟩)
  rw [hstep] at hring ⊢
  refine ⟨c', hring, ?_, h.stored, h.params, h.returned, ⟨rfl, Or.inl ⟨rfl, trivial⟩⟩, h.handler,
    h.running, h.executed⟩
  rw [h.received, hcur]
  simp

theorem Inv.receive (m : Message) : ∃ c' cur', Inv c' log cur' (s.receive flags mask m) := by
  unfold State.receive
  cases hpc : s.ring.server with
  | idle =>
    split_ifs
    · obtain ⟨c', h'⟩ := h.accept flags mask m (overwrite s.devIds m.string) hpc
      exact ⟨c', some m, h'⟩
    · exact ⟨c, cur, h.moveRing h.ring rfl rfl h.server (fun _ => rfl) _⟩
  | waiting i r =>
    obtain ⟨hstored, hreturned, hdisp, -⟩ := receive_frame s.ring
    exact ⟨c, cur, h.moveRing h.ring.receive hstored hreturned h.server.receive (fun _ => hdisp) _⟩
  | _ => exact ⟨c, cur, h⟩

theorem Inv.fill (hpc : s.ring.server = .storeReply i r) (hcur : s.current = some m) :
    Inv c log cur
      { s with params := update s.params i m.params, current := none } := by
  have hat := h.ring.server
  rw [hpc] at hat
  obtain ⟨-, hi, hroom⟩ := hat
  rw [h.stored_length] at hi
  subst hi
  obtain rfl : cur = some m := by
    rcases h.server.place with ⟨heq, -⟩ | ⟨hnone, -⟩
    · exact heq.symm.trans hcur
    · simp_all
  refine ⟨h.ring, h.received, h.stored, h.params.touch (h.room hroom) trivial, h.returned,
    ⟨h.server.request, Or.inr ⟨rfl, ?_, ?_⟩⟩, h.handler, h.running, h.executed⟩
  · rw [hpc]
    rfl
  · simp

theorem Inv.store (hpc : s.ring.server = .storeHandler i r) :
    ∃ log', Inv c log' none { s with ring := s.ring.serverStep flags mask sent } := by
  have hat := h.ring.server
  have hreq := h.server.request
  have hplace := h.server.place
  rw [hpc] at hat hreq hplace
  obtain ⟨-, hi, hroom, -⟩ := hat
  rw [h.stored_length] at hi
  obtain ⟨m, rfl, rfl⟩ := map_eq_some_iff.1 hreq.symm
  have hring := h.ring.serverStep flags mask sent
  have hstep : s.ring.serverStep flags mask sent =
      { s.ring.setCmd i { s.ring.cmds i with handler := some (m.stored log.length).handler } with
        server := .idle
        stored := s.ring.stored ++ [(i, m.stored log.length)] } := by
    unfold serverStep
    rw [hpc]
  rw [hstep] at hring ⊢
  obtain ⟨hcur, -, hparams⟩ := hplace.resolve_left fun hearly => hearly.2
  have hheld := h.params.push (h.room hroom) m
  rw [← hparams m rfl, update_eq_self] at hheld
  refine ⟨log ++ [m], hring, ?_, ?_, hheld, h.returned, ⟨rfl, Or.inl ⟨hcur, trivial⟩⟩,
    h.handler.mono (prefix_append ..), h.running, ?_⟩
  · rw [h.received]
    simp
  · rw [h.stored, hi]
    simp
  · rw [map_append]
    exact h.executed.trans (prefix_append ..)

theorem Inv.moveServer (hpc : ∀ i r, s.ring.server ≠ .storeHandler i r)
    (hfill : ∀ i r m, s.ring.server = .storeReply i r → s.current ≠ some m) :
    Inv c log cur { s with ring := s.ring.serverStep flags mask sent } := by
  rcases serverStep_cases s.ring flags mask sent with
    ⟨i, r, hstore⟩ | ⟨hreq, hstored, hreturned, hdisp, hfills, hearly⟩
  · exact absurd hstore (hpc i r)
  refine h.moveRing (h.ring.serverStep flags mask sent) hstored hreturned
    ⟨hreq.trans h.server.request, ?_⟩ (fun _ => hdisp) s.devIds
  rcases h.server.place with ⟨hcur, hplace⟩ | ⟨hcur, hplace, hparams⟩
  · -- the parameters are not stored, so the slot is not filled in either
    refine Or.inl ⟨hcur, hearly ?_⟩
    cases hsrv : s.ring.server with
    | storeReply i r =>
      have hsome := h.server.request
      rw [hsrv] at hsome
      obtain ⟨m, hm, -⟩ := map_eq_some_iff.1 hsome.symm
      exact absurd (hcur.trans hm) (hfill i r m hsrv)
    | storeData i r => rw [hsrv] at hplace; exact hplace.elim
    | storeHandler i r => rw [hsrv] at hplace; exact hplace.elim
    | _ => rfl
  · exact Or.inr ⟨hcur, hfills hplace, hparams⟩

theorem Inv.serverStep : ∃ log' cur', Inv c log' cur' (s.serverStep flags mask sent) := by
  unfold State.serverStep
  split
  · rename_i i r m hpc hcur
    exact ⟨log, cur, h.fill hpc hcur⟩
  · rename_i hno
    by_cases hstore : ∃ i r, s.ring.server = .storeHandler i r
    · obtain ⟨i, r, hpc⟩ := hstore
      obtain ⟨log', h'⟩ := h.store flags mask sent hpc
      exact ⟨log', none, h'⟩
    · refine ⟨log, cur, h.moveServer flags mask sent (fun i r hpc => hstore ⟨i, r, hpc⟩) ?_⟩
      intro i r m hpc hcur
      exact hno i r m hpc hcur

theorem Inv.moveDispatcher (hpc : ∀ i hd tid d, s.ring.dispatcher ≠ .running i hd tid d) :
    ∃ c', Inv c' log cur { s with ring := s.ring.dispatcherStep } := by
  obtain ⟨hstored, hreturned, hsrv⟩ := dispatcherStep_frame hpc
  obtain ⟨c', hring⟩ := h.ring.dispatcherStep
  refine ⟨c', h.moveRing hring hstored hreturned ?_ (fun hne => ?_) s.devIds⟩
  · rcases hsrv with hsrv | hsrv <;> rw [hsrv]
    · exact h.server
    · exact h.server.receive
  · obtain ⟨i, hd, tid, d, hrun⟩ := h.running hne
    exact absurd hrun (hpc i hd tid d)

theorem Inv.progress (hpc : s.ring.dispatcher = .running i hd tid d)
    (hp : HandlerKnows log s.executed.length (some p)) :
    Inv c log cur { s with handler := some p } :=
  ⟨h.ring, h.received, h.stored, h.params, h.returned, h.server, hp,
    fun _ => ⟨i, hd, tid, d, hpc⟩, h.executed⟩

omit h in
theorem Message.length_ids (m : Message) : m.ids.length = m.params.toRead := by
  obtain ⟨caller, request, extra⟩ := m
  cases request with
  | register devs => simp [Message.ids, Message.params, Params.toRead, length_flatMap,
      Nat.mul_comm]
  | _ => rfl

theorem Inv.finish (hpc : s.ring.dispatcher = .running i hd tid d) (hp : s.handler = some p) :
    Inv c log cur { s with
      ring := s.ring.dispatcherStep
      handler := none
      executed := s.executed ++ [⟨hd, tid, p.params, p.ids⟩] } := by
  obtain ⟨m, hm, rfl, rfl, hparams, -⟩ := h.knows hpc hp
  have hlt : s.executed.length < log.length := (List.getElem?_eq_some_iff.1 hm).1
  have hring := h.ring.finish hpc
  have hstep : s.ring.dispatcherStep = { s.ring with
      dispatcher := .clear i, returned := s.ring.returned ++ [(i, ⟨m.handler, m.caller, d⟩)] } := by
    unfold dispatcherStep
    rw [hpc]
  have hheld := h.params.pop hlt ringLen_pos (b := s.params (s.executed.length % ringLen)) trivial
  rw [hstep]
  refine ⟨hring, h.received, h.stored, ?_, ?_, h.server, trivial, fun hne => absurd rfl hne, ?_⟩
  · simp_all
  · simp [length_append, h.returned]
  · rw [map_append]
    refine Traces.prefix_snoc h.executed ?_
    rw [length_map, getElem?_map, hm]
    simp only [map_some, Message.command, Executed.command, hparams]

theorem Inv.dispatcherStep : ∃ c', Inv c' log cur s.dispatcherStep := by
  unfold State.dispatcherStep
  split
  · rename_i i hd tid d hpc
    cases hp : s.handler with
    | none =>
      obtain ⟨m, hm, -, -, hparams⟩ := h.running_eq hpc
      exact ⟨c, h.progress hpc ⟨m, hm, hparams, Nat.zero_le _⟩⟩
    | some p =>
      obtain ⟨m, hm, -, -, hown, -⟩ := h.knows hpc hp
      dsimp only
      split_ifs with hread
      · refine ⟨c, h.progress hpc ⟨m, hm, hown, ?_⟩⟩
        rw [hown, ← m.length_ids] at hread
        rw [length_append]
        exact hread
      · exact ⟨c, h.finish hpc hp⟩
  · rename_i hno
    exact h.moveDispatcher hno

theorem Inv.dispatch :
    ∃ c', Inv c' log cur { s with ring := s.ring.step flags mask .dispatch } := by
  obtain ⟨c', hring⟩ := h.ring.step flags mask .dispatch
  unfold step at hring ⊢
  cases hpc : s.ring.dispatcher with
  | idle =>
    rw [hpc] at hring
    refine ⟨c', h.moveRing hring rfl rfl h.server (fun hne => ?_) s.devIds⟩
    obtain ⟨i, hd, tid, d, hrun⟩ := h.running hne
    rw [hpc] at hrun
    cases hrun
  | _ =>
    rw [hpc] at hring
    exact ⟨c', h.moveRing hring rfl rfl h.server (fun _ => rfl) s.devIds⟩

end Inv

def Good : Prop := ∃ c log cur, Inv c log cur s

theorem good_step (flags mask : BitVec 32) (s : State) (a : Action) (h : Good s) :
    Good (s.step flags mask a) := by
  obtain ⟨c, log, cur, h⟩ := h
  cases a with
  | receive m =>
    obtain ⟨c', cur', h'⟩ := h.receive flags mask m
    exact ⟨c', log, cur', h'⟩
  | server sent =>
    obtain ⟨log', cur', h'⟩ := h.serverStep flags mask sent
    exact ⟨c, log', cur', h'⟩
  | dispatch =>
    obtain ⟨c', h'⟩ := h.dispatch flags mask
    exact ⟨c', log, cur, h'⟩
  | dispatcher =>
    obtain ⟨c', h'⟩ := h.dispatcherStep
    exact ⟨c', log, cur, h'⟩
  | irqStatus word =>
    have hring : CmdRing.Inv c { s.ring with irqStatus := word } := h.ring.moveServer h.ring.server
    exact ⟨c, log, cur, h.moveRing hring rfl rfl h.server (fun _ => rfl) s.devIds⟩
  | irqPending b =>
    have hring : CmdRing.Inv c { s.ring with irqPending := b } := h.ring.moveServer h.ring.server
    exact ⟨c, log, cur, h.moveRing hring rfl rfl h.server (fun _ => rfl) s.devIds⟩

variable {s}

theorem Good.orderly (h : Good s) : s.Orderly := by
  obtain ⟨c, log, cur, h⟩ := h
  unfold State.Orderly
  rw [h.received, map_append]
  exact h.executed.trans (prefix_append ..)

theorem Good.running (h : Good s) {p : Progress} (hp : s.handler = some p) :
    ∃ m, s.received[s.executed.length]? = some m ∧ p.params.toRead = m.ids.length ∧
      (∃ i d, s.ring.dispatcher = .running i m.handler m.caller d) ∧ p.params = m.params ∧
      p.ids.length ≤ m.ids.length := by
  obtain ⟨c, log, cur, h⟩ := h
  obtain ⟨i, hd, tid, d, hpc⟩ := h.running (by rw [hp]; exact some_ne_none p)
  obtain ⟨m, hm, rfl, rfl, hparams, hlen⟩ := h.knows hpc hp
  exact ⟨m, Traces.getElem?_of_prefix h.log_prefix hm, by rw [hparams, m.length_ids], ⟨i, d, hpc⟩,
    hparams, hlen⟩

theorem frame_of_ne_dispatcher (flags mask : BitVec 32) (s : State) {a : Action}
    (ha : a ≠ .dispatcher) :
    (s.step flags mask a).executed = s.executed ∧ (s.step flags mask a).handler = s.handler ∧
      s.received <+: (s.step flags mask a).received := by
  cases a with
  | receive m =>
    simp only [State.step, State.receive]
    split
    · split_ifs
      · exact ⟨rfl, rfl, prefix_append ..⟩
      · exact ⟨rfl, rfl, prefix_rfl⟩
    · exact ⟨rfl, rfl, prefix_rfl⟩
    · exact ⟨rfl, rfl, prefix_rfl⟩
  | server sent =>
    simp only [State.step, State.serverStep]
    split <;> exact ⟨rfl, rfl, prefix_rfl⟩
  | dispatcher => exact absurd rfl ha
  | _ => exact ⟨rfl, rfl, prefix_rfl⟩

theorem State.Correct.of_frame {s' : State} (h : s.Correct) (hexec : s'.executed = s.executed)
    (hhandler : s'.handler = s.handler) (hrec : s.received <+: s'.received) : s'.Correct := by
  constructor
  · rw [hexec]
    exact h.executed.trans (hrec.map Message.expected)
  · intro p hp
    rw [hhandler] at hp
    obtain ⟨m, hm, hids⟩ := h.running p hp
    rw [hexec]
    exact ⟨m, Traces.getElem?_of_prefix hrec hm, hids⟩

theorem correct_read_iff (h : s.Correct) {p : Progress} (hp : s.handler = some p) (x : BitVec 16) :
    State.Correct { s with handler := some ⟨p.params, p.ids ++ [x]⟩ } ↔
      ∃ m, s.received[s.executed.length]? = some m ∧ m.ids[p.ids.length]? = some x := by
  obtain ⟨m, hm, hids⟩ := h.running p hp
  constructor
  · intro h'
    obtain ⟨m', hm', t, ht⟩ := h'.running _ rfl
    refine ⟨m', hm', ?_⟩
    rw [← ht]
    simp
  · rintro ⟨m', hm', hx⟩
    obtain rfl : m = m' := some.inj (hm.symm.trans hm')
    refine ⟨h.executed, fun q hq => ?_⟩
    obtain rfl := some.inj hq
    exact ⟨m, hm, Traces.prefix_snoc hids hx⟩

theorem correct_dispatcherStep_iff (hgood : Good s) (h : s.Correct) :
    s.dispatcherStep.Correct ↔ s.ReadsOwn .dispatcher := by
  cases hp : s.handler with
  | none =>
    -- no handler runs, or one reads its parameters
    have hown : s.ReadsOwn .dispatcher := by
      intro p hp'
      rw [hp] at hp'
      cases hp'
    refine iff_of_true ?_ hown
    unfold State.dispatcherStep
    split
    · rename_i i hd tid d hpc
      rw [hp]
      refine ⟨h.executed, fun p hp' => ?_⟩
      obtain rfl := some.inj hp'
      obtain ⟨c, log, cur, hinv⟩ := hgood
      obtain ⟨m, hm, -⟩ := hinv.running_eq hpc
      exact ⟨m, Traces.getElem?_of_prefix hinv.log_prefix hm, nil_prefix⟩
    · exact h.of_frame rfl rfl prefix_rfl
  | some p =>
    obtain ⟨m, hm, hread, ⟨i, d, hpc⟩, hparams, -⟩ := hgood.running hp
    obtain ⟨m', hm', hids⟩ := h.running p hp
    obtain rfl : m = m' := some.inj (hm.symm.trans hm')
    have hown : s.ReadsOwn .dispatcher ↔ (p.ids.length < p.params.toRead →
        ∃ m, s.received[s.executed.length]? = some m ∧
          m.ids[p.ids.length]? = some (s.devIds p.ids.length)) := by
      simp only [State.ReadsOwn, hp, some.injEq, forall_eq']
    rw [hown]
    unfold State.dispatcherStep
    rw [hpc, hp]
    dsimp only
    split_ifs with hlt
    · rw [correct_read_iff h hp]
      exact ⟨fun h _ => h, fun h => h hlt⟩
    · -- all fields have been read
      refine iff_of_true ⟨?_, fun q hq => by cases hq⟩ fun h => absurd h hlt
      have hall : p.ids = m.ids := hids.eq_of_length_le (by rw [← hread]; exact not_lt.1 hlt)
      refine Traces.prefix_snoc h.executed ?_
      rw [getElem?_map, hm, hall, hparams]
      rfl

theorem correct_step_iff (flags mask : BitVec 32) (hgood : Good s) (h : s.Correct) (a : Action) :
    (s.step flags mask a).Correct ↔ s.ReadsOwn a := by
  by_cases ha : a = .dispatcher
  · subst ha
    exact correct_dispatcherStep_iff hgood h
  · obtain ⟨hexec, hhandler, hrec⟩ := frame_of_ne_dispatcher flags mask s ha
    have hown : s.ReadsOwn a := by
      cases a with
      | dispatcher => exact absurd rfl ha
      | _ => trivial
    exact iff_of_true (h.of_frame hexec hhandler hrec) hown

def Kept (s : State) : Prop :=
  ∀ m ∈ s.received.drop s.executed.length, ∀ j x, m.ids[j]? = some x → s.devIds j = x

variable {m : Message}

theorem overwrite_ids (hfits : m.string.length ≤ bufLen) (devIds : ℕ → BitVec 16) {j : ℕ}
    {x : BitVec 16} (hx : m.ids[j]? = some x) : overwrite devIds m.string j = x := by
  have hstring : m.string = m.ids := by
    obtain ⟨caller, request, extra⟩ := m
    cases request with
    | register devs => rfl
    | _ => cases hx
  rw [overwrite, take_of_length_le hfits, hstring, hx]
  rfl

theorem Kept.overwrite (h : Kept s)
    (hfree : m.string ≠ [] → ∀ m' ∈ s.received.drop s.executed.length, m'.ids = []) :
    ∀ m' ∈ s.received.drop s.executed.length, ∀ j x, m'.ids[j]? = some x →
      overwrite s.devIds m.string j = x := by
  intro m' hm' j x hx
  by_cases hnil : m.string = []
  · rw [hnil]
    exact h m' hm' j x hx
  · simp_all

theorem kept_receive (flags mask : BitVec 32) (h : Kept s) (hex : s.Exclusive (.receive m))
    (hlen : s.executed.length ≤ s.received.length) : Kept (s.receive flags mask m) := by
  unfold State.receive
  cases hpc : s.ring.server with
  | idle =>
    have hold := h.overwrite (hex (Or.inl hpc))
    split_ifs with hfits
    · intro m' hm' j x hx
      rw [drop_append_of_le_length hlen] at hm'
      rcases mem_append.1 hm' with hm' | hm'
      · exact hold m' hm' j x hx
      · obtain rfl := mem_singleton.1 hm'
        exact overwrite_ids hfits s.devIds hx
    · exact hold
  | waiting i r => exact h.overwrite (hex (Or.inr ⟨i, r, hpc⟩))
  | _ => exact h

theorem kept_step (flags mask : BitVec 32) (hgood : Good s) (h : Kept s) {a : Action}
    (hex : s.Exclusive a) : Kept (s.step flags mask a) := by
  cases a with
  | receive m =>
    have hlen : s.executed.length ≤ s.received.length := by
      simpa using hgood.orderly.length_le
    exact kept_receive flags mask h hex hlen
  | server sent =>
    simp only [State.step, State.serverStep]
    split <;> exact h
  | dispatcher =>
    simp only [State.step, State.dispatcherStep]
    split
    · split
      · exact h
      · split_ifs
        · exact h
        · -- one handler has returned, the others still wait
          intro m hm
          refine h m (drop_subset_drop_left _ ?_ hm)
          simp
    · exact h
  | _ => exact h

theorem Kept.readsOwn (hgood : Good s) (h : Kept s) (a : Action) : s.ReadsOwn a := by
  cases a with
  | dispatcher =>
    intro p hp hlt
    obtain ⟨m, hm, hread, -⟩ := hgood.running hp
    rw [hread] at hlt
    refine ⟨m, hm, ?_⟩
    have hx := getElem?_eq_getElem hlt
    have hmem : m ∈ s.received.drop s.executed.length := by
      rw [mem_iff_getElem?]
      exact ⟨0, by rw [getElem?_drop, Nat.add_zero, hm]⟩
    rw [h m hmem _ _ hx]
    exact hx
  | _ => trivial

section Runs

variable (flags mask : BitVec 32) (nilthread : Word) (data : ℕ → ℕ) (params : ℕ → Params)
  (devIds : ℕ → BitVec 16)

theorem good_init : Good (State.init nilthread data params devIds) :=
  ⟨0, [], none, inv_init nilthread data params devIds⟩

theorem correct_init : (State.init nilthread data params devIds).Correct :=
  ⟨prefix_rfl, fun _ hp => by cases hp⟩

theorem correct_run_iff (as : List Action) :
    (∀ pre, pre <+: as →
      (run (State.step flags mask) (State.init nilthread data params devIds) pre).Correct) ↔
    Runs.Guarded (State.step flags mask) State.ReadsOwn (State.init nilthread data params devIds)
      as :=
  forall_prefix_iff_guarded (A := fun _ => True) (I := Good)
    (Q := fun s _ => s.Correct) (fun s a _ h => good_step flags mask s a h)
    (fun _ _ a hgood _ _ h => correct_step_iff flags mask hgood h a)
    (good_init nilthread data params devIds) (correct_init nilthread data params devIds)
    fun _ _ => trivial

/-- **Deferred commands** are carried out in order, each for its caller and with its parameters.
Register commands get the device ids that were sent if no string is received while a register
request is pending, and exactly when each field is read while it is in the buffer. -/
theorem orderly_and_correct_iff (as : List Action) :
    (∀ pre, pre <+: as →
      (run (State.step flags mask) (State.init nilthread data params devIds) pre).Orderly) ∧
    ((∀ pre, pre <+: as →
      (run (State.step flags mask) (State.init nilthread data params devIds) pre).Correct) ↔
      Runs.Guarded (State.step flags mask) State.ReadsOwn
        (State.init nilthread data params devIds) as) ∧
    (Runs.Guarded (State.step flags mask) State.Exclusive
        (State.init nilthread data params devIds) as →
      ∀ pre, pre <+: as →
        (run (State.step flags mask) (State.init nilthread data params devIds)
          pre).Correct) := by
  refine ⟨fun pre _ => ?_, correct_run_iff flags mask nilthread data params devIds as,
    fun hex => ?_⟩
  · exact (run_invariant_of_forall (good_step flags mask)
      (good_init nilthread data params devIds) pre).orderly
  · refine (correct_run_iff flags mask nilthread data params devIds as).2 ?_
    have hkept : Kept (State.init nilthread data params devIds) := fun m hm => by cases hm
    exact guarded_of_guarded (I := fun s => Good s ∧ Kept s)
      (fun s a hs ha => ⟨good_step flags mask s a hs.1, kept_step flags mask hs.1 hs.2 ha⟩)
      (fun s a hs _ => hs.2.readsOwn hs.1 a)
      ⟨good_init nilthread data params devIds, hkept⟩ hex

end Runs

def oneDevice (caller : Word) (vendorId deviceId : BitVec 16) : Message :=
  ⟨caller, .register [⟨vendorId, deviceId⟩], []⟩

def twoRegistrations : List Action :=
  .receive (oneDevice 1 0x8086 0x100e) :: replicate 8 (.server true) ++
  .receive (oneDevice 2 0x10ec 0x8139) :: replicate 8 (.server true) ++
  .dispatch :: replicate 20 .dispatcher

def emptyServer : State := State.init 0 (fun _ => 0) (fun _ => .deregister 0) fun _ => 0

theorem not_correct_twoRegistrations :
    (run (State.step 1 1) emptyServer twoRegistrations).executed =
      [⟨.register, 1, .register 1, [0x10ec, 0x8139]⟩] ∧
    (run (State.step 1 1) emptyServer twoRegistrations).received.map Message.expected =
      [⟨.register, 1, .register 1, [0x8086, 0x100e]⟩,
        ⟨.register, 2, .register 1, [0x10ec, 0x8139]⟩] ∧
    ¬ (run (State.step 1 1) emptyServer twoRegistrations).Correct := by
  refine ⟨by decide +kernel, by decide +kernel, fun h => ?_⟩
  have hprefix := h.executed
  revert hprefix
  decide +kernel

end DriverReuse.PciCommands
