import Afterburner.DriverReuse.BlockRuns

/-!
# Descriptors without a connection

The server looks the handle of a connection up twice, and connections come and go in between.
-/
variable (c : Config) (d s : State)

namespace DriverReuse.Block
open Function List Runs

def maxDevices : ℕ := 16

structure Served where
  ring : State
  conns : ℕ → Option ℕ

namespace Served

def connLookup (conns : ℕ → Option ℕ) (handle : ℕ) : Option ℕ :=
  if handle < maxDevices then conns handle else none

def own (self : ℕ) (conns : ℕ → Option ℕ) (handle : ℕ) : Bool :=
  connLookup conns handle = some self

def config (self : ℕ) (conns : ℕ → Option ℕ) : Config :=
  { c with live := own self conns }

def foreign (self : ℕ) (d : Served) (b : ℕ) (finished : Bool) : Bool :=
  finished && match (d.ring.bios b).biPrivate with
    | none => false
    | some k =>
      match connLookup d.conns (d.ring.descRing k).handle with
      | none => false
      | some client => client ≠ self

def allocateConnHandle (conns : ℕ → Option ℕ) : Option ℕ :=
  (range maxDevices).find? fun i => (conns i).isNone

inductive Op
  | submit (x : Sub)
  | pick
  | initiate
  | endIo (b : ℕ) (err finished : Bool)
  | reap
  | attach (client : ℕ)
  | detach (handle : ℕ)

def step (self : ℕ) (d : Served) : Op → Served
  | .submit x =>
    if State.ringAvailable c d.ring.client > 0 then { d with ring := d.ring.processRequest c x }
    else d
  | .pick =>
    match d.ring.picked with
    | none => { d with ring := d.ring.processIoQueue c }
    | some _ => d
  | .initiate =>
    match d.ring.picked with
    | none => d
    | some k => { d with ring := d.ring.processPicked (config c self d.conns) k }
  | .endIo b err finished =>
    if d.ring.inFlight b then
      { d with
        ring := (d.ring.endIo (config c self d.conns) b err finished).check
          (!foreign self d b finished) }
    else d
  | .reap => if d.ring.canReap then { d with ring := d.ring.reap c } else d
  | .attach client =>
    match allocateConnHandle d.conns with
    | some handle => { d with conns := update d.conns handle (some client) }
    | none => d
  | .detach handle =>
    if (connLookup d.conns handle).isSome then
      { d with conns := update d.conns handle none }
    else d

end Served

/-- **What is asked of the server.** -/
structure Robust : Prop where
  /-- No assertion on `server_owned` has failed, and no null pointer was followed. -/
  noFault : s.fault = false
  returned : ∀ p, s.reaped.length ≤ p → p < s.subs.length → (s.desc c p).serverOwned = true →
    ∀ b, s.bioAt c p = some b → s.inFlight b = true
  answered : ∀ p, s.reaped.length ≤ p → p < s.subs.length → (s.desc c p).serverOwned = false →
    (s.desc c p).serverErr = true ∨
      ∃ b, s.done[p]? = some b ∧ (s.desc c p).tag = b.tag ∧ (s.desc c p).serverErr = b.failed
  /-- `start_dirty` of the server is where the client is when it has reaped all it can. -/
  cursor : (s.finishTransfers c c.cnt).client.startDirty = s.server.startDirty
  own : ∀ (i : ℕ) (r : Reaped), s.reaped[i]? = some r →
    ∃ b x, s.done[i]? = some b ∧ s.subs[r.tag]? = some x ∧ r.Of c b x
  endedReaped : (s.finishTransfers c c.cnt).reaped.map Reaped.tag = s.done.map Bio.tag
  pickedUp : s.picked = none →
    (∃ p, s.reaped.length ≤ p ∧ p < s.subs.length ∧ (s.desc c p).serverOwned = true ∧
      s.bioAt c p = none) → (s.processIoQueue c).picked.isSome = true

namespace Served

def Ok (self : ℕ) (d : Served) : Op → Prop
  | .initiate => ∀ k, d.ring.picked = some k →
    own self d.conns (d.ring.descRing k).handle = true ∨ k ≠ d.ring.server.startDirty
  | .endIo b _ finished => finished = true → d.ring.inFlight b = true →
    ∀ k, (d.ring.bios b).biPrivate = some k →
      own self d.conns (d.ring.descRing k).handle = true ∧
        ((d.ring.server.startDirty + 1) % c.cnt = d.ring.client.startFree ∨
          (d.ring.descRing ((d.ring.server.startDirty + 1) % c.cnt)).serverOwned = true)
  | _ => True

end Served

theorem finishTransfers_spec (fuel : ℕ) {s : State} {r n : ℕ}
    (hdirty : s.client.startDirty = r % c.cnt) (hfree : s.client.startFree = n % c.cnt)
    (hle : r ≤ n) (hlt : n < r + c.cnt) :
    ∃ r', r ≤ r' ∧ r' ≤ n ∧ (s.finishTransfers c fuel).client.startDirty = r' % c.cnt ∧
      (∀ m, m ≤ n → m ≤ r + fuel →
        (∀ p, r ≤ p → p < m → (s.desc c p).serverOwned = false) → m ≤ r') ∧
      (∀ p, r ≤ p → p < r' → (s.desc c p).serverOwned = false) ∧
      (s.finishTransfers c fuel).reaped.map Reaped.tag =
        s.reaped.map Reaped.tag ++ (range' r (r' - r)).map fun p => (s.desc c p).tag := by
  induction fuel generalizing s r with
  | zero =>
    refine ⟨r, le_rfl, hle, hdirty, fun m _ hm _ => hm, fun p hp hp' => ?_, ?_⟩
    · omega
    · simp [State.finishTransfers]
  | succ fuel ih =>
    rw [State.finishTransfers]
    have hr : Ring.InWindow c.cnt r r := ⟨le_rfl, by omega⟩
    have hn : Ring.InWindow c.cnt r n := ⟨hle, hlt⟩
    have hcan : s.canReap = true ↔ r ≠ n ∧ (s.desc c r).serverOwned = false := by
      have hview : s.descRing (r % c.cnt) = s.desc c r := rfl
      simp only [State.canReap, hdirty, hfree, hview, decide_eq_true_eq, ne_eq,
        Ring.mod_eq_iff hr hn]
    split_ifs with hc
    · obtain ⟨hne, howned⟩ := hcan.1 hc
      have hdesc : ∀ p, (s.reap c).desc c p = s.desc c p := fun _ => rfl
      have hdirty' : (s.reap c).client.startDirty = (r + 1) % c.cnt := by
        simp only [State.reap, hdirty, Ring.succ_mod]
      obtain ⟨r', hrr', hrn', hd', hmax, hall, htags⟩ :=
        ih (s := s.reap c) (r := r + 1) hdirty' hfree (by omega) (by omega)
      simp only [hdesc] at hmax hall htags
      refine ⟨r', by omega, hrn', hd', fun m hm hm' hp => ?_, fun p hp hp' => ?_, ?_⟩
      · exact hmax m hm (by omega) fun p hp' => hp p (by omega)
      · rcases hp.eq_or_lt with rfl | hlt'
        · exact howned
        · exact hall p hlt' hp'
      · have htag : (s.reap c).reaped.map Reaped.tag =
            s.reaped.map Reaped.tag ++ [(s.desc c r).tag] := by
          simp only [State.reap, hdirty, map_append, map_cons, map_nil]
          rfl
        have hcount : r' - r = (r' - (r + 1)) + 1 := by omega
        rw [htags, htag, hcount, range'_succ, map_cons, append_assoc,
          singleton_append]
    · have hstop : ¬ (r ≠ n ∧ (s.desc c r).serverOwned = false) := fun h => hc (hcan.2 h)
      refine ⟨r, le_rfl, hle, hdirty, fun m hm _ hp => ?_, fun p hp hp' => by omega, by simp⟩
      by_contra hlt'
      exact hstop ⟨by omega, hp r le_rfl (by omega)⟩

def Desc.refuse (d : Desc) : Desc := { d with serverErr := true, serverOwned := false }

structure Same : Prop where
  dmaVec : d.dmaVec = s.dmaVec
  shadowRing : d.shadowRing = s.shadowRing
  client : d.client = s.client
  server : d.server = s.server
  picked : d.picked = s.picked
  fault : d.fault = s.fault
  subs : d.subs = s.subs
  done : d.done = s.done
  reaped : d.reaped = s.reaped

structure Rel (refused : Finset ℕ) (name : ℕ → ℕ) (d s : State) : Prop extends Same d s where
  desc : ∀ k, d.descRing k = if k ∈ refused then (s.descRing k).refuse else s.descRing k
  bioRing : ∀ k, k ∉ refused → s.bioRing k = (d.bioRing k).map name
  refusedRing : ∀ k ∈ refused, d.bioRing k = none ∧ ∀ b < d.nrBios, s.bioRing k ≠ some (name b)
  bio_lt : ∀ k b, d.bioRing k = some b → b < d.nrBios
  bios : ∀ b < d.nrBios, d.bios b = s.bios (name b)
  inFlight : ∀ b < d.nrBios, d.inFlight b = s.inFlight (name b)
  flight_lt : ∀ b, d.inFlight b = true → b < d.nrBios
  name_lt : ∀ b < d.nrBios, name b < s.nrBios
  name_inj : ∀ a < d.nrBios, ∀ b < d.nrBios, name a = name b → a = b
  slot_lt : ∀ k b, s.bioRing k = some b → b < s.nrBios

namespace Rel

variable {refused : Finset ℕ} {name : ℕ → ℕ} {d s} (h : Rel refused name d s)
include h

variable {k : ℕ}

theorem descRing_of_notMem (hk : k ∉ refused) : d.descRing k = s.descRing k := by
  rw [h.desc, if_neg hk]

theorem check (b : Bool) : Rel refused name (d.check b) (s.check b) :=
  { h with fault := by rw [State.check, State.check, h.fault] }

theorem processRequest (x : Sub) (hk : s.client.startFree ∉ refused) :
    Rel refused name (d.processRequest c x) (s.processRequest c x) := by
  have hdesc := h.descRing_of_notMem hk
  refine { h with shadowRing := ?_, client := ?_, fault := ?_, subs := ?_, desc := fun j => ?_ } <;>
    simp only [State.processRequest, State.check, update_apply, h.client, h.shadowRing,
      h.fault, h.subs, hdesc]
  grind [h.desc j]

theorem processIoQueue (hk : s.server.startFree ∉ refused) :
    Rel refused name (d.processIoQueue c) (s.processIoQueue c) := by
  have hdesc := h.descRing_of_notMem hk
  have hsome : (s.bioRing s.server.startFree).isSome = (d.bioRing s.server.startFree).isSome := by
    rw [h.bioRing _ hk, Option.isSome_map]
  unfold State.processIoQueue
  simp only [h.server, hdesc, hsome]
  split_ifs with hskip
  · exact h
  · exact { h with server := rfl, picked := rfl }

theorem initiateIo (hk : k ∉ refused) :
    Rel refused (update name d.nrBios s.nrBios) (d.initiateIo c k)
      (s.initiateIo c k) := by
  have hdesc := h.descRing_of_notMem hk
  have hcases : ∀ b < d.nrBios + 1, b < d.nrBios ∨ b = d.nrBios := fun b hb => by omega
  have hsame : Same (d.initiateIo c k) (s.initiateIo c k) := { h.toSame with picked := rfl }
  refine { hsame with desc := h.desc, bioRing := fun j hj => ?_, refusedRing := fun j hj => ?_,
                      bio_lt := fun j b => ?_, bios := fun b hb => ?_, inFlight := fun b hb => ?_,
                      flight_lt := fun b => ?_, name_lt := fun b hb => ?_,
                      name_inj := fun a ha b hb => ?_, slot_lt := fun j b => ?_ } <;>
    simp only [State.initiateIo, update_apply]
  · cases hb : d.bioRing j <;> grind [h.bioRing j hj, → h.bio_lt]
  · grind [→ h.refusedRing, → h.slot_lt]
  · grind [→ h.bio_lt]
  · rcases hcases b hb with hb | rfl <;> grind [→ h.bios, → h.name_lt, h.dmaVec, State.ioVec]
  · rcases hcases b hb with hb | rfl <;> grind [→ h.inFlight, → h.name_lt]
  · grind [→ h.flight_lt]
  · rcases hcases b hb with hb | rfl <;> grind [→ h.name_lt]
  · rcases hcases a ha with ha | rfl <;> rcases hcases b hb with hb | rfl <;>
      grind [→ h.name_lt, → h.name_inj]
  · grind [→ h.slot_lt]

theorem refuse (hk : k ∉ refused) (hbio : d.bioRing k = none) :
    Rel (insert k refused) name
      { d with descRing := update d.descRing k (d.descRing k).refuse, picked := none }
      (s.initiateIo c k) := by
  have hsame : Same { d with
      descRing := update d.descRing k (d.descRing k).refuse, picked := none }
      (s.initiateIo c k) := { h.toSame with picked := rfl }
  refine { hsame with desc := fun j => ?_, bioRing := fun j hj => ?_,
                      refusedRing := fun j hj => ⟨?_, fun b => ?_⟩, bio_lt := h.bio_lt,
                      bios := fun b => ?_, inFlight := fun b => ?_, flight_lt := h.flight_lt,
                      name_lt := fun b => ?_, name_inj := h.name_inj,
                      slot_lt := fun j b => ?_ } <;>
    simp only [State.initiateIo, update_apply, Finset.mem_insert]
  · grind [h.desc j, Desc.refuse]
  · grind [h.bioRing j]
  · grind [→ h.refusedRing]
  · grind [→ h.refusedRing, → h.name_lt]
  · grind [→ h.bios, → h.name_lt]
  · grind [→ h.inFlight, → h.name_lt]
  · grind [→ h.name_lt]
  · grind [→ h.slot_lt]

theorem noteErr {b : ℕ} (hb : b < d.nrBios) (hk : k ∉ refused) (err : Bool) :
    Rel refused name (d.noteErr b k err) (s.noteErr (name b) k err) := by
  cases err with
  | false => exact h
  | true =>
    refine { h with desc := fun j => ?_, bios := fun a (ha : a < d.nrBios) => ?_ } <;>
      simp only [State.noteErr, if_true, update_apply]
    · grind [h.desc j, h.desc k]
    · grind [→ h.bios, → h.name_inj]

theorem relocate {f : ℕ} (hk : k ∉ refused) (hf : f ∉ refused) :
    Rel refused name (d.relocate k f) (s.relocate k f) := by
  unfold State.relocate
  rw [h.bioRing f hf]
  cases hb : d.bioRing f with
  | none => exact h.check false
  | some b =>
    have hlt := h.bio_lt f b hb
    refine { h with desc := fun j => ?_, bioRing := fun j hj => ?_, refusedRing := fun j hj => ?_,
                    bio_lt := fun j a => ?_, bios := fun a => ?_, slot_lt := fun j a => ?_ } <;>
      simp only [Option.map_some, update_apply]
    · grind [h.desc j, h.desc k, h.desc f]
    · grind [h.bioRing j]
    · grind [→ h.refusedRing]
    · grind [→ h.bio_lt]
    · grind [→ h.bios, → h.name_inj]
    · grind [→ h.slot_lt, → h.name_lt]

theorem release {f : ℕ} (hf : f ∉ refused) : Rel refused name (d.release c f) (s.release c f) := by
  refine { h with server := ?_, desc := fun j => ?_, bioRing := fun j hj => ?_,
                  refusedRing := fun j hj => ?_, bio_lt := fun j b => ?_,
                  slot_lt := fun j b => ?_ } <;>
    simp only [State.release, update_apply]
  · rw [h.server]
  · grind [h.desc j, h.desc f]
  · grind [h.bioRing j]
  · grind [→ h.refusedRing]
  · grind [→ h.bio_lt]
  · grind [→ h.slot_lt]

theorem complete (hk : k ∉ refused) (hf : s.server.startDirty ∉ refused) :
    Rel refused name (d.complete c k) (s.complete c k) := by
  unfold State.complete
  dsimp only
  rw [h.server, h.descRing_of_notMem hf]
  have hcheck := h.check (s.descRing s.server.startDirty).serverOwned
  split_ifs
  · exact (hcheck.relocate hk hf).release c hf
  · exact hcheck.release c hf

theorem putBio {b : ℕ} (hb : b < d.nrBios) :
    Rel refused name (d.putBio b) (s.putBio (name b)) := by
  refine { h with done := ?_, bios := fun a => ?_, inFlight := fun a => ?_,
                  flight_lt := fun a => ?_ } <;>
    simp only [State.putBio, update_apply, h.bios b hb]
  · rw [h.done]
  · grind [→ h.bios, → h.name_inj]
  · grind [→ h.inFlight, → h.name_inj]
  · grind [→ h.flight_lt]

theorem reap (hk : s.client.startDirty ∉ refused) : Rel refused name (d.reap c) (s.reap c) := by
  have hdesc := h.descRing_of_notMem hk
  refine { h with shadowRing := ?_, client := ?_, reaped := ?_ } <;>
    simp only [State.reap, h.client, h.shadowRing, h.reaped, hdesc]

end Rel

def Config.trusting : Config := { c with live := fun _ => true }

theorem State.done_processIoQueue : (s.processIoQueue c).done = s.done := by
  unfold State.processIoQueue
  dsimp only
  split_ifs <;> rfl

theorem State.complete_frame (k : ℕ) :
    (s.complete c k).done = s.done ∧ (s.complete c k).subs = s.subs ∧
      (s.complete c k).nrBios = s.nrBios := by
  unfold State.complete State.relocate
  dsimp only
  split_ifs
  · split <;> exact ⟨rfl, rfl, rfl⟩
  · exact ⟨rfl, rfl, rfl⟩

structure Follows (st : ℕ) (refused : Finset ℕ) (name : ℕ → ℕ) :
    Prop where
  rel : Rel refused name d s
  inv : Inv c.trusting s st
  slots : ∀ k ∈ refused, ∃ p, s.done.length ≤ p ∧ p < st ∧ p % c.cnt = k

def Tame : Prop :=
  ∃ s st refused name, Follows c d s st refused name ∧ s.done.length % c.cnt ∉ refused

namespace Follows

variable {c} {d s} {st : ℕ} {refused : Finset ℕ} {name : ℕ → ℕ} (h : Follows c d s st refused name)
include h

theorem order : s.reaped.length ≤ s.done.length ∧ s.done.length ≤ st ∧ st ≤ s.subs.length ∧
    s.subs.length < s.reaped.length + c.cnt :=
  ⟨h.inv.le_done, h.inv.le_started, h.inv.le_subs, h.inv.lt_window⟩

theorem clientDirty : d.client.startDirty = s.reaped.length % c.cnt := by
  rw [h.rel.client]
  exact h.inv.clientDirty

theorem clientFree : d.client.startFree = s.subs.length % c.cnt := by
  rw [h.rel.client]
  exact h.inv.clientFree

theorem serverDirty : d.server.startDirty = s.done.length % c.cnt := by
  rw [h.rel.server]
  exact h.inv.serverDirty

theorem next_eq : (d.server.startDirty + 1) % c.cnt = (s.done.length + 1) % c.cnt := by
  rw [h.serverDirty, Ring.succ_mod]

theorem notMem {q : ℕ} (hq : s.reaped.length ≤ q)
    (hq' : q < s.reaped.length + c.cnt) (hst : q < s.done.length ∨ st ≤ q) :
    q % c.cnt ∉ refused := by
  intro hmem
  obtain ⟨p, hp, hp', hmod⟩ := h.slots _ hmem
  have hp'' := h.inv.started_inWindow hp hp'
  have := (Ring.mod_eq_iff (a := s.reaped.length) hp'' ⟨hq, hq'⟩).1 hmod
  omega

theorem submit (x : Sub)
    (hfree : State.ringAvailable c d.client > 0) :
    Follows c (d.processRequest c x) (s.processRequest c x) st refused name := by
  obtain ⟨hle'', hle', hle, hwin⟩ := h.order
  refine ⟨h.rel.processRequest c x ?_, h.inv.processRequest rfl ?_, h.slots⟩
  · rw [h.inv.clientFree]
    exact h.notMem (by omega) hwin (.inr hle)
  · rw [h.rel.client] at hfree
    exact hfree

theorem startFree_notMem (hidle : s.picked = none) :
    s.server.startFree ∉ refused := by
  obtain ⟨hle'', hle', hle, hwin⟩ := h.order
  rw [h.inv.startFree_of_idle hidle]
  exact h.notMem (by omega) (lt_of_le_of_lt hle hwin) (.inr le_rfl)

theorem pick (hidle : d.picked = none) :
    Follows c (d.processIoQueue c) (s.processIoQueue c) st refused name := by
  rw [h.rel.picked] at hidle
  refine ⟨h.rel.processIoQueue c (h.startFree_notMem hidle), h.inv.processIoQueue hidle, ?_⟩
  rw [State.done_processIoQueue]
  exact h.slots

theorem of_picked {k : ℕ} (hk : d.picked = some k) :
    s.picked = some k ∧ k = st % c.cnt ∧ st < s.subs.length ∧ k ∉ refused ∧
      d.bioRing k = none := by
  have hwin := h.inv.lt_window
  have hle' := h.inv.le_started
  have hle'' := h.inv.le_done
  rw [h.rel.picked] at hk
  obtain ⟨hk', hlt, -⟩ := h.inv.of_picked hk
  have hnot : k ∉ refused := hk' ▸ h.notMem (by omega) (hlt.trans hwin) (.inr le_rfl)
  refine ⟨hk, hk', hlt, hnot, ?_⟩
  have hnone : s.bioRing k = none := hk' ▸ h.inv.unstarted st le_rfl (hlt.trans hwin)
  rw [h.rel.bioRing k hnot, Option.map_eq_none_iff] at hnone
  exact hnone

theorem initiateIo {k : ℕ} (hk : d.picked = some k) :
    Follows c (d.initiateIo c k) (s.initiateIo c k) (st + 1) refused
      (update name d.nrBios s.nrBios) := by
  obtain ⟨hk, rfl, -, hnot, -⟩ := h.of_picked hk
  refine ⟨h.rel.initiateIo c hnot, h.inv.initiateIo hk, fun j hj => ?_⟩
  obtain ⟨p, hp, hp', hmod⟩ := h.slots j hj
  exact ⟨p, hp, Nat.lt_succ_of_lt hp', hmod⟩

theorem refuse {k : ℕ} (hk : d.picked = some k) :
    Follows c
      { d with descRing := update d.descRing k (d.descRing k).refuse, picked := none }
      (s.initiateIo c k) (st + 1) (insert k refused) name := by
  obtain ⟨hk, rfl, -, hnot, hbio⟩ := h.of_picked hk
  refine ⟨h.rel.refuse c hnot hbio, h.inv.initiateIo hk, fun j hj => ?_⟩
  rcases Finset.mem_insert.1 hj with rfl | hj
  · exact ⟨st, h.inv.le_started, Nat.lt_succ_self st, rfl⟩
  · obtain ⟨p, hp, hp', hmod⟩ := h.slots j hj
    exact ⟨p, hp, Nat.lt_succ_of_lt hp', hmod⟩

section
variable {b : ℕ} (hb : d.inFlight b = true)
include hb

theorem flying :
    b < d.nrBios ∧ ∃ j, FlyingAt c.trusting s st (name b) j ∧ j % c.cnt ∉ refused ∧
      (d.bios b).biPrivate = some (j % c.cnt) := by
  have hlt := h.rel.flight_lt b hb
  obtain ⟨j, hj⟩ := h.inv.flyingAt ((h.rel.inFlight b hlt).symm.trans hb)
  have hnot : j % c.cnt ∉ refused := fun hmem => (h.rel.refusedRing _ hmem).2 b hlt hj.bioAt
  refine ⟨hlt, j, hj, hnot, ?_⟩
  rw [h.rel.bios b hlt]
  exact hj.biPrivate

theorem noteErr {k : ℕ} (hk : (d.bios b).biPrivate = some k) (err : Bool) :
    Follows c (d.noteErr b k err) (s.noteErr (name b) k err) st refused name := by
  obtain ⟨hlt, j, hj, hnot, hpriv⟩ := h.flying hb
  obtain rfl : j % c.cnt = k := Option.some.inj (hpriv.symm.trans hk)
  refine ⟨h.rel.noteErr hlt hnot err, (h.inv.noteErr hj err).1, ?_⟩
  cases err <;> exact h.slots

theorem complete {k : ℕ} (hk : (d.bios b).biPrivate = some k)
    (hfront : s.done.length % c.cnt ∉ refused) :
    ∃ s', Follows c ((d.complete c k).putBio b) s' st refused name ∧
      s'.done.length = s.done.length + 1 ∧ s'.subs = s.subs := by
  obtain ⟨hlt, j, hj, hnot, hpriv⟩ := h.flying hb
  obtain rfl : j % c.cnt = k := Option.some.inj (hpriv.symm.trans hk)
  have hframe := s.complete_frame c (j % c.cnt)
  have hlen : ((s.complete c (j % c.cnt)).putBio (name b)).done.length = s.done.length + 1 := by
    simp only [State.putBio, hframe.1, length_append, length_singleton]
  have hdirty : s.server.startDirty ∉ refused := by
    rw [h.inv.serverDirty]
    exact hfront
  refine ⟨(s.complete c (j % c.cnt)).putBio (name b), ⟨?_, h.inv.putBio_complete hj, ?_⟩, hlen,
    hframe.2.1⟩
  · refine (h.rel.complete c hnot hdirty).putBio ?_
    rwa [(d.complete_frame c _).2.2]
  · intro k hk
    obtain ⟨p, hp, hp', hmod⟩ := h.slots k hk
    have hne : p ≠ s.done.length := by
      rintro rfl
      exact hfront (hmod ▸ hk)
    exact ⟨p, by omega, hp', hmod⟩

end

theorem next_notMem
    (hnext : (d.server.startDirty + 1) % c.cnt = d.client.startFree ∨
      (d.descRing ((d.server.startDirty + 1) % c.cnt)).serverOwned = true) :
    (s.done.length + 1) % c.cnt ∉ refused := by
  obtain ⟨hle'', hle', hle, hwin⟩ := h.order
  rw [h.next_eq, h.clientFree] at hnext
  rcases hnext with hnext | hnext
  · rw [hnext]
    exact h.notMem (by omega) hwin (.inr hle)
  · intro hmem
    rw [h.rel.desc, if_pos hmem] at hnext
    cases hnext

theorem reap (hfront : s.done.length % c.cnt ∉ refused)
    (hcan : d.canReap = true) : Follows c (d.reap c) (s.reap c) st refused name := by
  have hcnt := c.cnt_pos
  have hnot : s.client.startDirty ∉ refused := by
    rw [h.inv.clientDirty]
    rcases h.inv.le_done.eq_or_lt with heq | hlt
    · rw [heq]
      exact hfront
    · exact h.notMem le_rfl (by omega) (.inl hlt)
  have hcan' : s.canReap = true := by
    have hdesc := h.rel.descRing_of_notMem hnot
    simp only [State.canReap, h.rel.client, hdesc] at hcan
    exact hcan
  exact ⟨h.rel.reap c hnot, h.inv.reap (h.inv.canReap_iff.1 hcan'), h.slots⟩

theorem serverOwned_eq_false {p : ℕ}
    (hp : s.reaped.length ≤ p) (hp' : p < s.subs.length) :
    (d.desc c p).serverOwned = false ↔ p < s.done.length ∨ p % c.cnt ∈ refused := by
  have hdesc : d.desc c p = if p % c.cnt ∈ refused then (s.desc c p).refuse else s.desc c p :=
    h.rel.desc _
  rw [hdesc]
  split_ifs with hmem
  · exact iff_of_true rfl (.inr hmem)
  · rcases Nat.lt_or_ge p s.done.length with hlt | hge
    · exact iff_of_true (h.inv.finished p hp hlt).1 (.inl hlt)
    · refine iff_of_false ?_ fun hor => hor.elim (fun hlt => absurd hlt (not_lt.2 hge)) hmem
      have howned : (s.desc c p).serverOwned = true := h.inv.owned p hge hp'
      rw [howned]
      exact Bool.noConfusion

theorem of_serverOwned {p : ℕ} (hp : s.reaped.length ≤ p)
    (hp' : p < s.subs.length) (howned : (d.desc c p).serverOwned = true) :
    s.done.length ≤ p ∧ p % c.cnt ∉ refused := by
  rw [← not_lt, ← not_or, ← h.serverOwned_eq_false hp hp', howned]
  exact Bool.noConfusion

theorem tag_eq (p : ℕ) :
    (d.desc c p).tag = (s.desc c p).tag := by
  have hdesc : d.desc c p = if p % c.cnt ∈ refused then (s.desc c p).refuse else s.desc c p :=
    h.rel.desc _
  rw [hdesc]
  split_ifs <;> rfl

theorem exists_reaped :
    ∃ r', s.reaped.length ≤ r' ∧ r' ≤ s.subs.length ∧
      ((d.finishTransfers c c.cnt).client.startDirty = d.server.startDirty ↔
        r' = s.done.length) ∧
      (∀ m, m ≤ s.subs.length → m ≤ s.reaped.length + c.cnt →
        (∀ p, s.reaped.length ≤ p → p < m → (d.desc c p).serverOwned = false) → m ≤ r') ∧
      (∀ p, s.reaped.length ≤ p → p < r' → (d.desc c p).serverOwned = false) ∧
      (d.finishTransfers c c.cnt).reaped.map Reaped.tag = d.reaped.map Reaped.tag ++
        (range' s.reaped.length (r' - s.reaped.length)).map fun p => (d.desc c p).tag := by
  obtain ⟨hle'', hle', hle, hwin⟩ := h.order
  obtain ⟨r', hr, hr', hfin, hrest⟩ :=
    finishTransfers_spec c c.cnt h.clientDirty h.clientFree (by omega) hwin
  refine ⟨r', hr, hr', ?_, hrest⟩
  rw [hfin, h.serverDirty, Ring.mod_eq_iff (a := s.reaped.length) ⟨hr, by omega⟩ ⟨hle'', by omega⟩]

theorem finishTransfers_iff :
    (d.finishTransfers c c.cnt).client.startDirty = d.server.startDirty ↔
      s.done.length % c.cnt ∉ refused := by
  obtain ⟨hle'', hle', hle, hwin⟩ := h.order
  obtain ⟨r', hr, hr', hcursor, hmax, hall, -⟩ := h.exists_reaped
  have hdone : s.done.length ≤ r' := hmax _ (by omega) (by omega) fun p hp hp' =>
    (h.serverOwned_eq_false hp (by omega)).2 (.inl hp')
  rw [hcursor]
  constructor
  · rintro rfl hmem
    obtain ⟨p, hp, hp', hmod⟩ := h.slots _ hmem
    have := hmax (s.done.length + 1) (by omega) (by omega) fun q hq hq' => by
      refine (h.serverOwned_eq_false hq (by omega)).2 ?_
      rcases Nat.lt_or_ge q s.done.length with hq'' | hq''
      · exact .inl hq''
      · exact .inr ((by omega : q = s.done.length) ▸ hmem)
    omega
  · intro hfront
    by_contra hne
    have hlt : s.done.length < r' := by omega
    rcases (h.serverOwned_eq_false hle'' (by omega)).1 (hall _ hle'' hlt) with hlt' | hmem
    · omega
    · exact hfront hmem

theorem endedReaped (hfront : s.done.length % c.cnt ∉ refused) :
    (d.finishTransfers c c.cnt).reaped.map Reaped.tag = d.done.map Bio.tag := by
  have hle'' := h.inv.le_done
  obtain ⟨r', -, -, hcursor, -, -, htags⟩ := h.exists_reaped
  obtain rfl := hcursor.1 (h.finishTransfers_iff.2 hfront)
  have hfinished : ∀ p, s.reaped.length ≤ p → p < s.done.length →
      (d.desc c p).tag = s.tagAt c p := by
    intro p hp hp'
    obtain ⟨-, -, b, hb, htag, -⟩ := h.inv.finished p hp hp'
    rw [h.tag_eq, State.tagAt, hb]
    exact htag
  obtain ⟨m, hm⟩ := Nat.exists_eq_add_of_le hle''
  rw [htags, h.rel.reaped, h.rel.done, State.done_tags c.trusting, h.inv.reaped_tags, hm,
    range_add, map_append, Nat.add_sub_cancel_left, range'_eq_map_range,
    map_map, map_map]
  refine congrArg _ (map_congr_left fun i hi => ?_)
  have hi := mem_range.1 hi
  exact hfinished (s.reaped.length + i) (by omega) (by omega)

theorem robust (hfront : s.done.length % c.cnt ∉ refused) :
    Robust c d := by
  have hwin := h.inv.lt_window
  refine ⟨h.rel.fault.trans h.inv.fault, ?_, ?_, h.finishTransfers_iff.2 hfront, ?_,
    h.endedReaped hfront, ?_⟩
  · intro p hp hp' howned b hb
    rw [h.rel.reaped] at hp
    rw [h.rel.subs] at hp'
    have hnot := h.of_serverOwned hp hp' howned
    have hb : d.bioRing (p % c.cnt) = some b := hb
    have hbio : s.bioRing (p % c.cnt) = some (name b) := by
      rw [h.rel.bioRing _ hnot.2, hb, Option.map_some]
    have hst : p < st := by
      by_contra hge
      have hnone : s.bioRing (p % c.cnt) = none := h.inv.unstarted p (by omega) (by omega)
      rw [hnone] at hbio
      cases hbio
    obtain ⟨b', hb', hflight, -⟩ := h.inv.started p hnot.1 hst
    obtain rfl : name b = b' := Option.some.inj (hbio.symm.trans hb')
    rw [h.rel.inFlight b (h.rel.bio_lt _ b hb)]
    exact hflight
  · intro p hp hp' howned
    rw [h.rel.reaped] at hp
    rw [h.rel.subs] at hp'
    by_cases hmem : p % c.cnt ∈ refused
    · refine .inl ?_
      have hdesc : d.desc c p = (s.desc c p).refuse := (h.rel.desc _).trans (if_pos hmem)
      rw [hdesc]
      rfl
    · have hlt := ((h.serverOwned_eq_false hp hp').1 howned).resolve_right hmem
      have hdesc : d.desc c p = s.desc c p := h.rel.descRing_of_notMem hmem
      obtain ⟨-, -, b, hb, htag, herr⟩ := h.inv.finished p hp hlt
      rw [h.rel.done, hdesc]
      exact .inr ⟨b, hb, htag, herr⟩
  · intro i r hr
    rw [h.rel.reaped] at hr
    rw [h.rel.done, h.rel.subs]
    obtain ⟨b, x, hb, hx, htag, herr, hreq, hbio, hsize, hcarries⟩ := h.inv.reaped i r hr
    exact ⟨b, x, hb, hx, htag, herr, hreq, hbio, hsize,
      hcarries.sector, hcarries.rw, hcarries.ioVec⟩
  · rintro hidle ⟨p, hp, hp', howned, hbio⟩
    rw [h.rel.picked] at hidle
    rw [h.rel.reaped] at hp
    rw [h.rel.subs] at hp'
    have hnot := h.of_serverOwned hp hp' howned
    have hdesc : d.desc c p = s.desc c p := h.rel.descRing_of_notMem hnot.2
    have hnone : s.bioAt c p = none := by
      have hring : d.bioRing (p % c.cnt) = none := hbio
      exact (h.rel.bioRing _ hnot.2).trans (by rw [hring, Option.map_none])
    rw [(h.rel.processIoQueue c (h.startFree_notMem hidle)).picked]
    exact h.inv.pickedUp hidle hp hp' (hdesc ▸ howned) hnone

end Follows

theorem Tame.robust {c : Config} {d : State} (h : Tame c d) : Robust c d := by
  obtain ⟨s, st, refused, name, hf, hfront⟩ := h
  exact hf.robust hfront

theorem tame_init (dmaVec : ℕ → ℕ × ℕ) (sectors : ℕ → ℕ) : Tame c (State.init dmaVec sectors) := by
  have hsame : Same (State.init dmaVec sectors) (State.init dmaVec sectors) :=
    ⟨rfl, rfl, rfl, rfl, rfl, rfl, rfl, rfl, rfl⟩
  have hrel : Rel ∅ id (State.init dmaVec sectors) (State.init dmaVec sectors) :=
    { hsame with
      desc := fun k => rfl
      bioRing := fun k _ => rfl
      refusedRing := fun k hk => absurd hk (Finset.notMem_empty k)
      bio_lt := fun k b hb => by cases hb
      bios := fun b hb => absurd hb (Nat.not_lt_zero b)
      inFlight := fun b hb => absurd hb (Nat.not_lt_zero b)
      flight_lt := fun b hb => by cases hb
      name_lt := fun b hb => absurd hb (Nat.not_lt_zero b)
      name_inj := fun a ha => absurd ha (Nat.not_lt_zero a)
      slot_lt := fun k b hb => by cases hb }
  exact ⟨_, 0, ∅, id, ⟨hrel, inv_init c.trusting dmaVec sectors,
    fun k hk => absurd hk (Finset.notMem_empty k)⟩, Finset.notMem_empty _⟩

theorem State.check_true : s.check true = s := by
  rw [State.check, Bool.not_true, Bool.or_false]

theorem State.noteErr_frame (b k : ℕ) (err : Bool) :
    ((s.noteErr b k err).descRing k).handle = (s.descRing k).handle ∧
      (s.noteErr b k err).inFlight = s.inFlight ∧
      ((s.noteErr b k err).bios b).biPrivate = (s.bios b).biPrivate ∧
      (s.noteErr b k err).done = s.done ∧ (s.noteErr b k err).subs = s.subs := by
  cases err with
  | false => exact ⟨rfl, rfl, rfl, rfl, rfl⟩
  | true => simp [State.noteErr]

theorem State.endIo_finished {b k : ℕ} (err : Bool)
    (hk : (s.bios b).biPrivate = some k) :
    s.endIo c b err true = if c.live (s.descRing k).handle then
      ((s.noteErr b k err).complete c k).putBio b else (s.noteErr b k err).putBio b := by
  unfold State.endIo
  rw [hk]
  dsimp only
  rw [(s.noteErr_frame b k err).1, if_pos rfl]
  split_ifs <;> rfl

namespace Served
variable {c} {self : ℕ} {d : Served}

theorem foreign_eq_false {b k : ℕ} (hk : (d.ring.bios b).biPrivate = some k)
    (hown : own self d.conns (d.ring.descRing k).handle = true) (finished : Bool) :
    foreign self d b finished = false := by grind [connLookup, own, foreign]

theorem processPicked_of_not_own {k : ℕ}
    (hown : own self d.conns (d.ring.descRing k).handle ≠ true) :
    d.ring.processPicked (config c self d.conns) k =
      { d.ring with
        descRing := update d.ring.descRing k (d.ring.descRing k).refuse
        picked := none } := by
  exact if_neg hown

theorem tame_step (h : Tame c d.ring) {op : Op} (hok : Ok c self d op) :
    Tame c (step c self d op).ring := by
  obtain ⟨s, st, refused, name, hf, hfront⟩ := h
  cases op with
  | submit x =>
    unfold step
    dsimp only
    split_ifs with hfree
    · exact ⟨_, st, refused, name, hf.submit x hfree, hfront⟩
    · exact ⟨s, st, refused, name, hf, hfront⟩
  | pick =>
    unfold step
    dsimp only
    split
    next hidle =>
      refine ⟨_, st, refused, name, hf.pick hidle, ?_⟩
      rwa [State.done_processIoQueue]
    next => exact ⟨s, st, refused, name, hf, hfront⟩
  | initiate =>
    unfold step
    dsimp only
    split
    next => exact ⟨s, st, refused, name, hf, hfront⟩
    next k hk =>
      by_cases hown : own self d.conns (d.ring.descRing k).handle = true
      · have hstart : d.ring.processPicked (config c self d.conns) k = d.ring.initiateIo c k := by
          exact if_pos hown
        rw [hstart]
        exact ⟨_, st + 1, refused, _, hf.initiateIo hk, hfront⟩
      · have hne := (hok k hk).resolve_left hown
        rw [processPicked_of_not_own hown]
        refine ⟨_, st + 1, insert k refused, name, hf.refuse hk, ?_⟩
        rw [hf.serverDirty] at hne
        exact fun hmem => (Finset.mem_insert.1 hmem).elim (fun heq => hne heq.symm) hfront
  | endIo b err finished =>
    unfold step
    dsimp only
    split_ifs with hb
    · obtain ⟨-, j, -, -, hk⟩ := hf.flying hb
      obtain ⟨-, hflight, hpriv, -⟩ := d.ring.noteErr_frame b (j % c.cnt) err
      have herr := hf.noteErr hb hk err
      have hfront' : (s.noteErr (name b) (j % c.cnt) err).done.length % c.cnt ∉ refused := by
        rw [(s.noteErr_frame (name b) _ err).2.2.2.1]
        exact hfront
      cases finished with
      | false =>
        have hend : d.ring.endIo (config c self d.conns) b err false =
            d.ring.noteErr b (j % c.cnt) err := by simp [hk, State.endIo]
        have hforeign : foreign self d b false = false := rfl
        rw [hend, hforeign, Bool.not_false, State.check_true]
        exact ⟨_, st, refused, name, herr, hfront'⟩
      | true =>
        obtain ⟨hown, hnext⟩ := hok rfl hb _ hk
        rw [State.endIo_finished _ _ err hk, foreign_eq_false hk hown, Bool.not_false,
          State.check_true]
        rw [if_pos (show (config c self d.conns).live _ = true from hown)]
        obtain ⟨s', hs', hlen, -⟩ := herr.complete (hflight ▸ hb) (hpriv.trans hk) hfront'
        refine ⟨s', st, refused, name, hs', ?_⟩
        rw [hlen, (s.noteErr_frame (name b) _ err).2.2.2.1]
        exact hf.next_notMem hnext
    · exact ⟨s, st, refused, name, hf, hfront⟩
  | reap =>
    unfold step
    dsimp only
    split_ifs with hcan
    · exact ⟨_, st, refused, name, hf.reap hfront hcan, hfront⟩
    · exact ⟨s, st, refused, name, hf, hfront⟩
  | attach client =>
    unfold step
    dsimp only
    split <;> exact ⟨s, st, refused, name, hf, hfront⟩
  | detach handle =>
    unfold step
    dsimp only
    split_ifs <;> exact ⟨s, st, refused, name, hf, hfront⟩

theorem not_robust_initiate (h : Tame c d.ring) {k : ℕ} (hk : d.ring.picked = some k)
    (hown : own self d.conns (d.ring.descRing k).handle ≠ true)
    (hdirty : k = d.ring.server.startDirty) : ¬ Robust c (step c self d .initiate).ring := by
  obtain ⟨s, st, refused, name, hf, hfront⟩ := h
  have hstep : (step c self d .initiate).ring =
      { d.ring with
        descRing := update d.ring.descRing k (d.ring.descRing k).refuse
        picked := none } := by
    unfold step
    rw [hk]
    exact processPicked_of_not_own hown
  rw [hstep]
  intro hrobust
  refine (hf.refuse hk).finishTransfers_iff.1 hrobust.cursor ?_
  rw [hf.serverDirty] at hdirty
  exact hdirty ▸ Finset.mem_insert_self ..

section
variable (h : Tame c d.ring) {b k : ℕ} (err : Bool) (hb : d.ring.inFlight b = true)
  (hk : (d.ring.bios b).biPrivate = some k)
include h hb hk

theorem not_robust_gone (hown : own self d.conns (d.ring.descRing k).handle ≠ true) :
    ¬ Robust c (step c self d (.endIo b err true)).ring := by
  obtain ⟨s, st, refused, name, hf, hfront⟩ := h
  obtain ⟨hlt, j, hj, hnot, hpriv⟩ := hf.flying hb
  obtain rfl : j % c.cnt = k := Option.some.inj (hpriv.symm.trans hk)
  have hle := hf.inv.le_subs
  have hle'' := hf.inv.le_done
  have hsubs : j < s.subs.length := hj.lt_started.trans_le hle
  have hreaped : s.reaped.length ≤ j := hle''.trans hj.done_le
  have hbio : d.ring.bioRing (j % c.cnt) = some b := by
    have hs : s.bioRing (j % c.cnt) = some (name b) := hj.bioAt
    rw [hf.rel.bioRing _ hnot] at hs
    obtain ⟨a, ha, hname⟩ := Option.map_eq_some_iff.1 hs
    rw [ha, hf.rel.name_inj a (hf.rel.bio_lt _ a ha) b hlt hname]
  have howned : (d.ring.desc c j).serverOwned = true := by
    rw [← Bool.not_eq_false, hf.serverOwned_eq_false hreaped hsubs]
    exact fun hor => hor.elim (fun hlt => absurd hlt (not_lt.2 hj.done_le)) hnot
  have hstep : (step c self d (.endIo b err true)).ring =
      ((d.ring.noteErr b (j % c.cnt) err).putBio b).check (!foreign self d b true) := by
    unfold step
    dsimp only
    rw [if_pos hb, State.endIo_finished _ _ err hk]
    exact congrArg (State.check · _) (if_neg hown)
  intro hrobust
  rw [hstep] at hrobust
  have hflight : update (d.ring.noteErr b (j % c.cnt) err).inFlight b false b = true := by
    refine hrobust.returned j ?_ ?_ ?_ b ?_
    · cases err <;> exact hf.rel.reaped ▸ hreaped
    · cases err <;> exact hf.rel.subs ▸ hsubs
    · cases err with
      | false => exact howned
      | true =>
        show (update d.ring.descRing (j % c.cnt) _ (j % c.cnt)).serverOwned = true
        rw [update_self]
        exact howned
    · cases err <;> exact hbio
  rw [update_self] at hflight
  cases hflight

theorem not_robust_next (hown : own self d.conns (d.ring.descRing k).handle = true)
    (hnext : ¬ ((d.ring.server.startDirty + 1) % c.cnt = d.ring.client.startFree ∨
      (d.ring.descRing ((d.ring.server.startDirty + 1) % c.cnt)).serverOwned = true)) :
    ¬ Robust c (step c self d (.endIo b err true)).ring := by
  obtain ⟨s, st, refused, name, hf, hfront⟩ := h
  obtain ⟨-, j, hj, -, -⟩ := hf.flying hb
  obtain ⟨-, hflight, hpriv, -⟩ := d.ring.noteErr_frame b k err
  have hle := hf.inv.le_subs
  have hle'' := hf.inv.le_done
  have hlt : s.done.length < s.subs.length :=
    (hj.done_le.trans_lt hj.lt_started).trans_le hle
  have hmem : (s.done.length + 1) % c.cnt ∈ refused := by
    rw [hf.next_eq, hf.clientFree] at hnext
    push Not at hnext
    have hne : s.done.length + 1 ≠ s.subs.length := fun heq => hnext.1 (congrArg (· % c.cnt) heq)
    have howned : (d.ring.desc c (s.done.length + 1)).serverOwned = false :=
      Bool.eq_false_of_not_eq_true hnext.2
    refine ((hf.serverOwned_eq_false (by omega) (by omega)).1 howned).resolve_left ?_
    exact not_lt.2 (Nat.le_succ _)
  have herr := hf.noteErr hb hk err
  have hdone := (s.noteErr_frame (name b) k err).2.2.2.1
  obtain ⟨s', hs', hlen, -⟩ := herr.complete (hflight ▸ hb) (hpriv.trans hk) (hdone ▸ hfront)
  have hstep : (step c self d (.endIo b err true)).ring =
      ((d.ring.noteErr b k err).complete c k).putBio b := by
    unfold step
    dsimp only
    rw [if_pos hb, State.endIo_finished _ _ err hk, foreign_eq_false hk hown, Bool.not_false,
      State.check_true]
    exact if_pos hown
  rw [hstep]
  intro hrobust
  refine hs'.finishTransfers_iff.1 hrobust.cursor ?_
  rw [hlen, hdone]
  exact hmem

end

theorem robust_step_iff (h : Tame c d.ring) (op : Op) :
    Robust c (step c self d op).ring ↔ Ok c self d op := by
  refine ⟨fun hrobust => ?_, fun hok => (tame_step h hok).robust⟩
  cases op with
  | initiate =>
    intro k hk
    by_contra hbad
    push Not at hbad
    exact not_robust_initiate h hk hbad.1 hbad.2 hrobust
  | endIo b err finished =>
    rintro rfl hb k hk
    by_cases hown : own self d.conns (d.ring.descRing k).handle = true
    · refine ⟨hown, ?_⟩
      by_contra hnext
      exact not_robust_next h err hb hk hown hnext hrobust
    · exact absurd hrobust (not_robust_gone h err hb hk hown)
  | _ => trivial

/-- **The block server and missing connections.** In a run whose steps meet their condition the
server is robust in every state; after a step that does not it is not. -/
theorem robust_of_guarded_run (c : Config) (self : ℕ) (dmaVec : ℕ → ℕ × ℕ) (sectors : ℕ → ℕ)
    (conns : ℕ → Option ℕ) (ops : List Op)
    (hguard : Runs.Guarded (step c self) (Ok c self) ⟨State.init dmaVec sectors, conns⟩ ops) :
    let d := run (step c self) ⟨State.init dmaVec sectors, conns⟩ ops
    Robust c d.ring ∧ ∀ op, Robust c (step c self d op).ring ↔ Ok c self d op := by
  intro d
  have htame : Tame c (run (step c self) ⟨State.init dmaVec sectors, conns⟩ ops).ring :=
    run_invariant (I := fun d => Tame c d.ring) (fun _ _ h hok => tame_step h hok)
      (tame_init c dmaVec sectors) hguard
  exact ⟨htame.robust, fun op => robust_step_iff htame op⟩

def fourSlots : Config := ⟨4, by decide, fun _ => true, id⟩

def runFrom (ops : List Op) : Served :=
  run (step fourSlots 0) ⟨State.init (fun _ => (0, 0)) fun _ => 16, fun _ => none⟩ ops

def onePage (bio handle : ℕ) : Op := .submit ⟨7, bio, handle, 0, 0, 4096, .read⟩

theorem robust_refused_second :
    Robust fourSlots
      (runFrom [.attach 0, onePage 1 0, onePage 2 9, .pick, .initiate, .pick, .initiate]).ring := by
  refine (robust_of_guarded_run fourSlots 0 (fun _ => (0, 0)) (fun _ => 16) (fun _ => none) _ ?_).1
  refine ⟨trivial, trivial, trivial, trivial, fun k hk => .inl ?_, trivial, fun k hk => .inr ?_,
    trivial⟩
  · obtain rfl : 0 = k := Option.some.inj hk
    decide
  · obtain rfl : 1 = k := Option.some.inj hk
    decide

theorem not_robust_refused_gone :
    (runFrom [onePage 1 9, .pick, .initiate, .reap]).ring.client.startDirty = 1 ∧
      (runFrom [onePage 1 9, .pick, .initiate, .reap]).ring.server.startDirty = 0 ∧
      (runFrom [onePage 1 9, .pick, .initiate, .reap, .attach 0, onePage 2 0, .pick, .initiate,
        .endIo 0 false true]).ring.fault = true ∧
      (let s := (runFrom [.attach 0, onePage 1 0, .pick, .initiate, .detach 0,
        .endIo 0 false true]).ring
      (s.descRing 0).serverOwned = true ∧ s.inFlight 0 = false ∧ ¬ Robust fourSlots s) := by
  refine ⟨by decide, by decide, by decide, by decide, by decide, fun h => ?_⟩
  exact absurd (h.returned 0 (by decide) (by decide) (by decide) 0 (by decide)) (by decide)

end Served
end DriverReuse.Block
