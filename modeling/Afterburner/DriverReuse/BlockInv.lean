import Afterburner.DriverReuse.Block

/-!
# The invariant of the block ring

The positions of a run, without wrapping, are five ranges: reaped, finished, started, waiting, free.
-/
variable (c : Config) (s : State)

namespace DriverReuse.Block
open Function State List
namespace State

def desc (p : ℕ) : Desc := Ring.view c.cnt s.descRing p
def bioAt (p : ℕ) : Option ℕ := Ring.view c.cnt s.bioRing p

def tagAt (p : ℕ) : ℕ :=
  match s.done[p]? with
  | some b => b.tag
  | none => (s.desc c p).tag

end State

structure Desc.Fills (d : Desc) (x : Sub) : Prop where
  handle : d.handle = x.handle
  page : d.page = x.page
  offset : d.offset = x.offset
  size : d.size = x.size
  doWrite : d.doWrite = decide (x.rw = .write)
  speculative : d.speculative = decide (x.rw = .readAhead)

structure Bio.Carries (b : Bio) (x : Sub) : Prop where
  sector : b.biSector = x.offset
  rw : b.rw = x.rw
  ioVec : x.size ≠ 0 → b.biIoVec = [(c.busToPhys x.page, x.size)]

def Reaped.Of (r : Reaped) (b : Bio) (x : Sub) : Prop :=
  r.tag = b.tag ∧ r.err = b.failed ∧ r.req = some x.req ∧ r.bio = some x.bio ∧ r.size = x.size ∧
    b.Carries c x

structure Inv (st : ℕ) : Prop where
  le_done : s.reaped.length ≤ s.done.length
  le_started : s.done.length ≤ st
  le_subs : st ≤ s.subs.length
  lt_window : s.subs.length < s.reaped.length + c.cnt
  clientFree : s.client.startFree = s.subs.length % c.cnt
  clientDirty : s.client.startDirty = s.reaped.length % c.cnt
  serverDirty : s.server.startDirty = s.done.length % c.cnt
  serverFree : (s.picked = none ∧ s.server.startFree = st % c.cnt) ∨
    (s.picked = some (st % c.cnt) ∧ st < s.subs.length ∧ s.server.startFree = (st + 1) % c.cnt)
  owned : ∀ p, s.done.length ≤ p → p < s.subs.length → (s.desc c p).serverOwned = true
  free : ∀ p, s.subs.length ≤ p → p < s.reaped.length + c.cnt → (s.desc c p).serverOwned = false
  finished : ∀ p, s.reaped.length ≤ p → p < s.done.length → (s.desc c p).serverOwned = false ∧
    s.bioAt c p = none ∧
    ∃ b, s.done[p]? = some b ∧ (s.desc c p).tag = b.tag ∧ (s.desc c p).serverErr = b.failed
  started : ∀ p, s.done.length ≤ p → p < st → ∃ b, s.bioAt c p = some b ∧ s.inFlight b = true ∧
    (s.bios b).biPrivate = some (p % c.cnt) ∧ (s.bios b).tag = (s.desc c p).tag ∧
    (s.bios b).failed = (s.desc c p).serverErr
  unstarted : ∀ p, st ≤ p → p < s.reaped.length + c.cnt → s.bioAt c p = none
  waiting : ∀ p, st ≤ p → p < s.subs.length → (s.desc c p).tag = p ∧ (s.desc c p).serverErr = false
  content : ∀ p, s.reaped.length ≤ p → p < s.subs.length →
    ∃ x, s.subs[(s.desc c p).tag]? = some x ∧ (s.desc c p).Fills x ∧
      s.shadowRing (s.desc c p).clientData = ⟨some x.req, some x.bio⟩
  flight : ∀ b, s.inFlight b = true → b < s.nrBios ∧ (∃ p, s.done.length ≤ p ∧ p < st ∧
    s.bioAt c p = some b) ∧ ∃ x, s.subs[(s.bios b).tag]? = some x ∧ (s.bios b).Carries c x
  tags : ∀ p q, p < s.subs.length → q < s.subs.length → s.tagAt c p = s.tagAt c q → p = q
  shadow_lt : ∀ i < c.cnt, (s.descRing i).clientData < c.cnt
  shadow_inj : ∀ i < c.cnt, ∀ j < c.cnt,
    (s.descRing i).clientData = (s.descRing j).clientData → i = j
  live : ∀ x ∈ s.subs, c.live x.handle = true
  doneCarries : ∀ b ∈ s.done, ∃ x, s.subs[b.tag]? = some x ∧ b.Carries c x
  reaped : ∀ (i : ℕ) (r : Reaped), s.reaped[i]? = some r →
    ∃ b x, s.done[i]? = some b ∧ s.subs[r.tag]? = some x ∧ r.Of c b x
  fault : s.fault = false

namespace Inv
variable {c} {s} {st : ℕ}

theorem inWindow_subs (h : Inv c s st) :
    Ring.InWindow c.cnt s.reaped.length s.subs.length :=
  ⟨h.le_done.trans (h.le_started.trans h.le_subs), h.lt_window⟩

theorem clientData_inj (h : Inv c s st) {p q : ℕ} (hp : Ring.InWindow c.cnt s.reaped.length p)
    (hq : Ring.InWindow c.cnt s.reaped.length q)
    (heq : (s.desc c p).clientData = (s.desc c q).clientData) : p = q := by
  have hmod := h.shadow_inj _ (Nat.mod_lt p c.cnt_pos) _ (Nat.mod_lt q c.cnt_pos) heq
  exact (Ring.mod_eq_iff hp hq).1 hmod

theorem tagAt_of_le (c : Config) {s : State} {p : ℕ} (hp : s.done.length ≤ p) :
    s.tagAt c p = (s.desc c p).tag := by
  rw [tagAt, getElem?_eq_none hp]

theorem tagAt_lt (h : Inv c s st) {p : ℕ} (hp : p < s.subs.length) :
    s.tagAt c p < s.subs.length := by
  rcases Nat.lt_or_ge p s.done.length with hlt | hge
  · obtain ⟨x, hx, -⟩ := h.doneCarries _ (getElem_mem hlt)
    rw [tagAt, getElem?_eq_getElem hlt]
    exact (List.getElem?_eq_some_iff.1 hx).1
  · obtain ⟨x, hx, -⟩ := h.content p (h.le_done.trans hge) hp
    rw [tagAt_of_le c hge]
    exact (List.getElem?_eq_some_iff.1 hx).1

end Inv

theorem getElem?_append_of_some {α : Type*} {l : List α} {i : ℕ} {a : α} (h : l[i]? = some a)
    (l' : List α) : (l ++ l')[i]? = some a := by
  rw [getElem?_append_left (List.getElem?_eq_some_iff.1 h).1, h]

theorem swap_lt {a b n p : ℕ} (ha : a < n) (hb : b < n) (hp : p < n) : Equiv.swap a b p < n := by
  rw [Equiv.swap_apply_def]
  split_ifs <;> assumption

section Submit
variable {c} {s} {st : ℕ} {x : Sub}

def Sub.fill (x : Sub) (d : Desc) (tag : ℕ) : Desc :=
  { d with
    handle := x.handle, size := x.size, offset := x.offset, page := x.page, serverErr := false,
    doWrite := x.rw = .write, speculative := x.rw = .readAhead, serverOwned := true, tag := tag }

theorem Sub.fills_fill (x : Sub) (d : Desc) (tag : ℕ) : (x.fill d tag).Fills x :=
  ⟨rfl, rfl, rfl, rfl, rfl, rfl⟩

section
variable (h : Inv c s st) (x : Sub)
include h

theorem Inv.descRing_processRequest :
    (s.processRequest c x).descRing = update s.descRing (s.subs.length % c.cnt)
      (x.fill (s.desc c s.subs.length) s.subs.length) := by
  simp only [processRequest, h.clientFree]
  rfl

theorem Inv.desc_processRequest {p : ℕ} (hp : s.reaped.length ≤ p)
    (hp' : p < s.reaped.length + c.cnt) : (s.processRequest c x).desc c p =
      if p = s.subs.length then x.fill (s.desc c p) p else s.desc c p := by
  rw [desc, h.descRing_processRequest, Ring.view_update h.inWindow_subs ⟨hp, hp'⟩]
  split_ifs with heq
  · rw [heq]
  · rfl

theorem Inv.clientData_processRequest (i : ℕ) :
    ((s.processRequest c x).descRing i).clientData = (s.descRing i).clientData := by
  rw [h.descRing_processRequest, update_apply]
  split_ifs with hi
  · rw [hi]
    rfl
  · rfl

theorem Inv.shadow_processRequest {p : ℕ} (hp : Ring.InWindow c.cnt s.reaped.length p) :
    (s.processRequest c x).shadowRing (s.desc c p).clientData =
      if p = s.subs.length then ⟨some x.req, some x.bio⟩
      else s.shadowRing (s.desc c p).clientData := by
  have hring : (s.processRequest c x).shadowRing = update s.shadowRing
      (s.desc c s.subs.length).clientData ⟨some x.req, some x.bio⟩ := by
    simp only [processRequest, h.clientFree]
    rfl
  rw [hring]
  split_ifs with heq
  · rw [heq, update_self]
  · exact update_of_ne (fun hcd => heq (h.clientData_inj hp h.inWindow_subs hcd)) ..

end

theorem Inv.processRequest (h : Inv c s st) (hlive : c.live x.handle = true)
    (hfree : ringAvailable c s.client > 0) : Inv c (s.processRequest c x) st := by
  have hcf := h.inWindow_subs
  have hroom : s.subs.length + 1 < s.reaped.length + c.cnt := by
    rw [ringAvailable, h.clientDirty, h.clientFree, Ring.available_eq hcf] at hfree
    omega
  have hle := h.le_done
  have hle' := h.le_started
  have hle'' := h.le_subs
  have hlen : (s.processRequest c x).subs.length = s.subs.length + 1 := by
    simp [State.processRequest]
  have hdesc : ∀ p, s.reaped.length ≤ p → p < s.reaped.length + c.cnt → _ :=
    fun p hp hp' => h.desc_processRequest x hp hp'
  have htag : ∀ p ≤ s.subs.length, (s.processRequest c x).tagAt c p =
      if p = s.subs.length then p else s.tagAt c p := by
    intro p hp
    rcases Nat.lt_or_ge p s.done.length with hlt | hge
    · have hsome := getElem?_eq_getElem hlt
      have hsome' : (s.processRequest c x).done[p]? = some s.done[p] := hsome
      rw [tagAt, tagAt, hsome, hsome', if_neg (by omega)]
    · rw [Inv.tagAt_of_le c hge, Inv.tagAt_of_le c (s := s.processRequest c x) hge,
        hdesc p (by omega) (by omega)]
      split_ifs <;> rfl
  refine { le_done := hle, le_started := hle', le_subs := ?_, lt_window := ?_, clientFree := ?_,
           clientDirty := h.clientDirty, serverDirty := h.serverDirty, serverFree := ?_,
           owned := fun p (hp : s.done.length ≤ p) hp' => ?_,
           free := fun p hp (hp' : p < s.reaped.length + c.cnt) => ?_,
           finished := fun p hp (hp' : p < s.done.length) => ?_,
           started := fun p (hp : s.done.length ≤ p) hp' => ?_, unstarted := h.unstarted,
           waiting := fun p hp hp' => ?_, content := fun p hp hp' => ?_, flight := ?_,
           tags := ?_, shadow_lt := ?_, shadow_inj := ?_, live := ?_, doneCarries := ?_,
           reaped := ?_, fault := ?_ }
  · rw [hlen]; omega
  · rw [hlen]; exact hroom
  · rw [hlen]
    simp only [State.processRequest, h.clientFree, Ring.succ_mod]
  · exact h.serverFree.imp id fun ⟨h1, h2, h3⟩ => ⟨h1, by rw [hlen]; omega, h3⟩
  · grind [h.owned p, Sub.fill]
  · grind [h.free p]
  · rw [hdesc p hp (by omega), if_neg (by omega)]
    exact h.finished p hp hp'
  · rw [hdesc p (by omega) (by omega), if_neg (by omega)]
    exact h.started p hp hp'
  · grind [h.waiting p, Sub.fill]
  · have hshadow := h.shadow_processRequest x (p := p) ⟨hp, by omega⟩
    rw [hdesc p hp (by omega)]
    split_ifs at hshadow ⊢ with hpe
    · exact ⟨x, hpe ▸ getElem?_concat_length, x.fills_fill _ _, hshadow⟩
    · obtain ⟨y, hy, hfill, hshadow'⟩ := h.content p hp (by omega)
      exact ⟨y, getElem?_append_of_some hy _, hfill, hshadow.trans hshadow'⟩
  · intro b hb
    obtain ⟨hlt, hpos, y, hy, hcarries⟩ := h.flight b hb
    exact ⟨hlt, hpos, y, getElem?_append_of_some hy _, hcarries⟩
  · intro p q hp hq heq
    have hlt : ∀ p < s.subs.length, s.tagAt c p < s.subs.length := fun p => h.tagAt_lt
    have hinj := h.tags p q
    grind
  · intro i hi
    rw [h.clientData_processRequest]
    exact h.shadow_lt i hi
  · intro i hi j hj heq
    rw [h.clientData_processRequest, h.clientData_processRequest] at heq
    exact h.shadow_inj i hi j hj heq
  · exact forall_mem_append.2 ⟨h.live, forall_mem_singleton.2 hlive⟩
  · intro b hb
    obtain ⟨y, hy, hcarries⟩ := h.doneCarries b hb
    exact ⟨y, getElem?_append_of_some hy _, hcarries⟩
  · intro i r hr
    obtain ⟨b, y, hb, hy, hof⟩ := h.reaped i r hr
    exact ⟨b, y, hb, getElem?_append_of_some hy _, hof⟩
  · have hfreeSlot : (s.descRing s.client.startFree).serverOwned = false := by
      rw [h.clientFree]
      exact h.free _ le_rfl h.lt_window
    simp [State.processRequest, State.check, h.fault, hfreeSlot]

end Submit
section Start
variable {c} {s} {st : ℕ}

theorem Inv.startFree_of_idle (h : Inv c s st) (hidle : s.picked = none) :
    s.server.startFree = st % c.cnt := by
  rcases h.serverFree with ⟨-, hfree⟩ | ⟨hpicked, -⟩
  · exact hfree
  · rw [hidle] at hpicked
    cases hpicked

theorem Inv.processIoQueue (h : Inv c s st) (hidle : s.picked = none) :
    Inv c (s.processIoQueue c) st := by
  have hfree := h.startFree_of_idle hidle
  unfold State.processIoQueue
  simp only [hfree]
  split_ifs with hskip
  · exact h
  · push Not at hskip
    have hlt : st < s.subs.length := by
      by_contra hge
      have := h.le_subs
      have := h.free st (by omega) (by have := h.lt_window; omega)
      exact hskip.1 this
    exact { h with serverFree := Or.inr ⟨rfl, hlt, Ring.succ_mod c.cnt st⟩ }

theorem Inv.of_picked (h : Inv c s st) {k : ℕ} (hk : s.picked = some k) :
    k = st % c.cnt ∧ st < s.subs.length ∧ s.server.startFree = (st + 1) % c.cnt := by
  rcases h.serverFree with ⟨hnone, -⟩ | ⟨hpicked, hlt, hfree⟩
  · rw [hk] at hnone
    cases hnone
  · rw [hk] at hpicked
    exact ⟨Option.some.inj hpicked, hlt, hfree⟩

theorem Inv.live_handle (h : Inv c s st) {p : ℕ} (hp : s.reaped.length ≤ p)
    (hp' : p < s.subs.length) : c.live (s.desc c p).handle = true := by
  obtain ⟨x, hx, hfill, -⟩ := h.content p hp hp'
  rw [hfill.handle]
  exact h.live x (mem_of_getElem? hx)

theorem carries_initiateIo (c : Config) (s : State) {d : Desc} {x : Sub} (hfill : d.Fills x)
    (k : ℕ) :
    (⟨some k, d.offset, s.ioVec c d, rwOf d, d.tag, false⟩ : Bio).Carries c x where
  sector := hfill.offset
  rw := by
    have hw := hfill.doWrite
    have hs := hfill.speculative
    cases hrw : x.rw <;> simp [rwOf, hw, hs, hrw]
  ioVec hsize := by
    have hd : d.size ≠ 0 := by rwa [hfill.size]
    rw [ioVec, if_pos hd, hfill.page, hfill.size]

theorem bios_initiateIo (c : Config) (s : State) (k b : ℕ) : (s.initiateIo c k).bios b =
    if b = s.nrBios then ⟨some k, (s.descRing k).offset, s.ioVec c (s.descRing k),
      rwOf (s.descRing k), (s.descRing k).tag, false⟩ else s.bios b :=
  update_apply ..

theorem inFlight_initiateIo (c : Config) (s : State) (k b : ℕ) :
    (s.initiateIo c k).inFlight b = if b = s.nrBios then true else s.inFlight b :=
  update_apply ..

theorem Inv.initiateIo (h : Inv c s st) (hk : s.picked = some (st % c.cnt)) :
    Inv c (s.initiateIo c (st % c.cnt)) (st + 1) := by
  obtain ⟨-, hlt, hfree⟩ := h.of_picked hk
  have hle := h.le_done
  have hle' := h.le_started
  have hwin := h.lt_window
  have hst : Ring.InWindow c.cnt s.reaped.length st := ⟨by omega, by omega⟩
  obtain ⟨x, hx, hfill, hshadow⟩ := h.content st hst.1 hlt
  -- the new bio is not yet in use
  have hfresh : ∀ b, s.inFlight b = true → b ≠ s.nrBios := by
    intro b hb
    have := (h.flight b hb).1
    omega
  have hbio : ∀ p, s.reaped.length ≤ p → p < s.reaped.length + c.cnt →
      (s.initiateIo c (st % c.cnt)).bioAt c p =
        if p = st then some s.nrBios else s.bioAt c p :=
    fun p hp hp' => Ring.view_update hst ⟨hp, hp'⟩ ..
  refine { h with le_started := Nat.le_succ_of_le hle', le_subs := hlt,
                  serverFree := Or.inl ⟨rfl, hfree⟩,
                  finished := fun p (hp : s.reaped.length ≤ p) (hp' : p < s.done.length) => ?_,
                  started := fun p (hp : s.done.length ≤ p) hp' => ?_,
                  unstarted := fun p hp (hp' : p < s.reaped.length + c.cnt) => ?_,
                  waiting := fun p hp hp' => h.waiting p (by omega) hp', flight := ?_ }
  · rw [hbio p hp (by omega), if_neg (by omega)]
    exact h.finished p hp hp'
  · rw [hbio p (by omega) (by omega)]
    split_ifs with hpst
    · subst hpst
      refine ⟨s.nrBios, rfl, ?_⟩
      rw [inFlight_initiateIo, bios_initiateIo, if_pos rfl, if_pos rfl]
      exact ⟨rfl, rfl, rfl, (h.waiting p le_rfl hlt).2.symm⟩
    · obtain ⟨b, hb, hflight, hbios⟩ := h.started p hp (by omega)
      refine ⟨b, hb, ?_⟩
      rw [inFlight_initiateIo, bios_initiateIo, if_neg (hfresh b hflight),
        if_neg (hfresh b hflight)]
      exact ⟨hflight, hbios⟩
  · rw [hbio p (by omega) hp', if_neg (by omega)]
    exact h.unstarted p (by omega) hp'
  · intro b hb
    rw [inFlight_initiateIo] at hb
    rw [bios_initiateIo]
    split_ifs at hb ⊢ with hbn
    · subst hbn
      refine ⟨Nat.lt_succ_self _, ⟨st, hle', Nat.lt_succ_self _, ?_⟩, x, hx,
        carries_initiateIo c s hfill _⟩
      rw [hbio st hst.1 hst.2, if_pos rfl]
    · obtain ⟨hb', ⟨p, hp, hp', hpb⟩, hcarries⟩ := h.flight b hb
      refine ⟨Nat.lt_succ_of_lt hb', ⟨p, hp, Nat.lt_succ_of_lt hp', ?_⟩, hcarries⟩
      rw [hbio p (by omega) (by omega), if_neg (by omega)]
      exact hpb

theorem Inv.processPicked (h : Inv c s st) {k : ℕ} (hk : s.picked = some k) :
    Inv c (s.processPicked c k) (st + 1) := by
  obtain ⟨rfl, hlt, -⟩ := h.of_picked hk
  have hle := h.le_done
  have hle' := h.le_started
  have hlive : c.live (s.descRing (st % c.cnt)).handle = true := h.live_handle (by omega) hlt
  rw [State.processPicked, if_pos hlive]
  exact h.initiateIo hk

end Start
end DriverReuse.Block
