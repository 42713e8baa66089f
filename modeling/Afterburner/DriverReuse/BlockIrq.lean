import Afterburner.Lib.Runs

/-!
# The notifications of the block driver

A sender records an event in `irq_status` and, unless `irq_pending` is set, sets it and interrupts
the receiver, who takes the events and clears it.
-/

namespace DriverReuse.BlockIrq
open Function Runs List

inductive Chan (κ : Type*)
  /-- `server->irq_status`, `server->irq_pending` -/
  | server
  /-- `server_info->irq_status`, `server_info->irq_pending` -/
  | info
  /-- `client_shared->client_irq_status`, `client_shared->client_irq_pending` -/
  | client (k : κ)
  deriving DecidableEq

def Chan.line {κ : Type*} : Chan κ → Option κ
  | .server => none
  | .info => none
  | .client k => some k

abbrev Flags := {word : BitVec 32 // word ≠ 0}
def serverIrqDispatch : Flags := ⟨1, by decide⟩
def clientIrqClean : Flags := ⟨1, by decide⟩
def irqMask : BitVec 32 := ~~~ 0

inductive Sender (κ : Type*)
  | idle
  /-- the read of `irq_status |= flags` -/
  | read (c : Chan κ) (flags : Flags)
  /-- the write of `irq_status |= flags`, when `word` has been read -/
  | write (c : Chan κ) (flags : Flags) (word : BitVec 32)
  /-- `*irq_status & irq_mask` -/
  | test (c : Chan κ)
  /-- the read of `irq_pending` -/
  | check (c : Chan κ)
  /-- `irq_pending = TRUE` -/
  | setPending (c : Chan κ)
  /-- `l4ka_wedge_send_virtual_irq` -/
  | send (c : Chan κ)
  deriving DecidableEq

def Sender.Recorded {κ : Type*} (c : Chan κ) : Sender κ → Prop
  | .test d | .check d | .setPending d | .send d => d = c
  | _ => False

def Sender.Sends {κ : Type*} (l : Option κ) : Sender κ → Prop
  | .send c => c.line = l
  | _ => False

def Sender.afterWrite {κ : Type*} : Chan κ → Sender κ
  | .server => .test .server
  | c => .check c

theorem Sender.recorded_afterWrite {κ : Type*} (c : Chan κ) : (Sender.afterWrite c).Recorded c := by
  cases c <;> rfl

inductive Call (κ : Type*)
  | deliverServerIrq
  | deliverClientIrq (k : κ)
  | serverDeliverIrq (flags : Flags)

def Call.entry {κ : Type*} : Call κ → Sender κ
  | .deliverServerIrq => .read .info serverIrqDispatch
  | .deliverClientIrq k => .read (.client k) clientIrqClean
  | .serverDeliverIrq flags => .read .server flags

inductive ServerHandler
  | idle
  | readStatus
  | resetStatus (events : BitVec 32)
  | readInfo (events : BitVec 32)
  | resetInfo (events clientEvents : BitVec 32)
  | setPending
  | setInfoPending
  | clearPending
  | clearInfoPending
  deriving DecidableEq

def ServerHandler.Looks (info : BitVec 32) : ServerHandler → Prop
  | .idle => False
  | .readInfo events | .resetInfo events _ => events ≠ 0 ∨ info ≠ 0
  | _ => True

def ServerHandler.Clears (found : Prop) (info : BitVec 32) (last : Prop) : ServerHandler → Prop
  | .idle => False
  | .readStatus | .resetStatus _ => found
  | .readInfo events | .resetInfo events _ => events ≠ 0 ∨ info ≠ 0
  | .clearInfoPending => last ∨ found
  | _ => True

section
variable {info : BitVec 32} {h : ServerHandler}
include h

theorem ServerHandler.Looks.mono {info' : BitVec 32} (hinfo : info ≠ 0 → info' ≠ 0)
    (hl : h.Looks info) : h.Looks info' := by
  cases h with
  | readInfo events => exact hl.imp_right hinfo
  | resetInfo events clientEvents => exact hl.imp_right hinfo
  | _ => exact hl

theorem ServerHandler.Clears.mono {found found' last : Prop} {info' : BitVec 32}
    (hfound : found → found') (hinfo : info ≠ 0 → info' ≠ 0) (hc : h.Clears found info last) :
    h.Clears found' info' last := by
  cases h with
  | readStatus => exact hfound hc
  | resetStatus events => exact hfound hc
  | readInfo events => exact hc.imp_right hinfo
  | resetInfo events clientEvents => exact hc.imp_right hinfo
  | clearInfoPending => exact hc.imp_right hfound
  | _ => exact hc

theorem ServerHandler.Clears.looks {found last : Prop} (hc : h.Clears found info last) :
    h.Looks info := by
  cases h with
  | idle => exact hc
  | readInfo events => exact hc
  | resetInfo events clientEvents => exact hc
  | _ => trivial

end

inductive ClientHandler
  | idle
  | setPending
  | readStatus
  | resetStatus (events : BitVec 32)
  | clearPending (events : BitVec 32)
  deriving DecidableEq

structure State (κ τ : Type*) where
  status : Chan κ → BitVec 32
  pending : Chan κ → Bool
  senders : τ → Sender κ
  ipcs : Option κ → ℕ
  serverHandler : ServerHandler
  clientHandler : κ → ClientHandler

namespace State
variable {κ τ : Type*}
section Steps
variable [DecidableEq κ] [DecidableEq τ]

def setStatus (s : State κ τ) (c : Chan κ) (word : BitVec 32) : State κ τ :=
  { s with status := update s.status c word }

def putPending (s : State κ τ) (c : Chan κ) (b : Bool) : State κ τ :=
  { s with pending := update s.pending c b }

def setSender (s : State κ τ) (t : τ) (p : Sender κ) : State κ τ :=
  { s with senders := update s.senders t p }

def setIpcs (s : State κ τ) (l : Option κ) (n : ℕ) : State κ τ :=
  { s with ipcs := update s.ipcs l n }

def setServerHandler (s : State κ τ) (h : ServerHandler) : State κ τ :=
  { s with serverHandler := h }

def setClientHandler (s : State κ τ) (k : κ) (h : ClientHandler) : State κ τ :=
  { s with clientHandler := update s.clientHandler k h }

def senderStep (s : State κ τ) (t : τ) : State κ τ :=
  match s.senders t with
  | .idle => s
  | .read c flags => s.setSender t (.write c flags (s.status c))
  | .write c flags word => (s.setStatus c (word ||| flags.1)).setSender t (Sender.afterWrite c)
  | .test c => s.setSender t (if s.status c &&& irqMask = 0 then .idle else .check c)
  | .check c => s.setSender t (if s.pending c then .idle else .setPending c)
  | .setPending c => (s.putPending c true).setSender t (.send c)
  | .send c => (s.setIpcs c.line (s.ipcs c.line + 1)).setSender t .idle

def serverStep (s : State κ τ) : State κ τ :=
  match s.serverHandler with
  | .idle => s
  | .readStatus => s.setServerHandler (.resetStatus (s.status .server))
  | .resetStatus events =>
    if s.status .server = events then
      (s.setStatus .server 0).setServerHandler (.readInfo events)
    else s.setServerHandler .readStatus
  | .readInfo events => s.setServerHandler (.resetInfo events (s.status .info))
  | .resetInfo events clientEvents =>
    if s.status .info = clientEvents then
      (s.setStatus .info 0).setServerHandler
        (if events = 0 ∧ clientEvents = 0 then .idle else .setPending)
    else s.setServerHandler (.readInfo events)
  | .setPending => (s.putPending .server true).setServerHandler .setInfoPending
  | .setInfoPending => (s.putPending .info true).setServerHandler .clearPending
  | .clearPending => (s.putPending .server false).setServerHandler .clearInfoPending
  | .clearInfoPending => (s.putPending .info false).setServerHandler .readStatus

def clientStep (s : State κ τ) (k : κ) : State κ τ :=
  match s.clientHandler k with
  | .idle => s
  | .setPending => (s.putPending (.client k) true).setClientHandler k .readStatus
  | .readStatus => s.setClientHandler k (.resetStatus (s.status (.client k)))
  | .resetStatus events =>
    if s.status (.client k) = events then
      (s.setStatus (.client k) 0).setClientHandler k (.clearPending events)
    else s.setClientHandler k .readStatus
  | .clearPending events =>
    (s.putPending (.client k) false).setClientHandler k
      (if events = 0 then .idle else .setPending)

inductive Action (κ τ : Type*)
  | call (t : τ) (f : Call κ)
  | sender (t : τ)
  | serverIrq
  | server
  | clientIrq (k : κ)
  | client (k : κ)

def step (s : State κ τ) : Action κ τ → State κ τ
  | .call t f =>
    match s.senders t with
    | .idle => s.setSender t f.entry
    | _ => s
  | .sender t => s.senderStep t
  | .serverIrq =>
    if 0 < s.ipcs none ∧ s.serverHandler = .idle then
      (s.setIpcs none (s.ipcs none - 1)).setServerHandler .readStatus
    else s
  | .server => s.serverStep
  | .clientIrq k =>
    if 0 < s.ipcs (some k) ∧ s.clientHandler k = .idle then
      (s.setIpcs (some k) (s.ipcs (some k) - 1)).setClientHandler k .setPending
    else s
  | .client k => s.clientStep k

end Steps

def start : State κ τ where
  status _ := 0
  pending _ := false
  senders _ := .idle
  ipcs _ := 0
  serverHandler := .idle
  clientHandler _ := .idle

structure Quiescent (s : State κ τ) : Prop where
  senders : ∀ t, s.senders t = .idle
  ipcs : ∀ l, s.ipcs l = 0
  serverHandler : s.serverHandler = .idle
  clientHandler : ∀ k, s.clientHandler k = .idle

def Silent (s : State κ τ) : Prop := ∀ c, s.status c = 0 ∧ s.pending c = false

def Recording (s : State κ τ) (c : Chan κ) : Prop := ∃ t, (s.senders t).Recorded c

def Coming (s : State κ τ) (l : Option κ) : Prop :=
  0 < s.ipcs l ∨ ∃ t, (s.senders t).Sends l

def Found (s : State κ τ) : Option κ → Prop
  | none => s.status .server ≠ 0 ∨ s.status .info ≠ 0
  | some _ => True

def Looks (s : State κ τ) : Chan κ → Prop
  | .server => s.serverHandler.Looks (s.status .info)
  | .info => s.serverHandler ≠ .idle
  | .client k => s.clientHandler k ≠ .idle

def Clears (s : State κ τ) : Chan κ → Prop
  | .server => s.serverHandler.Clears (s.Found none) (s.status .info) False
  | .info => s.serverHandler.Clears (s.Found none) (s.status .info) True
  | .client k => s.clientHandler k ≠ .idle

structure Inv (s : State κ τ) : Prop where
  status : ∀ c, s.status c ≠ 0 → s.Looks c ∨ s.Coming c.line ∨ s.Recording c
  pending : ∀ c, s.pending c = true → s.Clears c ∨ s.Found c.line ∧ s.Coming c.line

def SenderOk (s : State κ τ) : Sender κ → Prop
  | .setPending c => s.Clears c ∨ s.Found c.line
  | _ => True

def Ok (s : State κ τ) : Action κ τ → Prop
  | .sender t => s.SenderOk (s.senders t)
  | .client k =>
    s.clientHandler k = .clearPending 0 →
      s.status (.client k) = 0 ∨ s.Coming (some k) ∨ s.Recording (.client k)
  | _ => True

variable {s : State κ τ}

theorem Clears.looks {c : Chan κ} (h : s.Clears c) : s.Looks c := by
  cases c with
  | server => exact ServerHandler.Clears.looks h
  | info =>
    intro hidle
    rw [Clears, hidle] at h
    exact h
  | client k => exact h

theorem Inv.silent (h : Inv s) (hs : Quiescent s) : Silent s := by
  have hrec : ∀ c, ¬ s.Recording c := by
    rintro c ⟨t, ht⟩
    rw [hs.senders t] at ht
    exact ht
  have hcoming : ∀ l, ¬ s.Coming l := by
    rintro l (hn | ⟨t, ht⟩)
    · exact absurd (hs.ipcs l) hn.ne'
    · rw [hs.senders t] at ht
      exact ht
  have hlooks : ∀ c, ¬ s.Looks c := by
    intro c hl
    cases c with
    | server =>
      rw [Looks, hs.serverHandler] at hl
      exact hl
    | info => exact hl hs.serverHandler
    | client k => exact hl (hs.clientHandler k)
  intro c
  constructor
  · by_contra hne
    rcases h.status c hne with hl | hl | hl
    · exact hlooks c hl
    · exact hcoming _ hl
    · exact hrec c hl
  · by_contra hne
    rcases h.pending c (by simpa using hne) with hl | hl
    · exact hlooks c hl.looks
    · exact hcoming _ hl.2

theorem inv_start : Inv (start : State κ τ) where
  status _ h := absurd rfl h
  pending _ h := absurd h Bool.false_ne_true

section Status
variable [DecidableEq κ] {s : State κ τ} {c : Chan κ} {w : BitVec 32}
variable {d : Chan κ}

theorem setStatus_ne_zero (hw : w ≠ 0) (h : s.status d ≠ 0) : (s.setStatus c w).status d ≠ 0 := by
  simp only [setStatus, update_apply]
  split_ifs
  · exact hw
  · exact h

theorem found_setStatus (hw : w ≠ 0) {l : Option κ} (h : s.Found l) :
    (s.setStatus c w).Found l := by
  cases l with
  | none => exact h.imp (setStatus_ne_zero hw) (setStatus_ne_zero hw)
  | some k => trivial

theorem looks_setStatus (hw : w ≠ 0) (h : s.Looks d) : (s.setStatus c w).Looks d := by
  cases d with
  | server => exact ServerHandler.Looks.mono (setStatus_ne_zero hw) h
  | info => exact h
  | client k => exact h

theorem clears_setStatus (hw : w ≠ 0) (h : s.Clears d) : (s.setStatus c w).Clears d := by
  cases d with
  | server => exact ServerHandler.Clears.mono (found_setStatus hw) (setStatus_ne_zero hw) h
  | info => exact ServerHandler.Clears.mono (found_setStatus hw) (setStatus_ne_zero hw) h
  | client k => exact h

theorem inv_setStatus (h : Inv s) (hw : w ≠ 0) (hrec : s.Recording c) :
    Inv (s.setStatus c w) where
  status d hd := by
    by_cases hdc : d = c
    · exact .inr (.inr (hdc ▸ hrec))
    · have hd' : s.status d ≠ 0 := by simpa [setStatus, hdc] using hd
      exact (h.status d hd').imp_left (looks_setStatus hw)
  pending d hd := (h.pending d hd).imp (clears_setStatus hw) (And.imp_left (found_setStatus hw))

theorem inv_putPending_iff (h : Inv s) (hc : s.Coming c.line) :
    Inv (s.putPending c true) ↔ s.Clears c ∨ s.Found c.line := by
  refine ⟨fun h' => (h'.pending c (update_self ..)).imp_right And.left, fun hok => ?_⟩
  refine ⟨h.status, fun d hd => ?_⟩
  by_cases hdc : d = c
  · subst hdc
    exact hok.imp_right fun hf => ⟨hf, hc⟩
  · exact h.pending d (by simpa [putPending, hdc] using hd)

theorem inv_setIpcs (h : Inv s) (l : Option κ) : Inv (s.setIpcs l (s.ipcs l + 1)) := by
  have hcoming : ∀ m, s.Coming m → (s.setIpcs l (s.ipcs l + 1)).Coming m := by
    intro m
    refine Or.imp_left fun hm => ?_
    simp only [setIpcs, update_apply]
    split_ifs <;> omega
  exact ⟨fun d hd => (h.status d hd).imp_right (Or.imp_left (hcoming _)),
    fun d hd => (h.pending d hd).imp_right (And.imp_right (hcoming _))⟩

end Status
section SenderSteps
variable [DecidableEq τ] {s : State κ τ} {t : τ} {p : Sender κ} {c : Chan κ} {l : Option κ}

theorem recording_setSender (hp : p.Recorded c) : (s.setSender t p).Recording c :=
  ⟨t, by simpa [setSender] using hp⟩

theorem Recording.setSender (h : s.Recording c)
    (hp : (s.senders t).Recorded c → p.Recorded c) : (s.setSender t p).Recording c := by
  obtain ⟨u, hu⟩ := h
  rcases eq_or_ne u t with rfl | hut
  · exact recording_setSender (hp hu)
  · exact ⟨u, by simpa [State.setSender, hut] using hu⟩

theorem Coming.setSender (h : s.Coming l)
    (hp : (s.senders t).Sends l → p.Sends l ∨ 0 < s.ipcs l) : (s.setSender t p).Coming l := by
  rcases h with hn | ⟨u, hu⟩
  · exact .inl hn
  rcases eq_or_ne u t with rfl | hut
  · exact (hp hu).symm.imp_right fun hp => ⟨u, by simpa [State.setSender] using hp⟩
  · exact .inr ⟨u, by simpa [State.setSender, hut] using hu⟩

theorem inv_setSender (h : Inv s) (hsends : ∀ l, (s.senders t).Sends l → p.Sends l ∨ 0 < s.ipcs l)
    (hrec : ∀ c, s.status c ≠ 0 → (s.senders t).Recorded c →
      p.Recorded c ∨ s.Looks c ∨ s.Coming c.line) : Inv (s.setSender t p) where
  status c hc := by
    rcases h.status c hc with hl | hl | hr
    · exact .inl hl
    · exact .inr (.inl (hl.setSender (hsends _)))
    · by_cases ht : (s.senders t).Recorded c
      · rcases hrec c hc ht with hp | hl | hl
        · exact .inr (.inr (recording_setSender hp))
        · exact .inl hl
        · exact .inr (.inl (hl.setSender (hsends _)))
      · exact .inr (.inr (hr.setSender fun ht' => absurd ht' ht))
  pending c hc := (h.pending c hc).imp_right (And.imp_right fun hl => hl.setSender (hsends _))

variable [DecidableEq κ]

theorem inv_senderStep_iff (h : Inv s) :
    Inv (s.senderStep t) ↔ s.SenderOk (s.senders t) := by
  unfold senderStep
  cases ht : s.senders t with
  | idle => exact iff_of_true h trivial
  | read c flags => exact iff_of_true (inv_setSender h (by simp [ht, Sender.Sends])
      (by simp [ht, Sender.Recorded])) trivial
  | write c flags word =>
    have hw : word ||| flags.1 ≠ 0 := fun hor => flags.2 (BitVec.or_eq_zero_iff.1 hor).2
    have h' : Inv (s.setSender t (Sender.afterWrite c)) :=
      inv_setSender h (by simp [ht, Sender.Sends]) (by simp [ht, Sender.Recorded])
    exact iff_of_true
      (inv_setStatus h' hw (recording_setSender (Sender.recorded_afterWrite c))) trivial
  | test c =>
    refine iff_of_true (inv_setSender h (by simp [ht, Sender.Sends]) fun d hne hd => ?_) trivial
    rw [ht] at hd
    obtain rfl : c = d := hd
    have hz : ¬ s.status c &&& irqMask = 0 := by
      rwa [irqMask, show (~~~ 0 : BitVec 32) = BitVec.allOnes 32 from rfl, BitVec.and_allOnes]
    rw [if_neg hz]
    exact .inl rfl
  | check c =>
    refine iff_of_true (inv_setSender h (by simp [ht, Sender.Sends]) fun d _ hd => ?_) trivial
    rw [ht] at hd
    obtain rfl : c = d := hd
    split_ifs with hp
    · exact .inr ((h.pending c hp).imp Clears.looks And.right)
    · exact .inl rfl
  | setPending c =>
    have h' : Inv (s.setSender t (.send c)) :=
      inv_setSender h (by simp [ht, Sender.Sends]) fun d _ hd => .inl (by rwa [ht] at hd)
    exact inv_putPending_iff h' (.inr ⟨t, by simp [setSender, Sender.Sends]⟩)
  | send c =>
    have hpos : 0 < (s.setIpcs c.line (s.ipcs c.line + 1)).ipcs c.line := by simp [setIpcs]
    refine iff_of_true (inv_setSender (inv_setIpcs h c.line) ?_ ?_) trivial
    · intro l (hl : (s.senders t).Sends l)
      obtain rfl : c.line = l := by rwa [ht] at hl
      exact .inr hpos
    · intro d _ (hd : (s.senders t).Recorded d)
      obtain rfl : c = d := by rwa [ht] at hd
      exact .inr (.inr (.inl hpos))

end SenderSteps

structure ServerInv (a b : BitVec 32) (p q : Bool) (h : ServerHandler) (coming rs ri : Prop) :
    Prop where
  status : a ≠ 0 → h.Looks b ∨ coming ∨ rs
  info : b ≠ 0 → h ≠ .idle ∨ coming ∨ ri
  pending : p = true → h.Clears (a ≠ 0 ∨ b ≠ 0) b False ∨ (a ≠ 0 ∨ b ≠ 0) ∧ coming
  infoPending : q = true → h.Clears (a ≠ 0 ∨ b ≠ 0) b True ∨ (a ≠ 0 ∨ b ≠ 0) ∧ coming

namespace ServerInv
variable {a b : BitVec 32} {p q : Bool} {coming rs ri : Prop}

theorem move {h h' : ServerHandler} (g : ServerInv a b p q h coming rs ri)
    (hl : h.Looks b → h'.Looks b) (hne : h' ≠ .idle)
    (hc : ∀ f l, h.Clears f b l → h'.Clears f b l) : ServerInv a b p q h' coming rs ri :=
  ⟨fun ha => (g.status ha).imp_left hl, fun _ => .inl hne,
    fun hp => (g.pending hp).imp_left (hc _ _), fun hq => (g.infoPending hq).imp_left (hc _ _)⟩

theorem takeStatus (g : ServerInv a b p q (.resetStatus a) coming rs ri) :
    ServerInv 0 b p q (.readInfo a) coming rs ri where
  status h := absurd rfl h
  info _ := .inl ServerHandler.noConfusion
  pending h := .inl ((g.pending h).elim id And.left)
  infoPending h := .inl ((g.infoPending h).elim id And.left)

theorem stop {e : BitVec 32} (g : ServerInv a 0 p q (.resetInfo 0 e) coming rs ri) :
    ServerInv a 0 p q .idle coming rs ri where
  status h := .inr ((g.status h).resolve_left fun hl => hl.elim (absurd rfl) (absurd rfl))
  info h := absurd rfl h
  pending h := .inr ((g.pending h).resolve_left fun hl => hl.elim (absurd rfl) (absurd rfl))
  infoPending h :=
    .inr ((g.infoPending h).resolve_left fun hl => hl.elim (absurd rfl) (absurd rfl))

theorem body {h : ServerHandler} (hl : ∀ b, h.Looks b) (hne : h ≠ .idle)
    (hc : ∀ f b l, h.Clears f b l) : ServerInv a b p q h coming rs ri :=
  ⟨fun _ => .inl (hl b), fun _ => .inl hne, fun _ => .inl (hc _ b _), fun _ => .inl (hc _ b _)⟩

theorem clearPending : ServerInv a b false q .clearInfoPending coming rs ri where
  status _ := .inl trivial
  info _ := .inl ServerHandler.noConfusion
  pending h := absurd h Bool.false_ne_true
  infoPending _ := .inl (.inl trivial)

theorem clearInfoPending (g : ServerInv a b p q .clearInfoPending coming rs ri) :
    ServerInv a b p false .readStatus coming rs ri where
  status _ := .inl trivial
  info _ := .inl ServerHandler.noConfusion
  pending h := (g.pending h).imp_left fun hc => hc.resolve_left id
  infoPending h := absurd h Bool.false_ne_true

theorem start (g : ServerInv a b p q .idle coming rs ri) (coming' : Prop) :
    ServerInv a b p q .readStatus coming' rs ri where
  status _ := .inl trivial
  info _ := .inl ServerHandler.noConfusion
  pending h := .inl ((g.pending h).elim False.elim And.left)
  infoPending h := .inl ((g.infoPending h).elim False.elim And.left)

end ServerInv

theorem Inv.serverInv (h : Inv s) :
    ServerInv (s.status .server) (s.status .info) (s.pending .server) (s.pending .info)
      s.serverHandler (s.Coming none) (s.Recording .server) (s.Recording .info) :=
  ⟨h.status .server, h.status .info, h.pending .server, h.pending .info⟩

theorem inv_of_server {s' : State κ τ} (h : Inv s)
    (hrec : ∀ c, s.Recording c → s'.Recording c)
    (hcoming : ∀ k, s.Coming (some k) → s'.Coming (some k))
    (hclient : s'.clientHandler = s.clientHandler)
    (hwords : ∀ k, s'.status (.client k) = s.status (.client k) ∧
      s'.pending (.client k) = s.pending (.client k))
    (hserver : ServerInv (s'.status .server) (s'.status .info) (s'.pending .server)
      (s'.pending .info) s'.serverHandler (s'.Coming none) (s'.Recording .server)
      (s'.Recording .info)) : Inv s' where
  status c hc := by
    cases c with
    | server => exact hserver.status hc
    | info => exact hserver.info hc
    | client k =>
      rw [(hwords k).1] at hc
      rw [Looks, hclient]
      exact (h.status (.client k) hc).imp_right (Or.imp (hcoming k) (hrec _))
  pending c hc := by
    cases c with
    | server => exact hserver.pending hc
    | info => exact hserver.infoPending hc
    | client k =>
      rw [(hwords k).2] at hc
      rw [Clears, hclient]
      exact (h.pending (.client k) hc).imp_right fun hf => ⟨trivial, hcoming k hf.2⟩

section HandlerSteps
variable [DecidableEq κ] {s : State κ τ} {k : κ}

theorem serverStep_frame (s : State κ τ) :
    s.serverStep.senders = s.senders ∧ s.serverStep.ipcs = s.ipcs ∧
      s.serverStep.clientHandler = s.clientHandler ∧
      ∀ k, s.serverStep.status (.client k) = s.status (.client k) ∧
        s.serverStep.pending (.client k) = s.pending (.client k) := by
  unfold serverStep
  split
  all_goals try split_ifs
  all_goals exact ⟨rfl, rfl, rfl, fun _ => ⟨rfl, rfl⟩⟩

section
variable (h : Inv s)
include h

theorem inv_serverStep : Inv s.serverStep := by
  have g := h.serverInv
  obtain ⟨hsenders, hipcs, hclient, hwords⟩ := s.serverStep_frame
  have hrec : ∀ c, s.serverStep.Recording c ↔ s.Recording c := by simp_all [Recording]
  have hcoming : ∀ l, s.serverStep.Coming l ↔ s.Coming l := by
    intro l
    rw [Coming, Coming, hsenders, hipcs]
  refine inv_of_server h (fun c => (hrec c).2) (fun k => (hcoming _).2) hclient hwords ?_
  unfold serverStep
  cases hh : s.serverHandler with
  | idle => exact g
  | readStatus =>
    rw [hh] at g
    exact g.move id ServerHandler.noConfusion fun _ _ => id
  | resetStatus events =>
    rw [hh] at g
    dsimp only
    split_ifs with he
    · subst he
      exact g.takeStatus
    · exact g.move id ServerHandler.noConfusion fun _ _ => id
  | readInfo events =>
    rw [hh] at g
    exact g.move id ServerHandler.noConfusion fun _ _ => id
  | resetInfo events clientEvents =>
    rw [hh] at g
    dsimp only
    split_ifs with he hz
    · obtain ⟨rfl, rfl⟩ := hz
      rw [he] at g
      exact g.stop
    · exact .body (fun _ => trivial) ServerHandler.noConfusion fun _ _ _ => trivial
    · exact g.move id ServerHandler.noConfusion fun _ _ => id
  | setPending => exact .body (fun _ => trivial) ServerHandler.noConfusion fun _ _ _ => trivial
  | setInfoPending => exact .body (fun _ => trivial) ServerHandler.noConfusion fun _ _ _ => trivial
  | clearPending => exact .clearPending
  | clearInfoPending =>
    rw [hh] at g
    exact g.clearInfoPending

theorem inv_serverIrq (hidle : s.serverHandler = .idle) (n : ℕ) :
    Inv ((s.setIpcs none n).setServerHandler .readStatus) := by
  have g := h.serverInv
  rw [hidle] at g
  refine inv_of_server h (fun _ => id) (fun k hk => ?_) rfl (fun k => ⟨rfl, rfl⟩) (g.start _)
  exact hk.imp_left fun hn => by simpa [setIpcs, setServerHandler] using hn

theorem inv_setClientHandler {p : ClientHandler} (hp : p ≠ .idle) :
    Inv (s.setClientHandler k p) := by
  have hmono : ∀ j, s.clientHandler j ≠ .idle →
      (s.setClientHandler k p).clientHandler j ≠ .idle := by
    intro j hj
    simp only [setClientHandler, update_apply]
    split_ifs <;> assumption
  refine ⟨fun c hc => (h.status c hc).imp_left fun hl => ?_,
    fun c hc => (h.pending c hc).imp_left fun hl => ?_⟩ <;> cases c
  case refine_1.client j | refine_2.client j => exact hmono j hl
  all_goals exact hl

theorem inv_setStatus_client (hk : s.clientHandler k ≠ .idle) (w : BitVec 32) :
    Inv (s.setStatus (.client k) w) where
  status c hc := by
    by_cases hck : c = .client k
    · subst hck
      exact .inl hk
    · have := h.status c (by simpa [setStatus, hck] using hc)
      cases c <;> exact this
  pending c hc := by
    have := h.pending c hc
    cases c <;> exact this

theorem inv_putPending_client (hk : s.clientHandler k ≠ .idle) (b : Bool) :
    Inv (s.putPending (.client k) b) := by
  refine ⟨h.status, fun c hc => ?_⟩
  by_cases hck : c = .client k
  · subst hck
    exact .inl hk
  · exact h.pending c (by simpa [putPending, hck] using hc)

theorem inv_clientIrq (k : κ) (n : ℕ) :
    Inv ((s.setIpcs (some k) n).setClientHandler k .setPending) := by
  have h' := inv_setClientHandler (k := k) h (p := .setPending) ClientHandler.noConfusion
  have hk : (s.setClientHandler k .setPending).clientHandler k ≠ .idle := by
    simp [setClientHandler]
  have hcoming : ∀ c : Chan κ, c = .client k ∨ (s.Coming c.line →
      ((s.setIpcs (some k) n).setClientHandler k .setPending).Coming c.line) := by
    rintro (_ | _ | j)
    · exact .inr id
    · exact .inr id
    · refine (eq_or_ne j k).imp (congrArg _) fun hj => Or.imp_left fun hn => ?_
      simpa [setIpcs, setClientHandler, Chan.line, hj] using hn
  refine ⟨fun c hc => ?_, fun c hc => ?_⟩ <;> rcases hcoming c with rfl | hl
  · exact .inl hk
  · exact (h'.status c hc).imp_right (Or.imp_left hl)
  · exact .inl hk
  · exact (h'.pending c hc).imp_right (And.imp_right hl)

theorem inv_clear_client_iff :
    Inv ((s.putPending (.client k) false).setClientHandler k .idle) ↔
      (s.status (.client k) = 0 ∨ s.Coming (some k) ∨ s.Recording (.client k)) := by
  have hidle : ((s.putPending (.client k) false).setClientHandler k .idle).clientHandler k =
    .idle := update_self ..
  refine ⟨fun h' => ?_, fun hok => ⟨fun c hc => ?_, fun c hc => ?_⟩⟩
  · rw [or_iff_not_imp_left]
    exact fun hne => (h'.status (.client k) hne).resolve_left (absurd hidle)
  all_goals by_cases hck : c = .client k
  · subst hck
    exact .inr (hok.resolve_left hc)
  · refine (h.status c hc).imp_left fun hl => ?_
    cases c with
    | client j => simp_all [Looks, setClientHandler, putPending]
    | _ => exact hl
  · simp [putPending, setClientHandler, hck] at hc
  · have hc' : s.pending c = true := by simpa [putPending, setClientHandler, hck] using hc
    refine (h.pending c hc').imp_left fun hl => ?_
    cases c with
    | client j => simp_all [Clears, setClientHandler, putPending]
    | _ => exact hl

theorem inv_clientStep_iff (k : κ) : Inv (s.clientStep k) ↔ s.Ok (.client k) := by
  have hgo : ∀ p, p ≠ .idle → Inv (s.setClientHandler k p) := fun p hp => inv_setClientHandler h hp
  have hself : ∀ p, (s.setClientHandler k p).clientHandler k = p := fun p => update_self ..
  rw [clientStep, Ok]
  cases hh : s.clientHandler k with
  | idle => exact iff_of_true h (by simp)
  | setPending =>
    exact iff_of_true (inv_putPending_client (hgo .readStatus (by simp)) (by simp [hself]) _)
      (by simp)
  | readStatus => exact iff_of_true (hgo _ (by simp)) (by simp)
  | resetStatus events =>
    refine iff_of_true ?_ (by simp)
    dsimp only
    split_ifs
    · exact inv_setStatus_client (hgo (.clearPending events) (by simp)) (by simp [hself]) _
    · exact hgo _ (by simp)
  | clearPending events =>
    by_cases he : events = 0
    · simpa [he] using inv_clear_client_iff h
    · simp only [he, if_false, ClientHandler.clearPending.injEq, false_imp_iff, iff_true]
      exact inv_putPending_client (hgo .setPending (by simp)) (by simp [hself]) _

end

end HandlerSteps

section Runs
variable [DecidableEq κ] [DecidableEq τ]

theorem inv_step_iff {s : State κ τ} (h : Inv s) (a : Action κ τ) : Inv (s.step a) ↔ s.Ok a := by
  cases a with
  | call t f =>
    refine iff_of_true ?_ trivial
    unfold step
    dsimp only
    split
    next ht =>
      exact inv_setSender h (by simp [ht, Sender.Sends]) (by simp [ht, Sender.Recorded])
    next => exact h
  | sender t => exact inv_senderStep_iff h
  | serverIrq =>
    refine iff_of_true ?_ trivial
    unfold step
    split_ifs with hi
    · exact inv_serverIrq h hi.2 _
    · exact h
  | server => exact iff_of_true (inv_serverStep h) trivial
  | clientIrq k =>
    refine iff_of_true ?_ trivial
    unfold step
    dsimp only
    split_ifs with hi
    · exact inv_clientIrq h k _
    · exact h
  | client k => exact inv_clientStep_iff h k

/-- **No notification is lost or stuck if every step meets its condition**: a state without threads
inside and interrupts on the way has no recorded event and no pending flag. The invariant `Inv` is
kept by a step exactly when it meets its condition. -/
theorem silent_of_guarded_run (as : List (Action κ τ))
    (hguard : Runs.Guarded step Ok (start : State κ τ) as) :
    let s := run step (start : State κ τ) as
    (s.Quiescent → s.Silent) ∧ ∀ a, (s.step a).Inv ↔ s.Ok a := by
  intro s
  have hinv : Inv (run step (start : State κ τ) as) :=
    run_invariant (I := Inv) (fun s a h hok => (inv_step_iff h a).2 hok) inv_start hguard
  exact ⟨hinv.silent, inv_step_iff hinv⟩

def deliver (t : τ) (f : Call κ) (n : ℕ) : List (Action κ τ) :=
  .call t f :: replicate n (.sender t)

def oneEvent : List (Action (Fin 1) (Fin 1)) :=
  deliver 0 .deliverServerIrq 5 ++ .serverIrq :: replicate 12 .server

theorem silent_oneEvent : (run step start oneEvent).Silent := by
  have hguard : Runs.Guarded step Ok start oneEvent := by
    refine ⟨trivial, trivial, trivial, trivial, .inr (.inr (by decide)), trivial, trivial, ?_⟩
    exact ⟨trivial, trivial, trivial, trivial, trivial, trivial, trivial, trivial, trivial, trivial,
      trivial, trivial, trivial⟩
  refine (silent_of_guarded_run oneEvent hguard).1 ⟨?_, ?_, ?_, ?_⟩ <;> decide +kernel

def stuckRun : List (Action (Fin 1) (Fin 1)) :=
  deliver 0 .deliverServerIrq 5 ++ .serverIrq :: replicate 8 .server ++
    deliver 0 .deliverServerIrq 3 ++ replicate 12 .server ++
    [.sender 0, .sender 0, .serverIrq, .server, .server, .server, .server]

def lostRun : List (Action (Fin 1) (Fin 1)) :=
  deliver 0 (.deliverClientIrq 0) 5 ++ .clientIrq 0 :: replicate 7 (.client 0) ++
    deliver 0 (.deliverClientIrq 0) 3 ++ [.client 0]

theorem not_silent_stuckRun_lostRun :
    (run step start stuckRun).Quiescent ∧
      (run step start stuckRun).pending .info = true ∧
      (run step start lostRun).Quiescent ∧
      (run step start lostRun).status (.client 0) ≠ 0 := by
  refine ⟨⟨?_, ?_, ?_, ?_⟩, ?_, ⟨?_, ?_, ?_, ?_⟩, ?_⟩ <;> decide +kernel

end Runs
end State
end DriverReuse.BlockIrq
