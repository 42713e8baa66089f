import Afterburner.Lib.Ring
import Afterburner.Lib.Runs
import Afterburner.DriverReuse.StringTransfer

/-!
# The receive queue of the network server

Packets wait in a ring of socket buffers with two cursors; whether a slot is in use is told by its
pointer.
-/

namespace DriverReuse.NetReceive
open StringTransfer List Nat

structure Skb where
  addr : Word
  headlen : Word
  deriving DecidableEq

structure SkbRing where
  skbRing : ℕ → Option Skb
  cnt : ℕ
  startFree : ℕ
  startDirty : ℕ
  cnt_pos : 0 < cnt

variable (ring : SkbRing)

inductive FreeReason
  | notOperating
  | ringFull
  | transferred
  deriving DecidableEq

structure Client where
  operating : Bool
  rcvRing : SkbRing
  receiverCnt : ℕ
  receiverTids : ℕ → Word
  /-- `L4VMnet_flush_tasklet` has been scheduled -/
  flushScheduled : Bool
  /-- the calls of `dev_kfree_skb_any` so far -/
  freed : List (Skb × FreeReason)

variable (s : Client)

def attach (cnt : ℕ) (hcnt : 0 < cnt) : Client where
  operating := false
  rcvRing := ⟨fun _ => none, cnt, 0, 0, hcnt⟩
  receiverCnt := 0
  receiverTids := fun _ => 0
  flushScheduled := false
  freed := []

def rcvBufferCnt : ℕ := 16

def SkbRing.pending : ℕ :=
  (ring.startFree + ring.cnt - ring.startDirty) % ring.cnt

def queuePktToClient (skb : Skb) (dirtyTxPktCnt : ℕ) : Client :=
  let ring := s.rcvRing
  if !s.operating then { s with freed := s.freed ++ [(skb, .notOperating)] }
  else if (ring.skbRing ring.startFree).isSome then
    { s with freed := s.freed ++ [(skb, .ringFull)], flushScheduled := true }
  else
    let ring := { ring with
      skbRing := Function.update ring.skbRing ring.startFree (some skb)
      startFree := (ring.startFree + 1) % ring.cnt }
    { s with
      rcvRing := ring
      flushScheduled := s.flushScheduled || decide (ring.pending > 2 ∨ dirtyTxPktCnt = 0) }

def SkbRing.install (ring : SkbRing) : ℕ → ℕ → List Skb
  | 0, _ => []
  | n + 1, idx =>
    match ring.skbRing idx with
    | none => []
    | some skb =>
      let idx := (idx + 1) % ring.cnt
      -- wrap-around
      if idx = ring.startDirty then [skb] else skb :: ring.install n idx

def SkbRing.commit (ring : SkbRing) : ℕ → Word → Option (SkbRing × List Skb)
  | 0, _ => some (ring, [])
  | n + 1, transferredBytes =>
    if transferredBytes = 0 then some (ring, [])
    else
      match ring.skbRing ring.startDirty with
      | none => none
      | some skb =>
        if transferredBytes ≥ skb.headlen then
          let ring' := { ring with
            skbRing := Function.update ring.skbRing ring.startDirty none
            startDirty := (ring.startDirty + 1) % ring.cnt }
          (ring'.commit n (transferredBytes - skb.headlen)).map fun r => (r.1, skb :: r.2)
        else ring.commit n 0

def SkbRing.offered : List Skb := ring.install rcvBufferCnt ring.startDirty

def SkbRing.transferredBytes (err : Option Word) : Word :=
  xmitTransferred (ring.offered.map Skb.headlen).sum err

def sendPhaseError : Option Word → Bool
  | none => false
  | some err => decide (err >>> 1 &&& 7 ≤ 3)

def xmitPacketsToClientThread (receiver : ℕ) (err : Option Word) :
    Option (Bool × Client) :=
  if receiver ≥ s.receiverCnt then some (false, s)
  else
    let items := s.rcvRing.offered
    if items.length = 0 then some (false, s)
    else
      -- the receiver is taken off, and put back when nothing was sent
      let receiverTids :=
        if sendPhaseError err then s.receiverTids else Function.update s.receiverTids receiver 0
      (s.rcvRing.commit items.length (s.rcvRing.transferredBytes err)).map fun r =>
        (true, { s with
          rcvRing := r.1
          receiverTids := receiverTids
          freed := s.freed ++ r.2.map (·, .transferred) })

inductive Event
  | queue (skb : Skb) (dirtyTxPktCnt : ℕ)
  | xmit (receiver : ℕ) (err : Option Word)
  | operate (on : Bool)
  | share (receiverCnt : ℕ) (receiverTids : ℕ → Word)

def step : Event → Option Client
  | .queue skb dirtyTxPktCnt => some (queuePktToClient s skb dirtyTxPktCnt)
  | .xmit receiver err => (xmitPacketsToClientThread s receiver err).map Prod.snd
  | .operate on => some { s with operating := on }
  | .share receiverCnt receiverTids =>
    some { s with receiverCnt := receiverCnt, receiverTids := receiverTids }

def run (es : List Event) : Option Client := es.foldlM step s

def passed (es : List Event) : List Skb :=
  es.filterMap fun
    | .queue skb _ => some skb
    | _ => none

def SkbRing.contents : List Skb :=
  (range ring.cnt).filterMap fun j => ring.skbRing ((ring.startDirty + j) % ring.cnt)

def Client.left : List Skb :=
  (s.freed.filter fun f => f.2 = .transferred).map Prod.fst

structure Correct (ins : List Skb) (s : Client) : Prop where
  interval : ∃ n ≤ s.rcvRing.cnt,
    s.rcvRing.startFree = (s.rcvRing.startDirty + n) % s.rcvRing.cnt ∧
    ∀ j < s.rcvRing.cnt,
      (s.rcvRing.skbRing ((s.rcvRing.startDirty + j) % s.rcvRing.cnt)).isSome ↔ j < n
  ordered : List.Sublist (s.left ++ s.rcvRing.contents) ins
  once : List.Perm (s.freed.map Prod.fst ++ s.rcvRing.contents) ins

def Completes (err : Option Word) (s' : Client) : Prop :=
  ∃ k ≤ s.rcvRing.offered.length,
    s'.freed = s.freed ++ (s.rcvRing.offered.take k).map (·, .transferred) ∧
    bytes ((s.rcvRing.offered.take k).map Skb.headlen) ≤ (s.rcvRing.transferredBytes err).toNat

structure SkbRing.Queued (c : ℕ) (log : List Skb) : Prop where
  holds : Ring.Holds ring.cnt some (· = none) c log ring.skbRing
  startFree : ring.startFree = log.length % ring.cnt
  startDirty : ring.startDirty = c % ring.cnt

section Queued
variable {ring} {c : ℕ} {log : List Skb}

section
variable (h : ring.Queued c log)
include h

theorem SkbRing.Queued.contents_eq : ring.contents = log.drop c := by
  unfold SkbRing.contents
  rw [h.startDirty]
  exact h.holds.filterMap_range

theorem SkbRing.Queued.room (hslot : ring.skbRing ring.startFree = none) :
    log.length < c + ring.cnt :=
  h.holds.lt_of_free (fun x hx => Option.some_ne_none x hx) ring.cnt_pos
    (by rw [← h.startFree, hslot])

theorem SkbRing.Queued.queue (hslot : ring.skbRing ring.startFree = none) (skb : Skb) :
    SkbRing.Queued { ring with
      skbRing := Function.update ring.skbRing ring.startFree (some skb)
      startFree := (ring.startFree + 1) % ring.cnt } c (log ++ [skb]) := by
  refine ⟨?_, ?_, h.startDirty⟩
  · have hpush := h.holds.push (h.room hslot) skb
    rwa [← h.startFree] at hpush
  · simp only [h.startFree, Ring.succ_mod, length_append, length_singleton]

theorem SkbRing.Queued.leave (hc : c < log.length) :
    SkbRing.Queued { ring with
      skbRing := Function.update ring.skbRing ring.startDirty none
      startDirty := (ring.startDirty + 1) % ring.cnt } (c + 1) log := by
  refine ⟨?_, h.startFree, ?_⟩
  · have hpop := h.holds.pop hc ring.cnt_pos (b := none) rfl
    rwa [← h.startDirty] at hpop
  · simp only [h.startDirty, Ring.succ_mod]

theorem SkbRing.Queued.install_eq (n : ℕ) :
    ∀ k < ring.cnt, ring.install n ((c + k) % ring.cnt) = (log.drop (c + k)).take n := by
  induction n with
  | zero => intro k _; simp [SkbRing.install]
  | succ n ih =>
    intro k hk
    have hview := h.holds.view_eq (Nat.le_add_right c k) (Nat.add_lt_add_left hk c)
    unfold SkbRing.install
    unfold Ring.view at hview
    rw [hview]
    cases hx : log[c + k]? with
    | none => simp_all
    | some skb =>
      obtain ⟨hlt, hget⟩ := List.getElem?_eq_some_iff.1 hx
      have hrest : log.drop (c + k) = skb :: log.drop (c + k + 1) := by
        rw [← hget]
        exact drop_eq_getElem_cons hlt
      simp only [Ring.succ_mod, h.startDirty]
      rw [hrest, take_succ_cons]
      by_cases hlast : k + 1 = ring.cnt
      · -- the walk has come round, so the ring was full and nothing is left
        have hfits := h.holds.fits
        have hwrap : (c + k + 1) % ring.cnt = c % ring.cnt := by
          rw [add_assoc, hlast, add_mod_right]
        have hend : log.drop (c + k + 1) = [] := drop_eq_nil_of_le (by omega)
        rw [if_pos hwrap, hend, take_nil]
      · have hne : (c + k + 1) % ring.cnt ≠ c % ring.cnt := by
          intro heq
          have hc : Ring.InWindow ring.cnt c c := ⟨le_rfl, by omega⟩
          have hk' : Ring.InWindow ring.cnt c (c + k + 1) := ⟨by omega, by omega⟩
          have := (Ring.mod_eq_iff hk' hc).1 heq
          omega
        rw [if_neg hne]
        exact congrArg (skb :: ·) (ih (k + 1) (by omega))

theorem SkbRing.Queued.offered_eq : ring.offered = (log.drop c).take rcvBufferCnt := by
  unfold SkbRing.offered
  rw [h.startDirty]
  exact h.install_eq rcvBufferCnt 0 ring.cnt_pos

end

theorem SkbRing.Queued.commit_eq (n : ℕ) : ∀ {ring : SkbRing} {c : ℕ} (b : Word),
    ring.Queued c log → n ≤ (log.drop c).length →
    ∃ ring', ring.commit n b = some (ring', (log.drop c).take
        (StringTransfer.commit b (((log.drop c).take n).map Skb.headlen))) ∧
      ring'.Queued (c + StringTransfer.commit b (((log.drop c).take n).map Skb.headlen)) log := by
  induction n with
  | zero => simp [SkbRing.commit, StringTransfer.commit]
  | succ n ih =>
    intro ring c b h hn
    rw [length_drop] at hn
    have hlt : c < log.length := by omega
    obtain ⟨skb, hskb, hslot⟩ := h.holds.front hlt
    have hrest : log.drop c = skb :: log.drop (c + 1) := by
      rw [List.drop_eq_getElem_cons hlt, (List.getElem?_eq_some_iff.1 hskb).2]
    have hn' : n ≤ (log.drop (c + 1)).length := by
      rw [List.length_drop]
      omega
    rw [← h.startDirty] at hslot
    unfold SkbRing.commit
    rw [hrest, take_succ_cons, map_cons, StringTransfer.commit]
    by_cases hb : b = 0
    · simp_all
    · rw [if_neg hb, if_neg hb, hslot]
      by_cases hle : b ≥ skb.headlen
      · obtain ⟨ring', hcommit, hq⟩ := ih (b - skb.headlen) (h.leave hlt) hn'
        simp only [if_pos hle, hcommit, Option.map_some, take_succ_cons]
        refine ⟨ring', rfl, ?_⟩
        rwa [add_right_comm] at hq
      · obtain ⟨ring', hcommit, hq⟩ := ih 0 h (by rw [length_drop]; omega)
        simp only [commit_zero, take_zero, add_zero] at hcommit hq
        simp only [if_neg hle, commit_zero, take_zero, add_zero]
        exact ⟨ring', hcommit, hq⟩

end Queued

structure Inv (c : ℕ) (log ins : List Skb) (s : Client) : Prop where
  queued : s.rcvRing.Queued c log
  left : s.left = log.take c
  sublist : List.Sublist log ins
  perm : List.Perm (s.freed.map Prod.fst ++ log.drop c) ins

theorem inv_attach (cnt : ℕ) (hcnt : 0 < cnt) : Inv 0 [] [] (attach cnt hcnt) where
  queued := ⟨Ring.Holds.init fun _ => rfl, by simp [attach], by simp [attach]⟩
  left := rfl
  sublist := List.Sublist.refl []
  perm := List.Perm.refl []

section Inv
variable {c : ℕ} {log ins : List Skb} {s}

theorem Inv.correct (h : Inv c log ins s) : Correct ins s where
  interval := by
    have hle := h.queued.holds.le
    refine ⟨log.length - c, by have := h.queued.holds.fits; omega, ?_, fun j hj => ?_⟩
    · rw [h.queued.startFree, h.queued.startDirty, Nat.mod_add_mod, Nat.add_sub_cancel' hle]
    · have hview := h.queued.holds.view_eq (Nat.le_add_right c j) (Nat.add_lt_add_left hj c)
      unfold Ring.view at hview
      rw [h.queued.startDirty, Nat.mod_add_mod, hview, isSome_getElem?]
      omega
  ordered := by
    rw [h.left, h.queued.contents_eq, take_append_drop]
    exact h.sublist
  once := by
    rw [h.queued.contents_eq]
    exact h.perm

theorem Inv.free (h : Inv c log ins s) (skb : Skb) {r : FreeReason} (hr : r ≠ .transferred)
    (b : Bool) :
    Inv c log (ins ++ [skb]) { s with freed := s.freed ++ [(skb, r)], flushScheduled := b } where
  queued := h.queued
  left := by
    have hleft := h.left
    unfold Client.left at hleft ⊢
    simp [hr, hleft]
  sublist := h.sublist.trans (sublist_append_left ins [skb])
  perm := by
    have hperm := h.perm.append_right [skb]
    simp only [map_append, map_cons, map_nil]
    refine List.Perm.trans ?_ hperm
    rw [append_assoc, append_assoc]
    exact perm_append_comm.append_left _

theorem Inv.queue (h : Inv c log ins s) (skb : Skb) (dirtyTxPktCnt : ℕ) :
    ∃ log', Inv c log' (ins ++ [skb]) (queuePktToClient s skb dirtyTxPktCnt) := by
  unfold queuePktToClient
  by_cases hop : s.operating
  · rw [if_neg (by simp [hop])]
    by_cases hslot : (s.rcvRing.skbRing s.rcvRing.startFree).isSome
    · rw [if_pos hslot]
      exact ⟨log, h.free skb (r := .ringFull) (by decide) true⟩
    · rw [if_neg hslot]
      have hle := h.queued.holds.le
      have hnull := Option.not_isSome_iff_eq_none.1 hslot
      refine ⟨log ++ [skb], h.queued.queue hnull skb, ?_, h.sublist.append_right [skb], ?_⟩
      · rw [take_append_of_le_length hle]
        exact h.left
      · rw [drop_append_of_le_length hle, ← append_assoc]
        exact h.perm.append_right [skb]
  · rw [if_pos (by simp [hop])]
    exact ⟨log, h.free skb (r := .notOperating) (by decide) s.flushScheduled⟩

theorem Inv.xmit (h : Inv c log ins s) (receiver : ℕ) (err : Option Word) :
    ∃ b s' c', xmitPacketsToClientThread s receiver err = some (b, s') ∧ Inv c' log ins s' ∧
      Completes s err s' := by
  have hnone : Completes s err s := ⟨0, zero_le _, by simp, by simp⟩
  unfold xmitPacketsToClientThread
  by_cases hrec : receiver ≥ s.receiverCnt
  · rw [if_pos hrec]
    exact ⟨false, s, c, rfl, h, hnone⟩
  rw [if_neg hrec]
  by_cases hitems : s.rcvRing.offered.length = 0
  · simp only [hitems, if_pos]
    exact ⟨false, s, c, rfl, h, hnone⟩
  simp only [if_neg hitems]
  have hoff := h.queued.offered_eq
  have hlen : s.rcvRing.offered.length ≤ (log.drop c).length := by simp [hoff]
  have htake : (log.drop c).take s.rcvRing.offered.length = s.rcvRing.offered := by
    simp [hoff, length_take, take_eq_take_iff]
  obtain ⟨ring', hcommit, hq⟩ :=
    SkbRing.Queued.commit_eq s.rcvRing.offered.length (s.rcvRing.transferredBytes err) h.queued hlen
  rw [htake] at hcommit hq
  generalize hk : StringTransfer.commit (s.rcvRing.transferredBytes err)
    (s.rcvRing.offered.map Skb.headlen) = k at hcommit hq
  obtain ⟨hkle, hkbytes⟩ :=
    commit_mem_arrived (s.rcvRing.transferredBytes err) (s.rcvRing.offered.map Skb.headlen)
  rw [hk, length_map] at hkle
  rw [hk, ← map_take] at hkbytes
  have hfreed : (log.drop c).take k = s.rcvRing.offered.take k := by
    conv_rhs => rw [← htake]
    rw [take_take, min_eq_left hkle]
  rw [hcommit]
  refine ⟨true, _, c + k, rfl, ⟨hq, ?_, h.sublist, ?_⟩, k, hkle, ?_, hkbytes⟩
  · have hleft := h.left
    unfold Client.left at hleft ⊢
    have hall : (((log.drop c).take k).map (·, FreeReason.transferred)).filter
        (fun f => f.2 = .transferred) = ((log.drop c).take k).map (·, FreeReason.transferred) :=
      filter_eq_self.2 fun f hf => by
        obtain ⟨x, -, rfl⟩ := mem_map.1 hf
        simp
    rw [filter_append, map_append, hleft, hall, take_add, map_map]
    exact congrArg (log.take c ++ ·) (map_id _)
  · have hperm := h.perm
    simpa [Function.comp_def] using hperm
  · rw [hfreed]

end Inv

def Good (es : List Event) (s : Client) : Prop := ∃ c log, Inv c log (passed es) s

theorem passed_append (es es' : List Event) : passed (es ++ es') = passed es ++ passed es' :=
  filterMap_append

theorem good_step (es : List Event) (e : Event) (s : Client) (h : Good es s) :
    ∃ s', step s e = some s' ∧ Good (es ++ [e]) s' := by
  obtain ⟨c, log, h⟩ := h
  unfold Good
  rw [passed_append]
  cases e with
  | queue skb dirtyTxPktCnt =>
    obtain ⟨log', h'⟩ := h.queue skb dirtyTxPktCnt
    exact ⟨_, rfl, c, log', h'⟩
  | xmit receiver err =>
    obtain ⟨b, s', c', hxmit, h', -⟩ := h.xmit receiver err
    refine ⟨s', by rw [step, hxmit]; rfl, c', log, ?_⟩
    rwa [show passed [.xmit receiver err] = [] from rfl, append_nil]
  | operate on =>
    refine ⟨_, rfl, c, log, h.queued, h.left, ?_, ?_⟩
    · simpa [passed] using h.sublist
    · simpa [passed] using h.perm
  | share receiverCnt receiverTids =>
    refine ⟨_, rfl, c, log, h.queued, h.left, ?_, ?_⟩
    · simpa [passed] using h.sublist
    · simpa [passed] using h.perm

/-- **The receive queue.** After any events, with any errors of the IPCs, no null pointer was
followed, the queue is correct for the packets passed in, and a transmission frees those from the
front that it transfers as a whole. -/
theorem receiveQueue_correct (cnt : ℕ) (hcnt : 0 < cnt) (es : List Event) :
    ∃ s, run (attach cnt hcnt) es = some s ∧ Correct (passed es) s ∧
      ∀ receiver err, ∃ b s', xmitPacketsToClientThread s receiver err = some (b, s') ∧
        Completes s err s' := by
  obtain ⟨s, hrun, c, log, h⟩ :=
    Runs.foldlM_total good_step es [] (attach cnt hcnt) ⟨0, [], inv_attach cnt hcnt⟩
  refine ⟨s, hrun, h.correct, fun receiver err => ?_⟩
  obtain ⟨b, s', -, hxmit, -, hcompl⟩ := h.xmit receiver err
  exact ⟨b, s', hxmit, hcompl⟩

def cutTransfer : List Event :=
  [.operate true, .share 1 fun _ => 7, .queue ⟨1, 60⟩ 1, .queue ⟨2, 40⟩ 1, .queue ⟨3, 50⟩ 1,
    .xmit 0 (some (70 <<< 4 ||| 4 <<< 1))]

theorem receiveQueue_cutTransfer :
    (∃ s, run (attach 2 two_pos) cutTransfer = some s ∧ Correct (passed cutTransfer) s ∧
      ∀ receiver err, ∃ b s', xmitPacketsToClientThread s receiver err = some (b, s') ∧
        Completes s err s') ∧
    (run (attach 2 two_pos) cutTransfer).map Client.freed =
      some [(⟨3, 50⟩, .ringFull), (⟨1, 60⟩, .transferred)] ∧
    (run (attach 2 two_pos) cutTransfer).map (fun s => s.rcvRing.contents) =
      some [⟨2, 40⟩] :=
  ⟨receiveQueue_correct 2 two_pos cutTransfer, by decide +kernel, by decide +kernel⟩

end DriverReuse.NetReceive
