import Mathlib
import Afterburner.Lib.Runs

/-!
# The receive packets of the native driver

A packet is free, or the buffer of a receive descriptor, or in the rings of the interfaces that
`refcnt` counts. Frames come in from the moment the driver is open, before the clients attach, and
an attach clears the ring of its interface.
-/

namespace DriverNative.RxPackets
open Function List BitVec Finset Option

abbrev Packet := Fin 1024
abbrev Desc := Fin 128

/-- `free` is the packet pool, `posted` the buffers of the descriptor ring. -/
structure State (clients : ℕ) where
  free : List Packet
  posted : Desc → Option Packet
  dirty : Desc
  /-- `rx_ring` of each interface, from `dirty` on. -/
  ring : Fin clients → List Packet
  refcnt : Packet → BitVec 8
  pktLen : Packet → BitVec 16
  /-- The interfaces for which `driver` and `shared` are set. -/
  attached : Fin clients → Bool
  /-- `iface_list`; an interface that is added twice closes it to a cycle. -/
  listed : List (Fin clients)
  nodup_listed : listed.Nodup
  cyclic : Bool

inductive Dest
  | broadcast
  | unicast (handle : BitVec 16)

structure Frame where
  good : Bool
  length : BitVec 16
  dest : Dest

/-- What the reply with the packets comes back with. -/
inductive Outcome
  | sent
  | sendError
  | overflow (bytes : BitVec 32)

namespace State
variable {clients : ℕ} (s : State clients)

/-- A descriptor gets the next packet of the pool. -/
def post (d : Desc) : State clients :=
  { s with posted := update s.posted d s.free.head?, free := s.free.tail }

def opened (clients : ℕ) : State clients :=
  (finRange 128).foldl (fun s d => if s.posted d = none then s.post d else s)
    ⟨finRange 1024, fun _ => none, 0, fun _ => [], fun _ => 0, fun _ => 0, fun _ => false, [],
      nodup_nil, false⟩

def queueCopyPkt (p : Packet) (i : Fin clients) : State clients :=
  if (s.ring i).length = 255 then s
  else
    { s with
      refcnt := update s.refcnt p (s.refcnt p + 1)
      ring := update s.ring i (s.ring i ++ [p]) }

/-- The interfaces that are offered a frame: a walk around a cycle never ends. -/
def takers (f : Frame) : Option (List (Fin clients)) :=
  if f.good = false then some []
  else
    match f.dest with
    | .broadcast => if s.cyclic then none else some s.listed
    | .unicast handle => some (if h : handle.toNat < clients then [⟨handle.toNat, h⟩] else [])

def cleanFrame (s : State clients) (f : Frame) : Option (State clients) :=
  (s.posted s.dirty).bind fun p => (s.takers f).map fun ifaces =>
    let s := if f.good then { s with pktLen := update s.pktLen p (f.length - 4) } else s
    let s : State clients := ifaces.foldl (fun s i => s.queueCopyPkt p i) s
    let s := if s.refcnt p = 0 then s else s.post s.dirty
    { s with dirty := s.dirty + 1 }

def cleanCopyRx (s : State clients) (frames : List Frame) : Option (State clients) :=
  frames.foldlM cleanFrame s

def release (i : Fin clients) (p : Packet) (rest : List Packet) : State clients :=
  let s := { s with
    ring := update s.ring i rest
    refcnt := update s.refcnt p (s.refcnt p - 1) }
  if s.refcnt p = 0 then { s with free := p :: s.free } else s

def commit (i : Fin clients) : ℕ → BitVec 32 → State clients → State clients
  | 0, _, s => s
  | items + 1, bytes, s =>
    match s.ring i with
    | [] => s
    | p :: rest =>
      if bytes ≠ 0 ∧ (s.pktLen p).setWidth 32 ≤ bytes then
        commit i items (bytes - (s.pktLen p).setWidth 32) (s.release i p rest)
      else s

def xmitPktsToClient (bufferCnt : ℕ) (i : Fin clients) (receiver : Bool) (o : Outcome) :
    State clients :=
  if receiver = false then s
  else
    let items := (s.ring i).take bufferCnt
    let bytes :=
      match o with
      | .sent => (items.map fun p => (s.pktLen p).setWidth 32).sum
      | .sendError => 0
      | .overflow bytes => bytes
    commit i items.length bytes s

/-- `NetIface::init`, which empties the ring. -/
def attach (i : Fin clients) : State clients :=
  { s with ring := update s.ring i [], attached := update s.attached i true }

/-- `add_iface`. -/
def activate (i : Fin clients) : State clients :=
  if h : i ∈ s.listed then { s with cyclic := true }
  else { s with listed := i :: s.listed, nodup_listed := nodup_cons.2 ⟨h, s.nodup_listed⟩ }

end State

inductive Event (clients : ℕ)
  | cleanCopyRx (frames : List Frame)
  | xmit (i : Fin clients) (receiver : Bool) (o : Outcome)
  | attach (i : Fin clients)
  | start (i : Fin clients)

section
variable {clients : ℕ}

/-- Before the attach `shared` and `driver` of an interface are null pointers. -/
def step (bufferCnt : ℕ) (s : State clients) : Event clients → Option (State clients)
  | .cleanCopyRx frames => s.cleanCopyRx frames
  | .xmit i receiver o =>
    if s.attached i then some (s.xmitPktsToClient bufferCnt i receiver o) else none
  | .attach i => some (s.attach i)
  | .start i => if s.attached i then some (s.activate i) else none

def held (s : State clients) (p : Packet) : ℕ := ∑ i, (s.ring i).count p
def indicator (p : Packet) (o : Option Packet) : ℕ := if o = some p then 1 else 0
def postings (s : State clients) (p : Packet) : ℕ := ∑ d, indicator p (s.posted d)

/-- `refcnt` counts the rings that hold a packet. -/
structure Counted (s : State clients) : Prop where
  nodup : ∀ i, (s.ring i).Nodup
  refcnt : ∀ p, (s.refcnt p).toNat = held s p

/-- Each packet is free, posted in one descriptor, or queued. -/
structure Conserved (s : State clients) : Prop extends Counted s where
  once : ∀ p, s.free.count p + postings s p + (if held s p = 0 then 0 else 1) = 1

variable {s : State clients} {p : Packet} {i : Fin clients} {d : Desc}

theorem sum_update {ι β : Type} [Fintype ι] [DecidableEq ι] (f : ι → β) (g : β → ℕ) (i : ι)
    (b : β) :
    ∑ j, g (update f i b j) + g (f i) = ∑ j, g (f j) + g b := by
  rw [← add_sum_erase _ _ (mem_univ i), update_self,
    ← add_sum_erase univ (fun j => g (f j)) (mem_univ i),
    sum_congr rfl fun j hj => by rw [update_of_ne (ne_of_mem_erase hj)]]
  omega

theorem Counted.held_le (h : ∀ i, (s.ring i).Nodup) : held s p ≤ clients := by
  have hsum := sum_le_card_nsmul univ (fun i => (s.ring i).count p) 1
    fun i _ => nodup_iff_count_le_one.1 (h i) p
  simpa [held] using hsum

theorem Counted.refcnt_eq_zero (h : Counted s) : s.refcnt p = 0 ↔ held s p = 0 := by
  rw [← h.refcnt]
  exact toNat_inj.symm

theorem Counted.queueCopyPkt (h : Counted s) (hn : clients < 256) (hp : p ∉ s.ring i) :
    let t := s.queueCopyPkt p i
    Counted t ∧ (∀ q ≠ p, held t q = held s q) ∧ (∀ j ≠ i, t.ring j = s.ring j) ∧
      t.free = s.free ∧ t.posted = s.posted ∧ t.dirty = s.dirty := by
  unfold State.queueCopyPkt
  split_ifs
  · exact ⟨h, fun _ _ => rfl, fun _ _ => rfl, rfl, rfl, rfl⟩
  set t : State clients := { s with
    refcnt := update s.refcnt p (s.refcnt p + 1)
    ring := update s.ring i (s.ring i ++ [p]) }
  have hheld : ∀ q, held t q = held s q + if p = q then 1 else 0 := fun q => by
    have hsum := sum_update s.ring (count q) i (s.ring i ++ [p])
    rw [count_append, count_singleton] at hsum
    simp only [beq_iff_eq] at hsum
    simp only [held, t]
    omega
  have hnodup : ∀ j, (t.ring j).Nodup := fun j => by
    by_cases hj : j = i
    · subst hj
      simpa [t, nodup_append, h.nodup] using fun b hb (e : b = p) => hp (e ▸ hb)
    · simpa [t, hj] using h.nodup j
  refine ⟨⟨hnodup, fun q => ?_⟩, fun q hq => ?_, fun j hj => update_of_ne hj _ _, rfl, rfl,
    rfl⟩
  · have hle := Counted.held_le hnodup (p := q)
    have hq := h.refcnt q
    rw [hheld] at hle ⊢
    by_cases hpq : q = p
    · subst hpq
      simp only [t, update_self, toNat_add, reduceToNat, if_true] at hle ⊢
      omega
    · simpa [t, hpq, Ne.symm hpq] using hq
  · rw [hheld, if_neg (Ne.symm hq), Nat.add_zero]

theorem Counted.foldl_queue (hn : clients < 256) {l : List (Fin clients)} (hl : l.Nodup)
    (h : Counted s) (hp : ∀ i ∈ l, p ∉ s.ring i) :
    let t := l.foldl (fun s i => s.queueCopyPkt p i) s
    Counted t ∧ (∀ q ≠ p, held t q = held s q) ∧ t.free = s.free ∧ t.posted = s.posted ∧
      t.dirty = s.dirty := by
  induction l generalizing s with
  | nil => exact ⟨h, fun _ _ => rfl, rfl, rfl, rfl⟩
  | cons i l ih =>
    obtain ⟨hi, hl⟩ := nodup_cons.1 hl
    obtain ⟨hq, hheld, hring, hfree, hposted, hdirty⟩ := h.queueCopyPkt hn (hp i mem_cons_self)
    obtain ⟨ht, hheld', hfree', hposted', hdirty'⟩ := ih hl hq fun j hj => by
      rw [hring j fun e => hi (e ▸ hj)]
      exact hp j (mem_cons_of_mem i hj)
    exact ⟨ht, fun q hq => (hheld' q hq).trans (hheld q hq), hfree'.trans hfree,
      hposted'.trans hposted, hdirty'.trans hdirty⟩

theorem post_count (s : State clients) (d : Desc) (q : Packet) :
    (s.post d).free.count q + postings (s.post d) q + indicator q (s.posted d) =
      s.free.count q + postings s q := by
  have hsum := sum_update s.posted (indicator q) d s.free.head?
  have hfree : s.free.tail.count q + indicator q s.free.head? = s.free.count q := by
    cases s.free <;> simp [indicator, count_cons]
  simp only [State.post, postings]
  omega

theorem Conserved.post (h : Conserved s) (hd : s.posted d = none) : Conserved (s.post d) := by
  refine { h.toCounted with once := fun q => ?_ }
  have hcount := post_count s d q
  have honce := h.once q
  rw [hd, indicator, if_neg (by simp)] at hcount
  have hsame : held (s.post d) q = held s q := rfl
  rw [hsame]
  omega

theorem Conserved.given (h : Conserved s) (hd : s.posted d = some p) {t : State clients}
    (ht : Counted t) (hheld : ∀ q ≠ p, held t q = held s q) (hfree : t.free = s.free)
    (hposted : t.posted = s.posted) : Conserved (if t.refcnt p = 0 then t else t.post d) := by
  have hpostings : ∀ q, postings t q = postings s q := fun q => by rw [postings, hposted, postings]
  have hpos : 0 < postings s p :=
    sum_pos' (fun _ _ => Nat.zero_le _) ⟨d, mem_univ d, by simp [indicator, hd]⟩
  split_ifs with hzero <;> rw [ht.refcnt_eq_zero] at hzero
  · refine { ht with once := fun q => ?_ }
    have honce := h.once q
    rw [hfree, hpostings]
    by_cases hq : q = p
    · subst hq
      rw [hzero]
      split_ifs at honce <;> simp <;> omega
    · rw [hheld q hq]
      exact honce
  · refine { ht with once := fun q => ?_ }
    have honce := h.once q
    have hcount := post_count t d q
    rw [hfree, hpostings, hposted, hd, indicator] at hcount
    have hsame : held (t.post d) q = held t q := rfl
    rw [hsame]
    by_cases hq : q = p
    · subst hq
      rw [if_neg hzero]
      split_ifs at honce <;> simp at hcount <;> omega
    · rw [hheld q hq]
      simp only [some.injEq, Ne.symm hq, if_false] at hcount
      omega

theorem Conserved.notMem_ring (h : Conserved s) (hd : s.posted d = some p) (i : Fin clients) :
    p ∉ s.ring i := by
  intro hi
  have hpos : 0 < postings s p :=
    sum_pos' (fun _ _ => Nat.zero_le _) ⟨d, mem_univ d, by simp [indicator, hd]⟩
  have hheld : 0 < held s p :=
    sum_pos' (fun _ _ => Nat.zero_le _) ⟨i, mem_univ i, count_pos_iff.2 hi⟩
  have honce := h.once p
  rw [if_neg hheld.ne'] at honce
  omega

theorem nodup_takers {f : Frame} {l : List (Fin clients)} (hl : s.takers f = some l) :
    l.Nodup := by
  unfold State.takers at hl
  split at hl
  · obtain rfl := some.inj hl
    exact nodup_nil
  · split at hl
    · split_ifs at hl
      obtain rfl := some.inj hl
      exact s.nodup_listed
    · obtain rfl := some.inj hl
      split_ifs <;> simp

theorem Conserved.cleanFrame (hn : clients < 256) (h : Conserved s) {f : Frame} {t : State clients}
    (ht : s.cleanFrame f = some t) : Conserved t := by
  obtain ⟨p, hp, ht⟩ := bind_eq_some_iff.1 ht
  obtain ⟨l, hl, rfl⟩ := map_eq_some_iff.1 ht
  set u := if f.good then { s with pktLen := update s.pktLen p (f.length - 4) } else s
    with hu
  have hcons : Conserved u ∧ u.posted u.dirty = some p := by
    rw [hu]
    split_ifs
    · exact ⟨{ h with }, hp⟩
    · exact ⟨h, hp⟩
  obtain ⟨hcons, hp⟩ := hcons
  obtain ⟨ht, hheld, hfree, hposted, hdirty⟩ := hcons.toCounted.foldl_queue hn (nodup_takers hl)
    (p := p) fun i _ => hcons.notMem_ring hp i
  have hgiven := hcons.given hp ht hheld hfree hposted
  rw [← hdirty] at hgiven
  exact { hgiven with }

theorem Conserved.release (h : Conserved s) {rest : List Packet} (hring : s.ring i = p :: rest) :
    Conserved (s.release i p rest) := by
  set t : State clients := { s with
    ring := update s.ring i rest
    refcnt := update s.refcnt p (s.refcnt p - 1) }
  have hheld : ∀ q, held t q + (if p = q then 1 else 0) = held s q := fun q => by
    have hsum := sum_update s.ring (count q) i rest
    rw [hring, count_cons] at hsum
    simp only [beq_iff_eq] at hsum
    simp only [held, t]
    omega
  have hcounted : Counted t := by
    refine ⟨fun j => ?_, fun q => ?_⟩
    · by_cases hj : j = i
      · subst hj
        simpa [t] using (nodup_cons.1 (hring ▸ h.nodup j)).2
      · simpa [t, hj] using h.nodup j
    · have hq := h.refcnt q
      have hlt := (s.refcnt q).isLt
      specialize hheld q
      by_cases hpq : q = p
      · subst hpq
        simp only [t, update_self, toNat_sub, reduceToNat, if_true]
          at hheld ⊢
        omega
      · simpa [t, hpq, Ne.symm hpq, ← hheld] using hq
  show Conserved (if t.refcnt p = 0 then { t with free := p :: t.free } else t)
  split_ifs with hzero <;> rw [hcounted.refcnt_eq_zero] at hzero <;>
    refine { hcounted with once := fun q => ?_ } <;> have honce := h.once q <;>
    have hq := hheld q
  · show (p :: s.free).count q + postings s q + (if held t q = 0 then 0 else 1) = 1
    rw [count_cons]
    by_cases hpq : p = q
    · subst hpq
      rw [if_pos rfl] at hq
      rw [if_neg (by omega)] at honce
      simp [hzero]
      omega
    · simp_all
  · show s.free.count q + postings s q + (if held t q = 0 then 0 else 1) = 1
    by_cases hpq : p = q
    · subst hpq
      rw [if_pos rfl] at hq
      rw [if_neg (by omega)] at honce
      rw [if_neg hzero]
      exact honce
    · simp_all

theorem Conserved.commit (h : Conserved s) (items : ℕ) (bytes : BitVec 32) :
    Conserved (State.commit i items bytes s) := by
  induction items generalizing s bytes with
  | zero => exact h
  | succ items ih =>
    unfold State.commit
    split
    · exact h
    · next p rest hring =>
      split_ifs
      · exact ih (h.release hring) _
      · exact h

/-- An attach loses what is in the ring. -/
theorem Conserved.attach_iff (h : Conserved s) : Conserved (s.attach i) ↔ s.ring i = [] := by
  constructor
  · intro hattach
    by_contra hring
    obtain ⟨p, rest, hring⟩ := exists_cons_of_ne_nil hring
    have hsum := sum_update s.ring (count p) i []
    have hcount := hattach.refcnt p
    have hheld : held (s.attach i) p + (s.ring i).count p = held s p := by
      simpa [held, State.attach] using hsum
    rw [hring, count_cons_self] at hheld
    have hsame : (s.attach i).refcnt p = s.refcnt p := rfl
    rw [hsame, h.refcnt p] at hcount
    omega
  · intro hring
    have hsame : s.attach i = { s with attached := update s.attached i true } := by
      rw [State.attach, ← hring, update_eq_self]
    rw [hsame]
    exact { h with }

theorem Conserved.activate (h : Conserved s) (i : Fin clients) : Conserved (s.activate i) := by
  unfold State.activate
  split_ifs
  · exact { h with }
  · exact { h with }

theorem conserved_opened : Conserved (State.opened clients) := by
  unfold State.opened
  generalize finRange 128 = l
  have hstart : Conserved (⟨finRange 1024, fun _ => none, 0, fun _ => [], fun _ => 0, fun _ => 0,
      fun _ => false, [], nodup_nil, false⟩ : State clients) := by
    refine ⟨⟨fun _ => nodup_nil, fun p => ?_⟩, fun p => ?_⟩ <;>
      simp [held, postings, indicator]
  generalize (⟨finRange 1024, fun _ => none, 0, fun _ => [], fun _ => 0, fun _ => 0,
    fun _ => false, [], nodup_nil, false⟩ : State clients) = s at hstart
  induction l generalizing s with
  | nil => exact hstart
  | cons d l ih =>
    refine ih _ ?_
    dsimp only
    split_ifs with hd
    · exact hstart.post hd
    · exact hstart

def EmptyRing (s : State clients) : Event clients → Prop
  | .attach i => s.ring i = []
  | _ => True

theorem Conserved.step_iff (hn : clients < 256) {bufferCnt : ℕ} {e : Event clients}
    (h : Conserved s) {t : State clients} (ht : step bufferCnt s e = some t) :
    Conserved t ↔ EmptyRing s e := by
  cases e with
  | cleanCopyRx frames =>
    exact iff_of_true (Runs.foldlM_invariant (I := fun _ s => Conserved s)
      (fun _ f s t hs ht => hs.cleanFrame hn ht) h ht) trivial
  | xmit i receiver o =>
    obtain ⟨-, ht⟩ := ite_none_right_eq_some.1 ht
    obtain rfl := some.inj ht
    refine iff_of_true ?_ trivial
    unfold State.xmitPktsToClient
    split_ifs
    · exact h
    · exact h.commit _ _
  | attach i =>
    obtain rfl := some.inj ht
    exact h.attach_iff
  | start i =>
    obtain ⟨-, ht⟩ := ite_none_right_eq_some.1 ht
    obtain rfl := some.inj ht
    exact iff_of_true (h.activate i) trivial

/-- **When receive packets are conserved.** In all states of a run after the driver was opened each
packet is free, or posted in one descriptor, or queued, `refcnt` counts the rings that hold it, and
no descriptor has a packet that a ring holds, exactly when each attach finds the ring of its
interface empty. -/
theorem conserved_iff (hn : clients < 256) (bufferCnt : ℕ) (events : List (Event clients)) :
    (∀ pre s, pre <+: events → pre.foldlM (step bufferCnt) (State.opened clients) = some s →
        Conserved s) ↔
      ∀ pre i s, pre ++ [.attach i] <+: events →
        pre.foldlM (step bufferCnt) (State.opened clients) = some s → s.ring i = [] := by
  rw [Runs.foldlM_forall_prefix_iff (fun s e t h ht => h.step_iff hn ht)
    conserved_opened]
  constructor
  · exact fun h pre i s hpre hs => h pre (.attach i) s _ hpre hs rfl
  · intro h pre e s t hpre hs _
    cases e with
    | attach i => exact h pre i s hpre hs
    | _ => trivial

/-- The client attaches first. -/
theorem conserved_attached :
    ∃ s, [Event.attach 0, .start 0, .cleanCopyRx [⟨true, 64, .broadcast⟩],
        .xmit 0 true .sent].foldlM (step 8) (State.opened 8) = some s ∧ Conserved s := by
  obtain ⟨s, hs⟩ := isSome_iff_exists.1 (by decide +kernel :
    ([Event.attach 0, .start 0, .cleanCopyRx [⟨true, 64, .broadcast⟩],
      .xmit 0 true .sent].foldlM (step 8) (State.opened 8)).isSome = true)
  refine ⟨s, hs, (conserved_iff (by decide) 8 _).2 (fun pre i t hpre ht => ?_) _ s
    (prefix_refl _) hs⟩
  rcases pre with _ | ⟨_, _ | ⟨_, _ | ⟨_, _ | ⟨_, pre⟩⟩⟩⟩ <;> simp at hpre
  obtain rfl := some.inj ht
  revert i
  decide +kernel

/-- A frame for handle 0, then its attach: the packet is counted but nowhere. -/
theorem not_conserved_attach :
    ∃ s, [Event.cleanCopyRx [⟨true, 64, .unicast 0⟩], .attach 0].foldlM (step 8)
        (State.opened 8) = some s ∧
      (s.refcnt 0 = 1 ∧ (∀ i, 0 ∉ s.ring i) ∧ 0 ∉ s.free ∧ ∀ d, s.posted d ≠ some 0) ∧
      ¬ Conserved s := by
  obtain ⟨s, hs, hlost⟩ := (any_eq_true _ _).1 (by decide +kernel :
    ([Event.cleanCopyRx [⟨true, 64, .unicast 0⟩], .attach 0].foldlM (step 8)
      (State.opened 8)).any (fun s => decide (s.refcnt 0 = 1 ∧ (∀ i, 0 ∉ s.ring i) ∧ 0 ∉ s.free ∧
        ∀ d, s.posted d ≠ some 0)) = true)
  have hlost := of_decide_eq_true hlost
  refine ⟨s, hs, hlost, fun h => ?_⟩
  have hcount := h.refcnt 0
  rw [hlost.1, held, sum_eq_zero fun i _ => count_eq_zero.2 (hlost.2.1 i)] at hcount
  exact absurd hcount (by decide)

end
end DriverNative.RxPackets
