import Afterburner.DriverNative.E1000Tx

/-!
# Descriptor chains that a client makes up

`tx_packet` follows the client's link words without a check, and the loop over the fragments ends
only where the chain does. A call is confined to the ring exactly when the chain ends inside it and
what is cleaned and sent is inside as well.
-/

namespace DriverNative.E1000
open Function State List

/-- The loop over the fragments ends at `a`. -/
def Stops (desc : Word → NetClientDesc) (first a : Word) : Prop :=
  (desc a).more = false ∨ (desc (desc a).link).own = false ∨ (desc a).link = first

/-- `j` is the first fragment at which it ends. -/
def StopsAt (desc : Word → NetClientDesc) (first : Word) (j : ℕ) : Prop :=
  Stops desc first (fragment desc first j) ∧ ∀ k < j, ¬ Stops desc first (fragment desc first k)

section Loop
variable {desc : Word → NetClientDesc} {first a : Word} {fuel j : ℕ} {read : List Word}

theorem countFragments_of_not_stops (h : ¬ Stops desc first a) :
    countFragments desc first (fuel + 1) read a =
      countFragments desc first fuel (read ++ [a]) (desc a).link := by
  simp only [Stops, not_or, Bool.not_eq_false] at h
  obtain ⟨hmore, hown, hfirst⟩ := h
  rw [countFragments, if_pos hmore, hown, if_neg (by decide), if_neg hfirst]

theorem countFragments_eq (hj : j < fuel) (hstop : Stops desc first (fragment desc a j))
    (hgo : ∀ k < j, ¬ Stops desc first (fragment desc a k)) :
    countFragments desc first fuel read a =
      if (desc (fragment desc a j)).more then
        .aborted (read ++ (range (j + 2)).map (fragment desc a))
      else .count (read ++ (range (j + 1)).map (fragment desc a)) := by
  obtain ⟨fuel, rfl⟩ := Nat.exists_eq_succ_of_ne_zero (Nat.ne_zero_of_lt hj)
  induction j generalizing fuel read a with
  | zero =>
    have hpair : (range 2).map (fragment desc a) = [a, (desc a).link] := rfl
    have hone : (range 1).map (fragment desc a) = [a] := rfl
    have hzero : fragment desc a 0 = a := rfl
    rw [hzero] at hstop ⊢
    rw [hpair, hone, countFragments]
    rcases hstop with h | h | h
    · simp [h]
    · simp [h]
    · simp [h]
  | succ j ih =>
    obtain ⟨fuel, rfl⟩ := Nat.exists_eq_succ_of_ne_zero (by omega : fuel ≠ 0)
    rw [countFragments_of_not_stops (a := a) (hgo 0 j.succ_pos), map_fragment_succ desc a,
      map_fragment_succ desc a,
      ih (a := (desc a).link) hstop (fun k hk => hgo (k + 1) (by omega)) fuel (by omega),
      append_assoc, append_assoc]
    rfl

theorem countFragments_eq_forever (h : ∀ j, ¬ Stops desc first (fragment desc a j)) :
    countFragments desc first fuel read a = .forever := by
  induction fuel generalizing a read with
  | zero => rfl
  | succ fuel ih =>
    rw [countFragments_of_not_stops (a := a) (h 0)]
    exact ih fun j => h (j + 1)

theorem exists_stopsAt (h : ∃ j, Stops desc first (fragment desc first j)) :
    ∃ j, StopsAt desc first j := by
  classical
  exact ⟨Nat.find h, Nat.find_spec h, fun _ hk => Nat.find_min h hk⟩

theorem StopsAt.unique {k : ℕ} (hj : StopsAt desc first j) (hk : StopsAt desc first k) :
    j = k := by
  rcases lt_trichotomy j k with hlt | heq | hlt
  · exact absurd hj.1 (hk.2 j hlt)
  · exact heq
  · exact absurd hk.1 (hj.2 k hlt)

/-- Before the loop ends it does not come back, so it is not longer than there are places. -/
theorem StopsAt.lt {n : ℕ} (place : ℕ → Word) (h : StopsAt desc first j)
    (hin : ∀ k ≤ j, ∃ m < n, fragment desc first k = place m) : j < n := by
  choose! m hm hplace using hin
  by_contra hge
  obtain ⟨p, q, hpq, heq⟩ := Fintype.exists_ne_map_eq_of_card_lt
    (fun k : Fin (j + 1) => (⟨m k, hm k (Nat.lt_succ_iff.1 k.2)⟩ : Fin n)) (by simp; omega)
  wlog hlt : p < q generalizing p q
  · exact this q p hpq.symm heq.symm (lt_of_le_of_ne (not_lt.1 hlt) hpq.symm)
  have hp := Nat.lt_succ_iff.1 p.2
  have hq := Nat.lt_succ_iff.1 q.2
  have hlt' : p.1 < q.1 := hlt
  have hsame : fragment desc first p = fragment desc first q := by
    rw [hplace p hp, hplace q hq, Fin.mk.inj_iff.1 heq]
  -- the chain is the same from both fragments on, so the end comes earlier
  have hback : fragment desc first (j - q + p) = fragment desc first (j - q + q) := by
    unfold fragment at hsame ⊢
    rw [iterate_add_apply, iterate_add_apply, hsame]
  rw [Nat.sub_add_cancel hq] at hback
  exact h.2 (j - q + p) (by omega) (hback ▸ h.1)

theorem StopsAt.lt_two_pow (h : StopsAt desc first j) : j < 2 ^ 32 :=
  h.lt (BitVec.ofNat 32) fun k _ =>
    ⟨(fragment desc first k).toNat, (fragment desc first k).isLt, by simp⟩

end Loop

section Clean
variable {ι : Type} {c : Setup ι} {s t : State ι} {i : ι} {n : ℕ}

/-- The shadow entries of the slots that `clean_tx_ring` goes through: those that the card has
finished. -/
def State.finished : ℕ → List ℕ → ℕ → State ι → List (Shadow ι)
  | 0, _, _, _ => []
  | fuel + 1, marks, k, s =>
    let s := s.nic (marks.headD 0)
    if (s.ring k).upper &&& statDD = 0 then []
    else
      match s.txShadow k with
      | none => []
      | some x => x :: finished fuel marks.tail ((k + 1) % slots) (s.clearSlot k)

/-- The card's side of two states is the same. -/
structure SameCard (s t : State ι) : Prop where
  ring : t.ring = s.ring
  txShadow : t.txShadow = s.txShadow
  free : t.free = s.free
  marked : t.marked = s.marked

theorem SameCard.nic (h : SameCard s t) (n : ℕ) : SameCard (s.nic n) (t.nic n) := by
  induction n generalizing s t with
  | zero => exact h
  | succ n ih =>
    refine ih (s := s.mark) (t := t.mark) ?_
    obtain ⟨hring, hshadow, hfree, hmarked⟩ := h
    unfold mark
    dsimp only
    rw [hring, hfree, hmarked]
    split_ifs
    · exact ⟨hring, hshadow, hfree, hmarked⟩
    · exact ⟨rfl, hshadow, rfl, rfl⟩

theorem SameCard.finished (h : SameCard s t) (fuel : ℕ) (marks : List ℕ) (k : ℕ) :
    finished fuel marks k t = finished fuel marks k s := by
  induction fuel generalizing s t marks k with
  | zero => rfl
  | succ fuel ih =>
    have hnic := h.nic (marks.headD 0)
    have hclear : SameCard ((s.nic (marks.headD 0)).clearSlot k)
        ((t.nic (marks.headD 0)).clearSlot k) := by
      obtain ⟨hring, hshadow, hfree, hmarked⟩ := hnic
      unfold clearSlot
      rw [hring, hshadow]
      exact ⟨rfl, rfl, hfree, hmarked⟩
    unfold State.finished
    dsimp only
    rw [hnic.ring, hnic.txShadow]
    split_ifs
    · rfl
    · split
      · rfl
      · rw [ih hclear]

/-- What is needed to send `n` fragments: the checksum is one that the card has, and no fragment is
at the address 0. -/
def Sendable (s : State ι) (i : ι) (n : ℕ) : Prop :=
  ((s.desc i (s.txdp i)).hasCsum = true → (s.desc i (s.txdp i)).csumStoreOffset.isSome) ∧
    ∀ j < n, fragment (s.desc i) (s.txdp i) j ≠ 0

/-- Cleaning changes only two flags of the client descriptors. -/
structure Alike (s t : State ι) : Prop where
  txdp : t.txdp = s.txdp
  log : t.log = s.log
  stopped : t.stopped = s.stopped
  desc : ∀ i a, ∃ ok own, t.desc i a = { s.desc i a with ok := ok, own := own }

namespace Alike

theorem refl (s : State ι) : Alike s s := ⟨rfl, rfl, rfl, fun _ _ => ⟨_, _, rfl⟩⟩

theorem trans {u : State ι} (h : Alike s t) (h' : Alike t u) : Alike s u := by
  refine ⟨h'.txdp.trans h.txdp, h'.log.trans h.log, h'.stopped.trans h.stopped, fun i a => ?_⟩
  obtain ⟨ok, own, hdesc⟩ := h.desc i a
  obtain ⟨ok', own', hdesc'⟩ := h'.desc i a
  exact ⟨ok', own', by rw [hdesc', hdesc]⟩

theorem link (h : Alike s t) (i : ι) (a : Word) : (t.desc i a).link = (s.desc i a).link := by
  obtain ⟨ok, own, hdesc⟩ := h.desc i a
  rw [hdesc]

theorem nic (s : State ι) (n : ℕ) : Alike s (s.nic n) ∧ (s.nic n).dirtyDesc = s.dirtyDesc ∧
    (s.nic n).released = s.released := by
  induction n generalizing s with
  | zero => exact ⟨refl s, rfl, rfl⟩
  | succ n ih =>
    have hmark : Alike s s.mark ∧ s.mark.dirtyDesc = s.dirtyDesc ∧
        s.mark.released = s.released := by
      unfold mark
      dsimp only
      split_ifs
      · exact ⟨refl s, rfl, rfl⟩
      · exact ⟨⟨rfl, rfl, rfl, fun _ _ => ⟨_, _, rfl⟩⟩, rfl, rfl⟩
    obtain ⟨halike, hdirty, hreleased⟩ := ih s.mark
    exact ⟨hmark.1.trans halike, hdirty.trans hmark.2.1, hreleased.trans hmark.2.2⟩

theorem sendable_iff (h : Alike s t) : Sendable t i n ↔ Sendable s i n := by
  obtain ⟨ok, own, hdesc⟩ := h.desc i (s.txdp i)
  unfold Sendable fragment
  rw [h.txdp, hdesc, funext (h.link i)]
  rfl

variable [DecidableEq ι]

theorem release (s : State ι) (i : ι) (k : ℕ) : Alike s (s.release c i k) := by
  refine ⟨rfl, rfl, rfl, fun j a => ?_⟩
  simp only [State.release, setDesc, assert, update_apply]
  split_ifs with hj
  · subst hj
    rw [update_apply]
    split_ifs with ha
    · subst ha
      exact ⟨_, _, rfl⟩
    · exact ⟨_, _, rfl⟩
  · exact ⟨_, _, rfl⟩

end Alike

variable [DecidableEq ι]

/-- The client descriptors of these slots, along the links from the dirty pointers on. -/
def dirtyChain (link : ι → Word → Word) (dirty : ι → Word) : List (Shadow ι) → List (ι × Word)
  | [] => []
  | .anon :: l => dirtyChain link dirty l
  | .iface i :: l => (i, dirty i) :: dirtyChain link (update dirty i (link i (dirty i))) l

theorem cleanLoop_spec (fuel : ℕ) (marks : List ℕ) (k n : ℕ) (s : State ι) :
    Alike s (cleanLoop c fuel marks k n s).1 ∧
      (cleanLoop c fuel marks k n s).1.released = s.released ++
        dirtyChain (fun i a => (s.desc i a).link) (fun i => (s.dirtyDesc i).getD 0)
          (finished fuel marks k s) ∧
      (cleanLoop c fuel marks k n s).2 = n + (finished fuel marks k s).length := by
  induction fuel generalizing s marks k n with
  | zero =>
    refine ⟨⟨rfl, rfl, rfl, fun _ _ => ⟨_, _, rfl⟩⟩, ?_, rfl⟩
    rw [finished, dirtyChain, append_nil]
    rfl
  | succ fuel ih =>
    obtain ⟨hnic, hdirty, hreleased⟩ := Alike.nic s (marks.headD 0)
    have hlink : (fun i a => ((s.nic (marks.headD 0)).desc i a).link) =
        fun i a => (s.desc i a).link := funext₂ hnic.link
    rw [← hlink, ← hdirty, ← hreleased]
    unfold cleanLoop finished
    dsimp only
    generalize s.nic (marks.headD 0) = u at hnic ⊢
    have hend : Alike s { u with dirty := k } := hnic.trans ⟨rfl, rfl, rfl, fun _ _ => ⟨_, _, rfl⟩⟩
    split_ifs
    · exact ⟨hend, by rw [dirtyChain, append_nil], rfl⟩
    · cases hshadow : u.txShadow k with
      | none => exact ⟨hend, by rw [dirtyChain, append_nil], rfl⟩
      | some x =>
        dsimp only
        obtain ⟨halike, hall, hcount⟩ := ih marks.tail ((k + 1) % slots) (n + 1) (u.cleanSlot c k x)
        have hslot : Alike u (u.cleanSlot c k x) := by
          cases x with
          | anon => exact ⟨rfl, rfl, rfl, fun _ _ => ⟨_, _, rfl⟩⟩
          | iface i => exact (Alike.release u i k).trans ⟨rfl, rfl, rfl, fun _ _ => ⟨_, _, rfl⟩⟩
        have hcard : SameCard (u.clearSlot k) (u.cleanSlot c k x) := by
          cases x <;> exact ⟨rfl, rfl, rfl, rfl⟩
        rw [hcard.finished] at hall hcount
        refine ⟨(hnic.trans hslot).trans halike, ?_, ?_⟩
        · rw [hall, show (fun i a => ((u.cleanSlot c k x).desc i a).link) =
            fun i a => (u.desc i a).link from funext₂ hslot.link]
          cases x with
          | anon => rfl
          | iface i =>
            have hnext : (fun j => ((u.cleanSlot c k (.iface i)).dirtyDesc j).getD 0) =
                update (fun j => (u.dirtyDesc j).getD 0) i
                  (u.desc i ((u.dirtyDesc i).getD 0)).link := by
              funext j
              by_cases hj : j = i
              · subst hj
                simp [cleanSlot, State.release, clearSlot]
              · simp [cleanSlot, State.release, clearSlot, assert, hj]
            rw [hnext, dirtyChain, append_cons]
            rfl
        · rw [hcount, length_cons]
          omega

end Clean

section Send
variable {ι : Type} [DecidableEq ι] {c : Setup ι} {s : State ι} {i : ι} {n : ℕ}

theorem queueFragments_of_ne (lower upper : Word) (k : ℕ) (last : Option ℕ)
    (h : ∀ j < n, fragment (s.desc i) (s.txdp i) j ≠ 0) :
    let t := queueFragments c i lower upper n (s.txdp i) k last s
    t.stopped = s.stopped ∧ t.released = s.released ∧
      t.log = s.log ++ (range n).map fun j => some (i, fragment (s.desc i) (s.txdp i) j) := by
  induction n generalizing s k last with
  | zero =>
    unfold queueFragments endPacket
    cases last <;> simp
  | succ n ih =>
    have hne : s.txdp i ≠ 0 := h 0 n.succ_pos
    have hlink : (s.fillSlot c i lower upper (s.txdp i) k).txdp i = (s.desc i (s.txdp i)).link :=
      update_self ..
    obtain ⟨hstopped, hreleased, hlog⟩ := ih (s := s.fillSlot c i lower upper (s.txdp i) k)
      ((k + 1) % slots) (some k) fun j hj => by
        rw [hlink]
        exact h (j + 1) (by omega)
    rw [queueFragments, if_neg hne]
    refine ⟨hstopped, hreleased, hlog.trans ?_⟩
    rw [hlink, range_succ_eq_map, map_cons, map_map]
    exact append_assoc s.log [_] _

theorem queueFragments_of_eq (lower upper : Word) (k : ℕ) (last : Option ℕ) {j : ℕ} (hj : j < n)
    (h : fragment (s.desc i) (s.txdp i) j = 0) :
    (queueFragments c i lower upper n (s.txdp i) k last s).stopped = true := by
  induction n generalizing s k last j with
  | zero => exact absurd hj (Nat.not_lt_zero j)
  | succ n ih =>
    rw [queueFragments]
    split_ifs with hzero
    · rfl
    · have hlink : (s.fillSlot c i lower upper (s.txdp i) k).txdp i = (s.desc i (s.txdp i)).link :=
        update_self ..
      obtain ⟨j, rfl⟩ := Nat.exists_eq_succ_of_ne_zero fun hj0 : j = 0 => hzero (by rwa [hj0] at h)
      refine ih (j := j) _ _ (by omega) ?_
      rw [hlink]
      exact h

theorem queueFragments_spec {u : State ι} {l : List (Option (ι × Word))} (lower upper : Word)
    (k : ℕ) (hu : u.stopped = false) (hdesc : u.desc = s.desc) (htxdp : u.txdp = s.txdp)
    (hreleased : u.released = s.released) (hlog : u.log = s.log ++ l) (hl : l.filterMap id = []) :
    let a := fragment (s.desc i) (s.txdp i)
    let t := queueFragments c i lower upper n (s.txdp i) k none u
    (t.stopped = false ↔ ∀ j < n, a j ≠ 0) ∧ ((∀ j < n, a j ≠ 0) → t.released = s.released ∧
      (t.log.drop s.log.length).filterMap id = (range n).map fun j => (i, a j)) := by
  rw [← hdesc, ← htxdp]
  by_cases hne : ∀ j < n, fragment (u.desc i) (u.txdp i) j ≠ 0
  · obtain ⟨hstopped, hrel, hnew⟩ := queueFragments_of_ne (c := c) lower upper k none hne
    refine ⟨iff_of_true (hstopped.trans hu) hne, fun _ => ⟨hrel.trans hreleased, ?_⟩⟩
    rw [hnew, hlog, append_assoc, drop_left, filterMap_append, hl, nil_append, filterMap_map]
    exact congrFun filterMap_eq_map _
  · refine ⟨iff_of_false (fun hf => ?_) hne, fun h => absurd h hne⟩
    push Not at hne
    obtain ⟨j, hj, hzero⟩ := hne
    rw [queueFragments_of_eq _ _ _ _ hj hzero] at hf
    cases hf

theorem sendPacket_spec (hs : s.stopped = false) :
    let t := (s.sendPacket c i n).1
    (t.stopped = false ↔ Sendable s i n) ∧
      (Sendable s i n → t.released = s.released ∧ (t.log.drop s.log.length).filterMap id =
        (range n).map fun j => (i, fragment (s.desc i) (s.txdp i) j)) := by
  unfold State.sendPacket Sendable
  dsimp only
  by_cases hc : (s.desc i (s.txdp i)).hasCsum = true
  · rw [if_pos hc]
    simp only [hc, forall_const]
    cases hoff : (s.desc i (s.txdp i)).csumStoreOffset with
    | none => simp [injectCsum, hoff]
    | some off =>
      simp only [injectCsum, hoff, Option.map_some, Option.isSome_some, true_and]
      exact queueFragments_spec (l := [none]) _ _ _ hs rfl rfl rfl rfl rfl
  · rw [if_neg hc]
    simp only [hc, Bool.false_eq_true, false_implies, true_and]
    exact queueFragments_spec (l := []) _ _ _ hs rfl rfl rfl (append_nil _).symm rfl

end Send

section Call
variable {ι : Type} [DecidableEq ι] (c : Setup ι) (start : ι → Word) (cnt : ι → ℕ) (s : State ι)

/-- The ring area of a client: `ring_cnt` descriptors of 16 bytes. -/
def inRing (i : ι) (a : Word) : Prop := ∃ k < cnt i, a = start i + BitVec.ofNat 32 (16 * k)

def State.Fragments.read : Fragments → List Word
  | .count read => read
  | .aborted read => read
  | .forever => []

/-- The client descriptors that a call looks at or changes: the first one, those that are counted,
cleaned and sent. -/
def touched (i : ι) (marks : List ℕ) : List (ι × Word) :=
  let t := (s.txPacket c i marks).1
  let counted :=
    if (s.desc i (s.txdp i)).own then
      (countFragments (s.desc i) (s.txdp i) (2 ^ 32) [] (s.txdp i)).read
    else []
  (i, s.txdp i) :: counted.map (i, ·) ++ t.released.drop s.released.length ++
    (t.log.drop s.log.length).filterMap id

/-- The call ends and stays inside the rings. -/
def Inside (i : ι) (marks : List ℕ) : Prop :=
  (s.txPacket c i marks).1.stopped = false ∧
    ∀ x ∈ touched c s i marks, inRing start cnt x.1 x.2

/-- A packet of `n` fragments is sent, after cleaning if there is no room for it. -/
def Served (i : ι) (marks : List ℕ) (n : ℕ) : Prop :=
  let fragments := n % 2 ^ 16
  let needed := if (s.desc i (s.txdp i)).hasCsum then (fragments + 1) % 2 ^ 16 else fragments
  let done := finished slots marks s.dirty s
  (s.available < needed → ∀ x ∈ dirtyChain (fun i a => (s.desc i a).link)
    (fun i => (s.dirtyDesc i).getD 0) done, inRing start cnt x.1 x.2) ∧
    (needed ≤ s.available + done.length → Sendable s i fragments)

/-- The chain from `TXDP` on ends inside the ring, within as many fragments as it has places. -/
def Tame (i : ι) (marks : List ℕ) : Prop :=
  let a := fragment (s.desc i) (s.txdp i)
  inRing start cnt i (s.txdp i) ∧ ((s.desc i (s.txdp i)).own = true →
    ∃ j < cnt i, StopsAt (s.desc i) (s.txdp i) j ∧ (∀ k ≤ j, inRing start cnt i (a k)) ∧
      if (s.desc i (a j)).more then inRing start cnt i (a (j + 1))
      else Served start cnt s i marks (j + 1))

variable {c start cnt} {s} {i : ι} {marks : List ℕ} {j : ℕ}

theorem sent_iff {u : State ι} {n : ℕ} (hs : s.stopped = false) (hu : Alike s u)
    {chain : List (ι × Word)} (hreleased : u.released = s.released ++ chain)
    (hin : ∀ k < n, inRing start cnt i (fragment (s.desc i) (s.txdp i) k)) :
    let t := (u.sendPacket c i n).1
    (t.stopped = false ∧ ∀ x ∈ t.released.drop s.released.length ++
      (t.log.drop s.log.length).filterMap id, inRing start cnt x.1 x.2) ↔
      (∀ x ∈ chain, inRing start cnt x.1 x.2) ∧ Sendable s i n := by
  obtain ⟨hiff, hsent⟩ := sendPacket_spec (c := c) (i := i) (n := n) (hu.stopped.trans hs)
  rw [hu.sendable_iff] at hiff hsent
  dsimp only
  rw [hiff, and_comm]
  refine and_congr_left fun h => ?_
  obtain ⟨hrel, hlog⟩ := hsent h
  rw [hu.log] at hlog
  rw [hrel, hreleased, drop_left, hlog, forall_mem_append, hu.txdp]
  refine and_iff_left fun x hx => ?_
  obtain ⟨k, hk, rfl⟩ := mem_map.1 hx
  have hsame : fragment (u.desc i) (s.txdp i) k = fragment (s.desc i) (s.txdp i) k := by
    unfold fragment
    rw [funext (hu.link i)]
  exact hsame ▸ hin k (mem_range.1 hk)

theorem inside_iff : Inside c start cnt s i marks ↔
    inRing start cnt i (s.txdp i) ∧
      ((s.desc i (s.txdp i)).own = true → ∀ a ∈ (countFragments (s.desc i) (s.txdp i) (2 ^ 32) []
        (s.txdp i)).read, inRing start cnt i a) ∧
      let t := (s.txPacket c i marks).1
      t.stopped = false ∧ ∀ x ∈ t.released.drop s.released.length ++
        (t.log.drop s.log.length).filterMap id, inRing start cnt x.1 x.2 := by
  unfold Inside touched
  dsimp only
  rw [cons_append, cons_append, forall_mem_cons, append_assoc, forall_mem_append, forall_mem_map]
  by_cases hown : (s.desc i (s.txdp i)).own = true
  · rw [if_pos hown]
    tauto
  · rw [if_neg hown]
    simp only [not_mem_nil]
    tauto

theorem stopped_txPacket (hown : (s.desc i (s.txdp i)).own = true)
    (hgo : ∀ j, ¬ Stops (s.desc i) (s.txdp i) (fragment (s.desc i) (s.txdp i) j)) :
    (s.txPacket c i marks).1.stopped = true := by
  unfold txPacket
  dsimp only
  rw [hown, countFragments_eq_forever hgo]
  rfl

theorem served_iff (hs : s.stopped = false) (hown : (s.desc i (s.txdp i)).own = true)
    (hcount : countFragments (s.desc i) (s.txdp i) (2 ^ 32) [] (s.txdp i) =
      .count ((range (j + 1)).map (fragment (s.desc i) (s.txdp i))))
    (hin : ∀ k ≤ j, inRing start cnt i (fragment (s.desc i) (s.txdp i) k)) :
    let t := (s.txPacket c i marks).1
    (t.stopped = false ∧ ∀ x ∈ t.released.drop s.released.length ++
      (t.log.drop s.log.length).filterMap id, inRing start cnt x.1 x.2) ↔
      Served start cnt s i marks (j + 1) := by
  have hin' : ∀ k < (j + 1) % 2 ^ 16, inRing start cnt i (fragment (s.desc i) (s.txdp i) k) :=
    fun k hk => hin k (Nat.lt_succ_iff.1 (hk.trans_le (Nat.mod_le _ _)))
  unfold Served txPacket
  dsimp only
  rw [hown, hcount]
  simp only [length_map, length_range, Bool.not_true, Bool.false_eq_true, if_false]
  generalize (if (s.desc i (s.txdp i)).hasCsum = true then ((j + 1) % 2 ^ 16 + 1) % 2 ^ 16
    else (j + 1) % 2 ^ 16) = needed
  by_cases hroom : s.available < needed
  · obtain ⟨halike, hreleased, hfinished⟩ := cleanLoop_spec (c := c) slots marks s.dirty 0 s
    rw [Nat.zero_add] at hfinished
    rw [if_pos hroom, cleanTxRing, hfinished]
    simp only [hroom, true_implies]
    by_cases henough : s.available + (finished slots marks s.dirty s).length < needed
    · rw [if_pos henough]
      simp only [not_le.2 henough, false_implies, and_true, assert]
      rw [hreleased, halike.log, drop_left, drop_length, filterMap_nil, append_nil, halike.stopped]
      exact and_iff_right hs
    · rw [if_neg henough]
      simp only [not_lt.1 henough, true_implies]
      exact sent_iff (u := (cleanLoop c slots marks s.dirty 0 s).1.assert _) hs
        (halike.trans ⟨rfl, rfl, rfl, fun _ _ => ⟨_, _, rfl⟩⟩) hreleased hin'
  · rw [if_neg hroom]
    simp only [hroom, false_implies, true_and, (not_lt.1 hroom).trans (Nat.le_add_right _ _),
      true_implies]
    exact (sent_iff hs (.refl s) (append_nil _).symm hin').trans
      (and_iff_right fun _ hx => nomatch hx)

end Call

section Examples

def fragments (more : Bool) (link : Word) (own : Word → Bool) (a : Word) : NetClientDesc :=
  ⟨own a, false, false, more, link, 0, 0, false, false, false⟩

abbrev fourDescs (desc : Word → NetClientDesc) : State Unit := init (fun _ => desc) fun _ => 16

end Examples
end DriverNative.E1000
