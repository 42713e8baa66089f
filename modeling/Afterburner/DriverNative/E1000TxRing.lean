import Afterburner.DriverNative.E1000Tx

/-!
# The slots and the descriptors in them

Positions do not wrap: slots are cleaned up to `cleaned`, marked up to `marked`, filled up to the
length of the log.
-/

namespace DriverNative.E1000
open Ring Function List

def Path {α : Type} (next : α → α) : Option α → List α → α → Prop
  | none, q, _ => q = []
  | some d, [], t => d = t
  | some d, a :: q, t => d = a ∧ Path next (some (next a)) q t

namespace Path
variable {α : Type} {next next' : α → α} {d : Option α} {q : List α} {a t : α}

theorem congr (h : ∀ a ∈ q, next a = next' a) (hp : Path next d q t) : Path next' d q t := by
  induction q generalizing d with
  | nil => cases d <;> exact hp
  | cons a q ih =>
    cases d with
    | none => exact absurd hp (cons_ne_nil _ _)
    | some d =>
      refine ⟨hp.1, ?_⟩
      rw [← h a mem_cons_self]
      exact ih (fun b hb => h b (mem_cons_of_mem a hb)) hp.2

theorem of_cons (h : Path next d (a :: q) t) : d = some a ∧ Path next (some (next a)) q t := by
  cases d with
  | none => exact absurd h (cons_ne_nil _ _)
  | some d => exact ⟨congrArg some h.1, h.2⟩

theorem snoc (h : Path next (some a) q t) : Path next (some a) (q ++ [t]) (next t) := by
  induction q generalizing a with
  | nil => exact ⟨h, rfl⟩
  | cons b q ih => exact ⟨h.1, ih h.2⟩

theorem getD (h : Path next d q t) : Path next (some (d.getD t)) q t := by
  cases d with
  | none =>
    cases q with
    | nil => rfl
    | cons a q => exact absurd h (cons_ne_nil _ _)
  | some d => exact h

end Path
section Inv
variable {ι : Type}

structure RingOk (s : State ι) : Prop where
  cleaned_le : s.cleaned ≤ s.marked
  marked_le : s.marked ≤ s.log.length
  fits : s.log.length < s.cleaned + slots
  shadow : Holds slots (fun x => some (shadowOf x)) (· = none) s.cleaned s.log s.txShadow
  done : ∀ k, s.cleaned ≤ k → k < s.marked → (view slots s.ring k).upper &&& statDD ≠ 0
  undone : ∀ k, s.marked ≤ k → k < s.cleaned + slots → (view slots s.ring k).upper &&& statDD = 0
  clear : ∀ k, s.log.length ≤ k → k < s.cleaned + slots → (view slots s.ring k).upper = 0

theorem or_and_statDD (x : Word) : (x ||| statDD) &&& statDD ≠ 0 := by
  intro h
  have hbit := congrArg (fun y : Word => y.getLsbD 0) h
  simp [statDD] at hbit

variable {c : Setup ι} {s : State ι}

theorem slots_pos : 0 < slots := by decide

namespace RingOk

theorem inWindow (h : RingOk s) {k : ℕ} (hk : s.cleaned ≤ k) (hk' : k ≤ s.log.length) :
    InWindow slots s.cleaned k :=
  ⟨hk, hk'.trans_lt h.fits⟩

section
variable (h : RingOk s) (hfree : s.free = s.log.length % slots)
include h hfree

theorem marked_mod_eq_iff : s.marked % slots = s.free ↔ s.marked = s.log.length := by
  rw [hfree]
  exact mod_eq_iff (h.inWindow h.cleaned_le h.marked_le)
    (h.inWindow (h.cleaned_le.trans h.marked_le) le_rfl)

theorem mark : RingOk s.mark := by
  unfold State.mark
  dsimp only
  split_ifs with hstop
  · exact h
  have hlt : s.marked < s.log.length :=
    lt_of_le_of_ne h.marked_le fun heq => hstop ((h.marked_mod_eq_iff hfree).2 heq)
  have hin := h.inWindow h.cleaned_le h.marked_le
  have hcleaned := h.cleaned_le
  have hfits := h.fits
  refine ⟨by dsimp only; omega, hlt, h.fits, h.shadow, fun k hk hk' => ?_, fun k hk hk' => ?_,
    fun k hk hk' => ?_⟩
  · dsimp only at hk hk' ⊢
    by_cases heq : k = s.marked
    · rw [heq, view_update_self]
      exact or_and_statDD _
    · rw [view_update_of_ne hin ⟨hk, by omega⟩ heq]
      exact h.done k hk (by omega)
  · dsimp only at hk hk' ⊢
    rw [view_update_of_ne hin ⟨by omega, hk'⟩ (by omega)]
    exact h.undone k (by omega) hk'
  · dsimp only at hk hk' ⊢
    rw [view_update_of_ne hin ⟨by omega, hk'⟩ (by omega)]
    exact h.clear k hk hk'

theorem marked_mark : s.mark.marked = min (s.marked + 1) s.log.length := by
  have hiff := h.marked_mod_eq_iff hfree
  have hle := h.marked_le
  unfold State.mark
  dsimp only
  split_ifs with hstop
  · omega
  · dsimp only
    omega

end

section
variable (h : RingOk s)
include h

theorem cleaned_lt_marked (hdone : (s.ring (s.cleaned % slots)).upper &&& statDD ≠ 0) :
    s.cleaned < s.marked := by
  by_contra hge
  have hpos := slots_pos
  exact hdone (h.undone s.cleaned (not_lt.1 hge) (by omega))

theorem clearSlot (hlt : s.cleaned < s.marked) : RingOk (s.clearSlot (s.cleaned % slots)) := by
  have hpos := slots_pos
  have hin : InWindow slots s.cleaned s.cleaned := ⟨le_rfl, by omega⟩
  have hmarked := h.marked_le
  have hfits := h.fits
  -- the slot that is cleared is the last one of the new window
  have hview : ∀ k, s.cleaned + 1 ≤ k → k < s.cleaned + 1 + slots →
      view slots (s.clearSlot (s.cleaned % slots)).ring k = view slots s.ring k ∧
          k < s.cleaned + slots ∨
        (view slots (s.clearSlot (s.cleaned % slots)).ring k).upper = 0 := by
    intro k hk hk'
    by_cases hlast : k = s.cleaned + slots
    · simp [hlast, Nat.add_mod_right, update_self, view, State.clearSlot]
    · exact .inl ⟨view_update_of_ne hin ⟨by omega, by omega⟩ (by omega) _ _, by omega⟩
  refine ⟨hlt, h.marked_le, ?_, ?_, fun k hk hk' => ?_, fun k hk hk' => ?_, fun k hk hk' => ?_⟩
  · show s.log.length < s.cleaned + 1 + slots
    omega
  · exact h.shadow.pop (by omega) slots_pos rfl
  · have hk'' : k < s.marked := hk'
    rw [show view slots (s.clearSlot (s.cleaned % slots)).ring k = view slots s.ring k from
      view_update_of_ne hin ⟨(Nat.le_succ _).trans hk, by omega⟩ (Nat.ne_of_gt hk) _ _]
    exact h.done k ((Nat.le_succ _).trans hk) hk'
  · rcases hview k (hlt.trans_le hk) hk' with ⟨heq, hold⟩ | hzero
    · rw [heq]
      exact h.undone k hk hold
    · simp [hzero]
  · rcases hview k (hlt.trans_le (h.marked_le.trans hk)) hk' with ⟨heq, hold⟩ | hzero
    · rw [heq]
      exact h.clear k hk hold
    · exact hzero

theorem push (hroom : s.log.length + 1 < s.cleaned + slots) (x : Option (ι × Word))
    {d : E1000TxDesc} (hd : d.upper &&& statDD = 0) :
    RingOk
      { s with
        txShadow := update s.txShadow (s.log.length % slots) (some (shadowOf x))
        ring := update s.ring (s.log.length % slots) d
        log := s.log ++ [x] } := by
  have hcleaned := h.cleaned_le
  have hmarked := h.marked_le
  have hin : InWindow slots s.cleaned s.log.length := ⟨by omega, by omega⟩
  have hlen : (s.log ++ [x]).length = s.log.length + 1 := length_append
  refine ⟨h.cleaned_le, ?_, ?_, h.shadow.push h.fits x, fun k hk hk' => ?_, fun k hk hk' => ?_,
    fun k hk hk' => ?_⟩
  · dsimp only
    omega
  · dsimp only
    omega
  · dsimp only at hk hk' ⊢
    rw [view_update_of_ne hin ⟨hk, by omega⟩ (by omega)]
    exact h.done k hk hk'
  · dsimp only at hk hk' ⊢
    by_cases heq : k = s.log.length
    · rw [heq, view_update_self, hd]
    · rw [view_update_of_ne hin ⟨by omega, hk'⟩ heq]
      exact h.undone k hk hk'
  · dsimp only at hk hk' ⊢
    rw [view_update_of_ne hin ⟨by omega, hk'⟩ (by omega)]
    exact h.clear k (by omega) hk'

theorem ring_congr (ring : ℕ → E1000TxDesc) (hring : ∀ k, (ring k).upper = (s.ring k).upper) :
    RingOk { s with ring := ring } where
  cleaned_le := h.cleaned_le
  marked_le := h.marked_le
  fits := h.fits
  shadow := h.shadow
  done k hk hk' := by
    unfold view
    rw [hring]
    exact h.done k hk hk'
  undone k hk hk' := by
    unfold view
    rw [hring]
    exact h.undone k hk hk'
  clear k hk hk' := (hring _).trans (h.clear k hk hk')

theorem view_push {d : E1000TxDesc} {k : ℕ} (hk : s.cleaned ≤ k) (hk' : k < s.log.length) :
    view slots (update s.ring (s.log.length % slots) d) k = view slots s.ring k :=
  view_update_of_ne (h.inWindow (h.cleaned_le.trans h.marked_le) le_rfl)
    (h.inWindow hk hk'.le) hk'.ne _ _

theorem txShadow_length : s.txShadow (s.log.length % slots) = none :=
  h.shadow.free s.log.length le_rfl h.fits

end

end RingOk
variable {k : ℕ}

theorem mem_drop_of_getElem? {α : Type} {l : List α} {n : ℕ} {x : α} (hk : n ≤ k)
    (hx : l[k]? = some x) : x ∈ l.drop n := by
  obtain ⟨m, rfl⟩ := Nat.exists_eq_add_of_le hk
  refine mem_of_getElem? (i := m) ?_
  rw [getElem?_drop]
  exact hx

theorem getElem?_concat_eq_some {α : Type} {l : List α} {x y : α} (h : (l ++ [x])[k]? = some y) :
    l[k]? = some y ∨ k = l.length ∧ x = y := by
  rcases Nat.lt_or_ge k l.length with hlt | hge
  · exact .inl (by rwa [getElem?_append_left hlt] at h)
  · have hlt := (List.getElem?_eq_some_iff.1 h).1
    rw [length_append, length_singleton] at hlt
    obtain rfl : k = l.length := by omega
    exact .inr ⟨rfl, by simpa using h⟩

theorem drop_cleaned {x : Option (ι × Word)} (hx : s.log[s.cleaned]? = some x) :
    s.log.drop s.cleaned = x :: s.log.drop (s.cleaned + 1) := by
  obtain ⟨hlt, rfl⟩ := List.getElem?_eq_some_iff.1 hx
  exact drop_eq_getElem_cons hlt

theorem view_clearSlot (hfits : s.log.length < s.cleaned + slots) (hk : s.cleaned + 1 ≤ k)
    (hk' : k < s.log.length) :
    view slots (s.clearSlot (s.cleaned % slots)).ring k = view slots s.ring k :=
  view_update_of_ne ⟨le_rfl, by omega⟩ ⟨by omega, by omega⟩ (by omega) _ _

theorem assert_eq {b : Bool} (hb : b = true) : s.assert b = s := by
  cases s
  simp [State.assert, hb]

theorem update_congr {β : Type} (f : E1000TxDesc → β) {ring : ℕ → E1000TxDesc} {d : E1000TxDesc}
    (hd : f d = f (ring k)) (j : ℕ) : f (update ring k d j) = f (ring j) := by
  by_cases hj : j = k
  · rw [hj, update_self, hd]
  · rw [update_of_ne hj]

structure Keeps (s r : State ι) : Prop where
  log : r.log = s.log
  txdp : r.txdp = s.txdp
  free : r.free = s.free
  le : s.cleaned ≤ r.cleaned
  link : ∀ i a, (r.desc i a).link = (s.desc i a).link
  desc : ∀ i a, some (i, a) ∉ s.log.drop s.cleaned → r.desc i a = s.desc i a

namespace Keeps

theorem refl (s : State ι) : Keeps s s :=
  ⟨rfl, rfl, rfl, le_rfl, fun _ _ => rfl, fun _ _ _ => rfl⟩

theorem not_mem {r : State ι} (h : Keeps s r) {x : Option (ι × Word)}
    (hx : x ∉ s.log.drop s.cleaned) : x ∉ r.log.drop r.cleaned := by
  intro hr
  rw [h.log] at hr
  exact hx (drop_subset_drop_left s.log h.le hr)

theorem trans {r t : State ι} (h : Keeps s r) (h' : Keeps r t) : Keeps s t where
  log := h'.log.trans h.log
  txdp := h'.txdp.trans h.txdp
  free := h'.free.trans h.free
  le := h.le.trans h'.le
  link i a := (h'.link i a).trans (h.link i a)
  desc i a ha := (h'.desc i a (h.not_mem ha)).trans (h.desc i a ha)

theorem mark (s : State ι) :
    Keeps s s.mark ∧ s.mark.cleaned = s.cleaned ∧ s.mark.dirty = s.dirty := by
  unfold State.mark
  dsimp only
  split_ifs
  · exact ⟨.refl s, rfl, rfl⟩
  · exact ⟨⟨rfl, rfl, rfl, le_rfl, fun _ _ => rfl, fun _ _ _ => rfl⟩, rfl, rfl⟩

end Keeps

structure Queueable (c : Setup ι) (s : State ι) (i : ι) (a : Word) : Prop where
  addr_ne : a ≠ 0
  new : some (i, a) ∉ s.log.drop s.cleaned
  own : (s.desc i a).own = true
  buffer_lt : (s.desc i a).buffer < c.busSize i
  ne_zero : c.busStart i + (s.desc i a).buffer ≠ 0

variable {i : ι} {a : Word}

theorem Queueable.congr {t : State ι} (h : Queueable c s i a) (hdesc : t.desc i a = s.desc i a)
    (hnew : some (i, a) ∉ t.log.drop t.cleaned) : Queueable c t i a := by
  refine ⟨h.addr_ne, hnew, ?_, ?_, ?_⟩
  · rw [hdesc]
    exact h.own
  · rw [hdesc]
    exact h.buffer_lt
  · rw [hdesc]
    exact h.ne_zero

variable [DecidableEq ι]

def sentBy (i : ι) : Option (ι × Word) → Option Word
  | none => none
  | some x => if x.1 = i then some x.2 else none

def State.outstanding (s : State ι) (i : ι) : List Word :=
  (s.log.drop s.cleaned).filterMap (sentBy i)

theorem sentBy_eq_some {x : Option (ι × Word)} : sentBy i x = some a ↔ x = some (i, a) := by
  cases x with
  | none => simp [sentBy]
  | some x =>
    obtain ⟨j, b⟩ := x
    by_cases h : j = i <;> simp [sentBy, h]

theorem mem_outstanding : a ∈ s.outstanding i ↔ some (i, a) ∈ s.log.drop s.cleaned := by
  simp [State.outstanding, mem_filterMap, sentBy_eq_some]

structure Sent (c : Setup ι) (i : ι) (d : NetClientDesc) (bufferLow : Word) : Prop where
  own : d.own = true
  buffer_lt : d.buffer < c.busSize i
  ne_zero : c.busStart i + d.buffer ≠ 0
  bufferLow_eq : bufferLow = c.busStart i + d.buffer

structure ClientOk (c : Setup ι) (s : State ι) : Prop where
  entry : ∀ k i a, s.cleaned ≤ k → s.log[k]? = some (some (i, a)) →
    Sent c i (s.desc i a) (view slots s.ring k).bufferLow
  path : ∀ i, Path (fun a => (s.desc i a).link) (s.dirtyDesc i) (s.outstanding i) (s.txdp i)
  nodup : ((s.log.drop s.cleaned).filterMap id).Nodup
  released : s.released = (s.log.take s.cleaned).filterMap id

theorem desc_setDesc (i : ι) (a : Word) (d : NetClientDesc) (j : ι) (b : Word) :
    (s.setDesc i a d).desc j b = if j = i ∧ b = a then d else s.desc j b := by
  unfold State.setDesc
  by_cases hj : j = i
  · subst hj
    simp [update_apply]
  · simp [hj]

def State.giveBack (s : State ι) (i : ι) (a : Word) : State ι :=
  { s.setDesc i a { s.desc i a with ok := true, own := false } with
    dirtyDesc := update s.dirtyDesc i (some (s.desc i a).link)
    isrTxok := update s.isrTxok i true
    isrTxdesc := update s.isrTxdesc i (s.isrTxdesc i || (s.desc i a).intr)
    released := s.released ++ [(i, a)] }

theorem Sent.release_eq (h : Sent c i (s.desc i a) (s.ring k).bufferLow)
    (ha : s.dirtyDesc i = some a) : s.release c i k = s.giveBack i a := by
  have hne : (s.ring k).bufferLow ≠ 0 := by
    rw [h.bufferLow_eq]
    exact h.ne_zero
  unfold State.release
  rw [ha, Option.getD_some]
  dsimp only
  rw [assert_eq (decide_eq_true hne), assert_eq (decide_eq_true h.buffer_lt),
    assert_eq (decide_eq_true h.bufferLow_eq.symm), assert_eq h.own]
  rfl

theorem link_giveBack (i : ι) (a : Word) (j : ι) (b : Word) :
    ((s.giveBack i a).desc j b).link = (s.desc j b).link := by
  refine (congrArg NetClientDesc.link (desc_setDesc ..)).trans ?_
  split_ifs with h
  · rw [h.1, h.2]
  · rfl

namespace ClientOk
variable {i : ι} {a : Word}

section
variable (h : ClientOk c s)
include h

theorem own_of_mem (ha : some (i, a) ∈ s.log.drop s.cleaned) : (s.desc i a).own = true := by
  obtain ⟨n, hn⟩ := getElem?_of_mem ha
  rw [getElem?_drop] at hn
  exact (h.entry (s.cleaned + n) i a (Nat.le_add_right _ _) hn).own

theorem ring_congr (ring : ℕ → E1000TxDesc)
    (hring : ∀ k, (ring k).bufferLow = (s.ring k).bufferLow) :
    ClientOk c { s with ring := ring } where
  entry k i a hk hx := by
    unfold view
    rw [hring]
    exact h.entry k i a hk hx
  path := h.path
  nodup := h.nodup
  released := h.released

theorem clear_anon (hfits : s.log.length < s.cleaned + slots) (hx : s.log[s.cleaned]? = some none) :
    ClientOk c (s.clearSlot (s.cleaned % slots)) := by
  have hdrop := drop_cleaned hx
  refine ⟨fun k i a hk hka => ?_, fun i => ?_, ?_, ?_⟩
  · rw [view_clearSlot hfits hk (List.getElem?_eq_some_iff.1 hka).1]
    exact h.entry k i a ((Nat.le_succ _).trans hk) hka
  · have hpath := h.path i
    unfold State.outstanding at hpath
    rw [hdrop] at hpath
    exact hpath
  · have hnodup := h.nodup
    rw [hdrop] at hnodup
    exact hnodup
  · show s.released = (s.log.take (s.cleaned + 1)).filterMap id
    rw [take_add_one, hx, h.released]
    simp

theorem dirtyDesc_eq (hx : s.log[s.cleaned]? = some (some (i, a))) : s.dirtyDesc i = some a := by
  have hpath := h.path i
  unfold State.outstanding at hpath
  rw [drop_cleaned hx, filterMap_cons_some (sentBy_eq_some.2 rfl)] at hpath
  exact hpath.of_cons.1

theorem clear_iface (hfits : s.log.length < s.cleaned + slots)
    (hx : s.log[s.cleaned]? = some (some (i, a))) :
    ClientOk c ((s.giveBack i a).clearSlot (s.cleaned % slots)) := by
  have hdrop := drop_cleaned hx
  have hnodup := h.nodup
  rw [hdrop] at hnodup
  obtain ⟨hnew, hnodup⟩ : (i, a) ∉ (s.log.drop (s.cleaned + 1)).filterMap id ∧ _ :=
    nodup_cons.1 hnodup
  refine ⟨fun k j b hk hkb => ?_, fun j => ?_, hnodup, ?_⟩
  · -- the descriptor is not in another slot
    have hne : ¬(j = i ∧ b = a) := by
      rintro ⟨rfl, rfl⟩
      exact hnew (mem_filterMap.2 ⟨_, mem_drop_of_getElem? hk hkb, rfl⟩)
    have hview := view_clearSlot (s := s.giveBack i a) hfits hk (List.getElem?_eq_some_iff.1 hkb).1
    have hdesc : (s.giveBack i a).desc j b = s.desc j b := (desc_setDesc ..).trans (if_neg hne)
    have hentry := h.entry k j b ((Nat.le_succ _).trans hk) hkb
    rw [← hdesc] at hentry
    exact hview ▸ hentry
  · have hpath := h.path j
    unfold State.outstanding at hpath
    rw [hdrop, ← funext (link_giveBack i a j)] at hpath
    show Path (fun b => ((s.giveBack i a).desc j b).link)
      (update s.dirtyDesc i (some (s.desc i a).link) j)
      ((s.log.drop (s.cleaned + 1)).filterMap (sentBy j)) (s.txdp j)
    by_cases hj : j = i
    · subst hj
      rw [filterMap_cons_some (sentBy_eq_some.2 rfl)] at hpath
      rw [update_self, ← link_giveBack j a]
      exact hpath.of_cons.2
    · simp_all [update_of_ne, sentBy, Ne.symm]
  · show s.released ++ [(i, a)] = (s.log.take (s.cleaned + 1)).filterMap id
    rw [take_add_one, hx, h.released]
    simp

theorem setDesc (ha : (s.desc i a).own = false) (d : NetClientDesc) :
    ClientOk c (s.setDesc i a d) := by
  have hout :
      ∀ j b, some (j, b) ∈ s.log.drop s.cleaned → (s.setDesc i a d).desc j b = s.desc j b := by
    intro j b hb
    rw [desc_setDesc, if_neg]
    rintro ⟨rfl, rfl⟩
    rw [h.own_of_mem hb] at ha
    exact Bool.noConfusion ha
  refine ⟨fun k j b hk hkb => ?_, fun j => ?_, h.nodup, h.released⟩
  · rw [hout j b (mem_drop_of_getElem? hk hkb)]
    exact h.entry k j b hk hkb
  · refine (h.path j).congr fun b hb => ?_
    rw [hout j b (mem_outstanding.1 hb)]

theorem push_anon (hring : RingOk s) (d : E1000TxDesc) :
    ClientOk c
      { s with
        ring := update s.ring (s.log.length % slots) d
        log := s.log ++ [none] } := by
  have hle := hring.cleaned_le.trans hring.marked_le
  have hdrop : (s.log ++ [none]).drop s.cleaned = s.log.drop s.cleaned ++ [none] :=
    drop_append_of_le_length hle
  refine ⟨fun k i a hk hka => ?_, fun i => ?_, ?_, ?_⟩
  · rcases getElem?_concat_eq_some hka with hka | ⟨-, hnone⟩
    · rw [hring.view_push hk (List.getElem?_eq_some_iff.1 hka).1]
      exact h.entry k i a hk hka
    · exact absurd hnone (by simp)
  · have hout : ((s.log ++ [none]).drop s.cleaned).filterMap (sentBy i) = s.outstanding i := by
      rw [hdrop, filterMap_append]
      exact append_nil _
    show Path _ _ (((s.log ++ [none]).drop s.cleaned).filterMap (sentBy i)) _
    rw [hout]
    exact h.path i
  · rw [hdrop]
    simpa using h.nodup
  · rw [take_append_of_le_length hle]
    exact h.released

theorem push_iface (hring : RingOk s) (hstart : s.dirtyDesc i ≠ none)
    (hnew : some (i, s.txdp i) ∉ s.log.drop s.cleaned) {d : E1000TxDesc}
    (hsent : Sent c i (s.desc i (s.txdp i)) d.bufferLow) :
    ClientOk c
      { s with
        ring := update s.ring (s.log.length % slots) d
        txdp := update s.txdp i (s.desc i (s.txdp i)).link
        log := s.log ++ [some (i, s.txdp i)] } := by
  have hle := hring.cleaned_le.trans hring.marked_le
  have hdrop : (s.log ++ [some (i, s.txdp i)]).drop s.cleaned =
      s.log.drop s.cleaned ++ [some (i, s.txdp i)] := drop_append_of_le_length hle
  refine ⟨fun k j a hk hka => ?_, fun j => ?_, ?_, ?_⟩
  · rcases getElem?_concat_eq_some hka with hka | ⟨rfl, heq⟩
    · rw [hring.view_push hk (List.getElem?_eq_some_iff.1 hka).1]
      exact h.entry k j a hk hka
    · grind [view_update_self]
  · show Path _ _ (((s.log ++ [some (i, s.txdp i)]).drop s.cleaned).filterMap (sentBy j))
      (update s.txdp i (s.desc i (s.txdp i)).link j)
    rw [hdrop, filterMap_append]
    by_cases hj : j = i
    · subst hj
      obtain ⟨a, ha⟩ := Option.ne_none_iff_exists'.1 hstart
      have hpath := h.path j
      rw [ha] at hpath
      rw [ha, update_self, filterMap_cons_some (sentBy_eq_some.2 rfl)]
      exact hpath.snoc
    · rw [update_of_ne hj, filterMap_cons_none (by simp [sentBy, Ne.symm hj]),
        filterMap_nil, append_nil]
      exact h.path j
  · rw [hdrop, filterMap_append]
    refine nodup_append.2 ⟨h.nodup, nodup_singleton _, fun x hx y hy => ?_⟩
    obtain rfl : y = (i, s.txdp i) := mem_singleton.1 hy
    rintro rfl
    obtain ⟨z, hz, hzx⟩ := mem_filterMap.1 hx
    obtain rfl : z = some (i, s.txdp i) := hzx
    exact hnew hz
  · rw [take_append_of_le_length hle]
    exact h.released

theorem setDirty (i : ι) :
    ClientOk c
      { s with
        dirtyDesc := update s.dirtyDesc i (some ((s.dirtyDesc i).getD (s.txdp i))) } := by
  refine ⟨h.entry, fun j => ?_, h.nodup, h.released⟩
  by_cases hj : j = i
  · subst hj
    dsimp only
    rw [update_self]
    exact (h.path j).getD
  · dsimp only
    rw [update_of_ne hj]
    exact h.path j

end

end ClientOk
end Inv
end DriverNative.E1000
