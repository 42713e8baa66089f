import Afterburner.DriverReuse.BlockEndIo
import Mathlib.Data.Fintype.EquivFin

/-!
# No submission of the block ring is lost, repeated or mixed up

Reaping keeps the invariant as well, so it holds in every state of every interleaving.
-/

namespace DriverReuse.Block
open List Nat
section Reap
variable {c : Config} {s : State} {st : ℕ}

theorem Inv.canReap_iff (h : Inv c s st) : s.canReap = true ↔ s.reaped.length < s.done.length := by
  have hle := h.le_done
  have hle' := h.le_started
  have hle'' := h.le_subs
  have hwin := h.lt_window
  have hcd : Ring.InWindow c.cnt s.reaped.length s.reaped.length := ⟨le_rfl, by omega⟩
  have hne : s.reaped.length % c.cnt ≠ s.subs.length % c.cnt ↔ s.reaped.length ≠ s.subs.length :=
    not_congr (Ring.mod_eq_iff hcd h.inWindow_subs)
  have hview : s.descRing (s.reaped.length % c.cnt) = s.desc c s.reaped.length := rfl
  simp only [State.canReap, h.clientDirty, h.clientFree, decide_eq_true_eq, hne, hview]
  constructor
  · rintro ⟨hlt, howned⟩
    by_contra hge
    rw [h.owned _ (by omega) (by omega)] at howned
    cases howned
  · intro hlt
    exact ⟨by omega, (h.finished _ le_rfl hlt).1⟩

theorem Inv.reap (h : Inv c s st) (hlt : s.reaped.length < s.done.length) :
    Inv c (s.reap c) st := by
  have hle' := h.le_started
  have hle'' := h.le_subs
  have hwin := h.lt_window
  have hcd : Ring.InWindow c.cnt s.reaped.length s.reaped.length := ⟨le_rfl, by omega⟩
  obtain ⟨howned, hnone, b, hb, htag, hfailed⟩ := h.finished _ le_rfl hlt
  obtain ⟨x, hx, hfill, hshadow⟩ := h.content _ le_rfl (by omega : s.reaped.length < s.subs.length)
  have hlen : (s.reap c).reaped.length = s.reaped.length + 1 := by simp [State.reap]
  have hdesc : ∀ p, (s.reap c).desc c p = s.desc c p := fun _ => rfl
  have hbio : ∀ p, (s.reap c).bioAt c p = s.bioAt c p := fun _ => rfl
  -- the slot that has been reaped is the last one of the new window
  have hwrap : (s.reaped.length + c.cnt) % c.cnt = s.reaped.length % c.cnt := add_mod_right ..
  have hlastDesc : s.desc c (s.reaped.length + c.cnt) = s.desc c s.reaped.length :=
    congrArg s.descRing hwrap
  have hlastBio : s.bioAt c (s.reaped.length + c.cnt) = s.bioAt c s.reaped.length :=
    congrArg s.bioRing hwrap
  have hring : (s.reap c).shadowRing = Function.update s.shadowRing
      (s.desc c s.reaped.length).clientData ⟨none, none⟩ := by
    simp only [State.reap, h.clientDirty]
    rfl
  refine { h with le_done := ?_, lt_window := ?_, clientDirty := ?_, free := ?_, finished := ?_,
                  unstarted := ?_, content := ?_, reaped := ?_ }
  · rw [hlen]; exact hlt
  · rw [hlen]; exact lt_trans hwin (by omega)
  · rw [hlen]
    simp only [State.reap, h.clientDirty, Ring.succ_mod]
  · intro p hp hp'
    rw [hdesc]
    rcases Nat.lt_succ_iff_lt_or_eq.1 (by omega : p < s.reaped.length + c.cnt + 1) with hp' | rfl
    · exact h.free p hp hp'
    · rw [hlastDesc]; exact howned
  · intro p hp hp'
    exact h.finished p (by omega) hp'
  · intro p hp hp'
    rw [hbio]
    rcases Nat.lt_succ_iff_lt_or_eq.1 (by omega : p < s.reaped.length + c.cnt + 1) with hp' | rfl
    · exact h.unstarted p hp hp'
    · rw [hlastBio]; exact hnone
  · intro p hp hp'
    have hp' : p < s.subs.length := hp'
    obtain ⟨y, hy, hfill', hshadow'⟩ := h.content p (by omega) hp'
    refine ⟨y, hy, hfill', ?_⟩
    rw [hring, hdesc, Function.update_of_ne, hshadow']
    intro hcd'
    have := h.clientData_inj ⟨by omega, by omega⟩ hcd hcd'
    omega
  · intro i r hr
    have hlist : (s.reap c).reaped = s.reaped ++
        [⟨(s.shadowRing (s.desc c s.reaped.length).clientData).req,
          (s.shadowRing (s.desc c s.reaped.length).clientData).bio, (s.desc c s.reaped.length).size,
          (s.desc c s.reaped.length).serverErr, (s.desc c s.reaped.length).tag⟩] := by
      simp only [State.reap, h.clientDirty]
      rfl
    rw [hlist] at hr
    rcases lt_or_ge i s.reaped.length with hi | hi
    · rw [getElem?_append_left hi] at hr
      exact h.reaped i r hr
    · rw [getElem?_append_right hi, getElem?_singleton] at hr
      split_ifs at hr with hzero
      obtain rfl : i = s.reaped.length := by omega
      obtain rfl := Option.some.inj hr
      obtain ⟨y, hy, hcarries⟩ := h.doneCarries b (mem_of_getElem? hb)
      rw [← htag, hx] at hy
      obtain rfl := Option.some.inj hy
      rw [hshadow]
      exact ⟨b, x, hb, hx, htag, hfailed, rfl, rfl, hfill.size, hcarries⟩

end Reap

theorem inv_init (c : Config) (dmaVec : ℕ → ℕ × ℕ) (sectors : ℕ → ℕ) :
    Inv c (State.init dmaVec sectors) 0 where
  le_done := le_rfl
  le_started := le_rfl
  le_subs := le_rfl
  lt_window := by simpa [State.init] using c.cnt_pos
  clientFree := (zero_mod _).symm
  clientDirty := (zero_mod _).symm
  serverDirty := (zero_mod _).symm
  serverFree := Or.inl ⟨rfl, (zero_mod _).symm⟩
  owned p _ hp := absurd hp (not_lt_zero p)
  free _ _ _ := rfl
  finished p _ hp := absurd hp (not_lt_zero p)
  started p _ hp := absurd hp (not_lt_zero p)
  unstarted _ _ _ := rfl
  waiting p _ hp := absurd hp (not_lt_zero p)
  content p _ hp := absurd hp (not_lt_zero p)
  flight b hb := by cases hb
  tags p _ hp := absurd hp (not_lt_zero p)
  shadow_lt i hi := hi
  shadow_inj i _ j _ hij := hij
  live x hx := by cases hx
  doneCarries b hb := by cases hb
  reaped i r hr := by cases hr
  fault := rfl

variable {c : Config} {s : State} {st : ℕ}

theorem Inv.step {t : State} (h : Inv c s st) (hst : Step c s t) : ∃ st', Inv c t st' := by
  cases hst with
  | submit x hlive hfree => exact ⟨st, h.processRequest hlive hfree⟩
  | pick hidle => exact ⟨st, h.processIoQueue hidle⟩
  | initiate hpicked => exact ⟨st + 1, h.processPicked hpicked⟩
  | endIo err finished hflight => exact ⟨st, h.endIo hflight err finished⟩
  | reap hcan => exact ⟨st, h.reap (h.canReap_iff.1 hcan)⟩

theorem inv_of_reach {dmaVec : ℕ → ℕ × ℕ} {sectors : ℕ → ℕ}
    (hr : Runs.Reach (Step c) (State.init dmaVec sectors) s) : ∃ st, Inv c s st :=
  Runs.reach_invariant (I := fun s => ∃ st, Inv c s st)
    (fun _ _ ⟨_, h⟩ hst => h.step hst) ⟨0, inv_init c dmaVec sectors⟩ hr

theorem Inv.finishTransfers (h : Inv c s st) (fuel : ℕ)
    (hfuel : s.done.length ≤ s.reaped.length + fuel) :
    Inv c (s.finishTransfers c fuel) st ∧
      (s.finishTransfers c fuel).reaped.length = s.done.length ∧
      (s.finishTransfers c fuel).done = s.done ∧ (s.finishTransfers c fuel).subs = s.subs := by
  induction fuel generalizing s with
  | zero =>
    have := h.le_done
    exact ⟨h, by simp only [State.finishTransfers]; omega, rfl, rfl⟩
  | succ fuel ih =>
    rw [State.finishTransfers]
    split_ifs with hcan
    · have hlt := h.canReap_iff.1 hcan
      have hlen : (s.reap c).reaped.length = s.reaped.length + 1 := by simp [State.reap]
      have hdone : (s.reap c).done = s.done := rfl
      exact ih (h.reap hlt) (by rw [hlen, hdone]; omega)
    · have := h.le_done
      have hge := mt h.canReap_iff.2 hcan
      exact ⟨h, by omega, rfl, rfl⟩

theorem exists_eq_of_injective {n : ℕ} {f : ℕ → ℕ} (hf : ∀ i < n, f i < n)
    (hinj : ∀ i < n, ∀ j < n, f i = f j → i = j) {m : ℕ} (hm : m < n) : ∃ i < n, f i = m := by
  let g : Fin n → Fin n := fun i => ⟨f i, hf i i.2⟩
  have hg : Function.Injective g := fun i j heq => Fin.ext (hinj i i.2 j j.2 (Fin.mk.inj heq))
  obtain ⟨i, hi⟩ := Finite.injective_iff_surjective.1 hg ⟨m, hm⟩
  exact ⟨i, i.2, Fin.mk.inj hi⟩

theorem State.done_tags (c : Config) (s : State) :
    s.done.map Bio.tag = (range s.done.length).map (s.tagAt c) := by
  apply ext_getElem?
  intro i
  rcases lt_or_ge i s.done.length with hi | hi
  · simp [State.tagAt, hi]
  · simp [hi]

section Histories
variable {c : Config} {s : State} {st : ℕ} (h : Inv c s st)

include h

theorem Inv.exists_tagAt {n : ℕ} (hn : n < s.subs.length) :
    ∃ p < s.subs.length, s.tagAt c p = n :=
  exists_eq_of_injective (fun _ hp => h.tagAt_lt hp) (fun p hp q hq => h.tags p q hp hq) hn

theorem Inv.reaped_tags :
    s.reaped.map Reaped.tag = (range s.reaped.length).map (s.tagAt c) := by
  apply ext_getElem?
  intro i
  rcases lt_or_ge i s.reaped.length with hi | hi
  · obtain ⟨b, x, hb, -, htag, -⟩ := h.reaped i _ (getElem?_eq_getElem hi)
    simp [State.tagAt, hi, hb, htag]
  · simp [hi]

theorem Inv.nodup_tags {n : ℕ} (hn : n ≤ s.subs.length) :
    ((range n).map (s.tagAt c)).Nodup := by
  refine List.Nodup.map_on (fun p hp q hq heq => ?_) nodup_range
  have hp := mem_range.1 hp
  have hq := mem_range.1 hq
  exact h.tags p q (by omega) (by omega) heq

end Histories

/-- **What holds of the block ring in every interleaving.** -/
structure ExactlyOnce (c : Config) (s : State) : Prop where
  /-- No assertion on `server_owned` has failed, and no null pointer was followed. -/
  noFault : s.fault = false
  /-- The `client_data` pointers are a permutation of the shadow ring. -/
  shadows : Set.BijOn (fun i => (s.descRing i).clientData) (Set.Iio c.cnt) (Set.Iio c.cnt)
  atMostOnce : (s.reaped.map Reaped.tag).Nodup
  own : ∀ (i : ℕ) (r : Reaped), s.reaped[i]? = some r →
    ∃ b x, s.done[i]? = some b ∧ s.subs[r.tag]? = some x ∧ r.Of c b x
  nothingLost : ∀ n < s.subs.length, n ∈ s.reaped.map Reaped.tag ∨
    ∃ p, s.reaped.length ≤ p ∧ p < s.subs.length ∧ (s.desc c p).tag = n
  pickedUp : s.picked = none →
    (∃ p, s.reaped.length ≤ p ∧ p < s.subs.length ∧ (s.desc c p).serverOwned = true ∧
      s.bioAt c p = none) → (s.processIoQueue c).picked.isSome = true
  endedReaped : (s.finishTransfers c c.cnt).reaped.map Reaped.tag = s.done.map Bio.tag
  allReaped : s.done.length = s.subs.length →
    ((s.finishTransfers c c.cnt).reaped.map Reaped.tag).Perm (range s.subs.length)

theorem Inv.pickedUp (h : Inv c s st) (hidle : s.picked = none)
    {p : ℕ} (hp : s.reaped.length ≤ p) (hp' : p < s.subs.length)
    (howned : (s.desc c p).serverOwned = true) (hbio : s.bioAt c p = none) :
    (s.processIoQueue c).picked.isSome = true := by
  have hst : st ≤ p := by
    by_contra hlt
    rcases lt_or_ge p s.done.length with hfin | hfin
    · rw [(h.finished p hp hfin).1] at howned
      cases howned
    · obtain ⟨b, hb, -⟩ := h.started p hfin (by omega)
      rw [hbio] at hb
      cases hb
  have hfree := h.startFree_of_idle hidle
  have howned' : (s.descRing (st % c.cnt)).serverOwned = true :=
    h.owned st h.le_started (by omega)
  have hbio' : s.bioRing (st % c.cnt) = none :=
    h.unstarted st le_rfl (by have := h.lt_window; omega)
  simp [State.processIoQueue, hfree, howned', hbio']

theorem Inv.exactlyOnce (h : Inv c s st) : ExactlyOnce c s := by
  have hle := h.le_done
  have hle' := h.le_started
  have hle'' := h.le_subs
  have hwin := h.lt_window
  obtain ⟨hfin, hlen, hdone, hsubs⟩ := h.finishTransfers c.cnt (by omega)
  have hended : (s.finishTransfers c c.cnt).reaped.map Reaped.tag = s.done.map Bio.tag := by
    rw [hfin.reaped_tags, hlen, ← hdone, ← State.done_tags]
  refine ⟨h.fault, ⟨fun i hi => h.shadow_lt i hi, fun i hi j hj => h.shadow_inj i hi j hj, ?_⟩, ?_,
    h.reaped, fun n hn => ?_, fun hidle ⟨p, hp, hp', howned, hbio⟩ =>
      h.pickedUp hidle hp hp' howned hbio, hended, fun hall => ?_⟩
  · intro m hm
    exact exists_eq_of_injective h.shadow_lt h.shadow_inj hm
  · rw [h.reaped_tags]
    exact h.nodup_tags (by omega)
  · obtain ⟨p, hp, htag⟩ := h.exists_tagAt hn
    rcases lt_or_ge p s.reaped.length with hreaped | hreaped
    · refine Or.inl ?_
      rw [h.reaped_tags]
      exact mem_map.2 ⟨p, mem_range.2 hreaped, htag⟩
    · refine Or.inr ⟨p, hreaped, hp, ?_⟩
      rcases lt_or_ge p s.done.length with hdone' | hdone'
      · obtain ⟨-, -, b, hb, htag', -⟩ := h.finished p hreaped hdone'
        rw [State.tagAt, hb] at htag
        exact htag'.trans htag
      · rwa [Inv.tagAt_of_le c hdone'] at htag
  · rw [hended, s.done_tags c, hall]
    refine (perm_ext_iff_of_nodup (h.nodup_tags le_rfl) nodup_range).2 fun n => ?_
    rw [mem_map, mem_range]
    constructor
    · rintro ⟨p, hp, rfl⟩
      exact h.tagAt_lt (mem_range.1 hp)
    · intro hn
      obtain ⟨p, hp, htag⟩ := h.exists_tagAt hn
      exact ⟨p, mem_range.2 hp, htag⟩

/-- **Out-of-order completion keeps the block ring exact**, in every interleaving with live handles.
-/
theorem exactlyOnce_of_reach (c : Config) (dmaVec : ℕ → ℕ × ℕ) (sectors : ℕ → ℕ) (s : State)
    (hr : Runs.Reach (Step c) (State.init dmaVec sectors) s) : ExactlyOnce c s := by
  obtain ⟨st, h⟩ := inv_of_reach hr
  exact h.exactlyOnce

theorem exactlyOnce_second_first :
    let c : Config := ⟨4, by decide, fun _ => true, id⟩
    let s := State.init (fun _ => (0, 0)) (fun _ => 16)
    let s := s.processRequest c ⟨7, 1, 0, 0, 0, 4096, .read⟩
    let s := s.processRequest c ⟨7, 2, 0, 4096, 8, 4096, .write⟩
    let s := (s.processIoQueue c).processPicked c 0
    let s := (s.processIoQueue c).processPicked c 1
    let s := (s.endIo c 1 true true).reap c
    ExactlyOnce c s ∧ s.reaped.map Reaped.tag = [1] ∧ s.reaped.map Reaped.bio = [some 2] ∧
      s.reaped.map Reaped.err = [true] := by
  refine ⟨exactlyOnce_of_reach _ (fun _ => (0, 0)) (fun _ => 16) _ ?_, by decide +kernel,
    by decide +kernel, by decide +kernel⟩
  exact .tail (.tail (.tail (.tail (.tail (.tail (.tail (.tail .refl
    (.submit ⟨7, 1, 0, 0, 0, 4096, .read⟩ rfl (by decide)))
    (.submit ⟨7, 2, 0, 4096, 8, 4096, .write⟩ rfl (by decide)))
    (.pick rfl)) (.initiate rfl)) (.pick rfl)) (.initiate rfl))
    (.endIo true true rfl)) (.reap (by decide))

section Drain
variable {c : Config} {s : State} {st : ℕ}

/-- What has been submitted, has ended and has been reaped is the same. -/
def SameHistories (s t : State) : Prop := t.subs = s.subs ∧ t.done = s.done ∧ t.reaped = s.reaped

theorem sameHistories_processPicked (c : Config) (s : State) (k : ℕ) :
    SameHistories s (s.processPicked c k) := by
  unfold State.processPicked
  split_ifs <;> exact ⟨rfl, rfl, rfl⟩

theorem sameHistories_processIoQueue (c : Config) (s : State) :
    SameHistories s (s.processIoQueue c) := by
  unfold State.processIoQueue
  dsimp only
  split_ifs <;> exact ⟨rfl, rfl, rfl⟩

/-- The server starts the I/O of the next waiting descriptor. -/
theorem Inv.exists_start (h : Inv c s st) (hlt : st < s.subs.length) :
    ∃ t, Runs.Reach (Step c) s t ∧ Inv c t (st + 1) ∧ SameHistories s t := by
  cases hpicked : s.picked with
  | some k =>
    exact ⟨_, .single (.initiate hpicked), h.processPicked hpicked,
      sameHistories_processPicked c s k⟩
  | none =>
    have hdone := h.le_started
    have hreaped := h.le_done
    have hsome := h.pickedUp hpicked (p := st) (by omega) hlt (h.owned st hdone hlt)
      (h.unstarted st le_rfl (hlt.trans h.lt_window))
    obtain ⟨k, hk⟩ := Option.isSome_iff_exists.1 hsome
    obtain ⟨h₁, h₂, h₃⟩ := sameHistories_processIoQueue c s
    obtain ⟨h₁', h₂', h₃'⟩ := sameHistories_processPicked c (s.processIoQueue c) k
    exact ⟨_, .tail (.single (.pick hpicked)) (.initiate hk),
      (h.processIoQueue hpicked).processPicked hk, h₁'.trans h₁, h₂'.trans h₂, h₃'.trans h₃⟩

/-- An I/O that has been started ends. -/
theorem Inv.exists_end (h : Inv c s st) (hlt : s.done.length < st) :
    ∃ t, Runs.Reach (Step c) s t ∧ Inv c t st ∧ t.subs = s.subs ∧
      t.done.length = s.done.length + 1 ∧ t.reaped = s.reaped := by
  obtain ⟨b, hbio, hflight, hpriv, htag, hfailed⟩ := h.started _ le_rfl hlt
  have hlive := h.live_handle (p := s.done.length) h.le_done (hlt.trans_le h.le_subs)
  have ht := h.completed ⟨le_rfl, hlt, hbio, hflight, hpriv, htag, hfailed⟩
  obtain ⟨-, hsubs, hdone, hreaped, -⟩ := ht.unchanged
  refine ⟨_, .single (.endIo false true hflight), h.endIo hflight false true, ?_⟩
  have hend : s.endIo c b false true = (s.complete c (s.done.length % c.cnt)).putBio b := by
    have hlive' : c.live (s.descRing (s.done.length % c.cnt)).handle = true := hlive
    simp [State.endIo, hpriv, State.noteErr, hlive']
  rw [hend]
  exact ⟨hsubs, by simp [State.putBio, hdone], hreaped⟩

theorem Inv.exists_drained (h : Inv c s st) :
    ∃ t st', Runs.Reach (Step c) s t ∧ Inv c t st' ∧ t.subs = s.subs ∧
      t.reaped.length = t.subs.length := by
  generalize hn : 3 * s.subs.length - (st + s.done.length + s.reaped.length) = n
  have hle := h.le_done
  have hle' := h.le_started
  have hle'' := h.le_subs
  -- what is left to be started, ended and reaped gets less
  induction n generalizing s st with
  | zero => exact ⟨s, st, .refl, h, rfl, by omega⟩
  | succ n ih =>
    have hnext : ∃ t st', Runs.Reach (Step c) s t ∧ Inv c t st' ∧ t.subs = s.subs ∧
        st' + t.done.length + t.reaped.length = st + s.done.length + s.reaped.length + 1 := by
      rcases Nat.lt_or_ge s.reaped.length s.done.length with hlt | hge
      · refine ⟨_, st, .single (.reap (h.canReap_iff.2 hlt)), h.reap hlt, rfl, ?_⟩
        simp [State.reap, Nat.add_assoc]
      rcases Nat.lt_or_ge s.done.length st with hlt | hge'
      · obtain ⟨t, hreach, ht, hsubs, hdone, hreaped⟩ := h.exists_end hlt
        exact ⟨t, st, hreach, ht, hsubs, by rw [hdone, hreaped]; omega⟩
      · obtain ⟨t, hreach, ht, hsubs, hdone, hreaped⟩ := h.exists_start (by omega)
        exact ⟨t, st + 1, hreach, ht, hsubs, by rw [hdone, hreaped]; omega⟩
    obtain ⟨t, st', hreach, ht, hsubs, hsum⟩ := hnext
    obtain ⟨u, st'', hreach', hu, hsubs', hall⟩ :=
      ih ht (by rw [hsubs]; omega) ht.le_done ht.le_started ht.le_subs
    exact ⟨u, st'', hreach.trans hreach', hu, hsubs'.trans hsubs, hall⟩

end Drain

/-- **The block ring never gets stuck**: from every state of every interleaving the client and the
server can go on, without further submissions, until each submission has been reaped once. -/
theorem drains_of_reach (c : Config) (dmaVec : ℕ → ℕ × ℕ) (sectors : ℕ → ℕ) (s : State)
    (hr : Runs.Reach (Step c) (State.init dmaVec sectors) s) :
    ∃ t, Runs.Reach (Step c) s t ∧ t.subs = s.subs ∧
      (t.reaped.map Reaped.tag).Perm (range s.subs.length) := by
  obtain ⟨st, h⟩ := inv_of_reach hr
  obtain ⟨t, st', hreach, ht, hsubs, hall⟩ := h.exists_drained
  refine ⟨t, hreach, hsubs, .symm (Subperm.perm_of_length_le ?_ (by simp [hall, hsubs]))⟩
  refine subperm_of_subset nodup_range fun n hn => ?_
  rw [mem_range, ← hsubs] at hn
  exact (ht.exactlyOnce.nothingLost n hn).resolve_right fun ⟨p, hp, hp', _⟩ => by omega

theorem drains_firstSubmission : let c : Config := ⟨4, by decide, fun _ => true, id⟩
    let s := (State.init (fun _ => (0, 0)) (fun _ => 16)).processRequest c
      ⟨7, 1, 0, 0, 0, 4096, .read⟩
    s.reaped = [] ∧ ∃ t, Runs.Reach (Step c) s t ∧ t.subs = s.subs ∧
      (t.reaped.map Reaped.tag).Perm (range s.subs.length) :=
  ⟨rfl, drains_of_reach _ (fun _ => (0, 0)) (fun _ => 16) _ (.single (.submit _ rfl (by decide)))⟩

end DriverReuse.Block
