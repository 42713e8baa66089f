import Afterburner.DriverReuse.BlockInv

/-!
# Out-of-order completion in the block ring

A descriptor whose I/O ends is exchanged with the first started one, so the finished range grows by
one.
-/

namespace DriverReuse.Block
open Function List Option State Ring
section EndIo
variable {c : Config} {s : State} {st j b : ℕ}

structure FlyingAt (c : Config) (s : State) (st b j : ℕ) : Prop where
  done_le : s.done.length ≤ j
  lt_started : j < st
  bioAt : s.bioAt c j = some b
  inFlight : s.inFlight b = true
  biPrivate : (s.bios b).biPrivate = some (j % c.cnt)
  tag : (s.bios b).tag = (s.desc c j).tag
  failed : (s.bios b).failed = (s.desc c j).serverErr

theorem Inv.flyingAt (h : Inv c s st) (hb : s.inFlight b = true) : ∃ j, FlyingAt c s st b j := by
  obtain ⟨-, ⟨j, hj, hj', hbj⟩, -⟩ := h.flight b hb
  obtain ⟨b', hb', hflight, hpriv, htag, hfailed⟩ := h.started j hj hj'
  obtain rfl : b = b' := some.inj (hbj.symm.trans hb')
  exact ⟨j, hj, hj', hbj, hflight, hpriv, htag, hfailed⟩

theorem Inv.started_inWindow (h : Inv c s st) {p : ℕ} (hp : s.done.length ≤ p) (hp' : p < st) :
    Ring.InWindow c.cnt s.reaped.length p := by
  have := h.le_done
  have := h.le_subs
  have := h.lt_window
  exact ⟨by omega, by omega⟩

theorem Inv.bioAt_inj (h : Inv c s st) (hj : FlyingAt c s st b j) {p : ℕ}
    (hp : s.done.length ≤ p) (hp' : p < st) (hbp : s.bioAt c p = some b) : p = j := by
  obtain ⟨b', hb', -, hpriv, -⟩ := h.started p hp hp'
  obtain rfl : b = b' := some.inj (hbp.symm.trans hb')
  rw [hj.biPrivate] at hpriv
  exact ((mod_eq_iff (h.started_inWindow hj.done_le hj.lt_started)
    (h.started_inWindow hp hp')).1 (some.inj hpriv)).symm

theorem Inv.noteErr (h : Inv c s st) (hj : FlyingAt c s st b j) (err : Bool) :
    Inv c (s.noteErr b (j % c.cnt) err) st ∧ FlyingAt c (s.noteErr b (j % c.cnt) err) st b j := by
  cases err with
  | false => exact ⟨h, hj⟩
  | true =>
    have hjw := h.started_inWindow hj.done_le hj.lt_started
    have hle := h.le_done
    have hle'' := h.le_subs
    have hwin := h.lt_window
    have hdone := hj.done_le
    have hjst := hj.lt_started
    have hdesc : ∀ p, s.reaped.length ≤ p → p < s.reaped.length + c.cnt →
        (s.noteErr b (j % c.cnt) true).desc c p =
          if p = j then { s.desc c p with serverErr := true } else s.desc c p := by
      intro p hp hp'
      refine (view_update hjw ⟨hp, hp'⟩ ..).trans ?_
      split_ifs with hpj
      · rw [hpj]
        rfl
      · rfl
    have hbios : ∀ b', (s.noteErr b (j % c.cnt) true).bios b' =
        if b' = b then { s.bios b with failed := true } else s.bios b' :=
      fun b' => update_apply ..
    have hcd : ∀ i, ((s.noteErr b (j % c.cnt) true).descRing i).clientData =
        (s.descRing i).clientData := by
      intro i
      refine (congrArg Desc.clientData (update_apply ..)).trans ?_
      split_ifs with hi
      · rw [hi]
      · rfl
    have htag : ∀ p, p < s.subs.length →
        (s.noteErr b (j % c.cnt) true).tagAt c p = s.tagAt c p := by
      intro p hp
      rcases Nat.lt_or_ge p s.done.length with hlt | hge
      · have hsome := getElem?_eq_getElem hlt
        have hsome' : (s.noteErr b (j % c.cnt) true).done[p]? = some s.done[p] := hsome
        rw [tagAt, tagAt, hsome, hsome']
      · rw [Inv.tagAt_of_le c hge, Inv.tagAt_of_le c (s := s.noteErr b (j % c.cnt) true) hge,
          hdesc p (by omega) (by omega)]
        split_ifs <;> rfl
    have hjdesc := hdesc j hjw.1 hjw.2
    rw [if_pos rfl] at hjdesc
    have hb := hbios b
    rw [if_pos rfl] at hb
    refine ⟨{ h with owned := fun p (hp : s.done.length ≤ p) (hp' : p < s.subs.length) => ?_,
                     free := fun p (hp : s.subs.length ≤ p)
                       (hp' : p < s.reaped.length + c.cnt) => ?_,
                     finished := fun p hp (hp' : p < s.done.length) => ?_,
                     started := fun p (hp : s.done.length ≤ p) hp' => ?_,
                     waiting := fun p hp (hp' : p < s.subs.length) => ?_,
                     content := fun p hp (hp' : p < s.subs.length) => ?_, flight := ?_,
                     tags := ?_, shadow_lt := ?_, shadow_inj := ?_ },
      ⟨hdone, hjst, hj.bioAt, hj.inFlight, by rw [hb]; exact hj.biPrivate,
        by rw [hb, hjdesc]; exact hj.tag, by rw [hb, hjdesc]⟩⟩
    · grind [h.owned p]
    · grind [h.free p]
    · rw [hdesc p hp (by omega), if_neg (by omega)]
      exact h.finished p hp hp'
    · obtain ⟨b', hb', hflight, hrest⟩ := h.started p hp hp'
      refine ⟨b', hb', hflight, ?_⟩
      have hinj := h.bioAt_inj hj hp hp'
      have hjb := hj.bioAt
      grind
    · rw [hdesc p (by omega) (by omega), if_neg (by omega)]
      exact h.waiting p hp hp'
    · obtain ⟨x, hx, hfill, hshadow⟩ := h.content p hp hp'
      rw [hdesc p hp (by omega)]
      split_ifs
      · exact ⟨x, hx, ⟨hfill.handle, hfill.page, hfill.offset, hfill.size, hfill.doWrite,
          hfill.speculative⟩, hshadow⟩
      · exact ⟨x, hx, hfill, hshadow⟩
    · intro b' hb'
      obtain ⟨hlt, hpos, x, hx, hcarries⟩ := h.flight b' hb'
      refine ⟨hlt, hpos, x, ?_⟩
      rw [hbios]
      split_ifs with hbb
      · subst hbb
        exact ⟨hx, hcarries.sector, hcarries.rw, hcarries.ioVec⟩
      · exact ⟨hx, hcarries⟩
    · intro p q hp hq heq
      rw [htag p hp, htag q hq] at heq
      exact h.tags p q hp hq heq
    · intro i hi
      rw [hcd]
      exact h.shadow_lt i hi
    · intro i hi k hk heq
      rw [hcd, hcd] at heq
      exact h.shadow_inj i hi k hk heq

structure Completed (c : Config) (s t : State) (j : ℕ) : Prop where
  desc_front : t.desc c s.done.length = { s.desc c j with serverOwned := false }
  desc_place : j ≠ s.done.length → t.desc c j = s.desc c s.done.length
  desc_other : ∀ p, Ring.InWindow c.cnt s.reaped.length p → p ≠ s.done.length → p ≠ j →
    t.desc c p = s.desc c p
  bio_front : t.bioAt c s.done.length = none
  bio_place : j ≠ s.done.length → t.bioAt c j = s.bioAt c s.done.length
  bio_other : ∀ p, Ring.InWindow c.cnt s.reaped.length p → p ≠ s.done.length → p ≠ j →
    t.bioAt c p = s.bioAt c p
  bios_moved : ∀ b, j ≠ s.done.length → s.bioAt c s.done.length = some b →
    t.bios b = { s.bios b with biPrivate := some (j % c.cnt) }
  bios_other : ∀ b, (j ≠ s.done.length → s.bioAt c s.done.length ≠ some b) → t.bios b = s.bios b
  clientData : ∀ i, (t.descRing i).clientData =
    (s.descRing (Equiv.swap (j % c.cnt) (s.done.length % c.cnt) i)).clientData
  serverDirty : t.server.startDirty = (s.done.length + 1) % c.cnt
  serverFree : t.server.startFree = s.server.startFree
  fault : t.fault = s.fault
  unchanged : t.client = s.client ∧ t.subs = s.subs ∧ t.done = s.done ∧ t.reaped = s.reaped ∧
    t.shadowRing = s.shadowRing ∧ t.inFlight = s.inFlight ∧ t.nrBios = s.nrBios ∧
    t.picked = s.picked

section Completed

variable {t : State} (ht : Completed c s t j)
include ht

section
variable {p : ℕ} (hp : s.reaped.length ≤ p) (hp' : p < s.reaped.length + c.cnt)
include hp hp'

theorem Completed.desc_eq :
    t.desc c p = if p = s.done.length then { s.desc c j with serverOwned := false }
      else if p = j then s.desc c s.done.length else s.desc c p := by
  split_ifs with h₁ h₂
  · rw [h₁, ht.desc_front]
  · rw [h₂, ht.desc_place (h₂ ▸ h₁)]
  · exact ht.desc_other p ⟨hp, hp'⟩ h₁ h₂

theorem Completed.bio_eq :
    t.bioAt c p = if p = s.done.length then none
      else if p = j then s.bioAt c s.done.length else s.bioAt c p := by
  split_ifs with h₁ h₂
  · rw [h₁, ht.bio_front]
  · rw [h₂, ht.bio_place (h₂ ▸ h₁)]
  · exact ht.bio_other p ⟨hp, hp'⟩ h₁ h₂

end

theorem Completed.bios_eq (b : ℕ) :
    t.bios b = if j ≠ s.done.length ∧ s.bioAt c s.done.length = some b then
      { s.bios b with biPrivate := some (j % c.cnt) } else s.bios b := by
  split_ifs with hmoved
  · exact ht.bios_moved b hmoved.1 hmoved.2
  · exact ht.bios_other b fun h₁ h₂ => hmoved ⟨h₁, h₂⟩

end Completed

theorem Inv.completed_front (h : Inv c s st) (hlt : s.done.length < s.subs.length) :
    Completed c s (s.release c (s.done.length % c.cnt)) s.done.length where
  desc_front := view_update_self ..
  desc_place hne := absurd rfl hne
  desc_other p hp hne _ := view_update_of_ne ⟨h.le_done, lt_trans hlt h.lt_window⟩ hp hne ..
  bio_front := view_update_self ..
  bio_place hne := absurd rfl hne
  bio_other p hp hne _ := view_update_of_ne ⟨h.le_done, lt_trans hlt h.lt_window⟩ hp hne ..
  bios_moved b hne := absurd rfl hne
  bios_other b _ := rfl
  clientData i := by
    by_cases hi : i = s.done.length % c.cnt <;> simp [release, hi]
  serverDirty := succ_mod ..
  serverFree := rfl
  fault := rfl
  unchanged := ⟨rfl, rfl, rfl, rfl, rfl, rfl, rfl, rfl⟩

theorem Inv.completed_swap (h : Inv c s st) (hj : FlyingAt c s st b j) (hne : j ≠ s.done.length) :
    Completed c s ((s.relocate (j % c.cnt) (s.done.length % c.cnt)).release c
      (s.done.length % c.cnt)) j := by
  have hjw := h.started_inWindow hj.done_le hj.lt_started
  have hfst : s.done.length < st := lt_of_le_of_lt hj.done_le hj.lt_started
  have hfw := h.started_inWindow le_rfl hfst
  obtain ⟨b', hb', -⟩ := h.started s.done.length le_rfl hfst
  have hb'' : s.bioRing (s.done.length % c.cnt) = some b' := hb'
  -- the three arrays after the swap and the release
  have hdescs : ((s.relocate (j % c.cnt) (s.done.length % c.cnt)).release c
      (s.done.length % c.cnt)).descRing =
      update (update s.descRing (j % c.cnt) (s.descRing (s.done.length % c.cnt)))
        (s.done.length % c.cnt) { s.descRing (j % c.cnt) with serverOwned := false } := by
    simp [relocate, hb'', release]
  have hbioRing : ((s.relocate (j % c.cnt) (s.done.length % c.cnt)).release c
      (s.done.length % c.cnt)).bioRing =
      update (update s.bioRing (j % c.cnt) (some b')) (s.done.length % c.cnt)
        none := by
    simp [relocate, hb'', release]
  have hbios : ((s.relocate (j % c.cnt) (s.done.length % c.cnt)).release c
      (s.done.length % c.cnt)).bios =
      update s.bios b' { s.bios b' with biPrivate := some (j % c.cnt) } := by
    simp [relocate, hb'', release]
  refine { desc_front := ?_, desc_place := ?_, desc_other := ?_, bio_front := ?_, bio_place := ?_,
           bio_other := ?_, bios_moved := ?_, bios_other := ?_, clientData := ?_,
           serverDirty := ?_, serverFree := ?_, fault := ?_, unchanged := ?_ }
  · rw [desc, hdescs, view_update_self]
    rfl
  · intro _
    rw [desc, hdescs, view_update_of_ne hfw hjw hne, view_update_self]
    rfl
  · intro p hp hpf hpj
    rw [desc, hdescs, view_update_of_ne hfw hp hpf, view_update_of_ne hjw hp hpj]
    rfl
  · rw [bioAt, hbioRing, view_update_self]
  · intro _
    rw [bioAt, hbioRing, view_update_of_ne hfw hjw hne, view_update_self, hb']
  · grind [bioAt, view_update_of_ne]
  · simp_all
  · intro b₀ hb₀
    rw [hbios, update_of_ne]
    rintro rfl
    exact hb₀ hne hb'
  · intro i
    rw [hdescs]
    grind
  · simp [release, succ_mod]
  · simp [relocate, hb'', release]
  · simp [relocate, hb'', release]
  · simp [relocate, hb'', release]

theorem Inv.completed (h : Inv c s st) (hj : FlyingAt c s st b j) :
    Completed c s (s.complete c (j % c.cnt)) j := by
  have hjw := h.started_inWindow hj.done_le hj.lt_started
  have hfst : s.done.length < st := lt_of_le_of_lt hj.done_le hj.lt_started
  have hfw := h.started_inWindow le_rfl hfst
  have hlt : s.done.length < s.subs.length := lt_of_lt_of_le hfst h.le_subs
  have howned : (s.descRing (s.done.length % c.cnt)).serverOwned = true := h.owned _ le_rfl hlt
  have hcheck : s.check true = s := by simp [check]
  simp only [complete, h.serverDirty, howned, hcheck]
  by_cases hne : j = s.done.length
  · rw [hne, if_neg (not_not.2 rfl)]
    exact h.completed_front hlt
  · rw [if_pos fun hmod => hne ((mod_eq_iff hjw hfw).1 hmod.symm)]
    exact h.completed_swap hj hne

/-! The state after the finished bio has been put. -/

section PutBio

variable {t : State} (h : Inv c s st) (hj : FlyingAt c s st b j) (ht : Completed c s t j)
include h hj

theorem Inv.ne_of_bioAt {p b₀ : ℕ} (hp : s.done.length ≤ p) (hp' : p < st) (hpj : p ≠ j)
    (hb₀ : s.bioAt c p = some b₀) : b₀ ≠ b := by
  rintro rfl
  exact hpj (h.bioAt_inj hj hp hp' hb₀)

include ht

theorem Inv.bios_completed : t.bios b = s.bios b :=
  ht.bios_other b fun hne hb =>
    h.ne_of_bioAt hj le_rfl (lt_of_le_of_lt hj.done_le hj.lt_started) (Ne.symm hne) hb rfl

theorem Inv.done_putBio : (t.putBio b).done = s.done ++ [s.bios b] := by
  simp only [putBio, ht.unchanged.2.2.1, h.bios_completed hj ht]

theorem Inv.tagAt_putBio {p : ℕ} (hp : p < s.subs.length) :
    (t.putBio b).tagAt c p = s.tagAt c (Equiv.swap s.done.length j p) := by
  have hdone := h.done_putBio hj ht
  have hle := h.le_done
  have hwin := h.lt_window
  have hsd := hj.done_le
  rcases lt_trichotomy p s.done.length with hlt | rfl | hgt
  · rw [Equiv.swap_apply_of_ne_of_ne (by omega) (by omega), tagAt, tagAt, hdone,
      getElem?_append_left hlt, getElem?_eq_getElem hlt]
  · rw [Equiv.swap_apply_left, tagAt, hdone, getElem?_concat_length,
      Inv.tagAt_of_le c hj.done_le]
    exact hj.tag
  · have hge : (t.putBio b).done.length ≤ p := by rw [hdone]; simpa using hgt
    have hdesc := ht.desc_eq (p := p) (by omega) (by omega)
    rw [Inv.tagAt_of_le c hge, Equiv.swap_apply_def, if_neg (by omega)]
    rw [if_neg (by omega)] at hdesc
    split_ifs at hdesc ⊢
    · exact (congrArg Desc.tag hdesc).trans (Inv.tagAt_of_le c le_rfl).symm
    · exact (congrArg Desc.tag hdesc).trans (Inv.tagAt_of_le c hgt.le).symm

theorem Inv.started_putBio {p : ℕ} (hp : s.done.length + 1 ≤ p) (hp' : p < st) :
    ∃ b₀, (t.putBio b).bioAt c p = some b₀ ∧ (t.putBio b).inFlight b₀ = true ∧
      ((t.putBio b).bios b₀).biPrivate = some (p % c.cnt) ∧
      ((t.putBio b).bios b₀).tag = ((t.putBio b).desc c p).tag ∧
      ((t.putBio b).bios b₀).failed = ((t.putBio b).desc c p).serverErr := by
  have hle := h.le_done
  have hle'' := h.le_subs
  have hwin := h.lt_window
  have hput : ∀ b₀, b₀ ≠ b → (t.putBio b).bios b₀ = t.bios b₀ ∧
      (t.putBio b).inFlight b₀ = s.inFlight b₀ := by
    intro b₀ hne
    rw [← ht.unchanged.2.2.2.2.2.1]
    exact ⟨update_of_ne hne .., update_of_ne hne ..⟩
  obtain ⟨b₁, hb₁, hfl₁, hrest₁⟩ := h.started s.done.length le_rfl (by omega)
  have hbio : (t.putBio b).bioAt c p = _ := ht.bio_eq (by omega) (by omega)
  have hdesc : (t.putBio b).desc c p = _ := ht.desc_eq (by omega) (by omega)
  have hne : p ≠ s.done.length := by omega
  simp only [hbio, hdesc, if_neg hne]
  split_ifs with hpj
  · -- the descriptor that made room for the finished one
    obtain ⟨hput₁, hflight₁⟩ := hput b₁ (h.ne_of_bioAt hj le_rfl (by omega) (by omega) hb₁)
    refine ⟨b₁, hb₁, hflight₁.trans hfl₁, ?_⟩
    rw [hput₁, ht.bios_eq, if_pos ⟨by omega, hb₁⟩, hpj]
    exact ⟨rfl, hrest₁.2⟩
  · obtain ⟨b₀, hb₀, hfl, hrest⟩ := h.started p (by omega) hp'
    obtain ⟨hput₀, hflight₀⟩ := hput b₀ (h.ne_of_bioAt hj (by omega) hp' hpj hb₀)
    refine ⟨b₀, hb₀, hflight₀.trans hfl, ?_⟩
    have hfirst : s.bioAt c s.done.length ≠ some b₀ := by
      intro hfst
      obtain rfl : b₀ = b₁ := some.inj (hfst.symm.trans hb₁)
      have hmod := (mod_eq_iff (h.started_inWindow (by omega) hp')
        (h.started_inWindow le_rfl (by omega))).1
          (some.inj (hrest.1.symm.trans hrest₁.1))
      omega
    rw [hput₀, ht.bios_eq, if_neg fun hmoved => hfirst hmoved.2]
    exact hrest

theorem Inv.flight_putBio {b₀ : ℕ} (hb₀ : (t.putBio b).inFlight b₀ = true) :
    b₀ < s.nrBios ∧ (∃ p, s.done.length + 1 ≤ p ∧ p < st ∧ (t.putBio b).bioAt c p = some b₀) ∧
      ∃ x, s.subs[((t.putBio b).bios b₀).tag]? = some x ∧ ((t.putBio b).bios b₀).Carries c x := by
  have hle := h.le_done
  have hle'' := h.le_subs
  have hwin := h.lt_window
  have hsd := hj.done_le
  have hjst := hj.lt_started
  have hne : b₀ ≠ b := by
    rintro rfl
    simp [putBio] at hb₀
  have hfl : s.inFlight b₀ = true := by
    rw [← ht.unchanged.2.2.2.2.2.1, ← hb₀]
    exact (update_of_ne hne ..).symm
  have hput : (t.putBio b).bios b₀ = t.bios b₀ := update_of_ne hne ..
  obtain ⟨hlt, ⟨p, hp, hp', hbp⟩, x, hx, hcarries⟩ := h.flight b₀ hfl
  have hpj : p ≠ j := by
    rintro rfl
    exact hne (some.inj (hbp.symm.trans hj.bioAt))
  refine ⟨hlt, ?_, x, ?_⟩
  · have hbio : ∀ q, s.reaped.length ≤ q → q < s.reaped.length + c.cnt →
        (t.putBio b).bioAt c q = _ := fun q hq hq' => ht.bio_eq hq hq'
    by_cases hfst : p = s.done.length
    · exact ⟨j, by omega, hjst, by grind⟩
    · exact ⟨p, by omega, hp', by grind⟩
  · rw [hput, ht.bios_eq]
    split_ifs
    · exact ⟨hx, hcarries.sector, hcarries.rw, hcarries.ioVec⟩
    · exact ⟨hx, hcarries⟩

theorem Inv.content_putBio {p : ℕ} (hp : s.reaped.length ≤ p) (hp' : p < s.subs.length) :
    ∃ x, s.subs[((t.putBio b).desc c p).tag]? = some x ∧ ((t.putBio b).desc c p).Fills x ∧
      s.shadowRing ((t.putBio b).desc c p).clientData = ⟨some x.req, some x.bio⟩ := by
  have hle := h.le_done
  have hle'' := h.le_subs
  have hwin := h.lt_window
  have hsd := hj.done_le
  have hjst := hj.lt_started
  have hdesc : (t.putBio b).desc c p = _ := ht.desc_eq hp (by omega)
  rw [hdesc]
  split_ifs
  · obtain ⟨x, hx, hfill, hshadow⟩ := h.content j (by omega) (by omega)
    exact ⟨x, hx, ⟨hfill.handle, hfill.page, hfill.offset, hfill.size, hfill.doWrite,
      hfill.speculative⟩, hshadow⟩
  · exact h.content s.done.length hle (by omega)
  · exact h.content p hp hp'

end PutBio

theorem Inv.putBio_complete (h : Inv c s st) (hj : FlyingAt c s st b j) :
    Inv c ((s.complete c (j % c.cnt)).putBio b) st := by
  have ht := h.completed hj
  generalize s.complete c (j % c.cnt) = t at ht
  obtain ⟨hclient, hsubs, -, hreaped, hshadow, -, hnr, hpicked⟩ := ht.unchanged
  have hle := h.le_done
  have hle'' := h.le_subs
  have hwin := h.lt_window
  have hsd := hj.done_le
  have hjst := hj.lt_started
  have hD := h.done_putBio hj ht
  have hL : (t.putBio b).done.length = s.done.length + 1 := by rw [hD]; simp
  have hR : (t.putBio b).reaped = s.reaped := hreaped
  have hS : (t.putBio b).subs = s.subs := hsubs
  have hSh : (t.putBio b).shadowRing = s.shadowRing := hshadow
  have hdesc : ∀ p, s.reaped.length ≤ p → p < s.reaped.length + c.cnt →
      (t.putBio b).desc c p = _ := fun _ hp hp' => ht.desc_eq hp hp'
  have hbio : ∀ p, s.reaped.length ≤ p → p < s.reaped.length + c.cnt →
      (t.putBio b).bioAt c p = _ := fun _ hp hp' => ht.bio_eq hp hp'
  constructor
  case le_done => rw [hR, hL]; omega
  case le_started => rw [hL]; omega
  case le_subs => rw [hS]; exact hle''
  case lt_window => rw [hS, hR]; exact hwin
  case clientFree => rw [hS]; exact (congrArg Cursors.startFree hclient).trans h.clientFree
  case clientDirty => rw [hR]; exact (congrArg Cursors.startDirty hclient).trans h.clientDirty
  case serverDirty => rw [hL]; exact ht.serverDirty
  case serverFree =>
    have hp : (t.putBio b).picked = s.picked := hpicked
    have hf : (t.putBio b).server.startFree = s.server.startFree := ht.serverFree
    rw [hp, hf, hS]
    exact h.serverFree
  case owned =>
    intro p hp hp'
    have hfst := h.owned s.done.length le_rfl (by omega)
    grind [h.owned p]
  case free =>
    intro p hp hp'
    grind [h.free p]
  case finished =>
    intro p hp hp'
    rw [hR] at hp
    rw [hD, hdesc p hp (by omega), hbio p hp (by omega)]
    split_ifs with h₁ h₂
    · rw [h₁, getElem?_concat_length]
      exact ⟨rfl, rfl, _, rfl, hj.tag.symm, hj.failed.symm⟩
    · omega
    · rw [getElem?_append_left (by omega)]
      exact h.finished p hp (by omega)
  case started =>
    intro p hp hp'
    rw [hL] at hp
    exact h.started_putBio hj ht hp hp'
  case unstarted =>
    intro p hp hp'
    rw [hR] at hp'
    rw [hbio p (by omega) hp', if_neg (by omega), if_neg (by omega)]
    exact h.unstarted p hp hp'
  case waiting =>
    intro p hp hp'
    rw [hS] at hp'
    rw [hdesc p (by omega) (by omega), if_neg (by omega), if_neg (by omega)]
    exact h.waiting p hp hp'
  case content =>
    intro p hp hp'
    rw [hR] at hp
    rw [hS] at hp' ⊢
    rw [hSh]
    exact h.content_putBio hj ht hp hp'
  case flight =>
    intro b₀ hb₀
    have hN : (t.putBio b).nrBios = s.nrBios := hnr
    rw [hN, hL, hS]
    exact h.flight_putBio hj ht hb₀
  case tags =>
    intro p q hp hq heq
    rw [hS] at hp hq
    rw [h.tagAt_putBio hj ht hp, h.tagAt_putBio hj ht hq] at heq
    have hswap : ∀ p < s.subs.length, Equiv.swap s.done.length j p < s.subs.length :=
      fun p hp => swap_lt (by omega) (by omega) hp
    exact (Equiv.swap s.done.length j).injective (h.tags _ _ (hswap p hp) (hswap q hq) heq)
  case shadow_lt =>
    intro i hi
    exact (ht.clientData i).trans_lt
      (h.shadow_lt _ (swap_lt (Nat.mod_lt _ c.cnt_pos) (Nat.mod_lt _ c.cnt_pos) hi))
  case shadow_inj =>
    intro i hi k hk heq
    have heq : (t.descRing i).clientData = (t.descRing k).clientData := heq
    rw [ht.clientData, ht.clientData] at heq
    have hslot : ∀ i < c.cnt,
        Equiv.swap (j % c.cnt) (s.done.length % c.cnt) i < c.cnt :=
      fun i hi => swap_lt (Nat.mod_lt _ c.cnt_pos) (Nat.mod_lt _ c.cnt_pos) hi
    exact (Equiv.swap _ _).injective (h.shadow_inj _ (hslot i hi) _ (hslot k hk) heq)
  case live => rw [hS]; exact h.live
  case doneCarries =>
    rw [hD, hS]
    exact forall_mem_append.2
      ⟨h.doneCarries, forall_mem_singleton.2 (h.flight b hj.inFlight).2.2⟩
  case reaped =>
    rw [hD, hS, hR]
    intro i r hr
    obtain ⟨b₀, x, hb₀, hx, hof⟩ := h.reaped i r hr
    exact ⟨b₀, x, getElem?_append_of_some hb₀ _, hx, hof⟩
  case fault => exact ht.fault.trans h.fault

theorem Inv.endIo (h : Inv c s st) (hb : s.inFlight b = true) (err finished : Bool) :
    Inv c (s.endIo c b err finished) st := by
  obtain ⟨j, hj⟩ := h.flyingAt hb
  obtain ⟨herr, hj'⟩ := h.noteErr hj err
  have hlive : c.live ((s.noteErr b (j % c.cnt) err).descRing (j % c.cnt)).handle = true :=
    herr.live_handle (herr.le_done.trans hj'.done_le) (hj'.lt_started.trans_le herr.le_subs)
  cases finished with
  | false => simpa only [State.endIo, hj.biPrivate, Bool.false_eq_true, if_false] using herr
  | true => simpa only [State.endIo, hj.biPrivate, hlive, if_true] using herr.putBio_complete hj'

end EndIo
end DriverReuse.Block
