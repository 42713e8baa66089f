import Afterburner.DriverReuse.Net

/-!
# The invariant of the send ring

`Inv` says what the slots hold with positions below `cd` cleaned and below `cf` filled, and `hd`
packets handed over.
-/
variable (c : Config) (s : State)

namespace DriverReuse.Net
open Function State List

def Desc.Carries (d : Desc) (x : Packet) : ℕ → Prop
  | 0 => d.header = x.header
  | i + 1 => x.frags[i]? = some ⟨d.header.buffer, d.header.bufferLen⟩

namespace State

def desc (p : ℕ) : Desc := Ring.view c.cnt s.descRing p
def shadow (p : ℕ) : Option ℕ := Ring.view c.cnt s.sendShadow p
def nrFrags (n : ℕ) : ℕ := (s.pkt n).frags.length
def start (s : State) (n : ℕ) : ℕ := Ring.start s.nrFrags n

def InUse (cd cf n i : ℕ) : Prop :=
  i ≤ s.nrFrags n ∧ cd ≤ s.start n + i ∧ s.start n + i < cf

def owns (hd n i : ℕ) : Bool :=
  if n < s.nrWrapped then
    if i = 0 then !(s.wrapped n).destroyed
    else decide (s.nrFrags n - (s.wrapped n).fragCount < i)
  else decide (n < hd ∨ 0 < i)

end State

structure Wrapped.Of (x : Packet) (st : ℕ) (w : Wrapped) : Prop where
  header : w.header = x.header
  frags : w.frags = x.frags
  startFrag : w.startFrag = st % c.cnt
  fragCount : w.fragCount ≤ x.frags.length
  idx : w.idx = (st + 1 + (x.frags.length - w.fragCount)) % c.cnt
  destroyed : w.destroyed = true → w.fragCount = 0

def Pc.At (cd hd cf : ℕ) : Pc → Prop
  | .idle => hd = s.nrPkts ∧ cf = s.start s.nrPkts
  | .cleaning none => hd = s.nrPkts ∧ cf = s.start s.nrPkts
  | .cleaning (some x) => hd = s.nrPkts ∧ cf = s.start s.nrPkts ∧ x.frags.length ≤ c.maxFrags ∧
      x.fragments < c.cnt ∧ ∃ t, cf + x.fragments < t + c.cnt ∧
        ∀ p, cd ≤ p → p < t → p < cf → (s.desc c p).serverOwned = false
  | .ready x => hd = s.nrPkts ∧ cf = s.start s.nrPkts ∧ x.frags.length ≤ c.maxFrags ∧
      cf + x.fragments < cd + c.cnt
  | .filling desc fragDesc f => hd + 1 = s.nrPkts ∧ cf = s.start hd + 1 + f ∧ f ≤ s.nrFrags hd ∧
      desc = s.start hd % c.cnt ∧ fragDesc = (s.start hd + f) % c.cnt ∧
      s.start (hd + 1) < cd + c.cnt

structure State.Freed (cd : ℕ) : Prop where
  eq_range : s.freed = range s.freed.length
  le_wrapped : s.freed.length ≤ s.nrWrapped
  le_dirty : s.start s.freed.length ≤ cd
  within : cd ≠ s.start s.freed.length → s.freed.length < s.nrWrapped ∧
    (s.wrapped s.freed.length).destroyed = true ∧ cd < s.start (s.freed.length + 1)
  released : ∀ n < s.freed.length, (s.wrapped n).destroyed = true

structure Inv (cd hd cf : ℕ) : Prop where
  freed : s.Freed cd
  le_handed : s.nrWrapped ≤ hd
  lt_window : cf < cd + c.cnt
  startFree : s.startFree = cf % c.cnt
  startDirty : s.startDirty = cd % c.cnt
  serverFree : s.serverFree = s.start s.nrWrapped % c.cnt
  pc : s.pc.At c s cd hd cf
  frags_le : ∀ n < s.nrPkts, s.nrFrags n ≤ c.maxFrags
  shadow : ∀ n i, s.InUse cd cf n i → s.shadow c (s.start n + i) = some n
  carries : ∀ n i, s.InUse cd cf n i → (s.desc c (s.start n + i)).Carries (s.pkt n) i
  fragment : ∀ n i, s.InUse cd cf n i →
    (s.desc c (s.start n + i)).fragment = decide (i < s.nrFrags n ∧ s.start n + i + 1 < cf)
  owned : ∀ n i, s.InUse cd cf n i → (s.desc c (s.start n + i)).serverOwned = s.owns hd n i
  dropped : ∀ n, s.InUse cd cf n 0 → (s.desc c (s.start n)).dropped = decide (n < s.nrWrapped)
  free : ∀ p, cf ≤ p → p < cd + c.cnt → (s.desc c p).serverOwned = false ∧ s.shadow c p = none
  wrapped : ∀ n < s.nrWrapped, (s.wrapped n).Of c (s.pkt n) (s.start n)
  fault : s.fault = false

namespace State
variable {s} {m n i j : ℕ}

theorem start_succ (s : State) (n : ℕ) : s.start (n + 1) = s.start n + s.nrFrags n + 1 :=
  Ring.start_succ ..

theorem start_mono (s : State) (h : m ≤ n) : s.start m ≤ s.start n := Ring.start_mono _ h

theorem start_add_lt (s : State) (h : m < n) : s.start m + s.nrFrags m < s.start n :=
  Ring.start_add_lt _ h

theorem lt_of_start_add_lt (h : s.start m + i < s.start n) : m < n := Ring.lt_of_start_add_lt h

theorem start_add_inj (hi : i ≤ s.nrFrags m) (hj : j ≤ s.nrFrags n) :
    s.start m + i = s.start n + j ↔ m = n ∧ i = j := Ring.start_add_inj hi hj

theorem owns_of_le {hd : ℕ} (hn : s.nrWrapped ≤ n) : s.owns hd n i = decide (n < hd ∨ 0 < i) :=
  if_neg (not_lt.2 hn)

theorem owns_of_lt {hd : ℕ} (hn : n < s.nrWrapped) : s.owns hd n i =
    if i = 0 then !(s.wrapped n).destroyed
    else decide (s.nrFrags n - (s.wrapped n).fragCount < i) :=
  if_pos hn

@[simp] theorem check_true (s : State) : s.check true = s := by
  cases s
  simp [check]

end State
variable {c}

theorem Pc.At.bounds {s : State} {cd hd cf : ℕ} {pc : Pc} (h : pc.At c s cd hd cf) :
    s.start hd ≤ cf ∧ cf ≤ s.start (hd + 1) := by
  have hsucc := s.start_succ hd
  cases pc with
  | idle => obtain ⟨rfl, rfl⟩ := h; omega
  | cleaning next =>
    cases next with
    | none => obtain ⟨rfl, rfl⟩ := h; omega
    | some x => obtain ⟨rfl, rfl, -⟩ := h; omega
  | ready x => obtain ⟨rfl, rfl, -⟩ := h; omega
  | filling d p f => obtain ⟨-, rfl, hf, -⟩ := h; omega

theorem Pc.At.of_cleaning {s : State} {cd hd cf : ℕ} {next : Option Packet}
    (h : (Pc.cleaning next).At c s cd hd cf) : hd = s.nrPkts ∧ cf = s.start s.nrPkts := by
  cases next with
  | none => exact h
  | some x => exact ⟨h.1, h.2.1⟩

structure State.Part (hd cf n i : ℕ) (d : Desc) (sh : Option ℕ) : Prop where
  shadow : sh = some n
  carries : d.Carries (s.pkt n) i
  fragment : d.fragment = decide (i < s.nrFrags n ∧ s.start n + i + 1 < cf)
  owned : d.serverOwned = s.owns hd n i
  dropped : i = 0 → d.dropped = decide (n < s.nrWrapped)

namespace Inv
variable {s} {cd hd cf n i p : ℕ}

section
variable (h : Inv c s cd hd cf)
include h

theorem part (hu : s.InUse cd cf n i) :
    s.Part hd cf n i (s.desc c (s.start n + i)) (s.shadow c (s.start n + i)) where
  shadow := h.shadow n i hu
  carries := h.carries n i hu
  fragment := h.fragment n i hu
  owned := h.owned n i hu
  dropped hi := by
    subst hi
    exact h.dropped n hu

theorem dirty_le_wrapped : cd ≤ s.start s.nrWrapped := by
  by_cases heq : cd = s.start s.freed.length
  · rw [heq]
    exact s.start_mono h.freed.le_wrapped
  · obtain ⟨hlt, -, hcd⟩ := h.freed.within heq
    exact hcd.le.trans (s.start_mono hlt)

theorem dirty_le_start : cd ≤ s.start hd :=
  h.dirty_le_wrapped.trans (s.start_mono h.le_handed)

theorem dirty_le : cd ≤ cf := h.dirty_le_start.trans h.pc.bounds.1

theorem inWindow_filled : Ring.InWindow c.cnt cd cf :=
  ⟨h.dirty_le, h.lt_window⟩

theorem inWindow (hu : s.InUse cd cf n i) :
    Ring.InWindow c.cnt cd (s.start n + i) := ⟨hu.2.1, hu.2.2.trans h.lt_window⟩

theorem end_lt (hn : n < hd) : s.start n + s.nrFrags n < cf :=
  (s.start_add_lt hn).trans_le h.pc.bounds.1

theorem le_handed_of_inUse (hu : s.InUse cd cf n i) : n ≤ hd :=
  Nat.lt_succ_iff.1 (lt_of_start_add_lt (hu.2.2.trans_le h.pc.bounds.2))

theorem exists_dirty (hlt : cd < cf) :
    ∃ i, cd = s.start s.freed.length + i ∧ s.InUse cd cf s.freed.length i := by
  have hle := h.freed.le_dirty
  have hsucc := s.start_succ s.freed.length
  refine ⟨cd - s.start s.freed.length, by omega, ?_, by omega, by omega⟩
  by_cases heq : cd = s.start s.freed.length
  · omega
  · have := (h.freed.within heq).2.2
    omega

end

end Inv

theorem Inv.setPc {s : State} {cd hd cf : ℕ} (h : Inv c s cd hd cf) {pc : Pc}
    (hpc : pc.At c s cd hd cf) : Inv c (s.setPc pc) cd hd cf :=
  { h with freed := { h.freed with }, pc := hpc }

section Clean
variable {s} {cd hd cf : ℕ} {next : Option Packet}

section
variable (h : Inv c s cd hd cf) (hpc : s.pc = .cleaning next)
include h hpc

theorem Inv.released_of_not_owned (hlt : cd < cf) (howned : (s.desc c cd).serverOwned = false) :
    s.freed.length < s.nrWrapped ∧ (s.wrapped s.freed.length).destroyed = true := by
  by_cases heq : cd = s.start s.freed.length
  · obtain ⟨i, hcd, hu⟩ := h.exists_dirty hlt
    obtain rfl : i = 0 := by omega
    have hown := h.owned _ _ hu
    obtain ⟨hhd, hcf⟩ := (hpc ▸ h.pc).of_cleaning
    have hlt' : s.freed.length < hd := by
      rw [hhd]
      exact lt_of_start_add_lt (hcf ▸ hu.2.2)
    rw [← hcd, howned] at hown
    rcases Nat.lt_or_ge s.freed.length s.nrWrapped with hw | hw
    · rw [owns_of_lt hw] at hown
      exact ⟨hw, by simpa using hown.symm⟩
    · simp [owns_of_le hw, hlt'] at hown
  · exact ⟨(h.freed.within heq).1, (h.freed.within heq).2.1⟩

theorem Inv.fragment_dirty {i : ℕ} (hcd : cd = s.start s.freed.length + i)
    (hu : s.InUse cd cf s.freed.length i) :
    (s.desc c cd).fragment = decide (i < s.nrFrags s.freed.length) := by
  have hfrag := h.fragment _ _ hu
  obtain ⟨hhd, hcf⟩ := (hpc ▸ h.pc).of_cleaning
  have hend := h.end_lt (n := s.freed.length) (by
    rw [hhd]
    exact lt_of_start_add_lt (hcf ▸ hu.2.2))
  rw [← hcd] at hfrag
  rw [hfrag, decide_eq_decide]
  omega

theorem State.Freed.cleanDesc (hlt : cd < cf) (howned : (s.desc c cd).serverOwned = false) :
    (s.cleanDesc c s.freed.length).Freed (cd + 1) := by
  obtain ⟨i, hcd, hu⟩ := h.exists_dirty hlt
  obtain ⟨hw, hdestroyed⟩ := h.released_of_not_owned hpc hlt howned
  have hsucc := s.start_succ s.freed.length
  have hbit : (s.descRing s.startDirty).fragment = decide (i < s.nrFrags s.freed.length) := by
    rw [h.startDirty]
    exact h.fragment_dirty hpc hcd hu
  have hi := hu.1
  rcases Nat.lt_or_ge i (s.nrFrags s.freed.length) with hmore | hlast
  · have hfreed : (s.cleanDesc c s.freed.length).freed = s.freed := by
      simp [State.cleanDesc, hbit, hmore]
    constructor <;> rw [hfreed]
    · exact h.freed.eq_range
    · exact h.freed.le_wrapped
    · exact h.freed.le_dirty.trans (Nat.le_succ _)
    · intro _
      exact ⟨hw, hdestroyed, show cd + 1 < s.start (s.freed.length + 1) by omega⟩
    · exact h.freed.released
  · have hfreed : (s.cleanDesc c s.freed.length).freed = s.freed ++ [s.freed.length] := by
      simp [State.cleanDesc, hbit, hlast]
    have hcd' : cd + 1 = s.start (s.freed.length + 1) := by omega
    constructor <;> rw [hfreed] <;> simp only [length_append, length_singleton]
    · rw [range_succ, ← h.freed.eq_range]
    · exact hw
    · exact hcd'.ge
    · intro hne
      exact absurd hcd' hne
    · intro n hn
      rcases Nat.lt_succ_iff_lt_or_eq.1 hn with hn | rfl
      · exact h.freed.released n hn
      · exact hdestroyed

theorem Inv.cleanDesc (hlt : cd < cf) (howned : (s.desc c cd).serverOwned = false) :
    Inv c (s.cleanDesc c s.freed.length) (cd + 1) hd cf := by
  have hwin := h.lt_window
  have hcdw : Ring.InWindow c.cnt cd cd := ⟨le_rfl, by omega⟩
  have hring : (s.cleanDesc c s.freed.length).descRing = update s.descRing (cd % c.cnt)
      { s.desc c cd with header := { (s.desc c cd).header with buffer := 0, bufferLen := 0 } } := by
    simp only [State.cleanDesc, h.startDirty]
    rfl
  have hshadow : (s.cleanDesc c s.freed.length).sendShadow =
      update s.sendShadow (cd % c.cnt) none := by
    simp only [State.cleanDesc, h.startDirty]
  -- the slot that has been cleaned is the last one of the new window
  have hwrap : (cd + c.cnt) % c.cnt = cd % c.cnt := Nat.add_mod_right ..
  have hother : ∀ p, cd < p → p < cd + c.cnt →
      (s.cleanDesc c s.freed.length).desc c p = s.desc c p ∧
        (s.cleanDesc c s.freed.length).shadow c p = s.shadow c p := by
    intro p hp hp'
    rw [State.desc, State.shadow, hring, hshadow,
      Ring.view_update_of_ne hcdw ⟨hp.le, hp'⟩ hp.ne',
      Ring.view_update_of_ne hcdw ⟨hp.le, hp'⟩ hp.ne']
    exact ⟨rfl, rfl⟩
  have hparts : ∀ n i, s.InUse (cd + 1) cf n i → s.Part hd cf n i
      ((s.cleanDesc c s.freed.length).desc c (s.start n + i))
      ((s.cleanDesc c s.freed.length).shadow c (s.start n + i)) := by
    rintro n i ⟨hi, hcd, hcf⟩
    obtain ⟨hdesc, hsh⟩ := hother (s.start n + i) (by omega) (by omega)
    rw [hdesc, hsh]
    exact h.part ⟨hi, by omega, hcf⟩
  refine { h with
    freed := State.Freed.cleanDesc h hpc hlt howned, lt_window := by omega, startDirty := ?_,
    pc := ?_, shadow := fun n i hu => (hparts n i hu).shadow,
    carries := fun n i hu => (hparts n i hu).carries,
    fragment := fun n i hu => (hparts n i hu).fragment,
    owned := fun n i hu => (hparts n i hu).owned,
    dropped := fun n hu => (hparts n 0 hu).dropped rfl, free := ?_ }
  · simp only [State.cleanDesc, h.startDirty, Ring.succ_mod]
  · have hat := h.pc
    rw [show (s.cleanDesc c s.freed.length).pc = s.pc from rfl]
    rw [hpc] at hat ⊢
    cases next with
    | none => exact hat
    | some x =>
      obtain ⟨h1, h2, h3, h4, t, ht, hscan⟩ := hat
      refine ⟨h1, h2, h3, h4, t, ht, fun p hp hpt hpf => ?_⟩
      rw [(hother p hp (by omega)).1]
      exact hscan p (by omega) hpt hpf
  · intro p hp hp'
    rcases Nat.lt_succ_iff_lt_or_eq.1 (show p < cd + c.cnt + 1 by omega) with hp' | rfl
    · rw [(hother p (by omega) hp').1, (hother p (by omega) hp').2]
      exact h.free p hp hp'
    · rw [State.desc, State.shadow, Ring.view, Ring.view, hwrap, hring, hshadow,
        update_self, update_self]
      exact ⟨howned, rfl⟩

theorem Inv.cleaned (hroom : ∀ x, next = some x → cf + x.fragments < cd + c.cnt) :
    Inv c (s.cleaned next) cd hd cf := by
  have hat := h.pc
  rw [hpc] at hat
  cases next with
  | none => exact h.setPc hat
  | some x =>
    have hnone : s.sendShadow s.startFree = none := by
      rw [h.startFree]
      exact (h.free cf le_rfl h.lt_window).2
    rw [cleaned, hnone, Option.isNone_none, check_true]
    exact h.setPc ⟨hat.1, hat.2.1, hat.2.2.1, hroom x rfl⟩

end

def State.Stops (c : Config) (s : State) (cd cf : ℕ) : Prop :=
  cd = cf ∨ (cd < cf ∧ (s.desc c cd).serverOwned = true)

theorem Inv.cleanStep_cases (h : Inv c s cd hd cf) (next : Option Packet) :
    (cd < cf ∧ (s.desc c cd).serverOwned = false ∧
      s.cleanStep c next = s.cleanDesc c s.freed.length) ∨
    (s.Stops c cd cf ∧ s.cleanStep c next = s.cleaned next) := by
  have hslot : s.descRing s.startDirty = s.desc c cd := by rw [h.startDirty]; rfl
  have hsh : s.sendShadow s.startDirty = s.shadow c cd := by rw [h.startDirty]; rfl
  rw [cleanStep, hslot, hsh]
  rcases Nat.lt_or_ge cd cf with hlt | hge
  · obtain ⟨i, hcd, hu⟩ := h.exists_dirty hlt
    have hsome := h.shadow _ _ hu
    cases howned : (s.desc c cd).serverOwned with
    | true => exact .inr ⟨.inr ⟨hlt, howned⟩, rfl⟩
    | false => simp_all
  · -- everything has been cleaned, and the assertion on the cursors holds
    obtain rfl : cf = cd := le_antisymm hge h.dirty_le
    obtain ⟨howned, hnone⟩ := h.free cf le_rfl h.lt_window
    refine .inr ⟨.inl rfl, ?_⟩
    rw [howned, hnone, h.startDirty, h.startFree]
    simp only [Bool.false_eq_true, if_false, decide_true, check_true]

theorem Inv.room_of_stops (h : Inv c s cd hd cf) {x : Packet} (hpc : s.pc = .cleaning (some x))
    (hstop : s.Stops c cd cf) : cf + x.fragments < cd + c.cnt := by
  have hat := h.pc
  rw [hpc] at hat
  obtain ⟨-, -, -, hfit, t, ht, hscan⟩ := hat
  rcases hstop with heq | ⟨hlt, howned⟩
  · omega
  · have hle : t ≤ cd := by
      by_contra hct
      rw [hscan cd le_rfl (by omega) hlt] at howned
      cases howned
    omega

theorem Inv.cleanStep (h : Inv c s cd hd cf) (hpc : s.pc = .cleaning next) :
    ∃ cd', Inv c (s.cleanStep c next) cd' hd cf := by
  rcases h.cleanStep_cases next with ⟨hlt, howned, heq⟩ | ⟨hstop, heq⟩ <;> rw [heq]
  · exact ⟨cd + 1, h.cleanDesc hpc hlt howned⟩
  · refine ⟨cd, h.cleaned hpc ?_⟩
    rintro x rfl
    exact h.room_of_stops hpc hstop

theorem Inv.not_released_of_stops (h : Inv c s cd hd cf) (hstop : s.Stops c cd cf) :
    ¬ (s.freed.length < s.nrWrapped ∧ (s.wrapped s.freed.length).destroyed = true) := by
  rintro ⟨hw, hdestroyed⟩
  have hend := h.end_lt (hw.trans_le h.le_handed)
  have hsucc := s.start_succ s.freed.length
  rcases hstop with rfl | ⟨hlt, howned⟩
  · by_cases heq : cd = s.start s.freed.length
    · omega
    · have := (h.freed.within heq).2.2
      omega
  · obtain ⟨i, hcd, hu⟩ := h.exists_dirty hlt
    have hi := hu.1
    have hown := h.owned _ _ hu
    rw [← hcd, howned, owns_of_lt hw, hdestroyed, (h.wrapped _ hw).destroyed hdestroyed]
      at hown
    split_ifs at hown
    · cases hown
    · simp at hown
      omega

/-- **The clean loop frees all it can.** It ends, and the first packet that it has not freed has not
been released by the server. -/
theorem Inv.cleanLoop (fuel : ℕ) (h : Inv c s cd hd cf) (hpc : s.pc = .cleaning none)
    (hfuel : cf - cd < fuel) : ∃ cd', Inv c (cleanLoop c fuel s) cd' hd cf ∧
      (cleanLoop c fuel s).pc = .idle ∧
      (cleanLoop c fuel s).nrWrapped = s.nrWrapped ∧
      (cleanLoop c fuel s).wrapped = s.wrapped ∧
      ¬ ((cleanLoop c fuel s).freed.length < s.nrWrapped ∧
        (s.wrapped (cleanLoop c fuel s).freed.length).destroyed = true) := by
  induction fuel generalizing s cd with
  | zero => omega
  | succ fuel ih =>
    have hround : cleanLoop c (fuel + 1) s = cleanLoop c fuel (s.cleanStep c none) := by
      rw [cleanLoop, hpc]
    rw [hround]
    rcases h.cleanStep_cases none with ⟨hlt, howned, heq⟩ | ⟨hstop, heq⟩ <;> rw [heq]
    · exact ih (h.cleanDesc hpc hlt howned) hpc (by omega)
    · have hdone : cleanLoop c fuel (s.cleaned none) = s.cleaned none := by
        cases fuel <;> rfl
      rw [hdone]
      exact ⟨cd, h.cleaned hpc (fun x hx => by cases hx), rfl, rfl, rfl,
        h.not_released_of_stops hstop⟩

end Clean

section Fill
variable {s} {cd hd cf : ℕ} {x : Packet}

theorem nrFrags_fillHead_of_lt {n : ℕ} (hn : n < s.nrPkts) :
    (s.fillHead c x).nrFrags n = s.nrFrags n :=
  congrArg (fun y : Packet => y.frags.length) (update_of_ne hn.ne ..)

theorem pkt_fillHead_of_lt {n : ℕ} (hn : n < s.nrPkts) : (s.fillHead c x).pkt n = s.pkt n :=
  update_of_ne hn.ne ..

theorem pkt_fillHead_self : (s.fillHead c x).pkt s.nrPkts = x := update_self ..

theorem start_fillHead_of_le {n : ℕ} (hn : n ≤ s.nrPkts) : (s.fillHead c x).start n = s.start n :=
  Ring.start_congr fun _ hi => nrFrags_fillHead_of_lt (hi.trans_le hn)

theorem inUse_fillHead (hcf : cf = s.start s.nrPkts) {n i : ℕ}
    (hu : (s.fillHead c x).InUse cd (cf + 1) n i) :
    (n < s.nrPkts ∧ s.InUse cd cf n i) ∨ (n = s.nrPkts ∧ i = 0) := by
  obtain ⟨hi, hcd, hlt⟩ := hu
  rcases lt_trichotomy n s.nrPkts with hn | rfl | hn
  · rw [start_fillHead_of_le hn.le] at hcd hlt
    rw [nrFrags_fillHead_of_lt hn] at hi
    have := s.start_add_lt hn
    exact .inl ⟨hn, hi, hcd, by omega⟩
  · simp_all [start_fillHead_of_le]
  · have := (s.fillHead c x).start_add_lt hn
    rw [start_fillHead_of_le le_rfl] at this
    omega

theorem Inv.fillHead (h : Inv c s cd hd cf) (hpc : s.pc = .ready x) :
    Inv c (s.fillHead c x) cd hd (cf + 1) := by
  have hat := h.pc
  rw [hpc] at hat
  obtain ⟨hhd, hcf, hfrags, hroom⟩ := hat
  have hw := h.le_handed
  have hF := h.freed.le_wrapped
  have hle := h.dirty_le
  have hroom' : cf + 1 < cd + c.cnt := by rw [Packet.fragments] at hroom; omega
  obtain ⟨hfree, hnone⟩ := h.free cf le_rfl h.lt_window
  have hring : (s.fillHead c x).descRing =
      update s.descRing (cf % c.cnt) ⟨false, false, false, x.header⟩ := by
    simp only [State.fillHead, h.startFree]
  have hshadow : (s.fillHead c x).sendShadow =
      update s.sendShadow (cf % c.cnt) (some s.nrPkts) := by
    simp only [State.fillHead, h.startFree]
  have hview : ∀ p, cd ≤ p → p < cd + c.cnt →
      (s.fillHead c x).desc c p = (if p = cf then ⟨false, false, false, x.header⟩
        else s.desc c p) ∧
      (s.fillHead c x).shadow c p = if p = cf then some s.nrPkts else s.shadow c p := by
    intro p hp hp'
    rw [State.desc, State.shadow, hring, hshadow]
    exact ⟨Ring.view_update h.inWindow_filled ⟨hp, hp'⟩ ..,
      Ring.view_update h.inWindow_filled ⟨hp, hp'⟩ ..⟩
  have hstart : (s.fillHead c x).start s.nrPkts = cf := (start_fillHead_of_le le_rfl).trans hcf.symm
  have hk : (s.fillHead c x).nrFrags s.nrPkts = x.frags.length :=
    congrArg (fun y : Packet => y.frags.length) pkt_fillHead_self
  have hparts : ∀ n i, (s.fillHead c x).InUse cd (cf + 1) n i →
      (s.fillHead c x).Part hd (cf + 1) n i ((s.fillHead c x).desc c ((s.fillHead c x).start n + i))
        ((s.fillHead c x).shadow c ((s.fillHead c x).start n + i)) := by
    intro n i hu
    rcases inUse_fillHead hcf hu with ⟨hn, hu⟩ | ⟨rfl, rfl⟩
    · have hpart := h.part hu
      have hs0 := start_fillHead_of_le (c := c) (x := x) hn.le
      have hne := hu.2.2.ne
      obtain ⟨hdesc, hsh⟩ := hview _ hu.2.1 (hu.2.2.trans h.lt_window)
      rw [hs0, hdesc, hsh, if_neg hne, if_neg hne]
      refine ⟨hpart.shadow, ?_, ?_, ?_, hpart.dropped⟩
      · rw [pkt_fillHead_of_lt hn]
        exact hpart.carries
      · have := h.end_lt (hn.trans_eq hhd.symm)
        rw [hpart.fragment, nrFrags_fillHead_of_lt hn, decide_eq_decide]
        omega
      · rw [hpart.owned, owns, owns, nrFrags_fillHead_of_lt hn]
        rfl
    · obtain ⟨hdesc, hsh⟩ := hview (cf + 0) hle (by omega)
      rw [hstart, hdesc, hsh, if_pos (Nat.add_zero cf), if_pos (Nat.add_zero cf)]
      refine ⟨rfl, ?_, ?_, ?_, fun _ => ?_⟩
      · rw [pkt_fillHead_self]
        rfl
      · simp [hstart]
      · rw [owns_of_le (s := s.fillHead c x) (show s.nrWrapped ≤ s.nrPkts by omega)]
        simp [hhd]
      · exact (decide_eq_false (show ¬ s.nrPkts < s.nrWrapped by omega)).symm
  constructor
  case freed =>
    have hs0 := start_fillHead_of_le (c := c) (x := x) (show s.freed.length ≤ s.nrPkts by omega)
    constructor
    · exact h.freed.eq_range
    · exact hF
    · exact hs0.le.trans h.freed.le_dirty
    · intro hne
      obtain ⟨h1, h2, h3⟩ := h.freed.within fun heq => hne (heq.trans hs0.symm)
      exact ⟨h1, h2, h3.trans_eq (start_fillHead_of_le (by omega)).symm⟩
    · exact h.freed.released
  case le_handed => exact hw
  case lt_window => exact hroom'
  case startFree => simp only [State.fillHead, h.startFree, Ring.succ_mod]
  case startDirty => exact h.startDirty
  case serverFree =>
    rw [show (s.fillHead c x).nrWrapped = s.nrWrapped from rfl, start_fillHead_of_le (by omega)]
    exact h.serverFree
  case pc =>
    have hsucc := (s.fillHead c x).start_succ s.nrPkts
    subst hhd
    refine ⟨rfl, ?_, Nat.zero_le _, ?_, ?_, ?_⟩
    · rw [hstart]
    · rw [hstart, h.startFree]
    · rw [hstart, h.startFree, Nat.add_zero]
    · rw [Packet.fragments] at hroom
      omega
  case frags_le =>
    intro n hn
    rcases Nat.lt_succ_iff_lt_or_eq.1 hn with hn | rfl
    · rw [nrFrags_fillHead_of_lt hn]
      exact h.frags_le n hn
    · rw [hk]
      exact hfrags
  case shadow => exact fun n i hu => (hparts n i hu).shadow
  case carries => exact fun n i hu => (hparts n i hu).carries
  case fragment => exact fun n i hu => (hparts n i hu).fragment
  case owned => exact fun n i hu => (hparts n i hu).owned
  case dropped => exact fun n hu => (hparts n 0 hu).dropped rfl
  case free =>
    intro p hp hp'
    have hne : p ≠ cf := by omega
    obtain ⟨hdesc, hsh⟩ := hview p (by omega) hp'
    rw [hdesc, hsh, if_neg hne, if_neg hne]
    exact h.free p (by omega) hp'
  case wrapped =>
    intro n hn
    have hn : n < s.nrWrapped := hn
    rw [pkt_fillHead_of_lt (by omega), start_fillHead_of_le (by omega)]
    exact h.wrapped n hn
  case fault =>
    have hdesc : s.descRing s.startFree = s.desc c cf := by rw [h.startFree]; rfl
    have hsh : s.sendShadow s.startFree = s.shadow c cf := by rw [h.startFree]; rfl
    simp [State.fillHead, State.check, hdesc, hsh, hfree, hnone, h.fault]

theorem inUse_succ {f n i : ℕ} (hcf : cf = s.start hd + 1 + f) (hf : f < s.nrFrags hd)
    (hu : s.InUse cd (cf + 1) n i) : s.InUse cd cf n i ∨ (n = hd ∧ i = f + 1) := by
  obtain ⟨hi, hcd, hlt⟩ := hu
  rcases Nat.lt_succ_iff_lt_or_eq.1 hlt with hlt | heq
  · exact .inl ⟨hi, hcd, hlt⟩
  · exact .inr ((start_add_inj hi hf).1 (by omega))

section Frag
variable {d prior f : ℕ} {frag : Frag}

section
variable (h : Inv c s cd hd cf) (hpc : s.pc = .filling d prior f)
  (hfrag : (s.pkt (s.nrPkts - 1)).frags[f]? = some frag)
include h hpc hfrag

theorem Inv.filling :
    s.nrPkts = hd + 1 ∧ cf = s.start hd + 1 + f ∧ f < s.nrFrags hd ∧
      prior = (s.start hd + f) % c.cnt ∧ Ring.InWindow c.cnt cd (s.start hd + f) ∧
      cf + 1 < cd + c.cnt := by
  have hat := h.pc
  rw [hpc] at hat
  obtain ⟨hhd, hcf, hf, -, hprior, hroom⟩ := hat
  rw [show s.nrPkts - 1 = hd by omega] at hfrag
  have hf : f < s.nrFrags hd := (List.getElem?_eq_some_iff.1 hfrag).1
  have hle := h.dirty_le_start
  have hsucc := s.start_succ hd
  exact ⟨hhd.symm, hcf, hf, hprior, ⟨by omega, by omega⟩, by omega⟩

theorem Inv.desc_marked :
    update s.descRing prior { s.descRing prior with fragment := true } (cf % c.cnt) =
      s.desc c cf := by
  obtain ⟨-, hcf, -, rfl, hwin, -⟩ := h.filling hpc hfrag
  exact Ring.view_update_of_ne hwin h.inWindow_filled (by omega) ..

theorem Inv.desc_fillFrag {p : ℕ} (hp : Ring.InWindow c.cnt cd p) :
    (s.fillFrag c d prior f frag).desc c p =
      if p = cf then fragDesc (s.desc c cf) frag
      else if p + 1 = cf then { s.desc c p with fragment := true }
      else s.desc c p := by
  have hslot := h.desc_marked hpc hfrag
  have hring : (s.fillFrag c d prior f frag).descRing = update
      (update s.descRing prior { s.descRing prior with fragment := true }) (cf % c.cnt)
      (fragDesc (s.desc c cf) frag) := by
    rw [← hslot]
    simp only [fillFrag, setDesc, h.startFree]
  obtain ⟨-, hcf, -, rfl, hwin, -⟩ := h.filling hpc hfrag
  rw [desc, hring]
  split_ifs with heq hprev
  · rw [heq, Ring.view_update_self]
  · obtain rfl : p = s.start hd + f := by omega
    rw [Ring.view_update_of_ne h.inWindow_filled hp heq, Ring.view_update_self]
    rfl
  · rw [Ring.view_update_of_ne h.inWindow_filled hp heq,
      Ring.view_update_of_ne hwin hp (by omega)]
    rfl

theorem Inv.shadow_fillFrag {p : ℕ} (hp : Ring.InWindow c.cnt cd p) :
    (s.fillFrag c d prior f frag).shadow c p = if p = cf then some hd else s.shadow c p := by
  have hshadow : (s.fillFrag c d prior f frag).sendShadow =
      update s.sendShadow (cf % c.cnt) (some hd) := by
    have hnr := (h.filling hpc hfrag).1
    simp only [State.fillFrag, State.setDesc, h.startFree, show s.nrPkts - 1 = hd by omega]
  rw [State.shadow, hshadow]
  split_ifs with heq
  · rw [heq, Ring.view_update_self]
  · exact Ring.view_update_of_ne h.inWindow_filled hp heq ..

theorem Inv.fault_fillFrag : (s.fillFrag c d prior f frag).fault = false := by
  obtain ⟨hfree, hnone⟩ := h.free cf le_rfl h.lt_window
  have hsh : s.sendShadow (cf % c.cnt) = none := hnone
  have hown : (update s.descRing prior { s.descRing prior with fragment := true }
      (cf % c.cnt)).serverOwned = false := by
    rw [h.desc_marked hpc hfrag, hfree]
  simp only [fillFrag, setDesc, check, h.startFree, hsh, hown]
  simp [h.fault]

theorem Inv.fillFrag : Inv c (s.fillFrag c d prior f frag) cd hd (cf + 1) := by
  obtain ⟨hnr, hcf, hf, hprior, hwin, hroom⟩ := h.filling hpc hfrag
  have hat := h.pc
  rw [hpc] at hat
  have hpos : s.start hd + (f + 1) = cf := by omega
  have hparts : ∀ n i, s.InUse cd (cf + 1) n i → s.Part hd (cf + 1) n i
      ((s.fillFrag c d prior f frag).desc c (s.start n + i))
      ((s.fillFrag c d prior f frag).shadow c (s.start n + i)) := by
    intro n i hu
    have hin : Ring.InWindow c.cnt cd (s.start n + i) := ⟨hu.2.1, by have := hu.2.2; omega⟩
    rw [h.desc_fillFrag hpc hfrag hin, h.shadow_fillFrag hpc hfrag hin]
    rcases inUse_succ hcf hf hu with hu | ⟨rfl, rfl⟩
    · have hpart := h.part hu
      rw [if_neg hu.2.2.ne, if_neg hu.2.2.ne]
      split_ifs with hlast
      · obtain ⟨rfl, rfl⟩ := (start_add_inj hu.1 hf.le).1
          (show s.start n + i = s.start hd + f by omega)
        refine { hpart with carries := ?_, fragment := (decide_eq_true ⟨hf, by omega⟩).symm }
        have := hpart.carries
        cases i <;> exact this
      · refine { hpart with fragment := ?_ }
        rw [hpart.fragment, decide_eq_decide]
        omega
    · rw [if_pos hpos, if_pos hpos]
      rw [show s.nrPkts - 1 = n by omega] at hfrag
      refine ⟨rfl, hfrag, (decide_eq_false (by omega)).symm, ?_, fun h0 => by cases h0⟩
      rw [owns_of_le h.le_handed]
      simp [fragDesc]
  refine { h with freed := { h.freed with }, lt_window := hroom, startFree := ?_, pc := ?_,
                  shadow := fun n i hu => (hparts n i hu).shadow,
                  carries := fun n i hu => (hparts n i hu).carries,
                  fragment := fun n i hu => (hparts n i hu).fragment,
                  owned := fun n i hu => (hparts n i hu).owned,
                  dropped := fun n hu => (hparts n 0 hu).dropped rfl, free := ?_,
                  fault := h.fault_fillFrag hpc hfrag }
  · simp only [State.fillFrag, State.setDesc, h.startFree, Ring.succ_mod]
  · refine ⟨hat.1, ?_, hf, hat.2.2.2.1, ?_, hat.2.2.2.2.2⟩
    · exact congrArg (· + 1) hcf
    · show s.startFree = (s.start hd + (f + 1)) % c.cnt
      rw [hpos, h.startFree]
  · intro p hp hp'
    have hin : Ring.InWindow c.cnt cd p := ⟨by have := h.dirty_le; omega, hp'⟩
    rw [h.desc_fillFrag hpc hfrag hin, h.shadow_fillFrag hpc hfrag hin, if_neg (by omega),
      if_neg (by omega), if_neg (by omega)]
    exact h.free p (by omega) hp'

end

theorem Inv.handOver (h : Inv c s cd hd cf) (hpc : s.pc = .filling d prior f)
    (hend : (s.pkt (s.nrPkts - 1)).frags.length = f) : Inv c (s.handOver d) cd (hd + 1) cf := by
  have hat := h.pc
  rw [hpc] at hat
  obtain ⟨hnr, hcf, -, rfl, -, -⟩ := hat
  have hf : s.nrFrags hd = f := by rw [← hend, show s.nrPkts - 1 = hd by omega]; rfl
  have hsucc := s.start_succ hd
  have hlt := h.lt_window
  have hhead : Ring.InWindow c.cnt cd (s.start hd) := ⟨h.dirty_le_start, by omega⟩
  have hdesc : ∀ p, Ring.InWindow c.cnt cd p → (s.handOver (s.start hd % c.cnt)).desc c p =
      if p = s.start hd then { s.desc c (s.start hd) with serverOwned := true } else s.desc c p :=
    fun p hp => Ring.view_update hhead hp ..
  have hparts : ∀ n i, s.InUse cd cf n i → s.Part (hd + 1) cf n i
      ((s.handOver (s.start hd % c.cnt)).desc c (s.start n + i)) (s.shadow c (s.start n + i)) := by
    intro n i hu
    have hpart := h.part hu
    have hsame := start_add_inj (s := s) (n := hd) hu.1 (Nat.zero_le _)
    rw [hdesc _ (h.inWindow hu)]
    split_ifs with heq
    · obtain ⟨rfl, rfl⟩ := hsame.1 heq
      exact { hpart with owned := by rw [owns_of_le h.le_handed]; simp }
    · refine { hpart with owned := hpart.owned.trans ?_ }
      have hn := h.le_handed_of_inUse hu
      grind [owns]
  refine { h with freed := { h.freed with }, le_handed := h.le_handed.trans (Nat.le_succ _),
                  pc := ⟨hnr, ?_⟩, carries := fun n i hu => (hparts n i hu).carries,
                  fragment := fun n i hu => (hparts n i hu).fragment,
                  owned := fun n i hu => (hparts n i hu).owned,
                  dropped := fun n hu => (hparts n 0 hu).dropped rfl, free := ?_ }
  · show cf = s.start s.nrPkts
    rw [← hnr]
    omega
  · intro p hp hp'
    rw [hdesc p ⟨h.dirty_le.trans hp, hp'⟩, if_neg (by omega)]
    exact h.free p hp hp'

end Frag
end Fill

section Xmit
variable {s} {cd hd cf : ℕ} {x : Packet}

theorem noneOwned_iff (c : Config) (s : State) (m : ℕ) : ∀ p, s.noneOwned c (p % c.cnt) m = true ↔
    ∀ q, p ≤ q → q < p + m → (s.desc c q).serverOwned = false := by
  induction m with
  | zero =>
    intro p
    refine iff_of_true rfl fun q hq hq' => ?_
    omega
  | succ m ih =>
    intro p
    rw [noneOwned, Ring.succ_mod, Bool.and_eq_true, ih, Bool.not_eq_true']
    constructor
    · rintro ⟨hp, hrest⟩ q hq hq'
      rcases hq.eq_or_lt with rfl | hlt
      · exact hp
      · exact hrest q hlt (by omega)
    · intro hall
      exact ⟨hall p le_rfl (by omega), fun q hq hq' => hall q (by omega) (by omega)⟩

theorem Inv.ringAvailable_eq (h : Inv c s cd hd cf) :
    s.ringAvailable c = c.cnt - 1 - (cf - cd) := by
  rw [ringAvailable, h.startDirty, h.startFree, Ring.available_eq h.inWindow_filled]

theorem Inv.xmitFrame (h : Inv c s cd hd cf) (hpc : s.pc = .idle)
    (hfrags : x.frags.length ≤ c.maxFrags) : Inv c (s.xmitFrame c x) cd hd cf := by
  have hat := h.pc
  rw [hpc] at hat
  have hlt := h.lt_window
  rw [State.xmitFrame]
  split_ifs with hlarge havail hscan
  · exact { h with freed := { h.freed with } }
  · -- the ring is to be cleaned, as far as it has been looked at
    rw [h.startDirty, noneOwned_iff] at hscan
    refine h.setPc ⟨hat.1, hat.2, hfrags, by omega, cd + x.fragments, by omega, ?_⟩
    intro p hp hpt _
    exact hscan p hp hpt
  · exact h
  · rw [h.ringAvailable_eq] at havail
    exact h.setPc ⟨hat.1, hat.2, hfrags, by omega⟩

end Xmit
end DriverReuse.Net
