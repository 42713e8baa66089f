import Afterburner.DriverReuse.NetInv

/-!
# The server's steps on the send ring

The server wraps the next packet with all its fragments; a destructor releases the parts of its own
packet.
-/

namespace DriverReuse.Net
open Function Nat
variable {c : Config} {s : State} {cd hd cf n : ℕ}
variable {s' : State}

theorem State.start_eq_of_pkt_eq (hpkt : s'.pkt = s.pkt) : s'.start = s.start := by
  have hk : s'.nrFrags = s.nrFrags := funext fun m => by rw [State.nrFrags, State.nrFrags, hpkt]
  funext m
  rw [State.start, State.start, hk]

theorem State.Freed.of_progress (h : s.Freed cd) (hfreed : s'.freed = s.freed)
    (hpkt : s'.pkt = s.pkt) (hnr : s.nrWrapped ≤ s'.nrWrapped)
    (hw : ∀ m < s.nrWrapped, (s.wrapped m).destroyed = true → (s'.wrapped m).destroyed = true) :
    s'.Freed cd := by
  have hstart := State.start_eq_of_pkt_eq hpkt
  have hle := h.le_wrapped
  constructor <;> rw [hfreed] <;> try rw [hstart]
  · exact h.eq_range
  · exact hle.trans hnr
  · exact h.le_dirty
  · intro hne
    obtain ⟨hlt, hdestroyed, hcd⟩ := h.within hne
    exact ⟨hlt.trans_le hnr, hw _ hlt hdestroyed, hcd⟩
  · intro m hm
    exact hw m (by omega) (h.released m hm)

theorem Pc.At.of_progress {pc : Pc} (h : pc.At c s cd hd cf) (hpkt : s'.pkt = s.pkt)
    (hnr : s'.nrPkts = s.nrPkts) (howned : ∀ p, cd ≤ p → p < cf →
      (s.desc c p).serverOwned = false → (s'.desc c p).serverOwned = false) :
    pc.At c s' cd hd cf := by
  have hstart := State.start_eq_of_pkt_eq hpkt
  cases pc with
  | idle => simpa only [Pc.At, hstart, hnr] using h
  | cleaning next =>
    cases next with
    | none => simpa only [Pc.At, hstart, hnr] using h
    | some x =>
      obtain ⟨h1, h2, h3, h4, t, ht, hscan⟩ := h
      refine ⟨by rw [hnr, h1], by rw [hstart, hnr, h2], h3, h4, t, ht, fun p hp hpt hpf => ?_⟩
      exact howned p hp hpf (hscan p hp hpt hpf)
  | ready x => simpa only [Pc.At, hstart, hnr] using h
  | filling d prior f => simpa only [Pc.At, State.nrFrags, hstart, hnr, hpkt] using h

theorem collect_eq {x : Packet} {st : ℕ} (hparts : ∀ j ≤ x.frags.length,
      (s.desc c (st + j)).fragment = decide (j < x.frags.length) ∧
      (0 < j → (s.desc c (st + j)).serverOwned = true) ∧ (s.desc c (st + j)).Carries x j) :
    ∀ fuel i, i ≤ x.frags.length → x.frags.length - i ≤ fuel →
      State.collect c s.descRing fuel ((st + i + 1) % c.cnt) (s.desc c (st + i)) =
        (x.frags.drop i, (st + x.frags.length + 1) % c.cnt) := by
  intro fuel
  induction fuel with
  | zero =>
    intro i hi hfuel
    obtain rfl : i = x.frags.length := by omega
    rw [State.collect, List.drop_length]
  | succ fuel ih =>
    intro i hi hfuel
    rw [State.collect, (hparts i hi).1]
    rcases hi.lt_or_eq with hlt | rfl
    · obtain ⟨-, howned, hcarries⟩ := hparts (i + 1) hlt
      have hnext : s.descRing ((st + i + 1) % c.cnt) = s.desc c (st + (i + 1)) := rfl
      obtain ⟨hlt', hfrag⟩ := List.getElem?_eq_some_iff.1 hcarries
      have hrest := ih (i + 1) hlt (by omega)
      rw [hnext, howned (succ_pos i), decide_eq_true hlt, Ring.succ_mod,
        List.drop_eq_getElem_cons hlt', hfrag]
      simp only [Bool.and_self, if_true]
      rw [show st + i + 1 + 1 = st + (i + 1) + 1 from rfl, hrest]
    · simp

def State.wrapNext (c : Config) (s : State) : State :=
  let w := s.nrWrapped
  { s.setDesc (s.start w % c.cnt) { s.desc c (s.start w) with dropped := true } with
    serverFree := s.start (w + 1) % c.cnt
    wrapped := update s.wrapped w
      ⟨(s.pkt w).header, (s.pkt w).frags, s.start w % c.cnt, s.nrFrags w,
        (s.start w + 1) % c.cnt, false⟩
    nrWrapped := w + 1 }

section
variable (h : Inv c s cd hd cf)
include h

theorem Inv.inUse_of_handed (hw : s.nrWrapped ≤ n) (hn : n < hd) {i : ℕ} (hi : i ≤ s.nrFrags n) :
    s.InUse cd cf n i := by
  have hle := h.dirty_le_wrapped.trans (s.start_mono hw)
  have hend := h.end_lt hn
  exact ⟨hi, by omega, by omega⟩

theorem Inv.skbWrapPacket_of_eq (hw : s.nrWrapped = hd) : s.skbWrapPacket c = s := by
  have hslot : s.descRing s.serverFree = s.desc c (s.start hd) := by
    rw [h.serverFree, hw]
    rfl
  have howned : (s.desc c (s.start hd)).serverOwned = false := by
    rcases h.pc.bounds.1.lt_or_eq with hlt | heq
    · have := h.owned hd 0 ⟨zero_le _, h.dirty_le_start, hlt⟩
      rw [State.owns_of_le hw.le] at this
      simpa using this
    · rw [heq]
      exact (h.free cf le_rfl h.lt_window).1
  rw [State.skbWrapPacket, hslot, if_pos (Or.inl howned)]

theorem Inv.skbWrapPacket_of_lt (hw : s.nrWrapped < hd) (hnr : hd ≤ s.nrPkts) :
    s.skbWrapPacket c = s.wrapNext c := by
  have huse := fun i => h.inUse_of_handed (i := i) le_rfl hw
  have hslot : s.descRing s.serverFree = s.desc c (s.start s.nrWrapped) := by
    rw [h.serverFree]
    rfl
  have howned : ∀ i ≤ s.nrFrags s.nrWrapped,
      (s.desc c (s.start s.nrWrapped + i)).serverOwned = true := by
    simp_all [h.owned, State.owns_of_le, decide_eq_true]
  have hparts : ∀ j ≤ s.nrFrags s.nrWrapped,
      (s.desc c (s.start s.nrWrapped + j)).fragment = decide (j < s.nrFrags s.nrWrapped) ∧
      (0 < j → (s.desc c (s.start s.nrWrapped + j)).serverOwned = true) ∧
      (s.desc c (s.start s.nrWrapped + j)).Carries (s.pkt s.nrWrapped) j := by
    intro j hj
    refine ⟨?_, fun _ => howned j hj, h.carries _ _ (huse j hj)⟩
    have hend := h.end_lt hw
    rw [h.fragment _ _ (huse j hj), decide_eq_decide]
    omega
  have hcollect : State.collect c s.descRing c.maxFrags ((s.start s.nrWrapped + 1) % c.cnt)
      (s.desc c (s.start s.nrWrapped)) =
      ((s.pkt s.nrWrapped).frags, s.start (s.nrWrapped + 1) % c.cnt) := by
    rw [s.start_succ]
    exact collect_eq hparts c.maxFrags 0 (zero_le _) (h.frags_le _ (hw.trans_le hnr))
  have hheader : (s.desc c (s.start s.nrWrapped)).header = (s.pkt s.nrWrapped).header :=
    h.carries _ 0 (huse 0 (zero_le _))
  have hcond : ¬ ((s.desc c (s.start s.nrWrapped)).serverOwned = false ∨
      (s.desc c (s.start s.nrWrapped)).dropped = true) := by
    have hdropped := h.dropped _ (huse 0 (zero_le _))
    have howned' : (s.desc c (s.start s.nrWrapped)).serverOwned = true := howned 0 (zero_le _)
    rw [howned', hdropped]
    simp
  rw [State.skbWrapPacket, hslot, if_neg hcond, h.serverFree, Ring.succ_mod]
  simp only [hcollect]
  rw [State.wrapNext, ← hheader]
  rfl

theorem Inv.wrapNext (hw : s.nrWrapped < hd) : Inv c (s.wrapNext c) cd hd cf := by
  have hhead := h.inUse_of_handed (i := 0) le_rfl hw (zero_le _)
  have hdesc : ∀ p, Ring.InWindow c.cnt cd p → (s.wrapNext c).desc c p =
      if p = s.start s.nrWrapped then { s.desc c (s.start s.nrWrapped) with dropped := true }
      else s.desc c p := fun p hp => Ring.view_update (h.inWindow hhead) hp ..
  have hself : (s.wrapNext c).wrapped s.nrWrapped = ⟨(s.pkt s.nrWrapped).header,
      (s.pkt s.nrWrapped).frags, s.start s.nrWrapped % c.cnt, s.nrFrags s.nrWrapped,
      (s.start s.nrWrapped + 1) % c.cnt, false⟩ := update_self ..
  have hother : ∀ m < s.nrWrapped, (s.wrapNext c).wrapped m = s.wrapped m :=
    fun m hm => update_of_ne hm.ne ..
  have howned : ∀ p, Ring.InWindow c.cnt cd p →
      ((s.wrapNext c).desc c p).serverOwned = (s.desc c p).serverOwned := by
    intro p hp
    rw [hdesc p hp]
    split_ifs with heq
    · rw [heq]
    · rfl
  have hparts : ∀ n i, s.InUse cd cf n i → (s.wrapNext c).Part hd cf n i
      ((s.wrapNext c).desc c (s.start n + i)) (s.shadow c (s.start n + i)) := by
    intro n i hu
    have hpart := h.part hu
    have hsame := State.start_add_inj (s := s) (n := s.nrWrapped) hu.1 (zero_le _)
    have howns : s.owns hd n i = (s.wrapNext c).owns hd n i := by
      rcases lt_trichotomy n s.nrWrapped with hn | rfl | hn
      · rw [State.owns_of_lt hn, State.owns_of_lt (s := s.wrapNext c) (lt_succ_of_lt hn),
          hother n hn]
        rfl
      · rw [State.owns_of_le le_rfl, State.owns_of_lt (s := s.wrapNext c) (lt_succ_self _),
          hself]
        simp [hw, show (s.wrapNext c).nrFrags = s.nrFrags from rfl, i.eq_zero_or_pos]
      · rw [State.owns_of_le hn.le, State.owns_of_le (s := s.wrapNext c) hn]
    rw [hdesc _ (h.inWindow hu)]
    split_ifs with heq
    · obtain ⟨rfl, rfl⟩ := hsame.1 heq
      exact { hpart with
        owned := hpart.owned.trans howns
        dropped := fun _ => (decide_eq_true (lt_succ_self _)).symm }
    · refine { hpart with owned := hpart.owned.trans howns, dropped := fun hi => ?_ }
      rw [hpart.dropped hi, decide_eq_decide]
      show n < s.nrWrapped ↔ n < s.nrWrapped + 1
      omega
  refine { h with freed := h.freed.of_progress rfl rfl (le_succ _) ?_, le_handed := hw,
                  serverFree := rfl, pc := h.pc.of_progress rfl rfl ?_,
                  carries := fun n i hu => (hparts n i hu).carries,
                  fragment := fun n i hu => (hparts n i hu).fragment,
                  owned := fun n i hu => (hparts n i hu).owned,
                  dropped := fun n hu => (hparts n 0 hu).dropped rfl, free := ?_, wrapped := ?_ }
  · simp_all
  · intro p hp hp'
    rw [howned p ⟨hp, hp'.trans h.lt_window⟩]
    exact id
  · intro p hp hp'
    rw [howned p ⟨h.dirty_le.trans hp, hp'⟩]
    exact h.free p hp hp'
  · intro m hm
    show ((s.wrapNext c).wrapped m).Of c (s.pkt m) (s.start m)
    rcases Nat.lt_succ_iff_lt_or_eq.1 hm with hm | rfl
    · rw [hother m hm]
      exact h.wrapped m hm
    · rw [hself]
      constructor <;> simp [State.nrFrags]

theorem Inv.skbWrapPacket (hnr : hd ≤ s.nrPkts) : Inv c (s.skbWrapPacket c) cd hd cf := by
  rcases h.le_handed.lt_or_eq with hw | hw
  · rw [h.skbWrapPacket_of_lt hw hnr]
    exact h.wrapNext hw
  · rw [h.skbWrapPacket_of_eq hw]
    exact h

end

def State.nextPart (s : State) (n : ℕ) : ℕ :=
  if 0 < (s.wrapped n).fragCount then s.nrFrags n - (s.wrapped n).fragCount + 1 else 0

def State.nextWrapped (c : Config) (s : State) (n : ℕ) : Wrapped :=
  if 0 < (s.wrapped n).fragCount then
    { s.wrapped n with
      idx := ((s.wrapped n).idx + 1) % c.cnt, fragCount := (s.wrapped n).fragCount - 1 }
  else { s.wrapped n with destroyed := true }

def State.releaseNext (c : Config) (s : State) (n : ℕ) : State :=
  { s.setDesc ((s.start n + s.nextPart n) % c.cnt)
      { s.desc c (s.start n + s.nextPart n) with serverOwned := false } with
    wrapped := update s.wrapped n (s.nextWrapped c n) }

section
variable (h : Inv c s cd hd cf) (hn : n < s.nrWrapped) (halive : (s.wrapped n).destroyed = false)
include h hn halive

theorem Inv.inUse_of_alive {i : ℕ} (hi : i ≤ s.nrFrags n) : s.InUse cd cf n i := by
  have hend := h.end_lt (hn.trans_le h.le_handed)
  have hdead : ∀ m, (s.wrapped m).destroyed = true → m ≠ n := by
    rintro m hm rfl
    rw [halive] at hm
    cases hm
  have hF : s.freed.length ≤ n := by
    by_contra hlt
    exact hdead n (h.freed.released n (not_le.1 hlt)) rfl
  have hcd : cd ≤ s.start n := by
    by_cases heq : cd = s.start s.freed.length
    · rw [heq]
      exact s.start_mono hF
    · obtain ⟨-, hdestroyed, hcd⟩ := h.freed.within heq
      exact hcd.le.trans (s.start_mono (lt_of_le_of_ne hF (hdead _ hdestroyed)))
  exact ⟨hi, by omega, by omega⟩

theorem Inv.owns_nextPart : s.nextPart n ≤ s.nrFrags n ∧ s.owns hd n (s.nextPart n) = true := by
  have hcount : (s.wrapped n).fragCount ≤ s.nrFrags n := (h.wrapped n hn).fragCount
  rcases Nat.eq_zero_or_pos (s.wrapped n).fragCount with hzero | hpos
  · have hpart : s.nextPart n = 0 := if_neg (by omega)
    rw [hpart, State.owns_of_lt hn, halive]
    exact ⟨zero_le _, rfl⟩
  · have hpart : s.nextPart n = s.nrFrags n - (s.wrapped n).fragCount + 1 := if_pos hpos
    rw [hpart, State.owns_of_lt hn]
    exact ⟨by omega, decide_eq_true (lt_succ_self _)⟩

theorem Inv.destructorStep_eq : s.destructorStep c n = s.releaseNext c n := by
  have hw := h.wrapped n hn
  have hcount : (s.wrapped n).fragCount ≤ s.nrFrags n := hw.fragCount
  have hhead := h.inUse_of_alive hn halive (zero_le _)
  obtain ⟨hpart, howns⟩ := h.owns_nextPart hn halive
  have hslot : s.descRing (s.wrapped n).startFrag = s.desc c (s.start n) := by
    rw [hw.startFrag]
    rfl
  have howned : (s.desc c (s.start n)).serverOwned = true := by
    have := h.owned n 0 hhead
    rw [State.owns_of_lt hn, halive] at this
    exact this
  have hdropped : (s.desc c (s.start n)).dropped = true :=
    (h.dropped n hhead).trans (decide_eq_true hn)
  have hfragment : ((s.desc c (s.start n)).fragment && decide (0 < (s.wrapped n).fragCount)) =
      decide (0 < (s.wrapped n).fragCount) := by
    have hbit : (s.desc c (s.start n)).fragment = _ := h.fragment n 0 hhead
    have hend := h.end_lt (hn.trans_le h.le_handed)
    rw [hbit, ← Bool.decide_and, decide_eq_decide]
    omega
  have hin : (s.wrapped n).startFrag < c.cnt := by
    rw [hw.startFrag]
    exact mod_lt _ c.cnt_pos
  have hcheck : (decide ((s.wrapped n).startFrag < c.cnt) &&
      ((s.desc c (s.start n)).serverOwned && (s.desc c (s.start n)).dropped)) = true := by simp_all
  simp only [State.destructorStep, hslot, hcheck, hfragment, State.check_true, decide_eq_true_eq,
    State.releaseNext, State.nextWrapped]
  have huse := h.inUse_of_alive hn halive hpart
  rw [← h.owned _ _ huse] at howns
  split_ifs with hpos
  · have hidx : (s.wrapped n).idx = (s.start n + s.nextPart n) % c.cnt := by
      rw [hw.idx, State.nextPart, if_pos hpos]
      exact congrArg (· % c.cnt)
        (show s.start n + 1 + (s.nrFrags n - (s.wrapped n).fragCount) = _ by omega)
    have hpartSlot : s.descRing (s.wrapped n).idx = s.desc c (s.start n + s.nextPart n) := by
      rw [hidx]
      rfl
    rw [hpartSlot, howns, State.check_true, hidx]
  · have hzero : s.nextPart n = 0 := if_neg hpos
    rw [hzero, hw.startFrag]
    rfl

end

theorem nextWrapped_fragCount (c : Config) (s : State) (n : ℕ) :
    (s.nextWrapped c n).fragCount = (s.wrapped n).fragCount - 1 := by
  rw [State.nextWrapped]
  split_ifs with hpos
  · rfl
  · simp_all

theorem nextWrapped_destroyed (c : Config) (s : State) (n : ℕ) : (s.nextWrapped c n).destroyed =
    if 0 < (s.wrapped n).fragCount then (s.wrapped n).destroyed else true := by
  rw [State.nextWrapped]
  split_ifs <;> rfl

theorem owns_releaseNext (hn : n < s.nrWrapped) (hcount : (s.wrapped n).fragCount ≤ s.nrFrags n)
    {m i : ℕ} : (s.releaseNext c n).owns hd m i =
      if m = n ∧ i = s.nextPart n then false else s.owns hd m i := by
  by_cases hm : m = n
  · subst hm
    have hself : (s.releaseNext c m).wrapped m = s.nextWrapped c m := update_self ..
    have hk : (s.releaseNext c m).nrFrags m = s.nrFrags m := rfl
    rw [State.owns_of_lt (s := s.releaseNext c m) hn, State.owns_of_lt hn, hself, hk,
      nextWrapped_fragCount, nextWrapped_destroyed, State.nextPart]
    rcases Nat.eq_zero_or_pos (s.wrapped m).fragCount with hzero | hpos
    · by_cases hi : i = 0 <;> simp [hi, hzero]
    · rw [if_pos hpos, if_pos hpos]
      by_cases hi : i = 0
      · simp [hi]
      · split_ifs with hpart
        · exact decide_eq_false (by omega)
        · rw [decide_eq_decide]
          omega
  · have hother : (s.releaseNext c n).wrapped m = s.wrapped m := update_of_ne hm ..
    rw [if_neg (by tauto), State.owns, hother]
    rfl

theorem Inv.of_nextWrapped (h : Inv c s cd hd cf) (hn : n < s.nrWrapped) :
    (s.nextWrapped c n).Of c (s.pkt n) (s.start n) := by
  have hw := h.wrapped n hn
  rw [State.nextWrapped]
  split_ifs with hpos
  · have hcount := hw.fragCount
    refine { hw with fragCount := ?_, idx := ?_, destroyed := ?_ }
    · exact (sub_le _ _).trans hcount
    · show ((s.wrapped n).idx + 1) % c.cnt =
        (s.start n + 1 + ((s.pkt n).frags.length - ((s.wrapped n).fragCount - 1))) % c.cnt
      rw [hw.idx, Ring.succ_mod]
      exact congrArg (· % c.cnt) (by omega)
    · intro hdestroyed
      have := hw.destroyed hdestroyed
      omega
  · exact { hw with destroyed := fun _ => Nat.eq_zero_of_not_pos hpos }

theorem Inv.releaseNext (h : Inv c s cd hd cf) (hn : n < s.nrWrapped)
    (halive : (s.wrapped n).destroyed = false) : Inv c (s.releaseNext c n) cd hd cf := by
  have hw := h.wrapped n hn
  obtain ⟨hpart, -⟩ := h.owns_nextPart hn halive
  have huse := h.inUse_of_alive hn halive hpart
  have hdesc : ∀ p, Ring.InWindow c.cnt cd p → (s.releaseNext c n).desc c p =
      if p = s.start n + s.nextPart n then
        { s.desc c (s.start n + s.nextPart n) with serverOwned := false }
      else s.desc c p := fun p hp => Ring.view_update (h.inWindow huse) hp ..
  have hparts : ∀ m i, s.InUse cd cf m i → (s.releaseNext c n).Part hd cf m i
      ((s.releaseNext c n).desc c (s.start m + i)) (s.shadow c (s.start m + i)) := by
    intro m i hu
    have hp := h.part hu
    have hsame := State.start_add_inj (s := s) hu.1 hpart
    have howns := @owns_releaseNext c s hd n hn hw.fragCount m i
    rw [hdesc _ (h.inWindow hu)]
    split_ifs with heq
    · rw [if_pos (hsame.1 heq)] at howns
      obtain ⟨rfl, rfl⟩ := hsame.1 heq
      refine { hp with carries := ?_, owned := howns.symm }
      have := hp.carries
      cases hi : s.nextPart m <;> rw [hi] at this <;> exact this
    · rw [if_neg (mt hsame.2 heq)] at howns
      exact { hp with owned := hp.owned.trans howns.symm }
  refine { h with freed := h.freed.of_progress rfl rfl le_rfl ?_,
                  pc := h.pc.of_progress rfl rfl ?_,
                  carries := fun n i hu => (hparts n i hu).carries,
                  fragment := fun n i hu => (hparts n i hu).fragment,
                  owned := fun n i hu => (hparts n i hu).owned,
                  dropped := fun n hu => (hparts n 0 hu).dropped rfl, free := ?_, wrapped := ?_ }
  · intro m _ hm
    have hne : m ≠ n := by
      rintro rfl
      rw [halive] at hm
      cases hm
    show (update s.wrapped n _ m).destroyed = true
    rw [update_of_ne hne]
    exact hm
  · intro p hp hp' hfalse
    rw [hdesc p ⟨hp, hp'.trans h.lt_window⟩]
    split_ifs
    · rfl
    · exact hfalse
  · intro p hp hp'
    have hlt := huse.2.2
    rw [hdesc p ⟨h.dirty_le.trans hp, hp'⟩, if_neg (by omega)]
    exact h.free p hp hp'
  · intro m hm
    show (update s.wrapped n _ m).Of c (s.pkt m) (s.start m)
    by_cases hmn : m = n
    · subst hmn
      rw [update_self]
      exact h.of_nextWrapped hn
    · rw [update_of_ne hmn]
      exact h.wrapped m hm

end DriverReuse.Net
