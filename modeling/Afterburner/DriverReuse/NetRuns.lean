import Afterburner.DriverReuse.NetServer

/-!
# The send ring passes on every packet once

The invariant holds in every state of every interleaving of the client and the server.
-/

namespace DriverReuse.Net

def State.handed (s : State) : ℕ :=
  match s.pc with
  | .filling _ _ _ => s.nrPkts - 1
  | _ => s.nrPkts

variable {c : Config} {s : State} {cd hd cf : ℕ}

theorem Inv.handed_eq (h : Inv c s cd hd cf) : s.handed = hd := by
  have hat := h.pc
  rw [State.handed]
  cases hpc : s.pc with
  | idle => rw [hpc] at hat; exact hat.1.symm
  | cleaning next => rw [hpc] at hat; exact hat.of_cleaning.1.symm
  | ready x => rw [hpc] at hat; exact hat.1.symm
  | filling d prior f => rw [hpc] at hat; exact Nat.sub_eq_of_eq_add hat.1.symm

theorem State.handed_le (s : State) : s.handed ≤ s.nrPkts := by
  rw [State.handed]
  split <;> omega

theorem inv_init (c : Config) : Inv c State.init 0 0 0 where
  freed := by constructor <;> simp [State.init, State.start]
  le_handed := le_rfl
  lt_window := by have := c.cnt_pos; omega
  startFree := (Nat.zero_mod _).symm
  startDirty := (Nat.zero_mod _).symm
  serverFree := (Nat.zero_mod _).symm
  pc := ⟨rfl, rfl⟩
  frags_le n hn := absurd hn (Nat.not_lt_zero n)
  shadow n i hu := absurd hu.2.2 (Nat.not_lt_zero _)
  carries n i hu := absurd hu.2.2 (Nat.not_lt_zero _)
  fragment n i hu := absurd hu.2.2 (Nat.not_lt_zero _)
  owned n i hu := absurd hu.2.2 (Nat.not_lt_zero _)
  dropped n hu := absurd hu.2.2 (Nat.not_lt_zero _)
  free _ _ _ := ⟨rfl, rfl⟩
  wrapped n hn := absurd hn (Nat.not_lt_zero n)
  fault := rfl

theorem Inv.step {t : State} (h : Inv c s cd hd cf) (hst : Step c s t) :
    ∃ cd' hd' cf', Inv c t cd' hd' cf' := by
  cases hst with
  | xmitFrame x hfrags hpc => exact ⟨cd, hd, cf, h.xmitFrame hpc hfrags⟩
  | cleanSendRing hpc =>
    have hat := h.pc
    rw [hpc] at hat
    exact ⟨cd, hd, cf, h.setPc hat⟩
  | clean hpc =>
    obtain ⟨cd', h'⟩ := h.cleanStep hpc
    exact ⟨cd', hd, cf, h'⟩
  | fillHead hpc => exact ⟨cd, hd, cf + 1, h.fillHead hpc⟩
  | fillFrag hpc hfrag => exact ⟨cd, hd, cf + 1, h.fillFrag hpc hfrag⟩
  | handOver hpc hend => exact ⟨cd, hd + 1, cf, h.handOver hpc hend⟩
  | wrap => exact ⟨cd, hd, cf, h.skbWrapPacket (h.handed_eq ▸ s.handed_le)⟩
  | destructor hn halive =>
    rw [h.destructorStep_eq hn halive]
    exact ⟨cd, hd, cf, h.releaseNext hn halive⟩

theorem inv_of_reach (hr : Runs.Reach (Step c) State.init s) :
    ∃ cd hd cf, Inv c s cd hd cf :=
  Runs.reach_invariant (I := fun s => ∃ cd hd cf, Inv c s cd hd cf)
    (fun _ _ ⟨_, _, _, h⟩ hst => h.step hst) ⟨0, 0, 0, inv_init c⟩ hr

/-- **What holds of the send ring in every interleaving.** -/
structure PassesOn (c : Config) (s : State) : Prop where
  noFault : s.fault = false
  room : ∀ x, s.pc = .ready x → x.fragments ≤ s.ringAvailable c ∧ ∀ j < x.fragments,
    (s.descRing ((s.startFree + j) % c.cnt)).serverOwned = false ∧
      s.sendShadow ((s.startFree + j) % c.cnt) = none
  wraps : s.nrWrapped ≤ s.handed ∧ ∀ n < s.nrWrapped,
    (s.wrapped n).header = (s.pkt n).header ∧ (s.wrapped n).frags = (s.pkt n).frags
  wrapsNext : (s.skbWrapPacket c).nrWrapped =
    if s.nrWrapped < s.handed then s.nrWrapped + 1 else s.nrWrapped
  freedOnce : s.freed.Nodup
  freedReleased : ∀ n ∈ s.freed, n < s.nrWrapped ∧ (s.wrapped n).destroyed = true ∧
    (s.wrapped n).fragCount = 0
  releasedAll : ∀ n < s.nrWrapped, (s.wrapped n).destroyed = true →
    ∀ k < c.cnt, s.sendShadow k = some n → (s.descRing k).serverOwned = false
  frees : s.pc = .idle → (s.cleanSendRing c).pc = .idle ∧ ∀ n,
    (∀ m ≤ n, m < s.nrWrapped ∧ (s.wrapped m).destroyed = true) → n ∈ (s.cleanSendRing c).freed

section
variable (h : Inv c s cd hd cf)
include h

theorem Inv.owns_of_destroyed {n i : ℕ} (hn : n < s.nrWrapped)
    (hdestroyed : (s.wrapped n).destroyed = true) (hi : i ≤ s.nrFrags n) :
    s.owns hd n i = false := by
  rw [State.owns_of_lt hn, hdestroyed, (h.wrapped n hn).destroyed hdestroyed]
  split_ifs
  · rfl
  · exact decide_eq_false (by omega)

theorem Inv.releasedAll {n k : ℕ} (hn : n < s.nrWrapped)
    (hdestroyed : (s.wrapped n).destroyed = true) (hk : k < c.cnt)
    (hshadow : s.sendShadow k = some n) : (s.descRing k).serverOwned = false := by
  obtain ⟨p, ⟨hp, hp'⟩, rfl⟩ := Ring.exists_inWindow cd hk
  rcases Nat.lt_or_ge p cf with hlt | hge
  · obtain ⟨m, i, hi, rfl⟩ := Ring.exists_start_add s.nrFrags p
    have hu : s.InUse cd cf m i := ⟨hi, hp, hlt⟩
    obtain rfl : m = n := Option.some.inj ((h.shadow m i hu).symm.trans hshadow)
    exact (h.owned m i hu).trans (h.owns_of_destroyed hn hdestroyed hi)
  · exact (h.free p hge hp').1

theorem Inv.room {x : Packet} (hpc : s.pc = .ready x) :
    x.fragments ≤ s.ringAvailable c ∧ ∀ j < x.fragments,
      (s.descRing ((s.startFree + j) % c.cnt)).serverOwned = false ∧
        s.sendShadow ((s.startFree + j) % c.cnt) = none := by
  have hat := h.pc
  rw [hpc] at hat
  have hroom := hat.2.2.2
  have hle := h.dirty_le
  constructor
  · rw [h.ringAvailable_eq]
    omega
  · intro j hj
    rw [h.startFree, Nat.mod_add_mod]
    exact h.free (cf + j) (by omega) (by omega)

theorem Inv.frees (hpc : s.pc = .idle) :
    (s.cleanSendRing c).pc = .idle ∧ ∀ n,
      (∀ m ≤ n, m < s.nrWrapped ∧ (s.wrapped m).destroyed = true) →
        n ∈ (s.cleanSendRing c).freed := by
  have hat := h.pc
  rw [hpc] at hat
  have hle := h.dirty_le
  have hwin := h.lt_window
  have hstart : Inv c (s.setPc (.cleaning none)) cd hd cf := h.setPc hat
  obtain ⟨cd', h', hidle, -, -, hstop⟩ := hstart.cleanLoop c.cnt rfl (by omega)
  refine ⟨hidle, fun n hn => ?_⟩
  show n ∈ (State.cleanLoop c c.cnt (s.setPc (.cleaning none))).freed
  rw [h'.freed.eq_range, List.mem_range]
  by_contra hle
  exact hstop (hn _ (not_lt.1 hle))

theorem Inv.passesOn : PassesOn c s where
  noFault := h.fault
  room _ hpc := h.room hpc
  wraps := ⟨h.handed_eq ▸ h.le_handed,
    fun n hn => ⟨(h.wrapped n hn).header, (h.wrapped n hn).frags⟩⟩
  wrapsNext := by
    rw [h.handed_eq]
    split_ifs with hlt
    · rw [h.skbWrapPacket_of_lt hlt (h.handed_eq ▸ s.handed_le)]
      rfl
    · rw [h.skbWrapPacket_of_eq (le_antisymm h.le_handed (not_lt.1 hlt))]
  freedOnce := h.freed.eq_range ▸ List.nodup_range
  freedReleased n hn := by
    rw [h.freed.eq_range, List.mem_range] at hn
    have hw := hn.trans_le h.freed.le_wrapped
    have hdestroyed := h.freed.released n hn
    exact ⟨hw, hdestroyed, (h.wrapped n hw).destroyed hdestroyed⟩
  releasedAll _ hn hdestroyed _ hk hshadow := h.releasedAll hn hdestroyed hk hshadow
  frees hpc := h.frees hpc

end

/-- **Every packet of the send ring is wrapped once and freed once**, in every interleaving, with
destructors in any order. -/
theorem passesOn_of_reach (c : Config) (s : State) (hr : Runs.Reach (Step c) State.init s) :
    PassesOn c s := by
  obtain ⟨cd, hd, cf, h⟩ := inv_of_reach hr
  exact h.passesOn

theorem passesOn_one_packet :
    let c : Config := ⟨4, by decide, 18⟩
    let x : Packet := ⟨⟨0x1000, 54, 0, 8, 34, 50, true⟩, [⟨0x2000, 1400⟩]⟩
    let s := (State.init.xmitFrame c x).fillHead c x
    let s := (s.fillFrag c 0 0 0 ⟨0x2000, 1400⟩).handOver 0
    let s := ((s.skbWrapPacket c).destructorStep c 0).destructorStep c 0
    let s := ((s.setPc (.cleaning none)).cleanStep c none).cleanStep c none
    PassesOn c s ∧ s.freed = [0] ∧ (s.wrapped 0).frags = [⟨0x2000, 1400⟩] := by
  intro c x s₀ s₁ s₂ s₃
  refine ⟨passesOn_of_reach c s₃ ?_, by decide +kernel, by decide +kernel⟩
  have h₀ : Runs.Reach (Step c) State.init s₀ :=
    .tail (.tail .refl (.xmitFrame x (by decide) rfl)) (.fillHead (by decide +kernel))
  have hfilled : (s₀.fillFrag c 0 0 0 ⟨0x2000, 1400⟩).pc = .filling 0 1 1 := by decide +kernel
  have h₁ : Runs.Reach (Step c) State.init s₁ :=
    .tail (.tail h₀ (.fillFrag (by decide +kernel) (by decide +kernel)))
      (.handOver hfilled (by decide +kernel))
  have h₂ : Runs.Reach (Step c) State.init s₂ :=
    .tail (.tail (.tail h₁ .wrap) (.destructor (by decide +kernel) (by decide +kernel)))
      (.destructor (by decide +kernel) (by decide +kernel))
  exact .tail (.tail (.tail h₂ (.cleanSendRing (by decide +kernel))) (.clean (by decide +kernel)))
    (.clean (by decide +kernel))

end DriverReuse.Net
