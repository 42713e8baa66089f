import Afterburner.DriverNative.E1000TxRing

/-!
# Runs of the transmit path

`clean_tx_ring` keeps the invariant always, `tx_packet` for packets whose fragments are not in slots
yet.
-/

namespace DriverNative.E1000
open Ring Function List State Runs
section Inv
variable {ι : Type} [DecidableEq ι] {c : Setup ι} {s : State ι}

/-! ### The invariant

Within a function one of the two cursors of the ring is a local variable. -/

structure Core (c : Setup ι) (s : State ι) : Prop extends RingOk s, ClientOk c s where
  not_failed : s.failed = false

structure Inv (c : Setup ι) (s : State ι) : Prop extends Core c s where
  free_eq : s.free = s.log.length % slots
  dirty_eq : s.dirty = s.cleaned % slots

namespace Core

theorem mark (h : Core c s) (hfree : s.free = s.log.length % slots) : Core c s.mark := by
  have hring := h.toRingOk.mark hfree
  unfold State.mark at hring ⊢
  dsimp only at hring ⊢
  split_ifs at hring ⊢ with hstop
  · exact h
  · let k := s.marked % slots
    let d : E1000TxDesc := { s.ring k with upper := (s.ring k).upper ||| statDD }
    have hclient := h.toClientOk.ring_congr _ (update_congr E1000TxDesc.bufferLow (d := d) rfl)
    exact { hring, hclient with not_failed := h.not_failed }

theorem nic (h : Core c s) (hfree : s.free = s.log.length % slots) (m : ℕ) :
    Core c (s.nic m) ∧ Keeps s (s.nic m) ∧ (s.nic m).cleaned = s.cleaned ∧
      (s.nic m).dirty = s.dirty ∧ (s.nic m).marked = min (s.marked + m) s.log.length := by
  induction m with
  | zero =>
    have hle := h.marked_le
    exact ⟨h, .refl s, rfl, rfl, by show s.marked = _; omega⟩
  | succ m ih =>
    obtain ⟨hcore, hkeeps, hcleaned, hdirty, hmarked⟩ := ih
    have hfree' : (s.nic m).free = (s.nic m).log.length % slots := by
      rw [hkeeps.free, hkeeps.log, hfree]
    have hsucc : s.nic (m + 1) = (s.nic m).mark := iterate_succ_apply' ..
    obtain ⟨hkeeps', hcleaned', hdirty'⟩ := Keeps.mark (s.nic m)
    rw [hsucc]
    refine ⟨hcore.mark hfree', hkeeps.trans hkeeps', hcleaned'.trans hcleaned,
      hdirty'.trans hdirty, ?_⟩
    rw [hcore.toRingOk.marked_mark hfree', hkeeps.log]
    omega

theorem cleanSlot (h : Core c s) (hlt : s.cleaned < s.marked) {x : Option (ι × Word)}
    (hx : s.log[s.cleaned]? = some x) :
    Core c (s.cleanSlot c (s.cleaned % slots) (shadowOf x)) ∧
      Keeps s (s.cleanSlot c (s.cleaned % slots) (shadowOf x)) ∧
      (s.cleanSlot c (s.cleaned % slots) (shadowOf x)).cleaned = s.cleaned + 1 ∧
      (s.cleanSlot c (s.cleaned % slots) (shadowOf x)).marked = s.marked := by
  have hring := h.toRingOk.clearSlot hlt
  cases x with
  | none =>
    refine ⟨{ hring, h.toClientOk.clear_anon h.fits hx with not_failed := h.not_failed }, ?_, rfl,
      rfl⟩
    exact ⟨rfl, rfl, rfl, Nat.le_succ _, fun _ _ => rfl, fun _ _ _ => rfl⟩
  | some x =>
    obtain ⟨i, a⟩ := x
    have hsent : Sent c i (s.desc i a) (s.ring (s.cleaned % slots)).bufferLow :=
      h.entry s.cleaned i a le_rfl hx
    have heq : s.cleanSlot c (s.cleaned % slots) (shadowOf (some (i, a))) =
        (s.giveBack i a).clearSlot (s.cleaned % slots) :=
      congrArg (clearSlot · _) (hsent.release_eq (h.dirtyDesc_eq hx))
    rw [heq]
    refine ⟨{ hring, h.toClientOk.clear_iface h.fits hx with not_failed := h.not_failed },
      ⟨rfl, rfl, rfl, Nat.le_succ _, link_giveBack i a, fun j b hb => ?_⟩, rfl, rfl⟩
    refine (desc_setDesc ..).trans (if_neg ?_)
    rintro ⟨rfl, rfl⟩
    exact hb (mem_drop_of_getElem? le_rfl hx)

end Core

structure Cleaned (c : Setup ι) (s : State ι) (n : ℕ) (r : State ι × ℕ) : Prop where
  core : Core c r.1
  keeps : Keeps s r.1
  dirty_eq : r.1.dirty = r.1.cleaned % slots
  count : r.1.cleaned + n = s.cleaned + r.2

theorem cleaned_cleanLoop (fuel : ℕ) (marks : List ℕ) (n : ℕ) (h : Core c s)
    (hfree : s.free = s.log.length % slots) :
    Cleaned c s n (cleanLoop c fuel marks (s.cleaned % slots) n s) := by
  induction fuel generalizing marks n s with
  | zero => exact ⟨{ h with }, ⟨rfl, rfl, rfl, le_rfl, fun _ _ => rfl, fun _ _ _ => rfl⟩, rfl, rfl⟩
  | succ fuel ih =>
    obtain ⟨hcore, hkeeps, hcleaned, -, -⟩ := h.nic hfree (marks.headD 0)
    unfold cleanLoop
    dsimp only
    generalize s.nic (marks.headD 0) = t at *
    -- the loop ends here, or goes on with the next slot
    have hend : Cleaned c s n ({ t with dirty := s.cleaned % slots }, n) :=
      ⟨{ hcore with }, { hkeeps with }, by rw [hcleaned], by rw [hcleaned]⟩
    rw [← hcleaned] at hend ⊢
    split_ifs with hdone
    · exact hend
    have hlt := hcore.cleaned_lt_marked hdone
    obtain ⟨x, hx, hslot⟩ := hcore.shadow.front (hlt.trans_le hcore.marked_le)
    rw [hslot]
    dsimp only
    obtain ⟨hcore', hkeeps', hcleaned', -⟩ := hcore.cleanSlot hlt hx
    have hkept := hkeeps.trans hkeeps'
    have hnext := ih marks.tail (n + 1) hcore' (by rw [hkept.free, hkept.log, hfree])
    rw [hcleaned', ← succ_mod] at hnext
    have hcount := hnext.count
    exact ⟨hnext.core, hkept.trans hnext.keeps, hnext.dirty_eq, by omega⟩

theorem cleaned_cleanLoop_of_marked (fuel n : ℕ) (h : Core c s)
    (hfree : s.free = s.log.length % slots) (hmarked : s.marked = s.log.length)
    (hfuel : s.log.length < s.cleaned + fuel) :
    (cleanLoop c fuel [] (s.cleaned % slots) n s).1.cleaned = s.log.length := by
  induction fuel generalizing n s with
  | zero =>
    have hle := h.cleaned_le
    omega
  | succ fuel ih =>
    unfold cleanLoop
    dsimp only [headD_nil, tail_nil]
    rw [show s.nic 0 = s from rfl]
    split_ifs with hdone
    · -- a marked slot is not passed over
      show s.cleaned = s.log.length
      by_contra hne
      have hle := h.cleaned_le
      exact h.done s.cleaned le_rfl (by omega) hdone
    have hlt := h.cleaned_lt_marked hdone
    obtain ⟨x, hx, hslot⟩ := h.shadow.front (hlt.trans_le h.marked_le)
    rw [hslot]
    obtain ⟨hcore', hkeeps', hcleaned', hmarked'⟩ := h.cleanSlot hlt hx
    have hnext := ih (n + 1) hcore' (by rw [hkeeps'.free, hkeeps'.log, hfree])
      (by rw [hmarked', hkeeps'.log, hmarked]) (by rw [hkeeps'.log, hcleaned']; omega)
    rw [hcleaned', ← succ_mod, hkeeps'.log] at hnext
    exact hnext

theorem Inv.cleanTxRing (h : Inv c s) (marks : List ℕ) :
    Inv c (s.cleanTxRing c marks).1 ∧ Keeps s (s.cleanTxRing c marks).1 ∧
      (s.cleanTxRing c marks).1.cleaned = s.cleaned + (s.cleanTxRing c marks).2 := by
  unfold State.cleanTxRing
  rw [h.dirty_eq]
  have hclean := cleaned_cleanLoop slots marks 0 h.toCore h.free_eq
  refine ⟨{ hclean.core with free_eq := ?_, dirty_eq := hclean.dirty_eq }, hclean.keeps,
    hclean.count⟩
  rw [hclean.keeps.free, hclean.keeps.log, h.free_eq]

variable {i : ι}

theorem Core.fillSlot (h : Core c s) (hroom : s.log.length + 1 < s.cleaned + slots)
    (hstart : s.dirtyDesc i ≠ none) (hq : Queueable c s i (s.txdp i)) (lower : Word) {upper : Word}
    (hupper : upper &&& statDD = 0) :
    Core c (s.fillSlot c i lower upper (s.txdp i) (s.log.length % slots)) := by
  have hshadow : (s.txShadow (s.log.length % slots)).isNone = true := by rw [h.txShadow_length]; rfl
  have hclear : (s.ring (s.log.length % slots)).upper = 0 := h.clear s.log.length le_rfl h.fits
  have hbuffer := hq.buffer_lt
  unfold State.fillSlot
  rw [assert_eq hshadow]
  dsimp only
  rw [assert_eq (decide_eq_true hclear), assert_eq (decide_eq_true hbuffer)]
  let d : E1000TxDesc := ⟨c.busStart i + (s.desc i (s.txdp i)).buffer, 0,
    lower ||| (s.desc i (s.txdp i)).bufferLen.setWidth 32, upper⟩
  have hring := h.toRingOk.push hroom (some (i, s.txdp i)) (d := d) hupper
  have hsent : Sent c i (s.desc i (s.txdp i)) d.bufferLow := ⟨hq.own, hq.buffer_lt, hq.ne_zero, rfl⟩
  have hclient := h.toClientOk.push_iface h.toRingOk hstart hq.new hsent
  exact { hring, hclient with not_failed := h.not_failed }

theorem Inv.endPacket (h : Inv c s) (last : Option ℕ) : Inv c (s.endPacket last) := by
  cases last with
  | none => exact h
  | some k =>
    let d : E1000TxDesc := { s.ring k with lower := (s.ring k).lower ||| cmdEop }
    have hring := h.toRingOk.ring_congr _ (update_congr E1000TxDesc.upper (d := d) rfl)
    have hclient := h.toClientOk.ring_congr _ (update_congr E1000TxDesc.bufferLow (d := d) rfl)
    exact { hring, hclient with
      not_failed := h.not_failed, free_eq := h.free_eq, dirty_eq := h.dirty_eq }

theorem fragment_succ (desc : Word → NetClientDesc) (a : Word) (j : ℕ) :
    fragment desc (desc a).link j = fragment desc a (j + 1) := rfl

theorem Core.queueFragments {lower upper : Word} (hupper : upper &&& statDD = 0) (n : ℕ)
    (last : Option ℕ) (h : Core c s) (hdirty : s.dirty = s.cleaned % slots)
    (hroom : s.log.length + n < s.cleaned + slots) (hstart : s.dirtyDesc i ≠ none)
    (hq : ∀ j < n, Queueable c s i (fragment (s.desc i) (s.txdp i) j))
    (hne : ∀ j k, j < k → k < n →
      fragment (s.desc i) (s.txdp i) j ≠ fragment (s.desc i) (s.txdp i) k) :
    Inv c (queueFragments c i lower upper n (s.txdp i) (s.log.length % slots) last s) := by
  induction n generalizing last s with
  | zero =>
    have hinv : Inv c { s with free := s.log.length % slots } :=
      { h with free_eq := rfl, dirty_eq := hdirty }
    exact hinv.endPacket last
  | succ n ih =>
    have haddr : s.txdp i ≠ 0 := (hq 0 (Nat.succ_pos n)).addr_ne
    rw [State.queueFragments, if_neg haddr]
    have hcore := h.fillSlot (by omega) hstart (hq 0 (Nat.succ_pos n)) lower hupper
    let t := s.fillSlot c i lower upper (s.txdp i) (s.log.length % slots)
    have htxdp : t.txdp i = (s.desc i (s.txdp i)).link := update_self ..
    have hlog : t.log = s.log ++ [some (i, s.txdp i)] := rfl
    have hlen : t.log.length = s.log.length + 1 := by rw [hlog]; exact length_append
    have hfrag :
        ∀ j, fragment (t.desc i) (t.txdp i) j = fragment (s.desc i) (s.txdp i) (j + 1) := by
      intro j
      rw [htxdp]
      exact fragment_succ ..
    have hroom' : t.log.length + n < t.cleaned + slots := by
      show t.log.length + n < s.cleaned + slots
      omega
    have hnext := ih (some (s.log.length % slots)) hcore hdirty hroom' hstart
      (fun j hj => ?_) (fun j k hjk hk => ?_)
    · rw [hlen, ← succ_mod] at hnext
      exact hnext
    · rw [hfrag]
      obtain ⟨haddr, hnew, hown, hbuffer, hzero⟩ := hq (j + 1) (by omega)
      refine ⟨haddr, ?_, hown, hbuffer, hzero⟩
      show _ ∉ (s.log ++ [some (i, s.txdp i)]).drop s.cleaned
      rw [drop_append_of_le_length (h.cleaned_le.trans h.marked_le), mem_append]
      rintro (hold | hlast)
      · exact hnew hold
      · have heq : fragment (s.desc i) (s.txdp i) (j + 1) = s.txdp i := by simpa using hlast
        exact hne 0 (j + 1) (Nat.succ_pos j) (by omega) heq.symm
    · rw [hfrag, hfrag]
      exact hne (j + 1) (k + 1) (by omega) (by omega)

theorem Inv.queueFragments (h : Inv c s) {lower upper : Word}
    (hupper : upper &&& statDD = 0)
    {n : ℕ} (hroom : s.log.length + n < s.cleaned + slots) (hstart : s.dirtyDesc i ≠ none)
    (hq : ∀ j < n, Queueable c s i (fragment (s.desc i) (s.txdp i) j))
    (hne : ∀ j k, j < k → k < n →
      fragment (s.desc i) (s.txdp i) j ≠ fragment (s.desc i) (s.txdp i) k) :
    Inv c (queueFragments c i lower upper n (s.txdp i) s.free none s) := by
  rw [h.free_eq]
  exact h.toCore.queueFragments hupper n none h.dirty_eq hroom hstart hq hne

theorem countFragments_count {desc : Word → NetClientDesc} {first : Word} {fuel : ℕ} {a : Word}
    {read all : List Word} (ha : (desc a).own = true)
    (h : countFragments desc first fuel read a = .count all) :
    ∃ l, all = read ++ (range (l + 1)).map (fragment desc a) ∧
      (∀ j ≤ l, (desc (fragment desc a j)).own = true) ∧
      (∀ j < l, (desc (fragment desc a j)).more = true) ∧
      (desc (fragment desc a l)).more = false := by
  induction fuel generalizing a read with
  | zero => exact State.Fragments.noConfusion h
  | succ fuel ih =>
    unfold countFragments at h
    split_ifs at h with hmore hown hfirst
    · obtain ⟨l, hall, howns, hmores, hlast⟩ := ih (by simpa using hown) h
      refine ⟨l + 1, ?_, fun j hj => ?_, fun j hj => ?_, hlast⟩
      · rw [hall, map_fragment_succ desc a, append_assoc]
        rfl
      · cases j with
        | zero => exact ha
        | succ j => exact howns j (by omega)
      · cases j with
        | zero => exact hmore
        | succ j => exact hmores j (by omega)
    · obtain rfl : read ++ [a] = all := State.Fragments.count.inj h
      refine ⟨0, rfl, fun j hj => ?_, fun j hj => absurd hj (Nat.not_lt_zero j), ?_⟩
      · obtain rfl : j = 0 := by omega
        exact ha
      · exact Bool.eq_false_of_not_eq_true hmore

theorem fragment_ne {desc : Word → NetClientDesc} {a : Word} {l : ℕ}
    (hmore : ∀ j < l, (desc (fragment desc a j)).more = true)
    (hlast : (desc (fragment desc a l)).more = false) {j k : ℕ} (hjk : j < k) (hk : k ≤ l) :
    fragment desc a j ≠ fragment desc a k := by
  intro heq
  have hcome : fragment desc a (l - k + j) = fragment desc a l := by
    have hl : l = l - k + k := by omega
    conv_rhs => rw [hl]
    unfold fragment at heq ⊢
    rw [iterate_add_apply, iterate_add_apply, heq]
  have hagain := hmore (l - k + j) (by omega)
  rw [hcome, hlast] at hagain
  exact Bool.noConfusion hagain

theorem Inv.available_eq (h : Inv c s) : s.available = slots - 1 - (s.log.length - s.cleaned) := by
  unfold available
  rw [h.free_eq, h.dirty_eq]
  exact Ring.available_eq (h.inWindow (h.cleaned_le.trans h.marked_le) le_rfl)

theorem Inv.injectCsum (h : Inv c s) (hroom : s.log.length + 1 < s.cleaned + slots)
    {d : NetClientDesc} {t : State ι} (ht : s.injectCsum c d = some t) :
    Inv c t ∧ t.log = s.log ++ [none] ∧ t.cleaned = s.cleaned ∧ t.desc = s.desc ∧
      t.txdp = s.txdp ∧ t.dirtyDesc = s.dirtyDesc := by
  obtain ⟨off, -, rfl⟩ := Option.map_eq_some_iff.1 ht
  have hshadow : (s.txShadow s.free).isNone = true := by rw [h.free_eq, h.txShadow_length]; rfl
  refine ⟨?_, rfl, rfl, rfl, rfl, rfl⟩
  dsimp only
  rw [assert_eq hshadow, h.free_eq]
  let d : E1000TxDesc :=
    { s.ring (s.log.length % slots) with
      bufferHigh := NetClientDesc.csumStartOffset ||| off <<< 8
      upper := 0
      lower := c.txdCmd ||| cmdDext }
  have hring := h.toRingOk.push hroom none (d := d) BitVec.zero_and
  have hclient := h.toClientOk.push_anon h.toRingOk d
  refine { hring, hclient with not_failed := h.not_failed, free_eq := ?_, dirty_eq := h.dirty_eq }
  rw [succ_mod, length_append]
  rfl

theorem Inv.sendPacket (h : Inv c s) {n : ℕ}
    (hroom : s.log.length + (if (s.desc i (s.txdp i)).hasCsum then n + 1 else n) <
      s.cleaned + slots)
    (hq : ∀ j < n, Queueable c s i (fragment (s.desc i) (s.txdp i) j))
    (hne : ∀ j k, j < k → k < n →
      fragment (s.desc i) (s.txdp i) j ≠ fragment (s.desc i) (s.txdp i) k) :
    Inv c (s.sendPacket c i n).1 := by
  have hstart :
      update s.dirtyDesc i (some ((s.dirtyDesc i).getD (s.txdp i))) i ≠ none := by simp
  have hinv : Inv c { s with
      dirtyDesc := update s.dirtyDesc i (some ((s.dirtyDesc i).getD (s.txdp i))) } :=
    { h.toClientOk.setDirty i, h with }
  unfold State.sendPacket
  dsimp only
  split_ifs at hroom ⊢ with hcsum
  · split
    · exact { hinv with }
    · rename_i t ht
      obtain ⟨hinv', hlog, hcleaned, hdesc, htxdp, hdirty⟩ :=
        hinv.injectCsum (by dsimp only; omega) ht
      dsimp only at hlog hcleaned hdesc htxdp hdirty
      have hlen : t.log.length = s.log.length + 1 := by rw [hlog]; exact length_append
      rw [← htxdp] at hq hne ⊢
      rw [← hdesc] at hq hne
      refine hinv'.queueFragments (by decide) (by omega) (by rw [hdirty]; exact hstart)
        (fun j hj => (hq j hj).congr (by rw [hdesc]) ?_) hne
      rw [hlog, hcleaned, drop_append_of_le_length (h.cleaned_le.trans h.marked_le)]
      simpa using (hq j hj).new
  · exact hinv.queueFragments (by decide) hroom hstart (fun j hj => { hq j hj with }) hne

theorem Inv.sendPacket_of_keeps {r : State ι} (h : Inv c r) (hkeeps : Keeps s r) {n : ℕ}
    (hn : 0 < n)
    (hroom : r.log.length + (if (s.desc i (s.txdp i)).hasCsum then n + 1 else n) <
      r.cleaned + slots)
    (hq : ∀ j < n, Queueable c s i (fragment (s.desc i) (s.txdp i) j))
    (hne : ∀ j k, j < k → k < n →
      fragment (s.desc i) (s.txdp i) j ≠ fragment (s.desc i) (s.txdp i) k) :
    Inv c (r.sendPacket c i n).1 := by
  have hfrag : fragment (r.desc i) (r.txdp i) = fragment (s.desc i) (s.txdp i) := by
    unfold fragment
    rw [hkeeps.txdp, funext (hkeeps.link i)]
  have hfirst : r.desc i (r.txdp i) = s.desc i (s.txdp i) := by
    rw [hkeeps.txdp]
    exact hkeeps.desc i _ (hq 0 hn).new
  refine h.sendPacket ?_ (fun j hj => ?_) ?_
  · rw [hfirst]
    exact hroom
  · rw [hfrag]
    exact (hq j hj).congr (hkeeps.desc i _ (hq j hj).new) (hkeeps.not_mem (hq j hj).new)
  · rw [hfrag]
    exact hne

theorem Inv.txPacket (h : Inv c s) (hfresh : Fresh c s i) (marks : List ℕ) :
    Inv c (s.txPacket c i marks).1 := by
  unfold State.txPacket
  unfold Fresh at hfresh
  by_cases hown : (s.desc i (s.txdp i)).own = true
  swap
  · simp [*]
  rw [if_neg (by simpa using hown)]
  cases hcount : countFragments (s.desc i) (s.txdp i) (2 ^ 32) [] (s.txdp i) with
  | aborted => exact h
  | forever => exact { h with }
  | count read =>
    rw [hcount] at hfresh
    obtain ⟨hn, hfresh⟩ := hfresh hown
    obtain ⟨l, rfl, howns, hmores, hlast⟩ := countFragments_count hown hcount
    rw [nil_append] at hn hfresh ⊢
    have hq : ∀ j < l + 1, Queueable c s i (fragment (s.desc i) (s.txdp i) j) := fun j hj => by
      obtain ⟨haddr, hnew, hbuffer, hzero⟩ := hfresh _ (mem_map_of_mem (mem_range.2 hj))
      exact ⟨haddr, hnew, howns j (by omega), hbuffer, hzero⟩
    have hne : ∀ j k, j < k → k < l + 1 →
        fragment (s.desc i) (s.txdp i) j ≠ fragment (s.desc i) (s.txdp i) k :=
      fun j k hjk hk => fragment_ne hmores hlast hjk (by omega)
    have hfits := h.fits
    have havailable := h.available_eq
    dsimp only
    rw [length_map, length_range] at hn ⊢
    rw [Nat.mod_eq_of_lt (by omega : l + 1 < 2 ^ 16), Nat.mod_eq_of_lt hn]
    generalize hcnt : (if (s.desc i (s.txdp i)).hasCsum then l + 1 + 1 else l + 1) = cnt
    obtain ⟨hinv, hkeeps, hcleaned⟩ := h.cleanTxRing marks
    have hstill : ((s.cleanTxRing c marks).1.desc i (s.txdp i)).own = true := by
      have hsame : (s.cleanTxRing c marks).1.desc i (s.txdp i) = s.desc i (s.txdp i) :=
        hkeeps.desc i _ (hq 0 (by omega)).new
      rw [hsame]
      exact hown
    rw [assert_eq hstill]
    split_ifs with hclean hfull
    · exact hinv
    · refine hinv.sendPacket_of_keeps hkeeps (by omega) ?_ hq hne
      have hle' := hinv.cleaned_le.trans hinv.marked_le
      rw [hkeeps.log] at hle' ⊢
      omega
    · refine h.sendPacket_of_keeps (.refl s) (by omega) ?_ hq hne
      omega

theorem inv_init (desc : ι → Word → NetClientDesc) (txdp : ι → Word) : Inv c (init desc txdp) where
  cleaned_le := le_rfl
  marked_le := le_rfl
  fits := slots_pos
  shadow := Holds.init fun _ => rfl
  done k _ hk := absurd hk (Nat.not_lt_zero k)
  undone _ _ _ := BitVec.zero_and
  clear _ _ _ := rfl
  entry k i a _ hk := by simp [init] at hk
  path _ := rfl
  nodup := nodup_nil
  released := rfl
  not_failed := rfl
  free_eq := rfl
  dirty_eq := rfl

theorem Inv.step {x : Action ι} (h : Inv c s) (hx : Allowed c s x) : Inv c (step c s x) := by
  cases x with
  | txPacket i marks =>
    unfold E1000.step
    dsimp only
    split_ifs
    · exact h
    · exact h.txPacket hx marks
  | clean marks =>
    unfold E1000.step
    split_ifs
    · exact h
    · exact (h.cleanTxRing marks).1
  | nic =>
    obtain ⟨hkeeps, hcleaned, hdirty⟩ := Keeps.mark s
    refine { h.toCore.mark h.free_eq with free_eq := ?_, dirty_eq := ?_ }
    · show s.mark.free = s.mark.log.length % slots
      rw [hkeeps.free, hkeeps.log, h.free_eq]
    · show s.mark.dirty = s.mark.cleaned % slots
      rw [hdirty, hcleaned, h.dirty_eq]
  | client i a d => exact { h.toClientOk.setDesc hx d, h with }

theorem Inv.pending_eq (h : Inv c s) : s.pending = s.log.length - s.cleaned := by
  unfold pending
  rw [h.free_eq, h.dirty_eq]
  exact Ring.pending_eq (h.inWindow (h.cleaned_le.trans h.marked_le) le_rfl)

theorem Inv.shadow_iff (h : Inv c s) {k : ℕ} (hk : k < slots) :
    (s.txShadow k).isSome ↔ (k + slots - s.dirty) % slots < s.pending := by
  obtain ⟨p, hp, rfl⟩ := exists_inWindow s.cleaned hk
  obtain ⟨hle, hlt⟩ := hp
  rw [h.pending_eq, h.dirty_eq, Ring.pending_eq ⟨hle, hlt⟩]
  rcases Nat.lt_or_ge p s.log.length with hin | hout
  · have hheld : s.txShadow (p % slots) = _ :=
      h.shadow.held p _ hle (getElem?_eq_getElem hin)
    rw [hheld]
    simp only [Option.isSome_some, true_iff]
    omega
  · have hfree : s.txShadow (p % slots) = none := h.shadow.free p hout hlt
    rw [hfree]
    simp only [Option.isSome_none, Bool.false_eq_true, false_iff]
    omega

theorem Inv.drains (h : Inv c s) :
    ((s.nic slots).cleanTxRing c []).1.released = s.log.filterMap id := by
  obtain ⟨hcore, hkeeps, hcleaned, hdirty, hmarked⟩ := h.toCore.nic h.free_eq slots
  have hfits := h.fits
  have hle := h.cleaned_le
  have hfree : (s.nic slots).free = (s.nic slots).log.length % slots := by
    rw [hkeeps.free, hkeeps.log, h.free_eq]
  have hstart : (s.nic slots).dirty = (s.nic slots).cleaned % slots := by
    rw [hdirty, hcleaned, h.dirty_eq]
  have hall : (s.nic slots).marked = (s.nic slots).log.length := by
    rw [hkeeps.log]
    omega
  have hclean := cleaned_cleanLoop slots [] 0 hcore hfree
  have hend := cleaned_cleanLoop_of_marked slots 0 hcore hfree hall
    (by rw [hkeeps.log, hcleaned]; omega)
  unfold State.cleanTxRing
  rw [hstart, hclean.core.released, hend, hclean.keeps.log, hkeeps.log, take_length]

theorem Inv.correct (h : Inv c s) : Correct c s where
  not_failed := h.not_failed
  shadow_iff _ hk := h.shadow_iff hk
  released := by
    refine ⟨s.log.take s.cleaned, s.log.drop s.cleaned, (take_append_drop _ _).symm,
      h.released,
      ?_, fun j x hx => ?_⟩
    · rw [h.pending_eq, length_drop]
    · rw [getElem?_drop] at hx
      rw [h.dirty_eq, Nat.mod_add_mod]
      exact h.shadow.held (s.cleaned + j) x (Nat.le_add_right _ _) hx
  drains := h.drains

/-- **The transmit path.** If `tx_packet` is only called for fresh packets and the clients leave the
device's descriptors alone, no assertion fails, the shadow ring is in use from `dirty` to `free`,
and what is queued is released in order and once. -/
theorem correct_of_guarded (c : Setup ι) (desc : ι → Word → NetClientDesc) (txdp : ι → Word)
    (as : List (Action ι)) (h : Runs.Guarded (step c) (Allowed c) (init desc txdp) as) :
    Correct c (run (step c) (init desc txdp) as) :=
  (run_invariant (I := Inv c) (fun _ _ hs hx => hs.step hx) (inv_init desc txdp) h).correct

end Inv

def oneClient : Setup Unit := ⟨0, fun _ => 0x1000, fun _ => 0x1000⟩

def udpPacket (a : Word) : NetClientDesc :=
  { own := a = 0x10 ∨ a = 0x20
    ok := false
    intr := true
    more := a = 0x10
    link := if a = 0x10 then 0x20 else if a = 0x20 then 0x30 else 0x10
    buffer := 0x100
    bufferLen := 64
    udpPkt := true
    tcpPkt := false
    ipPkt := false }

theorem fresh_udpPacket : Fresh oneClient (init (fun _ => udpPacket) fun _ => 0x10) () := by
  intro _
  refine ⟨by decide, fun a ha => ⟨?_, by simp [init], ?_⟩⟩
  · have hread : a ∈ [(0x10 : Word), 0x20] := ha
    rcases mem_pair.1 hread with rfl | rfl <;> decide
  · exact ⟨(by decide : (0x100 : Word) < 0x1000), (by decide : (0x1000 + 0x100 : Word) ≠ 0)⟩

theorem correct_udpPacket :
    Correct oneClient (run (step oneClient) (init (fun _ => udpPacket) fun _ => 0x10)
      [.txPacket () [], .nic, .nic, .clean [1]]) ∧
    (run (step oneClient) (init (fun _ => udpPacket) fun _ => 0x10)
      [.txPacket () [], .nic, .nic, .clean [1]]).released = [((), 0x10), ((), 0x20)] :=
  ⟨correct_of_guarded oneClient _ _ _ ⟨fresh_udpPacket, trivial, trivial, trivial, trivial⟩,
    by decide⟩

def twoPackets (a : Word) : NetClientDesc :=
  { own := a = 0x10 ∨ a = 0x20
    ok := false
    intr := true
    more := false
    link := if a = 0x10 then 0x20 else 0x10
    buffer := 0x100
    bufferLen := 64
    udpPkt := false
    tcpPkt := false
    ipPkt := false }

theorem not_correct_twoPackets :
    ¬ Correct oneClient (run (step oneClient) (init (fun _ => twoPackets) fun _ => 0x10)
      [.txPacket () [], .txPacket () [], .txPacket () [], .nic, .nic, .nic, .clean []]) := by
  intro h
  have hfailed : (run (step oneClient) (init (fun _ => twoPackets) fun _ => 0x10)
      [.txPacket () [], .txPacket () [], .txPacket () [], .nic, .nic, .nic, .clean []]).failed =
      true := by decide
  rw [h.not_failed] at hfailed
  exact Bool.noConfusion hfailed

end DriverNative.E1000
