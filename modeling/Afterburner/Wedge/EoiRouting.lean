import Afterburner.Wedge.HwirqHeld
import Afterburner.Wedge.Ipi
import Afterburner.Wedge.LapicNesting

/-!
# Where the end of a level triggered interrupt goes

A local APIC keeps for each vector the pin and the IO-APIC that raised it, and in TMR whether by
level; its EOI then goes there.
-/
variable (route : Routing) (s : Apics)

namespace Wedge
open Function RedirEntry Runs Bits

namespace Lapic
variable (l : Lapic)

theorem msbRrWord_lt (r : RrSel) {offset first below : ℕ} (hfirst : first + 32 ≤ 256)
    (hbelow : below < 256) : l.msbRrWord r offset first below < 256 := by
  grind [msbRrWord, msb, soToRaw, Nat.findGreatest_le]

theorem msbRr_lt (r : RrSel) : l.msbRr r < 256 := by
  have hbase : (if l.raw (soToRaw r 0) ≠ 0#32 then msb (l.raw r.base) else 0) < 256 := by
    grind [msb, Nat.findGreatest_le]
  refine l.msbRrWord_lt r (by decide) <| l.msbRrWord_lt r (by decide) <|
    l.msbRrWord_lt r (by decide) <| l.msbRrWord_lt r (by decide) <|
    l.msbRrWord_lt r (by decide) <| l.msbRrWord_lt r (by decide) <|
    l.msbRrWord_lt r (by decide) hbase

def SameTables (l l' : Lapic) : Prop :=
  ∀ u < 256, l'.testRr .tmr u = l.testRr .tmr u ∧ l'.getIoapic u = l.getIoapic u ∧
    l'.getPin u = l.getPin u

theorem SameTables.refl : l.SameTables l := fun _ _ => ⟨rfl, rfl, rfl⟩

variable {l}

theorem SameTables.trans {l' l'' : Lapic} (h : l.SameTables l') (h' : l'.SameTables l'') :
    l.SameTables l'' := by
  grind [SameTables]

variable (l)

theorem sameTables_setRaw {k : ℕ} (hk : k < 0x40 ∨ 0xa0 ≤ k ∧ k < 0x100) (x : Word) :
    l.SameTables (l.setRaw k x) := fun u hu =>
  ⟨testRr_setRaw l _ hu (hk.imp_right And.left) x, raw_setRaw_of_ne l (by omega) x,
    raw_setRaw_of_ne l (by omega) x⟩

theorem sameTables_bitSetRr {v : ℕ} (hv : v < 256) {r : RrSel} (hr : r ≠ .tmr) :
    l.SameTables (l.bitSetRr v r) := fun u hu =>
  ⟨by rw [testRr_bitSetRr l r _ hv hu]; simp [hr], raw_bitSetRr l r hv (by omega),
    raw_bitSetRr l r hv (by omega)⟩

theorem sameTables_bitClearRr {v : ℕ} (hv : v < 256) {r : RrSel} (hr : r ≠ .tmr) :
    l.SameTables (l.bitClearRr v r) := fun u hu =>
  ⟨by rw [testRr_bitClearRr l r _ hv hu]; simp [hr], raw_bitClearRr l r hv (by omega),
    raw_bitClearRr l r hv (by omega)⟩

theorem sameTables_pendingVector : l.SameTables l.pendingVector.2 := by
  have hv := l.msbRr_lt .irr
  unfold pendingVector
  dsimp only
  split_ifs
  · exact (l.sameTables_bitClearRr hv (by decide)).trans (sameTables_bitSetRr _ hv (by decide))
  · exact SameTables.refl l

section Raise

variable {v u : ℕ} (hv : v < 256) (hu : u < 256) (irq : Word) (reraise fromEoi : Bool)
  (fromIoapic : Word)

include hv hu

theorem getPin_raise_eq : (l.raise v irq reraise fromEoi fromIoapic).getPin u =
    if v = u then if reraise then l.getPin v else irq else l.getPin u := by
  have hset : ∀ (l' : Lapic) (r : RrSel), (l'.bitSetRr v r).getPin u = l'.getPin u :=
    fun l' r => raw_bitSetRr l' r hv (by omega)
  have hclear : (l.bitClearRr v .isr).getPin u = l.getPin u := raw_bitClearRr l _ hv (by omega)
  have hio : ∀ l' : Lapic, (l'.setIoapic v fromIoapic).getPin u = l'.getPin u :=
    fun l' => raw_setRaw_of_ne l' (by omega) _
  have hpin : (l.setPin v irq).getPin u = if v = u then irq else l.getPin u := by
    simp [getPin, setPin, setRaw, update_apply, eq_comm]
  grind [raise]

theorem getIoapic_raise_eq : (l.raise v irq reraise fromEoi fromIoapic).getIoapic u =
    if v = u then if fromEoi then fromIoapic else l.getIoapic v else l.getIoapic u := by
  have hset : ∀ (l' : Lapic) (r : RrSel), (l'.bitSetRr v r).getIoapic u = l'.getIoapic u :=
    fun l' r => raw_bitSetRr l' r hv (by omega)
  have hclear : (l.bitClearRr v .isr).getIoapic u = l.getIoapic u :=
    raw_bitClearRr l _ hv (by omega)
  have hpin : (l.setPin v irq).getIoapic u = l.getIoapic u := raw_setRaw_of_ne l (by omega) _
  have hio : ∀ l' : Lapic, (l'.setIoapic v fromIoapic).getIoapic u =
      if v = u then fromIoapic else l'.getIoapic u := by
    simp [getIoapic, setIoapic, setRaw, update_apply, eq_comm]
  grind [raise]

end Raise

def Recorded (l : Lapic) (R : ℕ → Set (Word × Word)) : Prop :=
  ∀ u < 256, l.testRr .tmr u = true → (l.getIoapic u, l.getPin u) ∈ R u

variable {l} {R R' : ℕ → Set (Word × Word)}

theorem Recorded.congr {l' : Lapic} (h : l.SameTables l') (hR : ∀ u, R u ⊆ R' u)
    (hl : l.Recorded R) : l'.Recorded R' := by
  intro u hu hm
  obtain ⟨htmr, hio, hpin⟩ := h u hu
  rw [hio, hpin]
  exact hR u (hl u hu (htmr.symm.trans hm))

theorem recorded_raise_iff {v : ℕ} (hv : v < 256) (irq : Word) (reraise fromEoi : Bool)
    (fromIoapic : Word) (hR : ∀ u, R u ⊆ R' u) (hl : l.Recorded R) :
    (l.raise v irq reraise fromEoi fromIoapic).Recorded R' ↔
      (l.testRr .tmr v = true ∨ fromEoi = true →
        (if fromEoi then fromIoapic else l.getIoapic v, if reraise then l.getPin v else irq) ∈
          R' v) := by
  have htmr := fun u (hu : u < 256) =>
    testRr_raise_eq l .tmr hv hu irq reraise fromEoi fromIoapic
  constructor
  · intro h hset
    have := h v hv (by rw [htmr v hv]; simpa using hset)
    rw [getPin_raise_eq l hv hv, getIoapic_raise_eq l hv hv] at this
    simpa using this
  · intro h u hu hm
    rw [getPin_raise_eq l hv hu, getIoapic_raise_eq l hv hu]
    have hold := hl u hu
    grind

end Lapic
namespace Apics

def RaisesLevel (addr irq : Word) (dest vector : ℕ) : Prop :=
  dest ∈ s.dests addr irq ∧ (s.redir addr irq).trg = true ∧ (s.redir addr irq).vec = vector

def Op.RaisesLevel (route : Routing) (s : Apics) (p : Word × Word) (dest vector : ℕ) : Op → Prop
  | .raiseIrq _ irq =>
    p = (route.ioapic irq, BitVec.ofNat 32 irq) ∧ s.RaisesLevel p.1 p.2 dest vector
  | .redtblWrite _ addr r value =>
    p = (addr, (s.ioapic addr).hwirqOf r.entry) ∧ s.Reraises addr r value ∧
      (s.redtblStore addr r value).1.RaisesLevel p.1 p.2 dest vector
  | _ => False

def Op.Retires (dest vector : ℕ) : Op → Prop
  | .write self _ reg => reg = 0x0b0 ∧ dest = self ∧ vector = (s.lapic self).msbRr .isr ∧
      15 < vector ∧ (s.lapic self).testRr .isr vector = true
  | _ => False

structure Tracked where
  sys : Apics
  raisedBy : ℕ → ℕ → Set (Word × Word)

namespace Tracked

def step (route : Routing) (t : Tracked) (op : Op) : Tracked where
  sys := t.sys.step route.ioapic op
  raisedBy dest vector :=
    {p | p ∈ t.raisedBy dest vector ∧ ¬ op.Retires t.sys dest vector ∨
      op.RaisesLevel route t.sys p dest vector}

def Recorded (t : Tracked) : Prop := ∀ j, (t.sys.lapic j).Recorded (t.raisedBy j)

structure Inv (t : Tracked) : Prop where
  routed : ∀ j v p, p ∈ t.raisedBy j v → p.1 ≠ 0 ∧ route.ioapic p.2.toNat = p.1
  pending : ∀ a w, (t.sys.redir a w).pnd = true →
    (t.sys.redir a w).msk = true ∧ a ≠ 0 ∧ route.ioapic w.toNat = a

end Tracked

def FromIoapic : Op → Prop
  | .raiseIrq _ irq => irq ≠ 0 ∧ route.ioapic irq ≠ 0
  | .reraiseVector _ vector => vector < 256
  | _ => True

def ipiDests (self : ℕ) (value : Word) : List ℕ :=
  let t := s.stored self value
  let mask := t.destIdMask self (t.lapic self).icrlo (t.lapic self).icrhi
  if mask < 1#32 <<< s.nrVcpus ∧ Icr.deliveryMode value = 0 ∧ 15 < Icr.vector value then
    (scan mask).filter (· < s.nrVcpus)
  else []

def Tracked.RecordGuard (t : Tracked) : Op → Prop
  | .raiseIrq _ irq =>
    let a := route.ioapic irq
    let e := t.sys.redir a (BitVec.ofNat 32 irq)
    ∀ j ∈ t.sys.dests a (BitVec.ofNat 32 irq), e.trg = true ∧ e.del ≤ 1 ∨
      (t.sys.lapic j).testRr .tmr e.vec = false ∨
      e.trg = true ∧ (t.sys.lapic j).getIoapic e.vec = a ∨
      ((t.sys.lapic j).getIoapic e.vec, BitVec.ofNat 32 irq) ∈ t.raisedBy j e.vec
  | .redtblWrite _ addr r value =>
    let e := ((t.sys.ioapic addr).redtbl r.entry).storeLo value
    t.sys.Reraises addr r value → 15 < e.vec → e.trg = true → e.del ≤ 1 →
      ∀ j ∈ scan (t.sys.redirDestMask e),
        (t.sys.lapic j).getPin e.vec = (t.sys.ioapic addr).hwirqOf r.entry ∨
        (addr, (t.sys.lapic j).getPin e.vec) ∈ t.raisedBy j e.vec
  | .write self value reg => reg = 0x300 → ∀ j ∈ t.sys.ipiDests self value,
      (t.sys.lapic j).testRr .tmr (Icr.vector value) = false
  | _ => True

namespace Tracked
variable {route} {t t' : Tracked}

theorem recorded_iff_of_raise (dests : List ℕ) (h : t.Recorded)
    (hmono : ∀ j u, t.raisedBy j u ⊆ t'.raisedBy j u) {v : ℕ} (hv : v < 256)
    {irq : Word} {reraise fromEoi : Bool} {fromIoapic : Word}
    (hin : ∀ j ∈ dests, ∃ l, (t.sys.lapic j).SameTables l ∧
      t'.sys.lapic j = l.raise v irq reraise fromEoi fromIoapic)
    (hout : ∀ j, j ∉ dests → (t.sys.lapic j).SameTables (t'.sys.lapic j)) :
    t'.Recorded ↔ ∀ j ∈ dests, (t.sys.lapic j).testRr .tmr v = true ∨ fromEoi = true →
      (if fromEoi then fromIoapic else (t.sys.lapic j).getIoapic v,
        if reraise then (t.sys.lapic j).getPin v else irq) ∈ t'.raisedBy j v := by
  have hraise : ∀ j ∈ dests, ((t'.sys.lapic j).Recorded (t'.raisedBy j) ↔
      ((t.sys.lapic j).testRr .tmr v = true ∨ fromEoi = true →
      (if fromEoi then fromIoapic else (t.sys.lapic j).getIoapic v,
        if reraise then (t.sys.lapic j).getPin v else irq) ∈ t'.raisedBy j v)) := by
    intro j hj
    obtain ⟨l, hsame, heq⟩ := hin j hj
    obtain ⟨htmr, hio, hpin⟩ := hsame v hv
    rw [heq, ← htmr, ← hio, ← hpin]
    exact Lapic.recorded_raise_iff hv irq reraise fromEoi fromIoapic (hmono j)
      ((h j).congr hsame fun _ => subset_rfl)
  constructor
  · exact fun ht' j hj => (hraise j hj).1 (ht' j)
  · intro hc j
    by_cases hj : j ∈ dests
    · exact (hraise j hj).2 (hc j hj)
    · exact (h j).congr (hout j hj) (hmono j)

theorem recorded_of_sameTables (h : t.Recorded) (hmono : ∀ j u, t.raisedBy j u ⊆ t'.raisedBy j u)
    (hsame : ∀ j, (t.sys.lapic j).SameTables (t'.sys.lapic j)) : t'.Recorded :=
  fun j => (h j).congr (hsame j) (hmono j)

variable {op : Op}

theorem subset_raisedBy_step (hop : ∀ j u, ¬ op.Retires t.sys j u) (j u : ℕ) :
    t.raisedBy j u ⊆ (t.step route op).raisedBy j u := fun _ hp => .inl ⟨hp, hop j u⟩

/-! #### Interrupts of devices -/

variable {self : ℕ}

theorem lapic_raiseIrq {irq : ℕ} (h0 : irq ≠ 0) (hr : route.ioapic irq ≠ 0) (j : ℕ) :
    (s.raiseIrq route.ioapic self irq).lapic j =
      ((s.setHwirq (s.hwirq.setHwirqMask irq)).ioapicRaiseIrq self (route.ioapic irq)
        (BitVec.ofNat 32 irq) false).lapic j := by
  rw [raiseIrq, if_neg h0, raiseWire]
  split_ifs <;> rfl

theorem recorded_raiseIrq_iff (h : t.Recorded) {irq : ℕ} (h0 : irq ≠ 0)
    (hr : route.ioapic irq ≠ 0) :
    (t.step route (.raiseIrq self irq)).Recorded ↔ t.RecordGuard route (.raiseIrq self irq) := by
  generalize ha : route.ioapic irq = a
  generalize hw : BitVec.ofNat 32 irq = w
  have hdests : (t.sys.setHwirq (t.sys.hwirq.setHwirqMask irq)).dests a w = t.sys.dests a w := rfl
  have hredir : (t.sys.setHwirq (t.sys.hwirq.setHwirqMask irq)).redir a w = t.sys.redir a w := rfl
  have hlapic : ∀ j, (t.step route (.raiseIrq self irq)).sys.lapic j = _ := fun j =>
    (lapic_raiseIrq t.sys h0 hr j).trans (lapic_ioapicRaiseIrq ..)
  simp only [ha, hw, hdests, hredir, setHwirq_lapic] at hlapic
  have hmem : ∀ j ∈ t.sys.dests a w, ∀ p,
      p ∈ (t.step route (.raiseIrq self irq)).raisedBy j (t.sys.redir a w).vec ↔
        p ∈ t.raisedBy j (t.sys.redir a w).vec ∨ p = (a, w) ∧ (t.sys.redir a w).trg = true := by
    intro j hj p
    refine or_congr (and_iff_left id) ?_
    rw [Op.RaisesLevel, ha, hw]
    refine and_congr_right ?_
    rintro rfl
    exact ⟨fun hl => hl.2.1, fun htrg => ⟨hj, htrg, rfl⟩⟩
  rw [recorded_iff_of_raise _ h (subset_raisedBy_step fun _ _ => id)
    (vec_lt (t.sys.redir a w))
    (fun j hj => ⟨t.sys.lapic j, Lapic.SameTables.refl _, (hlapic j).trans (if_pos hj)⟩)
    (fun j hj => by rw [hlapic j, if_neg hj]; exact Lapic.SameTables.refl _)]
  simp only [RecordGuard, ha, hw]
  refine forall_congr' fun j => forall_congr' fun hj => ?_
  rw [hmem j hj]
  cases htrg : (t.sys.redir a w).trg with
  | false => simp [imp_iff_not_or]
  | true => grind

/-! #### Writes to the redirection table -/

theorem redir_of_reraises {s : Apics} {addr : Word} {r : RedtblReg} {value : Word}
    (hre : s.Reraises addr r value) :
    (s.redtblStore addr r value).2 = true ∧
      (s.redtblStore addr r value).1.lapic = s.lapic ∧
      SameRoute (((s.ioapic addr).redtbl r.entry).storeLo value)
        ((s.redtblStore addr r value).1.redir addr ((s.ioapic addr).hwirqOf r.entry)) ∧
      ∀ j, j ∈ (s.redtblStore addr r value).1.dests addr ((s.ioapic addr).hwirqOf r.entry) ↔
        15 < (((s.ioapic addr).redtbl r.entry).storeLo value).vec ∧
          j ∈ scan (s.redirDestMask (((s.ioapic addr).redtbl r.entry).storeLo value)) := by
  obtain ⟨e', hioapic, hstored, -, -, hlapic, hnr, hraised⟩ := s.redtblStore_spec addr r value
  have hredir :=
    redir_redtblStore (a := addr) addr r value ((s.ioapic addr).hwirqOf r.entry) hioapic
  rw [if_pos ⟨rfl, rfl⟩] at hredir
  have hroute := hstored.route (hraised.2 hre)
  have hmsk : e'.msk = false := by
    obtain ⟨hlower, hunmask, -⟩ := (reraises_iff ..).1 hre
    rw [hstored.msk, if_pos hlower, hunmask]
  refine ⟨hraised.2 hre, hlapic, by rwa [hredir], fun j => ?_⟩
  rw [dests, hredir, hroute.vec, redirDestMask_congr hlapic hnr,
    hroute.redirDestMask_eq]
  split_ifs <;> grind

theorem lapic_redtblWrite_of_not_reraises {s : Apics} (self : ℕ) {addr : Word} {r : RedtblReg}
    {value : Word} (hre : ¬ s.Reraises addr r value) :
    s.redtblWrite self addr r value = (s.redtblStore addr r value).1 ∧
      (s.redtblStore addr r value).1.lapic = s.lapic := by
  obtain ⟨_, -, -, -, -, hlapic, -, hraised⟩ := s.redtblStore_spec addr r value
  refine ⟨?_, hlapic⟩
  rw [redtblWrite_eq, if_neg fun hb => hre (hraised.1 hb)]

theorem recorded_redtblWrite_iff (h : t.Recorded) (self : ℕ) (addr : Word) (r : RedtblReg)
    (value : Word) :
    (t.step route (.redtblWrite self addr r value)).Recorded ↔
      t.RecordGuard route (.redtblWrite self addr r value) := by
  have hmono : ∀ j u, t.raisedBy j u ⊆
      (t.step route (.redtblWrite self addr r value)).raisedBy j u :=
    subset_raisedBy_step fun _ _ => id
  by_cases hre : t.sys.Reraises addr r value
  · obtain ⟨hraised, hlapic, hroute, hdests⟩ := redir_of_reraises hre
    generalize hw : (t.sys.ioapic addr).hwirqOf r.entry = w at hroute hdests
    generalize he : ((t.sys.ioapic addr).redtbl r.entry).storeLo value = e at hroute hdests
    generalize hs : (t.sys.redtblStore addr r value).1 = s at hlapic hroute hdests
    have hstep : ∀ j, (t.step route (.redtblWrite self addr r value)).sys.lapic j =
        if j ∈ s.dests addr w then (t.sys.lapic j).raise (s.redir addr w).vec w true
          ((s.redir addr w).trg && decide ((s.redir addr w).del ≤ 1))
          (if (s.redir addr w).trg then addr else 0)
        else t.sys.lapic j := by
      intro j
      rw [← hlapic, ← lapic_ioapicRaiseIrq, ← hs, ← hw]
      show (t.sys.redtblWrite self addr r value).lapic j = _
      rw [redtblWrite_eq, if_pos hraised]
    have hmem : ∀ j ∈ s.dests addr w, ∀ p,
        p ∈ (t.step route (.redtblWrite self addr r value)).raisedBy j (s.redir addr w).vec ↔
          p ∈ t.raisedBy j e.vec ∨ p = (addr, w) ∧ e.trg = true := by
      intro j hj p
      rw [← hroute.vec, ← hroute.trg]
      refine or_congr (and_iff_left id) ?_
      rw [Op.RaisesLevel, hw, hs]
      refine and_congr_right ?_
      rintro rfl
      exact ⟨fun hl => hl.2.2.1, fun htrg => ⟨hre, hj, htrg, rfl⟩⟩
    rw [recorded_iff_of_raise _ h hmono (vec_lt (s.redir addr w))
      (fun j hj => ⟨t.sys.lapic j, Lapic.SameTables.refl _, (hstep j).trans (if_pos hj)⟩)
      (fun j hj => by rw [hstep j, if_neg hj]; exact Lapic.SameTables.refl _)]
    simp only [RecordGuard, he, hw]
    constructor
    · intro hc _ hv htrg hdel j hj
      have := hc j ((hdests j).2 ⟨hv, hj⟩) (.inr (by simp [hroute.trg, hroute.del, htrg, hdel]))
      rw [hmem j ((hdests j).2 ⟨hv, hj⟩), hroute.trg, hroute.del, hroute.vec] at this
      simpa [htrg, hdel, or_comm] using this
    · intro hg j hj hset
      obtain ⟨hv, hscan⟩ := (hdests j).1 hj
      rw [hmem j hj, hroute.trg, hroute.del, hroute.vec]
      rw [hroute.trg, hroute.del, hroute.vec] at hset
      by_cases hlevel : e.trg = true ∧ e.del ≤ 1
      · have := hg hre hv hlevel.1 hlevel.2 j hscan
        simpa [hlevel, or_comm] using this
      · -- an interrupt that needs no EOI leaves what is recorded
        have hflag : (e.trg && decide (e.del ≤ 1)) = false := by simpa using hlevel
        rw [hflag] at hset ⊢
        simp only [Bool.false_eq_true, or_false, if_false, if_true] at hset ⊢
        exact .inl (h j e.vec (vec_lt e) hset)
  · refine iff_of_true (recorded_of_sameTables h hmono fun j => ?_) fun hre' => absurd hre' hre
    obtain ⟨heq, hlapic⟩ := lapic_redtblWrite_of_not_reraises (s := t.sys) self hre
    have hstep : (t.step route (.redtblWrite self addr r value)).sys.lapic = t.sys.lapic := by
      rw [← hlapic, ← heq]
      rfl
    rw [hstep]
    exact Lapic.SameTables.refl _

/-! #### Interrupt commands -/

theorem raiseAll_of_vector_le {v : ℕ} (hv : v ≤ 15) (irq : Word) (reraise fromEoi : Bool)
    (fromIoapic : Word) (ds : List ℕ) :
    s.raiseAll self v irq reraise fromEoi fromIoapic ds = s := by
  induction ds with
  | nil => rfl
  | cons d ds ih =>
    have hnone : s.raiseVector self d v irq reraise fromEoi fromIoapic = s := if_neg (not_lt.2 hv)
    rw [raiseAll, List.foldl_cons, hnone]
    exact ih

theorem lapic_writeIntrCmdlo (self : ℕ) (value : Word) (j : ℕ) :
    (s.writeIntrCmdlo self value).lapic j =
      if j ∈ s.ipiDests self value then
        ((s.stored self value).lapic j).raise (Icr.vector value) 256 false false 0
      else (s.stored self value).lapic j := by
  obtain ⟨hvector, hmode, -, -⟩ := fields_copyFields (s.lapic self) value
  have hown : (s.stored self value).lapic self = (s.lapic self).copyFields 0xc0 0xccfff value :=
    setLapic_lapic_self ..
  have hstored : s.setLapic self ((s.lapic self).copyFields 0xc0 0xccfff value) =
      s.stored self value := rfl
  have hnr : (s.stored self value).nrVcpus = s.nrVcpus := rfl
  unfold writeIntrCmdlo ipiDests
  simp only [hstored, hown, hmode, hvector, hnr]
  generalize (s.stored self value).destIdMask self _ _ = mask
  have hfold := raiseAt_eq_raiseAll self (Icr.vector value) (s.stored self value) (scan mask)
  rw [raiseAt] at hfold
  by_cases hc : mask < 1#32 <<< s.nrVcpus ∧ Icr.deliveryMode value = 0
  · rw [if_neg (BitVec.not_le.2 hc.1), hfold]
    by_cases hv : 15 < Icr.vector value
    · simp only [hc, hv, and_self, if_true]
      exact lapic_raiseAll _ _ _ _ _ _ hv ((nodup_scan mask).filter _) j
    · rw [raiseAll_of_vector_le _ (not_lt.1 hv)]
      simp [hv]
  · grind

theorem sameTables_stored (self : ℕ) (value : Word) (j : ℕ) :
    (s.lapic j).SameTables ((s.stored self value).lapic j) := fun u hu =>
  ⟨testRr_stored s self value j .tmr hu, raw_stored s self value (.inr (by omega)),
    raw_stored s self value (.inr (by omega))⟩

theorem recorded_writeIntrCmdlo_iff (h : t.Recorded) (hinv : t.Inv route) (self : ℕ)
    (value : Word) :
    (t.step route (.write self value 0x300)).Recorded ↔
      t.RecordGuard route (.write self value 0x300) := by
  have hretire : ∀ j u, ¬ Op.Retires t.sys j u (.write self value 0x300) := fun _ _ hr =>
    absurd hr.1 (by decide)
  have hstep := fun j => lapic_writeIntrCmdlo t.sys self value j
  -- no interrupt has the number that is recorded for an interrupt command
  have hnone : ∀ j u a,
      (a, (256 : Word)) ∉ (t.step route (.write self value 0x300)).raisedBy j u := by
    rintro j u a (⟨hp, -⟩ | hl)
    · obtain ⟨ha, hroute⟩ := hinv.routed j u _ hp
      exact absurd (route.lt 256 (by rw [show route.ioapic 256 = a from hroute]; exact ha))
        (by decide)
    · exact hl
  rw [recorded_iff_of_raise _ h (subset_raisedBy_step hretire) (Icr.vector_lt value)
    (fun j hj => ⟨_, sameTables_stored t.sys self value j, (hstep j).trans (if_pos hj)⟩)
    (fun j hj => by
      have hj' : (t.step route (.write self value 0x300)).sys.lapic j = _ :=
        (hstep j).trans (if_neg hj)
      rw [hj']
      exact sameTables_stored t.sys self value j)]
  constructor
  · intro hc _ j hj
    by_contra hset
    exact hnone _ _ _ (hc j hj (.inl (by simpa using hset)))
  · intro hg j hj hset
    rw [hg rfl j hj] at hset
    simp at hset

/-! #### End of interrupt -/

structure EoiDone (s s' : Apics) (addr irq : Word) : Prop where
  lapic : s'.lapic = s.lapic
  others : ∀ a w, ¬ (a = addr ∧ w = irq) → s'.redir a w = s.redir a w
  irr : (s'.redir addr irq).irr = false
  pnd : (s'.redir addr irq).pnd = true → (s.redir addr irq).pnd = true
  msk : (s'.redir addr irq).msk = (s.redir addr irq).msk

theorem redir_of_setLo_self {s s' : Apics} {addr irq lo : Word}
    (h : s'.ioapic = (s.setIoapic addr ((s.ioapic addr).setLo irq lo)).ioapic) :
    s'.redir addr irq = { s.redir addr irq with lo := lo } := by
  have hredir : s'.redir addr irq =
      (s.setIoapic addr ((s.ioapic addr).setLo irq lo)).redir addr irq := by rw [redir, redir, h]
  rw [hredir, setIoapic_setLo, redir_setEntry, if_pos ⟨rfl, rfl⟩]

theorem eoiDone_ioapicEoi (self : ℕ) (addr irq : Word)
    (hpnd : (s.redir addr irq).pnd = true → (s.redir addr irq).msk = true) :
    EoiDone s (s.ioapicEoi self addr irq) addr irq := by
  have hentry : (s.ioapic addr).redir irq = s.redir addr irq := rfl
  unfold ioapicEoi
  dsimp only
  rw [hentry]
  split_ifs with h14 h17
  · -- the entry is masked, so raising the interrupt again marks it pending again
    generalize ht : ((s.setIoapic addr _).unmaskHwirq irq.toNat).setIoapic addr _ = t
    have hioapic : t.ioapic = (s.setIoapic addr ((s.ioapic addr).setLo irq
        (erase (erase (s.redir addr irq).lo 14) 17))).ioapic := by
      rw [← ht]
      funext b
      by_cases hb : b = addr <;> simp [setIoapic, hb]
    have hlapic : t.lapic = s.lapic := by rw [← ht]; simp
    have hself := redir_of_setLo_self hioapic
    have hmsk : (t.redir addr irq).msk = true := by
      rw [hself]
      simpa [msk] using hpnd h17
    have hdests : t.dests addr irq = [] := if_neg fun hc => by simp [hmsk] at hc
    have hraise := redir_ioapicRaiseIrq t self addr irq addr irq true
    refine ⟨?_, fun a w hne => ?_, ?_, fun _ => h17, ?_⟩
    · funext j
      rw [lapic_ioapicRaiseIrq, hdests, if_neg List.not_mem_nil, hlapic]
    · rw [redir_ioapicRaiseIrq, if_neg fun hc => hne hc.1]
      exact redir_of_setLo addr irq hioapic hne
    · rw [hraise, levelBit, if_pos hmsk, hself]
      split_ifs <;> simp [irr]
    · rw [hraise]
      split_ifs <;> simp_all [msk]
  · have hioapic : ((s.setIoapic addr ((s.ioapic addr).setLo irq
        (erase (s.redir addr irq).lo 14))).unmaskHwirq irq.toNat).ioapic =
        (s.setIoapic addr ((s.ioapic addr).setLo irq
          (erase (s.redir addr irq).lo 14))).ioapic := unmaskHwirq_ioapic ..
    have hself := redir_of_setLo_self hioapic
    refine ⟨by simp, fun a w hne => redir_of_setLo addr irq hioapic hne, ?_, ?_, ?_⟩ <;>
      simp [hself, irr, pnd, msk]
  · exact ⟨rfl, fun _ _ _ => rfl, by simpa [irr] using h14, id, rfl⟩

theorem writeEoi_spec (self : ℕ)
    (hpnd : ∀ a w, (s.redir a w).pnd = true → (s.redir a w).msk = true)
    (hv : 15 < (s.lapic self).msbRr .isr ∧
      (s.lapic self).testRr .isr ((s.lapic self).msbRr .isr) = true) :
    let l := s.lapic self
    let v := l.msbRr .isr
    ∃ s₂ : Apics, s₂.ioapic = s.ioapic ∧
      s₂.lapic = update s.lapic self ((l.bitClearRr v .isr).bitClearRr v .tmr) ∧
      (l.testRr .tmr v = true ∧ l.getIoapic v ≠ 0 →
        EoiDone s₂ (s.writeEoi self) (l.getIoapic v) (l.getPin v)) ∧
      (¬ (l.testRr .tmr v = true ∧ l.getIoapic v ≠ 0) → s.writeEoi self = s₂) := by
  intro l v
  obtain ⟨htmr, hio, hpin⟩ := l.sameTables_bitClearRr (l.msbRr_lt .isr) (r := .isr) (by decide)
    v (l.msbRr_lt .isr)
  generalize hs₂ : (s.retireSummary self (l.bitClearRr v .isr) v).setLapic self
    ((l.bitClearRr v .isr).bitClearRr v .tmr) = s₂
  have hwrite : s.writeEoi self = s₂.notifyIoapic self (l.bitClearRr v .isr) v := by
    rw [← hs₂]
    exact if_pos hv
  have hioapic : s₂.ioapic = s.ioapic := by
    rw [← hs₂, retireSummary]
    split_ifs <;> rfl
  have hlapic : s₂.lapic = update s.lapic self
      ((l.bitClearRr v .isr).bitClearRr v .tmr) := by
    rw [← hs₂, setLapic, retireSummary]
    split_ifs <;> rfl
  rw [notifyIoapic, htmr, hio, hpin] at hwrite
  refine ⟨s₂, hioapic, hlapic, fun hlevel => ?_, fun hlevel => ?_⟩
  · rw [hwrite, if_pos hlevel]
    refine eoiDone_ioapicEoi s₂ self _ _ ?_
    rw [redir, hioapic]
    exact hpnd _ _
  · rw [hwrite, if_neg hlevel]

theorem lapic_writeEoi {s : Apics}
    (hpnd : ∀ a w, (s.redir a w).pnd = true → (s.redir a w).msk = true)
    (hv : 15 < (s.lapic self).msbRr .isr ∧
      (s.lapic self).testRr .isr ((s.lapic self).msbRr .isr) = true) :
    (s.writeEoi self).lapic = update s.lapic self
      (((s.lapic self).bitClearRr ((s.lapic self).msbRr .isr) .isr).bitClearRr
        ((s.lapic self).msbRr .isr) .tmr) := by
  obtain ⟨s₂, -, hlapic, hdone, hsame⟩ := writeEoi_spec s self hpnd hv
  by_cases hlevel : (s.lapic self).testRr .tmr ((s.lapic self).msbRr .isr) = true ∧
      (s.lapic self).getIoapic ((s.lapic self).msbRr .isr) ≠ 0
  · exact (hdone hlevel).lapic.trans hlapic
  · rw [hsame hlevel, hlapic]

theorem recorded_writeEoi (h : t.Recorded) (hinv : t.Inv route) (self : ℕ) (value : Word) :
    (t.step route (.write self value 0x0b0)).Recorded := by
  have hstep : (t.step route (.write self value 0x0b0)).sys = t.sys.writeEoi self := rfl
  by_cases hv : 15 < (t.sys.lapic self).msbRr .isr ∧
      (t.sys.lapic self).testRr .isr ((t.sys.lapic self).msbRr .isr) = true
  · have hlapic := lapic_writeEoi (fun a w hp => (hinv.pending a w hp).1) hv
    have hvlt := (t.sys.lapic self).msbRr_lt .isr
    intro j u hu hm
    rw [hstep, hlapic] at hm ⊢
    by_cases hj : j = self
    · subst hj
      obtain ⟨htmr, hio, hpin⟩ :=
        (t.sys.lapic j).sameTables_bitClearRr hvlt (r := .isr) (by decide) u hu
      have hkeep : ∀ k, 0x100 ≤ k →
          (((t.sys.lapic j).bitClearRr ((t.sys.lapic j).msbRr .isr) .isr).bitClearRr
            ((t.sys.lapic j).msbRr .isr) .tmr).raw k =
          ((t.sys.lapic j).bitClearRr ((t.sys.lapic j).msbRr .isr) .isr).raw k :=
        fun k hk => Lapic.raw_bitClearRr _ _ hvlt (by omega)
      rw [update_self, Lapic.testRr_bitClearRr _ _ _ hvlt hu, htmr] at hm
      have hne : u ≠ (t.sys.lapic j).msbRr .isr := by
        rintro rfl
        simp at hm
      rw [update_self, Lapic.getIoapic, Lapic.getPin, hkeep _ (by omega),
        hkeep _ (by omega)]
      refine .inl ⟨?_, fun hr => hne hr.2.2.1⟩
      have hold := h j u hu (by simpa [Ne.symm hne] using hm)
      rwa [← hio, ← hpin] at hold
    · rw [update_of_ne hj] at hm ⊢
      exact .inl ⟨h j u hu hm, fun hr => hj hr.2.1⟩
  · have hsame : (t.step route (.write self value 0x0b0)).sys.lapic = t.sys.lapic := by
      rw [hstep, show t.sys.writeEoi self = t.sys from if_neg hv]
    refine recorded_of_sameTables h (subset_raisedBy_step ?_) fun j => ?_
    · rintro j u ⟨-, -, rfl, h15, hset⟩
      exact hv ⟨h15, hset⟩
    · rw [hsame]
      exact Lapic.SameTables.refl _

/-! #### The other operations -/

theorem sameTables_setLapic {l : Lapic} (h : (s.lapic self).SameTables l) (j : ℕ) :
    (s.lapic j).SameTables ((s.setLapic self l).lapic j) := by
  by_cases hj : j = self
  · rwa [hj, setLapic_lapic_self]
  · rw [setLapic_lapic_of_ne _ _ hj]
    exact .refl _

section
variable (self : ℕ) (value : Word) {reg : ℕ} (heoi : reg ≠ 0x0b0) (hipi : reg ≠ 0x300)
include heoi hipi

theorem write_eq_setLapic : s.write self value reg = s ∨
      ∃ l, (s.lapic self).SameTables l ∧ s.write self value reg = s.setLapic self l := by
  have hcopy : ∀ {k : ℕ} (mask : Word), k < 0x40 ∨ 0xa0 ≤ k ∧ k < 0x100 →
      (s.lapic self).SameTables ((s.lapic self).copyFields k mask value) :=
    fun _ hk => (s.lapic self).sameTables_setRaw hk _
  unfold write
  split
  case h_3 => exact absurd rfl heoi
  case h_10 => exact absurd rfl hipi
  case h_4 =>
    -- the spurious vector register also enables the local APIC
    refine .inr ⟨_, ?_, rfl⟩
    split_ifs
    · exact (hcopy _ (by decide)).trans (Lapic.sameTables_setRaw _ (by decide) _)
    · exact hcopy _ (by decide)
  case h_12 => exact .inr ⟨_, (s.lapic self).sameTables_setRaw (by decide) value, rfl⟩
  case h_14 => exact .inl rfl
  all_goals exact .inr ⟨_, hcopy _ (by decide), rfl⟩

theorem sameTables_write (j : ℕ) : (s.lapic j).SameTables ((s.write self value reg).lapic j) := by
  grind [write_eq_setLapic, Lapic.SameTables.refl, sameTables_setLapic]

end

theorem sameTables_pendingVector (self j : ℕ) :
    (s.lapic j).SameTables ((s.pendingVector self).2.lapic j) := by
  unfold pendingVector askLapic
  split
  · exact Lapic.SameTables.refl _
  · split
    · grind [sameTables_setLapic, Lapic.sameTables_pendingVector, Lapic.SameTables.refl]
    · split_ifs <;> exact Lapic.SameTables.refl _

theorem lapic_reraiseVector (self vector j : ℕ) :
    (s.reraiseVector self vector).lapic j =
      if j = self ∧ 15 < vector then (s.lapic j).raise vector 0 true false 0 else s.lapic j := by
  have hraise : (s.reraiseVector self vector).lapic =
      (s.raiseVector self self vector 0 true false 0).lapic := by
    unfold reraiseVector
    dsimp only
    split_ifs <;> rfl
  rw [hraise, raiseVector]
  split_ifs with hv hj <;> simp_all [setLapic, setCpu]

theorem recorded_reraiseVector (h : t.Recorded) (self : ℕ) {vector : ℕ} (hlt : vector < 256) :
    (t.step route (.reraiseVector self vector)).Recorded := by
  have hstep := fun j => lapic_reraiseVector t.sys self vector j
  have hmono : ∀ j u, t.raisedBy j u ⊆
      (t.step route (.reraiseVector self vector)).raisedBy j u :=
    subset_raisedBy_step fun _ _ => id
  refine (recorded_iff_of_raise (if 15 < vector then [self] else []) h hmono hlt
    (fun j hj => ⟨t.sys.lapic j, Lapic.SameTables.refl _, (hstep j).trans (if_pos ?_)⟩)
    fun j hj => ?_).2 fun j _ hset => hmono j _ (h j _ hlt (by simpa using hset))
  · simp_all
  · have hj' : (t.step route (.reraiseVector self vector)).sys.lapic j = _ :=
      (hstep j).trans (if_neg ?_)
    · rw [hj']
      exact Lapic.SameTables.refl _
    · rintro ⟨rfl, hv⟩
      rw [if_pos hv] at hj
      exact hj (List.mem_singleton.2 rfl)

theorem recorded_step_iff (h : t.Recorded) (hinv : t.Inv route) (hop : FromIoapic route op) :
    (t.step route op).Recorded ↔ t.RecordGuard route op := by
  cases op with
  | raiseIrq self irq => exact recorded_raiseIrq_iff h hop.1 hop.2
  | redtblWrite self addr r value => exact recorded_redtblWrite_iff h self addr r value
  | write self value reg =>
    by_cases hipi : reg = 0x300
    · simp_all [recorded_writeIntrCmdlo_iff]
    · refine iff_of_true ?_ fun hreg => absurd hreg hipi
      by_cases heoi : reg = 0x0b0
      · simp_all [recorded_writeEoi]
      · exact recorded_of_sameTables h (subset_raisedBy_step fun _ _ hr => heoi hr.1)
          (sameTables_write t.sys self value heoi hipi)
  | pendingVector self =>
    exact iff_of_true (recorded_of_sameTables h (subset_raisedBy_step fun _ _ => id)
      (sameTables_pendingVector t.sys self)) trivial
  | reraiseVector self vector => exact iff_of_true (recorded_reraiseVector h self hop) trivial

theorem pnd_ioapicRaiseIrq {s : Apics} {addr irq a w : Word} {reraise : Bool}
    (h : ((s.ioapicRaiseIrq self addr irq reraise).redir a w).pnd = true) :
    ((s.ioapicRaiseIrq self addr irq reraise).redir a w).msk = (s.redir a w).msk ∧
      ((s.redir a w).pnd = true ∨ (a = addr ∧ w = irq) ∧ (s.redir a w).msk = true) := by
  rw [redir_ioapicRaiseIrq] at h ⊢
  split_ifs at h ⊢ with hc
  · cases hm : (s.redir a w).msk <;> simp_all [levelBit, pnd, msk]
  · exact ⟨rfl, .inl h⟩

theorem Inv.mono (hinv : t.Inv route) (hraised : ∀ j v, t'.raisedBy j v ⊆ t.raisedBy j v)
    (hpnd : ∀ a w, (t'.sys.redir a w).pnd = true →
      (t.sys.redir a w).pnd = true ∧ (t'.sys.redir a w).msk = (t.sys.redir a w).msk) :
    t'.Inv route := by
  refine ⟨fun j v p hp => hinv.routed j v p (hraised j v hp), fun a w hp => ?_⟩
  obtain ⟨hold, hmsk⟩ := hpnd a w hp
  rw [hmsk]
  exact hinv.pending a w hold

theorem raisedBy_step_subset (hop : ∀ p j v, ¬ op.RaisesLevel route t.sys p j v) (j v : ℕ) :
    (t.step route op).raisedBy j v ⊆ t.raisedBy j v := by
  rintro p (⟨hp, -⟩ | hl)
  · exact hp
  · exact absurd hl (hop p j v)

theorem inv_redtblWrite (hinv : t.Inv route) (self : ℕ) (addr : Word) (r : RedtblReg)
    (value : Word) : (t.step route (.redtblWrite self addr r value)).Inv route := by
  obtain ⟨e', hioapic, hstored, -, -, -, -, hraised⟩ := t.sys.redtblStore_spec addr r value
  have hredir : ∀ a w, _ := fun a w => redir_redtblStore (a := a) addr r value w hioapic
  have hentry : (t.sys.ioapic addr).redtbl r.entry =
      t.sys.redir addr ((t.sys.ioapic addr).hwirqOf r.entry) := by
    rw [redir_eq_redtbl, (entry_hwirqOf _ (RedtblReg.entry_lt r) _).2 rfl]
  by_cases hre : t.sys.Reraises addr r value
  · have hstep : (t.step route (.redtblWrite self addr r value)).sys =
        (t.sys.redtblStore addr r value).1.ioapicRaiseIrq self addr
          ((t.sys.ioapic addr).hwirqOf r.entry) true := if_pos (hraised.2 hre)
    have hown := hre.2.2
    rw [hentry] at hown
    constructor
    · rintro j v p (⟨hp, -⟩ | ⟨rfl, -⟩)
      · exact hinv.routed j v p hp
      · exact (hinv.pending _ _ hown).2
    · intro a w hp
      rw [hstep] at hp ⊢
      obtain ⟨hmsk, hpnd⟩ := pnd_ioapicRaiseIrq hp
      rw [hmsk]
      rw [hredir] at hpnd ⊢
      split_ifs at hpnd ⊢ with hself
      · -- the entry has been unmasked and is not pending any more
        obtain ⟨hlower, hunmask, -⟩ := (reraises_iff ..).1 hre
        rw [hstored.pnd, hstored.msk, hraised.2 hre, if_pos hlower, hunmask] at hpnd
        simp at hpnd
      · exact hinv.pending a w (hpnd.resolve_right fun hc => hself hc.1)
  · have hstep : (t.step route (.redtblWrite self addr r value)).sys =
        (t.sys.redtblStore addr r value).1 := (lapic_redtblWrite_of_not_reraises self hre).1
    refine hinv.mono (raisedBy_step_subset fun p j v hl => hre hl.2.1) fun a w hp => ?_
    rw [hstep, hredir] at hp ⊢
    split_ifs at hp ⊢ with hself
    · obtain ⟨rfl, rfl⟩ := hself
      have hold : (t.sys.redir a ((t.sys.ioapic a).hwirqOf r.entry)).pnd = true := by
        simp_all [hstored.pnd]
      have hmsk := (hinv.pending _ _ hold).1
      refine ⟨hold, ?_⟩
      rw [hstored.msk, hentry, hmsk]
      split_ifs with hr
      · by_contra hv
        refine hre ((reraises_iff ..).2 ⟨hr, by simpa using hv, ?_⟩)
        rw [hentry]
        exact ⟨hmsk, hold⟩
      · rfl
    · exact ⟨hp, rfl⟩

theorem inv_writeEoi (hinv : t.Inv route) (self : ℕ) (value : Word) :
    (t.step route (.write self value 0x0b0)).Inv route := by
  have hstep : (t.step route (.write self value 0x0b0)).sys = t.sys.writeEoi self := rfl
  refine hinv.mono (raisedBy_step_subset fun _ _ _ => id) fun a w hp => ?_
  rw [hstep] at hp ⊢
  by_cases hv : 15 < (t.sys.lapic self).msbRr .isr ∧
      (t.sys.lapic self).testRr .isr ((t.sys.lapic self).msbRr .isr) = true
  · obtain ⟨s₂, hioapic, -, hdone, hsame⟩ :=
      writeEoi_spec t.sys self (fun a w hp => (hinv.pending a w hp).1) hv
    have hredir : ∀ a w, s₂.redir a w = t.sys.redir a w := fun a w => by rw [redir, hioapic]; rfl
    by_cases hlevel : (t.sys.lapic self).testRr .tmr ((t.sys.lapic self).msbRr .isr) = true ∧
        (t.sys.lapic self).getIoapic ((t.sys.lapic self).msbRr .isr) ≠ 0
    · have hd := hdone hlevel
      rw [← hredir]
      by_cases hself : a = (t.sys.lapic self).getIoapic ((t.sys.lapic self).msbRr .isr) ∧
          w = (t.sys.lapic self).getPin ((t.sys.lapic self).msbRr .isr)
      · obtain ⟨rfl, rfl⟩ := hself
        exact ⟨hd.pnd hp, hd.msk⟩
      · rw [hd.others a w hself] at hp ⊢
        exact ⟨hp, rfl⟩
    · rw [hsame hlevel, hredir] at hp ⊢
      exact ⟨hp, rfl⟩
  · rw [show t.sys.writeEoi self = t.sys from if_neg hv] at hp ⊢
    exact ⟨hp, rfl⟩

theorem Inv.of_ioapic_eq (hinv : t.Inv route) (hop : ∀ p j v, ¬ op.RaisesLevel route t.sys p j v)
    (hioapic : (t.sys.step route.ioapic op).ioapic = t.sys.ioapic) :
    (t.step route op).Inv route := by
  refine hinv.mono (raisedBy_step_subset hop) fun a w hp => ?_
  have hredir : (t.step route op).sys.redir a w = t.sys.redir a w := by
    rw [redir, step, hioapic]
    rfl
  rw [hredir] at hp ⊢
  exact ⟨hp, rfl⟩

theorem inv_step (hinv : t.Inv route) (hop : FromIoapic route op) :
    (t.step route op).Inv route := by
  cases op with
  | raiseIrq self irq =>
    have hirq : (BitVec.ofNat 32 irq : Word).toNat = irq := by
      have := route.lt irq hop.2
      rw [BitVec.toNat_ofNat]
      omega
    constructor
    · rintro j v p (⟨hp, -⟩ | ⟨rfl, -⟩)
      · exact hinv.routed j v p hp
      · exact ⟨hop.2, by rw [hirq]⟩
    · intro a w hp
      have hioapic : (t.step route (.raiseIrq self irq)).sys.redir a w =
          ((t.sys.setHwirq (t.sys.hwirq.setHwirqMask irq)).ioapicRaiseIrq self (route.ioapic irq)
            (BitVec.ofNat 32 irq) false).redir a w := by
        rw [redir, redir, step, Apics.step, raiseIrq, ioapic_raiseWire, if_neg hop.1, if_pos hop.2]
      rw [hioapic] at hp ⊢
      obtain ⟨hmsk, hpnd⟩ := pnd_ioapicRaiseIrq hp
      rw [hmsk]
      rcases hpnd with hpnd | ⟨⟨rfl, rfl⟩, hm⟩
      · exact hinv.pending a w hpnd
      · exact ⟨hm, hop.2, by rw [hirq]⟩
  | redtblWrite self addr r value => exact inv_redtblWrite hinv self addr r value
  | write self value reg =>
    by_cases heoi : reg = 0x0b0
    · simp_all [inv_writeEoi]
    · exact hinv.of_ioapic_eq (fun _ _ _ => id) (t.sys.write_fields self value heoi).2
  | pendingVector self =>
    exact hinv.of_ioapic_eq (fun _ _ _ => id) (t.sys.pendingVector_fields self).2
  | reraiseVector self vector =>
    exact hinv.of_ioapic_eq (fun _ _ _ => id) (t.sys.reraiseVector_fields self vector).2

def LevelRouted (route : Routing) (t : Tracked) : Prop :=
  ∀ j, ∀ v < 256, (t.sys.lapic j).testRr .tmr v = true →
    let a := (t.sys.lapic j).getIoapic v
    let w := (t.sys.lapic j).getPin v
    a ≠ 0 ∧ route.ioapic w.toNat = a ∧ (a, w) ∈ t.raisedBy j v

theorem levelRouted_iff (hinv : t.Inv route) : t.LevelRouted route ↔ t.Recorded := by
  constructor
  · exact fun h j v hv hm => (h j v hv hm).2.2
  · intro h j v hv hm
    obtain ⟨ha, hroute⟩ := hinv.routed j v _ (h j v hv hm)
    exact ⟨ha, hroute, h j v hv hm⟩

def EoiExact (self : ℕ) : Prop :=
  let l := s.lapic self
  let v := l.msbRr .isr
  15 < v → l.testRr .isr v = true → l.testRr .tmr v = true →
    (l.getPin v).toNat < 256 ∧
      ((s.writeEoi self).redir (l.getIoapic v) (l.getPin v)).irr = false ∧
      ∀ a w, ¬ (a = l.getIoapic v ∧ w = l.getPin v) →
        (s.writeEoi self).redir a w = s.redir a w

theorem eoiExact_of_recorded (h : t.Recorded) (hinv : t.Inv route) (self : ℕ) :
    EoiExact t.sys self := by
  intro hv hisr htmr
  obtain ⟨ha, hroute⟩ := hinv.routed self _ _ (h self _ (Lapic.msbRr_lt _ .isr) htmr)
  obtain ⟨s₂, hioapic, -, hdone, -⟩ :=
    writeEoi_spec t.sys self (fun a w hp => (hinv.pending a w hp).1) ⟨hv, hisr⟩
  have hd := hdone ⟨htmr, ha⟩
  refine ⟨route.lt _ (by rw [hroute]; exact ha), hd.irr, fun a w hne => ?_⟩
  rw [hd.others a w hne, redir, hioapic]
  rfl

theorem sys_run (route : Routing) (t : Tracked) (ops : List Op) :
    (run (step route) t ops).sys = run (Apics.step route.ioapic) t.sys ops := by
  induction ops generalizing t with
  | nil => rfl
  | cons op ops ih => exact ih (t.step route op)

/-- **Where the EOI of a level triggered interrupt goes.** Every run whose steps meet their
condition keeps the recorded pins and IO-APICs right, so that an EOI reaches the entry that raised
the interrupt; a step that does not meet it breaks that. -/
theorem levelRouted_of_guarded_run (route : Routing) (s : Apics) (ops : List Op)
    (htmr : ∀ j, ∀ v < 256, (s.lapic j).testRr .tmr v = false)
    (hpnd : ∀ a w, (s.redir a w).pnd = false)
    (hops : ∀ op ∈ ops, FromIoapic route op)
    (hguard : Runs.Guarded (step route) (RecordGuard route) ⟨s, fun _ _ => ∅⟩ ops) :
    let t := run (step route) ⟨s, fun _ _ => ∅⟩ ops
    t.LevelRouted route ∧ (∀ self, EoiExact t.sys self) ∧
      ∀ op, FromIoapic route op →
        ((t.step route op).LevelRouted route ↔ t.RecordGuard route op) := by
  intro t
  obtain ⟨hrec, hinv⟩ : t.Recorded ∧ t.Inv route := by
    refine run_invariant_of_mem (I := fun t => t.Recorded ∧ t.Inv route)
      (fun t op hop h hg => ⟨(recorded_step_iff h.1 h.2 hop).2 hg, inv_step h.2 hop⟩)
      ⟨fun j v hv hm => ?_, fun j v p hp => absurd hp id, fun a w hp => ?_⟩ hops hguard
    · simp_all
    · simp_all
  refine ⟨(levelRouted_iff hinv).2 hrec, eoiExact_of_recorded hrec hinv, fun op hop => ?_⟩
  rw [levelRouted_iff (inv_step hinv hop), recorded_step_iff hrec hinv hop]

theorem levelRouted_sixtyFive :
    (run (step oneIoapic) ⟨boot 1 0, fun _ _ => ∅⟩
      [.redtblWrite 0 0x1000 lowFive 0x8041, .raiseIrq 0 5, .pendingVector 0]).LevelRouted
        oneIoapic := by
  have hguard : Runs.Guarded (step oneIoapic) (RecordGuard oneIoapic) ⟨boot 1 0, fun _ _ => ∅⟩
      [.redtblWrite 0 0x1000 lowFive 0x8041, .raiseIrq 0 5, .pendingVector 0] := by
    refine ⟨fun hre => ?_, fun j _ => ?_, trivial, trivial⟩
    · exact absurd hre.2.2 (by decide)
    · exact .inl ⟨by decide +kernel, by decide +kernel⟩
  refine (levelRouted_of_guarded_run oneIoapic (boot 1 0) _ ?_ ?_ ?_ hguard).1
  · exact fun j v hv => Lapic.testRr_init _ _ .tmr hv
  · intro a w
    simp [boot, redir, I82093.redir, pnd]
  · intro op hop
    fin_cases hop
    · trivial
    · exact ⟨by decide, by decide⟩
    · trivial

theorem not_levelRouted_sixtyFive :
    ¬ (run (step oneIoapic) ⟨boot 1 0, fun _ _ => ∅⟩
      [.redtblWrite 0 0x1000 lowFive 0x18041, .raiseIrq 0 5,
        .redtblWrite 0 0x1000 lowFive 0x8041]).LevelRouted oneIoapic ∧
    ¬ (run (step oneIoapic) ⟨boot 1 0, fun _ _ => ∅⟩
      [.redtblWrite 0 0x1000 lowFive 0x8041, .raiseIrq 0 5,
        .write 0 0x40041 0x300]).LevelRouted oneIoapic := by
  have hlost : ∀ ops : List Op,
      ((run (Apics.step oneIoapic.ioapic) (boot 1 0) ops).lapic 0).testRr .tmr 65 = true →
      ((run (Apics.step oneIoapic.ioapic) (boot 1 0) ops).lapic 0).getPin 65 = 256 →
      ¬ (run (step oneIoapic) ⟨boot 1 0, fun _ _ => ∅⟩ ops).LevelRouted oneIoapic := by
    intro ops htmr hpin h
    rw [← sys_run oneIoapic ⟨boot 1 0, fun _ _ => ∅⟩] at htmr hpin
    obtain ⟨ha, hroute, -⟩ := h 0 65 (by decide) htmr
    rw [hpin] at hroute
    exact ha hroute.symm
  exact ⟨hlost _ (by decide +kernel) (by decide +kernel),
    hlost _ (by decide +kernel) (by decide +kernel)⟩

end Tracked
end Apics
end Wedge
