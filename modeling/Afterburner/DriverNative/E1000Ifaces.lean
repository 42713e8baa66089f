import Mathlib
import Afterburner.Lib.Bits
import Afterburner.Lib.Runs

/-!
# The interface list and the receive addresses of the native E1000 driver

`NetIface::activate` lists an interface and gives it a receive address slot, `deactivate` undoes
both.
-/

namespace DriverNative.Ifaces
open Function List Runs Bits

abbrev Word := BitVec 32

structure Driver (ι : Type) where
  next : ι → Option ι
  active : ι → Bool
  lanAddrSlot : ι → ℕ
  ifaceList : Option ι
  ifaceCnt : BitVec 16
  lanAddrBitmap : Word
  promiscuousAt : Option Word

def bsf (w u : Word) : ℕ := if w = 0 then u.toNat else lsb w
def rarEntries : ℕ := 16

namespace Driver
variable {ι : Type} [DecidableEq ι] [Fintype ι]

def init (slots : ι → ℕ) : Driver ι := ⟨fun _ => none, fun _ => false, slots, none, 0, 0, none⟩

def enableLanAddr (s : Driver ι) (i : ι) (u : Word) : Driver ι :=
  let slot := bsf s.lanAddrBitmap u
  if slot ≥ rarEntries ∨ s.lanAddrBitmap = ~~~ 0 then
    { s with
      promiscuousAt := some s.lanAddrBitmap
      lanAddrSlot := update s.lanAddrSlot i rarEntries }
  else
    { s with
      lanAddrBitmap := insert s.lanAddrBitmap slot
      lanAddrSlot := update s.lanAddrSlot i slot }

def addIface (s : Driver ι) (i : ι) (u : Word) : Driver ι :=
  if s.active i = false then s
  else
    enableLanAddr { s with
      next := update s.next i s.ifaceList
      ifaceList := some i
      ifaceCnt := s.ifaceCnt + 1 } i u

def activate (s : Driver ι) (i : ι) (u : Word) : Driver ι :=
  addIface { s with active := update s.active i true } i u

def hunt (next : ι → Option ι) (i : ι) : ℕ → ι → Option (Option ι)
  | 0, _ => none
  | n + 1, last =>
    match next last with
    | none => some none
    | some search => if search = i then some (some last) else hunt next i n search

def freeSlot (s : Driver ι) (i : ι) : Driver ι :=
  { s with
    ifaceCnt := s.ifaceCnt - 1
    lanAddrBitmap :=
      if s.lanAddrSlot i < rarEntries then erase s.lanAddrBitmap (s.lanAddrSlot i)
      else s.lanAddrBitmap }

def removeIface (s : Driver ι) (i : ι) : Option (Driver ι) :=
  if s.ifaceList = some i then some (freeSlot { s with ifaceList := s.next i } i)
  else
    match s.ifaceList with
    | none => some s
    | some first =>
      (hunt s.next i (Fintype.card ι) first).map fun
        | none => s
        | some last =>
          let next := update s.next last (s.next i)
          freeSlot { s with next := update next i none } i

def deactivate (s : Driver ι) (i : ι) : Option (Driver ι) :=
  (s.removeIface i).map fun s => { s with active := update s.active i false }

end Driver

inductive Call (ι : Type)
  | activate (i : ι) (u : Word)
  | deactivate (i : ι)

section
variable {ι : Type}

def IsList (next : ι → Option ι) : Option ι → List ι → Prop
  | head, [] => head = none
  | head, i :: l => head = some i ∧ IsList next (next i) l

structure Lists (s : Driver ι) (l : List ι) : Prop where
  list : IsList s.next s.ifaceList l
  nodup : l.Nodup
  mem : ∀ i, i ∈ l ↔ s.active i = true
  cnt : s.ifaceCnt.toNat = l.length
  distinct : ∀ i ∈ l, ∀ j ∈ l, s.lanAddrSlot i = s.lanAddrSlot j → s.lanAddrSlot i < rarEntries →
    i = j
  bits : ∀ b, s.lanAddrBitmap.getLsbD b = true ↔ b < rarEntries ∧ ∃ i ∈ l, s.lanAddrSlot i = b
  promiscuous : ∀ w, s.promiscuousAt = some w → ∀ b < rarEntries, w.getLsbD b = true

def Sound (s : Option (Driver ι)) : Prop := ∃ d l, s = some d ∧ Lists d l

def Allowed (s : Option (Driver ι)) : Call ι → Prop
  | .activate _ u => s.bind Driver.ifaceList = none ∧ u.toNat < rarEntries
  | .deactivate _ => True

variable {s : Driver ι} {l : List ι} {i : ι} {u : Word}

theorem Lists.bitmap_ne_zero (h : Lists s l) (hslot : ∀ i ∈ l, s.lanAddrSlot i < rarEntries)
    {first : ι} (hfirst : s.ifaceList = some first) : s.lanAddrBitmap ≠ 0 := by
  cases l with
  | nil => exact absurd (hfirst.symm.trans h.list) (by simp)
  | cons j l =>
    have hj := hslot j mem_cons_self
    exact (ne_zero_iff _).2 ⟨_, (h.bits _).2 ⟨hj, j, mem_cons_self, rfl⟩⟩

theorem Lists.bsf (h : Lists s l) (hne : s.lanAddrBitmap ≠ 0) :
    bsf s.lanAddrBitmap u < rarEntries ∧ s.lanAddrBitmap ≠ ~~~ 0 ∧
      ∃ j ∈ l, s.lanAddrSlot j = bsf s.lanAddrBitmap u := by
  have hbit := (h.bits _).1 (getLsbD_lsb hne)
  rw [Ifaces.bsf, if_neg hne]
  refine ⟨hbit.1, fun hall => ?_, hbit.2⟩
  exact absurd ((h.bits 16).1 (by rw [hall]; decide)).1 (by decide)

theorem Lists.eq_nil (h : Lists s l) (hnone : s.ifaceList = none) : l = [] := by
  cases l with
  | nil => rfl
  | cons j l => exact absurd (hnone.symm.trans h.list.1) (by simp)

theorem Lists.bitmap_nil (h : Lists s []) : s.lanAddrBitmap = 0 :=
  (eq_zero_iff _).2 fun b => by simpa using h.bits b

variable [DecidableEq ι]

theorem not_sound_activate (h : Lists s l) (hslot : ∀ i ∈ l, s.lanAddrSlot i < rarEntries)
    {first : ι} (hfirst : s.ifaceList = some first) : ¬ Sound (some (s.activate i u)) := by
  have hne := h.bitmap_ne_zero hslot hfirst
  obtain ⟨hlt, hall, j, hj, hslotj⟩ := h.bsf (u := u) hne
  rintro ⟨d, l', hd, h'⟩
  obtain rfl := Option.some.inj hd
  simp only [Driver.activate, Driver.addIface, update_self, Bool.true_eq_false, if_false,
    Driver.enableLanAddr, not_le.2 hlt, hall, or_self] at h'
  have hmem : ∀ k, k ∈ l' ↔ k = i ∨ k ∈ l := fun k => by
    rw [h'.mem k, h.mem k]
    by_cases hk : k = i <;> simp [hk]
  by_cases hji : j = i
  · -- the members are the same as before, but the count has changed
    have hsame : l'.length = l.length := by
      refine (List.Perm.length_eq ((perm_ext_iff_of_nodup h'.nodup h.nodup).2 fun k => ?_))
      rw [hmem, or_iff_right_of_imp]
      rintro rfl
      exact hji ▸ hj
    have hcnt : s.ifaceCnt + 1 = s.ifaceCnt :=
      BitVec.eq_of_toNat_eq (h'.cnt.trans (hsame.trans h.cnt.symm))
    exact absurd hcnt (by simp)
  · refine hji (h'.distinct j ((hmem j).2 (.inr hj)) i ((hmem i).2 (.inl rfl)) ?_ ?_)
    · simp [hji, hslotj]
    · simpa [hji, hslotj] using hlt

theorem lists_activate (h : Lists s []) (hu : u.toNat < rarEntries) :
    Lists (s.activate i u) [i] ∧ (s.activate i u).lanAddrSlot i < rarEntries := by
  have hzero := h.bitmap_nil
  have hbsf : bsf s.lanAddrBitmap u = u.toNat := by simp [bsf, hzero]
  have heq : s.activate i u = { s with
      active := update s.active i true
      next := update s.next i s.ifaceList
      ifaceList := some i
      ifaceCnt := s.ifaceCnt + 1
      lanAddrBitmap := insert s.lanAddrBitmap u.toNat
      lanAddrSlot := update s.lanAddrSlot i u.toNat } := by
    have hall : s.lanAddrBitmap ≠ ~~~ 0 := by rw [hzero]; decide
    simp only [Driver.activate, Driver.addIface, update_self, Bool.true_eq_false, if_false,
      Driver.enableLanAddr, hbsf, not_le.2 hu, hall, or_self]
  rw [heq]
  refine ⟨⟨?_, nodup_singleton i, fun k => ?_, ?_, ?_, fun b => ?_, h.promiscuous⟩, by simpa⟩
  · simpa [IsList] using h.list
  · have hk := h.mem k
    by_cases hki : k = i <;> simp_all
  · have hcnt := h.cnt
    simp_all [BitVec.toNat_add]
  · simp
  · have hu' : u.toNat < 32 := hu.trans (by decide)
    simp only [hzero, getLsbD_insert, mem_singleton, exists_eq_left, update_self]
    simp only [BitVec.ofNat_eq_ofNat, BitVec.getLsbD_zero, hu', decide_true, Bool.true_and,
      Bool.false_or, decide_eq_true_eq]
    exact ⟨fun hb => ⟨hb ▸ hu, hb⟩, And.right⟩

theorem sound_activate_iff (h : Lists s l) (hslot : ∀ i ∈ l, s.lanAddrSlot i < rarEntries) :
    Sound (some (s.activate i u)) ↔ Allowed (some s) (.activate i u) := by
  cases hlist : s.ifaceList with
  | some first =>
    exact iff_of_false (not_sound_activate h hslot hlist) fun ha => by simp_all [Allowed]
  | none =>
    obtain rfl := h.eq_nil hlist
    refine ⟨fun hs => ⟨hlist, ?_⟩, fun ha => ⟨_, _, rfl, (lists_activate h ha.2).1⟩⟩
    by_contra hu
    obtain ⟨d, l', hd, h'⟩ := hs
    obtain rfl := Option.some.inj hd
    have hbit := h'.promiscuous 0 (by
      simp [Driver.activate, Driver.addIface, Driver.enableLanAddr, bsf, h.bitmap_nil,
        not_lt.1 hu]) 0 (by decide)
    exact absurd hbit (by decide)

variable [Fintype ι]

def step (s : Option (Driver ι)) : Call ι → Option (Driver ι)
  | .activate i u => s.map fun s => s.activate i u
  | .deactivate i => s.bind fun s => s.deactivate i

def Alone (s : Option (Driver ι)) : Prop :=
  ∃ d l, s = some d ∧ Lists d l ∧ l.length ≤ 1 ∧ ∀ i ∈ l, d.lanAddrSlot i < rarEntries

theorem Alone.deactivate {o : Option (Driver ι)} (h : Alone o) (i : ι) :
    Alone (step o (.deactivate i)) := by
  obtain ⟨s, l, rfl, h, hone, hslot⟩ := h
  match l, hone with
  | [], _ =>
    have hlist : s.ifaceList = none := h.list
    refine ⟨{ s with active := update s.active i false }, [], ?_,
      ⟨h.list, h.nodup, ?_, h.cnt,
      h.distinct, h.bits, h.promiscuous⟩, Nat.zero_le 1, hslot⟩
    · simp [step, Driver.deactivate, Driver.removeIface, hlist]
    · intro k
      have hk := h.mem k
      simp_all [update_apply]
  | [j], _ =>
    obtain ⟨hlist, hnext⟩ := h.list
    have hj := hslot j mem_cons_self
    by_cases hij : i = j
    · subst hij
      refine ⟨{ (Driver.freeSlot { s with ifaceList := s.next i } i) with
        active := update s.active i false }, [], ?_,
          ⟨hnext, nodup_nil, fun k => ?_, ?_,
          by simp, fun b => ?_, h.promiscuous⟩, Nat.zero_le 1, by simp⟩
      · simp [step, Driver.deactivate, Driver.removeIface, hlist, Driver.freeSlot]
      · have hk := h.mem k
        by_cases hki : k = i <;> simp_all
      · have hcnt : s.ifaceCnt = 1 := BitVec.eq_of_toNat_eq h.cnt
        simp [Driver.freeSlot, hcnt]
      · have hb := h.bits b
        simp only [Driver.freeSlot, hj, if_true, getLsbD_erase]
        simp_all
    · have : Nonempty ι := ⟨j⟩
      obtain ⟨n, hn⟩ := Nat.exists_eq_succ_of_ne_zero (Fintype.card_ne_zero (α := ι))
      refine ⟨{ s with active := update s.active i false }, [j], ?_, ⟨h.list, h.nodup,
        fun k => ?_, h.cnt, h.distinct, h.bits, h.promiscuous⟩, Nat.le_refl 1, hslot⟩
      · have hnone : s.next j = none := hnext
        simp [step, Driver.deactivate, Driver.removeIface, hlist, Ne.symm hij, hn, Driver.hunt,
          hnone]
      · have hk := h.mem k
        by_cases hki : k = i <;> simp_all

/-- **The interface list and the address slots are right** after all calls exactly when no interface
is started while another one is listed and `bsf` leaves a slot number for the empty bitmap. -/
theorem sound_iff_allowed (slots : ι → ℕ) (calls : List (Call ι)) :
    (∀ pre, pre <+: calls → Sound (run step (some (Driver.init slots)) pre)) ↔
      Runs.Guarded step Allowed (some (Driver.init slots)) calls := by
  have hinit : Lists (Driver.init slots) [] := by
    constructor <;> simp [Driver.init, IsList]
  rw [forall_prefix_iff, and_iff_right ⟨_, _, rfl, hinit⟩]
  refine guarded_congr (A := fun _ => True) (I := Alone) (fun o c _ h hs => ?_)
    (fun o c _ h => ?_) ⟨_, _, rfl, hinit, Nat.zero_le 1, by simp⟩ fun _ _ => trivial
  · cases c with
    | deactivate i => exact h.deactivate i
    | activate i u =>
      obtain ⟨s, l, rfl, h, -, hslot⟩ := h
      have ha := (sound_activate_iff h hslot).1 hs
      obtain rfl := h.eq_nil ha.1
      obtain ⟨hl, hi⟩ := lists_activate h ha.2 (i := i)
      exact ⟨_, _, rfl, hl, Nat.le_refl 1, by simpa using hi⟩
  · cases c with
    | deactivate i =>
      obtain ⟨d, l, hd, hl, -⟩ := h.deactivate i
      exact iff_of_true ⟨d, l, hd, hl⟩ trivial
    | activate i u =>
      obtain ⟨s, l, rfl, h, -, hslot⟩ := h
      exact sound_activate_iff h hslot

theorem not_sound_second :
    ¬ Sound (run step (some (Driver.init fun _ : Bool => 0))
      [.activate false 3, .activate true 3]) := by
  rintro ⟨d, l, hd, h⟩
  obtain rfl := Option.some.inj hd
  refine absurd (h.distinct false ((h.mem false).2 (by decide)) true ((h.mem true).2 (by decide))
    (by decide) (by decide)) (by decide)

end
end DriverNative.Ifaces
