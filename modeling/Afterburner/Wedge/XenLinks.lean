import Afterburner.Lib.Runs
import Afterburner.Lib.SatCount
import Mathlib.Data.Fintype.Basic
import Mathlib.Data.List.FinRange

/-!
# Links between page directories and page tables in the Xen wedge

Two bits for every page tell how many entries of pinned page directories point to it: none, one or
several (`link_inc`, `link_dec`).
-/

namespace Wedge
open Function

structure MachPage extends SatCount where
  pgtable : Bool
  pinned : Bool
  deriving DecidableEq, Repr

namespace MachPage
variable (m : MachPage)

def setPgtable : MachPage := { m with pgtable := true }
def setPinned : MachPage := { m with pinned := true }
def setNormal : MachPage := ⟨SatCount.zero, false, false⟩
def linkInc : MachPage := { m with toSatCount := m.toSatCount.inc }
def linkDec : MachPage := { m with toSatCount := m.toSatCount.dec }
def isUnlinked : Bool := m.isZero
def isSingleLink : Bool := m.isOne

end MachPage

structure Pgent (α : Type*) where
  valid : Bool
  machine : Bool
  page : α

namespace Pgent
variable {α : Type*} (e : Pgent α)

def isXenPtabValid : Bool := e.valid || e.machine
def isXenUnlinked : Bool := !e.valid && e.machine
def setXenMachine : Pgent α := { e with machine := true }
def setXenUnlinked : Pgent α := { e with valid := false }
def setXenLinked : Pgent α := { e with valid := true }
def clear : Pgent α := { e with valid := false, machine := false }

end Pgent

structure XenMemory (α : Type*) (w : ℕ) where
  mpage : α → MachPage
  entry : α → Fin w → Pgent α
  dir : α → Bool
  /-- `old_mpage` of a `change_pgent` that has stored the entry -/
  oldMpage : Option α
  halted : Bool

namespace XenMemory
variable {α : Type*} [DecidableEq α] {w : ℕ} (s : XenMemory α w)

def setMpage (p : α) (m : MachPage) : XenMemory α w :=
  { s with mpage := update s.mpage p m }

def setEntry (d : α) (i : Fin w) (e : Pgent α) : XenMemory α w :=
  { s with entry := update s.entry d (update (s.entry d) i e) }

def halt : XenMemory α w := { s with halted := true }

def unlinkOld (old : Pgent α) : XenMemory α w :=
  if old.isXenPtabValid = true ∧ (s.mpage old.page).pinned = true then
    s.setMpage old.page (s.mpage old.page).linkDec
  else s

def pinNew (userPd : ℕ) (s : XenMemory α w) (i : Fin w) (p : α) : XenMemory α w :=
  let s := s.setMpage p (s.mpage p).setPgtable
  if (s.mpage p).pinned = false ∧ userPd ≤ i.val then s.setMpage p (s.mpage p).setPinned else s

def linkNew (d p : α) : XenMemory α w :=
  if (s.mpage d).pinned = true ∧ (s.mpage p).pinned = true then
    s.setMpage p (s.mpage p).linkInc
  else s

def storedPgent (new : Pgent α) : Pgent α :=
  if (s.mpage new.page).pinned then new.setXenMachine else new.setXenMachine.setXenUnlinked

def changePgent (userPd : ℕ) (s : XenMemory α w) (d : α) (i : Fin w) (new : Pgent α) :
    XenMemory α w :=
  let old := s.entry d i
  let s := s.setMpage d (s.mpage d).setPgtable
  if old.isXenPtabValid = true ∧ (s.mpage old.page).pgtable = false then s.halt
  else
    let s := s.unlinkOld old
    let s : XenMemory α w :=
      { s with oldMpage := if old.isXenPtabValid then some old.page else none }
    if new.valid then
      let s := s.pinNew userPd i new.page
      (s.linkNew d new.page).setEntry d i (s.storedPgent new)
    else s.setEntry d i new

def release (p : α) : XenMemory α w :=
  let s : XenMemory α w := { s with oldMpage := none }
  if (s.mpage p).pinned = true ∧ (s.mpage p).isUnlinked = true then
    { s.setMpage p MachPage.setNormal with dir := update s.dir p false }
  else s

def Manageable (e : Pgent α) : Prop :=
  e.valid = true →
    e.machine = true ∧ (s.mpage e.page).pgtable = true ∧ (s.mpage e.page).pinned = true

instance  (e : Pgent α) : Decidable (s.Manageable e) := by
  unfold Manageable
  infer_instance

def managePageDir (d : α) : XenMemory α w :=
  if ∀ i, s.Manageable (s.entry d i) then
    { s.setMpage d (s.mpage d).setPgtable.setPinned with dir := update s.dir d true }
  else s.halt

def unmanagePageDir (d : α) : XenMemory α w :=
  (List.finRange w).foldl (fun s i => s.unlinkOld (s.entry d i)) s

def unpinPage (d : α) : XenMemory α w :=
  if (s.mpage d).isUnlinked then
    { (s.unmanagePageDir d).setMpage d MachPage.setNormal with
      dir := update s.dir d false }
  else s.halt

def relinkPtab (d : α) (i : Fin w) : XenMemory α w :=
  let e := s.entry d i
  if (s.mpage e.page).pgtable then
    let s :=
      if (s.mpage e.page).pinned then s else s.setMpage e.page (s.mpage e.page).setPinned.linkInc
    s.setEntry d i e.setXenLinked
  else s.halt

def enableEntry (d : α) (s : XenMemory α w) (i : Fin w) : XenMemory α w :=
  let e := s.entry d i
  if e.valid then
    let s := s.setEntry d i e.setXenMachine
    let s := s.setMpage e.page (s.mpage e.page).linkInc
    if (s.mpage e.page).pgtable then s else s.setMpage e.page (s.mpage e.page).setPgtable.setPinned
  else s

def enableGuestPaging (d : α) (entries : Fin w → Pgent α) : XenMemory α w :=
  let s : XenMemory α w :=
    { mpage := update (fun _ => MachPage.setNormal) d
        MachPage.setNormal.setPgtable.setPinned
      entry := fun p i => if p = d then entries i else (entries i).clear
      dir := fun p => decide (p = d)
      oldMpage := none
      halted := false }
  (List.finRange w).foldl (enableEntry d) s

inductive Op (α : Type*) (w : ℕ)
  | changePgent (d : α) (i : Fin w) (new : Pgent α)
  | release
  | copyEntry (d src : α) (i : Fin w)
  | clearEntry (d : α) (i : Fin w)
  | switchPageDir (d : α)
  | unpinPage (d : α)
  | relinkPtab (d : α) (i : Fin w)

def exec (userPd : ℕ) (s : XenMemory α w) : Op α w → XenMemory α w
  | .changePgent d i new =>
    if (s.mpage d).pinned = true ∧ s.dir d = false then s else s.changePgent userPd d i new
  | .release => s
  | .copyEntry d src i => if (s.mpage d).pinned then s else s.setEntry d i (s.entry src i)
  | .clearEntry d i => if (s.mpage d).pinned then s else s.setEntry d i (s.entry d i).clear
  | .switchPageDir d => if (s.mpage d).pinned then s else s.managePageDir d
  | .unpinPage d => if s.dir d then s.unpinPage d else s
  | .relinkPtab d i =>
    if s.dir d = true ∧ (s.entry d i).isXenUnlinked = true then s.relinkPtab d i else s

def step (userPd : ℕ) (s : XenMemory α w) (op : Op α w) : XenMemory α w :=
  if s.halted then s
  else
    match s.oldMpage, op with
    | some p, .release => s.release p
    | some _, _ => s
    | none, op => s.exec userPd op

def Links (p : α) : Set (α × Fin w) :=
  {x | s.dir x.1 = true ∧ (s.entry x.1 x.2).valid = true ∧ (s.entry x.1 x.2).page = p}

def LinkState : Prop :=
  ∀ p, (s.mpage p).pinned = true →
    ((s.mpage p).isUnlinked = true → s.Links p = ∅) ∧
      ((s.mpage p).isSingleLink = true → ∃ x, s.Links p = {x})

def Single (p : α) : Prop :=
  (s.mpage p).pinned = true ∧ (s.mpage p).isSingleLink = true

def Changeable (d : α) (i : Fin w) : Prop :=
  (s.entry d i).isXenPtabValid = true →
    (s.entry d i).page = d ∨ (s.mpage (s.entry d i).page).pgtable = true

def ChangeKeeps (userPd : ℕ) (s : XenMemory α w) (d : α) (i : Fin w) (new : Pgent α) : Prop :=
  ((s.entry d i).isXenPtabValid = true → s.Single (s.entry d i).page →
      (s.entry d i).valid = true ∧ s.dir d = true) ∧
    ¬ (new.valid = true ∧ new.page = d ∧ (s.mpage d).pinned = false ∧ userPd ≤ i.val)

def ExecKeeps (userPd : ℕ) (s : XenMemory α w) : Op α w → Prop
  | .changePgent d i new =>
    ((s.mpage d).pinned = true → s.dir d = true) → s.Changeable d i → s.ChangeKeeps userPd d i new
  -- the tables of the new directory have several links already
  | .switchPageDir d =>
    (s.mpage d).pinned = false → (∀ i, s.Manageable (s.entry d i)) →
      ∀ i, (s.entry d i).valid = true → (s.mpage (s.entry d i).page).multi = true
  -- no broken entry takes away the single link that another directory has
  | .unpinPage d =>
    s.dir d = true → (s.mpage d).isUnlinked = true →
      ∀ i, (s.entry d i).isXenPtabValid = true → s.Single (s.entry d i).page →
        ∃ j, (s.entry d j).valid = true ∧ (s.entry d j).page = (s.entry d i).page
  -- a table that is pinned already has several links
  | .relinkPtab d i =>
    s.dir d = true → (s.entry d i).isXenUnlinked = true →
      (s.mpage (s.entry d i).page).pgtable = true →
      (s.mpage (s.entry d i).page).pinned = true → (s.mpage (s.entry d i).page).multi = true
  | _ => True

def ReleaseKeeps (p : α) : Prop :=
  (s.mpage p).pinned = true → (s.mpage p).isUnlinked = true → s.dir p = true →
    ∀ i, (s.entry p i).valid = true → ¬ s.Single (s.entry p i).page

def LinksKept (userPd : ℕ) (s : XenMemory α w) (op : Op α w) : Prop :=
  s.halted = false →
    match s.oldMpage, op with
    | some p, .release => s.ReleaseKeeps p
    | some _, _ => True
    | none, op => s.ExecKeeps userPd op

structure Inv : Prop where
  links : s.LinkState
  clean : ∀ p, (s.mpage p).pinned = false → (s.mpage p).toSatCount = .zero
  target : ∀ p, ∀ x ∈ s.Links p, (s.mpage p).pinned = true
  pinned : ∀ d, s.dir d = true → (s.mpage d).pinned = true

structure InvBut (x : α × Fin w) (s : XenMemory α w) : Prop where
  links : ∀ p, (s.mpage p).pinned = true → (s.mpage p).toSatCount.Counts (s.Links p \ {x})
  clean : ∀ p, (s.mpage p).pinned = false → (s.mpage p).toSatCount = .zero
  target : ∀ p, ∀ y ∈ s.Links p, y ≠ x → (s.mpage p).pinned = true
  pinned : ∀ d, s.dir d = true → (s.mpage d).pinned = true

section Basics
variable {s} {t : XenMemory α w} {d p q : α} {i : Fin w} {e : Pgent α} {x : α × Fin w}
variable (m : MachPage)

@[simp, grind =] theorem mpage_setMpage :
    (s.setMpage p m).mpage q = if q = p then m else s.mpage q := update_apply ..

@[simp, grind =] theorem entry_setMpage : (s.setMpage p m).entry q = s.entry q := rfl
@[simp, grind =] theorem dir_setMpage : (s.setMpage p m).dir q = s.dir q := rfl
@[simp, grind =] theorem mpage_setEntry : (s.setEntry d i e).mpage q = s.mpage q := rfl
@[simp, grind =] theorem dir_setEntry : (s.setEntry d i e).dir q = s.dir q := rfl

@[grind =] theorem entry_setEntry {j : Fin w} :
    (s.setEntry d i e).entry q j = if q = d ∧ j = i then e else s.entry q j := by
  by_cases hq : q = d
  · by_cases hj : j = i <;> simp [setEntry, hq, hj]
  · simp [setEntry, hq]

omit [DecidableEq α] in
@[grind =] theorem mem_links : x ∈ s.Links p ↔
    s.dir x.1 = true ∧ (s.entry x.1 x.2).valid = true ∧ (s.entry x.1 x.2).page = p := Iff.rfl

omit [DecidableEq α] in
theorem Inv.counts (h : s.Inv) (hp : (s.mpage p).pinned = true) :
    (s.mpage p).toSatCount.Counts (s.Links p) := h.links p hp

omit [DecidableEq α] in
theorem links_congr (hentry : t.entry = s.entry) (hdir : t.dir = s.dir) : t.Links = s.Links := by
  funext p
  unfold Links
  rw [hentry, hdir]

theorem mem_links_setEntry : x ∈ (s.setEntry d i e).Links p ↔
    (x = (d, i) ∧ s.dir d = true ∧ e.valid = true ∧ e.page = p) ∨ (x ≠ (d, i) ∧ x ∈ s.Links p) := by
  grind

theorem links_setEntry_of_not (h : ¬ (s.dir d = true ∧ e.valid = true ∧ e.page = p)) :
    (s.setEntry d i e).Links p = s.Links p \ {(d, i)} := by
  ext x
  grind

theorem links_setEntry_of_link (hd : s.dir d = true) (hv : e.valid = true) (hp : e.page = p) :
    (s.setEntry d i e).Links p = insert (d, i) (s.Links p \ {(d, i)}) := by
  ext x
  grind

omit [DecidableEq α] in
theorem Inv.of_mpage (h : s.Inv) (hentry : t.entry = s.entry) (hdir : t.dir = s.dir)
    (hpinned : ∀ q, (t.mpage q).pinned = (s.mpage q).pinned)
    (hbits : ∀ q, (t.mpage q).toSatCount = (s.mpage q).toSatCount) : t.Inv := by
  have hlinks := links_congr hentry hdir
  refine ⟨fun q hq => ?_, ?_, ?_, ?_⟩
  · have hcounts := h.counts (p := q) (by rw [← hpinned, hq])
    rwa [← hbits, ← hlinks] at hcounts
  · simpa only [hpinned, hbits] using h.clean
  · simpa only [hlinks, hpinned] using h.target
  · simpa only [hdir, hpinned] using h.pinned

theorem Inv.setPgtable (h : s.Inv) (d : α) : (s.setMpage d (s.mpage d).setPgtable).Inv :=
  h.of_mpage rfl rfl (by grind [MachPage.setPgtable]) (by grind [MachPage.setPgtable])

theorem Inv.setEntry_of_not_dir (h : s.Inv) (hd : s.dir d = false) (e : Pgent α) :
    (s.setEntry d i e).Inv := by
  have hlinks : (s.setEntry d i e).Links = s.Links := by
    funext q
    ext x
    grind [mem_links_setEntry]
  refine ⟨?_, h.clean, ?_, h.pinned⟩
  · rw [LinkState, hlinks]
    exact h.links
  · rw [hlinks]
    exact h.target

omit [DecidableEq α] in
theorem Inv.dir_eq_false (h : s.Inv) (hd : (s.mpage d).pinned = false) : s.dir d = false := by
  grind [h.pinned d]

omit [DecidableEq α] in
theorem Inv.links_eq_empty (h : s.Inv) (hp : (s.mpage p).pinned = false) : s.Links p = ∅ := by
  grind [h.target p]

end Basics
section Change
variable {s} {d p : α} {i : Fin w} {new : Pgent α} {x : α × Fin w} {userPd : ℕ}
variable (old : Pgent α)

@[simp, grind =] theorem pinned_unlinkOld (q : α) :
    ((s.unlinkOld old).mpage q).pinned = (s.mpage q).pinned := by
  grind [unlinkOld, MachPage.linkDec]

@[grind =] theorem toSatCount_unlinkOld (q : α) :
    ((s.unlinkOld old).mpage q).toSatCount =
      if q = old.page ∧ old.isXenPtabValid = true ∧ (s.mpage q).pinned = true then
        (s.mpage q).toSatCount.dec
      else (s.mpage q).toSatCount := by
  grind [unlinkOld, MachPage.linkDec]

@[simp] theorem entry_unlinkOld : (s.unlinkOld old).entry = s.entry := by
  unfold unlinkOld
  split_ifs <;> rfl

@[simp] theorem dir_unlinkOld : (s.unlinkOld old).dir = s.dir := by
  unfold unlinkOld
  split_ifs <;> rfl

@[simp] theorem links_unlinkOld : (s.unlinkOld old).Links = s.Links :=
  links_congr (entry_unlinkOld old) (dir_unlinkOld old)

theorem Inv.unlinkOld (h : s.Inv)
    (hkeep : (s.entry d i).isXenPtabValid = true → s.Single (s.entry d i).page →
      (s.entry d i).valid = true ∧ s.dir d = true) :
    InvBut (d, i) (s.unlinkOld (s.entry d i)) := by
  refine ⟨fun q hq => ?_, ?_, ?_, ?_⟩
  · rw [pinned_unlinkOld] at hq
    rw [links_unlinkOld, toSatCount_unlinkOld]
    by_cases hmem : (d, i) ∈ s.Links q
    · -- the entry is a link, so it is counted and the count goes down
      rw [if_pos ⟨hmem.2.2.symm, by simp [Pgent.isXenPtabValid, hmem.2.1], hq⟩]
      exact (h.counts hq).dec hmem
    · rw [Set.sdiff_singleton_eq_self hmem]
      split_ifs with hdec
      · -- the count goes down although the entry is no link, but not from one
        obtain ⟨rfl, hptab, -⟩ := hdec
        refine (h.counts hq).dec_of_not_isOne (Bool.eq_false_iff.2 fun hone => hmem ?_)
        obtain ⟨hvalid, hdir⟩ := hkeep hptab ⟨hq, hone⟩
        exact ⟨hdir, hvalid, rfl⟩
      · exact h.counts hq
  · grind [h.clean]
  · simp only [links_unlinkOld, pinned_unlinkOld]
    exact fun q y hy _ => h.target q y hy
  · simpa using h.pinned

@[simp] theorem dir_pinNew : (s.pinNew userPd i p).dir = s.dir := by
  unfold pinNew
  dsimp only
  split_ifs <;> rfl

@[simp] theorem links_pinNew : (s.pinNew userPd i p).Links = s.Links := by
  unfold pinNew
  dsimp only
  split_ifs <;> rfl

variable (q : α)

@[simp, grind =] theorem toSatCount_pinNew :
    ((s.pinNew userPd i p).mpage q).toSatCount = (s.mpage q).toSatCount := by
  grind [pinNew, MachPage.setPgtable, MachPage.setPinned]

@[grind =] theorem pinned_pinNew : ((s.pinNew userPd i p).mpage q).pinned = true ↔
    (s.mpage q).pinned = true ∨ q = p ∧ userPd ≤ i.val := by
  grind [pinNew, MachPage.setPgtable, MachPage.setPinned]

theorem InvBut.pinNew (h : InvBut x s) : InvBut x (s.pinNew userPd i p) := by
  refine ⟨fun q hq => ?_, ?_, ?_, ?_⟩
  · rw [toSatCount_pinNew, links_pinNew]
    cases hold : (s.mpage q).pinned with
    | true => exact h.links q hold
    | false =>
      have hempty : s.Links q \ {x} = ∅ := by
        rw [Set.eq_empty_iff_forall_notMem]
        rintro y ⟨hy, hyx⟩
        rw [h.target q y hy hyx] at hold
        cases hold
      rw [h.clean q hold, hempty]
      exact SatCount.counts_zero_iff.2 rfl
  · grind [h.clean]
  · rw [links_pinNew]
    grind [h.target]
  · rw [dir_pinNew]
    grind [h.pinned]

theorem InvBut.setEntry (h : InvBut (d, i) s) {e : Pgent α}
    (hno : ¬ (s.dir d = true ∧ e.valid = true)) : (s.setEntry d i e).Inv := by
  have hlinks : ∀ q, (s.setEntry d i e).Links q = s.Links q \ {(d, i)} := fun q =>
    links_setEntry_of_not fun h' => hno ⟨h'.1, h'.2.1⟩
  refine ⟨fun q hq => ?_, h.clean, fun q y hy => ?_, h.pinned⟩
  · rw [hlinks]
    exact h.links q hq
  · rw [hlinks] at hy
    exact h.target q y hy.1 hy.2

@[simp] theorem links_linkNew : (s.linkNew d p).Links = s.Links := by
  unfold linkNew
  split_ifs <;> rfl

@[simp] theorem dir_linkNew : (s.linkNew d p).dir = s.dir := by
  unfold linkNew
  split_ifs <;> rfl

@[simp, grind =] theorem pinned_linkNew :
    ((s.linkNew d p).mpage q).pinned = (s.mpage q).pinned := by
  grind [linkNew, MachPage.linkInc]

@[grind =] theorem toSatCount_linkNew : ((s.linkNew d p).mpage q).toSatCount =
    if q = p ∧ (s.mpage d).pinned = true ∧ (s.mpage p).pinned = true then
      (s.mpage q).toSatCount.inc
    else (s.mpage q).toSatCount := by
  grind [linkNew, MachPage.linkInc]

omit [DecidableEq α] in
theorem valid_storedPgent (hv : new.valid = true) :
    (s.storedPgent new).valid = true ↔ (s.mpage new.page).pinned = true := by
  grind [storedPgent, Pgent.setXenMachine, Pgent.setXenUnlinked]

omit [DecidableEq α] in
theorem page_storedPgent : (s.storedPgent new).page = new.page := by
  unfold storedPgent
  split_ifs <;> rfl

theorem InvBut.linkNew (h : InvBut (d, i) s) (hd : (s.mpage d).pinned = true → s.dir d = true)
    (hv : new.valid = true) :
    ((s.linkNew d new.page).setEntry d i (s.storedPgent new)).Inv := by
  have hvalid := valid_storedPgent (s := s) hv
  have hpage : (s.storedPgent new).page = new.page := page_storedPgent
  refine ⟨fun q hq => ?_, ?_, ?_, ?_⟩
  · have hcounts := h.links q (by simpa using hq)
    change ((s.linkNew d new.page).mpage q).toSatCount.Counts _
    rw [toSatCount_linkNew]
    split_ifs with hlink
    · obtain ⟨rfl, hpd, hpq⟩ := hlink
      rw [links_setEntry_of_link (by rw [dir_linkNew, hd hpd]) (hvalid.2 hpq) hpage, links_linkNew]
      exact hcounts.inc fun hx => hx.2 rfl
    · rw [links_setEntry_of_not, links_linkNew]
      · exact hcounts
      · rintro ⟨hdir, hv', hq'⟩
        rw [dir_linkNew] at hdir
        exact hlink ⟨hq'.symm.trans hpage, h.pinned d hdir, hvalid.1 hv'⟩
  · grind [h.clean]
  · intro q y hy
    rw [mem_links_setEntry, links_linkNew] at hy
    grind [h.target]
  · simpa using h.pinned

def detached (s : XenMemory α w) (d : α) (i : Fin w) : XenMemory α w :=
  { (s.setMpage d (s.mpage d).setPgtable).unlinkOld (s.entry d i) with
    oldMpage := if (s.entry d i).isXenPtabValid then some (s.entry d i).page else none }

theorem changeable_iff : s.Changeable d i ↔
    ¬ ((s.entry d i).isXenPtabValid = true ∧
      ((s.setMpage d (s.mpage d).setPgtable).mpage (s.entry d i).page).pgtable = false) := by
  grind [Changeable, MachPage.setPgtable]

theorem changePgent_of_valid (ha : s.Changeable d i) (hv : new.valid = true) :
    s.changePgent userPd d i new =
      (((s.detached d i).pinNew userPd i new.page).linkNew d new.page).setEntry d i
        (((s.detached d i).pinNew userPd i new.page).storedPgent new) := by
  unfold changePgent
  rw [if_neg (changeable_iff.1 ha), if_pos hv]
  rfl

theorem changePgent_of_invalid (ha : s.Changeable d i) (hv : new.valid = false) :
    s.changePgent userPd d i new = (s.detached d i).setEntry d i new := by
  unfold changePgent
  rw [if_neg (changeable_iff.1 ha), if_neg (by rw [hv]; exact Bool.false_ne_true)]
  rfl

theorem mpage_detached : (s.detached d i).mpage q =
    ((s.setMpage d (s.mpage d).setPgtable).unlinkOld (s.entry d i)).mpage q := rfl

@[simp, grind =] theorem pinned_detached :
    ((s.detached d i).mpage q).pinned = (s.mpage q).pinned := by
  grind [mpage_detached, MachPage.setPgtable]

@[grind =] theorem toSatCount_detached : ((s.detached d i).mpage q).toSatCount =
    if q = (s.entry d i).page ∧ (s.entry d i).isXenPtabValid = true ∧
      (s.mpage q).pinned = true then (s.mpage q).toSatCount.dec
    else (s.mpage q).toSatCount := by
  grind [mpage_detached, MachPage.setPgtable]

@[simp] theorem links_detached : (s.detached d i).Links = s.Links :=
  links_unlinkOld (s := s.setMpage d (s.mpage d).setPgtable) (s.entry d i)

@[simp] theorem dir_detached : (s.detached d i).dir = s.dir :=
  dir_unlinkOld (s := s.setMpage d (s.mpage d).setPgtable) (s.entry d i)

theorem Inv.detached (h : s.Inv)
    (hkeep : (s.entry d i).isXenPtabValid = true → s.Single (s.entry d i).page →
      (s.entry d i).valid = true ∧ s.dir d = true) : InvBut (d, i) (s.detached d i) := by
  have hbut := (h.setPgtable d).unlinkOld (d := d) (i := i) fun hv hsingle => hkeep hv (by
    grind [Single, MachPage.isSingleLink, MachPage.setPgtable])
  exact ⟨hbut.links, hbut.clean, hbut.target, hbut.pinned⟩

theorem Inv.changePgent (h : s.Inv) (hd : (s.mpage d).pinned = true → s.dir d = true)
    (ha : s.Changeable d i) (hk : s.ChangeKeeps userPd d i new) :
    (s.changePgent userPd d i new).Inv := by
  have hbut := h.detached hk.1
  cases hv : new.valid with
  | true =>
    rw [changePgent_of_valid ha hv]
    refine hbut.pinNew.linkNew (fun hp => ?_) hv
    rw [dir_pinNew, dir_detached]
    -- the directory is not the table that has just been pinned
    have hnot := hk.2
    grind
  | false =>
    rw [changePgent_of_invalid ha hv]
    exact hbut.setEntry fun h' => by
      rw [hv] at h'
      cases h'.2

theorem mem_links_changePgent (ha : s.Changeable d i) {y : α × Fin w} (hy : y ∈ s.Links p)
    (hne : y ≠ (d, i)) : y ∈ (s.changePgent userPd d i new).Links p := by
  cases hv : new.valid with
  | true =>
    rw [changePgent_of_valid ha hv, mem_links_setEntry, links_linkNew, links_pinNew, links_detached]
    exact Or.inr ⟨hne, hy⟩
  | false => simp_all [changePgent_of_invalid, mem_links_setEntry, links_detached]

theorem pinned_changePgent (ha : s.Changeable d i) (hp : (s.mpage p).pinned = true) :
    ((s.changePgent userPd d i new).mpage p).pinned = true := by
  cases hv : new.valid with
  | true => grind [changePgent_of_valid ha hv]
  | false => grind [changePgent_of_invalid ha hv]

variable (userPd new) in
theorem toSatCount_changePgent (hd : (s.mpage d).pinned = true → s.dir d = true)
    (ha : s.Changeable d i) (hptab : (s.entry d i).isXenPtabValid = true)
    (hp : (s.mpage (s.entry d i).page).pinned = true) :
    ((s.changePgent userPd d i new).mpage (s.entry d i).page).toSatCount =
        (s.mpage (s.entry d i).page).toSatCount.dec ∨
      ((s.changePgent userPd d i new).mpage (s.entry d i).page).toSatCount =
          (s.mpage (s.entry d i).page).toSatCount.dec.inc ∧
        (d, i) ∈ (s.changePgent userPd d i new).Links (s.entry d i).page := by
  cases hv : new.valid with
  | false => simp_all [changePgent_of_invalid, mpage_setEntry, toSatCount_detached]
  | true =>
    have hdec := toSatCount_detached (s := s) (d := d) (i := i) (s.entry d i).page
    rw [if_pos ⟨rfl, hptab, hp⟩] at hdec
    rw [changePgent_of_valid ha hv, mem_links_setEntry, mpage_setEntry, toSatCount_linkNew,
      toSatCount_pinNew, hdec, dir_linkNew, dir_pinNew, dir_detached, page_storedPgent,
      valid_storedPgent hv]
    split_ifs with hlink
    · refine Or.inr ⟨rfl, Or.inl ⟨rfl, hd ?_, hlink.2.2, hlink.1.symm⟩⟩
      grind
    · exact Or.inl rfl

theorem Inv.changeKeeps (h : s.Inv) (hd : (s.mpage d).pinned = true → s.dir d = true)
    (ha : s.Changeable d i) (hP : (s.changePgent userPd d i new).LinkState) :
    s.ChangeKeeps userPd d i new := by
  constructor
  · intro hptab hsingle
    by_contra hno
    obtain ⟨y, hy⟩ := (h.counts hsingle.1).2 hsingle.2
    have hmem : y ∈ s.Links (s.entry d i).page := by simp [hy]
    have hne : y ≠ (d, i) := fun hne => by
      rw [hne] at hmem
      exact hno ⟨hmem.2.1, hmem.1⟩
    have hmem' : y ∈ (s.changePgent userPd d i new).Links (s.entry d i).page :=
      mem_links_changePgent ha hmem hne
    have hcounts : ((s.changePgent userPd d i new).mpage (s.entry d i).page).toSatCount.Counts
        ((s.changePgent userPd d i new).Links (s.entry d i).page) :=
      hP _ (pinned_changePgent ha hsingle.1)
    rcases toSatCount_changePgent new userPd hd ha hptab hsingle.1 with hbits | ⟨hbits, hx⟩
    · rw [hbits] at hcounts
      exact SatCount.not_counts_dec hsingle.2 hmem' hcounts
    · rw [hbits] at hcounts
      exact hne (SatCount.eq_of_counts_dec_inc hsingle.2 hcounts hmem' hx)
  · rintro ⟨hv, hpage, hp, hi⟩
    have hlinks : (s.changePgent userPd d i new).Links d = ∅ := by
      rw [changePgent_of_valid ha hv, links_setEntry_of_not, links_linkNew, links_pinNew,
        links_detached, h.links_eq_empty hp, Set.empty_sdiff]
      simp [h.dir_eq_false hp]
    have hpinned : ((s.changePgent userPd d i new).mpage d).pinned = true := by
      grind [changePgent_of_valid ha hv]
    have hbits : ((s.changePgent userPd d i new).mpage d).toSatCount = SatCount.zero.inc := by
      have hclean := h.clean d hp
      grind [changePgent_of_valid ha hv]
    obtain ⟨x, hx⟩ := (hP d hpinned).2 (by
      rw [MachPage.isSingleLink, hbits]
      rfl)
    rw [hlinks] at hx
    exact Set.singleton_ne_empty x hx.symm

end Change
end XenMemory
end Wedge
