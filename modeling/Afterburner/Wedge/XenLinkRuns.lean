import Afterburner.Wedge.XenLinks

/-!
# Runs of the Xen wedge's page directories

The operations on page directories other than updates of entries, and what holds over whole runs.
-/

namespace Wedge
open Function List MachPage SatCount
namespace XenMemory
open Runs
variable {α : Type*} [DecidableEq α] {w : ℕ}

section Unpinned
variable {s t : XenMemory α w} {d p q : α} {i : Fin w} {x : α × Fin w}

theorem mem_links_of_unpinned (hentry : t.entry = s.entry)
    (hdir : t.dir = update s.dir d false) :
    x ∈ t.Links p ↔ x ∈ s.Links p ∧ x.1 ≠ d := by
  rw [mem_links, hdir]
  grind

theorem mem_links_of_pinned (hentry : t.entry = s.entry)
    (hdir : t.dir = update s.dir d true) :
    x ∈ t.Links p ↔ x ∈ s.Links p ∨
      (x.1 = d ∧ (s.entry d x.2).valid = true ∧ (s.entry d x.2).page = p) := by
  rw [mem_links, hdir]
  grind

theorem Inv.unpinned (h : s.Inv) (hp : (s.mpage d).pinned = true)
    (hun : (s.mpage d).isUnlinked = true) (hentry : t.entry = s.entry)
    (hdir : t.dir = update s.dir d false) (hmpage : t.mpage d = setNormal)
    (hpinned : ∀ q, q ≠ d → (t.mpage q).pinned = (s.mpage q).pinned)
    (hclean : ∀ q, q ≠ d → (s.mpage q).pinned = false →
      (t.mpage q).toSatCount = (s.mpage q).toSatCount)
    (hP : t.LinkState) : t.Inv := by
  have hempty : s.Links d = ∅ := (h.counts hp).1 hun
  refine ⟨hP, fun q hq => ?_, fun q x hx => ?_, fun q hq => ?_⟩
  · by_cases hqd : q = d
    · rw [hqd, hmpage]
      rfl
    · rw [hpinned q hqd] at hq
      rw [hclean q hqd hq]
      exact h.clean q hq
  · rw [mem_links_of_unpinned hentry hdir] at hx
    have hqd : q ≠ d := by
      rintro rfl
      rw [hempty] at hx
      exact hx.1
    rw [hpinned q hqd]
    exact h.target q x hx.1
  · rw [hdir] at hq
    grind [h.pinned]

theorem counts_of_unpinned (h : s.Inv) (hentry : t.entry = s.entry)
    (hdir : t.dir = update s.dir d false) (hq : (s.mpage q).pinned = true)
    (hkeep : s.Single q → ∀ x ∈ s.Links q, x.1 ≠ d) :
    (s.mpage q).toSatCount.Counts (t.Links q) := by
  have hsub : t.Links q ⊆ s.Links q := fun x hx => ((mem_links_of_unpinned hentry hdir).1 hx).1
  refine ⟨fun hzero => ?_, fun hone => ?_⟩
  · exact Set.subset_eq_empty hsub ((h.counts hq).1 hzero)
  · have hsame : t.Links q = s.Links q := by
      refine hsub.antisymm fun x hx => ?_
      exact (mem_links_of_unpinned hentry hdir).2 ⟨hx, hkeep ⟨hq, hone⟩ x hx⟩
    rw [hsame]
    exact (h.counts hq).2 hone

section Release
variable (hp : (s.mpage p).pinned = true ∧ (s.mpage p).isUnlinked = true)

include hp

theorem release_eq : s.release p =
    { s.setMpage p setNormal with
      oldMpage := none, dir := update s.dir p false } := by
  unfold release
  rw [if_pos hp]
  rfl

theorem dir_release : (s.release p).dir = update s.dir p false := by
  rw [release_eq hp]

theorem entry_release : (s.release p).entry = s.entry := by
  rw [release_eq hp]
  rfl

theorem mpage_release :
    (s.release p).mpage q = if q = p then setNormal else s.mpage q := by
  rw [release_eq hp]
  exact mpage_setMpage _

theorem Inv.linkState_release_iff (h : s.Inv) : (s.release p).LinkState ↔ s.ReleaseKeeps p := by
  constructor
  · rintro hP - - hdir i hvalid hsingle
    have hne : (s.entry p i).page ≠ p := fun hne => by
      rw [hne] at hsingle
      exact not_isZero_of_isOne hsingle.2 hp.2
    have hmem : (p, i) ∈ s.Links (s.entry p i).page := ⟨hdir, hvalid, rfl⟩
    obtain ⟨y, hy⟩ := (h.counts hsingle.1).2 hsingle.2
    have hP' := hP (s.entry p i).page
    rw [mpage_release hp, if_neg hne] at hP'
    obtain ⟨z, hz⟩ := (hP' hsingle.1).2 hsingle.2
    have hzmem := (Set.ext_iff.1 hz z).2 rfl
    rw [mem_links_of_unpinned (entry_release hp) (dir_release hp), hy] at hzmem
    rw [hy] at hmem
    obtain rfl : z = y := hzmem.1
    obtain rfl : (p, i) = z := hmem
    exact hzmem.2 rfl
  · intro hk q hq
    rw [mpage_release hp] at hq ⊢
    split_ifs at hq ⊢ with hqp
    · cases hq
    · refine counts_of_unpinned h (entry_release hp) (dir_release hp) hq fun hsingle x hx hxp => ?_
      obtain ⟨hdir, hvalid, hpage⟩ := hx
      rw [hxp] at hdir hvalid hpage
      rw [← hpage] at hsingle
      exact hk hp.1 hp.2 hdir x.2 hvalid hsingle

end Release

def HoldsIff (t : XenMemory α w) (P : Prop) : Prop := (t.LinkState ↔ P) ∧ (t.LinkState → t.Inv)

omit [DecidableEq α] in
theorem Inv.holdsIff {P : Prop} (h : t.Inv) (hP : P) : t.HoldsIff P :=
  ⟨iff_of_true h.links hP, fun _ => h⟩

omit [DecidableEq α] in
theorem HoldsIff.imp {P C : Prop} (h : t.HoldsIff P) (hC : C) : t.HoldsIff (C → P) :=
  ⟨h.1.trans ⟨fun hP _ => hP, fun hP => hP hC⟩, h.2⟩

omit [DecidableEq α] in
theorem Inv.halt (h : s.Inv) : s.halt.Inv := ⟨h.links, h.clean, h.target, h.pinned⟩

theorem Inv.release_iff (h : s.Inv) (p : α) : (s.release p).HoldsIff (s.ReleaseKeeps p) := by
  by_cases hp : (s.mpage p).pinned = true ∧ (s.mpage p).isUnlinked = true
  · refine ⟨h.linkState_release_iff hp, fun hP => ?_⟩
    refine h.unpinned hp.1 hp.2 (entry_release hp) (dir_release hp) ?_ (fun q hq => ?_)
      (fun q hq _ => ?_) hP
    · rw [mpage_release hp, if_pos rfl]
    · rw [mpage_release hp, if_neg hq]
    · rw [mpage_release hp, if_neg hq]
  · have heq : s.release p = { s with oldMpage := none } := by
      unfold release
      rw [if_neg hp]
    rw [heq]
    have hinv : ({ s with oldMpage := none } : XenMemory α w).Inv :=
      ⟨h.links, h.clean, h.target, h.pinned⟩
    exact hinv.holdsIff fun h1 h2 => absurd ⟨h1, h2⟩ hp

end Unpinned

section Manage
variable {s : XenMemory α w} {d q : α} {i : Fin w} {x : α × Fin w}

omit [DecidableEq α] in
theorem page_ne_of_manageable (hd : (s.mpage d).pinned = false)
    (hi : s.Manageable (s.entry d i)) (hv : (s.entry d i).valid = true) :
    (s.entry d i).page ≠ d := by
  intro hpage
  have hpinned := (hi hv).2.2
  rw [hpage, hd] at hpinned
  cases hpinned

variable (hm : ∀ i, s.Manageable (s.entry d i))

include hm

theorem managePageDir_eq : s.managePageDir d =
    { s.setMpage d (s.mpage d).setPgtable.setPinned with
      dir := update s.dir d true } := if_pos hm

theorem dir_managePageDir : (s.managePageDir d).dir = update s.dir d true := by
  rw [managePageDir_eq hm]

theorem mpage_managePageDir : (s.managePageDir d).mpage q =
    if q = d then (s.mpage d).setPgtable.setPinned else s.mpage q := by
  rw [managePageDir_eq hm]
  exact mpage_setMpage _

theorem mem_links_managePageDir : x ∈ (s.managePageDir d).Links q ↔ x ∈ s.Links q ∨
    (x.1 = d ∧ (s.entry d x.2).valid = true ∧ (s.entry d x.2).page = q) :=
  mem_links_of_pinned (by rw [managePageDir_eq hm]; rfl) (dir_managePageDir hm)

theorem Inv.links_managePageDir_self (h : s.Inv) (hd : (s.mpage d).pinned = false) :
    (s.managePageDir d).Links d = ∅ := by
  rw [Set.eq_empty_iff_forall_notMem]
  intro x hx
  rcases (mem_links_managePageDir hm).1 hx with hx | ⟨-, hv, hpage⟩
  · rw [h.links_eq_empty hd] at hx
    exact hx
  · exact page_ne_of_manageable hd (hm x.2) hv hpage

theorem Inv.linkState_managePageDir_iff (h : s.Inv) (hd : (s.mpage d).pinned = false) :
    (s.managePageDir d).LinkState ↔
      ∀ i, (s.entry d i).valid = true → (s.mpage (s.entry d i).page).multi = true := by
  constructor
  · intro hP i hv
    have hpinned := (hm i hv).2.2
    have hcounts := hP (s.entry d i).page
    rw [mpage_managePageDir hm, if_neg (page_ne_of_manageable hd (hm i) hv)] at hcounts
    -- the entry is a link that was none before
    refine (h.counts hpinned).multi_of_mem (hcounts hpinned) (x := (d, i)) (fun x hx => ?_) ?_ ?_
    · exact (mem_links_managePageDir hm).2 (Or.inl hx)
    · exact (mem_links_managePageDir hm).2 (Or.inr ⟨rfl, hv, rfl⟩)
    · grind [h.dir_eq_false hd]
  · intro hmulti q hq
    rw [mpage_managePageDir hm] at hq ⊢
    split_ifs at hq ⊢ with hqd
    · have hcounts : ((s.mpage d).toSatCount).Counts ((s.managePageDir d).Links d) := by
        rw [h.links_managePageDir_self hm hd, h.clean d hd]
        exact counts_zero_iff.2 rfl
      rw [hqd]
      exact hcounts
    · by_cases hnew : ∃ i, (s.entry d i).valid = true ∧ (s.entry d i).page = q
      · obtain ⟨i, hv, rfl⟩ := hnew
        exact counts_of_multi (hmulti i hv) _
      · have hsame : (s.managePageDir d).Links q = s.Links q := by
          ext x
          rw [mem_links_managePageDir hm]
          exact or_iff_left fun hx => hnew ⟨x.2, hx.2⟩
        rw [hsame]
        exact h.counts hq

theorem Inv.managePageDir (h : s.Inv)
    (hP : (s.managePageDir d).LinkState) : (s.managePageDir d).Inv := by
  have hmpage := fun q => mpage_managePageDir (q := q) hm
  refine ⟨hP, ?_, fun q x hx => ?_, fun q hq => ?_⟩
  · grind [setPinned, h.clean]
  · have htarget : (s.mpage q).pinned = true := by
      rcases (mem_links_managePageDir hm).1 hx with hx | ⟨-, hv, rfl⟩
      · exact h.target q x hx
      · exact (hm x.2 hv).2.2
    grind [setPinned]
  · rw [dir_managePageDir hm] at hq
    grind [setPinned, h.pinned]

omit hm in
theorem Inv.managePageDir_iff (h : s.Inv) (hd : (s.mpage d).pinned = false) :
    (s.managePageDir d).HoldsIff ((∀ i, s.Manageable (s.entry d i)) →
      ∀ i, (s.entry d i).valid = true → (s.mpage (s.entry d i).page).multi = true) := by
  by_cases hm : ∀ i, s.Manageable (s.entry d i)
  · exact HoldsIff.imp ⟨h.linkState_managePageDir_iff hm hd, h.managePageDir hm⟩ hm
  · have heq : s.managePageDir d = s.halt := if_neg hm
    rw [heq]
    exact h.halt.holdsIff fun hm' => absurd hm' hm

end Manage

section Unmanage
variable {s : XenMemory α w} {d q : α}

def unmanaged (d : α) (s : XenMemory α w) (is : List (Fin w)) : XenMemory α w :=
  run (fun s i => s.unlinkOld (s.entry d i)) s is

theorem unmanaged_cons (i : Fin w) (is : List (Fin w)) :
    s.unmanaged d (i :: is) = (s.unlinkOld (s.entry d i)).unmanaged d is := rfl

variable (is : List (Fin w))

theorem entry_unmanaged : (s.unmanaged d is).entry = s.entry := by
  induction is generalizing s with
  | nil => rfl
  | cons i is ih => rw [unmanaged_cons, ih, entry_unlinkOld]

theorem pinned_unmanaged : ((s.unmanaged d is).mpage q).pinned = (s.mpage q).pinned := by
  induction is generalizing s with
  | nil => rfl
  | cons i is ih => rw [unmanaged_cons, ih, pinned_unlinkOld]

def Enters (s : XenMemory α w) (d : α) (is : List (Fin w)) (q : α) : Prop :=
  ∃ i ∈ is, (s.entry d i).isXenPtabValid = true ∧ (s.entry d i).page = q

open Classical in
theorem toSatCount_unmanaged :
    ((s.unmanaged d is).mpage q).toSatCount =
      if s.Enters d is q ∧ (s.mpage q).pinned = true then (s.mpage q).toSatCount.dec
      else (s.mpage q).toSatCount := by
  induction is generalizing s with
  | nil => exact (if_neg fun h => by obtain ⟨⟨i, hi, -⟩, -⟩ := h; cases hi).symm
  | cons j is ih =>
    have hdec : ∀ b : SatCount, b.dec.dec = b.dec := fun b => rfl
    have henters : s.Enters d (j :: is) q ↔
        (s.entry d j).isXenPtabValid = true ∧ (s.entry d j).page = q ∨ s.Enters d is q := by
      simp [Enters]
    have hrest : (s.unlinkOld (s.entry d j)).Enters d is q ↔ s.Enters d is q := by
      rw [Enters, entry_unlinkOld, Enters]
    rw [unmanaged_cons]
    grind

section Unpin
variable (hun : (s.mpage d).isUnlinked = true)

include hun

theorem unpinPage_eq : s.unpinPage d =
    { (s.unmanaged d (finRange w)).setMpage d setNormal with
      dir := update s.dir d false } := if_pos hun

theorem entry_unpinPage : (s.unpinPage d).entry = s.entry := by
  rw [unpinPage_eq hun]
  exact entry_unmanaged _

theorem dir_unpinPage : (s.unpinPage d).dir = update s.dir d false := by
  rw [unpinPage_eq hun]

theorem mpage_unpinPage : (s.unpinPage d).mpage q =
    if q = d then setNormal else (s.unmanaged d (finRange w)).mpage q := by
  rw [unpinPage_eq hun]
  exact mpage_setMpage _

theorem mem_links_unpinPage {x : α × Fin w} :
    x ∈ (s.unpinPage d).Links q ↔ x ∈ s.Links q ∧ x.1 ≠ d :=
  mem_links_of_unpinned (entry_unpinPage hun) (dir_unpinPage hun)

theorem pinned_unpinPage_of_ne (hq : q ≠ d) :
    ((s.unpinPage d).mpage q).pinned = (s.mpage q).pinned := by
  rw [mpage_unpinPage hun, if_neg hq, pinned_unmanaged]

open Classical in
theorem toSatCount_unpinPage (hqd : q ≠ d) : ((s.unpinPage d).mpage q).toSatCount =
    if (∃ i, (s.entry d i).isXenPtabValid = true ∧ (s.entry d i).page = q) ∧
      (s.mpage q).pinned = true then (s.mpage q).toSatCount.dec
    else (s.mpage q).toSatCount := by
  rw [mpage_unpinPage hun, if_neg hqd, toSatCount_unmanaged]
  simp [Enters]

theorem Inv.counts_unpinPage_iff (h : s.Inv) (hdir : s.dir d = true) (hqd : q ≠ d)
    (hq : (s.mpage q).pinned = true) :
    ((s.unpinPage d).mpage q).toSatCount.Counts ((s.unpinPage d).Links q) ↔
      ((∃ i, (s.entry d i).isXenPtabValid = true ∧ (s.entry d i).page = q) → s.Single q →
        ∃ j, (s.entry d j).valid = true ∧ (s.entry d j).page = q) := by
  have hsub : (s.unpinPage d).Links q ⊆ s.Links q := fun x hx => ((mem_links_unpinPage hun).1 hx).1
  rw [toSatCount_unpinPage hun hqd]
  by_cases hent : ∃ i, (s.entry d i).isXenPtabValid = true ∧ (s.entry d i).page = q
  · rw [if_pos ⟨hent, hq⟩]
    by_cases hsingle : s.Single q
    · -- at one, the count goes to zero: no link may be left
      obtain ⟨y, hy⟩ := (h.counts hq).2 hsingle.2
      have hmem : y ∈ s.Links q := by simp [*]
      constructor
      · intro hcounts _ _
        by_contra hno
        refine not_counts_dec hsingle.2 ((mem_links_unpinPage hun).2 ⟨hmem, ?_⟩) hcounts
        rintro rfl
        exact hno ⟨y.2, hmem.2⟩
      · intro hk
        obtain ⟨j, hj⟩ := hk hent hsingle
        have hdj : (d, j) ∈ s.Links q := ⟨hdir, hj⟩
        have hgone : (s.unpinPage d).Links q = s.Links q \ {(d, j)} := by
          ext x
          rw [mem_links_unpinPage hun]
          refine and_congr_right fun hx => not_congr ⟨fun hxd => ?_, fun hxd => by rw [hxd]⟩
          rw [hy] at hx hdj
          exact hx.trans hdj.symm
        rw [hgone]
        exact (h.counts hq).dec hdj
    · refine iff_of_true ?_ fun _ hs => absurd hs hsingle
      have hone : (s.mpage q).isOne = false := Bool.eq_false_iff.2 fun hone => hsingle ⟨hq, hone⟩
      rcases (s.mpage q).toSatCount.cases with hb | hb | hb
      · rw [hb]
        refine counts_zero_iff.2 (Set.subset_eq_empty hsub ?_)
        exact (h.counts hq).1 (by rw [hb]; rfl)
      · rw [hb] at hone
        cases hone
      · exact counts_of_multi (b := (s.mpage q).dec) hb _
  · rw [if_neg fun hc => hent hc.1]
    refine iff_of_true ?_ fun hi => absurd hi hent
    refine counts_of_unpinned h (entry_unpinPage hun) (dir_unpinPage hun) hq fun _ x hx hxd => ?_
    obtain ⟨-, hv, hpage⟩ := hx
    rw [hxd] at hv hpage
    exact hent ⟨x.2, by rw [Pgent.isXenPtabValid, hv]; rfl, hpage⟩

theorem Inv.linkState_unpinPage_iff (h : s.Inv) (hdir : s.dir d = true) :
    (s.unpinPage d).LinkState ↔
      ∀ i, (s.entry d i).isXenPtabValid = true → s.Single (s.entry d i).page →
        ∃ j, (s.entry d j).valid = true ∧ (s.entry d j).page = (s.entry d i).page := by
  constructor
  · intro hP i hv hsingle
    have hne : (s.entry d i).page ≠ d := fun hne => by
      rw [hne] at hsingle
      exact not_isZero_of_isOne hsingle.2 hun
    have hcounts := hP _ ((pinned_unpinPage_of_ne hun hne).trans hsingle.1)
    exact (h.counts_unpinPage_iff hun hdir hne hsingle.1).1 hcounts ⟨i, hv, rfl⟩ hsingle
  · intro hk q hq
    have hqd : q ≠ d := fun hqd => by
      rw [mpage_unpinPage hun, if_pos hqd] at hq
      cases hq
    rw [pinned_unpinPage_of_ne hun hqd] at hq
    refine (h.counts_unpinPage_iff hun hdir hqd hq).2 ?_
    rintro ⟨i, hv, rfl⟩ hsingle
    exact hk i hv hsingle

end Unpin

theorem Inv.unpinPage_iff (h : s.Inv) (hdir : s.dir d = true) :
    (s.unpinPage d).HoldsIff ((s.mpage d).isUnlinked = true →
      ∀ i, (s.entry d i).isXenPtabValid = true → s.Single (s.entry d i).page →
        ∃ j, (s.entry d j).valid = true ∧ (s.entry d j).page = (s.entry d i).page) := by
  by_cases hun : (s.mpage d).isUnlinked = true
  · refine HoldsIff.imp ⟨h.linkState_unpinPage_iff hun hdir, fun hP => ?_⟩ hun
    refine h.unpinned (h.pinned d hdir) hun (entry_unpinPage hun) (dir_unpinPage hun) ?_
      (fun q hq => pinned_unpinPage_of_ne hun hq) (fun q hq hp => ?_) hP
    · rw [mpage_unpinPage hun, if_pos rfl]
    · rw [toSatCount_unpinPage hun hq, if_neg fun hc => by rw [hp] at hc; cases hc.2]
  · have heq : s.unpinPage d = s.halt := if_neg hun
    rw [heq]
    exact h.halt.holdsIff fun hun' => absurd hun' hun

end Unmanage

section Relink

variable {s : XenMemory α w} {d q : α} {i : Fin w} (h : s.Inv) (hdir : s.dir d = true)
  (he : (s.entry d i).isXenUnlinked = true)

omit [DecidableEq α] in
include he in
theorem notMem_links_of_unlinked (q : α) : (d, i) ∉ s.Links q := by
  grind [Pgent.isXenUnlinked]

include hdir he in
theorem links_setXenLinked (q : α) : (s.setEntry d i (s.entry d i).setXenLinked).Links q =
    if q = (s.entry d i).page then insert (d, i) (s.Links q) else s.Links q := by
  have hno := Set.sdiff_singleton_eq_self (notMem_links_of_unlinked he q)
  split_ifs with hq
  · rw [links_setEntry_of_link (e := (s.entry d i).setXenLinked) hdir rfl hq.symm, hno]
  · rw [links_setEntry_of_not (e := (s.entry d i).setXenLinked) fun h => hq h.2.2.symm, hno]

include h hdir he

theorem Inv.relinkPtab_of_pinned (hp : (s.mpage (s.entry d i).page).pinned = true) :
    (s.setEntry d i (s.entry d i).setXenLinked).HoldsIff
      ((s.mpage (s.entry d i).page).multi = true) := by
  have hlinks := links_setXenLinked hdir he
  have hiff := (h.counts hp).insert_iff (notMem_links_of_unlinked he _)
  refine ⟨⟨fun hP => ?_, fun hmulti q hq => ?_⟩,
    fun hP => ⟨hP, h.clean, fun q x hx => ?_, h.pinned⟩⟩
  · have hcounts := hP _ hp
    rw [hlinks, if_pos rfl] at hcounts
    exact hiff.1 hcounts
  · rw [hlinks]
    split_ifs with hqp
    · subst hqp
      exact hiff.2 hmulti
    · exact h.counts hq
  · rw [hlinks] at hx
    split_ifs at hx with hqp
    · rw [hqp]
      exact hp
    · exact h.target q x hx

theorem Inv.relinkPtab_of_not_pinned (hp : (s.mpage (s.entry d i).page).pinned = false) :
    ((s.setMpage (s.entry d i).page (s.mpage (s.entry d i).page).setPinned.linkInc).setEntry d i
      (s.entry d i).setXenLinked).Inv := by
  have hlinks := fun q => links_setXenLinked hdir he q
  have hempty := h.links_eq_empty hp
  have hclean := h.clean _ hp
  set p := (s.entry d i).page
  refine ⟨fun q hq => ?_, ?_, fun q x hx => ?_, ?_⟩
  · change (((s.setMpage p (s.mpage p).setPinned.linkInc).mpage q).toSatCount).Counts
      ((s.setEntry d i (s.entry d i).setXenLinked).Links q)
    rw [hlinks, mpage_setMpage]
    split_ifs with hqp
    · rw [hqp, hempty, insert_empty_eq, setPinned, hclean]
      exact counts_one_iff.2 ⟨(d, i), rfl⟩
    · exact h.counts (by simpa [hqp] using hq)
  · grind [setPinned, linkInc, h.clean]
  · have hx : x ∈ (s.setEntry d i (s.entry d i).setXenLinked).Links q := hx
    grind [setPinned, linkInc, h.target]
  · grind [setPinned, linkInc, h.pinned]

theorem Inv.relinkPtab_iff :
    (s.relinkPtab d i).HoldsIff ((s.mpage (s.entry d i).page).pgtable = true →
      (s.mpage (s.entry d i).page).pinned = true → (s.mpage (s.entry d i).page).multi = true) := by
  unfold relinkPtab
  by_cases hpg : (s.mpage (s.entry d i).page).pgtable = true
  · rw [if_pos hpg]
    cases hp : (s.mpage (s.entry d i).page).pinned with
    | true =>
      exact ((h.relinkPtab_of_pinned hdir he hp).imp rfl).imp hpg
    | false =>
      exact (h.relinkPtab_of_not_pinned hdir he hp).holdsIff fun _ h' =>
        absurd h' Bool.false_ne_true
  · rw [if_neg hpg]
    exact h.halt.holdsIff fun hpg' => absurd hpg' hpg

end Relink

section Enable
variable {s : XenMemory α w} {d : α}

structure Enabling (d : α) (done : Set (Fin w)) (s : XenMemory α w) : Prop where
  dir : ∀ p, s.dir p = true ↔ p = d
  pinned : (s.mpage d).pinned = true
  pgtable : ∀ p, (s.mpage p).pgtable = (s.mpage p).pinned
  links : ∀ p, (s.mpage p).pinned = true →
    (s.mpage p).toSatCount.Counts {x ∈ s.Links p | x.2 ∈ done}
  clean : ∀ p, (s.mpage p).pinned = false → (s.mpage p).toSatCount = .zero
  target : ∀ p, ∀ x ∈ s.Links p, x.2 ∈ done → (s.mpage p).pinned = true

omit [DecidableEq α] in
variable {done : Set (Fin w)}

omit [DecidableEq α] in
theorem Enabling.counts (h : s.Enabling d done) (p : α) :
    (s.mpage p).toSatCount.Counts {x ∈ s.Links p | x.2 ∈ done} := by
  cases hp : (s.mpage p).pinned with
  | true => exact h.links p hp
  | false =>
    rw [h.clean p hp, counts_zero_iff, Set.eq_empty_iff_forall_notMem]
    rintro x ⟨hx, hdone⟩
    rw [h.target p x hx hdone] at hp
    cases hp

theorem links_enableEntry (i : Fin w) : (s.enableEntry d i).Links = s.Links := by
  have hmachine : (s.setEntry d i (s.entry d i).setXenMachine).Links = s.Links := by
    funext p
    ext x
    grind [Pgent.setXenMachine]
  unfold enableEntry
  dsimp only
  split_ifs
  · exact hmachine
  · exact hmachine
  · rfl

theorem dir_enableEntry (i : Fin w) : (s.enableEntry d i).dir = s.dir := by
  unfold enableEntry
  dsimp only
  split_ifs <;> rfl

theorem enableEntry_of_not_valid {i : Fin w} (hv : ¬ (s.entry d i).valid = true) :
    s.enableEntry d i = s := if_neg hv

theorem mpage_enableEntry {i : Fin w} (hv : (s.entry d i).valid = true) (q : α) :
    (s.enableEntry d i).mpage q =
      if q = (s.entry d i).page then
        if (s.mpage q).pgtable then (s.mpage q).linkInc else
          (s.mpage q).linkInc.setPgtable.setPinned
      else s.mpage q := by
  unfold enableEntry
  grind [linkInc]

theorem Enabling.step (h : s.Enabling d done) {i : Fin w} (hi : i ∉ done) :
    (s.enableEntry d i).Enabling d (insert i done) := by
  have hentry : ∀ q, ∀ x ∈ s.Links q, x.1 = d := fun q x hx => (h.dir x.1).1 hx.1
  by_cases hv : (s.entry d i).valid = true
  · have hmpage := mpage_enableEntry hv
    have hpgtable := h.pgtable
    -- only the page of the entry has one more link
    have hlinks : ∀ q, {x ∈ s.Links q | x.2 ∈ insert i done} =
        if q = (s.entry d i).page then insert (d, i) {x ∈ s.Links q | x.2 ∈ done}
        else {x ∈ s.Links q | x.2 ∈ done} := by
      intro q
      have hlink : (d, i) ∈ s.Links (s.entry d i).page := ⟨(h.dir d).2 rfl, hv, rfl⟩
      split_ifs <;> ext x <;> grind
    refine ⟨?_, ?_, ?_, fun q _ => ?_, ?_, ?_⟩
    · rw [dir_enableEntry]
      exact h.dir
    · grind [linkInc, setPinned, h.pinned]
    · grind [linkInc, setPinned, setPgtable]
    · rw [links_enableEntry, hlinks, hmpage]
      have hcounts := h.counts q
      split_ifs
      · exact hcounts.inc fun hx => hi hx.2
      · exact hcounts.inc fun hx => hi hx.2
      · exact hcounts
    · grind [linkInc, setPinned, h.clean]
    · rw [links_enableEntry]
      grind [linkInc, setPinned, h.target]
  · rw [enableEntry_of_not_valid hv]
    have hsame : ∀ q, ∀ x ∈ s.Links q, x.2 ∈ insert i done → x.2 ∈ done := by grind
    refine ⟨h.dir, h.pinned, h.pgtable, fun q hq => ?_, h.clean, fun q x hx hdone => ?_⟩
    · have heq : {x ∈ s.Links q | x.2 ∈ insert i done} = {x ∈ s.Links q | x.2 ∈ done} := by
        ext x
        exact and_congr_right fun hx => ⟨hsame q x hx, Or.inr⟩
      rw [heq]
      exact h.links q hq
    · exact h.target q x hx (hsame q x hx hdone)

theorem Enabling.loop (h : s.Enabling d done) {is : List (Fin w)} (hnodup : is.Nodup)
    (hnew : ∀ i ∈ is, i ∉ done) :
    (is.foldl (enableEntry d) s).Enabling d (done ∪ {i | i ∈ is}) := by
  induction is generalizing s done with
  | nil => simp_all
  | cons i is ih =>
    have hi : i ∉ is := (nodup_cons.1 hnodup).1
    have heq : done ∪ {j | j ∈ i :: is} = insert i done ∪ {j | j ∈ is} := by
      ext j
      simp [or_assoc, or_left_comm]
    rw [heq]
    refine ih (h.step (hnew i mem_cons_self)) (nodup_cons.1 hnodup).2 ?_
    rintro j hj (rfl | hdone)
    · exact hi hj
    · exact hnew j (mem_cons_of_mem i hj) hdone

theorem Enabling.init (hdir : ∀ p, s.dir p = decide (p = d))
    (hmpage : ∀ q, s.mpage q =
      if q = d then setNormal.setPgtable.setPinned else setNormal) :
    s.Enabling d ∅ := by
  refine ⟨fun p => ?_, ?_, fun p => ?_, fun p _ => ?_, fun p _ => ?_,
    fun p x _ hx => absurd hx (Set.notMem_empty _)⟩
  · rw [hdir, decide_eq_true_iff]
  · rw [hmpage, if_pos rfl]
    rfl
  · rw [hmpage]
    split_ifs <;> rfl
  · have hempty : {x ∈ s.Links p | x.2 ∈ (∅ : Set (Fin w))} = ∅ := by simp
    rw [hempty, hmpage]
    split_ifs <;> exact counts_zero_iff.2 rfl
  · rw [hmpage]
    split_ifs <;> rfl

theorem inv_enableGuestPaging (d : α) (entries : Fin w → Pgent α) :
    (enableGuestPaging d entries).Inv := by
  have hloop : (enableGuestPaging d entries).Enabling d (∅ ∪ {i | i ∈ finRange w}) := by
    refine Enabling.loop (Enabling.init (fun p => rfl) fun q => ?_) (nodup_finRange w)
      fun i _ => Set.notMem_empty i
    dsimp only
    rw [update_apply]
  have hall : ∀ x : α × Fin w, x.2 ∈ (∅ ∪ {i | i ∈ finRange w} : Set (Fin w)) := fun x =>
    Or.inr (mem_finRange x.2)
  refine ⟨fun p hp => ?_, hloop.clean, fun p x hx => hloop.target p x hx (hall x), fun p hp => ?_⟩
  · have hcounts := hloop.links p hp
    have heq : {x ∈ (enableGuestPaging d entries).Links p |
        x.2 ∈ (∅ ∪ {i | i ∈ finRange w} : Set (Fin w))} =
        (enableGuestPaging d entries).Links p := by simp
    rw [heq] at hcounts
    exact hcounts
  · rw [(hloop.dir p).1 hp]
    exact hloop.pinned

end Enable

section Steps
variable {s : XenMemory α w}

theorem Inv.changePgent_iff (h : s.Inv) (userPd : ℕ) {d : α} (i : Fin w) (new : Pgent α)
    (hd : (s.mpage d).pinned = true → s.dir d = true) :
    (s.changePgent userPd d i new).HoldsIff (s.Changeable d i → s.ChangeKeeps userPd d i new) := by
  by_cases ha : s.Changeable d i
  · refine ⟨⟨fun hP _ => h.changeKeeps hd ha hP, fun hk => (h.changePgent hd ha (hk ha)).links⟩,
      fun hP => h.changePgent hd ha (h.changeKeeps hd ha hP)⟩
  · have heq : s.changePgent userPd d i new = (s.setMpage d (s.mpage d).setPgtable).halt :=
      if_pos (not_not.1 (mt changeable_iff.2 ha))
    rw [heq]
    exact (h.setPgtable d).halt.holdsIff fun ha' => absurd ha' ha

theorem Inv.exec_iff (h : s.Inv) (userPd : ℕ) (op : Op α w) :
    (s.exec userPd op).HoldsIff (s.ExecKeeps userPd op) := by
  -- an operation that does not take place changes nothing
  cases op with
  | changePgent d i new =>
    by_cases hd : (s.mpage d).pinned = true ∧ s.dir d = false
    · rw [exec, if_pos hd]
      refine h.holdsIff fun hd' => ?_
      have hdir := hd' hd.1
      rw [hd.2] at hdir
      cases hdir
    · have hd' : (s.mpage d).pinned = true → s.dir d = true := fun hp => by
        by_contra hno
        exact hd ⟨hp, Bool.eq_false_iff.2 hno⟩
      rw [exec, if_neg hd]
      exact (h.changePgent_iff userPd i new hd').imp hd'
  | release => exact h.holdsIff trivial
  | copyEntry d src i =>
    by_cases hd : (s.mpage d).pinned = true
    · rw [exec, if_pos hd]
      exact h.holdsIff trivial
    · rw [exec, if_neg hd]
      refine (h.setEntry_of_not_dir (h.dir_eq_false ?_) _).holdsIff trivial
      exact Bool.eq_false_iff.2 hd
  | clearEntry d i =>
    by_cases hd : (s.mpage d).pinned = true
    · rw [exec, if_pos hd]
      exact h.holdsIff trivial
    · rw [exec, if_neg hd]
      refine (h.setEntry_of_not_dir (h.dir_eq_false ?_) _).holdsIff trivial
      exact Bool.eq_false_iff.2 hd
  | switchPageDir d =>
    by_cases hd : (s.mpage d).pinned = true
    · rw [exec, if_pos hd]
      refine h.holdsIff fun hd' => ?_
      rw [hd] at hd'
      cases hd'
    · have hd' : (s.mpage d).pinned = false := Bool.eq_false_iff.2 hd
      rw [exec, if_neg hd]
      exact (h.managePageDir_iff hd').imp hd'
  | unpinPage d =>
    by_cases hd : s.dir d = true
    · rw [exec, if_pos hd]
      exact (h.unpinPage_iff hd).imp hd
    · rw [exec, if_neg hd]
      exact h.holdsIff fun hd' => absurd hd' hd
  | relinkPtab d i =>
    by_cases hd : s.dir d = true ∧ (s.entry d i).isXenUnlinked = true
    · rw [exec, if_pos hd]
      exact ((h.relinkPtab_iff hd.1 hd.2).imp hd.2).imp hd.1
    · rw [exec, if_neg hd]
      exact h.holdsIff fun hd' he => absurd ⟨hd', he⟩ hd

theorem Inv.step_iff (h : s.Inv) (userPd : ℕ) (op : Op α w) :
    (s.step userPd op).HoldsIff (s.LinksKept userPd op) := by
  unfold step LinksKept
  cases hhalted : s.halted with
  | true =>
    exact h.holdsIff fun h' => absurd h'.symm Bool.false_ne_true
  | false =>
    cases hold : s.oldMpage with
    | none =>
      exact (h.exec_iff userPd op).imp rfl
    | some p =>
      cases op with
      | release =>
        exact (h.release_iff p).imp rfl
      | _ => exact h.holdsIff fun _ => trivial

/-- **The links over whole runs.** A pinned table that counts as unlinked has no link and one that
counts as linked once has one, in every state, exactly when every operation meets its condition. -/
theorem linkState_iff_linksKept (userPd : ℕ) (d : α) (entries : Fin w → Pgent α)
    (ops : List (Op α w)) :
    (∀ pre, pre <+: ops → (run (step userPd) (enableGuestPaging d entries) pre).LinkState) ↔
      Guarded (step userPd) (LinksKept userPd) (enableGuestPaging d entries) ops := by
  have hinv := inv_enableGuestPaging d entries
  rw [forall_prefix_iff, and_iff_right hinv.links]
  refine guarded_congr (I := Inv) (A := fun _ => True) (fun s op _ hs => (hs.step_iff userPd op).2)
    (fun s op _ hs => (hs.step_iff userPd op).1) hinv fun _ _ => trivial

end Steps

def oneTable (_ : Fin 1) : Pgent ℕ := ⟨true, false, 1⟩

theorem not_linkState_copied :
    ¬ ∀ pre, pre <+: [Op.copyEntry 2 0 0, Op.switchPageDir 2] →
      (run (step 0) (enableGuestPaging 0 oneTable) pre).LinkState := by
  intro h
  have hcounts := h _ (prefix_refl _) 1 (by decide +kernel)
  obtain ⟨x, hx⟩ := hcounts.2 (by decide +kernel)
  have hfirst : (0, 0) ∈ ({x} : Set (ℕ × Fin 1)) := by
    rw [← hx]
    exact ⟨by decide +kernel, by decide +kernel, by decide +kernel⟩
  have hsecond : (2, 0) ∈ ({x} : Set (ℕ × Fin 1)) := by
    rw [← hx]
    exact ⟨by decide +kernel, by decide +kernel, by decide +kernel⟩
  have hsame : ((0, 0) : ℕ × Fin 1) = (2, 0) := hfirst.trans hsecond.symm
  cases hsame

end XenMemory
end Wedge
