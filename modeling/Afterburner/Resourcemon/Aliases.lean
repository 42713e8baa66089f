import Afterburner.Resourcemon.Pager
import Mathlib.Order.Interval.Set.Basic

/-!
# Aliases of the KIP and the UTCB area

Requests for pages are compared with the KIP and the UTCB area by `is_fpage_intersect`.
-/
variable (f : Fpage)

namespace Resourcemon
open BitVec
namespace Fpage

def addresses : Set ℕ := Set.Ico f.base.toNat (f.base.toNat + 2 ^ f.szlog2)
def EndsBelow : Prop := f.base.toNat + 2 ^ f.szlog2 < 2 ^ 32
instance  : Decidable f.EndsBelow := inferInstanceAs (Decidable (_ < _))

theorem addresses_subset_iff (f g : Fpage) :
    f.addresses ⊆ g.addresses ↔
      g.base.toNat ≤ f.base.toNat ∧
        f.base.toNat + 2 ^ f.szlog2 ≤ g.base.toNat + 2 ^ g.szlog2 :=
  Set.Ico_subset_Ico_iff (Nat.lt_add_of_pos_right (Nat.two_pow_pos _))

theorem addresses_inter_nonempty_iff (f g : Fpage) :
    (f.addresses ∩ g.addresses).Nonempty ↔
      f.base.toNat < g.base.toNat + 2 ^ g.szlog2 ∧
        g.base.toNat < f.base.toNat + 2 ^ f.szlog2 := by
  have hf : 0 < 2 ^ f.szlog2 := Nat.two_pow_pos _
  have hg : 0 < 2 ^ g.szlog2 := Nat.two_pow_pos _
  rw [addresses, addresses, Set.Ico_inter_Ico, Set.nonempty_Ico, max_lt_iff, lt_min_iff, lt_min_iff]
  omega

theorem EndsBelow.toNat_end {f : Fpage} (h : f.EndsBelow) :
    (f.base + f.size).toNat = f.base.toNat + 2 ^ f.szlog2 := by
  unfold EndsBelow at h
  rw [toNat_add, size, toNat_ofNat]
  generalize 2 ^ f.szlog2 = n at h
  omega

end Fpage

/-- An overlap is found unless the first page lies in the second or ends with the address space. -/
theorem isFpageIntersect_iff (fp1 : Fpage) {fp2 : Fpage} (h2 : fp2.EndsBelow) :
    isFpageIntersect fp1 fp2 = true ↔ (fp1.addresses ∩ fp2.addresses).Nonempty ∧
      fp1.EndsBelow ∧ ¬ fp1.addresses ⊆ fp2.addresses := by
  have hend2 := h2.toNat_end
  have hpos2 : 0 < 2 ^ fp2.szlog2 := Nat.two_pow_pos _
  rw [Fpage.addresses_inter_nonempty_iff, Fpage.addresses_subset_iff]
  simp only [isFpageIntersect, Bool.or_eq_true, Bool.and_eq_true, decide_eq_true_iff, gt_iff_lt,
    lt_def, hend2]
  by_cases h1 : fp1.EndsBelow
  · rw [h1.toNat_end]
    simp only [h1, true_and]
    omega
  · have hend1 : (fp1.base + fp1.size).toNat = 0 := by
      have hle := fp1.base_add_le
      unfold Fpage.EndsBelow at h1
      rw [toNat_add, Fpage.size, toNat_ofNat]
      generalize 2 ^ fp1.szlog2 = n at *
      omega
    simp [hend1, h1]

namespace Monitor

/-- What is granted has nothing of the KIP or the UTCB area. -/
def NoAlias (m : Monitor) (caller : ThreadId) (req : Fpage) : Prop :=
  ∀ vm, m.tidToVm caller = some vm → (m.requestPages caller req).page.isSome →
    ∀ area ∈ [vm.kipFp, vm.utcbFp], ¬ (area.addresses ∩ req.addresses).Nonempty

section Aliases
variable {m : Monitor} {caller : ThreadId} {vm : Vm} {req : Fpage}

theorem requestPages_isSome_iff (hvm : m.tidToVm caller = some vm) :
    (m.requestPages caller req).page.isSome ↔
      (∀ area ∈ [vm.kipFp, vm.utcbFp], ¬ isFpageIntersect area req = true) ∧
        req.base.toNat + 2 ^ req.szlog2 ≤ vm.paddrLen.toNat := by
  have hpage : ∀ r : Reply, (r.exn .invalidMemRegion).page = r.page := fun _ => rfl
  rw [← translates_iff]
  simp only [requestPages, hvm, List.mem_pair, forall_eq_or_imp, forall_eq]
  by_cases halias : isFpageIntersect vm.kipFp req ∨ isFpageIntersect vm.utcbFp req
  · rw [if_pos halias]
    exact iff_of_false (by simp [Reply.nil, Reply.exn]) fun h => halias.elim h.1.1 h.1.2
  · rw [if_neg halias, apply_ite Reply.page, hpage, ite_self]
    rw [and_iff_right (not_or.1 halias)]
    split_ifs with hin
    · exact iff_of_true rfl hin
    · exact iff_of_false (by simp [Reply.nil, Reply.exn]) hin

theorem noAlias_iff : m.NoAlias caller req ↔ ∀ vm, m.tidToVm caller = some vm →
    req.base.toNat + 2 ^ req.szlog2 ≤ vm.paddrLen.toNat →
      ∀ area ∈ [vm.kipFp, vm.utcbFp], (area.addresses ∩ req.addresses).Nonempty →
        ∃ area ∈ [vm.kipFp, vm.utcbFp], (area.addresses ∩ req.addresses).Nonempty ∧
          area.EndsBelow ∧ ¬ area.addresses ⊆ req.addresses := by
  refine forall₂_congr fun vm hvm => ?_
  rw [requestPages_isSome_iff hvm]
  have hdetects (hin : req.base.toNat + 2 ^ req.szlog2 ≤ vm.paddrLen.toNat) (area : Fpage) :=
    isFpageIntersect_iff area (lt_of_le_of_lt hin vm.paddrLen.isLt)
  constructor
  · intro h hin area harea hmeet
    by_contra! hno
    refine h ⟨fun other hother hfound => ?_, hin⟩ area harea hmeet
    obtain ⟨hmeet', hends, hsub⟩ := (hdetects hin other).1 hfound
    exact hsub (hno other hother hmeet' hends)
  · rintro h ⟨hpassed, hin⟩ area harea hmeet
    obtain ⟨other, hother, hfound⟩ := h hin area harea hmeet
    exact hpassed other hother ((hdetects hin other).2 hfound)

end Aliases
end Monitor

namespace Monitor

def pageAt4M : Fpage := .log2 0x400000 pageBits pageBits_le

def monitorWithKipAt4M : Monitor where
  baseTid := 0x100
  vmList := fun i => if i = 1 then some { vmAt4M with kipFp := pageAt4M } else none
  syscallsStart := 0
  syscallsEnd := 0
  syscallStubs := 0

end Monitor
end Resourcemon
