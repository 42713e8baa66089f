import Afterburner.Resourcemon.ElfFile

/-!
# From physical to virtual addresses and back

`client_paddr_to_vaddr` should give an address that `client_vaddr_to_haddr` translates to the same
memory.
-/
variable (g : Guest)

namespace Resourcemon
namespace Guest

def RoundTrips (p : Word) : Prop :=
  ∀ v, g.clientPaddrToVaddr p = some v →
    ∃ haddr, g.vm.clientVaddrToHaddr v = some haddr ∧ g.vm.clientPaddrToHaddr p = some haddr

def InWindow (p : Word) : Prop :=
  p ≥ g.vm.wedgePaddr ∧ g.clientShared.all fun sh => p < g.vm.wedgePaddr + sh.wedgePhysSize

instance  (p : Word) : Decidable (g.InWindow p) := inferInstanceAs (Decidable (_ ∧ _))

variable {g} {p : Word} (vm : Vm)

theorem clientPaddrToVaddr_of_lt (hp : p < g.vm.paddrLen) :
    g.clientPaddrToVaddr p =
      some (if g.InWindow p then p + g.vm.wedgeVaddr else p + g.vm.vaddrOffset) := by
  rw [clientPaddrToVaddr, if_neg (BitVec.not_le.2 hp)]
  exact (apply_ite some _ _ _).symm

theorem translates_alike_iff (hp : p < vm.paddrLen) (q : Word) :
    (∃ haddr, vm.clientPaddrToHaddr q = some haddr ∧ vm.clientPaddrToHaddr p = some haddr) ↔
      q = p := by
  constructor
  · rintro ⟨haddr, hq, hp⟩
    obtain ⟨-, hq⟩ := Vm.clientPaddrToHaddr_eq_some.1 hq
    obtain ⟨-, hp⟩ := Vm.clientPaddrToHaddr_eq_some.1 hp
    exact BitVec.eq_of_toNat_eq (by omega)
  · rintro rfl
    obtain ⟨haddr, hsome⟩ := Option.isSome_iff_exists.1 (Vm.clientPaddrToHaddr_isSome.2 hp)
    exact ⟨haddr, hsome, hsome⟩

theorem roundTrips_iff_loadPaddr (hp : p < g.vm.paddrLen) :
    g.RoundTrips p ↔ g.vm.loadPaddr
      (if g.InWindow p then p + g.vm.wedgeVaddr else p + g.vm.vaddrOffset) = p := by
  rw [← translates_alike_iff g.vm hp, ← Vm.clientVaddrToHaddr_eq, RoundTrips,
    clientPaddrToVaddr_of_lt hp]
  exact ⟨fun h => h _ rfl, fun h v hv => Option.some.inj hv ▸ h⟩

theorem loadPaddr_window_iff (p : Word) :
    vm.loadPaddr (p + vm.wedgeVaddr) = p ↔
      vm.wedgeVaddr = vm.vaddrOffset ∧ (vm.wedgePaddr = 0 ∨ p + vm.wedgeVaddr < vm.wedgeVaddr) := by
  rw [Vm.loadPaddr, Vm.loadOffset]
  split_ifs with h
  · -- it is too far by `wedge_paddr`
    obtain ⟨hne, hle⟩ := h
    refine iff_of_false (fun heq => hne ?_) (fun hcond => ?_)
    · bv_omega
    · rcases hcond.2 with hzero | hlt
      · exact hne hzero
      · exact BitVec.not_le.2 hlt hle
  · bv_omega

theorem loadPaddr_rest_iff (p : Word) :
    vm.loadPaddr (p + vm.vaddrOffset) = p ↔
      vm.wedgePaddr = 0 ∨ p + vm.vaddrOffset < vm.wedgeVaddr ∨
        vm.vaddrOffset + vm.wedgePaddr = vm.wedgeVaddr := by
  rw [Vm.loadPaddr, Vm.loadOffset]
  split_ifs with h
  · bv_omega
  · refine iff_of_true (by bv_omega) ?_
    rcases not_and_or.1 h with hzero | hlt
    · exact .inl (not_not.1 hzero)
    · exact .inr (.inl (BitVec.not_le.1 hlt))

/-- **When the two translations are inverse**, for addresses inside the VM: in the window if the
wedge begins with the memory and there is none or the sum wraps; else if there is no wedge, or they
stay below its virtual address, or it lies where the rest of the memory has it. -/
theorem paddr_roundTrips_iff (g : Guest) (p : Word) :
    g.RoundTrips p ↔ (p < g.vm.paddrLen →
      if g.InWindow p then
        g.vm.wedgeVaddr = g.vm.vaddrOffset ∧
          (g.vm.wedgePaddr = 0 ∨ p + g.vm.wedgeVaddr < g.vm.wedgeVaddr)
      else
        g.vm.wedgePaddr = 0 ∨ p + g.vm.vaddrOffset < g.vm.wedgeVaddr ∨
          g.vm.vaddrOffset + g.vm.wedgePaddr = g.vm.wedgeVaddr) := by
  by_cases hp : p < g.vm.paddrLen
  · rw [roundTrips_iff_loadPaddr hp]
    simp only [hp, true_imp_iff]
    split_ifs
    · exact loadPaddr_window_iff g.vm p
    · exact loadPaddr_rest_iff g.vm p
  · refine iff_of_true (fun v hv => ?_) (fun h => absurd h hp)
    exact absurd (clientPaddrToVaddr_eq_some.1 hv).1 hp

end Guest

theorem not_roundTrips_wedge :
    ∃ r, installElfBinary (vmOf32M 0x1000000) (imageAt 0xf0001000 0xf0000000) = some r ∧
      r.1.clientPaddrToVaddr 0x1001000 = some 0xf1001000 ∧
      r.1.vm.clientVaddrToHaddr 0xf1001000 = none ∧ ¬ r.1.RoundTrips 0x1001000 := by
  have hrun : (installElfBinary (vmOf32M 0x1000000) (imageAt 0xf0001000 0xf0000000)).map (fun r =>
      (r.1.clientPaddrToVaddr 0x1001000, r.1.vm.clientVaddrToHaddr 0xf1001000)) =
        some (some 0xf1001000, none) := by decide +kernel
  obtain ⟨r, hinst, heq⟩ := Option.map_eq_some_iff.1 hrun
  obtain ⟨hthere, hback⟩ := Prod.mk.inj heq
  refine ⟨r, hinst, hthere, hback, fun h => ?_⟩
  obtain ⟨haddr, hsome, -⟩ := h _ hthere
  rw [hback] at hsome
  cases hsome

end Resourcemon
