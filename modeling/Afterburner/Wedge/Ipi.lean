import Afterburner.Wedge.LapicSummary

/-!
# Inter-processor interrupts

A *fixed* interrupt raises a vector at every destination, but the summary bit goes to the sender's
CPU.
-/
variable (s : Apics)

namespace Wedge
open List Bits Lapic
namespace Apics

def Destination (self : ℕ) (icrlo icrhi : Word) (d : ℕ) : Prop :=
  match Icr.destShorthand icrlo with
  | .no =>
    if Icr.destinationMode icrlo then
      d < s.nrVcpus ∧ (s.lapic d).lidMatches (Icr.dest icrhi) = true
    else d = (Icr.dest icrhi).toNat
  | .self => d = self
  | .all => d < s.nrVcpus
  | .allButSelf => d < s.nrVcpus ∧ d ≠ self

structure FixedIpi (i : ℕ) (value : Word) : Prop where
  nrVcpus : s.nrVcpus < 32
  self_lt : i < s.nrVcpus
  id : (s.lapic i).getId = i
  fixed : Icr.deliveryMode value = 0
  vector : 32 ≤ Icr.vector value
  valid : ∀ d, s.Destination i value (s.lapic i).icrhi d → d < s.nrVcpus

theorem fields_copyFields (l : Lapic) (value : Word) :
    Icr.vector (l.copyFields 0xc0 0xccfff value).icrlo = Icr.vector value ∧
    Icr.deliveryMode (l.copyFields 0xc0 0xccfff value).icrlo = Icr.deliveryMode value ∧
    Icr.destinationMode (l.copyFields 0xc0 0xccfff value).icrlo = Icr.destinationMode value ∧
    Icr.destShorthand (l.copyFields 0xc0 0xccfff value).icrlo = Icr.destShorthand value := by
  have hstored : (l.copyFields 0xc0 0xccfff value).icrlo =
      (l.icrlo &&& ~~~ (0xccfff : Word)) ||| (value &&& 0xccfff) :=
    raw_setRaw_self ..
  have hshift : ∀ (x : Word) (n : ℕ) (f : Word), x >>> n &&& f >>> n = (x &&& f) >>> n :=
    fun x n f => (BitVec.ushiftRight_and_distrib x f n).symm
  rw [hstored]
  refine ⟨?_, ?_, ?_, ?_⟩
  · rw [Icr.vector, copy_and _ _ (by decide)]
    rfl
  · have h7 : (7 : Word) = (0x700 : Word) >>> 8 := by decide
    rw [Icr.deliveryMode, Icr.deliveryMode, h7, hshift, hshift, copy_and _ _ (by decide)]
  · simp [Icr.destinationMode]
  · have h3 : (3 : Word) = (0xc0000 : Word) >>> 18 := by decide
    rw [Icr.destShorthand, Icr.destShorthand, h3, hshift, hshift, copy_and _ _ (by decide)]

theorem icrhi_copyFields (l : Lapic) (value : Word) :
    (l.copyFields 0xc0 0xccfff value).icrhi = l.icrhi :=
  raw_setRaw_of_ne _ (by decide) _

theorem getLsbD_logicalMask (ldest : Byte) (hnr : s.nrVcpus < 32) (d : ℕ) :
    (s.logicalMask ldest).getLsbD d = true ↔
      d < s.nrVcpus ∧ (s.lapic d).lidMatches ldest = true := by
  -- the loop has collected the matching VCPUs below its index
  have hloop : ∀ n ≤ 31, ∀ d, ((range n).foldl (fun (m : Word) destId =>
      if (s.lapic destId).lidMatches ldest then m ||| 1#32 <<< destId else m) 0).getLsbD d = true ↔
        d < n ∧ (s.lapic d).lidMatches ldest = true := by
    intro n
    induction n with
    | zero => intro _ d; simp
    | succ n ih =>
      intro hn d
      have ih := ih (by omega) d
      rw [range_succ, foldl_append, foldl_cons, foldl_nil]
      by_cases hm : (s.lapic n).lidMatches ldest = true
      · rw [if_pos hm, BitVec.getLsbD_or, Bool.or_eq_true, ih, getLsbD_one_shiftLeft]
        simp only [Bool.and_eq_true, decide_eq_true_eq]
        constructor
        · rintro (⟨hd, hmd⟩ | ⟨_, rfl⟩)
          · exact ⟨by omega, hmd⟩
          · exact ⟨by omega, hm⟩
        · rintro ⟨hd, hmd⟩
          rcases Nat.lt_or_ge d n with hlt | hge
          · exact Or.inl ⟨hlt, hmd⟩
          · exact Or.inr ⟨by omega, by omega⟩
      · rw [if_neg hm, ih]
        constructor
        · rintro ⟨hd, hmd⟩
          exact ⟨by omega, hmd⟩
        · rintro ⟨hd, hmd⟩
          refine ⟨lt_of_le_of_ne (by omega) ?_, hmd⟩
          rintro rfl
          exact hm hmd
  exact hloop s.nrVcpus (by omega) d

variable {s}

theorem getLsbD_destIdMask {self : ℕ} {icrlo icrhi : Word} (hnr : s.nrVcpus < 32)
    (hself : self < s.nrVcpus) (hid : (s.lapic self).getId = self)
    (hvalid : ∀ d, s.Destination self icrlo icrhi d → d < s.nrVcpus) (d : ℕ) :
    (s.destIdMask self icrlo icrhi).getLsbD d = true ↔ s.Destination self icrlo icrhi d := by
  have hmod : self % 32 = self := Nat.mod_eq_of_lt (by omega)
  unfold destIdMask Destination at *
  cases hsh : Icr.destShorthand icrlo with
  | no =>
    simp only [hsh] at hvalid ⊢
    split_ifs at hvalid ⊢ with hmode
    · exact getLsbD_logicalMask s _ hnr d
    · have hlt := hvalid _ rfl
      rw [getLsbD_one_shiftLeft]
      simp only [Bool.and_eq_true, decide_eq_true_eq]
      omega
  | self =>
    simp only [hid, hmod, getLsbD_one_shiftLeft, Bool.and_eq_true, decide_eq_true_eq]
    omega
  | all =>
    simp only [getLsbD_one_shiftLeft_sub_one hnr, decide_eq_true_eq]
  | allButSelf =>
    simp only [hid, hmod, BitVec.getLsbD_and, BitVec.getLsbD_not,
      getLsbD_one_shiftLeft_sub_one hnr, getLsbD_one_shiftLeft, Bool.and_eq_true,
      decide_eq_true_eq, Bool.not_eq_true', Bool.and_eq_false_iff, decide_eq_false_iff_not]
    omega

def raiseAt (self vector : ℕ) (s : Apics) (ds : List ℕ) : Apics :=
  ds.foldl (fun s d => if d < s.nrVcpus then s.raiseVector self d vector 256 false false 0 else s) s

theorem raiseAt_eq_raiseAll (self v : ℕ) (s : Apics) (ds : List ℕ) :
    raiseAt self v s ds =
      s.raiseAll self v 256 false false 0 (ds.filter fun d => decide (d < s.nrVcpus)) := by
  have hnr : ∀ (s : Apics) (d : ℕ),
      (s.raiseVector self d v 256 false false 0).nrVcpus = s.nrVcpus := by
    intro s d
    unfold raiseVector
    split_ifs <;> rfl
  induction ds generalizing s with
  | nil => rfl
  | cons d ds ih =>
    have hcons : raiseAt self v s (d :: ds) = raiseAt self v
        (if d < s.nrVcpus then s.raiseVector self d v 256 false false 0 else s) ds := rfl
    rw [hcons, ih]
    by_cases hd : d < s.nrVcpus
    · rw [if_pos hd, hnr, filter_cons_of_pos (by simpa using hd)]
      rfl
    · rw [if_neg hd, filter_cons_of_neg (by simpa using hd)]

section RaiseAt
variable {self v : ℕ} (hv : 15 < v) {ds : List ℕ} (hlt : ∀ d ∈ ds, d < s.nrVcpus)

include hlt

theorem raiseAt_eq_of_lt : raiseAt self v s ds = s.raiseAll self v 256 false false 0 ds := by
  rw [raiseAt_eq_raiseAll, filter_eq_self.2 fun d hd => decide_eq_true (hlt d hd)]

include hv

theorem lapic_raiseAt (hnodup : ds.Nodup) (i : ℕ) :
    (raiseAt self v s ds).lapic i =
      if i ∈ ds then (s.lapic i).raise v 256 false false 0 else s.lapic i := by
  rw [raiseAt_eq_of_lt hlt, lapic_raiseAll _ _ _ _ _ _ hv hnodup]

theorem cpu_raiseAt (i : ℕ) :
    (raiseAt self v s ds).cpu i =
      if i = self ∧ ds ≠ [] then (s.cpu self).setIrqVector (v + 16) else s.cpu i := by
  rw [raiseAt_eq_of_lt hlt, cpu_raiseAll _ _ _ _ _ _ hv]

end RaiseAt

def stored (s : Apics) (i : ℕ) (value : Word) : Apics :=
  s.setLapic i ((s.lapic i).copyFields 0xc0 0xccfff value)

section
variable (s : Apics) (i : ℕ) (value : Word)

@[simp] theorem stored_cpu :
    (s.stored i value).cpu = s.cpu := rfl

@[simp] theorem stored_nrVcpus :
    (s.stored i value).nrVcpus = s.nrVcpus := rfl

theorem raw_stored {j k : ℕ} (hk : j ≠ i ∨ k ≠ 0xc0) :
    ((s.stored i value).lapic j).raw k = (s.lapic j).raw k := by
  by_cases hj : j = i
  · subst hj
    rw [stored, setLapic_lapic_self]
    exact raw_setRaw_of_ne _ (by tauto) _
  · rw [stored, setLapic_lapic_of_ne _ _ hj]

theorem testRr_stored (j : ℕ) (r : RrSel) {u : ℕ} (hu : u < 256) :
    ((s.stored i value).lapic j).testRr r u = (s.lapic j).testRr r u := by
  by_cases hj : j = i
  · subst hj
    rw [stored, setLapic_lapic_self]
    exact testRr_setRaw _ _ hu (by decide) _
  · rw [stored, setLapic_lapic_of_ne _ _ hj]

end

variable {i : ℕ} {value : Word}

theorem FixedIpi.write_eq (h : s.FixedIpi i value) :
    ∃ ds : List ℕ, ds.Nodup ∧ (∀ d, d ∈ ds ↔ s.Destination i value (s.lapic i).icrhi d) ∧
      (∀ d ∈ ds, d < (s.stored i value).nrVcpus) ∧
      s.write i value 0x300 = raiseAt i (Icr.vector value) (s.stored i value) ds := by
  obtain ⟨hvector, hmode, hdst, hsh⟩ := fields_copyFields (s.lapic i) value
  have hhi := icrhi_copyFields (s.lapic i) value
  have hstored : s.setLapic i ((s.lapic i).copyFields 0xc0 0xccfff value) = s.stored i value := rfl
  rw [write_intrCmdlo, writeIntrCmdlo]
  generalize (s.lapic i).copyFields 0xc0 0xccfff value = l at *
  have hdest : ∀ d, (s.stored i value).Destination i l.icrlo l.icrhi d ↔
      s.Destination i value (s.lapic i).icrhi d := by
    intro d
    have hlid : ((s.stored i value).lapic d).getLid = (s.lapic d).getLid := by
      rw [getLid, raw_stored s i value (Or.inr (by decide)), getLid]
    simp only [Destination, lidMatches, hsh, hdst, hlid, stored_nrVcpus, hhi]
  have hvalid : ∀ d, (s.stored i value).Destination i l.icrlo l.icrhi d →
      d < (s.stored i value).nrVcpus := fun d hd => h.valid d ((hdest d).1 hd)
  have hid : ((s.stored i value).lapic i).getId = i := by
    rw [getId, raw_stored s i value (Or.inr (by decide))]
    exact h.id
  have hbits := getLsbD_destIdMask (s := s.stored i value) h.nrVcpus h.self_lt hid hvalid
  have hmem : ∀ d, d ∈ scan ((s.stored i value).destIdMask i l.icrlo l.icrhi) ↔
      s.Destination i value (s.lapic i).icrhi d := fun d => by rw [mem_scan, hbits, hdest]
  refine ⟨_, nodup_scan _, hmem, fun d hd => h.valid d ((hmem d).1 hd), ?_⟩
  have hlt : (s.stored i value).destIdMask i l.icrlo l.icrhi <
      1#32 <<< (s.stored i value).nrVcpus :=
    lt_one_shiftLeft h.nrVcpus fun d hd => hvalid d ((hbits d).1 hd)
  simp only [hstored, hmode, h.fixed, if_true, hvector]
  rw [if_neg (BitVec.not_le.2 hlt), raiseAt]

section Write
variable {i : ℕ} {value : Word} (h : s.FixedIpi i value)

include h

theorem FixedIpi.cpu_write_self {d : ℕ} (hd : s.Destination i value (s.lapic i).icrhi d) :
    (s.write i value 0x300).cpu i = (s.cpu i).setIrqVector (Icr.vector value + 16) := by
  obtain ⟨ds, -, hmem, hlt, heq⟩ := h.write_eq
  have hv := h.vector
  have hne : ds ≠ [] := ne_nil_of_mem ((hmem d).2 hd)
  rw [heq, cpu_raiseAt (by omega) hlt, if_pos ⟨rfl, hne⟩,
    stored_cpu]

theorem FixedIpi.cpu_write_of_ne {j : ℕ} (hj : j ≠ i) :
    (s.write i value 0x300).cpu j = s.cpu j := by
  obtain ⟨ds, -, -, hlt, heq⟩ := h.write_eq
  have hv := h.vector
  rw [heq, cpu_raiseAt (by omega) hlt, if_neg (by tauto),
    stored_cpu]

theorem FixedIpi.cpu_write_of_none (hnone : ∀ d, ¬ s.Destination i value (s.lapic i).icrhi d)
    (j : ℕ) : (s.write i value 0x300).cpu j = s.cpu j := by
  obtain ⟨ds, -, hmem, hlt, heq⟩ := h.write_eq
  have hv := h.vector
  have hnil : ds = [] := eq_nil_iff_forall_not_mem.2 fun d hd => hnone d ((hmem d).1 hd)
  rw [heq, cpu_raiseAt (by omega) hlt, if_neg (by tauto),
    stored_cpu]

theorem FixedIpi.lapic_write_of_mem {j : ℕ} (hj : s.Destination i value (s.lapic i).icrhi j) :
    (s.write i value 0x300).lapic j =
      ((s.stored i value).lapic j).raise (Icr.vector value) 256 false false 0 := by
  obtain ⟨ds, hnodup, hmem, hlt, heq⟩ := h.write_eq
  have hv := h.vector
  rw [heq, lapic_raiseAt (by omega) hlt hnodup,
    if_pos ((hmem j).2 hj)]

theorem FixedIpi.lapic_write_of_not_mem {j : ℕ}
    (hj : ¬ s.Destination i value (s.lapic i).icrhi j) :
    (s.write i value 0x300).lapic j =
      (s.stored i value).lapic j := by
  obtain ⟨ds, hnodup, hmem, hlt, heq⟩ := h.write_eq
  have hv := h.vector
  rw [heq, lapic_raiseAt (by omega) hlt hnodup,
    if_neg fun hd => hj ((hmem j).1 hd)]

end Write

theorem Icr.vector_lt (icrlo : Word) : Icr.vector icrlo < 256 := by
  have : (icrlo &&& 0xff).toNat ≤ (0xff : Word).toNat := by
    exact Nat.and_le_right
  exact Nat.lt_succ_of_le this

theorem FixedIpi.requested_write (h : s.FixedIpi i value) (j u : ℕ) :
    (s.write i value 0x300).Requested j u ↔
      s.Requested j u ∨ (s.Destination i value (s.lapic i).icrhi j ∧ u = Icr.vector value) := by
  have hlt := Icr.vector_lt value
  by_cases hu : u < 256
  · by_cases hj : s.Destination i value (s.lapic i).icrhi j
    · simp [Requested, hu, h.lapic_write_of_mem hj, testRr_raise _ _ hlt hu,
        testRr_stored _ _ _ _ _ hu, hj, eq_comm (a := u)]
    · simp [Requested, hu, h.lapic_write_of_not_mem hj, testRr_stored _ _ _ _ _ hu, hj]
  · simp only [Requested, hu, false_and, false_or, false_iff, not_and]
    omega

theorem FixedIpi.inService_write (h : s.FixedIpi i value) (j u : ℕ) :
    (s.write i value 0x300).InService j u ↔ s.InService j u := by
  have hlt := Icr.vector_lt value
  refine and_congr_right fun hu => ?_
  by_cases hj : s.Destination i value (s.lapic i).icrhi j
  · simp [h.lapic_write_of_mem hj, testRr_raise _ _ hlt hu, testRr_stored _ _ _ _ _ hu]
  · simp [h.lapic_write_of_not_mem hj, testRr_stored _ _ _ _ _ hu]

structure IpiExact (s : Apics) (i : ℕ) (value : Word) : Prop where
  requested : ∀ j u, (s.write i value 0x300).Requested j u ↔
    s.Requested j u ∨ (s.Destination i value (s.lapic i).icrhi j ∧ u = Icr.vector value)
  inService : ∀ j u, (s.write i value 0x300).InService j u ↔ s.InService j u
  summary : ∀ j b, ((s.write i value 0x300).cpu j).irqVectors.getLsbD b = true ↔
    (s.cpu j).irqVectors.getLsbD b = true ∨
      (s.Destination i value (s.lapic i).icrhi j ∧ b = (Icr.vector value + 16) / 8)
  others : ∀ j, ¬ s.Destination i value (s.lapic i).icrhi j →
    (s.write i value 0x300).cpu j = s.cpu j ∧ ∀ k, j ≠ i ∨ k ≠ 0xc0 →
      ((s.write i value 0x300).lapic j).raw k = (s.lapic j).raw k

def SenderSuffices (s : Apics) (i : ℕ) (value : Word) : Prop :=
  (∀ d, ¬ s.Destination i value (s.lapic i).icrhi d) ∨
    (Icr.vector value < 240 ∧
      (∀ d, s.Destination i value (s.lapic i).icrhi d → d ≠ i →
        s.summary d (Icr.vector value) = true) ∧
      (s.Destination i value (s.lapic i).icrhi i ∨ s.summary i (Icr.vector value) = true))

theorem FixedIpi.senderSuffices (h : s.FixedIpi i value) (hx : s.IpiExact i value) :
    s.SenderSuffices i value := by
  by_cases hnone : ∀ d, ¬ s.Destination i value (s.lapic i).icrhi d
  · exact Or.inl hnone
  push Not at hnone
  obtain ⟨d, hd⟩ := hnone
  have hset : ∀ d, s.Destination i value (s.lapic i).icrhi d →
      ((s.write i value 0x300).cpu d).irqVectors.getLsbD ((Icr.vector value + 16) / 8) = true :=
    fun d hd => (hx.summary d _).2 (Or.inr ⟨hd, rfl⟩)
  have hlt : (Icr.vector value + 16) / 8 < 32 := lt_of_getLsbD (hset d hd)
  refine Or.inr ⟨by omega, fun e he hne => ?_, ?_⟩
  · have := hset e he
    rwa [h.cpu_write_of_ne hne] at this
  · by_cases hi : s.Destination i value (s.lapic i).icrhi i
    · exact Or.inl hi
    · have hsame := (hx.others i hi).1
      rw [h.cpu_write_self hd] at hsame
      refine Or.inr ?_
      rw [summary, ← hsame, Cpu.irqVectors_setIrqVector _ (by omega)]
      simp [hlt]

theorem FixedIpi.ipiExact (h : s.FixedIpi i value) (hc : s.SenderSuffices i value) :
    s.IpiExact i value := by
  have hlapic : ∀ j, ¬ s.Destination i value (s.lapic i).icrhi j → ∀ k, j ≠ i ∨ k ≠ 0xc0 →
      ((s.write i value 0x300).lapic j).raw k = (s.lapic j).raw k := by
    simp_all [h.lapic_write_of_not_mem, raw_stored]
  by_cases hnone : ∀ d, ¬ s.Destination i value (s.lapic i).icrhi d
  · refine ⟨h.requested_write, h.inService_write, fun j b => ?_, fun j hj => ⟨?_, hlapic j hj⟩⟩
    · simp [h.cpu_write_of_none hnone, hnone j]
    · exact h.cpu_write_of_none hnone j
  obtain ⟨hlt, hpreset, hself⟩ := hc.resolve_left hnone
  push Not at hnone
  obtain ⟨d, hd⟩ := hnone
  have hgroup : (Icr.vector value + 16) / 8 < 32 := by omega
  refine ⟨h.requested_write, h.inService_write, fun j b => ?_, fun j hj => ⟨?_, hlapic j hj⟩⟩
  · by_cases hji : j = i
    · subst hji
      rw [h.cpu_write_self hd, Cpu.irqVectors_setIrqVector _ (by omega), getLsbD_insert]
      simp only [hgroup, decide_true, Bool.true_and, Bool.or_eq_true, decide_eq_true_eq]
      constructor
      · rintro (hb | rfl)
        · exact Or.inl hb
        · exact hself.symm.imp_right fun hj => ⟨hj, rfl⟩
      · rintro (hb | ⟨_, rfl⟩)
        · exact Or.inl hb
        · exact Or.inr rfl
    · rw [h.cpu_write_of_ne hji]
      refine ⟨Or.inl, ?_⟩
      rintro (hb | ⟨hj, rfl⟩)
      · exact hb
      · exact hpreset j hj hji
  · by_cases hji : j = i
    · subst hji
      rw [h.cpu_write_self hd]
      exact Cpu.setIrqVector_of_getLsbD (hself.resolve_left hj)
    · exact h.cpu_write_of_ne hji

structure Accepts (s : Apics) (j v : ℕ) : Prop where
  enabled : (s.lapic j).isEnabled = true
  requested : ∀ u, s.Requested j u → 32 ≤ u ∧ u ≤ v
  inService : ∀ u, s.InService j u → 32 ≤ u ∧ u / 16 < v / 16

theorem FixedIpi.found (h : s.FixedIpi i value) (hx : s.IpiExact i value) {j : ℕ}
    (hj : s.Destination i value (s.lapic i).icrhi j) (hacc : s.Accepts j (Icr.vector value)) :
    ((s.write i value 0x300).pendingVector j).1 = some (Icr.vector value, 256) := by
  have hv := h.vector
  have hlt := Icr.vector_lt value
  have hne : ((s.write i value 0x300).cpu j).irqVectors ≠ 0 :=
    (ne_zero_iff _).2 ⟨_, (hx.summary j _).2 (Or.inr ⟨hj, rfl⟩)⟩
  have henabled : ((s.write i value 0x300).lapic j).isEnabled = true := by
    rw [h.lapic_write_of_mem hj, isEnabled_raise _ hlt, isEnabled,
      raw_stored s i value (Or.inr (by decide))]
    exact hacc.enabled
  have hpin : ((s.write i value 0x300).lapic j).getPin (Icr.vector value) = 256 := by
    rw [h.lapic_write_of_mem hj, getPin_raise _ hlt]
  rw [← hpin]
  refine pendingVector_of_highest hne henabled ?_ (fun u hu => ?_) fun u hu => ?_
  · exact (hx.requested j _).2 (Or.inr ⟨hj, rfl⟩)
  · rcases (hx.requested j u).1 hu with hu | ⟨_, rfl⟩
    · exact hacc.requested u hu
    · exact ⟨hv, le_rfl⟩
  · exact hacc.inService u ((hx.inService j u).1 hu)

/-- **An inter-processor interrupt is exact when the sender's summary bit suffices**: the vector is
raised at its destinations and nothing else changes; a destination that accepts it finds it at its
next `pending_vector`. -/
theorem ipiExact_iff (s : Apics) (i : ℕ) (value : Word) (h : s.FixedIpi i value) :
    (s.IpiExact i value ↔ s.SenderSuffices i value) ∧
      (s.SenderSuffices i value → ∀ j, s.Destination i value (s.lapic i).icrhi j →
        s.Accepts j (Icr.vector value) →
          ((s.write i value 0x300).pendingVector j).1 = some (Icr.vector value, 256)) :=
  ⟨⟨h.senderSuffices, h.ipiExact⟩, fun hc _ hj hacc => h.found (h.ipiExact hc) hj hacc⟩

theorem ipiExact_self :
    (boot 2 0).IpiExact 0 0x40041 ∧
      (((boot 2 0).write 0 0x40041 0x300).pendingVector 0).1 = some (65, 256) := by
  have hsh : Icr.destShorthand 0x40041 = .self := by decide
  have hdest : ∀ d, (boot 2 0).Destination 0 0x40041 ((boot 2 0).lapic 0).icrhi d ↔ d = 0 := by
    intro d
    simp only [Destination, hsh]
  have hquiet := quiet_boot 2 0
  have h : (boot 2 0).FixedIpi 0 0x40041 :=
    ⟨by decide, by decide, by decide, by decide, by decide,
      fun d hd => by rw [(hdest d).1 hd]; decide⟩
  have hc : (boot 2 0).SenderSuffices 0 0x40041 :=
    Or.inr ⟨by decide, fun d hd hne => absurd ((hdest d).1 hd) hne, Or.inl ((hdest 0).2 rfl)⟩
  exact ⟨(ipiExact_iff (boot 2 0) 0 0x40041 h).1.2 hc,
    (ipiExact_iff (boot 2 0) 0 0x40041 h).2 hc 0 ((hdest 0).2 rfl)
      ⟨hquiet.enabled, fun u hu => absurd hu (hquiet.notRequested u),
        fun u hu => absurd hu (hquiet.notInService u)⟩⟩

def twoVcpus : Apics := ((boot 2 0).write 1 0x1ff 0x0f0).write 0 0x01000000 0x310

theorem not_ipiExact_other :
    twoVcpus.FixedIpi 0 65 ∧
      (∀ d, twoVcpus.Destination 0 65 (twoVcpus.lapic 0).icrhi d ↔ d = 1) ∧
      (twoVcpus.write 0 65 0x300).Requested 1 65 ∧
      ((twoVcpus.write 0 65 0x300).pendingVector 1).1 = none ∧
      (twoVcpus.write 0 65 0x300).summary 0 65 = true ∧
      ¬ twoVcpus.IpiExact 0 65 := by
  have hsh : Icr.destShorthand 65 = .no := by decide
  have hmode : Icr.destinationMode 65 = false := by decide
  have hone : (Icr.dest (twoVcpus.lapic 0).icrhi).toNat = 1 := by decide +kernel
  have hdest : ∀ d, twoVcpus.Destination 0 65 (twoVcpus.lapic 0).icrhi d ↔ d = 1 := by
    intro d
    simp only [Destination, hsh, hmode, hone, Bool.false_eq_true, if_false]
  have hzero : ((twoVcpus.write 0 65 0x300).cpu 1).irqVectors = 0 := by decide +kernel
  have hirr : ((twoVcpus.write 0 65 0x300).lapic 1).testRr .irr 65 = true := by decide +kernel
  have hid : (twoVcpus.lapic 0).getId = 0 := by decide +kernel
  refine ⟨⟨by decide, by decide, hid, by decide, by decide,
    fun d hd => by rw [(hdest d).1 hd]; decide⟩, hdest, ⟨by decide, hirr⟩, ?_,
    by decide +kernel, ?_⟩
  · rw [pendingVector, if_pos hzero]
  · intro hx
    have := (hx.summary 1 10).2 (Or.inr ⟨(hdest 1).2 rfl, by decide⟩)
    exact absurd this (by decide)

end Apics
end Wedge
