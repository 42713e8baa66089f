import Mathlib.Data.Fintype.EquivFin
import Mathlib.Logic.Relation
import Mathlib.Tactic

/-!
# Runs of a state machine

Two forms of runs, with the rule that turns a step lemma into a statement about whole runs.
-/

namespace Runs
open List
variable {σ α : Type*}

def run (step : σ → α → σ) (s : σ) (as : List α) : σ := as.foldl step s
section
variable (step : σ → α → σ) (s : σ)

@[simp] theorem run_nil : run step s [] = s := rfl

@[simp] theorem run_cons (a : α) (as : List α) :
    run step s (a :: as) = run step (step s a) as := rfl

theorem run_append (as bs : List α) :
    run step s (as ++ bs) = run step (run step s as) bs := foldl_append ..

end

def Guarded (step : σ → α → σ) (ok : σ → α → Prop) : σ → List α → Prop
  | _, [] => True
  | s, a :: as => ok s a ∧ Guarded step ok (step s a) as

instance decidableGuarded (step : σ → α → σ) (ok : σ → α → Prop) [∀ s a, Decidable (ok s a)] :
    (s : σ) → (as : List α) → Decidable (Guarded step ok s as)
  | _, [] => .isTrue trivial
  | s, a :: as => @instDecidableAnd _ _ _ (decidableGuarded step ok (step s a) as)

variable {step : σ → α → σ} {ok : σ → α → Prop} {A : α → Prop} {I : σ → Prop} {s : σ} {as : List α}

theorem run_invariant_of_mem (hstep : ∀ s a, A a → I s → ok s a → I (step s a)) (hs : I s)
    (has : ∀ a ∈ as, A a) (hg : Guarded step ok s as) : I (run step s as) := by
  induction as generalizing s with
  | nil => exact hs
  | cons a as ih =>
    refine ih (hstep s a (has a mem_cons_self) hs hg.1) (fun b hb => ?_) hg.2
    exact has b (mem_cons_of_mem a hb)

theorem run_invariant (hstep : ∀ s a, I s → ok s a → I (step s a)) (hs : I s)
    (hg : Guarded step ok s as) : I (run step s as) :=
  run_invariant_of_mem (A := fun _ => True) (fun s a _ => hstep s a) hs (fun _ _ => trivial) hg

theorem run_invariant_of_forall (hstep : ∀ s a, I s → I (step s a)) (hs : I s) (as : List α) :
    I (run step s as) := by
  induction as generalizing s with
  | nil => exact hs
  | cons a as ih => exact ih (hstep s a hs)

theorem run_replicate_rel {τ β : Type*} {step' : τ → β → τ} {R : σ → τ → Prop} {a : α} {b : β}
    (hstep : ∀ s t, R s t → R (step s a) (step' t b)) {t : τ} (h : R s t) (m : ℕ) :
    R (run step s (replicate m a)) (run step' t (replicate m b)) := by
  induction m generalizing s t with
  | zero => exact h
  | succ m ih => exact ih (hstep s t h)

section
variable {f : σ → α → Option σ}

theorem foldlM_invariant {I : List α → σ → Prop}
    (hstep : ∀ pre a s s', I pre s → f s a = some s' → I (pre ++ [a]) s') {s' : σ} (hs : I [] s)
    (h : as.foldlM f s = some s') : I as s' := by
  suffices hrest : ∀ (pre as : List α) (s : σ), I pre s → as.foldlM f s = some s' →
      I (pre ++ as) s' from hrest [] as s hs h
  intro pre as
  induction as generalizing pre with
  | nil =>
    intro s hs h
    obtain rfl := Option.some.inj h
    rwa [append_nil]
  | cons a as ih =>
    intro s hs h
    obtain ⟨t, ht, h⟩ := Option.bind_eq_some_iff.1 h
    have hrest := ih (pre ++ [a]) t (hstep pre a s t hs ht) h
    rwa [append_assoc] at hrest

/-- `foldlM_invariant` as an equivalence: a property of all states is a condition on all steps. -/
theorem foldlM_forall_prefix_iff
    (hstep : ∀ s a t, I s → f s a = some t → (I t ↔ ok s a)) (hs : I s) :
    (∀ pre t, pre <+: as → pre.foldlM f s = some t → I t) ↔
      ∀ pre a t u, pre ++ [a] <+: as → pre.foldlM f s = some t → f t a = some u → ok t a := by
  constructor
  · intro h pre a t u hpre ht hu
    refine (hstep t a u (h pre t ((prefix_append pre [a]).trans hpre) ht) hu).1 ?_
    exact h (pre ++ [a]) u hpre (by simp [ht, hu])
  · intro h pre t hpre ht
    refine (foldlM_invariant (I := fun pre t => pre <+: as → pre.foldlM f s = some t ∧ I t)
      (fun pre a t u hI hu hpre => ?_) (fun _ => ⟨rfl, hs⟩) ht hpre).2
    obtain ⟨ht, hI⟩ := hI ((prefix_append pre [a]).trans hpre)
    exact ⟨by simp [ht, hu], (hstep t a u hI hu).2 (h pre a t u hpre ht hu)⟩

theorem foldlM_total {I : List α → σ → Prop}
    (hstep : ∀ pre a s, I pre s → ∃ t, f s a = some t ∧ I (pre ++ [a]) t) (as : List α) :
    ∀ pre s, I pre s → ∃ t, as.foldlM f s = some t ∧ I (pre ++ as) t := by
  induction as with
  | nil => simp
  | cons a as ih =>
    intro pre s hs
    obtain ⟨t, ht, hI⟩ := hstep pre a s hs
    obtain ⟨u, hu, hI⟩ := ih (pre ++ [a]) t hI
    refine ⟨u, ?_, by rwa [append_assoc] at hI⟩
    rw [foldlM_cons, ht]
    exact hu

end

theorem guarded_true (step : σ → α → σ) (s : σ) (as : List α) :
    Guarded step (fun _ _ => True) s as := by
  induction as generalizing s with
  | nil => trivial
  | cons a as ih => exact ⟨trivial, ih (step s a)⟩

theorem guarded_append {bs : List α} :
    Guarded step ok s (as ++ bs) ↔ Guarded step ok s as ∧ Guarded step ok (run step s as) bs := by
  induction as generalizing s with
  | nil => simp [Guarded]
  | cons a as ih => rw [cons_append, Guarded, Guarded, run_cons, ih, and_assoc]

theorem guarded_snoc {a : α} :
    Guarded step ok s (as ++ [a]) ↔ Guarded step ok s as ∧ ok (run step s as) a := by
  rw [guarded_append]
  simp [Guarded]

theorem guarded_iff_forall_split :
    Guarded step ok s as ↔ ∀ pre a post, as = pre ++ a :: post → ok (run step s pre) a := by
  constructor
  · rintro h pre a post rfl
    exact (guarded_append.1 h).2.1
  · intro h
    induction as generalizing s with
    | nil => trivial
    | cons a as ih =>
      refine ⟨h [] a as rfl, ih fun pre b post heq => ?_⟩
      exact h (a :: pre) b post (congrArg (a :: ·) heq)

theorem forall_prefix_iff_guarded {Q : σ → List α → Prop} (hI : ∀ s a, A a → I s → I (step s a))
    (hQ : ∀ s pre a, I s → (∀ b ∈ pre, A b) → A a → Q s pre → (Q (step s a) (pre ++ [a]) ↔ ok s a))
    (hs : I s) (h0 : Q s []) (has : ∀ a ∈ as, A a) :
    (∀ pre, pre <+: as → Q (run step s pre) pre) ↔ Guarded step ok s as := by
  induction as using reverseRecOn with
  | nil => simp [Guarded, h0]
  | append_singleton as a ih =>
    have hold : ∀ b ∈ as, A b := fun b hb => has b (mem_append_left _ hb)
    have hrun : I (run step s as) :=
      run_invariant_of_mem (fun s a ha hs _ => hI s a ha hs) hs hold (guarded_true step s as)
    have hexact := hQ (run step s as) as a hrun hold (has a (by simp))
    rw [guarded_snoc, ← ih hold]
    constructor
    · intro h
      refine ⟨fun pre hpre => h pre (hpre.trans (prefix_append as [a])), ?_⟩
      have hlast := h (as ++ [a]) (prefix_refl _)
      rw [run_append] at hlast
      exact (hexact (h as (prefix_append as [a]))).1 hlast
    · rintro ⟨h, hok⟩ pre hpre
      rcases prefix_concat_iff.1 hpre with rfl | hpre
      · rw [run_append]
        exact (hexact (h as (prefix_refl _))).2 hok
      · exact h pre hpre

theorem forall_prefix_iff {Q : σ → Prop} :
    (∀ pre, pre <+: as → Q (run step s pre)) ↔
      Q s ∧ Guarded step (fun s a => Q (step s a)) s as := by
  induction as generalizing s with
  | nil => simp [Guarded]
  | cons a as ih =>
    rw [Guarded, ← ih]
    constructor
    · intro h
      refine ⟨h [] nil_prefix, fun pre hpre => ?_⟩
      exact h (a :: pre) ((prefix_cons_inj a).2 hpre)
    · rintro ⟨hs, h⟩ pre hpre
      rcases prefix_cons_iff.1 hpre with rfl | ⟨rest, rfl, hrest⟩
      · exact hs
      · exact h rest hrest

theorem guarded_congr {ok' : σ → α → Prop} (hI : ∀ s a, A a → I s → ok s a → I (step s a))
    (hok : ∀ s a, A a → I s → (ok s a ↔ ok' s a)) (hs : I s) (has : ∀ a ∈ as, A a) :
    Guarded step ok s as ↔ Guarded step ok' s as := by
  induction as generalizing s with
  | nil => exact Iff.rfl
  | cons a as ih =>
    have ha : A a := has a mem_cons_self
    have hrest : ∀ b ∈ as, A b := fun b hb => has b (mem_cons_of_mem a hb)
    unfold Guarded
    rw [← hok s a ha hs]
    exact and_congr_right fun h => ih (hI s a ha hs h) hrest

theorem guarded_congr_of_guarded {allowed ok' : σ → α → Prop}
    (hI : ∀ s a, I s → allowed s a → I (step s a))
    (hok : ∀ s a, I s → allowed s a → (ok s a ↔ ok' s a)) (hs : I s)
    (h : Guarded step allowed s as) : Guarded step ok s as ↔ Guarded step ok' s as := by
  induction as generalizing s with
  | nil => exact Iff.rfl
  | cons a as ih =>
    unfold Guarded
    rw [hok s a hs h.1]
    exact and_congr_right fun _ => ih (hI s a hs h.1) h.2

theorem guarded_of_guarded {ok' : σ → α → Prop} (hI : ∀ s a, I s → ok s a → I (step s a))
    (hok : ∀ s a, I s → ok s a → ok' s a) (hs : I s) (h : Guarded step ok s as) :
    Guarded step ok' s as := by
  induction as generalizing s with
  | nil => trivial
  | cons a as ih => exact ⟨hok s a hs h.1, ih (hI s a hs h.1) h.2⟩

theorem forall_split_iff_guarded {J : List α → σ → Prop} {P : List α → σ → α → Prop}
    (hJ : ∀ pre s a, J pre s → P pre s a → J (pre ++ [a]) (step s a))
    (hP : ∀ pre s a, J pre s → (P pre s a ↔ ok s a)) {before : List α} (h : J before s)
    (as : List α) :
    (∀ pre a post, as = pre ++ a :: post → P (before ++ pre) (run step s pre) a) ↔
      Guarded step ok s as := by
  induction as generalizing s before with
  | nil => simp [Guarded]
  | cons a as ih =>
    unfold Guarded
    rw [← hP before s a h]
    constructor
    · intro hall
      have ha : P before s a := by simpa using hall [] a as rfl
      refine ⟨ha, (ih (hJ before s a h ha)).1 fun pre b post heq => ?_⟩
      have hb := hall (a :: pre) b post (by rw [heq]; rfl)
      rwa [run_cons, append_cons] at hb
    · rintro ⟨ha, hrest⟩ pre b post heq
      cases pre with
      | nil =>
        obtain ⟨rfl, -⟩ := cons.inj heq
        simpa using ha
      | cons a' pre =>
        obtain ⟨rfl, htail⟩ := cons.inj heq
        have hb := (ih (hJ before s a h ha)).2 hrest pre b post htail
        rwa [run_cons, append_cons]

section Outputs
variable {τ β : Type*}

def outputs (exec : σ → α → β × σ) : σ → List α → List β
  | _, [] => []
  | s, a :: as => (exec s a).1 :: outputs exec (exec s a).2 as

theorem outputs_eq_of_rel {exec : σ → α → β × σ} {exec' : τ → α → β × τ} {R : σ → τ → Prop}
    {A : α → Prop} (hstep : ∀ s t a, A a → R s t →
      (exec s a).1 = (exec' t a).1 ∧ R (exec s a).2 (exec' t a).2) {s : σ} {t : τ} {as : List α}
    (h : R s t) (has : ∀ a ∈ as, A a) : outputs exec s as = outputs exec' t as := by
  induction as generalizing s t with
  | nil => rfl
  | cons a as ih =>
    obtain ⟨hout, hnext⟩ := hstep s t a (has a mem_cons_self) h
    unfold outputs
    rw [hout, ih hnext fun b hb => has b (mem_cons_of_mem a hb)]

end Outputs

abbrev Reach (R : σ → σ → Prop) : σ → σ → Prop := Relation.ReflTransGen R

theorem reach_invariant {R : σ → σ → Prop} (hstep : ∀ s t, I s → R s t → I t) {t : σ} (hs : I s)
    (h : Reach R s t) : I t := by
  induction h with
  | refl => exact hs
  | tail _ hst ih => exact hstep _ _ ih hst

section Stopping
variable {β : Type*} (step : σ → σ ⊕ β)

def runFor : ℕ → σ → σ ⊕ β
  | 0, s => .inl s
  | n + 1, s =>
    match step s with
    | .inl t => runFor n t
    | .inr b => .inr b

def Moves (s t : σ) : Prop := step s = .inl t

variable {step}
variable {s : σ}

theorem runFor_succ_of_moves {t : σ} (h : Moves step s t) (n : ℕ) :
    runFor step (n + 1) s = runFor step n t := by
  have h' : step s = .inl t := h
  simp only [runFor, h']

theorem reach_of_runFor {n : ℕ} {t : σ} (h : runFor step n s = .inl t) :
    Reach (Moves step) s t := by
  induction n generalizing s with
  | zero => obtain rfl := Sum.inl.inj h; exact .refl
  | succ n ih =>
    cases hs : step s with
    | inl u =>
      rw [runFor_succ_of_moves hs] at h
      exact .head hs (ih h)
    | inr b => simp [runFor, hs] at h

theorem exists_runFor_inr_iff {b : β} :
    (∃ n, runFor step n s = .inr b) ↔ ∃ t, Reach (Moves step) s t ∧ step t = .inr b := by
  constructor
  · rintro ⟨n, hn⟩
    induction n generalizing s with
    | zero => cases hn
    | succ n ih =>
      cases hs : step s with
      | inl u =>
        rw [runFor_succ_of_moves hs] at hn
        obtain ⟨t, hut, ht⟩ := ih hn
        exact ⟨t, .head hs hut, ht⟩
      | inr c =>
        have hc : c = b := by simpa [runFor, hs] using hn
        exact ⟨s, .refl, hc ▸ hs⟩
  · rintro ⟨t, hst, ht⟩
    induction hst using Relation.ReflTransGen.head_induction_on with
    | refl => exact ⟨1, by simp [runFor, ht]⟩
    | head hsu _ ih =>
      obtain ⟨n, hn⟩ := ih
      exact ⟨n + 1, by rw [runFor_succ_of_moves hsu, hn]⟩

def Loops (step : σ → σ ⊕ β) (s : σ) : Prop :=
  ∃ t, Reach (Moves step) s t ∧ Relation.TransGen (Moves step) t t

theorem Loops.moves (h : Loops step s) : ∃ t, Moves step s t ∧ Loops step t := by
  obtain ⟨t, hst, htt⟩ := h
  rcases Relation.ReflTransGen.cases_head hst with rfl | ⟨u, hsu, hut⟩
  · obtain ⟨u, hsu, hus⟩ := Relation.TransGen.head'_iff.1 htt
    exact ⟨u, hsu, s, hus, htt⟩
  · exact ⟨u, hsu, t, hut, htt⟩

theorem Loops.runFor (h : Loops step s) (n : ℕ) : ∃ t, runFor step n s = .inl t := by
  induction n generalizing s with
  | zero => exact ⟨s, rfl⟩
  | succ n ih =>
    obtain ⟨t, hst, ht⟩ := h.moves
    rw [runFor_succ_of_moves hst]
    exact ih ht

theorem runFor_add_of_inl {m n : ℕ} {t : σ} (h : runFor step m s = .inl t) :
    runFor step (m + n) s = runFor step n t := by
  induction m generalizing s with
  | zero => obtain rfl := Sum.inl.inj h; rw [Nat.zero_add]
  | succ m ih =>
    cases hs : step s with
    | inl u =>
      rw [runFor_succ_of_moves hs] at h
      rw [Nat.add_right_comm, runFor_succ_of_moves hs, ih h]
    | inr b => simp [Runs.runFor, hs] at h

theorem transGen_of_runFor {n : ℕ} {t : σ} (h : runFor step (n + 1) s = .inl t) :
    Relation.TransGen (Moves step) s t := by
  cases hs : step s with
  | inl u =>
    rw [runFor_succ_of_moves hs] at h
    exact Relation.TransGen.head' hs (reach_of_runFor h)
  | inr b => simp [runFor, hs] at h

/-- **A machine with finitely many states stops exactly when it reaches no loop.** -/
theorem stops_iff [Finite σ] (s : σ) : (∃ n b, runFor step n s = .inr b) ↔ ¬ Loops step s := by
  constructor
  · rintro ⟨n, b, hn⟩ hloop
    obtain ⟨t, ht⟩ := hloop.runFor n
    rw [ht] at hn
    cases hn
  · intro hloop
    by_contra hnever
    push Not at hnever
    -- the machine is in some state at every time, so two of them coincide
    have hall : ∀ n, ∃ t, runFor step n s = .inl t := by
      intro n
      cases hn : runFor step n s with
      | inl t => exact ⟨t, rfl⟩
      | inr b => exact absurd hn (hnever n b)
    choose f hf using hall
    have hcycle : ∀ i j, i < j → f i = f j → False := by
      intro i j hij hfij
      obtain ⟨k, rfl⟩ := Nat.exists_eq_add_of_lt hij
      have hk := runFor_add_of_inl (hf i) (n := k + 1)
      rw [← Nat.add_assoc, hf, ← hfij] at hk
      exact hloop ⟨f i, reach_of_runFor (hf i), transGen_of_runFor hk.symm⟩
    obtain ⟨i, j, hij, hfij⟩ := Finite.exists_ne_map_eq_of_infinite f
    rcases lt_or_gt_of_ne hij with h | h
    · exact hcycle i j h hfij
    · exact hcycle j i h hfij.symm

end Stopping
end Runs
