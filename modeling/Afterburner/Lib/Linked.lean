import Mathlib.Logic.Function.Basic
import Afterburner.Lib.Search

/-!
# Circular doubly linked lists in one memory

The links are one pair of functions on the nodes. The head of a list is a node of its own.
-/

namespace Linked
open Function List
variable {ν : Type*}

structure Links (ν : Type*) where
  next : ν → ν
  prev : ν → ν

def Path (l : Links ν) : ν → List ν → ν → Prop
  | a, [], b => l.next a = b ∧ l.prev b = a
  | a, e :: es, b => l.next a = e ∧ l.prev e = a ∧ Path l e es b

variable {es : List ν} (l : Links ν)

theorem Path.congr {l l' : Links ν} {a b : ν} (h : Path l a es b)
    (hnext : ∀ n ∈ a :: es, l'.next n = l.next n) (hprev : ∀ n ∈ es ++ [b], l'.prev n = l.prev n) :
    Path l' a es b := by
  induction es generalizing a with
  | nil =>
    have hn := hnext a mem_cons_self
    have hp := hprev b (by simp)
    exact ⟨hn.trans h.1, hp.trans h.2⟩
  | cons e es ih =>
    obtain ⟨hnext_a, hprev_e, hrest⟩ := h
    have hn := hnext a mem_cons_self
    have hp := hprev e mem_cons_self
    refine ⟨hn.trans hnext_a, hp.trans hprev_e, ih hrest (fun n hmem => ?_) (fun n hmem => ?_)⟩
    · exact hnext n (mem_cons_of_mem a hmem)
    · exact hprev n (mem_cons_of_mem e hmem)

structure Circular (head : ν) (es : List ν) : Prop where
  path : Path l head es head
  nodup : (head :: es).Nodup

theorem Circular.congr {l l' : Links ν} {head : ν} (h : Circular l head es)
    (hsame : ∀ n ∈ head :: es, l'.next n = l.next n ∧ l'.prev n = l.prev n) :
    Circular l' head es := by
  refine ⟨h.path.congr (fun n hn => (hsame n hn).1) (fun n hn => (hsame n ?_).2), h.nodup⟩
  rcases mem_append.1 hn with hn | hn
  · exact mem_cons_of_mem head hn
  · rw [mem_singleton.1 hn]
    exact mem_cons_self

theorem Circular.next_mem {l : Links ν} {head : ν} (h : Circular l head es) :
    l.next head ∈ head :: es := by
  cases es with
  | nil => rw [h.path.1]; exact mem_cons_self
  | cons e es => rw [h.path.1]; exact mem_cons_of_mem head mem_cons_self

structure Lists (heads : ν → Prop) (elems : ν → List ν) : Prop where
  circular : ∀ h, heads h → Circular l h (elems h)
  disjoint : ∀ h h', heads h → heads h' → h ≠ h' → List.Disjoint (h :: elems h) (h' :: elems h')

theorem Lists.mono {l : Links ν} {heads heads' : ν → Prop} {elems : ν → List ν}
    (hl : Lists l heads elems) (h : ∀ n, heads' n → heads n) : Lists l heads' elems :=
  ⟨fun n hn => hl.circular n (h n hn), fun n n' hn hn' => hl.disjoint n n' (h n hn) (h n' hn')⟩

section Operations
variable [DecidableEq ν]

def Links.initHead (n : ν) : Links ν :=
  ⟨update l.next n n, update l.prev n n⟩

def Links.add (new head : ν) : Links ν where
  next := update (update l.next new (l.next head)) head new
  prev := update (update l.prev (l.next head) new) new head

def forEach (l : Links ν) (head : ν) (p : ν → Bool) : ℕ → ν → List ν × Option ν
  | 0, _ => ([], none)
  | n + 1, elem =>
    if elem = head then ([], none)
    else if p elem then ([elem], some elem)
    else
      let r := forEach l head p n (l.next elem)
      (elem :: r.1, r.2)

variable {l} {heads : ν → Prop} {elems : ν → List ν} {head : ν} {es : List ν}
section Add
variable {new n : ν}

theorem Links.add_next_head (l : Links ν) (new head : ν) : (l.add new head).next head = new :=
  update_self ..

theorem Links.add_prev_new (l : Links ν) (new head : ν) : (l.add new head).prev new = head :=
  update_self ..

theorem Links.add_next_new (h : new ≠ head) : (l.add new head).next new = l.next head :=
  (update_of_ne h ..).trans (update_self ..)

theorem Links.add_prev_next (h : l.next head ≠ new) :
    (l.add new head).prev (l.next head) = new :=
  (update_of_ne h ..).trans (update_self ..)

theorem Links.add_next_of_ne (hhead : n ≠ head) (hnew : n ≠ new) :
    (l.add new head).next n = l.next n :=
  (update_of_ne hhead ..).trans (update_of_ne hnew ..)

theorem Links.add_prev_of_ne (hnew : n ≠ new) (hnext : n ≠ l.next head) :
    (l.add new head).prev n = l.prev n :=
  (update_of_ne hnew ..).trans (update_of_ne hnext ..)

end Add

theorem Path.forEach_eq (p : ν → Bool) {a : ν} (h : Path l a es head) (hne : head ∉ es) :
    ∀ n, es.length < n → forEach l head p n (l.next a) = (Search.visited p es, es.find? p) := by
  induction es generalizing a with
  | nil =>
    intro n hn
    obtain ⟨n, rfl⟩ := Nat.exists_eq_succ_of_ne_zero (by simpa using hn.ne')
    rw [forEach, if_pos h.1]
    rfl
  | cons e es ih =>
    intro n hn
    obtain ⟨n, rfl⟩ := Nat.exists_eq_succ_of_ne_zero (Nat.ne_zero_of_lt hn)
    obtain ⟨hnext, -, hrest⟩ := h
    obtain ⟨hne_e, hne_es⟩ := not_or.1 (mt mem_cons.2 hne)
    rw [length_cons] at hn
    rw [forEach, hnext, if_neg (Ne.symm hne_e), Search.visited, find?_cons]
    cases hp : p e with
    | true => rfl
    | false =>
      have hrec := ih hrest hne_es n (by omega)
      simp only [Bool.false_eq_true, if_false, hrec]

theorem Circular.forEach_eq (h : Circular l head es) (p : ν → Bool) {n : ℕ} (hn : es.length < n) :
    forEach l head p n (l.next head) = (Search.visited p es, es.find? p) :=
  h.path.forEach_eq p (nodup_cons.1 h.nodup).1 n hn

theorem Lists.initHead (hl : Lists l heads elems) {n : ν}
    (hn : ∀ h, heads h → n ∉ h :: elems h) (hnil : elems n = []) :
    Lists (l.initHead n) (fun h => h = n ∨ heads h) elems := by
  have hcirc : ∀ h, heads h → Circular (l.initHead n) h (elems h) := by
    intro h hh
    refine (hl.circular h hh).congr fun m hm => ?_
    have hne : m ≠ n := by
      rintro rfl
      exact hn h hh hm
    exact ⟨update_of_ne hne .., update_of_ne hne ..⟩
  constructor
  · rintro h (rfl | hh)
    · rw [hnil]
      exact ⟨⟨update_self .., update_self ..⟩, nodup_singleton h⟩
    · exact hcirc h hh
  · rintro h h' (rfl | hh) (rfl | hh') hne
    · exact absurd rfl hne
    · rw [hnil]
      intro m hm hm'
      rw [mem_singleton.1 hm] at hm'
      exact hn h' hh' hm'
    · rw [hnil]
      intro m hm hm'
      rw [mem_singleton.1 hm'] at hm
      exact hn h hh hm
    · exact hl.disjoint h h' hh hh' hne

theorem Circular.add (h : Circular l head es) {new : ν} (hnew : new ∉ head :: es) :
    Circular (l.add new head) head (new :: es) := by
  obtain ⟨hnew_head, hnew_es⟩ := not_or.1 (mt mem_cons.2 hnew)
  obtain ⟨hhead, hnodup⟩ := nodup_cons.1 h.nodup
  have hnext_new := Links.add_next_new (l := l) hnew_head
  refine ⟨⟨l.add_next_head new head, l.add_prev_new new head, ?_⟩, ?_⟩
  · cases es with
    | nil =>
      have hnext := h.path.1
      have hprev : (l.add new head).prev (l.next head) = new :=
        Links.add_prev_next fun heq => hnew_head (heq.symm.trans hnext)
      rw [hnext] at hnext_new hprev
      exact ⟨hnext_new, hprev⟩
    | cons e es =>
      obtain ⟨hnext, -, hrest⟩ := h.path
      obtain ⟨he, -⟩ := nodup_cons.1 hnodup
      obtain ⟨hnew_e, -⟩ := not_or.1 (mt mem_cons.2 hnew_es)
      have hprev : (l.add new head).prev (l.next head) = new :=
        Links.add_prev_next fun heq => hnew_e (heq.symm.trans hnext)
      rw [hnext] at hnext_new hprev
      refine ⟨hnext_new, hprev, hrest.congr (fun n hn => ?_) (fun n hn => ?_)⟩
      · -- neither the head nor the new node is among the old elements
        have hne_head : n ≠ head := fun heq => hhead (heq ▸ hn)
        have hne_new : n ≠ new := fun heq => hnew_es (heq ▸ hn)
        exact Links.add_next_of_ne hne_head hne_new
      · -- only the old first element gets another predecessor
        have hne_new : n ≠ new := by
          rintro rfl
          rcases mem_append.1 hn with hn | hn
          · exact hnew_es (mem_cons_of_mem e hn)
          · exact hnew_head (mem_singleton.1 hn)
        have hne_e : n ≠ e := by
          rintro rfl
          rcases mem_append.1 hn with hn | hn
          · exact he hn
          · exact hhead (mem_singleton.1 hn ▸ mem_cons_self)
        exact Links.add_prev_of_ne hne_new (hnext ▸ hne_e)
  · refine nodup_cons.2 ⟨?_, nodup_cons.2 ⟨hnew_es, hnodup⟩⟩
    exact mt mem_cons.1 (not_or.2 ⟨Ne.symm hnew_head, hhead⟩)

theorem Lists.add (hl : Lists l heads elems) (hhead : heads head) {new : ν}
    (hnew : ∀ h, heads h → new ∉ h :: elems h) :
    Lists (l.add new head) heads (update elems head (new :: elems head)) := by
  have hcirc := hl.circular head hhead
  have hmem : ∀ h, heads h → ∀ m ∈ h :: update elems head (new :: elems head) h,
      m ∈ h :: elems h ∨ h = head ∧ m = new := by
    intro h hh m hm
    rcases eq_or_ne h head with rfl | hne
    · rw [update_self] at hm
      rcases mem_cons.1 hm with rfl | hm
      · exact Or.inl mem_cons_self
      · rcases mem_cons.1 hm with rfl | hm
        · exact Or.inr ⟨rfl, rfl⟩
        · exact Or.inl (mem_cons_of_mem h hm)
    · rw [update_of_ne hne] at hm
      exact Or.inl hm
  constructor
  · intro h hh
    rcases eq_or_ne h head with rfl | hne
    · rw [update_self]
      exact hcirc.add (hnew h hh)
    · rw [update_of_ne hne]
      refine (hl.circular h hh).congr fun m hm => ?_
      have hdisj := hl.disjoint h head hh hhead hne
      have hne_new : m ≠ new := by
        rintro rfl
        exact hnew h hh hm
      have hne_head : m ≠ head := by
        rintro rfl
        exact hdisj hm mem_cons_self
      have hne_next : m ≠ l.next head := by
        rintro rfl
        exact hdisj hm hcirc.next_mem
      exact ⟨Links.add_next_of_ne hne_head hne_new, Links.add_prev_of_ne hne_new hne_next⟩
  · intro h h' hh hh' hne m hm hm'
    rcases hmem h hh m hm with hold | ⟨rfl, rfl⟩
    · rcases hmem h' hh' m hm' with hold' | ⟨-, rfl⟩
      · exact hl.disjoint h h' hh hh' hne hold hold'
      · exact hnew h hh hold
    · grind

end Operations
end Linked
