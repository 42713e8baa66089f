import Mathlib

/-!
# String port I/O across pages

The guest's buffer is cut into pieces that lie in one page. An element in two pages is in no piece.
-/

namespace Wedge.StringIo
open List BitVec

abbrev Word := BitVec 32

structure Guest where
  paging : Bool
  pdir : ℕ → Word
  ptab : ℕ → ℕ → Word

def isValid (e : Word) : Bool := e.getLsbD 0
def isSuperpage (e : Word) : Bool := e.getLsbD 7
def pageBits (superpage : Bool) : ℕ := if superpage then 22 else 12

def frameAddr (bits : ℕ) (e a : Word) : Word :=
  BitVec.ofNat 32 (e.toNat - e.toNat % 2 ^ bits + a.toNat % 2 ^ bits)

inductive Width
  | byte
  | word
  | dword
  deriving DecidableEq

def Width.bytes : Width → ℕ
  | .byte => 1
  | .word => 2
  | .dword => 4

namespace Guest
variable (g : Guest)

def pde (a : Word) : Word := g.pdir (a.toNat / 2 ^ 22)
def pte (a : Word) : Word := g.ptab (a.toNat / 2 ^ 22) (a.toNat / 2 ^ 12 % 2 ^ 10)

def backendResolveAddr (a : Word) : Option Word :=
  if isValid (g.pde a) = false then none
  else if isSuperpage (g.pde a) then some (g.pde a)
  else if isValid (g.pte a) = false then none
  else some (g.pte a)

def backendResolveKaddr (a : Word) (size : ℕ) : Option (Word × ℕ) :=
  if g.paging = false then some (a, size)
  else
    (g.backendResolveAddr a).map fun e =>
      let bits := pageBits (isSuperpage e)
      (frameAddr bits e a, min size (2 ^ bits - a.toNat % 2 ^ bits))

def pieces (mem : Word) (size : ℕ) : ℕ → ℕ → Option (List (Word × ℕ))
  | 0, _ => some []
  | fuel + 1, n =>
    if n < size then
      (g.backendResolveKaddr (mem + BitVec.ofNat 32 n) (size - n)).bind fun p =>
        (pieces mem size fuel (n + p.2)).map (p :: ·)
    else some []

def elements (w : Width) (p : Word × ℕ) : List (List Word) :=
  (range (p.2 / w.bytes)).map fun j =>
    (range w.bytes).map fun b => p.1 + BitVec.ofNat 32 (j * w.bytes + b)

def portioString (mem count : Word) (w : Width) : Option (List (List Word)) :=
  let size := count.toNat * w.bytes % 2 ^ 32
  (g.pieces mem size size 0).map (·.flatMap (elements w))

def translate (a : Word) : Word :=
  if g.paging = false then a
  else if isSuperpage (g.pde a) then frameAddr 22 (g.pde a) a
  else frameAddr 12 (g.pte a) a

def element (mem : Word) (w : Width) (i : ℕ) : List Word :=
  (range w.bytes).map fun b => g.translate (mem + BitVec.ofNat 32 (i * w.bytes + b))

def Exact (mem count : Word) (w : Width) : Prop :=
  g.portioString mem count w = some ((range count.toNat).map (g.element mem w))

instance (mem count : Word) (w : Width) : Decidable (g.Exact mem count w) :=
  inferInstanceAs (Decidable (_ = _))

/-- The page of `a` is mapped. -/
def Mapped (a : Word) : Prop :=
  isValid (g.pde a) = true ∧ (isSuperpage (g.pde a) = true ∨ isValid (g.pte a) = true)

/-- A 4 KB page whose entry has bit 7, the PAT bit, set. -/
def Pat (a : Word) : Prop := isSuperpage (g.pde a) = false ∧ isSuperpage (g.pte a) = true

/-- Byte `k` of the buffer is byte `j` or behind it, in the same 4 MB. -/
def Behind (mem : Word) (j k : ℕ) : Prop :=
  j ≤ k ∧ k - j ≤ (mem + BitVec.ofNat 32 k).toNat % 2 ^ 22

/-- What is left of the page of `a`. -/
def room (a : Word) : ℕ :=
  2 ^ pageBits (isSuperpage (g.pde a)) - a.toNat % 2 ^ pageBits (isSuperpage (g.pde a))

/-- An element at byte `k` ends in its page; behind a page with the PAT bit, in its 4 MB. -/
def Fits (mem : Word) (w : Width) (k : ℕ) : Prop :=
  w.bytes ≤ g.room (mem + BitVec.ofNat 32 k) ∨
    (∃ j, Behind mem j k ∧ g.Pat (mem + BitVec.ofNat 32 j)) ∧
      w.bytes ≤ 2 ^ 22 - (mem + BitVec.ofNat 32 k).toNat % 2 ^ 22

/-- `b` has the frame that a super page with the entry of `a` would give it. -/
def SameFrame (a b : Word) : Prop := frameAddr 12 (g.pte b) b = frameAddr 22 (g.pte a) b

/-- The entry that is found for `a`, and what the code takes to be left of its page. -/
def entry (a : Word) : Word := if isSuperpage (g.pde a) then g.pde a else g.pte a

def bits (a : Word) : ℕ := pageBits (isSuperpage (g.entry a))
def span (a : Word) : ℕ := 2 ^ g.bits a - a.toNat % 2 ^ g.bits a

variable {g} {a mem : Word} {j k n size : ℕ} {w : Width}

theorem Width.pos (w : Width) : 0 < w.bytes := by cases w <;> decide
theorem span_pos : 0 < g.span a := Nat.sub_pos_of_lt (Nat.mod_lt _ (Nat.two_pow_pos _))

theorem Mapped.resolve (h : g.Mapped a) (hp : g.paging = true) (size : ℕ) :
    g.backendResolveKaddr a size =
      some (frameAddr (g.bits a) (g.entry a) a, min size (g.span a)) := by
  obtain ⟨hvalid, hs | hpte⟩ := h
  · simp [backendResolveKaddr, backendResolveAddr, span, bits, entry, hp, hvalid, hs]
  · cases hs : isSuperpage (g.pde a) <;>
      simp [backendResolveKaddr, backendResolveAddr, span, bits, entry, hp, hvalid, hs, hpte]

/-- Bytes in one 4 MB. -/
theorem Behind.toNat (h : Behind mem j k) :
    (mem + BitVec.ofNat 32 k).toNat = (mem + BitVec.ofNat 32 j).toNat + (k - j) ∧
      (mem + BitVec.ofNat 32 k).toNat / 2 ^ 22 = (mem + BitVec.ofNat 32 j).toNat / 2 ^ 22 := by
  obtain ⟨hle, hk⟩ := h
  have hmem := mem.isLt
  simp only [BitVec.toNat_add, toNat_ofNat] at hk ⊢
  omega

theorem behind_of_lt (h : k < 2 ^ 22 - (mem + BitVec.ofNat 32 n).toNat % 2 ^ 22) :
    Behind mem n (n + k) := by
  have hmem := mem.isLt
  simp only [Behind, BitVec.toNat_add, toNat_ofNat] at h ⊢
  omega

theorem Behind.pde (h : Behind mem j k) :
    g.pde (mem + BitVec.ofNat 32 k) = g.pde (mem + BitVec.ofNat 32 j) := by
  rw [Guest.pde, h.toNat.2, ← Guest.pde]

theorem Behind.of_le (h : Behind mem j k) (hjn : j ≤ n) (hnk : n ≤ k) :
    Behind mem j n ∧ Behind mem n k := by
  have hmem := mem.isLt
  simp only [Behind, BitVec.toNat_add, toNat_ofNat] at h ⊢
  omega

theorem span_le : g.span a ≤ 2 ^ 22 - a.toNat % 2 ^ 22 := by
  unfold span bits pageBits
  split <;> omega

theorem room_of_not_pat (h : ¬ g.Pat a) : g.span a = g.room a ∧
    frameAddr (g.bits a) (g.entry a) a = if isSuperpage (g.pde a) then frameAddr 22 (g.pde a) a
      else frameAddr 12 (g.pte a) a := by
  unfold Pat at h
  unfold span room bits entry pageBits
  cases hs : isSuperpage (g.pde a) <;> simp_all

theorem Pat.span (h : g.Pat a) : g.span a = 2 ^ 22 - a.toNat % 2 ^ 22 ∧
    frameAddr (g.bits a) (g.entry a) a = frameAddr 22 (g.pte a) a := by
  obtain ⟨hs, hpat⟩ := h
  simp [Guest.span, bits, entry, pageBits, hs, hpat]

/-- In one page, and in what a page with the PAT bit is taken for, the frame is that of the
start. -/
theorem frameAddr_add (hk : k < g.span (mem + BitVec.ofNat 32 n)) :
    frameAddr (g.bits (mem + BitVec.ofNat 32 n)) (g.entry (mem + BitVec.ofNat 32 n))
        (mem + BitVec.ofNat 32 (n + k)) =
      frameAddr (g.bits (mem + BitVec.ofNat 32 n)) (g.entry (mem + BitVec.ofNat 32 n))
        (mem + BitVec.ofNat 32 n) + BitVec.ofNat 32 k := by
  have hadd := (behind_of_lt (hk.trans_le span_le)).toNat.1
  unfold frameAddr
  rw [hadd, ← ofNat_add, Nat.add_assoc]
  congr 2
  unfold span bits pageBits at hk
  unfold bits pageBits
  split at hk <;> simp_all <;> omega

theorem same_page (hk : k < g.room (mem + BitVec.ofNat 32 n)) :
    g.pde (mem + BitVec.ofNat 32 (n + k)) = g.pde (mem + BitVec.ofNat 32 n) ∧
      (isSuperpage (g.pde (mem + BitVec.ofNat 32 n)) = false →
        g.pte (mem + BitVec.ofNat 32 (n + k)) = g.pte (mem + BitVec.ofNat 32 n)) ∧
      g.room (mem + BitVec.ofNat 32 (n + k)) = g.room (mem + BitVec.ofNat 32 n) - k := by
  have hlt : k < 2 ^ 22 - (mem + BitVec.ofNat 32 n).toNat % 2 ^ 22 := by
    unfold room pageBits at hk
    split at hk <;> omega
  obtain ⟨hadd, hdir⟩ := (behind_of_lt hlt).toNat
  have hpde := (behind_of_lt hlt).pde (g := g)
  refine ⟨hpde, fun hs => ?_, ?_⟩
  · rw [room, hs] at hk
    simp only [pageBits, Bool.false_eq_true, if_false] at hk
    have htab : (mem + BitVec.ofNat 32 (n + k)).toNat / 2 ^ 12 =
        (mem + BitVec.ofNat 32 n).toNat / 2 ^ 12 := by omega
    rw [pte, hdir, htab, ← pte]
  · unfold room at hk ⊢
    rw [hpde]
    cases hs : isSuperpage (g.pde (mem + BitVec.ofNat 32 n)) <;>
      simp only [hs, pageBits, Bool.false_eq_true, if_true, if_false] at hk ⊢ <;> omega

theorem length_le {fuel : ℕ} {ps : List (Word × ℕ)} (h : g.pieces mem size fuel n = some ps) :
    (ps.flatMap (elements w)).length ≤ (size - n) / w.bytes := by
  induction fuel generalizing n ps with
  | zero => obtain rfl := Option.some.inj h; exact Nat.zero_le _
  | succ fuel ih =>
    unfold pieces at h
    split_ifs at h with hn
    · obtain ⟨p, hp, h⟩ := Option.bind_eq_some_iff.1 h
      obtain ⟨rest, hrest, rfl⟩ := Option.map_eq_some_iff.1 h
      have hle : p.2 ≤ size - n := by
        unfold backendResolveKaddr at hp
        split_ifs at hp
        · obtain rfl := Option.some.inj hp
          exact le_rfl
        · obtain ⟨e, -, rfl⟩ := Option.map_eq_some_iff.1 hp
          exact min_le_left _ _
      rw [flatMap_cons, length_append]
      have hsum := (Nat.add_le_add_left (ih hrest) (p.2 / w.bytes)).trans
        Nat.div_add_div_le_add_div
      rw [show p.2 + (size - (n + p.2)) = size - n by omega] at hsum
      simpa [elements] using hsum
    · obtain rfl := Option.some.inj h
      exact Nat.zero_le _

theorem sameFrame_of_sameFrame {a b c : Word} (hab : g.SameFrame a b) (hac : g.SameFrame a c) :
    g.SameFrame b c := by
  have hb := (g.pte b).isLt
  have ha := (g.pte a).isLt
  rw [SameFrame, frameAddr, frameAddr, ← toNat_inj] at hab
  simp only [toNat_ofNat] at hab
  rw [SameFrame, hac, frameAddr, frameAddr]
  congr 2
  omega

/-- No byte before `n` in the same 4 MB is in a page with the PAT bit, as it is where the loop
starts a piece. -/
def First (g : Guest) (mem : Word) (n : ℕ) : Prop :=
  ∀ j, Behind mem j n → g.Pat (mem + BitVec.ofNat 32 j) → j = n

section
variable (h : First g mem n)
include h

theorem First.le (hnk : n ≤ k) (hj : Behind mem j k) (hpat : g.Pat (mem + BitVec.ofNat 32 j)) :
    n ≤ j := by
  by_contra hlt
  have := h j (hj.of_le (by omega) hnk).1 hpat
  omega

/-- A page with the PAT bit in a piece is the first of the piece. -/
theorem First.pat (hk : k < g.span (mem + BitVec.ofNat 32 n)) (hj : Behind mem j (n + k))
    (hpat : g.Pat (mem + BitVec.ofNat 32 j)) : g.Pat (mem + BitVec.ofNat 32 n) := by
  have hle := h.le (Nat.le_add_right n k) hj hpat
  by_contra hno
  rw [(room_of_not_pat hno).1] at hk
  obtain ⟨d, rfl⟩ := Nat.exists_eq_add_of_le hle
  have hd : n + d ≤ n + k := hj.1
  obtain ⟨hpde, hpte, -⟩ := same_page (k := d) (hk.trans_le' (by omega))
  rw [Pat, hpde] at hpat
  exact hno ⟨hpat.1, hpte hpat.1 ▸ hpat.2⟩

theorem First.next : First g mem (n + g.span (mem + BitVec.ofNat 32 n)) := by
  intro j hj hpat
  by_contra hne
  have hle := h.le (Nat.le_add_right n _) hj hpat
  obtain ⟨hjle, hlow⟩ := hj
  obtain ⟨d, rfl⟩ := Nat.exists_eq_add_of_le hle
  have hstart := h.pat (k := d) (by omega) ⟨le_rfl, by omega⟩ hpat
  -- the piece ends with the 4 MB
  have hmem := mem.isLt
  rw [hstart.span.1] at *
  simp only [BitVec.toNat_add, toNat_ofNat] at hlow hjle hne
  omega

theorem First.fits_iff (hk : k < g.span (mem + BitVec.ofNat 32 n)) :
    g.Fits mem w (n + k) ↔ w.bytes + k ≤ g.span (mem + BitVec.ofNat 32 n) := by
  have hadd := (behind_of_lt (hk.trans_le span_le)).toNat.1
  unfold Fits
  by_cases hpat : g.Pat (mem + BitVec.ofNat 32 n)
  · have hroom : g.room (mem + BitVec.ofNat 32 (n + k)) ≤
        2 ^ 22 - (mem + BitVec.ofNat 32 (n + k)).toNat % 2 ^ 22 := by
      unfold room pageBits
      split <;> omega
    have hwide : ∃ j, Behind mem j (n + k) ∧ g.Pat (mem + BitVec.ofNat 32 j) :=
      ⟨n, behind_of_lt (hk.trans_le span_le), hpat⟩
    rw [and_iff_right hwide, or_iff_right_of_imp fun h => h.trans hroom]
    rw [hpat.span.1] at hk ⊢
    omega
  · have hno : ¬ ∃ j, Behind mem j (n + k) ∧ g.Pat (mem + BitVec.ofNat 32 j) :=
      fun ⟨j, hj, hjpat⟩ => hpat (h.pat hk hj hjpat)
    rw [(room_of_not_pat hpat).1] at hk ⊢
    simp only [hno, false_and, or_false, (same_page hk).2.2]
    omega

theorem First.contiguous_iff (hp : g.paging = true) {p : ℕ}
    (hpl : p ≤ g.span (mem + BitVec.ofNat 32 n)) :
    (∀ k < p, frameAddr (g.bits (mem + BitVec.ofNat 32 n)) (g.entry (mem + BitVec.ofNat 32 n))
        (mem + BitVec.ofNat 32 n) + BitVec.ofNat 32 k =
          g.translate (mem + BitVec.ofNat 32 (n + k))) ↔
      ∀ k < p, ∀ j, Behind mem j (n + k) → g.Pat (mem + BitVec.ofNat 32 j) →
        g.SameFrame (mem + BitVec.ofNat 32 j) (mem + BitVec.ofNat 32 (n + k)) := by
  have hbehind (k : ℕ) (hk : k < p) : Behind mem n (n + k) :=
    behind_of_lt (hk.trans_le (hpl.trans span_le))
  by_cases hpat : g.Pat (mem + BitVec.ofNat 32 n)
  · have hsame (k : ℕ) (hk : k < p) :
        frameAddr (g.bits (mem + BitVec.ofNat 32 n)) (g.entry (mem + BitVec.ofNat 32 n))
            (mem + BitVec.ofNat 32 n) + BitVec.ofNat 32 k =
          g.translate (mem + BitVec.ofNat 32 (n + k)) ↔
        g.SameFrame (mem + BitVec.ofNat 32 n) (mem + BitVec.ofNat 32 (n + k)) := by
      have hpde := (hbehind k hk).pde (g := g)
      rw [← frameAddr_add (hk.trans_le hpl), translate, hpde, hpat.1]
      simp only [hp, Bool.false_eq_true, if_false, bits, entry, hpat.1, hpat.2,
        pageBits, if_true, SameFrame, eq_comm]
    refine ⟨fun hall k hk j hj hjpat => ?_, fun hall k hk =>
      (hsame k hk).2 (hall k hk n (hbehind k hk) hpat)⟩
    obtain ⟨d, rfl⟩ := Nat.exists_eq_add_of_le (h.le (Nat.le_add_right n k) hj hjpat)
    have hd : d < p := by have := hj.1; omega
    exact sameFrame_of_sameFrame ((hsame d hd).1 (hall d hd)) ((hsame k hk).1 (hall k hk))
  · refine iff_of_true (fun k hk => ?_) fun k hk j hj hjpat =>
      absurd (h.pat (hk.trans_le hpl) hj hjpat) hpat
    obtain ⟨hroom, hframe⟩ := room_of_not_pat hpat
    obtain ⟨hpde, hpte, -⟩ := same_page (hroom ▸ hk.trans_le hpl)
    rw [← frameAddr_add (hk.trans_le hpl), translate, hpde, hp]
    unfold Pat at hpat
    cases hs : isSuperpage (g.pde (mem + BitVec.ofNat 32 n)) <;>
      simp_all [bits, entry, pageBits]

end

theorem elements_eq_iff {f : Word} {i q : ℕ} :
    elements w (f, q * w.bytes) = (range' i q).map (g.element mem w) ↔
      ∀ k < q * w.bytes, f + BitVec.ofNat 32 k =
        g.translate (mem + BitVec.ofNat 32 (i * w.bytes + k)) := by
  have hw := Width.pos w
  rw [range'_eq_map_range, map_map, elements, Nat.mul_div_cancel _ hw, map_inj_left]
  constructor
  · intro h k hk
    have hj := h (k / w.bytes) (mem_range.2 (Nat.div_lt_of_lt_mul (by rwa [Nat.mul_comm])))
    have hb := map_inj_left.1 hj (k % w.bytes) (mem_range.2 (Nat.mod_lt k hw))
    rwa [Nat.add_mul, Nat.add_assoc, Nat.div_add_mod'] at hb
  · intro h j hj
    refine map_inj_left.2 fun b hb => ?_
    have hle := Nat.mul_le_mul_right w.bytes (mem_range.1 hj)
    have hb := mem_range.1 hb
    rw [Nat.succ_mul] at hle
    rw [h _ (by omega), Nat.add_mul, Nat.add_assoc]

/-- What exactness needs from element `i` on. -/
def Good (g : Guest) (mem : Word) (w : Width) (c i : ℕ) : Prop :=
  (∀ m, i ≤ m → m < c → g.Fits mem w (m * w.bytes)) ∧
    ∀ k, i * w.bytes ≤ k → k < c * w.bytes → ∀ j, Behind mem j k →
      g.Pat (mem + BitVec.ofNat 32 j) →
        g.SameFrame (mem + BitVec.ofNat 32 j) (mem + BitVec.ofNat 32 k)

theorem pieces_iff {c : ℕ} (hp : g.paging = true)
    (hmapped : ∀ k < c * w.bytes, g.Mapped (mem + BitVec.ofNat 32 k)) (fuel i : ℕ) (hi : i ≤ c)
    (hfirst : i < c → First g mem (i * w.bytes)) (hfuel : c * w.bytes - i * w.bytes ≤ fuel) :
    (∃ ps, g.pieces mem (c * w.bytes) fuel (i * w.bytes) = some ps ∧
        ps.flatMap (elements w) = (range' i (c - i)).map (g.element mem w)) ↔
      g.Good mem w c i := by
  have hw := Width.pos w
  induction fuel using Nat.strongRecOn generalizing i with
  | _ fuel ih =>
  rcases Nat.eq_or_lt_of_le hi with rfl | hic
  · refine iff_of_true ⟨[], ?_, by simp⟩ ⟨fun m hm hm' => ?_, fun k hk hk' => ?_⟩
    · cases fuel <;> simp [pieces]
    · omega
    · omega
  have hn : i * w.bytes < c * w.bytes := Nat.mul_lt_mul_of_pos_right hic hw
  obtain ⟨fuel, rfl⟩ : ∃ f, fuel = f + 1 := ⟨fuel - 1, by omega⟩
  specialize hfirst hic
  set n := i * w.bytes with hndef
  set a := mem + BitVec.ofNat 32 n with ha
  set p := min (c * w.bytes - n) (g.span a) with hpdef
  have hunfold : g.pieces mem (c * w.bytes) (fuel + 1) n =
      (g.pieces mem (c * w.bytes) fuel (n + p)).map
        ((frameAddr (g.bits a) (g.entry a) a, p) :: ·) := by
    rw [pieces, if_pos hn, (hmapped _ hn).resolve hp, Option.bind_some]
  have hpos : 0 < p := lt_min (by omega) span_pos
  have hpr : p ≤ g.span a := min_le_right _ _
  have hpl : p ≤ (c - i) * w.bytes := (min_le_left _ _).trans (Nat.sub_mul c i _).ge
  have hdiv : p / w.bytes * w.bytes + p % w.bytes = p := Nat.div_add_mod' p w.bytes
  have hmod := Nat.mod_lt p hw
  have hfit {k : ℕ} (hk : k < g.span a) : g.Fits mem w (n + k) ↔ w.bytes + k ≤ g.span a :=
    hfirst.fits_iff hk
  rw [hunfold]
  by_cases hdvd : p % w.bytes = 0
  · -- whole elements only: the rest is the loop from a later element on
    set q := p / w.bytes
    have hpq : q * w.bytes = p := by omega
    have hqc : i + q ≤ c := Nat.le_of_mul_le_mul_right (by rw [Nat.add_mul]; omega) hw
    have hnext : (i + q) * w.bytes = n + p := by rw [Nat.add_mul, hpq]
    have hih := ih fuel (Nat.lt_succ_self _) (i + q) hqc (fun hlt => ?_) (by omega)
    · rw [hnext] at hih
      have hsplit : range' i (c - i) = range' i q ++ range' (i + q) (c - (i + q)) := by
        rw [range'_append_1]
        congr 1
        omega
      have hpiece : elements w (frameAddr (g.bits a) (g.entry a) a, p) =
          (range' i q).map (g.element mem w) ↔ _ :=
        hpq ▸ elements_eq_iff.trans (hpq ▸ hfirst.contiguous_iff hp hpr)
      constructor
      · rintro ⟨ps, hps, heq⟩
        obtain ⟨rest, hrest, rfl⟩ := Option.map_eq_some_iff.1 hps
        rw [flatMap_cons, hsplit, map_append] at heq
        obtain ⟨hhere, hthere⟩ := append_inj heq (by simp [elements, q])
        obtain ⟨hfits, hsame⟩ := hih.1 ⟨rest, hrest, hthere⟩
        refine ⟨fun m hm hmc => ?_, fun k hk hkc => ?_⟩
        · rcases Nat.lt_or_ge m (i + q) with hlt | hge
          · obtain ⟨d, rfl⟩ := Nat.exists_eq_add_of_le hm
            have hd : (d + 1) * w.bytes ≤ q * w.bytes := Nat.mul_le_mul_right _ (by omega)
            rw [Nat.succ_mul] at hd
            rw [Nat.add_mul, hfit (by omega)]
            omega
          · exact hfits m hge hmc
        · rcases Nat.lt_or_ge k (n + p) with hlt | hge
          · obtain ⟨d, rfl⟩ := Nat.exists_eq_add_of_le hk
            exact hpiece.1 hhere d (by omega)
          · exact hsame k (hnext ▸ hge) hkc
      · rintro ⟨hfits, hsame⟩
        obtain ⟨rest, hrest, heq⟩ := hih.2 ⟨fun m hm => hfits m ((Nat.le_add_right i q).trans hm),
          fun k hk => hsame k (by omega)⟩
        refine ⟨_, by rw [hrest]; rfl, ?_⟩
        rw [flatMap_cons, heq, hsplit, map_append, hpiece.2 fun k hk =>
          hsame (n + k) (Nat.le_add_right n k) (by rw [Nat.sub_mul] at hpl; omega)]
    · have hall : p = g.span a := by
        refine (min_choice _ _).resolve_left fun hall => ?_
        have := Nat.mul_lt_mul_of_pos_right hlt hw
        omega
      rw [hnext, hall]
      exact hfirst.next
  · -- the piece ends inside an element, which is lost
    refine iff_of_false ?_ fun h => ?_
    · rintro ⟨ps, hps, heq⟩
      obtain ⟨rest, hrest, rfl⟩ := Option.map_eq_some_iff.1 hps
      have hlen := congrArg length heq
      have hrest := length_le (w := w) hrest
      have hlt : p / w.bytes + (c * w.bytes - (n + p)) / w.bytes < c - i := by
        rw [Nat.add_comm, ← Nat.add_mul_div_right _ _ hw, Nat.div_lt_iff_lt_mul hw]
        rw [Nat.sub_mul] at hpl ⊢
        omega
      simp only [flatMap_cons, length_append, elements, length_map, length_range,
        length_range'] at hlen
      omega
    · have hlt : p / w.bytes * w.bytes < p := by omega
      have hall : p = g.span a := by
        refine (min_choice _ _).resolve_left fun hall => hdvd ?_
        rw [hpdef, hall, hndef, ← Nat.sub_mul, Nat.mul_mod_left]
      have hjc : p / w.bytes < c - i := Nat.lt_of_mul_lt_mul_right (hlt.trans_le hpl)
      have hq := h.1 (i + p / w.bytes) (Nat.le_add_right _ _) (by omega)
      rw [Nat.add_mul, hfit (hlt.trans_le hpr)] at hq
      omega

theorem pieces_off (hp : g.paging = false) (hsize : size ≠ 0) :
    g.pieces mem size size 0 = some [(mem, size)] := by
  obtain ⟨fuel, rfl⟩ := Nat.exists_eq_succ_of_ne_zero hsize
  have hend : g.pieces mem (fuel + 1) fuel (fuel + 1) = some [] := by
    cases fuel <;> simp [pieces]
  simp [pieces, backendResolveKaddr, hp, hend]

theorem exact_off (hp : g.paging = false) {c : ℕ} :
    (g.pieces mem (c * w.bytes) (c * w.bytes) 0).map (·.flatMap (elements w)) =
      some ((range c).map (g.element mem w)) := by
  have hw := Width.pos w
  rcases Nat.eq_zero_or_pos c with rfl | hc
  · simp [pieces]
  · rw [pieces_off hp (Nat.mul_pos hc hw).ne', Option.map_some, flatMap_singleton]
    simp [elements, element, translate, hp, Nat.mul_div_cancel _ hw]

def onePage (e : Word) : Guest := ⟨true, fun _ => 1, fun _ _ => e⟩

end Guest
end Wedge.StringIo
