import Afterburner.Resourcemon.StartUp

/-!
# Size options

`parse_size_option` reads an option such as `mem=64M`. What it should accept is a grammar (`Reads`):
a number of C, a unit, and white space or the end.
-/

namespace Resourcemon
open List Option

def isDigitIn (base : ℕ) (c : Char) : Bool := (digitValue c).any fun d => d < base

def digitsValue (base acc : ℕ) : List Char → ℕ
  | [] => acc
  | c :: ds => digitsValue base (acc * base + (digitValue c).getD 0) ds

def baseOf : List Char → ℕ × List Char
  | '0' :: 'x' :: s => (16, s)
  | '0' :: 'X' :: s => (16, s)
  | '0' :: s => (8, '0' :: s)
  | s => (10, s)

def numeralValue (num : List Char) : Option ℕ :=
  let (base, ds) := baseOf num
  if ds ≠ [] ∧ ds.all (isDigitIn base) = true then some (digitsValue base 0 ds) else none

def unitValue : List Char → Option ℕ
  | [] => some 1
  | ['K'] => some (2 ^ 10)
  | ['M'] => some (2 ^ 20)
  | ['G'] => some (2 ^ 30)
  | _ => none

inductive IsLead : List Char → Bool → Prop
  | none {blanks : List Char} : blanks.all isspace = true → IsLead blanks false
  | plus {blanks : List Char} : blanks.all isspace = true → IsLead (blanks ++ ['+']) false
  | minus {blanks : List Char} : blanks.all isspace = true → IsLead (blanks ++ ['-']) true

structure Reads (s lead : List Char) (neg : Bool) (num unit rest : List Char) (v m : ℕ) : Prop where
  eq : s = lead ++ (num ++ (unit ++ rest))
  lead : IsLead lead neg
  num : numeralValue num = some v
  unit : unitValue unit = some m
  ends : ∀ c ∈ rest.head?, isspace c = true

def IsSize (s : List Char) (x : ℕ) : Prop :=
  ∃ num unit rest v m, Reads s [] false num unit rest v m ∧ x = v * m

structure Agrees (name s : List Char) : Prop where
  size : ∀ x, IsSize s x → x < 2 ^ 32 → (parseSizeOption name (name ++ s)).toNat = x
  error : (¬ ∃ x, IsSize s x ∧ x < 2 ^ 32) → parseSizeOption name (name ++ s) = 0#32

section Digits
variable {base : ℕ}

theorem isDigitIn_iff {c : Char} : isDigitIn base c = true ↔ ∃ d < base, digitValue c = some d := by
  unfold isDigitIn
  cases digitValue c with
  | none => simp
  | some d => simp

theorem le_digitsValue (hbase : 0 < base) (acc : ℕ) (ds : List Char) :
    acc ≤ digitsValue base acc ds := by
  induction ds generalizing acc with
  | nil => exact le_rfl
  | cons c ds ih =>
    calc acc ≤ acc * base := Nat.le_mul_of_pos_right _ hbase
      _ ≤ acc * base + (digitValue c).getD 0 := Nat.le_add_right _ _
      _ ≤ _ := ih _

theorem strtoulDigits_stop {rest : List Char} (hrest : ∀ c ∈ rest.head?, isDigitIn base c = false)
    (acc : Word) (any : ℤ) : strtoulDigits base rest acc any = (acc, any, rest) := by
  cases rest with
  | nil => rfl
  | cons c s =>
    rw [strtoulDigits]
    cases hc : digitValue c with
    | none => rfl
    | some d =>
      have hd : ¬ d < base := fun hlt => by
        have hdigit := isDigitIn_iff.2 ⟨d, hlt, hc⟩
        rw [hrest c rfl] at hdigit
        cases hdigit
      exact if_pos (not_lt.1 hd)

theorem strtoulDigits_overflown {ds rest : List Char} (hds : ds.all (isDigitIn base) = true)
    (hrest : ∀ c ∈ rest.head?, isDigitIn base c = false) (acc : Word) {any : ℤ} (hany : any < 0) :
    strtoulDigits base (ds ++ rest) acc any = (acc, any, rest) := by
  induction ds with
  | nil => exact strtoulDigits_stop hrest acc any
  | cons c ds ih =>
    obtain ⟨hc, hds⟩ := Bool.and_eq_true_iff.1 (all_cons ▸ hds)
    obtain ⟨d, hd, hvalue⟩ := isDigitIn_iff.1 hc
    rw [cons_append, strtoulDigits, hvalue]
    dsimp only
    rw [if_neg (not_le.2 hd), if_pos hany]
    exact ih hds

theorem strtoulDigits_append (hbase : 0 < base) {ds rest : List Char}
    (hds : ds.all (isDigitIn base) = true) (hrest : ∀ c ∈ rest.head?, isDigitIn base c = false)
    (acc : Word) {any : ℤ} (hany : 0 ≤ any) :
    strtoulDigits base (ds ++ rest) acc any =
      if digitsValue base acc.toNat ds < 2 ^ 32 then
        (BitVec.ofNat 32 (digitsValue base acc.toNat ds), if ds = [] then any else 1, rest)
      else (~~~ 0#32, -1, rest) := by
  -- the value so far is in `acc`
  induction ds generalizing acc any with
  | nil =>
    rw [nil_append, strtoulDigits_stop hrest, digitsValue, if_pos acc.isLt, if_pos rfl,
      BitVec.ofNat_toNat, BitVec.setWidth_eq]
  | cons c ds ih =>
    obtain ⟨hc, hds⟩ := Bool.and_eq_true_iff.1 (all_cons ▸ hds)
    obtain ⟨d, hd, hvalue⟩ := isDigitIn_iff.1 hc
    rw [cons_append, strtoulDigits, digitsValue, hvalue]
    dsimp only
    rw [if_neg (not_le.2 hd), if_neg (not_lt.2 hany), getD_some]
    by_cases hover : acc.toNat * base + d ≥ 2 ^ 32
    · have hle := le_digitsValue hbase (acc.toNat * base + d) ds
      rw [if_pos hover, if_neg (not_lt.2 (hover.trans hle)),
        strtoulDigits_overflown hds hrest _ (by decide)]
      rfl
    · have hword : acc * BitVec.ofNat 32 base + BitVec.ofNat 32 d =
          BitVec.ofNat 32 (acc.toNat * base + d) := by
        rw [BitVec.ofNat_add, BitVec.ofNat_mul, BitVec.ofNat_toNat, BitVec.setWidth_eq]
      rw [if_neg hover, hword, ih hds _ (by decide), BitVec.toNat_ofNat,
        Nat.mod_eq_of_lt (not_le.1 hover), ite_self, if_neg (cons_ne_nil c ds)]

end Digits

theorem baseOf_pos (s : List Char) : 0 < (baseOf s).1 ∧ (baseOf s).1 ≤ 16 := by
  unfold baseOf
  split <;> simp

variable {c : Char}

theorem baseOf_of_ne (h : c ≠ '0') (s : List Char) : baseOf (c :: s) = (10, c :: s) := by
  unfold baseOf
  split
  · simp_all
  · simp_all
  · simp_all
  · rfl

variable {s : List Char}

theorem baseOf_zero (h : ∀ c ∈ s.head?, c ≠ 'x' ∧ c ≠ 'X') : baseOf ('0' :: s) = (8, '0' :: s) := by
  unfold baseOf
  split
  next t heq =>
    obtain rfl := (cons.inj heq).2
    exact absurd rfl (h 'x' rfl).1
  next t heq =>
    obtain rfl := (cons.inj heq).2
    exact absurd rfl (h 'X' rfl).2
  next t _ _ heq =>
    obtain rfl := (cons.inj heq).2
    rfl
  next _ _ hne => exact absurd rfl (hne s)

def Stops (t : List Char) : Prop := ∀ c ∈ t.head?, isDigitIn 16 c = false ∧ c ≠ 'x' ∧ c ≠ 'X'

theorem isDigitIn_mono {base base' : ℕ} (hle : base ≤ base') (h : isDigitIn base c = true) :
    isDigitIn base' c = true := by
  obtain ⟨d, hd, hvalue⟩ := isDigitIn_iff.1 h
  exact isDigitIn_iff.2 ⟨d, hd.trans_le hle, hvalue⟩

theorem Stops.isDigitIn {t : List Char} (h : Stops t) {base : ℕ} (hbase : base ≤ 16) :
    ∀ c ∈ t.head?, isDigitIn base c = false := by
  intro c hc
  by_contra hne
  have hdigit := isDigitIn_mono hbase (Bool.eq_true_of_not_eq_false hne)
  rw [(h c hc).1] at hdigit
  cases hdigit

variable {num : List Char} {v : ℕ}

theorem numeralValue_eq_some (h : numeralValue num = some v) :
    (baseOf num).2 ≠ [] ∧ (baseOf num).2.all (isDigitIn (baseOf num).1) = true ∧
      v = digitsValue (baseOf num).1 0 (baseOf num).2 := by
  unfold numeralValue at h
  dsimp only at h
  split_ifs at h with hcond
  exact ⟨hcond.1, hcond.2, (some.inj h).symm⟩

theorem exists_head_of_numeralValue (h : numeralValue num = some v) :
    ∃ c s, num = c :: s ∧ isDigitIn 10 c = true := by
  obtain ⟨hne, hall, -⟩ := numeralValue_eq_some h
  cases num with
  | nil => exact absurd rfl hne
  | cons c s =>
    refine ⟨c, s, rfl, ?_⟩
    by_cases hc : c = '0'
    · rw [hc]
      decide
    · simp_all [baseOf_of_ne]

theorem baseOf_append {t : List Char} (h : numeralValue num = some v) (ht : Stops t) :
    baseOf (num ++ t) = ((baseOf num).1, (baseOf num).2 ++ t) := by
  obtain ⟨hne, hall, -⟩ := numeralValue_eq_some h
  cases num with
  | nil => exact absurd rfl hne
  | cons c s =>
    by_cases hc : c = '0'
    · subst hc
      cases s with
      | nil => exact baseOf_zero fun c hc => (ht c hc).2
      | cons c' s =>
        by_cases hx : c' ≠ 'x' ∧ c' ≠ 'X'
        · have hhead : ∀ u : List Char, ∀ d ∈ (c' :: u).head?, d ≠ 'x' ∧ d ≠ 'X' := by simp_all
          rw [baseOf_zero (hhead s), cons_append, cons_append, baseOf_zero (hhead _)]
        · rcases not_and_or.1 hx with hx | hx
          · obtain rfl := not_not.1 hx
            rfl
          · obtain rfl := not_not.1 hx
            rfl
    · rw [baseOf_of_ne hc, cons_append, baseOf_of_ne hc]

theorem numeralValue_of_baseOf {ds : List Char} {base : ℕ} (h : baseOf num = (base, ds))
    (hne : ds ≠ []) (hall : ds.all (isDigitIn base) = true) :
    numeralValue num = some (digitsValue base 0 ds) := by simp_all [numeralValue]

theorem exists_numeral (h : (baseOf s).2.takeWhile (isDigitIn (baseOf s).1) ≠ []) :
    ∃ num v, s = num ++ (baseOf s).2.dropWhile (isDigitIn (baseOf s).1) ∧
      numeralValue num = some v := by
  have hall : ∀ base (u : List Char), (u.takeWhile (isDigitIn base)).all (isDigitIn base) = true :=
    fun base u => all_takeWhile
  have hsplit : ∀ base (u : List Char),
      u = u.takeWhile (isDigitIn base) ++ u.dropWhile (isDigitIn base) :=
    fun base u => takeWhile_append_dropWhile.symm
  cases s with
  | nil => exact absurd rfl h
  | cons c s =>
    by_cases hc : c = '0'
    · subst hc
      by_cases hx : ∀ c ∈ s.head?, c ≠ 'x' ∧ c ≠ 'X'
      · -- an octal number: the zero is one of its digits
        rw [baseOf_zero hx] at h ⊢
        have hbase : baseOf ('0' :: s.takeWhile (isDigitIn 8)) =
            (8, '0' :: s.takeWhile (isDigitIn 8)) := by
          refine baseOf_zero fun c hc => ?_
          cases s with
          | nil => cases hc
          | cons d s =>
            by_cases hd : isDigitIn 8 d = true
            · simp_all
            · rw [takeWhile_cons_of_neg hd] at hc
              cases hc
        exact ⟨_, _, hsplit 8 ('0' :: s), numeralValue_of_baseOf hbase h (hall 8 _)⟩
      · -- a hexadecimal one
        push Not at hx
        obtain ⟨c, hc, hx⟩ := hx
        cases s with
        | nil => cases hc
        | cons d s =>
          obtain rfl := some.inj hc
          by_cases hd : d = 'x'
          · subst hd
            exact ⟨'0' :: 'x' :: s.takeWhile (isDigitIn 16), _,
              congrArg ('0' :: 'x' :: ·) (hsplit 16 s), numeralValue_of_baseOf rfl h (hall 16 _)⟩
          · obtain rfl := hx hd
            exact ⟨'0' :: 'X' :: s.takeWhile (isDigitIn 16), _,
              congrArg ('0' :: 'X' :: ·) (hsplit 16 s), numeralValue_of_baseOf rfl h (hall 16 _)⟩
    · rw [baseOf_of_ne hc] at h ⊢
      have hdigit : isDigitIn 10 c = true := by
        by_contra hne
        exact h (takeWhile_cons_of_neg hne)
      have hfirst : (c :: s).takeWhile (isDigitIn 10) = c :: s.takeWhile (isDigitIn 10) :=
        takeWhile_cons_of_pos hdigit
      have hbase := baseOf_of_ne hc (s.takeWhile (isDigitIn 10))
      rw [← hfirst] at hbase
      exact ⟨_, _, hsplit 10 (c :: s), numeralValue_of_baseOf hbase h (hall 10 _)⟩

def signOf : List Char → Bool × List Char
  | '-' :: s => (true, s)
  | '+' :: s => (false, s)
  | s => (false, s)

theorem strtoul_eq (nptr : List Char) :
    strtoul nptr =
      let r := signOf (nptr.dropWhile isspace)
      let t := strtoulDigits (baseOf r.2).1 (baseOf r.2).2 0 0
      (if r.1 ∧ t.2.1 > 0 then -t.1 else t.1, if t.2.1 ≠ 0 then t.2.2 else nptr) := rfl

theorem isspace_eq_false (h : isDigitIn 10 c = true) : isspace c = false := by
  have hblank : c ≠ ' ' := by
    rintro rfl
    exact absurd h (by decide)
  have htab : c ≠ '\t' := by
    rintro rfl
    exact absurd h (by decide)
  simp [isspace, hblank, htab]

theorem signOf_of_digit (h : isDigitIn 10 c = true) (s : List Char) :
    signOf (c :: s) = (false, c :: s) := by
  unfold signOf
  split
  next heq =>
    obtain rfl := (cons.inj heq).1
    exact absurd h (by decide)
  next heq =>
    obtain rfl := (cons.inj heq).1
    exact absurd h (by decide)
  next => rfl

theorem dropWhile_blanks {blanks : List Char} (h : blanks.all isspace = true)
    (hc : isspace c = false) (s : List Char) : (blanks ++ c :: s).dropWhile isspace = c :: s := by
  simp_all

variable {lead : List Char} {neg : Bool}

theorem signOf_dropWhile (hlead : IsLead lead neg) (hnum : numeralValue num = some v)
    (t : List Char) : signOf ((lead ++ (num ++ t)).dropWhile isspace) = (neg, num ++ t) := by
  obtain ⟨c, s, rfl, hdigit⟩ := exists_head_of_numeralValue hnum
  cases hlead with
  | none hblanks => simp_all [cons_append, isspace_eq_false, signOf_of_digit]
  | plus hblanks =>
    rw [append_assoc, singleton_append, dropWhile_blanks hblanks rfl]
    rfl
  | minus hblanks =>
    rw [append_assoc, singleton_append, dropWhile_blanks hblanks rfl]
    rfl

def strtoulValue (neg : Bool) (v : ℕ) : Word :=
  if v < 2 ^ 32 then if neg then -BitVec.ofNat 32 v else BitVec.ofNat 32 v else ~~~ 0#32

theorem strtoul_of_numeral {t : List Char} (hlead : IsLead lead neg)
    (hnum : numeralValue num = some v) (ht : Stops t) :
    strtoul (lead ++ (num ++ t)) = (strtoulValue neg v, t) := by
  obtain ⟨hne, hall, hv⟩ := numeralValue_eq_some hnum
  obtain ⟨hpos, hle⟩ := baseOf_pos num
  rw [strtoul_eq, signOf_dropWhile hlead hnum t]
  dsimp only
  rw [baseOf_append hnum ht, strtoulDigits_append hpos hall (ht.isDigitIn hle) 0 le_rfl]
  have hzero : (0 : Word).toNat = 0 := rfl
  rw [hzero, ← hv, strtoulValue]
  by_cases hlt : v < 2 ^ 32
  · simp_all
  · rw [if_neg hlt, if_neg hlt]
    simp

def takeUnit (val : Word) : List Char → Word × List Char
  | 'K' :: next => (val * 1024, next)
  | 'M' :: next => (val * 1024 * 1024, next)
  | 'G' :: next => (val * 1024 * 1024 * 1024, next)
  | next => (val, next)

def checkEnd (val : Word) : List Char → Word
  | [] => val
  | c :: _ => if isspace c then val else 0

theorem parseSizeOption_eq (name s : List Char) :
    parseSizeOption name (name ++ s) =
      checkEnd (takeUnit (strtoul s).1 (strtoul s).2).1
        (takeUnit (strtoul s).1 (strtoul s).2).2 := by
  rw [parseSizeOption, drop_left]
  rfl

variable {unit : List Char} {m : ℕ}

theorem unitValue_eq_some (h : unitValue unit = some m) :
    unit = [] ∧ m = 1 ∨ unit = ['K'] ∧ m = 2 ^ 10 ∨ unit = ['M'] ∧ m = 2 ^ 20 ∨
      unit = ['G'] ∧ m = 2 ^ 30 := by
  unfold unitValue at h
  split at h
  · exact .inl ⟨rfl, (some.inj h).symm⟩
  · exact .inr (.inl ⟨rfl, (some.inj h).symm⟩)
  · exact .inr (.inr (.inl ⟨rfl, (some.inj h).symm⟩))
  · exact .inr (.inr (.inr ⟨rfl, (some.inj h).symm⟩))
  · cases h

variable {rest : List Char}

theorem takeUnit_of_isspace (val : Word) (hends : ∀ c ∈ rest.head?, isspace c = true) :
    takeUnit val rest = (val, rest) := by
  unfold takeUnit
  split
  next => exact absurd (hends 'K' rfl) (by decide)
  next => exact absurd (hends 'M' rfl) (by decide)
  next => exact absurd (hends 'G' rfl) (by decide)
  next => rfl

section
variable (hunit : unitValue unit = some m) (hends : ∀ c ∈ rest.head?, isspace c = true)
include hunit hends

theorem takeUnit_append (val : Word) :
    takeUnit val (unit ++ rest) = (val * BitVec.ofNat 32 m, rest) := by
  rcases unitValue_eq_some hunit with ⟨rfl, rfl⟩ | ⟨rfl, rfl⟩ | ⟨rfl, rfl⟩ | ⟨rfl, rfl⟩
  · rw [nil_append, takeUnit_of_isspace val hends]
    simp
  · rfl
  · exact congrArg (·, rest) (BitVec.mul_assoc val 1024 1024)
  · refine congrArg (·, rest) ?_
    rw [BitVec.mul_assoc val 1024 1024, BitVec.mul_assoc]
    rfl

theorem stops_of_unit : Stops (unit ++ rest) := by
  intro c hc
  rcases unitValue_eq_some hunit with ⟨rfl, -⟩ | ⟨rfl, -⟩ | ⟨rfl, -⟩ | ⟨rfl, -⟩
  · have hblank : c = ' ' ∨ c = '\t' := by simp_all [isspace, Bool.or_eq_true, decide_eq_true_eq]
    rcases hblank with rfl | rfl <;> decide
  all_goals
    obtain rfl := some.inj hc
    decide

end

theorem exists_unit {val : Word} {t : List Char}
    (h : checkEnd (takeUnit val t).1 (takeUnit val t).2 ≠ 0#32) :
    ∃ unit rest m, t = unit ++ rest ∧ unitValue unit = some m ∧
      ∀ c ∈ rest.head?, isspace c = true := by
  have hends : ∀ (w : Word) (rest : List Char), checkEnd w rest ≠ 0#32 →
      ∀ c ∈ rest.head?, isspace c = true := by
    intro w rest hne c hc
    cases rest with
    | nil => cases hc
    | cons d s =>
      obtain rfl := some.inj hc
      by_contra hspace
      exact hne (if_neg hspace)
  unfold takeUnit at h
  split at h
  next r => exact ⟨['K'], r, _, rfl, rfl, hends _ r h⟩
  next r => exact ⟨['M'], r, _, rfl, rfl, hends _ r h⟩
  next r => exact ⟨['G'], r, _, rfl, rfl, hends _ r h⟩
  next => exact ⟨[], t, _, rfl, rfl, hends _ t h⟩

/-- **The result for everything that is accepted.** -/
theorem parseSizeOption_of_reads (h : Reads s lead neg num unit rest v m) (name : List Char) :
    parseSizeOption name (name ++ s) = strtoulValue neg v * BitVec.ofNat 32 m := by
  have hstops := stops_of_unit h.unit h.ends
  rw [parseSizeOption_eq, h.eq, strtoul_of_numeral h.lead h.num hstops]
  rw [takeUnit_append h.unit h.ends]
  cases rest with
  | nil => rfl
  | cons c s => exact if_pos (h.ends c rfl)

theorem exists_lead (s : List Char) :
    ∃ lead, IsLead lead (signOf (s.dropWhile isspace)).1 ∧
      s = lead ++ (signOf (s.dropWhile isspace)).2 := by
  have hblanks : (s.takeWhile isspace).all isspace = true := all_takeWhile
  have hsplit : s = s.takeWhile isspace ++ s.dropWhile isspace :=
    takeWhile_append_dropWhile.symm
  unfold signOf
  split
  next t heq =>
    refine ⟨s.takeWhile isspace ++ ['-'], .minus hblanks, ?_⟩
    rw [append_assoc, singleton_append, ← heq]
    exact hsplit
  next t heq =>
    refine ⟨s.takeWhile isspace ++ ['+'], .plus hblanks, ?_⟩
    rw [append_assoc, singleton_append, ← heq]
    exact hsplit
  next => exact ⟨s.takeWhile isspace, .none hblanks, hsplit⟩

theorem strtoul_rest {t : List Char} (ht : (signOf (s.dropWhile isspace)).2 = t) :
    if (baseOf t).2.takeWhile (isDigitIn (baseOf t).1) = [] then strtoul s = (0#32, s)
    else (strtoul s).2 = (baseOf t).2.dropWhile (isDigitIn (baseOf t).1) := by
  obtain ⟨hpos, -⟩ := baseOf_pos t
  have hall : ((baseOf t).2.takeWhile (isDigitIn (baseOf t).1)).all (isDigitIn (baseOf t).1) =
      true := all_takeWhile
  have hrest : ∀ c ∈ ((baseOf t).2.dropWhile (isDigitIn (baseOf t).1)).head?,
      isDigitIn (baseOf t).1 c = false := by
    grind [hnot, head?_dropWhile_not, isDigitIn, baseOf]
  have hdigits := strtoulDigits_append hpos hall hrest 0 le_rfl
  rw [takeWhile_append_dropWhile] at hdigits
  rw [strtoul_eq]
  dsimp only
  rw [ht]
  by_cases hempty : (baseOf t).2.takeWhile (isDigitIn (baseOf t).1) = []
  · have hnone : strtoulDigits (baseOf t).1 (baseOf t).2 0 0 =
        (0#32, 0, (baseOf t).2.dropWhile (isDigitIn (baseOf t).1)) := by
      rw [hdigits, hempty]
      rfl
    rw [if_pos hempty, hnone]
    simp
  · obtain ⟨acc, any, hany, hsome⟩ : ∃ acc any, any ≠ 0 ∧
        strtoulDigits (baseOf t).1 (baseOf t).2 0 0 =
          (acc, any, (baseOf t).2.dropWhile (isDigitIn (baseOf t).1)) := by
      split_ifs at hdigits
      · exact ⟨_, _, by decide, hdigits⟩
      · exact ⟨_, _, by decide, hdigits⟩
    rw [if_neg hempty, hsome]
    exact if_pos hany

/-- **Everything that is accepted is a size, apart from what is in front of it.** -/
theorem exists_reads {name : List Char} (h : parseSizeOption name (name ++ s) ≠ 0#32) :
    ∃ lead neg num unit rest v m, Reads s lead neg num unit rest v m := by
  rw [parseSizeOption_eq] at h
  obtain ⟨lead, hlead, hs⟩ := exists_lead s
  have hrest := strtoul_rest (s := s) rfl
  split_ifs at hrest with hempty
  · -- without a digit the value is zero
    rw [hrest] at h
    have hzero : (takeUnit 0#32 s).1 = 0#32 := by
      unfold takeUnit
      split <;> rfl
    have hcheck : ∀ t, checkEnd 0#32 t = 0#32 := by
      intro t
      cases t with
      | nil => rfl
      | cons c t => exact ite_self _
    rw [hzero, hcheck] at h
    exact absurd rfl h
  · obtain ⟨num, v, hnum, hvalue⟩ := exists_numeral hempty
    obtain ⟨unit, rest, m, hunit, hm, hends⟩ := exists_unit h
    refine ⟨lead, _, num, unit, rest, v, m, ?_, hlead, hvalue, hm, hends⟩
    rw [← hunit, hrest, ← hnum]
    exact hs

theorem IsLead.not_digit (h : IsLead lead neg) : ∀ c ∈ lead, (!isDigitIn 10 c) = true := by
  have hblank : ∀ {blanks : List Char}, blanks.all isspace = true →
      ∀ c ∈ blanks, (!isDigitIn 10 c) = true := by
    intro blanks hall c hc
    have hspace := all_eq_true.1 hall c hc
    by_contra hdigit
    rw [Bool.not_eq_true, Bool.not_eq_false'] at hdigit
    rw [isspace_eq_false hdigit] at hspace
    cases hspace
  have hsign : ∀ {blanks : List Char} {sign : Char}, blanks.all isspace = true →
      (!isDigitIn 10 sign) = true → ∀ c ∈ blanks ++ [sign], (!isDigitIn 10 c) = true := by
    intro blanks sign hall hc
    exact forall_mem_append.2 ⟨hblank hall, forall_mem_singleton.2 hc⟩
  cases h with
  | none hall => exact hblank hall
  | plus hall => exact hsign hall (by decide)
  | minus hall => exact hsign hall (by decide)

theorem Reads.unique {lead' num' unit' rest' : List Char} {neg' : Bool} {v' m' : ℕ}
    (h : Reads s lead neg num unit rest v m) (h' : Reads s lead' neg' num' unit' rest' v' m') :
    lead = lead' ∧ v = v' ∧ m = m' := by
  -- what `strtoul` leaves is the unit and the rest
  have hstrtoul := strtoul_of_numeral h.lead h.num (stops_of_unit h.unit h.ends)
  have hstrtoul' := strtoul_of_numeral h'.lead h'.num (stops_of_unit h'.unit h'.ends)
  rw [← h.eq] at hstrtoul
  rw [← h'.eq, hstrtoul] at hstrtoul'
  have ht : unit ++ rest = unit' ++ rest' := (Prod.mk.inj hstrtoul').2
  have hm : m = m' := by
    have hunit := takeUnit_append h.unit h.ends 1#32
    rw [ht, takeUnit_append h'.unit h'.ends 1#32] at hunit
    have hword := (Prod.mk.inj hunit).1
    rw [BitVec.one_mul, BitVec.one_mul] at hword
    have hlt : ∀ {u : List Char} {n : ℕ}, unitValue u = some n → n < 2 ^ 32 := by
      grind [unitValue_eq_some]
    have hnat := congrArg BitVec.toNat hword
    rw [BitVec.toNat_ofNat, BitVec.toNat_ofNat, Nat.mod_eq_of_lt (hlt h.unit),
      Nat.mod_eq_of_lt (hlt h'.unit)] at hnat
    exact hnat.symm
  have hfront : lead ++ num = lead' ++ num' := by
    have heq : lead ++ num ++ (unit' ++ rest') = lead' ++ num' ++ (unit' ++ rest') := by
      rw [append_assoc, append_assoc, ← h'.eq, ← ht]
      exact h.eq.symm
    exact append_cancel_right heq
  -- the lead has no digit, and the number begins with one
  have hlead : ∀ {l n : List Char} {b : Bool} {x : ℕ}, IsLead l b → numeralValue n = some x →
      (l ++ n).takeWhile (fun c => !isDigitIn 10 c) = l := by
    intro l n b x hl hn
    obtain ⟨c, t, rfl, hc⟩ := exists_head_of_numeralValue hn
    rw [takeWhile_append_of_pos hl.not_digit, takeWhile_cons_of_neg (by simp [hc]),
      append_nil]
  have hsame : lead = lead' := by
    rw [← hlead h.lead h.num, hfront, hlead h'.lead h'.num]
  subst hsame
  have hnum : num = num' := append_cancel_left hfront
  subst hnum
  exact ⟨rfl, some.inj (h.num.symm.trans h'.num), hm⟩

theorem strtoulValue_mul_eq_zero_iff (hunit : unitValue unit = some m) (neg : Bool) (v : ℕ) :
    strtoulValue neg v * BitVec.ofNat 32 m = 0#32 ↔ v < 2 ^ 32 ∧ 2 ^ 32 ∣ v * m := by
  unfold strtoulValue
  by_cases hlt : v < 2 ^ 32
  · have hproduct : BitVec.ofNat 32 v * BitVec.ofNat 32 m = 0#32 ↔ 2 ^ 32 ∣ v * m := by
      rw [← BitVec.ofNat_mul, ← BitVec.toNat_inj, BitVec.toNat_ofNat]
      exact Nat.dvd_iff_mod_eq_zero.symm
    rw [if_pos hlt, and_iff_right hlt, ← hproduct]
    cases neg with
    | false => rfl
    | true => rw [if_pos rfl, BitVec.neg_mul, BitVec.neg_eq_zero_iff]
  · rw [if_neg hlt]
    refine iff_of_false ?_ (fun h => hlt h.1)
    rcases unitValue_eq_some hunit with ⟨-, rfl⟩ | ⟨-, rfl⟩ | ⟨-, rfl⟩ | ⟨-, rfl⟩ <;> decide

theorem unitValue_pos (hunit : unitValue unit = some m) : 0 < m := by
  rcases unitValue_eq_some hunit with ⟨-, rfl⟩ | ⟨-, rfl⟩ | ⟨-, rfl⟩ | ⟨-, rfl⟩ <;> decide

theorem toNat_parseSizeOption (h : Reads s [] false num unit rest v m) (hlt : v * m < 2 ^ 32)
    (name : List Char) : (parseSizeOption name (name ++ s)).toNat = v * m := by
  have hv : v < 2 ^ 32 := (Nat.le_mul_of_pos_right v (unitValue_pos h.unit)).trans_lt hlt
  rw [parseSizeOption_of_reads h, strtoulValue, if_pos hv, if_neg (by decide), ← BitVec.ofNat_mul,
    BitVec.toNat_ofNat, Nat.mod_eq_of_lt hlt]

theorem IsLead.neg_eq_false (h : IsLead [] neg) : neg = false := by
  generalize hnil : [] = lead at h
  cases h with
  | none => rfl
  | plus => rfl
  | minus => simp at hnil

theorem Agrees.of_reads {name : List Char} (h : Agrees name s)
    (hreads : Reads s lead neg num unit rest v m) :
    lead = [] ∧ v * m < 2 ^ 32 ∨ v < 2 ^ 32 ∧ 2 ^ 32 ∣ v * m := by
  by_cases hsize : lead = [] ∧ v * m < 2 ^ 32
  · exact .inl hsize
  right
  have herror : ¬ ∃ x, IsSize s x ∧ x < 2 ^ 32 := by
    rintro ⟨x, ⟨num', unit', rest', v', m', hreads', rfl⟩, hlt⟩
    obtain ⟨rfl, rfl, rfl⟩ := hreads.unique hreads'
    exact hsize ⟨rfl, hlt⟩
  have hzero := h.error herror
  rw [parseSizeOption_of_reads hreads] at hzero
  exact (strtoulValue_mul_eq_zero_iff hreads.unit neg v).1 hzero

/-- **When a size option is read as promised.** Exactly when, if the value is a number with a unit
and nothing behind it, nothing is in front and the product is below `2 ^ 32`, or the number is and
the product is a multiple of it. -/
theorem agrees_iff (name s : List Char) :
    Agrees name s ↔
      ∀ lead neg num unit rest v m, Reads s lead neg num unit rest v m →
        lead = [] ∧ v * m < 2 ^ 32 ∨ v < 2 ^ 32 ∧ 2 ^ 32 ∣ v * m := by
  refine ⟨fun h _ _ _ _ _ _ _ hreads => h.of_reads hreads, fun h => ⟨?_, fun herror => ?_⟩⟩
  · rintro x ⟨num, unit, rest, v, m, hreads, rfl⟩ hlt
    exact toNat_parseSizeOption hreads hlt name
  · by_contra hne
    obtain ⟨lead, neg, num, unit, rest, v, m, hreads⟩ := exists_reads hne
    rcases h _ _ _ _ _ _ _ hreads with ⟨rfl, hlt⟩ | hdvd
    · obtain rfl := hreads.lead.neg_eq_false
      exact herror ⟨v * m, ⟨num, unit, rest, v, m, hreads, rfl⟩, hlt⟩
    · refine hne ?_
      rw [parseSizeOption_of_reads hreads]
      exact (strtoulValue_mul_eq_zero_iff hreads.unit neg v).2 hdvd

theorem not_agrees_5G :
    parseSizeOption "mem=".toList "mem=5G".toList = 0x40000000 ∧
      ¬ Agrees "mem=".toList "5G".toList := by
  refine ⟨by decide, fun h => ?_⟩
  have hreads : Reads "5G".toList [] false ['5'] ['G'] [] 5 (2 ^ 30) :=
    ⟨rfl, .none rfl, rfl, rfl, fun c hc => by cases hc⟩
  have hcond := h.of_reads hreads
  revert hcond
  decide

end Resourcemon
