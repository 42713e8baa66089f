import Afterburner.Resourcemon.Vm
import Mathlib

/-!
# Starting the VMs

`next_module` moves to the next clone of the current module, or to the next module that starts a VM.
-/

namespace Resourcemon
open List

def isspace (c : Char) : Bool := c = ' ' || c = '\t'

def cmdlineOptions (cmdline : List Char) : List Char :=
  (cmdline.dropWhile fun c => !isspace c).dropWhile isspace

def strstr (find : List Char) : List Char → Option (List Char)
  | [] => if find = [] then some [] else none
  | c :: s => if find.isPrefixOf (c :: s) then some (c :: s) else strstr find s

def cmdlineHasSubstring (cmdline substr : List Char) : Bool :=
  let cmdline := cmdlineOptions cmdline
  if cmdline = [] then false else (strstr substr cmdline).isSome

def cmdlineHasVmstart (cmdline : List Char) : Bool := cmdlineHasSubstring cmdline "vmstart".toList

def digitValue (c : Char) : Option ℕ :=
  if '0' ≤ c ∧ c ≤ '9' then some (c.toNat - '0'.toNat)
  else if 'A' ≤ c ∧ c ≤ 'Z' then some (c.toNat - ('A'.toNat - 10))
  else if 'a' ≤ c ∧ c ≤ 'z' then some (c.toNat - ('a'.toNat - 10))
  else none

def strtoulDigits (base : ℕ) : List Char → Word → ℤ → Word × ℤ × List Char
  | [], acc, any => (acc, any, [])
  | c :: s, acc, any =>
    match digitValue c with
    | none => (acc, any, c :: s)
    | some d =>
      if d ≥ base then (acc, any, c :: s)
      else if any < 0 then strtoulDigits base s acc any
      else if acc.toNat * base + d ≥ 2 ^ 32 then strtoulDigits base s (~~~ 0) (-1)
      else strtoulDigits base s (acc * BitVec.ofNat 32 base + BitVec.ofNat 32 d) 1

def strtoul (nptr : List Char) : Word × List Char :=
  let s := nptr.dropWhile isspace
  let (neg, s) : Bool × List Char :=
    match s with
    | '-' :: s => (true, s)
    | '+' :: s => (false, s)
    | s => (false, s)
  let (base, s) : ℕ × List Char :=
    match s with
    | '0' :: 'x' :: s => (16, s)
    | '0' :: 'X' :: s => (16, s)
    | '0' :: s => (8, '0' :: s)
    | s => (10, s)
  let (acc, any, rest) := strtoulDigits base s 0 0
  (if neg ∧ any > 0 then -acc else acc, if any ≠ 0 then rest else nptr)

def parseSizeOption (name option : List Char) : Word :=
  let (val, next) := strtoul (option.drop name.length)
  let (val, next) : Word × List Char :=
    match next with
    | 'K' :: next => (val * 1024, next)
    | 'M' :: next => (val * 1024 * 1024, next)
    | 'G' :: next => (val * 1024 * 1024 * 1024, next)
    | next => (val, next)
  match next with
  | [] => val
  | c :: _ => if isspace c then val else 0

def getModuleParamSize (token cmdline : List Char) : Word :=
  let cmdline := cmdlineOptions cmdline
  if cmdline = [] then 0
  else
    match strstr token cmdline with
    | none => 0
    | some tokenStr => parseSizeOption token tokenStr

structure ModuleInfo where
  cmdline : List Char
  isValidBinary : Bool

variable (m : ModuleInfo)

namespace ModuleInfo
def vmstart : Bool := cmdlineHasVmstart m.cmdline
def clones : Word := getModuleParamSize "clones=".toList m.cmdline

end ModuleInfo

structure ModuleManager where
  currentModule : ℕ
  moduleClones : Word

def ModuleManager.init : ModuleManager := ⟨0, 1⟩

def searchModule (vmIsMultiModule : Bool) : List ModuleInfo → ℕ → ℕ × Bool
  | [], current => (current, false)
  | m :: rest, current =>
    if m.vmstart then (current + 1, true)
    else if vmIsMultiModule then searchModule vmIsMultiModule rest (current + 1)
    else if m.isValidBinary then (current + 1, true)
    else searchModule vmIsMultiModule rest (current + 1)

def nextModule (mods : List ModuleInfo) (mm : ModuleManager) : ModuleManager × Bool :=
  match mods[mm.currentModule]? with
  | none => (mm, false)
  | some m =>
    if mm.moduleClones < m.clones then ({ mm with moduleClones := mm.moduleClones + 1 }, true)
    else
      let (current, found) :=
        searchModule m.vmstart (mods.drop (mm.currentModule + 1)) mm.currentModule
      ({ mm with currentModule := current }, found)

def drive (mods : List ModuleInfo) : ℕ → ModuleManager → Option (List ℕ)
  | 0, _ => none
  | fuel + 1, mm =>
    let r := nextModule mods mm
    if r.2 then (drive mods fuel r.1).map (mm.currentModule :: ·) else some [mm.currentModule]

def startUp (mods : List ModuleInfo) (fuel : ℕ) : Option (List ℕ) :=
  if mods = [] then some [] else drive mods fuel ModuleManager.init

def vmstarts : ℕ → List ModuleInfo → List ℕ
  | _, [] => []
  | i, m :: rest =>
    (if m.vmstart then replicate (max 1 m.clones.toNat) i else []) ++ vmstarts (i + 1) rest

def StartsInOrder (mods : List ModuleInfo) (loads : List ℕ) : Prop :=
  ∃ pre, loads = pre ++ vmstarts 0 mods ∧
    ∀ i ∈ pre, ∀ m ∈ mods.take (i + 1), m.vmstart = false

def ModuleInfo.StartsVm (pre : List ModuleInfo) : Prop :=
  m.vmstart = true ∨ (pre = [] ∨ m.isValidBinary = true) ∧ ∀ x ∈ pre, x.vmstart = false

def ClonesOnce (mods : List ModuleInfo) : Prop :=
  ∀ pre m mid m' post, mods = pre ++ m :: (mid ++ m' :: post) → m.StartsVm pre →
    m'.vmstart = true → m.clones ≤ 1 ∨ m'.clones ≤ 1

section Drive
variable {mods : List ModuleInfo} {mm mm' : ModuleManager} {loads : List ℕ}

theorem drive_succ {fuel : ℕ} (h : drive mods fuel mm = some loads) :
    drive mods (fuel + 1) mm = some loads := by
  induction fuel generalizing mm loads with
  | zero => cases h
  | succ fuel ih =>
    rw [drive] at h ⊢
    by_cases hfound : (nextModule mods mm).2 = true
    · rw [if_pos hfound] at h ⊢
      obtain ⟨rest, hrest, rfl⟩ := Option.map_eq_some_iff.1 h
      rw [ih hrest]
      rfl
    · simp_all

theorem drive_mono {fuel fuel' : ℕ} (hle : fuel ≤ fuel') (h : drive mods fuel mm = some loads) :
    drive mods fuel' mm = some loads := by
  induction hle with
  | refl => exact h
  | step _ ih => exact drive_succ ih

def Drives (mods : List ModuleInfo) (mm : ModuleManager) (loads : List ℕ) : Prop :=
  ∃ fuel, drive mods fuel mm = some loads

theorem Drives.unique {loads' : List ℕ} (h : Drives mods mm loads) (h' : Drives mods mm loads') :
    loads = loads' := by
  obtain ⟨n, hn⟩ := h
  obtain ⟨n', hn'⟩ := h'
  have h₁ := drive_mono (le_max_left n n') hn
  have h₂ := drive_mono (le_max_right n n') hn'
  exact Option.some.inj (h₁.symm.trans h₂)

theorem drives_of_next (h : nextModule mods mm = (mm', true)) (hmm : Drives mods mm' loads) :
    Drives mods mm (mm.currentModule :: loads) := by
  obtain ⟨fuel, hfuel⟩ := hmm
  refine ⟨fuel + 1, ?_⟩
  rw [drive, h]
  simp only [if_true, hfuel, Option.map_some]

theorem drives_of_last (h : nextModule mods mm = (mm', false)) :
    Drives mods mm [mm.currentModule] := by
  refine ⟨1, ?_⟩
  rw [drive, h]
  rfl

end Drive

def ModuleInfo.Found (multi : Bool) : Prop :=
  m.vmstart = true ∨ multi = false ∧ m.isValidBinary = true

theorem searchModule_cons (multi : Bool) (m : ModuleInfo) (rest : List ModuleInfo) (current : ℕ) :
    (m.Found multi ∧ searchModule multi (m :: rest) current = (current + 1, true)) ∨
      (¬ m.Found multi ∧
        searchModule multi (m :: rest) current = searchModule multi rest (current + 1)) := by
  unfold ModuleInfo.Found
  rw [searchModule]
  cases m.vmstart <;> cases multi <;> cases m.isValidBinary <;> simp

theorem searchModule_spec (multi : Bool) (rest : List ModuleInfo) (current : ℕ) :
    (∃ skip m post, rest = skip ++ m :: post ∧ (∀ x ∈ skip, ¬ x.Found multi) ∧ m.Found multi ∧
        searchModule multi rest current = (current + skip.length + 1, true)) ∨
      ((∀ x ∈ rest, ¬ x.Found multi) ∧ (searchModule multi rest current).2 = false) := by
  induction rest generalizing current with
  | nil => exact .inr ⟨forall_mem_nil _, rfl⟩
  | cons m rest ih =>
    rcases searchModule_cons multi m rest current with ⟨hm, hs⟩ | ⟨hm, hs⟩
    · exact .inl ⟨[], m, rest, rfl, forall_mem_nil _, hm, hs⟩
    · rw [hs]
      rcases ih (current + 1) with ⟨skip, m', post, rfl, hskip, hm', hs'⟩ | ⟨hall, hs'⟩
      · refine .inl ⟨m :: skip, m', post, rfl, forall_mem_cons.2 ⟨hm, hskip⟩, hm', ?_⟩
        rw [hs', length_cons]
        congr 1
        omega
      · exact .inr ⟨forall_mem_cons.2 ⟨hm, hall⟩, hs'⟩

instance  (pre : List ModuleInfo) : Decidable (m.StartsVm pre) :=
  inferInstanceAs (Decidable (_ ∨ (_ ∨ _) ∧ _))

def ModuleInfo.count (moduleClones : Word) : Word :=
  if moduleClones < m.clones then m.clones else moduleClones

def loadsFrom (pre : List ModuleInfo) (moduleClones : Word) : List ModuleInfo → List ℕ
  | [] => []
  | m :: rest =>
    if m.StartsVm pre then
      replicate (m.clones.toNat - moduleClones.toNat + 1) pre.length ++
        loadsFrom (pre ++ [m]) (m.count moduleClones) rest
    else loadsFrom (pre ++ [m]) moduleClones rest

variable {m}

theorem loadsFrom_cons_of_starts {pre : List ModuleInfo} (h : m.StartsVm pre) (clones : Word)
    (rest : List ModuleInfo) :
    loadsFrom pre clones (m :: rest) =
      replicate (m.clones.toNat - clones.toNat + 1) pre.length ++
        loadsFrom (pre ++ [m]) (m.count clones) rest := by
  rw [loadsFrom, if_pos h]

variable (pre : List ModuleInfo)

theorem loadsFrom_append_of_not {skip : List ModuleInfo} (clones : Word) (rest : List ModuleInfo)
    (h : ∀ a x b, skip = a ++ x :: b → ¬ x.StartsVm (pre ++ a)) :
    loadsFrom pre clones (skip ++ rest) = loadsFrom (pre ++ skip) clones rest := by
  induction skip generalizing pre with
  | nil => rw [nil_append, append_nil]
  | cons x skip ih =>
    have hx : ¬ x.StartsVm pre := by
      have := h [] x skip rfl
      rwa [append_nil] at this
    rw [cons_append, loadsFrom, if_neg hx, ih]
    · rw [append_assoc, singleton_append]
    · rintro a y b rfl
      rw [append_assoc]
      exact h (x :: a) y b rfl

theorem ModuleInfo.StartsVm.found_iff {x : ModuleInfo} {pre a : List ModuleInfo}
    (h : m.StartsVm pre) (ha : ∀ y ∈ a, ¬ y.Found m.vmstart) :
    x.StartsVm (pre ++ m :: a) ↔ x.Found m.vmstart := by
  have hmarks : (∀ y ∈ pre ++ m :: a, y.vmstart = false) ↔ m.vmstart = false := by
    refine ⟨fun hall => hall m (by simp), fun hm y hy => ?_⟩
    rcases mem_append.1 hy with hy | hy
    · rcases h with h | ⟨-, h⟩
      · exact absurd h (by rw [hm]; decide)
      · exact h y hy
    · rcases mem_cons.1 hy with rfl | hy
      · exact hm
      · exact Bool.eq_false_iff.2 fun hyv => ha y hy (.inl hyv)
  rw [ModuleInfo.StartsVm, ModuleInfo.Found, hmarks]
  simp [and_comm]

section At
variable {pre rest : List ModuleInfo} {clones : Word}

theorem nextModule_of_lt (h : clones < m.clones) :
    nextModule (pre ++ m :: rest) ⟨pre.length, clones⟩ = (⟨pre.length, clones + 1⟩, true) := by
  rw [nextModule, getElem?_append_right le_rfl, Nat.sub_self]
  exact if_pos h

theorem nextModule_of_not_lt (h : ¬ clones < m.clones) :
    nextModule (pre ++ m :: rest) ⟨pre.length, clones⟩ =
      (⟨(searchModule m.vmstart rest pre.length).1, clones⟩,
        (searchModule m.vmstart rest pre.length).2) := by
  have hdrop : (pre ++ m :: rest).drop (pre.length + 1) = rest := by simp
  rw [nextModule, getElem?_append_right le_rfl, Nat.sub_self]
  simp only [getElem?_cons_zero, if_neg h, hdrop]

theorem drives_clones {loads : List ℕ}
    (h : Drives (pre ++ m :: rest) ⟨pre.length, m.count clones⟩ (pre.length :: loads)) :
    Drives (pre ++ m :: rest) ⟨pre.length, clones⟩
      (replicate (m.clones.toNat - clones.toNat + 1) pre.length ++ loads) := by
  induction hk : m.clones.toNat - clones.toNat generalizing clones with
  | zero =>
    have hle : ¬ clones < m.clones := by
      rw [BitVec.lt_def]
      omega
    rwa [ModuleInfo.count, if_neg hle] at h
  | succ k ih =>
    have hlt : clones < m.clones := by
      rw [BitVec.lt_def]
      omega
    have hsucc : (clones + 1).toNat = clones.toNat + 1 := by
      exact Nat.mod_eq_of_lt (show clones.toNat + 1 < 2 ^ 32 by omega)
    have hcount : m.count (clones + 1) = m.count clones := by
      rw [ModuleInfo.count, ModuleInfo.count]
      split_ifs with hlt'
      · rfl
      · rw [BitVec.lt_def] at hlt'
        exact BitVec.eq_of_toNat_eq (by omega)
    exact drives_of_next (nextModule_of_lt hlt) (ih (by rwa [hcount]) (by omega))

end At

theorem drives_loadsFrom {pre rest : List ModuleInfo} (hm : m.StartsVm pre) (clones : Word) :
    Drives (pre ++ m :: rest) ⟨pre.length, clones⟩ (loadsFrom pre clones (m :: rest)) := by
  -- the induction is on the number of modules behind the current one
  induction hn : rest.length using Nat.strong_induction_on generalizing pre rest m clones with
  | _ n ih =>
    rw [loadsFrom_cons_of_starts hm]
    apply drives_clones
    have hle : ¬ m.count clones < m.clones := by
      rw [ModuleInfo.count]
      split_ifs with hlt
      · exact BitVec.lt_irrefl _
      · exact hlt
    have hnext : nextModule (pre ++ m :: rest) ⟨pre.length, m.count clones⟩ = _ :=
      nextModule_of_not_lt hle
    rcases searchModule_spec m.vmstart rest pre.length with
      ⟨skip, m', post, rfl, hskip, hm', hs⟩ | ⟨hall, hs⟩
    · rw [hs] at hnext
      have hstart : m'.StartsVm (pre ++ m :: skip) := (hm.found_iff hskip).2 hm'
      have hloads : loadsFrom (pre ++ [m]) (m.count clones) (skip ++ m' :: post) =
          loadsFrom (pre ++ m :: skip) (m.count clones) (m' :: post) := by
        rw [loadsFrom_append_of_not]
        · rw [append_assoc, singleton_append]
        · rintro a x b rfl hx
          rw [append_assoc, singleton_append] at hx
          exact hskip x (by simp) ((hm.found_iff fun y hy => hskip y (by simp [hy])).1 hx)
      have hrec := ih post.length (by rw [← hn]; simp; omega) hstart (m.count clones) rfl
      rw [append_assoc, length_append] at hrec
      rw [hloads]
      exact drives_of_next hnext hrec
    · rw [hs] at hnext
      have hloads : loadsFrom (pre ++ [m]) (m.count clones) rest = [] := by
        rw [← append_nil rest, loadsFrom_append_of_not]
        · rfl
        · rintro a x b rfl hx
          rw [append_assoc, singleton_append] at hx
          exact hall x (by simp) ((hm.found_iff fun y hy => hall y (by simp [hy])).1 hx)
      rw [hloads]
      exact drives_of_last hnext

variable (mods : List ModuleInfo)

theorem startUp_eq_iff (P : List ℕ → Prop) :
    (∃ fuel loads, startUp mods fuel = some loads ∧ P loads) ↔ P (loadsFrom [] 1 mods) := by
  cases mods with
  | nil =>
    constructor
    · rintro ⟨fuel, loads, h, hP⟩
      cases h
      exact hP
    · exact fun h => ⟨0, [], rfl, h⟩
  | cons m rest =>
    have hstart : m.StartsVm [] := by
      by_cases h : m.vmstart = true
      · exact .inl h
      · exact .inr ⟨.inl rfl, forall_mem_nil _⟩
    have hdrives : Drives (m :: rest) ModuleManager.init (loadsFrom [] 1 (m :: rest)) :=
      drives_loadsFrom hstart 1
    constructor
    · rintro ⟨fuel, loads, h, hP⟩
      rwa [hdrives.unique ⟨fuel, h⟩]
    · intro h
      obtain ⟨fuel, hfuel⟩ := hdrives
      exact ⟨fuel, _, hfuel, h⟩

theorem ModuleInfo.count_le_one (m : ModuleInfo) (clones : Word) :
    m.count clones ≤ 1 ↔ clones ≤ 1 ∧ m.clones ≤ 1 := by
  rw [ModuleInfo.count]
  split_ifs with h
  · exact ⟨fun hm => ⟨BitVec.le_trans (BitVec.le_of_lt h) hm, hm⟩, And.right⟩
  · exact ⟨fun hc => ⟨hc, BitVec.le_trans (BitVec.not_lt.1 h) hc⟩, And.left⟩

theorem ModuleInfo.one_le_count {clones : Word} (h : 1 ≤ clones.toNat) :
    1 ≤ (m.count clones).toNat := by
  rw [ModuleInfo.count]
  split_ifs with hlt
  · rw [BitVec.lt_def] at hlt
    omega
  · exact h

def ClonesOnceFrom (pre : List ModuleInfo) (clones : Word) (rest : List ModuleInfo) : Prop :=
  ∀ mid m' post, rest = mid ++ m' :: post → m'.vmstart = true → m'.clones ≤ 1 ∨
    clones ≤ 1 ∧ ∀ a m b, mid = a ++ m :: b → m.StartsVm (pre ++ a) → m.clones ≤ 1

theorem clonesOnce_iff : ClonesOnce mods ↔ ClonesOnceFrom [] 1 mods := by
  constructor
  · rintro h mid m' post rfl hm'
    rw [or_iff_not_imp_left]
    refine fun hclones => ⟨BitVec.le_refl 1, ?_⟩
    rintro a m b rfl hm
    exact (h a m b m' post (by simp) hm hm').resolve_right hclones
  · rintro h pre m mid m' post rfl hm hm'
    rcases h (pre ++ m :: mid) m' post (by simp) hm' with h | ⟨-, h⟩
    · exact .inr h
    · exact .inl (h pre m mid rfl hm)

theorem clonesOnceFrom_nil (clones : Word) : ClonesOnceFrom pre clones [] := by
  intro mid m' post h
  simp at h

theorem clonesOnceFrom_cons (clones : Word) (m : ModuleInfo) (rest : List ModuleInfo) :
    ClonesOnceFrom pre clones (m :: rest) ↔
      (m.vmstart = true → m.clones ≤ 1 ∨ clones ≤ 1) ∧
        ClonesOnceFrom (pre ++ [m]) (if m.StartsVm pre then m.count clones else clones) rest := by
  have hnew : (if m.StartsVm pre then m.count clones else clones) ≤ 1 ↔
      clones ≤ 1 ∧ (m.StartsVm pre → m.clones ≤ 1) := by
    split_ifs with hm
    · rw [m.count_le_one]
      exact and_congr_right fun _ => ⟨fun h _ => h, fun h => h hm⟩
    · exact ⟨fun h => ⟨h, fun h' => absurd h' hm⟩, And.left⟩
  constructor
  · intro h
    refine ⟨fun hm => (h [] m rest rfl hm).imp_right And.left, ?_⟩
    rintro mid m' post rfl hm'
    refine (h (m :: mid) m' post rfl hm').imp_right fun hlow => ⟨hnew.2 ⟨hlow.1, fun hm => ?_⟩, ?_⟩
    · exact hlow.2 [] m mid rfl (by rwa [append_nil])
    · rintro a x b rfl hx
      rw [append_assoc] at hx
      exact hlow.2 (m :: a) x b rfl hx
  · rintro ⟨hhead, htail⟩ mid m' post heq hm'
    rcases cons_eq_append_iff.1 heq with ⟨rfl, hcons⟩ | ⟨mid, rfl, rfl⟩
    · obtain ⟨rfl, rfl⟩ := cons.inj hcons
      exact (hhead hm').imp_right fun h => ⟨h, fun a x b hx => by simp at hx⟩
    · refine (htail mid m' post rfl hm').imp_right fun hlow => ⟨(hnew.1 hlow.1).1, ?_⟩
      intro a x b hx hstart
      rcases cons_eq_append_iff.1 hx with ⟨rfl, hcons⟩ | ⟨a, rfl, rfl⟩
      · obtain ⟨rfl, rfl⟩ := cons.inj hcons
        rw [append_nil] at hstart
        exact (hnew.1 hlow.1).2 hstart
      · exact hlow.2 a x b rfl (by rwa [append_assoc])

def Marked (mods : List ModuleInfo) (i : ℕ) : Bool := mods[i]?.any (·.vmstart)

theorem marked_append_length (rest : List ModuleInfo) (m : ModuleInfo) :
    Marked (pre ++ m :: rest) pre.length = m.vmstart := by
  rw [Marked, getElem?_append_right le_rfl, Nat.sub_self]
  rfl

theorem not_marked_of_take {mods : List ModuleInfo} {i : ℕ}
    (h : ∀ m ∈ mods.take (i + 1), m.vmstart = false) : Marked mods i = false := by
  rw [Marked]
  cases hm : mods[i]? with
  | none => rfl
  | some m =>
    refine h m (mem_of_getElem? (i := i) ?_)
    rw [getElem?_take_of_lt (Nat.lt_succ_self i), hm]

theorem marked_of_mem_vmstarts {rest : List ModuleInfo} {i : ℕ} (h : i ∈ vmstarts pre.length rest) :
    pre.length ≤ i ∧ Marked (pre ++ rest) i = true := by
  induction rest generalizing pre with
  | nil => cases h
  | cons m rest ih =>
    rcases mem_append.1 h with h | h
    · grind [marked_append_length]
    · have hrec := ih (pre ++ [m]) (by rwa [length_append, length_singleton])
      rw [append_assoc, length_append] at hrec
      exact ⟨by omega, hrec.2⟩

theorem replicate_append_inj {k r r' : ℕ} {l l' : List ℕ} (hl : ∀ i ∈ l, k < i)
    (hl' : ∀ i ∈ l', k < i) :
    replicate r k ++ l = replicate r' k ++ l' ↔ r = r' ∧ l = l' := by
  have hcount : ∀ {l : List ℕ}, (∀ i ∈ l, k < i) → l.count k = 0 := fun h =>
    count_eq_zero.2 fun hk => lt_irrefl k (h k hk)
  constructor
  · intro h
    have hr : r = r' := by
      have := congrArg (count k) h
      simpa [count_append, hcount hl, hcount hl'] using this
    subst hr
    exact ⟨rfl, append_cancel_left h⟩
  · rintro ⟨rfl, rfl⟩
    rfl

theorem loadsFrom_split (rest : List ModuleInfo) {clones : Word} (hclones : 1 ≤ clones.toNat) :
    ∃ a b, loadsFrom pre clones rest = a ++ b ∧
      (∀ i ∈ a, ∀ m ∈ (pre ++ rest).take (i + 1), m.vmstart = false) ∧
      (∀ i ∈ b, pre.length ≤ i ∧ Marked (pre ++ rest) i = true) ∧
      ((∃ x ∈ pre, x.vmstart = true) → a = []) ∧
      (b = vmstarts pre.length rest ↔ ClonesOnceFrom pre clones rest) := by
  induction rest generalizing pre clones with
  | nil =>
    exact ⟨[], [], rfl, forall_mem_nil _, forall_mem_nil _, fun _ => rfl,
      fun _ => clonesOnceFrom_nil _ _, fun _ => rfl⟩
  | cons m rest ih =>
    have hlen : (pre ++ [m]).length = pre.length + 1 := by
      rw [length_append, length_singleton]
    have happ : pre ++ [m] ++ rest = pre ++ m :: rest := by
      rw [append_assoc, singleton_append]
    have hnew : 1 ≤ (if m.StartsVm pre then m.count clones else clones).toNat := by
      split_ifs
      · exact ModuleInfo.one_le_count hclones
      · exact hclones
    obtain ⟨a, b, hab, ha, hb, hnil, hiff⟩ := ih (pre ++ [m]) hnew
    rw [happ] at ha hb
    rw [hlen] at hb hiff
    rw [clonesOnceFrom_cons, ← hiff]
    by_cases hv : m.vmstart = true
    · -- a marked module: nothing without a mark follows
      have hstart : m.StartsVm pre := .inl hv
      obtain rfl := hnil ⟨m, by simp, hv⟩
      rw [if_pos hstart] at hab
      refine ⟨[], replicate (m.clones.toNat - clones.toNat + 1) pre.length ++ b, ?_,
        forall_mem_nil _, fun i hi => ?_, fun _ => rfl, ?_⟩
      · rw [loadsFrom_cons_of_starts hstart, hab, nil_append, nil_append]
      · grind [marked_append_length]
      · rw [vmstarts, if_pos hv, replicate_append_inj (fun i hi => (hb i hi).1)
          (fun i hi => (marked_of_mem_vmstarts (pre ++ [m]) (hlen.symm ▸ hi)).1.trans_lt'
            (by omega))]
        refine and_congr ?_ Iff.rfl
        show _ ↔ (_ → m.clones.toNat ≤ 1 ∨ clones.toNat ≤ 1)
        exact ⟨fun h _ => by omega, fun h => by have := h hv; omega⟩
    · have hcond : b = vmstarts pre.length (m :: rest) ↔
          (m.vmstart = true → m.clones ≤ 1 ∨ clones ≤ 1) ∧ b = vmstarts (pre.length + 1) rest := by
        rw [vmstarts, if_neg hv]
        exact ⟨fun h => ⟨fun hm => absurd hm hv, h⟩, And.right⟩
      have hb' : ∀ i ∈ b, pre.length ≤ i ∧ Marked (pre ++ m :: rest) i = true := fun i hi =>
        ⟨by have := (hb i hi).1; omega, (hb i hi).2⟩
      by_cases hstart : m.StartsVm pre
      · rw [if_pos hstart] at hab
        have hpre : ∀ x ∈ pre, x.vmstart = false := (hstart.resolve_left hv).2
        refine ⟨replicate (m.clones.toNat - clones.toNat + 1) pre.length ++ a, b, ?_,
          fun i hi => ?_, hb', ?_, hcond⟩
        · rw [loadsFrom_cons_of_starts hstart, hab, append_assoc]
        · rcases mem_append.1 hi with hi | hi
          · obtain rfl := eq_of_mem_replicate hi
            intro x hx
            rw [← happ, ← hlen, take_left] at hx
            rcases mem_append.1 hx with hx | hx
            · exact hpre x hx
            · rw [mem_singleton.1 hx]
              exact Bool.eq_false_iff.2 hv
          · exact ha i hi
        · rintro ⟨x, hx, hxv⟩
          rw [hpre x hx] at hxv
          cases hxv
      · rw [if_neg hstart] at hab
        refine ⟨a, b, ?_, ha, hb', fun ⟨x, hx, hxv⟩ => hnil ⟨x, by simp [hx], hxv⟩, hcond⟩
        rw [loadsFrom, if_neg hstart, hab]

theorem startsInOrder_iff : StartsInOrder mods (loadsFrom [] 1 mods) ↔ ClonesOnce mods := by
  obtain ⟨a, b, hab, ha, hb, -, hiff⟩ :=
    loadsFrom_split [] mods (show 1 ≤ (1 : Word).toNat from le_rfl)
  rw [clonesOnce_iff, ← hiff, hab]
  constructor
  · rintro ⟨pre, heq, hpre⟩
    -- only the marked modules count on both sides
    have hfilter : ∀ {l : List ℕ}, (∀ i ∈ l, ∀ m ∈ mods.take (i + 1), m.vmstart = false) →
        l.filter (Marked mods) = [] := fun h =>
      filter_eq_nil_iff.2 fun i hi => by rw [not_marked_of_take (h i hi)]; decide
    have hleft : (a ++ b).filter (Marked mods) = b := by
      rw [filter_append, hfilter ha]
      exact filter_eq_self.2 fun i hi => (hb i hi).2
    have hright : (pre ++ vmstarts 0 mods).filter (Marked mods) = vmstarts 0 mods := by
      rw [filter_append, hfilter hpre]
      exact filter_eq_self.2 fun i hi => (marked_of_mem_vmstarts [] hi).2
    rw [heq, hright] at hleft
    exact hleft.symm
  · rintro rfl
    exact ⟨a, rfl, ha⟩

/-- **The start-up sequence**: the marked modules are loaded in order and with all their clones
exactly when no marked module with clones comes behind another VM with clones. -/
theorem startUp_inOrder_iff (mods : List ModuleInfo) :
    (∃ fuel loads, startUp mods fuel = some loads ∧ StartsInOrder mods loads) ↔ ClonesOnce mods :=
  (startUp_eq_iff mods _).trans (startsInOrder_iff mods)

def twoClones : List ModuleInfo :=
  [⟨"a vmstart clones=2".toList, true⟩, ⟨"b vmstart clones=2".toList, true⟩]

theorem not_inOrder_twoClones :
    startUp twoClones 4 = some [0, 0, 1] ∧ vmstarts 0 twoClones = [0, 0, 1, 1] ∧
      ¬ ∃ fuel loads, startUp twoClones fuel = some loads ∧ StartsInOrder twoClones loads := by
  have hvmstarts : vmstarts 0 twoClones = [0, 0, 1, 1] := by decide +kernel
  have hloads : loadsFrom [] 1 twoClones = [0, 0, 1] := by decide +kernel
  refine ⟨by decide +kernel, hvmstarts, ?_⟩
  rw [startUp_eq_iff, hloads]
  rintro ⟨pre, heq, -⟩
  have hlength := congrArg length heq
  rw [hvmstarts] at hlength
  simp at hlength

theorem mem_loadsFrom {pre rest : List ModuleInfo} {clones : Word} {i : ℕ} :
    i ∈ loadsFrom pre clones rest ↔
      ∃ a m b, rest = a ++ m :: b ∧ m.StartsVm (pre ++ a) ∧ i = pre.length + a.length := by
  induction rest generalizing pre clones with
  | nil => simp [loadsFrom]
  | cons m rest ih =>
    have hmem : i ∈ loadsFrom pre clones (m :: rest) ↔
        m.StartsVm pre ∧ i = pre.length ∨ ∃ a x b, rest = a ++ x :: b ∧
          x.StartsVm (pre ++ m :: a) ∧ i = pre.length + (m :: a).length := by
      rw [loadsFrom]
      split_ifs with hm <;> simp [ih, hm, mem_replicate, Nat.add_assoc, Nat.add_comm 1]
    rw [hmem]
    constructor
    · rintro (⟨hm, hi⟩ | ⟨a, x, b, rfl, hx, hi⟩)
      · exact ⟨[], m, rest, rfl, by simpa using hm, hi⟩
      · exact ⟨m :: a, x, b, rfl, hx, hi⟩
    · rintro ⟨_ | ⟨y, a⟩, x, b, heq, hx, hi⟩ <;> obtain ⟨rfl, rfl⟩ := cons.inj heq
      · exact .inl ⟨by simpa using hx, hi⟩
      · exact .inr ⟨a, x, b, rfl, hx, hi⟩

/-- **No VM is left out at start-up**, whatever the numbers of clones are: the sequence ends, and it
loads a module exactly when the module starts a VM. -/
theorem startUp_loads_iff (mods : List ModuleInfo) :
    ∃ fuel loads, startUp mods fuel = some loads ∧
      ∀ i, i ∈ loads ↔ ∃ a m b, mods = a ++ m :: b ∧ m.StartsVm a ∧ i = a.length :=
  (startUp_eq_iff mods _).2 fun i => by simpa using @mem_loadsFrom [] mods 1 i

end Resourcemon
