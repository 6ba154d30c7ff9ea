/-
AdaIdna/Lib/LineText.lean

Reading line-oriented text with the string operations of Python.

The operations are functions on lists of characters: cutting a text into lines
or words, cutting at a separator, removing blanks, and `int`.  For each there
is a relation that says what a text looks like in which it finds something,
with everything a writer of such a text may choose left open: where blanks
stand and how many (`Around`, `SpellsWords`), how a number is padded and in
which case its digits are (`Numeral`).  The rules then say that the operation
finds what the relation says is there.

`int` reads natural numbers in ASCII digits; neither a minus sign nor the
digits of other scripts are read.
-/
import AdaIdna.Lib.Labels
import AdaIdna.Lib.TextScan
import Mathlib.Data.List.DropRight

namespace LineText

open Labels TextScan

variable {a b g s t w : List Char} {ls ws : List (List Char)} {c : Char} {n base : ℕ}
  {p : Char → Bool}

/-! ### Characters -/

/-- `str.isspace` -/
def isSpace (c : Char) : Bool :=
  let n := c.toNat
  (0x9 ≤ n && n ≤ 0xD) || (0x1C ≤ n && n ≤ 0x20) || n == 0x85 || n == 0xA0 || n == 0x1680 ||
    (0x2000 ≤ n && n ≤ 0x200A) || n == 0x2028 || n == 0x2029 || n == 0x202F || n == 0x205F ||
    n == 0x3000

/-- Where `str.splitlines` cuts. -/
def isBoundary (c : Char) : Bool :=
  let n := c.toNat
  (0xA ≤ n && n ≤ 0xD) || (0x1C ≤ n && n ≤ 0x1E) || n == 0x85 || n == 0x2028 || n == 0x2029

/-- The value of a digit, of either case. -/
def digitValue (c : Char) : Option ℕ :=
  if c.isDigit then some (c.toNat - 0x30)
  else if c.isLower then some (c.toNat - 0x57)
  else if c.isUpper then some (c.toNat - 0x37)
  else none

/-! ### Lines -/

/-- `str.splitlines` -/
def splitlines : List Char → List (List Char)
  | [] => []
  | c :: s =>
    if isBoundary c then
      -- a carriage return and a line feed are one boundary
      if c = '\r' ∧ s.head? = some '\n' then splitlines s else [] :: splitlines s
    else
      match splitlines s with
      | [] => [[c]]
      | l :: ls => (c :: l) :: ls

/-- Lines, each with a line feed behind it. -/
def unlines (ls : List (List Char)) : List Char := ls.flatMap (· ++ ['\n'])

/-! ### Blanks and words -/

/-- Without the characters of a class at both ends. -/
def stripBy (p : Char → Bool) (s : List Char) : List Char := (s.dropWhile p).rdropWhile p

/-- `str.strip` -/
def strip (s : List Char) : List Char := stripBy isSpace s

/-- `str.split`, without a separator. -/
def words : List Char → List (List Char)
  | [] => []
  | c :: s =>
    if isSpace c then words s
    else if s.head?.any (fun d => !isSpace d) then
      match words s with
      | [] => [[c]]
      | w :: ws => (c :: w) :: ws
    else [c] :: words s

/-! ### Separators -/

/-- `str.partition`: what stands before and behind the separator. -/
def partition (sep s : List Char) : List Char × List Char := (upTo sep s).getD (s, [])

/-- The parts, of which no more than `fuel` are cut off. -/
def splitTextFrom (sep : List Char) : ℕ → List Char → List (List Char)
  | 0, s => [s]
  | fuel + 1, s =>
    match upTo sep s with
    | none => [s]
    | some r => r.1 :: splitTextFrom sep fuel r.2

/-- `str.split`, with a separator that is not empty. -/
def splitText (sep s : List Char) : List (List Char) := splitTextFrom sep s.length s

/-! ### Loops over lines -/

/-- What the lines give, one behind the other, unless one of them is refused. -/
def readLines {β : Type} (f : List Char → Option (List β)) (ls : List (List Char)) :
    Option (List β) :=
  (ls.mapM f).map List.flatten

/-! ### Numbers -/

/-- The digits of a base. -/
def digitIn (base : ℕ) (c : Char) : Option ℕ := (digitValue c).filter (· < base)

/-- The digits behind the first one; a single underscore may stand between two
digits, and `under` says that one precedes. -/
def digitsFrom (base : ℕ) : ℕ → Bool → List Char → Option ℕ
  | n, under, [] => if under then none else some n
  | n, under, c :: s =>
    if c = '_' then if under then none else digitsFrom base n true s
    else (digitIn base c).bind fun d => digitsFrom base (n * base + d) false s

def digits (base : ℕ) : List Char → Option ℕ
  | [] => none
  | c :: s => (digitIn base c).bind fun d => digitsFrom base d false s

/-- Behind the prefix of base 16, which an underscore may follow. -/
def dropPrefix (base : ℕ) (s : List Char) : List Char :=
  if base = 16 ∧ (s.take 2 = ['0', 'x'] ∨ s.take 2 = ['0', 'X']) then
    if (s.drop 2).head? = some '_' then s.drop 3 else s.drop 2
  else s

/-- `range(first, last + 1)` -/
def closedRange (first last : ℕ) : List ℕ := List.range' first (last + 1 - first)

/-- The blanks that `int` strips. -/
def isIntSpace (c : Char) : Bool := isSpace c && !(0x1C ≤ c.toNat && c.toNat ≤ 0x1F)

/-- `int(s, base)` of ASCII text; a number with a minus sign is not read here. -/
def parseInt (base : ℕ) (s : List Char) : Option ℕ :=
  let s := stripBy isIntSpace s
  digits base (dropPrefix base (if s.head? = some '+' then s.tail else s))

/-! ### What is found: lines -/

/-- A line that is not cut. -/
def IsLine (l : List Char) : Prop := ∀ c ∈ l, isBoundary c = false

instance (l : List Char) : Decidable (IsLine l) :=
  List.decidableBAll (fun c => isBoundary c = false) l

theorem splitlines_append_line (hl : IsLine g) (s : List Char) :
    splitlines (g ++ '\n' :: s) = g :: splitlines s := by
  induction g with
  | nil =>
    show (if isBoundary '\n' = true then _ else _) = _
    rw [if_pos (by decide), if_neg (by simp)]
  | cons c g ih =>
    have hc := hl c List.mem_cons_self
    have ih' := ih fun d hd => hl d (List.mem_cons_of_mem c hd)
    rw [List.cons_append, splitlines, hc, ih']
    rfl

/-- **The lines of a text** whose lines all end. -/
theorem splitlines_unlines (h : ∀ l ∈ ls, IsLine l) : splitlines (unlines ls) = ls := by
  induction ls with
  | nil => rfl
  | cons l ls ih =>
    have hline : unlines (l :: ls) = l ++ '\n' :: unlines ls := by simp [unlines]
    rw [hline, splitlines_append_line (h l List.mem_cons_self),
      ih fun l' hl' => h l' (List.mem_cons_of_mem l hl')]

theorem not_mem_of_isLine (h : IsLine g) : '\n' ∉ g := by
  intro hmem
  have hn := h _ hmem
  revert hn
  decide

/-- `split('\n')` finds one more line, behind the last line feed. -/
theorem splitOn_unlines (h : ∀ l ∈ ls, IsLine l) :
    (unlines ls).splitOn '\n' = ls ++ [[]] := by
  have hjoin : unlines ls = join '\n' (ls ++ [[]]) := by
    clear h
    induction ls with
    | nil => rfl
    | cons l ls ih =>
      rw [List.cons_append, join_cons (by simp), ← ih]
      simp [unlines]
  rw [hjoin]
  apply splitOn_join (by simp)
  intro l hl
  rcases List.mem_append.mp hl with hl | hl
  · exact not_mem_of_isLine (h l hl)
  · rw [List.mem_singleton.mp hl]
    exact List.not_mem_nil

/-! ### What is found: blanks and words -/

def IsBlank (s : List Char) : Prop := ∀ c ∈ s, isSpace c = true

instance (s : List Char) : Decidable (IsBlank s) :=
  List.decidableBAll (fun c => isSpace c = true) s

/-- Neither end is a blank. -/
structure Trimmed (t : List Char) : Prop where
  head : ∀ c ∈ t.head?, isSpace c = false
  last : ∀ c ∈ t.getLast?, isSpace c = false

/-- `t` with blanks around it. -/
def Around (t s : List Char) : Prop := ∃ a b, IsBlank a ∧ IsBlank b ∧ s = a ++ (t ++ b)

def IsWord (w : List Char) : Prop := w ≠ [] ∧ ∀ c ∈ w, isSpace c = false

instance (w : List Char) : Decidable (IsWord w) :=
  @instDecidableAnd _ _ _ (List.decidableBAll (fun c => isSpace c = false) w)

/-- The words of a text, with blanks around them and between any two. -/
inductive SpellsWords : List (List Char) → List Char → Prop
  | nil {g : List Char} (hg : IsBlank g) : SpellsWords [] g
  | cons {g w s : List Char} {ws : List (List Char)} (hg : IsBlank g) (hw : IsWord w)
      (hs : SpellsWords ws s) (hgap : ∀ c ∈ s.head?, isSpace c = true) :
      SpellsWords (w :: ws) (g ++ (w ++ s))

/-- A word with blanks around it. -/
theorem IsWord.spellsWords (hw : IsWord w) (hg : IsBlank g) (hb : IsBlank b) :
    SpellsWords [w] (g ++ (w ++ b)) :=
  .cons hg hw (.nil hb) fun c hc => hb c (List.mem_of_mem_head? hc)

theorem IsWord.trimmed (hw : IsWord w) : Trimmed w where
  head c hc := hw.2 c (List.mem_of_mem_head? hc)
  last c hc := hw.2 c (List.mem_of_mem_getLast? hc)

theorem trimmed_nil : Trimmed [] where
  head c hc := by cases hc
  last c hc := by cases hc

theorem dropWhile_eq_self (h : ∀ c ∈ s.head?, p c = false) : s.dropWhile p = s := by
  cases s with
  | nil => rfl
  | cons c s => rw [List.dropWhile_cons_of_neg (by rw [h c rfl]; exact Bool.false_ne_true)]

theorem rdropWhile_eq_self (h : ∀ c ∈ s.getLast?, p c = false) : s.rdropWhile p = s := by
  rw [List.rdropWhile_eq_self_iff]
  intro hne
  rw [h _ (List.getLast?_eq_some_getLast hne)]
  exact Bool.false_ne_true

theorem stripBy_eq_self (hhead : ∀ c ∈ s.head?, p c = false)
    (hlast : ∀ c ∈ s.getLast?, p c = false) : stripBy p s = s := by
  rw [stripBy, dropWhile_eq_self hhead, rdropWhile_eq_self hlast]

theorem rdropWhile_append_of_pos (h : ∀ c ∈ b, p c = true) (s : List Char) :
    (s ++ b).rdropWhile p = s.rdropWhile p := by
  rw [List.rdropWhile, List.reverse_append, List.dropWhile_append_of_pos
    fun c hc => h c (List.mem_reverse.mp hc), List.rdropWhile]

/-- **What `strip` leaves.** -/
theorem strip_of_around (h : Around t s) (ht : Trimmed t) : strip s = t := by
  obtain ⟨a, b, ha, hb, rfl⟩ := h
  rw [strip, stripBy, List.dropWhile_append_of_pos ha]
  by_cases hnil : t = []
  · subst hnil
    rw [List.nil_append, List.dropWhile_eq_nil_iff.mpr hb, List.rdropWhile_nil]
  · rw [dropWhile_eq_self, rdropWhile_append_of_pos hb, rdropWhile_eq_self ht.last]
    rw [List.head?_append_of_ne_nil t hnil]
    exact ht.head

/-- What is stripped are blanks. -/
theorem around_strip (s : List Char) : Around (strip s) s := by
  refine ⟨s.takeWhile isSpace, (s.dropWhile isSpace).rtakeWhile isSpace,
    fun c hc => List.mem_takeWhile_imp hc, fun c hc => List.mem_rtakeWhile_imp hc, ?_⟩
  have hback : (s.dropWhile isSpace).rdropWhile isSpace ++ (s.dropWhile isSpace).rtakeWhile isSpace
      = s.dropWhile isSpace := List.rdropWhile_append_rtakeWhile
  rw [strip, stripBy, hback, List.takeWhile_append_dropWhile]

theorem strip_blank_append (ha : IsBlank a) (s : List Char) : strip (a ++ s) = strip s := by
  rw [strip, stripBy, List.dropWhile_append_of_pos ha, strip, stripBy]

theorem strip_append_of_blank (hb : IsBlank b) (s : List Char) : strip (s ++ b) = strip s := by
  rw [strip, stripBy, strip, stripBy, List.dropWhile_append]
  split
  · rename_i hs
    rw [List.isEmpty_iff.mp hs, List.dropWhile_eq_nil_iff.mpr hb]
  · exact rdropWhile_append_of_pos hb _

/-- Nothing is stripped in front of a character that is not a blank. -/
theorem strip_append_cons (hs : ∀ d ∈ s.head?, isSpace d = false) (hc : isSpace c = false)
    (t : List Char) : strip (s ++ c :: t) = s ++ c :: t.rdropWhile isSpace := by
  have hhead : (s ++ c :: t).dropWhile isSpace = s ++ c :: t := by
    apply dropWhile_eq_self
    cases s with
    | nil =>
      intro d hd
      obtain rfl := Option.some.inj hd
      exact hc
    | cons d s => exact hs
  rw [strip, stripBy, hhead, List.rdropWhile, List.rdropWhile, List.reverse_append,
    List.reverse_cons, List.append_assoc, List.dropWhile_append]
  split
  · rename_i ht
    rw [List.isEmpty_iff.mp ht, List.singleton_append,
      List.dropWhile_cons_of_neg (by rw [hc]; exact Bool.false_ne_true)]
    simp
  · simp

theorem strip_of_blank (h : IsBlank s) : strip s = [] :=
  strip_of_around ⟨s, [], h, fun _ hc => absurd hc List.not_mem_nil, by simp⟩ trimmed_nil

theorem words_append_blank (hg : IsBlank g) (s : List Char) : words (g ++ s) = words s := by
  induction g with
  | nil => rfl
  | cons c g ih =>
    rw [List.cons_append, words, if_pos (hg c List.mem_cons_self),
      ih fun d hd => hg d (List.mem_cons_of_mem c hd)]

theorem words_append_word (hw : IsWord w) (hgap : ∀ c ∈ s.head?, isSpace c = true) :
    words (w ++ s) = w :: words s := by
  obtain ⟨hne, hword⟩ := hw
  induction w with
  | nil => exact absurd rfl hne
  | cons c w ih =>
    have hc : isSpace c = false := hword c List.mem_cons_self
    have hw' : ∀ d ∈ w, isSpace d = false := fun d hd => hword d (List.mem_cons_of_mem c hd)
    rw [List.cons_append, words, hc, if_neg Bool.false_ne_true]
    cases w with
    | nil =>
      rw [List.nil_append, if_neg]
      cases s with
      | nil => exact Bool.false_ne_true
      | cons d s => simp [hgap d rfl]
    | cons d w =>
      rw [ih (List.cons_ne_nil d w) hw', if_pos]
      simp [hw' d List.mem_cons_self]

/-- **What `split` finds.** -/
theorem words_of_spells (h : SpellsWords ws s) : words s = ws := by
  induction h with
  | @nil g hg =>
    rw [← List.append_nil g, words_append_blank hg]
    rfl
  | cons hg hw hs hgap ih => rw [words_append_blank hg, words_append_word hw hgap, ih]

theorem words_append_of_blank (hb : IsBlank b) (t : List Char) : words (t ++ b) = words t := by
  induction t with
  | nil =>
    rw [List.nil_append, ← List.append_nil b, words_append_blank hb]
  | cons c t ih =>
    rw [List.cons_append, words, words, ih]
    cases t with
    | cons d t => rfl
    | nil =>
      have hhead : (b.head?.any fun d => !isSpace d) = false := by
        cases b with
        | nil => rfl
        | cons d b => simp [hb d List.mem_cons_self]
      rw [List.nil_append, hhead]
      rfl

/-- Blanks around a text do not change its words. -/
theorem words_strip (s : List Char) : words (strip s) = words s := by
  obtain ⟨a, b, ha, hb, hs⟩ := around_strip s
  conv_rhs => rw [hs]
  rw [words_append_blank ha, words_append_of_blank hb]

/-! ### What is found: separators -/

/-- The first character of a separator does not stand in front of it. -/
theorem partition_append (hg : c ∉ g) (t rest : List Char) :
    partition (c :: t) (g ++ (c :: t ++ rest)) = (g, rest) := by
  rw [partition, upTo_append hg, Option.getD_some]

/-- The fixed text `p` behind `pre` is the first one there. -/
def FirstIn (p pre : List Char) : Prop := ∀ k < pre.length, ¬ p <+: (pre ++ p).drop k

instance (p pre : List Char) : Decidable (FirstIn p pre) :=
  inferInstanceAs (Decidable (∀ k < pre.length, _))

theorem lit_eq_none (h : ¬ t <+: s) : lit t s = none := by
  rw [lit, if_neg fun hp => h (List.isPrefixOf_iff_prefix.mp hp)]

theorem FirstIn.tail (h : FirstIn t (c :: g)) : FirstIn t g :=
  fun k hk hbegins => h (k + 1) (Nat.succ_lt_succ hk) hbegins

theorem FirstIn.lit_eq_none (h : FirstIn t (c :: g)) (rest : List Char) :
    lit t (c :: (g ++ (t ++ rest))) = none := by
  apply LineText.lit_eq_none
  intro hbegins
  -- a match here would be over before `rest`
  refine h 0 (Nat.zero_lt_succ _) (List.prefix_of_prefix_length_le hbegins ?_ ?_)
  · exact ⟨rest, by simp⟩
  · simp only [List.drop_zero, List.length_append]
    omega

/-- **The first place of a fixed text.** -/
theorem upTo_of_firstIn (h : FirstIn t g) (rest : List Char) :
    upTo t (g ++ (t ++ rest)) = some (g, rest) := by
  induction g with
  | nil =>
    have hlit := lit_append t rest
    rw [List.nil_append]
    rcases hs : t ++ rest with - | ⟨c, s⟩
    · rw [hs] at hlit
      rw [upTo, hlit, Option.map_some]
    · rw [hs] at hlit
      rw [upTo, hlit]
  | cons c g ih =>
    rw [List.cons_append, upTo, h.lit_eq_none, ih h.tail]
    rfl

/-- The first match of a pattern behind a fixed text. -/
theorem search_behind_of_firstIn {β : Type} {m : Pattern β} {r : β × List Char}
    (h : FirstIn t g) (hm : m s = some r) : search (behind t m) (g ++ (t ++ s)) = some r.1 := by
  induction g with
  | nil =>
    apply search_of_match
    rw [List.nil_append, behind, lit_append, Option.bind_some, hm]
  | cons c g ih =>
    have hnone : behind t m (c :: (g ++ (t ++ s))) = none := by
      rw [behind, h.lit_eq_none, Option.bind_none]
    rw [List.cons_append, search, hnone]
    exact ih h.tail

/-- The first line with a mark has a word behind it, then `stop`, and ends. -/
def Marked (mark w stop s : List Char) : Prop :=
  ∃ pre post, s = pre ++ (mark ++ (w ++ (stop ++ post))) ∧ FirstIn mark pre ∧
    ∀ c ∈ post.head?, c = '\n'

/-- What a pattern finds that reads the word. -/
theorem Marked.search_eq {β : Type} {mark stop : List Char} {m : Pattern β} {x : β}
    (h : Marked mark w stop s)
    (hm : ∀ post, (∀ c ∈ post.head?, c = '\n') → m (w ++ (stop ++ post)) = some (x, post)) :
    search (behind mark m) s = some x := by
  obtain ⟨pre, post, rfl, hfirst, hpost⟩ := h
  exact search_behind_of_firstIn hfirst (hm post hpost)

theorem upTo_eq_none (h : c ∉ s) : upTo (c :: t) s = none := by
  induction s with
  | nil => rfl
  | cons d s ih =>
    have hne : d ≠ c := fun heq => h (heq ▸ List.mem_cons_self)
    rw [upTo, lit_cons_eq_none hne, ih fun hmem => h (List.mem_cons_of_mem d hmem)]
    rfl

theorem partition_of_not_mem (h : c ∉ s) : partition (c :: t) s = (s, []) := by
  rw [partition, upTo_eq_none h, Option.getD_none]

theorem splitText_of_not_mem (h : c ∉ s) : splitText (c :: t) s = [s] := by
  rw [splitText]
  cases s with
  | nil => rfl
  | cons d s => rw [List.length_cons, splitTextFrom, upTo_eq_none h]

theorem splitText_append (hg : c ∉ g) (hs : c ∉ s) :
    splitText (c :: t) (g ++ (c :: t ++ s)) = [g, s] := by
  obtain ⟨fuel, hfuel⟩ : ∃ fuel, (g ++ (c :: t ++ s)).length = fuel + 1 :=
    ⟨g.length + (t.length + s.length), by simp only [List.length_append, List.length_cons]; omega⟩
  rw [splitText, hfuel, splitTextFrom, upTo_append hg]
  show g :: splitTextFrom (c :: t) fuel s = _
  cases fuel with
  | zero => rfl
  | succ fuel => rw [splitTextFrom, upTo_eq_none hs]

/-! ### What is found: loops over lines -/

/-- A loop keeps what its body keeps. -/
theorem foldlM_keeps {α β : Type} {P : β → Prop} {f : β → α → Option β}
    (hf : ∀ x a y, P x → f x a = some y → P y) {as : List α} {x y : β} (hx : P x)
    (h : as.foldlM f x = some y) : P y := by
  induction as generalizing x with
  | nil =>
    obtain rfl := Option.some.inj h
    exact hx
  | cons a as ih =>
    rw [List.foldlM_cons] at h
    obtain ⟨x', hx', h⟩ := Option.bind_eq_some_iff.mp h
    exact ih (hf x a x' hx hx') h

section ReadLines

variable {β : Type} {f : List Char → Option (List β)}

theorem readLines_cons (f : List Char → Option (List β)) (l : List Char) (ls : List (List Char)) :
    readLines f (l :: ls) = (f l).bind fun x => (readLines f ls).map fun y => x ++ y := by
  rw [readLines, readLines, List.mapM_cons]
  rcases f l with - | x
  · rfl
  · rcases ls.mapM f with - | xs
    · rfl
    · rfl

theorem readLines_append (f : List Char → Option (List β)) (ls ls' : List (List Char)) :
    readLines f (ls ++ ls')
      = (readLines f ls).bind fun x => (readLines f ls').map fun y => x ++ y := by
  induction ls with
  | nil =>
    show _ = (some []).bind _
    rw [List.nil_append, Option.bind_some]
    exact Option.map_id_apply.symm
  | cons l ls ih =>
    rw [List.cons_append, readLines_cons, readLines_cons, ih]
    rcases f l with - | x
    · rfl
    · rcases readLines f ls with - | y
      · rfl
      · rcases readLines f ls' with - | z
        · rfl
        · simp

theorem readLines_eq_nil (h : ∀ l ∈ ls, f l = some []) : readLines f ls = some [] := by
  induction ls with
  | nil => rfl
  | cons l ls ih =>
    rw [readLines_cons, h l List.mem_cons_self, ih fun l' hl' => h l' (List.mem_cons_of_mem l hl')]
    rfl

/-- The last line of one text and the first of another become one. -/
theorem exists_splitOn_append (s t : List Char) :
    ∃ ls l m ms, s.splitOn '\n' = ls ++ [l] ∧ t.splitOn '\n' = m :: ms ∧
      (s ++ t).splitOn '\n' = ls ++ (l ++ m) :: ms := by
  obtain ⟨ls, l, hs⟩ : ∃ ls l, s.splitOn '\n' = ls ++ [l] :=
    ⟨_, _, (List.dropLast_append_getLast (List.splitOn_ne_nil '\n' s)).symm⟩
  obtain ⟨m, ms, ht⟩ := List.exists_cons_of_ne_nil (List.splitOn_ne_nil '\n' t)
  refine ⟨ls, l, m, ms, hs, ht, ?_⟩
  have hjoin : s ++ t = join '\n' (ls ++ (l ++ m) :: ms) := by
    conv_lhs => rw [← join_splitOn '\n' s, ← join_splitOn '\n' t, hs, ht]
    clear hs ht
    induction ls with
    | nil =>
      cases ms with
      | nil => simp
      | cons m' ms => simp
    | cons l' ls ih =>
      have hfront : join '\n' (l' :: (ls ++ [l])) = l' ++ '\n' :: join '\n' (ls ++ [l]) :=
        join_cons (by simp) l'
      have hwhole : join '\n' (l' :: (ls ++ (l ++ m) :: ms))
          = l' ++ '\n' :: join '\n' (ls ++ (l ++ m) :: ms) := join_cons (by simp) l'
      rw [List.cons_append, List.cons_append, hfront, hwhole, ← ih]
      simp
  have hl : ∀ x ∈ ls ++ [l], '\n' ∉ x := fun x hx => not_mem_of_mem_splitOn (hs ▸ hx)
  have hm : ∀ x ∈ m :: ms, '\n' ∉ x := fun x hx => not_mem_of_mem_splitOn (ht ▸ hx)
  rw [hjoin]
  apply splitOn_join (by simp)
  intro x hx
  rcases List.mem_append.mp hx with hx | hx
  · exact hl x (List.mem_append_left _ hx)
  · rcases List.mem_cons.mp hx with rfl | hx
    · rw [List.mem_append, not_or]
      exact ⟨hl l (by simp), hm m (by simp)⟩
    · exact hm x (List.mem_cons_of_mem m hx)

/-- Where blanks around a line do not matter and a blank line gives nothing,
blanks around the text do not matter. -/
theorem readLines_strip (hf : ∀ l l', strip l = strip l' → f l = f l') (hnil : f [] = some [])
    (s : List Char) :
    readLines f ((strip s).splitOn '\n') = readLines f (s.splitOn '\n') := by
  have hblank : ∀ l, IsBlank l → f l = some [] := by
    intro l hl
    rw [hf l [] ((strip_of_blank hl).trans rfl), hnil]
  have hlines : ∀ t, IsBlank t → ∀ l ∈ t.splitOn '\n', IsBlank l :=
    fun t ht l hl c hc => ht c (mem_of_mem_splitOn hl hc)
  have hback : ∀ t b, IsBlank b →
      readLines f ((t ++ b).splitOn '\n') = readLines f (t.splitOn '\n') := by
    intro t b hb
    obtain ⟨ls, l, m, ms, ht, hsplit, happend⟩ := exists_splitOn_append t b
    have hm := hlines b hb
    rw [hsplit, List.forall_mem_cons] at hm
    have hlast : f (l ++ m) = f l := hf _ _ (strip_append_of_blank hm.1 l)
    rw [happend, ht, readLines_append, readLines_append, readLines_cons, readLines_cons, hlast,
      readLines_eq_nil fun l hl => hblank l (hm.2 l hl)]
    rfl
  have hfront : ∀ a t, IsBlank a →
      readLines f ((a ++ t).splitOn '\n') = readLines f (t.splitOn '\n') := by
    intro a t ha
    obtain ⟨ls, l, m, ms, hsplit, ht, happend⟩ := exists_splitOn_append a t
    have hl := hlines a ha
    rw [hsplit] at hl
    have hfirst : f (l ++ m) = f m := hf _ _ (strip_blank_append (hl l (by simp)) m)
    rw [happend, ht, readLines_append, readLines_cons, readLines_cons, hfirst,
      readLines_eq_nil fun l' hl' => hblank l' (hl l' (List.mem_append_left _ hl')),
      Option.bind_some]
    simp
  obtain ⟨a, b, ha, hb, hs⟩ := around_strip s
  conv_rhs => rw [hs]
  rw [hfront a _ ha, hback _ b hb]

end ReadLines

/-! ### What is found: numbers -/

/-- `t` is the number `n` in digits of a base, and nothing but digits. -/
def Numeral (base : ℕ) (t : List Char) (n : ℕ) : Prop :=
  ∃ ds : List ℕ, t.map digitValue = ds.map some ∧ (∀ d ∈ ds, d < base) ∧ ds ≠ [] ∧
    Nat.ofDigits base ds.reverse = n

theorem mapM_eq_some_iff {f : Char → Option ℕ} {ds : List ℕ} :
    t.mapM f = some ds ↔ t.map f = ds.map some := by
  induction t generalizing ds with
  | nil =>
    rw [List.mapM_nil, List.map_nil, eq_comm (a := []), List.map_eq_nil_iff]
    exact Option.some_inj.trans eq_comm
  | cons c t ih =>
    rw [List.mapM_cons, List.map_cons]
    rcases f c with - | d
    · refine iff_of_false (fun h => by cases h) ?_
      cases ds with
      | nil => simp
      | cons e ds => simp
    · cases ds with
      | nil =>
        rcases t.mapM f with - | ds'
        · simp
        · simp
      | cons e ds =>
        rw [List.map_cons, List.cons.injEq, ← ih]
        rcases t.mapM f with - | ds'
        · simp
        · simp

instance (base : ℕ) (t : List Char) (n : ℕ) : Decidable (Numeral base t n) :=
  decidable_of_iff ((t.mapM digitValue).any fun ds =>
    decide ((∀ d ∈ ds, d < base) ∧ ds ≠ [] ∧ Nat.ofDigits base ds.reverse = n) : Bool) <| by
  rw [Option.any_eq_true]
  constructor
  · rintro ⟨ds, hds, h⟩
    exact ⟨ds, mapM_eq_some_iff.mp hds, of_decide_eq_true h⟩
  · rintro ⟨ds, hds, h⟩
    exact ⟨ds, mapM_eq_some_iff.mpr hds, decide_eq_true h⟩

theorem isSpace_of_digitValue {d : ℕ} (h : digitValue c = some d) : isSpace c = false := by
  have hrange : (0x30 ≤ c.toNat ∧ c.toNat ≤ 0x39) ∨ (0x61 ≤ c.toNat ∧ c.toNat ≤ 0x7A) ∨
      (0x41 ≤ c.toNat ∧ c.toNat ≤ 0x5A) := by
    rw [digitValue] at h
    split at h
    · rename_i hdigit
      rw [Char.isDigit, Bool.and_eq_true, decide_eq_true_eq, decide_eq_true_eq] at hdigit
      exact Or.inl hdigit
    · split at h
      · rename_i hlower
        obtain ⟨hlo, hhi⟩ := (Bool.and_eq_true_iff (x := decide (c.val ≥ 'a'.val))).mp hlower
        exact Or.inr (Or.inl ⟨of_decide_eq_true hlo, of_decide_eq_true hhi⟩)
      · split at h
        · rename_i hupper
          have hle : c.val ≥ 'A'.val ∧ c.val ≤ 'Z'.val := of_decide_eq_true hupper
          exact Or.inr (Or.inr hle)
        · cases h
  rw [isSpace]
  simp only [Bool.or_eq_false_iff, Bool.and_eq_false_iff, decide_eq_false_iff_not,
    beq_eq_false_iff_ne]
  omega

/-- A numeral consists of digits. -/
theorem Numeral.exists_digit (h : Numeral base t n) (hc : c ∈ t) :
    ∃ d < base, digitValue c = some d := by
  obtain ⟨ds, hds, hlt, -, -⟩ := h
  have hmem := List.mem_map_of_mem (f := digitValue) hc
  rw [hds] at hmem
  obtain ⟨d, hd, heq⟩ := List.mem_map.mp hmem
  exact ⟨d, hlt d hd, heq.symm⟩

theorem Numeral.not_mem (h : Numeral base t n) (hc : digitValue c = none) : c ∉ t := by
  intro hmem
  obtain ⟨d, -, hd⟩ := h.exists_digit hmem
  rw [hc] at hd
  cases hd

theorem Numeral.isWord (h : Numeral base t n) : IsWord t := by
  constructor
  · obtain ⟨ds, hds, -, hne, -⟩ := h
    rintro rfl
    exact hne (List.map_eq_nil_iff.mp hds.symm)
  · intro c hc
    obtain ⟨d, -, hd⟩ := h.exists_digit hc
    exact isSpace_of_digitValue hd

theorem digitIn_of_lt {d : ℕ} (hc : digitValue c = some d) (hd : d < base) :
    digitIn base c = some d := by
  rw [digitIn, hc, Option.filter_some, if_pos (decide_eq_true hd)]

theorem digitsFrom_eq {ds : List ℕ} (h : t.map digitValue = ds.map some)
    (hlt : ∀ d ∈ ds, d < base) (n : ℕ) :
    digitsFrom base n false t = some (ds.foldl (fun m d => d + base * m) n) := by
  induction t generalizing ds n with
  | nil =>
    obtain rfl := List.map_eq_nil_iff.mp h.symm
    rfl
  | cons c t ih =>
    rcases ds with - | ⟨d, ds⟩
    · cases h
    · obtain ⟨hc, ht⟩ := List.cons.inj h
      have hunder : c ≠ '_' := by
        rintro rfl
        cases hc
      rw [digitsFrom, if_neg hunder, digitIn_of_lt hc (hlt d List.mem_cons_self), Option.bind_some,
        ih ht fun e he => hlt e (List.mem_cons_of_mem d he), List.foldl_cons, add_comm, mul_comm]

theorem digits_of_numeral (h : Numeral base t n) : digits base t = some n := by
  obtain ⟨ds, hds, hlt, hne, rfl⟩ := h
  obtain ⟨d, ds, rfl⟩ := List.exists_cons_of_ne_nil hne
  rcases t with - | ⟨c, t⟩
  · cases hds
  · obtain ⟨hc, ht⟩ := List.cons.inj hds
    rw [digits, digitIn_of_lt hc (hlt d List.mem_cons_self), Option.bind_some,
      digitsFrom_eq ht fun e he => hlt e (List.mem_cons_of_mem d he), Nat.ofDigits_eq_foldr,
      List.foldr_reverse, List.foldl_cons]
    simp

/-- A numeral is not taken for a prefix. -/
theorem Numeral.dropPrefix_eq (h : Numeral base t n) : dropPrefix base t = t := by
  rw [dropPrefix, if_neg]
  rintro ⟨rfl, hhead⟩
  have hmem : ∃ c ∈ t, digitValue c = some 33 := by
    rcases hhead with hhead | hhead
    · have hx : 'x' ∈ t.take 2 := by simp [hhead]
      exact ⟨'x', List.mem_of_mem_take hx, rfl⟩
    · have hx : 'X' ∈ t.take 2 := by simp [hhead]
      exact ⟨'X', List.mem_of_mem_take hx, rfl⟩
  obtain ⟨c, hc, hvalue⟩ := hmem
  obtain ⟨d, hd, heq⟩ := h.exists_digit hc
  obtain rfl := Option.some.inj (hvalue.symm.trans heq)
  omega

/-- **What `int` reads.** -/
theorem parseInt_of_numeral (h : Numeral base t n) : parseInt base t = some n := by
  have hspace : ∀ c ∈ t, isIntSpace c = false := by
    intro c hc
    rw [isIntSpace, h.isWord.2 c hc, Bool.false_and]
  have hsign : t.head? ≠ some '+' :=
    fun hhead => h.not_mem (c := '+') rfl (List.mem_of_mem_head? hhead)
  rw [parseInt, stripBy_eq_self (fun c hc => hspace c (List.mem_of_mem_head? hc))
    (fun c hc => hspace c (List.mem_of_mem_getLast? hc))]
  rw [if_neg hsign, h.dropPrefix_eq, digits_of_numeral h]

/-- Numbers, one for each word. -/
def Numerals (base : ℕ) (ws : List (List Char)) (ns : List ℕ) : Prop :=
  List.Forall₂ (Numeral base) ws ns

theorem mapM_parseInt {ns : List ℕ} (h : Numerals base ws ns) :
    ws.mapM (parseInt base) = some ns := by
  induction h with
  | nil => rfl
  | cons hn _ ih =>
    rw [List.mapM_cons, parseInt_of_numeral hn, ih]
    rfl

/-! ### What is found: ranges -/

/-- `first..last`, or one number for both. -/
inductive SpellsRange (base : ℕ) : List Char → ℕ → ℕ → Prop
  | single {t : List Char} {n : ℕ} (h : Numeral base t n) : SpellsRange base t n n
  | range {t t' : List Char} {n n' : ℕ} (h : Numeral base t n) (h' : Numeral base t' n') :
      SpellsRange base (t ++ ('.' :: ['.'] ++ t')) n n'

variable {n' : ℕ}

theorem mem_closedRange {k : ℕ} : k ∈ closedRange n n' ↔ n ≤ k ∧ k ≤ n' := by
  rw [closedRange, List.mem_range'_1]
  omega

theorem nodup_closedRange (n n' : ℕ) : (closedRange n n').Nodup := List.nodup_range'

theorem SpellsRange.mem (h : SpellsRange base t n n') (hc : c ∈ t) :
    c = '.' ∨ ∃ d < base, digitValue c = some d := by
  rcases h with h | ⟨h, h'⟩
  · exact Or.inr (h.exists_digit hc)
  · simp only [List.cons_append, List.nil_append, List.mem_append, List.mem_cons] at hc
    rcases hc with hc | rfl | rfl | hc
    · exact Or.inr (h.exists_digit hc)
    · exact Or.inl rfl
    · exact Or.inl rfl
    · exact Or.inr (h'.exists_digit hc)

theorem SpellsRange.isWord (h : SpellsRange base t n n') : IsWord t := by
  constructor
  · rcases h with h | ⟨h, h'⟩
    · exact h.isWord.1
    · simp
  · intro c hc
    rcases h.mem hc with rfl | ⟨d, -, hd⟩
    · decide
    · exact isSpace_of_digitValue hd

/-- `split('..')` finds the first and the last number. -/
theorem splitText_of_spellsRange (h : SpellsRange base t n n') :
    ∃ ns, (splitText ['.', '.'] t).mapM (parseInt base) = some ns ∧ ns ≠ [] ∧
      ns.headD 0 = n ∧ ns.getLastD 0 = n' := by
  rcases h with h | ⟨h, h'⟩
  · refine ⟨[n], ?_, by simp, rfl, rfl⟩
    rw [splitText_of_not_mem (h.not_mem rfl)]
    exact mapM_parseInt (.cons h .nil)
  · refine ⟨[n, n'], ?_, by simp, rfl, rfl⟩
    rw [splitText_append (h.not_mem rfl) (h'.not_mem rfl)]
    exact mapM_parseInt (.cons h (.cons h' .nil))

/-- `partition('..')` finds the first number, and the last one if there are
two. -/
theorem partition_of_spellsRange (h : SpellsRange base t n n') :
    parseInt base (partition ['.', '.'] t).1 = some n ∧
      parseInt base (if (partition ['.', '.'] t).2 = [] then (partition ['.', '.'] t).1
        else (partition ['.', '.'] t).2) = some n' := by
  rcases h with h | ⟨h, h'⟩
  · rw [partition_of_not_mem (h.not_mem rfl)]
    exact ⟨parseInt_of_numeral h, parseInt_of_numeral h⟩
  · rw [partition_append (h.not_mem rfl)]
    refine ⟨parseInt_of_numeral h, ?_⟩
    rw [if_neg h'.isWord.1]
    exact parseInt_of_numeral h'

end LineText
