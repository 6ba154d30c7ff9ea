/-
AdaIdna/ContextJ.lean

The ContextJ rules as conditions on positions.

A scan away from the joiner stops at the first character that is not
transparent.  That it ends with a given joining type is a statement about a
position and the positions before it (`scanJoining_iff`); the loop asks for
it at each joiner, whatever surrounds the others (`isContextjValidFrom_iff`).
-/
import AdaIdna.Validity

namespace AdaIdna

variable {T : Tables} {label front rest s : U32String} {c : ℕ} {x : JoiningType}

/-! ### The rule -/

/-- U+200C and U+200D. -/
def IsJoiner (c : ℕ) : Prop := c = 0x200C ∨ c = 0x200D

/-- The character at `i` follows a virama. -/
def FollowsVirama (T : Tables) (label : U32String) (i : ℕ) : Prop :=
  0 < i ∧ ∃ p, label[i - 1]? = some p ∧ getCcc T p = 9

/-- `(Joining_Type:{L,D})(Joining_Type:T)*\u200C(Joining_Type:T)*(Joining_Type:{R,D})`
around the character at `i`. -/
def JoinsAround (T : Tables) (label : U32String) (i : ℕ) : Prop :=
  ∃ j k a b : ℕ, j < i ∧ i < k ∧ label[j]? = some a ∧ label[k]? = some b ∧
    (findJoiningType T a = .l ∨ findJoiningType T a = .d) ∧
    (findJoiningType T b = .r ∨ findJoiningType T b = .d) ∧
    ∀ m c : ℕ, j < m → m < k → m ≠ i → label[m]? = some c → findJoiningType T c = .t

/-- The rules of RFC 5892, Appendix A.1 and A.2, at every position of a label. -/
def ContextJRule (T : Tables) (label : U32String) : Prop :=
  ∀ i c : ℕ, label[i]? = some c → IsJoiner c →
    FollowsVirama T label i ∨ c = 0x200C ∧ JoinsAround T label i

/-! ### Scans -/

/-- A scan that meets a character of type `x` behind transparent ones. -/
theorem scanJoining_iff (hx : x ≠ .t) {found : JoiningType} (hfound : found ≠ x) :
    scanJoining T found s = x ↔
      ∃ k c : ℕ, s[k]? = some c ∧ findJoiningType T c = x ∧
        ∀ m d : ℕ, m < k → s[m]? = some d → findJoiningType T d = .t := by
  induction s generalizing found with
  | nil => simp [scanJoining, hfound]
  | cons c s ih =>
    rw [scanJoining]
    split
    · -- the scan stops here, and a later position is behind `c`
      rename_i hc
      constructor
      · intro h
        exact ⟨0, c, rfl, h, fun m d hm => absurd hm (Nat.not_lt_zero m)⟩
      · rintro ⟨k, d, hd, htype, hbefore⟩
        cases k with
        | zero =>
          obtain rfl := Option.some.inj hd
          exact htype
        | succ k => exact absurd (hbefore 0 c (Nat.succ_pos k) rfl) hc
    · rename_i hc
      rw [not_not] at hc
      rw [hc, ih hx.symm]
      constructor
      · rintro ⟨k, d, hd, htype, hbefore⟩
        refine ⟨k + 1, d, hd, htype, fun m e hm he => ?_⟩
        cases m with
        | zero =>
          obtain rfl := Option.some.inj he
          exact hc
        | succ m => exact hbefore m e (Nat.lt_of_succ_lt_succ hm) he
      · rintro ⟨k, d, hd, htype, hbefore⟩
        cases k with
        | zero =>
          obtain rfl := Option.some.inj hd
          exact absurd (htype.symm.trans hc) hx
        | succ k =>
          exact ⟨k, d, hd, htype, fun m e hm he => hbefore (m + 1) e (Nat.succ_lt_succ hm) he⟩

/-- The two tests of the loop on the outcome of a scan. -/
theorem scanJoining_or_iff {y : JoiningType} (hx : x ≠ .t) (hy : y ≠ .t) (hx' : x ≠ .u)
    (hy' : y ≠ .u) :
    scanJoining T .u s = x ∨ scanJoining T .u s = y ↔
      ∃ k c : ℕ, s[k]? = some c ∧ (findJoiningType T c = x ∨ findJoiningType T c = y) ∧
        ∀ m d : ℕ, m < k → s[m]? = some d → findJoiningType T d = .t := by
  rw [scanJoining_iff hx hx'.symm, scanJoining_iff hy hy'.symm]
  constructor
  · rintro (⟨k, c, hc, htype, hbefore⟩ | ⟨k, c, hc, htype, hbefore⟩)
    · exact ⟨k, c, hc, Or.inl htype, hbefore⟩
    · exact ⟨k, c, hc, Or.inr htype, hbefore⟩
  · rintro ⟨k, c, hc, htype | htype, hbefore⟩
    · exact Or.inl ⟨k, c, hc, htype, hbefore⟩
    · exact Or.inr ⟨k, c, hc, htype, hbefore⟩

/-! ### Positions around a joiner -/

/-- The characters in front of the joiner, last one first. -/
theorem getElem?_front {j : ℕ} (hj : j < front.length) :
    (front.reverse ++ c :: rest)[j]? = front[front.length - 1 - j]? := by
  rw [List.getElem?_append_left (by rwa [List.length_reverse]), List.getElem?_reverse hj]

theorem getElem?_joiner : (front.reverse ++ c :: rest)[front.length]? = some c := by
  rw [List.getElem?_append_right (by rw [List.length_reverse]), List.length_reverse, Nat.sub_self]
  rfl

theorem getElem?_rest {k : ℕ} (hk : front.length < k) :
    (front.reverse ++ c :: rest)[k]? = rest[k - front.length - 1]? := by
  rw [List.getElem?_append_right (by rw [List.length_reverse]; omega), List.length_reverse,
    List.getElem?_cons, if_neg (by omega)]

theorem afterVirama_iff :
    afterVirama T front = true ↔ FollowsVirama T (front.reverse ++ c :: rest) front.length := by
  rcases front with - | ⟨p, front⟩
  · simp [afterVirama, FollowsVirama]
  · rw [FollowsVirama, getElem?_front (by simp), afterVirama, beq_iff_eq]
    simp [viramaCcc]

/-- **The two scans** find the two ends of the match. -/
theorem joinsAround_iff :
    JoinsAround T (front.reverse ++ c :: rest) front.length ↔
      (scanJoining T .u front = .l ∨ scanJoining T .u front = .d) ∧
        (scanJoining T .u rest = .r ∨ scanJoining T .u rest = .d) := by
  rw [scanJoining_or_iff (by decide) (by decide) (by decide) (by decide),
    scanJoining_or_iff (by decide) (by decide) (by decide) (by decide)]
  constructor
  · rintro ⟨j, k, a, b, hj, hk, ha, hb, hleft, hright, hbetween⟩
    rw [getElem?_front hj] at ha
    rw [getElem?_rest hk] at hb
    refine ⟨⟨_, a, ha, hleft, fun m d hm hd => ?_⟩, ⟨_, b, hb, hright, fun m d hm hd => ?_⟩⟩
    · apply hbetween (front.length - 1 - m) d (by omega) (by omega) (by omega)
      rwa [getElem?_front (by omega), show front.length - 1 - (front.length - 1 - m) = m by omega]
    · apply hbetween (front.length + 1 + m) d (by omega) (by omega) (by omega)
      rwa [getElem?_rest (by omega), show front.length + 1 + m - front.length - 1 = m by omega]
  · rintro ⟨⟨j, a, ha, hleft, hfront⟩, ⟨k, b, hb, hright, hrest⟩⟩
    have hj : j < front.length := (List.getElem?_eq_some_iff.mp ha).1
    refine ⟨front.length - 1 - j, front.length + 1 + k, a, b, by omega, by omega, ?_, ?_, hleft,
      hright, fun m d hjm hmk hne hd => ?_⟩
    · rwa [getElem?_front (by omega), show front.length - 1 - (front.length - 1 - j) = j by omega]
    · rwa [getElem?_rest (by omega), show front.length + 1 + k - front.length - 1 = k by omega]
    · rcases Nat.lt_or_gt_of_ne hne with hm | hm
      · rw [getElem?_front hm] at hd
        exact hfront _ d (by omega) hd
      · rw [getElem?_rest hm] at hd
        exact hrest _ d (by omega) hd

/-! ### The loop -/

/-- The rule at one position. -/
def ContextJAt (T : Tables) (label : U32String) (i c : ℕ) : Prop :=
  IsJoiner c → FollowsVirama T label i ∨ c = 0x200C ∧ JoinsAround T label i

/-- One round of the loop checks the rule at its position. -/
theorem isContextjValidFrom_cons :
    isContextjValidFrom T front (c :: rest) = true ↔
      ContextJAt T (front.reverse ++ c :: rest) front.length c ∧
        isContextjValidFrom T (c :: front) rest = true := by
  rw [isContextjValidFrom, ContextJAt, IsJoiner, ← afterVirama_iff, joinsAround_iff]
  dsimp only
  split_ifs with hc hvirama hzwj hbefore hafter
  · rw [← not_or] at hc
    simp [hc]
  · simp [hvirama]
  · simp [hvirama, hzwj]
  all_goals
    have hzwnj : c = 0x200C := by
      by_contra h
      exact hc ⟨h, hzwj⟩
  · rw [← not_or] at hbefore
    simp [hvirama, hzwnj, hbefore]
  · rw [← not_or] at hafter
    simp [hvirama, hzwnj, hafter]
  · rw [← not_or, not_not] at hbefore hafter
    simp [hbefore, hafter, hzwnj]

/-- The loop checks the rule from its position on. -/
theorem isContextjValidFrom_iff :
    isContextjValidFrom T front rest = true ↔
      ∀ i c : ℕ, front.length ≤ i → (front.reverse ++ rest)[i]? = some c →
        ContextJAt T (front.reverse ++ rest) i c := by
  induction rest generalizing front with
  | nil =>
    rw [isContextjValidFrom, List.append_nil]
    refine iff_of_true rfl fun i c hi hc => ?_
    rw [List.getElem?_eq_none (by rwa [List.length_reverse])] at hc
    cases hc
  | cons c rest ih =>
    have happend : (c :: front).reverse ++ rest = front.reverse ++ c :: rest := by simp
    rw [isContextjValidFrom_cons, ih, happend]
    constructor
    · rintro ⟨hhere, hthere⟩ i d hi hd
      rcases Nat.eq_or_lt_of_le hi with rfl | hi
      · rw [getElem?_joiner] at hd
        obtain rfl := Option.some.inj hd
        exact hhere
      · exact hthere i d hi hd
    · intro h
      exact ⟨h _ c le_rfl getElem?_joiner, fun i d hi hd => h i d (Nat.le_of_succ_le hi) hd⟩

/-- **`is_contextj_valid` checks the ContextJ rules at every position.** -/
theorem isContextjValid_iff (T : Tables) (label : U32String) :
    isContextjValid T label = true ↔ ContextJRule T label := by
  rw [isContextjValid, isContextjValidFrom_iff]
  constructor
  · exact fun h i c hc => h i c (Nat.zero_le i) hc
  · exact fun h i c _ hc => h i c hc

end AdaIdna
