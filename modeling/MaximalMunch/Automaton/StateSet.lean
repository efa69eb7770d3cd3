/-!
# Sets of states

A finite set of state numbers is kept as a mask: bit `i` of the number tells whether `i` is an
element.  Equal sets have equal masks, the sets over the states below `n` are the masks below
`2 ^ n`, and renumbering all states by an offset is a shift.
-/

namespace MaximalMunch

/-- A finite set of state numbers. -/
structure StateSet where
  mask : Nat
  deriving DecidableEq, Repr

namespace StateSet

instance : Membership Nat StateSet where
  mem s i := s.mask.testBit i = true

instance (i : Nat) (s : StateSet) : Decidable (i ∈ s) :=
  inferInstanceAs (Decidable (s.mask.testBit i = true))

theorem mem_def {i : Nat} {s : StateSet} : i ∈ s ↔ s.mask.testBit i = true :=
  Iff.rfl

theorem ext {s t : StateSet} (h : ∀ i, i ∈ s ↔ i ∈ t) : s = t := by
  cases s with
  | mk a =>
    cases t with
    | mk b => exact congrArg mk (Nat.eq_of_testBit_eq fun i => Bool.eq_iff_iff.2 (h i))

/-- The set without elements. -/
def empty : StateSet := ⟨0⟩

instance : EmptyCollection StateSet := ⟨empty⟩

/-- The set with one element. -/
def singleton (i : Nat) : StateSet := ⟨1 <<< i⟩

/-- The elements of either set. -/
def union (s t : StateSet) : StateSet := ⟨s.mask ||| t.mask⟩

instance : Union StateSet := ⟨union⟩

/-- The elements of both sets. -/
def inter (s t : StateSet) : StateSet := ⟨s.mask &&& t.mask⟩

instance : Inter StateSet := ⟨inter⟩

/-- The elements of the first set that are not in the second. -/
def diff (s t : StateSet) : StateSet := ⟨s.mask ^^^ (s.mask &&& t.mask)⟩

instance : SDiff StateSet := ⟨diff⟩

/-- A set with one more element. -/
def insert (s : StateSet) (i : Nat) : StateSet := s ∪ singleton i

/-- All numbers below `n`. -/
def below (n : Nat) : StateSet := ⟨(1 <<< n) - 1⟩

/-- Every element raised by an offset. -/
def shift (s : StateSet) (offset : Nat) : StateSet := ⟨s.mask <<< offset⟩

/-- Whether there is no element. -/
def isEmpty (s : StateSet) : Bool := s.mask == 0

/-- The set of the numbers in a list. -/
def ofList (states : List Nat) : StateSet :=
  states.foldl insert ∅

@[simp] theorem not_mem_empty (i : Nat) : i ∉ (∅ : StateSet) := by
  show ¬ Nat.testBit 0 i = true
  simp

@[simp] theorem mem_singleton {i j : Nat} : i ∈ singleton j ↔ i = j := by
  show Nat.testBit (1 <<< j) i = true ↔ i = j
  rw [Nat.one_shiftLeft, Nat.testBit_two_pow, decide_eq_true_iff]
  exact eq_comm

@[simp] theorem mem_union {i : Nat} {s t : StateSet} : i ∈ s ∪ t ↔ i ∈ s ∨ i ∈ t := by
  show Nat.testBit (s.mask ||| t.mask) i = true ↔ s.mask.testBit i = true ∨ t.mask.testBit i = true
  rw [Nat.testBit_or, Bool.or_eq_true]

@[simp] theorem mem_inter {i : Nat} {s t : StateSet} : i ∈ s ∩ t ↔ i ∈ s ∧ i ∈ t := by
  show Nat.testBit (s.mask &&& t.mask) i = true ↔ s.mask.testBit i = true ∧ t.mask.testBit i = true
  rw [Nat.testBit_and, Bool.and_eq_true]

@[simp] theorem mem_diff {i : Nat} {s t : StateSet} : i ∈ s \ t ↔ i ∈ s ∧ i ∉ t := by
  show Nat.testBit (s.mask ^^^ (s.mask &&& t.mask)) i = true ↔
    s.mask.testBit i = true ∧ ¬ t.mask.testBit i = true
  rw [Nat.testBit_xor, Nat.testBit_and]
  cases s.mask.testBit i <;> cases t.mask.testBit i <;> simp

@[simp] theorem mem_insert {i j : Nat} {s : StateSet} : i ∈ s.insert j ↔ i ∈ s ∨ i = j := by
  simp [insert]

@[simp] theorem mem_below {i n : Nat} : i ∈ below n ↔ i < n := by
  show Nat.testBit ((1 <<< n) - 1) i = true ↔ i < n
  rw [Nat.one_shiftLeft, Nat.testBit_two_pow_sub_one, decide_eq_true_iff]

@[simp] theorem mem_shift {i offset : Nat} {s : StateSet} :
    i ∈ s.shift offset ↔ offset ≤ i ∧ i - offset ∈ s := by
  show Nat.testBit (s.mask <<< offset) i = true ↔ offset ≤ i ∧ s.mask.testBit (i - offset) = true
  rw [Nat.testBit_shiftLeft, Bool.and_eq_true, decide_eq_true_iff]

theorem isEmpty_iff {s : StateSet} : s.isEmpty = true ↔ s = ∅ := by
  cases s with
  | mk a =>
    show (a == 0) = true ↔ mk a = mk 0
    rw [beq_iff_eq, mk.injEq]

theorem mem_foldl_insert {i : Nat} (states : List Nat) (s : StateSet) :
    i ∈ states.foldl insert s ↔ i ∈ s ∨ i ∈ states := by
  induction states generalizing s with
  | nil => simp
  | cons j states ih => simp [ih, or_assoc]

@[simp] theorem mem_ofList {i : Nat} {states : List Nat} : i ∈ ofList states ↔ i ∈ states := by
  simp [ofList, mem_foldl_insert]

theorem mask_le_of_subset {s t : StateSet} (h : ∀ i ∈ s, i ∈ t) : s.mask ≤ t.mask := by
  have : s.mask &&& t.mask = s.mask := by
    refine Nat.eq_of_testBit_eq fun i => ?_
    have := h i
    simp only [mem_def] at this
    rw [Nat.testBit_and]
    cases hs : s.mask.testBit i <;> simp_all
  rw [← this]
  exact Nat.and_le_right

/-- Taking elements away makes the mask smaller. -/
theorem mask_diff_lt {s t : StateSet} {i : Nat} (hs : i ∈ s) (ht : i ∈ t) :
    (s \ t).mask < s.mask := by
  refine Nat.lt_of_le_of_ne (mask_le_of_subset fun j hj => (mem_diff.1 hj).1) fun h => ?_
  have : s \ t = s := by
    cases hst : s \ t
    rw [hst] at h
    cases s
    exact congrArg mk h
  exact (mem_diff.1 (this ▸ hs)).2 ht

theorem exists_mem_of_not_isEmpty {s : StateSet} (h : ¬ s.isEmpty = true) : ∃ i, i ∈ s := by
  have hne : s.mask ≠ 0 := fun h0 => h (by simp [isEmpty, h0])
  exact ⟨s.mask.log2, Nat.testBit_log2 hne⟩

/-- The set without its greatest element has a smaller mask. -/
theorem mask_sub_lt {m : Nat} (h : m ≠ 0) : m - 1 <<< m.log2 < m := by
  rw [Nat.one_shiftLeft]
  have := Nat.two_pow_pos m.log2
  omega

/-- The elements of a mask in ascending order in front of those already collected; the greatest
one is taken off first. -/
def collect (m : Nat) (above : List Nat) : List Nat :=
  if _ : m = 0 then above
  else collect (m - 1 <<< m.log2) (m.log2 :: above)
termination_by m
decreasing_by exact mask_sub_lt ‹_›

/-- The elements in ascending order. -/
def toList (s : StateSet) : List Nat := collect s.mask []

/-- Whether two sets have an element in common. -/
def meets (s t : StateSet) : Bool := !(s ∩ t).isEmpty

/-- The greatest element is bit `log2` and the others are the bits of the rest. -/
theorem testBit_sub_top {m i : Nat} (h : m ≠ 0) :
    (m - 1 <<< m.log2).testBit i = (m.testBit i && decide (i ≠ m.log2)) := by
  rw [Nat.one_shiftLeft]
  have low := Nat.log2_self_le h
  have high : m < 2 ^ (m.log2 + 1) := Nat.lt_log2_self
  generalize m.log2 = k at low high ⊢
  obtain ⟨r, rfl⟩ := Nat.exists_eq_add_of_le low
  have small : r < 2 ^ k := by rw [Nat.pow_succ] at high; omega
  rw [Nat.add_sub_cancel_left]
  rcases Nat.lt_trichotomy i k with hlt | heq | hgt
  · rw [Nat.testBit_two_pow_add_gt hlt]
    simp [Nat.ne_of_lt hlt]
  · subst heq
    simp [Nat.testBit_lt_two_pow small]
  · have big : r + 2 ^ k < 2 ^ i := by
      calc r + 2 ^ k < 2 ^ k + 2 ^ k := by omega
        _ = 2 ^ (k + 1) := by rw [Nat.pow_succ]; omega
        _ ≤ 2 ^ i := Nat.pow_le_pow_right (by decide) hgt
    rw [Nat.testBit_lt_two_pow (by omega : r < 2 ^ i),
      Nat.testBit_lt_two_pow (by omega : 2 ^ k + r < 2 ^ i)]
    rfl

theorem mem_collect {i : Nat} (m : Nat) (above : List Nat) :
    i ∈ collect m above ↔ m.testBit i = true ∨ i ∈ above := by
  induction m using Nat.strongRecOn generalizing above with
  | ind m ih =>
    unfold collect
    split
    · next h => simp [h]
    · next h =>
      rw [ih _ (mask_sub_lt h), testBit_sub_top h, List.mem_cons]
      have top : m.testBit m.log2 = true := Nat.testBit_log2 h
      by_cases hi : i = m.log2
      · simp [hi, top]
      · simp [hi]

@[simp] theorem mem_toList {i : Nat} {s : StateSet} : i ∈ s.toList ↔ i ∈ s := by
  simp [toList, mem_collect, mem_def]

theorem pairwise_collect (m : Nat) (above : List Nat) (sorted : above.Pairwise (· < ·))
    (bound : ∀ i ∈ above, m < 1 <<< i) : (collect m above).Pairwise (· < ·) := by
  induction m using Nat.strongRecOn generalizing above with
  | ind m ih =>
    unfold collect
    split
    · exact sorted
    · next h =>
      refine ih _ (mask_sub_lt h) _ (List.pairwise_cons.2 ⟨fun i hi => ?_, sorted⟩) ?_
      · exact (Nat.log2_lt h).2 (Nat.one_shiftLeft i ▸ bound i hi)
      · intro i hi
        rcases List.mem_cons.1 hi with rfl | hi
        · have := Nat.lt_log2_self (n := m)
          rw [Nat.pow_succ] at this
          rw [Nat.one_shiftLeft]
          omega
        · exact Nat.lt_of_le_of_lt (Nat.sub_le _ _) (bound i hi)

/-- The elements are listed in ascending order and once each. -/
theorem pairwise_toList (s : StateSet) : s.toList.Pairwise (· < ·) :=
  pairwise_collect _ _ List.Pairwise.nil (by simp)

end StateSet

end MaximalMunch
