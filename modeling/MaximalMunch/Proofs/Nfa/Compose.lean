import Mathlib
import MaximalMunch.Nfa.Compose
import MaximalMunch.Proofs.Nfa.Path

/-!
# The languages of composed automata

`ahead q` is the language read on the way from state `q` to a final state.  Each composition is
first described by its edges (`UnionEdge`, `StarEdge`, `ConcatEdge`), and what lies ahead of a
state of the result then follows from what lies ahead of the state of the operand it comes from.

Union and closure are treated for all automata with one final state.  A concatenation lets the
edges of the second start state leave the first final state instead, so `ahead_concat_first` asks
for a first final state without edges of its own and for a second start state that is number zero.
-/

namespace MaximalMunch

theorem StateSet.toList_singleton (q : Nat) : (StateSet.singleton q).toList = [q] := by
  have hmem : ∀ i, i ∈ (StateSet.singleton q).toList ↔ i = q := by simp
  have hsorted := StateSet.pairwise_toList (.singleton q)
  cases hlist : (StateSet.singleton q).toList with
  | nil =>
      rw [hlist] at hmem
      exact absurd ((hmem q).mpr rfl) List.not_mem_nil
  | cons a rest =>
      rw [hlist] at hmem hsorted
      have ha : a = q := (hmem a).mp List.mem_cons_self
      cases rest with
      | nil => rw [ha]
      | cons b rest =>
          have hb : b = q := (hmem b).mp (by simp)
          have hlt : a < b := (List.pairwise_cons.mp hsorted).1 b List.mem_cons_self
          omega

namespace Nfa

open scoped Computability

theorem finalState_eq {n : Nfa} {q : Nat} (hfinals : n.finals = .singleton q) :
    n.finalState = .ok q := by
  unfold finalState
  rw [hfinals, StateSet.toList_singleton]

/-! ## What lies ahead of a state -/

/-- The words on the paths from a state to a final state. -/
def ahead (n : Nfa) (p : Nat) : Language Char :=
  {w | ∃ q ∈ n.finals, n.Path p w q}

theorem ahead_start (n : Nfa) : n.ahead n.start = n.language := rfl

variable {n m u : Nfa} {p q f g last offset : Nat} {o : Option Char} {w v : List Char}

theorem mem_ahead (hfinals : n.finals = .singleton f) : w ∈ n.ahead p ↔ n.Path p w f := by
  constructor
  · rintro ⟨q, hq, hpath⟩
    rw [hfinals, StateSet.mem_singleton] at hq
    rwa [hq] at hpath
  · intro hpath
    refine ⟨f, ?_, hpath⟩
    rw [hfinals, StateSet.mem_singleton]

theorem nil_mem_ahead (hfinals : n.finals = .singleton f) : [] ∈ n.ahead f :=
  (mem_ahead hfinals).mpr (.refl f)

theorem mem_ahead_of_edge (hedge : q ∈ (n.row p).on o) (hw : w ∈ n.ahead q) :
    o.toList ++ w ∈ n.ahead p := by
  obtain ⟨r, hr, hpath⟩ := hw
  exact ⟨r, hr, .step hedge hpath⟩

theorem mem_ahead_of_path (hpath : n.Path p w q) (hv : v ∈ n.ahead q) : w ++ v ∈ n.ahead p := by
  obtain ⟨r, hr, hrest⟩ := hv
  exact ⟨r, hr, hpath.trans hrest⟩

theorem append_mem_mul_of_forall {L M K : Language Char} (h : ∀ x ∈ L, v ++ x ∈ M)
    (hw : w ∈ L * K) : v ++ w ∈ M * K := by
  obtain ⟨x, hx, y, hy, rfl⟩ := Language.mem_mul.mp hw
  have hxy := Language.append_mem_mul (h x hx) hy
  rwa [List.append_assoc] at hxy

theorem append_mem_mul_of_edge {K : Language Char} (hedge : q ∈ (n.row p).on o)
    (hw : w ∈ n.ahead q * K) : o.toList ++ w ∈ n.ahead p * K :=
  append_mem_mul_of_forall (fun _ hx => mem_ahead_of_edge hedge hx) hw

/-- What lies ahead of a state inside a copy of an automaton.  The copy is left through its final
state only, for a last state or, in a loop, for the start of the copy; `K` holds what may be read
behind a word of the copy. -/
theorem mem_mul_of_mem_ahead_copy {K : Language Char} (hn : n.WellFormed)
    (hf : n.finals = .singleton f) (hlast : u.finals = .singleton last)
    (hsink : ∀ o q, q ∉ (u.row last).on o) (hout : ∀ p < n.size, p + offset ≠ last)
    (hnil : [] ∈ K)
    (hedges : ∀ {p o q}, p < n.size → q ∈ (u.row (p + offset)).on o →
      (∃ q', q' ∈ (n.row p).on o ∧ q = q' + offset) ∨
        p = f ∧ o = none ∧ (q = last ∨ q = n.start + offset ∧ n.language * K ≤ K))
    (hp : p < n.size) (hw : w ∈ u.ahead (p + offset)) : w ∈ n.ahead p * K := by
  obtain ⟨r, hr, hpath⟩ := hw
  rw [hlast, StateSet.mem_singleton] at hr
  -- the induction is on the path, from a start anywhere in the copy
  generalize hstart : p + offset = start at hpath
  induction hpath generalizing p with
  | refl => exact absurd (hstart.trans hr) (hout p hp)
  | @step _ q _ o w hedge hpath ih =>
      subst hstart
      -- an edge inside the copy, the edge to the last state, or the edge around the loop
      rcases hedges hp hedge with ⟨q', hedge', rfl⟩ | ⟨rfl, rfl, rfl | ⟨rfl, hloop⟩⟩
      · exact append_mem_mul_of_edge hedge' (ih (hn.target_lt hedge') hr rfl)
      · obtain ⟨rfl, -⟩ := hpath.eq_of_no_edge hsink
        exact Language.append_mem_mul (nil_mem_ahead hf) hnil
      · have hrest := ih hn.start_lt hr rfl
        exact Language.append_mem_mul (nil_mem_ahead hf) (hloop hrest)

/-- A copy of an automaton is read like the automaton itself, up to its final state. -/
theorem append_mem_ahead_copy (hf : n.finals = .singleton f)
    (hedges : ∀ {p q o}, q ∈ (n.row p).on o → q + offset ∈ (u.row (p + offset)).on o)
    (hw : w ∈ n.ahead p) (hv : v ∈ u.ahead (f + offset)) : w ++ v ∈ u.ahead (p + offset) := by
  have hcopy : u.Path (p + offset) w (f + offset) :=
    ((mem_ahead hf).mp hw).map (· + offset) hedges
  exact mem_ahead_of_path hcopy hv

/-- A copy that is left as in `mem_mul_of_mem_ahead_copy`, and behind whose final state all of `K`
can be read, has ahead of its states what the automaton itself has, with `K` behind it. -/
theorem ahead_copy {K : Language Char} (hn : n.WellFormed) (hf : n.finals = .singleton f)
    (hlast : u.finals = .singleton last) (hsink : ∀ o q, q ∉ (u.row last).on o)
    (hout : ∀ p < n.size, p + offset ≠ last) (hnil : [] ∈ K)
    (hinner : ∀ {p q o}, q ∈ (n.row p).on o → q + offset ∈ (u.row (p + offset)).on o)
    (hedges : ∀ {p o q}, p < n.size → q ∈ (u.row (p + offset)).on o →
      (∃ q', q' ∈ (n.row p).on o ∧ q = q' + offset) ∨
        p = f ∧ o = none ∧ (q = last ∨ q = n.start + offset ∧ n.language * K ≤ K))
    (hrest : K ≤ u.ahead (f + offset)) (hp : p < n.size) :
    u.ahead (p + offset) = n.ahead p * K := by
  ext w
  constructor
  · exact mem_mul_of_mem_ahead_copy hn hf hlast hsink hout hnil hedges hp
  · intro hw
    obtain ⟨x, hx, y, hy, rfl⟩ := Language.mem_mul.mp hw
    exact append_mem_ahead_copy hf hinner hx (hrest hy)

/-! ## Rows given by a function -/

section Tabulate

variable {states start final : Nat} {row : Nat → Row}

@[simp] theorem start_tabulate : (tabulate states start final row).start = start := rfl

@[simp] theorem finals_tabulate :
    (tabulate states start final row).finals = .singleton final := rfl

@[simp] theorem size_tabulate : (tabulate states start final row).size = states :=
  Array.size_ofFn

theorem mem_on_tabulate :
    q ∈ ((tabulate states start final row).row p).on o ↔ p < states ∧ q ∈ (row p).on o := by
  by_cases hp : p < states
  · have hrow : (tabulate states start final row).row p = row p := by
      simp [Nfa.row, tabulate, Array.getD_eq_getD_getElem?, hp]
    rw [hrow]
    exact ⟨fun hedge => ⟨hp, hedge⟩, And.right⟩
  · constructor
    · intro hedge
      have hlt := source_lt hedge
      rw [size_tabulate] at hlt
      exact absurd hlt hp
    · exact fun hedge => absurd hedge.1 hp

end Tabulate

theorem mem_on_shiftedRow :
    q ∈ (n.shiftedRow offset p).on o ↔
      ∃ p' q', q' ∈ (n.row p').on o ∧ p = p' + offset ∧ q = q' + offset := by
  unfold shiftedRow
  constructor
  · intro hedge
    split at hedge
    · obtain ⟨hq, hedge⟩ := Row.mem_on_shift.mp hedge
      exact ⟨p - offset, q - offset, hedge, by omega, by omega⟩
    · exact absurd hedge (Row.not_mem_on_empty o q)
  · rintro ⟨p', q', hedge, rfl, rfl⟩
    rw [if_pos (Nat.le_add_left offset p'), Row.mem_on_shift, Nat.add_sub_cancel,
      Nat.add_sub_cancel]
    exact ⟨Nat.le_add_left offset q', hedge⟩

theorem mem_on_ite {c : Prop} [Decidable c] {row : Row} :
    q ∈ (if c then row else {}).on o ↔ c ∧ q ∈ row.on o := by
  split
  · next hc => exact ⟨fun hedge => ⟨hc, hedge⟩, And.right⟩
  · next hc =>
      constructor
      · exact fun hedge => absurd hedge (Row.not_mem_on_empty o q)
      · exact fun hedge => absurd hedge.1 hc

/-! ## Union -/

/-- The edges of a union of two automata with the final states `f` and `g`. -/
inductive UnionEdge (n m : Nfa) (f g : Nat) (p : Nat) (o : Option Char) (q : Nat) : Prop where
  | left {p' q' : Nat} (hedge : q' ∈ (n.row p').on o) (hp : p = p' + 1) (hq : q = q' + 1)
  | right {p' q' : Nat} (hedge : q' ∈ (m.row p').on o) (hp : p = p' + (n.size + 1))
      (hq : q = q' + (n.size + 1))
  | enterLeft (hp : p = 0) (ho : o = none) (hq : q = n.start + 1)
  | enterRight (hp : p = 0) (ho : o = none) (hq : q = m.start + (n.size + 1))
  | leaveLeft (hp : p = f + 1) (ho : o = none) (hq : q = n.size + m.size + 1)
  | leaveRight (hp : p = g + (n.size + 1)) (ho : o = none) (hq : q = n.size + m.size + 1)

theorem union_spec (hn : n.WellFormed) (hm : m.WellFormed) (hf : n.finals = .singleton f)
    (hg : m.finals = .singleton g) :
    ∃ u, n.union m = .ok u ∧ u.size = n.size + m.size + 2 ∧ u.start = 0 ∧
      u.finals = .singleton (n.size + m.size + 1) ∧
      ∀ p o q, q ∈ (u.row p).on o ↔ UnionEdge n m f g p o q := by
  have hfinal : f < n.size := hn.finals_lt f (by simp [hf])
  have hother : g < m.size := hm.finals_lt g (by simp [hg])
  unfold union
  rw [finalState_eq hf, finalState_eq hg]
  refine ⟨_, rfl, size_tabulate, rfl, rfl, fun p o q => ?_⟩
  simp only [mem_on_tabulate, Row.mem_on_union, mem_on_shiftedRow, mem_on_ite, Row.mem_on_addEpsilon,
    Row.not_mem_on_empty, false_or]
  constructor
  · rintro ⟨-, ((⟨p', q', hedge, hp, hq⟩ | ⟨p', q', hedge, hp, hq⟩) |
      ⟨hp, ⟨ho, hq⟩ | ⟨ho, hq⟩⟩) | ⟨hp | hp, ho, hq⟩⟩
    · exact .left hedge hp hq
    · exact .right hedge hp hq
    · exact .enterLeft hp ho hq
    · exact .enterRight hp ho hq
    · exact .leaveLeft hp ho hq
    · exact .leaveRight hp ho hq
  · intro hedge
    cases hedge with
    | left hedge hp hq =>
        have hlt := source_lt hedge
        exact ⟨by omega, .inl (.inl (.inl ⟨_, _, hedge, hp, hq⟩))⟩
    | right hedge hp hq =>
        have hlt := source_lt hedge
        exact ⟨by omega, .inl (.inl (.inr ⟨_, _, hedge, hp, hq⟩))⟩
    | enterLeft hp ho hq => exact ⟨by omega, .inl (.inr ⟨hp, .inl ⟨ho, hq⟩⟩)⟩
    | enterRight hp ho hq => exact ⟨by omega, .inl (.inr ⟨hp, .inr ⟨ho, hq⟩⟩)⟩
    | leaveLeft hp ho hq => exact ⟨by omega, .inr ⟨.inl hp, ho, hq⟩⟩
    | leaveRight hp ho hq => exact ⟨by omega, .inr ⟨.inr hp, ho, hq⟩⟩

theorem union_state_cases (hp : p < n.size + m.size + 2) :
    p = 0 ∨ (∃ p' < n.size, p = p' + 1) ∨ (∃ p' < m.size, p = p' + (n.size + 1)) ∨
      p = n.size + m.size + 1 := by
  by_cases hzero : p = 0
  · exact .inl hzero
  by_cases hleft : p < n.size + 1
  · exact .inr (.inl ⟨p - 1, by omega, by omega⟩)
  by_cases hright : p < n.size + m.size + 1
  · exact .inr (.inr (.inl ⟨p - (n.size + 1), by omega, by omega⟩))
  · exact .inr (.inr (.inr (by omega)))

section Union

variable (hn : n.WellFormed) (hm : m.WellFormed) (hf : n.finals = .singleton f)
  (hg : m.finals = .singleton g) (hstart : u.start = 0)
  (hfinals : u.finals = .singleton (n.size + m.size + 1))
  (hedges : ∀ p o q, q ∈ (u.row p).on o ↔ UnionEdge n m f g p o q)

include hn hm hf hg hedges in
theorem union_sink (o : Option Char) (q : Nat) : q ∉ (u.row (n.size + m.size + 1)).on o := by
  have hfinal : f < n.size := hn.finals_lt f (by simp [hf])
  have hother : g < m.size := hm.finals_lt g (by simp [hg])
  rw [hedges]
  intro hedge
  cases hedge with
  | left hedge hp =>
      have hlt := source_lt hedge
      omega
  | right hedge hp =>
      have hlt := source_lt hedge
      omega
  | enterLeft hp => omega
  | enterRight hp => omega
  | leaveLeft hp => omega
  | leaveRight hp => omega

include hedges in
theorem edge_union_left (hp : p < n.size) (hedge : q ∈ (u.row (p + 1)).on o) :
    (∃ q', q' ∈ (n.row p).on o ∧ q = q' + 1) ∨ p = f ∧ o = none ∧ q = n.size + m.size + 1 := by
  cases (hedges _ _ _).mp hedge with
  | left hedge hp' hq =>
      obtain rfl := Nat.add_right_cancel hp'
      exact .inl ⟨_, hedge, hq⟩
  | leaveLeft hp' ho hq => exact .inr ⟨by omega, ho, hq⟩
  | right _ hp' => omega
  | enterLeft hp' => omega
  | enterRight hp' => omega
  | leaveRight hp' => omega

include hn hf hedges in
theorem edge_union_right (hedge : q ∈ (u.row (p + (n.size + 1))).on o) :
    (∃ q', q' ∈ (m.row p).on o ∧ q = q' + (n.size + 1)) ∨
      p = g ∧ o = none ∧ q = n.size + m.size + 1 := by
  have hfinal : f < n.size := hn.finals_lt f (by simp [hf])
  cases (hedges _ _ _).mp hedge with
  | left hedge hp' =>
      have hlt := source_lt hedge
      omega
  | right hedge hp' hq =>
      obtain rfl := Nat.add_right_cancel hp'
      exact .inl ⟨_, hedge, hq⟩
  | leaveRight hp' ho hq => exact .inr ⟨by omega, ho, hq⟩
  | enterLeft hp' => omega
  | enterRight hp' => omega
  | leaveLeft hp' => omega

include hn hm hf hg hfinals hedges

theorem ahead_union_left (hp : p < n.size) : u.ahead (p + 1) = n.ahead p := by
  rw [← mul_one (n.ahead p)]
  refine ahead_copy hn hf hfinals (union_sink hn hm hf hg hedges) (fun p hp => by omega)
    Language.nil_mem_one (fun hedge => (hedges _ _ _).mpr (.left hedge rfl rfl)) ?_ ?_ hp
  · intro p o q hp hedge
    rcases edge_union_left hedges hp hedge with hcopy | ⟨hp', ho, hq⟩
    · exact .inl hcopy
    · exact .inr ⟨hp', ho, .inl hq⟩
  · rintro w rfl
    exact mem_ahead_of_edge (o := none) ((hedges _ _ _).mpr (.leaveLeft rfl rfl rfl))
      (nil_mem_ahead hfinals)

theorem ahead_union_right (hp : p < m.size) : u.ahead (p + (n.size + 1)) = m.ahead p := by
  rw [← mul_one (m.ahead p)]
  refine ahead_copy hm hg hfinals (union_sink hn hm hf hg hedges) (fun p hp => by omega)
    Language.nil_mem_one (fun hedge => (hedges _ _ _).mpr (.right hedge rfl rfl)) ?_ ?_ hp
  · intro p o q _ hedge
    rcases edge_union_right hn hf hedges hedge with hcopy | ⟨hp', ho, hq⟩
    · exact .inl hcopy
    · exact .inr ⟨hp', ho, .inl hq⟩
  · rintro w rfl
    exact mem_ahead_of_edge (o := none) ((hedges _ _ _).mpr (.leaveRight rfl rfl rfl))
      (nil_mem_ahead hfinals)

include hstart in
theorem language_union : u.language = n.language + m.language := by
  have hleft := ahead_union_left hn hm hf hg hfinals hedges hn.start_lt
  have hright := ahead_union_right hn hm hf hg hfinals hedges hm.start_lt
  rw [← ahead_start u, ← ahead_start n, ← ahead_start m, ← hleft, ← hright, hstart]
  ext w
  rw [Language.mem_add]
  constructor
  · intro hw
    -- the start is not final, so there is a first edge, and it enters one of the copies
    cases (mem_ahead hfinals).mp hw with
    | step hedge hpath =>
        have hrest := (mem_ahead hfinals).mpr hpath
        cases (hedges _ _ _).mp hedge with
        | enterLeft _ ho hq =>
            subst ho hq
            exact .inl hrest
        | enterRight _ ho hq =>
            subst ho hq
            exact .inr hrest
        | left _ hp => omega
        | right _ hp => omega
        | leaveLeft hp => omega
        | leaveRight hp => omega
  · rintro (hw | hw)
    · exact mem_ahead_of_edge (o := none) ((hedges _ _ _).mpr (.enterLeft rfl rfl rfl)) hw
    · exact mem_ahead_of_edge (o := none) ((hedges _ _ _).mpr (.enterRight rfl rfl rfl)) hw

end Union

/-! ## Closure -/

/-- The edges of the closure of an automaton with the final state `f`. -/
inductive StarEdge (n : Nfa) (f : Nat) (p : Nat) (o : Option Char) (q : Nat) : Prop where
  | inner {p' q' : Nat} (hedge : q' ∈ (n.row p').on o) (hp : p = p' + 1) (hq : q = q' + 1)
  | enter (hp : p = 0) (ho : o = none) (hq : q = n.start + 1)
  | skip (hp : p = 0) (ho : o = none) (hq : q = n.size + 1)
  | repeats (hp : p = f + 1) (ho : o = none) (hq : q = n.start + 1)
  | leave (hp : p = f + 1) (ho : o = none) (hq : q = n.size + 1)

theorem star_spec (hn : n.WellFormed) (hf : n.finals = .singleton f) :
    ∃ u, n.star = .ok u ∧ u.size = n.size + 2 ∧ u.start = 0 ∧
      u.finals = .singleton (n.size + 1) ∧ ∀ p o q, q ∈ (u.row p).on o ↔ StarEdge n f p o q := by
  have hfinal : f < n.size := hn.finals_lt f (by simp [hf])
  unfold star
  rw [finalState_eq hf]
  refine ⟨_, rfl, size_tabulate, rfl, rfl, fun p o q => ?_⟩
  simp only [mem_on_tabulate, Row.mem_on_union, mem_on_shiftedRow, mem_on_ite, Row.mem_on_addEpsilon,
    Row.not_mem_on_empty, false_or]
  constructor
  · rintro ⟨-, ⟨p', q', hedge, hp, hq⟩ | ⟨hp | hp, ⟨ho, hq⟩ | ⟨ho, hq⟩⟩⟩
    · exact .inner hedge hp hq
    · exact .enter hp ho hq
    · exact .skip hp ho hq
    · exact .repeats hp ho hq
    · exact .leave hp ho hq
  · intro hedge
    cases hedge with
    | inner hedge hp hq =>
        have hlt := source_lt hedge
        exact ⟨by omega, .inl ⟨_, _, hedge, hp, hq⟩⟩
    | enter hp ho hq => exact ⟨by omega, .inr ⟨.inl hp, .inl ⟨ho, hq⟩⟩⟩
    | skip hp ho hq => exact ⟨by omega, .inr ⟨.inl hp, .inr ⟨ho, hq⟩⟩⟩
    | repeats hp ho hq => exact ⟨by omega, .inr ⟨.inr hp, .inl ⟨ho, hq⟩⟩⟩
    | leave hp ho hq => exact ⟨by omega, .inr ⟨.inr hp, .inr ⟨ho, hq⟩⟩⟩

theorem star_state_cases (hp : p < n.size + 2) :
    p = 0 ∨ (∃ p' < n.size, p = p' + 1) ∨ p = n.size + 1 := by
  by_cases hzero : p = 0
  · exact .inl hzero
  by_cases hinner : p < n.size + 1
  · exact .inr (.inl ⟨p - 1, by omega, by omega⟩)
  · exact .inr (.inr (by omega))

section Star

variable (hn : n.WellFormed) (hf : n.finals = .singleton f) (hstart : u.start = 0)
  (hfinals : u.finals = .singleton (n.size + 1))
  (hedges : ∀ p o q, q ∈ (u.row p).on o ↔ StarEdge n f p o q)

include hn hf hedges in
theorem star_sink (o : Option Char) (q : Nat) : q ∉ (u.row (n.size + 1)).on o := by
  have hfinal : f < n.size := hn.finals_lt f (by simp [hf])
  rw [hedges]
  intro hedge
  cases hedge with
  | inner hedge hp =>
      have hlt := source_lt hedge
      omega
  | enter hp => omega
  | skip hp => omega
  | repeats hp => omega
  | leave hp => omega

include hf hfinals hedges in
/-- From the final state of the copy any number of words can be read. -/
theorem kstar_le_ahead_star : n.language∗ ≤ u.ahead (f + 1) := by
  intro w hw
  obtain ⟨words, rfl, hwords⟩ := Language.mem_kstar.mp hw
  clear hw
  -- on the words themselves: each one is a way around the loop
  induction words with
  | nil =>
      exact mem_ahead_of_edge (o := none) ((hedges _ _ _).mpr (.leave rfl rfl rfl))
        (nil_mem_ahead hfinals)
  | cons word words ih =>
      have hword : word ∈ n.ahead n.start := hwords word List.mem_cons_self
      have hrest := ih fun y hy => hwords y (List.mem_cons_of_mem _ hy)
      have hcopy := append_mem_ahead_copy hf
        (fun hedge => (hedges _ _ _).mpr (.inner hedge rfl rfl)) hword hrest
      exact mem_ahead_of_edge (o := none) ((hedges _ _ _).mpr (.repeats rfl rfl rfl)) hcopy

include hedges in
theorem edge_star (hedge : q ∈ (u.row (p + 1)).on o) :
    (∃ q', q' ∈ (n.row p).on o ∧ q = q' + 1) ∨
      p = f ∧ o = none ∧ (q = n.start + 1 ∨ q = n.size + 1) := by
  cases (hedges _ _ _).mp hedge with
  | inner hedge hp' hq =>
      obtain rfl := Nat.add_right_cancel hp'
      exact .inl ⟨_, hedge, hq⟩
  | repeats hp' ho hq => exact .inr ⟨by omega, ho, .inl hq⟩
  | leave hp' ho hq => exact .inr ⟨by omega, ho, .inr hq⟩
  | enter hp' => omega
  | skip hp' => omega

include hn hf hfinals hedges

theorem ahead_star (hp : p < n.size) : u.ahead (p + 1) = n.ahead p * n.language∗ := by
  refine ahead_copy hn hf hfinals (star_sink hn hf hedges) (fun p hp => by omega)
    (Language.nil_mem_kstar _) (fun hedge => (hedges _ _ _).mpr (.inner hedge rfl rfl)) ?_
    (kstar_le_ahead_star hf hfinals hedges) hp
  intro p o q _ hedge
  rcases edge_star hedges hedge with hcopy | ⟨hp', ho, hq | hq⟩
  · exact .inl hcopy
  · exact .inr ⟨hp', ho, .inr ⟨hq, mul_kstar_le_kstar⟩⟩
  · exact .inr ⟨hp', ho, .inl hq⟩

include hstart in
theorem language_star : u.language = n.language∗ := by
  have hcopy := ahead_star hn hf hfinals hedges hn.start_lt
  rw [ahead_start] at hcopy
  -- the start only chooses between the empty word and what is ahead of the start of the copy
  rw [← ahead_start u, hstart, ← Language.one_add_self_mul_kstar_eq_kstar, ← hcopy]
  ext w
  rw [Language.mem_add, Language.mem_one]
  constructor
  · intro hw
    cases (mem_ahead hfinals).mp hw with
    | step hedge hpath =>
        have hrest := (mem_ahead hfinals).mpr hpath
        cases (hedges _ _ _).mp hedge with
        | enter _ ho hq =>
            subst ho hq
            exact .inr hrest
        | skip _ ho hq =>
            subst ho hq
            obtain ⟨rfl, -⟩ := hpath.eq_of_no_edge (star_sink hn hf hedges)
            exact .inl rfl
        | inner _ hp => omega
        | repeats hp => omega
        | leave hp => omega
  · rintro (rfl | hw)
    · exact mem_ahead_of_edge (o := none) ((hedges _ _ _).mpr (.skip rfl rfl rfl))
        (nil_mem_ahead hfinals)
    · exact mem_ahead_of_edge (o := none) ((hedges _ _ _).mpr (.enter rfl rfl rfl)) hw

end Star

/-! ## Concatenation -/

/-- The edges of a concatenation; `f` is the final state of the first automaton. -/
inductive ConcatEdge (n m : Nfa) (f : Nat) (p : Nat) (o : Option Char) (q : Nat) : Prop where
  | first (hedge : q ∈ (n.row p).on o)
  | second {p' q' : Nat} (hedge : q' ∈ (m.row p').on o) (hne : p' ≠ m.start)
      (hp : p = p' + (n.size - 1)) (hq : q = q' + (n.size - 1))
  | seam {q' : Nat} (hedge : q' ∈ (m.row m.start).on o) (hp : p = f) (hq : q = q' + (n.size - 1))

theorem concat_spec (hn : n.WellFormed) (hm : m.WellFormed) (hf : n.finals = .singleton f)
    (hg : m.finals = .singleton g) :
    ∃ u, n.concat m = .ok u ∧ u.size = n.size + (m.size - 1) ∧ u.start = n.start ∧
      u.finals = .singleton (g + (n.size - 1)) ∧
      ∀ p o q, q ∈ (u.row p).on o ↔ ConcatEdge n m f p o q := by
  have hfinal : f < n.size := hn.finals_lt f (by simp [hf])
  have hstart : m.start < m.size := hm.start_lt
  unfold concat
  rw [finalState_eq hf, finalState_eq hg]
  refine ⟨_, rfl, size_tabulate, rfl, rfl, fun p o q => ?_⟩
  -- the row at the second start is dropped here and comes back as the edges of the seam
  have hsecond : q ∈ (if p = m.start + (n.size - 1) then {} else m.shiftedRow (n.size - 1) p).on o ↔
      p ≠ m.start + (n.size - 1) ∧ q ∈ (m.shiftedRow (n.size - 1) p).on o := by
    rw [← mem_on_ite, ite_not]
  simp only [mem_on_tabulate, Row.mem_on_union, hsecond, mem_on_shiftedRow, mem_on_ite,
    Row.mem_on_shift]
  constructor
  · rintro ⟨-, (hedge | ⟨hne, p', q', hedge, hp, hq⟩) | ⟨hp, hq, hedge⟩⟩
    · exact .first hedge
    · exact .second hedge (by rintro rfl; exact hne hp) hp hq
    · exact .seam hedge hp (by omega)
  · intro hedge
    cases hedge with
    | first hedge =>
        have hlt := source_lt hedge
        exact ⟨by omega, .inl (.inl hedge)⟩
    | second hedge hne hp hq =>
        have hlt := source_lt hedge
        exact ⟨by omega, .inl (.inr ⟨by omega, _, _, hedge, hp, hq⟩)⟩
    | seam hedge hp hq =>
        refine ⟨by omega, .inr ⟨hp, by omega, ?_⟩⟩
        rwa [hq, Nat.add_sub_cancel]

theorem concat_state_cases (hp : p < n.size + (m.size - 1)) :
    p < n.size ∨ ∃ p' < m.size, p = p' + (n.size - 1) := by
  by_cases hfirst : p < n.size
  · exact .inl hfirst
  · exact .inr ⟨p - (n.size - 1), by omega, by omega⟩

section Concat

variable (hn : n.WellFormed) (hf : n.finals = .singleton (n.size - 1))
  (hsink : ∀ o q, q ∉ (n.row (n.size - 1)).on o) (hzero : m.start = 0)
  (hg : m.finals = .singleton g) (hfinals : u.finals = .singleton (g + (n.size - 1)))
  (hedges : ∀ p o q, q ∈ (u.row p).on o ↔ ConcatEdge n m (n.size - 1) p o q)

include hzero hedges in
/-- At the seam the two automata share a state, so the second one is in the result as it is. -/
theorem concat_second (hedge : q ∈ (m.row p).on o) :
    q + (n.size - 1) ∈ (u.row (p + (n.size - 1))).on o := by
  by_cases hp : p = m.start
  · subst hp
    exact (hedges _ _ _).mpr (.seam hedge (by omega) rfl)
  · exact (hedges _ _ _).mpr (.second hedge hp rfl rfl)

include hn hsink hzero hg hfinals hedges

theorem ahead_concat_second : u.ahead (p + (n.size - 1)) = m.ahead p := by
  have hsize := hn.start_lt
  ext w
  constructor
  · rintro ⟨r, hr, hpath⟩
    rw [hfinals, StateSet.mem_singleton] at hr
    -- no edge leads back from the second automaton, so its positions are an invariant of the path
    generalize hpos : p + (n.size - 1) = pos at hpath
    induction hpath generalizing p with
    | refl =>
        obtain rfl : p = g := by omega
        exact nil_mem_ahead hg
    | step hedge _ ih =>
        cases (hedges _ _ _).mp hedge with
        | first hedge =>
            -- only the seam belongs to both, and there the first automaton has no edges
            have hlt := source_lt hedge
            obtain rfl : p = 0 := by omega
            rw [← hpos, Nat.zero_add] at hedge
            exact absurd hedge (hsink _ _)
        | second hedge _ hp hq =>
            obtain rfl : p = _ := Nat.add_right_cancel (hpos.trans hp)
            exact mem_ahead_of_edge hedge (ih hr hq.symm)
        | seam hedge hp hq =>
            obtain rfl : p = m.start := by omega
            exact mem_ahead_of_edge hedge (ih hr hq.symm)
  · intro hw
    have hcopy := append_mem_ahead_copy hg (concat_second hzero hedges) hw (nil_mem_ahead hfinals)
    rwa [List.append_nil] at hcopy

include hf

theorem ahead_concat_first (hp : p < n.size) : u.ahead p = n.ahead p * m.language := by
  have hseam : u.ahead (n.size - 1) = m.language := by
    have hsecond := ahead_concat_second hn hsink hzero hg hfinals hedges (p := 0)
    rw [Nat.zero_add] at hsecond
    rw [hsecond, ← hzero, ahead_start]
  ext w
  constructor
  · rintro ⟨r, hr, hpath⟩
    induction hpath with
    | refl p =>
        obtain rfl : p = n.size - 1 := by
          rw [hfinals, StateSet.mem_singleton] at hr
          omega
        have hnil : [] ∈ m.language := by
          rw [← hseam]
          exact ⟨_, hr, .refl _⟩
        exact Language.append_mem_mul (nil_mem_ahead hf) hnil
    | @step p q r o w hedge hpath ih =>
        -- the path leaves the first automaton where it first comes to the seam
        by_cases hlast : p = n.size - 1
        · subst hlast
          have hword : o.toList ++ w ∈ m.language := by
            rw [← hseam]
            exact ⟨r, hr, .step hedge hpath⟩
          exact Language.mem_mul.mpr ⟨[], nil_mem_ahead hf, _, hword, rfl⟩
        · cases (hedges _ _ _).mp hedge with
          | first hedge => exact append_mem_mul_of_edge hedge (ih (hn.target_lt hedge) hr)
          | second _ hne hp' => omega
          | seam _ hp' => omega
  · intro hw
    obtain ⟨x, hx, y, hy, rfl⟩ := Language.mem_mul.mp hw
    rw [← hseam] at hy
    have hcopy : ∀ {p q o}, q ∈ (n.row p).on o → q + 0 ∈ (u.row (p + 0)).on o :=
      fun hedge => (hedges _ _ _).mpr (.first hedge)
    exact append_mem_ahead_copy hf hcopy hx hy

end Concat

end Nfa

end MaximalMunch
