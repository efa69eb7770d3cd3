import MaximalMunch.Proofs.Nfa.Sealed

/-!
# Concatenation of any automata

A concatenation puts its operands together at a seam: it gives the start of the second the number
of the last state of the first, and has the edges out of that start leave the final state of the
first.  If the start is number zero and the final state is the last one, both become one state, and
`language_seam` says what is read: once at the seam, loops of either operand in any order, until a
word of the second leads to the end.  So the result is the product of the languages as soon as no
edge leads back to the seam on one of its sides.  `concat_of_any_shape` collects the cases in which
a concatenation reads what its name says; `concat_reads_other_words` has operands for which it does
not, because the two states do not become one, or because loops on both sides of the seam mix.
-/

namespace MaximalMunch.Nfa

open scoped Computability

variable {n m u : Nfa} {p q r f g : Nat} {o : Option Char} {w : List Char}

/-! ## Words between two states -/

/-- The words on the paths from one state to another. -/
def between (n : Nfa) (p q : Nat) : Language Char := {w | n.Path p w q}

theorem ahead_eq_between (hf : n.finals = .singleton f) : n.ahead p = n.between p f := by
  ext w
  exact mem_ahead hf

theorem one_le_between : 1 ≤ n.between p p := by
  intro w hw
  have hnil : w = [] := hw
  rw [hnil]
  exact .refl p

theorem between_mul_le : n.between p q * n.between q r ≤ n.between p r := by
  intro w hw
  rcases Language.mem_mul.mp hw with ⟨x, hx, y, hy, rfl⟩
  exact Path.trans hx hy

theorem between_mul_self : n.between p q * n.between q q = n.between p q := by
  apply le_antisymm between_mul_le
  calc n.between p q = n.between p q * 1 := (mul_one _).symm
    _ ≤ n.between p q * n.between q q := mul_le_mul' le_rfl one_le_between

theorem self_mul_between : n.between p p * n.between p q = n.between p q := by
  apply le_antisymm between_mul_le
  calc n.between p q = 1 * n.between p q := (one_mul _).symm
    _ ≤ n.between p p * n.between p q := mul_le_mul' one_le_between le_rfl

theorem kstar_between : (n.between p p)∗ = n.between p p :=
  kstar_eq_self.mpr ⟨between_mul_self, one_le_between⟩

theorem append_mem_between_mul {K : Language Char} (hedge : q ∈ (n.row p).on o)
    (hw : w ∈ n.between q r * K) : o.toList ++ w ∈ n.between p r * K :=
  append_mem_mul_of_forall (fun _ hx => Path.step hedge hx) hw

/-- A path into a state that no edge leads to has not left it. -/
theorem Path.eq_of_no_edge_into (hpath : n.Path p w r) (hnone : ∀ p o, r ∉ (n.row p).on o) :
    w = [] ∧ p = r := by
  induction hpath with
  | refl => exact ⟨rfl, rfl⟩
  | @step p q r o w hedge _ ih =>
      rw [(ih hnone).2] at hedge
      exact absurd hedge (hnone p o)

theorem between_eq_one_of_no_edge_into (hnone : ∀ p o, q ∉ (n.row p).on o) :
    n.between q q = 1 := by
  apply le_antisymm _ one_le_between
  intro w hw
  exact (Path.eq_of_no_edge_into hw hnone).1

theorem between_eq_one_of_no_edge_out (hnone : ∀ o q, q ∉ (n.row p).on o) :
    n.between p p = 1 := by
  apply le_antisymm _ one_le_between
  intro w hw
  exact (Path.eq_of_no_edge hnone hw).1

/-- What is spelt with edges for a single character. -/
theorem Path.forall_mem_eq {c : Char} (hpath : n.Path p w r)
    (hlabel : ∀ p o q, q ∈ (n.row p).on o → o = some c) : ∀ d ∈ w, d = c := by
  induction hpath with
  | refl => simp
  | @step p q r o w hedge _ ih =>
      rw [hlabel _ _ _ hedge]
      intro d hd
      rcases List.mem_cons.mp hd with hd | hd
      · exact hd
      · exact ih d hd

/-- A path that spells nothing stays where it is, unless there are edges that carry nothing. -/
theorem Path.eq_of_no_epsilon (hpath : n.Path p w r) (hw : w = [])
    (hnone : ∀ p q, q ∉ (n.row p).on none) : p = r := by
  cases hpath with
  | refl => rfl
  | @step p q r o w hedge _ =>
      rcases List.append_eq_nil_iff.mp hw with ⟨ho, -⟩
      rw [Option.toList_eq_nil_iff.mp ho] at hedge
      exact absurd hedge (hnone p q)

theorem eq_of_mem_language {c : Char} (hlabel : ∀ p o q, q ∈ (n.row p).on o → o = some c)
    (hw : w ∈ n.language) : ∀ d ∈ w, d = c := by
  rcases hw with ⟨q, -, hpath⟩
  exact hpath.forall_mem_eq hlabel

theorem ne_nil_of_mem_language (hnone : ∀ p q, q ∉ (n.row p).on none)
    (hstart : n.start ∉ n.finals) (hw : w ∈ n.language) : w ≠ [] := by
  rcases hw with ⟨q, hq, hpath⟩
  intro hnil
  rw [← hpath.eq_of_no_epsilon hnil hnone] at hq
  exact hstart hq

/-! ## The language around the seam -/

/-- What can be read from the seam on: loops of either automaton, then a word of the second. -/
def behindSeam (n m : Nfa) : Language Char :=
  (n.between (n.size - 1) (n.size - 1) + m.between 0 0)∗ * m.language

theorem language_le_behindSeam : m.language ≤ n.behindSeam m := by
  calc m.language = 1 * m.language := (one_mul _).symm
    _ ≤ n.behindSeam m := mul_le_mul' one_le_kstar le_rfl

/-- One more loop in front changes nothing. -/
theorem loop_mul_behindSeam {K : Language Char} (hone : 1 ≤ K)
    (hK : K ≤ n.between (n.size - 1) (n.size - 1) + m.between 0 0) :
    K * n.behindSeam m = n.behindSeam m := by
  apply le_antisymm
  · calc K * n.behindSeam m
        = (K * (n.between (n.size - 1) (n.size - 1) + m.between 0 0)∗) * m.language :=
          (mul_assoc _ _ _).symm
      _ ≤ n.behindSeam m :=
          mul_le_mul' ((mul_le_mul' hK le_rfl).trans mul_kstar_le_kstar) le_rfl
  · calc n.behindSeam m = 1 * n.behindSeam m := (one_mul _).symm
      _ ≤ K * n.behindSeam m := mul_le_mul' hone le_rfl

theorem first_mul_behindSeam :
    n.between (n.size - 1) (n.size - 1) * n.behindSeam m = n.behindSeam m :=
  loop_mul_behindSeam one_le_between (add_le_iff.mp le_rfl).1

theorem second_mul_behindSeam : m.between 0 0 * n.behindSeam m = n.behindSeam m :=
  loop_mul_behindSeam one_le_between (add_le_iff.mp le_rfl).2

/-- What lies ahead of a state of a concatenation: in the first automaton a way to the seam, in the
second one a way back to the seam or one to the end. -/
def besideSeam (n m : Nfa) (s : Nat) : Language Char :=
  if s < n.size then n.between s (n.size - 1) * n.behindSeam m
  else m.between (s - (n.size - 1)) 0 * n.behindSeam m + m.ahead (s - (n.size - 1))

theorem besideSeam_first (hp : p < n.size) :
    n.besideSeam m p = n.between p (n.size - 1) * n.behindSeam m := if_pos hp

theorem besideSeam_second (hn : n.WellFormed) (hzero : m.start = 0) :
    n.besideSeam m (p + (n.size - 1)) = m.between p 0 * n.behindSeam m + m.ahead p := by
  have hsize := hn.start_lt
  by_cases hp : p = 0
  · -- the seam itself, which counts as a state of the first automaton
    subst hp
    have hlanguage : m.ahead 0 = m.language := by rw [← hzero, ahead_start]
    rw [Nat.zero_add, besideSeam_first (by omega), first_mul_behindSeam, second_mul_behindSeam,
      hlanguage, add_eq_left_iff_le.mpr language_le_behindSeam]
  · rw [besideSeam, if_neg (by omega), Nat.add_sub_cancel]

section Seam

variable (hn : n.WellFormed) (hf : n.finals = .singleton (n.size - 1)) (hzero : m.start = 0)
  (hg : m.finals = .singleton g) (hstart : u.start = n.start)
  (hfinals : u.finals = .singleton (g + (n.size - 1)))
  (hedges : ∀ p o q, q ∈ (u.row p).on o ↔ ConcatEdge n m (n.size - 1) p o q)

include hn hzero hg hedges in
theorem mem_besideSeam (hpath : u.Path p w r) (hr : r = g + (n.size - 1)) :
    w ∈ n.besideSeam m p := by
  -- on the path; its states change sides at the seam only, where both descriptions agree
  induction hpath with
  | refl p =>
      rw [hr, besideSeam_second hn hzero, Language.mem_add]
      exact .inr (nil_mem_ahead hg)
  | @step p q r o w hedge _ ih =>
      have hrest := ih hr
      have hsecond {p' q' : Nat} (hedge : q' ∈ (m.row p').on o) (hp : p = p' + (n.size - 1))
          (hq : q = q' + (n.size - 1)) : o.toList ++ w ∈ n.besideSeam m p := by
        rw [hq, besideSeam_second hn hzero, Language.mem_add] at hrest
        rw [hp, besideSeam_second hn hzero, Language.mem_add]
        rcases hrest with hback | hend
        · exact .inl (append_mem_between_mul hedge hback)
        · exact .inr (mem_ahead_of_edge hedge hend)
      cases (hedges _ _ _).mp hedge with
      | first hedge =>
          rw [besideSeam_first (hn.target_lt hedge)] at hrest
          rw [besideSeam_first (source_lt hedge)]
          exact append_mem_between_mul hedge hrest
      | second hedge _ hp hq => exact hsecond hedge hp hq
      | seam hedge hp hq =>
          have hseam : p = m.start + (n.size - 1) := by omega
          exact hsecond hedge hseam hq

include hzero hg hfinals hedges in
theorem behindSeam_le_ahead : n.behindSeam m ≤ u.ahead (n.size - 1) := by
  rw [ahead_eq_between hfinals]
  have hfirst : n.between (n.size - 1) (n.size - 1) ≤ u.between (n.size - 1) (n.size - 1) :=
    fun w hw => Path.map id (fun hedge => (hedges _ _ _).mpr (.first hedge)) hw
  have hcopy (q : Nat) : m.between 0 q ≤ u.between (n.size - 1) (q + (n.size - 1)) := by
    intro w hw
    have hpath := Path.map (· + (n.size - 1)) (concat_second hzero hedges) hw
    rw [Nat.zero_add] at hpath
    exact hpath
  have hsecond : m.between 0 0 ≤ u.between (n.size - 1) (n.size - 1) := by
    have hcopy := hcopy 0
    rwa [Nat.zero_add] at hcopy
  have hend : m.language ≤ u.between (n.size - 1) (g + (n.size - 1)) := by
    rw [← ahead_start, hzero, ahead_eq_between hg]
    exact hcopy g
  have hloops : (n.between (n.size - 1) (n.size - 1) + m.between 0 0)∗ ≤
      u.between (n.size - 1) (n.size - 1) := by
    apply kstar_le_of_mul_le_left one_le_between
    calc u.between (n.size - 1) (n.size - 1) *
          (n.between (n.size - 1) (n.size - 1) + m.between 0 0)
        ≤ u.between (n.size - 1) (n.size - 1) * u.between (n.size - 1) (n.size - 1) :=
          mul_le_mul' le_rfl (add_le hfirst hsecond)
      _ ≤ u.between (n.size - 1) (n.size - 1) := between_mul_le
  exact (mul_le_mul' hloops hend).trans between_mul_le

include hn hf hzero hg hstart hfinals hedges

/-- A word of the first automaton leads to the seam. -/
theorem language_seam : u.language = n.language * n.behindSeam m := by
  have hlanguage : n.language = n.between n.start (n.size - 1) := by
    rw [← ahead_start, ahead_eq_between hf]
  rw [hlanguage]
  apply le_antisymm
  · intro w hw
    have hpath : u.Path u.start w (g + (n.size - 1)) := (mem_ahead hfinals).mp hw
    rw [hstart] at hpath
    have hmem := mem_besideSeam hn hzero hg hedges hpath rfl
    rwa [besideSeam_first hn.start_lt] at hmem
  · rw [← ahead_start u, hstart, ahead_eq_between hfinals]
    have hbehind := behindSeam_le_ahead hzero hg hfinals hedges
    rw [ahead_eq_between hfinals] at hbehind
    have hfirst : n.between n.start (n.size - 1) ≤ u.between n.start (n.size - 1) :=
      fun w hw => Path.map id (fun hedge => (hedges _ _ _).mpr (.first hedge)) hw
    exact (mul_le_mul' hfirst hbehind).trans between_mul_le

/-- Without an edge back to the seam on one of its sides, only the loops of the other side are left,
and they belong to the words of their automaton already. -/
theorem language_seam_of_no_way_back (hway : (∀ o q, q ∉ (n.row (n.size - 1)).on o) ∨
    ∀ p o, 0 ∉ (m.row p).on o) : u.language = n.language * m.language := by
  rw [language_seam hn hf hzero hg hstart hfinals hedges, behindSeam]
  have hfirst : n.language * n.between (n.size - 1) (n.size - 1) = n.language := by
    rw [← ahead_start, ahead_eq_between hf, between_mul_self]
  have hsecond : m.between 0 0 * m.language = m.language := by
    rw [← ahead_start, hzero, ahead_eq_between hg, self_mul_between]
  rcases hway with hout | hinto
  · rw [between_eq_one_of_no_edge_out hout, add_eq_right_iff_le.mpr one_le_between, kstar_between,
      hsecond]
  · rw [between_eq_one_of_no_edge_into hinto, add_eq_left_iff_le.mpr one_le_between, kstar_between,
      ← mul_assoc, hfirst]

end Seam

/-! ## A seam that is passed in one direction only -/

theorem wellFormed_concat (hn : n.WellFormed) (hm : m.WellFormed) (hg : m.finals = .singleton g)
    (hsize : u.size = n.size + (m.size - 1)) (hstart : u.start = n.start)
    (hfinals : u.finals = .singleton (g + (n.size - 1)))
    (hedges : ∀ p o q, q ∈ (u.row p).on o ↔ ConcatEdge n m f p o q) : u.WellFormed where
  start_lt := by
    have hlt := hn.start_lt
    omega
  finals_lt := by
    intro q hq
    have hlt := hn.start_lt
    have hother : g < m.size := hm.finals_lt g (by simp [hg])
    rw [hfinals, StateSet.mem_singleton] at hq
    omega
  target_lt := by
    intro p q o hedge
    have hlt := hn.start_lt
    cases (hedges _ _ _).mp hedge with
    | first hedge =>
        have htarget := hn.target_lt hedge
        omega
    | second hedge _ _ hq =>
        have htarget := hm.target_lt hedge
        omega
    | seam hedge _ hq =>
        have htarget := hm.target_lt hedge
        omega

section Entry

variable (hn : n.WellFormed) (hf : n.finals = .singleton f) (hzero : m.start = 0)
  (hg : m.finals = .singleton g) (hend : g ≠ 0) (hinto : ∀ p o, 0 ∉ (m.row p).on o)
  (hstart : u.start = n.start) (hfinals : u.finals = .singleton (g + (n.size - 1)))
  (hedges : ∀ p o q, q ∈ (u.row p).on o ↔ ConcatEdge n m f p o q)

/-- What lies ahead of a state of a concatenation whose second automaton does not come back to its
start, and does not end there. -/
def beforeEntry (n m : Nfa) (s : Nat) : Language Char :=
  if s < n.size then n.ahead s * m.language else m.ahead (s - (n.size - 1))

include hn hf hzero hg hend hinto hedges in
theorem mem_beforeEntry (hpath : u.Path p w r) (hr : r = g + (n.size - 1)) :
    w ∈ n.beforeEntry m p := by
  have hsize := hn.start_lt
  have hfinal : f < n.size := hn.finals_lt f (by simp [hf])
  have hfirst {s : Nat} (hs : s < n.size) : n.beforeEntry m s = n.ahead s * m.language := if_pos hs
  have hsecond {s : Nat} (hs : s ≠ 0) : n.beforeEntry m (s + (n.size - 1)) = m.ahead s := by
    rw [beforeEntry, if_neg (by omega), Nat.add_sub_cancel]
  have hnonzero {p q : Nat} {o : Option Char} (hedge : q ∈ (m.row p).on o) : q ≠ 0 := by
    rintro rfl
    exact hinto p o hedge
  induction hpath with
  | refl p =>
      rw [hr, hsecond hend]
      exact nil_mem_ahead hg
  | @step p q r o w hedge _ ih =>
      have hrest := ih hr
      cases (hedges _ _ _).mp hedge with
      | first hedge =>
          rw [hfirst (hn.target_lt hedge)] at hrest
          rw [hfirst (source_lt hedge)]
          exact append_mem_mul_of_edge hedge hrest
      | second hedge hne hp hq =>
          rw [hq, hsecond (hnonzero hedge)] at hrest
          rw [hp, hsecond (by omega)]
          exact mem_ahead_of_edge hedge hrest
      | seam hedge hp hq =>
          -- the one place where a path comes from the first automaton into the second
          rw [hq, hsecond (hnonzero hedge)] at hrest
          have hword : o.toList ++ w ∈ m.language := mem_ahead_of_edge hedge hrest
          rw [hp, hfirst hfinal]
          exact Language.mem_mul.mpr ⟨[], nil_mem_ahead hf, _, hword, rfl⟩

include hn hf hzero hg hend hinto hstart hfinals hedges in
/-- Whatever the final state of the first automaton is, the second one is entered behind it. -/
theorem language_concat_of_no_edge_into : u.language = n.language * m.language := by
  apply le_antisymm
  · intro w hw
    have hpath : u.Path u.start w (g + (n.size - 1)) := (mem_ahead hfinals).mp hw
    rw [hstart] at hpath
    have hmem := mem_beforeEntry hn hf hzero hg hend hinto hedges hpath rfl
    rwa [beforeEntry, if_pos hn.start_lt] at hmem
  · intro w hw
    rcases Language.mem_mul.mp hw with ⟨x, hx, y, hy, rfl⟩
    have hfirst : u.Path n.start x f :=
      ((mem_ahead hf).mp hx).map id fun hedge => (hedges _ _ _).mpr (.first hedge)
    -- the start of the second automaton is found at the final state of the first
    let place (p : Nat) : Nat := if p = 0 then f else p + (n.size - 1)
    have hplace : ∀ {p q o}, q ∈ (m.row p).on o → place q ∈ (u.row (place p)).on o := by
      intro p q o hedge
      have hq : q ≠ 0 := by
        rintro rfl
        exact hinto p o hedge
      have htarget : place q = q + (n.size - 1) := if_neg hq
      rw [htarget]
      by_cases hp : p = 0
      · have hsource : place p = f := if_pos hp
        rw [hp, ← hzero] at hedge
        exact (hedges _ _ _).mpr (.seam hedge hsource rfl)
      · have hsource : place p = p + (n.size - 1) := if_neg hp
        exact (hedges _ _ _).mpr (.second hedge (by omega) hsource rfl)
    have hsecond : u.Path (place m.start) y (place g) := ((mem_ahead hg).mp hy).map place hplace
    have hentry : place m.start = f := if_pos hzero
    have hexit : place g = g + (n.size - 1) := if_neg hend
    rw [hentry, hexit] at hsecond
    rw [← ahead_start u, hstart]
    exact (mem_ahead hfinals).mpr (hfirst.trans hsecond)

end Entry

/-! ## Operands of any shape -/

/-- The start of the second automaton is number zero, and its edges are reached from the final state
of the first just once: either the two are one state that the first automaton does not leave, or the
second automaton does not come back to its start, which is the seam unless the second automaton ends
elsewhere anyway. -/
def Joins (n m : Nfa) : Prop :=
  m.start = 0 ∧
    (n.size - 1 ∈ n.finals ∧ (∀ o q, q ∉ (n.row (n.size - 1)).on o) ∨
      (∀ p o, m.start ∉ (m.row p).on o) ∧ (n.size - 1 ∈ n.finals ∨ m.start ∉ m.finals))

/-- A concatenation of automata with one final state each always succeeds.  It reads the words of
the first, each followed by a word of the second, if the two join; and whenever the seam is one
state, it reads loops of both automata there. -/
theorem concat_of_any_shape (hn : n.WellFormed) (hm : m.WellFormed)
    (hf : ∃! q, q ∈ n.finals) (hg : ∃! q, q ∈ m.finals) :
    ∃ u, n.concat m = .ok u ∧ u.WellFormed ∧ (∃! q, q ∈ u.finals) ∧
      (m.start = 0 → n.size - 1 ∈ n.finals → u.language = n.language *
        (n.between (n.size - 1) (n.size - 1) + m.between 0 0)∗ * m.language) ∧
      (n.Joins m → ∀ w, w ∈ u.language ↔ ∃ x ∈ n.language, ∃ y ∈ m.language, x ++ y = w) := by
  rcases StateSet.existsUnique_mem_iff.mp hf with ⟨f, hf⟩
  rcases StateSet.existsUnique_mem_iff.mp hg with ⟨g, hg⟩
  rcases concat_spec hn hm hf hg with ⟨u, hu, hsize, hstart, hfinals, hedges⟩
  have hlast (hmem : n.size - 1 ∈ n.finals) : f = n.size - 1 := by
    rw [hf, StateSet.mem_singleton] at hmem
    exact hmem.symm
  have hproduct (hlanguage : u.language = n.language * m.language) (w : List Char) :
      w ∈ u.language ↔ ∃ x ∈ n.language, ∃ y ∈ m.language, x ++ y = w := by
    rw [hlanguage]
    exact Language.mem_mul
  refine ⟨u, hu, wellFormed_concat hn hm hg hsize hstart hfinals hedges,
    StateSet.existsUnique_mem_iff.mpr ⟨_, hfinals⟩, ?_, ?_⟩
  · intro hzero hmem
    obtain rfl := hlast hmem
    rw [language_seam hn hf hzero hg hstart hfinals hedges, behindSeam, mul_assoc]
  · rintro ⟨hzero, ⟨hmem, hout⟩ | ⟨hinto, hmem | hend⟩⟩
    · obtain rfl := hlast hmem
      exact hproduct
        (language_seam_of_no_way_back hn hf hzero hg hstart hfinals hedges (.inl hout))
    · obtain rfl := hlast hmem
      rw [hzero] at hinto
      exact hproduct
        (language_seam_of_no_way_back hn hf hzero hg hstart hfinals hedges (.inr hinto))
    · rw [hzero] at hinto hend
      rw [hg, StateSet.mem_singleton] at hend
      exact hproduct (language_concat_of_no_edge_into hn hf hzero hg (Ne.symm hend) hinto hstart
        hfinals hedges)

/-- The final state of the first automaton is its last one and has an edge back to the start, and
no edge of the second leads to its start. -/
theorem concat_of_any_shape_loop :
    let n : Nfa := ⟨0, .singleton 1, #[Row.addSymbol {} 'a' 1, Row.addSymbol {} 'b' 0]⟩
    let m : Nfa := ⟨0, .singleton 1, #[Row.addSymbol {} 'c' 1, Row.addEpsilon {} 1]⟩
    (n.WellFormed ∧ m.WellFormed ∧ (∃! q, q ∈ n.finals) ∧ (∃! q, q ∈ m.finals) ∧ n.Joins m) ∧
    ∃ u, n.concat m = .ok u ∧
      ∀ w, w ∈ u.language ↔ ∃ x ∈ n.language, ∃ y ∈ m.language, x ++ y = w := by
  intro n m
  have hn : n.WellFormed := by decide
  have hm : m.WellFormed := by decide
  have hf : ∃! q, q ∈ n.finals := StateSet.existsUnique_mem_iff.mpr ⟨1, rfl⟩
  have hg : ∃! q, q ∈ m.finals := StateSet.existsUnique_mem_iff.mpr ⟨1, rfl⟩
  have hinto : ∀ p o, m.start ∉ (m.row p).on o := by
    intro p o hedge
    have hp : p < 2 := source_lt hedge
    interval_cases p
    · simp [m, row, Row.mem_on_addSymbol] at hedge
    · simp [m, row] at hedge
  have hjoins : n.Joins m := ⟨rfl, .inr ⟨hinto, .inl (by decide)⟩⟩
  rcases concat_of_any_shape hn hm hf hg with ⟨u, hu, -, -, -, hproduct⟩
  exact ⟨⟨hn, hm, hf, hg, hjoins⟩, u, hu, hproduct hjoins⟩

/-- The first two automata read `ab` only, but their concatenation reads `a`, as the second one does
not start at number zero.  The other two read `a` and `b` any number of times each, but their
concatenation reads `ba`, as both loop at the seam. -/
theorem concat_reads_other_words :
    (let n : Nfa := literal 'a'
     let m : Nfa := ⟨1, .singleton 0, #[{}, Row.addSymbol {} 'b' 0]⟩
     (n.WellFormed ∧ m.WellFormed ∧ (∃! q, q ∈ n.finals) ∧ ∃! q, q ∈ m.finals) ∧
      ∃ u, n.concat m = .ok u ∧ ['a'] ∈ u.language ∧
        ¬∃ x ∈ n.language, ∃ y ∈ m.language, x ++ y = ['a']) ∧
    (let n : Nfa := ⟨0, .singleton 0, #[Row.addSymbol {} 'a' 0]⟩
     let m : Nfa := ⟨0, .singleton 0, #[Row.addSymbol {} 'b' 0]⟩
     (n.WellFormed ∧ m.WellFormed ∧ (∃! q, q ∈ n.finals) ∧ ∃! q, q ∈ m.finals) ∧
      ∃ u, n.concat m = .ok u ∧ ['b', 'a'] ∈ u.language ∧
        ¬∃ x ∈ n.language, ∃ y ∈ m.language, x ++ y = ['b', 'a']) := by
  constructor
  · intro n m
    have hn : n.WellFormed := by decide
    have hm : m.WellFormed := by decide
    have hf : n.finals = .singleton 1 := rfl
    have hg : m.finals = .singleton 0 := rfl
    have hlabel : ∀ p o q, q ∈ (m.row p).on o → o = some 'b' := by
      intro p o q hedge
      have hp : p < 2 := source_lt hedge
      interval_cases p <;> simp_all [m, row]
    rcases concat_spec hn hm hf hg with ⟨u, hu, -, hstart, hfinals, hedges⟩
    refine ⟨⟨hn, hm, StateSet.existsUnique_mem_iff.mpr ⟨1, hf⟩,
      StateSet.existsUnique_mem_iff.mpr ⟨0, hg⟩⟩, u, hu, ?_, ?_⟩
    · have hedge : 1 ∈ (u.row 0).on (some 'a') := (hedges _ _ _).mpr (.first (by decide))
      have hpath : u.Path u.start ['a'] 1 := by
        rw [hstart]
        exact .step hedge (.refl 1)
      exact ⟨1, by rw [hfinals]; decide, hpath⟩
    · rintro ⟨x, -, y, hy, hword⟩
      have hnone : ∀ p q, q ∉ (m.row p).on none := by
        intro p q hedge
        cases hlabel _ _ _ hedge
      -- the second automaton reads at least one character, and this is no `a`
      have hnonempty : y ≠ [] := ne_nil_of_mem_language hnone (by decide) hy
      rcases List.exists_mem_of_ne_nil y hnonempty with ⟨c, hc⟩
      have hmem : c ∈ x ++ y := List.mem_append_right x hc
      rw [hword, List.mem_singleton, eq_of_mem_language hlabel hy c hc] at hmem
      exact absurd hmem (by decide)
  · intro n m
    have hn : n.WellFormed := by decide
    have hm : m.WellFormed := by decide
    have hf : n.finals = .singleton 0 := rfl
    have hg : m.finals = .singleton 0 := rfl
    have hlabelN : ∀ p o q, q ∈ (n.row p).on o → o = some 'a' := by
      intro p o q hedge
      have hp : p < 1 := source_lt hedge
      interval_cases p
      simp_all [n, row]
    have hlabelM : ∀ p o q, q ∈ (m.row p).on o → o = some 'b' := by
      intro p o q hedge
      have hp : p < 1 := source_lt hedge
      interval_cases p
      simp_all [m, row]
    rcases concat_spec hn hm hf hg with ⟨u, hu, -, hstart, hfinals, hedges⟩
    refine ⟨⟨hn, hm, StateSet.existsUnique_mem_iff.mpr ⟨0, hf⟩,
      StateSet.existsUnique_mem_iff.mpr ⟨0, hg⟩⟩, u, hu, ?_, ?_⟩
    · have hfirst : 0 ∈ (u.row 0).on (some 'a') := (hedges _ _ _).mpr (.first (by decide))
      have hsecond : 0 ∈ (u.row 0).on (some 'b') :=
        (hedges _ _ _).mpr (.seam (q := 0) (by decide) rfl rfl)
      have hpath : u.Path u.start ['b', 'a'] 0 := by
        rw [hstart]
        exact .step hsecond (.step hfirst (.refl 0))
      exact ⟨0, by rw [hfinals]; decide, hpath⟩
    · rintro ⟨x, hx, y, hy, hword⟩
      -- the `b` comes first, so it is read by the first automaton or nothing is
      rcases List.append_eq_cons_iff.mp hword with ⟨-, hall⟩ | ⟨z, hhead, -⟩
      · have hlast : 'a' = 'b' := eq_of_mem_language hlabelM hy _ (by simp [hall])
        exact absurd hlast (by decide)
      · have hfirst : 'b' = 'a' := eq_of_mem_language hlabelN hx _ (by simp [hhead])
        exact absurd hfirst (by decide)

end MaximalMunch.Nfa
