import MaximalMunch.Nfa.OfExpr
import MaximalMunch.Proofs.Nfa.Seam

/-!
# The automaton of an expression has the language of the expression

The automata that are built from expressions are fragments: they start at state zero, end at the
last state, and no edge leads back into the start or out of the end.  Every composition keeps that
invariant, and under it a concatenation reads the words of its operands one behind the other.
-/

namespace MaximalMunch

open scoped Computability

/-- The words that an expression denotes. -/
def Expr.language : Expr → Language Char
  | .char c => {[c]}
  | .epsilon => 1
  | .union left right => left.language + right.language
  | .concat left right => left.language * right.language
  | .closure operand => operand.language∗

namespace Nfa

/-! ## Automata with a single edge -/

theorem mem_on_literal {c : Char} {p q : Nat} {o : Option Char} :
    q ∈ ((literal c).row p).on o ↔ p = 0 ∧ o = some c ∧ q = 1 := by
  rw [literal, mem_on_tabulate, mem_on_ite, Row.mem_on_addSymbol]
  simp
  omega

theorem mem_on_epsilon {p q : Nat} {o : Option Char} :
    q ∈ (epsilon.row p).on o ↔ p = 0 ∧ o = none ∧ q = 1 := by
  rw [epsilon, mem_on_tabulate, mem_on_ite, Row.mem_on_addEpsilon]
  simp
  omega

/-! ## Fragments -/

/-- An automaton with one way in and one way out, in which every state lies on a way through. -/
structure Fragment (n : Nfa) : Prop where
  one_lt_size : 1 < n.size
  start_eq : n.start = 0
  finals_eq : n.finals = .singleton (n.size - 1)
  target_lt : ∀ {p q o}, q ∈ (n.row p).on o → q < n.size
  not_into_start : ∀ p o, 0 ∉ (n.row p).on o
  not_out_of_final : ∀ o q, q ∉ (n.row (n.size - 1)).on o
  reachable : ∀ p < n.size, ∃ w, n.Path 0 w p
  productive : ∀ p < n.size, ∃ w, w ∈ n.ahead p

namespace Fragment

variable {n m u : Nfa}

theorem wellFormed (hn : n.Fragment) : n.WellFormed where
  start_lt := by
    have hsize := hn.one_lt_size
    rw [hn.start_eq]
    omega
  finals_lt := by
    intro q hq
    have hsize := hn.one_lt_size
    rw [hn.finals_eq, StateSet.mem_singleton] at hq
    omega
  target_lt := hn.target_lt

/-- An automaton with a single edge. -/
theorem of_edge (o₀ : Option Char) (hsize : n.size = 2) (hstart : n.start = 0)
    (hfinals : n.finals = .singleton 1)
    (hedges : ∀ p o q, q ∈ (n.row p).on o ↔ p = 0 ∧ o = o₀ ∧ q = 1) :
    n.Fragment ∧ n.language = {o₀.toList} := by
  have hedge : 1 ∈ (n.row 0).on o₀ := (hedges _ _ _).mpr ⟨rfl, rfl, rfl⟩
  have hlast : ∀ o q, q ∉ (n.row 1).on o := fun o q hq => by
    have hp := ((hedges _ _ _).mp hq).1
    omega
  have hpath : n.Path 0 (o₀.toList ++ []) 1 := .step hedge (.refl 1)
  constructor
  · exact {
      one_lt_size := by omega
      start_eq := hstart
      finals_eq := by rw [hfinals, hsize]
      target_lt := by
        intro p q o hq
        rw [((hedges _ _ _).mp hq).2.2, hsize]
        omega
      not_into_start := by
        intro p o hq
        have hone := ((hedges _ _ _).mp hq).2.2
        omega
      not_out_of_final := by rwa [hsize]
      reachable := by
        intro p hp
        obtain rfl | rfl : p = 0 ∨ p = 1 := by omega
        · exact ⟨_, .refl 0⟩
        · exact ⟨_, hpath⟩
      productive := by
        intro p hp
        obtain rfl | rfl : p = 0 ∨ p = 1 := by omega
        · exact ⟨_, (mem_ahead hfinals).mpr hpath⟩
        · exact ⟨_, nil_mem_ahead hfinals⟩ }
  · ext w
    rw [← ahead_start, mem_ahead hfinals, hstart]
    constructor
    · intro hw
      -- the edge is the whole path, for it ends where no edge leaves
      cases hw with
      | step hq hrest =>
          obtain ⟨-, rfl, rfl⟩ := (hedges _ _ _).mp hq
          obtain ⟨rfl, -⟩ := hrest.eq_of_no_edge hlast
          exact List.append_nil _
    · intro hw
      obtain rfl : w = o₀.toList := hw
      rwa [List.append_nil] at hpath

theorem of_literal (c : Char) : (literal c).Fragment ∧ (literal c).language = {[c]} :=
  of_edge (some c) size_tabulate rfl rfl fun _ _ _ => mem_on_literal

theorem of_epsilon : epsilon.Fragment ∧ epsilon.language = {[]} :=
  of_edge none size_tabulate rfl rfl fun _ _ _ => mem_on_epsilon

theorem exists_union (hn : n.Fragment) (hm : m.Fragment) :
    ∃ u, n.union m = .ok u ∧ u.Fragment ∧ u.language = n.language + m.language := by
  have hsizeN := hn.one_lt_size
  have hsizeM := hm.one_lt_size
  obtain ⟨u, hu, hsize, hstart, hfinals, hedges⟩ :=
    union_spec hn.wellFormed hm.wellFormed hn.finals_eq hm.finals_eq
  have hlanguage := language_union hn.wellFormed hm.wellFormed hn.finals_eq hm.finals_eq hstart
    hfinals hedges
  have hwellFormed := wellFormed_union hn.wellFormed hm.wellFormed hsize hstart hfinals hedges
  have hsealed := sealed_union hn.wellFormed hm.wellFormed hsize hstart hfinals hedges hn.finals_eq
    hm.finals_eq
  -- a word of the first operand leads all the way through the union
  obtain ⟨w, hw⟩ := hn.productive 0 (by omega)
  have hthrough : w ∈ u.ahead u.start := by
    rw [ahead_start, hlanguage, ← ahead_start n, hn.start_eq]
    exact .inl hw
  refine ⟨u, hu, ?_, hlanguage⟩
  exact {
    one_lt_size := by omega
    start_eq := hsealed.start_eq
    finals_eq := hsealed.finals_eq
    target_lt := hwellFormed.target_lt
    not_into_start := hsealed.not_into_start
    not_out_of_final := hsealed.not_out_of_final
    reachable := by
      intro p hlt
      rcases union_state_cases (by omega : p < n.size + m.size + 2) with
        rfl | ⟨p, hp, rfl⟩ | ⟨p, hp, rfl⟩ | rfl
      · exact ⟨_, .refl 0⟩
      · obtain ⟨w, hw⟩ := hn.reachable p hp
        rw [← hn.start_eq] at hw
        exact ⟨w, .epsilon ((hedges _ _ _).mpr (.enterLeft rfl rfl rfl))
          (hw.map (· + 1) fun hedge => (hedges _ _ _).mpr (.left hedge rfl rfl))⟩
      · obtain ⟨w, hw⟩ := hm.reachable p hp
        rw [← hm.start_eq] at hw
        exact ⟨w, .epsilon ((hedges _ _ _).mpr (.enterRight rfl rfl rfl))
          (hw.map (· + (n.size + 1)) fun hedge => (hedges _ _ _).mpr (.right hedge rfl rfl))⟩
      · rw [mem_ahead hfinals, hstart] at hthrough
        exact ⟨w, hthrough⟩
    productive := by
      intro p hlt
      rcases union_state_cases (by omega : p < n.size + m.size + 2) with
        rfl | ⟨p, hp, rfl⟩ | ⟨p, hp, rfl⟩ | rfl
      · rw [hstart] at hthrough
        exact ⟨w, hthrough⟩
      · rw [ahead_union_left hn.wellFormed hm.wellFormed hn.finals_eq hm.finals_eq hfinals hedges
          hp]
        exact hn.productive p hp
      · rw [ahead_union_right hn.wellFormed hm.wellFormed hn.finals_eq hm.finals_eq hfinals hedges
          hp]
        exact hm.productive p hp
      · exact ⟨_, nil_mem_ahead hfinals⟩ }

theorem exists_star (hn : n.Fragment) :
    ∃ u, n.star = .ok u ∧ u.Fragment ∧ u.language = n.language∗ := by
  have hsizeN := hn.one_lt_size
  obtain ⟨u, hu, hsize, hstart, hfinals, hedges⟩ := star_spec hn.wellFormed hn.finals_eq
  have hlanguage := language_star hn.wellFormed hn.finals_eq hstart hfinals hedges
  have hwellFormed := wellFormed_star hn.wellFormed hsize hstart hfinals hedges
  have hsealed := sealed_star hn.wellFormed hsize hstart hfinals hedges hn.finals_eq
  have hskip : n.size + 1 ∈ (u.row 0).on none := (hedges _ _ _).mpr (.skip rfl rfl rfl)
  refine ⟨u, hu, ?_, hlanguage⟩
  exact {
    one_lt_size := by omega
    start_eq := hsealed.start_eq
    finals_eq := hsealed.finals_eq
    target_lt := hwellFormed.target_lt
    not_into_start := hsealed.not_into_start
    not_out_of_final := hsealed.not_out_of_final
    reachable := by
      intro p hlt
      rcases star_state_cases (by omega : p < n.size + 2) with rfl | ⟨p, hp, rfl⟩ | rfl
      · exact ⟨_, .refl 0⟩
      · obtain ⟨w, hw⟩ := hn.reachable p hp
        rw [← hn.start_eq] at hw
        exact ⟨w, .epsilon ((hedges _ _ _).mpr (.enter rfl rfl rfl))
          (hw.map (· + 1) fun hedge => (hedges _ _ _).mpr (.inner hedge rfl rfl))⟩
      · exact ⟨[], .epsilon hskip (.refl _)⟩
    productive := by
      intro p hlt
      rcases star_state_cases (by omega : p < n.size + 2) with rfl | ⟨p, hp, rfl⟩ | rfl
      · exact ⟨_, mem_ahead_of_edge hskip (nil_mem_ahead hfinals)⟩
      · obtain ⟨w, hw⟩ := hn.productive p hp
        rw [ahead_star hn.wellFormed hn.finals_eq hfinals hedges hp]
        exact ⟨_, Language.append_mem_mul hw (Language.nil_mem_kstar _)⟩
      · exact ⟨_, nil_mem_ahead hfinals⟩ }

theorem exists_concat (hn : n.Fragment) (hm : m.Fragment) :
    ∃ u, n.concat m = .ok u ∧ u.Fragment ∧ u.language = n.language * m.language := by
  have hsizeN := hn.one_lt_size
  have hsizeM := hm.one_lt_size
  obtain ⟨u, hu, hsize, hstart, hfinals, hedges⟩ :=
    concat_spec hn.wellFormed hm.wellFormed hn.finals_eq hm.finals_eq
  have hfirst {p q o} (hedge : q ∈ (n.row p).on o) : q ∈ (u.row p).on o :=
    (hedges _ _ _).mpr (.first hedge)
  have hsecond {p q o} (hedge : q ∈ (m.row p).on o) :
      q + (n.size - 1) ∈ (u.row (p + (n.size - 1))).on o := concat_second hm.start_eq hedges hedge
  have hlanguage := language_seam_of_no_way_back hn.wellFormed hn.finals_eq hm.start_eq
    hm.finals_eq hstart hfinals hedges (.inl hn.not_out_of_final)
  refine ⟨u, hu, ?_, hlanguage⟩
  exact {
    one_lt_size := by omega
    start_eq := hstart.trans hn.start_eq
    finals_eq := by
      rw [hfinals]
      congr 1
      omega
    target_lt := (wellFormed_concat hn.wellFormed hm.wellFormed hm.finals_eq hsize hstart hfinals
      hedges).target_lt
    not_into_start := by
      intro p o hedge
      cases (hedges _ _ _).mp hedge with
      | first hedge => exact hn.not_into_start _ _ hedge
      | second _ _ _ hq => omega
      | seam _ _ hq => omega
    not_out_of_final := by
      intro o q hedge
      cases (hedges _ _ _).mp hedge with
      | first hedge =>
          have hlt := source_lt hedge
          omega
      | @second p' _ hedge _ hp =>
          obtain rfl : p' = m.size - 1 := by omega
          exact hm.not_out_of_final _ _ hedge
      | seam _ hp => omega
    reachable := by
      intro p hlt
      rcases concat_state_cases (by omega : p < n.size + (m.size - 1)) with hp | ⟨p, hp, rfl⟩
      · obtain ⟨w, hw⟩ := hn.reachable p hp
        exact ⟨w, hw.map id hfirst⟩
      · -- through the first automaton to the seam, and on from there
        obtain ⟨v, hv⟩ := hn.reachable (n.size - 1) (by omega)
        obtain ⟨w, hw⟩ := hm.reachable p hp
        have hseam : u.Path 0 v (n.size - 1) := hv.map id hfirst
        have hrest : u.Path (0 + (n.size - 1)) w (p + (n.size - 1)) :=
          hw.map (· + (n.size - 1)) hsecond
        rw [Nat.zero_add] at hrest
        exact ⟨_, hseam.trans hrest⟩
    productive := by
      intro p hlt
      rcases concat_state_cases (by omega : p < n.size + (m.size - 1)) with hp | ⟨p, hp, rfl⟩
      · obtain ⟨v, hv⟩ := hn.productive p hp
        obtain ⟨w, hw⟩ := hm.productive 0 (by omega)
        rw [← hm.start_eq, ahead_start] at hw
        rw [ahead_concat_first hn.wellFormed hn.finals_eq hn.not_out_of_final hm.start_eq
          hm.finals_eq hfinals hedges hp]
        exact ⟨_, Language.append_mem_mul hv hw⟩
      · rw [ahead_concat_second hn.wellFormed hn.not_out_of_final hm.start_eq hm.finals_eq hfinals
          hedges]
        exact hm.productive p hp }

/-- In a concatenation of two fragments the end of the first is the start of the second. -/
theorem exists_joined (hn : n.Fragment) (hm : m.Fragment) :
    ∃ u, n.concat m = .ok u ∧ u.Fragment ∧ u.size = n.size + (m.size - 1) ∧
      ∀ p o q, q ∈ (u.row p).on o ↔
        q ∈ (n.row p).on o ∨ q ∈ (m.shiftedRow (n.size - 1) p).on o := by
  rcases hn.exists_concat hm with ⟨u, hu, hfragment, -⟩
  rcases of_exists_ok (concat_spec hn.wellFormed hm.wellFormed hn.finals_eq hm.finals_eq) hu with
    ⟨hsize, -, -, hedges⟩
  refine ⟨u, hu, hfragment, hsize, ?_⟩
  intro p o q
  rw [mem_on_shiftedRow]
  constructor
  · intro hedge
    cases (hedges p o q).mp hedge with
    | first hedge => exact .inl hedge
    | second hedge _ hp hq => exact .inr ⟨_, _, hedge, hp, hq⟩
    | seam hedge hp hq =>
        refine .inr ⟨m.start, _, hedge, ?_, hq⟩
        rw [hm.start_eq, Nat.zero_add]
        exact hp
  · rintro (hedge | ⟨p', q', hedge, hp, hq⟩)
    · exact (hedges p o q).mpr (.first hedge)
    · rw [hp, hq]
      exact concat_second hm.start_eq hedges hedge

end Fragment

/-- Every expression has an automaton, and it is a fragment with the language of the expression. -/
theorem exists_ofExpr (e : Expr) :
    ∃ n, ofExpr e = .ok n ∧ n.Fragment ∧ n.language = e.language := by
  induction e with
  | char c => exact ⟨_, rfl, Fragment.of_literal c⟩
  | epsilon => exact ⟨_, rfl, Fragment.of_epsilon⟩
  | union left right ihLeft ihRight =>
      obtain ⟨n, hn, hfragmentN, hlanguageN⟩ := ihLeft
      obtain ⟨m, hm, hfragmentM, hlanguageM⟩ := ihRight
      obtain ⟨u, hu, hfragment, hlanguage⟩ := hfragmentN.exists_union hfragmentM
      rw [ofExpr, hn, hm]
      refine ⟨u, hu, hfragment, ?_⟩
      rw [hlanguage, hlanguageN, hlanguageM, Expr.language]
  | concat left right ihLeft ihRight =>
      obtain ⟨n, hn, hfragmentN, hlanguageN⟩ := ihLeft
      obtain ⟨m, hm, hfragmentM, hlanguageM⟩ := ihRight
      obtain ⟨u, hu, hfragment, hlanguage⟩ := hfragmentN.exists_concat hfragmentM
      rw [ofExpr, hn, hm]
      refine ⟨u, hu, hfragment, ?_⟩
      rw [hlanguage, hlanguageN, hlanguageM, Expr.language]
  | closure operand ih =>
      obtain ⟨n, hn, hfragmentN, hlanguageN⟩ := ih
      obtain ⟨u, hu, hfragment, hlanguage⟩ := hfragmentN.exists_star
      rw [ofExpr, hn]
      refine ⟨u, hu, hfragment, ?_⟩
      rw [hlanguage, hlanguageN, Expr.language]

end Nfa

end MaximalMunch
