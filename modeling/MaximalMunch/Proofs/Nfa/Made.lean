import MaximalMunch.Proofs.Nfa.Assembly
import MaximalMunch.Proofs.Nfa.OfExpr
import MaximalMunch.Proofs.Nfa.Seam

/-!
# Automata that calls lead to

Calls that add something work in place (`InPlace`), and one that fails may in principle leave a
value half changed behind.  But whatever calls are made, and whether they fail or not, the automata
that they lead to are sound: they have as many rows as states were asked for, and name no other
states.  Conversely every sound automaton is made by some calls, so `made_iff_sound` leaves nothing
to be said about what calls lead to.
-/

namespace MaximalMunch

/-! ## Calls in place -/

/-- What works on a value in place.  All that has been written before a failure stays written. -/
abbrev InPlace (σ : Type) : Type → Type := ExceptT Error (StateM σ)

namespace InPlace

variable {σ α β : Type} {old new : σ} {e : Error}

/-- The result of a call on a value, and what the call leaves behind. -/
def on (call : InPlace σ α) (old : σ) : Except Error α × σ := call.run.run old

theorem on_get_bind (rest : σ → InPlace σ α) (old : σ) :
    (get >>= rest).on old = (rest old).on old := rfl

theorem on_throw (e : Error) (old : σ) : (throw e : InPlace σ α).on old = (.error e, old) := rfl

theorem on_modify (f : σ → σ) (old : σ) :
    (modify f : InPlace σ Unit).on old = (.ok (), f old) := rfl

theorem on_bind_of_ok {call : InPlace σ β} {rest : β → InPlace σ α} {b : β}
    (h : call.on old = (.ok b, new)) : (call >>= rest).on old = (rest b).on new := by
  have hrun : call.run.run old = pure (.ok b, new) := h
  show (ExceptT.run call >>= ExceptT.bindCont rest).run old = _
  rw [StateT.run_bind, hrun]
  rfl

theorem on_bind_of_error {call : InPlace σ β} {rest : β → InPlace σ α}
    (h : call.on old = (.error e, new)) : (call >>= rest).on old = (.error e, new) := by
  have hrun : call.run.run old = pure (.error e, new) := h
  show (ExceptT.run call >>= ExceptT.bindCont rest).run old = _
  rw [StateT.run_bind, hrun]
  rfl

/-- A call in place does what a given result says: either it leaves the new value behind, or it
fails and leaves the old value behind. -/
inductive Performs (call : InPlace σ Unit) (old : σ) : Except Error σ → Prop where
  | ok {new : σ} (h : call.on old = (.ok (), new)) : Performs call old (.ok new)
  | error {e : Error} (h : call.on old = (.error e, old)) : Performs call old (.error e)

variable {call : InPlace σ Unit} {result : Except Error σ}

theorem Performs.left_eq (h : call.Performs old result) (hnew : result = .ok new) :
    (call.on old).2 = new := by
  cases h with
  | ok h => rw [h, Except.ok.inj hnew]
  | error => cases hnew

/-- What holds of the old value and of the new one holds of what is left behind. -/
theorem Performs.left (h : call.Performs old result) {P : σ → Prop} (hold : P old)
    (hnew : ∀ new, result = .ok new → P new) : P (call.on old).2 := by
  cases h with
  | ok h =>
      rw [h]
      exact hnew _ rfl
  | error h => rwa [h]

theorem Performs.unchanged (h : call.Performs old result) (hfails : Fails (call.on old).1) :
    (call.on old).2 = old := by
  cases h with
  | ok h =>
      rw [h] at hfails
      rcases hfails with ⟨e, he⟩
      cases he
  | error h => rw [h]

end InPlace

namespace Nfa

/-- Changes the row of a state, after a check of both ends of the transition to be added. -/
def changeInPlace (source target : Nat) (change : Row → Row) : InPlace Nfa Unit := do
  let n ← get
  if n.size ≤ source ∨ n.size ≤ target then
    throw (.invalidState (.nfaTransition source target n.size))
  modify fun n => { n with rows := n.rows.modify source change }

/-- Adds a transition on a character. -/
def addTransitionInPlace (source : Nat) (c : Char) (target : Nat) : InPlace Nfa Unit :=
  changeInPlace source target (·.addSymbol c target)

/-- Adds a transition that reads nothing. -/
def addEpsilonTransitionInPlace (source target : Nat) : InPlace Nfa Unit :=
  changeInPlace source target (·.addEpsilon target)

theorem performs_change (n : Nfa) (source target : Nat) (change : Row → Row) :
    (changeInPlace source target change).Performs n (n.addBetween source target change) := by
  rw [addBetween]
  split
  · next hout =>
      apply InPlace.Performs.error
      rw [changeInPlace, InPlace.on_get_bind, if_pos hout]
      exact InPlace.on_bind_of_error (InPlace.on_throw _ n)
  · next hin =>
      apply InPlace.Performs.ok
      rw [changeInPlace, InPlace.on_get_bind, if_neg hin, InPlace.on_modify]

/-- The automata that calls lead to, with the number of states that the calls ask for. -/
inductive Made : Nat → Nfa → Prop where
  | new {states start finals n} (h : Nfa.new states start finals = .ok n) : Made states n
  | literal (c : Char) : Made 2 (literal c)
  | epsilon : Made 2 epsilon
  | addTransition {k n} (h : Made k n) (source : Nat) (c : Char) (target : Nat) :
      Made k ((addTransitionInPlace source c target).on n).2
  | addEpsilonTransition {k n} (h : Made k n) (source target : Nat) :
      Made k ((addEpsilonTransitionInPlace source target).on n).2
  | concat {k l n m u} (hn : Made k n) (hm : Made l m) (hu : n.concat m = .ok u) :
      Made (k + (l - 1)) u
  | union {k l n m u} (hn : Made k n) (hm : Made l m) (hu : n.union m = .ok u) : Made (k + l + 2) u
  | star {k n u} (hn : Made k n) (hu : n.star = .ok u) : Made (k + 2) u

variable {n m u : Nfa} {k l : Nat}

/-- An automaton with the given number of states that names no others. -/
structure Sound (k : Nat) (n : Nfa) : Prop where
  wellFormed : n.WellFormed
  tidy : n.Tidy
  size_eq : n.size = k

/-! ## What the calls keep -/

theorem sound_new {states start : Nat} {finals : List Nat}
    (h : Nfa.new states start finals = .ok n) : n.Sound states := by
  rcases new_eq_ok_iff.mp h with ⟨⟨hstart, hfinals⟩, rfl⟩
  refine ⟨⟨?_, ?_, ?_⟩, tidy_bare, size_bare⟩
  · rw [size_bare]
    exact hstart
  · intro q hq
    rw [size_bare]
    exact hfinals q (StateSet.mem_ofList.mp hq)
  · intro p q o hedge
    rw [row_bare] at hedge
    exact absurd hedge (Row.not_mem_on_empty o q)

theorem Sound.addEdge (hn : n.Sound k) {e : Transition} (hu : n.addEdge e = .ok u) :
    u.Sound k := by
  have hadds := adds_of_addEdge hu
  have hin := addEdge_ok_iff.mp ⟨u, hu⟩
  refine ⟨⟨?_, ?_, ?_⟩, hadds.tidy hn.tidy, hadds.size_eq.trans hn.size_eq⟩
  · rw [hadds.start_eq, hadds.size_eq]
    exact hn.wellFormed.start_lt
  · rw [hadds.finals_eq, hadds.size_eq]
    exact hn.wellFormed.finals_lt
  · intro p q o hedge
    rw [hadds.size_eq]
    rcases (hadds.mem_on p o q).mp hedge with hold | hnew
    · exact hn.wellFormed.target_lt hold
    · rw [List.mem_singleton] at hnew
      rw [← hnew] at hin
      exact hin.2

theorem finalState_ok_iff : (∃ f, n.finalState = .ok f) ↔ ∃! q, q ∈ n.finals := by
  simp only [finalState_eq_ok_iff, StateSet.existsUnique_mem_iff]

/-- What is made of two final states is made exactly if both automata have one. -/
theorem finalStates_ok_iff {make : Nat → Nat → Nfa} :
    (∃ u, (do let f ← n.finalState; let g ← m.finalState; return make f g) = .ok u) ↔
      (∃! q, q ∈ n.finals) ∧ ∃! q, q ∈ m.finals := by
  rw [← finalState_ok_iff, ← finalState_ok_iff]
  constructor
  · rintro ⟨u, hu⟩
    rcases bind_eq_ok.mp hu with ⟨f, hf, hu⟩
    rcases bind_eq_ok.mp hu with ⟨g, hg, -⟩
    exact ⟨⟨f, hf⟩, g, hg⟩
  · rintro ⟨⟨f, hf⟩, g, hg⟩
    rw [hf, ok_bind, hg]
    exact ⟨_, rfl⟩

theorem concat_ok_iff :
    (∃ u, n.concat m = .ok u) ↔ (∃! q, q ∈ n.finals) ∧ ∃! q, q ∈ m.finals :=
  finalStates_ok_iff

theorem union_ok_iff :
    (∃ u, n.union m = .ok u) ↔ (∃! q, q ∈ n.finals) ∧ ∃! q, q ∈ m.finals :=
  finalStates_ok_iff

theorem star_ok_iff : (∃ u, n.star = .ok u) ↔ ∃! q, q ∈ n.finals := by
  rw [← finalState_ok_iff]
  constructor
  · rintro ⟨u, hu⟩
    rcases bind_eq_ok.mp hu with ⟨f, hf, -⟩
    exact ⟨f, hf⟩
  · rintro ⟨f, hf⟩
    rw [star, hf]
    exact ⟨_, rfl⟩

theorem Sound.concat (hn : n.Sound k) (hm : m.Sound l) (hu : n.concat m = .ok u) :
    u.Sound (k + (l - 1)) := by
  have hfinals := concat_ok_iff.mp ⟨u, hu⟩
  rcases StateSet.existsUnique_mem_iff.mp hfinals.1 with ⟨f, hf⟩
  rcases StateSet.existsUnique_mem_iff.mp hfinals.2 with ⟨g, hg⟩
  rcases of_exists_ok (concat_spec hn.wellFormed hm.wellFormed hf hg) hu with
    ⟨hsize, hstart, hfinals, hedges⟩
  refine ⟨wellFormed_concat hn.wellFormed hm.wellFormed hg hsize hstart hfinals hedges,
    hn.tidy.concat hm.tidy hu, ?_⟩
  rw [hsize, hn.size_eq, hm.size_eq]

theorem Sound.union (hn : n.Sound k) (hm : m.Sound l) (hu : n.union m = .ok u) :
    u.Sound (k + l + 2) := by
  have hfinals := union_ok_iff.mp ⟨u, hu⟩
  rcases StateSet.existsUnique_mem_iff.mp hfinals.1 with ⟨f, hf⟩
  rcases StateSet.existsUnique_mem_iff.mp hfinals.2 with ⟨g, hg⟩
  rcases of_exists_ok (union_spec hn.wellFormed hm.wellFormed hf hg) hu with
    ⟨hsize, hstart, hfinals, hedges⟩
  refine ⟨wellFormed_union hn.wellFormed hm.wellFormed hsize hstart hfinals hedges,
    hn.tidy.union hm.tidy hu, ?_⟩
  rw [hsize, hn.size_eq, hm.size_eq]

theorem Sound.star (hn : n.Sound k) (hu : n.star = .ok u) : u.Sound (k + 2) := by
  rcases StateSet.existsUnique_mem_iff.mp (star_ok_iff.mp ⟨u, hu⟩) with ⟨f, hf⟩
  rcases of_exists_ok (star_spec hn.wellFormed hf) hu with ⟨hsize, hstart, hfinals, hedges⟩
  refine ⟨wellFormed_star hn.wellFormed hsize hstart hfinals hedges, hn.tidy.star hu, ?_⟩
  rw [hsize, hn.size_eq]

theorem Made.sound (h : Made k n) : n.Sound k := by
  induction h with
  | new h => exact sound_new h
  | literal c => exact ⟨(Fragment.of_literal c).1.wellFormed, tidy_literal c, size_tabulate⟩
  | epsilon => exact ⟨Fragment.of_epsilon.1.wellFormed, tidy_epsilon, size_tabulate⟩
  | addTransition _ source c target ih =>
      exact (performs_change _ _ _ _).left ih fun _ hu =>
        ih.addEdge (e := ⟨source, some c, target⟩) hu
  | addEpsilonTransition _ source target ih =>
      exact (performs_change _ _ _ _).left ih fun _ hu =>
        ih.addEdge (e := ⟨source, none, target⟩) hu
  | concat _ _ hu ihn ihm => exact ihn.concat ihm hu
  | union _ _ hu ihn ihm => exact ihn.union ihm hu
  | star _ hu ih => exact ih.star hu

/-! ## Calls that lead to a given automaton -/

theorem Made.addEdge (h : Made k n) {e : Transition} (hu : n.addEdge e = .ok u) : Made k u := by
  rcases e with ⟨source, _ | c, target⟩
  · have hmade := h.addEpsilonTransition source target
    rwa [addEpsilonTransitionInPlace, (performs_change _ _ _ _).left_eq hu] at hmade
  · have hmade := h.addTransition source c target
    rwa [addTransitionInPlace, (performs_change _ _ _ _).left_eq hu] at hmade

theorem Made.addEdges (h : Made k n) {edges : List Transition} (hu : n.addEdges edges = .ok u) :
    Made k u := by
  induction edges generalizing n with
  | nil =>
      have heq : n = u := Except.ok.inj hu
      rwa [← heq]
  | cons e rest ih =>
      rw [Nfa.addEdges, List.foldlM_cons, bind_eq_ok] at hu
      rcases hu with ⟨v, hv, hu⟩
      exact ih (h.addEdge hv) hu

theorem made_iff_sound : Made k n ↔ n.Sound k := by
  constructor
  · exact Made.sound
  · intro h
    rcases bind_eq_ok.mp (addEdges_edges h.wellFormed h.tidy) with ⟨v, hv, hn⟩
    rw [← h.size_eq]
    exact (Made.new hv).addEdges hn

/-- The automaton of an expression is put together by calls. -/
theorem exists_made_of_ofExpr {e : Expr} (hn : ofExpr e = .ok n) : ∃ k, Made k n := by
  induction e generalizing n with
  | char c =>
      rw [← Except.ok.inj hn]
      exact ⟨2, .literal c⟩
  | epsilon =>
      rw [← Except.ok.inj hn]
      exact ⟨2, .epsilon⟩
  | union left right ihLeft ihRight =>
      rcases bind_eq_ok.mp hn with ⟨first, hfirst, hrest⟩
      rcases bind_eq_ok.mp hrest with ⟨second, hsecond, hu⟩
      rcases ihLeft hfirst with ⟨k, hk⟩
      rcases ihRight hsecond with ⟨l, hl⟩
      exact ⟨_, hk.union hl hu⟩
  | concat left right ihLeft ihRight =>
      rcases bind_eq_ok.mp hn with ⟨first, hfirst, hrest⟩
      rcases bind_eq_ok.mp hrest with ⟨second, hsecond, hu⟩
      rcases ihLeft hfirst with ⟨k, hk⟩
      rcases ihRight hsecond with ⟨l, hl⟩
      exact ⟨_, hk.concat hl hu⟩
  | closure operand ih =>
      rcases bind_eq_ok.mp hn with ⟨inner, hinner, hu⟩
      rcases ih hinner with ⟨k, hk⟩
      exact ⟨_, hk.star hu⟩

end Nfa

end MaximalMunch
