import MaximalMunch.Proofs.Dfa.Assembly
import MaximalMunch.Proofs.Nfa.Made
import MaximalMunch.Proofs.Nfa.Worklist

/-!
# Deterministic automata that calls lead to

A deterministic automaton is made from scratch or from a nondeterministic one, and every call keeps
it sound; again every sound automaton is made by some calls (`Dfa.made_iff_sound`).
`made_automata_sound` collects, for both kinds of automata, what calls lead to and when they fail.
-/

namespace MaximalMunch

namespace Dfa

/-! ## Calls in place -/

/-- Fails unless a number is that of a state. -/
def checkInPlace (q : Nat) : InPlace Dfa Unit := do
  let d ← get
  if d.size ≤ q then throw (.invalidState (.dfaState q d.size))

/-- Adds a transition, after a check of its source and one of its target. -/
def addTransitionInPlace (source : Nat) (c : Char) (target : Nat) : InPlace Dfa Unit := do
  checkInPlace source
  checkInPlace target
  modify fun d => { d with rows := d.rows.modify source (·.insert c target) }

/-- Makes a state final, after a check. -/
def addFinalInPlace (q : Nat) : InPlace Dfa Unit := do
  checkInPlace q
  modify fun d => { d with finals := d.finals.insert q }

theorem on_check (q : Nat) (d : Dfa) : (checkInPlace q).on d = (checkStates d.size [q], d) := by
  rw [checkStates, checkInPlace, InPlace.on_get_bind]
  by_cases hq : d.size ≤ q
  · rw [if_pos hq, InPlace.on_throw]
    simp [hq]
  · rw [if_neg hq]
    simp [hq]
    rfl

theorem performs_addFinal (d : Dfa) (q : Nat) :
    (addFinalInPlace q).Performs d (d.addFinal q) := by
  have hq := on_check q d
  rw [addFinal]
  cases hcheck : checkStates d.size [q] with
  | error e =>
      rw [hcheck] at hq
      exact .error (InPlace.on_bind_of_error hq)
  | ok =>
      rw [hcheck] at hq
      exact .ok (InPlace.on_bind_of_ok hq)

theorem performs_addTransition (d : Dfa) (source : Nat) (c : Char) (target : Nat) :
    (addTransitionInPlace source c target).Performs d (d.addTransition source c target) := by
  have hsource := on_check source d
  have htarget := on_check target d
  rw [addTransition, checkStates_cons]
  cases hfirst : checkStates d.size [source] with
  | error e =>
      rw [hfirst] at hsource
      exact .error (InPlace.on_bind_of_error hsource)
  | ok =>
      rw [hfirst] at hsource
      cases hsecond : checkStates d.size [target] with
      | error e =>
          rw [hsecond] at htarget
          exact .error ((InPlace.on_bind_of_ok hsource).trans (InPlace.on_bind_of_error htarget))
      | ok =>
          rw [hsecond] at htarget
          exact .ok ((InPlace.on_bind_of_ok hsource).trans (InPlace.on_bind_of_ok htarget))

/-- The automata that calls lead to, with the number of states that the calls ask for. -/
inductive Made : Nat → Dfa → Prop where
  | new {states start finals d} (h : Dfa.new states start finals = .ok d) : Made states d
  | addTransition {k d} (h : Made k d) (source : Nat) (c : Char) (target : Nat) :
      Made k ((addTransitionInPlace source c target).on d).2
  | addFinal {k d} (h : Made k d) (q : Nat) : Made k ((addFinalInPlace q).on d).2
  | ofNfa {k n} (h : Nfa.Made k n) : Made (Subset.table n).sets.size (ofNfa n)

/-- An automaton with the given number of states that names no others. -/
structure Sound (k : Nat) (d : Dfa) : Prop where
  wellFormed : d.WellFormed
  size_eq : d.size = k

variable {d u : Dfa} {k p q source target : Nat} {c x : Char}

/-! ## What the calls keep -/

theorem next?_replicate {start states : Nat} {finals : StateSet} :
    (⟨start, finals, Array.replicate states ∅⟩ : Dfa).next? p c = none := by
  rw [next?, Dfa.row, Array.getD_eq_getD_getElem?, Array.getElem?_replicate]
  split <;> rfl

theorem next?_modify (hsource : source < d.size) :
    ({ d with rows := d.rows.modify source (·.insert c target) } : Dfa).next? p x =
      if p = source ∧ x = c then some target else d.next? p x := by
  rw [next?, row_modify hsource]
  split
  · next hp =>
      rw [SymbolMap.get?_insert]
      simp [hp, next?]
  · next hp => rw [if_neg fun h => hp h.1, next?]

theorem sound_new {states start : Nat} {finals : List Nat}
    (h : Dfa.new states start finals = .ok d) : d.Sound states := by
  rcases new_eq_ok_iff.mp h with ⟨⟨hstart, hfinals⟩, rfl⟩
  have hsize : (⟨start, .ofList finals, Array.replicate states ∅⟩ : Dfa).size = states :=
    Array.size_replicate
  refine ⟨⟨?_, ?_, ?_⟩, hsize⟩
  · rw [hsize]
    exact hstart
  · intro q hq
    rw [hsize]
    exact hfinals q (StateSet.mem_ofList.mp hq)
  · intro p c q hnext
    rw [next?_replicate] at hnext
    cases hnext

theorem Sound.addTransition (hd : d.Sound k) (hu : d.addTransition source c target = .ok u) :
    u.Sound k := by
  rcases addTransition_eq_ok_iff.mp hu with ⟨⟨hsource, htarget⟩, rfl⟩
  have hsize : ({ d with rows := d.rows.modify source (·.insert c target) } : Dfa).size = d.size :=
    Array.size_modify
  refine ⟨⟨?_, ?_, ?_⟩, hsize.trans hd.size_eq⟩
  · rw [hsize]
    exact hd.wellFormed.start_lt
  · rw [hsize]
    exact hd.wellFormed.finals_lt
  · intro p x q hnext
    rw [next?_modify hsource] at hnext
    rw [hsize]
    split at hnext
    · rwa [← Option.some.inj hnext]
    · exact hd.wellFormed.target_lt hnext

theorem Sound.addFinal (hd : d.Sound k) (hu : d.addFinal q = .ok u) : u.Sound k := by
  rcases addFinal_eq_ok_iff.mp hu with ⟨hq, rfl⟩
  refine ⟨⟨hd.wellFormed.start_lt, ?_, hd.wellFormed.target_lt⟩, hd.size_eq⟩
  intro q' hq'
  rcases StateSet.mem_insert.mp hq' with hold | hnew
  · exact hd.wellFormed.finals_lt q' hold
  · rwa [hnew]

theorem Made.sound (h : Made k d) : d.Sound k := by
  induction h with
  | new h => exact sound_new h
  | addTransition _ source c target ih =>
      exact (performs_addTransition _ source c target).left ih fun _ hu => ih.addTransition hu
  | addFinal _ q ih => exact (performs_addFinal _ q).left ih fun _ hu => ih.addFinal hu
  | ofNfa h => exact ⟨wellFormed_ofNfa h.sound.wellFormed, size_ofNfa h.sound.wellFormed⟩

/-! ## Calls that lead to a given automaton -/

/-- A transition: its source, its character and its target. -/
structure Arc where
  source : Nat
  symbol : Char
  target : Nat

/-- The transitions, listed by source and then by character. -/
def arcs (d : Dfa) : List Arc :=
  (List.range d.size).flatMap fun p => (d.row p).entries.map fun e => ⟨p, e.1, e.2⟩

theorem mem_arcs : ⟨p, c, q⟩ ∈ d.arcs ↔ d.next? p c = some q := by
  simp only [arcs, List.mem_flatMap, List.mem_map, List.mem_range, Arc.mk.injEq, Prod.exists]
  constructor
  · rintro ⟨p', -, c', q', hentry, rfl, rfl, rfl⟩
    exact SymbolMap.mem_entries_iff.mp hentry
  · intro hnext
    exact ⟨p, source_lt hnext, c, q, SymbolMap.mem_entries_iff.mpr hnext, rfl, rfl, rfl⟩

/-- Adds one transition after the other. -/
def addArcs (d : Dfa) (arcs : List Arc) : Except Error Dfa :=
  arcs.foldlM (fun d a => d.addTransition a.source a.symbol a.target) d

theorem Made.addArcs (h : Made k d) {arcs : List Arc} (hu : d.addArcs arcs = .ok u) :
    Made k u := by
  induction arcs generalizing d with
  | nil =>
      have heq : d = u := Except.ok.inj hu
      rwa [← heq]
  | cons a rest ih =>
      rw [Dfa.addArcs, List.foldlM_cons, bind_eq_ok] at hu
      rcases hu with ⟨v, hv, hu⟩
      have hmade := h.addTransition a.source a.symbol a.target
      rw [(performs_addTransition _ _ _ _).left_eq hv] at hmade
      exact ih hmade hu

/-- Transitions of one automaton are added to another one that has no others without fail, and none
of them replaces another. -/
theorem exists_addArcs {e : Dfa} (he : e.WellFormed) {arcs : List Arc} (hsize : d.size = e.size)
    (hold : ∀ p c q, d.next? p c = some q → e.next? p c = some q)
    (hnew : ∀ p c q, ⟨p, c, q⟩ ∈ arcs → e.next? p c = some q) :
    ∃ u, d.addArcs arcs = .ok u ∧ u.size = d.size ∧ u.start = d.start ∧ u.finals = d.finals ∧
      ∀ p c q, u.next? p c = some q ↔ d.next? p c = some q ∨ ⟨p, c, q⟩ ∈ arcs := by
  induction arcs generalizing d with
  | nil => exact ⟨d, rfl, rfl, rfl, rfl, by simp⟩
  | cons a rest ih =>
      have ha : e.next? a.source a.symbol = some a.target := hnew _ _ _ List.mem_cons_self
      have hsource : a.source < d.size := by
        rw [hsize]
        exact source_lt ha
      have htarget : a.target < d.size := by
        rw [hsize]
        exact he.target_lt ha
      have hnext (p : Nat) (c : Char) (q : Nat) :
          ({ d with rows := d.rows.modify a.source (·.insert a.symbol a.target) } : Dfa).next? p c =
            some q ↔ d.next? p c = some q ∨ ⟨p, c, q⟩ = a := by
        rw [next?_modify hsource]
        have heq : (⟨p, c, q⟩ : Arc) = a ↔ p = a.source ∧ c = a.symbol ∧ q = a.target := by
          rw [← Arc.mk.injEq]
        split
        · next hp =>
            -- the place is taken already only if it holds the same target
            rw [heq, Option.some.injEq]
            constructor
            · intro hq
              exact .inr ⟨hp.1, hp.2, hq.symm⟩
            · rintro (hd | hq)
              · have hsame := hold p c q hd
                rw [hp.1, hp.2, ha] at hsame
                exact Option.some.inj hsame
              · exact hq.2.2.symm
        · next hp =>
            rw [heq]
            constructor
            · exact .inl
            · rintro (hd | hq)
              · exact hd
              · exact absurd ⟨hq.1, hq.2.1⟩ hp
      have hmodify : ({ d with rows := d.rows.modify a.source (·.insert a.symbol a.target) } :
        Dfa).size = d.size := Array.size_modify
      have hrest := ih (d := { d with rows := d.rows.modify a.source (·.insert a.symbol a.target) })
        (hmodify.trans hsize) (by
          intro p c q h
          rcases (hnext p c q).mp h with hd | rfl
          · exact hold p c q hd
          · exact ha)
        fun p c q h => hnew p c q (List.mem_cons_of_mem a h)
      rcases hrest with ⟨u, hu, husize, hustart, hufinals, hall⟩
      refine ⟨u, ?_, husize.trans hmodify, hustart, hufinals, fun p c q => ?_⟩
      · rw [addArcs, List.foldlM_cons, addTransition_eq_ok_iff.mpr ⟨⟨hsource, htarget⟩, rfl⟩]
        exact hu
      · rw [hall, hnext, List.mem_cons, or_assoc]

/-- Every well-formed automaton is what its transitions make of a new one. -/
theorem addArcs_arcs (hd : d.WellFormed) :
    (do (← Dfa.new d.size d.start d.finals.toList).addArcs d.arcs) = .ok d := by
  have hfinals : ∀ q ∈ d.finals.toList, q < d.size :=
    fun q hq => hd.finals_lt q (StateSet.mem_toList.mp hq)
  have hnone (p : Nat) (c : Char) : (⟨d.start, .ofList d.finals.toList,
      Array.replicate d.size ∅⟩ : Dfa).next? p c = none := next?_replicate
  have hreplicate : (⟨d.start, .ofList d.finals.toList, Array.replicate d.size ∅⟩ : Dfa).size =
    d.size := Array.size_replicate
  rcases exists_addArcs hd hreplicate (fun p c q h => by rw [hnone] at h; cases h)
    (fun p c q h => mem_arcs.mp h) with ⟨u, hu, hsize, hstart, hufinals, hnext⟩
  have heq : u = d := by
    apply ext_row (hsize.trans hreplicate) hstart
    · rw [hufinals]
      apply StateSet.ext
      simp
    · intro p
      apply SymbolMap.ext_get?
      intro c
      have hsame (q : Nat) : u.next? p c = some q ↔ d.next? p c = some q := by
        rw [hnext, hnone, mem_arcs]
        simp
      exact Option.ext hsame
  rw [new_eq_ok_iff.mpr ⟨⟨hd.start_lt, hfinals⟩, rfl⟩, ok_bind, hu, heq]

theorem made_iff_sound : Made k d ↔ d.Sound k := by
  constructor
  · exact Made.sound
  · intro h
    rcases bind_eq_ok.mp (addArcs_arcs h.wellFormed) with ⟨v, hv, hd⟩
    rw [← h.size_eq]
    exact (Made.new hv).addArcs hd

end Dfa

/-! ## What calls lead to, and when they fail -/

/-- What holds of a nondeterministic automaton for which calls have asked for `k` states: it names
no others, transitions are added between states only, and the rows that are looked up for closures
and moves exist. -/
structure Nfa.Contract (k : Nat) (n : Nfa) : Prop where
  pos : 0 < k
  size_rows : n.rows.size = k
  start_lt : n.start < k
  finals_lt : ∀ q ∈ n.finals, q < k
  ends_lt : ∀ p o q, q ∈ (n.row p).on o → p < k ∧ q < k
  addTransition : ∀ source c target,
    (addTransitionInPlace source c target).Performs n (n.addTransition source c target)
  addTransition_fails : ∀ source c target,
    Fails (n.addTransition source c target) ↔ k ≤ source ∨ k ≤ target
  addEpsilonTransition : ∀ source target,
    (addEpsilonTransitionInPlace source target).Performs n (n.addEpsilonTransition source target)
  addEpsilonTransition_fails : ∀ source target,
    Fails (n.addEpsilonTransition source target) ↔ k ≤ source ∨ k ≤ target
  epsilonClosure : ∀ states, (∀ q ∈ states, q < k) →
    ∃ s, n.epsilonClosure states = .ok s ∧ (∀ q ∈ s, q < k) ∧
      n.WorksOff (.ofList states, (StateSet.ofList states).toList.reverse) s
  moveSet : ∀ states c, (∀ q ∈ states, q < k) →
    ∃ s, n.moveSet states c = .ok s ∧ ∀ q ∈ s, q < k

/-- What holds of a deterministic automaton for which calls have asked for `k` states. -/
structure Dfa.Contract (k : Nat) (d : Dfa) : Prop where
  pos : 0 < k
  size_rows : d.rows.size = k
  start_lt : d.start < k
  finals_lt : ∀ q ∈ d.finals, q < k
  ends_lt : ∀ p c q, d.next? p c = some q → p < k ∧ q < k
  addTransition : ∀ source c target,
    (addTransitionInPlace source c target).Performs d (d.addTransition source c target)
  addTransition_fails : ∀ source c target,
    Fails (d.addTransition source c target) ↔ k ≤ source ∨ k ≤ target
  addFinal : ∀ q, (addFinalInPlace q).Performs d (d.addFinal q)
  addFinal_fails : ∀ q, Fails (d.addFinal q) ↔ k ≤ q

theorem Nfa.addEdge_fails_iff {n : Nfa} {e : Nfa.Transition} :
    Fails (n.addEdge e) ↔ n.size ≤ e.source ∨ n.size ≤ e.target := by
  rw [fails_iff, Nfa.addEdge_ok_iff]
  omega

theorem Nfa.Made.contract {k : Nat} {n : Nfa} (h : Nfa.Made k n) : n.Contract k := by
  have hsound := h.sound
  have hn := hsound.wellFormed
  have hsize := hsound.size_eq
  have hstart := hn.start_lt
  rw [← hsize]
  exact {
    pos := by omega
    size_rows := rfl
    start_lt := hstart
    finals_lt := hn.finals_lt
    ends_lt := fun p o q hedge => ⟨Nfa.source_lt hedge, hn.target_lt hedge⟩
    addTransition := fun source c target => Nfa.performs_change n source target _
    addTransition_fails := fun source c target =>
      Nfa.addEdge_fails_iff (e := ⟨source, some c, target⟩)
    addEpsilonTransition := fun source target => Nfa.performs_change n source target _
    addEpsilonTransition_fails := fun source target =>
      Nfa.addEdge_fails_iff (e := ⟨source, none, target⟩)
    epsilonClosure := by
      intro states hstates
      have hlt : ∀ q ∈ StateSet.ofList states, q < n.size := by
        intro q hq
        exact hstates q (StateSet.mem_ofList.mp hq)
      refine ⟨n.closure (.ofList states), ?_, Nfa.closure_lt hn hlt, Nfa.worksOff_closure hn hlt⟩
      rw [Nfa.epsilonClosure, Nfa.checked_eq hstates]
      rfl
    moveSet := by
      intro states c hstates
      refine ⟨n.move (.ofList states) c, ?_, fun q hq => Nfa.move_lt hn hq⟩
      rw [Nfa.moveSet, Nfa.checked_eq hstates]
      rfl }

theorem Dfa.Made.contract {k : Nat} {d : Dfa} (h : Dfa.Made k d) : d.Contract k := by
  have hsound := h.sound
  have hd := hsound.wellFormed
  have hsize := hsound.size_eq
  have hstart := hd.start_lt
  rw [← hsize]
  exact {
    pos := by omega
    size_rows := rfl
    start_lt := hstart
    finals_lt := hd.finals_lt
    ends_lt := fun p c q hnext => ⟨Dfa.source_lt hnext, hd.target_lt hnext⟩
    addTransition := Dfa.performs_addTransition d
    addTransition_fails := by
      intro source c target
      rw [fails_iff]
      simp only [Dfa.addTransition_eq_ok_iff, exists_and_left, exists_eq, and_true]
      omega
    addFinal := Dfa.performs_addFinal d
    addFinal_fails := by
      intro q
      rw [fails_iff]
      simp only [Dfa.addFinal_eq_ok_iff, exists_and_left, exists_eq, and_true]
      omega }

/-- Calls lead to automata that fulfil their contract, and the conversion of an expression is among
them.  A call in place that fails leaves the automaton as it was.  A new automaton is refused
exactly if a given state is none, and a composition exactly if an operand does not have one final
state; the checks of what a composition or a conversion adds itself never fail. -/
theorem made_automata_sound :
    (∀ k n, Nfa.Made k n → n.Contract k ∧
      (∀ source c target, Fails ((Nfa.addTransitionInPlace source c target).on n).1 →
        ((Nfa.addTransitionInPlace source c target).on n).2 = n) ∧
      (∀ source target, Fails ((Nfa.addEpsilonTransitionInPlace source target).on n).1 →
        ((Nfa.addEpsilonTransitionInPlace source target).on n).2 = n) ∧
      Dfa.assemble n = .ok ⟨Dfa.ofNfa n, (Subset.table n).sets, []⟩ ∧
      (Fails n.star ↔ ¬∃! q, q ∈ n.finals) ∧ n.assembleStar = n.star ∧
      ∀ l m, Nfa.Made l m →
        (Fails (n.concat m) ↔ (¬∃! q, q ∈ n.finals) ∨ ¬∃! q, q ∈ m.finals) ∧
        (Fails (n.union m) ↔ (¬∃! q, q ∈ n.finals) ∨ ¬∃! q, q ∈ m.finals) ∧
        n.assembleConcat m = n.concat m ∧ n.assembleUnion m = n.union m) ∧
    (∀ k d, Dfa.Made k d → d.Contract k ∧
      (∀ source c target, Fails ((Dfa.addTransitionInPlace source c target).on d).1 →
        ((Dfa.addTransitionInPlace source c target).on d).2 = d) ∧
      ∀ q, Fails ((Dfa.addFinalInPlace q).on d).1 → ((Dfa.addFinalInPlace q).on d).2 = d) ∧
    (∀ states start finals,
      (Fails (Nfa.new states start finals) ↔ states ≤ start ∨ ∃ q ∈ finals, states ≤ q) ∧
      (Fails (Dfa.new states start finals) ↔ states ≤ start ∨ ∃ q ∈ finals, states ≤ q) ∧
      Dfa.assembleNew states start finals = Dfa.new states start finals) ∧
    ∀ e, ∃ k n, Nfa.ofExpr e = .ok n ∧ Nfa.Made k n := by
  have hrange {states start : Nat} {finals : List Nat} :
      (¬(start < states ∧ ∀ q ∈ finals, q < states)) ↔
        states ≤ start ∨ ∃ q ∈ finals, states ≤ q := by
    simp only [not_and_or, not_forall, not_lt, exists_prop]
  refine ⟨fun k n hn => ?_, fun k d hd => ?_, fun states start finals => ?_, fun e => ?_⟩
  · refine ⟨hn.contract, fun source c target => (hn.contract.addTransition _ _ _).unchanged,
      fun source target => (hn.contract.addEpsilonTransition _ _).unchanged,
      Subset.assemble_eq hn.sound.wellFormed, ?_, ?_, fun l m hm => ?_⟩
    · rw [fails_iff, Nfa.star_ok_iff]
    · exact Nfa.assembleStar_eq_star hn.sound.wellFormed hn.sound.tidy
    · rw [fails_iff, fails_iff, Nfa.concat_ok_iff, Nfa.union_ok_iff, not_and_or]
      exact ⟨Iff.rfl, Iff.rfl,
        Nfa.assembleConcat_eq_concat hn.sound.wellFormed hm.sound.wellFormed hn.sound.tidy
          hm.sound.tidy,
        Nfa.assembleUnion_eq_union hn.sound.wellFormed hm.sound.wellFormed hn.sound.tidy
          hm.sound.tidy⟩
  · exact ⟨hd.contract, fun source c target => (hd.contract.addTransition _ _ _).unchanged,
      fun q => (hd.contract.addFinal q).unchanged⟩
  · refine ⟨?_, ?_, Dfa.assembleNew_eq_new states start finals⟩
    · rw [fails_iff, ← hrange]
      simp only [Nfa.new_eq_ok_iff, exists_and_left, exists_eq, and_true]
    · rw [fails_iff, ← hrange]
      simp only [Dfa.new_eq_ok_iff, exists_and_left, exists_eq, and_true]
  · rcases Nfa.exists_ofExpr e with ⟨n, hn, -, -⟩
    rcases Nfa.exists_made_of_ofExpr hn with ⟨k, hk⟩
    exact ⟨k, n, hn, hk⟩

/-- A transition out of an automaton with two states is refused and changes nothing.  As both states
are final, the closure is refused as well, but not the conversion. -/
theorem made_automata_sound_refused :
    let n := Nfa.bare 2 0 (.ofList [0, 1])
    Nfa.Made 2 n ∧ ((Nfa.addTransitionInPlace 1 'a' 2).on n).2 = n ∧ Fails n.star ∧ n.Contract 2 ∧
      (Dfa.ofNfa n).Contract (Subset.table n).sets.size := by
  intro n
  have hmade : Nfa.Made 2 n := .new (Nfa.new_eq_ok_iff.mpr ⟨by decide, rfl⟩)
  rcases made_automata_sound with ⟨hnfa, hdfa, -, -⟩
  rcases hnfa 2 n hmade with ⟨hcontract, hunchanged, -, -, hstar, -, -⟩
  have hfails : Fails ((Nfa.addTransitionInPlace 1 'a' 2).on n).1 := ⟨_, rfl⟩
  have hfinals : ¬∃! q, q ∈ n.finals := by
    intro hunique
    have hsame : 0 = 1 := hunique.unique (by decide) (by decide)
    omega
  exact ⟨hmade, hunchanged 1 'a' 2 hfails, hstar.mpr hfinals, hcontract,
    (hdfa _ _ (.ofNfa hmade)).1⟩

end MaximalMunch
