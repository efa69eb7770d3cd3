import MaximalMunch.Proofs.Dfa.Numbering

/-!
# Converting step by step

`ofNfa` gives the rows of a deterministic automaton as a whole.  The automaton can also be made by
calls: first one with a single state, then, as long as there are states to be treated, a transition
for every character that leads on, and a new state for every set that has none yet.  Each of these
calls checks the states that it is given.  `assemble_eq` says that no check fails, that nothing is
left to be treated after at most `2 ^ n` states, and that the automaton is that of `ofNfa`.
-/

namespace MaximalMunch

namespace Dfa

variable {d u : Dfa} {p q source target : Nat} {c : Char}

/-! ## Calls that succeed -/

theorem checkStates_eq_ok_iff {states : Nat} {qs : List Nat} :
    checkStates states qs = .ok () ↔ ∀ q ∈ qs, q < states := by
  rw [checkStates]
  split
  · next q hfind =>
      have hout : states ≤ q := by simpa using List.find?_some hfind
      have hq : q ∈ qs := List.mem_of_find?_eq_some hfind
      constructor
      · intro h
        cases h
      · intro h
        have hlt := h q hq
        omega
  · next hfind =>
      rw [List.find?_eq_none] at hfind
      constructor
      · intro _ q hq
        simpa using hfind q hq
      · intro _
        rfl

/-- The states are checked one after the other. -/
theorem checkStates_cons {states : Nat} (q : Nat) (qs : List Nat) :
    checkStates states (q :: qs) = (do checkStates states [q]; checkStates states qs) := by
  simp only [checkStates, List.find?_cons, List.find?_nil]
  cases decide (states ≤ q) <;> rfl

theorem new_eq_ok_iff {states start : Nat} {finals : List Nat} :
    Dfa.new states start finals = .ok d ↔ (start < states ∧ ∀ q ∈ finals, q < states) ∧
      d = ⟨start, .ofList finals, Array.replicate states ∅⟩ := by
  rw [Dfa.new, bind_eq_ok]
  constructor
  · rintro ⟨⟨⟩, hcheck, hd⟩
    rw [checkStates_eq_ok_iff, List.forall_mem_cons] at hcheck
    exact ⟨hcheck, (Except.ok.inj hd).symm⟩
  · rintro ⟨hcheck, rfl⟩
    exact ⟨(), checkStates_eq_ok_iff.mpr (List.forall_mem_cons.mpr hcheck), rfl⟩

/-- A new automaton whose final states are added one after the other. -/
def assembleNew (states start : Nat) (finals : List Nat) : Except Error Dfa := do
  checkStates states [start]
  finals.foldlM addFinal ⟨start, ∅, Array.replicate states ∅⟩

theorem foldlM_addFinal (d : Dfa) (finals : List Nat) :
    finals.foldlM addFinal d = (do
      checkStates d.size finals
      return { d with finals := finals.foldl StateSet.insert d.finals }) := by
  induction finals generalizing d with
  | nil => rfl
  | cons q finals ih =>
      rw [List.foldlM_cons, addFinal, checkStates_cons q finals]
      cases checkStates d.size [q] with
      | error e => rfl
      | ok => exact ih { d with finals := d.finals.insert q }

theorem assembleNew_eq_new (states start : Nat) (finals : List Nat) :
    assembleNew states start finals = Dfa.new states start finals := by
  have hsize : (⟨start, ∅, Array.replicate states ∅⟩ : Dfa).size = states := Array.size_replicate
  rw [assembleNew, Dfa.new, foldlM_addFinal, hsize, checkStates_cons start finals]
  cases checkStates states [start] <;> rfl

theorem addTransition_eq_ok_iff :
    d.addTransition source c target = .ok u ↔ (source < d.size ∧ target < d.size) ∧
      u = { d with rows := d.rows.modify source (·.insert c target) } := by
  rw [addTransition, bind_eq_ok]
  constructor
  · rintro ⟨⟨⟩, hcheck, hu⟩
    have hin := checkStates_eq_ok_iff.mp hcheck
    exact ⟨⟨hin source (by simp), hin target (by simp)⟩, (Except.ok.inj hu).symm⟩
  · rintro ⟨⟨hsource, htarget⟩, rfl⟩
    refine ⟨(), checkStates_eq_ok_iff.mpr ?_, rfl⟩
    intro q hq
    rcases List.mem_cons.mp hq with rfl | hq
    · exact hsource
    · rw [List.mem_singleton.mp hq]
      exact htarget

theorem addFinal_eq_ok_iff :
    d.addFinal q = .ok u ↔ q < d.size ∧ u = { d with finals := d.finals.insert q } := by
  rw [addFinal, bind_eq_ok]
  constructor
  · rintro ⟨⟨⟩, hcheck, hu⟩
    exact ⟨checkStates_eq_ok_iff.mp hcheck q (by simp), (Except.ok.inj hu).symm⟩
  · rintro ⟨hq, rfl⟩
    refine ⟨(), checkStates_eq_ok_iff.mpr ?_, rfl⟩
    intro q' hq'
    rwa [List.mem_singleton.mp hq']

/-- Automata are determined by size, start, final states and rows. -/
theorem ext_row (hsize : d.size = u.size) (hstart : d.start = u.start)
    (hfinals : d.finals = u.finals) (hrow : ∀ p, d.row p = u.row p) : d = u := by
  have hrows : d.rows = u.rows := by
    apply Array.ext hsize
    intro p hp hp'
    have hrow := hrow p
    rwa [row_eq (Array.getElem?_eq_getElem hp), row_eq (Array.getElem?_eq_getElem hp')] at hrow
  calc d = ⟨d.start, d.finals, d.rows⟩ := rfl
    _ = u := by rw [hstart, hfinals, hrows]

theorem row_modify {change : SymbolMap Nat → SymbolMap Nat} (hsource : source < d.size) :
    ({ d with rows := d.rows.modify source change } : Dfa).row p =
      if p = source then change (d.row p) else d.row p := by
  simp only [Dfa.row, Array.getD_eq_getD_getElem?, Array.getElem?_modify]
  by_cases hp : p = source
  · have hlt : p < d.rows.size := by
      rw [hp]
      exact hsource
    rw [if_pos hp.symm, if_pos hp, Array.getElem?_eq_getElem hlt, Option.map_some,
      Option.getD_some, Option.getD_some]
  · rw [if_neg (Ne.symm hp), if_neg hp]

/-! ## The conversion as a work list -/

/-- An automaton with one more state. -/
def addState (d : Dfa) : Dfa := { d with rows := d.rows.push ∅ }

theorem size_addState : d.addState.size = d.size + 1 := Array.size_push ∅

theorem row_addState : d.addState.row p = d.row p := by
  simp only [Dfa.row, addState, Array.getD_eq_getD_getElem?, Array.getElem?_push]
  split
  · next hp =>
      rw [hp, Array.getElem?_eq_none (Nat.le_refl _)]
      rfl
  · rfl

/-- Where the conversion stands: the automaton, the sets that have a state, in the order of their
numbers, and the states that have not been treated, with their sets. -/
structure Assembly where
  automaton : Dfa
  sets : Array StateSet
  pending : List (Nat × StateSet)

namespace Assembly

/-- Makes a state final if its set has a final state. -/
def mark (n : Nfa) (d : Dfa) (id : Nat) (states : StateSet) : Except Error Dfa :=
  if states.meets n.finals then d.addFinal id else .ok d

/-- Adds a state for a set. -/
def number (n : Nfa) (a : Assembly) (states : StateSet) : Except Error Assembly := do
  let id := a.automaton.size
  let automaton ← mark n a.automaton.addState id states
  return ⟨automaton, a.sets.push states, a.pending ++ [(id, states)]⟩

/-- Adds the transition on one character from a state, unless the character leads nowhere. -/
def link (n : Nfa) (source : Nat) (states : StateSet) (a : Assembly) (c : Char) :
    Except Error Assembly :=
  let target := n.closure (n.move states c)
  if target.isEmpty then .ok a
  else
    match a.sets.idxOf? target with
    | some id => do return { a with automaton := ← a.automaton.addTransition source c id }
    | none => do
      let grown ← a.number n target
      return { grown with
        automaton := ← grown.automaton.addTransition source c a.automaton.size }

/-- Treats the first states of the list, at most `turns` of them. -/
def treat (n : Nfa) : Nat → Assembly → Except Error Assembly
  | 0, a => .ok a
  | turns + 1, a =>
    match a.pending with
    | [] => .ok a
    | (source, states) :: rest => do
      treat n turns (← n.alphabet.foldlM (link n source states) { a with pending := rest })

end Assembly

/-- The conversion by calls. -/
def assemble (n : Nfa) : Except Error Assembly := do
  let states := n.closure (.singleton n.start)
  let first ← Assembly.mark n (← Dfa.new 1 0 []) 0 states
  Assembly.treat n (2 ^ n.size) ⟨first, #[states], [(0, states)]⟩

end Dfa

namespace Subset

open Dfa

variable {n : Nfa} {sets : Array StateSet} {rows : Array (SymbolMap Nat)} {row : SymbolMap Nat}
  {next : Nat} {states : StateSet} {a : Assembly}

/-- What the states from a number on have ahead of them. -/
def pendingFrom (sets : Array StateSet) (next : Nat) : List (Nat × StateSet) :=
  (List.range' next (sets.size - next)).map fun id => (id, sets.getD id ∅)

theorem pendingFrom_push (h : next ≤ sets.size) :
    pendingFrom (sets.push states) next = pendingFrom sets next ++ [(sets.size, states)] := by
  have hsize : (sets.push states).size - next = (sets.size - next) + 1 := by
    rw [Array.size_push]
    omega
  have hlast : next + (sets.size - next) = sets.size := by omega
  rw [pendingFrom, hsize, List.range'_1_concat, List.map_append, hlast]
  congr 1
  · apply List.map_congr_left
    intro id hid
    have hlt := List.mem_range'_1.mp hid
    have hid : id < sets.size := by omega
    simp [Array.getD_eq_getD_getElem?, Array.getElem?_push, Nat.ne_of_lt hid]
  · simp [Array.getD_eq_getD_getElem?]

theorem pendingFrom_eq_cons (h : sets[next]? = some states) :
    pendingFrom sets next = (next, states) :: pendingFrom sets (next + 1) := by
  have hlt : next < sets.size := (Array.getElem?_eq_some_iff.mp h).1
  have hsize : sets.size - next = (sets.size - (next + 1)) + 1 := by omega
  rw [pendingFrom, hsize, List.range'_succ, List.map_cons, Array.getD_eq_getD_getElem?, h,
    Option.getD_some]
  rfl

/-- The conversion stands where the table stands: it has the same sets and, up to a number, the
finished rows. -/
structure Mirrors (n : Nfa) (sets : Array StateSet) (rows : Array (SymbolMap Nat)) (next : Nat)
    (a : Assembly) : Prop where
  next_le : next ≤ sets.size
  sets_eq : a.sets = sets
  pending_eq : a.pending = pendingFrom sets next
  size_eq : a.automaton.size = sets.size
  start_eq : a.automaton.start = 0
  mem_finals : ∀ id, id ∈ a.automaton.finals ↔
    ∃ states, sets[id]? = some states ∧ states.meets n.finals = true
  row_eq : ∀ id, a.automaton.row id = rows.getD id ∅

theorem exists_mark (n : Nfa) (d : Dfa) {id : Nat} (hid : id < d.size) (states : StateSet) :
    ∃ u, Assembly.mark n d id states = .ok u ∧ u.size = d.size ∧ u.start = d.start ∧
      (∀ p, u.row p = d.row p) ∧
      ∀ p, p ∈ u.finals ↔ p ∈ d.finals ∨ p = id ∧ states.meets n.finals = true := by
  rw [Assembly.mark]
  split
  · next hmeets =>
      refine ⟨_, addFinal_eq_ok_iff.mpr ⟨hid, rfl⟩, rfl, rfl, fun _ => rfl, fun p => ?_⟩
      rw [StateSet.mem_insert]
      simp [hmeets]
  · next hmeets => exact ⟨d, rfl, rfl, rfl, fun _ => rfl, by simp [hmeets]⟩

theorem Mirrors.exists_number (h : Mirrors n sets rows next a) (states : StateSet) :
    ∃ b, a.number n states = .ok b ∧ Mirrors n (sets.push states) rows next b := by
  have hsize : a.automaton.addState.size = sets.size + 1 := by rw [size_addState, h.size_eq]
  rcases exists_mark n a.automaton.addState (by omega : sets.size < _) states with
    ⟨d, hd, hdsize, hstart, hrow, hfinals⟩
  refine ⟨⟨d, a.sets.push states, a.pending ++ [(sets.size, states)]⟩, ?_, ?_⟩
  · rw [Assembly.number, h.size_eq, hd]
    rfl
  · exact {
      next_le := by
        rw [Array.size_push]
        exact Nat.le_succ_of_le h.next_le
      sets_eq := by rw [h.sets_eq]
      pending_eq := by rw [h.pending_eq, pendingFrom_push h.next_le]
      size_eq := by rw [hdsize, hsize, Array.size_push]
      start_eq := hstart.trans h.start_eq
      mem_finals := by
        intro id
        have hold : id ∈ a.automaton.addState.finals ↔ id ∈ a.automaton.finals := Iff.rfl
        rw [hfinals, hold, h.mem_finals, Array.getElem?_push]
        split
        · next hid => simp [hid]
        · next hid => simp [hid]
      row_eq := by
        intro id
        rw [hrow, row_addState, h.row_eq] }

/-- A transition of the row that is being written. -/
theorem Mirrors.exists_addTransition (h : Mirrors n sets (rows.push row) (rows.size + 1) a)
    (c : Char) {id : Nat} (hid : id < sets.size) :
    ∃ d, a.automaton.addTransition rows.size c id = .ok d ∧
      Mirrors n sets (rows.push (row.insert c id)) (rows.size + 1) { a with automaton := d } := by
  have hsource : rows.size < a.automaton.size := by
    rw [h.size_eq]
    exact h.next_le
  refine ⟨_, addTransition_eq_ok_iff.mpr ⟨⟨hsource, by rwa [h.size_eq]⟩, rfl⟩, ?_⟩
  exact {
    next_le := h.next_le
    sets_eq := h.sets_eq
    pending_eq := h.pending_eq
    size_eq := Array.size_modify.trans h.size_eq
    start_eq := h.start_eq
    mem_finals := h.mem_finals
    row_eq := by
      intro id'
      rw [row_modify hsource, h.row_eq]
      simp only [Array.getD_eq_getD_getElem?, Array.getElem?_push]
      split <;> rfl }

theorem Mirrors.exists_link (hn : n.WellFormed)
    (h : Mirrors n sets (rows.push row) (rows.size + 1) a) (states : StateSet) (c : Char) :
    let linked := link (closures n) (sets, row) (c, n.move states c)
    ∃ b, a.link n rows.size states c = .ok b ∧
      Mirrors n linked.1 (rows.push linked.2) (rows.size + 1) b := by
  simp only [link, Assembly.link, close_closures hn fun q hq => Nfa.move_lt hn hq]
  split
  · exact ⟨a, rfl, h⟩
  · rw [h.sets_eq]
    cases hindex : sets.idxOf? (n.closure (n.move states c)) with
    | some id =>
      have hid : id < sets.size := (Array.getElem?_eq_some_iff.mp (getElem?_of_idxOf? hindex)).1
      rcases h.exists_addTransition c hid with ⟨d, hd, hmirrors⟩
      exact ⟨{ a with automaton := d }, by simp [hd, h.sets_eq], hmirrors⟩
    | none =>
      rcases h.exists_number (n.closure (n.move states c)) with ⟨b, hb, hnumbered⟩
      have hid : sets.size < (sets.push (n.closure (n.move states c))).size := by
        rw [Array.size_push]
        exact Nat.lt_succ_self _
      rcases hnumbered.exists_addTransition c hid with ⟨d, hd, hmirrors⟩
      exact ⟨{ b with automaton := d }, by simp [hb, h.size_eq, hd], hmirrors⟩

/-- The row that is made of the departures on the given characters. -/
def linkAll (n : Nfa) (states : StateSet) (cs : List Char)
    (found : Array StateSet × SymbolMap Nat) : Array StateSet × SymbolMap Nat :=
  cs.foldl (fun found c => link (closures n) found (c, n.move states c)) found

theorem Mirrors.exists_linkAll (hn : n.WellFormed) (states : StateSet) (cs : List Char)
    (h : Mirrors n sets (rows.push row) (rows.size + 1) a) :
    ∃ b, cs.foldlM (Assembly.link n rows.size states) a = .ok b ∧
      Mirrors n (linkAll n states cs (sets, row)).1 (rows.push (linkAll n states cs (sets, row)).2)
        (rows.size + 1) b := by
  induction cs generalizing sets row a with
  | nil => exact ⟨a, rfl, h⟩
  | cons c cs ih =>
      rcases h.exists_link hn states c with ⟨b, hb, hlinked⟩
      rw [List.foldlM_cons, hb]
      exact ih hlinked

/-! ## All characters and those that lead on -/

theorem link_of_read_eq_empty (hn : n.WellFormed) {found : Array StateSet × SymbolMap Nat}
    {c : Char} (h : n.read states c = ∅) :
    link (closures n) found (c, n.move states c) = found := by
  have hempty : (n.closure (n.move states c)).isEmpty = true := StateSet.isEmpty_iff.mpr h
  simp only [link, close_closures hn fun q hq => Nfa.move_lt hn hq]
  exact if_pos hempty

/-- Characters that lead nowhere may be left out. -/
theorem linkAll_filter (hn : n.WellFormed) (states : StateSet) (cs : List Char)
    (found : Array StateSet × SymbolMap Nat) :
    linkAll n states (cs.filter (n.read states · ≠ ∅)) found = linkAll n states cs found := by
  induction cs generalizing found with
  | nil => rfl
  | cons c cs ih =>
      have hcons : linkAll n states (c :: cs) found =
        linkAll n states cs (link (closures n) found (c, n.move states c)) := rfl
      rw [hcons, ← ih]
      by_cases hc : n.read states c = ∅
      · rw [List.filter_cons_of_neg (by simpa using hc), link_of_read_eq_empty hn hc]
      · rw [List.filter_cons_of_pos (by simpa using hc)]
        rfl

theorem exists_edge_of_read_ne_empty (hn : n.WellFormed) {c : Char} (h : n.read states c ≠ ∅) :
    ∃ p ∈ states, ∃ q, q ∈ (n.row p).targets c := by
  by_contra hnone
  apply h
  have hmove : n.move states c = ∅ := by
    apply StateSet.ext
    intro q
    rw [Nfa.mem_move]
    constructor
    · rintro ⟨p, hp, hq⟩
      exact absurd ⟨p, hp, q, hq⟩ hnone
    · intro hq
      exact absurd hq (StateSet.not_mem_empty q)
  rw [Nfa.read, hmove, Nfa.closure_empty hn]

theorem mem_alphabet_of_target {p q : Nat} {c : Char} (h : q ∈ (n.row p).targets c) :
    c ∈ n.alphabet := by
  have hp : p < n.size := Nfa.source_lt (o := some c) h
  have hget : n.rows[p]? = some n.rows[p] := Array.getElem?_eq_getElem hp
  rw [Nfa.row_eq hget] at h
  have hsymbol : c ∈ n.rows[p].symbols.symbols := by
    rw [SymbolMap.mem_symbols_iff]
    cases hc : n.rows[p].symbols.get? c with
    | none =>
        rw [Nfa.Row.targets, hc] at h
        exact absurd h (StateSet.not_mem_empty q)
    | some targets => exact ⟨targets, rfl⟩
  rw [Nfa.alphabet, ← Array.foldl_toList, SymbolMap.mem_symbols_foldl_foldl]
  exact .inr ⟨_, Array.mem_toList_iff.mpr (Array.getElem_mem hp), hsymbol⟩

theorem mem_symbols_departures (hn : n.WellFormed) {c : Char} (h : n.read states c ≠ ∅) :
    c ∈ (n.departures states).symbols := by
  rw [SymbolMap.mem_symbols_iff]
  cases hc : (n.departures states).get? c with
  | none =>
      have hmove := Nfa.getD_departures n states c
      rw [hc] at hmove
      rw [Nfa.read, ← hmove] at h
      exact absurd (Nfa.closure_empty hn) h
  | some targets => exact ⟨targets, rfl⟩

/-- Going through any characters among which are all that lead on, in ascending order, gives the row
that the departures give. -/
theorem linkAll_eq_foldl_departures (hn : n.WellFormed) (states : StateSet) {cs : List Char}
    (hsorted : cs.Pairwise (· < ·)) (hall : ∀ c, n.read states c ≠ ∅ → c ∈ cs)
    (found : Array StateSet × SymbolMap Nat) :
    linkAll n states cs found =
      (n.departures states).entries.foldl (link (closures n)) found := by
  have hentries : (n.departures states).entries.foldl (link (closures n)) found =
      linkAll n states (n.departures states).symbols found := by
    rw [linkAll, SymbolMap.symbols, List.foldl_map]
    apply List.foldl_ext
    rintro found ⟨c, targets⟩ hmem
    rw [← Nfa.getD_departures, SymbolMap.mem_entries_iff.mp hmem, Option.getD_some]
  have hsame : cs.filter (n.read states · ≠ ∅) =
      (n.departures states).symbols.filter (n.read states · ≠ ∅) := by
    apply (hsorted.filter _).eq_of_mem_iff ((SymbolMap.pairwise_symbols _).filter _)
    intro c
    rw [List.mem_filter, List.mem_filter, decide_eq_true_eq, and_congr_left_iff]
    intro hread
    exact iff_of_true (hall c hread) (mem_symbols_departures hn hread)
  rw [hentries, ← linkAll_filter hn states cs, hsame, linkAll_filter hn]

theorem mem_alphabet_of_read_ne_empty (hn : n.WellFormed) {c : Char} (h : n.read states c ≠ ∅) :
    c ∈ n.alphabet := by
  rcases exists_edge_of_read_ne_empty hn h with ⟨p, -, q, hq⟩
  exact mem_alphabet_of_target hq

/-- Going through the whole alphabet gives the row that the departures give. -/
theorem linkAll_alphabet (hn : n.WellFormed) (states : StateSet)
    (found : Array StateSet × SymbolMap Nat) :
    linkAll n states n.alphabet found =
      (n.departures states).entries.foldl (link (closures n)) found :=
  linkAll_eq_foldl_departures hn states (SymbolMap.pairwise_symbols _)
    (fun _ => mem_alphabet_of_read_ne_empty hn) found

/-! ## The whole conversion -/

theorem Mirrors.exists_treat (hn : n.WellFormed) {t : Table}
    (h : Mirrors n t.sets t.rows t.rows.size a) (turns : Nat) :
    ∃ b, a.treat n turns = .ok b ∧
      Mirrors n (explore n (closures n) turns t).sets (explore n (closures n) turns t).rows
        (explore n (closures n) turns t).rows.size b := by
  induction turns generalizing t a with
  | zero => exact ⟨a, rfl, h⟩
  | succ turns ih =>
      rw [Assembly.treat, explore]
      cases hnext : t.sets[t.rows.size]? with
      | none =>
          have hnone : a.pending = [] := by
            have hle := Array.getElem?_eq_none_iff.mp hnext
            rw [h.pending_eq, pendingFrom, Nat.sub_eq_zero_of_le hle]
            rfl
          rw [hnone]
          exact ⟨a, rfl, h⟩
      | some states =>
          have hpending : a.pending =
              (t.rows.size, states) :: pendingFrom t.sets (t.rows.size + 1) := by
            rw [h.pending_eq, pendingFrom_eq_cons hnext]
          rw [hpending]
          -- the row that is written next is empty so far
          have hbegin : Mirrors n t.sets (t.rows.push ∅) (t.rows.size + 1)
              { a with pending := pendingFrom t.sets (t.rows.size + 1) } := {
            next_le := (Array.getElem?_eq_some_iff.mp hnext).1
            sets_eq := h.sets_eq
            pending_eq := rfl
            size_eq := h.size_eq
            start_eq := h.start_eq
            mem_finals := h.mem_finals
            row_eq := by
              intro id
              rw [h.row_eq]
              simp only [Array.getD_eq_getD_getElem?, Array.getElem?_push]
              split
              · next hid =>
                  rw [hid, Array.getElem?_eq_none (Nat.le_refl _)]
                  rfl
              · rfl }
          rcases hbegin.exists_linkAll hn states n.alphabet with ⟨b, hb, hrow⟩
          rw [linkAll_alphabet hn] at hrow
          dsimp only
          rw [hb, ok_bind]
          apply ih
          rw [Array.size_push]
          exact hrow

/-- The conversion by calls succeeds, nothing is left to be treated, and the automaton is the one
that the rows give. -/
theorem assemble_eq (hn : n.WellFormed) :
    assemble n = .ok ⟨ofNfa n, (table n).sets, []⟩ := by
  have hnew : Dfa.new 1 0 [] = .ok ⟨0, ∅, Array.replicate 1 ∅⟩ := rfl
  have hone : (⟨0, ∅, Array.replicate 1 ∅⟩ : Dfa).size = 1 := rfl
  rcases exists_mark n ⟨0, ∅, Array.replicate 1 ∅⟩ (by omega : 0 < _)
    (n.closure (.singleton n.start)) with ⟨first, hfirst, hsize, hstart, hrow, hfinals⟩
  have hbegin : Mirrors n #[n.closure (.singleton n.start)] #[] 0
      ⟨first, #[n.closure (.singleton n.start)], [(0, n.closure (.singleton n.start))]⟩ := {
    next_le := Nat.zero_le _
    sets_eq := rfl
    pending_eq := rfl
    size_eq := hsize
    start_eq := hstart
    mem_finals := by
      intro id
      rw [hfinals, Array.getElem?_singleton]
      split
      · next hid => simp [hid]
      · next hid => simp [hid]
    row_eq := by
      intro id
      rw [hrow, Dfa.row, Array.getD_eq_getD_getElem?, Array.getElem?_replicate]
      split <;> rfl }
  rcases Mirrors.exists_treat hn (t := ⟨#[n.closure (.singleton n.start)], #[]⟩) hbegin
    (2 ^ n.size) with ⟨b, hb, hmirrors⟩
  rw [← table_eq hn] at hmirrors
  have hrows := (table_valid hn).2
  have hpending : b.pending = [] := by
    rw [hmirrors.pending_eq, pendingFrom, hrows, Nat.sub_self]
    rfl
  have hautomaton : b.automaton = ofNfa n := by
    apply ext_row
    · rw [hmirrors.size_eq, ← hrows]
      rfl
    · exact hmirrors.start_eq
    · apply StateSet.ext
      intro id
      rw [hmirrors.mem_finals]
      simp only [ofNfa, StateSet.mem_ofList, List.mem_filter, List.mem_range,
        Array.getD_eq_getD_getElem?]
      constructor
      · rintro ⟨states, hid, hmeets⟩
        rw [hid]
        exact ⟨(Array.getElem?_eq_some_iff.mp hid).1, hmeets⟩
      · rintro ⟨hlt, hmeets⟩
        have hid : (table n).sets[id]? = some (table n).sets[id] := Array.getElem?_eq_getElem hlt
        rw [hid] at hmeets
        exact ⟨_, hid, hmeets⟩
    · exact hmirrors.row_eq
  rw [assemble, hnew, ok_bind, hfirst, ok_bind, hb, ← hautomaton, ← hmirrors.sets_eq, ← hpending]

end Subset

end MaximalMunch
