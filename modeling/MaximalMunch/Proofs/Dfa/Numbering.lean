import Mathlib.Data.List.Nodup
import MaximalMunch.Proofs.Dfa.Subset

/-!
# The numbers of the subset construction

A set is numbered when a row first leads to it, and rows are finished in the order of the numbers.
So every set is the set of states behind some word, and the numbers appear in the rows in ascending
order: reading the targets row by row, each number other than zero is met for the first time right
behind all smaller ones.  Together with `after_ofNfa` this says which automaton is constructed, for
any automaton that is well-formed.
-/

namespace MaximalMunch

/-! ## Targets in the order of the rows -/

/-- The targets of all rows, listed by row and then by character. -/
def Subset.targets (rows : Array (SymbolMap Nat)) : List Nat :=
  rows.toList.flatMap fun row => row.entries.map Prod.snd

namespace Dfa

/-- The targets of all transitions, listed by source and then by character. -/
def targets (d : Dfa) : List Nat := Subset.targets d.rows

/-- Every number that the automaton names is one of its states, so `checkStates` finds no fault with
it. -/
structure WellFormed (d : Dfa) : Prop where
  start_lt : d.start < d.size
  finals_lt : ∀ q ∈ d.finals, q < d.size
  target_lt : ∀ {p c q}, d.next? p c = some q → q < d.size

theorem mem_targets {d : Dfa} {q : Nat} : q ∈ d.targets ↔ ∃ p c, d.next? p c = some q := by
  simp only [targets, Subset.targets, List.mem_flatMap, List.mem_map, Prod.exists,
    exists_eq_right, SymbolMap.mem_entries_iff, Array.mem_toList_iff]
  constructor
  · rintro ⟨row, hrow, c, hget⟩
    obtain ⟨p, hp⟩ := Array.mem_iff_getElem?.mp hrow
    exact ⟨p, c, by rw [next?, row_eq hp, hget]⟩
  · rintro ⟨p, c, hnext⟩
    obtain ⟨row, hp, hget⟩ := exists_row hnext
    exact ⟨row, Array.mem_of_getElem? hp, c, hget⟩

end Dfa

namespace Subset

variable {n : Nfa}

theorem targets_push (rows : Array (SymbolMap Nat)) (row : SymbolMap Nat) :
    targets (rows.push row) = targets rows ++ row.entries.map Prod.snd := by
  simp [targets]

/-- A number at the end of a list is a first occurrence unless it was listed before. -/
theorem eraseDups_concat (ids : List Nat) (id : Nat) :
    (ids ++ [id]).eraseDups = if id ∈ ids then ids.eraseDups else ids.eraseDups ++ [id] := by
  rw [List.eraseDups_append]
  by_cases hmem : id ∈ ids
  · simp [List.removeAll, hmem]
  · simp [List.removeAll, hmem, List.eraseDups_cons]

/-- Sets that some word reaches each, numbered in the order in which the targets lead to them. -/
structure Numbered (n : Nfa) (ids : List Nat) (sets : Array StateSet) : Prop where
  spelled : ∀ {id : Nat} {states}, sets[id]? = some states → ∃ w, n.reached w = states
  order : (0 :: ids).eraseDups = List.range sets.size

theorem Numbered.mem_iff {ids : List Nat} {sets : Array StateSet} (h : Numbered n ids sets)
    {id : Nat} : id ∈ 0 :: ids ↔ id < sets.size := by
  rw [← List.mem_eraseDups, h.order, List.mem_range]

/-- A target that has a number already. -/
theorem Numbered.again {ids : List Nat} {sets : Array StateSet} (h : Numbered n ids sets)
    {id : Nat} (hid : id < sets.size) : Numbered n (ids ++ [id]) sets where
  spelled := h.spelled
  order := by rw [← List.cons_append, eraseDups_concat, if_pos (h.mem_iff.mpr hid), h.order]

/-- A target that gets the next number. -/
theorem Numbered.push {ids : List Nat} {sets : Array StateSet} (h : Numbered n ids sets)
    (w : List Char) : Numbered n (ids ++ [sets.size]) (sets.push (n.reached w)) where
  spelled := by
    intro id states hid
    rw [Array.getElem?_push] at hid
    split at hid
    · exact ⟨w, Option.some.inj hid⟩
    · exact h.spelled hid
  order := by
    have hnew : sets.size ∉ 0 :: ids := fun hmem => Nat.lt_irrefl _ (h.mem_iff.mp hmem)
    rw [← List.cons_append, eraseDups_concat, if_neg hnew, h.order, Array.size_push,
      List.range_succ]

/-! ## The numbers that a row gives -/

/-- Linking one more departure lists its target behind those of the row so far. -/
theorem numbered_link (hn : n.WellFormed) {ids : List Nat} {sets : Array StateSet}
    {row : SymbolMap Nat} (h : Numbered n (ids ++ row.entries.map Prod.snd) sets) (w : List Char)
    {c : Char} (hbehind : ∀ e ∈ row.entries, e.1 < c) :
    let linked := link (closures n) (sets, row) (c, n.move (n.reached w) c)
    Numbered n (ids ++ linked.2.entries.map Prod.snd) linked.1 ∧
      ∀ e ∈ linked.2.entries, e ∈ row.entries ∨ e.1 = c := by
  have hclose : close (closures n) (n.move (n.reached w) c) = n.reached (w ++ [c]) := by
    rw [close_closures hn fun q hq => Nfa.move_lt hn hq, Nfa.reached_snoc, Nfa.read]
  simp only [link, hclose]
  by_cases hempty : (n.reached (w ++ [c])).isEmpty = true
  · rw [if_pos hempty]
    exact ⟨h, fun e he => .inl he⟩
  · rw [if_neg hempty]
    have hmem (id : Nat) : ∀ e ∈ (row.insert c id).entries, e ∈ row.entries ∨ e.1 = c := by
      intro e he
      rw [SymbolMap.entries_insert_of_lt id hbehind, List.mem_append, List.mem_singleton] at he
      exact he.imp_right fun heq => congrArg Prod.fst heq
    have hlisted (id : Nat) : ids ++ (row.insert c id).entries.map Prod.snd =
        (ids ++ row.entries.map Prod.snd) ++ [id] := by
      rw [SymbolMap.entries_insert_of_lt id hbehind]
      simp
    cases hindex : sets.idxOf? (n.reached (w ++ [c])) with
    | some id =>
        have hlt : id < sets.size := (Array.getElem?_eq_some_iff.mp (getElem?_of_idxOf? hindex)).1
        refine ⟨?_, hmem id⟩
        rw [hlisted]
        exact h.again hlt
    | none =>
        refine ⟨?_, hmem sets.size⟩
        rw [hlisted]
        exact h.push (w ++ [c])

/-- The row of a set lists its targets behind those of the rows before. -/
theorem numbered_foldl (hn : n.WellFormed) {ids : List Nat} {sets : Array StateSet}
    (h : Numbered n ids sets) (w : List Char) (departures : List (Char × StateSet))
    (hsorted : departures.Pairwise fun a b => a.1 < b.1)
    (hmove : ∀ e ∈ departures, e.2 = n.move (n.reached w) e.1) :
    let linked := departures.foldl (link (closures n)) (sets, ∅)
    Numbered n (ids ++ linked.2.entries.map Prod.snd) linked.1 ∧
      ∀ e ∈ linked.2.entries, ∃ departure ∈ departures, e.1 = departure.1 := by
  induction departures using List.reverseRecOn with
  | nil =>
      refine ⟨?_, ?_⟩
      · show Numbered n (ids ++ []) sets
        rwa [List.append_nil]
      · intro e he
        cases he
  | append_singleton departures departure ih =>
      obtain ⟨hsorted, -, hlast⟩ := List.pairwise_append.mp hsorted
      obtain ⟨hrow, hkeys⟩ := ih hsorted fun e he => hmove e (List.mem_append_left _ he)
      obtain ⟨c, targets⟩ := departure
      obtain rfl : targets = n.move (n.reached w) c := hmove (c, targets) (by simp)
      have hbehind : ∀ e ∈ (departures.foldl (link (closures n)) (sets, ∅)).2.entries, e.1 < c := by
        intro e he
        obtain ⟨departure, hdeparture, hkey⟩ := hkeys e he
        rw [hkey]
        exact hlast departure hdeparture _ (List.mem_singleton_self _)
      obtain ⟨hrow', hkeys'⟩ := numbered_link hn hrow w hbehind
      rw [List.foldl_append]
      refine ⟨hrow', fun e he => ?_⟩
      rcases hkeys' e he with he | hkey
      · obtain ⟨departure, hdeparture, hkey⟩ := hkeys e he
        exact ⟨departure, List.mem_append_left _ hdeparture, hkey⟩
      · exact ⟨_, List.mem_append_right _ (List.mem_singleton_self _), hkey⟩

/-! ## The numbers that the table gives -/

theorem numbered_explore (hn : n.WellFormed) (fuel : Nat) {table : Table}
    (h : Numbered n (targets table.rows) table.sets) :
    Numbered n (targets (explore n (closures n) fuel table).rows)
      (explore n (closures n) fuel table).sets := by
  induction fuel generalizing table with
  | zero => exact h
  | succ fuel ih =>
      rw [explore]
      cases hnext : table.sets[table.rows.size]? with
      | none => exact h
      | some states =>
          -- the set to be treated is that of a word, so its departures are those behind the word
          obtain ⟨w, rfl⟩ := h.spelled hnext
          have hmove : ∀ e ∈ (n.departures (n.reached w)).entries,
              e.2 = n.move (n.reached w) e.1 := by
            intro e he
            rw [← Nfa.getD_departures, SymbolMap.mem_entries_iff.mp he, Option.getD_some]
          have hrow := (numbered_foldl hn h w _ (n.departures (n.reached w)).sorted hmove).1
          apply ih
          show Numbered n (targets (table.rows.push _)) _
          rw [targets_push]
          exact hrow

theorem numbered_table (hn : n.WellFormed) :
    Numbered n (targets (table n).rows) (table n).sets := by
  rw [table_eq hn]
  apply numbered_explore hn
  constructor
  · intro id states hid
    rw [Array.getElem?_singleton] at hid
    split at hid
    · exact ⟨[], Option.some.inj hid⟩
    · cases hid
  · rfl

end Subset

namespace Dfa

variable {n : Nfa}

theorem size_ofNfa (hn : n.WellFormed) : (ofNfa n).size = (Subset.table n).sets.size :=
  (Subset.table_valid hn).2

/-- Two words over which the runs are alive lead to the same state exactly if they reach the same
states of the nondeterministic automaton. -/
theorem after_ofNfa_eq_iff (hn : n.WellFormed) {w w' : List Char} (hw : n.reached w ≠ ∅) :
    (ofNfa n).after w = (ofNfa n).after w' ↔ n.reached w = n.reached w' := by
  have hafter := Subset.after_ofNfa hn w
  have hafter' := Subset.after_ofNfa hn w'
  have halive : (ofNfa n).after w ≠ none := mt (after_ofNfa_eq_none_iff hn w).mp hw
  obtain ⟨id, hid⟩ := Option.ne_none_iff_exists'.mp halive
  rw [hid] at hafter ⊢
  constructor
  · intro heq
    rw [← heq] at hafter'
    exact Option.some.inj (hafter.symm.trans hafter')
  · intro heq
    cases hid' : (ofNfa n).after w' with
    | none => exact absurd (heq.trans ((after_ofNfa_eq_none_iff hn w').mp hid')) hw
    | some id' =>
        rw [hid'] at hafter'
        rw [(Subset.table_valid hn).1.found.unique hafter (heq ▸ hafter')]

/-- Every state has a word that leads to it. -/
theorem exists_after_ofNfa (hn : n.WellFormed) {id : Nat} (hid : id < (ofNfa n).size) :
    ∃ w, (ofNfa n).after w = some id := by
  rw [size_ofNfa hn] at hid
  have hget : (Subset.table n).sets[id]? = some (Subset.table n).sets[id] :=
    Array.getElem?_eq_getElem hid
  obtain ⟨w, hw⟩ := (Subset.numbered_table hn).spelled hget
  rw [← hw] at hget
  have hfound := (Subset.table_valid hn).1.found
  have hafter := Subset.after_ofNfa hn w
  cases hstate : (ofNfa n).after w with
  | none =>
      rw [hstate] at hafter
      exact absurd hafter (hfound.nonempty hget)
  | some id' =>
      rw [hstate] at hafter
      exact ⟨w, by rw [hstate, hfound.unique hafter hget]⟩

theorem mem_targets_ofNfa (hn : n.WellFormed) {id : Nat} :
    id = 0 ∨ id ∈ (ofNfa n).targets ↔ id < (ofNfa n).size := by
  rw [size_ofNfa hn, ← (Subset.numbered_table hn).mem_iff, List.mem_cons]
  rfl

theorem wellFormed_ofNfa (hn : n.WellFormed) : (ofNfa n).WellFormed where
  start_lt := (mem_targets_ofNfa hn).mp (.inl rfl)
  finals_lt := by
    intro q hq
    rw [size_ofNfa hn]
    exact List.mem_range.mp (List.mem_of_mem_filter (StateSet.mem_ofList.mp hq))
  target_lt := fun hnext => (mem_targets_ofNfa hn).mp (.inr (mem_targets.mpr ⟨_, _, hnext⟩))

/-- The numbers other than that of the start are first met in ascending order. -/
theorem eraseDups_targets_ofNfa (hn : n.WellFormed) :
    ((ofNfa n).targets.filter (· ≠ 0)).eraseDups = List.range' 1 ((ofNfa n).size - 1) := by
  have horder := (Subset.numbered_table hn).order
  have hpos : 0 < (ofNfa n).size := (wellFormed_ofNfa hn).start_lt
  obtain ⟨k, hk⟩ : ∃ k, (ofNfa n).size = k + 1 := ⟨_, (Nat.succ_pred_eq_of_pos hpos).symm⟩
  rw [← size_ofNfa hn, hk, List.eraseDups_cons, List.range_succ_eq_map] at horder
  have htail := (List.cons.inj horder).2
  rw [hk, Nat.add_sub_cancel, List.range'_eq_map_range]
  have hfilter : (ofNfa n).targets.filter (· ≠ 0) =
      (Subset.targets (Subset.table n).rows).filter fun b => !b == 0 := by
    apply List.filter_congr
    intro id _
    simp
    rfl
  rw [hfilter, htail]
  apply List.map_congr_left
  intro id _
  exact Nat.succ_eq_one_add id

/-- The subset construction for any well-formed automaton, whatever its start, its final states and
its edges: it treats every set that it finds, and a run over a word stands for the states that the
paths spelling the word lead to.  It has a state for each such set that is not empty and no others,
and they are numbered in the order in which they are found. -/
theorem ofNfa_numbers_reached_sets (hn : n.WellFormed) :
    (ofNfa n).WellFormed ∧ (Subset.table n).rows.size = (Subset.table n).sets.size ∧
    (∀ w, ((Run.atStart (ofNfa n)).follow (ofNfa n) w).isDead = false ↔
      ∃ q, n.Path n.start w q) ∧
    (∀ w, ((Run.atStart (ofNfa n)).follow (ofNfa n) w).accepts (ofNfa n) = true ↔
      ∃ q ∈ n.finals, n.Path n.start w q) ∧
    (∀ w w', (∃ q, n.Path n.start w q) → (∃ q, n.Path n.start w' q) →
      ((Run.atStart (ofNfa n)).follow (ofNfa n) w = (Run.atStart (ofNfa n)).follow (ofNfa n) w' ↔
        ∀ q, n.Path n.start w q ↔ n.Path n.start w' q)) ∧
    (∀ id < (ofNfa n).size, ∃ w, (Run.atStart (ofNfa n)).follow (ofNfa n) w = ⟨some id⟩) ∧
    (ofNfa n).size ≤ 2 ^ n.size - 1 ∧ (ofNfa n).start = 0 ∧
    ((ofNfa n).targets.filter (· ≠ 0)).eraseDups = List.range' 1 ((ofNfa n).size - 1) := by
  have hreached (w : List Char) : n.reached w ≠ ∅ ↔ ∃ q, n.Path n.start w q := by
    rw [Nfa.reached_ne_empty_iff]
    exact exists_congr fun q => Nfa.mem_reached hn
  refine ⟨wellFormed_ofNfa hn, (Subset.table_valid hn).2, ?_, ?_, ?_, ?_, ?_, rfl,
    eraseDups_targets_ofNfa hn⟩
  · intro w
    rw [isDead_follow_atStart, ← hreached, ← not_iff_not, not_not, not_not,
      after_ofNfa_eq_none_iff hn]
  · intro w
    have hlanguage : w ∈ (ofNfa n).language ↔ w ∈ n.language := by rw [language_ofNfa hn]
    exact hlanguage
  · intro w w' hw _
    rw [follow_atStart, follow_atStart, Run.mk.injEq, after_ofNfa_eq_iff hn ((hreached w).mpr hw)]
    simp only [← Nfa.mem_reached hn]
    exact ⟨fun heq q => heq ▸ Iff.rfl, StateSet.ext⟩
  · intro id hid
    obtain ⟨w, hw⟩ := exists_after_ofNfa hn hid
    exact ⟨w, by rw [follow_atStart, hw]⟩
  · have hlt := (Subset.table_valid hn).1.found.size_lt
    rw [size_ofNfa hn]
    omega

/-- The start is not state zero, state zero is not reached, two states lead to each other without
reading, and no edge leaves the last one. -/
theorem ofNfa_numbers_reached_sets_loop :
    let n : Nfa := ⟨1, .ofList [0, 3], #[Nfa.Row.addSymbol {} 'a' 2, Nfa.Row.addEpsilon {} 2,
      (Nfa.Row.addEpsilon {} 1).addSymbol 'b' 3, {}]⟩
    n.WellFormed ∧ (ofNfa n).size ≤ 15 ∧
      ∀ w, ((Run.atStart (ofNfa n)).follow (ofNfa n) w).accepts (ofNfa n) = true ↔
        ∃ q ∈ n.finals, n.Path n.start w q := by
  intro n
  have hn : n.WellFormed := by
    refine ⟨by decide, ?_, ?_⟩
    · intro q hq
      rw [StateSet.mem_ofList] at hq
      revert q
      decide
    · intro p q o hedge
      have hp : p < 4 := Nfa.source_lt hedge
      obtain rfl | rfl | rfl | rfl : p = 0 ∨ p = 1 ∨ p = 2 ∨ p = 3 := by omega
      all_goals simp [n, Nfa.row] at hedge
      all_goals
        show q < 4
        omega
  obtain ⟨-, -, -, haccepts, -, -, hsize, -⟩ := ofNfa_numbers_reached_sets hn
  exact ⟨hn, hsize, haccepts⟩

end Dfa

end MaximalMunch
