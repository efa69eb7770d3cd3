import Mathlib.Data.List.Nodup
import MaximalMunch.Dfa.Subset
import MaximalMunch.Proofs.Dfa.Run
import MaximalMunch.Proofs.Nfa.Path

/-!
# The subset construction keeps the language

The table of the construction is `Valid` as long as the sets in it are different from each other
and every row that is finished has, on each character, the number of the set that is read next.
No set is empty and none goes beyond the states of the automaton, so there is no room for more
than `2 ^ n - 1` sets and the construction ends with all rows finished.  A run over a word is then
in the state that has the number of `n.reached w`, and dead if that set is empty.
-/

namespace MaximalMunch

namespace Nfa

variable {n : Nfa}

theorem mem_foldl_departures {c : Char} {i : Nat} (states : List Nat) (found : SymbolMap StateSet) :
    i ∈ ((states.foldl (fun found q => SymbolMap.mergeWith (· ∪ ·) (n.row q).symbols found)
        found).get? c).getD ∅ ↔
      i ∈ (found.get? c).getD ∅ ∨ ∃ q ∈ states, i ∈ (n.row q).targets c := by
  induction states generalizing found with
  | nil => simp
  | cons q states ih =>
      rw [List.foldl_cons, ih, SymbolMap.get?_mergeWith]
      have htargets : (n.row q).targets c = ((n.row q).symbols.get? c).getD ∅ := rfl
      cases hrow : (n.row q).symbols.get? c with
      | none => simp [htargets, hrow]
      | some targets =>
          cases found.get? c <;> simp [htargets, hrow, or_assoc, or_left_comm]

theorem getD_departures (n : Nfa) (states : StateSet) (c : Char) :
    ((n.departures states).get? c).getD ∅ = n.move states c := by
  apply StateSet.ext
  intro i
  rw [departures, mem_foldl_departures, mem_move]
  simp

theorem closure_empty (hn : n.WellFormed) : n.closure ∅ = ∅ := by
  apply StateSet.ext
  intro i
  simp [mem_closure hn]

theorem read_empty (hn : n.WellFormed) (c : Char) : n.read ∅ c = ∅ := by
  apply StateSet.ext
  intro i
  simp [read, mem_closure hn]

theorem move_lt (hn : n.WellFormed) {states : StateSet} {c : Char} {q : Nat}
    (hq : q ∈ n.move states c) : q < n.size := by
  obtain ⟨p, -, hedge⟩ := mem_move.mp hq
  exact hn.target_lt (o := some c) hedge

end Nfa

namespace Subset

variable {n : Nfa}

theorem close_closures (hn : n.WellFormed) {states : StateSet} (hlt : ∀ q ∈ states, q < n.size) :
    close (closures n) states = n.closure states := by
  have hsingle : ∀ q < n.size, (closures n).getD q ∅ = n.closure (.singleton q) := by
    intro q hq
    simp [closures, Array.getD_eq_getD_getElem?, hq]
  apply StateSet.ext
  intro i
  rw [close, StateSet.mem_foldl_union, Nfa.mem_closure hn]
  constructor
  · rintro (hi | ⟨q, hq, hi⟩)
    · exact absurd hi (StateSet.not_mem_empty i)
    · rw [StateSet.mem_toList] at hq
      rw [hsingle q (hlt q hq), Nfa.mem_closure hn] at hi
      obtain ⟨q', hq', hpath⟩ := hi
      rw [StateSet.mem_singleton.mp hq'] at hpath
      exact ⟨q, hq, hpath⟩
  · rintro ⟨q, hq, hpath⟩
    refine .inr ⟨q, StateSet.mem_toList.mpr hq, ?_⟩
    rw [hsingle q (hlt q hq), Nfa.mem_closure hn]
    exact ⟨q, StateSet.mem_singleton.mpr rfl, hpath⟩

/-- The construction begins with the closure of the start state, and its fuel is the number of all
sets of states. -/
theorem table_eq (hn : n.WellFormed) :
    table n = explore n (closures n) (2 ^ n.size) ⟨#[n.closure (.singleton n.start)], #[]⟩ := by
  have hstart : ∀ q ∈ StateSet.singleton n.start, q < n.size := by
    intro q hq
    rw [StateSet.mem_singleton.mp hq]
    exact hn.start_lt
  rw [table, close_closures hn hstart, Nat.one_shiftLeft]

/-! ## The sets that have numbers -/

/-- What holds of the sets found so far. -/
structure Found (n : Nfa) (sets : Array StateSet) : Prop where
  start : sets[0]? = some (n.closure (.singleton n.start))
  nonempty : ∀ {id : Nat} {states}, sets[id]? = some states → states ≠ ∅
  below : ∀ {id : Nat} {states}, sets[id]? = some states → ∀ q ∈ states, q < n.size
  unique : ∀ {id id' : Nat} {states}, sets[id]? = some states → sets[id']? = some states → id = id'

/-- Numbers once given are kept. -/
def Extends (sets sets' : Array StateSet) : Prop :=
  ∀ (id : Nat) states, sets[id]? = some states → sets'[id]? = some states

/-- There are fewer different sets than masks. -/
theorem Found.size_lt {sets : Array StateSet} (hfound : Found n sets) : sets.size < 2 ^ n.size := by
  -- different sets have different masks
  have hnodup : (sets.toList.map StateSet.mask).Nodup := by
    rw [List.nodup_iff_injective_getElem]
    rintro ⟨i, hi⟩ ⟨j, hj⟩ hij
    simp only [List.length_map, Array.length_toList] at hi hj
    simp only [List.getElem_map, Array.getElem_toList] at hij
    have hsame : sets[i] = sets[j] := by
      cases hsi : sets[i]
      cases hsj : sets[j]
      rw [hsi, hsj] at hij
      exact congrArg StateSet.mk hij
    have hi' : sets[i]? = some sets[j] := by rw [Array.getElem?_eq_getElem hi, hsame]
    exact Fin.ext (hfound.unique hi' (Array.getElem?_eq_getElem hj))
  -- the mask zero is that of the empty set, which is not among them
  have hsubset : sets.toList.map StateSet.mask ⊆ List.range' 1 (2 ^ n.size - 1) := by
    intro mask hmask
    obtain ⟨states, hstates, rfl⟩ := List.mem_map.mp hmask
    obtain ⟨id, hid⟩ := List.mem_iff_getElem?.mp hstates
    rw [Array.getElem?_toList] at hid
    have hlt := StateSet.forall_mem_lt_iff.mp (hfound.below hid)
    have hne : states.mask ≠ 0 := by
      intro hzero
      apply hfound.nonempty hid
      cases states
      exact congrArg StateSet.mk hzero
    rw [List.mem_range'_1]
    omega
  have hlength := (hnodup.subperm hsubset).length_le
  have hpos : 0 < 2 ^ n.size := Nat.two_pow_pos n.size
  rw [List.length_map, Array.length_toList, List.length_range'] at hlength
  omega

theorem Extends.refl (sets : Array StateSet) : Extends sets sets := fun _ _ hid => hid

theorem Extends.trans {first second third : Array StateSet} (h : Extends first second)
    (h' : Extends second third) : Extends first third :=
  fun id states hid => h' id states (h id states hid)

theorem extends_push (sets : Array StateSet) (states : StateSet) :
    Extends sets (sets.push states) := by
  intro id states' hid
  have hlt : id < sets.size := (Array.getElem?_eq_some_iff.mp hid).1
  rw [Array.getElem?_push, if_neg (by omega), hid]

theorem Found.push {sets : Array StateSet} {states : StateSet} (hfound : Found n sets)
    (hne : states ≠ ∅) (hlt : ∀ q ∈ states, q < n.size) (hnew : states ∉ sets) :
    Found n (sets.push states) where
  start := extends_push sets states 0 _ hfound.start
  nonempty := by
    intro id states' hid
    rw [Array.getElem?_push] at hid
    split at hid
    · rwa [← Option.some.inj hid]
    · exact hfound.nonempty hid
  below := by
    intro id states' hid
    rw [Array.getElem?_push] at hid
    split at hid
    · rwa [← Option.some.inj hid]
    · exact hfound.below hid
  unique := by
    intro id id' states' hid hid'
    rw [Array.getElem?_push] at hid hid'
    split at hid <;> split at hid'
    · omega
    · rw [← Option.some.inj hid] at hid'
      exact absurd (Array.mem_of_getElem? hid') hnew
    · rw [← Option.some.inj hid'] at hid
      exact absurd (Array.mem_of_getElem? hid) hnew
    · exact hfound.unique hid hid'

theorem getElem?_of_idxOf? {sets : Array StateSet} {states : StateSet} {id : Nat}
    (hid : sets.idxOf? states = some id) : sets[id]? = some states := by
  obtain ⟨index, hindex, rfl⟩ := Option.map_eq_some_iff.mp hid
  have hget := (Array.finIdxOf?_eq_some_iff.mp hindex).1
  rw [Array.getElem?_eq_getElem index.isLt]
  exact congrArg some hget

/-! ## The row of a set -/

/-- What holds once the given departures have been linked, one after the other. -/
structure Linked (n : Nfa) (departures : List (Char × StateSet)) (old sets : Array StateSet)
    (row : SymbolMap Nat) : Prop where
  found : Found n sets
  kept : Extends old sets
  sound : ∀ {c id}, row.get? c = some id →
    ∃ targets, (c, targets) ∈ departures ∧ sets[id]? = some (n.closure targets)
  complete : ∀ {c targets}, (c, targets) ∈ departures → row.get? c = none →
    n.closure targets = ∅

section Link

variable {departures : List (Char × StateSet)} {old sets : Array StateSet} {row : SymbolMap Nat}
  {c : Char} {targets : StateSet}

/-- A departure into the empty set leaves no trace. -/
theorem Linked.skip (hlinked : Linked n departures old sets row)
    (hempty : n.closure targets = ∅) : Linked n (departures ++ [(c, targets)]) old sets row := by
  refine ⟨hlinked.found, hlinked.kept, ?_, ?_⟩
  · intro d id hget
    obtain ⟨targets', hmem, hid⟩ := hlinked.sound hget
    exact ⟨targets', List.mem_append_left _ hmem, hid⟩
  · intro d targets' hmem hget
    rcases List.mem_append.mp hmem with hmem | hmem
    · exact hlinked.complete hmem hget
    · obtain ⟨-, rfl⟩ := Prod.mk.inj (List.mem_singleton.mp hmem)
      exact hempty

theorem Linked.insert {sets' : Array StateSet} {id : Nat} (hlinked : Linked n departures old sets row)
    (hfound : Found n sets') (hkept : Extends sets sets')
    (hid : sets'[id]? = some (n.closure targets)) :
    Linked n (departures ++ [(c, targets)]) old sets' (row.insert c id) := by
  refine ⟨hfound, hlinked.kept.trans hkept, ?_, ?_⟩
  · intro d id' hget
    rw [SymbolMap.get?_insert] at hget
    split at hget
    · next hd =>
        rw [← Option.some.inj hget, hd]
        exact ⟨targets, by simp, hid⟩
    · obtain ⟨targets', hmem, hid'⟩ := hlinked.sound hget
      exact ⟨targets', List.mem_append_left _ hmem, hkept _ _ hid'⟩
  · intro d targets' hmem hget
    rw [SymbolMap.get?_insert] at hget
    split at hget
    · cases hget
    · next hd =>
        rcases List.mem_append.mp hmem with hmem | hmem
        · exact hlinked.complete hmem hget
        · exact absurd (Prod.mk.inj (List.mem_singleton.mp hmem)).1 hd

theorem Linked.snoc (hn : n.WellFormed) (hlinked : Linked n departures old sets row)
    (hlt : ∀ q ∈ targets, q < n.size) :
    Linked n (departures ++ [(c, targets)]) old (link (closures n) (sets, row) (c, targets)).1
      (link (closures n) (sets, row) (c, targets)).2 := by
  simp only [link, close_closures hn hlt]
  by_cases hempty : (n.closure targets).isEmpty = true
  · rw [if_pos hempty]
    exact hlinked.skip (StateSet.isEmpty_iff.mp hempty)
  · rw [if_neg hempty]
    cases hindex : sets.idxOf? (n.closure targets) with
    | some id => exact hlinked.insert hlinked.found (.refl sets) (getElem?_of_idxOf? hindex)
    | none =>
        -- the set is new, and its number is the next one
        have hne : n.closure targets ≠ ∅ := fun h => hempty (StateSet.isEmpty_iff.mpr h)
        have hclosure : ∀ q ∈ n.closure targets, q < n.size := by
          intro q hq
          obtain ⟨p, hp, hpath⟩ := (Nfa.mem_closure hn).mp hq
          exact hpath.target_lt hn (hlt p hp)
        have hnew : n.closure targets ∉ sets := Array.idxOf?_eq_none_iff.mp hindex
        exact hlinked.insert (hlinked.found.push hne hclosure hnew) (extends_push _ _)
          Array.getElem?_push_size

end Link

theorem linked_foldl (hn : n.WellFormed) {sets : Array StateSet} (hfound : Found n sets)
    (departures : List (Char × StateSet))
    (hlt : ∀ c targets, (c, targets) ∈ departures → ∀ q ∈ targets, q < n.size) :
    Linked n departures sets (departures.foldl (link (closures n)) (sets, ∅)).1
      (departures.foldl (link (closures n)) (sets, ∅)).2 := by
  -- the fold works from the left, so the departure that was linked last comes off first
  induction departures using List.reverseRecOn with
  | nil =>
      refine ⟨hfound, .refl sets, ?_, ?_⟩
      · intro c id hget
        cases hget
      · intro c targets hmem
        cases hmem
  | append_singleton departures departure ih =>
      rw [List.foldl_append]
      exact (ih fun c targets hmem => hlt c targets (List.mem_append_left _ hmem)).snoc hn
        (hlt departure.1 departure.2 (by simp))

/-- A row that has, on each character, the number of the set that is read next. -/
structure RowOf (n : Nfa) (sets : Array StateSet) (states : StateSet) (row : SymbolMap Nat) :
    Prop where
  number : ∀ {c id}, row.get? c = some id → sets[id]? = some (n.read states c)
  empty : ∀ {c}, row.get? c = none → n.read states c = ∅

theorem RowOf.mono {sets sets' : Array StateSet} {states : StateSet} {row : SymbolMap Nat}
    (hrow : RowOf n sets states row) (hkept : Extends sets sets') : RowOf n sets' states row where
  number hget := hkept _ _ (hrow.number hget)
  empty := hrow.empty

theorem rowOf_foldl (hn : n.WellFormed) {sets : Array StateSet} (hfound : Found n sets)
    (states : StateSet) :
    let linked := (n.departures states).entries.foldl (link (closures n)) (sets, ∅)
    Found n linked.1 ∧ Extends sets linked.1 ∧ RowOf n linked.1 states linked.2 := by
  -- every character has one departure, to all states that it is read into
  have htargets {c targets} (hmem : (c, targets) ∈ (n.departures states).entries) :
      targets = n.move states c := by
    rw [← Nfa.getD_departures, SymbolMap.mem_entries_iff.mp hmem, Option.getD_some]
  have hlinked := linked_foldl hn hfound (n.departures states).entries fun c targets hmem q hq => by
    rw [htargets hmem] at hq
    exact Nfa.move_lt hn hq
  refine ⟨hlinked.found, hlinked.kept, ?_, ?_⟩
  · intro c id hget
    obtain ⟨targets, hmem, hid⟩ := hlinked.sound hget
    rwa [htargets hmem] at hid
  · intro c hget
    rw [Nfa.read, ← Nfa.getD_departures]
    cases hdeparture : (n.departures states).get? c with
    | none => exact Nfa.closure_empty hn
    | some targets => exact hlinked.complete (SymbolMap.mem_entries_iff.mpr hdeparture) hget

/-! ## The whole table -/

/-- What holds wherever the construction stands. -/
structure Valid (n : Nfa) (table : Table) : Prop where
  found : Found n table.sets
  rows : ∀ {id : Nat} {row}, table.rows[id]? = some row →
    ∃ states, table.sets[id]? = some states ∧ RowOf n table.sets states row

theorem Valid.size_le {table : Table} (hvalid : Valid n table) :
    table.rows.size ≤ table.sets.size := by
  by_contra hlt
  have hrow : table.rows[table.sets.size]? = some table.rows[table.sets.size] :=
    Array.getElem?_eq_getElem (by omega)
  obtain ⟨states, hstates, -⟩ := hvalid.rows hrow
  rw [Array.getElem?_size] at hstates
  cases hstates

/-- Every step finishes one row, so the fuel does not run out before all rows are finished. -/
theorem explore_valid (hn : n.WellFormed) {fuel : Nat} {table : Table} (hvalid : Valid n table)
    (hfuel : 2 ^ n.size ≤ fuel + table.rows.size) :
    Valid n (explore n (closures n) fuel table) ∧
      (explore n (closures n) fuel table).rows.size =
        (explore n (closures n) fuel table).sets.size := by
  induction fuel generalizing table with
  | zero =>
      -- there would be more rows than sets to number
      have hle := hvalid.size_le
      have hlt := hvalid.found.size_lt
      omega
  | succ fuel ih =>
      rw [explore]
      cases hnext : table.sets[table.rows.size]? with
      | none =>
          have hle := hvalid.size_le
          have hge := Array.getElem?_eq_none_iff.mp hnext
          exact ⟨hvalid, Nat.le_antisymm hle hge⟩
      | some states =>
          -- one more row, and rows finished before keep their numbers as the sets extend
          obtain ⟨hfound, hkept, hrow⟩ := rowOf_foldl hn hvalid.found states
          apply ih
          · refine ⟨hfound, ?_⟩
            intro id row hget
            rw [Array.getElem?_push] at hget
            split at hget
            · next hid =>
                rw [← Option.some.inj hget, hid]
                exact ⟨states, hkept _ _ hnext, hrow⟩
            · obtain ⟨states', hstates', hrow'⟩ := hvalid.rows hget
              exact ⟨states', hkept _ _ hstates', hrow'.mono hkept⟩
          · rw [Array.size_push]
            omega

theorem closure_start_ne_empty (hn : n.WellFormed) : n.closure (.singleton n.start) ≠ ∅ := by
  have hstart : n.start ∈ n.closure (.singleton n.start) :=
    (Nfa.mem_closure hn).mpr ⟨n.start, StateSet.mem_singleton.mpr rfl, .refl _⟩
  exact StateSet.ne_empty_of_mem hstart

theorem table_valid (hn : n.WellFormed) :
    Valid n (table n) ∧ (table n).rows.size = (table n).sets.size := by
  have hget : ∀ {id : Nat} {states}, #[n.closure (.singleton n.start)][id]? = some states →
      id = 0 ∧ states = n.closure (.singleton n.start) := by
    intro id states hid
    rw [Array.getElem?_singleton] at hid
    split at hid
    · next hzero => exact ⟨hzero, (Option.some.inj hid).symm⟩
    · cases hid
  rw [table_eq hn]
  apply explore_valid hn
  · refine ⟨⟨rfl, ?_, ?_, ?_⟩, ?_⟩
    · intro id states hid
      rw [(hget hid).2]
      exact closure_start_ne_empty hn
    · intro id states hid q hq
      rw [(hget hid).2] at hq
      exact Nfa.reached_lt hn (w := []) hq
    · intro id id' states hid hid'
      rw [(hget hid).1, (hget hid').1]
    · intro id row hrow
      cases hrow
  · exact Nat.le_add_right _ _

/-- The state of a run over a word has the number of the set of states that the word reaches. -/
theorem after_ofNfa (hn : n.WellFormed) (w : List Char) :
    match (Dfa.ofNfa n).after w with
    | none => n.reached w = ∅
    | some id => (table n).sets[id]? = some (n.reached w) := by
  obtain ⟨hvalid, hsize⟩ := table_valid hn
  induction w using List.reverseRecOn with
  | nil => exact hvalid.found.start
  | append_singleton w c ih =>
      rw [Dfa.after_snoc, Nfa.reached_snoc]
      cases hafter : (Dfa.ofNfa n).after w with
      | none =>
          rw [hafter] at ih
          show n.read (n.reached w) c = ∅
          rw [show n.reached w = ∅ from ih, Nfa.read_empty hn]
      | some id =>
          rw [hafter] at ih
          -- all rows are finished, and the row of this number is that of the set
          have hlt : id < (table n).sets.size := (Array.getElem?_eq_some_iff.mp ih).1
          obtain ⟨row, hrow⟩ : ∃ row, (table n).rows[id]? = some row :=
            ⟨_, Array.getElem?_eq_getElem (by omega)⟩
          obtain ⟨states, hstates, hrowOf⟩ := hvalid.rows hrow
          obtain rfl := Option.some.inj (hstates.symm.trans ih)
          have hnext : (Dfa.ofNfa n).next? id c = row.get? c := by
            show ((table n).rows.getD id ∅).get? c = row.get? c
            rw [Array.getD_eq_getD_getElem?, hrow, Option.getD_some]
          rw [Option.bind_some, hnext]
          cases hget : row.get? c with
          | none => exact hrowOf.empty hget
          | some id' => exact hrowOf.number hget

end Subset

namespace Dfa

variable {n : Nfa}

/-- A run is alive as long as some path spells what has been read. -/
theorem after_ofNfa_eq_none_iff (hn : n.WellFormed) (w : List Char) :
    (ofNfa n).after w = none ↔ n.reached w = ∅ := by
  have hafter := Subset.after_ofNfa hn w
  cases hstate : (ofNfa n).after w with
  | none =>
      rw [hstate] at hafter
      exact iff_of_true rfl hafter
  | some id =>
      rw [hstate] at hafter
      have hne := (Subset.table_valid hn).1.found.nonempty hafter
      exact iff_of_false (Option.some_ne_none id) hne

theorem isFinal_ofNfa {id : Nat} {states : StateSet}
    (hid : (Subset.table n).sets[id]? = some states) :
    (ofNfa n).isFinal id = true ↔ ∃ q ∈ states, q ∈ n.finals := by
  have hlt : id < (Subset.table n).sets.size := (Array.getElem?_eq_some_iff.mp hid).1
  have hget : (Subset.table n).sets.getD id ∅ = states := by
    rw [Array.getD_eq_getD_getElem?, hid, Option.getD_some]
  simp only [isFinal, ofNfa, decide_eq_true_eq, StateSet.mem_ofList, List.mem_filter,
    List.mem_range, hget, hlt, true_and, StateSet.meets, Bool.not_eq_true']
  constructor
  · intro hmeets
    obtain ⟨q, hq⟩ := StateSet.exists_mem_of_not_isEmpty (Bool.not_eq_true _ ▸ hmeets)
    exact ⟨q, (StateSet.mem_inter.mp hq).1, (StateSet.mem_inter.mp hq).2⟩
  · rintro ⟨q, hq, hfinal⟩
    by_contra hempty
    rw [Bool.not_eq_false, StateSet.isEmpty_iff] at hempty
    exact StateSet.ne_empty_of_mem (StateSet.mem_inter.mpr ⟨hq, hfinal⟩) hempty

theorem language_ofNfa (hn : n.WellFormed) : (ofNfa n).language = n.language := by
  ext w
  rw [mem_language, Nfa.mem_language]
  have hafter := Subset.after_ofNfa hn w
  constructor
  · rintro ⟨id, hid, hfinal⟩
    rw [Option.mem_def.mp hid] at hafter
    obtain ⟨q, hq, hqf⟩ := (isFinal_ofNfa hafter).mp hfinal
    exact ⟨q, hqf, (Nfa.mem_reached hn).mp hq⟩
  · rintro ⟨q, hqf, hpath⟩
    have hq : q ∈ n.reached w := (Nfa.mem_reached hn).mpr hpath
    cases hstate : (ofNfa n).after w with
    | none =>
        rw [(after_ofNfa_eq_none_iff hn w).mp hstate] at hq
        exact absurd hq (StateSet.not_mem_empty q)
    | some id =>
        rw [hstate] at hafter
        exact ⟨id, rfl, (isFinal_ofNfa hafter).mpr ⟨q, hq, hqf⟩⟩

end Dfa

end MaximalMunch
