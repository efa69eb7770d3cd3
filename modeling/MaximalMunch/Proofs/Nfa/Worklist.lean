import MaximalMunch.Proofs.Nfa.Path

/-!
# The closure with a work list

The closure of a set is computed in rounds.  It can also be computed with a list of the states whose
edges have not been followed yet: the state on top is taken off, its row is looked up, and the
targets that are found for the first time are put on top.  `worksOff_closure` says that every row
that is looked up exists, that the list becomes empty, and that the closure has been found then.
-/

namespace MaximalMunch.Nfa

variable {n : Nfa} {states found result : StateSet} {work rest targets : List Nat} {p q i : Nat}

/-- Puts a state on top of the list, if it is found for the first time. -/
def discover (found : StateSet × List Nat) (q : Nat) : StateSet × List Nat :=
  if q ∈ found.1 then found else (found.1.insert q, q :: found.2)

/-- The list is worked off, with the given states found in the end.  Only states that have a row are
taken off. -/
inductive WorksOff (n : Nfa) : StateSet × List Nat → StateSet → Prop where
  | done (found : StateSet) : WorksOff n (found, []) found
  | next {found : StateSet} {q : Nat} {rest : List Nat} {row : Row} {result : StateSet}
      (hrow : n.rows[q]? = some row)
      (hrest : WorksOff n (row.epsilon.toList.foldl discover (found, rest)) result) :
      WorksOff n (found, q :: rest) result

theorem WorksOff.unique {found : StateSet × List Nat} {result' : StateSet}
    (h : n.WorksOff found result) (h' : n.WorksOff found result') : result = result' := by
  induction h with
  | done found =>
      cases h' with
      | done => rfl
  | next hrow _ ih =>
      cases h' with
      | next hrow' hrest' =>
          rw [hrow] at hrow'
          rw [← Option.some.inj hrow'] at hrest'
          exact ih hrest'

theorem mem_foldl_discover : i ∈ (targets.foldl discover (found, rest)).1 ↔
    i ∈ found ∨ i ∈ targets := by
  induction targets generalizing found rest with
  | nil => simp
  | cons q targets ih =>
      rw [List.foldl_cons, discover]
      split
      · next hq =>
          rw [ih, List.mem_cons]
          constructor
          · rintro (hi | hi)
            · exact .inl hi
            · exact .inr (.inr hi)
          · rintro (hi | rfl | hi)
            · exact .inl hi
            · exact .inl hq
            · exact .inr hi
      · rw [ih, StateSet.mem_insert, List.mem_cons, or_assoc]

theorem mem_work_foldl_discover : i ∈ (targets.foldl discover (found, rest)).2 ↔
    i ∈ rest ∨ i ∈ targets ∧ i ∉ found := by
  induction targets generalizing found rest with
  | nil => simp
  | cons q targets ih =>
      rw [List.foldl_cons, discover]
      split
      · next hq =>
          rw [ih, List.mem_cons]
          constructor
          · rintro (hi | hi)
            · exact .inl hi
            · exact .inr ⟨.inr hi.1, hi.2⟩
          · rintro (hi | ⟨rfl | hi, hnew⟩)
            · exact .inl hi
            · exact absurd hq hnew
            · exact .inr ⟨hi, hnew⟩
      · next hq =>
          rw [ih, List.mem_cons, StateSet.mem_insert, List.mem_cons]
          constructor
          · rintro ((rfl | hi) | ⟨hi, hnew⟩)
            · exact .inr ⟨.inl rfl, hq⟩
            · exact .inl hi
            · exact .inr ⟨.inr hi, fun h => hnew (.inl h)⟩
          · rintro (hi | ⟨rfl | hi, hnew⟩)
            · exact .inl (.inr hi)
            · exact .inl (.inl rfl)
            · by_cases hi' : i = q
              · exact .inl (.inl hi')
              · exact .inr ⟨hi, fun h => h.elim hnew hi'⟩

theorem foldl_discover_of_known (hknown : ∀ q ∈ targets, q ∈ found) :
    targets.foldl discover (found, rest) = (found, rest) := by
  induction targets with
  | nil => rfl
  | cons q targets ih =>
      rw [List.forall_mem_cons] at hknown
      rw [List.foldl_cons, discover, if_pos hknown.1, ih hknown.2]

/-- What holds wherever the work stands: the edges of every state that is found and not on the list
have been followed. -/
structure Pending (n : Nfa) (states found : StateSet) (work : List Nat) : Prop where
  named : ∀ q ∈ states, q ∈ found
  sound : ∀ q ∈ found, q ∈ n.closure states
  listed : ∀ q ∈ work, q ∈ found
  followed : ∀ q ∈ found, q ∉ work → ∀ r ∈ (n.row q).epsilon, r ∈ found

theorem pending_start (n : Nfa) (states : StateSet) :
    n.Pending states states states.toList.reverse where
  named _ hq := hq
  sound _ hq := subset_closeFrom hq
  listed q hq := by simpa using hq
  followed q hq hwork := by simp [hq] at hwork

theorem Pending.next (hn : n.WellFormed) (h : n.Pending states found (q :: rest)) :
    n.Pending states ((n.row q).epsilon.toList.foldl discover (found, rest)).1
      ((n.row q).epsilon.toList.foldl discover (found, rest)).2 where
  named := by
    intro p hp
    exact mem_foldl_discover.mpr (.inl (h.named p hp))
  sound := by
    intro p hp
    rcases mem_foldl_discover.mp hp with hp | hp
    · exact h.sound p hp
    · have hq := h.sound q (h.listed q List.mem_cons_self)
      exact closure_closed hn hq (StateSet.mem_toList.mp hp)
  listed := by
    intro p hp
    rw [mem_foldl_discover]
    rcases mem_work_foldl_discover.mp hp with hp | hp
    · exact .inl (h.listed p (List.mem_cons_of_mem q hp))
    · exact .inr hp.1
  followed := by
    intro p hp hwork r hr
    rw [mem_work_foldl_discover, not_or, not_and_not_right] at hwork
    rw [mem_foldl_discover]
    by_cases hpq : p = q
    · -- the edges of the state on top are followed now
      rw [hpq] at hr
      exact .inr (StateSet.mem_toList.mpr hr)
    · have hfound : p ∈ found := by
        rcases mem_foldl_discover.mp hp with hp | hp
        · exact hp
        · exact hwork.2 hp
      refine .inl (h.followed p hfound ?_ r hr)
      rw [List.mem_cons, not_or]
      exact ⟨hpq, hwork.1⟩

theorem Pending.eq_closure (hn : n.WellFormed) (h : n.Pending states found []) :
    found = n.closure states := by
  apply StateSet.ext
  intro i
  constructor
  · exact h.sound i
  · intro hi
    rcases (mem_closure hn).mp hi with ⟨q, hq, hpath⟩
    exact hpath.mem_of_closed (fun p hp => h.followed p hp List.not_mem_nil) rfl (h.named q hq)

/-- Every turn finds a state that had not been found, or shortens the list. -/
theorem work_decreases (hlt : ∀ r ∈ targets, r < n.size) :
    Prod.Lex (· < ·) (· < ·)
      ((StateSet.below n.size \ (targets.foldl discover (found, rest)).1).mask,
        (targets.foldl discover (found, rest)).2.length)
      ((StateSet.below n.size \ found).mask, (q :: rest).length) := by
  by_cases hknown : ∀ r ∈ targets, r ∈ found
  · rw [foldl_discover_of_known hknown]
    exact .right _ (Nat.lt_succ_self _)
  · rw [not_forall₂] at hknown
    rcases hknown with ⟨r, hr, hnew⟩
    apply Prod.Lex.left
    -- what is left to be found is what was left without all that has been found by now
    have hleft : StateSet.below n.size \ (targets.foldl discover (found, rest)).1 =
        (StateSet.below n.size \ found) \ (targets.foldl discover (found, rest)).1 := by
      apply StateSet.ext
      intro i
      simp only [StateSet.mem_diff, mem_foldl_discover]
      tauto
    rw [hleft]
    exact StateSet.mask_diff_lt (StateSet.mem_diff.mpr ⟨StateSet.mem_below.mpr (hlt r hr), hnew⟩)
      (mem_foldl_discover.mpr (.inr hr))

theorem Pending.worksOff (hn : n.WellFormed) (hstates : ∀ q ∈ states, q < n.size)
    {found : StateSet} {work : List Nat} (h : n.Pending states found work) :
    n.WorksOff (found, work) (n.closure states) := by
  match work with
  | [] =>
      rw [← h.eq_closure hn]
      exact .done found
  | q :: rest =>
      have hq : q < n.size := closure_lt hn hstates q (h.sound q (h.listed q List.mem_cons_self))
      have hget : n.rows[q]? = some n.rows[q] := Array.getElem?_eq_getElem hq
      have hnext := h.next hn
      rw [row_eq hget] at hnext
      exact .next hget (hnext.worksOff hn hstates)
termination_by ((StateSet.below n.size \ found).mask, work.length)
decreasing_by
  apply work_decreases
  intro r hr
  have hedge : r ∈ (n.row q).on none := by
    rw [row_eq hget]
    exact StateSet.mem_toList.mp hr
  exact hn.target_lt hedge

/-- The order of the work does not matter: the states are put on the list in ascending order. -/
theorem worksOff_closure (hn : n.WellFormed) (hstates : ∀ q ∈ states, q < n.size) :
    n.WorksOff (states, states.toList.reverse) (n.closure states) :=
  (pending_start n states).worksOff hn hstates

/-- A set of states may be named by any list of its elements. -/
theorem checked_eq {names : List Nat} (hnames : ∀ q ∈ names, q < n.size) :
    n.checked names = .ok (.ofList names) := by
  rw [checked, if_pos]
  simpa using hnames

end MaximalMunch.Nfa
