import MaximalMunch.Proofs.Scan.Builder

/-!
# Lanes over a text

Behind a text, the lane of a definition is at the state that the automaton of the definition has
over that text.  So the lanes tell which definition matches the text first, and whether any text
that goes on from there can still match.
-/

namespace MaximalMunch

namespace Scanner

variable {s : Scanner} {w v : List Char}

/-- The first definition that matches a text. -/
def winner? (s : Scanner) (w : List Char) : Option Definition :=
  s.definitions.find? (·.dfa.accepts w)

/-- Whether some definition matches a text. -/
def Matches (s : Scanner) (w : List Char) : Prop :=
  ∃ d ∈ s.definitions, w ∈ d.language

/-- Whether some definition matches a text that begins like this. -/
def Viable (s : Scanner) (w : List Char) : Prop :=
  ∃ v, s.Matches (w ++ v)

theorem winner?_eq_none_iff : s.winner? w = none ↔ ¬ s.Matches w := by
  rw [winner?, List.find?_eq_none, Matches]
  simp only [not_exists, not_and]
  exact Iff.rfl

/-- The number of a definition is its index. -/
theorem getElem?_winner? (hs : Compiled s.definitions) {d : Definition}
    (hd : s.winner? w = some d) : s.definitions[d.id]? = some d := by
  obtain ⟨i, hi⟩ := List.mem_iff_getElem?.mp (List.mem_of_find?_eq_some hd)
  rwa [hs.id_eq hi]

theorem Matches.of_winner? {d : Definition} (hd : s.winner? w = some d) : s.Matches w := by
  by_contra hnone
  rw [winner?_eq_none_iff.mpr hnone] at hd
  cases hd

theorem Matches.viable (h : s.Matches w) : s.Viable w := ⟨[], by rwa [List.append_nil]⟩

theorem Viable.of_append (h : s.Viable (w ++ v)) : s.Viable w := by
  obtain ⟨v', hv'⟩ := h
  exact ⟨v ++ v', by rwa [← List.append_assoc]⟩

/-- The lanes once a text has been read. -/
def lanesAfter (s : Scanner) (w : List Char) : List Lane :=
  s.definitions.map fun d => ⟨d, ⟨d.dfa.after w⟩⟩

theorem advance_lane (d : Definition) (w : List Char) (c : Char) :
    Lane.advance ⟨d, ⟨d.dfa.after w⟩⟩ c = .ok ⟨d, ⟨d.dfa.after (w ++ [c])⟩⟩ := by
  rw [Dfa.after_snoc]
  cases hafter : d.dfa.after w with
  | none => rfl
  | some q => rfl

/-- No lane is advanced that is dead. -/
theorem advance_lanesAfter (s : Scanner) (w : List Char) (c : Char) :
    Attempt.advance (s.lanesAfter w) c = .ok (s.lanesAfter (w ++ [c])) := by
  unfold lanesAfter Attempt.advance
  induction s.definitions with
  | nil => rfl
  | cons d definitions ih =>
      rw [List.map_cons, List.mapM_cons, advance_lane, ok_bind, ih, ok_bind, List.map_cons]
      rfl

/-- All lanes are dead once no match is possible any more. -/
theorem all_isDead_iff (hs : Compiled s.definitions) :
    (s.lanesAfter w).all Lane.isDead = true ↔ ¬ s.Viable w := by
  -- the automata are trim, so a lane is dead only if its definition matches nothing from here
  have hdead : ∀ d ∈ s.definitions, d.dfa.after w = none ↔ ∀ v, w ++ v ∉ d.language := by
    intro d hd
    rw [← not_iff_not, not_forall_not]
    exact (hs.trim hd).after_ne_none_iff
  simp only [lanesAfter, List.all_map, List.all_eq_true, Function.comp_apply, Lane.isDead,
    Dfa.Run.isDead, Option.isNone_iff_eq_none]
  constructor
  · rintro h ⟨v, d, hd, hv⟩
    exact (hdead d hd).mp (h d hd) v hv
  · intro h d hd
    exact (hdead d hd).mpr fun v hv => h ⟨v, d, hd, hv⟩

/-- The first lane that accepts is that of the first definition that matches. -/
theorem improve_lanesAfter (s : Scanner) (w : List Char) (best : Option Match) (length : Nat)
    (pos : 0 < length) : Attempt.improve (s.lanesAfter w) best length pos =
      match s.winner? w with
      | some d => some ⟨length, d.id, pos⟩
      | none => best := by
  have hfind : (s.lanesAfter w).find? Lane.accepts =
      (s.winner? w).map fun d => ⟨d, ⟨d.dfa.after w⟩⟩ := by
    have haccepts : Lane.accepts ∘ (fun d : Definition => (⟨d, ⟨d.dfa.after w⟩⟩ : Lane)) =
        (·.dfa.accepts w) := by
      funext d
      exact (d.dfa.accepts_eq w).symm
    rw [lanesAfter, List.find?_map, haccepts]
    rfl
  rw [Attempt.improve, hfind]
  cases s.winner? w <;> rfl

end Scanner

/-! ## One step of an attempt -/

namespace Attempt

variable {s : Scanner} {w : List Char} {best : Option Match} {length : Nat} {tape rest : Tape}
  {c : Char}

theorem run_error {lanes : List Lane} {e : Error} (hnext : tape.next = .error e) :
    run lanes best length tape = .error e := by
  rw [run]
  split
  · next heq =>
      rw [hnext] at heq
      rw [Except.error.inj heq]
  · simp_all
  · simp_all

theorem run_end {lanes : List Lane} (hnext : tape.next = .ok (none, rest)) :
    run lanes best length tape = if h : length = 0 then .ok (.finished, rest)
      else .ok (conclude best length (Nat.pos_of_ne_zero h), rest) := by
  rw [run]
  split
  · simp_all
  · next heq =>
      rw [hnext] at heq
      obtain ⟨-, rfl⟩ := Prod.mk.inj (Except.ok.inj heq)
      rfl
  · simp_all

theorem run_next (s : Scanner) (w : List Char) (hnext : tape.next = .ok (some c, rest)) :
    run (s.lanesAfter w) best length tape =
      if (s.lanesAfter (w ++ [c])).all Lane.isDead then
        .ok (conclude best (length + 1) length.succ_pos, rest)
      else run (s.lanesAfter (w ++ [c]))
        (improve (s.lanesAfter (w ++ [c])) best (length + 1) length.succ_pos) (length + 1) rest := by
  rw [run]
  split
  · simp_all
  · simp_all
  · next heq =>
      rw [hnext] at heq
      obtain ⟨hc, rfl⟩ := Prod.mk.inj (Except.ok.inj heq)
      obtain rfl := Option.some.inj hc
      simp only [Scanner.advance_lanesAfter]

theorem run_viable (hs : Compiled s.definitions) (hnext : tape.next = .ok (some c, rest))
    (h : s.Viable (w ++ [c])) : run (s.lanesAfter w) best length tape =
      run (s.lanesAfter (w ++ [c]))
        (improve (s.lanesAfter (w ++ [c])) best (length + 1) length.succ_pos) (length + 1) rest := by
  rw [run_next s w hnext, if_neg]
  rw [Scanner.all_isDead_iff hs, not_not]
  exact h

theorem run_not_viable (hs : Compiled s.definitions) (hnext : tape.next = .ok (some c, rest))
    (h : ¬ s.Viable (w ++ [c])) : run (s.lanesAfter w) best length tape =
      .ok (conclude best (length + 1) length.succ_pos, rest) := by
  rw [run_next s w hnext, if_pos]
  rw [Scanner.all_isDead_iff hs]
  exact h

end Attempt

/-! ## One step of a scan -/

namespace Scanner

variable {s : Scanner} {position : Position} {count : Nat} {tape rest : Tape}

theorem scanFrom_error {e : Error} (hstep : s.step position count tape = .error e) :
    s.scanFrom position count tape = ⟨[], .error e⟩ := by
  rw [scanFrom]
  split <;> simp_all

theorem scanFrom_finished (hstep : s.step position count tape = .ok (.finished rest)) :
    s.scanFrom position count tape = ⟨[], .ok rest.source⟩ := by
  rw [scanFrom]
  split <;> simp_all

theorem scanFrom_span {text : List Char} {span : Span}
    (hstep : s.step position count tape = .ok (.span text span rest)) :
    s.scanFrom position count tape =
      let later := s.scanFrom (position.advance s.config.lineEnding text) (countBehind count span) rest
      { later with spans := span :: later.spans } := by
  rw [scanFrom]
  split <;> simp_all

end Scanner

end MaximalMunch
