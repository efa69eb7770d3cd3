import MaximalMunch.Proofs.Scan.Attempt

/-!
# Scans turn by turn

A scan recurses on spans, and an attempt on the characters that it reads.  Here both are one loop,
each turn of which reads once: either the attempt goes on, or what it has found is committed and the
next one starts.  The loop has no counter that would bound it; a character may be read again after
every span in front of it, and a report of the end of input need not be the last.  `Moment.budget`
bounds it all the same.  `InOrder` is what the loop relies on in front of every turn, and
`InOrder.course` says from it all that a turn can do.
-/

namespace MaximalMunch

/-- A scan in front of a read. -/
structure Moment where
  lanes : List Lane
  /-- The longest match that the attempt has found. -/
  best : Option Match
  /-- The number of characters that the attempt has read. -/
  length : Nat
  tape : Tape
  /-- The position of the span to be committed next, behind `count` tokens. -/
  position : Position
  count : Nat

/-- What a turn of the loop makes of a moment. -/
inductive Turn where
  /-- There is no more text. -/
  | finished (source : Source)
  /-- A character is read, and the attempt goes on. -/
  | reads (m : Moment)
  /-- A span is committed, and the next attempt starts. -/
  | commits (span : Span) (m : Moment)

/-- A bound for the turns that are left: a turn leaves less uncommitted or, if it commits nothing,
less to be read by the attempt. -/
def Moment.budget (m : Moment) : Nat := m.tape.size * m.tape.size + m.tape.unread

namespace Scanner

/-- The start of an attempt. -/
def moment (s : Scanner) (position : Position) (count : Nat) (tape : Tape) : Moment :=
  ⟨s.lanes, none, 0, tape, position, count⟩

/-- The start of a scan. -/
def firstMoment (s : Scanner) (source : Source) : Moment :=
  s.moment {} 0 (.ofSource s.config.lookahead source)

/-- What comes behind a step. -/
def resume (s : Scanner) (position : Position) (count : Nat) : Step → Turn
  | .finished tape => .finished tape.source
  | .span text span tape =>
    .commits span
      (s.moment (position.advance s.config.lineEnding text) (countBehind count span) tape)

/-- Ends an attempt with a verdict. -/
def resolve (s : Scanner) (m : Moment) (verdict : Verdict) (tape : Tape) : Except Error Turn :=
  (s.settle m.position m.count verdict tape).map (s.resume m.position m.count)

/-- A turn of the loop. -/
def turn (s : Scanner) (m : Moment) : Except Error Turn := do
  match ← m.tape.next with
  | (none, tape) =>
    if h : m.length = 0 then s.resolve m .finished tape
    else s.resolve m (Attempt.conclude m.best m.length (Nat.pos_of_ne_zero h)) tape
  | (some c, tape) =>
    let lanes ← Attempt.advance m.lanes c
    if lanes.all Lane.isDead then
      s.resolve m (Attempt.conclude m.best (m.length + 1) m.length.succ_pos) tape
    else
      return .reads ⟨lanes, Attempt.improve lanes m.best (m.length + 1) m.length.succ_pos,
        m.length + 1, tape, m.position, m.count⟩

/-- A number of turns from one moment to another, which commit the given spans. -/
inductive Turns (s : Scanner) : Moment → Nat → List Span → Moment → Prop where
  | none (m : Moment) : Turns s m 0 [] m
  | reads {m middle last : Moment} {n : Nat} {spans : List Span}
      (hturn : s.turn m = .ok (.reads middle)) (hrest : Turns s middle n spans last) :
      Turns s m (n + 1) spans last
  | commits {m middle last : Moment} {n : Nat} {span : Span} {spans : List Span}
      (hturn : s.turn m = .ok (.commits span middle)) (hrest : Turns s middle n spans last) :
      Turns s m (n + 1) (span :: spans) last

variable {s : Scanner} {m middle last : Moment} {n : Nat} {spans : List Span}

/-! ## The loop is the scan -/

/-- The turns that read are an attempt, and the turn behind them makes of it what a step does. -/
theorem exists_turns_run (s : Scanner) (m : Moment) : ∃ n last, s.Turns m n [] last ∧
    s.turn last = Attempt.run m.lanes m.best m.length m.tape >>= fun result =>
      s.resolve m result.1 result.2 := by
  obtain ⟨lanes, best, length, tape, position, count⟩ := m
  simp only
  fun_induction Attempt.run lanes best length tape with
  | case1 lanes best length tape e hnext =>
      refine ⟨0, _, .none _, ?_⟩
      simp only [turn, hnext, error_bind]
  | case2 lanes best tape rest hnext =>
      refine ⟨0, _, .none _, ?_⟩
      simp only [turn, hnext, ok_bind, dif_pos]
  | case3 lanes best length tape rest hnext hzero =>
      refine ⟨0, _, .none _, ?_⟩
      simp only [turn, hnext, ok_bind, dif_neg hzero]
  | case4 lanes best length tape c rest hnext e hadvance =>
      refine ⟨0, _, .none _, ?_⟩
      simp only [turn, hnext, ok_bind, hadvance, error_bind]
  | case5 lanes best length tape c rest hnext advanced hadvance hdead =>
      refine ⟨0, _, .none _, ?_⟩
      simp only [turn, hnext, ok_bind, hadvance, if_pos hdead]
  | case6 lanes best length tape c rest hnext advanced hadvance hdead ih =>
      obtain ⟨n, last, hturns, hlast⟩ := ih
      refine ⟨n + 1, last, .reads ?_ hturns, hlast⟩
      simp only [turn, hnext, ok_bind, hadvance, if_neg hdead]
      rfl

theorem Turns.append {n' : Nat} {spans' : List Span} (h : s.Turns m n spans middle)
    (h' : s.Turns middle n' spans' last) : s.Turns m (n + n') (spans ++ spans') last := by
  induction h with
  | none => rwa [Nat.zero_add]
  | reads hturn _ ih =>
      rw [Nat.succ_add]
      exact .reads hturn (ih h')
  | commits hturn _ ih =>
      rw [Nat.succ_add]
      exact .commits hturn (ih h')

theorem exists_turns_step (s : Scanner) (position : Position) (count : Nat) (tape : Tape) :
    ∃ n last, s.Turns (s.moment position count tape) n [] last ∧
      s.turn last = (s.step position count tape).map (s.resume position count) := by
  obtain ⟨n, last, hturns, hlast⟩ := s.exists_turns_run (s.moment position count tape)
  refine ⟨n, last, hturns, hlast.trans ?_⟩
  rw [step_eq]
  simp only [moment]
  cases Attempt.run s.lanes none 0 tape <;> rfl

/-- The turns of a scan commit its spans, and the one behind them ends the way the scan does. -/
theorem exists_turns_scanFrom (s : Scanner) (position : Position) (count : Nat) (tape : Tape) :
    ∃ n last, s.Turns (s.moment position count tape) n (s.scanFrom position count tape).spans last ∧
      s.turn last = (s.scanFrom position count tape).outcome.map .finished := by
  fun_induction scanFrom s position count tape with
  | case1 position count tape e hstep =>
      obtain ⟨n, last, hturns, hlast⟩ := s.exists_turns_step position count tape
      rw [hstep] at hlast
      exact ⟨n, last, hturns, hlast⟩
  | case2 position count tape rest hstep =>
      obtain ⟨n, last, hturns, hlast⟩ := s.exists_turns_step position count tape
      rw [hstep] at hlast
      exact ⟨n, last, hturns, hlast⟩
  | case3 position count tape text span rest hstep later ih =>
      obtain ⟨n, middle, hturns, hmiddle⟩ := s.exists_turns_step position count tape
      obtain ⟨n', last, hlater, hlast⟩ := ih
      rw [hstep] at hmiddle
      exact ⟨n + (n' + 1), last, hturns.append (.commits hmiddle hlater), hlast⟩

end Scanner

/-! ## What a read fails with -/

namespace Source

variable {source : Source} {e : Error}

theorem readByte_error (h : readByte source = .error e) :
    ∃ fault, e = .sourceUnavailable fault := by
  fun_induction readByte source with
  | case1 => cases h
  | case2 => cases h
  | case3 => cases h
  | case4 => cases h
  | case5 tail ih => exact ih h
  | case6 message tail => exact ⟨_, (Except.error.inj h).symm⟩

theorem readBytes_error {count : Nat} (h : readBytes count source = .error e) :
    ∃ fault, e = .sourceUnavailable fault := by
  induction count generalizing source with
  | zero => cases h
  | succ count ih =>
      rcases bind_eq_error.mp h with hbyte | ⟨⟨_ | b, middle⟩, -, h⟩
      · exact readByte_error hbyte
      · exact ⟨_, (Except.error.inj h).symm⟩
      · rcases bind_eq_error.mp h with hothers | ⟨_, -, h⟩
        · exact ih hothers
        · cases h

theorem next_error (h : source.next = .error e) : ∃ fault, e = .sourceUnavailable fault := by
  rcases bind_eq_error.mp h with hbyte | ⟨⟨_ | first, middle⟩, -, h⟩
  · exact readByte_error hbyte
  · cases h
  · simp only at h
    split at h
    · exact ⟨_, (Except.error.inj h).symm⟩
    · rcases bind_eq_error.mp h with hothers | ⟨_, -, h⟩
      · exact readBytes_error hothers
      · split at h
        · exact ⟨_, (Except.error.inj h).symm⟩
        · cases h

end Source

namespace Tape

variable {t rest : Tape} {e : Error} {text : List Char} {count : Nat}

/-- No promise is broken by a read. -/
theorem next_error (h : t.next = .error e) :
    (∃ fault, e = .sourceUnavailable fault) ∨ e = .lookaheadExceeded t.capacity := by
  obtain ⟨taken, ahead, capacity, source⟩ := t
  cases ahead with
  | cons c ahead => cases h
  | nil =>
      simp only [next] at h
      split at h
      · next hsource =>
          obtain rfl := Except.error.inj h
          exact .inl (Source.next_error hsource)
      · cases h
      · split at h
        · exact .inr (Except.error.inj h).symm
        · cases h

theorem length_held_commit (h : t.commit count = .ok (text, rest)) :
    rest.held.length + count = t.held.length := by
  unfold commit at h
  split at h
  · obtain ⟨rfl, rfl⟩ := Prod.mk.inj (Except.ok.inj h)
    simp only [held, List.length_append, List.length_reverse, List.length_take]
    omega
  · cases h

end Tape

/-! ## What a turn can do -/

namespace Scanner

open Attempt

variable {s : Scanner} {m m' : Moment} {n k : Nat} {span : Span} {spans : List Span}
  {position : Position} {count : Nat} {tape rest : Tape} {source : Source} {verdict : Verdict}

/-- A span that is committed takes at least one character off the tape. -/
theorem Commits.shrinks {w : List Char} (h : s.Commits position count tape verdict (.span w span rest)) :
    rest.taken = [] ∧ rest.source = tape.source ∧ rest.capacity = tape.capacity ∧
      rest.held.length < tape.held.length ∧ rest.size < tape.size := by
  have hcommitted {length : Nat} {last : Tape} (hpos : 0 < length)
      (hcommit : tape.commit length = .ok (w, last)) :
      last.rewind.source = tape.source ∧ last.rewind.capacity = tape.capacity ∧
        last.rewind.held.length < tape.held.length ∧ last.rewind.size < tape.size := by
    obtain ⟨-, -, hsource, hcapacity⟩ := Tape.held_commit hcommit
    have hheld := Tape.length_held_commit hcommit
    have hsize := Tape.size_commit hcommit
    rw [Tape.held_rewind, Tape.size_rewind]
    exact ⟨hsource, hcapacity, by omega, by omega⟩
  cases h with
  | @found m _ _ _ hcommit => exact ⟨rfl, hcommitted m.length_pos hcommit⟩
  | @unmatched _ pos _ _ hcommit => exact ⟨rfl, hcommitted pos hcommit⟩

/-- What the loop relies on in front of a turn, once it has committed so many spans of a source: the
lanes are where the characters of this attempt lead, the best match is one among these characters,
and for every span at least one character has been read. -/
structure InOrder (s : Scanner) (source : Source) (committed : Nat) (m : Moment) : Prop where
  lanes_eq : m.lanes = s.lanesAfter m.tape.taken.reverse
  length_eq : m.length = m.tape.taken.length
  attempt : Underway s m.tape m.tape.taken.reverse m.best
  capacity_eq : m.tape.capacity = s.config.lookahead
  reads : ∃ reads, source.Reads reads m.tape.source ∧
    committed + m.tape.held.length ≤ reads.reduceOption.length

/-- How a turn goes.  It fails only where reading fails. -/
inductive Course (s : Scanner) (m : Moment) : Except Error Turn → Prop where
  | fails {e : Error} (hnext : m.tape.next = .error e) : Course s m (.error e)
  | reads {c : Char} {rest : Tape} (hnext : m.tape.next = .ok (some c, rest))
      (hviable : s.Viable (m.tape.taken.reverse ++ [c])) :
      Course s m (.ok (.reads ⟨s.lanesAfter (m.tape.taken.reverse ++ [c]),
        improve (s.lanesAfter (m.tape.taken.reverse ++ [c])) m.best (m.length + 1)
          m.length.succ_pos, m.length + 1, rest, m.position, m.count⟩))
  | finished {o : Option Char} {rest : Tape} (hnext : m.tape.next = .ok (o, rest))
      (hstopped : Stopped s m.tape rest .finished) : Course s m (.ok (.finished rest.source))
  | commits {o : Option Char} {verdict : Verdict} {middle rest : Tape} {text : List Char}
      {span : Span} (hnext : m.tape.next = .ok (o, middle))
      (hstopped : Stopped s m.tape middle verdict)
      (hcommits : s.Commits m.position m.count middle verdict (.span text span rest)) :
      Course s m (.ok (.commits span (s.moment (m.position.advance s.config.lineEnding text)
        (countBehind m.count span) rest)))

/-- A verdict with which an attempt stops is carried out. -/
theorem Course.of_stopped (hs : Compiled s.definitions) {o : Option Char}
    (hnext : m.tape.next = .ok (o, rest)) (hstopped : Stopped s m.tape rest verdict) :
    s.Course m (s.resolve m verdict rest) := by
  obtain ⟨step, hcommits⟩ := exists_commits hs m.position m.count hstopped
  rw [resolve, settle_eq_ok_iff.mpr hcommits]
  cases step with
  | finished tape =>
      cases hcommits
      exact .finished hnext hstopped
  | span text span tape => exact .commits hnext hstopped hcommits

/-- All that a turn can do in front of which everything is in order. -/
theorem InOrder.course (hs : Compiled s.definitions) (h : s.InOrder source k m) :
    s.Course m (s.turn m) := by
  have hlength : m.length = m.tape.taken.reverse.length := by
    rw [List.length_reverse, h.length_eq]
  cases hnext : m.tape.next with
  | error e =>
      have hturn : s.turn m = .error e := by simp only [turn, hnext, error_bind]
      rw [hturn]
      exact .fails hnext
  | ok result =>
      obtain ⟨_ | c, rest⟩ := result
      · simp only [turn, hnext, ok_bind]
        split
        · next hzero =>
            rw [hlength] at hzero
            exact .of_stopped hs hnext (h.attempt.reported hnext (by rw [dif_pos hzero]))
        · next hzero =>
            simp only [hlength] at hzero ⊢
            exact .of_stopped hs hnext (h.attempt.reported hnext (by rw [dif_neg hzero]))
      · simp only [turn, hnext, ok_bind, h.lanes_eq, advance_lanesAfter]
        split
        · next hdead =>
            have hdead := (all_isDead_iff hs).mp hdead
            simp only [hlength]
            exact .of_stopped hs hnext (h.attempt.killed hnext hdead)
        · next halive =>
            have hviable := not_not.mp (mt (all_isDead_iff hs).mpr halive)
            exact .reads hnext hviable

/-! ## What turns keep -/

theorem inOrder_firstMoment (s : Scanner) (source : Source) :
    s.InOrder source 0 (s.firstMoment source) where
  lanes_eq := rfl
  length_eq := rfl
  attempt := underway_start rfl
  capacity_eq := rfl
  reads := ⟨[], .nil source, Nat.le_refl 0⟩

theorem budget_firstMoment (s : Scanner) (source : Source) :
    (s.firstMoment source).budget = source.size * (source.size + 1) := by
  have hunread : (Tape.ofSource s.config.lookahead source).unread = source.size := Nat.zero_add _
  have hsize : (Tape.ofSource s.config.lookahead source).size = source.size := by
    rw [Tape.size, hunread]
    exact Nat.zero_add _
  rw [Moment.budget, firstMoment, moment, hsize, hunread, Nat.mul_succ]

theorem InOrder.reads_next {o : Option Char} (h : s.InOrder source k m)
    (hnext : m.tape.next = .ok (o, rest)) :
    ∃ reads, source.Reads reads rest.source ∧ k + rest.held.length ≤ reads.reduceOption.length := by
  obtain ⟨reads, hreads, hle⟩ := h.reads
  cases o with
  | none =>
      obtain ⟨-, hheld, hsource⟩ := Tape.end_next hnext
      rw [hheld]
      refine ⟨reads ++ [none], hreads.trans (.cons hsource (.nil _)), ?_⟩
      simpa [List.reduceOption_append] using hle
  | some c =>
      rcases Tape.held_next hnext with ⟨hheld, hsource⟩ | ⟨-, hheld, hsource⟩
      · rw [hheld, hsource]
        exact ⟨reads, hreads, hle⟩
      · rw [hheld]
        refine ⟨reads ++ [some c], hreads.trans (.cons hsource (.nil _)), ?_⟩
        simp only [List.reduceOption_append, List.length_append, List.reduceOption_singleton,
          Option.toList_some, List.length_singleton]
        omega

/-- A turn that reads keeps everything in order. -/
theorem InOrder.of_reads (hs : Compiled s.definitions) (h : s.InOrder source k m)
    (hturn : s.turn m = .ok (.reads m')) : s.InOrder source k m' ∧ m'.budget < m.budget := by
  have hcourse := h.course hs
  rw [hturn] at hcourse
  cases hcourse with
  | @reads c rest hnext hviable =>
      have htaken := h.attempt.taken_next hnext
      have hlength : m.tape.taken.reverse.length = m.length := by
        rw [List.length_reverse, h.length_eq]
      have hattempt := h.attempt.next hnext hviable
      constructor
      · refine ⟨?_, ?_, ?_, ?_, h.reads_next hnext⟩
        · rw [htaken]
        · rw [← List.length_reverse, htaken, List.length_append, hlength]
          rfl
        · simpa only [htaken, hlength] using hattempt
        · exact (Tape.capacity_next hnext).trans h.capacity_eq
      · have hsize := Nat.mul_le_mul (Tape.size_next hnext) (Tape.size_next hnext)
        have hunread : rest.unread + 1 ≤ m.tape.unread := Tape.unread_next hnext
        show rest.size * rest.size + rest.unread < m.tape.size * m.tape.size + m.tape.unread
        omega

/-- A turn that commits a span keeps everything in order. -/
theorem InOrder.of_commits (hs : Compiled s.definitions) (h : s.InOrder source k m)
    (hturn : s.turn m = .ok (.commits span m')) :
    s.InOrder source (k + 1) m' ∧ m'.budget < m.budget := by
  have hcourse := h.course hs
  rw [hturn] at hcourse
  cases hcourse with
  | @commits o verdict middle rest text _ hnext hstopped hcommits =>
      obtain ⟨htaken, hsource, hcapacity, hheld, hsize⟩ := hcommits.shrinks
      constructor
      · obtain ⟨reads, hreads, hle⟩ := h.reads_next hnext
        refine ⟨?_, ?_, ?_, ?_, reads, ?_, ?_⟩
        · show s.lanes = s.lanesAfter rest.taken.reverse
          rw [htaken]
          rfl
        · show 0 = rest.taken.length
          rw [htaken]
          rfl
        · show Underway s rest rest.taken.reverse none
          rw [htaken]
          exact underway_start htaken
        · exact hcapacity.trans ((Tape.capacity_next hnext).trans h.capacity_eq)
        · rw [← hsource] at hreads
          exact hreads
        · show k + 1 + rest.held.length ≤ _
          omega
      · have hsize : rest.size < m.tape.size := hsize.trans_le (Tape.size_next hnext)
        have hunread : rest.unread ≤ rest.size := Nat.le_add_left _ _
        show rest.size * rest.size + rest.unread < m.tape.size * m.tape.size + m.tape.unread
        calc rest.size * rest.size + rest.unread
            ≤ rest.size * (rest.size + 1) := by rw [Nat.mul_succ]; omega
          _ ≤ rest.size * m.tape.size := Nat.mul_le_mul_left _ hsize
          _ < m.tape.size * m.tape.size := Nat.mul_lt_mul_of_pos_right hsize (by omega)
          _ ≤ m.tape.size * m.tape.size + m.tape.unread := Nat.le_add_right _ _

/-- Turns keep everything in order, and there are no more of them than the budget allows. -/
theorem InOrder.of_turns (hs : Compiled s.definitions) (h : s.InOrder source k m)
    (hturns : s.Turns m n spans m') :
    s.InOrder source (k + spans.length) m' ∧ n + m'.budget ≤ m.budget := by
  induction hturns generalizing k with
  | none => exact ⟨h, by omega⟩
  | reads hturn _ ih =>
      obtain ⟨hmiddle, hlt⟩ := h.of_reads hs hturn
      obtain ⟨hlast, hle⟩ := ih hmiddle
      exact ⟨hlast, by omega⟩
  | commits hturn _ ih =>
      obtain ⟨hmiddle, hlt⟩ := h.of_commits hs hturn
      obtain ⟨hlast, hle⟩ := ih hmiddle
      rw [List.length_cons, ← Nat.add_assoc, Nat.add_right_comm]
      exact ⟨hlast, by omega⟩

/-- The match to be committed is one that has been read, by a definition that there is. -/
theorem InOrder.of_best (hs : Compiled s.definitions) (h : s.InOrder source k m) {best : Match}
    (hbest : m.best = some best) : best.length ≤ m.length ∧ best.id < s.definitions.length := by
  have hattempt := h.attempt.best
  rw [hbest] at hattempt
  cases hattempt with
  | some hle hd hid =>
      have hdefinition := getElem?_winner? hs hd
      rw [hid] at hdefinition
      rw [h.length_eq, ← List.length_reverse]
      exact ⟨hle, (List.getElem?_eq_some_iff.mp hdefinition).1⟩

/-- The loop of a scan takes the turns that commit its spans and then ends the way the scan does.
Whatever the source reports in between, there are not more turns than its size allows, and no turn
breaks a promise: lanes that are dead are not advanced, a match to be committed has been read since
the last span and names a definition, and what fails is only ever a read.  Not more spans are
committed than characters have been read. -/
theorem turns_of_scan {b : Builder} (hb : b.Made) (source : Source) :
    (∃ n last, b.build.Turns (b.build.firstMoment source) n (b.build.scan source).spans last ∧
      b.build.turn last = (b.build.scan source).outcome.map .finished) ∧
    ∀ n spans m, b.build.Turns (b.build.firstMoment source) n spans m →
      n ≤ source.size * (source.size + 1) ∧
      m.length = m.tape.taken.length ∧
      (∀ best, m.best = some best →
        best.length ≤ m.tape.taken.length ∧ best.id < b.definitions.length) ∧
      (∀ e, b.build.turn m = .error e →
        (∃ fault, e = .sourceUnavailable fault) ∨ e = .lookaheadExceeded b.config.lookahead) ∧
      ∃ reads, source.Reads reads m.tape.source ∧ spans.length ≤ reads.reduceOption.length := by
  refine ⟨exists_turns_scanFrom _ _ _ _, ?_⟩
  intro n spans m hturns
  obtain ⟨hm, hbudget⟩ := (inOrder_firstMoment b.build source).of_turns hb.compiled hturns
  rw [budget_firstMoment] at hbudget
  refine ⟨by omega, hm.length_eq, ?_, ?_, ?_⟩
  · intro best hbest
    rw [← hm.length_eq]
    exact hm.of_best hb.compiled hbest
  · intro e hturn
    have hcourse := hm.course hb.compiled
    rw [hturn] at hcourse
    cases hcourse with
    | fails hnext =>
        have herror := Tape.next_error hnext
        rwa [hm.capacity_eq] at herror
  · obtain ⟨reads, hreads, hle⟩ := hm.reads
    exact ⟨reads, hreads, by omega⟩

/-- The definition also matches the empty word, and the source reports its end between two tokens:
the loop goes on, and stops. -/
theorem turns_of_scan_empty_word :
    let b := (Builder.add {} "A" "a*").builder
    let source : Source := [.chunk [97], .chunk [], .chunk [98, 97]]
    (∃ n last, b.build.Turns (b.build.firstMoment source) n
        [.token ⟨0, 1, 1, "A", "a"⟩, .error ⟨1, 2, "b"⟩, .token ⟨1, 1, 3, "A", "a"⟩] last ∧
      n ≤ 42 ∧ b.build.turn last = .ok (.finished [])) ∧
      b.definitions.map (·.dfa.accepts []) = [true] := by
  intro b source
  have hmade : b.Made := Builder.Made.empty.add "A" "a*"
  have hspans : (b.build.scan source).spans =
      [.token ⟨0, 1, 1, "A", "a"⟩, .error ⟨1, 2, "b"⟩, .token ⟨1, 1, 3, "A", "a"⟩] := by
    decide +kernel
  have houtcome : (b.build.scan source).outcome = .ok [] := by decide +kernel
  obtain ⟨⟨n, last, hturns, hlast⟩, hinOrder⟩ := turns_of_scan hmade source
  have hle : n ≤ 42 := (hinOrder n _ last hturns).1
  rw [houtcome] at hlast
  exact ⟨⟨n, last, hspans ▸ hturns, hle, hlast⟩, by decide +kernel⟩

end Scanner

end MaximalMunch
