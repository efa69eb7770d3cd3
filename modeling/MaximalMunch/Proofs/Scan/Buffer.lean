import MaximalMunch.Proofs.Scan.Upcoming

/-!
# The lookahead as a stream with two positions

A tape is asked to read on, to commit some of what it has handed out, and to hand out again what is
not committed.  Whatever the order of these calls, they do to the stream behind the source what they
would do if it were there as a whole: two positions in it say how much is committed and how much has
been handed out behind that, and the calls move these positions.

`Source.Step` is what a call does to the stream.  `step_make` says so of a single call, and
`steps_run`, by induction over the calls, of all of them.  The characters that a tape has handed out
and those that it still has ahead can also be kept in one list, with a cursor into it; `run_parts`
says that it comes to the same.
-/

namespace MaximalMunch

/-! ## Calls -/

namespace Tape

/-- A call that goes to a tape. -/
inductive Call where
  | next
  | commit (count : Nat)
  | rewind

/-- What a call returns. -/
inductive Answer where
  | read (o : Option Char)
  | span (text : List Char)
  | rewound

/-- The text that an answer takes for good. -/
def Answer.committed : Answer → List Char
  | .span text => text
  | .read _ | .rewound => []

/-- The text that answers take for good. -/
def spans (answers : List Answer) : List Char := answers.flatMap Answer.committed

/-- Makes a call. -/
def make (t : Tape) : Call → Except Error (Answer × Tape)
  | .next => do
      let (o, rest) ← t.next
      return (.read o, rest)
  | .commit count => do
      let (text, rest) ← t.commit count
      return (.span text, rest)
  | .rewind => return (.rewound, t.rewind)

/-- Makes calls one after the other, up to the first one that fails. -/
def run {σ : Type} (make : σ → Call → Except Error (Answer × σ)) :
    List Call → σ → Except Error (List Answer × σ)
  | [], s => return ([], s)
  | call :: calls, s => do
      let (answer, s) ← make s call
      let (answers, s) ← run make calls s
      return (answer :: answers, s)

theorem run_cons_eq_ok_iff {σ : Type} {make : σ → Call → Except Error (Answer × σ)} {call : Call}
    {calls : List Call} {s s' : σ} {answers : List Answer} :
    run make (call :: calls) s = .ok (answers, s') ↔ ∃ answer later middle,
      make s call = .ok (answer, middle) ∧ run make calls middle = .ok (later, s') ∧
        answers = answer :: later := by
  rw [run, bind_eq_ok]
  constructor
  · rintro ⟨⟨answer, middle⟩, hmake, h⟩
    rcases bind_eq_ok.mp h with ⟨⟨later, last⟩, hrun, h⟩
    cases h
    exact ⟨answer, later, middle, hmake, hrun, rfl⟩
  · rintro ⟨answer, later, middle, hmake, hrun, rfl⟩
    refine ⟨(answer, middle), hmake, ?_⟩
    simp only [hrun]
    rfl

variable {t rest : Tape} {call : Call} {calls : List Call} {answer : Answer}
  {answers : List Answer} {source : Source} {committed : List Char}

/-- A call does what it is there for, and what it returns is its answer. -/
theorem make_cases (h : t.make call = .ok (answer, rest)) :
    (∃ o, call = .next ∧ answer = .read o ∧ t.next = .ok (o, rest)) ∨
    (∃ count text, call = .commit count ∧ answer = .span text ∧
      t.commit count = .ok (text, rest)) ∨
    call = .rewind ∧ answer = .rewound ∧ rest = t.rewind := by
  cases call with
  | next =>
      rcases bind_eq_ok.mp h with ⟨⟨o, rest'⟩, hnext, h⟩
      cases h
      exact .inl ⟨o, rfl, rfl, hnext⟩
  | commit count =>
      rcases bind_eq_ok.mp h with ⟨⟨text, rest'⟩, hcommit, h⟩
      cases h
      exact .inr (.inl ⟨count, text, rfl, rfl, hcommit⟩)
  | rewind =>
      cases h
      exact .inr (.inr ⟨rfl, rfl, rfl⟩)

end Tape

/-! ## Two positions -/

/-- How much of a stream is committed, and how much has been handed out behind that. -/
structure Positions where
  committed : Nat
  cursor : Nat

namespace Source

open Tape (Call Answer)

/-- What a call returns and what it does to the positions if the whole stream is there. -/
inductive Step (source : Source) (p : Positions) : Call → Answer → Positions → Prop where
  | read {c : Char} (h : source.text[p.committed + p.cursor]? = some c) :
      Step source p .next (.read (some c)) ⟨p.committed, p.cursor + 1⟩
  | pause (h : source.PausesAt (p.committed + p.cursor)) : Step source p .next (.read none) p
  | commit {count : Nat} (h : count ≤ p.cursor) :
      Step source p (.commit count) (.span ((source.text.drop p.committed).take count))
        ⟨p.committed + count, p.cursor - count⟩
  | rewind : Step source p .rewind .rewound ⟨p.committed, 0⟩

/-- In a text, a read returns what stands there. -/
theorem Yields.read_eq {source : Source} {stream : List Char} {p q : Positions} {o : Option Char}
    (h : source.Yields stream) (hstep : source.Step p .next (.read o) q) :
    o = stream[p.committed + p.cursor]? := by
  cases hstep with
  | read hc => rw [← hc, h.text_eq]
  | pause hpauses => rw [h.eq_length_of_pausesAt hpauses, List.getElem?_length]

/-- What calls return one after the other. -/
inductive Steps (source : Source) : Positions → List Call → List Answer → Positions → Prop where
  | nil (p : Positions) : Steps source p [] [] p
  | cons {p q r : Positions} {call : Call} {answer : Answer} {calls : List Call}
      {answers : List Answer} (hstep : source.Step p call answer q)
      (hsteps : Steps source q calls answers r) :
      Steps source p (call :: calls) (answer :: answers) r

end Source

namespace Tape

variable {t rest : Tape} {call : Call} {calls : List Call} {answer : Answer}
  {answers : List Answer} {source : Source} {committed text : List Char} {o : Option Char}
  {capacity count : Nat}

/-- A tape over what is left of a source: what has been read is committed or held. -/
structure Over (capacity : Nat) (source : Source) (committed : List Char) (t : Tape) : Prop where
  reads : ∃ reads, source.Reads reads t.source ∧ reads.reduceOption = committed ++ t.held
  fits : t.Fits
  capacity_eq : t.capacity = capacity

/-- The positions of a tape that some text has been committed from. -/
def positions (committed : List Char) (t : Tape) : Positions := ⟨committed.length, t.taken.length⟩

theorem over_ofSource (capacity : Nat) (source : Source) :
    (ofSource capacity source).Over capacity source [] where
  reads := ⟨[], .nil source, rfl⟩
  fits := Fits.ofSource capacity source
  capacity_eq := rfl

theorem length_taken_le (t : Tape) : t.taken.length ≤ t.held.length := by
  rw [held, List.length_append, List.length_reverse]
  omega

theorem length_taken_eq_iff : t.taken.length = t.held.length ↔ t.ahead = [] := by
  simp [held]

/-- What is read comes from what is held, or else from the source and is held from then on. -/
theorem held_or_read (h : t.next = .ok (o, rest)) :
    rest.held = t.held ∧ rest.source = t.source ∨
      t.ahead = [] ∧ rest.held = t.held ++ o.toList ∧ t.source.next = .ok (o, rest.source) := by
  cases o with
  | some c => exact held_next h
  | none =>
      rcases end_next h with ⟨hahead, hheld, hend⟩
      exact .inr ⟨hahead, hheld.trans (List.append_nil _).symm, hend⟩

theorem commit_taken (h : t.commit count = .ok (text, rest)) :
    count ≤ t.taken.length ∧ rest.taken.length = t.taken.length - count := by
  rw [Tape.commit] at h
  split at h
  · next hle =>
      cases h
      refine ⟨hle, ?_⟩
      simp only [List.length_take]
      omega
  · cases h

namespace Over

/-- Nothing of the stream is lost or repeated. -/
theorem text_eq (h : t.Over capacity source committed) :
    source.text = committed ++ t.held ++ t.source.text := by
  rcases h.reads with ⟨reads, hreads, hchars⟩
  rw [hreads.text_eq, hchars]

/-- The character at the end of what has been handed out. -/
theorem getElem?_text (h : t.Over capacity source committed) {c : Char} {taken : List Char}
    (htaken : t.taken = c :: taken) : source.text[committed.length + taken.length]? = some c := by
  have htext : source.text =
      committed ++ taken.reverse ++ c :: (t.ahead ++ t.source.text) := by
    rw [h.text_eq, held, htaken, List.reverse_cons]
    simp only [List.append_assoc, List.cons_append, List.nil_append]
  have hlength : committed.length + taken.length = (committed ++ taken.reverse).length := by
    rw [List.length_append, List.length_reverse]
  rw [htext, hlength, List.getElem?_append_right (Nat.le_refl _), Nat.sub_self]
  rfl

theorem next (h : t.Over capacity source committed) (hnext : t.next = .ok (o, rest)) :
    rest.Over capacity source committed where
  reads := by
    rcases held_or_read hnext with ⟨hheld, hsource⟩ | ⟨-, hheld, hread⟩
    · rw [hheld, hsource]
      exact h.reads
    · rcases h.reads with ⟨reads, hreads, hchars⟩
      refine ⟨reads ++ [o], hreads.trans (.cons hread (.nil _)), ?_⟩
      rw [List.reduceOption_append, hchars, hheld, List.append_assoc, List.reduceOption_singleton]
  fits := h.fits.next hnext
  capacity_eq := (capacity_next hnext).trans h.capacity_eq

theorem step_next (h : t.Over capacity source committed) (hnext : t.next = .ok (o, rest)) :
    source.Step (t.positions committed) .next (.read o) (rest.positions committed) := by
  have htaken := taken_next hnext
  have hmoved : rest.positions committed = ⟨committed.length, (o.toList ++ t.taken).length⟩ := by
    rw [positions, htaken]
  rw [hmoved]
  cases o with
  | none =>
      -- the source is read where everything held has been handed out
      rcases end_next hnext with ⟨hahead, -, hend⟩
      rcases h.reads with ⟨reads, hreads, hchars⟩
      refine .pause ⟨reads, t.source, rest.source, hreads, hend, ?_⟩
      rw [hchars, List.length_append, ← length_taken_eq_iff.mpr hahead]
      rfl
  | some c => exact .read ((h.next hnext).getElem?_text htaken)

/-- What a call commits stands in the stream behind what has been committed. -/
theorem span_eq (h : t.Over capacity source committed)
    (hcommit : t.commit count = .ok (text, rest)) :
    text = (source.text.drop committed.length).take count ∧ text.length = count := by
  have hle : count ≤ t.held.length :=
    Nat.le_trans (commit_taken hcommit).1 t.length_taken_le
  have htext := (held_commit hcommit).1
  constructor
  · rw [h.text_eq, List.append_assoc, List.drop_left, htext, List.take_append_of_le_length hle]
  · rw [htext, List.length_take, Nat.min_eq_left hle]

theorem commit (h : t.Over capacity source committed)
    (hcommit : t.commit count = .ok (text, rest)) :
    rest.Over capacity source (committed ++ text) := by
  rcases held_commit hcommit with ⟨htext, hheld, hsource, hcapacity⟩
  refine ⟨?_, h.fits.commit hcommit, hcapacity.trans h.capacity_eq⟩
  rw [hsource, htext, hheld, List.append_assoc, List.take_append_drop]
  exact h.reads

theorem step_commit (h : t.Over capacity source committed)
    (hcommit : t.commit count = .ok (text, rest)) :
    source.Step (t.positions committed) (.commit count) (.span text)
      (rest.positions (committed ++ text)) := by
  rcases commit_taken hcommit with ⟨hle, htaken⟩
  rcases h.span_eq hcommit with ⟨hspan, hlength⟩
  have hmoved : rest.positions (committed ++ text) =
      ⟨committed.length + count, t.taken.length - count⟩ := by
    rw [positions, htaken, List.length_append, hlength]
  rw [hmoved, hspan]
  exact .commit hle

theorem rewind (h : t.Over capacity source committed) :
    t.rewind.Over capacity source committed where
  reads := h.reads
  fits := h.fits.rewind
  capacity_eq := h.capacity_eq

/-- What a single call returns and does. -/
theorem step_make (h : t.Over capacity source committed)
    (hmake : t.make call = .ok (answer, rest)) :
    rest.Over capacity source (committed ++ answer.committed) ∧
      source.Step (t.positions committed) call answer
        (rest.positions (committed ++ answer.committed)) := by
  rcases make_cases hmake with ⟨o, rfl, rfl, hnext⟩ | ⟨count, text, rfl, rfl, hcommit⟩ |
    ⟨rfl, rfl, rfl⟩
  · rw [Answer.committed, List.append_nil]
    exact ⟨h.next hnext, h.step_next hnext⟩
  · exact ⟨h.commit hcommit, h.step_commit hcommit⟩
  · rw [Answer.committed, List.append_nil]
    exact ⟨h.rewind, .rewind⟩

/-- What calls return and do one after the other. -/
theorem steps_run (h : t.Over capacity source committed)
    (hrun : run make calls t = .ok (answers, rest)) :
    rest.Over capacity source (committed ++ spans answers) ∧
      source.Steps (t.positions committed) calls answers
        (rest.positions (committed ++ spans answers)) := by
  induction calls generalizing t committed answers with
  | nil =>
      cases hrun
      rw [spans, List.flatMap_nil, List.append_nil]
      exact ⟨h, .nil _⟩
  | cons call calls ih =>
      rcases run_cons_eq_ok_iff.mp hrun with ⟨answer, later, middle, hmake, hlater, rfl⟩
      rcases h.step_make hmake with ⟨hmiddle, hstep⟩
      rcases ih hmiddle hlater with ⟨hrest, hsteps⟩
      rw [spans, List.flatMap_cons, ← List.append_assoc]
      exact ⟨hrest, .cons hstep hsteps⟩

end Over

end Tape

/-! ## Characters with a cursor -/

/-- The characters that are held in one list, with the number of those that have been handed out. -/
structure Buffer where
  chars : List Char
  cursor : Nat
  capacity : Nat

namespace Buffer

open Tape (Call Answer)

/-- A buffer that holds nothing. -/
def new (capacity : Nat) : Buffer := ⟨[], 0, capacity⟩

/-- Hands out the character at the cursor, or fetches one if there is none. -/
def next (b : Buffer) (source : Source) : Except Error (Option Char × Buffer × Source) :=
  match b.chars[b.cursor]? with
  | some c => return (some c, { b with cursor := b.cursor + 1 }, source)
  | none => do
      match ← source.next with
      | (none, source) => return (none, b, source)
      | (some c, source) =>
        if b.capacity ≤ b.chars.length then throw (.lookaheadExceeded b.capacity)
        return (some c, { b with chars := b.chars ++ [c], cursor := b.cursor + 1 }, source)

/-- Takes characters from the front, as many as there are. -/
def commit (b : Buffer) (count : Nat) : List Char × Buffer :=
  let count := min count b.chars.length
  (b.chars.take count, { b with chars := b.chars.drop count, cursor := b.cursor - count })

/-- Goes back to the front. -/
def rewind (b : Buffer) : Buffer := { b with cursor := 0 }

/-- Makes a call, of which a commit may only ask for what has been handed out. -/
def make (s : Buffer × Source) : Call → Except Error (Answer × Buffer × Source)
  | .next => do
      let (o, b, source) ← s.1.next s.2
      return (.read o, b, source)
  | .commit count =>
      if count ≤ s.1.cursor then return (.span (s.1.commit count).1, (s.1.commit count).2, s.2)
      else throw (.breach .unreadCommit)
  | .rewind => return (.rewound, s.1.rewind, s.2)

end Buffer

namespace Tape

variable {t rest : Tape} {call : Call} {calls : List Call} {answers : List Answer} {count : Nat}
  {text : List Char}

/-- What a tape holds, with the number of characters that have been handed out. -/
def buffer (t : Tape) : Buffer := ⟨t.held, t.taken.length, t.capacity⟩

/-- A tape as a buffer beside a source. -/
def parts (t : Tape) : Buffer × Source := (t.buffer, t.source)

theorem getElem?_held (t : Tape) : t.held[t.taken.length]? = t.ahead.head? := by
  rw [held, List.getElem?_append_right (by simp), List.length_reverse, Nat.sub_self,
    List.head?_eq_getElem?]

/-- Both ways to read on come to the same, and so do their failures. -/
theorem next_buffer (t : Tape) :
    t.buffer.next t.source = t.next.map fun (o, rest) => (o, rest.buffer, rest.source) := by
  have hcursor : t.buffer.chars[t.buffer.cursor]? = t.ahead.head? := t.getElem?_held
  rcases t with ⟨taken, ahead, capacity, source⟩
  rw [Buffer.next, hcursor]
  cases ahead with
  | cons c ahead => simp [Tape.next, buffer, held, Except.map, pure, Except.pure]
  | nil =>
      simp only [List.head?_nil, Tape.next]
      cases hread : source.next with
      | error e => rfl
      | ok read =>
          rcases read with ⟨_ | c, source'⟩
          · rfl
          · simp only [buffer, held, List.append_nil, List.length_reverse, ok_bind]
            split
            · rfl
            · simp [Except.map, pure, Except.pure]

theorem commit_buffer (h : t.commit count = .ok (text, rest)) :
    t.buffer.commit count = (text, rest.buffer) := by
  rcases held_commit h with ⟨htext, hheld, -, hcapacity⟩
  rcases commit_taken h with ⟨hle, htaken⟩
  have hmin : min count t.held.length = count :=
    Nat.min_eq_left (Nat.le_trans hle t.length_taken_le)
  simp only [Buffer.commit, buffer, hmin, ← htext, hheld, htaken, hcapacity]

theorem make_parts (t : Tape) (call : Call) :
    Buffer.make t.parts call = (t.make call).map (Prod.map id parts) := by
  cases call with
  | next =>
      have hnext : t.parts.1.next t.parts.2 = _ := t.next_buffer
      rw [Buffer.make, hnext, make]
      cases t.next <;> rfl
  | commit count =>
      rw [Buffer.make, make]
      by_cases hle : count ≤ t.taken.length
      · have hcommit : t.commit count = _ := if_pos hle
        have hbuffer : t.parts.1.commit count = _ := commit_buffer hcommit
        rw [hcommit, hbuffer]
        exact if_pos hle
      · have hcommit : t.commit count = _ := if_neg hle
        rw [hcommit]
        exact if_neg hle
  | rewind => rfl

/-- The same calls come to the same, whether they fail or not. -/
theorem run_parts (t : Tape) (calls : List Call) :
    run Buffer.make calls t.parts = (run make calls t).map (Prod.map id parts) := by
  induction calls generalizing t with
  | nil => rfl
  | cons call calls ih =>
      rw [run, make_parts, run]
      cases t.make call with
      | error e => rfl
      | ok made =>
          rcases made with ⟨answer, middle⟩
          show (run Buffer.make calls middle.parts >>= _) = (run make calls middle >>= _).map _
          rw [ih middle]
          cases run make calls middle <;> rfl

/-! ## Calls that succeed -/

/-- A read fails only if all that is held has been handed out, and then because the source fails or
because a character that it yields finds no room. -/
theorem next_fails {e : Error} (h : t.next = .error e) : t.ahead = [] ∧
    (t.source.next = .error e ∨ t.capacity ≤ t.held.length ∧ e = .lookaheadExceeded t.capacity ∧
      ∃ c later, t.source.next = .ok (some c, later)) := by
  rcases t with ⟨taken, ahead, capacity, source⟩
  cases ahead with
  | cons c ahead => cases h
  | nil =>
      refine ⟨rfl, ?_⟩
      simp only [Tape.next] at h
      split at h
      · next hread =>
          cases h
          exact .inl hread
      · cases h
      · next c later hread =>
          split at h
          · next hfull =>
              cases h
              refine .inr ⟨?_, rfl, c, later, hread⟩
              simpa [held] using hfull
          · cases h

/-- What is held is handed out without reading the source. -/
theorem run_ahead (t : Tape) : run make (List.replicate t.ahead.length .next) t =
    .ok (t.ahead.map fun c => .read (some c),
      { t with taken := t.ahead.reverse ++ t.taken, ahead := [] }) := by
  rcases t with ⟨taken, ahead, capacity, source⟩
  simp only
  induction ahead generalizing taken with
  | nil => rfl
  | cons c ahead ih =>
      rw [List.reverse_cons, List.append_assoc, List.singleton_append]
      exact run_cons_eq_ok_iff.mpr
        ⟨.read (some c), _, ⟨c :: taken, ahead, capacity, source⟩, rfl, ih (c :: taken), rfl⟩

/-! ## Calls in any order -/

/-- What a tape that calls have led to has to do with the stream behind the source that it was made
with: where it is in the stream, what it holds of it, and what each call would return. -/
structure Refines (capacity : Nat) (source : Source) (calls : List Call) (answers : List Answer)
    (t : Tape) : Prop where
  steps : source.Steps ⟨0, 0⟩ calls answers ⟨(spans answers).length, t.buffer.cursor⟩
  whole : spans answers ++ t.buffer.chars ++ t.source.text = source.text
  cursor_le : t.buffer.cursor ≤ t.buffer.chars.length
  chars_le : t.buffer.chars.length ≤ capacity
  next_step : ∀ o rest, t.next = .ok (o, rest) →
    source.Step ⟨(spans answers).length, t.buffer.cursor⟩ .next (.read o)
      ⟨(spans answers).length, rest.buffer.cursor⟩
  next_held : t.buffer.cursor < t.buffer.chars.length →
    ∃ c rest, t.next = .ok (some c, rest) ∧ rest.source = t.source
  next_fetched : t.buffer.cursor = t.buffer.chars.length → ∀ o rest, t.next = .ok (o, rest) →
    t.source.next = .ok (o, rest.source)
  next_fails : ∀ e, t.next = .error e → t.buffer.cursor = t.buffer.chars.length ∧
    (t.source.next = .error e ∨ t.buffer.chars.length = capacity ∧
      e = .lookaheadExceeded capacity ∧ ∃ c later, t.source.next = .ok (some c, later))
  commit_next : ∀ count ≤ t.buffer.cursor, ∃ span rest, t.commit count = .ok (span, rest) ∧
    span = (source.text.drop (spans answers).length).take count ∧ span.length = count
  rewind_all : ∃ rest, run make (List.replicate t.buffer.chars.length .next) t.rewind =
    .ok (t.buffer.chars.map fun c => .read (some c), rest) ∧ rest.source = t.source

theorem refines_of_run {capacity : Nat} {source : Source}
    (hrun : run make calls (ofSource capacity source) = .ok (answers, t)) :
    t.Refines capacity source calls answers := by
  rcases (over_ofSource capacity source).steps_run hrun with ⟨hover, hsteps⟩
  rw [List.nil_append] at hover hsteps
  have hfits : t.held.length ≤ capacity := by
    rw [← hover.capacity_eq]
    exact hover.fits
  exact {
    steps := hsteps
    whole := hover.text_eq.symm
    cursor_le := t.length_taken_le
    chars_le := hfits
    next_step := fun o rest hnext => hover.step_next hnext
    next_held := by
      intro hlt
      cases hahead : t.ahead with
      | nil => exact absurd (length_taken_eq_iff.mpr hahead) (Nat.ne_of_lt hlt)
      | cons c ahead =>
          refine ⟨c, { t with taken := c :: t.taken, ahead }, ?_, rfl⟩
          rw [Tape.next, hahead]
    next_fetched := by
      intro hend o rest hnext
      rcases next_cases hnext with ⟨c, ahead, hahead, -, -⟩ | ⟨source', -, hread, -, rfl⟩
      · rw [length_taken_eq_iff.mp hend] at hahead
        cases hahead
      · exact hread
    next_fails := by
      intro e hnext
      rcases next_fails hnext with ⟨hahead, hfails | ⟨hfull, he, hread⟩⟩
      · exact ⟨length_taken_eq_iff.mpr hahead, .inl hfails⟩
      · rw [hover.capacity_eq] at hfull he
        exact ⟨length_taken_eq_iff.mpr hahead, .inr ⟨Nat.le_antisymm hfits hfull, he, hread⟩⟩
    commit_next := by
      intro count hle
      have hcommit : t.commit count = _ := if_pos hle
      rcases hover.span_eq hcommit with ⟨hspan, hlength⟩
      exact ⟨_, _, hcommit, hspan, hlength⟩
    rewind_all := ⟨_, t.rewind.run_ahead, rfl⟩ }

/-- Whatever calls are made in whatever order, and whatever the source, a list with a cursor serves
them as a tape does.  Without a failing one, they do to the stream behind the source what two
positions in it say.  If the source yields a text, that stream is the text, and every read returns
the character at its position or, behind the last one, none. -/
theorem calls_refine_stream (capacity : Nat) (source : Source) (calls : List Call) :
    run Buffer.make calls (.new capacity, source) =
      (run make calls (ofSource capacity source)).map (Prod.map id parts) ∧
    ∀ answers t, run make calls (ofSource capacity source) = .ok (answers, t) →
      t.Refines capacity source calls answers ∧
      ∀ stream, source.Yields stream → source.text = stream ∧ ∀ o rest, t.next = .ok (o, rest) →
        o = stream[(spans answers).length + t.buffer.cursor]? := by
  refine ⟨(ofSource capacity source).run_parts calls, fun answers t hrun => ?_⟩
  have hrefines := refines_of_run hrun
  refine ⟨hrefines, fun stream hyields => ⟨hyields.text_eq, fun o rest hnext => ?_⟩⟩
  exact hyields.read_eq (hrefines.next_step o rest hnext)

/-- A commit with part of what has been read, a rewind, and a commit of what is read once more, over
a source whose text comes in two chunks. -/
theorem calls_refine_stream_two_commits :
    let source : Source := [.chunk [97, 98], .interrupt, .chunk [99, 100]]
    let calls := [.next, .next, .next, .commit 1, .rewind, .next, .next, .next, .next, .commit 3]
    let answers := [.read (some 'a'), .read (some 'b'), .read (some 'c'), .span ['a'], .rewound,
      .read (some 'b'), .read (some 'c'), .read (some 'd'), .read none, .span ['b', 'c', 'd']]
    ∃ t, run make calls (ofSource 8 source) = .ok (answers, t) ∧
      t.Refines 8 source calls answers ∧ source.text = ['a', 'b', 'c', 'd'] := by
  intro source calls answers
  have hrun : ∃ t, run make calls (ofSource 8 source) = .ok (answers, t) := ⟨_, rfl⟩
  rcases hrun with ⟨t, hrun⟩
  have hyields : source.Yields ['a', 'b', 'c', 'd'] :=
    ⟨[], Source.ended_nil, .chunk 97 [98] (.interrupt (.chunk 99 [100] .done))⟩
  rcases (calls_refine_stream 8 source calls).2 answers t hrun with ⟨hrefines, htext⟩
  exact ⟨t, hrun, hrefines, (htext _ hyields).1⟩

end Tape

end MaximalMunch
