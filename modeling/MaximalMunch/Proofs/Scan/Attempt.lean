import MaximalMunch.Proofs.Scan.Reference
import MaximalMunch.Proofs.Scan.Stream

/-!
# Attempts and steps on any source

Whatever a source does, an attempt stops with the first character behind which no match is possible
or with a report of the end of input, and its verdict settles the text that it then has in hand.
It never concludes with more characters than it was handed, and the number of a match is the index
of a definition.  So a step of a scan fails only where its attempt does, which is where reading
fails.
-/

namespace MaximalMunch

/-- The number of characters that a verdict commits. -/
def Verdict.length : Verdict → Nat
  | .finished => 0
  | .found m => m.length
  | .unmatched length _ => length

/-- How an attempt that starts on uncommitted text stops: it has read `reads` from the source, and
has `text` in hand.  No character is read behind one that has stopped it. -/
inductive Scanner.Stop (s : Scanner) (pending : List Char) :
    List (Option Char) → List Char → Prop where
  | killed {chars : List Char} (hne : pending ++ chars ≠ []) (hdead : ¬ s.Viable (pending ++ chars))
      (hlazy : chars ≠ [] → pending ++ chars.dropLast = [] ∨ s.Viable (pending ++ chars.dropLast)) :
      Stop s pending (chars.map some) (pending ++ chars)
  | reported {chars : List Char} (hviable : pending ++ chars = [] ∨ s.Viable (pending ++ chars)) :
      Stop s pending (chars.map some ++ [none]) (pending ++ chars)

namespace Scanner.Stop

variable {s : Scanner} {pending text : List Char} {reads : List (Option Char)} {c : Char}

/-- A character that leaves a match possible, and then the rest of the attempt. -/
theorem read (hviable : s.Viable (pending ++ [c])) (h : s.Stop (pending ++ [c]) reads text) :
    s.Stop pending (some c :: reads) text := by
  cases h with
  | @killed chars hne hdead hlazy =>
      have hchars : chars ≠ [] := by
        rintro rfl
        rw [List.append_nil] at hdead
        exact hdead hviable
      rw [List.append_assoc] at hne hdead ⊢
      refine killed hne hdead fun _ => ?_
      have hlazy := hlazy hchars
      rwa [List.append_assoc, List.singleton_append, ← List.dropLast_cons_of_ne_nil hchars] at hlazy
  | @reported chars hviable' =>
      rw [List.append_assoc] at hviable' ⊢
      have hstop : s.Stop pending ((c :: chars).map some ++ [none]) (pending ++ c :: chars) :=
        .reported hviable'
      exact hstop

/-- What is in hand is what was there and what has been read. -/
theorem text_eq (h : s.Stop pending reads text) : text = pending ++ reads.reduceOption := by
  cases h with
  | killed => simp [List.reduceOption]
  | reported => simp [List.reduceOption]

end Scanner.Stop

/-! ## Attempts -/

namespace Attempt

variable {s : Scanner} {text text' w : List Char} {n : Nat} {best : Option Match} {tape rest : Tape}
  {verdict : Verdict}

/-- The best match among the first characters depends on these only. -/
theorem Best.congr (h : Best s text n best) (htake : text'.take n = text.take n) :
    Best s text' n best := by
  have hfront {k : Nat} (hk : k ≤ n) : text'.take k = text.take k := by
    rw [← Nat.min_eq_left hk, ← List.take_take, ← List.take_take, htake]
  cases h with
  | none hnone =>
      apply Best.none
      intro k hpos hk
      rw [hfront hk]
      exact hnone k hpos hk
  | some hm hd hid hlater =>
      refine Best.some hm (by rw [hfront hm, hd]) hid ?_
      intro k hlt hk
      rw [hfront hk]
      exact hlater k hlt hk

theorem Best.length_conclude (h : Best s text n best) (pos : 0 < n) :
    (conclude best n pos).length ≤ n := by
  cases h with
  | none => exact Nat.le_refl n
  | some hm => exact hm

/-- An attempt that has read `w`, which may still become a match, and knows the best match in it. -/
structure Underway (s : Scanner) (tape : Tape) (w : List Char) (best : Option Match) : Prop where
  taken : tape.taken.reverse = w
  viable : w = [] ∨ s.Viable w
  best : Best s w w.length best

/-- An attempt that went on from `tape` and has stopped with a verdict. -/
structure Stopped (s : Scanner) (tape rest : Tape) (verdict : Verdict) : Prop where
  reads : ∃ reads, tape.source.Reads reads rest.source ∧ s.Stop tape.held reads rest.held
  settled : Settled s rest.held verdict
  length_le : verdict.length ≤ rest.taken.length

theorem Underway.viable_take (h : Underway s tape w best) {k : Nat} (hpos : 0 < k)
    (hk : k ≤ w.length) : s.Viable (w.take k) := by
  rcases h.viable with rfl | hviable
  · rw [List.length_nil] at hk
    omega
  · rw [← List.take_append_drop k w] at hviable
    exact hviable.of_append

theorem Underway.length_taken (h : Underway s tape w best) : tape.taken.length = w.length := by
  rw [← h.taken, List.length_reverse]

/-- A report of the end of input stops an attempt, with all that is held in hand. -/
theorem Underway.reported (h : Underway s tape w best) (hnext : tape.next = .ok (none, rest))
    (hverdict : verdict = if hzero : w.length = 0 then .finished
      else conclude best w.length (Nat.pos_of_ne_zero hzero)) : Stopped s tape rest verdict := by
  obtain ⟨hahead, hheld, hsource⟩ := Tape.end_next hnext
  have htext : tape.held = w := by rw [Tape.held, h.taken, hahead, List.append_nil]
  have hstop : s.Stop tape.held ([].map some ++ [none]) (tape.held ++ []) := by
    refine .reported ?_
    rw [htext, List.append_nil]
    exact h.viable
  rw [List.append_nil] at hstop
  refine ⟨⟨_, .cons hsource (.nil _), hheld ▸ hstop⟩, ?_, ?_⟩
  · rw [hheld, htext, hverdict]
    split
    · next hzero => exact .finished (List.length_eq_zero_iff.mp hzero)
    · exact settled_of_end h.best rfl fun k => h.viable_take
  · rw [Tape.taken_next hnext, hverdict]
    split
    · exact Nat.zero_le _
    · exact Nat.le_trans (h.best.length_conclude _) (Nat.le_of_eq h.length_taken.symm)

theorem Underway.taken_next (h : Underway s tape w best) {c : Char}
    (hnext : tape.next = .ok (some c, rest)) : rest.taken.reverse = w ++ [c] := by
  rw [Tape.taken_next hnext, ← h.taken]
  simp

/-- A character behind which no match is possible stops an attempt. -/
theorem Underway.killed (h : Underway s tape w best) {c : Char}
    (hnext : tape.next = .ok (some c, rest)) (hdead : ¬ s.Viable (w ++ [c])) :
    Stopped s tape rest (conclude best (w.length + 1) w.length.succ_pos) := by
  have htaken := h.taken_next hnext
  have htext : rest.held = w ++ c :: rest.ahead := by
    rw [Tape.held, htaken, List.append_assoc, List.singleton_append]
  have hne : rest.held ≠ [] := by simp [htext]
  have hdead' : ¬ s.Viable rest.held := by
    rw [Tape.held, htaken]
    exact fun hviable => hdead hviable.of_append
  have hbest : Best s rest.held w.length best := h.best.congr (by simp [htext])
  refine ⟨?_, ?_, ?_⟩
  · rcases Tape.held_next hnext with ⟨hheld, hsource⟩ | ⟨hahead, hheld, hsource⟩
    · -- the character was held already, and nothing is read
      rw [hheld] at hne hdead' ⊢
      have hstop : s.Stop tape.held ([].map some) (tape.held ++ []) :=
        .killed (by rwa [List.append_nil]) (by rwa [List.append_nil]) fun hnil => absurd rfl hnil
      rw [List.append_nil] at hstop
      rw [hsource]
      exact ⟨_, .nil _, hstop⟩
    · have hstop : s.Stop tape.held ([c].map some) (tape.held ++ [c]) := by
        refine .killed (by rwa [← hheld]) (by rwa [← hheld]) fun _ => ?_
        rw [List.dropLast_singleton, List.append_nil, Tape.held, h.taken, hahead, List.append_nil]
        exact h.viable
      rw [← hheld] at hstop
      exact ⟨_, .cons hsource (.nil _), hstop⟩
  · refine settled_of_not_viable hbest (by simp [htext]) (fun k hpos hk => ?_) ?_
    · rw [htext, List.take_append_of_le_length hk]
      exact h.viable_take hpos hk
    · have htake : rest.held.take (w.length + 1) = w ++ [c] := by simp [htext, List.take_append]
      rwa [htake]
  · have hlength : rest.taken.length = w.length + 1 := by
      rw [← List.length_reverse, htaken, List.length_append]
      rfl
    rw [hlength]
    refine (hbest.extend w.length.le_succ ?_).length_conclude _
    intro k hlt hk hmatch
    obtain rfl : k = w.length + 1 := by omega
    have htake : rest.held.take (w.length + 1) = w ++ [c] := by simp [htext, List.take_append]
    rw [htake] at hmatch
    exact hdead hmatch.viable

/-- A character that leaves a match possible keeps an attempt going. -/
theorem Underway.next (h : Underway s tape w best) {c : Char}
    (hnext : tape.next = .ok (some c, rest)) (hviable : s.Viable (w ++ [c])) :
    Underway s rest (w ++ [c]) (improve (s.lanesAfter (w ++ [c])) best (w.length + 1)
      w.length.succ_pos) := by
  refine ⟨h.taken_next hnext, .inr hviable, ?_⟩
  have hbest : Best s (w ++ [c]) w.length best := h.best.congr (by simp)
  have htake : (w ++ [c]).take (w.length + 1) = w ++ [c] := by
    rw [List.take_of_length_le]
    simp
  have himprove := hbest.improve
  rw [htake] at himprove
  rwa [List.length_append, List.length_singleton]

/-- What holds of an attempt from one character on holds of it from the character before. -/
theorem Stopped.of_next {middle : Tape} {c : Char} (hnext : tape.next = .ok (some c, middle))
    (htaken : tape.taken.reverse = w) (hviable : s.Viable (w ++ [c]))
    (h : Stopped s middle rest verdict) : Stopped s tape rest verdict := by
  obtain ⟨⟨reads, hreads, hstop⟩, hsettled, hlength⟩ := h
  refine ⟨?_, hsettled, hlength⟩
  rcases Tape.held_next hnext with ⟨hheld, hsource⟩ | ⟨hahead, hheld, hsource⟩
  · rw [hsource] at hreads
    rw [hheld] at hstop
    exact ⟨reads, hreads, hstop⟩
  · have htext : tape.held = w := by rw [Tape.held, htaken, hahead, List.append_nil]
    rw [hheld] at hstop
    exact ⟨_, .cons hsource hreads, hstop.read (by rwa [htext])⟩

/-- An attempt that does not fail stops, and settles all that it has in hand by then. -/
theorem Underway.stopped (hs : Compiled s.definitions) (h : Underway s tape w best)
    (hlength : n = w.length) (hrun : run (s.lanesAfter w) best n tape = .ok (verdict, rest)) :
    Stopped s tape rest verdict := by
  -- on what is left to be read, which every character that is read diminishes
  induction hunread : tape.unread using Nat.strongRecOn generalizing w n best tape with
  | ind unread ih =>
      subst hlength
      cases hnext : tape.next with
      | error e =>
          rw [run_error hnext] at hrun
          cases hrun
      | ok read =>
          obtain ⟨o, middle⟩ := read
          cases o with
          | none =>
              rw [run_end hnext] at hrun
              split at hrun
              · next hzero =>
                  obtain ⟨rfl, rfl⟩ := Prod.mk.inj (Except.ok.inj hrun)
                  exact h.reported hnext (by rw [dif_pos hzero])
              · next hzero =>
                  obtain ⟨rfl, rfl⟩ := Prod.mk.inj (Except.ok.inj hrun)
                  exact h.reported hnext (by rw [dif_neg hzero])
          | some c =>
              by_cases hviable : s.Viable (w ++ [c])
              · rw [run_viable hs hnext hviable] at hrun
                have hlt := Tape.unread_next hnext
                have hstopped := ih _ (hunread ▸ hlt) (h.next hnext hviable) (by simp) hrun rfl
                exact hstopped.of_next hnext h.taken hviable
              · rw [run_not_viable hs hnext hviable] at hrun
                obtain ⟨rfl, rfl⟩ := Prod.mk.inj (Except.ok.inj hrun)
                exact h.killed hnext hviable

theorem underway_start (htaken : tape.taken = []) : Underway s tape [] none :=
  ⟨by rw [htaken]; rfl, .inl rfl, .none fun k hpos hk => absurd hpos (by simpa using hk)⟩

/-- An attempt from the start of a span. -/
theorem stopped_run (hs : Compiled s.definitions) (htaken : tape.taken = [])
    (hrun : run s.lanes none 0 tape = .ok (verdict, rest)) : Stopped s tape rest verdict :=
  (underway_start htaken).stopped hs rfl hrun

theorem fits_run {lanes : List Lane} {length : Nat} (hfits : tape.Fits)
    (hrun : run lanes best length tape = .ok (verdict, rest)) :
    rest.Fits ∧ rest.capacity = tape.capacity := by
  fun_induction run lanes best length tape with
  | case1 => cases hrun
  | case2 lanes best tape next hnext =>
      obtain ⟨rfl, rfl⟩ := Prod.mk.inj (Except.ok.inj hrun)
      exact ⟨hfits.next hnext, Tape.capacity_next hnext⟩
  | case3 lanes best length tape next hnext =>
      obtain ⟨rfl, rfl⟩ := Prod.mk.inj (Except.ok.inj hrun)
      exact ⟨hfits.next hnext, Tape.capacity_next hnext⟩
  | case4 => cases hrun
  | case5 lanes best length tape c next hnext =>
      obtain ⟨rfl, rfl⟩ := Prod.mk.inj (Except.ok.inj hrun)
      exact ⟨hfits.next hnext, Tape.capacity_next hnext⟩
  | case6 lanes best length tape c next hnext advanced _ _ ih =>
      obtain ⟨hrest, hcapacity⟩ := ih (hfits.next hnext) hrun
      exact ⟨hrest, hcapacity.trans (Tape.capacity_next hnext)⟩

end Attempt

/-! ## Steps -/

namespace Scanner

variable {s : Scanner} {position : Position} {count : Nat} {tape middle rest : Tape}
  {verdict : Verdict} {step : Step} {w : List Char} {span : Span} {e : Error}

/-- What a step makes of the verdict of its attempt, which has left `middle` behind. -/
inductive Commits (s : Scanner) (position : Position) (count : Nat) (middle : Tape) :
    Verdict → Step → Prop where
  | finished : Commits s position count middle .finished (.finished middle)
  | found {m : Match} {d : Definition} {w : List Char} {last : Tape}
      (hcommit : middle.commit m.length = .ok (w, last)) (hd : s.definitions[m.id]? = some d) :
      Commits s position count middle (.found m)
        (.span w (.token ⟨count, position.row, position.col, d.type, .ofList w⟩) last.rewind)
  | unmatched {n : Nat} {pos : 0 < n} {w : List Char} {last : Tape}
      (hcommit : middle.commit n = .ok (w, last)) :
      Commits s position count middle (.unmatched n pos)
        (.span w (.error ⟨position.row, position.col, .ofList w⟩) last.rewind)

/-- Commits what an attempt has concluded. -/
def settle (s : Scanner) (position : Position) (count : Nat) (verdict : Verdict) (tape : Tape) :
    Except Error Step :=
  match verdict with
  | .finished => return .finished tape
  | .found m => do
    let (text, tape) ← tape.commit m.length
    match s.definitions[m.id]? with
    | none => .error (.breach .unknownDefinition)
    | some d =>
      return .span text (.token ⟨count, position.row, position.col, d.type, .ofList text⟩)
        tape.rewind
  | .unmatched length _ => do
    let (text, tape) ← tape.commit length
    return .span text (.error ⟨position.row, position.col, .ofList text⟩) tape.rewind

/-- A step is an attempt, and then what it has concluded is committed. -/
theorem step_eq (s : Scanner) (position : Position) (count : Nat) (tape : Tape) :
    s.step position count tape =
      Attempt.run s.lanes none 0 tape >>= fun result => s.settle position count result.1 result.2 :=
  rfl

theorem settle_eq_ok_iff :
    s.settle position count verdict middle = .ok step ↔
      s.Commits position count middle verdict step := by
  constructor
  · intro hsettle
    cases verdict with
    | finished =>
        obtain rfl := Except.ok.inj hsettle
        exact .finished
    | found m =>
        obtain ⟨⟨w, last⟩, hcommit, hsettle⟩ := bind_eq_ok.mp hsettle
        simp only at hsettle
        split at hsettle
        · cases hsettle
        · next d hd =>
            obtain rfl := Except.ok.inj hsettle
            exact .found hcommit hd
    | unmatched n pos =>
        obtain ⟨⟨w, last⟩, hcommit, hsettle⟩ := bind_eq_ok.mp hsettle
        obtain rfl := Except.ok.inj hsettle
        exact .unmatched hcommit
  · intro hcommits
    cases hcommits with
    | finished => rfl
    | found hcommit hd =>
        refine bind_eq_ok.mpr ⟨_, hcommit, ?_⟩
        simp only [hd]
        rfl
    | unmatched hcommit => exact bind_eq_ok.mpr ⟨_, hcommit, rfl⟩

theorem step_eq_ok_iff : s.step position count tape = .ok step ↔ ∃ verdict middle,
    Attempt.run s.lanes none 0 tape = .ok (verdict, middle) ∧
      s.Commits position count middle verdict step := by
  rw [step_eq, bind_eq_ok, Prod.exists]
  simp only [settle_eq_ok_iff]

/-- A verdict that settles what is in hand can be committed. -/
theorem exists_commits (hs : Compiled s.definitions) (position : Position) (count : Nat)
    (h : Attempt.Stopped s tape middle verdict) :
    ∃ step, s.Commits position count middle verdict step := by
  have hcommit {n : Nat} (hn : n ≤ middle.taken.length) :
      ∃ w last, middle.commit n = .ok (w, last) := ⟨_, _, if_pos hn⟩
  cases verdict with
  | finished => exact ⟨_, .finished⟩
  | found m =>
      obtain ⟨w, last, hw⟩ := hcommit h.length_le
      cases h.settled with
      | found hbest =>
          cases hbest with
          | some hm hwinner hid =>
              have hd := getElem?_winner? hs hwinner
              rw [hid] at hd
              exact ⟨_, .found hw hd⟩
  | unmatched n pos =>
      obtain ⟨w, last, hw⟩ := hcommit h.length_le
      exact ⟨_, .unmatched hw⟩

/-- A step fails only where its attempt does. -/
theorem step_eq_error_iff (hs : Compiled s.definitions) (htaken : tape.taken = []) :
    s.step position count tape = .error e ↔ Attempt.run s.lanes none 0 tape = .error e := by
  constructor
  · intro hstep
    cases hrun : Attempt.run s.lanes none 0 tape with
    | error e' =>
        rw [Scanner.step, hrun, error_bind] at hstep
        rw [Except.error.inj hstep]
    | ok result =>
        obtain ⟨verdict, middle⟩ := result
        obtain ⟨step, hcommits⟩ :=
          exists_commits hs position count (Attempt.stopped_run hs htaken hrun)
        rw [step_eq_ok_iff.mpr ⟨verdict, middle, hrun, hcommits⟩] at hstep
        cases hstep
  · intro hrun
    rw [Scanner.step, hrun, error_bind]

/-- A scan ends with a report of the end of input that comes while nothing is uncommitted. -/
theorem reads_of_finished (hs : Compiled s.definitions) (htaken : tape.taken = [])
    (hstep : s.step position count tape = .ok (.finished rest)) :
    tape.held = [] ∧ tape.source.Reads [none] rest.source := by
  obtain ⟨verdict, middle, hrun, hcommits⟩ := step_eq_ok_iff.mp hstep
  cases hcommits with
  | finished =>
      obtain ⟨⟨reads, hreads, hstop⟩, hsettled, -⟩ := Attempt.stopped_run hs htaken hrun
      cases hsettled with
      | finished htext =>
          rw [htext] at hstop
          generalize htape : tape.held = pending at hstop
          generalize hnil : ([] : List Char) = text at hstop
          cases hstop with
          | killed hne => exact absurd hnil.symm hne
          | reported =>
              obtain ⟨rfl, rfl⟩ := List.append_eq_nil_iff.mp hnil.symm
              exact ⟨rfl, hreads⟩

/-- A span is committed from the front of what its attempt has in hand. -/
theorem stop_of_span (hs : Compiled s.definitions) (htaken : tape.taken = [])
    (hstep : s.step position count tape = .ok (.span w span rest)) :
    ∃ reads, tape.source.Reads reads rest.source ∧ s.Stop tape.held reads (w ++ rest.held) ∧
      w ≠ [] ∧ s.NextSpan position count w rest.held span := by
  obtain ⟨verdict, middle, hrun, hcommits⟩ := step_eq_ok_iff.mp hstep
  obtain ⟨⟨reads, hreads, hstop⟩, hsettled, -⟩ := Attempt.stopped_run hs htaken hrun
  cases hcommits with
  | found hcommit hd =>
      obtain ⟨rfl, hheld, hsource, -⟩ := Tape.held_commit hcommit
      cases hsettled with
      | found hbest =>
          obtain ⟨hne, hspan⟩ := nextSpan_found hs hbest hd
          rw [Tape.held_rewind, hheld, List.take_append_drop]
          exact ⟨reads, hsource ▸ hreads, hstop, hne, hspan⟩
  | unmatched hcommit =>
      obtain ⟨rfl, hheld, hsource, -⟩ := Tape.held_commit hcommit
      obtain ⟨hne, hspan⟩ := nextSpan_unmatched hsettled
      rw [Tape.held_rewind, hheld, List.take_append_drop]
      exact ⟨reads, hsource ▸ hreads, hstop, hne, hspan⟩

/-- A step leaves nothing handed out. -/
theorem taken_of_span (hstep : s.step position count tape = .ok (.span w span rest)) :
    rest.taken = [] := by
  obtain ⟨verdict, middle, -, hcommits⟩ := step_eq_ok_iff.mp hstep
  cases hcommits <;> rfl

/-- A span is not longer than the text that may be held. -/
theorem fits_of_span (hfits : tape.Fits)
    (hstep : s.step position count tape = .ok (.span w span rest)) :
    rest.Fits ∧ rest.capacity = tape.capacity ∧ w.length ≤ tape.capacity := by
  obtain ⟨verdict, middle, hrun, hcommits⟩ := step_eq_ok_iff.mp hstep
  obtain ⟨hmiddle, hcapacity⟩ := Attempt.fits_run hfits hrun
  have hcommitted {n : Nat} {last : Tape} (hcommit : middle.commit n = .ok (w, last)) :
      last.rewind.Fits ∧ last.rewind.capacity = tape.capacity ∧ w.length ≤ tape.capacity := by
    obtain ⟨rfl, -, -, hlast⟩ := Tape.held_commit hcommit
    refine ⟨(hmiddle.commit hcommit).rewind, hlast.trans hcapacity, ?_⟩
    rw [← hcapacity, List.length_take]
    exact (Nat.min_le_right _ _).trans hmiddle
  cases hcommits with
  | found hcommit => exact hcommitted hcommit
  | unmatched hcommit => exact hcommitted hcommit

end Scanner

end MaximalMunch
