import MaximalMunch.Proofs.Scan.Attempt

/-!
# Two sources in tandem

Where the bytes that one source hands out are handed out by another one as well, up to the first
failure of the one, a scan of the other goes the same way up to there.  If the other source also
fails where the first one does, and in the same way, then nothing tells the two scans apart.
`Follows` is what this means of two results: each part of a scan maps results that follow to
results that follow.
-/

namespace MaximalMunch

variable {strict : Prop} {α β : Type}

/-- A value is followed by a related one.  Anything may follow an error, unless results are compared
strictly; then it is followed by the same error. -/
inductive Follows (strict : Prop) (R : α → α → Prop) : Except Error α → Except Error α → Prop where
  | ok {a b : α} (h : R a b) : Follows strict R (.ok a) (.ok b)
  | error {e : Error} {result : Except Error α} (h : strict → result = .error e) :
      Follows strict R (.error e) result

theorem Follows.bind {R : α → α → Prop} {S : β → β → Prop} {x y : Except Error α}
    {f g : α → Except Error β} (h : Follows strict R x y)
    (hfg : ∀ a b, R a b → Follows strict S (f a) (g b)) : Follows strict S (x >>= f) (y >>= g) := by
  cases h with
  | ok hab => exact hfg _ _ hab
  | error he =>
      refine .error fun hstrict => ?_
      rw [he hstrict]
      rfl

/-- The same on the left, and related on the right. -/
def Beside (R : α → α → Prop) (x y : β × α) : Prop := x.1 = y.1 ∧ R x.2 y.2

/-! ## Sources -/

namespace Source

/-- Sources so related hand out the same bytes and stay related. -/
def Tandem (strict : Prop) (R : Source → Source → Prop) : Prop :=
  ∀ a b, R a b → Follows strict (Beside R) (readByte a) (readByte b)

variable {R : Source → Source → Prop} {a b : Source}

theorem Tandem.readBytes (h : Tandem strict R) (hab : R a b) (count : Nat) :
    Follows strict (Beside R) (readBytes count a) (readBytes count b) := by
  induction count generalizing a b with
  | zero => exact .ok ⟨rfl, hab⟩
  | succ count ih =>
      unfold Source.readBytes
      refine (h a b hab).bind ?_
      rintro ⟨o, a⟩ ⟨_, b⟩ ⟨rfl, hab⟩
      cases o with
      | none => exact .error fun _ => rfl
      | some byte =>
          refine (ih hab).bind ?_
          rintro ⟨bytes, a⟩ ⟨_, b⟩ ⟨rfl, hab⟩
          exact .ok ⟨rfl, hab⟩

theorem Tandem.next (h : Tandem strict R) (hab : R a b) :
    Follows strict (Beside R) a.next b.next := by
  unfold Source.next
  refine (h a b hab).bind ?_
  rintro ⟨o, a⟩ ⟨_, b⟩ ⟨rfl, hab⟩
  cases o with
  | none => exact .ok ⟨rfl, hab⟩
  | some first =>
      dsimp only
      cases followers? first with
      | none => exact .error fun _ => rfl
      | some count =>
          refine (h.readBytes hab count).bind ?_
          rintro ⟨bytes, a⟩ ⟨_, b⟩ ⟨rfl, hab⟩
          dsimp only
          cases decode? (first :: bytes) with
          | none => exact .error fun _ => rfl
          | some c => exact .ok ⟨rfl, hab⟩

end Source

/-! ## Tapes -/

namespace Tape

/-- Tapes that differ in their sources only, which are related. -/
def Paired (R : Source → Source → Prop) (t t' : Tape) : Prop :=
  ∃ source, t' = { t with source } ∧ R t.source source

variable {R : Source → Source → Prop} {t t' : Tape}

theorem Paired.next (h : Source.Tandem strict R) (hpair : Paired R t t') :
    Follows strict (Beside (Paired R)) t.next t'.next := by
  obtain ⟨source', rfl, hsource⟩ := hpair
  obtain ⟨taken, ahead, capacity, source⟩ := t
  cases ahead with
  | cons c ahead => exact .ok ⟨rfl, source', rfl, hsource⟩
  | nil =>
      have hnext := h.next hsource
      unfold Tape.next
      simp only
      generalize source.next = read at hnext ⊢
      generalize source'.next = read' at hnext ⊢
      cases hnext with
      | error he =>
          refine .error fun hstrict => ?_
          rw [he hstrict]
      | @ok x y hxy =>
          obtain ⟨o, rest⟩ := x
          obtain ⟨_, rest'⟩ := y
          obtain ⟨rfl, hrest⟩ := hxy
          cases o with
          | none => exact .ok ⟨rfl, rest', rfl, hrest⟩
          | some c =>
              simp only
              split
              · exact .error fun _ => rfl
              · exact .ok ⟨rfl, rest', rfl, hrest⟩

theorem Paired.commit (hpair : Paired R t t') (count : Nat) :
    Follows strict (Beside (Paired R)) (t.commit count) (t'.commit count) := by
  obtain ⟨source', rfl, hsource⟩ := hpair
  unfold Tape.commit
  split
  · exact .ok ⟨rfl, source', rfl, hsource⟩
  · exact .error fun _ => rfl

theorem Paired.rewind (hpair : Paired R t t') : Paired R t.rewind t'.rewind := by
  obtain ⟨source', rfl, hsource⟩ := hpair
  exact ⟨source', rfl, hsource⟩

end Tape

/-! ## Attempts, steps and scans -/

variable {R : Source → Source → Prop} {t t' : Tape}

theorem Attempt.follows_run (h : Source.Tandem strict R) (s : Scanner) (w : List Char)
    (best : Option Match) (length : Nat) (hpair : t.Paired R t') :
    Follows strict (Beside (Tape.Paired R)) (run (s.lanesAfter w) best length t)
      (run (s.lanesAfter w) best length t') := by
  -- on what is left to be read from the first tape
  induction hunread : t.unread using Nat.strongRecOn generalizing w best length t t' with
  | ind unread ih =>
      have hfollows := hpair.next h
      cases hnext : t.next with
      | error e =>
          rw [hnext] at hfollows
          generalize hnext' : t'.next = read' at hfollows
          cases hfollows with
          | error he =>
              rw [run_error hnext]
              exact .error fun hstrict => run_error (hnext'.trans (he hstrict))
      | ok read =>
          obtain ⟨o, rest⟩ := read
          rw [hnext] at hfollows
          generalize hnext' : t'.next = read' at hfollows
          cases hfollows with
          | @ok _ read' hread =>
              obtain ⟨_, rest'⟩ := read'
              obtain ⟨rfl, hrest⟩ := hread
              cases o with
              | none =>
                  rw [run_end hnext, run_end hnext']
                  split
                  · exact .ok ⟨rfl, hrest⟩
                  · exact .ok ⟨rfl, hrest⟩
              | some c =>
                  rw [run_next s w hnext, run_next s w hnext']
                  split
                  · exact .ok ⟨rfl, hrest⟩
                  · have hlt : rest.unread < unread := hunread ▸ Tape.unread_next hnext
                    exact ih _ hlt _ _ _ hrest rfl

/-- Steps that do the same and leave related tapes behind. -/
inductive Step.Paired (R : Source → Source → Prop) : Step → Step → Prop where
  | finished {t t' : Tape} (h : t.Paired R t') : Paired R (.finished t) (.finished t')
  | span {w : List Char} {span : Span} {t t' : Tape} (h : t.Paired R t') :
      Paired R (.span w span t) (.span w span t')

theorem Scanner.follows_settle (s : Scanner) (position : Position) (count : Nat)
    (verdict : Verdict) (hpair : t.Paired R t') :
    Follows strict (Step.Paired R) (s.settle position count verdict t)
      (s.settle position count verdict t') := by
  cases verdict with
  | finished => exact .ok (.finished hpair)
  | found m =>
      refine (hpair.commit m.length).bind ?_
      rintro ⟨w, t⟩ ⟨_, t'⟩ ⟨rfl, hpair⟩
      dsimp only
      cases s.definitions[m.id]? with
      | none => exact .error fun _ => rfl
      | some d => exact .ok (.span hpair.rewind)
  | unmatched length pos =>
      refine (hpair.commit length).bind ?_
      rintro ⟨w, t⟩ ⟨_, t'⟩ ⟨rfl, hpair⟩
      exact .ok (.span hpair.rewind)

theorem Scanner.follows_step (h : Source.Tandem strict R) (s : Scanner) (position : Position)
    (count : Nat) (hpair : t.Paired R t') :
    Follows strict (Step.Paired R) (s.step position count t) (s.step position count t') := by
  rw [step_eq, step_eq]
  refine (Attempt.follows_run h s [] none 0 hpair).bind ?_
  rintro ⟨verdict, t⟩ ⟨_, t'⟩ ⟨rfl, hpair⟩
  exact s.follows_settle position count verdict hpair

/-- Scans of which the second goes the same way up to a failure of the first. -/
inductive Scan.Follows (strict : Prop) : Scan → Scan → Prop where
  | ok {spans : List Span} {source source' : Source} :
      Follows strict ⟨spans, .ok source⟩ ⟨spans, .ok source'⟩
  | error {spans later : List Span} {e : Error} {outcome : Except Error Source}
      (h : strict → later = [] ∧ outcome = .error e) :
      Follows strict ⟨spans, .error e⟩ ⟨spans ++ later, outcome⟩

namespace Scan.Follows

variable {scan scan' : Scan}

theorem cons (h : Scan.Follows strict scan scan') (span : Span) :
    Scan.Follows strict { scan with spans := span :: scan.spans }
      { scan' with spans := span :: scan'.spans } := by
  cases h with
  | ok => exact .ok
  | error h => exact .error h

theorem of_nil {e : Error} (h : strict → scan = ⟨[], .error e⟩) :
    Scan.Follows strict ⟨[], .error e⟩ scan := by
  obtain ⟨spans, outcome⟩ := scan
  refine .error fun hstrict => ?_
  obtain ⟨rfl, rfl⟩ := Scan.mk.inj (h hstrict)
  exact ⟨rfl, rfl⟩

/-- No error is taken back. -/
theorem prefix_errors (h : Scan.Follows strict scan scan') : scan.errors <+: scan'.errors := by
  cases h with
  | ok => exact List.prefix_refl _
  | error =>
      unfold Scan.errors
      rw [List.filterMap_append]
      exact List.prefix_append _ _

theorem output_eq (h : Scan.Follows True scan scan') :
    scan.output = scan'.output ∧ scan.errors = scan'.errors := by
  cases h with
  | ok => exact ⟨rfl, rfl⟩
  | error h =>
      obtain ⟨rfl, rfl⟩ := h trivial
      rw [List.append_nil]
      exact ⟨rfl, rfl⟩

end Scan.Follows

theorem Scanner.follows_scanFrom (h : Source.Tandem strict R) (s : Scanner) (position : Position)
    (count : Nat) (hpair : t.Paired R t') :
    Scan.Follows strict (s.scanFrom position count t) (s.scanFrom position count t') := by
  induction hsize : t.size using Nat.strongRecOn generalizing position count t t' with
  | ind size ih =>
      have hfollows := s.follows_step h position count hpair
      generalize hstep' : s.step position count t' = step' at hfollows
      cases hstep : s.step position count t with
      | error e =>
          rw [hstep] at hfollows
          cases hfollows with
          | error he =>
              rw [scanFrom_error hstep]
              refine Scan.Follows.of_nil fun hstrict => ?_
              exact scanFrom_error (hstep'.trans (he hstrict))
      | ok step =>
          rw [hstep] at hfollows
          cases hfollows with
          | ok hpaired =>
              cases hpaired with
              | finished =>
                  rw [scanFrom_finished hstep, scanFrom_finished hstep']
                  exact .ok
              | span hrest =>
                  rw [scanFrom_span hstep, scanFrom_span hstep']
                  exact (ih _ (hsize ▸ size_step hstep) _ _ hrest rfl).cons _

/-- Scans of sources in tandem. -/
theorem Scanner.follows_scan (h : Source.Tandem strict R) (s : Scanner) {a b : Source}
    (hab : R a b) : Scan.Follows strict (s.scan a) (s.scan b) :=
  s.follows_scanFrom h {} 0 ⟨b, rfl, hab⟩

end MaximalMunch
