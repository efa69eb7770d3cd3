import MaximalMunch.Scan.Source

/-!
# Lookahead

A tape reads ahead of the text that is committed.  Characters that were read can be committed from
the front or handed out again; only so many may be held that are not committed.
-/

namespace MaximalMunch

/-- A source together with the characters read from it and not committed. -/
structure Tape where
  /-- The characters handed out since the last rewind and not committed, the latest first. -/
  taken : List Char
  /-- The characters behind them that are held and will be handed out again. -/
  ahead : List Char
  /-- The number of characters that may be held. -/
  capacity : Nat
  source : Source

namespace Tape

/-- A tape that has not read anything. -/
def ofSource (capacity : Nat) (source : Source) : Tape := ⟨[], [], capacity, source⟩

/-- The characters that are held, in the order of the text. -/
def held (t : Tape) : List Char := t.taken.reverse ++ t.ahead

/-- Hands out the next character, or the report of the end of input.  The source is read only when
all characters that are held have been handed out, and its failures come first. -/
def next (t : Tape) : Except Error (Option Char × Tape) :=
  match t.ahead with
  | c :: ahead => .ok (some c, { t with taken := c :: t.taken, ahead })
  | [] =>
    match t.source.next with
    | .error e => .error e
    | .ok (none, source) => .ok (none, { t with source })
    | .ok (some c, source) =>
      if t.capacity ≤ t.taken.length then .error (.lookaheadExceeded t.capacity)
      else .ok (some c, { t with taken := c :: t.taken, source })

/-- Takes the first characters for good.  The caller promises that they have been handed out. -/
def commit (t : Tape) (count : Nat) : Except Error (List Char × Tape) :=
  if count ≤ t.taken.length then
    .ok (t.taken.reverse.take count, { t with taken := t.taken.take (t.taken.length - count) })
  else .error (.breach .unreadCommit)

/-- Has all characters that are held handed out again. -/
def rewind (t : Tape) : Tape :=
  { t with taken := [], ahead := t.held }

/-- A measure of what can still be handed out. -/
def unread (t : Tape) : Nat := t.ahead.length + t.source.size

/-- A measure of what is not committed. -/
def size (t : Tape) : Nat := t.taken.length + t.unread

theorem unread_next {t rest : Tape} {c : Option Char} (h : t.next = .ok (c, rest)) :
    rest.unread + c.toList.length ≤ t.unread := by
  obtain ⟨taken, ahead, capacity, source⟩ := t
  cases ahead with
  | cons d ahead =>
    obtain ⟨rfl, rfl⟩ := Prod.mk.inj (Except.ok.inj h)
    simp only [unread, List.length_cons, List.length_nil, Option.toList_some]
    omega
  | nil =>
    simp only [next] at h
    split at h
    · cases h
    · next hs =>
      obtain ⟨rfl, rfl⟩ := Prod.mk.inj (Except.ok.inj h)
      have := Source.size_next hs
      simpa [unread] using this
    · next hs =>
      have := Source.size_next hs
      split at h
      · cases h
      · obtain ⟨rfl, rfl⟩ := Prod.mk.inj (Except.ok.inj h)
        simpa [unread] using this

/-- Reading ahead commits nothing. -/
theorem size_next {t rest : Tape} {c : Option Char} (h : t.next = .ok (c, rest)) :
    rest.size ≤ t.size := by
  have hunread := unread_next h
  have htaken : rest.taken.length = t.taken.length + c.toList.length := by
    obtain ⟨taken, ahead, capacity, source⟩ := t
    cases ahead with
    | cons d ahead =>
      obtain ⟨rfl, rfl⟩ := Prod.mk.inj (Except.ok.inj h)
      rfl
    | nil =>
      simp only [next] at h
      split at h
      · cases h
      · obtain ⟨rfl, rfl⟩ := Prod.mk.inj (Except.ok.inj h)
        rfl
      · split at h
        · cases h
        · obtain ⟨rfl, rfl⟩ := Prod.mk.inj (Except.ok.inj h)
          rfl
  simp only [size]
  omega

theorem size_commit {t rest : Tape} {count : Nat} {text : List Char}
    (h : t.commit count = .ok (text, rest)) : rest.size + count = t.size := by
  unfold commit at h
  split at h
  · obtain ⟨rfl, rfl⟩ := Prod.mk.inj (Except.ok.inj h)
    simp only [size, unread, List.length_take]
    omega
  · cases h

@[simp] theorem size_rewind (t : Tape) : t.rewind.size = t.size := by
  simp only [rewind, size, unread, held, List.length_nil, List.length_append, List.length_reverse]
  omega

end Tape

end MaximalMunch
