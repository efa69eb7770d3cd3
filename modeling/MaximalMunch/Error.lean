import MaximalMunch.Pattern.Fault

/-!
# Errors

Every operation of the library that can fail fails with an `Error`, which names the cause.  The
last kind, `breach`, is a broken promise of the caller.  `Error.message` holds all wordings.
-/

namespace MaximalMunch

/-- An automaton that cannot be formed as requested. -/
inductive StateFault where
  /-- A start or final state outside of an NFA. -/
  | nfaState (state states : Nat)
  /-- A transition of an NFA with an end outside of it. -/
  | nfaTransition (source target states : Nat)
  /-- A state outside of a DFA. -/
  | dfaState (state states : Nat)
  /-- A fragment whose final states are not exactly one. -/
  | finalCount (found : Nat)
  deriving DecidableEq, Repr

/-- The wording of a state fault. -/
def StateFault.message : StateFault → String
  | .nfaState state states =>
    "state " ++ toString state ++ " is out of range for an NFA with " ++ toString states ++ " states"
  | .nfaTransition source target states =>
    "transition " ++ toString source ++ " -> " ++ toString target ++
      " is out of range for an NFA with " ++ toString states ++ " states"
  | .dfaState state states =>
    "state " ++ toString state ++ " is out of range for a DFA with " ++ toString states ++ " states"
  | .finalCount found =>
    "a fragment needs exactly one final state, found " ++ toString found

/-- A source that yields no character and no end of input. -/
inductive SourceFault where
  /-- The bytes are not the encoding of a character. -/
  | invalidUtf8
  /-- Reading failed, with the reader's own words. -/
  | failed (message : String)
  deriving DecidableEq, Repr

/-- The wording of a source fault. -/
def SourceFault.message : SourceFault → String
  | .invalidUtf8 => "input is not valid UTF-8"
  | .failed message => message

/-- A line that holds no definition. -/
inductive LineFault where
  /-- No space stands between a type and a pattern. -/
  | missingSeparator
  /-- The line begins with the separator. -/
  | missingType
  deriving DecidableEq, Repr

/-- The wording of a line fault. -/
def LineFault.message : LineFault → String
  | .missingSeparator => "line does not contain a separator"
  | .missingType => "missing token type"

/-- A promise that the caller of an operation did not keep. -/
inductive Breach where
  /-- A run without a state was advanced. -/
  | deadRun
  /-- A set names a state that the automaton does not have. -/
  | unknownState
  /-- An index beyond the definitions of a scanner. -/
  | unknownDefinition
  /-- More characters were committed than had been read. -/
  | unreadCommit
  deriving DecidableEq, Repr

/-- The wording of a breach, for those that have one. -/
def Breach.message? : Breach → Option String
  | .deadRun => some "Advancing a DFA run while in dead state"
  | .unknownState | .unknownDefinition | .unreadCommit => none

/-- The place of a definition among others: its index and its token type. -/
structure Site where
  index : Nat
  type : String
  deriving DecidableEq, Repr

/-- Why an operation failed. -/
inductive Error where
  /-- A pattern is malformed; `site` tells the definition it belongs to. -/
  | malformedPattern (pattern : String) (site : Option Site) (fault : Pattern.Fault)
  | invalidState (fault : StateFault)
  | sourceUnavailable (fault : SourceFault)
  /-- A match attempt needs more characters than the lookahead may hold. -/
  | lookaheadExceeded (capacity : Nat)
  /-- A line of a definitions text, counted from one, is malformed. -/
  | invalidDefinition (line : Nat) (fault : LineFault)
  /-- A definitions file is missing or not a text. -/
  | unreadableFile
  | breach (kind : Breach)
  deriving DecidableEq, Repr

/-- The wording of a fault together with the definition it was found in. -/
def Pattern.Fault.messageAt (fault : Pattern.Fault) : Option Site → String
  | none => fault.message
  | some site =>
    "definition #" ++ toString site.index ++ " '" ++ site.type ++ "': " ++ fault.message

/-- The wording of an error, for those that have one. -/
def Error.message? : Error → Option String
  | .malformedPattern pattern site fault =>
    some ("Malformed pattern '" ++ pattern ++ "': " ++ fault.messageAt site)
  | .invalidState fault => some ("Invalid automaton state: " ++ fault.message)
  | .sourceUnavailable fault => some ("Source unavailable: " ++ fault.message)
  | .lookaheadExceeded capacity =>
    some ("Lookahead buffer capacity of " ++ toString capacity ++ " characters exceeded")
  | .invalidDefinition line fault =>
    some ("Invalid definition in line " ++ toString line ++ ": " ++ fault.message)
  | .unreadableFile => none
  | .breach kind => kind.message?

/-- Names the definition that a malformed pattern belongs to. -/
def Error.inDefinition (index : Nat) (type : String) : Error → Error
  | .malformedPattern pattern _ fault => .malformedPattern pattern (some ⟨index, type⟩) fault
  | error => error

@[simp]
theorem ok_bind {ε α β : Type} (a : α) (f : α → Except ε β) : (Except.ok a >>= f) = f a := rfl

@[simp]
theorem error_bind {ε α β : Type} (e : ε) (f : α → Except ε β) :
    (Except.error e >>= f) = .error e := rfl

/-- A computation in two parts yields a value exactly when both parts do. -/
theorem bind_eq_ok {ε α β : Type} {x : Except ε α} {f : α → Except ε β} {b : β} :
    (x >>= f) = .ok b ↔ ∃ a, x = .ok a ∧ f a = .ok b := by
  cases x with
  | error e => simp [bind, Except.bind]
  | ok a => simp [bind, Except.bind]

/-- A computation in two parts fails exactly when one of them does. -/
theorem bind_eq_error {ε α β : Type} {x : Except ε α} {f : α → Except ε β} {e : ε} :
    (x >>= f) = .error e ↔ x = .error e ∨ ∃ a, x = .ok a ∧ f a = .error e := by
  cases x with
  | error e => simp [bind, Except.bind]
  | ok a => simp [bind, Except.bind]

/-- A changed result comes from a result. -/
theorem map_eq_ok {ε α β : Type} {x : Except ε α} {f : α → β} {b : β} :
    x.map f = .ok b ↔ ∃ a, x = .ok a ∧ f a = b := by
  cases x with
  | error e => simp [Except.map]
  | ok a => simp [Except.map]

theorem map_eq_error {ε α β : Type} {x : Except ε α} {f : α → β} {e : ε} :
    x.map f = .error e ↔ x = .error e := by
  cases x with
  | error e => simp [Except.map]
  | ok a => simp [Except.map]

/-- What holds of some result of a computation holds of its result. -/
theorem of_exists_ok {ε α : Type} {x : Except ε α} {P : α → Prop} {a : α}
    (h : ∃ b, x = .ok b ∧ P b) (ha : x = .ok a) : P a := by
  obtain ⟨b, hb, hP⟩ := h
  rwa [← Except.ok.inj (hb.symm.trans ha)]

/-- A call without a result. -/
def Fails {ε α : Type} (result : Except ε α) : Prop := ∃ e, result = .error e

theorem fails_iff {ε α : Type} {result : Except ε α} : Fails result ↔ ¬∃ a, result = .ok a := by
  cases result with
  | error e => simp [Fails]
  | ok a => simp [Fails]

end MaximalMunch
