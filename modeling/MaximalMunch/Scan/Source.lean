import MaximalMunch.Error

/-!
# Sources

A source is played from a script of events: chunks of bytes, interruptions and failures.  Bytes are
read one at a time and decoded to characters.  How the bytes are cut into chunks and how often
reading is interrupted does not show; a report of the end of input, which an empty chunk makes,
does not hold for the reads behind it.
-/

namespace MaximalMunch

/-- What a source has to say when it is read. -/
inductive Event where
  /-- Bytes to be read; no bytes report the end of input once. -/
  | chunk (bytes : List UInt8)
  /-- The read is to be tried again. -/
  | interrupt
  /-- The read fails. -/
  | failure (message : String)
  deriving DecidableEq, Repr

/-- The events that are still to come.  Behind the last one every read reports the end of input. -/
abbrev Source := List Event

namespace Source

/-- A measure that every event and every byte adds to. -/
def size : Source → Nat
  | [] => 0
  | .chunk bytes :: rest => bytes.length + 1 + size rest
  | _ :: rest => 1 + size rest

/-- Reads a byte, or the report of the end of input. -/
def readByte : Source → Except Error (Option UInt8 × Source)
  | [] => .ok (none, [])
  | .chunk [] :: rest => .ok (none, rest)
  | .chunk [b] :: rest => .ok (some b, rest)
  | .chunk (b :: bytes) :: rest => .ok (some b, .chunk bytes :: rest)
  | .interrupt :: rest => readByte rest
  | .failure message :: _ => .error (.sourceUnavailable (.failed message))

/-- The number of bytes that follow the first byte of an encoded character. -/
def followers? (first : UInt8) : Option Nat :=
  if first ≤ 0x7F then some 0
  else if 0xC0 ≤ first ∧ first ≤ 0xDF then some 1
  else if 0xE0 ≤ first ∧ first ≤ 0xEF then some 2
  else if 0xF0 ≤ first ∧ first ≤ 0xF7 then some 3
  else none

/-- The error for bytes that encode no character. -/
def invalid : Error := .sourceUnavailable .invalidUtf8

/-- Reads the given number of bytes, none of which may be missing. -/
def readBytes : Nat → Source → Except Error (List UInt8 × Source)
  | 0, source => .ok ([], source)
  | count + 1, source => do
    match ← readByte source with
    | (none, _) => .error invalid
    | (some b, source) =>
      let (bytes, source) ← readBytes count source
      return (b :: bytes, source)

/-- The character that bytes encode. -/
def decode? (bytes : List UInt8) : Option Char :=
  bytes.toByteArray.utf8DecodeChar? 0

/-- Reads a character, or the report of the end of input. -/
def next (source : Source) : Except Error (Option Char × Source) := do
  match ← readByte source with
  | (none, source) => return (none, source)
  | (some first, source) =>
    match followers? first with
    | none => .error invalid
    | some count =>
      let (bytes, source) ← readBytes count source
      match decode? (first :: bytes) with
      | none => .error invalid
      | some c => return (some c, source)

/-- A source that yields the given bytes and then the end of input. -/
def ofBytes (bytes : List UInt8) : Source := [.chunk bytes]

/-- A source that yields a text and then the end of input. -/
def ofText (text : String) : Source := ofBytes text.toUTF8.toList

/-- A byte that is read no longer counts. -/
theorem size_readByte {source rest : Source} {b : Option UInt8}
    (h : readByte source = .ok (b, rest)) :
    size rest + b.toList.length ≤ size source := by
  fun_induction readByte source with
  | case1 =>
    obtain ⟨rfl, rfl⟩ := Prod.mk.inj (Except.ok.inj h)
    simp
  | case2 tail =>
    obtain ⟨rfl, rfl⟩ := Prod.mk.inj (Except.ok.inj h)
    simp [size]
  | case3 b tail =>
    obtain ⟨rfl, rfl⟩ := Prod.mk.inj (Except.ok.inj h)
    simp only [size, List.length_cons, List.length_nil, Option.toList_some]
    omega
  | case4 b bytes tail _ =>
    obtain ⟨rfl, rfl⟩ := Prod.mk.inj (Except.ok.inj h)
    simp only [size, List.length_cons, List.length_nil, Option.toList_some]
    omega
  | case5 tail ih =>
    have := ih h
    simp only [size]
    omega
  | case6 => cases h

theorem size_readBytes {count : Nat} {source rest : Source} {bytes : List UInt8}
    (h : readBytes count source = .ok (bytes, rest)) : size rest ≤ size source := by
  induction count generalizing source bytes with
  | zero =>
    obtain ⟨rfl, rfl⟩ := Prod.mk.inj (Except.ok.inj h)
    exact Nat.le_refl _
  | succ count ih =>
    obtain ⟨⟨_ | b, middle⟩, hb, h⟩ := bind_eq_ok.1 h
    · cases h
    · obtain ⟨⟨others, last⟩, hr, h⟩ := bind_eq_ok.1 h
      obtain ⟨rfl, rfl⟩ := Prod.mk.inj (Except.ok.inj h)
      have := size_readByte hb
      have := ih hr
      omega

/-- A character that is read takes at least one byte. -/
theorem size_next {source rest : Source} {c : Option Char} (h : next source = .ok (c, rest)) :
    size rest + c.toList.length ≤ size source := by
  obtain ⟨⟨_ | first, middle⟩, hb, h⟩ := bind_eq_ok.1 h
  · obtain ⟨rfl, rfl⟩ := Prod.mk.inj (Except.ok.inj h)
    exact size_readByte hb
  · have hfirst := size_readByte hb
    simp only at h
    split at h
    · cases h
    · obtain ⟨⟨bytes, last⟩, hr, h⟩ := bind_eq_ok.1 h
      have hbytes := size_readBytes hr
      simp only at h
      split at h
      · cases h
      · obtain ⟨rfl, rfl⟩ := Prod.mk.inj (Except.ok.inj h)
        simp at hfirst ⊢
        omega

end Source

end MaximalMunch
