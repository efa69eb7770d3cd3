import Mathlib.Data.List.ReduceOption
import MaximalMunch.Proofs.Scan.Text

/-!
# Sources as streams

A source that is read again and again hands out characters and reports of the end of input.
`Reads` records them in their order, and `Reads.bytes_eq` says what they cost: the bytes that the
source has lost are the encoded characters, neither more nor fewer.  A tape reads its source only
when all that it holds has been handed out, so what it holds grows by what the source yields.
-/

namespace MaximalMunch

namespace Source

/-! ## The bytes of a source -/

/-- The bytes that are still to come, however they are cut into chunks. -/
def bytes : Source → List UInt8
  | [] => []
  | .chunk bytes :: rest => bytes ++ Source.bytes rest
  | .interrupt :: rest => Source.bytes rest
  | .failure _ :: rest => Source.bytes rest

/-- What successive reads of a source hand out; `none` is a report of the end of input. -/
inductive Reads : Source → List (Option Char) → Source → Prop where
  | nil (source : Source) : Reads source [] source
  | cons {source middle rest : Source} {o : Option Char} {reads : List (Option Char)}
      (hnext : source.next = .ok (o, middle)) (hreads : Reads middle reads rest) :
      Reads source (o :: reads) rest

theorem Reads.trans {source middle rest : Source} {reads later : List (Option Char)}
    (h : Reads source reads middle) (h' : Reads middle later rest) :
    Reads source (reads ++ later) rest := by
  induction h with
  | nil => exact h'
  | cons hnext _ ih => exact .cons hnext (ih h')

theorem bytes_readByte {source rest : Source} {b : Option UInt8}
    (h : readByte source = .ok (b, rest)) : source.bytes = b.toList ++ rest.bytes := by
  fun_induction readByte source with
  | case1 =>
      obtain ⟨rfl, rfl⟩ := Prod.mk.inj (Except.ok.inj h)
      rfl
  | case2 =>
      obtain ⟨rfl, rfl⟩ := Prod.mk.inj (Except.ok.inj h)
      rfl
  | case3 =>
      obtain ⟨rfl, rfl⟩ := Prod.mk.inj (Except.ok.inj h)
      rfl
  | case4 =>
      obtain ⟨rfl, rfl⟩ := Prod.mk.inj (Except.ok.inj h)
      rfl
  | case5 tail ih => exact ih h
  | case6 => cases h

theorem bytes_readBytes {count : Nat} {source rest : Source} {bytes : List UInt8}
    (h : readBytes count source = .ok (bytes, rest)) :
    bytes.length = count ∧ source.bytes = bytes ++ rest.bytes := by
  induction count generalizing source bytes with
  | zero =>
      obtain ⟨rfl, rfl⟩ := Prod.mk.inj (Except.ok.inj h)
      exact ⟨rfl, rfl⟩
  | succ count ih =>
      obtain ⟨⟨_ | b, middle⟩, hbyte, h⟩ := bind_eq_ok.mp h
      · cases h
      · obtain ⟨⟨others, last⟩, hothers, h⟩ := bind_eq_ok.mp h
        obtain ⟨rfl, rfl⟩ := Prod.mk.inj (Except.ok.inj h)
        obtain ⟨hlength, hbytes⟩ := ih hothers
        refine ⟨by rw [List.length_cons, hlength], ?_⟩
        rw [bytes_readByte hbyte, hbytes]
        rfl

/-- A character is decoded only from its own encoding: the first byte tells its length, so no byte
is left over. -/
theorem eq_utf8EncodeChar_of_decode? {first : UInt8} {others : List UInt8} {c : Char}
    (hfollowers : followers? first = some others.length)
    (hdecode : decode? (first :: others) = some c) : first :: others = String.utf8EncodeChar c := by
  obtain ⟨extra, hextra⟩ := ByteArray.exists_of_utf8DecodeChar?_eq_some hdecode
  have hbytes : first :: others = String.utf8EncodeChar c ++ extra.data.toList := by
    have hlist := congrArg (·.data.toList) hextra
    simpa using hlist
  obtain ⟨first', others', hc, hfollowers'⟩ := exists_utf8EncodeChar c
  rw [hc, List.cons_append] at hbytes
  rw [hc]
  obtain ⟨rfl, hothers⟩ := List.cons.inj hbytes
  have hlength : others.length = others'.length :=
    Option.some.inj (hfollowers.symm.trans hfollowers')
  rw [hothers, List.length_append] at hlength
  have hnil : extra.data.toList = [] := List.length_eq_zero_iff.mp (by omega)
  rw [hothers, hnil, List.append_nil]

/-- A read takes exactly the bytes of the character that it hands out. -/
theorem bytes_next {source rest : Source} {o : Option Char} (h : next source = .ok (o, rest)) :
    source.bytes = encode o.toList ++ rest.bytes := by
  obtain ⟨⟨_ | first, middle⟩, hbyte, h⟩ := bind_eq_ok.mp h
  · obtain ⟨rfl, rfl⟩ := Prod.mk.inj (Except.ok.inj h)
    exact bytes_readByte hbyte
  · simp only at h
    split at h
    · cases h
    · next count hfollowers =>
        obtain ⟨⟨others, last⟩, hothers, h⟩ := bind_eq_ok.mp h
        obtain ⟨hlength, hrest⟩ := bytes_readBytes hothers
        rw [← hlength] at hfollowers
        simp only at h
        split at h
        · cases h
        · next c hdecode =>
            obtain ⟨rfl, rfl⟩ := Prod.mk.inj (Except.ok.inj h)
            rw [bytes_readByte hbyte, hrest]
            show (first :: others) ++ last.bytes = (String.utf8EncodeChar c ++ []) ++ last.bytes
            rw [eq_utf8EncodeChar_of_decode? hfollowers hdecode, List.append_nil]

theorem encode_append (text text' : List Char) :
    encode (text ++ text') = encode text ++ encode text' :=
  List.flatMap_append

/-- Reads take exactly the bytes of the characters that they hand out. -/
theorem Reads.bytes_eq {source rest : Source} {reads : List (Option Char)}
    (h : Reads source reads rest) : source.bytes = encode reads.reduceOption ++ rest.bytes := by
  induction h with
  | nil => rfl
  | @cons _ _ _ o reads hnext _ ih =>
      have hreads : (o :: reads).reduceOption = o.toList ++ reads.reduceOption := by
        cases o <;> simp
      rw [bytes_next hnext, ih, hreads, encode_append, List.append_assoc]

end Source

/-! ## What a tape holds -/

namespace Tape

variable {t rest : Tape} {o : Option Char} {count : Nat} {text : List Char}

/-- A tape hands out what it holds, and only then what its source yields. -/
theorem next_cases (h : t.next = .ok (o, rest)) :
    (∃ c ahead, t.ahead = c :: ahead ∧ o = some c ∧
      rest = { t with taken := c :: t.taken, ahead }) ∨
    ∃ source, t.ahead = [] ∧ t.source.next = .ok (o, source) ∧
      (o ≠ none → t.taken.length < t.capacity) ∧
      rest = { t with taken := o.toList ++ t.taken, source } := by
  obtain ⟨taken, ahead, capacity, source⟩ := t
  cases ahead with
  | cons c ahead =>
      obtain ⟨rfl, rfl⟩ := Prod.mk.inj (Except.ok.inj h)
      exact .inl ⟨c, ahead, rfl, rfl, rfl⟩
  | nil =>
      right
      simp only [next] at h
      split at h
      · cases h
      · next source' hsource =>
          obtain ⟨rfl, rfl⟩ := Prod.mk.inj (Except.ok.inj h)
          exact ⟨source', rfl, hsource, fun hne => absurd rfl hne, rfl⟩
      · next c source' hsource =>
          split at h
          · cases h
          · next hroom =>
              obtain ⟨rfl, rfl⟩ := Prod.mk.inj (Except.ok.inj h)
              exact ⟨source', rfl, hsource, fun _ => Nat.lt_of_not_le hroom, rfl⟩

theorem taken_next (h : t.next = .ok (o, rest)) : rest.taken = o.toList ++ t.taken := by
  rcases next_cases h with ⟨c, ahead, -, rfl, rfl⟩ | ⟨source, -, -, -, rfl⟩
  · rfl
  · rfl

theorem capacity_next (h : t.next = .ok (o, rest)) : rest.capacity = t.capacity := by
  rcases next_cases h with ⟨c, ahead, -, -, rfl⟩ | ⟨source, -, -, -, rfl⟩
  · rfl
  · rfl

/-- A character comes from what is held, or from the source once all that is held is handed out. -/
theorem held_next {c : Char} (h : t.next = .ok (some c, rest)) :
    rest.held = t.held ∧ rest.source = t.source ∨
      t.ahead = [] ∧ rest.held = t.held ++ [c] ∧ t.source.next = .ok (some c, rest.source) := by
  rcases next_cases h with ⟨d, ahead, hahead, hc, rfl⟩ | ⟨source, hahead, hsource, -, rfl⟩
  · obtain rfl := Option.some.inj hc
    left
    simp [held, hahead]
  · right
    exact ⟨hahead, by simp [held, hahead], hsource⟩

/-- A report of the end of input comes from the source. -/
theorem end_next (h : t.next = .ok (none, rest)) :
    t.ahead = [] ∧ rest.held = t.held ∧ t.source.next = .ok (none, rest.source) := by
  rcases next_cases h with ⟨d, ahead, -, hnone, -⟩ | ⟨source, hahead, hsource, -, rfl⟩
  · cases hnone
  · exact ⟨hahead, rfl, hsource⟩

/-- What is committed is the front of what is held. -/
theorem held_commit (h : t.commit count = .ok (text, rest)) :
    text = t.held.take count ∧ rest.held = t.held.drop count ∧ rest.source = t.source ∧
      rest.capacity = t.capacity := by
  unfold commit at h
  split at h
  · next hle =>
      obtain ⟨rfl, rfl⟩ := Prod.mk.inj (Except.ok.inj h)
      have hle' : count ≤ t.taken.reverse.length := by rwa [List.length_reverse]
      refine ⟨?_, ?_, rfl, rfl⟩
      · rw [held, List.take_append_of_le_length hle']
      · rw [held, held, List.drop_append_of_le_length hle', List.drop_reverse]
  · cases h

@[simp] theorem held_rewind (t : Tape) : t.rewind.held = t.held := rfl

/-- No more is held than may be. -/
def Fits (t : Tape) : Prop := t.held.length ≤ t.capacity

theorem Fits.ofSource (capacity : Nat) (source : Source) : (ofSource capacity source).Fits :=
  Nat.zero_le _

theorem Fits.taken_le (h : t.Fits) : t.taken.length ≤ t.capacity := by
  rw [Fits, held, List.length_append, List.length_reverse] at h
  omega

theorem Fits.next (h : t.Fits) (hnext : t.next = .ok (o, rest)) : rest.Fits := by
  unfold Fits held at *
  rcases next_cases hnext with ⟨c, ahead, hahead, -, rfl⟩ | ⟨source, hahead, -, hroom, rfl⟩
  · rw [hahead] at h
    simp only [List.length_append, List.length_reverse, List.length_cons] at h ⊢
    omega
  · cases o with
    | none => exact h
    | some c =>
        have hroom := hroom (Option.some_ne_none c)
        simp only [hahead, List.append_nil, List.length_reverse, Option.toList_some,
          List.singleton_append, List.length_cons]
        omega

theorem Fits.commit (h : t.Fits) (hcommit : t.commit count = .ok (text, rest)) : rest.Fits := by
  obtain ⟨-, hheld, -, hcapacity⟩ := held_commit hcommit
  unfold Fits at *
  rw [hheld, hcapacity, List.length_drop]
  omega

theorem Fits.rewind (h : t.Fits) : t.rewind.Fits := h

end Tape

end MaximalMunch
