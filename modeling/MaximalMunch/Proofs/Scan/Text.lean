import MaximalMunch.Scan.Tape

/-!
# Texts as sources

A source that holds a text hands out its characters one after the other and then reports the end
of input for good.  The first byte of an encoded character tells how many bytes follow it, so
decoding never runs into the bytes of the next character.
-/

namespace MaximalMunch

namespace Source

/-! ## Encoded characters -/

/-- The encoded characters of a text. -/
def encode (text : List Char) : List UInt8 := text.flatMap String.utf8EncodeChar

theorem toList_loop (bytes : ByteArray) (i : Nat) (front : List UInt8) :
    ByteArray.toList.loop bytes i front = front.reverse ++ bytes.data.toList.drop i := by
  fun_induction ByteArray.toList.loop bytes i front with
  | case1 i front hi ih =>
      have hlt : i < bytes.data.toList.length := by simpa using hi
      have hget : bytes.get! i = bytes.data.toList[i] := by
        rw [Array.getElem_toList]
        exact getElem!_pos bytes.data i hi
      rw [ih, List.drop_eq_getElem_cons hlt, hget, List.reverse_cons, List.append_assoc]
      rfl
  | case2 i front hi =>
      have hle : bytes.data.toList.length ≤ i := by simpa using hi
      rw [List.drop_of_length_le hle, List.append_nil]

theorem toList_toUTF8 (text : String) : text.toUTF8.toList = encode text.toList := by
  have hbytes : text.toUTF8 = (encode text.toList).toByteArray := by
    rw [String.toUTF8_eq_toByteArray]
    conv => lhs; rw [← String.ofList_toList (s := text), String.toByteArray_ofList]
    rfl
  rw [hbytes, ByteArray.toList, toList_loop, List.toList_data_toByteArray]
  rfl

theorem decode?_utf8EncodeChar (c : Char) : decode? (String.utf8EncodeChar c) = some c := by
  rw [decode?, ← List.utf8Encode_singleton, List.utf8DecodeChar?_utf8Encode_singleton]

/-- A byte with the given number tells how many bytes follow it. -/
theorem followers?_ofNat {v : Nat} (h : v < 256) :
    followers? (UInt8.ofNat v) =
      if v ≤ 127 then some 0 else if 192 ≤ v ∧ v ≤ 223 then some 1
      else if 224 ≤ v ∧ v ≤ 239 then some 2 else if 240 ≤ v ∧ v ≤ 247 then some 3 else none := by
  have hnat : (UInt8.ofNat v).toNat = v := UInt8.toNat_ofNat_of_lt h
  simp only [followers?, UInt8.le_iff_toNat_le, hnat]
  rfl

/-- The first byte of an encoded character tells its length. -/
theorem exists_utf8EncodeChar (c : Char) : ∃ first others,
    String.utf8EncodeChar c = first :: others ∧ followers? first = some others.length := by
  rw [String.utf8EncodeChar]
  split
  · next h1 =>
      refine ⟨_, _, rfl, ?_⟩
      rw [followers?_ofNat (by omega), if_pos h1]
      rfl
  · split
    · refine ⟨_, _, rfl, ?_⟩
      rw [followers?_ofNat (by omega), if_neg (by omega), if_pos (by omega)]
      rfl
    · split
      · refine ⟨_, _, rfl, ?_⟩
        rw [followers?_ofNat (by omega), if_neg (by omega), if_neg (by omega), if_pos (by omega)]
        rfl
      · refine ⟨_, _, rfl, ?_⟩
        rw [followers?_ofNat (by omega), if_neg (by omega), if_neg (by omega), if_neg (by omega),
          if_pos (by omega)]
        rfl

/-! ## Reading a text -/

/-- A source that yields the given bytes, and from then on the end of input. -/
def remaining : List UInt8 → Source
  | [] => []
  | b :: bytes => [.chunk (b :: bytes)]

/-- What is left of a source that yields a text and from then on the end of input.  The source of
an empty text has to be read once. -/
def Holds (source : Source) (text : List Char) : Prop :=
  source = remaining (encode text) ∨ text = [] ∧ source = ofBytes []

theorem holds_ofText (text : String) : Holds (ofText text) text.toList := by
  rw [ofText, toList_toUTF8]
  cases hbytes : encode text.toList with
  | cons b bytes =>
      left
      rw [hbytes]
      rfl
  | nil =>
      right
      refine ⟨?_, rfl⟩
      cases htext : text.toList with
      | nil => rfl
      | cons c rest =>
          obtain ⟨first, others, hfirst, -⟩ := exists_utf8EncodeChar c
          rw [htext, encode, List.flatMap_cons, hfirst] at hbytes
          cases hbytes

theorem readByte_remaining (b : UInt8) (bytes : List UInt8) :
    readByte (remaining (b :: bytes)) = .ok (some b, remaining bytes) := by
  cases bytes <;> rfl

theorem readBytes_remaining (bytes rest : List UInt8) :
    readBytes bytes.length (remaining (bytes ++ rest)) = .ok (bytes, remaining rest) := by
  induction bytes with
  | nil => rfl
  | cons b bytes ih =>
      rw [List.length_cons, readBytes, List.cons_append, readByte_remaining, ok_bind]
      simp only [ih, ok_bind]
      rfl

theorem next_cons {source : Source} {c : Char} {text : List Char}
    (h : Holds source (c :: text)) :
    ∃ rest, next source = .ok (some c, rest) ∧ Holds rest text := by
  rcases h with rfl | ⟨hnil, -⟩
  · obtain ⟨first, others, hc, hfollowers⟩ := exists_utf8EncodeChar c
    have hdecode := decode?_utf8EncodeChar c
    rw [hc] at hdecode
    refine ⟨remaining (encode text), ?_, .inl rfl⟩
    have hencode : encode (c :: text) = first :: (others ++ encode text) := by
      rw [encode, List.flatMap_cons, hc]
      rfl
    rw [next, hencode, readByte_remaining, ok_bind]
    simp only [hfollowers, readBytes_remaining, ok_bind, hdecode]
    rfl
  · cases hnil

theorem next_nil {source : Source} (h : Holds source []) :
    ∃ rest, next source = .ok (none, rest) ∧ Holds rest [] := by
  rcases h with rfl | ⟨-, rfl⟩
  · exact ⟨[], rfl, .inl rfl⟩
  · exact ⟨[], rfl, .inl rfl⟩

end Source

/-! ## Reading ahead in a text -/

namespace Tape

/-- All that a tape has not committed, read or not. -/
def Holds (tape : Tape) (text : List Char) : Prop :=
  ∃ unread, text = tape.held ++ unread ∧ tape.source.Holds unread

variable {tape rest : Tape} {text lexeme : List Char} {count : Nat}

theorem holds_ofText (capacity : Nat) (text : String) :
    (ofSource capacity (.ofText text)).Holds text.toList :=
  ⟨text.toList, rfl, Source.holds_ofText text⟩

/-- The next character of the text, or its end, is handed out unless too much is held. -/
theorem Holds.next {c : Option Char} (h : tape.Holds text) (hnext : tape.next = .ok (c, rest)) :
    c = text[tape.taken.length]? ∧ rest.Holds text ∧ rest.taken = c.toList ++ tape.taken := by
  obtain ⟨unread, rfl, hsource⟩ := h
  obtain ⟨taken, ahead, capacity, source⟩ := tape
  cases ahead with
  | cons d ahead =>
      -- a character that was read before is handed out again
      obtain ⟨rfl, rfl⟩ := Prod.mk.inj (Except.ok.inj hnext)
      refine ⟨?_, ⟨unread, ?_, hsource⟩, rfl⟩
      · simp [held]
      · simp [held]
  | nil =>
      simp only [Tape.next] at hnext
      cases unread with
      | nil =>
          obtain ⟨source', hread, hsource'⟩ := Source.next_nil hsource
          simp only [hread] at hnext
          obtain ⟨rfl, rfl⟩ := Prod.mk.inj (Except.ok.inj hnext)
          refine ⟨?_, ⟨[], rfl, hsource'⟩, rfl⟩
          simp [held]
      | cons d unread =>
          obtain ⟨source', hread, hsource'⟩ := Source.next_cons hsource
          simp only [hread] at hnext
          split at hnext
          · cases hnext
          · obtain ⟨rfl, rfl⟩ := Prod.mk.inj (Except.ok.inj hnext)
            refine ⟨?_, ⟨unread, ?_, hsource'⟩, rfl⟩
            · simp [held]
            · simp [held]

theorem Holds.commit (h : tape.Holds text) (hcommit : tape.commit count = .ok (lexeme, rest)) :
    lexeme = text.take count ∧ rest.Holds (text.drop count) := by
  obtain ⟨unread, rfl, hsource⟩ := h
  unfold Tape.commit at hcommit
  split at hcommit
  · next hle =>
      obtain ⟨rfl, rfl⟩ := Prod.mk.inj (Except.ok.inj hcommit)
      -- the characters committed are the oldest ones, so the tape ends with them
      have hle' : count ≤ tape.taken.reverse.length := by rwa [List.length_reverse]
      constructor
      · rw [held, List.append_assoc, List.take_append_of_le_length hle']
      · refine ⟨unread, ?_, hsource⟩
        rw [held, List.append_assoc, List.drop_append_of_le_length hle', held, List.append_assoc]
        congr 1
        rw [List.drop_reverse]
  · cases hcommit

theorem Holds.rewind (h : tape.Holds text) : tape.rewind.Holds text := by
  obtain ⟨unread, rfl, hsource⟩ := h
  exact ⟨unread, rfl, hsource⟩

end Tape

end MaximalMunch
