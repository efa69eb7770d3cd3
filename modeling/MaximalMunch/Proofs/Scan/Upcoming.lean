import MaximalMunch.Proofs.Scan.Delivery

/-!
# The stream behind a source

`Source.text` holds all characters that a source is still going to hand out, and `PausesAt` says
behind how many of them it reports the end of input; only a source that yields a text does so
nowhere but at its end.  Reading a source takes characters from the front of its stream
(`Reads.text_eq`).
-/

namespace MaximalMunch

namespace Source

variable {source middle rest tail : Source} {o : Option Char} {c : Char} {e : Error}
  {reads : List (Option Char)} {stream : List Char}

/-- The characters that are still to come up to a failure.  Reports of the end of input that do not
hold for the reads behind them are passed over. -/
def text (source : Source) : List Char :=
  match _ : source.next with
  | .error _ => []
  | .ok (none, rest) => if rest.size < source.size then text rest else []
  | .ok (some c, rest) => c :: text rest
termination_by source.size
decreasing_by
  · assumption
  · exact size_next ‹source.next = .ok (some c, rest)›

theorem text_of_some (h : source.next = .ok (some c, rest)) : source.text = c :: rest.text := by
  rw [text]
  split
  · next hnext =>
      rw [h] at hnext
      cases hnext
  · next hnext =>
      rw [h] at hnext
      cases hnext
  · next hnext =>
      rw [h] at hnext
      cases hnext
      rfl

theorem text_nil : text [] = [] := by
  rw [text]
  split
  · rfl
  · next hnext =>
      cases hnext
      rw [if_neg (Nat.lt_irrefl _)]
  · next hnext => cases hnext

theorem size_readByte_none (h : source.readByte = .ok (none, rest)) :
    rest.size < source.size ∨ source = [] ∧ rest = [] := by
  fun_induction readByte source with
  | case1 => exact .inr ⟨rfl, (Prod.mk.inj (Except.ok.inj h)).2.symm⟩
  | case2 tail =>
      rw [← (Prod.mk.inj (Except.ok.inj h)).2]
      simp [size]
  | case3 => cases h
  | case4 => cases h
  | case5 tail ih =>
      left
      rcases ih h with hlt | ⟨rfl, rfl⟩
      · simp only [size]
        omega
      · simp [size]
  | case6 => cases h

theorem readByte_of_next_none (h : source.next = .ok (none, rest)) :
    source.readByte = .ok (none, rest) := by
  rcases bind_eq_ok.mp h with ⟨⟨_ | first, middle⟩, hbyte, h⟩
  · rwa [← (Prod.mk.inj (Except.ok.inj h)).2]
  · simp only at h
    split at h
    · cases h
    · rcases bind_eq_ok.mp h with ⟨⟨bytes, last⟩, -, h⟩
      simp only at h
      split at h <;> cases h

theorem text_of_none (h : source.next = .ok (none, rest)) : source.text = rest.text := by
  rcases size_readByte_none (readByte_of_next_none h) with hlt | ⟨rfl, rfl⟩
  · rw [text]
    split
    · next hnext =>
        rw [h] at hnext
        cases hnext
    · next hnext =>
        rw [h] at hnext
        cases hnext
        rw [if_pos hlt]
    · next hnext =>
        rw [h] at hnext
        cases hnext
  · rfl

/-- What successive reads hand out is the front of the stream. -/
theorem Reads.text_eq (h : source.Reads reads rest) :
    source.text = reads.reduceOption ++ rest.text := by
  induction h with
  | nil => rfl
  | @cons _ _ _ o reads hnext _ ih =>
      cases o with
      | none => rw [text_of_none hnext, ih, List.reduceOption_cons_of_none]
      | some c => rw [text_of_some hnext, ih, List.reduceOption_cons_of_some, List.cons_append]

/-- The end of input is reported behind the given number of characters. -/
def PausesAt (source : Source) (position : Nat) : Prop :=
  ∃ reads rest later, source.Reads reads rest ∧ rest.next = .ok (none, later) ∧
    reads.reduceOption.length = position

/-- A source that yields a text, cut into chunks anywhere, and then the end of input. -/
def Yields (source : Source) (stream : List Char) : Prop :=
  ∃ tail, Ended tail ∧ Delivers tail source (encode stream)

theorem yields_ofText (text : String) : (ofText text).Yields text.toList := by
  rw [ofText, toList_toUTF8]
  exact exists_delivers_ofBytes (encode text.toList)

namespace Yields

theorem next_cons (h : source.Yields (c :: stream)) :
    ∃ rest, source.next = .ok (some c, rest) ∧ rest.Yields stream := by
  rcases h with ⟨tail, htail, hsource⟩
  rcases hsource.next_char with ⟨rest, hnext, hrest⟩
  exact ⟨rest, hnext, tail, htail, hrest⟩

theorem next_nil (h : source.Yields []) : source.next = .ok (none, []) := by
  rcases h with ⟨tail, htail, hsource⟩
  rw [hsource.next_nil, next, htail]
  rfl

theorem nil : Yields [] [] := ⟨[], ended_nil, .done⟩

/-- What has been read of a text and what is still to come make up the text. -/
theorem of_reads (h : source.Yields stream) (hreads : source.Reads reads rest) :
    ∃ later, stream = reads.reduceOption ++ later ∧ rest.Yields later := by
  induction hreads generalizing stream with
  | nil => exact ⟨stream, rfl, h⟩
  | @cons _ _ _ o reads hnext _ ih =>
      cases stream with
      | nil =>
          rw [h.next_nil] at hnext
          cases hnext
          rcases ih nil with ⟨later, hlater, hrest⟩
          exact ⟨later, by rwa [List.reduceOption_cons_of_none], hrest⟩
      | cons c stream =>
          rcases h.next_cons with ⟨middle, hread, hmiddle⟩
          rw [hread] at hnext
          cases hnext
          rcases ih hmiddle with ⟨later, rfl, hrest⟩
          exact ⟨later, by rw [List.reduceOption_cons_of_some, List.cons_append], hrest⟩

theorem text_eq (h : source.Yields stream) : source.text = stream := by
  induction stream generalizing source with
  | nil =>
      rw [text_of_none h.next_nil, text_nil]
  | cons c stream ih =>
      rcases h.next_cons with ⟨rest, hnext, hrest⟩
      rw [text_of_some hnext, ih hrest]

/-- A text is not interrupted by reports of the end of input. -/
theorem eq_length_of_pausesAt (h : source.Yields stream) {position : Nat}
    (hpauses : source.PausesAt position) : position = stream.length := by
  rcases hpauses with ⟨reads, rest, later, hreads, hnext, rfl⟩
  rcases h.of_reads hreads with ⟨unread, rfl, hrest⟩
  cases unread with
  | nil => rw [List.append_nil]
  | cons c unread =>
      rcases hrest.next_cons with ⟨rest', hread, -⟩
      rw [hread] at hnext
      cases hnext

end Yields

end Source

end MaximalMunch
