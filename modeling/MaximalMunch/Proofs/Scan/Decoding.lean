import MaximalMunch.Proofs.Scan.Failure

/-!
# Scans of bytes

However bytes are delivered, a scan makes the same of them.  If they are the encoding of a text, it
is a scan of that text.  Otherwise they begin with a longest text, behind which reading fails: the
scan fails as well, either there or, like the scan of that text, because some start before needs
more characters than may be held.
-/

namespace MaximalMunch

namespace Source

/-- Sources that deliver the same bytes and then report the end of input for good. -/
def SameBytes (source source' : Source) : Prop :=
  ∃ bytes, (∃ tail, Ended tail ∧ Delivers tail source bytes) ∧
    ∃ tail, Ended tail ∧ Delivers tail source' bytes

theorem tandem_sameBytes : Tandem True SameBytes := by
  rintro source source' ⟨bytes, ⟨tail, htail, hsource⟩, tail', htail', hsource'⟩
  cases bytes with
  | nil =>
      rw [hsource.readByte_nil, htail, hsource'.readByte_nil, htail']
      exact .ok ⟨rfl, [], ⟨[], ended_nil, .done⟩, [], ended_nil, .done⟩
  | cons b later =>
      obtain ⟨rest, hbyte, hrest⟩ := hsource.readByte_cons
      obtain ⟨rest', hbyte', hrest'⟩ := hsource'.readByte_cons
      rw [hbyte, hbyte']
      exact .ok ⟨rfl, later, ⟨tail, htail, hrest⟩, tail', htail', hrest'⟩

/-- A delivery and its bytes in one chunk. -/
theorem Undisturbed.sameBytes {source : Source} (h : source.Undisturbed) :
    SameBytes source (ofBytes source.bytes) := by
  have hdelivers := h.delivers []
  rw [List.append_nil] at hdelivers
  exact ⟨source.bytes, ⟨[], ended_nil, hdelivers⟩, exists_delivers_ofBytes source.bytes⟩

/-- The longest text whose encoding stands at the front of the bytes. -/
structure LongestText (bytes : List UInt8) (text : String) : Prop where
  front : text.toUTF8.toList <+: bytes
  longest : ∀ text' : String, text'.toUTF8.toList <+: bytes →
    text'.toUTF8.toList <+: text.toUTF8.toList

theorem exists_longestText (bytes : List UInt8) : ∃ text, LongestText bytes text ∧
    ∃ bad, bytes = encode text.toList ++ bad ∧ ¬ BeginsCharacter bad := by
  obtain ⟨text, bad, rfl, hbad⟩ := exists_text_front bytes
  have htext : (String.ofList text).toUTF8.toList = encode text := by
    rw [toList_toUTF8, String.toList_ofList]
  refine ⟨.ofList text, ⟨?_, ?_⟩, bad, by rw [String.toList_ofList], hbad⟩
  · rw [htext]
    exact List.prefix_append _ _
  · intro text' hfront
    rw [toList_toUTF8] at hfront ⊢
    obtain ⟨more, rfl⟩ := prefix_of_encode_prefix hbad hfront
    rw [htext, encode_append]
    exact List.prefix_append _ _

/-- Bytes that end in malformed ones are no text. -/
theorem Malformed.not_text {text text' : List Char} {bad : List UInt8} (hbad : Malformed bad) :
    encode text ++ bad ≠ encode text' := by
  intro heq
  have hfront : encode text' <+: encode text ++ bad := by
    rw [heq]
  obtain ⟨more, rfl⟩ := prefix_of_encode_prefix hbad.not_begins hfront
  rw [encode_append, List.append_assoc] at heq
  have hnil : encode more ++ bad = [] := List.append_right_eq_self.mp heq
  exact hbad.ne_nil (List.append_eq_nil_iff.mp hnil).2

end Source

namespace Scanner

variable {s : Scanner} {position : Position} {count : Nat} {text rest : List Char}
  {spans all before : List Span} {capacity : Nat}

/-- If some start overruns, so does one in front of which all spans are decided. -/
theorem DecidedSpans.exists_overrun (h : s.DecidedSpans position count text spans)
    (hall : s.Reference position count text all) (hpos : 0 < capacity)
    (hstart : StartsAt text all before rest) (hoverruns : s.Overruns capacity rest) :
    ∃ earlier rest', StartsAt text spans earlier rest' ∧ s.Overruns capacity rest' := by
  rcases List.prefix_or_prefix_of_prefix hstart.front (h.prefix_of_reference hall) with hfront | hbehind
  · exact ⟨before, rest, ⟨hfront, hstart.text_eq⟩, hoverruns⟩
  · -- the start lies behind the first one that is not decided, and all from there on is viable
    obtain ⟨rest', hstart', hopen⟩ := h.exists_open
    obtain ⟨more, rfl⟩ := hbehind
    have hrest' : rest' = more.flatMap (·.text.toList) ++ rest := by
      have htext := hstart'.text_eq.symm.trans hstart.text_eq
      rw [List.flatMap_append, List.append_assoc] at htext
      exact List.append_cancel_left htext
    have hlt : capacity < rest'.length := by
      rw [hrest', List.length_append]
      exact Nat.lt_add_left _ hoverruns.1
    refine ⟨spans, rest', hstart', hlt, ?_⟩
    by_contra hdead
    exact hopen ⟨_, List.take_prefix _ _, take_ne_nil_of_le (Nat.le_of_lt hlt) hpos, hdead⟩

/-- The scan of a text fails only where a start overruns. -/
theorem tokenizeText_eq_error_iff {b : Builder} (hb : b.Made) {text : String}
    (hall : b.build.Reference {} 0 text.toList all) :
    b.build.tokenizeText text = .error (.lookaheadExceeded b.config.lookahead) ↔
      ∃ before rest, StartsAt text.toList all before rest ∧
        b.build.Overruns b.config.lookahead rest := by
  have hbounded : b.build.Bounded b.config.lookahead text.toList all
      (b.build.scan (.ofText text)) :=
    bounded_scanFrom hb.compiled (Tape.holds_ofText _ text) (.ofSource _ _) rfl hb.lookahead_pos hall
  unfold tokenizeText tokenize Scan.output
  generalize b.build.scan (.ofText text) = scan at hbounded
  cases hbounded with
  | fails hfirst =>
      obtain ⟨rest, hstart, hoverruns⟩ := hfirst.overruns
      exact iff_of_true rfl ⟨_, rest, hstart, hoverruns⟩
  | succeeds hnone =>
      refine iff_of_false (fun h => by cases h) ?_
      rintro ⟨before, rest, hstart, hoverruns⟩
      exact hnone before rest hstart hoverruns

/-- Bytes that go on behind a text with none that begin a character are scanned like the text, up to
its end. -/
theorem tokenize_of_text_front {b : Builder} (hb : b.Made) {source : Source}
    (hsource : source.Undisturbed) {text : String} {bad : List UInt8}
    (hbytes : source.bytes = Source.encode text.toList ++ bad) (hne : bad ≠ [])
    (hbad : ¬ Source.BeginsCharacter bad) :
    (b.build.tokenizeText text = .error (.lookaheadExceeded b.config.lookahead) →
      b.build.tokenize source = .error (.lookaheadExceeded b.config.lookahead)) ∧
    (b.build.tokenizeText text ≠ .error (.lookaheadExceeded b.config.lookahead) →
      b.build.tokenize source = .error Source.invalid) := by
  obtain ⟨all, hall⟩ := exists_reference (s := b.build) hb.compiled {} 0 text.toList
  obtain ⟨spans, hspans⟩ := hall.exists_decidedSpans
  have hbreaks : source.BreaksOff Source.invalid text.toList := by
    have hdelivers := hsource.delivers []
    rw [List.append_nil, hbytes] at hdelivers
    exact hdelivers.breaksOff fun source h => h.next_invalid Source.ended_nil hne hbad
  have hbroken : b.build.Broken b.config.lookahead Source.invalid text.toList spans
      (b.build.scan source) :=
    broken_scanFrom hb.compiled ⟨text.toList, rfl, hbreaks⟩ (.ofSource _ _) rfl hb.lookahead_pos
      hspans
  rw [Ne, tokenizeText_eq_error_iff hb hall]
  unfold tokenize Scan.output
  generalize b.build.scan source = scan at hbroken
  cases hbroken with
  | exceeds hfirst =>
      refine ⟨fun _ => rfl, fun hnot => absurd ?_ hnot⟩
      obtain ⟨rest, hstart, hoverruns⟩ := hfirst.overruns
      exact ⟨_, rest, ⟨hstart.front.trans (hspans.prefix_of_reference hall), hstart.text_eq⟩,
        hoverruns⟩
  | fails hnone =>
      refine ⟨?_, fun _ => rfl⟩
      rintro ⟨before, rest, hstart, hoverruns⟩
      obtain ⟨earlier, rest', hstart', hoverruns'⟩ :=
        hspans.exists_overrun hall hb.lookahead_pos hstart hoverruns
      exact absurd hoverruns' (hnone earlier rest' hstart')

/-- Bytes that are no text are scanned like the longest text at their front, up to its end. -/
theorem exists_text_of_not_text {b : Builder} (hb : b.Made) {source : Source}
    (hsource : source.Undisturbed)
    (hbytes : ∀ text : String, source.bytes ≠ Source.encode text.toList) :
    ∃ text : String, Source.LongestText source.bytes text ∧
      (b.build.tokenizeText text = .error (.lookaheadExceeded b.config.lookahead) →
        b.build.tokenize source = .error (.lookaheadExceeded b.config.lookahead)) ∧
      (b.build.tokenizeText text ≠ .error (.lookaheadExceeded b.config.lookahead) →
        b.build.tokenize source = .error Source.invalid) := by
  obtain ⟨text, hlongest, bad, hcut, hbad⟩ := Source.exists_longestText source.bytes
  have hne : bad ≠ [] := by
    rintro rfl
    exact hbytes text (by rw [hcut, List.append_nil])
  exact ⟨text, hlongest, tokenize_of_text_front hb hsource hcut hne hbad⟩

/-- A scan of bytes does not depend on how they are delivered: in one chunk, in chunks that are cut
anywhere, or with interruptions in between.  If they encode a text, the result is that of the text.
Otherwise the scan fails: because more characters than may be held are needed, if a scan of the
longest text at the front of the bytes does, and because of the bytes, if not.  Overlong forms,
surrogates, numbers that are too large, stray continuation bytes and forms that break off are never
part of a text. -/
theorem tokenize_delivered {b : Builder} (hb : b.Made) {source : Source}
    (hsource : source.Undisturbed) :
    (b.build.tokenize source = b.build.tokenize (.ofBytes source.bytes) ∧
      (b.build.scan source).errors = (b.build.scan (.ofBytes source.bytes)).errors) ∧
    (∀ text : String, source.bytes = text.toUTF8.toList →
      b.build.tokenize source = b.build.tokenizeText text) ∧
    ((∀ text : String, source.bytes ≠ text.toUTF8.toList) →
      ∃ text : String, Source.LongestText source.bytes text ∧
        (b.build.tokenizeText text = .error (.lookaheadExceeded b.config.lookahead) →
          b.build.tokenize source = .error (.lookaheadExceeded b.config.lookahead)) ∧
        (b.build.tokenizeText text ≠ .error (.lookaheadExceeded b.config.lookahead) →
          ∃ fault : SourceFault, b.build.tokenize source = .error (.sourceUnavailable fault) ∧
            fault.message = "input is not valid UTF-8")) ∧
    ∀ (text : String) (bad : List UInt8), source.bytes = text.toUTF8.toList ++ bad →
      Source.Malformed bad → (∀ text' : String, source.bytes ≠ text'.toUTF8.toList) ∧
        ∃ e, b.build.tokenize source = .error e := by
  have hone := (b.build.follows_scan Source.tandem_sameBytes hsource.sameBytes).output_eq
  refine ⟨hone, ?_, ?_, ?_⟩
  · intro text hbytes
    unfold tokenizeText Source.ofText
    rw [← hbytes]
    exact hone.1
  · intro hbytes
    simp only [Source.toList_toUTF8] at hbytes
    obtain ⟨text, hlongest, hexceeds, hfails⟩ := exists_text_of_not_text hb hsource hbytes
    exact ⟨text, hlongest, hexceeds, fun hnot => ⟨_, hfails hnot, rfl⟩⟩
  · intro text bad hbytes hbad
    simp only [Source.toList_toUTF8] at hbytes ⊢
    have hno (text' : String) : source.bytes ≠ Source.encode text'.toList := by
      rw [hbytes]
      exact hbad.not_text
    refine ⟨hno, ?_⟩
    obtain ⟨front, -, hexceeds, hfails⟩ := exists_text_of_not_text hb hsource hno
    by_cases hfront : b.build.tokenizeText front = .error (.lookaheadExceeded b.config.lookahead)
    · exact ⟨_, hexceeds hfront⟩
    · exact ⟨_, hfails hfront⟩

/-- The encoding of `é` is cut in two and the read of its second byte is interrupted. -/
theorem tokenize_delivered_cut_character :
    let b := (Builder.add {} "A" "aé").builder
    b.build.tokenize [.chunk [97, 195], .interrupt, .chunk [169]] = b.build.tokenizeText "aé" ∧
      b.build.tokenizeText "aé" = .ok ⟨[⟨0, 1, 1, "A", "aé"⟩], []⟩ ∧
      ∃ e, b.build.tokenize [.chunk [97, 195], .interrupt, .chunk [40]] = .error e := by
  intro b
  have hmade : b.Made := Builder.Made.empty.add "A" "aé"
  have hbroken : Source.Malformed [195, 40] := by
    have hform : Source.form 1 192 = [195] ++ [128] := by decide +kernel
    have hother : ¬ Source.IsContinuation 40 := by
      unfold Source.IsContinuation
      decide
    exact .truncated (by decide) (by decide) hform (by decide) (by decide)
      (fun b later hrest => by
        obtain ⟨rfl, -⟩ := List.cons.inj hrest
        exact hother)
  refine ⟨?_, by decide +kernel, ?_⟩
  · exact (tokenize_delivered hmade (by simp [Source.Undisturbed])).2.1 "aé" (by decide +kernel)
  · exact ((tokenize_delivered hmade (by simp [Source.Undisturbed])).2.2.2 "a" _ (by decide +kernel)
      hbroken).2

end Scanner

end MaximalMunch
