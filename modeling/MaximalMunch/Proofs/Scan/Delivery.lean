import MaximalMunch.Proofs.Scan.Encoding

/-!
# Delivering bytes

Bytes may come in chunks that are cut anywhere, with interruptions in between.  `Delivers` relates a
source to the bytes that it delivers before a tail of events, and a read of the source depends on
these bytes only: it hands out the character at their front, it passes on to the tail if there are
no bytes, and it fails if no character stands at their front.
-/

namespace MaximalMunch

namespace Source

/-- A source that neither fails nor reports the end of input before its bytes are used up: chunks
that are not empty, and interruptions. -/
def Undisturbed (source : Source) : Prop :=
  ∀ event ∈ source, event = .interrupt ∨ ∃ b bytes, event = .chunk (b :: bytes)

/-- A source that delivers the given bytes and goes on with the events of `tail`. -/
inductive Delivers (tail : Source) : Source → List UInt8 → Prop where
  | done : Delivers tail tail []
  | chunk (b : UInt8) (bytes : List UInt8) {rest : Source} {later : List UInt8}
      (h : Delivers tail rest later) : Delivers tail (.chunk (b :: bytes) :: rest) (b :: bytes ++ later)
  | interrupt {rest : Source} {later : List UInt8} (h : Delivers tail rest later) :
      Delivers tail (.interrupt :: rest) later

/-- From here on every read reports the end of input. -/
def Ended (tail : Source) : Prop := readByte tail = .ok (none, [])

theorem ended_nil : Ended [] := rfl

variable {source tail rest : Source} {bytes later : List UInt8} {b : UInt8} {c : Char}

theorem Undisturbed.delivers (h : source.Undisturbed) (tail : Source) :
    Delivers tail (source ++ tail) source.bytes := by
  induction source with
  | nil => exact .done
  | cons event source ih =>
      have hsource := ih fun event hmem => h event (List.mem_cons_of_mem _ hmem)
      rcases h event List.mem_cons_self with rfl | ⟨b, bytes, rfl⟩
      · exact .interrupt hsource
      · exact .chunk b bytes hsource

/-- One chunk is a delivery, and so is the empty one, which reports the end of input. -/
theorem exists_delivers_ofBytes (bytes : List UInt8) :
    ∃ tail, Ended tail ∧ Delivers tail (ofBytes bytes) bytes := by
  cases bytes with
  | nil => exact ⟨ofBytes [], rfl, .done⟩
  | cons b bytes =>
      have hdelivers : Delivers [] (ofBytes (b :: bytes)) (b :: bytes ++ []) := .chunk b bytes .done
      rw [List.append_nil] at hdelivers
      exact ⟨[], rfl, hdelivers⟩

theorem Delivers.bytes_eq (h : Delivers tail source bytes) : source.bytes = bytes ++ tail.bytes := by
  induction h with
  | done => rfl
  | @chunk b bytes rest later _ ih =>
      change b :: bytes ++ rest.bytes = _
      rw [ih, List.append_assoc]
  | interrupt _ ih => exact ih

theorem Delivers.bytes_eq_of_ended (htail : Ended tail) (h : Delivers tail source bytes) :
    source.bytes = bytes := by
  have hnone : tail.bytes = [] := bytes_readByte htail
  rw [h.bytes_eq, hnone, List.append_nil]

/-! ## Reading bytes -/

theorem Delivers.readByte_nil (h : Delivers tail source []) : readByte source = readByte tail := by
  generalize hbytes : ([] : List UInt8) = bytes at h
  induction h with
  | done => rfl
  | chunk => cases hbytes
  | interrupt _ ih => exact ih hbytes

theorem Delivers.readByte_cons (h : Delivers tail source (b :: later)) :
    ∃ rest, readByte source = .ok (some b, rest) ∧ Delivers tail rest later := by
  generalize hbytes : b :: later = bytes at h
  induction h with
  | done => cases hbytes
  | chunk b' bytes hrest =>
      obtain ⟨rfl, rfl⟩ := List.cons.inj hbytes
      cases bytes with
      | nil => exact ⟨_, rfl, hrest⟩
      | cons b' bytes => exact ⟨_, rfl, .chunk b' bytes hrest⟩
  | interrupt _ ih => exact ih hbytes

theorem Delivers.readBytes (h : Delivers tail source (bytes ++ later)) :
    ∃ rest, readBytes bytes.length source = .ok (bytes, rest) ∧ Delivers tail rest later := by
  induction bytes generalizing source with
  | nil => exact ⟨source, rfl, h⟩
  | cons b bytes ih =>
      obtain ⟨middle, hbyte, hmiddle⟩ := h.readByte_cons
      obtain ⟨rest, hbytes, hrest⟩ := ih hmiddle
      refine ⟨rest, ?_, hrest⟩
      rw [List.length_cons, Source.readBytes, hbyte, ok_bind]
      simp only [hbytes, ok_bind]
      rfl

/-- Bytes can only be missing at the end. -/
theorem Delivers.readBytes_cases (htail : Ended tail) (h : Delivers tail source bytes) (count : Nat) :
    Source.readBytes count source = .error invalid ∨
      ∃ others rest, Source.readBytes count source = .ok (others, rest) := by
  induction count generalizing source bytes with
  | zero => exact .inr ⟨_, _, rfl⟩
  | succ count ih =>
      unfold Source.readBytes
      cases bytes with
      | nil =>
          left
          rw [h.readByte_nil, htail]
          rfl
      | cons b later =>
          obtain ⟨middle, hbyte, hmiddle⟩ := h.readByte_cons
          rw [hbyte, ok_bind]
          rcases ih hmiddle with hbytes | ⟨others, rest, hbytes⟩
          · left
            simp only [hbytes]
            rfl
          · right
            simp only [hbytes]
            exact ⟨_, _, rfl⟩

/-! ## Reading characters -/

/-- Without bytes, a read is one of the tail. -/
theorem Delivers.next_nil (h : Delivers tail source []) : source.next = tail.next := by
  unfold Source.next
  rw [h.readByte_nil]

/-- A read hands out the character at the front of the bytes, however they are cut. -/
theorem Delivers.next_char (h : Delivers tail source (String.utf8EncodeChar c ++ later)) :
    ∃ rest, source.next = .ok (some c, rest) ∧ Delivers tail rest later := by
  obtain ⟨first, others, hc, hfollowers⟩ := exists_utf8EncodeChar c
  have hdecode := decode?_utf8EncodeChar c
  rw [hc] at h hdecode
  obtain ⟨middle, hbyte, hmiddle⟩ := h.readByte_cons
  obtain ⟨rest, hothers, hrest⟩ := hmiddle.readBytes
  refine ⟨rest, ?_, hrest⟩
  unfold Source.next
  rw [hbyte, ok_bind]
  simp only [hfollowers, hothers, ok_bind, hdecode]
  rfl

/-- Bytes that do not begin with a character are no text. -/
theorem Delivers.next_invalid (htail : Ended tail) (h : Delivers tail source bytes)
    (hne : bytes ≠ []) (hbad : ¬ BeginsCharacter bytes) : source.next = .error invalid := by
  obtain ⟨first, later, rfl⟩ := List.exists_cons_of_ne_nil hne
  obtain ⟨middle, hbyte, hmiddle⟩ := h.readByte_cons
  unfold Source.next
  rw [hbyte, ok_bind]
  simp only
  split
  · rfl
  · next count hfollowers =>
      rcases hmiddle.readBytes_cases htail count with hothers | ⟨others, rest, hothers⟩
      · rw [hothers]
        rfl
      · rw [hothers, ok_bind]
        simp only
        split
        · rfl
        · next c hdecode =>
            -- the bytes that have been read would be the encoding of a character
            obtain ⟨hlength, hbytes⟩ := bytes_readBytes hothers
            rw [hmiddle.bytes_eq_of_ended htail] at hbytes
            rw [← hlength] at hfollowers
            refine absurd ⟨c, rest.bytes, ?_⟩ hbad
            rw [← eq_utf8EncodeChar_of_decode? hfollowers hdecode, hbytes, List.cons_append]

/-! ## The text at the front of bytes -/

theorem utf8EncodeChar_append_inj {c c' : Char} {later later' : List UInt8}
    (h : String.utf8EncodeChar c ++ later = String.utf8EncodeChar c' ++ later') :
    c = c' ∧ later = later' := by
  obtain ⟨count, hcount, hform, hv, -⟩ := exists_form_eq c
  obtain ⟨count', hcount', hform', hv', -⟩ := exists_form_eq c'
  have hsame := h
  rw [hform, hform'] at hsame
  have hchar : c = c' :=
    Char.ext (UInt32.toNat_inj.mp (form_injective hcount hcount' hv hv' hsame).2)
  subst hchar
  exact ⟨rfl, List.append_cancel_left h⟩

/-- Bytes begin with a text, behind which no further character stands. -/
theorem exists_text_front (bytes : List UInt8) :
    ∃ text bad, bytes = encode text ++ bad ∧ ¬ BeginsCharacter bad := by
  induction hlength : bytes.length using Nat.strongRecOn generalizing bytes with
  | ind length ih =>
      by_cases hbegins : BeginsCharacter bytes
      · obtain ⟨c, later, rfl⟩ := hbegins
        obtain ⟨first, others, hc, -⟩ := exists_utf8EncodeChar c
        have hlt : later.length < length := by
          rw [← hlength, hc, List.length_append, List.length_cons]
          omega
        obtain ⟨text, bad, rfl, hbad⟩ := ih _ hlt later rfl
        exact ⟨c :: text, bad, (List.append_assoc _ _ _).symm, hbad⟩
      · exact ⟨[], bytes, rfl, hbegins⟩

/-- No text at the front of the bytes is longer. -/
theorem prefix_of_encode_prefix {text text' : List Char} {bad : List UInt8}
    (hbad : ¬ BeginsCharacter bad) (h : encode text' <+: encode text ++ bad) : text' <+: text := by
  induction text' generalizing text with
  | nil => exact List.nil_prefix
  | cons c text' ih =>
      obtain ⟨later, hlater⟩ := h
      have hfront : String.utf8EncodeChar c ++ (encode text' ++ later) = encode text ++ bad := by
        rw [← hlater, ← List.append_assoc]
        rfl
      cases text with
      | nil => exact absurd ⟨c, _, hfront⟩ hbad
      | cons d text =>
          have hback : encode (d :: text) ++ bad = String.utf8EncodeChar d ++ (encode text ++ bad) :=
            List.append_assoc _ _ _
          obtain ⟨rfl, hrest⟩ := utf8EncodeChar_append_inj (hfront.trans hback)
          exact List.cons_prefix_cons.mpr ⟨rfl, ih ⟨later, hrest⟩⟩

end Source

end MaximalMunch
