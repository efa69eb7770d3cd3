import MaximalMunch.Proofs.Text.Sequence

/-!
# Reading an escaped text

`escape` writes control characters as sequences and leaves backslashes alone, so a sequence that is
read in an escaped text may have been written there or may stand in the text itself.  The two never
mix: behind its backslash a sequence has neither control characters nor backslashes, and therefore
what begins in the text as a sequence is still one after escaping, and nothing else becomes one.
`unescape_escape` says that an escaped text is read as the text itself is.
-/

namespace MaximalMunch.Text

variable {S : List Char → Char → Prop} {text result u w digits : List Char} {c d x : Char}
  {n value : Nat}

/-! ## Escaped characters -/

theorem escapeLetter?_eq_some_iff : escapeLetter? c = some x ↔ (x, c) ∈ letters := by
  unfold escapeLetter?
  split
  all_goals simp_all [letters, eq_comm]

theorem isControl_of_mem_letters (h : (x, c) ∈ letters) : isControl c = true := by
  have hall : ∀ e ∈ letters, isControl e.2 = true := by decide
  exact hall (x, c) h

theorem escapeChar_of_not_control (hc : isControl c = false) : escapeChar c = [c] := by
  unfold escapeChar
  cases hletter : escapeLetter? c with
  | none => simp [hc]
  | some x =>
      have hcontrol := isControl_of_mem_letters (escapeLetter?_eq_some_iff.mp hletter)
      rw [hc] at hcontrol
      contradiction

theorem writes_hexDigits (hn : n < 65536) : Writes (hexDigits n) n := by
  have hall : ∀ k < 16, HexDigit (Nat.digitChar k) k := by decide
  have hdigit (k : Nat) : HexDigit (Nat.digitChar (k % 16)) (k % 16) :=
    hall _ (Nat.mod_lt _ (by decide))
  have hwrites := (((Writes.nil.snoc (hdigit (n / 4096))).snoc (hdigit (n / 256))).snoc
    (hdigit (n / 16))).snoc (hdigit n)
  have hvalue : 16 * (16 * (16 * (16 * 0 + n / 4096 % 16) + n / 256 % 16) + n / 16 % 16) + n % 16 =
      n := by
    omega
  rwa [hvalue] at hwrites

/-- A control character is written as a sequence that stands for it. -/
theorem sequence_escapeChar (hc : isControl c = true) : Sequence (escapeChar c) c := by
  unfold escapeChar
  cases hletter : escapeLetter? c with
  | some x => exact .named (escapeLetter?_eq_some_iff.mp hletter)
  | none =>
      have hlt : c.toNat < 65536 := by
        simp only [isControl, Bool.or_eq_true, Bool.and_eq_true, decide_eq_true_eq] at hc
        omega
      simp only [hc, if_true]
      exact .numbered rfl (writes_hexDigits hlt)

/-! ## Characters behind the backslash of a sequence -/

theorem HexDigit.plain (h : HexDigit d value) : d ≠ '\\' ∧ isControl d = false := by
  have hlower : ∀ d ∈ lowerDigits, d ≠ '\\' ∧ isControl d = false := by
    simp [lowerDigits, isControl]
  have hupper : ∀ d ∈ upperDigits, d ≠ '\\' ∧ isControl d = false := by
    simp [upperDigits, isControl]
  cases h with
  | inl h => exact hlower d (List.mem_of_getElem? h)
  | inr h => exact hupper d (List.mem_of_getElem? h)

theorem Writes.plain (h : Writes digits n) (hd : d ∈ digits) :
    d ≠ '\\' ∧ isControl d = false := by
  obtain ⟨value, hvalue⟩ := h.exists_value hd
  exact hvalue.plain

/-- Behind its backslash a sequence has neither backslashes nor control characters. -/
theorem Accepted.exists_behind (hw : Accepted w c) :
    ∃ u, w = '\\' :: u ∧ ∀ d ∈ u, d ≠ '\\' ∧ isControl d = false := by
  rcases hw with h | h
  · cases h with
    | @named letter c h =>
        have hall : ∀ e ∈ letters, e.1 ≠ '\\' ∧ isControl e.1 = false := by decide
        refine ⟨[letter], rfl, ?_⟩
        intro d hd
        rw [List.mem_singleton.mp hd]
        exact hall (letter, c) h
    | @numbered digits c hlength h =>
        refine ⟨'u' :: digits, rfl, ?_⟩
        intro d hd
        rcases List.mem_cons.mp hd with rfl | hd
        · decide
        · exact h.plain hd
  · cases h with
    | @numbered digits c hlength h =>
        refine ⟨'u' :: '+' :: digits, rfl, ?_⟩
        intro d hd
        rcases List.mem_cons.mp hd with rfl | hd
        · decide
        rcases List.mem_cons.mp hd with rfl | hd
        · decide
        · exact h.plain hd

theorem Accepted.not_control (hw : Accepted w c) (hd : d ∈ w) : isControl d = false := by
  obtain ⟨u, rfl, hu⟩ := hw.exists_behind
  rcases List.mem_cons.mp hd with rfl | hd
  · decide
  · exact (hu d hd).2

/-! ## Escaped texts -/

theorem escapeChars_cons (c : Char) (text : List Char) :
    escapeChars (c :: text) = escapeChar c ++ escapeChars text :=
  List.flatMap_cons

theorem escapeChars_of_not_control (h : ∀ c ∈ text, isControl c = false) :
    escapeChars text = text := by
  induction text with
  | nil => rfl
  | cons c text ih =>
      obtain ⟨hc, htext⟩ := List.forall_mem_cons.mp h
      rw [escapeChars_cons, escapeChar_of_not_control hc, ih htext]
      rfl

theorem isControl_of_mem_escapeChars (h : d ∈ escapeChars text) : isControl d = false := by
  obtain ⟨c, -, hd⟩ := List.mem_flatMap.mp h
  cases hc : isControl c with
  | false =>
      rw [escapeChar_of_not_control hc, List.mem_singleton] at hd
      rwa [hd]
  | true => exact Accepted.not_control (.inl (sequence_escapeChar hc)) hd

/-- What an escaped text begins with up to a backslash, the text begins with. -/
theorem prefix_of_prefix_escapeChars (hu : ∀ d ∈ u, d ≠ '\\') (h : u <+: escapeChars text) :
    u <+: text := by
  induction text generalizing u with
  | nil => exact h
  | cons c text ih =>
      cases u with
      | nil => exact List.nil_prefix
      | cons d u =>
          obtain ⟨hd, hu⟩ := List.forall_mem_cons.mp hu
          rw [escapeChars_cons] at h
          cases hc : isControl c with
          | false =>
              rw [escapeChar_of_not_control hc] at h
              obtain ⟨rfl, hrest⟩ := List.cons_prefix_cons.mp h
              exact List.cons_prefix_cons.mpr ⟨rfl, ih hu hrest⟩
          | true =>
              -- the escaped text begins with a backslash
              obtain ⟨v, hv, -⟩ := Accepted.exists_behind (.inl (sequence_escapeChar hc))
              rw [hv] at h
              exact absurd (List.cons_prefix_cons.mp h).1 hd

/-- An escaped text is read as the text is. -/
theorem Decodes.escapeChars (h : Decodes Accepted text result) :
    Decodes Accepted (escapeChars text) result := by
  induction h with
  | nil => exact .nil
  | @sequence w c text result hw _ ih =>
      have hescaped : Text.escapeChars (w ++ text) = w ++ Text.escapeChars text := by
        rw [Text.escapeChars, List.flatMap_append, ← Text.escapeChars, ← Text.escapeChars,
          escapeChars_of_not_control fun d hd => hw.not_control hd]
      rw [hescaped]
      exact ih.sequence hw
  | @copied c text result hnone _ ih =>
      rw [escapeChars_cons]
      cases hc : isControl c with
      | true => exact ih.sequence (.inl (sequence_escapeChar hc))
      | false =>
          rw [escapeChar_of_not_control hc]
          apply ih.copied
          intro w x hw hfront
          -- a sequence that begins here would begin here in the text, too
          obtain ⟨u, rfl, hu⟩ := hw.exists_behind
          obtain ⟨rfl, hrest⟩ := List.cons_prefix_cons.mp hfront
          have hstands := prefix_of_prefix_escapeChars (fun d hd => (hu d hd).1) hrest
          exact hnone _ _ hw (List.cons_prefix_cons.mpr ⟨rfl, hstands⟩)

/-! ## Texts that are read as themselves -/

theorem Decodes.length_le (h : Decodes Accepted text result) : result.length ≤ text.length := by
  induction h with
  | nil => exact Nat.le_refl _
  | sequence hw _ ih =>
      have hlt := hw.one_lt_length
      rw [List.length_append, List.length_cons]
      omega
  | copied _ _ ih => exact Nat.succ_le_succ ih

/-- A sequence is longer than its character, so none has been read if the length is the same. -/
theorem Decodes.none_of_length_le (h : Decodes Accepted text result)
    (hlength : text.length ≤ result.length) : ∀ w c, Accepted w c → ¬w <:+: text := by
  induction h with
  | nil =>
      intro w c hw hwithin
      exact hw.ne_nil (List.infix_nil.mp hwithin)
  | sequence hw h _ =>
      have hlt := hw.one_lt_length
      have hle := h.length_le
      rw [List.length_append, List.length_cons] at hlength
      omega
  | copied hnone _ ih =>
      intro w c hw hwithin
      rcases List.infix_cons_iff.mp hwithin with hfront | hwithin
      · exact hnone w c hw hfront
      · exact ih (Nat.le_of_succ_le_succ hlength) w c hw hwithin

theorem decodes_self_iff :
    Decodes Accepted text text ↔ ∀ w c, Accepted w c → ¬w <:+: text := by
  constructor
  · intro h
    exact h.none_of_length_le (Nat.le_refl _)
  · intro h
    exact (decodes_iff_of_none h).mpr rfl

theorem not_accepted_of_no_backslash (htext : '\\' ∉ text) :
    ∀ w c, Accepted w c → ¬w <:+: text := by
  intro w c hw hwithin
  obtain ⟨u, rfl, -⟩ := hw.exists_behind
  exact htext (hwithin.subset List.mem_cons_self)

/-- An escaped text is read as the text itself is read.  So reading undoes escaping on the texts in
which nothing stands that is read as a sequence, and on no others.  An escaped text has no control
characters, and escaping it again changes nothing. -/
theorem unescape_escape (text : String) :
    unescape (escape text) = unescape text ∧
      (unescape (escape text) = text ↔ unescape text = text) ∧
      (unescape text = text ↔ ∀ w c, Accepted w c → ¬w <:+: text.toList) ∧
      ('\\' ∉ text.toList → unescape (escape text) = text) ∧
      (∀ c ∈ (escape text).toList, isControl c = false) ∧ escape (escape text) = escape text := by
  have hread : unescape (escape text) = unescape text := by
    unfold unescape escape
    rw [String.toList_ofList, ← (decodes_unescapeChars text.toList).escapeChars.eq_unescapeChars]
  have hself : unescape text = text ↔ ∀ w c, Accepted w c → ¬w <:+: text.toList := by
    rw [← decodes_self_iff]
    constructor
    · intro h
      have hdecodes := decodes_unescapeChars text.toList
      rwa [← String.toList_ofList (l := unescapeChars _), ← unescape, h] at hdecodes
    · intro h
      unfold unescape
      rw [← h.eq_unescapeChars, String.ofList_toList]
  have hcontrol : ∀ c ∈ (escape text).toList, isControl c = false := by
    intro c hc
    unfold escape at hc
    rw [String.toList_ofList] at hc
    exact isControl_of_mem_escapeChars hc
  refine ⟨hread, by rw [hread], hself, ?_, hcontrol, ?_⟩
  · intro htext
    rw [hread]
    exact hself.mpr (not_accepted_of_no_backslash htext)
  · show String.ofList (escapeChars (escape text).toList) = escape text
    rw [escapeChars_of_not_control hcontrol, String.ofList_toList]

theorem unescape_escape_line :
    '\\' ∉ "if (x)\x0d\n\treturn\x07;".toList ∧
      unescape (escape "if (x)\x0d\n\treturn\x07;") = "if (x)\x0d\n\treturn\x07;" := by
  have hline : '\\' ∉ "if (x)\x0d\n\treturn\x07;".toList := by decide
  exact ⟨hline, (unescape_escape _).2.2.2.1 hline⟩

end MaximalMunch.Text
