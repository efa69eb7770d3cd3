import Mathlib
import MaximalMunch.Text.Escape

/-!
# Escape sequences

An escape sequence is a backslash with one of six letters, or a backslash, `u` and four hexadecimal
digits.  Reading a text from left to right puts the character of a sequence in the place of the
sequence, and copies every character at which no sequence begins.  `Decodes` is that reading for any
set of sequences.  `unescape_eq_iff_decodes` says which one `unescape` is: besides the sequences of
the format it takes those in which a plus sign stands for the first of the four digits, and on a
text without such a sequence it reads as the format says.
-/

namespace MaximalMunch.Text

/-- The control characters that have a letter. -/
def letters : List (Char × Char) :=
  [('0', '\x00'), ('b', '\x08'), ('f', '\x0c'), ('n', '\n'), ('r', '\x0d'), ('t', '\t')]

/-- The hexadecimal digits in the order of their values. -/
def lowerDigits : List Char :=
  ['0', '1', '2', '3', '4', '5', '6', '7', '8', '9', 'a', 'b', 'c', 'd', 'e', 'f']

/-- The same with capital letters. -/
def upperDigits : List Char :=
  ['0', '1', '2', '3', '4', '5', '6', '7', '8', '9', 'A', 'B', 'C', 'D', 'E', 'F']

/-- A hexadecimal digit of either case, and its value. -/
def HexDigit (digit : Char) (value : Nat) : Prop :=
  lowerDigits[value]? = some digit ∨ upperDigits[value]? = some digit

instance (digit : Char) (value : Nat) : Decidable (HexDigit digit value) :=
  inferInstanceAs (Decidable (_ ∨ _))

/-- The number that digits write, the most significant digit first. -/
inductive Writes : List Char → Nat → Prop where
  | nil : Writes [] 0
  | snoc {digits n digit value} (h : Writes digits n) (hdigit : HexDigit digit value) :
      Writes (digits ++ [digit]) (16 * n + value)

/-- The sequences of the format, each with the character that it stands for. -/
inductive Sequence : List Char → Char → Prop where
  | named {letter c} (h : (letter, c) ∈ letters) : Sequence ['\\', letter] c
  | numbered {digits c} (hlength : digits.length = 4) (h : Writes digits c.toNat) :
      Sequence ('\\' :: 'u' :: digits) c

/-- Sequences in which a plus sign stands for the first digit. -/
inductive SignedSequence : List Char → Char → Prop where
  | numbered {digits c} (hlength : digits.length = 3) (h : Writes digits c.toNat) :
      SignedSequence ('\\' :: 'u' :: '+' :: digits) c

/-- All that is read as a sequence. -/
def Accepted (w : List Char) (c : Char) : Prop := Sequence w c ∨ SignedSequence w c

/-- What a text becomes when its sequences are read from left to right. -/
inductive Decodes (S : List Char → Char → Prop) : List Char → List Char → Prop where
  | nil : Decodes S [] []
  | sequence {w c text result} (hw : S w c) (h : Decodes S text result) :
      Decodes S (w ++ text) (c :: result)
  | copied {c text result} (hnone : ∀ w x, S w x → ¬w <+: c :: text) (h : Decodes S text result) :
      Decodes S (c :: text) (c :: result)

variable {S S' : List Char → Char → Prop} {text result w digits : List Char} {a b c d x : Char}
  {n value : Nat}

/-! ## Numbers -/

theorem scalar?_eq_some_iff : scalar? n = some c ↔ c.toNat = n := by
  unfold scalar?
  constructor
  · intro h
    split at h
    · next hvalid => rw [← Option.some.inj h, Char.toNat_ofNat, if_pos hvalid]
    · cases h
  · intro h
    have hvalid : n.isValidChar := by
      rw [← h]
      exact c.valid
    rw [if_pos hvalid, ← h, Char.ofNat_toNat]

theorem HexDigit.value_lt (h : HexDigit d value) : value < 16 := by
  cases h with
  | inl h | inr h => exact (List.getElem?_eq_some_iff.mp h).1

theorem hexDigit_of_range {lo hi : Char} {base : Nat} (hrange : lo ≤ d ∧ d ≤ hi)
    (hall : ∀ k ≤ hi.toNat - lo.toNat, HexDigit (Char.ofNat (lo.toNat + k)) (k + base)) :
    HexDigit d (d.toNat - lo.toNat + base) := by
  have hlo : lo.toNat ≤ d.toNat := hrange.1
  have hhi : d.toNat ≤ hi.toNat := hrange.2
  have hd := hall (d.toNat - lo.toNat) (by omega)
  rwa [Nat.add_sub_cancel' hlo, Char.ofNat_toNat] at hd

theorem hexValue?_eq_some_iff : hexValue? d = some value ↔ HexDigit d value := by
  constructor
  · intro h
    unfold hexValue? at h
    split at h
    · next hrange =>
        rw [← Option.some.inj h]
        exact hexDigit_of_range hrange (by decide : ∀ k ≤ 9, HexDigit (Char.ofNat (48 + k)) (k + 0))
    · split at h
      · next hrange =>
          rw [← Option.some.inj h]
          exact hexDigit_of_range hrange (by decide)
      · split at h
        · next hrange =>
            rw [← Option.some.inj h]
            exact hexDigit_of_range hrange (by decide)
        · cases h
  · intro h
    have hlt := h.value_lt
    cases h with
    | inl h | inr h => interval_cases value <;> obtain rfl := Option.some.inj h <;> rfl

theorem writes_snoc_iff : Writes (digits ++ [d]) n ↔
    ∃ m value, Writes digits m ∧ HexDigit d value ∧ n = 16 * m + value := by
  constructor
  · intro h
    generalize hall : digits ++ [d] = all at h
    cases h with
    | nil => simp at hall
    | snoc h hdigit =>
        obtain ⟨rfl, hlast⟩ := List.append_inj' hall rfl
        obtain rfl := List.singleton_inj.mp hlast
        exact ⟨_, _, h, hdigit, rfl⟩
  · intro h
    obtain ⟨m, value, hdigits, hdigit, rfl⟩ := h
    exact hdigits.snoc hdigit

theorem writes_nil_iff : Writes [] n ↔ n = 0 := by
  constructor
  · intro h
    generalize hall : ([] : List Char) = all at h
    cases h with
    | nil => rfl
    | snoc => simp at hall
  · intro h
    rw [h]
    exact .nil

theorem hexNumber?_eq_some_iff : hexNumber? digits = some n ↔ Writes digits n := by
  -- the number is computed from the left, so the last digit comes off first
  induction digits using List.reverseRecOn generalizing n with
  | nil =>
      rw [writes_nil_iff]
      exact Option.some_inj.trans eq_comm
  | append_singleton digits d ih =>
      have hlast : hexNumber? (digits ++ [d]) =
          (hexNumber? digits).bind fun m => (hexValue? d).map (16 * m + ·) := by
        unfold hexNumber?
        rw [List.foldlM_append]
        simp
      rw [hlast, writes_snoc_iff]
      simp only [Option.bind_eq_some_iff, Option.map_eq_some_iff, ih, hexValue?_eq_some_iff]
      constructor
      · intro h
        obtain ⟨m, hm, value, hvalue, rfl⟩ := h
        exact ⟨m, value, hm, hvalue, rfl⟩
      · intro h
        obtain ⟨m, value, hm, hvalue, rfl⟩ := h
        exact ⟨m, hm, value, hvalue, rfl⟩

/-! ## What is read as a sequence -/

theorem namedControl?_eq_some_iff : namedControl? d = some c ↔ (d, c) ∈ letters := by
  unfold namedControl?
  split
  all_goals simp_all [letters, eq_comm]

theorem Writes.exists_value (h : Writes digits n) (hd : d ∈ digits) :
    ∃ value, HexDigit d value := by
  induction h with
  | nil => cases hd
  | snoc _ hdigit ih =>
      rcases List.mem_append.mp hd with hd | hd
      · exact ih hd
      · rw [List.mem_singleton.mp hd]
        exact ⟨_, hdigit⟩

theorem not_hexDigit_plus : ¬HexDigit '+' value := by
  intro h
  have hlt := h.value_lt
  revert h
  revert value
  decide

/-- Behind `\\u` stand four digits, or a plus sign and three. -/
theorem accepted_unicode_iff : Accepted ('\\' :: 'u' :: digits) x ↔
    digits.length = 4 ∧ Writes digits x.toNat ∨
      ∃ rest, digits = '+' :: rest ∧ rest.length = 3 ∧ Writes rest x.toNat := by
  constructor
  · intro h
    rcases h with h | h
    · cases h with
      | named h => simp [letters] at h
      | numbered hlength h => exact .inl ⟨hlength, h⟩
    · cases h with
      | numbered hlength h => exact .inr ⟨_, rfl, hlength, h⟩
  · intro h
    rcases h with ⟨hlength, h⟩ | ⟨rest, rfl, hlength, h⟩
    · exact .inl (.numbered hlength h)
    · exact .inr (.numbered hlength h)

theorem bind_fourPlaces?_eq_some_iff :
    (fourPlaces? a b c d).bind scalar? = some x ↔ Accepted ['\\', 'u', a, b, c, d] x := by
  have hscalar (digits : List Char) :
      (hexNumber? digits).bind scalar? = some x ↔ Writes digits x.toNat := by
    simp [Option.bind_eq_some_iff, hexNumber?_eq_some_iff, scalar?_eq_some_iff]
  rw [accepted_unicode_iff]
  unfold fourPlaces?
  split
  · next ha =>
      have hplus : ¬Writes ['+', b, c, d] x.toNat := by
        intro h
        obtain ⟨value, hvalue⟩ := h.exists_value List.mem_cons_self
        exact not_hexDigit_plus hvalue
      simp [hscalar, ha, hplus]
  · next ha => simp [hscalar, ha]

theorem unescapeChars_cons (hc : c ≠ '\\') (text : List Char) :
    unescapeChars (c :: text) = c :: unescapeChars text := by
  rw [unescapeChars]
  · intro a b c d rest h
    exact absurd h hc
  · intro e rest h
    exact absurd h hc

theorem unescapeChars_numbered (hdigits : digits.length = 4)
    (h : Accepted ('\\' :: 'u' :: digits) c) (text : List Char) :
    unescapeChars ('\\' :: 'u' :: digits ++ text) = c :: unescapeChars text := by
  match digits, hdigits with
  | [a₁, a₂, a₃, a₄], _ =>
      show unescapeChars ('\\' :: 'u' :: a₁ :: a₂ :: a₃ :: a₄ :: text) = c :: unescapeChars text
      rw [unescapeChars, bind_fourPlaces?_eq_some_iff.mpr h]

/-- A sequence is read as the character that it stands for. -/
theorem unescapeChars_sequence (hw : Accepted w c) (text : List Char) :
    unescapeChars (w ++ text) = c :: unescapeChars text := by
  rcases hw with h | h
  · cases h with
    | named h =>
        simp only [letters, List.mem_cons, Prod.mk.injEq, List.not_mem_nil, or_false] at h
        rcases h with ⟨rfl, rfl⟩ | ⟨rfl, rfl⟩ | ⟨rfl, rfl⟩ | ⟨rfl, rfl⟩ | ⟨rfl, rfl⟩ | ⟨rfl, rfl⟩ <;>
          rfl
    | numbered hlength h =>
        exact unescapeChars_numbered hlength (.inl (.numbered hlength h)) text
  · cases h with
    | numbered hlength h =>
        exact unescapeChars_numbered (congrArg (· + 1) hlength) (.inr (.numbered hlength h)) text

/-- A character at which no sequence begins is copied. -/
theorem unescapeChars_copied (hnone : ∀ w x, Accepted w x → ¬w <+: c :: text) :
    unescapeChars (c :: text) = c :: unescapeChars text := by
  generalize hall : c :: text = all at hnone ⊢
  fun_cases unescapeChars all with
  | case1 => cases hall
  | case2 a₁ a₂ a₃ a₄ rest letter h =>
      exact absurd (List.prefix_append _ rest) (hnone _ _ (bind_fourPlaces?_eq_some_iff.mp h))
  | case3 a₁ a₂ a₃ a₄ rest h =>
      obtain ⟨rfl, rfl⟩ := List.cons.inj hall
      rw [unescapeChars_cons (by decide : 'u' ≠ '\\')]
  | case4 e rest hshort control h =>
      have hnamed := Sequence.named (namedControl?_eq_some_iff.mp h)
      exact absurd (List.prefix_append _ rest) (hnone _ _ (.inl hnamed))
  | case5 e rest hshort h =>
      obtain ⟨rfl, rfl⟩ := List.cons.inj hall
      rfl
  | case6 d rest hlong hshort =>
      obtain ⟨rfl, rfl⟩ := List.cons.inj hall
      rfl

/-! ## Reading from left to right -/

theorem Accepted.one_lt_length (hw : Accepted w c) : 1 < w.length := by
  rcases hw with h | h
  · cases h <;> simp
  · cases h
    simp

theorem Accepted.ne_nil (hw : Accepted w c) : w ≠ [] :=
  List.ne_nil_of_length_pos (Nat.lt_of_succ_lt hw.one_lt_length)

theorem exists_decodes (hS : ∀ w c, S w c → w ≠ []) (text : List Char) :
    ∃ result, Decodes S text result := by
  induction hlength : text.length using Nat.strong_induction_on generalizing text with
  | _ n ih =>
    subst hlength
    by_cases hsome : ∃ w c, S w c ∧ w <+: text
    · obtain ⟨w, c, hw, rest, rfl⟩ := hsome
      have hpos := List.length_pos_of_ne_nil (hS w c hw)
      obtain ⟨result, hresult⟩ := ih rest.length (by simp [hpos]) rest rfl
      exact ⟨_, hresult.sequence hw⟩
    · cases text with
      | nil => exact ⟨[], .nil⟩
      | cons c text =>
          obtain ⟨result, hresult⟩ := ih text.length (Nat.lt_succ_self _) text rfl
          refine ⟨_, hresult.copied ?_⟩
          intro w x hw hfront
          exact hsome ⟨w, x, hw, hfront⟩

theorem Decodes.eq_unescapeChars (h : Decodes Accepted text result) :
    result = unescapeChars text := by
  induction h with
  | nil => rfl
  | sequence hw _ ih => rw [unescapeChars_sequence hw, ih]
  | copied hnone _ ih => rw [unescapeChars_copied hnone, ih]

theorem decodes_unescapeChars (text : List Char) :
    Decodes Accepted text (unescapeChars text) := by
  obtain ⟨result, hresult⟩ := exists_decodes (fun _ _ => Accepted.ne_nil) text
  rwa [← hresult.eq_unescapeChars]

/-- Only the sequences that stand somewhere in the text matter. -/
theorem Decodes.congr (h : Decodes S text result)
    (hsame : ∀ w c, w <:+: text → (S w c ↔ S' w c)) : Decodes S' text result := by
  induction h with
  | nil => exact .nil
  | sequence hw _ ih =>
      apply Decodes.sequence ((hsame _ _ (List.prefix_append _ _).isInfix).mp hw)
      apply ih
      intro w c hwithin
      exact hsame w c (hwithin.trans (List.suffix_append _ _).isInfix)
  | copied hnone _ ih =>
      apply Decodes.copied
      · intro w x hw hfront
        exact hnone w x ((hsame w x hfront.isInfix).mpr hw) hfront
      · apply ih
        intro w c hwithin
        exact hsame w c (hwithin.trans (List.suffix_cons _ _).isInfix)

/-- A text without sequences is copied as a whole. -/
theorem decodes_iff_of_none (hnone : ∀ w c, S w c → ¬w <:+: text) :
    Decodes S text result ↔ result = text := by
  constructor
  · intro h
    induction h with
    | nil => rfl
    | sequence hw _ _ => exact absurd (List.prefix_append _ _).isInfix (hnone _ _ hw)
    | copied _ _ ih =>
        rw [ih fun w c hw hwithin => hnone w c hw (hwithin.trans (List.suffix_cons _ _).isInfix)]
  · intro h
    rw [h]
    clear h
    induction text with
    | nil => exact .nil
    | cons c text ih =>
        apply Decodes.copied
        · intro w x hw hfront
          exact hnone w x hw hfront.isInfix
        · apply ih
          intro w x hw hwithin
          exact hnone w x hw (hwithin.trans (List.suffix_cons _ _).isInfix)

/-- Reading from left to right, `unescape` replaces each sequence by its character and copies
everything else.  The sequences are those of the format, as long as no sequence with a plus sign
stands in the text; such a one is read as if the sign were the digit zero. -/
theorem unescape_eq_iff_decodes (text : String) :
    (∀ result, unescape text = result ↔ Decodes Accepted text.toList result.toList) ∧
      ((∀ w c, SignedSequence w c → ¬w <:+: text.toList) →
        ∀ result, unescape text = result ↔ Decodes Sequence text.toList result.toList) := by
  have hread : ∀ result, unescape text = result ↔ Decodes Accepted text.toList result.toList := by
    intro result
    constructor
    · intro h
      rw [← h]
      unfold unescape
      rw [String.toList_ofList]
      exact decodes_unescapeChars _
    · intro h
      unfold unescape
      rw [← h.eq_unescapeChars, String.ofList_toList]
  refine ⟨hread, ?_⟩
  intro hsigned result
  have hsame : ∀ w c, w <:+: text.toList → (Accepted w c ↔ Sequence w c) := by
    intro w c hwithin
    exact or_iff_left fun hw => hsigned w c hw hwithin
  rw [hread]
  constructor
  · intro h
    exact h.congr hsame
  · intro h
    exact h.congr fun w c hwithin => (hsame w c hwithin).symm

theorem not_signedSequence_of_no_plus (hplus : '+' ∉ text) :
    ∀ w c, SignedSequence w c → ¬w <:+: text := by
  intro w c hw hwithin
  cases hw with
  | numbered => exact hplus (hwithin.subset (by simp))

/-- A surrogate and an unknown letter are copied with their backslashes. -/
theorem unescape_eq_iff_decodes_mixed :
    (∀ w c, SignedSequence w c → ¬w <:+: "\\ud800\\q\\u0041\\n".toList) ∧
      Decodes Sequence "\\ud800\\q\\u0041\\n".toList "\\ud800\\qA\n".toList := by
  have hsigned := not_signedSequence_of_no_plus
    (by decide : '+' ∉ "\\ud800\\q\\u0041\\n".toList)
  have hunescape : unescape "\\ud800\\q\\u0041\\n" = "\\ud800\\qA\n" := by decide
  exact ⟨hsigned, ((unescape_eq_iff_decodes _).2 hsigned _).mp hunescape⟩

/-- In the format a plus sign is no digit, so the text is to be copied. -/
theorem unescape_reads_plus_sign :
    unescape "\\u+041" = "A" ∧ ¬Decodes Sequence "\\u+041".toList "A".toList ∧
      Decodes Sequence "\\u+041".toList "\\u+041".toList := by
  have hnone : ∀ w c, Sequence w c → ¬w <:+: "\\u+041".toList := by
    intro w c hw hwithin
    have htext : "\\u+041".toList = '\\' :: 'u' :: ['+', '0', '4', '1'] := by decide
    rw [htext, List.infix_cons_iff] at hwithin
    cases hwithin with
    | inl hfront =>
        cases hw with
        | @named letter c h =>
            obtain rfl : letter = 'u' := by simpa using hfront
            simp [letters] at h
        | @numbered digits c hlength h =>
            have hdigits : digits <+: ['+', '0', '4', '1'] := by simpa using hfront
            rw [hdigits.eq_of_length hlength] at h
            obtain ⟨value, hvalue⟩ := h.exists_value List.mem_cons_self
            exact not_hexDigit_plus hvalue
    | inr hwithin =>
        -- there is no other backslash
        have hmem : '\\' ∈ w := by cases hw <;> simp
        exact absurd (hwithin.subset hmem) (by decide)
  refine ⟨by decide, ?_, ?_⟩
  · rw [decodes_iff_of_none hnone]
    decide
  · rw [decodes_iff_of_none hnone]

end MaximalMunch.Text
