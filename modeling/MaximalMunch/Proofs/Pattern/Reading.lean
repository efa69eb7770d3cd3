import Mathlib
import MaximalMunch.Error
import MaximalMunch.Pattern.Basic
import MaximalMunch.Proofs.Text.Sequence

/-!
# Which texts are patterns

A text spells signs, one for every character that no backslash precedes and one for every pair of a
backslash and the character behind it.  Signs are written out by putting a group of alternatives for
every range block.  `readTokens_eq_ok_iff` says that reading a pattern is both of these and nothing
else, and `exists_writtenOut_iff` says it of the signs at their places: behind every opening bracket
there are ranges and a closing one, and there are no other closing brackets.
-/

namespace MaximalMunch.Pattern

/-- A character that stands for itself. -/
def literal (c : Char) : Sign := .token (.char c)

/-- The signs that a text spells. -/
inductive Spells : List Char → List Sign → Prop where
  | nil : Spells [] []
  | escaped {text ss} (c : Char) (h : Spells text ss) : Spells ('\\' :: c :: text) (literal c :: ss)
  | plain {text ss c} (hc : c ∉ specials) (h : Spells text ss) : Spells (c :: text) (literal c :: ss)
  | special {text ss sign} (hsign : ∀ c, sign ≠ literal c) (h : Spells text ss) :
      Spells (sign.symbol :: text) (sign :: ss)

/-- All characters from one to another, in ascending order. -/
structure IsRange (first last : Char) (range : List Char) : Prop where
  sorted : range.Pairwise (· < ·)
  mem_iff : ∀ c, c ∈ range ↔ first ≤ c ∧ c ≤ last

/-- The ends of ranges, range after range. -/
def ends (ranges : List (Char × Char)) : List Char :=
  ranges.flatMap fun range => [range.1, range.2]

/-- The characters that ranges offer, range after range. -/
inductive Offers : List (Char × Char) → List Char → Prop where
  | nil : Offers [] []
  | cons {first last range ranges offered} (hle : first ≤ last) (hrange : IsRange first last range)
      (h : Offers ranges offered) : Offers ((first, last) :: ranges) (range ++ offered)

/-- The tokens of signs, with a group of alternatives for every block. -/
inductive WrittenOut : List Sign → List Token → Prop where
  | nil : WrittenOut [] []
  | token {ss ts} (t : Token) (h : WrittenOut ss ts) : WrittenOut (.token t :: ss) (t :: ts)
  | block {ss ts ranges offered} (hne : ranges ≠ []) (hoffers : Offers ranges offered)
      (h : WrittenOut ss ts) :
      WrittenOut (.blockOpen :: (ends ranges).map literal ++ .blockClose :: ss)
        (.groupOpen :: (offered.map Token.char).intersperse .union ++ .groupClose :: ts)

/-- Every bracket belongs to a block: behind one that opens there are ranges, none of them reversed,
and one that closes, and there is no other that closes. -/
structure Blocked (ss : List Sign) : Prop where
  opened : ∀ us vs, ss = us ++ .blockOpen :: vs → ∃ ranges behind,
    vs = (ends ranges).map literal ++ .blockClose :: behind ∧ ranges ≠ [] ∧
      ∀ range ∈ ranges, range.1 ≤ range.2
  closed : ∀ us vs, ss = us ++ .blockClose :: vs → ∃ front, ∃ chars : List Char,
    us = front ++ .blockOpen :: chars.map literal

variable {text front : List Char} {ss us vs : List Sign} {ts : List Token} {chars : List Char}
  {first last c : Char} {sign : Sign} {ranges : List (Char × Char)} {offered : List Char}

/-! ## Signs -/

theorem symbol_ne_backslash (hsign : ∀ c, sign ≠ literal c) : sign.symbol ≠ '\\' := by
  cases sign with
  | blockOpen | blockClose => decide
  | token t =>
      cases t with
      | char c => exact absurd rfl (hsign c)
      | epsilon | union | concat | closure | groupOpen | groupClose => decide

theorem ofChar_symbol (hsign : ∀ c, sign ≠ literal c) : Sign.ofChar sign.symbol = sign := by
  cases sign with
  | blockOpen | blockClose => rfl
  | token t =>
      cases t with
      | char c => exact absurd rfl (hsign c)
      | epsilon | union | concat | closure | groupOpen | groupClose => rfl

theorem ofChar_of_not_mem (hc : c ∉ specials) : Sign.ofChar c = literal c := by
  simp only [specials, List.mem_cons, List.not_mem_nil, or_false, not_or] at hc
  rw [Sign.ofChar]
  · rfl
  all_goals
    intro heq
    simp [heq] at hc

theorem ofChar_of_mem (hmem : c ∈ specials) (hc : c ≠ '\\') :
    Sign.ofChar c ≠ literal c ∧ (Sign.ofChar c).symbol = c := by
  simp only [specials, List.mem_cons, List.not_mem_nil, or_false] at hmem
  revert hc
  rcases hmem with rfl | rfl | rfl | rfl | rfl | rfl | rfl | rfl | rfl <;> decide

theorem ne_backslash_of_not_mem (hc : c ∉ specials) : c ≠ '\\' := by
  rintro rfl
  exact hc (by decide)

/-- A character other than the backslash spells its sign. -/
theorem spells_cons (hc : c ≠ '\\') (h : Spells text ss) :
    Spells (c :: text) (Sign.ofChar c :: ss) := by
  by_cases hmem : c ∈ specials
  · obtain ⟨hne, hsymbol⟩ := ofChar_of_mem hmem hc
    have hspells : Spells ((Sign.ofChar c).symbol :: text) (Sign.ofChar c :: ss) := by
      apply Spells.special _ h
      -- a literal that is written like this character is the literal of this character
      intro d hd
      have hsymbol' : (Sign.ofChar c).symbol = d := by rw [hd]; rfl
      rw [← hsymbol', hsymbol] at hd
      exact hne hd
    rwa [hsymbol] at hspells
  · rw [ofChar_of_not_mem hmem]
    exact .plain hmem h

theorem signs_cons (hc : c ≠ '\\') (text : List Char) :
    signs (c :: text) = (signs text).map (Sign.ofChar c :: ·) := by
  rw [signs]
  · intro h
    exact absurd h hc
  · intro d rest h
    exact absurd h hc

/-- A backslash is the last character or has one behind it. -/
theorem ne_backslash_of_no_escape (hlast : c = '\\' → text = [] → False)
    (hpair : ∀ d rest, c = '\\' → text = d :: rest → False) : c ≠ '\\' := by
  intro hc
  cases text with
  | nil => exact hlast hc rfl
  | cons d rest => exact hpair d rest hc rfl

/-- Reading a text as signs is finding the signs that it spells. -/
theorem signs_eq_ok_iff : signs text = .ok ss ↔ Spells text ss := by
  constructor
  · intro h
    fun_induction signs text generalizing ss with
    | case1 =>
        obtain rfl := Except.ok.inj h
        exact .nil
    | case2 => cases h
    | case3 c rest ih =>
        obtain ⟨behind, hbehind, rfl⟩ := map_eq_ok.mp h
        exact .escaped c (ih hbehind)
    | case4 c rest hlast hpair ih =>
        obtain ⟨behind, hbehind, rfl⟩ := map_eq_ok.mp h
        exact spells_cons (ne_backslash_of_no_escape hlast hpair) (ih hbehind)
  · intro h
    induction h with
    | nil => rfl
    | escaped c _ ih =>
        rw [signs, ih]
        rfl
    | plain hc _ ih =>
        rw [signs_cons (ne_backslash_of_not_mem hc), ih, ofChar_of_not_mem hc]
        rfl
    | special hsign _ ih =>
        rw [signs_cons (symbol_ne_backslash hsign), ih, ofChar_symbol hsign]
        rfl

theorem Spells.unique {ss' : List Sign} (h : Spells text ss) (h' : Spells text ss') : ss = ss' :=
  Except.ok.inj ((signs_eq_ok_iff.mpr h).symm.trans (signs_eq_ok_iff.mpr h'))

theorem Spells.eq_nil_iff (h : Spells text ss) : ss = [] ↔ text = [] := by
  cases h <;> simp

/-- A backslash behind signs escapes nothing. -/
theorem Spells.signs_append_backslash (h : Spells front ss) :
    signs (front ++ ['\\']) = .error .danglingEscape := by
  induction h with
  | nil => rfl
  | escaped c _ ih =>
      rw [List.cons_append, List.cons_append, signs, ih]
      rfl
  | plain hc _ ih =>
      rw [List.cons_append, signs_cons (ne_backslash_of_not_mem hc), ih]
      rfl
  | special hsign _ ih =>
      rw [List.cons_append, signs_cons (symbol_ne_backslash hsign), ih]
      rfl

theorem exists_front_of_signs_eq_error {fault : Fault} (h : signs text = .error fault) :
    ∃ front ss, Spells front ss ∧ text = front ++ ['\\'] := by
  fun_induction signs text with
  | case1 => cases h
  | case2 => exact ⟨[], [], .nil, rfl⟩
  | case3 c rest ih =>
      obtain ⟨front, ss, hfront, rfl⟩ := ih (map_eq_error.mp h)
      exact ⟨'\\' :: c :: front, _, hfront.escaped c, rfl⟩
  | case4 c rest hlast hpair ih =>
      obtain ⟨front, ss, hfront, rfl⟩ := ih (map_eq_error.mp h)
      exact ⟨c :: front, _, spells_cons (ne_backslash_of_no_escape hlast hpair) hfront, rfl⟩

/-- A text spells signs unless it ends with a backslash that escapes nothing. -/
theorem exists_spells_iff : (∃ ss, Spells text ss) ↔
    ¬∃ front ss, Spells front ss ∧ text = front ++ ['\\'] := by
  constructor
  · rintro ⟨ss, hss⟩ ⟨front, ss', hfront, rfl⟩
    have hok := signs_eq_ok_iff.mpr hss
    rw [hfront.signs_append_backslash] at hok
    cases hok
  · intro hnone
    cases hsigns : signs text with
    | ok ss => exact ⟨ss, signs_eq_ok_iff.mp hsigns⟩
    | error fault => exact absurd (exists_front_of_signs_eq_error hsigns) hnone

/-! ## Ranges -/

theorem isRange_charRange (first last : Char) : IsRange first last (charRange first last) where
  sorted := by
    apply List.Pairwise.filterMap _ _ List.pairwise_lt_range'
    intro n n' hlt c hc c' hc'
    rw [← Text.scalar?_eq_some_iff.mp hc, ← Text.scalar?_eq_some_iff.mp hc'] at hlt
    exact hlt
  mem_iff := by
    intro c
    have hle : first ≤ c ∧ c ≤ last ↔ first.toNat ≤ c.toNat ∧ c.toNat ≤ last.toNat := Iff.rfl
    rw [hle, charRange, List.mem_filterMap]
    constructor
    · rintro ⟨n, hn, hc⟩
      rw [List.mem_range'_1, ← Text.scalar?_eq_some_iff.mp hc] at hn
      omega
    · intro hc
      exact ⟨c.toNat, List.mem_range'_1.mpr (by omega), Text.scalar?_eq_some_iff.mpr rfl⟩

theorem IsRange.eq_charRange {range : List Char} (h : IsRange first last range) :
    range = charRange first last := by
  have hrange := isRange_charRange first last
  apply h.sorted.eq_of_mem_iff hrange.sorted
  intro c
  rw [h.mem_iff, hrange.mem_iff]

theorem rangeChars_eq_ok_iff {range : List Char} : rangeChars (first, last) = .ok range ↔
    first ≤ last ∧ IsRange first last range := by
  rw [rangeChars]
  split
  · next hlt =>
      constructor
      · intro h
        cases h
      · rintro ⟨hle, -⟩
        exact absurd hlt (Char.not_lt.mpr hle)
  · next hle =>
      constructor
      · intro h
        obtain rfl := Except.ok.inj h
        exact ⟨Char.not_lt.mp hle, isRange_charRange first last⟩
      · rintro ⟨-, hrange⟩
        exact congrArg Except.ok hrange.eq_charRange.symm

theorem pairs?_eq_some_iff : pairs? chars = some ranges ↔ chars = ends ranges := by
  fun_induction pairs? chars generalizing ranges with
  | case1 => cases ranges <;> simp [ends]
  | case2 => cases ranges <;> simp [ends]
  | case3 first last rest ih =>
      cases ranges with
      | nil => simp [ends]
      | cons range ranges => simp [ih, ends, Prod.ext_iff, and_assoc, and_comm]

/-- The characters of ranges, range after range, if none of them is reversed. -/
theorem exists_mapM_rangeChars_iff :
    (∃ alternatives, ranges.mapM rangeChars = .ok alternatives ∧ alternatives.flatten = offered) ↔
      Offers ranges offered := by
  constructor
  · rintro ⟨alternatives, halternatives, rfl⟩
    induction ranges generalizing alternatives with
    | nil =>
        obtain rfl := Except.ok.inj halternatives
        exact .nil
    | cons ends ranges ih =>
        rw [List.mapM_cons, bind_eq_ok] at halternatives
        obtain ⟨range, hrange, hrest⟩ := halternatives
        obtain ⟨later, hlater, hcons⟩ := bind_eq_ok.mp hrest
        obtain rfl := Except.ok.inj hcons
        obtain ⟨hle, hfirst⟩ := rangeChars_eq_ok_iff.mp hrange
        exact .cons hle hfirst (ih later hlater)
  · intro h
    induction h with
    | nil => exact ⟨[], rfl, rfl⟩
    | @cons first last range ranges offered hle hrange _ ih =>
        obtain ⟨alternatives, halternatives, rfl⟩ := ih
        refine ⟨range :: alternatives, ?_, List.flatten_cons⟩
        rw [List.mapM_cons, rangeChars_eq_ok_iff.mpr ⟨hle, hrange⟩, halternatives]
        rfl

theorem exists_offers_iff : (∃ offered, Offers ranges offered) ↔
    ∀ range ∈ ranges, range.1 ≤ range.2 := by
  constructor
  · rintro ⟨offered, h⟩
    induction h with
    | nil => exact List.forall_mem_nil _
    | cons hle _ _ ih => exact List.forall_mem_cons.mpr ⟨hle, ih⟩
  · intro h
    induction ranges with
    | nil => exact ⟨[], .nil⟩
    | cons range ranges ih =>
        obtain ⟨hle, hranges⟩ := List.forall_mem_cons.mp h
        obtain ⟨offered, hoffers⟩ := ih hranges
        exact ⟨_, hoffers.cons hle (isRange_charRange range.1 range.2)⟩

theorem blockTokens_eq_ok_iff {block : List Token} : blockTokens chars = .ok block ↔
    ∃ ranges offered, chars = ends ranges ∧ ranges ≠ [] ∧ Offers ranges offered ∧
      block = choice offered := by
  simp only [← pairs?_eq_some_iff, ← exists_mapM_rangeChars_iff]
  rw [blockTokens]
  split
  · next hnil =>
      constructor
      · intro h
        cases h
      · rintro ⟨ranges, offered, hpairs, hne, -⟩
        rw [hnil] at hpairs
        exact absurd (Option.some.inj hpairs).symm hne
  · next hne =>
      cases hpairs : pairs? chars with
      | none => simp
      | some ranges =>
          have hranges : ranges ≠ [] := by
            rintro rfl
            exact hne (pairs?_eq_some_iff.mp hpairs)
          constructor
          · intro h
            obtain ⟨alternatives, halternatives, rfl⟩ := map_eq_ok.mp h
            exact ⟨ranges, _, rfl, hranges, ⟨alternatives, halternatives, rfl⟩, rfl⟩
          · rintro ⟨ranges', offered, hsame, -, ⟨alternatives, halternatives, rfl⟩, rfl⟩
            obtain rfl := Option.some.inj hsame
            exact map_eq_ok.mpr ⟨alternatives, halternatives, rfl⟩

/-! ## Blocks -/

theorem expandBlock_blockClose : expandBlock chars (.blockClose :: ss) =
    blockTokens chars.reverse >>= fun block => (expand ss).map (block ++ ·) := rfl

theorem expandBlock_literals (chars more : List Char) (behind : List Sign) :
    expandBlock chars (more.map literal ++ behind) =
      expandBlock (more.reverse ++ chars) behind := by
  induction more generalizing chars with
  | nil => rfl
  | cons c more ih =>
      rw [List.reverse_cons, List.append_assoc]
      exact ih (c :: chars)

theorem exists_literals_of_expandBlock (h : expandBlock chars ss = .ok ts) :
    ∃ (more : List Char) (behind : List Sign), ss = more.map literal ++ .blockClose :: behind := by
  induction ss generalizing chars with
  | nil => cases h
  | cons sign ss ih =>
      cases sign with
      | blockOpen => cases h
      | blockClose => exact ⟨[], ss, rfl⟩
      | token t =>
          cases t with
          | char c =>
              obtain ⟨more, behind, rfl⟩ := ih h
              exact ⟨c :: more, behind, rfl⟩
          | epsilon | union | concat | closure | groupOpen | groupClose => cases h

/-- A block goes on with literals up to the bracket that closes it. -/
theorem expandBlock_eq_ok_iff : expandBlock chars ss = .ok ts ↔ ∃ more behind block later,
    ss = more.map literal ++ .blockClose :: behind ∧
      blockTokens (chars.reverse ++ more) = .ok block ∧ expand behind = .ok later ∧
      ts = block ++ later := by
  constructor
  · intro h
    obtain ⟨more, behind, rfl⟩ := exists_literals_of_expandBlock h
    rw [expandBlock_literals, expandBlock_blockClose, List.reverse_append,
      List.reverse_reverse] at h
    obtain ⟨block, hblock, hmap⟩ := bind_eq_ok.mp h
    obtain ⟨later, hlater, rfl⟩ := map_eq_ok.mp hmap
    exact ⟨more, behind, block, later, rfl, hblock, hlater, rfl⟩
  · rintro ⟨more, behind, block, later, rfl, hblock, hlater, rfl⟩
    rw [expandBlock_literals, expandBlock_blockClose, List.reverse_append, List.reverse_reverse,
      hblock, ok_bind, hlater]
    rfl

theorem expand_blockOpen_eq_ok_iff : expand (.blockOpen :: ss) = .ok ts ↔
    ∃ ranges offered behind later, ss = (ends ranges).map literal ++ .blockClose :: behind ∧
      ranges ≠ [] ∧ Offers ranges offered ∧ expand behind = .ok later ∧
      ts = choice offered ++ later := by
  rw [expand, expandBlock_eq_ok_iff]
  constructor
  · rintro ⟨chars, behind, block, later, hss, hblock, hlater, hts⟩
    obtain ⟨ranges, offered, rfl, hne, hoffers, rfl⟩ := blockTokens_eq_ok_iff.mp hblock
    exact ⟨ranges, offered, behind, later, hss, hne, hoffers, hlater, hts⟩
  · rintro ⟨ranges, offered, behind, later, hss, hne, hoffers, hlater, hts⟩
    have hblock := blockTokens_eq_ok_iff.mpr ⟨ranges, offered, rfl, hne, hoffers, rfl⟩
    exact ⟨ends ranges, behind, _, later, hss, hblock, hlater, hts⟩

theorem choice_append (offered : List Char) (ts : List Token) : choice offered ++ ts =
    .groupOpen :: (offered.map Token.char).intersperse .union ++ .groupClose :: ts := by
  rw [choice, List.append_assoc]
  rfl

theorem length_lt_of_block (chars : List Char) (behind : List Sign) : behind.length <
    (Sign.blockOpen :: (chars.map literal ++ .blockClose :: behind)).length := by
  simp
  omega

/-- Expanding signs is writing out their blocks. -/
theorem expand_eq_ok_iff : expand ss = .ok ts ↔ WrittenOut ss ts := by
  constructor
  · intro h
    -- a block is expanded at once, so the induction is on the number of signs
    induction hlength : ss.length using Nat.strong_induction_on generalizing ss ts with
    | _ n ih =>
      subst hlength
      match ss with
      | [] =>
          obtain rfl := Except.ok.inj h
          exact .nil
      | .token t :: rest =>
          obtain ⟨later, hlater, rfl⟩ := map_eq_ok.mp h
          exact .token t (ih _ (Nat.lt_succ_self _) hlater rfl)
      | .blockClose :: rest => cases h
      | .blockOpen :: rest =>
          obtain ⟨ranges, offered, behind, later, rfl, hne, hoffers, hlater, rfl⟩ :=
            expand_blockOpen_eq_ok_iff.mp h
          rw [choice_append]
          exact .block hne hoffers (ih _ (length_lt_of_block _ _) hlater rfl)
  · intro h
    induction h with
    | nil => rfl
    | token t _ ih =>
        rw [expand, ih]
        rfl
    | @block ss ts ranges offered hne hoffers _ ih =>
        rw [← choice_append, List.cons_append]
        exact expand_blockOpen_eq_ok_iff.mpr ⟨ranges, offered, ss, ts, rfl, hne, hoffers, ih, rfl⟩

theorem WrittenOut.eq_nil_iff (h : WrittenOut ss ts) : ts = [] ↔ ss = [] := by
  cases h <;> simp

theorem readTokens_eq_ok_iff :
    readTokens text = .ok ts ↔ text ≠ [] ∧ ∃ ss, Spells text ss ∧ WrittenOut ss ts := by
  have hempty (found : List Token) : (if found = [] then (.error .emptyPattern : Except Fault _)
      else .ok found) = .ok ts ↔ found ≠ [] ∧ found = ts := by
    split
    · next hnil => simp [hnil]
    · next hne => simp [hne]
  simp only [readTokens, bind_eq_ok, signs_eq_ok_iff, expand_eq_ok_iff, hempty]
  constructor
  · rintro ⟨ss, hspells, found, hwritten, hne, rfl⟩
    refine ⟨?_, ss, hspells, hwritten⟩
    intro htext
    exact hne (hwritten.eq_nil_iff.mpr (hspells.eq_nil_iff.mpr htext))
  · rintro ⟨htext, ss, hspells, hwritten⟩
    refine ⟨ss, hspells, ts, hwritten, ?_, rfl⟩
    intro hts
    exact htext (hspells.eq_nil_iff.mp (hwritten.eq_nil_iff.mp hts))

/-! ## The places of the brackets -/

/-- A sign that is no literal and stands in or behind the rest of a block is its bracket or stands
behind it. -/
theorem eq_or_exists_behind (hsign : ∀ c, sign ≠ literal c)
    (h : chars.map literal ++ .blockClose :: ss = us ++ sign :: vs) :
    sign = .blockClose ∧ us = chars.map literal ∨
      ∃ front, us = chars.map literal ++ .blockClose :: front ∧ ss = front ++ sign :: vs := by
  induction chars generalizing us with
  | nil =>
      cases us with
      | nil => exact .inl ⟨(List.cons.inj h).1.symm, rfl⟩
      | cons s us =>
          obtain ⟨rfl, hss⟩ := List.cons.inj h
          exact .inr ⟨us, rfl, hss⟩
  | cons c chars ih =>
      cases us with
      | nil => exact absurd (List.cons.inj h).1.symm (hsign c)
      | cons s us =>
          obtain ⟨rfl, hrest⟩ := List.cons.inj h
          rcases ih hrest with ⟨hclose, rfl⟩ | ⟨front, rfl, hss⟩
          · exact .inl ⟨hclose, rfl⟩
          · exact .inr ⟨front, rfl, hss⟩

theorem blocked_nil : Blocked [] where
  opened us vs h := by cases us <;> cases h
  closed us vs h := by cases us <;> cases h

theorem blocked_token (t : Token) : Blocked (.token t :: ss) ↔ Blocked ss := by
  constructor
  · intro h
    constructor
    · intro us vs hss
      exact h.opened (.token t :: us) vs (by rw [hss]; rfl)
    · intro us vs hss
      obtain ⟨front, chars, hus⟩ := h.closed (.token t :: us) vs (by rw [hss]; rfl)
      cases front with
      | nil => cases (List.cons.inj hus).1
      | cons s front => exact ⟨front, chars, (List.cons.inj hus).2⟩
  · intro h
    constructor
    · intro us vs hss
      cases us with
      | nil => cases (List.cons.inj hss).1
      | cons s us => exact h.opened us vs (List.cons.inj hss).2
    · intro us vs hss
      cases us with
      | nil => cases (List.cons.inj hss).1
      | cons s us =>
          obtain ⟨rfl, hrest⟩ := List.cons.inj hss
          obtain ⟨front, chars, rfl⟩ := h.closed us vs hrest
          exact ⟨.token t :: front, chars, rfl⟩

theorem blockOpen_ne_literal (c : Char) : Sign.blockOpen ≠ literal c := by
  intro h
  cases h

theorem blockClose_ne_literal (c : Char) : Sign.blockClose ≠ literal c := by
  intro h
  cases h

theorem blockClose_not_mem_literals (chars : List Char) : .blockClose ∉ chars.map literal := by
  intro hmem
  obtain ⟨c, -, hc⟩ := List.mem_map.mp hmem
  exact blockClose_ne_literal c hc.symm

theorem Blocked.behind_block
    (h : Blocked (.blockOpen :: (chars.map literal ++ .blockClose :: ss))) : Blocked ss := by
  have hfront : ∀ us sign vs, ss = us ++ sign :: vs →
      .blockOpen :: (chars.map literal ++ .blockClose :: ss) =
        .blockOpen :: (chars.map literal ++ .blockClose :: us) ++ sign :: vs := by
    intro us sign vs hss
    rw [hss, List.cons_append, List.append_assoc]
    rfl
  constructor
  · intro us vs hss
    exact h.opened _ vs (hfront us .blockOpen vs hss)
  · intro us vs hss
    obtain ⟨front, more, hus⟩ := h.closed _ vs (hfront us .blockClose vs hss)
    cases front with
    | nil =>
        -- the bracket that closes the block in front is no character of a block
        apply absurd _ (blockClose_not_mem_literals more)
        rw [← (List.cons.inj hus).2]
        exact List.mem_append_right _ List.mem_cons_self
    | cons s front =>
        rcases eq_or_exists_behind blockOpen_ne_literal (List.cons.inj hus).2 with
          ⟨hsign, -⟩ | ⟨later, -, hlater⟩
        · cases hsign
        · exact ⟨later, more, hlater⟩

theorem Blocked.block (hne : ranges ≠ []) (hle : ∀ range ∈ ranges, range.1 ≤ range.2)
    (h : Blocked ss) :
    Blocked (.blockOpen :: ((ends ranges).map literal ++ .blockClose :: ss)) := by
  constructor
  · intro us vs hss
    cases us with
    | nil =>
        obtain rfl := (List.cons.inj hss).2
        exact ⟨ranges, ss, rfl, hne, hle⟩
    | cons s us =>
        rcases eq_or_exists_behind blockOpen_ne_literal (List.cons.inj hss).2 with
          ⟨hsign, -⟩ | ⟨later, -, hlater⟩
        · cases hsign
        · exact h.opened later vs hlater
  · intro us vs hss
    cases us with
    | nil => cases (List.cons.inj hss).1
    | cons s us =>
        obtain ⟨rfl, hrest⟩ := List.cons.inj hss
        rcases eq_or_exists_behind blockClose_ne_literal hrest with ⟨-, rfl⟩ | ⟨later, rfl, hlater⟩
        · exact ⟨[], ends ranges, rfl⟩
        · obtain ⟨front, more, rfl⟩ := h.closed later vs hlater
          exact ⟨.blockOpen :: ((ends ranges).map literal ++ .blockClose :: front), more, by simp⟩

/-- Signs can be written out if every bracket belongs to a block. -/
theorem exists_writtenOut_iff : (∃ ts, WrittenOut ss ts) ↔ Blocked ss := by
  constructor
  · rintro ⟨ts, h⟩
    induction h with
    | nil => exact blocked_nil
    | token t _ ih => exact (blocked_token t).mpr ih
    | block hne hoffers _ ih => exact ih.block hne (exists_offers_iff.mp ⟨_, hoffers⟩)
  · intro h
    induction hlength : ss.length using Nat.strong_induction_on generalizing ss with
    | _ n ih =>
      subst hlength
      match ss with
      | [] => exact ⟨[], .nil⟩
      | .token t :: rest =>
          obtain ⟨ts, hts⟩ := ih _ (Nat.lt_succ_self _) ((blocked_token t).mp h) rfl
          exact ⟨t :: ts, hts.token t⟩
      | .blockClose :: rest =>
          obtain ⟨front, chars, hnil⟩ := h.closed [] rest rfl
          cases front <;> cases hnil
      | .blockOpen :: rest =>
          obtain ⟨ranges, behind, rfl, hne, hle⟩ := h.opened [] rest rfl
          obtain ⟨offered, hoffers⟩ := exists_offers_iff.mpr hle
          obtain ⟨ts, hts⟩ := ih _ (length_lt_of_block _ _) h.behind_block rfl
          exact ⟨_, hts.block hne hoffers⟩

/-! ## Patterns -/

theorem read_eq_ok_iff_readTokens {raw : String} {p : Pattern} :
    read raw = .ok p ↔ p.raw = raw ∧ readTokens raw.toList = .ok p.tokens := by
  rw [read]
  cases readTokens raw.toList with
  | error fault => simp
  | ok ts =>
      constructor
      · intro h
        obtain rfl := Except.ok.inj h
        exact ⟨rfl, rfl⟩
      · rintro ⟨rfl, h⟩
        obtain rfl := Except.ok.inj h
        rfl

/-- A text is a pattern if it has characters, the last one is no backslash that escapes nothing, and
every bracket belongs to a block.  The pattern has the tokens of the signs that the text spells,
with the blocks written out. -/
theorem read_eq_ok_iff (raw : String) :
    ((∃ p, read raw = .ok p) ↔
      raw ≠ "" ∧ (¬∃ front ss, Spells front ss ∧ raw.toList = front ++ ['\\']) ∧
        ∀ ss, Spells raw.toList ss → Blocked ss) ∧
      ∀ p, read raw = .ok p ↔ p.raw = raw ∧ raw ≠ "" ∧
        ∃ ss, Spells raw.toList ss ∧ WrittenOut ss p.tokens := by
  have hread : ∀ p, read raw = .ok p ↔ p.raw = raw ∧ raw ≠ "" ∧
      ∃ ss, Spells raw.toList ss ∧ WrittenOut ss p.tokens := by
    intro p
    rw [read_eq_ok_iff_readTokens, readTokens_eq_ok_iff, Ne, String.toList_eq_nil_iff]
  refine ⟨?_, hread⟩
  rw [← exists_spells_iff]
  constructor
  · rintro ⟨p, hp⟩
    obtain ⟨-, hne, ss, hspells, hwritten⟩ := (hread p).mp hp
    refine ⟨hne, ⟨ss, hspells⟩, ?_⟩
    intro ss' hspells'
    rw [← hspells.unique hspells']
    exact exists_writtenOut_iff.mp ⟨_, hwritten⟩
  · rintro ⟨hne, ⟨ss, hspells⟩, hblocked⟩
    obtain ⟨ts, hwritten⟩ := exists_writtenOut_iff.mpr (hblocked ss hspells)
    exact ⟨⟨raw, ts⟩, (hread _).mpr ⟨rfl, hne, ss, hspells, hwritten⟩⟩

/-- What a block offers stands for itself, whatever it means elsewhere. -/
example : (read "[\\(\\)]").map Pattern.tokens =
    .ok [.groupOpen, .char '(', .union, .char ')', .groupClose] := rfl

end MaximalMunch.Pattern
