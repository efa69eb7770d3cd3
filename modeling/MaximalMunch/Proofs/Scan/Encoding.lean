import Mathlib.Algebra.Group.Nat.Defs
import MaximalMunch.Proofs.Scan.Stream

/-!
# Bytes at the front of which no character stands

A number takes one byte, or a first byte that tells how many continuation bytes follow it.  Of the
forms that can be written down like this, the encoding of a character is the shortest one, and
neither surrogates nor numbers above `0x10FFFF` are characters.  `Malformed` collects the ways in
which bytes can miss that, and `Malformed.not_begins` says that none of them begins a character.
-/

namespace MaximalMunch

namespace Source

/-! ## Forms of numbers -/

/-- The continuation bytes of a number, six bits each. -/
def continuation : Nat → Nat → List UInt8
  | 0, _ => []
  | count + 1, v => .ofNat (v / 64 ^ count % 64 + 128) :: continuation count v

/-- What marks a first byte with the given number of bytes behind it. -/
def mark : Nat → Nat
  | 0 => 0
  | 1 => 192
  | 2 => 224
  | _ => 240

/-- The numbers below this one have a form with the given number of continuation bytes. -/
def room : Nat → Nat
  | 0 => 0x80
  | 1 => 0x800
  | 2 => 0x10000
  | _ => 0x200000

/-- The bytes of a number with the given number of continuation bytes, at most three, whether or not
they encode a character. -/
def form (count v : Nat) : List UInt8 :=
  .ofNat (v / 64 ^ count + mark count) :: continuation count v

/-- A byte that may stand behind the first byte of a form and begins none. -/
def IsContinuation (b : UInt8) : Prop := 0x80 ≤ b ∧ b ≤ 0xBF

variable {count count' v v' : Nat} {bytes rest rest' : List UInt8} {c : Char}

theorem ofNat_injective (h : v < 256) (h' : v' < 256) (heq : UInt8.ofNat v = UInt8.ofNat v') :
    v = v' := by
  have hnat := congrArg UInt8.toNat heq
  rwa [UInt8.toNat_ofNat_of_lt' h, UInt8.toNat_ofNat_of_lt' h'] at hnat

theorem isContinuation_ofNat (h : v < 64) : IsContinuation (.ofNat (v + 128)) := by
  have hnat : (UInt8.ofNat (v + 128)).toNat = v + 128 :=
    UInt8.toNat_ofNat_of_lt' (by simp only [UInt8.size]; omega)
  constructor
  · rw [UInt8.le_iff_toNat_le, hnat]
    exact Nat.le_add_left _ _
  · rw [UInt8.le_iff_toNat_le, hnat]
    show v + 128 ≤ 191
    omega

theorem length_continuation (count v : Nat) : (continuation count v).length = count := by
  induction count with
  | zero => rfl
  | succ count ih => rw [continuation, List.length_cons, ih]

theorem isContinuation_of_mem {b : UInt8} (h : b ∈ continuation count v) : IsContinuation b := by
  induction count with
  | zero => cases h
  | succ count ih =>
      rcases List.mem_cons.mp h with rfl | h
      · exact isContinuation_ofNat (Nat.mod_lt _ (by decide))
      · exact ih h

/-- Continuation bytes hold the low bits of a number. -/
theorem mod_eq_of_continuation (h : continuation count v = continuation count v') :
    v % 64 ^ count = v' % 64 ^ count := by
  induction count with
  | zero => rw [Nat.pow_zero, Nat.mod_one, Nat.mod_one]
  | succ count ih =>
      obtain ⟨hhigh, hlow⟩ := List.cons.inj h
      have hdigit : v / 64 ^ count % 64 = v' / 64 ^ count % 64 :=
        Nat.add_right_cancel (ofNat_injective (by omega) (by omega) hhigh)
      rw [Nat.pow_succ, Nat.mod_mul, Nat.mod_mul, ih hlow, hdigit]

/-- A first byte is marked with the number of bytes behind it. -/
theorem first_spec (hcount : count ≤ 3) (hv : v < room count) :
    v / 64 ^ count + mark count < 256 ∧
      followers? (.ofNat (v / 64 ^ count + mark count)) = some count := by
  obtain rfl | rfl | rfl | rfl : count = 0 ∨ count = 1 ∨ count = 2 ∨ count = 3 := by omega
  all_goals
    simp only [room] at hv
    simp only [mark, Nat.reducePow]
    rw [followers?_ofNat (by omega)]
    refine ⟨by omega, ?_⟩
  · rw [if_pos (by omega)]
  · rw [if_neg (by omega), if_pos (by omega)]
  · rw [if_neg (by omega), if_neg (by omega), if_pos (by omega)]
  · rw [if_neg (by omega), if_neg (by omega), if_neg (by omega), if_pos (by omega)]

theorem followers?_of_form {first : UInt8} (hcount : count ≤ 3) (hv : v < room count)
    (h : form count v ++ rest = first :: rest') : followers? first = some count := by
  obtain ⟨hfirst, -⟩ := List.cons.inj h
  rw [← hfirst]
  exact (first_spec hcount hv).2

/-- A form may have one continuation byte more. -/
theorem lt_room_succ (hcount : count < 3) (hv : v < room count) : v < room (count + 1) := by
  obtain rfl | rfl | rfl : count = 0 ∨ count = 1 ∨ count = 2 := by omega
  all_goals
    simp only [room] at hv ⊢
    omega

/-- Forms that stand at the front of the same bytes are the same. -/
theorem form_injective (hcount : count ≤ 3) (hcount' : count' ≤ 3) (hv : v < room count)
    (hv' : v' < room count') (h : form count v ++ rest = form count' v' ++ rest') :
    count = count' ∧ v = v' := by
  obtain ⟨hlt, hfollowers⟩ := first_spec hcount hv
  obtain ⟨hlt', hfollowers'⟩ := first_spec hcount' hv'
  obtain ⟨hfirst, hothers⟩ := List.cons.inj h
  have heq : count = count' := by
    rw [hfirst] at hfollowers
    exact Option.some.inj (hfollowers.symm.trans hfollowers')
  subst heq
  refine ⟨rfl, ?_⟩
  have hlength : (continuation count v).length = (continuation count v').length := by
    rw [length_continuation, length_continuation]
  have hhigh : v / 64 ^ count = v' / 64 ^ count :=
    Nat.add_right_cancel (ofNat_injective hlt hlt' hfirst)
  have hlow := mod_eq_of_continuation (List.append_inj hothers hlength).1
  rw [← Nat.div_add_mod v (64 ^ count), hhigh, hlow, Nat.div_add_mod]

/-! ## Encoded characters -/

theorem valid_toNat (c : Char) :
    c.val.toNat < 0xD800 ∨ 0xDFFF < c.val.toNat ∧ c.val.toNat < 0x110000 :=
  c.valid

/-- A character is encoded in the shortest form that its number has. -/
theorem exists_form_eq (c : Char) : ∃ count ≤ 3,
    String.utf8EncodeChar c = form count c.val.toNat ∧ c.val.toNat < room count ∧
      ∀ fewer < count, room fewer ≤ c.val.toNat := by
  have hbound : c.val.toNat < 0x110000 := by
    have hvalid := valid_toNat c
    omega
  unfold String.utf8EncodeChar
  generalize c.val.toNat = v at hbound ⊢
  simp only
  split
  · refine ⟨0, by decide, ?_, by simp only [room]; omega, by omega⟩
    simp [form, mark, continuation]
  · split
    · have hfirst : v / 64 % 32 = v / 64 := by omega
      refine ⟨1, by decide, ?_, by simp only [room]; omega, ?_⟩
      · simp [hfirst, form, mark, continuation]
      · intro fewer hfewer
        obtain rfl : fewer = 0 := by omega
        simp only [room]
        omega
    · split
      · have hfirst : v / 4096 % 16 = v / 4096 := by omega
        refine ⟨2, by decide, ?_, by simp only [room]; omega, ?_⟩
        · simp [hfirst, form, mark, continuation]
        · intro fewer hfewer
          obtain rfl | rfl : fewer = 0 ∨ fewer = 1 := by omega
          all_goals
            simp only [room]
            omega
      · have hfirst : v / 262144 % 8 = v / 262144 := by omega
        refine ⟨3, by decide, ?_, by simp only [room]; omega, ?_⟩
        · simp [hfirst, form, mark, continuation]
        · intro fewer hfewer
          obtain rfl | rfl | rfl : fewer = 0 ∨ fewer = 1 ∨ fewer = 2 := by omega
          all_goals
            simp only [room]
            omega

/-- The encoding of some character stands at the front of the bytes. -/
def BeginsCharacter (bytes : List UInt8) : Prop := ∃ c, String.utf8EncodeChar c <+: bytes

/-- The ways in which bytes fail to begin a character. -/
inductive Malformed : List UInt8 → Prop where
  /-- One continuation byte more than the number needs, or even two or three. -/
  | overlong {count v : Nat} {rest : List UInt8} (hcount : count < 3) (hv : v < room count) :
      Malformed (form (count + 1) v ++ rest)
  /-- A number that is no character because it is one half of a pair of another encoding. -/
  | surrogate {v : Nat} {rest : List UInt8} (hlow : 0xD800 ≤ v) (hhigh : v ≤ 0xDFFF) :
      Malformed (form 2 v ++ rest)
  /-- A number behind the last character. -/
  | beyond {v : Nat} {rest : List UInt8} (hlow : 0x10FFFF < v) (hhigh : v < room 3) :
      Malformed (form 3 v ++ rest)
  /-- A first byte that would mark a form with more than three continuation bytes. -/
  | unmarked {b : UInt8} {rest : List UInt8} (hb : 0xF8 ≤ b) : Malformed (b :: rest)
  /-- A continuation byte without a first byte. -/
  | stray {b : UInt8} {rest : List UInt8} (hb : IsContinuation b) : Malformed (b :: rest)
  /-- A form that breaks off, at the end of the bytes or at one that is no continuation byte. -/
  | truncated {count v : Nat} {front back rest : List UInt8} (hcount : count ≤ 3)
      (hv : v < room count) (hform : form count v = front ++ back) (hfront : front ≠ [])
      (hback : back ≠ []) (hrest : ∀ b later, rest = b :: later → ¬ IsContinuation b) :
      Malformed (front ++ rest)

theorem followers?_eq_none {b : UInt8} (hb : IsContinuation b ∨ 0xF8 ≤ b) :
    followers? b = none := by
  have hnat : (128 ≤ b.toNat ∧ b.toNat ≤ 191) ∨ 248 ≤ b.toNat := by
    simp only [IsContinuation, UInt8.le_iff_toNat_le] at hb
    exact hb
  rw [← UInt8.ofNat_toNat (x := b), followers?_ofNat (UInt8.toNat_lt b), if_neg (by omega),
    if_neg (by omega), if_neg (by omega), if_neg (by omega)]

theorem Malformed.not_begins (h : Malformed bytes) : ¬ BeginsCharacter bytes := by
  rintro ⟨c, later, hc⟩
  obtain ⟨count, hcount, hform, hv, hshort⟩ := exists_form_eq c
  rw [hform] at hc
  cases h with
  | @overlong count' v' rest hcount' hv' =>
      obtain ⟨rfl, hsame⟩ := form_injective hcount hcount' hv (lt_room_succ hcount' hv') hc
      have hle := hshort count' (Nat.lt_succ_self _)
      omega
  | surrogate hlow hhigh =>
      have hroom : room 2 = 0x10000 := rfl
      obtain ⟨-, hsame⟩ := form_injective hcount (by decide) hv (by omega) hc
      have hvalid := valid_toNat c
      omega
  | beyond hlow hhigh =>
      obtain ⟨-, hsame⟩ := form_injective hcount (by decide) hv hhigh hc
      have hvalid := valid_toNat c
      omega
  | unmarked hb =>
      have hfollowers := followers?_of_form hcount hv hc
      rw [followers?_eq_none (.inr hb)] at hfollowers
      cases hfollowers
  | stray hb =>
      have hfollowers := followers?_of_form hcount hv hc
      rw [followers?_eq_none (.inl hb)] at hfollowers
      cases hfollowers
  | @truncated count' v' front back rest hcount' hv' hform' hfront hback hrest =>
      obtain ⟨first, front, rfl⟩ := List.exists_cons_of_ne_nil hfront
      obtain ⟨-, hothers⟩ := List.cons.inj hc
      obtain ⟨-, hothers'⟩ := List.cons.inj hform'
      have hothers' : continuation count' v' = front ++ back := hothers'
      have hwhole : form count' v' ++ [] = first :: (front ++ back) := by
        rw [List.append_nil, hform', List.cons_append]
      have hfollowers := followers?_of_form hcount hv hc
      rw [followers?_of_form hcount' hv' hwhole] at hfollowers
      obtain rfl := Option.some.inj hfollowers
      have hlt : front.length < (continuation count' c.val.toNat).length := by
        rw [length_continuation, ← length_continuation count' v', hothers', List.length_append]
        exact Nat.lt_add_of_pos_right (List.length_pos_iff.mpr hback)
      -- the byte behind the break would have to be a continuation byte of the character
      rcases List.append_eq_append_iff.mp hothers with ⟨others, hlonger, -⟩ | ⟨others, hcut, hback'⟩
      · rw [hlonger, List.length_append] at hlt
        omega
      · cases others with
        | nil =>
            rw [hcut, List.append_nil] at hlt
            exact Nat.lt_irrefl _ hlt
        | cons b others =>
            exact hrest b _ hback' (isContinuation_of_mem (hcut ▸ List.mem_append_cons_self))

theorem Malformed.ne_nil (h : Malformed bytes) : bytes ≠ [] := by
  cases h with
  | truncated _ _ _ hfront => exact fun hnil => hfront (List.append_eq_nil_iff.mp hnil).1
  | _ => exact List.cons_ne_nil _ _

end Source

end MaximalMunch
