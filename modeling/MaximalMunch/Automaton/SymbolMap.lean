/-!
# Maps from symbols

The transitions of one state are a map from characters.  Its entries are kept in the order of the
characters, so that equal maps have equal entries; `SymbolMap.ext_get?` says that a map is
determined by its look-ups.
-/

namespace MaximalMunch

/-- A finite map from characters, with its entries in ascending order. -/
structure SymbolMap (α : Type) where
  entries : List (Char × α)
  sorted : entries.Pairwise fun a b => a.1 < b.1

namespace SymbolMap

variable {α β : Type}

instance [DecidableEq α] : DecidableEq (SymbolMap α) := fun m n =>
  decidable_of_iff (m.entries = n.entries) <| by
    cases m
    cases n
    simp

instance [Repr α] : Repr (SymbolMap α) where
  reprPrec m := reprPrec m.entries

/-- The map without entries. -/
def empty : SymbolMap α := ⟨[], List.Pairwise.nil⟩

instance : EmptyCollection (SymbolMap α) := ⟨empty⟩

instance : Inhabited (SymbolMap α) := ⟨empty⟩

/-- The characters with an entry, in ascending order. -/
def symbols (m : SymbolMap α) : List Char :=
  m.entries.map Prod.fst

/-- The value of a character in a list of entries. -/
def lookup (c : Char) : List (Char × α) → Option α
  | [] => none
  | (d, a) :: rest => if c = d then some a else lookup c rest

/-- The value of a character. -/
def get? (m : SymbolMap α) (c : Char) : Option α :=
  lookup c m.entries

/-- Adds an entry at its place; `combine` joins the new value with the one that is there. -/
def place (combine : α → α → α) (c : Char) (a : α) : List (Char × α) → List (Char × α)
  | [] => [(c, a)]
  | (d, b) :: rest =>
    if c < d then (c, a) :: (d, b) :: rest
    else if c = d then (c, combine a b) :: rest
    else (d, b) :: place combine c a rest

theorem mem_place_fst {combine : α → α → α} {c : Char} {a : α} {entries : List (Char × α)}
    {e : Char × α} (h : e ∈ place combine c a entries) : e.1 = c ∨ ∃ e' ∈ entries, e.1 = e'.1 := by
  induction entries with
  | nil => simp [place] at h; simp [h]
  | cons head rest ih =>
    obtain ⟨d, b⟩ := head
    unfold place at h
    split at h
    · rcases List.mem_cons.1 h with rfl | h
      · exact Or.inl rfl
      · exact Or.inr ⟨e, h, rfl⟩
    · split at h
      · rcases List.mem_cons.1 h with rfl | h
        · exact Or.inl rfl
        · exact Or.inr ⟨e, List.mem_cons_of_mem _ h, rfl⟩
      · rcases List.mem_cons.1 h with rfl | h
        · exact Or.inr ⟨(d, b), List.mem_cons_self, rfl⟩
        · rcases ih h with h | ⟨e', he', h⟩
          · exact Or.inl h
          · exact Or.inr ⟨e', List.mem_cons_of_mem _ he', h⟩

theorem pairwise_place {combine : α → α → α} {c : Char} {a : α} {entries : List (Char × α)}
    (sorted : entries.Pairwise fun a b => a.1 < b.1) :
    (place combine c a entries).Pairwise fun a b => a.1 < b.1 := by
  induction entries with
  | nil => simp [place]
  | cons head rest ih =>
    obtain ⟨d, b⟩ := head
    obtain ⟨above, sortedRest⟩ := List.pairwise_cons.1 sorted
    unfold place
    split
    · next hlt =>
      refine List.pairwise_cons.2 ⟨fun e he => ?_, sorted⟩
      rcases List.mem_cons.1 he with rfl | he
      · exact hlt
      · exact Char.lt_trans hlt (above e he)
    · next hnlt =>
      split
      · next heq =>
        subst heq
        exact List.pairwise_cons.2 ⟨above, sortedRest⟩
      · next hne =>
        refine List.pairwise_cons.2 ⟨fun e he => ?_, ih sortedRest⟩
        rcases mem_place_fst he with h | ⟨e', he', h⟩
        · rw [h]
          rcases Char.le_total d c with hle | hle
          · exact Char.not_le.1 fun hcd => hne (Char.le_antisymm hcd hle)
          · exact absurd (Char.not_le.1 fun hdc => hne (Char.le_antisymm hle hdc)) hnlt
        · rw [h]
          exact above e' he'

/-- A map with one more entry; `combine` joins the new value with the one that is there. -/
def insertWith (combine : α → α → α) (m : SymbolMap α) (c : Char) (a : α) : SymbolMap α :=
  ⟨place combine c a m.entries, pairwise_place m.sorted⟩

/-- A map in which a character has the given value. -/
def insert (m : SymbolMap α) (c : Char) (a : α) : SymbolMap α :=
  m.insertWith (fun new _ => new) c a

/-- The entries of both maps; `combine` joins the values of a character that has two. -/
def mergeWith (combine : α → α → α) (m n : SymbolMap α) : SymbolMap α :=
  m.entries.foldr (fun e acc => acc.insertWith combine e.1 e.2) n

/-- Every value replaced. -/
def map (f : α → β) (m : SymbolMap α) : SymbolMap β :=
  ⟨m.entries.map fun e => (e.1, f e.2), List.pairwise_map.2 m.sorted⟩

@[simp] theorem get?_empty (c : Char) : (∅ : SymbolMap α).get? c = none :=
  rfl

theorem lookup_eq_none_iff {c : Char} {entries : List (Char × α)} :
    lookup c entries = none ↔ ∀ e ∈ entries, e.1 ≠ c := by
  induction entries with
  | nil => simp [lookup]
  | cons head rest ih =>
    obtain ⟨d, b⟩ := head
    by_cases h : c = d
    · simp [lookup, h]
    · simp [lookup, h, ih, Ne.symm h]

/-- A character in front of all others has no entry. -/
theorem lookup_eq_none_of_lt {c : Char} {entries : List (Char × α)}
    (h : ∀ e ∈ entries, c < e.1) : lookup c entries = none :=
  lookup_eq_none_iff.2 fun e he => (Char.ne_of_lt (h e he)).symm

theorem lookup_place (combine : α → α → α) (c x : Char) (a : α) (entries : List (Char × α))
    (sorted : entries.Pairwise fun a b => a.1 < b.1) :
    lookup x (place combine c a entries) =
      if x = c then some ((lookup c entries).elim a (combine a)) else lookup x entries := by
  induction entries with
  | nil => simp [place, lookup]
  | cons head rest ih =>
    obtain ⟨d, b⟩ := head
    obtain ⟨above, sortedRest⟩ := List.pairwise_cons.1 sorted
    unfold place
    split
    · next hlt =>
      have hnone : lookup c ((d, b) :: rest) = none := by
        refine lookup_eq_none_of_lt fun e he => ?_
        rcases List.mem_cons.1 he with rfl | he
        · exact hlt
        · exact Char.lt_trans hlt (above e he)
      rw [hnone]
      by_cases hx : x = c
      · simp [lookup, hx]
      · simp [lookup, hx]
    · next hnlt =>
      split
      · next heq =>
        subst heq
        by_cases hx : x = c
        · simp [lookup, hx]
        · simp [lookup, hx]
      · next hne =>
        simp only [lookup, ih sortedRest, hne, if_false]
        by_cases hx : x = c
        · subst hx
          simp [hne]
        · simp [hx]

theorem get?_insertWith (combine : α → α → α) (m : SymbolMap α) (c x : Char) (a : α) :
    (m.insertWith combine c a).get? x =
      if x = c then some ((m.get? c).elim a (combine a)) else m.get? x :=
  lookup_place combine c x a m.entries m.sorted

theorem get?_insert (m : SymbolMap α) (c x : Char) (a : α) :
    (m.insert c a).get? x = if x = c then some a else m.get? x := by
  rw [insert, get?_insertWith]
  cases m.get? c <;> rfl

theorem place_of_lt {combine : α → α → α} {c : Char} {a : α} {entries : List (Char × α)}
    (hlt : ∀ e ∈ entries, e.1 < c) : place combine c a entries = entries ++ [(c, a)] := by
  induction entries with
  | nil => rfl
  | cons head rest ih =>
    obtain ⟨d, b⟩ := head
    have hd : d < c := hlt (d, b) List.mem_cons_self
    rw [place, if_neg (Char.lt_asymm hd), if_neg (Char.ne_of_lt hd).symm,
      ih fun e he => hlt e (List.mem_cons_of_mem _ he)]
    rfl

/-- An entry behind all others is listed last. -/
theorem entries_insert_of_lt {m : SymbolMap α} {c : Char} (a : α)
    (hlt : ∀ e ∈ m.entries, e.1 < c) : (m.insert c a).entries = m.entries ++ [(c, a)] :=
  place_of_lt hlt

theorem get?_mergeWith (combine : α → α → α) (m n : SymbolMap α) (x : Char) :
    (mergeWith combine m n).get? x =
      match m.get? x with
      | none => n.get? x
      | some a => some ((n.get? x).elim a (combine a)) := by
  obtain ⟨entries, sorted⟩ := m
  induction entries with
  | nil => rfl
  | cons head rest ih =>
    obtain ⟨d, b⟩ := head
    obtain ⟨above, sortedRest⟩ := List.pairwise_cons.1 sorted
    have ih := ih sortedRest
    show get? ((mergeWith combine ⟨rest, sortedRest⟩ n).insertWith combine d b) x = _
    rw [get?_insertWith]
    by_cases hx : x = d
    · subst hx
      have hnone : get? ⟨rest, sortedRest⟩ x = none := lookup_eq_none_of_lt above
      rw [hnone] at ih
      simp [get?, lookup] at ih ⊢
      rw [ih]
    · simp only [hx, if_false, ih]
      simp [get?, lookup, hx]

theorem get?_map (f : α → β) (m : SymbolMap α) (x : Char) :
    (m.map f).get? x = (m.get? x).map f := by
  obtain ⟨entries, sorted⟩ := m
  induction entries with
  | nil => rfl
  | cons head rest ih =>
    have ih := ih (List.pairwise_cons.1 sorted).2
    simp only [get?, map, List.map_cons, lookup] at ih ⊢
    split
    · rfl
    · exact ih

theorem mem_entries_iff {m : SymbolMap α} {c : Char} {a : α} :
    (c, a) ∈ m.entries ↔ m.get? c = some a := by
  obtain ⟨entries, sorted⟩ := m
  show (c, a) ∈ entries ↔ lookup c entries = some a
  induction entries with
  | nil => simp [lookup]
  | cons head rest ih =>
    obtain ⟨d, b⟩ := head
    obtain ⟨above, sortedRest⟩ := List.pairwise_cons.1 sorted
    by_cases h : c = d
    · subst h
      have hnot : (c, a) ∉ rest := fun hmem => Char.lt_irrefl c (above _ hmem)
      simp [lookup, hnot, eq_comm]
    · simp [lookup, h, ih sortedRest]

theorem pairwise_symbols (m : SymbolMap α) : m.symbols.Pairwise (· < ·) :=
  List.pairwise_map.mpr m.sorted

theorem mem_symbols_iff {m : SymbolMap α} {c : Char} : c ∈ m.symbols ↔ ∃ a, m.get? c = some a := by
  simp only [symbols, List.mem_map, Prod.exists, exists_and_right, exists_eq_right,
    mem_entries_iff]

theorem mem_symbols_foldl_insert {c : Char} (symbols : List Char) (seen : SymbolMap Unit) :
    c ∈ (symbols.foldl (·.insert · ()) seen).symbols ↔ c ∈ seen.symbols ∨ c ∈ symbols := by
  induction symbols generalizing seen with
  | nil => simp
  | cons d symbols ih =>
      have hinsert : c ∈ (seen.insert d ()).symbols ↔ c ∈ seen.symbols ∨ c = d := by
        rw [mem_symbols_iff, mem_symbols_iff, get?_insert]
        by_cases hc : c = d <;> simp [hc]
      rw [List.foldl_cons, ih, hinsert, List.mem_cons, or_assoc]

/-- The symbols of many lists, collected one list after the other. -/
theorem mem_symbols_foldl_foldl {c : Char} (symbols : β → List Char) (rows : List β)
    (seen : SymbolMap Unit) :
    c ∈ (rows.foldl (fun seen row => (symbols row).foldl (·.insert · ()) seen) seen).symbols ↔
      c ∈ seen.symbols ∨ ∃ row ∈ rows, c ∈ symbols row := by
  induction rows generalizing seen with
  | nil => simp
  | cons row rows ih =>
      rw [List.foldl_cons, ih, mem_symbols_foldl_insert]
      simp [or_assoc]

/-- A map is determined by its look-ups. -/
theorem ext_get? {m n : SymbolMap α} (h : ∀ c, m.get? c = n.get? c) : m = n := by
  have same : ∀ {es fs : List (Char × α)}, (es.Pairwise fun a b => a.1 < b.1) →
      (fs.Pairwise fun a b => a.1 < b.1) → (∀ e, e ∈ es ↔ e ∈ fs) → es = fs := by
    intro es
    induction es with
    | nil =>
      intro fs _ _ h
      cases fs with
      | nil => rfl
      | cons f fs => exact absurd ((h f).2 List.mem_cons_self) List.not_mem_nil
    | cons e es ih =>
      intro fs hes hfs h
      cases fs with
      | nil => exact absurd ((h e).1 List.mem_cons_self) List.not_mem_nil
      | cons f fs =>
        obtain ⟨hes, sortedEs⟩ := List.pairwise_cons.1 hes
        obtain ⟨hfs, sortedFs⟩ := List.pairwise_cons.1 hfs
        have heq : e = f := by
          rcases List.mem_cons.1 ((h e).1 List.mem_cons_self) with he | he
          · exact he
          · rcases List.mem_cons.1 ((h f).2 List.mem_cons_self) with hf | hf
            · exact hf.symm
            · exact absurd (hfs e he) (Char.lt_asymm (hes f hf))
        subst heq
        congr 1
        refine ih sortedEs sortedFs fun x => ⟨fun hx => ?_, fun hx => ?_⟩
        · rcases List.mem_cons.1 ((h x).1 (List.mem_cons_of_mem _ hx)) with rfl | hx'
          · exact absurd (hes x hx) (Char.lt_irrefl _)
          · exact hx'
        · rcases List.mem_cons.1 ((h x).2 (List.mem_cons_of_mem _ hx)) with rfl | hx'
          · exact absurd (hfs x hx) (Char.lt_irrefl _)
          · exact hx'
  obtain ⟨es, hes⟩ := m
  obtain ⟨fs, hfs⟩ := n
  have : es = fs := same hes hfs fun e => by
    obtain ⟨c, a⟩ := e
    rw [mem_entries_iff (m := ⟨es, hes⟩), mem_entries_iff (m := ⟨fs, hfs⟩), h c]
  subst this
  rfl

end SymbolMap

end MaximalMunch
