import MaximalMunch.Proofs.Definition.Compile
import MaximalMunch.Scan.Builder

/-!
# Builders that calls lead to

Whatever calls are made of a builder, and whether they fail or not, its definitions are numbered
in their order and every one of them has been compiled from its pattern.  A scanner relies on
both: it looks up the definition of a match by number, and it takes a run that is alive for a
match that is still possible.
-/

namespace MaximalMunch

/-- Definitions that are numbered in their order and have the automata of their patterns. -/
structure Compiled (definitions : List Definition) : Prop where
  id_eq : ∀ {i : Nat} {d}, definitions[i]? = some d → d.id = i
  dfa_eq : ∀ {d}, d ∈ definitions → ∃ c, Compilation.ofText d.pattern = .ok c ∧ d.dfa = c.dfa

namespace Compiled

variable {definitions : List Definition} {d : Definition}

theorem nil : Compiled [] where
  id_eq h := by cases h
  dfa_eq h := by cases h

theorem snoc (h : Compiled definitions) {type raw : String} {verbose : Bool}
    {records : List Record}
    (hd : Definition.compile definitions.length type raw verbose = .ok (d, records)) :
    Compiled (definitions ++ [d]) := by
  obtain ⟨c, hc, rfl, -⟩ := Definition.compile_eq_ok_iff.mp hd
  constructor
  · intro i d hi
    rw [List.getElem?_append] at hi
    split at hi
    · exact h.id_eq hi
    · rw [List.getElem?_singleton] at hi
      split at hi
      · obtain rfl := Option.some.inj hi
        show definitions.length = i
        omega
      · cases hi
  · intro d hmem
    rcases List.mem_append.mp hmem with hmem | hmem
    · exact h.dfa_eq hmem
    · obtain rfl := List.mem_singleton.mp hmem
      exact ⟨c, hc, rfl⟩

theorem trim (h : Compiled definitions) (hd : d ∈ definitions) : d.dfa.Trim := by
  obtain ⟨c, hc, hdfa⟩ := h.dfa_eq hd
  rw [hdfa]
  exact (Compilation.languages hc).2.2

end Compiled

namespace Builder

/-- The builders that calls lead to. -/
inductive Made : Builder → Prop where
  | empty : Made {}
  | add {b} (h : Made b) (type pattern : String) : Made (b.add type pattern).builder
  | addMany {b} (h : Made b) (pairs : List (String × String)) : Made (b.addMany pairs).builder
  | addText {b} (h : Made b) (text : String) : Made (b.addText text).builder
  | addFile {b} (h : Made b) (contents : Option ByteArray) : Made (b.addFile contents).builder
  | setLineEnding {b} (h : Made b) (ending : LineEnding) : Made (b.setLineEnding ending)
  | setLookahead {b} (h : Made b) (capacity : Nat) : Made (b.setLookahead capacity)
  | setVerbose {b} (h : Made b) (verbose : Bool) : Made (b.setVerbose verbose)

variable {b : Builder}

/-- A pattern that compiles is added. -/
theorem builder_add (b : Builder) (type : String) {raw : String} {c : Compilation}
    (hc : Compilation.ofText raw = .ok c) :
    (b.add type raw).builder =
      { b with definitions := b.definitions ++ [⟨b.definitions.length, type, raw, c.dfa⟩] } := by
  have hcompile : Definition.compile b.definitions.length type raw b.config.verbose =
      .ok (⟨b.definitions.length, type, raw, c.dfa⟩,
        if b.config.verbose then c.records type else []) :=
    Definition.compile_eq_ok_iff.mpr ⟨c, hc, rfl, rfl⟩
  simp only [add, hcompile]

theorem compiled_add (h : Compiled b.definitions) (type pattern : String) :
    Compiled (b.add type pattern).builder.definitions := by
  unfold add
  dsimp only
  split
  · exact h
  · next d records hd => exact h.snoc hd

theorem compiled_addMany (h : Compiled b.definitions) (pairs : List (String × String)) :
    Compiled (b.addMany pairs).builder.definitions := by
  induction pairs generalizing b with
  | nil => exact h
  | cons pair rest ih =>
      have hfirst := compiled_add h pair.1 pair.2
      unfold addMany
      dsimp only
      split
      · exact hfirst
      · exact ih hfirst

theorem compiled_addText (h : Compiled b.definitions) (text : String) :
    Compiled (b.addText text).builder.definitions := by
  unfold addText
  split
  · exact h
  · exact compiled_addMany h _

theorem compiled_addFile (h : Compiled b.definitions) (contents : Option ByteArray) :
    Compiled (b.addFile contents).builder.definitions := by
  unfold addFile
  split
  · exact h
  · exact compiled_addText h _

theorem config_add (b : Builder) (type pattern : String) :
    (b.add type pattern).builder.config = b.config := by
  unfold add
  dsimp only
  split <;> rfl

theorem config_addMany (b : Builder) (pairs : List (String × String)) :
    (b.addMany pairs).builder.config = b.config := by
  induction pairs generalizing b with
  | nil => rfl
  | cons pair rest ih =>
      have hfirst := b.config_add pair.1 pair.2
      unfold addMany
      dsimp only
      split
      · exact hfirst
      · exact (ih _).trans hfirst

theorem config_addText (b : Builder) (text : String) :
    (b.addText text).builder.config = b.config := by
  unfold addText
  split
  · rfl
  · exact b.config_addMany _

theorem config_addFile (b : Builder) (contents : Option ByteArray) :
    (b.addFile contents).builder.config = b.config := by
  unfold addFile
  split
  · rfl
  · exact b.config_addText _

/-- At least one character may be held. -/
theorem Made.lookahead_pos (h : b.Made) : 0 < b.config.lookahead := by
  induction h with
  | empty => decide
  | add _ type pattern ih => rwa [config_add]
  | addMany _ pairs ih => rwa [config_addMany]
  | addText _ text ih => rwa [config_addText]
  | addFile _ contents ih => rwa [config_addFile]
  | setLookahead _ capacity _ => exact Nat.le_max_right capacity 1
  | setLineEnding _ _ ih | setVerbose _ _ ih => exact ih

/-- The definitions of every builder are compiled. -/
theorem Made.compiled (h : b.Made) : Compiled b.definitions := by
  induction h with
  | empty => exact .nil
  | add _ type pattern ih => exact compiled_add ih type pattern
  | addMany _ pairs ih => exact compiled_addMany ih pairs
  | addText _ text ih => exact compiled_addText ih text
  | addFile _ contents ih => exact compiled_addFile ih contents
  | setLineEnding _ _ ih | setLookahead _ _ ih | setVerbose _ _ ih => exact ih

end Builder

end MaximalMunch
