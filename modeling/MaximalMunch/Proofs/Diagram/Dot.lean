import Mathlib.Data.List.Basic
import MaximalMunch.Diagram.Dot
import MaximalMunch.Proofs.Text.Label

/-!
# A graph in its text

Every line of a graph begins with the name of the vertex that it is about, and the character behind
the name tells whether it is the line of the vertex or of an edge.  So the lines can be dealt out to
the vertices again, and no two rows of vertices have the same text (`dot_eq_iff`).  All that this
takes is that attributes and labels are visible, and that no attribute has a comma in it.
-/

namespace MaximalMunch.Diagram

/-! ## Where a part ends -/

section Splitting

variable {α : Type} {x : α} {parts parts' : List (List α)}

/-- Two rows begin with the same part if what follows the part begins with what is not in it. -/
theorem append_inj_of_head {p : α → Prop} {part part' rest rest' : List α}
    (hpart : ∀ a ∈ part, p a) (hpart' : ∀ a ∈ part', p a) (hrest : ∀ a ∈ rest.head?, ¬ p a)
    (hrest' : ∀ a ∈ rest'.head?, ¬ p a) (h : part ++ rest = part' ++ rest') :
    part = part' ∧ rest = rest' := by
  induction part generalizing part' with
  | nil =>
      cases part' with
      | nil => exact ⟨rfl, h⟩
      | cons a part' =>
          rw [List.nil_append] at h
          rw [h] at hrest
          exact absurd (hpart' a List.mem_cons_self) (hrest a rfl)
  | cons a part ih =>
      cases part' with
      | nil =>
          rw [List.nil_append] at h
          rw [← h] at hrest'
          exact absurd (hpart a List.mem_cons_self) (hrest' a rfl)
      | cons b part' =>
          rw [List.forall_mem_cons] at hpart hpart'
          obtain ⟨rfl, htail⟩ := List.cons.inj h
          obtain ⟨rfl, hrest⟩ := ih hpart.2 hpart'.2 htail
          exact ⟨rfl, hrest⟩

/-- Two rows end with the same part if what is in front of the part ends with what is not in it. -/
theorem append_inj_of_last {p : α → Prop} {part part' front front' : List α}
    (hpart : ∀ a ∈ part, p a) (hpart' : ∀ a ∈ part', p a) (hfront : ∀ a ∈ front.getLast?, ¬ p a)
    (hfront' : ∀ a ∈ front'.getLast?, ¬ p a) (h : front ++ part = front' ++ part') :
    front = front' ∧ part = part' := by
  have hreversed := congrArg List.reverse h
  rw [List.reverse_append, List.reverse_append] at hreversed
  have hall {part : List α} (hpart : ∀ a ∈ part, p a) : ∀ a ∈ part.reverse, p a := by
    intro a ha
    exact hpart a (List.mem_reverse.mp ha)
  rw [← List.head?_reverse] at hfront hfront'
  obtain ⟨hpart, hfront⟩ :=
    append_inj_of_head (hall hpart) (hall hpart') hfront hfront' hreversed
  exact ⟨List.reverse_injective hfront, List.reverse_injective hpart⟩

/-- Parts are found again if each is written behind a mark that is in none of them. -/
theorem flatMap_cons_inj (hparts : ∀ part ∈ parts, x ∉ part)
    (hparts' : ∀ part ∈ parts', x ∉ part)
    (h : parts.flatMap (x :: ·) = parts'.flatMap (x :: ·)) : parts = parts' := by
  have hhead (parts : List (List α)) : ∀ a ∈ (parts.flatMap (x :: ·)).head?, ¬ a ≠ x := by
    intro a ha hne
    cases parts with
    | nil => cases ha
    | cons part parts => exact hne (Option.some.inj ha).symm
  induction parts generalizing parts' with
  | nil =>
      cases parts' with
      | nil => rfl
      | cons part' parts' => cases h
  | cons part parts ih =>
      cases parts' with
      | nil => cases h
      | cons part' parts' =>
          rw [List.forall_mem_cons] at hparts hparts'
          have hne {part : List α} (hx : x ∉ part) : ∀ a ∈ part, a ≠ x := by
            intro a ha heq
            exact hx (heq ▸ ha)
          obtain ⟨rfl, hrest⟩ := append_inj_of_head (hne hparts.1) (hne hparts'.1) (hhead parts)
            (hhead parts') (List.cons.inj h).2
          rw [ih hparts.2 hparts'.2 hrest]

theorem intercalate_cons_eq_flatMap (between part : List α) (parts : List (List α)) :
    between.intercalate (part :: parts) = part ++ parts.flatMap (between ++ ·) := by
  induction parts generalizing part with
  | nil => simp
  | cons next parts ih =>
      rw [List.intercalate_cons_cons, ih, List.flatMap_cons, List.append_assoc, List.append_assoc]

/-! ## Parts under conditions -/

variable {first second : List α} {p q p' q' : Prop} [Decidable p] [Decidable q] [Decidable p']
  [Decidable q']

theorem mem_ite_append_ite : x ∈ (if p then first else []) ++ (if q then second else []) ↔
    p ∧ x ∈ first ∨ q ∧ x ∈ second := by
  rw [List.mem_append, List.mem_ite_nil_right, List.mem_ite_nil_right]

/-- Two parts that are there under conditions tell which of the conditions hold, if each part has
something that the other one has not. -/
theorem ite_append_ite_inj (hfirst : ∃ a ∈ first, a ∉ second) (hsecond : ∃ a ∈ second, a ∉ first)
    (h : (if p then first else []) ++ (if q then second else []) =
      (if p' then first else []) ++ (if q' then second else [])) : (p ↔ p') ∧ (q ↔ q') := by
  obtain ⟨a, ha, ha'⟩ := hfirst
  obtain ⟨b, hb, hb'⟩ := hsecond
  have hmem (x : α) : p ∧ x ∈ first ∨ q ∧ x ∈ second ↔ p' ∧ x ∈ first ∨ q' ∧ x ∈ second := by
    rw [← mem_ite_append_ite, h, mem_ite_append_ite]
  have hleft := hmem a
  have hright := hmem b
  simp only [ha, ha', and_true, and_false, or_false] at hleft
  simp only [hb, hb', and_true, and_false, false_or] at hright
  exact ⟨hleft, hright⟩

end Splitting

variable {id id' n n' : Nat} {title : String} {attributes attributes' : List String} {e e' : Edge}
  {line said said' rest rest' : List Char} {v : Vertex} {vs vs' : List Vertex}

/-! ## Numbers -/

/-- The characters of a number. -/
def digits (n : Nat) : List Char := (toString n).toList

theorem isDigit_of_mem_digits {c : Char} (hc : c ∈ digits n) : c.isDigit = true := by
  rw [digits, Nat.toString_eq_repr, Nat.toList_repr] at hc
  exact Nat.isDigit_of_mem_toDigits (by decide) (by decide) hc

theorem visible_digits (n : Nat) : Text.Visible (digits n) := by
  intro c hc
  have hdigit := Char.isDigit_iff_toNat.mp (isDigit_of_mem_digits hc)
  have hlow : '0'.toNat = 48 := rfl
  have hhigh : '9'.toNat = 57 := rfl
  have hcode : ¬ (c.toNat < 0x20 ∨ (0x7F ≤ c.toNat ∧ c.toNat ≤ 0x9F)) := by omega
  simpa [Text.isControl] using hcode

/-- A number in front of a blank is found again. -/
theorem digits_blank_inj (h : digits n ++ ' ' :: rest = digits n' ++ ' ' :: rest') :
    n = n' ∧ rest = rest' := by
  have hblank {rest : List Char} : ∀ c ∈ (' ' :: rest).head?, ¬ c.isDigit = true := by
    intro c hc
    rw [← Option.some.inj hc]
    decide
  obtain ⟨hdigits, hrest⟩ := append_inj_of_head (fun _ => isDigit_of_mem_digits)
    (fun _ => isDigit_of_mem_digits) hblank hblank h
  exact ⟨Nat.repr_injective (String.toList_inj.mp hdigits), (List.cons.inj hrest).2⟩

/-! ## Lines -/

/-- A line that says something of a vertex, without its line feed. -/
def lineOf (id : Nat) (said : List Char) : List Char :=
  "  node_".toList ++ (digits id ++ ' ' :: said)

/-- What the line of a vertex says. -/
def saidOfVertex (id : Nat) (attributes : List String) : List Char :=
  "[label=\"".toList ++ (digits id ++ '"' :: (attributes.flatMap (", ".toList ++ ·.toList) ++
    "];".toList))

/-- What the line of an edge says. -/
def saidOfEdge (e : Edge) : List Char :=
  "-> node_".toList ++ (digits e.target ++ ' ' :: ("[label=\"".toList ++ (e.label.toList ++
    "\"];".toList)))

theorem toList_vertexLine (id : Nat) (attributes : List String) :
    (vertexLine id attributes).toList = lineOf id (saidOfVertex id attributes) ++ ['\n'] := by
  unfold vertexLine lineOf saidOfVertex vertexName quoted digits
  simp only [String.toList_append, String.toList_intercalate, List.map_cons]
  simp only [intercalate_cons_eq_flatMap, List.flatMap_map, String.reduceToList,
    List.append_assoc, List.cons_append, List.nil_append]

theorem toList_edgeLine (id : Nat) (e : Edge) :
    (edgeLine id e).toList = lineOf id (saidOfEdge e) ++ ['\n'] := by
  unfold edgeLine lineOf saidOfEdge vertexName quoted digits
  simp only [String.toList_append]
  simp only [String.reduceToList, List.append_assoc, List.cons_append, List.nil_append]

theorem lineOf_inj (h : lineOf id said = lineOf id' said') : id = id' ∧ said = said' :=
  digits_blank_inj (List.append_cancel_left h)

theorem saidOfVertex_inj (hattributes : ∀ a ∈ attributes, ',' ∉ a.toList)
    (hattributes' : ∀ a ∈ attributes', ',' ∉ a.toList)
    (h : saidOfVertex id attributes = saidOfVertex id attributes') : attributes = attributes' := by
  have hjoined := List.append_cancel_right
    (List.cons.inj (List.append_cancel_left (List.append_cancel_left h))).2
  have hparts : (attributes.map (' ' :: ·.toList)).flatMap (',' :: ·) =
      (attributes'.map (' ' :: ·.toList)).flatMap (',' :: ·) := by
    rw [List.flatMap_map, List.flatMap_map]
    exact hjoined
  have hcomma {attributes : List String} (hattributes : ∀ a ∈ attributes, ',' ∉ a.toList) :
      ∀ part ∈ attributes.map (' ' :: ·.toList), ',' ∉ part := by
    rw [List.forall_mem_map]
    intro a ha
    rw [List.mem_cons, not_or]
    exact ⟨by decide, hattributes a ha⟩
  have hrows := flatMap_cons_inj (hcomma hattributes) (hcomma hattributes') hparts
  apply (List.map_inj_right _).mp hrows
  intro a b hab
  exact String.toList_inj.mp (List.cons.inj hab).2

theorem saidOfEdge_injective (h : saidOfEdge e = saidOfEdge e') : e = e' := by
  obtain ⟨htarget, htail⟩ := digits_blank_inj (List.append_cancel_left h)
  have hlabel : e.label = e'.label :=
    String.toList_inj.mp (List.append_cancel_right (List.append_cancel_left htail))
  cases e
  cases e'
  rw [Edge.mk.injEq]
  exact ⟨htarget, hlabel⟩

theorem saidOfVertex_ne_saidOfEdge : saidOfVertex id attributes ≠ saidOfEdge e := by
  intro h
  have hfirst : '[' = '-' := (List.cons.inj h).1
  exact absurd hfirst (by decide)

/-! ## Labels of characters -/

/-- The characters that have a backslash in front of them in a label. -/
def marked : List Char := ['"', '\\']

theorem toList_symbolLabel (c : Char) :
    (symbolLabel c).toList = Text.escapeMarked marked c := by
  unfold symbolLabel Text.escapeMarked
  by_cases hquote : c = '"'
  · rw [if_pos hquote, if_pos (by simp [marked, hquote]), hquote]
    decide
  · by_cases hbackslash : c = '\\'
    · rw [if_neg hquote, if_pos hbackslash, if_pos (by simp [marked, hbackslash]), hbackslash]
      decide
    · rw [if_neg hquote, if_neg hbackslash, if_neg (by simp [marked, hquote, hbackslash]),
        String.toList_ofList]

theorem symbolLabel_injective {c d : Char} (h : symbolLabel c = symbolLabel d) : c = d := by
  have hletters : ∀ e ∈ Text.letters, e.1 ∉ marked := by decide
  apply Text.escapeMarked_injective hletters
  rw [← toList_symbolLabel, h, toList_symbolLabel]

theorem visible_symbolLabel (c : Char) : Text.Visible (symbolLabel c).toList := by
  rw [toList_symbolLabel]
  exact Text.visible_escapeMarked (by simp [marked, Text.Visible, Text.isControl]) c

/-! ## Vertices -/

/-- A vertex with nothing in its attributes and labels that looks like the end of one of them. -/
structure Vertex.Plain (v : Vertex) : Prop where
  no_comma : ∀ a ∈ v.attributes, ',' ∉ a.toList
  attributes_visible : ∀ a ∈ v.attributes, Text.Visible a.toList
  labels_visible : ∀ e ∈ v.edges, Text.Visible e.label.toList

/-- The lines of the vertices from a number on. -/
def graphLines : Nat → List Vertex → List (List Char)
  | _, [] => []
  | id, v :: vs =>
    lineOf id (saidOfVertex id v.attributes) ::
      (v.edges.map (fun e => lineOf id (saidOfEdge e)) ++ graphLines (id + 1) vs)

theorem flatMap_graphLines (id : Nat) (vs : List Vertex) :
    (graphLines id vs).flatMap (· ++ ['\n']) = (vs.zipIdx id).flatMap fun (v, id) =>
      (vertexLine id v.attributes ++ String.join (v.edges.map (edgeLine id))).toList := by
  induction vs generalizing id with
  | nil => rfl
  | cons v vs ih =>
      rw [graphLines, List.flatMap_cons, List.flatMap_append, ih, List.zipIdx_cons,
        List.flatMap_cons, List.flatMap_map, ← toList_vertexLine]
      simp only [String.toList_append, String.toList_join, List.flatMap_map, toList_edgeLine,
        List.append_assoc]

theorem toList_dot (title : String) (vs : List Vertex) :
    (dot title vs).toList =
      ("digraph \x7b\n  label=" ++ quoted title ++ ";\n  rankdir=LR;\n").toList ++
        ((graphLines 0 vs).flatMap (· ++ ['\n']) ++ "\x7d\n".toList) := by
  unfold dot
  rw [flatMap_graphLines, ← List.append_assoc, String.toList_append, String.toList_append,
    String.toList_join, List.flatMap_map]

/-- A line of an edge never stands where the next vertex begins, so the edges of a vertex end
there. -/
theorem edgeLines_append_inj {edges edges' : List Edge}
    (h : edges.map (fun e => lineOf id (saidOfEdge e)) ++ graphLines (id + 1) vs =
      edges'.map (fun e => lineOf id (saidOfEdge e)) ++ graphLines (id + 1) vs') :
    edges = edges' ∧ graphLines (id + 1) vs = graphLines (id + 1) vs' := by
  have hedges (edges : List Edge) :
      ∀ line ∈ edges.map (fun e => lineOf id (saidOfEdge e)),
        ∃ e, line = lineOf id (saidOfEdge e) := by
    rw [List.forall_mem_map]
    intro e _
    exact ⟨e, rfl⟩
  have hnext (vs : List Vertex) :
      ∀ line ∈ (graphLines (id + 1) vs).head?, ¬ ∃ e, line = lineOf id (saidOfEdge e) := by
    intro line hline hedge
    obtain ⟨e, rfl⟩ := hedge
    cases vs with
    | nil => cases hline
    | cons v vs => exact saidOfVertex_ne_saidOfEdge (lineOf_inj (Option.some.inj hline)).2
  obtain ⟨hlines, hrest⟩ :=
    append_inj_of_head (hedges edges) (hedges edges') (hnext vs) (hnext vs') h
  refine ⟨(List.map_inj_right ?_).mp hlines, hrest⟩
  intro e e' he
  exact saidOfEdge_injective (lineOf_inj he).2

theorem graphLines_inj (hvs : ∀ v ∈ vs, v.Plain) (hvs' : ∀ v ∈ vs', v.Plain)
    (h : graphLines id vs = graphLines id vs') : vs = vs' := by
  induction vs generalizing id vs' with
  | nil =>
      cases vs' with
      | nil => rfl
      | cons v' vs' => cases h
  | cons v vs ih =>
      cases vs' with
      | nil => cases h
      | cons v' vs' =>
          rw [List.forall_mem_cons] at hvs hvs'
          obtain ⟨hfirst, hbelow⟩ := List.cons.inj h
          have hattributes := saidOfVertex_inj hvs.1.no_comma hvs'.1.no_comma (lineOf_inj hfirst).2
          obtain ⟨hedges, hrest⟩ := edgeLines_append_inj hbelow
          have hv : v = v' := by
            cases v
            cases v'
            rw [Vertex.mk.injEq]
            exact ⟨hattributes, hedges⟩
          rw [hv, ih hvs.2 hvs'.2 hrest]

theorem visible_lineOf (hsaid : Text.Visible said) : Text.Visible (lineOf id said) := by
  have hname : Text.Visible "  node_".toList := by simp [Text.Visible, Text.isControl]
  unfold lineOf
  rw [Text.visible_append, Text.visible_append, Text.visible_cons]
  exact ⟨hname, visible_digits id, by decide, hsaid⟩

theorem visible_saidOfVertex (hattributes : ∀ a ∈ attributes, Text.Visible a.toList) :
    Text.Visible (saidOfVertex id attributes) := by
  have hbefore : Text.Visible "[label=\"".toList := by simp [Text.Visible, Text.isControl]
  have hbetween : Text.Visible ", ".toList := by simp [Text.Visible, Text.isControl]
  have hbehind : Text.Visible "];".toList := by simp [Text.Visible, Text.isControl]
  have hjoined : Text.Visible (attributes.flatMap (", ".toList ++ ·.toList)) := by
    intro c hc
    obtain ⟨a, ha, hc⟩ := List.mem_flatMap.mp hc
    exact Text.visible_append.mpr ⟨hbetween, hattributes a ha⟩ c hc
  unfold saidOfVertex
  rw [Text.visible_append, Text.visible_append, Text.visible_cons, Text.visible_append]
  exact ⟨hbefore, visible_digits id, by decide, hjoined, hbehind⟩

theorem visible_saidOfEdge (hlabel : Text.Visible e.label.toList) :
    Text.Visible (saidOfEdge e) := by
  have hname : Text.Visible "-> node_".toList := by simp [Text.Visible, Text.isControl]
  have hbefore : Text.Visible "[label=\"".toList := by simp [Text.Visible, Text.isControl]
  have hbehind : Text.Visible "\"];".toList := by simp [Text.Visible, Text.isControl]
  unfold saidOfEdge
  rw [Text.visible_append, Text.visible_append, Text.visible_cons, Text.visible_append,
    Text.visible_append]
  exact ⟨hname, visible_digits e.target, by decide, hbefore, hlabel, hbehind⟩

theorem visible_of_mem_graphLines (hvs : ∀ v ∈ vs, v.Plain) (hline : line ∈ graphLines id vs) :
    Text.Visible line := by
  induction vs generalizing id with
  | nil => exact absurd hline List.not_mem_nil
  | cons v vs ih =>
      rw [List.forall_mem_cons] at hvs
      rw [graphLines, List.mem_cons, List.mem_append, List.mem_map] at hline
      rcases hline with rfl | ⟨e, he, rfl⟩ | hline
      · exact visible_lineOf (visible_saidOfVertex hvs.1.attributes_visible)
      · exact visible_lineOf (visible_saidOfEdge (hvs.1.labels_visible e he))
      · exact ih hvs.2 hline

/-- No two rows of plain vertices have the same text. -/
theorem dot_eq_iff (hvs : ∀ v ∈ vs, v.Plain) (hvs' : ∀ v ∈ vs', v.Plain) :
    dot title vs = dot title vs' ↔ vs = vs' := by
  constructor
  · intro h
    have hread {vs : List Vertex} (hvs : ∀ v ∈ vs, v.Plain) :
        Text.lines ((graphLines 0 vs).flatMap (· ++ ['\n'])) = graphLines 0 vs := by
      apply Text.lines_of_visible
      intro line hline
      exact visible_of_mem_graphLines hvs hline
    rw [← String.toList_inj, toList_dot, toList_dot] at h
    have hlines := congrArg Text.lines (List.append_cancel_right (List.append_cancel_left h))
    rw [hread hvs, hread hvs'] at hlines
    exact graphLines_inj hvs hvs' hlines
  · intro h
    rw [h]

end MaximalMunch.Diagram
