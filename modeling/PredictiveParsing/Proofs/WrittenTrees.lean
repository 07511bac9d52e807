import PredictiveParsing.Proofs.ReadableTexts
import PredictiveParsing.Tree.Display

/-! Parse trees over texts are told by how they are written, and by their outlines. A leaf begins
with a quotation mark and a node with a name, a name ends at the parenthesis behind it, and the
trees below a node end at its other parenthesis.
-/

namespace PredictiveParsing.Tree

open CodePoint Text

/-- A tree whose nodes are nonterminals with names that they may have in a grammar, and whose leaves
are any texts.
-/
inductive OverTexts : Tree Value → Prop where
  | leaf (t : Text) : OverTexts (.leaf (.text t))
  | node {n : Text} {children : List (Tree Value)} (named : n.isNontermName = true)
    (below : ∀ child ∈ children, OverTexts child)
    : OverTexts (.node (.nonterm (.text n)) children)

-----------------------------------------------------------------------------------------
-- Written forms
-----------------------------------------------------------------------------------------

def form (tree : Tree Value) : Text :=
  written tree.display

/-- Trees that can each be written are written one by one, by induction. -/
theorem displayAll_eq {trees : List (Tree Value)}
    (each : ∀ tree ∈ trees, ∃ shown, tree.display = .ok shown)
    : displayAll trees = .ok (trees.map form) := by
  induction trees with
  | nil => rfl
  | cons tree trees ih =>
      obtain ⟨first, later⟩ := List.forall_mem_cons.mp each
      rw [displayAll, eq_ok_written first, ih later]
      rfl

/-- A node is written as its name, with the trees below it in parentheses. -/
theorem display_node {n : Text} {children : List (Tree Value)}
    (each : ∀ child ∈ children, ∃ shown, child.display = .ok shown)
    : display (.node (.nonterm (.text n)) children)
      = .ok (n ++ ofChar '(' :: join [ofChar ' '] (children.map form) ++ [ofChar ')']) := by
  rw [display, displayAll_eq each]
  rfl

/-- A tree over texts can be written, by induction. -/
theorem OverTexts.exists_display {tree : Tree Value} (texts : tree.OverTexts)
    : ∃ shown, tree.display = .ok shown := by
  induction texts with
  | leaf t => exact ⟨_, rfl⟩
  | node _ _ ih => exact ⟨_, display_node ih⟩

theorem OverTexts.form_node_append {n : Text} {children : List (Tree Value)}
    (below : ∀ child ∈ children, child.OverTexts) (x : Text)
    : form (.node (.nonterm (.text n)) children) ++ x
      = n ++ ofChar '(' :: (join [ofChar ' '] (children.map form) ++ ofChar ')' :: x) := by
  rw [form, display_node fun child member => (below child member).exists_display]
  simp [written]

/-- The written form of a tree over texts begins with a quotation mark or a letter. -/
theorem OverTexts.form_append_ne {tree : Tree Value} (texts : tree.OverTexts) (x y : Text)
    : form tree ++ x ≠ ofChar ')' :: y := by
  cases texts with
  | leaf t =>
      intro same
      have mark : quoteMark t = ofChar ')' := (List.cons.inj same).1
      rcases isQuoteMark_quoteMark t with quote | quote <;> rw [quote] at mark <;>
        exact absurd mark (by decide)
  | node named below =>
      rw [form_node_append below]
      exact name_append_ne named rfl _ _

/-- A quoted text does not begin as a name does. -/
theorem quoted_append_ne_name {n : Text} (named : n.isNontermName = true) (t x y : Text)
    : quoted t ++ x ≠ n ++ y := by
  intro same
  refine name_append_ne named (c := quoteMark t) ?_ y _ same.symm
  rcases isQuoteMark_quoteMark t with quote | quote <;> rw [quote] <;> rfl

/-- A tree over texts is read back from the beginning of a longer text, by induction on the tree. -/
theorem OverTexts.form_append_inj {t u : Tree Value} (left : t.OverTexts) (right : u.OverTexts)
    {x y : Text} (same : form t ++ x = form u ++ y)
    : t = u ∧ x = y := by
  induction left generalizing u x y with
  | leaf s =>
      cases right with
      | leaf s' =>
          obtain ⟨rfl, rest⟩ := quoted_append_inj same
          exact ⟨rfl, rest⟩
      | node named below =>
          rw [form_node_append below] at same
          exact absurd same (quoted_append_ne_name named s _ _)
  | @node n children named below ih =>
      rw [form_node_append below] at same
      cases right with
      | leaf s => exact absurd same.symm (quoted_append_ne_name named s _ _)
      | @node m others named' below' =>
          rw [form_node_append below'] at same
          obtain ⟨rfl, _, inner⟩ :=
            append_cons_inj inName (forall_inName named) (forall_inName named') rfl rfl same
          -- children are told apart whatever stands behind them
          have apart
              : ∀ a ∈ children, ∀ b ∈ others, ToldApart form (ofChar ' ') (ofChar ')') a b := by
            intro a ha b hb c d v w _ _ equal
            obtain ⟨rfl, rest⟩ := ih a ha (below' b hb) equal
            exact ⟨rfl, List.cons.inj rest⟩
          obtain ⟨rfl, rest⟩ := join_append_inj form (ofChar ' ') (ofChar ')') (by decide) apart
            (fun a ha => (below a ha).form_append_ne) (fun b hb => (below' b hb).form_append_ne)
            inner
          exact ⟨rfl, rest⟩

example
    : display (.node (.nonterm (.text (.ofString "E'")))
        [.leaf (.text (.ofString "a' 'b")), .node (.nonterm (.text (.ofString "E"))) []])
      = .ok (.ofString "E'(\"a' 'b\" E())") := by
  decide

-----------------------------------------------------------------------------------------
-- Outlines
-----------------------------------------------------------------------------------------

/-- Trees that each have an outline have one together, by induction. -/
theorem exists_outlineAll {trees : List (Tree Value)}
    (each : ∀ tree ∈ trees, ∃ shown, tree.outline = .ok shown)
    : ∃ shown, outlineAll trees = .ok shown := by
  induction trees with
  | nil => exact ⟨[], rfl⟩
  | cons tree trees ih =>
      obtain ⟨⟨shown, first⟩, later⟩ := List.forall_mem_cons.mp each
      obtain ⟨rest, hrest⟩ := ih later
      exact ⟨shown :: rest, by rw [outlineAll, first, hrest]; rfl⟩

/-- A tree over texts has an outline, by induction. -/
theorem OverTexts.exists_outline {tree : Tree Value} (texts : tree.OverTexts)
    : ∃ shown, tree.outline = .ok shown := by
  induction texts with
  | leaf t => exact ⟨_, rfl⟩
  | @node n children _ _ ih =>
      obtain ⟨shown, below⟩ := exists_outlineAll ih
      exact ⟨.symbol (.text n) shown, by rw [outline, below]; rfl⟩

/-- Trees with outlines are told by the outlines of all of them if each one is by its own. By
induction on one of the lists.
-/
theorem outlineAll_inj {trees others : List (Tree Value)}
    (apart : ∀ t ∈ trees, ∀ u ∈ others, ∀ o, t.outline = .ok o → u.outline = .ok o → t = u)
    {shown : List Outline} (left : outlineAll trees = .ok shown)
    (right : outlineAll others = .ok shown)
    : trees = others := by
  induction trees generalizing others shown with
  | nil =>
      cases left
      cases others with
      | nil => rfl
      | cons u others =>
          obtain ⟨o, _, right⟩ := Fault.bind_eq_ok_iff.mp right
          obtain ⟨os, _, right⟩ := Fault.bind_eq_ok_iff.mp right
          cases right
  | cons t trees ih =>
      obtain ⟨o, first, left⟩ := Fault.bind_eq_ok_iff.mp left
      obtain ⟨os, later, left⟩ := Fault.bind_eq_ok_iff.mp left
      cases left
      cases others with
      | nil => cases right
      | cons u others =>
          obtain ⟨o', first', right⟩ := Fault.bind_eq_ok_iff.mp right
          obtain ⟨os', later', right⟩ := Fault.bind_eq_ok_iff.mp right
          cases right
          have head := apart t List.mem_cons_self u List.mem_cons_self o first first'
          have tail := ih (fun t' ht u' hu => apart t' (List.mem_cons_of_mem t ht) u'
            (List.mem_cons_of_mem u hu)) later later'
          rw [head, tail]

/-- A tree over texts is told by its outline, by induction on the tree. -/
theorem OverTexts.outline_inj {t u : Tree Value} (left : t.OverTexts) (right : u.OverTexts)
    {shown : Outline} (ht : t.outline = .ok shown) (hu : u.outline = .ok shown)
    : t = u := by
  induction left generalizing u shown with
  | leaf s =>
      cases ht
      cases right with
      | leaf s' =>
          have same : quoted s' = quoted s := Outline.token.inj (Except.ok.inj hu)
          rw [(quoted_append_inj (congrArg (· ++ []) same)).1]
      | node =>
          obtain ⟨_, _, hu⟩ := Fault.bind_eq_ok_iff.mp hu
          obtain ⟨_, _, hu⟩ := Fault.bind_eq_ok_iff.mp hu
          cases hu
  | @node n children named below ih =>
      obtain ⟨_, name, ht⟩ := Fault.bind_eq_ok_iff.mp ht
      obtain ⟨_, inner, ht⟩ := Fault.bind_eq_ok_iff.mp ht
      cases name
      cases ht
      cases right with
      | leaf s => cases hu
      | @node m others named' below' =>
          obtain ⟨_, name, hu⟩ := Fault.bind_eq_ok_iff.mp hu
          obtain ⟨_, inner', hu⟩ := Fault.bind_eq_ok_iff.mp hu
          cases name
          cases hu
          rw [outlineAll_inj (fun a ha b hb o => ih a ha (below' b hb)) inner inner']

/-- Trees over texts can be written and have outlines, and two of them that are written alike, or
whose outlines are alike, are the same tree.
-/
theorem tree_of_written_form {t u : Tree Value} (left : t.OverTexts) (right : u.OverTexts)
    : (∃ shown, t.display = .ok shown)
      ∧ (∃ shown, t.outline = .ok shown)
      ∧ (t.display = u.display → t = u)
      ∧ (t.outline = u.outline → t = u) := by
  obtain ⟨shown, outlined⟩ := left.exists_outline
  refine ⟨left.exists_display, ⟨shown, outlined⟩, fun same => ?_, fun same => ?_⟩
  · have forms : form t ++ [] = form u ++ [] := by rw [form, form, same]
    exact (left.form_append_inj right forms).1
  · exact left.outline_inj right outlined (same ▸ outlined)

/-- One leaf has the text that is written for two leaves, with other marks around it. -/
theorem tree_of_written_form_marks
    : let name : Value := .nonterm (.text (.ofString "E'"))
      let t : Tree Value :=
        .node name [.leaf (.text (.ofString "a")), .leaf (.text (.ofString "b"))]
      let u : Tree Value := .node name [.leaf (.text (.ofString "a' 'b"))]
      t.OverTexts
      ∧ u.OverTexts
      ∧ (∃ shown, u.display = .ok shown)
      ∧ t.display ≠ u.display
      ∧ t.outline ≠ u.outline := by
  intro name t u
  have left : t.OverTexts := .node (by decide)
    (List.forall_mem_cons.mpr ⟨.leaf _, List.forall_mem_singleton.mpr (.leaf _)⟩)
  have right : u.OverTexts := .node (by decide) (List.forall_mem_singleton.mpr (.leaf _))
  have different : t ≠ u := fun same =>
    absurd (congrArg (fun tree => tree.children.length) same) (by decide)
  obtain ⟨_, _, displays, outlines⟩ := tree_of_written_form left right
  exact ⟨left, right, (tree_of_written_form right left).1, mt displays different,
    mt outlines different⟩

end PredictiveParsing.Tree
