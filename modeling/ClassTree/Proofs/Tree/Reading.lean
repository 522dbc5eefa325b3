/-
# ClassTree.Proofs.Tree.Reading — every layout of a tree is read as the tree

The events of a tree are put together to the tree again, line markers included: the attributes of a
node may come in any order, since each of them comes once and is found by its name. So reading
undoes writing, whatever the layout is, as long as the strings have no line feed and the numeral of
each line marker is not longer than numerals may be.
-/
import ClassTree.Proofs.Result
import ClassTree.Proofs.Tree.Layout
import ClassTree.Tree.Read
import Mathlib.Data.List.Nodup

namespace ClassTree.Tree

/-- The line marker of the node, if it has one, is a natural number with a numeral that can be read.
-/
def Node.HasNumeral (n : Node) : Prop := ∀ l ∈ n.line, 0 ≤ l ∧ l < 10 ^ Text.maxNumeralLength

/-! ## Attributes -/

/-- Whatever values are missing, the names stay in order. -/
theorem sublist_names (l : List (Text × Option Text)) :
    ((l.filterMap fun (name, value) => value.map fun v => (name, v)).map Prod.fst).Sublist
      (l.map Prod.fst) := by
  induction l with
  | nil => exact .slnil
  | cons a l ih =>
    obtain ⟨name, value⟩ := a
    cases value with
    | none => exact ih.cons _
    | some v => exact ih.cons_cons _

/-- The names of the attributes of a node are known, and none is given twice. -/
theorem nodup_attributes (n : Node) :
    (n.attributes.map Prod.fst).Nodup ∧ ∀ a ∈ n.attributes, a.1 ∈ attributeNames := by
  have hsublist : (n.attributes.map Prod.fst).Sublist attributeNames := sublist_names _
  refine ⟨hsublist.nodup (by decide), fun a ha => hsublist.subset (List.mem_map_of_mem ha)⟩

/-- Attributes with known names that are not given before pass the check. -/
theorem checkAttributes_eq_ok {attributes : List (Text × Text)} {given : List Text}
    (hnodup : (attributes.map Prod.fst).Nodup) (hknown : ∀ a ∈ attributes, a.1 ∈ attributeNames)
    (hgiven : ∀ a ∈ attributes, a.1 ∉ given) : checkAttributes attributes given = .ok () := by
  induction attributes generalizing given with
  | nil => rfl
  | cons a rest ih =>
    obtain ⟨hnew, hrest⟩ := List.nodup_cons.1 hnodup
    unfold checkAttributes
    rw [if_neg (not_not.2 (hknown a (by simp))), if_neg (hgiven a (by simp))]
    refine ih hrest (fun b hb => hknown b (List.mem_cons_of_mem _ hb)) ?_
    intro b hb
    rw [List.mem_cons, not_or]
    refine ⟨?_, hgiven b (List.mem_cons_of_mem _ hb)⟩
    rintro heq
    exact hnew (heq ▸ List.mem_map_of_mem hb)

/-- What is found under a name does not depend on the order if no name is given twice. -/
theorem find?_eq_of_perm {as bs : List (Text × Text)} (hperm : as.Perm bs)
    (hnodup : (bs.map Prod.fst).Nodup) (name : Text) :
    as.find? (fun a => a.1 = name) = bs.find? (fun a => a.1 = name) := by
  have hfind {l : List (Text × Text)} (hl : (l.map Prod.fst).Nodup) (a : Text × Text) :
      l.find? (fun a => a.1 = name) = some a ↔ a ∈ l ∧ a.1 = name := by
    constructor
    · intro h
      exact ⟨List.mem_of_find?_eq_some h, by simpa using List.find?_some h⟩
    · rintro ⟨hmem, rfl⟩
      obtain ⟨b, hb⟩ := Option.isSome_iff_exists.1
        (List.find?_isSome.2 ⟨a, hmem, by simp⟩ : (l.find? fun b => b.1 = a.1).isSome = true)
      have hname : b.1 = a.1 := by simpa using List.find?_some hb
      obtain rfl : b = a := List.inj_on_of_nodup_map hl (List.mem_of_find?_eq_some hb) hmem hname
      exact hb
  refine Option.ext fun a => ?_
  rw [hfind ((hperm.map Prod.fst).nodup_iff.2 hnodup), hfind hnodup, hperm.mem_iff]

/-- The four values that a node gives its attributes are found under their names. -/
theorem find?_attributes (n : Node) :
    let value? (name : Text) := (n.attributes.find? fun a => a.1 = name).map Prod.snd
    value? "base" = n.base ∧ value? "name" = n.name ∧ value? "line" = n.line.map Text.ofInt ∧
      value? "data" = n.data := by
  obtain ⟨base, name, line, data, text, children⟩ := n
  cases base <;> cases name <;> cases line <;> cases data <;> exact ⟨rfl, rfl, rfl, rfl⟩

/-! ## Line markers -/

/-- A numeral that is not too long is read as a line marker. -/
theorem lineNumber_ofInt {l : Int} (hnat : 0 ≤ l) (hlt : l < 10 ^ Text.maxNumeralLength) :
    lineNumber (Text.ofInt l) = .ok l := by
  lift l to Nat using hnat
  have hlt' : l < 10 ^ Text.maxNumeralLength := by exact_mod_cast hlt
  unfold lineNumber
  rw [show Text.ofInt (l : Int) = Text.ofNat l from rfl, Text.isNumeric_ofNat, if_pos rfl,
    Text.toNat?_ofNat hlt']

theorem lineNumber_ofNat {n : Nat} (h : 10 ^ Text.maxNumeralLength ≤ n) :
    lineNumber (Text.ofNat n) = .error (.undefined .numeral) := by
  unfold lineNumber
  rw [Text.isNumeric_ofNat, if_pos rfl, Text.toNat?_ofNat_eq_none h]

/-! ## Nodes -/

/-- A node ends as the node that its attributes, its text and its children are from. -/
theorem close_eq_ok {n : Node} (hn : n.HasNumeral) {attributes : List (Text × Text)}
    (hperm : attributes.Perm n.attributes) :
    OpenNode.close ⟨attributes.reverse, n.text, n.children.reverse⟩ = .ok n := by
  obtain ⟨hnodup, hknown⟩ := nodup_attributes n
  obtain ⟨hbase, hname, hline, hdata⟩ := find?_attributes n
  have hcheck : checkAttributes attributes [] = .ok () :=
    checkAttributes_eq_ok ((hperm.map Prod.fst).nodup_iff.2 hnodup)
      (fun a ha => hknown a (hperm.mem_iff.1 ha)) (fun a ha => List.not_mem_nil)
  unfold OpenNode.close
  simp only [List.reverse_reverse, hcheck, Result.ok_bind, find?_eq_of_perm hperm hnodup, hbase, hname,
    hline, hdata]
  obtain ⟨base, name, line, data, text, children⟩ := n
  cases line with
  | none => rfl
  | some l =>
    obtain ⟨hnat, hlt⟩ := hn l rfl
    rw [Option.map_some, Option.mapM_some, lineNumber_ofInt hnat hlt]
    rfl

/-- An assembly with a node that has ended. -/
def Assembly.add (a : Assembly) (n : Node) : Assembly :=
  if a.stack.isEmpty then { a with root := some n }
  else a.modifyTop fun parent => { parent with children := n :: parent.children }

theorem step_closing {a : Assembly} {top : OpenNode} {rest : List OpenNode} {n : Node}
    (hstack : a.stack = top :: rest) (h : top.close = .ok n) :
    a.step .closing = .ok ({ a with stack := rest }.add n) := by
  unfold Assembly.step
  rw [hstack]
  dsimp only
  rw [h, Result.ok_bind]
  unfold Assembly.add
  split
  · rfl
  · rfl

theorem foldlM_attributes (attributes : List (Text × Text)) {top : OpenNode} {rest : List OpenNode}
    {root : Option Node} :
    (attributes.map fun (name, value) => Event.attribute_ name value).foldlM Assembly.step
        ⟨top :: rest, root⟩ =
      .ok ⟨{ top with attributes := attributes.reverse ++ top.attributes } :: rest, root⟩ := by
  induction attributes generalizing top with
  | nil => rfl
  | cons a attributes ih =>
    rw [List.map_cons, List.foldlM_cons]
    refine ih.trans ?_
    rw [List.reverse_cons, List.append_assoc]
    rfl

mutual

/-- The events of a node add the node. -/
theorem foldlM_node {n : Node} {events : List Event} (h : n.IsToldBy events)
    (hn : n.All Node.HasNumeral) (a : Assembly) :
    events.foldlM Assembly.step a = .ok (a.add n) := by
  cases h with
  | @mk base name line data text children attributes events hperm hchildren =>
    obtain ⟨hnumeral, hnumerals⟩ := hn
    have htext : ((text.map Event.text).toList).foldlM Assembly.step
        ⟨⟨attributes.reverse ++ [], none, []⟩ :: a.stack, a.root⟩ =
          .ok ⟨⟨attributes.reverse, text, []⟩ :: a.stack, a.root⟩ := by
      rw [List.append_nil]
      cases text <;> rfl
    have hclose := close_eq_ok hnumeral hperm
    rw [List.foldlM_cons]
    show (do
      let b ← Except.ok (⟨⟨[], none, []⟩ :: a.stack, a.root⟩ : Assembly)
      List.foldlM Assembly.step b _) = _
    rw [Result.ok_bind, List.foldlM_append, foldlM_attributes, Result.ok_bind, List.foldlM_append,
      htext, Result.ok_bind, List.foldlM_append, foldlM_nodes hchildren hnumerals, Result.ok_bind,
      List.foldlM_cons, List.append_nil, step_closing rfl hclose, Result.ok_bind]
    rfl

/-- The events of nodes inside another one make them its children. -/
theorem foldlM_nodes {ns : List Node} {events : List Event} (h : Node.AreToldBy ns events)
    (hns : ∀ n ∈ ns, n.All Node.HasNumeral) {top : OpenNode} {rest : List OpenNode}
    {root : Option Node} :
    events.foldlM Assembly.step ⟨top :: rest, root⟩ =
      .ok ⟨{ top with children := ns.reverse ++ top.children } :: rest, root⟩ := by
  cases h with
  | nil => rfl
  | @cons n ns events later htold hrest =>
    rw [List.foldlM_append, foldlM_node htold (hns n (by simp)), Result.ok_bind]
    refine (foldlM_nodes hrest fun m hm => hns m (List.mem_cons_of_mem _ hm)).trans ?_
    rw [List.reverse_cons, List.append_assoc]
    rfl

end

/-- The events of a tree are put together to the tree. -/
theorem ofEvents_eq_ok {n : Node} {events : List Event} (h : n.IsToldBy events)
    (hn : n.All Node.HasNumeral) : Node.ofEvents events = .ok n := by
  unfold Node.ofEvents
  rw [foldlM_node h hn, Result.ok_bind]
  rfl

/-! ## Rendering -/

theorem gap_lineBreak (depth : Nat) : Gap (lineBreak depth) := by
  have hspaces (count : Nat) : Gap (List.replicate count 0x20) := by
    induction count with
    | zero => exact .nil
    | succ count ih => exact .blank (by decide) ih
  exact .blank (by decide) (hspaces _)

/-- Rendered attributes are a layout of those that are not missing. -/
theorem attributesLayout_attributeText (l : List (Text × Option Text)) :
    AttributesLayout (l.filterMap fun (name, value) => value.map fun v => (name, v))
      (l.map fun (name, value) => attributeText name value).flatten := by
  induction l with
  | nil => exact .nil
  | cons a l ih =>
    obtain ⟨name, value⟩ := a
    cases value with
    | none => exact ih
    | some v =>
      have hspace : Gap [0x20] := .blank (by decide) .nil
      have hlayout : AttributesLayout ((name, v) :: _) _ := .cons hspace .nil .nil ih
      have htext (t : Text) : attributeText name (some v) ++ t =
          [0x20] ++ (name ++ ([] ++ 0x3D :: ([] ++ (quote v ++ t)))) := by
        unfold attributeText Text.concat
        simp only [List.flatten_cons, List.flatten_nil, List.append_nil, List.append_assoc]
        rfl
      rw [List.map_cons, List.flatten_cons, htext]
      exact hlayout

/-- The text of a node behind a space is a layout of it. -/
theorem textLayout_quote (text : Option Text) :
    TextLayout text (match text with
      | some t => 0x20 :: quote t
      | none => []) := by
  cases text with
  | none => exact .none
  | some t =>
    have hspace : Gap [0x20] := .blank (by decide) .nil
    exact .some hspace

mutual

/-- A node is rendered in one of its layouts: indented by depth, with an attribute a line. Reading
undoes every layout, so it undoes this one. -/
theorem exists_hasLayout (n : Node) (depth : Nat) :
    ∃ t, n.HasLayout t ∧ ∀ acc, n.renderOnto depth acc = t.reverse ++ acc := by
  obtain ⟨base, name, line, data, text, children⟩ := n
  obtain ⟨childrenText, hchildren, hrender⟩ := exists_allHaveLayout children (depth + 1)
  refine ⟨_, .mk .nil (.refl _) (attributesLayout_attributeText _) (textLayout_quote text) hchildren
    .nil, ?_⟩
  intro acc
  have hhead : Node.head ⟨base, name, line, data, text, []⟩ = 0x28 :: ([] ++ 0x6F ::
      ((([("base", base), ("name", name), ("line", line.map Text.ofInt), ("data", data)] :
        List (Text × Option Text)).map fun (name, value) => attributeText name value).flatten ++
        match text with
        | some t => 0x20 :: quote t
        | none => [])) := by
    unfold Node.head Text.concat
    simp only [List.map_cons, List.map_nil, List.flatten_cons, List.flatten_nil, List.append_nil,
      List.append_assoc]
    rfl
  unfold Node.renderOnto
  dsimp only
  rw [hrender, List.reverseAux_eq, hhead]
  simp only [List.reverse_append, List.reverse_cons, List.append_assoc, List.nil_append,
    List.reverse_nil, List.cons_append]

/-- Nodes are rendered one after another in layouts of theirs. -/
theorem exists_allHaveLayout (ns : List Node) (depth : Nat) :
    ∃ t, Node.AllHaveLayout ns t ∧ ∀ acc, Node.renderAllOnto ns depth acc = t.reverse ++ acc := by
  cases ns with
  | nil => exact ⟨[], .nil, fun acc => rfl⟩
  | cons n ns =>
    obtain ⟨t, ht, hrender⟩ := exists_hasLayout n depth
    obtain ⟨ts, hts, hrenders⟩ := exists_allHaveLayout ns depth
    refine ⟨lineBreak depth ++ (t ++ ts), .cons (gap_lineBreak depth) ht hts, ?_⟩
    intro acc
    unfold Node.renderAllOnto
    rw [hrenders, hrender, List.reverseAux_eq]
    simp only [List.reverse_append, List.append_assoc]

end

/-- A tree is written as the text that it is rendered to. -/
theorem isWrittenAs_render (n : Node) : n.IsWrittenAs n.render := by
  obtain ⟨t, ht, hrender⟩ := exists_hasLayout n 0
  refine ⟨[], t, [0x0A], .nil, ht, .blank (by decide) .nil, ?_⟩
  unfold Node.render
  rw [hrender, List.append_nil, List.reverse_cons, List.reverse_reverse, List.nil_append]

/-! ## Reading -/

/-- Every text in which a tree is written is read as the tree, line markers included; one of these
texts is the one that it is rendered to. The strings have no line feed, and the numerals of the line
markers can be read. -/
theorem Node.read_eq_ok {n : Node} (hlines : n.All Node.IsOneLine) (hnumerals : n.All Node.HasNumeral) :
    (∀ t, n.IsWrittenAs t → Node.read t = .ok n) ∧ Node.read n.render = .ok n := by
  have hread (t : Text) (h : n.IsWrittenAs t) : Node.read t = .ok n := by
    obtain ⟨events, htold, hscan⟩ := exists_scan_eq_ok h hlines
    unfold Node.read
    rw [hscan]
    exact ofEvents_eq_ok htold hnumerals
  exact ⟨hread, hread _ (isWrittenAs_render n)⟩

/-- A node with quotes, backslashes and control characters in its name, and a child with a marker.
-/
def oddNode : Node where
  base := some "attribute"
  name := some [0x22, 0x5C, 0x5C, 0x22, 0x09, 0x5C]
  text := some "#)"
  children := [{ base := some [], line := some 7 }]

/-- A text in which the node is written, with a comment and with attributes in another order. -/
def oddText : Text :=
  "(#(\no name=\"\\\"\\\\\\\\\\\"\t\\\\\"\rbase = \"attribute\"\"#)\"\x0c(o line=\"7\"base=\"\"))"

theorem isWrittenAs_oddText : oddNode.IsWrittenAs oddText := by
  have hspace : Gap [0x20] := .blank (by decide) .nil
  have hcomment : Gap (0x23 :: ([0x28] ++ [0x0A])) := .comment (by decide) .nil
  have hperm : ([("line", "7"), ("base", [])] : List (Text × Text)).Perm
      (Node.attributes { base := some [], line := some 7 }) := .swap _ _ []
  have hchild : Node.HasLayout { base := some [], line := some 7 } _ :=
    .mk .nil hperm (.cons hspace .nil .nil (.cons .nil .nil .nil .nil)) .none .nil .nil
  refine ⟨[], _, [], .nil, .mk hcomment
    (.swap (("base" : Text), ("attribute" : Text)) ("name", [0x22, 0x5C, 0x5C, 0x22, 0x09, 0x5C]) [])
    (.cons hspace .nil .nil (.cons (.blank (c := 0x0D) (by decide) .nil) hspace hspace .nil))
    (.some .nil) (.cons (.blank (c := 0x0C) (by decide) .nil) hchild .nil) .nil, .nil, ?_⟩
  cbv

/-- The node is read from this text, and from the one that it is rendered to. -/
theorem read_oddNode : oddNode.All Node.IsOneLine ∧ oddNode.All Node.HasNumeral ∧
    oddNode.IsWrittenAs oddText ∧ Node.read oddText = .ok oddNode ∧
    Node.read oddNode.render = .ok oddNode := by
  have hlines : oddNode.All Node.IsOneLine := by
    refine .mk (by unfold Node.IsOneLine; decide) fun c hc => ?_
    obtain rfl := List.mem_singleton.1 hc
    exact .mk (by unfold Node.IsOneLine; decide) nofun
  have hnumerals : oddNode.All Node.HasNumeral := by
    refine .mk nofun fun c hc => ?_
    obtain rfl := List.mem_singleton.1 hc
    refine .mk ?_ nofun
    rintro l ⟨rfl⟩
    exact ⟨by decide, Int.lt_of_lt_of_le (by decide : (7 : Int) < 10 ^ 1)
      (pow_le_pow_right₀ (by decide) (by decide))⟩
  obtain ⟨hread, hrender⟩ := Node.read_eq_ok hlines hnumerals
  exact ⟨hlines, hnumerals, isWrittenAs_oddText, hread _ isWrittenAs_oddText, hrender⟩

/-- A node with nothing but a line marker. -/
def markedNode (n : Nat) : Node := { line := some n }

theorem all_isOneLine_markedNode (n : Nat) : (markedNode n).All Node.IsOneLine := by
  refine .mk ?_ nofun
  unfold Node.IsOneLine
  simp [markedNode]

/-- A node whose line marker has too long a numeral is not read back. -/
theorem read_render_of_le {n : Nat} (h : 10 ^ Text.maxNumeralLength ≤ n) :
    Node.read (markedNode n).render = .error (.undefined .numeral) := by
  obtain ⟨events, htold, hscan⟩ :=
    exists_scan_eq_ok (isWrittenAs_render (markedNode n)) (all_isOneLine_markedNode n)
  unfold Node.read
  rw [hscan]
  cases htold with
  | @mk base name line data text children attributes events hperm hchildren =>
    cases hchildren
    have hone : attributes = ([("line", Text.ofNat n)] : List (Text × Text)) :=
      List.perm_singleton.1 hperm
    subst hone
    have hclose : OpenNode.close ⟨[("line", Text.ofNat n)], none, []⟩ = .error (.undefined .numeral) := by
      have hcheck : checkAttributes [("line", Text.ofNat n)] [] = .ok () :=
        checkAttributes_eq_ok (by simp) (by simp [attributeNames]) (by simp)
      unfold OpenNode.close
      simp only [List.reverse_singleton, hcheck, Result.ok_bind]
      show (do
        let line ← (some (Text.ofNat n)).mapM lineNumber
        return _) = _
      rw [Option.mapM_some, lineNumber_ofNat h]
      rfl
    have hfold : ([.opening, .attribute_ "line" (Text.ofNat n), .closing] : List Event).foldlM
        Assembly.step {} = .error (.undefined .numeral) := by
      show Assembly.step ⟨[⟨[("line", Text.ofNat n)], none, []⟩], none⟩ .closing >>= _ = _
      unfold Assembly.step
      dsimp only
      rw [hclose]
      rfl
    show Node.ofEvents [.opening, .attribute_ "line" (Text.ofNat n), .closing] = _
    unfold Node.ofEvents
    rw [hfold]
    rfl

/-- A line marker with too long a numeral is rendered, but it cannot be read. -/
theorem read_render_markedNode : (markedNode (10 ^ Text.maxNumeralLength)).All Node.IsOneLine ∧
    (∀ l ∈ (markedNode (10 ^ Text.maxNumeralLength)).line, 0 ≤ l) ∧
    Node.read (markedNode (10 ^ Text.maxNumeralLength)).render = .error (.undefined .numeral) := by
  refine ⟨all_isOneLine_markedNode _, ?_, read_render_of_le (Nat.le_refl _)⟩
  rintro l ⟨rfl⟩
  exact Int.natCast_nonneg _

end ClassTree.Tree
