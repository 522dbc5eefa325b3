/-
# ClassTree.Proofs.Tree.Layout — the layouts of a tree

The attributes of a node may be written in any order, and blanks and comments may stand between any
two tokens. All the texts of a tree that differ in this way only are its layouts. The machine that
scans a text stops at none of them: it finds the events of the tree, whatever the layout is. The
text that a tree is rendered to is one layout of many.
-/
import ClassTree.Proofs.Text.Numeral
import ClassTree.Tree.Event
import Mathlib.Data.List.Basic

namespace ClassTree.Tree

/-! ## Layouts -/

/-- What a gap between two tokens consists of, comments aside: space, tab, form feed, carriage
return and line feed. -/
def blankSigns : List CodePoint := [0x20, 0x09, 0x0C, 0x0D, 0x0A]

/-- Text between two tokens: blanks and comments, each comment with the line feed that ends it. -/
inductive Gap : Text → Prop
  | nil : Gap []
  | blank {c : CodePoint} {rest : Text} (hc : c ∈ blankSigns) (h : Gap rest) : Gap (c :: rest)
  | comment {words rest : Text} (hwords : 0x0A ∉ words) (h : Gap rest) :
    Gap (0x23 :: (words ++ 0x0A :: rest))

/-- The attributes of a node in the order in which they are rendered. -/
def Node.attributes (n : Node) : List (Text × Text) :=
  ([("base", n.base), ("name", n.name), ("line", n.line.map Text.ofInt), ("data", n.data)] :
    List (Text × Option Text)).filterMap fun (name, value) => value.map fun v => (name, v)

/-- Attributes one after another, each with a gap in front of every token. -/
inductive AttributesLayout : List (Text × Text) → Text → Prop
  | nil : AttributesLayout [] []
  | cons {name value before middle behind t : Text} {rest : List (Text × Text)} (hbefore : Gap before)
    (hmiddle : Gap middle) (hbehind : Gap behind) (h : AttributesLayout rest t) :
    AttributesLayout ((name, value) :: rest)
      (before ++ (name ++ (middle ++ 0x3D :: (behind ++ (quote value ++ t)))))

/-- The text of a node with a gap in front, if it has one. -/
inductive TextLayout : Option Text → Text → Prop
  | none : TextLayout none []
  | some {value before : Text} (hbefore : Gap before) : TextLayout (some value) (before ++ quote value)

mutual

/-- A layout of a node: a parenthesis, the letter `o`, the attributes in some order, the text, the
children, and a parenthesis, with gaps in between. -/
inductive Node.HasLayout : Node → Text → Prop
  | mk {base name : Option Text} {line : Option Int} {data text : Option Text} {children : List Node}
    {attributes : List (Text × Text)} {before behind attributesText textText childrenText : Text}
    (hbefore : Gap before)
    (hperm : attributes.Perm (Node.attributes ⟨base, name, line, data, text, children⟩))
    (hattributes : AttributesLayout attributes attributesText) (htext : TextLayout text textText)
    (hchildren : Node.AllHaveLayout children childrenText) (hbehind : Gap behind) :
    Node.HasLayout ⟨base, name, line, data, text, children⟩
      (0x28 :: (before ++ 0x6F :: (attributesText ++ (textText ++ (childrenText ++ (behind ++ [0x29]))))))

/-- Layouts of nodes one after another, each with a gap in front. -/
inductive Node.AllHaveLayout : List Node → Text → Prop
  | nil : Node.AllHaveLayout [] []
  | cons {n : Node} {ns : List Node} {before t ts : Text} (hbefore : Gap before) (h : Node.HasLayout n t)
    (hrest : Node.AllHaveLayout ns ts) : Node.AllHaveLayout (n :: ns) (before ++ (t ++ ts))

end

/-- A whole text that is a layout of a tree, with gaps around it. -/
def Node.IsWrittenAs (n : Node) (t : Text) : Prop :=
  ∃ before body behind, Gap before ∧ n.HasLayout body ∧ Gap behind ∧ t = before ++ (body ++ behind)

/-- A property of a node and of all nodes below it. -/
inductive Node.All (Q : Node → Prop) : Node → Prop
  | mk {n : Node} (h : Q n) (hchildren : ∀ c ∈ n.children, Node.All Q c) : Node.All Q n

/-- No string of the node has a line feed. -/
def Node.IsOneLine (n : Node) : Prop :=
  ∀ value ∈ [n.base, n.name, n.data, n.text], ∀ t ∈ value, 0x0A ∉ t

/-! ## Events -/

mutual

/-- The events of a node: its attributes may come in any order. -/
inductive Node.IsToldBy : Node → List Event → Prop
  | mk {base name : Option Text} {line : Option Int} {data text : Option Text} {children : List Node}
    {attributes : List (Text × Text)} {events : List Event}
    (hperm : attributes.Perm (Node.attributes ⟨base, name, line, data, text, children⟩))
    (hchildren : Node.AreToldBy children events) :
    Node.IsToldBy ⟨base, name, line, data, text, children⟩
      (.opening :: (attributes.map (fun (name, value) => .attribute_ name value) ++
        ((text.map Event.text).toList ++ (events ++ [.closing]))))

/-- The events of nodes one after another. -/
inductive Node.AreToldBy : List Node → List Event → Prop
  | nil : Node.AreToldBy [] []
  | cons {n : Node} {ns : List Node} {events later : List Event} (h : Node.IsToldBy n events)
    (hrest : Node.AreToldBy ns later) : Node.AreToldBy (n :: ns) (events ++ later)

end

/-! ## Scanning -/

namespace Scan

/-- A text leads from one mode at a depth to another one, and adds events. Where in the document the
text stands is of no interest. -/
def Leads (m : Mode) (depth : Nat) (t : Text) (m' : Mode) (depth' : Nat) (events : List Event) : Prop :=
  ∀ here last before, ∃ here' last', t.foldlM step ⟨m, depth, here, last, before⟩ =
    .ok ⟨m', depth', here', last', events.reverse ++ before⟩

variable {m m' m'' : Mode} {depth depth' depth'' : Nat} {t t' : Text} {events events' : List Event}

theorem Leads.nil : Leads m depth [] m depth [] := by
  intro here last before
  exact ⟨here, last, rfl⟩

theorem Leads.append (h : Leads m depth t m' depth' events)
    (h' : Leads m' depth' t' m'' depth'' events') :
    Leads m depth (t ++ t') m'' depth'' (events ++ events') := by
  intro here last before
  obtain ⟨here₁, last₁, h₁⟩ := h here last before
  obtain ⟨here₂, last₂, h₂⟩ := h' here₁ last₁ (events.reverse ++ before)
  refine ⟨here₂, last₂, ?_⟩
  rw [List.foldlM_append, h₁, List.reverse_append, List.append_assoc]
  exact h₂

/-- A code point in front of a text. -/
theorem Leads.cons (events : List Event) {c : CodePoint}
    (h : ∀ here last before, ∃ here' last', step ⟨m, depth, here, last, before⟩ c =
      .ok ⟨m', depth', here', last', events.reverse ++ before⟩)
    (h' : Leads m' depth' t' m'' depth'' events') :
    Leads m depth (c :: t') m'' depth'' (events ++ events') := by
  have hone : Leads m depth [c] m' depth' events := by
    intro here last before
    obtain ⟨here', last', h⟩ := h here last before
    refine ⟨here', last', ?_⟩
    rw [List.foldlM_cons, h]
    rfl
  exact hone.append h'

theorem Leads.skip (h : Leads m depth t m' depth' []) (h' : Leads m' depth' t' m'' depth'' events') :
    Leads m depth (t ++ t') m'' depth'' events' := h.append h'

/-- A code point without events in front of a text. -/
theorem Leads.skip_cons {c : CodePoint}
    (h : ∀ here last before, ∃ here' last', step ⟨m, depth, here, last, before⟩ c =
      .ok ⟨m', depth', here', last', before⟩)
    (h' : Leads m' depth' t' m'' depth'' events') : Leads m depth (c :: t') m'' depth'' events' :=
  Leads.cons [] h h'

/-! ### Gaps -/

/-- Each blank of a gap is a blank for the machine, and ends a name. -/
theorem isBlank_of_mem {c : CodePoint} (h : c ∈ blankSigns) :
    isBlank c = true ∧ continuesName c = false := by
  simp only [blankSigns, List.mem_cons, List.not_mem_nil, or_false] at h
  rcases h with rfl | rfl | rfl | rfl | rfl
  all_goals exact ⟨rfl, rfl⟩

/-- The words of a comment stay in it. -/
theorem leads_words {words : Text} (h : 0x0A ∉ words) (next : Expectation) (depth : Nat) :
    Leads (.comment next) depth words (.comment next) depth [] := by
  induction words with
  | nil => exact .nil
  | cons c words ih =>
    have hc : c ≠ 0x0A := fun heq => h (heq ▸ List.mem_cons_self)
    refine .skip_cons ?_ (ih fun hmem => h (List.mem_cons_of_mem _ hmem))
    intro here last before
    refine ⟨here.after c, last, ?_⟩
    simp only [step, if_neg hc]

/-- A gap is skipped between any two tokens. -/
theorem leads_gap {gap : Text} (h : Gap gap) (next : Expectation) (depth : Nat) :
    Leads (.between next) depth gap (.between next) depth [] := by
  induction h with
  | nil => exact .nil
  | @blank c rest hc _ ih =>
    refine .skip_cons ?_ ih
    intro here last before
    exact ⟨here.after c, last, by simp only [step, start, (isBlank_of_mem hc).1, if_true]⟩
  | comment hwords _ ih =>
    refine .skip_cons (fun here last before => ⟨_, last, rfl⟩) ?_
    exact (leads_words hwords next depth).skip (.skip_cons (fun here last before => ⟨_, last, rfl⟩) ih)

/-! ### Quoted texts -/

/-- What stands between quotes is read back, unless it has a line feed. -/
theorem leads_inside {value : Text} (h : 0x0A ∉ value) (attribute? : Option Text) (read : Text)
    (depth : Nat) :
    Leads (.quoted attribute? read false) depth
      (value.flatMap fun c => if c = quoteSign ∨ c = escapeSign then [escapeSign, c] else [c])
      (.quoted attribute? (value.reverse ++ read) false) depth [] := by
  induction value generalizing read with
  | nil => exact .nil
  | cons c value ih =>
    have hc : c ≠ 0x0A := fun heq => h (heq ▸ List.mem_cons_self)
    have hrest := ih (fun hmem => h (List.mem_cons_of_mem _ hmem)) (c :: read)
    rw [List.flatMap_cons, List.reverse_cons, List.append_assoc, List.singleton_append]
    refine .skip ?_ hrest
    by_cases hsign : c = quoteSign ∨ c = escapeSign
    · -- the escape sign, and then anything but a line feed
      rw [if_pos hsign]
      refine .skip_cons (fun here last before => ⟨_, last, rfl⟩) (.skip_cons ?_ .nil)
      intro here last before
      exact ⟨here.after c, last, by simp only [step, inside, if_neg hc, if_true]⟩
    · rw [if_neg hsign]
      obtain ⟨hquote, hescape⟩ := not_or.1 hsign
      refine .skip_cons ?_ .nil
      intro here last before
      refine ⟨here.after c, last, ?_⟩
      simp only [step, inside, if_neg hc, if_neg hquote, if_neg hescape, Bool.false_eq_true, if_false]

theorem leads_value {value : Text} (h : 0x0A ∉ value) (name : Text) (depth : Nat) :
    Leads (.between (.value name)) depth (quote value) (.between .attributes) depth
      [.attribute_ name value] := by
  refine .skip_cons (fun here last before => ⟨_, here, rfl⟩) ((leads_inside h _ _ depth).skip ?_)
  refine .cons [.attribute_ name value] ?_ .nil
  intro here last before
  refine ⟨here.after quoteSign, last, ?_⟩
  rw [List.append_nil]
  show Except.ok (_ : Scan) = _
  rw [List.reverse_reverse]
  rfl

theorem leads_quote {value : Text} (h : 0x0A ∉ value) (depth : Nat) :
    Leads (.between .attributes) depth (quote value) (.between .children) depth [.text value] := by
  refine .skip_cons (fun here last before => ⟨_, here, rfl⟩) ((leads_inside h _ _ depth).skip ?_)
  refine .cons [.text value] ?_ .nil
  intro here last before
  refine ⟨here.after quoteSign, last, ?_⟩
  rw [List.append_nil]
  show Except.ok (_ : Scan) = _
  rw [List.reverse_reverse]
  rfl

/-! ### Attributes -/

theorem leads_name {name : Text} (h : ∀ c ∈ name, startsName c = true) (read : Text) (depth : Nat) :
    Leads (.name read) depth name (.name (name.reverse ++ read)) depth [] := by
  induction name generalizing read with
  | nil => exact .nil
  | cons c name ih =>
    have hcontinues : continuesName c = true := by
      unfold continuesName
      rw [h c (by simp), Bool.true_or, Bool.true_or]
    have hrest := ih (fun c hc => h c (List.mem_cons_of_mem _ hc)) (c :: read)
    rw [List.reverse_cons, List.append_assoc, List.singleton_append]
    refine .skip_cons ?_ hrest
    intro here last before
    exact ⟨here.after c, last, by simp only [step, hcontinues, if_true]⟩

/-- After a name, a code point that does not continue it is read as one between tokens. -/
theorem step_name {read : Text} {c : CodePoint} (h : continuesName c = false) (depth : Nat)
    (here last : Position) (before : List Event) :
    step ⟨.name read, depth, here, last, before⟩ c =
      step ⟨.between (.equals read.reverse), depth, here, last, before⟩ c := by
  simp only [step, h, Bool.false_eq_true, if_false]
  rfl

/-- Neither a gap nor the equals sign continues a name. -/
theorem exists_cons_of_gap {gap : Text} (h : Gap gap) :
    ∃ c rest, gap ++ [0x3D] = c :: rest ∧ continuesName c = false := by
  cases h with
  | nil => exact ⟨0x3D, [], rfl, rfl⟩
  | @blank c rest hc h => exact ⟨c, rest ++ [0x3D], rfl, (isBlank_of_mem hc).2⟩
  | @comment words rest hwords h => exact ⟨0x23, (words ++ 0x0A :: rest) ++ [0x3D], rfl, rfl⟩

/-- What stands between the name of an attribute and its value. -/
theorem leads_equals {gap : Text} (h : Gap gap) (name : Text) (depth : Nat) :
    Leads (.name name.reverse) depth (gap ++ [0x3D]) (.between (.value name)) depth [] := by
  have hbetween : Leads (.between (.equals name)) depth (gap ++ [0x3D]) (.between (.value name)) depth
      [] := (leads_gap h _ depth).skip (.skip_cons (fun here last before => ⟨_, here, rfl⟩) .nil)
  obtain ⟨c, rest, heq, hc⟩ := exists_cons_of_gap h
  rw [heq] at hbetween ⊢
  intro here last before
  obtain ⟨here', last', hleads⟩ := hbetween here last before
  refine ⟨here', last', ?_⟩
  rw [← hleads, List.foldlM_cons, List.foldlM_cons, step_name hc, List.reverse_reverse]

/-- A name that an attribute may have: letters, at least one. -/
def IsName (name : Text) : Prop := name ≠ [] ∧ ∀ c ∈ name, startsName c = true

/-- A letter that begins a name is read as one. -/
theorem step_startsName {c : CodePoint} (h : startsName c = true) (depth : Nat)
    (here last : Position) (before : List Event) :
    step ⟨.between .attributes, depth, here, last, before⟩ c =
      .ok ⟨.name [c], depth, here.after c, here, before⟩ := by
  have hne {d : CodePoint} (hd : startsName d = false) : c ≠ d := by
    rintro rfl
    rw [h] at hd
    cases hd
  have hblank : isBlank c = false := by
    simp [isBlank, hne (d := 0x20) rfl, hne (d := 0x09) rfl, hne (d := 0x0A) rfl,
      hne (d := 0x0C) rfl, hne (d := 0x0D) rfl]
  simp only [step, start, hblank, if_neg (hne (d := 0x23) rfl), hne (d := 0x28) rfl,
    hne (d := 0x29) rfl, if_neg (hne (d := quoteSign) rfl), h]
  simp

/-- Attributes give their events in order, whatever space stands between them. The names are plain
and the values have no line feed, so each attribute ends where its closing quotation mark stands. -/
theorem leads_attributes {attributes : List (Text × Text)} {t : Text} (h : AttributesLayout attributes t)
    (hnames : ∀ a ∈ attributes, IsName a.1) (hvalues : ∀ a ∈ attributes, 0x0A ∉ a.2) (depth : Nat) :
    Leads (.between .attributes) depth t (.between .attributes) depth
      (attributes.map fun (name, value) => .attribute_ name value) := by
  induction h with
  | nil => exact .nil
  | @cons name value before middle behind t rest hbefore hmiddle hbehind _ ih =>
    obtain ⟨hnil, hletters⟩ := hnames (name, value) (by simp)
    have hvalue : 0x0A ∉ value := hvalues (name, value) (by simp)
    have hrest := ih (fun a ha => hnames a (List.mem_cons_of_mem _ ha))
      (fun a ha => hvalues a (List.mem_cons_of_mem _ ha))
    have hname : Leads (.between .attributes) depth name (.name name.reverse) depth [] := by
      cases name with
      | nil => exact absurd rfl hnil
      | cons c name =>
        rw [List.reverse_cons]
        refine .skip_cons (fun here last before =>
          ⟨_, _, step_startsName (hletters c (by simp)) _ _ _ _⟩) ?_
        exact leads_name (fun d hd => hletters d (List.mem_cons_of_mem _ hd)) [c] depth
    refine (leads_gap hbefore _ depth).skip (hname.skip ?_)
    rw [List.append_cons]
    refine (leads_equals hmiddle name depth).skip ((leads_gap hbehind _ depth).skip ?_)
    exact (leads_value hvalue name depth).append hrest

/-! ### Nodes -/

theorem isName_of_mem_attributes {n : Node} {a : Text × Text} (h : a ∈ n.attributes) : IsName a.1 := by
  have hname {name : Text} (hne : name.isEmpty = false) (hall : name.all startsName = true) :
      IsName name := ⟨List.isEmpty_eq_false_iff.1 hne, List.all_eq_true.1 hall⟩
  obtain ⟨⟨name, value⟩, hmem, ha⟩ := List.mem_filterMap.1 h
  obtain ⟨v, -, rfl⟩ := Option.map_eq_some_iff.1 ha
  simp only [List.mem_cons, List.not_mem_nil, or_false, Prod.mk.injEq] at hmem
  rcases hmem with ⟨rfl, -⟩ | ⟨rfl, -⟩ | ⟨rfl, -⟩ | ⟨rfl, -⟩
  all_goals exact hname (by cbv) (by cbv)

/-- The numeral of a line marker has no line feed. -/
theorem notMem_ofInt (l : Int) : 0x0A ∉ Text.ofInt l := by
  have hnat (n : Nat) : 0x0A ∉ Text.ofNat n := by
    intro h
    have hrange := (Text.isDecimal_of_mem_ofNat h).range
    omega
  cases l with
  | ofNat n => exact hnat n
  | negSucc n =>
    unfold Text.ofInt
    rw [List.mem_cons, not_or]
    exact ⟨by decide, hnat (n + 1)⟩

/-- The attributes of a node without line feeds have none. -/
theorem notMem_of_mem_attributes {n : Node} (hn : n.IsOneLine) {a : Text × Text}
    (h : a ∈ n.attributes) : 0x0A ∉ a.2 := by
  obtain ⟨⟨name, value⟩, hmem, ha⟩ := List.mem_filterMap.1 h
  obtain ⟨v, hv, rfl⟩ := Option.map_eq_some_iff.1 ha
  have hvalue : value = n.line.map Text.ofInt ∨ value ∈ [n.base, n.name, n.data, n.text] := by
    simp only [List.mem_cons, List.not_mem_nil, or_false, Prod.mk.injEq] at hmem ⊢
    tauto
  rcases hvalue with rfl | hvalue
  · obtain ⟨l, -, rfl⟩ := Option.map_eq_some_iff.1 hv
    exact notMem_ofInt l
  · exact hn value hvalue v hv

/-- Inside a node its children and its end are expected, and maybe more. -/
def IsInner (next : Expectation) : Prop := next = .attributes ∨ next = .children

/-- The text of a node gives its event, if there is one. -/
theorem exists_leads_text {text : Option Text} {t : Text} (h : TextLayout text t)
    (hline : ∀ v ∈ text, 0x0A ∉ v) (depth : Nat) :
    ∃ next, IsInner next ∧ Leads (.between .attributes) depth t (.between next) depth
      (text.map Event.text).toList := by
  cases h with
  | none => exact ⟨.attributes, .inl rfl, .nil⟩
  | @some value before hbefore =>
    exact ⟨.children, .inr rfl, (leads_gap hbefore _ depth).skip (leads_quote (hline value rfl) depth)⟩

/-- The parenthesis at the end of a node. -/
theorem leads_closing {next : Expectation} (h : IsInner next) (depth : Nat) :
    Leads (.between next) (depth + 1) [0x29] (.between (afterNode depth)) depth [.closing] := by
  refine .cons [.closing] ?_ .nil
  intro here last before
  rcases h with rfl | rfl
  · exact ⟨_, here, rfl⟩
  · exact ⟨_, here, rfl⟩

/-- The parenthesis at the beginning of a node. -/
theorem step_opening {next : Expectation} (h : next = .root ∨ IsInner next) (depth : Nat)
    (here last : Position) (before : List Event) :
    step ⟨.between next, depth, here, last, before⟩ 0x28 =
      .ok ⟨.between .letter, depth + 1, here.after 0x28, here, .opening :: before⟩ := by
  rcases h with rfl | rfl | rfl
  · rfl
  · rfl
  · rfl

mutual

/-- A layout of a node gives the events of the node. -/
theorem exists_leads_node {n : Node} {t : Text} (h : n.HasLayout t) (hn : n.All Node.IsOneLine)
    {next : Expectation} (hnext : next = .root ∨ IsInner next) (depth : Nat) :
    ∃ events, n.IsToldBy events ∧
      Leads (.between next) depth t (.between (afterNode depth)) depth events := by
  cases h with
  | @mk base name line data text children attributes before behind attributesText textText childrenText
      hbefore hperm hattributes htext hchildren hbehind =>
    obtain ⟨hline, hlines⟩ := hn
    obtain ⟨next', hnext', hleads⟩ := exists_leads_text htext
      (fun v hv => hline text (by simp) v hv) (depth + 1)
    obtain ⟨events, htold, next'', hnext'', hleads'⟩ :=
      exists_leads_nodes hchildren hlines hnext' depth
    refine ⟨_, .mk hperm htold, ?_⟩
    refine .cons [.opening] (fun here last before => ⟨_, _, step_opening hnext _ _ _ _⟩) ?_
    refine (leads_gap hbefore _ _).skip (.skip_cons (fun here last before => ⟨_, here, rfl⟩) ?_)
    refine (leads_attributes hattributes ?_ ?_ _).append (hleads.append (hleads'.append ?_))
    · intro a ha
      exact isName_of_mem_attributes (hperm.mem_iff.1 ha)
    · intro a ha
      exact notMem_of_mem_attributes hline (hperm.mem_iff.1 ha)
    · exact (leads_gap hbehind _ _).skip (leads_closing hnext'' depth)

/-- Layouts of nodes one after another give the events of the nodes. -/
theorem exists_leads_nodes {ns : List Node} {t : Text} (h : Node.AllHaveLayout ns t)
    (hns : ∀ n ∈ ns, n.All Node.IsOneLine) {next : Expectation} (hnext : IsInner next) (depth : Nat) :
    ∃ events, Node.AreToldBy ns events ∧ ∃ next', IsInner next' ∧
      Leads (.between next) (depth + 1) t (.between next') (depth + 1) events := by
  cases h with
  | nil => exact ⟨[], .nil, next, hnext, .nil⟩
  | @cons n ns before t ts hbefore hlayout hrest =>
    obtain ⟨events, htold, hleads⟩ :=
      exists_leads_node hlayout (hns n (by simp)) (.inr hnext) (depth + 1)
    obtain ⟨later, htold', next', hnext', hleads'⟩ :=
      exists_leads_nodes hrest (fun m hm => hns m (List.mem_cons_of_mem _ hm)) (.inr rfl) depth
    exact ⟨events ++ later, .cons htold htold', next', hnext',
      (leads_gap hbefore _ _).skip (hleads.append hleads')⟩

end

end Scan

/-- Scanning a text in which a tree is written gives the events of the tree. -/
theorem exists_scan_eq_ok {n : Node} {t : Text} (h : n.IsWrittenAs t) (hn : n.All Node.IsOneLine) :
    ∃ events, n.IsToldBy events ∧ scan t = .ok events := by
  obtain ⟨before, body, behind, hbefore, hbody, hbehind, rfl⟩ := h
  obtain ⟨events, htold, hleads⟩ := Scan.exists_leads_node hbody hn (.inl rfl) 0
  have hall := (Scan.leads_gap hbefore .root 0).skip (hleads.append (Scan.leads_gap hbehind _ 0))
  obtain ⟨here, last, hfold⟩ := hall ⟨1, 1⟩ ⟨1, 1⟩ []
  refine ⟨events, htold, ?_⟩
  unfold scan Scan.initial
  rw [hfold]
  show Except.ok (List.reverse _) = _
  simp

end ClassTree.Tree
