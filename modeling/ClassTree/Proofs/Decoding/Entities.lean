/-
# ClassTree.Proofs.Decoding.Entities — how much a class file has room for

Whatever a class file lists is counted in two bytes, and code is measured in four. Only the values of
annotations may nest, as deep as there are bytes. Each of them takes a byte at least of an attribute,
and the length of an attribute has four bytes. So what is read of one attribute is *paid for* by the
bytes that reading passes over (`Pays`), and all attributes of an entity together add no more than so
much (`weight_of_attributes`). The bounds of the members add up to that of the class, which is below
the greatest line marker that can be read again (`Class.entities_lt_of_ofBytes`).
-/
import ClassTree.Proofs.Decoding.Drawn
import ClassTree.Proofs.Decoding.Parts
import ClassTree.Proofs.Descriptor
import ClassTree.Proofs.Tree.Plain
import Mathlib.Algebra.Order.BigOperators.Group.List

namespace ClassTree

/-! ## Sums of parts -/

namespace ElementValue

theorem entitiesAll_eq (vs : List ElementValue) : entitiesAll vs = (vs.map entities).sum := by
  induction vs with
  | nil => rfl
  | cons v vs ih => rw [entitiesAll, ih, List.map_cons, List.sum_cons]

theorem entitiesNamed_eq (vs : List (Text × ElementValue)) :
    entitiesNamed vs = (vs.map fun p => 1 + p.2.entities).sum := by
  induction vs with
  | nil => rfl
  | cons v vs ih => rw [entitiesNamed, ih, List.map_cons, List.sum_cons]

end ElementValue

theorem AnnotationUse.entitiesAll_append (as more : List AnnotationUse) :
    entitiesAll (as ++ more) = entitiesAll as + entitiesAll more := by
  unfold entitiesAll
  rw [List.map_append, List.sum_append]

/-- Parts of which none weighs more than a bound weigh no more than the bound for each. -/
theorem sum_map_le {α : Type} {w : α → Nat} {bound : Nat} {as : List α} (h : ∀ a ∈ as, w a ≤ bound) :
    (as.map w).sum ≤ as.length * bound := by
  have hle := List.sum_le_card_nsmul (as.map w) bound (by simpa using h)
  rwa [List.length_map, nsmul_eq_mul] at hle

/-- A frame lists its types, and a call site its arguments, with counts of two bytes. -/
theorem Item.IsDrawn.entities_le {i : Item} (h : i.IsDrawn) : i.entities ≤ 2 ^ 18 := by
  cases i with
  | label l => exact Nat.zero_le _
  | line n => exact (by decide : 1 ≤ 2 ^ 18)
  | frame f =>
    have hlocals := h.locals.1
    have hstack := h.stack.1
    rw [Item.entities]
    omega
  | instruction i =>
    rw [Item.entities]
    unfold Instruction.entities
    split
    · have hcount := h.2.2.1
      omega
    · decide

/-- Labels are leaves, and no other item of a body has more parts than it can count. -/
theorem Item.sum_entities_le {body : List Item} (h : ∀ i ∈ body, i.IsDrawn) :
    (body.map Item.entities).sum ≤ 2 ^ 18 * ((body.filterMap Item.line?).length +
      (body.filterMap Item.frame?).length + (body.filterMap Item.instruction?).length) := by
  induction body with
  | nil => exact Nat.zero_le _
  | cons i body ih =>
    have hone := (h i List.mem_cons_self).entities_le
    have hrest := ih fun j hj => h j (List.mem_cons_of_mem _ hj)
    rw [List.map_cons, List.sum_cons]
    cases i with
    | label l =>
      have hlabel : (Item.label l).entities = 0 := rfl
      simp only [List.filterMap_cons, Item.line?, Item.frame?, Item.instruction?]
      omega
    | _ =>
      simp only [List.filterMap_cons, Item.line?, Item.frame?, Item.instruction?, List.length_cons]
      omega

namespace Decoding

open Decoder

variable {α β σ : Type} {t : Table}

/-! ## Parts that are paid for -/

/-- What a decoder gives weighs no more than the bytes that it passes over, and a credit. -/
def Pays (credit : Nat) (d : Decoder α) (w : α → Nat) : Prop :=
  ∀ c a c', d c = .ok (a, c') → w a + c'.rest.length ≤ credit + c.rest.length

namespace Pays

variable {d : Decoder α} {k : α → Decoder β} {credit more : Nat} {v : α → Nat} {w : β → Nat}

theorem pure {a : α} (h : v a ≤ credit) : Pays credit (Pure.pure a) v := by
  rintro c _ _ ⟨⟩
  exact Nat.add_le_add_right h _

theorem throw (e : Error) : Pays credit (MonadExcept.throw e) v := fun _ _ _ h => by cases h

theorem mono (h : Pays credit d v) (hle : credit ≤ more) : Pays more d v := by
  intro c a c' ha
  have := h c a c' ha
  omega

/-- What has been paid for is credit for what comes behind it. -/
theorem bind (h : Pays credit d v) (hk : ∀ a, Pays (more + v a) (k a) w) :
    Pays (more + credit) (d >>= k) w := by
  intro c b c' hb
  obtain ⟨a, middle, ha, hb⟩ := bind_eq_ok_iff.1 hb
  have hfirst := h c a middle ha
  have hsecond := hk a middle b c' hb
  omega

theorem bind_of (h : Pays 0 d v) (hk : ∀ a, Pays (credit + v a) (k a) w) : Pays credit (d >>= k) w :=
  bind h hk

theorem any_bind [Follows 0 d d] (hk : ∀ a, Pays credit (k a) w) : Pays credit (d >>= k) w := by
  refine bind_of (v := fun _ => 0) (fun c a c' h => ?_) hk
  obtain ⟨count, rfl⟩ := exists_skip d h
  simp [Cursor.skip]

theorem map (h : Pays 0 d v) {f : α → β} (hf : ∀ a, w (f a) ≤ credit + v a) :
    Pays credit (do return f (← d)) w := h.bind_of fun a => pure (hf a)

theorem any_map [Follows 0 d d] {f : α → β} (hf : ∀ a, w (f a) ≤ credit) :
    Pays credit (do return f (← d)) w := any_bind fun a => pure (hf a)

theorem ite {p : Prop} [Decidable p] {d' : Decoder α} (h : p → Pays credit d v)
    (h' : ¬ p → Pays credit d' v) : Pays credit (if p then d else d') v := by
  split
  · next hp => exact h hp
  · next hp => exact h' hp

theorem position_bind {k : Nat → Decoder β} (hk : ∀ n, Pays credit (k n) w) :
    Pays credit (position >>= k) w := fun c => hk c.position c

/-- How deep values may nest is found without passing over anything. -/
theorem nesting_bind {k : Nat → Decoder β} (hk : ∀ n, Pays credit (k n) w) :
    Pays credit (nesting >>= k) w := fun c => hk (c.rest.length + 1) c

theorem bytes (count : Nat) : Pays 0 (Decoder.bytes count) fun _ => count := by
  intro c a c' h
  unfold Decoder.bytes at h
  obtain ⟨_, _, hneed, hrest⟩ := bind_eq_ok_iff.1 h
  obtain ⟨hle, rfl⟩ := need_eq_ok hneed
  cases hrest
  simp only [Cursor.skip, List.length_drop]
  omega

theorem unsigned (width : Nat) : Pays 0 (Decoder.unsigned width) fun _ => width :=
  (bytes width).map fun _ => (Nat.zero_add width).ge

theorem byte : Pays 0 Decoder.byte fun _ => 1 := (unsigned 1).map fun _ => Nat.le_refl 1

theorem u2 : Pays 0 Decoder.u2 fun _ => 2 := unsigned 2

theorem listOf (h : Pays 0 d v) : Pays 0 (Decoder.listOf d) fun as => (as.map v).sum := by
  have honto (count : Nat) (acc : List α) :
      Pays (acc.map v).sum (timesOnto count d acc) fun as => (as.map v).sum := by
    induction count generalizing acc with
    | zero => exact pure (by rw [List.map_reverse, List.sum_reverse])
    | succ count ih =>
      refine h.bind_of fun a => ?_
      have hacc := ih (a :: acc)
      rwa [List.map_cons, List.sum_cons, Nat.add_comm] at hacc
  exact any_bind fun count => honto count []

/-- Each value of a list takes a byte. -/
theorem length_listOf (h : Pays 0 d fun _ => 1) : Pays 0 (Decoder.listOf d) List.length := by
  have hsum := h.listOf
  simp only [List.map_const', List.sum_replicate_nat, Nat.mul_one] at hsum
  exact hsum

/-- What is read of some bytes and nothing else weighs no more than they do. -/
theorem le_of_whole (h : Pays credit d v) {data : Bytes} {a : α}
    (hread : Outline.whole d data = .ok a) : v a ≤ credit + data.length := by
  obtain ⟨c, hc, hend⟩ := whole_eq_ok_iff.1 hread
  have hle := h _ a c hc
  rwa [hend] at hle

end Pays

/-! ## Annotations -/

theorem pays_readNamed {value : Decoder ElementValue} (h : Pays 0 value ElementValue.entities) :
    Pays 0 (readNamed t value) ElementValue.entitiesNamed := by
  -- a name takes two bytes, and has one node around it
  have hone : Pays 0 (do
      let name ← t.utf8 (← u2)
      return (name, ← value)) fun p => 1 + p.2.entities := by
    refine Pays.u2.bind_of fun i => .any_bind fun name => h.map fun v => ?_
    dsimp only
    omega
  have hall := hone.listOf
  simp only [← ElementValue.entitiesNamed_eq] at hall
  exact hall

/-- Each value takes the byte of its tag at least. -/
theorem pays_readElementWith (visible : Bool) (fuel : Nat) :
    Pays 0 (readElementWith t visible fuel) ElementValue.entities := by
  induction fuel with
  | zero => exact .position_bind fun _ => .throw _
  | succ fuel ih =>
    unfold readElementWith
    refine .position_bind fun start => Pays.byte.bind_of fun code => ?_
    split
    · exact .any_bind fun _ => .any_map fun _ => Nat.zero_le _
    · exact .any_bind fun _ => .any_map fun _ => Nat.zero_le _
    · exact .any_bind fun _ => .any_map fun _ => Nat.zero_le _
    · refine .ite (fun _ => ?_) fun _ => .ite (fun _ => ?_) fun _ => .ite (fun _ => ?_) fun _ =>
        .throw _
      · exact .any_bind fun _ => .any_bind fun _ => .any_bind fun _ => .any_map fun _ => Nat.le_refl 1
      · refine .any_bind fun _ => .any_bind fun _ => (pays_readNamed ih).map fun vs => ?_
        rw [ElementValue.entities]
      · refine ih.listOf.map fun vs => ?_
        rw [ElementValue.entities, ElementValue.entitiesAll_eq]

theorem pays_readElement (visible : Bool) : Pays 0 (readElement t visible) ElementValue.entities :=
  .nesting_bind fun fuel => pays_readElementWith visible fuel

theorem pays_readAnnotationUses (visible : Bool) :
    Pays 0 (readAnnotationUses t visible) AnnotationUse.entitiesAll := by
  have hone (fuel : Nat) : Pays 0 (readAnnotationUse t visible fuel) AnnotationUse.entities := by
    refine Pays.u2.bind_of fun i => .any_bind fun descriptor => ?_
    refine (pays_readNamed (pays_readElementWith visible fuel)).map fun vs => ?_
    unfold AnnotationUse.entities
    dsimp only
    omega
  exact .nesting_bind fun fuel => (hone fuel).listOf

/-! ## Attributes -/

/-- The attributes of an entity are counted in two bytes, and their lengths have four. -/
theorem finds_readAttributes : Finds (Outline.readAttributes t) fun as =>
    as.length < 0x10000 ∧ ∀ a ∈ as, a.data.length < 0x100000000 := by
  refine (Finds.attributes_counted (T := fun n (as : List Attribute) =>
    as.length = n ∧ ∀ a ∈ as, a.data.length < 0x100000000) ?_ ⟨rfl, by simp⟩).imp ?_
  · rintro name length n as - hlength ⟨hcount, has⟩
    refine (Finds.bytes length).map fun data hdata => ⟨by simp [hcount], ?_⟩
    exact List.forall_mem_append.2 ⟨has, List.forall_mem_singleton.2 (hdata ▸ hlength)⟩
  · rintro as ⟨n, hn, hcount, has⟩
    exact ⟨hcount ▸ hn, has⟩

/-- What has been read of an entity is weighed before and behind its attributes. If none of them adds
more than a bound, all of them together add no more than the bound as often as two bytes can count.
The attributes are found first and read afterwards, each by itself, so the bound is only asked for
what a whole attribute is read as. -/
theorem weight_of_attributes {read : Text → Nat → σ → Decoder σ} {w : σ → Nat} {bound : Nat}
    [hread : ∀ limit name length s, Follows limit (read name length s) (read name length s)]
    (hadds : ∀ (a : Attribute) s s', a.data.length < 0x100000000 →
      Outline.whole (read a.name a.data.length s) a.data = .ok s' → w s' ≤ w s + bound)
    {s s' : σ} {c c' : Cursor} (h : attributes t read s c = .ok (s', c')) :
    w s' ≤ w s + 0x10000 * bound := by
  obtain ⟨as, has, hall⟩ := exists_of_attributes hread h
  obtain ⟨-, hcount, hlengths⟩ := finds_readAttributes.of_eq_ok has
  have hsum : w s' ≤ w s + as.length * bound := by
    clear h has hcount
    induction as generalizing s with
    | nil =>
      cases hall
      exact Nat.le_add_right _ _
    | cons a as ih =>
      obtain ⟨s₁, hfirst, hrest⟩ := Result.bind_eq_ok_iff.1 hall
      have hone := hadds a s s₁ (hlengths a List.mem_cons_self) hfirst
      have hmore := ih hrest fun b hb => hlengths b (List.mem_cons_of_mem _ hb)
      rw [List.length_cons, Nat.succ_mul]
      omega
  have hle := Nat.mul_le_mul_right bound (Nat.le_of_lt hcount)
  omega

/-- An attribute whose content is paid for, itself aside, adds no more than its length can be. -/
theorem weight_of_pays {read : Text → Nat → σ → Decoder σ} {w : σ → Nat} {a : Attribute} {s s' : σ}
    (h : Pays (w s + 1) (read a.name a.data.length s) w) (hlength : a.data.length < 0x100000000)
    (hread : Outline.whole (read a.name a.data.length s) a.data = .ok s') :
    w s' ≤ w s + 0x100000000 := by
  have hle := h.le_of_whole hread
  omega

/-! ## Fields -/

theorem pays_readFieldAttribute (name : Text) (length : Nat) (f : Field) :
    Pays (f.entities + 1) (readFieldAttribute t name length f) Field.entities := by
  have hannotations (visible : Bool) : Pays (f.entities + 1) (do return { f with
      attributeOrder := f.attributeOrder ++ [name]
      annotations := f.annotations ++ (← readAnnotationUses t visible) }) Field.entities := by
    refine (pays_readAnnotationUses visible).map fun more => ?_
    unfold Field.entities
    rw [AnnotationUse.entitiesAll_append]
    dsimp only
    omega
  refine .ite (fun _ => ?_) fun _ => .ite (fun _ => ?_) fun _ => .ite (fun _ => hannotations true)
    fun _ => .ite (fun _ => hannotations false) fun _ => ?_
  · exact .any_bind fun _ => .any_map fun _ => Nat.le_succ _
  · exact .any_bind fun _ => .any_map fun _ => Nat.le_succ _
  · refine .any_map fun data => ?_
    unfold Field.entities
    rw [List.length_append, List.length_singleton]
    dsimp only
    omega

/-- A field has three parts and those of its attributes. -/
theorem entities_of_readField {f : Field} {c c' : Cursor} (h : readField t c = .ok (f, c')) :
    f.entities ≤ 2 ^ 49 := by
  obtain ⟨access, c₁, -, h⟩ := bind_eq_ok_iff.1 h
  obtain ⟨i, c₂, -, h⟩ := bind_eq_ok_iff.1 h
  obtain ⟨name, c₃, -, h⟩ := bind_eq_ok_iff.1 h
  obtain ⟨j, c₄, -, h⟩ := bind_eq_ok_iff.1 h
  obtain ⟨descriptor, c₅, -, h⟩ := bind_eq_ok_iff.1 h
  have hle := weight_of_attributes (w := Field.entities) (fun a f f' =>
    weight_of_pays (pays_readFieldAttribute a.name a.data.length f)) h
  have hhead : Field.entities { access, name, descriptor } = 3 := rfl
  omega

/-! ## Code -/

/-- How many variables the tables of a code attribute list. -/
def CodeTables.variables (tables : CodeTables) : Nat :=
  tables.described.length + tables.signatures.length

/-- A signature that takes the place of another one adds nothing. -/
theorem length_foldl_putSignature_le (vs signatures : List RawVariable) :
    (vs.foldl putSignature signatures).length ≤ signatures.length + vs.length := by
  induction vs generalizing signatures with
  | nil => exact Nat.le_refl _
  | cons v vs ih =>
    have hput : (putSignature signatures v).length ≤ signatures.length + 1 := by
      unfold putSignature
      split <;> simp
    have hle := ih (putSignature signatures v)
    rw [List.foldl_cons, List.length_cons]
    omega

/-- No variable is listed that is in none of the tables. -/
theorem length_joinVariables_le (described signatures : List RawVariable) :
    (joinVariables described signatures).length ≤ described.length + signatures.length := by
  induction described generalizing signatures with
  | nil => simp [joinVariables]
  | cons v described ih =>
    have htaken : (takeSignature signatures v).2.length ≤ signatures.length := by
      unfold takeSignature
      split
      · exact List.length_filter_le _ _
      · exact Nat.le_refl _
    have hle := ih (takeSignature signatures v).2
    rw [joinVariables, List.length_cons, List.length_cons]
    omega

theorem pays_readCodeAttribute (name : Text) (length : Nat) (tables : CodeTables) :
    Pays (tables.variables + 1) (readCodeAttribute t name length tables) CodeTables.variables := by
  have hone : Pays 0 (readVariable t) fun _ => 1 :=
    Pays.u2.bind_of fun _ => .any_bind fun _ => .any_bind fun _ => .any_bind fun _ => .any_bind fun _ =>
      .any_bind fun _ => .any_map fun _ => by decide
  refine .ite (fun _ => ?_) fun _ => .ite (fun _ => ?_) fun _ => .ite (fun _ => ?_) fun _ =>
    .ite (fun _ => ?_) fun _ => ?_
  · exact .any_map fun _ => Nat.le_succ _
  · refine hone.length_listOf.map fun more => ?_
    unfold CodeTables.variables
    rw [List.length_append]
    dsimp only
    omega
  · refine hone.length_listOf.map fun more => ?_
    have hle := length_foldl_putSignature_le more tables.signatures
    unfold CodeTables.variables
    dsimp only
    omega
  · exact .any_map fun _ => Nat.le_succ _
  · exact .any_map fun _ => Nat.le_succ _

/-- The length of code has four bytes, and what its attributes list of local variables is paid for. -/
theorem room_of_readRawCode {r : RawCode} {c c' : Cursor} (h : readRawCode t c = .ok (r, c')) :
    r.length < 0x100000000 ∧ r.tables.variables ≤ 2 ^ 48 := by
  obtain ⟨-, hlength, -, -, -, c₁, -, htables⟩ := (readRawCode_eq_ok_iff t).1 h
  refine ⟨(Finds.u4.of_eq_ok hlength).2, ?_⟩
  have hle := weight_of_attributes (fun a tables tables' =>
    weight_of_pays (pays_readCodeAttribute a.name a.data.length tables)) htables
  have hnone : CodeTables.variables {} = 0 := rfl
  rw [hnone] at hle
  exact hle.trans (by decide)

/-- Offsets that grow and stay below a length are no more than that. -/
theorem InOrder.length_le {length : Nat} {code : List (Nat × Instruction Int)}
    (h : InOrder length code) : code.length ≤ length := by
  have hnodup : (code.map Prod.fst).Nodup := h.increasing.imp Nat.ne_of_lt
  have hsubset : code.map Prod.fst ⊆ List.range length := by
    intro offset hoffset
    obtain ⟨p, hp, rfl⟩ := List.mem_map.1 hoffset
    exact List.mem_range.2 (h.inside p hp)
  have hle := (List.subperm_of_subset hnodup hsubset).length_le
  rwa [List.length_map, List.length_range] at hle

/-- How many parts a method has of its code. -/
def Code.entities (code : Code) : Nat :=
  (code.body.map Item.entities).sum + code.handlers.length + code.localVariables.length
    + code.attributes.length

namespace RawCode

variable {r : RawCode} {seen : List (Int × Label)} {l : LabelledCode} {code : Code}

/-- Besides labels, nothing is woven into a body but the entries of the line tables, the frames and the
instructions. The tables and the frames are counted in two bytes, and each instruction takes a byte of
the code. -/
theorem Assembles.entities_le (h : r.Assembles seen l code) (hr : r.IsSound) (hdrawn : r.IsDrawn)
    (hlength : r.length < 0x100000000) (hvariables : r.tables.variables ≤ 2 ^ 48) :
    code.entities ≤ 2 ^ 52 := by
  have hcount := hdrawn.count
  unfold CodeTables.count at hcount
  have hlines : (code.body.filterMap Item.line?).length ≤ 2 ^ 32 := by
    rw [h.body, ← length_entries, (h.entries_perm hr.inOrder).length_eq, List.length_range,
      List.length_flatten]
    have hsum := sum_map_le fun table htable => Nat.le_of_lt (hdrawn.tables.lines table htable)
    omega
  have hframes : (code.body.filterMap Item.frame?).length < 0x10000 := by
    rw [← length_ownFrames]
    exact (h.length_ownFrames_le hr.inOrder).trans_lt hdrawn.tables.frames.1
  have hinstructions : (code.body.filterMap Item.instruction?).length < 0x100000000 := by
    rw [h.body, filterMap_instruction_body r _ h.labelled.instructions.length_eq,
      ← h.labelled.instructions.length_eq]
    exact hr.inOrder.length_le.trans_lt hlength
  have hbody := Item.sum_entities_le fun i hi => h.item_isDrawn hr hdrawn hi
  have hhandlers : code.handlers.length < 0x10000 := by
    rw [h.handlers, ← h.labelled.handlers.length_eq]
    exact hdrawn.handlers.1
  have hlocals : code.localVariables.length ≤ 2 ^ 48 := by
    rw [h.localVariables, ← h.labelled.locals.length_eq]
    exact (length_joinVariables_le _ _).trans hvariables
  have hattributes : code.attributes.length < 0x10000 := by
    rw [h.attributes]
    omega
  unfold Code.entities
  omega

end RawCode

/-! ## Methods -/

/-- What is read on for parameters is paid for if it is for each of them. -/
theorem pays_readParametersOnto {read : Parameter → Decoder Parameter}
    (hread : ∀ p, Pays p.entities (read p) Parameter.entities) (ps : List Parameter) :
    Pays (ps.map Parameter.entities).sum (readParametersOnto read ps []) fun qs =>
      (qs.map Parameter.entities).sum := by
  have honto (acc : List Parameter) :
      Pays ((ps.map Parameter.entities).sum + (acc.map Parameter.entities).sum)
        (readParametersOnto read ps acc) fun qs => (qs.map Parameter.entities).sum := by
    induction ps generalizing acc with
    | nil => exact .pure (by rw [List.map_reverse, List.sum_reverse]; exact Nat.le_add_left _ _)
    | cons p ps ih =>
      rw [List.map_cons, List.sum_cons, Nat.add_assoc, Nat.add_comm]
      refine (hread p).bind fun q => ?_
      have hrest := ih (q :: acc)
      rwa [List.map_cons, List.sum_cons, Nat.add_left_comm, Nat.add_comm] at hrest
  have hall := honto []
  rwa [List.map_nil, List.sum_nil, Nat.add_zero] at hall

/-- Some of the parameters of a method are read on, and stand where they stood. -/
theorem pays_readParametersOnto_bind {read : Parameter → Decoder Parameter}
    (hread : ∀ p, Pays p.entities (read p) Parameter.entities) {m : Method} {ps : List Parameter}
    {f : List Parameter → List Parameter} (hf : f ps = m.parameters)
    (hsum : ∃ n, ∀ qs, ((f qs).map Parameter.entities).sum = n + (qs.map Parameter.entities).sum)
    {k : List Parameter → Decoder Method}
    (hk : ∀ qs, Pays (Method.entities { m with parameters := f qs }) (k qs) Method.entities) :
    Pays m.entities (readParametersOnto read ps [] >>= k) Method.entities := by
  obtain ⟨n, hsum⟩ := hsum
  -- what is paid for the parameters that are read on is credit for the whole method
  have hsplit (qs : List Parameter) : Method.entities { m with parameters := f qs } =
      Method.entities { m with parameters := [] } + n + (qs.map Parameter.entities).sum := by
    unfold Method.entities
    dsimp only
    rw [hsum, List.map_nil, List.sum_nil]
    omega
  have hm := hsplit ps
  rw [hf] at hm
  refine Pays.mono ((pays_readParametersOnto hread ps).bind fun qs => ?_) (Nat.le_of_eq hm.symm)
  rw [← hsplit]
  exact hk qs

theorem pays_readParameterAnnotations (visible : Bool) (m : Method) :
    Pays m.entities (readParameterAnnotations t visible m) Method.entities := by
  unfold readParameterAnnotations
  refine .any_bind fun count => pays_readParametersOnto_bind (fun p => ?_) (List.take_append_drop _ _)
    ⟨_, fun qs => by rw [List.map_append, List.sum_append]⟩ fun qs => ?_
  · refine (pays_readAnnotationUses visible).map fun more => ?_
    unfold Parameter.entities
    rw [AnnotationUse.entitiesAll_append]
    omega
  · exact .ite (fun _ => .pure (Nat.le_refl _)) fun _ =>
      .ite (fun _ => .pure (Nat.le_refl _)) fun _ => .pure (Nat.le_refl _)

/-- Names and flags are no parts of their own. -/
theorem pays_readMethodParameters (m : Method) :
    Pays m.entities (readMethodParameters t m) Method.entities := by
  unfold readMethodParameters
  refine .any_bind fun count => pays_readParametersOnto_bind
    (f := fun qs => qs ++ m.parameters.drop count) (fun p => ?_) (List.take_append_drop _ _)
    ⟨_, fun qs => by rw [List.map_append, List.sum_append, Nat.add_comm]⟩ fun qs => ?_
  · exact .any_bind fun _ => .any_bind fun _ => .any_map fun _ => Nat.le_refl _
  · exact .ite (fun _ => .pure (Nat.le_refl _)) fun _ => .pure (Nat.le_refl _)

theorem pays_readMethodAttribute {name : Text} (hname : name ≠ AttributeName.code) (length : Nat)
    (m : Method) : Pays (m.entities + 1) (readMethodAttribute t name length m) Method.entities := by
  have hannotations (m : Method) (visible : Bool) : Pays (m.entities + 1) (do return { m with
      annotations := m.annotations ++ (← readAnnotationUses t visible) }) Method.entities := by
    refine (pays_readAnnotationUses visible).map fun more => ?_
    unfold Method.entities
    rw [AnnotationUse.entitiesAll_append]
    dsimp only
    omega
  refine .ite (fun hcode => absurd hcode hname) fun _ => .ite (fun _ => ?_) fun _ =>
    .ite (fun _ => ?_) fun _ => .ite (fun _ => hannotations _ true) fun _ =>
    .ite (fun _ => hannotations _ false) fun _ =>
    .ite (fun _ => (pays_readParameterAnnotations true _).mono (Nat.le_succ _)) fun _ =>
    .ite (fun _ => (pays_readParameterAnnotations false _).mono (Nat.le_succ _)) fun _ =>
    .ite (fun _ => ?_) fun _ =>
    .ite (fun _ => (pays_readMethodParameters _).mono (Nat.le_succ _)) fun _ => ?_
  · exact .any_map fun _ => Nat.le_succ _
  · exact .any_bind fun _ => .any_map fun _ => Nat.le_succ _
  · refine (pays_readElement true).map fun v => ?_
    unfold Method.entities
    simp only [Option.map_some, Option.getD_some]
    omega
  · refine .any_map fun data => ?_
    unfold Method.entities
    simp only [List.length_append, List.length_singleton]
    omega

/-- Code takes the place of what code a method had before, so it adds no more than it has itself. -/
theorem entities_of_readMethodCode (ht : t.IsDrawn) {m m' : Method} {data : Bytes}
    (h : Outline.whole (readMethodCode t m) data = .ok m') : m'.entities ≤ m.entities + 2 ^ 52 := by
  obtain ⟨r, code, c, hr, hassemble, rfl⟩ := exists_of_readMethodCode h
  obtain ⟨c', hread, -⟩ := whole_eq_ok_iff.1 hr
  obtain ⟨-, hsound⟩ := (finds_readRawCode ht.isReadable).of_eq_ok hread
  obtain ⟨-, hdrawn⟩ := (finds_drawn_readRawCode ht).of_eq_ok hread
  obtain ⟨hlength, hvariables⟩ := room_of_readRawCode hread
  obtain ⟨-, seen, l, hcode⟩ := (r.finds_assemble _).of_eq_ok hassemble
  have hle := hcode.entities_le hsound hdrawn hlength hvariables
  unfold Code.entities at hle
  unfold Method.entities
  dsimp only
  omega

theorem entities_of_readMethodAttribute (ht : t.IsDrawn) {a : Attribute} {m m' : Method}
    (hlength : a.data.length < 0x100000000)
    (h : Outline.whole (readMethodAttribute t a.name a.data.length m) a.data = .ok m') :
    m'.entities ≤ m.entities + 2 ^ 52 := by
  by_cases hname : a.name = AttributeName.code
  · unfold readMethodAttribute at h
    rw [if_pos hname] at h
    have hle := entities_of_readMethodCode ht h
    exact hle
  · have hle := weight_of_pays (pays_readMethodAttribute hname a.data.length m) hlength h
    omega

/-- A method has a part for each of its parameters, which are no more than the characters of its
descriptor, and those of its attributes. -/
theorem entities_of_readMethod (ht : t.IsDrawn) {m : Method} {c c' : Cursor}
    (h : readMethod t c = .ok (m, c')) : m.entities ≤ 2 ^ 69 := by
  obtain ⟨access, c₁, -, h⟩ := bind_eq_ok_iff.1 h
  obtain ⟨i, c₂, -, h⟩ := bind_eq_ok_iff.1 h
  obtain ⟨name, c₃, -, h⟩ := bind_eq_ok_iff.1 h
  obtain ⟨j, c₄, -, h⟩ := bind_eq_ok_iff.1 h
  obtain ⟨descriptor, c₅, hdescriptor, h⟩ := bind_eq_ok_iff.1 h
  cases htypes : Descriptor.arguments descriptor with
  | ok types =>
    rw [htypes] at h
    have hle := weight_of_attributes (fun _ _ _ => entities_of_readMethodAttribute ht) h
    -- the descriptor comes from the pool, where its length has two bytes
    have hcount : types.length < 0x10000 := by
      have hstorable := ((Finds.storable ht.isReadable j).of_eq_ok hdescriptor).2.length_lt
      have hlength := ModifiedUtf8.length_le_length_encode descriptor
      have harguments := Descriptor.length_le_of_arguments htypes
      omega
    have hparameters : ((parametersOf types).map Parameter.entities).sum ≤ types.length * 2 := by
      have hbare : ∀ p ∈ parametersOf types, p.entities ≤ 2 := by
        intro p hp
        obtain ⟨⟨type, index⟩, -, rfl⟩ := List.mem_map.1 hp
        exact Nat.le_refl 2
      simpa [parametersOf] using sum_map_le hbare
    have hhead : Method.entities { access, name, descriptor, parameters := parametersOf types } =
        11 + ((parametersOf types).map Parameter.entities).sum := rfl
    omega
  | error e =>
    rw [htypes] at h
    cases e with
    | undefined cause => cases cause <;> cases h
    | _ => cases h

/-! ## Classes -/

theorem pays_readClassAttribute (name : Text) (length : Nat) (c : Class) :
    Pays (c.entities + 1) (readClassAttribute t name length c) Class.entities := by
  have hannotations (c : Class) (visible : Bool) : Pays (c.entities + 1) (do return { c with
      annotations := c.annotations ++ (← readAnnotationUses t visible) }) Class.entities := by
    refine (pays_readAnnotationUses visible).map fun more => ?_
    unfold Class.entities
    rw [AnnotationUse.entitiesAll_append]
    dsimp only
    omega
  have hinner : Pays 0 (readInnerClass t) fun _ => 1 :=
    Pays.u2.bind_of fun _ => .any_bind fun _ => .any_bind fun _ => .any_bind fun _ => .any_bind fun _ =>
      .any_bind fun _ => .any_map fun _ => by decide
  refine .ite (fun _ => ?_) fun _ => .ite (fun _ => ?_) fun _ => .ite (fun _ => hannotations _ true)
    fun _ => .ite (fun _ => hannotations _ false) fun _ => .ite (fun _ => ?_) fun _ =>
    .ite (fun _ => ?_) fun _ => .ite (fun _ => ?_) fun _ => ?_
  · exact .any_bind fun _ => .any_map fun _ => Nat.le_succ _
  · exact .any_bind fun _ => .any_map fun _ => Nat.le_succ _
  · refine hinner.length_listOf.map fun more => ?_
    unfold Class.entities
    simp only [List.length_append]
    omega
  · exact .any_map fun _ => Nat.le_succ _
  · exact .any_bind fun _ => .pure (Nat.le_succ _)
  · refine .any_map fun data => ?_
    unfold Class.entities
    simp only [List.length_append, List.length_singleton]
    omega

/-- A class file has fewer fields, methods and attributes of the class than two bytes can count, and
none of them has more parts than its bound. -/
theorem entities_of_readClassFile {k : Class} {c c' : Cursor} (h : readClassFile c = .ok (k, c')) :
    k.entities ≤ 2 ^ 86 := by
  obtain ⟨version, c₁, -, h⟩ := bind_eq_ok_iff.1 h
  obtain ⟨t, c₂, htable, h⟩ := bind_eq_ok_iff.1 h
  obtain ⟨-, ht⟩ := finds_drawn_readTable.of_eq_ok htable
  obtain ⟨access, c₃, -, h⟩ := bind_eq_ok_iff.1 h
  obtain ⟨name, c₄, -, h⟩ := bind_eq_ok_iff.1 h
  obtain ⟨i, c₅, -, h⟩ := bind_eq_ok_iff.1 h
  obtain ⟨super, c₆, -, h⟩ := bind_eq_ok_iff.1 h
  obtain ⟨interfaces, c₇, -, h⟩ := bind_eq_ok_iff.1 h
  obtain ⟨fields, c₈, hfields, h⟩ := bind_eq_ok_iff.1 h
  obtain ⟨methods, c₉, hmethods, h⟩ := bind_eq_ok_iff.1 h
  obtain ⟨read, c₁₀, hattributes, h⟩ := bind_eq_ok_iff.1 h
  obtain ⟨here, c₁₁, -, h⟩ := bind_eq_ok_iff.1 h
  obtain rfl : read = k := by
    split at h
    · cases h
      rfl
    · obtain ⟨_, _, ⟨⟩, -⟩ := bind_eq_ok_iff.1 h
  have hfields := ((Finds.listOf ((finds_drawn_readField ht.isReadable).and
    fun _ _ _ => entities_of_readField)).of_eq_ok hfields).2
  have hmethods := ((Finds.listOf ((finds_drawn_readMethod ht).and
    fun _ _ _ => entities_of_readMethod ht)).of_eq_ok hmethods).2
  have hfieldSum := sum_map_le fun f hf => (hfields.2 f hf).2
  have hmethodSum := sum_map_le fun m hm => (hmethods.2 m hm).2
  have hle := weight_of_attributes (fun a c c' =>
    weight_of_pays (pays_readClassAttribute a.name a.data.length c)) hattributes
  have hhead : Class.entities
      { name, access, major := version.1, minor := version.2, super, interfaces, fields, methods
        layout := { pool := t.entries.toList, bootstrap := t.bootstrap.toList } } =
      7 + (fields.map Field.entities).sum + (methods.map Method.entities).sum := rfl
  omega

end Decoding

/-- A class that has been read has so few parts that each number up to theirs has a numeral that can be
read again. The line markers of its tree are such numbers. -/
theorem Class.entities_lt_of_ofBytes {bytes : Bytes} {c : Class} (h : ofBytes bytes = .ok c) :
    c.entities < 10 ^ Text.maxNumeralLength := by
  have hle : c.entities ≤ 2 ^ 86 := by
    unfold ofBytes StateT.run at h
    split at h
    · next found stop hrun =>
      cases h
      exact Decoding.entities_of_readClassFile hrun
    · cases h
  calc c.entities ≤ 2 ^ 86 := hle
    _ < 10 ^ 26 := by decide
    _ ≤ 10 ^ Text.maxNumeralLength := Nat.pow_le_pow_right (by decide) (by decide)

end ClassTree
