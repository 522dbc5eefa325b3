/-
# ClassTree.Proofs.Decoding.Raw — attributes that are kept as their bytes

Which attributes of an entity are taken apart is decided by their names alone. An attribute of any
other name is kept as its bytes, whatever they are. Such a name is whole where it has been read of a
class file, so it is written as it is; and attributes of code are read with the code, never without
it.
-/
import ClassTree.Decoding.ClassFile
import ClassTree.Proofs.Decoding.Total
import ClassTree.Proofs.Text.ModifiedUtf8

namespace ClassTree

open Decoding Decoder

namespace AttributeName

/-- The attributes of a class that are taken apart. -/
def ofClass : List Text :=
  [signature, sourceFile, annotations true, annotations false, innerClasses, enclosingMethod,
    bootstrapMethods]

/-- The attributes of a field that are taken apart. -/
def ofField : List Text := [constantValue, signature, annotations true, annotations false]

/-- The attributes of a method that are taken apart. -/
def ofMethod : List Text :=
  [code, exceptions, signature, annotations true, annotations false, parameterAnnotations true,
    parameterAnnotations false, annotationDefault, methodParameters]

/-- The attributes of code that are taken apart. -/
def ofCode : List Text := [lineNumbers, localVariables, localVariableTypes, stackMap]

/-! All of these names are plain, and so they are stored as they are. -/

open ModifiedUtf8 (IsPlain isPlain_ofString)

theorem isPlain_annotations (visible : Bool) : IsPlain (annotations visible) := by
  cases visible <;> exact isPlain_ofString (by decide)

theorem isPlain_parameterAnnotations (visible : Bool) : IsPlain (parameterAnnotations visible) := by
  cases visible <;> exact isPlain_ofString (by decide)

theorem isPlain_of_mem {name : Text} (h : name ∈ ofClass ++ ofField ++ ofMethod ++ ofCode) :
    IsPlain name := by
  simp only [ofClass, ofField, ofMethod, ofCode, List.mem_append, List.mem_cons, List.not_mem_nil,
    or_false, or_assoc] at h
  rcases h with rfl | rfl | rfl | rfl | rfl | rfl | rfl | rfl | rfl | rfl | rfl | rfl | rfl | rfl |
    rfl | rfl | rfl | rfl | rfl | rfl | rfl | rfl | rfl | rfl <;>
  first
  | with_reducible exact isPlain_annotations _
  | with_reducible exact isPlain_parameterAnnotations _
  | exact isPlain_ofString (by decide)

end AttributeName

/-! ## Noting an attribute -/

/-- The field with the name of one more attribute. -/
def Field.noting (f : Field) (name : Text) : Field :=
  { f with attributeOrder := f.attributeOrder ++ [name] }

/-- The method with the name of one more attribute. -/
def Method.noting (m : Method) (name : Text) : Method :=
  { m with layout := { m.layout with attributeOrder := m.layout.attributeOrder ++ [name] } }

/-- The class with the name of one more attribute. -/
def Class.noting (c : Class) (name : Text) : Class :=
  { c with layout := { c.layout with attributeOrder := c.layout.attributeOrder ++ [name] } }

/-- The tables with the name of one more attribute. -/
def Decoding.CodeTables.noting (tables : CodeTables) (name : Text) : CodeTables :=
  { tables with order := tables.order ++ [name] }

namespace Decoding

/-! ## Tables of readers -/

section Dispatch

variable {σ : Type} {rows : List (Text × Decoder σ)} {keep : Decoder σ} {name : Text}

/-- Reads what a table lists under a name, and keeps what has any other name. -/
def dispatch (rows : List (Text × Decoder σ)) (keep : Decoder σ) (name : Text) : Decoder σ :=
  (rows.lookup name).getD keep

/-- A table is gone through from its first row on, as a chain of comparisons is. -/
theorem dispatch_cons (key : Text) (read : Decoder σ) :
    dispatch ((key, read) :: rows) keep name = if name = key then read else dispatch rows keep name := by
  unfold dispatch
  rw [List.lookup_cons]
  by_cases h : name = key
  · rw [if_pos h, beq_iff_eq.2 h]
    rfl
  · rw [if_neg h, beq_eq_false_iff_ne.2 h]

/-- What a row of the table lists is read under its name. -/
theorem dispatch_of_lookup {read : Decoder σ} (h : rows.lookup name = some read) :
    dispatch rows keep name = read := by
  unfold dispatch
  rw [h]
  rfl

theorem dispatch_of_notMem (h : name ∉ rows.map Prod.fst) : dispatch rows keep name = keep := by
  induction rows with
  | nil => rfl
  | cons row rows ih =>
    obtain ⟨hhead, htail⟩ := not_or.1 (mt List.mem_cons.2 h)
    rw [dispatch_cons, if_neg hhead, ih htail]

end Dispatch

section Readers

variable (t : Table) (length : Nat)

/-- The readers of the attributes of a field. -/
def fieldReaders (f : Field) : List (Text × Decoder Field) :=
  [(AttributeName.constantValue, do return { f with value := some (← t.constant (← u2)).2 }),
    (AttributeName.signature, do return { f with signature := some (← t.utf8 (← u2)) }),
    (AttributeName.annotations true, do
      return { f with annotations := f.annotations ++ (← readAnnotationUses t true) }),
    (AttributeName.annotations false, do
      return { f with annotations := f.annotations ++ (← readAnnotationUses t false) })]

/-- The readers of the attributes of a method. -/
def methodReaders (m : Method) : List (Text × Decoder Method) :=
  [(AttributeName.code, readMethodCode t m),
    (AttributeName.exceptions, do return { m with exceptions := ← listOf do t.className (← u2) }),
    (AttributeName.signature, do return { m with signature := some (← t.utf8 (← u2)) }),
    (AttributeName.annotations true, do
      return { m with annotations := m.annotations ++ (← readAnnotationUses t true) }),
    (AttributeName.annotations false, do
      return { m with annotations := m.annotations ++ (← readAnnotationUses t false) }),
    (AttributeName.parameterAnnotations true, readParameterAnnotations t true m),
    (AttributeName.parameterAnnotations false, readParameterAnnotations t false m),
    (AttributeName.annotationDefault, do return { m with default := some (← readElement t true) }),
    (AttributeName.methodParameters, readMethodParameters t m)]

/-- The readers of the attributes of a class. The bootstrap table has been read already. -/
def classReaders (c : Class) : List (Text × Decoder Class) :=
  [(AttributeName.signature, do return { c with signature := some (← t.utf8 (← u2)) }),
    (AttributeName.sourceFile, do return { c with sourceFile := some (← t.utf8 (← u2)) }),
    (AttributeName.annotations true, do
      return { c with annotations := c.annotations ++ (← readAnnotationUses t true) }),
    (AttributeName.annotations false, do
      return { c with annotations := c.annotations ++ (← readAnnotationUses t false) }),
    (AttributeName.innerClasses, do
      return { c with innerClasses := c.innerClasses ++ (← listOf (readInnerClass t)) }),
    (AttributeName.enclosingMethod, do return { c with enclosing := some (← readEnclosingMethod t) }),
    (AttributeName.bootstrapMethods, do
      skip length
      return c)]

/-- The readers of the attributes of code. -/
def codeReaders (tables : CodeTables) : List (Text × Decoder CodeTables) :=
  [(AttributeName.lineNumbers, do return { tables with lines := tables.lines ++ [← listOf readLine] }),
    (AttributeName.localVariables, do
      return { tables with described := tables.described ++ (← listOf (readVariable t)) }),
    (AttributeName.localVariableTypes, do
      return { tables with
        signatures := (← listOf (readVariable t)).foldl putSignature tables.signatures }),
    (AttributeName.stackMap, do return { tables with frames := ← readStackMap t })]

variable {t} (name : Text)

/-- The reader of the attributes of a field goes by its table. -/
theorem readFieldAttribute_eq (f : Field) :
    readFieldAttribute t name length f = dispatch (fieldReaders t (f.noting name))
      (do return { f.noting name with attributes := f.attributes ++ [⟨name, ← bytes length⟩] }) name := by
  unfold fieldReaders
  simp only [dispatch_cons]
  rfl

/-- The reader of the attributes of a method goes by its table. -/
theorem readMethodAttribute_eq (m : Method) :
    readMethodAttribute t name length m = dispatch (methodReaders t (m.noting name))
      (do return { m.noting name with attributes := m.attributes ++ [⟨name, ← bytes length⟩] }) name := by
  unfold methodReaders
  simp only [dispatch_cons]
  rfl

/-- The reader of the attributes of a class goes by its table. -/
theorem readClassAttribute_eq (c : Class) :
    readClassAttribute t name length c = dispatch (classReaders t length (c.noting name))
      (do return { c.noting name with attributes := c.attributes ++ [⟨name, ← bytes length⟩] }) name := by
  unfold classReaders
  simp only [dispatch_cons]
  rfl

/-- The reader of the attributes of code goes by its table. -/
theorem readCodeAttribute_eq (tables : CodeTables) :
    readCodeAttribute t name length tables = dispatch (codeReaders t (tables.noting name))
      (do return { tables.noting name with attributes := tables.attributes ++ [⟨name, ← bytes length⟩] })
      name := by
  unfold codeReaders
  simp only [dispatch_cons]
  rfl

theorem readFieldAttribute_of_lookup (f : Field) {read : Decoder Field}
    (h : (fieldReaders t (f.noting name)).lookup name = some read) :
    readFieldAttribute t name length f = read :=
  (readFieldAttribute_eq length name f).trans (dispatch_of_lookup h)

theorem readMethodAttribute_of_lookup (m : Method) {read : Decoder Method}
    (h : (methodReaders t (m.noting name)).lookup name = some read) :
    readMethodAttribute t name length m = read :=
  (readMethodAttribute_eq length name m).trans (dispatch_of_lookup h)

theorem readClassAttribute_of_lookup (c : Class) {read : Decoder Class}
    (h : (classReaders t length (c.noting name)).lookup name = some read) :
    readClassAttribute t name length c = read :=
  (readClassAttribute_eq length name c).trans (dispatch_of_lookup h)

theorem readCodeAttribute_of_lookup (tables : CodeTables) {read : Decoder CodeTables}
    (h : (codeReaders t (tables.noting name)).lookup name = some read) :
    readCodeAttribute t name length tables = read :=
  (readCodeAttribute_eq length name tables).trans (dispatch_of_lookup h)

/-! Both attributes of annotations have a row in each of the tables. -/

theorem lookup_annotations_fieldReaders (f : Field) (visible : Bool) :
    (fieldReaders t f).lookup (AttributeName.annotations visible) = some (do
      return { f with annotations := f.annotations ++ (← readAnnotationUses t visible) }) := by
  cases visible <;> rfl

theorem lookup_annotations_methodReaders (m : Method) (visible : Bool) :
    (methodReaders t m).lookup (AttributeName.annotations visible) = some (do
      return { m with annotations := m.annotations ++ (← readAnnotationUses t visible) }) := by
  cases visible <;> rfl

theorem lookup_annotations_classReaders (c : Class) (visible : Bool) :
    (classReaders t length c).lookup (AttributeName.annotations visible) = some (do
      return { c with annotations := c.annotations ++ (← readAnnotationUses t visible) }) := by
  cases visible <;> rfl

theorem lookup_parameterAnnotations (m : Method) (visible : Bool) :
    (methodReaders t m).lookup (AttributeName.parameterAnnotations visible) =
      some (readParameterAnnotations t visible m) := by
  cases visible <;> rfl

variable {name}

/-- Every other attribute of a class is kept as its bytes. -/
theorem readClassAttribute_of_notMem (c : Class) (h : name ∉ AttributeName.ofClass) :
    readClassAttribute t name length c = (do
      return { c with
        layout := { c.layout with attributeOrder := c.layout.attributeOrder ++ [name] }
        attributes := c.attributes ++ [⟨name, ← bytes length⟩] }) :=
  (readClassAttribute_eq length name c).trans (dispatch_of_notMem h)

/-- Every other attribute of a field is kept as its bytes. -/
theorem readFieldAttribute_of_notMem (f : Field) (h : name ∉ AttributeName.ofField) :
    readFieldAttribute t name length f = (do
      return { f with
        attributeOrder := f.attributeOrder ++ [name]
        attributes := f.attributes ++ [⟨name, ← bytes length⟩] }) :=
  (readFieldAttribute_eq length name f).trans (dispatch_of_notMem h)

/-- Every other attribute of a method is kept as its bytes. -/
theorem readMethodAttribute_of_notMem (m : Method) (h : name ∉ AttributeName.ofMethod) :
    readMethodAttribute t name length m = (do
      return { m with
        layout := { m.layout with attributeOrder := m.layout.attributeOrder ++ [name] }
        attributes := m.attributes ++ [⟨name, ← bytes length⟩] }) :=
  (readMethodAttribute_eq length name m).trans (dispatch_of_notMem h)

/-- Every other attribute of code is kept as its bytes. -/
theorem readCodeAttribute_of_notMem (tables : CodeTables) (h : name ∉ AttributeName.ofCode) :
    readCodeAttribute t name length tables = (do
      return { tables with
        order := tables.order ++ [name]
        attributes := tables.attributes ++ [⟨name, ← bytes length⟩] }) :=
  (readCodeAttribute_eq length name tables).trans (dispatch_of_notMem h)

end Readers

end Decoding

/-! ## Raw attributes -/

/-- Attributes whose names are whole. -/
def Attribute.AreWhole (as : List Attribute) : Prop := ∀ a ∈ as, a.name.IsWhole

theorem Attribute.AreWhole.append {as : List Attribute} (h : AreWhole as) {name : Text}
    (hname : name.IsWhole) (data : Bytes) : AreWhole (as ++ [⟨name, data⟩]) := by
  intro a ha
  rcases List.mem_append.1 ha with ha | ha
  · exact h a ha
  · rw [List.mem_singleton.1 ha]
    exact hname

/-- Two methods keep the same attributes as bytes, and both have sizes or none. -/
structure Method.SameRaw (m m' : Method) : Prop where
  attributes : m'.attributes = m.attributes
  codeAttributes : m'.codeAttributes = m.codeAttributes
  maxima : m'.maxima.isSome = m.maxima.isSome

/-- Two classes keep the same attributes as bytes, place by place. -/
structure Class.SameRaw (c c' : Class) : Prop where
  attributes : c'.attributes = c.attributes
  fields : List.Forall₂ (fun f f' : Field => f'.attributes = f.attributes) c.fields c'.fields
  methods : List.Forall₂ Method.SameRaw c.methods c'.methods

/-- The raw attributes of a method have whole names, and those of code stand beside its sizes. -/
structure Method.HasWholeRaw (m : Method) : Prop where
  attributes : Attribute.AreWhole m.attributes
  codeAttributes : Attribute.AreWhole m.codeAttributes
  maxima : m.codeAttributes ≠ [] → m.maxima.isSome = true

/-- The raw attributes of a class have whole names, and those of code stand beside its sizes. -/
structure Class.HasWholeRaw (c : Class) : Prop where
  attributes : Attribute.AreWhole c.attributes
  fields : ∀ f ∈ c.fields, Attribute.AreWhole f.attributes
  methods : ∀ m ∈ c.methods, m.HasWholeRaw

theorem Method.HasWholeRaw.of_sameRaw {m m' : Method} (hm : m.HasWholeRaw) (h : m.SameRaw m') :
    m'.HasWholeRaw where
  attributes := by
    rw [h.attributes]
    exact hm.attributes
  codeAttributes := by
    rw [h.codeAttributes]
    exact hm.codeAttributes
  maxima := by
    rw [h.codeAttributes, h.maxima]
    exact hm.maxima

theorem Class.HasWholeRaw.of_sameRaw {c c' : Class} (hc : c.HasWholeRaw) (h : c.SameRaw c') :
    c'.HasWholeRaw where
  attributes := by
    rw [h.attributes]
    exact hc.attributes
  fields f' hf' := by
    obtain ⟨f, hf, heq⟩ := Result.exists_of_mem_right h.fields hf'
    rw [heq]
    exact hc.fields f hf
  methods m' hm' := by
    obtain ⟨m, hm, hsame⟩ := Result.exists_of_mem_right h.methods hm'
    exact (hc.methods m hm).of_sameRaw hsame

namespace Decoding

variable {t : Table}

/-- A text in the pool of a class file is whole. -/
theorem Table.IsReadable.isWhole (ht : t.IsReadable) {s : Text} (h : some (.utf8 s) ∈ t.entries) :
    s.IsWhole := (ht _ h).isRead

/-! ## Members -/

theorem finds_wholeRaw_fieldAttribute (ht : t.IsReadable) (name : Text) (length : Nat) (f : Field)
    (hname : some (.utf8 name) ∈ t.entries) (h : Attribute.AreWhole f.attributes) :
    Finds (readFieldAttribute t name length f) fun f => Attribute.AreWhole f.attributes := by
  refine Finds.ite (fun _ => ?_) fun _ => Finds.ite (fun _ => ?_) fun _ =>
    Finds.ite (fun _ => ?_) fun _ => Finds.ite (fun _ => ?_) fun _ => ?_
  · exact Finds.u2_bind fun i _ => (finds_constant ht i).map fun _ _ => h
  · exact Finds.text_bind fun _ => .pure h
  · exact (finds_readAnnotationUses ht true).map fun _ _ => h
  · exact (finds_readAnnotationUses ht false).map fun _ _ => h
  · exact (Finds.bytes length).map fun data _ => h.append (ht.isWhole hname) data

theorem finds_wholeRaw_field (ht : t.IsReadable) :
    Finds (readField t) fun f => Attribute.AreWhole f.attributes := by
  refine Finds.u2_bind fun access _ => ?_
  refine Finds.text_bind fun name => ?_
  refine Finds.text_bind fun descriptor => ?_
  exact Finds.attributes_named (by simp [Attribute.AreWhole]) (finds_wholeRaw_fieldAttribute ht)

theorem finds_wholeRaw_code (ht : t.IsReadable) (place : Text) :
    Finds (readCode t { place }) fun code => Attribute.AreWhole code.attributes := by
  have hattribute (name : Text) (length : Nat) (tables : CodeTables)
      (hname : some (.utf8 name) ∈ t.entries) (h : Attribute.AreWhole tables.attributes) :
      Finds (readCodeAttribute t name length tables) fun tables =>
        Attribute.AreWhole tables.attributes := by
    refine Finds.ite (fun _ => ?_) fun _ => Finds.ite (fun _ => ?_) fun _ =>
      Finds.ite (fun _ => ?_) fun _ => Finds.ite (fun _ => ?_) fun _ => ?_
    · exact (Finds.listOf finds_readLine).map fun _ _ => h
    · exact (Finds.listOf finds_readVariable).map fun _ _ => h
    · exact (Finds.listOf finds_readVariable).map fun _ _ => h
    · exact finds_readStackMap.map fun _ _ => h
    · exact (Finds.bytes length).map fun data _ => h.append (ht.isWhole hname) data
  have hraw : Finds (readRawCode t) fun r => Attribute.AreWhole r.tables.attributes := by
    refine Finds.u2_bind fun stack _ => ?_
    refine Finds.u2_bind fun locals _ => ?_
    refine Finds.u4.bind fun length _ => ?_
    refine Finds.get_bind fun code => ?_
    refine (Finds.need length).any_bind fun _ => ?_
    refine (Finds.skip length).any_bind fun _ => ?_
    refine (Finds.listOf finds_readHandler).bind fun handlers _ => ?_
    refine (Finds.attributes_named (by simp [Attribute.AreWhole]) hattribute).bind fun tables h => ?_
    exact ((finds_readOperations ht length).elsewhere code).map fun _ _ => h
  refine hraw.bind fun r hr => ?_
  refine (r.finds_assemble place).imp ?_
  rintro code ⟨seen, l, h⟩
  rw [h.attributes]
  exact hr

/-- What the parameters of a method are read from leaves its raw attributes alone. -/
theorem finds_sameRaw_parameterAnnotations (ht : t.IsReadable) (visible : Bool) (m : Method) :
    Finds (readParameterAnnotations t visible m) m.SameRaw := by
  refine (finds_readParameterCount _ _).bind fun count _ => ?_
  refine Finds.bind (finds_readParametersOnto (P := fun _ => True) (fun p _ => ?_) (by simp) (by simp))
    fun annotated _ => ?_
  · exact (finds_readAnnotationUses ht visible).map fun _ _ => trivial
  · exact Finds.ite (fun _ => .pure ⟨rfl, rfl, rfl⟩) fun _ =>
      Finds.ite (fun _ => .pure ⟨rfl, rfl, rfl⟩) fun _ => .pure ⟨rfl, rfl, rfl⟩

theorem finds_sameRaw_methodParameters (m : Method) :
    Finds (readMethodParameters t m) m.SameRaw := by
  refine (finds_readParameterCount _ _).bind fun count _ => ?_
  refine Finds.bind (finds_readParametersOnto (P := fun _ => True) (fun p _ => ?_) (by simp) (by simp))
    fun named _ => ?_
  · refine Finds.u2_bind fun i _ => ?_
    refine (finds_utf8? i).any_bind fun name => ?_
    exact Finds.u2.map fun _ _ => trivial
  · exact Finds.ite (fun _ => .pure ⟨rfl, rfl, rfl⟩) fun _ => .pure ⟨rfl, rfl, rfl⟩

theorem finds_wholeRaw_methodAttribute (ht : t.IsReadable) (name : Text) (length : Nat) (m : Method)
    (hname : some (.utf8 name) ∈ t.entries) (h : m.HasWholeRaw) :
    Finds (readMethodAttribute t name length m) Method.HasWholeRaw := by
  -- the order of the attributes is no raw attribute
  have hm : Method.HasWholeRaw { m with
      layout := { m.layout with attributeOrder := m.layout.attributeOrder ++ [name] } } := { h with }
  unfold readMethodAttribute
  generalize { m with
    layout := { m.layout with attributeOrder := m.layout.attributeOrder ++ [name] } } = m' at hm ⊢
  refine Finds.ite (fun _ => ?_) fun _ => Finds.ite (fun _ => ?_) fun _ =>
    Finds.ite (fun _ => ?_) fun _ => Finds.ite (fun _ => ?_) fun _ => Finds.ite (fun _ => ?_) fun _ =>
    Finds.ite (fun _ => ?_) fun _ => Finds.ite (fun _ => ?_) fun _ => Finds.ite (fun _ => ?_) fun _ =>
    Finds.ite (fun _ => ?_) fun _ => ?_
  · exact (finds_wholeRaw_code ht _).map fun code hcode =>
      { hm with codeAttributes := hcode, maxima := fun _ => rfl }
  · exact (Finds.listOf (Finds.u2_bind fun i _ => finds_className i)).map fun _ _ => { hm with }
  · exact Finds.text_bind fun _ => .pure { hm with }
  · exact (finds_readAnnotationUses ht true).map fun _ _ => { hm with }
  · exact (finds_readAnnotationUses ht false).map fun _ _ => { hm with }
  · exact (finds_sameRaw_parameterAnnotations ht true m').imp fun _ h => hm.of_sameRaw h
  · exact (finds_sameRaw_parameterAnnotations ht false m').imp fun _ h => hm.of_sameRaw h
  · exact (finds_readElement ht true).map fun _ _ => { hm with }
  · exact (finds_sameRaw_methodParameters m').imp fun _ h => hm.of_sameRaw h
  · exact (Finds.bytes length).map fun data _ =>
      { hm with attributes := hm.attributes.append (ht.isWhole hname) data }

theorem finds_wholeRaw_method (ht : t.IsReadable) : Finds (readMethod t) Method.HasWholeRaw := by
  refine Finds.u2_bind fun access _ => ?_
  refine Finds.text_bind fun name => ?_
  refine Finds.text_bind fun descriptor => ?_
  cases harguments : Descriptor.arguments descriptor with
  | error e =>
    rcases Descriptor.arguments_error harguments with rfl | rfl
    · exact .refuseHere _
    · exact .refuseHere _
  | ok types =>
    refine Finds.attributes_named ?_ (finds_wholeRaw_methodAttribute ht)
    exact ⟨by simp [Attribute.AreWhole], by simp [Attribute.AreWhole], by simp⟩

/-! ## Classes -/

theorem finds_wholeRaw_classAttribute (ht : t.IsReadable) (name : Text) (length : Nat) (c : Class)
    (hname : some (.utf8 name) ∈ t.entries) (h : c.HasWholeRaw) :
    Finds (readClassAttribute t name length c) Class.HasWholeRaw := by
  have hc : Class.HasWholeRaw { c with
      layout := { c.layout with attributeOrder := c.layout.attributeOrder ++ [name] } } := { h with }
  unfold readClassAttribute
  generalize { c with
    layout := { c.layout with attributeOrder := c.layout.attributeOrder ++ [name] } } = c' at hc ⊢
  refine Finds.ite (fun _ => ?_) fun _ => Finds.ite (fun _ => ?_) fun _ =>
    Finds.ite (fun _ => ?_) fun _ => Finds.ite (fun _ => ?_) fun _ => Finds.ite (fun _ => ?_) fun _ =>
    Finds.ite (fun _ => ?_) fun _ => Finds.ite (fun _ => ?_) fun _ => ?_
  · exact Finds.text_bind fun _ => .pure { hc with }
  · exact Finds.text_bind fun _ => .pure { hc with }
  · exact (finds_readAnnotationUses ht true).map fun _ _ => { hc with }
  · exact (finds_readAnnotationUses ht false).map fun _ _ => { hc with }
  · exact (Finds.listOf finds_readInnerClass).map fun _ _ => { hc with }
  · exact finds_readEnclosingMethod.map fun _ _ => { hc with }
  · exact (Finds.skip length).any_bind fun _ => .pure hc
  · exact (Finds.bytes length).map fun data _ =>
      { hc with attributes := hc.attributes.append (ht.isWhole hname) data }

theorem finds_wholeRaw_classFile : Finds readClassFile Class.HasWholeRaw := by
  refine finds_readVersion.bind fun ⟨major, minor⟩ _ => ?_
  refine finds_readTable.bind fun t ht => ?_
  refine Finds.u2_bind fun access _ => ?_
  refine finds_readClassName.any_bind fun name => ?_
  refine Finds.u2_bind fun i _ => ?_
  refine (finds_className i).any_bind fun super => ?_
  refine (Finds.listOf (Finds.u2_bind fun i _ => finds_className i)).bind fun interfaces _ => ?_
  refine (Finds.all_listOf (finds_wholeRaw_field ht)).bind fun fields hfields => ?_
  refine (Finds.all_listOf (finds_wholeRaw_method ht)).bind fun methods hmethods => ?_
  refine (Finds.attributes_named (S := Class.HasWholeRaw) ?_ (finds_wholeRaw_classAttribute ht)).bind
    fun c hc => ?_
  · exact ⟨by simp [Attribute.AreWhole], hfields, hmethods⟩
  · refine Finds.get_bind fun here => ?_
    exact Finds.checkHere_bind fun _ => .pure hc

end Decoding

/-- The raw attributes of a class that has been read have whole names. -/
theorem Class.hasWholeRaw_of_ofBytes {bytes : Bytes} {c : Class} (h : ofBytes bytes = .ok c) :
    c.HasWholeRaw := by
  unfold ofBytes StateT.run at h
  split at h
  · next found stop hrun =>
    cases h
    exact (finds_wholeRaw_classFile.of_eq_ok hrun).2
  · cases h

end ClassTree
