/-
# ClassTree.Proofs.Encoding.Serving — what any pool can be asked for

What is drawn from a class file has texts that a pool can hold, and what is faultless names a class
wherever an entry needs one. Together this makes every request of such a class one that goes
through, whatever is in the pool, and that keeps the pool fitting.
-/
import ClassTree.Proofs.Class.Drawn
import ClassTree.Proofs.Class.Faultless

namespace ClassTree

open Encoder Encoding

namespace Encoding

/-- Some additions go through whatever the pool is. -/
def AllServe (asks : List (Encoder Nat)) : Prop := ∀ e ∈ asks, Serves e

namespace AllServe

variable {asks asks' : List (Encoder Nat)}

theorem nil : AllServe [] := nofun

theorem cons {e : Encoder Nat} (he : Serves e) (h : AllServe asks) : AllServe (e :: asks) :=
  List.forall_mem_cons.2 ⟨he, h⟩

theorem singleton {e : Encoder Nat} (he : Serves e) : AllServe [e] := cons he nil

theorem append (h : AllServe asks) (h' : AllServe asks') : AllServe (asks ++ asks') :=
  List.forall_mem_append.2 ⟨h, h'⟩

theorem map {α : Type} {ask : α → Encoder Nat} {things : List α} (h : ∀ a ∈ things, Serves (ask a)) :
    AllServe (things.map ask) := by
  intro e he
  obtain ⟨a, ha, rfl⟩ := List.mem_map.1 he
  exact h a ha

theorem flatMap {α : Type} {asks : α → List (Encoder Nat)} {things : List α}
    (h : ∀ a ∈ things, AllServe (asks a)) : AllServe (things.flatMap asks) := by
  intro e he
  obtain ⟨a, ha, he⟩ := List.mem_flatMap.1 he
  exact h a ha e he

theorem texts {texts : List Text} (h : ∀ t ∈ texts, t.IsStorable) : AllServe (textAsks texts) :=
  map fun t ht => .pooled (.addUtf8 (h t ht))

theorem references {names : List (Option Text)} (h : ∀ n ∈ names, ∃ s, n = some s ∧ s.IsStorable) :
    AllServe (referenceAsks names) := by
  refine map fun n hn => ?_
  obtain ⟨s, rfl, hs⟩ := h n hn
  exact .pooled (.addClass hs)

theorem reference {name : Option Text} (hname : ∃ s, name = some s) (h : ∀ s ∈ name, s.IsStorable) :
    AllServe (referenceAsks [name]) := by
  obtain ⟨s, rfl⟩ := hname
  exact references fun n hn => ⟨s, List.mem_singleton.1 hn, h s rfl⟩

end AllServe

theorem serves_classIndex {name : Option Text} (h : ∀ s ∈ name, s.IsStorable) :
    Serves (classIndex name) := by
  unfold classIndex
  split
  · exact .pooled (.addClass (h _ rfl))
  · exact .zero

theorem serves_nameIndex {name : Option Text} (h : ∀ s ∈ name, s.IsStorable) :
    Serves (nameIndex name) := by
  unfold nameIndex
  split
  · exact .pooled (.addUtf8 (h _ rfl))
  · exact .zero

theorem serves_givenName {name : Option Text} (h : ∀ s ∈ name, s.IsStorable) :
    Serves (givenName name) := by
  unfold givenName
  split
  · exact .pooled (.addUtf8 (h _ rfl))
  · exact .zero

/-! ## Names of attributes -/

/-- The names of attributes can be stored. -/
def HaveStorableNames (pieces : List Piece) : Prop := ∀ p ∈ pieces, p.name.IsStorable

theorem isStorable_ofString {s : String} (h : s.toList.all (fun c => c.toNat ≤ 0x7F) = true)
    (hlength : (ModifiedUtf8.encode (Text.ofString s)).length < 0x10000) :
    (Text.ofString s).IsStorable :=
  ⟨ModifiedUtf8.isWhole_of_isPlain (ModifiedUtf8.isPlain_ofString h), hlength⟩

namespace HaveStorableNames

variable {pieces pieces' : List Piece} {name : Text}

theorem append (h : HaveStorableNames pieces) (h' : HaveStorableNames pieces') :
    HaveStorableNames (pieces ++ pieces') := List.forall_mem_append.2 ⟨h, h'⟩

/-- An attribute that is there for a reason. -/
theorem pieceIf (hname : name.IsStorable) (condition : Bool) (content : Encoder Bytes) :
    HaveStorableNames (Encoding.pieceIf condition name content) := by
  intro p hp
  unfold Encoding.pieceIf at hp
  split at hp
  · obtain rfl := List.mem_singleton.1 hp
    exact hname
  · cases hp

theorem pieceOf? {α : Type} (hname : name.IsStorable) (content : α → Encoder Bytes) (value : Option α) :
    HaveStorableNames (Encoding.pieceOf? name content value) := by
  intro p hp
  cases value with
  | none => cases hp
  | some a =>
    obtain rfl := List.mem_singleton.1 hp
    exact hname

theorem raw {as : List Attribute} (h : ∀ a ∈ as, a.IsDrawn) : HaveStorableNames (rawPieces as) := by
  intro p hp
  obtain ⟨a, ha, rfl⟩ := List.mem_map.1 hp
  exact (h a ha).name

theorem annotations (as : List AnnotationUse) : HaveStorableNames (annotationPieces as) := by
  intro p hp
  obtain ⟨visible, -, hp⟩ := List.mem_flatMap.1 hp
  refine pieceIf ?_ _ _ p hp
  cases visible <;> exact isStorable_ofString (by decide) (by decide)

theorem signature (signature : Option Text) : HaveStorableNames (signaturePiece signature) :=
  pieceOf? (isStorable_ofString (by decide) (by decide)) _ _

theorem allServe (h : HaveStorableNames pieces) : AllServe (pieceAsks pieces) := by
  refine .texts fun t ht => ?_
  obtain ⟨p, hp, rfl⟩ := List.mem_map.1 ht
  exact h p hp

end HaveStorableNames

/-! ## Annotations -/

/-- A scalar of the kind of its tag. -/
theorem serves_addScalar {tag : ElementTag} {v : Constant} {kind : Literal.Kind}
    (hkind : Literal.elementKind? tag = some kind) (h : Literal.IsOf kind v) (hv : v.IsStorable) :
    Serves (addScalar tag v) := by
  cases tag with
  | byte | char | int | short | boolean =>
    cases hkind
    exact @serves_of_isOf .int v (by decide) h hv
  | long =>
    cases hkind
    exact @serves_of_isOf .long v (by decide) h hv
  | float =>
    cases hkind
    exact @serves_of_isOf .float v (by decide) h hv
  | double =>
    cases hkind
    exact @serves_of_isOf .double v (by decide) h hv
  | text | type =>
    cases hkind
    cases h
    exact .pooled (.addUtf8 hv)
  | unknown letters => cases hkind

mutual

theorem allServe_elementAsks (v : ElementValue) (hdrawn : v.IsDrawn) (htyped : v.IsTyped) :
    AllServe (elementAsks v) := by
  cases v with
  | scalar tag v =>
    unfold ElementValue.IsDrawn at hdrawn
    unfold ElementValue.IsTyped at htyped
    obtain ⟨kind, hkind, hof⟩ := htyped
    unfold elementAsks
    exact .singleton (serves_addScalar hkind hof hdrawn.2)
  | enum descriptor name =>
    unfold ElementValue.IsDrawn at hdrawn
    unfold elementAsks
    refine .texts ?_
    simpa using hdrawn
  | nested descriptor visible values =>
    unfold ElementValue.IsDrawn at hdrawn
    unfold ElementValue.IsTyped at htyped
    unfold elementAsks
    refine .append (.texts ?_) (allServe_namedAsks values hdrawn.2.2 htyped)
    simpa using hdrawn.1
  | array es =>
    unfold ElementValue.IsDrawn at hdrawn
    unfold ElementValue.IsTyped at htyped
    unfold elementAsks
    exact allServe_elementsAsks es hdrawn.2 htyped

theorem allServe_elementsAsks (es : List ElementValue) (hdrawn : ElementValue.AreDrawn es)
    (htyped : ElementValue.AreTyped es) : AllServe (elementsAsks es) := by
  cases es with
  | nil =>
    unfold elementsAsks
    exact .nil
  | cons v rest =>
    unfold ElementValue.AreDrawn at hdrawn
    unfold ElementValue.AreTyped at htyped
    unfold elementsAsks
    exact .append (allServe_elementAsks v hdrawn.1 htyped.1)
      (allServe_elementsAsks rest hdrawn.2 htyped.2)

theorem allServe_namedAsks (values : List (Text × ElementValue))
    (hdrawn : ElementValue.AreDrawnNamed values) (htyped : ElementValue.AreTypedNamed values) :
    AllServe (namedAsks values) := by
  match values with
  | [] =>
    unfold namedAsks
    exact .nil
  | (name, v) :: rest =>
    unfold ElementValue.AreDrawnNamed at hdrawn
    unfold ElementValue.AreTypedNamed at htyped
    unfold namedAsks
    refine .append (.append (.texts ?_) (allServe_elementAsks v hdrawn.2.1 htyped.1))
      (allServe_namedAsks rest hdrawn.2.2 htyped.2)
    simpa using hdrawn.1

end

theorem allServe_annotationAsks {as : List AnnotationUse} (hdrawn : ∀ a ∈ as, a.IsDrawn)
    (hfaultless : AnnotationUse.AreFaultless as) : AllServe (as.flatMap annotationAsks) := by
  refine .flatMap fun a ha => .append (.texts ?_)
    (allServe_namedAsks _ (hdrawn a ha).values (hfaultless.values a ha))
  simpa using (hdrawn a ha).descriptor

/-! ## Code -/

/-- A call site whose bootstrap method and arguments can be added. -/
theorem serves_siteIndex {name descriptor : Text} {bootstrap : Handle}
    {arguments : List (Text × Constant)} (hname : name.IsStorable) (hdescriptor : descriptor.IsStorable)
    (hbootstrap : bootstrap.IsStorable) (howner : ∃ s, bootstrap.owner = some s)
    (hlength : arguments.length < 0x10000)
    (harguments : ∀ a ∈ arguments, Literal.IsNamed a.1 a.2 ∧ a.2.IsStorable ∧ a.2.HasOwner) :
    Serves (siteIndex name descriptor bootstrap arguments) := by
  have hserves : ∀ a ∈ arguments, Serves (addConstant a.1 a.2) := fun a ha =>
    serves_addConstant (harguments a ha).1 (harguments a ha).2.1 (harguments a ha).2.2
  constructor
  · intro p
    have hstep : ∀ a ∈ arguments, ∀ p, True → ∃ i q, addConstant a.1 a.2 p = .ok (i, q) ∧ True := by
      intro a ha p _
      obtain ⟨i, q, hi⟩ := (hserves a ha).exists_eq_ok p
      exact ⟨i, q, hi, trivial⟩
    obtain ⟨is, q, his, -⟩ := Encoder.exists_mapM hstep (p := p) trivial
    have hpooled {α : Type} (m : StateM Pool α) (p : Pool) : pooled m p = .ok ((m p).1, (m p).2) := rfl
    exact ⟨_, _, bind_eq_ok_iff.2 ⟨is, q, his, bind_eq_ok_iff.2 ⟨_, _, hpooled _ _,
      bind_eq_ok_iff.2 ⟨_, _, hpooled _ _, hpooled _ _⟩⟩⟩⟩
  · refine .bind (.mapM fun a ha => (hserves a ha).keepsFit) fun is his => ?_
    refine .bind (.addHandle hbootstrap howner) fun handle hhandle => ?_
    have hfit : Bootstrap.IsFit ⟨handle, is⟩ := ⟨hhandle, his.1.trans_lt hlength, his.2⟩
    exact .bind (.addBootstrap hfit) fun method hmethod =>
      .addInvokeDynamic hmethod hname hdescriptor

theorem allServe_instructionAsks {i : Instruction Label} (hsound : i.IsSound) (hdrawn : i.IsDrawn)
    (hfaultless : i.IsFaultless) : AllServe (instructionAsks i) := by
  cases i with
  | constant op v => exact .singleton (serves_addLoaded hfaultless.1 hdrawn hfaultless.2)
  | type op name => exact .reference hfaultless hdrawn
  | field op owner name descriptor =>
    obtain ⟨s, rfl⟩ := hfaultless
    exact .singleton (.pooled (.addField (hdrawn.1 s rfl) hdrawn.2.1 hdrawn.2.2))
  | method op owner name descriptor interface =>
    obtain ⟨⟨s, rfl⟩, -⟩ := hfaultless
    exact .singleton (.pooled (.addMethod interface (hdrawn.1 s rfl) hdrawn.2.1 hdrawn.2.2))
  | callSite name descriptor bootstrap arguments =>
    obtain ⟨⟨hname, hdescriptor⟩, hbootstrap, hlength, harguments⟩ := hdrawn
    exact .singleton (serves_siteIndex hname hdescriptor hbootstrap hfaultless.1 hlength fun a ha =>
      ⟨hsound.2 a ha, harguments a ha, hfaultless.2 a ha⟩)
  | multiArray descriptor dimensions => exact .reference hfaultless hdrawn
  | _ => exact .nil

theorem allServe_itemAsks {i : Item} (hsound : i.IsSound) (hdrawn : i.IsDrawn)
    (hfaultless : i.IsFaultless) : AllServe (itemAsks i) := by
  cases i with
  | instruction i => exact allServe_instructionAsks hsound hdrawn hfaultless
  | frame f =>
    have hdrawn : f.IsDrawn := hdrawn
    refine .flatMap fun v hv => ?_
    have hv' : v.IsDrawn := (List.mem_append.1 hv).elim (hdrawn.locals.2 v) (hdrawn.stack.2 v)
    have hne : v ≠ .object none := hfaultless v hv
    unfold typeAsks
    split
    · next name =>
      refine .reference ?_ hv'
      exact Option.ne_none_iff_exists'.1 fun h => hne (congrArg _ h)
    · exact .nil
  | label l => exact .nil
  | line n => exact .nil

theorem haveStorableNames_codePieces {m : Method} (h : ∀ a ∈ m.codeAttributes, a.IsDrawn) (l : Layout)
    (place : Text) (frames : List (Nat × Frame)) : HaveStorableNames (codePieces m l place frames) := by
  refine .append (.append (.append (.append ?_ ?_) ?_) ?_) (.raw h)
  · intro p hp
    obtain ⟨table, -, rfl⟩ := List.mem_map.1 hp
    exact isStorable_ofString (by decide) (by decide)
  · exact .pieceIf (isStorable_ofString (by decide) (by decide)) _ _
  · exact .pieceIf (isStorable_ofString (by decide) (by decide)) _ _
  · exact .pieceIf (isStorable_ofString (by decide) (by decide)) _ _

theorem allServe_codeAsks {reached : Pool → Prop} {owner : Text} {m : Method} (hsound : m.IsSound)
    (hdrawn : m.IsDrawn) (hfaultless : m.IsFaultless reached owner) : AllServe (codeAsks m) := by
  refine .append (.append (.append ?_ ?_) ?_) (haveStorableNames_codePieces hdrawn.codeAttributes
    _ _ _).allServe
  · exact .flatMap fun i hi =>
      allServe_itemAsks (hsound.items i hi) (hdrawn.code.items i hi) (hfaultless.items i hi)
  · exact .map fun h hh => serves_classIndex (hdrawn.code.handlers.2 h hh)
  · refine .flatMap fun v hv => .texts ?_
    have hv := (hdrawn.code.locals v hv).1
    refine List.forall_mem_cons.2 ⟨hv.name, List.forall_mem_append.2 ⟨?_, ?_⟩⟩
    · simpa using hv.descriptor
    · simpa using hv.signature

/-! ## Members -/

theorem serves_addFieldConstant {f : Field} {v : Constant} (h : f.HasTyped v) (hv : v.IsStorable) :
    Serves (addFieldConstant f.descriptor v) := by
  unfold addFieldConstant
  split
  · next hstring =>
    obtain ⟨t, rfl⟩ := h.2 hstring
    exact .pooled (.addString hv)
  · refine serves_of_isOf ?_ h.1 hv
    unfold Literal.fieldKind
    split
    · decide
    · split
      · decide
      · split
        · decide
        · split <;> decide

theorem allServe_fieldAsks {reached : Pool → Prop} {f : Field} (hdrawn : f.IsDrawn)
    (hfaultless : f.IsFaultless reached) : AllServe (fieldAsks f) := by
  refine .append (.append (.append (.texts ?_) (.map fun v hv => ?_))
    (allServe_annotationAsks hdrawn.annotations hfaultless.annotations)) ?_
  · simpa using ⟨hdrawn.name, hdrawn.descriptor, fun s hs => hdrawn.signature s hs⟩
  · have hv := Option.mem_toList.1 hv
    exact serves_addFieldConstant (hfaultless.value v hv) (hdrawn.value v hv)
  · refine HaveStorableNames.allServe ?_
    exact .append (.append (.append (.pieceOf? (isStorable_ofString (by decide) (by decide)) _ _)
      (.signature _)) (.annotations _)) (.raw hdrawn.attributes)

theorem allServe_methodAsks {reached : Pool → Prop} {owner : Text} {m : Method} (hsound : m.IsSound)
    (hdrawn : m.IsDrawn) (hfaultless : m.IsFaultless reached owner) : AllServe (methodAsks m) := by
  refine .append (.append (.append (.append (.append (.append (.texts ?_) (.references ?_)) ?_) ?_) ?_)
    ?_) ?_
  · simpa using ⟨hdrawn.name, hdrawn.descriptor, fun s hs => hdrawn.signature s hs⟩
  · intro e he
    obtain ⟨s, rfl⟩ := hfaultless.exceptions e he
    exact ⟨s, rfl, hdrawn.exceptions.2 _ he s rfl⟩
  · exact allServe_annotationAsks hdrawn.annotations hfaultless.annotations
  · exact .flatMap fun p hp => .cons (serves_givenName (hdrawn.parameters p hp).name)
      (allServe_annotationAsks (hdrawn.parameters p hp).annotations (hfaultless.parameters p hp))
  · refine .flatMap fun v hv => ?_
    have hv := Option.mem_toList.1 hv
    exact allServe_elementAsks v (hdrawn.default v hv) (hfaultless.default v hv)
  · split
    · exact allServe_codeAsks hsound hdrawn hfaultless
    · exact .nil
  · refine HaveStorableNames.allServe ?_
    have hparameters (visible : Bool) : (AttributeName.parameterAnnotations visible).IsStorable := by
      cases visible <;> exact isStorable_ofString (by decide) (by decide)
    exact .append (.append (.append (.append (.append (.append (.append (.append
      (.pieceIf (isStorable_ofString (by decide) (by decide)) _ _)
      (.pieceIf (isStorable_ofString (by decide) (by decide)) _ _)) (.signature _)) (.annotations _))
      (.pieceIf (hparameters true) _ _)) (.pieceIf (hparameters false) _ _))
      (.pieceOf? (isStorable_ofString (by decide) (by decide)) _ _))
      (.pieceIf (isStorable_ofString (by decide) (by decide)) _ _)) (.raw hdrawn.attributes)

end Encoding

/-! ## Classes -/

/-- The names of the attributes of a class. -/
theorem Encoding.haveStorableNames_classPieces {c : Class} (h : ∀ a ∈ c.attributes, a.IsDrawn)
    (bootstrap : Bool) : HaveStorableNames (classPieces c bootstrap) :=
  .append (.append (.append (.append (.append (.append
    (.pieceOf? (isStorable_ofString (by decide) (by decide)) _ _)
    (.pieceIf (isStorable_ofString (by decide) (by decide)) _ _))
    (.pieceOf? (isStorable_ofString (by decide) (by decide)) _ _)) (.signature _)) (.annotations _))
    (.raw h)) (.pieceIf (isStorable_ofString (by decide) (by decide)) _ _)

namespace Class

variable {c : Class}

/-- Whatever a class asks for goes through, if the class is drawn from a class file and faultless.
-/
theorem allServe_asks (hsound : c.IsSound) (hdrawn : c.IsDrawn) (hfaultless : c.IsFaultless) :
    AllServe c.asks := by
  refine .cons (serves_classIndex hdrawn.super) (.append (.append (.append (.append (.append (.append
    (.append (.references ?_) ?_) ?_) (.texts ?_)) ?_) ?_)
    (allServe_annotationAsks hdrawn.annotations hfaultless.annotations))
    (haveStorableNames_classPieces hdrawn.attributes true).allServe)
  · refine List.forall_mem_cons.2 ⟨⟨c.name, rfl, hdrawn.name⟩, fun i hi => ?_⟩
    obtain ⟨s, rfl⟩ := hfaultless.interfaces i hi
    exact ⟨s, rfl, hdrawn.interfaces.2 _ hi s rfl⟩
  · exact .flatMap fun f hf => allServe_fieldAsks (hdrawn.fields.2 f hf) (hfaultless.fields f hf)
  · exact .flatMap fun m hm => allServe_methodAsks (hsound.methods m hm) (hdrawn.methods.2 m hm)
      (hfaultless.methods m hm)
  · refine List.forall_mem_append.2 ⟨?_, ?_⟩
    · simpa using hdrawn.sourceFile
    · simpa using hdrawn.signature
  · refine .flatMap fun i hi => ?_
    have hi' := hdrawn.innerClasses i hi
    obtain ⟨s, hs⟩ := hfaultless.innerClasses.2 i hi
    refine .cons ?_ (.cons (serves_classIndex hi'.outer) (.singleton (serves_nameIndex hi'.name)))
    rw [hs]
    exact .pooled (.addClass (hi'.inner s hs))
  · refine .flatMap fun e he => ?_
    have he := Option.mem_toList.1 he
    obtain ⟨s, hs⟩ := hfaultless.enclosing e he
    refine .cons ?_ (.singleton ?_)
    · unfold givenMember
      split
      · next name hname =>
        obtain ⟨hname, descriptor, hdescriptor, hstorable⟩ := (hdrawn.enclosing e he).member name hname
        rw [hdescriptor]
        exact .pooled (.addNameAndType hname hstorable)
      · exact .zero
    · rw [hs]
      exact .pooled (.addClass ((hdrawn.enclosing e he).owner s hs))

end Class

end ClassTree
