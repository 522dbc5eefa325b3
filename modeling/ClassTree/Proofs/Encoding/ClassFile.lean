/-
# ClassTree.Proofs.Encoding.ClassFile — the parts of a class file

A class file is its pool and the parts behind it, and every part is written with the pool as it is
in the end. The one part that looks at the pool is the bootstrap table. It stands among the class
attributes, which come last, and nothing in those adds a bootstrap method.
-/
import ClassTree.Proofs.Encoding.Steady
import ClassTree.Proofs.Pool.Encoding

namespace ClassTree.Encoding

open Encoder
open Pool (Grows)

variable {α β : Type}

/-! ## Encoders that leave the bootstrap table alone -/

/-- An encoder adds no bootstrap method. -/
class Quiet (e : Encoder α) : Prop where
  bootstrap : ∀ {p q : Pool} {a : α}, e p = .ok (a, q) → q.bootstrap = p.bootstrap

instance quiet_pure (a : α) : Quiet (pure a : Encoder α) := ⟨by rintro p q b ⟨⟩; rfl⟩

instance quiet_bind (x : Encoder α) (f : α → Encoder β) [hx : Quiet x] [hf : ∀ a, Quiet (f a)] :
    Quiet (x >>= f) where
  bootstrap := by
    intro p q b h
    obtain ⟨a, p', hxp, hfp⟩ := bind_eq_ok_iff.1 h
    rw [(hf a).bootstrap hfp, hx.bootstrap hxp]

instance quiet_throw (e : Error) : Quiet (throw e : Encoder α) := ⟨nofun⟩

instance quiet_lift (r : Result α) : Quiet (liftM r : Encoder α) where
  bootstrap := by
    intro p q a h
    cases r <;> cases h
    rfl

instance quiet_ite (c : Prop) [Decidable c] (x y : Encoder α) [hx : Quiet x] [hy : Quiet y] :
    Quiet (if c then x else y) := by
  split
  · exact hx
  · exact hy

instance quiet_add (e : Pool.Entry) : Quiet (pooled (Pool.add e)) where
  bootstrap := by
    intro p q i h
    have hinsert : p.insert e = (i, q) := Except.ok.inj h
    unfold Pool.insert at hinsert
    split at hinsert <;> cases hinsert <;> rfl

instance quiet_pooled_bind (x : StateM Pool α) (f : α → StateM Pool β) [Quiet (pooled x)]
    [∀ a, Quiet (pooled (f a))] : Quiet (pooled (x >>= f)) := by
  rw [pooled_bind]
  infer_instance

instance quiet_fit (bytes? : Option Bytes) : Quiet (fit bytes?) := by
  unfold fit
  split <;> infer_instance

instance quiet_u2 (n : Int) : Quiet (u2 n) := quiet_fit _

instance quiet_u4 (n : Int) : Quiet (u4 n) := quiet_fit _

instance quiet_index (m : StateM Pool Nat) [Quiet (pooled m)] : Quiet (index m) := by
  unfold index
  infer_instance

instance quiet_mapM (each : α → Encoder β) [∀ a, Quiet (each a)] (things : List α) :
    Quiet (things.mapM each) := by
  induction things with
  | nil =>
    rw [List.mapM_nil]
    infer_instance
  | cons a things ih =>
    rw [List.mapM_cons]
    infer_instance

instance quiet_listOf (each : α → Encoder Bytes) [∀ a, Quiet (each a)] (things : List α) :
    Quiet (listOf each things) := by
  unfold listOf all
  infer_instance

instance quiet_addUtf8 (t : Text) : Quiet (pooled (Pool.addUtf8 t)) := quiet_add _

instance quiet_addName (name : Option Text) : Quiet (pooled (Pool.addName name)) := by
  unfold Pool.addName
  split <;> infer_instance

instance quiet_addClass (name : Option Text) : Quiet (pooled (Pool.addClass name)) := by
  unfold Pool.addClass
  infer_instance

instance quiet_addNameAndType (name : Text) (descriptor : Option Text) :
    Quiet (pooled (Pool.addNameAndType name descriptor)) := by
  unfold Pool.addNameAndType
  infer_instance

/-! ## Annotations -/

instance quiet_addScalar (tag : ElementTag) (v : Constant) : Quiet (addScalar tag v) := by
  unfold addScalar addInteger addLong addFloat addDouble addText
  split <;> infer_instance

instance quiet_tagByte (tag : ElementTag) : Quiet (tagByte tag) := by
  unfold tagByte
  split <;> infer_instance

mutual

theorem quiet_element (v : ElementValue) : Quiet (element v) := by
  cases v with
  | scalar tag v =>
    unfold element
    infer_instance
  | enum descriptor name =>
    unfold element
    infer_instance
  | nested descriptor visible values =>
    have := quiet_named values []
    unfold element
    infer_instance
  | array es =>
    have := quiet_elements es []
    unfold element
    infer_instance

theorem quiet_elements (es : List ElementValue) (acc : List Bytes) : Quiet (elements es acc) := by
  cases es with
  | nil =>
    unfold elements
    infer_instance
  | cons v rest =>
    have := quiet_element v
    have := fun part => quiet_elements rest (part :: acc)
    unfold elements
    infer_instance

theorem quiet_named (values : List (Text × ElementValue)) (acc : List Bytes) :
    Quiet (named values acc) := by
  match values with
  | [] =>
    unfold named
    infer_instance
  | (name, v) :: rest =>
    have := quiet_element v
    have := fun part => quiet_named rest (part :: acc)
    unfold named
    infer_instance

end

attribute [instance] quiet_named

instance quiet_annotationUse (a : AnnotationUse) : Quiet (annotationUse a) := by
  unfold annotationUse
  infer_instance

instance quiet_annotationUses (as : List AnnotationUse) : Quiet (annotationUses as) := by
  unfold annotationUses
  infer_instance

/-! ## Class attributes -/

instance quiet_classIndex (name : Option Text) : Quiet (classIndex name) := by
  unfold classIndex
  split <;> infer_instance

instance quiet_nameIndex (name : Option Text) : Quiet (nameIndex name) := by
  unfold nameIndex
  split <;> infer_instance

instance quiet_innerClass (i : InnerClass) : Quiet (innerClass i) := by
  unfold innerClass
  infer_instance

instance quiet_enclosingMethod (e : EnclosingMethod) : Quiet (enclosingMethod e) := by
  rw [enclosingMethod_eq]
  have : Quiet (givenMember e) := by
    unfold givenMember
    split <;> infer_instance
  infer_instance

instance quiet_bootstrapMethod (b : Bootstrap) : Quiet (bootstrapMethod b) := by
  unfold bootstrapMethod
  infer_instance

theorem get_bind_apply (f : Pool → Encoder β) (p : Pool) :
    ((get : Encoder Pool) >>= f) p = f p p := rfl

theorem bootstrapTable_apply (p : Pool) :
    bootstrapTable p = listOf bootstrapMethod p.bootstrap.toList p := by
  unfold bootstrapTable
  rw [get_bind_apply]

/-- An encoder is steady for as long as the bootstrap table is a certain one, and leaves it so. -/
structure SteadyWith (table : Array Bootstrap) (e : Encoder α) : Prop where
  grows : ∀ {p q : Pool} {a : α}, p.bootstrap = table → e p = .ok (a, q) →
    q.bootstrap = table ∧ Grows .all p q
  again : ∀ {p q P : Pool} {a : α}, p.bootstrap = table → e p = .ok (a, q) → P.bootstrap = table →
    q.Within P → e P = .ok (a, P)

namespace SteadyWith

variable {table : Array Bootstrap}

/-- An encoder that is steady and adds no bootstrap method. -/
theorem of_quiet (e : Encoder α) [hs : Steady e] [hq : Quiet e] : SteadyWith table e where
  grows := fun hp h => ⟨(hq.bootstrap h).trans hp, hs.grows h⟩
  again := fun _ h _ hP => hs.again h hP

theorem bind {x : Encoder α} {f : α → Encoder β} (hx : SteadyWith table x)
    (hf : ∀ a, SteadyWith table (f a)) : SteadyWith table (x >>= f) where
  grows := by
    intro p q b hp h
    obtain ⟨a, p', hxp, hfp⟩ := bind_eq_ok_iff.1 h
    obtain ⟨hp', hgrows⟩ := hx.grows hp hxp
    obtain ⟨hq, hgrows'⟩ := (hf a).grows hp' hfp
    exact ⟨hq, hgrows.trans hgrows'⟩
  again := by
    intro p q P b hp h hPt hP
    obtain ⟨a, p', hxp, hfp⟩ := bind_eq_ok_iff.1 h
    obtain ⟨hp', -⟩ := hx.grows hp hxp
    obtain ⟨-, hgrows⟩ := (hf a).grows hp' hfp
    have hP' : p'.Within P := hgrows.within.trans hP
    exact bind_eq_ok_iff.2 ⟨a, P, hx.again hp hxp hPt hP', (hf a).again hp' hfp hPt hP⟩

theorem mapM {each : α → Encoder β} {things : List α}
    (h : ∀ a ∈ things, SteadyWith table (each a)) : SteadyWith table (things.mapM each) := by
  induction things with
  | nil =>
    rw [List.mapM_nil]
    exact of_quiet _
  | cons a things ih =>
    rw [List.mapM_cons]
    exact (h a (by simp)).bind fun b => (ih fun c hc => h c (by simp [hc])).bind fun bs =>
      of_quiet _

theorem ofTable : SteadyWith table bootstrapTable where
  grows := by
    rintro p q a rfl h
    rw [bootstrapTable_apply] at h
    exact (of_quiet (listOf bootstrapMethod p.bootstrap.toList)).grows rfl h
  again := by
    rintro p q P a rfl h hPt hP
    rw [bootstrapTable_apply] at h ⊢
    rw [hPt]
    exact Steady.again h hP

theorem encode {p : Piece} (h : SteadyWith table p.content) : SteadyWith table p.encode := by
  unfold Piece.encode
  exact (of_quiet _).bind fun _ => h.bind fun _ => of_quiet _

end SteadyWith

theorem steadyWith_classPieces {table : Array Bootstrap} (c : Class) (bootstrap : Bool) :
    ∀ p ∈ classPieces c bootstrap, SteadyWith table p.content := by
  have hif {condition : Bool} {name : Text} {content : Encoder Bytes}
      (hc : SteadyWith table content) : ∀ p ∈ pieceIf condition name content,
        SteadyWith table p.content := by
    intro p hp
    unfold pieceIf at hp
    split at hp
    · obtain rfl := List.mem_singleton.1 hp
      exact hc
    · cases hp
  have hof {α : Type} {name : Text} {content : α → Encoder Bytes}
      (hc : ∀ a, SteadyWith table (content a)) (value : Option α) :
      ∀ p ∈ pieceOf? name content value, SteadyWith table p.content := by
    intro p hp
    cases value with
    | none => cases hp
    | some a =>
      obtain rfl := List.mem_singleton.1 hp
      exact hc a
  intro p hp
  unfold classPieces signaturePiece at hp
  simp only [List.mem_append] at hp
  rcases hp with (((((hp | hp) | hp) | hp) | hp) | hp) | hp
  · exact hof (fun t => .of_quiet _) _ p hp
  · exact hif (.of_quiet _) p hp
  · exact hof (fun e => .of_quiet _) _ p hp
  · exact hof (fun t => .of_quiet _) _ p hp
  · obtain ⟨visible, -, hp⟩ := List.mem_flatMap.1 hp
    exact hif (.of_quiet _) p hp
  · obtain ⟨a, -, rfl⟩ := List.mem_map.1 hp
    exact .of_quiet _
  · exact hif .ofTable p hp

/-- The attributes of a class in a row. -/
theorem steadyWith_classAttributes (table : Array Bootstrap) (c : Class) (bootstrap : Bool) :
    SteadyWith table (attributes (classPieces c bootstrap) c.layout.attributeOrder) := by
  unfold attributes all
  refine (SteadyWith.of_quiet _).bind fun _ => .bind (.bind (.mapM ?_) fun _ => .of_quiet _)
    fun _ => .of_quiet _
  intro piece hpiece
  exact .encode (steadyWith_classPieces c _ piece ((ordered_perm _ _).mem_iff.1 hpiece))

/-! ## The file -/

/-- Whether a class file has a bootstrap table. -/
def hasBootstrap (c : Class) (P : Pool) : Bool :=
  !P.bootstrap.isEmpty || c.layout.attributeOrder.contains AttributeName.bootstrapMethods

/-- The parts behind the pool of a class file, each written with all that the pool has. -/
structure Parts (verify : Bool) (c : Class) (P : Pool) where
  access : Bytes
  name : Bytes
  super : Bytes
  interfaces : Bytes
  fields : Bytes
  methods : Bytes
  attributes : Bytes
  fixed_access : Bytes.unsigned? 2 c.access = some access
  fixed_name : Fixed P (index (Pool.addClass (some c.name))) name
  fixed_super : Fixed P (do u2 (← classIndex c.super)) super
  fixed_interfaces : Fixed P (listOf (fun i => index (Pool.addClass i)) c.interfaces) interfaces
  fixed_fields : Fixed P (listOf field c.fields) fields
  fixed_methods : Fixed P (listOf (method c.name verify (stackMapMajor ≤ c.major)) c.methods) methods
  fixed_attributes :
    Fixed P (Encoding.attributes (classPieces c (hasBootstrap c P)) c.layout.attributeOrder)
      attributes

/-- The bytes of the parts. -/
def Parts.bytes {verify : Bool} {c : Class} {P : Pool} (parts : Parts verify c P) : Bytes :=
  parts.access ++ parts.name ++ parts.super ++ parts.interfaces ++ parts.fields ++ parts.methods
    ++ parts.attributes

/-- What is written behind the pool are its parts, and the pool at the end has all that any of them
has asked for. So each part can be looked at with the last pool, as if nothing had been added on the
way. -/
theorem parts_of_body {verify : Bool} {c : Class} {p P : Pool} {bytes : Bytes}
    (h : body verify c p = .ok (bytes, P)) :
    Grows .all p P ∧ ∃ parts : Parts verify c P, bytes = parts.bytes := by
  unfold body at h
  obtain ⟨access, p₁, haccess, h⟩ := bind_eq_ok_iff.1 h
  obtain ⟨name, p₂, hname, h⟩ := bind_eq_ok_iff.1 h
  obtain ⟨super, p₃, hsuper, h⟩ := bind_eq_ok_iff.1 h
  obtain ⟨super', p₄, hsuper', h⟩ := bind_eq_ok_iff.1 h
  obtain ⟨interfaces, p₅, hinterfaces, h⟩ := bind_eq_ok_iff.1 h
  obtain ⟨fields, p₆, hfields, h⟩ := bind_eq_ok_iff.1 h
  obtain ⟨methods, p₇, hmethods, h⟩ := bind_eq_ok_iff.1 h
  obtain ⟨_, _, ⟨⟩, h⟩ := bind_eq_ok_iff.1 h
  obtain ⟨attributes, p₈, hattributes, h⟩ := bind_eq_ok_iff.1 h
  cases h
  have hgrows₁ : Grows .all p p₂ := (Growing.grows haccess).trans (Growing.grows hname)
  have hgrows₂ : Grows .all p₂ p₄ := (Growing.grows hsuper).trans (Growing.grows hsuper')
  have hgrows₃ : Grows .all p₄ p₆ := (Growing.grows hinterfaces).trans (Growing.grows hfields)
  have hgrows₄ : Grows .all p₆ p₇ := Growing.grows hmethods
  have hpieces := steadyWith_classAttributes p₇.bootstrap c (hasBootstrap c p₇)
  obtain ⟨htable, hgrows₅⟩ := hpieces.grows rfl hattributes
  have hin₇ : p₇.Within P := hgrows₅.within
  have hin₆ : p₆.Within P := hgrows₄.within.trans hin₇
  have hin₄ : p₄.Within P := hgrows₃.within.trans hin₆
  have hin₂ : p₂.Within P := hgrows₂.within.trans hin₄
  refine ⟨(((hgrows₁.trans hgrows₂).trans hgrows₃).trans hgrows₄).trans hgrows₅, ?_⟩
  have hflag : hasBootstrap c p₇ = hasBootstrap c P := by
    unfold hasBootstrap
    rw [htable]
  refine ⟨⟨access, name, super', interfaces, fields, methods, attributes, ?_, ?_, ?_, ?_, ?_, ?_, ?_⟩,
    rfl⟩
  · exact fixed_u2_iff.1 (Steady.fixed haccess ((Growing.grows hname).within.trans hin₂))
  · exact Steady.fixed hname hin₂
  · exact fixed_bind_iff.2 ⟨super, Steady.fixed hsuper ((Growing.grows hsuper').within.trans hin₄),
      Steady.fixed hsuper' hin₄⟩
  · exact Steady.fixed hinterfaces ((Growing.grows hfields).within.trans hin₆)
  · exact Steady.fixed hfields hin₆
  · exact Steady.fixed hmethods hin₇
  · rw [← hflag]
    exact hpieces.again rfl hattributes htable (.refl P)

/-- A class file in its parts, with the pool that is in it. -/
structure Written (verify : Bool) (c : Class) (bytes : Bytes) where
  pool : Pool
  parts : Parts verify c pool
  magic : Bytes
  minor : Bytes
  major : Bytes
  entries : Bytes
  run : (classFile verify c).run (Pool.seeded c.layout.pool c.layout.bootstrap) = .ok (bytes, pool)
  grows : Grows .all (Pool.seeded c.layout.pool c.layout.bootstrap) pool
  magic_eq : Bytes.unsigned? 4 (Decoding.magic : Nat) = some magic
  minor_eq : Bytes.unsigned? 2 c.minor = some minor
  major_eq : Bytes.unsigned? 2 c.major = some major
  entries_eq : pool.encode? = some entries
  bytes_eq : bytes = magic ++ minor ++ major ++ entries ++ parts.bytes

/-- What a class file is written from: a magic number, the version, the pool as it stands once
everything else is written, and the parts of the class behind it. -/
theorem classFile_eq_ok {verify : Bool} {c : Class} {p q : Pool} {bytes : Bytes}
    (h : classFile verify c p = .ok (bytes, q)) :
    ∃ magic minor major entries behind,
      Bytes.unsigned? 4 (Decoding.magic : Nat) = some magic ∧
      Bytes.unsigned? 2 c.minor = some minor ∧ Bytes.unsigned? 2 c.major = some major ∧
      q.encode? = some entries ∧ body verify c p = .ok (behind, q) ∧
      bytes = magic ++ minor ++ major ++ entries ++ behind := by
  unfold classFile at h
  obtain ⟨behind, P, hbody, h⟩ := bind_eq_ok_iff.1 h
  rw [get_bind_apply] at h
  split at h
  · cases h
  obtain ⟨magic, _, hmagic, h⟩ := bind_eq_ok_iff.1 h
  obtain ⟨minor, _, hminor, h⟩ := bind_eq_ok_iff.1 h
  obtain ⟨major, _, hmajor, h⟩ := bind_eq_ok_iff.1 h
  obtain ⟨entries, _, hentries, h⟩ := bind_eq_ok_iff.1 h
  unfold u4 at hmagic
  unfold u2 at hminor hmajor
  rw [fit_eq_ok_iff] at hmagic hminor hmajor
  rw [lift_eq_ok_iff] at hentries
  obtain ⟨hmagic, rfl⟩ := hmagic
  obtain ⟨hminor, rfl⟩ := hminor
  obtain ⟨hmajor, rfl⟩ := hmajor
  obtain ⟨hentries, rfl⟩ := hentries
  cases h
  exact ⟨magic, minor, major, entries, behind, hmagic, hminor, hmajor,
    Pool.encode_eq_ok_iff.1 hentries, hbody, rfl⟩

/-- A class file that is written onto the pool of the layout. -/
theorem toBytes_eq_ok {verify : Bool} {c : Class} {bytes : Bytes} {q : Pool}
    (h : (classFile verify c).run (Pool.seeded c.layout.pool c.layout.bootstrap) = .ok (bytes, q)) :
    c.toBytes verify = .ok bytes := by
  unfold Class.toBytes
  rw [h]

theorem written_of_toBytes {verify : Bool} {c : Class} {bytes : Bytes}
    (h : c.toBytes verify = .ok bytes) : Nonempty (Written verify c bytes) := by
  unfold Class.toBytes at h
  split at h
  · next found q hrun =>
    cases h
    obtain ⟨magic, minor, major, entries, behind, hmagic, hminor, hmajor, hentries, hbody, heq⟩ :=
      classFile_eq_ok hrun
    obtain ⟨hgrows, parts, rfl⟩ := parts_of_body hbody
    exact ⟨⟨q, parts, magic, minor, major, entries, hrun, hgrows, hmagic, hminor, hmajor, hentries, heq⟩⟩
  · cases h

end ClassTree.Encoding
