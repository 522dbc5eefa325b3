/-
# ClassTree.Proofs.Encoding.Steady — writing again adds nothing

Everything in a class but its bootstrap table is written by steady encoders: they add constants to
the pool and otherwise depend on nothing but the indices that they find there.
-/
import ClassTree.Encoding.ClassFile
import ClassTree.Proofs.Pool.Adding

namespace ClassTree.Encoding

open Encoder

/-! ## Constants -/

instance steady_addInteger (v : Constant) : Steady (addInteger v) := by
  unfold addInteger
  infer_instance

instance steady_addLong (v : Constant) : Steady (addLong v) := by
  unfold addLong
  split <;> infer_instance

instance steady_addFloat (v : Constant) : Steady (addFloat v) := by
  unfold addFloat
  infer_instance

instance steady_addDouble (v : Constant) : Steady (addDouble v) := by
  unfold addDouble
  infer_instance

instance steady_addText (v : Constant) : Steady (addText v) := by
  unfold addText
  split
  · exact steady_addUtf8 _
  · infer_instance

instance steady_addString (v : Constant) : Steady (addString v) := by
  unfold addString
  infer_instance

instance steady_addConstant (kind : Text) (v : Constant) : Steady (addConstant kind v) := by
  unfold addConstant
  split
  · split <;> infer_instance
  · split <;> infer_instance

instance steady_addLoaded (op : Opcode) (v : Constant) : Steady (addLoaded op v) := by
  unfold addLoaded
  split <;> infer_instance

instance steady_addFieldConstant (descriptor : Text) (v : Constant) :
    Steady (addFieldConstant descriptor v) := by
  unfold addFieldConstant
  infer_instance

/-! ## Annotations -/

instance steady_tagByte (tag : ElementTag) : Steady (tagByte tag) := by
  unfold tagByte
  split <;> infer_instance

instance steady_addScalar (tag : ElementTag) (v : Constant) : Steady (addScalar tag v) := by
  unfold addScalar
  split <;> infer_instance

mutual

theorem steady_element (v : ElementValue) : Steady (element v) := by
  cases v with
  | scalar tag v =>
    unfold element
    infer_instance
  | enum descriptor name =>
    unfold element
    infer_instance
  | nested descriptor visible values =>
    have := steady_named values []
    unfold element
    infer_instance
  | array es =>
    have := steady_elements es []
    unfold element
    infer_instance

theorem steady_elements (es : List ElementValue) (acc : List Bytes) : Steady (elements es acc) := by
  cases es with
  | nil =>
    unfold elements
    infer_instance
  | cons v rest =>
    have := steady_element v
    have := fun part => steady_elements rest (part :: acc)
    unfold elements
    infer_instance

theorem steady_named (values : List (Text × ElementValue)) (acc : List Bytes) :
    Steady (named values acc) := by
  match values with
  | [] =>
    unfold named
    infer_instance
  | (name, v) :: rest =>
    have := steady_element v
    have := fun part => steady_named rest (part :: acc)
    unfold named
    infer_instance

end

attribute [instance] steady_element steady_elements steady_named

instance steady_annotationUse (a : AnnotationUse) : Steady (annotationUse a) := by
  unfold annotationUse
  infer_instance

instance steady_annotationUses (as : List AnnotationUse) : Steady (annotationUses as) := by
  unfold annotationUses
  infer_instance

/-! ## Attributes -/

instance steady_encode (p : Piece) [Steady p.content] : Steady p.encode := by
  unfold Piece.encode
  infer_instance

/-- Arranging pieces by name neither adds nor loses one. -/
theorem ordered_perm (names : List Text) (pieces : List Piece) :
    (Piece.ordered names pieces).Perm pieces := by
  induction names generalizing pieces with
  | nil => exact .refl _
  | cons name names ih =>
    have hsplit := List.takeWhile_append_dropWhile (p := fun p : Piece => p.name ≠ name) (l := pieces)
    rw [Piece.ordered]
    split
    · next q after hq =>
      rw [hq] at hsplit
      refine ((ih _).cons q).trans ?_
      conv_rhs => rw [← hsplit]
      exact List.perm_middle.symm
    · exact ih pieces

theorem steady_attributes {pieces : List Piece} (h : ∀ p ∈ pieces, Steady p.content)
    (order : List Text) : Steady (attributes pieces order) := by
  have hall : Steady ((Piece.ordered order pieces).mapM Piece.encode) := by
    refine steady_mapM_of_mem ?_
    intro p hp
    have := h p ((ordered_perm order pieces).mem_iff.1 hp)
    infer_instance
  unfold attributes all
  infer_instance

/-! ## Code -/

instance steady_roomOf (i : Instruction Label) : Steady (roomOf i) := by
  unfold roomOf
  split <;> infer_instance

instance steady_roomsOf (body : List Item) : Steady (roomsOf body) := by
  unfold roomsOf
  refine steady_mapM_of_mem ?_
  intro item _
  cases item <;> infer_instance

instance steady_layoutOf (body : List Item) : Steady (Layout.of body) := by
  unfold Layout.of
  infer_instance

instance steady_loadConstant (op : Opcode) (v : Constant) : Steady (loadConstant op v) := by
  unfold loadConstant
  infer_instance

instance steady_call (op : Opcode) (owner : Option Text) (name descriptor : Text)
    (interface : Bool) : Steady (call op owner name descriptor interface) := by
  unfold call
  infer_instance

instance steady_callSite (name descriptor : Text) (bootstrap : Handle)
    (arguments : List (Text × Constant)) :
    Steady (callSite name descriptor bootstrap arguments) := by
  unfold callSite
  infer_instance

instance steady_jump (op : Opcode) (isFar : Bool) (distance : Int) :
    Steady (jump op isFar distance) := by
  unfold jump
  split
  · infer_instance
  · split
    · split <;> infer_instance
    · infer_instance

instance steady_operation (offset : Nat) (isFar : Bool) (i : Instruction Int) :
    Steady (operation offset isFar i) := by
  unfold operation
  split <;> try infer_instance
  split <;> infer_instance

/-- Naming a fault does not touch what is written. -/
theorem naming_eq_ok_iff {op : Opcode} {place : Text} {position : Nat} {e : Encoder Bytes}
    {p q : Pool} {bytes : Bytes} :
    naming op place position e p = .ok (bytes, q) ↔ e p = .ok (bytes, q) := by
  unfold naming
  split
  · next h => simp [h]
  · rfl

instance steady_naming (op : Opcode) (place : Text) (position : Nat) (e : Encoder Bytes)
    [he : Steady e] : Steady (naming op place position e) where
  grows := fun h => he.grows (naming_eq_ok_iff.1 h)
  again := fun h hP => naming_eq_ok_iff.2 (he.again (naming_eq_ok_iff.1 h) hP)

/-- Exchanging targets by steady encoders. -/
instance steady_mapTargets {τ σ : Type} (f : τ → Encoder σ) [∀ t, Steady (f t)]
    (i : Instruction τ) : Steady (i.mapTargets f) := by
  unfold Instruction.mapTargets
  split <;> infer_instance

instance steady_item (l : Layout) (place : Text) (position : Nat) (item : Item) :
    Steady (Encoding.item l place position item) := by
  unfold Encoding.item
  split <;> infer_instance

instance steady_operations (l : Layout) (place : Text) (body : List Item) :
    Steady (operations l place body) := by
  unfold operations
  infer_instance

/-! ## Stack maps -/

instance steady_objectIndex (payload : Payload) : Steady (objectIndex payload) := by
  unfold objectIndex
  split <;> infer_instance

instance steady_verificationType (l : Layout) (v : VerificationType) :
    Steady (verificationType l v) := by
  unfold verificationType
  have hplace (tag : Bytes) : Steady (match v.payload with
      | .site (.position p) => do return tag ++ (← u2 (l.offset p))
      | .site (.label label) => do return tag ++ (← u2 (← l.resolve label))
      | _ => throw (.undefined .kind) : Encoder Bytes) := by
    split <;> infer_instance
  infer_instance

instance steady_stackItem (l : Layout) (f : Frame) : Steady (stackItem l f) := by
  unfold stackItem
  split <;> infer_instance

instance steady_frame (l : Layout) (place : Text) (position distance : Nat) (f : Frame) :
    Steady (frame l place position distance f) := by
  unfold frame
  split <;> infer_instance

instance steady_framesFrom (l : Layout) (place : Text) (next : Nat) (frames : List (Nat × Frame))
    (acc : List Bytes) : Steady (framesFrom l place next frames acc) := by
  induction frames generalizing next acc with
  | nil =>
    unfold framesFrom
    infer_instance
  | cons head rest ih =>
    obtain ⟨position, f⟩ := head
    unfold framesFrom
    infer_instance

instance steady_stackMap (l : Layout) (place : Text) (frames : List (Nat × Frame)) :
    Steady (stackMap l place frames) := by
  unfold stackMap
  infer_instance

/-! ## The code of a method -/

instance steady_classIndex (name : Option Text) : Steady (classIndex name) := by
  unfold classIndex
  split <;> infer_instance

/-- The type of a handler is a class that may be missing. -/
theorem handler_eq (l : Layout) (h : Handler) :
    handler l h = do
      let start ← l.resolve h.start
      let stop ← l.resolve h.stop
      let target ← l.resolve h.target
      let type ← classIndex h.type
      return (← u2 start) ++ (← u2 stop) ++ (← u2 target) ++ (← u2 type) := by
  obtain ⟨start, stop, target, type⟩ := h
  rcases type with _ | _ | ⟨c, rest⟩ <;> rfl

instance steady_handler (l : Layout) (h : Handler) : Steady (handler l h) := by
  rw [handler_eq]
  infer_instance

instance steady_lineTable (entries : List (Nat × Int)) : Steady (lineTable entries) := by
  unfold lineTable
  infer_instance

instance steady_localVariable (l : Layout) (v : LocalVariable) (type : Text) :
    Steady (localVariable l v type) := by
  unfold localVariable
  infer_instance

/-- Every piece of a list can be written by a steady encoder. -/
def SteadyPieces (pieces : List Piece) : Prop := ∀ p ∈ pieces, Steady p.content

namespace SteadyPieces

variable {pieces pieces' : List Piece} {name : Text}

theorem append (h : SteadyPieces pieces) (h' : SteadyPieces pieces') :
    SteadyPieces (pieces ++ pieces') := by
  intro p hp
  rcases List.mem_append.1 hp with hp | hp
  · exact h p hp
  · exact h' p hp

/-- A piece that is there for a reason. -/
theorem pieceIf (condition : Bool) (content : Encoder Bytes) [hc : Steady content] :
    SteadyPieces (Encoding.pieceIf condition name content) := by
  intro p hp
  unfold Encoding.pieceIf at hp
  split at hp
  · obtain rfl := List.mem_singleton.1 hp
    exact hc
  · cases hp

theorem pieceOf? {α : Type} (content : α → Encoder Bytes) [hc : ∀ a, Steady (content a)]
    (value : Option α) : SteadyPieces (Encoding.pieceOf? name content value) := by
  intro p hp
  cases value with
  | none => cases hp
  | some a =>
    obtain rfl := List.mem_singleton.1 hp
    exact hc a

theorem raw (as : List Attribute) : SteadyPieces (rawPieces as) := by
  intro p hp
  obtain ⟨a, -, rfl⟩ := List.mem_map.1 hp
  exact steady_pure a.data

theorem annotations (as : List AnnotationUse) : SteadyPieces (annotationPieces as) := by
  intro p hp
  obtain ⟨visible, -, hp⟩ := List.mem_flatMap.1 hp
  exact pieceIf _ _ p hp

end SteadyPieces

theorem steady_codePieces (m : Method) (l : Layout) (place : Text) (frames : List (Nat × Frame)) :
    SteadyPieces (codePieces m l place frames) := by
  refine .append (.append (.append (.append ?_ ?_) ?_) ?_) (.raw _)
  · intro p hp
    obtain ⟨table, -, rfl⟩ := List.mem_map.1 hp
    exact steady_lineTable _
  · exact .pieceIf _ _
  · exact .pieceIf _ _
  · exact .pieceIf _ _

/-- Code must not be too long. -/
def checkLength (place : Text) (bytes : Bytes) : Encoder Unit :=
  if bytes.length > maxCodeLength then
    throw (.unverified (.codeLength bytes.length) (some place) none)
  else pure ()

instance steady_checkLength (place : Text) (bytes : Bytes) : Steady (checkLength place bytes) := by
  unfold checkLength
  infer_instance

/-- The parts of a code attribute, one after another. -/
theorem code_eq (owner : Text) (verify stackMaps : Bool) (m : Method) :
    code owner verify stackMaps m = do
      let _ ← checkLabels (Flow.Program.placeOf owner m) m
      let l ← Layout.of m.body
      let r ← verified owner verify stackMaps m l
      let bytes ← operations l (Flow.Program.placeOf owner m) m.body
      let _ ← checkLength (Flow.Program.placeOf owner m) bytes
      let stack ← u2 r.1.stack
      let locals ← u2 r.1.locals
      let length ← u4 bytes.length
      let handlers ← listOf (handler l) m.handlers
      let attributes ← attributes (codePieces m l (Flow.Program.placeOf owner m) r.2)
        m.layout.codeOrder
      return stack ++ locals ++ length ++ bytes ++ handlers ++ attributes := by
  unfold code checkLength
  refine bind_congr fun _ => bind_congr fun l => bind_congr fun r => ?_
  obtain ⟨sizes, frames⟩ := r
  refine bind_congr fun bytes => ?_
  split <;> rfl

instance steady_code (owner : Text) (verify stackMaps : Bool) (m : Method) :
    Steady (code owner verify stackMaps m) := by
  rw [code_eq]
  have (l : Layout) (frames : List (Nat × Frame)) :
      Steady (attributes (codePieces m l (Flow.Program.placeOf owner m) frames)
        m.layout.codeOrder) :=
    steady_attributes (steady_codePieces m l _ frames) _
  infer_instance

/-! ## Members -/

instance steady_memberHead (access : Int) (name descriptor : Text) :
    Steady (memberHead access name descriptor) := by
  unfold memberHead
  infer_instance

theorem steady_fieldPieces (f : Field) : SteadyPieces (fieldPieces f) :=
  .append (.append (.append (.pieceOf? _ _) (.pieceOf? _ _)) (.annotations _)) (.raw _)

instance steady_field (f : Field) : Steady (field f) := by
  unfold field
  have := steady_attributes (steady_fieldPieces f) f.attributeOrder
  infer_instance

instance steady_countByte (count : Int) : Steady (countByte count) := steady_u1 count

instance steady_parameterAnnotations (place : Text) (m : Method) (visible : Bool)
    (given : Option Int) : Steady (parameterAnnotations place m visible given) := by
  unfold parameterAnnotations
  have (count : Int) : Steady (match
      (m.parameters.take (m.parameters.length - count.toNat)).find? (isAnnotated visible) with
      | some p => throw (.unverified (.annotatedParameter p.index count) (some place) none)
      | none => do
        let head ← countByte count
        return head ++ (← all (fun p => annotationUses (ofVisibility visible p.annotations))
          (m.parameters.drop (m.parameters.length - count.toNat))) : Encoder Bytes) := by
    split <;> infer_instance
  infer_instance

/-- A name that may be missing, which gives index zero. -/
def givenName (name : Option Text) : Encoder Nat :=
  match name with
  | some n => pooled (Pool.addUtf8 n)
  | none => pure 0

instance steady_givenName (name : Option Text) : Steady (givenName name) := by
  unfold givenName
  split <;> infer_instance

theorem parameter_eq (p : Parameter) :
    parameter p = do
      let name ← givenName p.name
      return (← u2 name) ++ (← u2 p.access) := by
  obtain ⟨index, descriptor, annotations, name, access⟩ := p
  cases name <;> rfl

instance steady_parameter (p : Parameter) : Steady (parameter p) := by
  rw [parameter_eq]
  infer_instance

instance steady_methodParameters (place : Text) (m : Method) :
    Steady (methodParameters place m) := by
  unfold methodParameters
  have (count : Int) : Steady (match (m.parameters.drop count.toNat).find? isNamed with
      | some p => throw (.unverified (.namedParameter p.index count) (some place) none)
      | none => do
        let head ← countByte count
        return head ++ (← all parameter (m.parameters.take count.toNat)) : Encoder Bytes) := by
    split <;> infer_instance
  infer_instance

theorem steady_methodPieces (owner : Text) (verify stackMaps : Bool) (m : Method) :
    SteadyPieces (methodPieces owner verify stackMaps m) :=
  .append (.append (.append (.append (.append (.append (.append (.append (.pieceIf _ _)
    (.pieceIf _ _)) (.pieceOf? _ _)) (.annotations _)) (.pieceIf _ _)) (.pieceIf _ _))
    (.pieceOf? _ _)) (.pieceIf _ _)) (.raw _)

instance steady_method (owner : Text) (verify stackMaps : Bool) (m : Method) :
    Steady (method owner verify stackMaps m) := by
  unfold method
  have := steady_attributes (steady_methodPieces owner verify stackMaps m) m.layout.attributeOrder
  infer_instance

/-! ## Classes -/

instance steady_nameIndex (name : Option Text) : Steady (nameIndex name) := by
  unfold nameIndex
  split <;> infer_instance

instance steady_innerClass (i : InnerClass) : Steady (innerClass i) := by
  unfold innerClass
  infer_instance

/-- The method of a local class, which may be missing. -/
def givenMember (e : EnclosingMethod) : Encoder Nat :=
  match e.name with
  | some n => pooled (Pool.addNameAndType n e.descriptor)
  | none => pure 0

instance steady_givenMember (e : EnclosingMethod) : Steady (givenMember e) := by
  unfold givenMember
  split <;> infer_instance

/-- An enclosing method is its class and its name with a descriptor. -/
theorem enclosingMethod_eq (e : EnclosingMethod) :
    enclosingMethod e = do
      let member ← givenMember e
      let owner ← pooled (Pool.addClass e.owner)
      return (← u2 owner) ++ (← u2 member) := by
  obtain ⟨owner, name, descriptor⟩ := e
  cases name <;> rfl

instance steady_enclosingMethod (e : EnclosingMethod) : Steady (enclosingMethod e) := by
  rw [enclosingMethod_eq]
  infer_instance

instance steady_bootstrapMethod (b : Bootstrap) : Steady (bootstrapMethod b) := by
  unfold bootstrapMethod
  infer_instance

end ClassTree.Encoding
