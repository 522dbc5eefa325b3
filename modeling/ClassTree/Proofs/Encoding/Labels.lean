/-
# ClassTree.Proofs.Encoding.Labels — a sound class is written without stumbling over labels

Labels are checked once for each method, before its code is written. Where the check goes through,
the rest of the way does not fail over a label: a layout has no failure of that sort, and the
analysis finds all labels that it looks for. The check of a sound method goes through.
-/
import ClassTree.Proofs.Encoding.Steady
import ClassTree.Proofs.Flow.Labels
import ClassTree.Proofs.Label.Registry
import Mathlib.Data.List.TakeWhile

namespace ClassTree

namespace Encoder

variable {α β : Type}

/-- An encoder does not fail over a label, whatever the pool. -/
class SparesLabels (e : Encoder α) : Prop where
  spares : ∀ p : Pool, Result.SparesLabels (e p)

instance spares_pure (a : α) : SparesLabels (pure a : Encoder α) := ⟨fun _ => Result.spares_ok _⟩

instance spares_bind (x : Encoder α) (f : α → Encoder β) [hx : SparesLabels x]
    [hf : ∀ a, SparesLabels (f a)] : SparesLabels (x >>= f) :=
  ⟨fun p => (hx.spares p).bind_of fun r _ => (hf r.1).spares r.2⟩

instance spares_throw_undefined (cause : Undefined) :
    SparesLabels (throw (.undefined cause) : Encoder α) := ⟨fun _ => Result.spares_undefined cause⟩

instance spares_throw_unverified (cause : Unverified) (place : Option Text) (position : Option Nat) :
    SparesLabels (throw (.unverified cause place position) : Encoder α) :=
  ⟨fun _ => Result.spares_unverified cause place position⟩

/-- What is given apart from the pool is followed by more. -/
theorem spares_lift_bind {x : Result α} {f : α → Encoder β} (hx : Result.SparesLabels x)
    (hf : ∀ a, x = .ok a → SparesLabels (f a)) : SparesLabels (liftM x >>= f) := by
  cases x with
  | error e => exact ⟨fun _ => ⟨fun h => hx.spares (congrArg _ (Except.error.inj h))⟩⟩
  | ok a => exact hf a rfl

instance spares_lift (x : Result α) [hx : Result.SparesLabels x] :
    SparesLabels (liftM x : Encoder α) := by
  rw [← bind_pure (liftM x)]
  exact spares_lift_bind hx fun a _ => spares_pure a

instance spares_ite (c : Prop) [Decidable c] (x y : Encoder α) [hx : SparesLabels x]
    [hy : SparesLabels y] : SparesLabels (if c then x else y) := by
  split
  · exact hx
  · exact hy

instance spares_pooled (m : StateM Pool α) : SparesLabels (pooled m) :=
  ⟨fun p => Result.spares_ok (m p)⟩

instance spares_get : SparesLabels (get : Encoder Pool) := ⟨fun p => Result.spares_ok (p, p)⟩

instance spares_fit (bytes? : Option Bytes) : SparesLabels (fit bytes?) := by
  unfold fit
  split <;> infer_instance

instance spares_u1 (n : Int) : SparesLabels (u1 n) := spares_fit _

instance spares_u2 (n : Int) : SparesLabels (u2 n) := spares_fit _

instance spares_u4 (n : Int) : SparesLabels (u4 n) := spares_fit _

instance spares_s1 (n : Int) : SparesLabels (s1 n) := spares_fit _

instance spares_s2 (n : Int) : SparesLabels (s2 n) := spares_fit _

instance spares_s4 (n : Int) : SparesLabels (s4 n) := spares_fit _

instance spares_index (m : StateM Pool Nat) : SparesLabels (index m) := by
  unfold index
  infer_instance

theorem spares_mapM_of_mem {each : α → Encoder β} {things : List α}
    (h : ∀ a ∈ things, SparesLabels (each a)) : SparesLabels (things.mapM each) := by
  induction things with
  | nil =>
    rw [List.mapM_nil]
    infer_instance
  | cons a things ih =>
    rw [List.mapM_cons]
    have := h a (by simp)
    have := ih fun b hb => h b (by simp [hb])
    infer_instance

instance spares_mapM (each : α → Encoder β) [h : ∀ a, SparesLabels (each a)] (things : List α) :
    SparesLabels (things.mapM each) := spares_mapM_of_mem fun a _ => h a

theorem spares_all_of_mem {each : α → Encoder Bytes} {things : List α}
    (h : ∀ a ∈ things, SparesLabels (each a)) : SparesLabels (all each things) := by
  have := spares_mapM_of_mem h
  unfold all
  infer_instance

instance spares_all (each : α → Encoder Bytes) [h : ∀ a, SparesLabels (each a)] (things : List α) :
    SparesLabels (all each things) := spares_all_of_mem fun a _ => h a

theorem spares_listOf_of_mem {each : α → Encoder Bytes} {things : List α}
    (h : ∀ a ∈ things, SparesLabels (each a)) : SparesLabels (listOf each things) := by
  have := spares_all_of_mem h
  unfold listOf
  infer_instance

instance spares_listOf (each : α → Encoder Bytes) [h : ∀ a, SparesLabels (each a)]
    (things : List α) : SparesLabels (listOf each things) := spares_listOf_of_mem fun a _ => h a

end Encoder

namespace Encoding

open Encoder

/-! ## Constants -/

instance spares_integerOf (v : Constant) : Result.SparesLabels (integerOf v) := by
  have (n : Option Int) : Result.SparesLabels (match n with
      | some n => .ok n
      | none => .error (.undefined .kind) : Result Int) := by
    cases n <;> infer_instance
  unfold integerOf
  split
  · infer_instance
  · infer_instance
  · exact this _
  · exact this _
  · exact this _
  · infer_instance

instance spares_doubleOf (v : Constant) : Result.SparesLabels (doubleOf v) := by
  unfold doubleOf
  split
  · infer_instance
  · split
    · infer_instance
    · split <;> infer_instance

instance spares_singleOf (v : Constant) : Result.SparesLabels (singleOf v) := by
  unfold singleOf
  refine (spares_doubleOf v).bind_of fun x _ => ?_
  cases x.toSingle? <;> infer_instance

instance spares_addInteger (v : Constant) : SparesLabels (addInteger v) := by
  unfold addInteger
  infer_instance

instance spares_addLong (v : Constant) : SparesLabels (addLong v) := spares_pooled _

instance spares_addFloat (v : Constant) : SparesLabels (addFloat v) := by
  unfold addFloat
  infer_instance

instance spares_addDouble (v : Constant) : SparesLabels (addDouble v) := by
  unfold addDouble
  infer_instance

instance spares_addText (v : Constant) : SparesLabels (addText v) := spares_pooled _

instance spares_addString (v : Constant) : SparesLabels (addString v) := by
  unfold addString
  infer_instance

instance spares_addConstant (kind : Text) (v : Constant) : SparesLabels (addConstant kind v) := by
  unfold addConstant
  split
  · split <;> infer_instance
  · split <;> infer_instance

instance spares_addLoaded (op : Opcode) (v : Constant) : SparesLabels (addLoaded op v) := by
  unfold addLoaded
  split <;> infer_instance

instance spares_addFieldConstant (descriptor : Text) (v : Constant) :
    SparesLabels (addFieldConstant descriptor v) := by
  unfold addFieldConstant
  infer_instance

/-! ## Annotations -/

instance spares_tagByte (tag : ElementTag) : SparesLabels (tagByte tag) := by
  unfold tagByte
  split <;> infer_instance

instance spares_addScalar (tag : ElementTag) (v : Constant) : SparesLabels (addScalar tag v) := by
  unfold addScalar
  split <;> infer_instance

mutual

theorem spares_element (v : ElementValue) : SparesLabels (element v) := by
  cases v with
  | scalar tag v =>
    unfold element
    infer_instance
  | enum descriptor name =>
    unfold element
    infer_instance
  | nested descriptor visible values =>
    have := spares_named values []
    unfold element
    infer_instance
  | array es =>
    have := spares_elements es []
    unfold element
    infer_instance

theorem spares_elements (es : List ElementValue) (acc : List Bytes) :
    SparesLabels (elements es acc) := by
  cases es with
  | nil =>
    unfold elements
    infer_instance
  | cons v rest =>
    have := spares_element v
    have := fun part => spares_elements rest (part :: acc)
    unfold elements
    infer_instance

theorem spares_named (values : List (Text × ElementValue)) (acc : List Bytes) :
    SparesLabels (named values acc) := by
  match values with
  | [] =>
    unfold named
    infer_instance
  | (name, v) :: rest =>
    have := spares_element v
    have := fun part => spares_named rest (part :: acc)
    unfold named
    infer_instance

end

attribute [instance] spares_element spares_named

instance spares_annotationUses (as : List AnnotationUse) : SparesLabels (annotationUses as) := by
  have (a : AnnotationUse) : SparesLabels (annotationUse a) := by
    unfold annotationUse
    infer_instance
  unfold annotationUses
  infer_instance

/-! ## Attributes -/

/-- No content of the pieces fails over a label. -/
def SparingPieces (pieces : List Piece) : Prop := ∀ p ∈ pieces, SparesLabels p.content

namespace SparingPieces

variable {pieces pieces' : List Piece} {name : Text}

theorem attributes (h : SparingPieces pieces) (order : List Text) :
    SparesLabels (Encoding.attributes pieces order) := by
  have hall : SparesLabels (all Piece.encode (Piece.ordered order pieces)) := by
    refine spares_all_of_mem fun p hp => ?_
    have := h p ((ordered_perm order pieces).mem_iff.1 hp)
    unfold Piece.encode
    infer_instance
  unfold Encoding.attributes
  infer_instance

theorem append (h : SparingPieces pieces) (h' : SparingPieces pieces') :
    SparingPieces (pieces ++ pieces') :=
  fun p hp => (List.mem_append.1 hp).elim (h p) (h' p)

/-- A piece that is there for a reason. -/
theorem pieceIf {condition : Bool} {content : Encoder Bytes}
    (h : condition = true → SparesLabels content) :
    SparingPieces (Encoding.pieceIf condition name content) := by
  intro p hp
  unfold Encoding.pieceIf at hp
  split at hp
  · next hcondition =>
    obtain rfl := List.mem_singleton.1 hp
    exact h hcondition
  · cases hp

theorem pieceOf? {α : Type} (content : α → Encoder Bytes) [h : ∀ a, SparesLabels (content a)]
    (value : Option α) : SparingPieces (Encoding.pieceOf? name content value) := by
  intro p hp
  cases value with
  | none => cases hp
  | some a =>
    obtain rfl := List.mem_singleton.1 hp
    exact h a

theorem raw (as : List Attribute) : SparingPieces (rawPieces as) := by
  intro p hp
  obtain ⟨a, -, rfl⟩ := List.mem_map.1 hp
  exact spares_pure a.data

theorem annotations (as : List AnnotationUse) : SparingPieces (annotationPieces as) := by
  intro p hp
  obtain ⟨visible, -, hp⟩ := List.mem_flatMap.1 hp
  exact pieceIf (fun _ => spares_annotationUses _) p hp

end SparingPieces

/-! ## Layouts -/

instance spares_roomOf (i : Instruction Label) : SparesLabels (roomOf i) := by
  unfold roomOf
  split <;> infer_instance

instance spares_layoutOf (body : List Item) : SparesLabels (Layout.of body) := by
  have : SparesLabels (roomsOf body) := by
    unfold roomsOf
    refine spares_mapM_of_mem fun item _ => ?_
    cases item <;> infer_instance
  unfold Layout.of
  infer_instance

instance spares_resolve (l : Layout) (label : Label) : Result.SparesLabels (l.resolve label) := by
  unfold Layout.resolve
  split <;> infer_instance

/-! ## Instructions -/

instance spares_jump (op : Opcode) (isFar : Bool) (distance : Int) :
    SparesLabels (jump op isFar distance) := by
  unfold jump
  split
  · infer_instance
  · split
    · split <;> infer_instance
    · infer_instance

instance spares_operation (offset : Nat) (isFar : Bool) (i : Instruction Int) :
    SparesLabels (operation offset isFar i) := by
  unfold operation loadConstant call callSite
  split <;> try infer_instance
  split <;> infer_instance

instance spares_naming (op : Opcode) (place : Text) (position : Nat) (e : Encoder Bytes)
    [he : SparesLabels e] : SparesLabels (naming op place position e) where
  spares := by
    intro p
    unfold naming
    split
    · infer_instance
    · exact he.spares p

instance spares_mapTargets {τ σ : Type} (f : τ → Encoder σ) [∀ t, SparesLabels (f t)]
    (i : Instruction τ) : SparesLabels (i.mapTargets f) := by
  unfold Instruction.mapTargets
  split <;> infer_instance

instance spares_operations (l : Layout) (place : Text) (body : List Item) :
    SparesLabels (operations l place body) := by
  have (item : Item) (position : Nat) : SparesLabels (Encoding.item l place position item) := by
    unfold Encoding.item
    split <;> infer_instance
  unfold operations
  infer_instance

/-! ## Stack maps -/

instance spares_verificationType (l : Layout) (v : VerificationType) :
    SparesLabels (verificationType l v) := by
  have (payload : Payload) : SparesLabels (objectIndex payload) := by
    unfold objectIndex
    split <;> infer_instance
  have (tag : Bytes) : SparesLabels (match v.payload with
      | .site (.position p) => do return tag ++ (← u2 (l.offset p))
      | .site (.label label) => do return tag ++ (← u2 (← l.resolve label))
      | _ => throw (.undefined .kind) : Encoder Bytes) := by
    split <;> infer_instance
  unfold verificationType
  infer_instance

instance spares_frame (l : Layout) (place : Text) (position distance : Nat) (f : Frame) :
    SparesLabels (frame l place position distance f) := by
  have : SparesLabels (stackItem l f) := by
    unfold stackItem
    split <;> infer_instance
  unfold frame
  split <;> infer_instance

instance spares_stackMap (l : Layout) (place : Text) (frames : List (Nat × Frame)) :
    SparesLabels (stackMap l place frames) := by
  have (next : Nat) (acc : List Bytes) : SparesLabels (framesFrom l place next frames acc) := by
    induction frames generalizing next acc with
    | nil =>
      unfold framesFrom
      infer_instance
    | cons head rest ih =>
      obtain ⟨position, f⟩ := head
      unfold framesFrom
      infer_instance
  unfold stackMap
  infer_instance

/-! ## The check -/

variable {m : Method}

/-- What a sound method refers to are labels that its body defines. -/
theorem exists_label_of_mem_referencesOf (hm : m.IsSound) {place : Text} {r : Option Label × Text}
    (hr : r ∈ referencesOf place m) : ∃ l ∈ definitions m.body, r.1 = some l := by
  unfold referencesOf at hr
  simp only [List.mem_append] at hr
  rcases hr with (hr | hr) | hr
  · obtain ⟨⟨item, position⟩, hitem, hr⟩ := List.mem_flatMap.1 hr
    have hitem : item ∈ m.body := List.fst_mem_of_mem_zipIdx hitem
    cases item with
    | label _ | line _ => cases hr
    | instruction i =>
      obtain ⟨l, hl, rfl⟩ := List.mem_map.1 hr
      exact ⟨l, hm.closed.items _ hitem hl, rfl⟩
    | frame f =>
      obtain ⟨v, hv, rfl⟩ := List.mem_map.1 hr
      obtain ⟨hv, htag⟩ := List.mem_filter.1 hv
      have hf : f.IsSound := hm.items _ hitem
      have hsound : v.IsSound := (List.mem_append.1 hv).elim (hf.locals v) (hf.stack v)
      obtain ⟨l, rfl⟩ : ∃ l, v = .uninitialized (.label l) := by
        cases v with
        | uninitialized site =>
          cases site with
          | label l => exact ⟨l, rfl⟩
          | position _ => exact hsound.elim
        | irregular _ _ => exact hsound.elim
        | _ => cases of_decide_eq_true htag
      exact ⟨l, hm.closed.items _ hitem (List.mem_filterMap.2 ⟨_, hv, rfl⟩), rfl⟩
  · obtain ⟨h, hh, hr⟩ := List.mem_flatMap.1 hr
    obtain ⟨l, hl, rfl⟩ := List.mem_map.1 hr
    exact ⟨l, hm.closed.handlers h hh hl, rfl⟩
  · obtain ⟨v, hv, hr⟩ := List.mem_flatMap.1 hr
    obtain ⟨l, hl, rfl⟩ := List.mem_map.1 hr
    exact ⟨l, hm.closed.locals v hv hl, rfl⟩

theorem extends_references (references : References) {r : Label.Registry} (hr : r.IsConsistent) :
    r.Extends [] (references.filterMap Prod.fst) (references.foldl
      (fun (r : Label.Registry) (label?, at_) => match label? with
        | some l => r.reference l at_
        | none => r) r) := by
  induction references generalizing r with
  | nil => exact .refl r
  | cons reference references ih =>
    obtain ⟨label?, place⟩ := reference
    rw [List.foldl_cons]
    cases label? with
    | none => exact ih hr
    | some l =>
      have hextends := Label.Registry.extends_reference r l place hr
      exact hextends.trans (ih (hextends.consistent hr))

/-- The labels of a sound method pass the check of the writer: none is defined twice, and each that
is referred to is defined. The check goes through the method in the order of its parts, with the
labels found so far. -/
theorem checkLabels_eq_ok (hm : m.IsSound) (place : Text) : checkLabels place m = .ok () := by
  obtain ⟨defined, hdefined, hextends⟩ := Label.Registry.exists_definitions
    (r := { place }) hm.closed.nodup (by simp)
  have hconsistent : defined.IsConsistent := hextends.consistent (by simp [Label.Registry.IsConsistent,
    Label.Registry.targets])
  have hlabelled : (referencesOf place m).takeWhile (fun r => r.1.isSome) = referencesOf place m := by
    rw [List.takeWhile_eq_self_iff]
    intro r hr
    obtain ⟨l, -, hl⟩ := exists_label_of_mem_referencesOf hm hr
    rw [hl]
    rfl
  have hreferences := extends_references (referencesOf place m) hconsistent
  unfold checkLabels
  refine Result.bind_eq_ok_iff.2 ⟨defined, hdefined, ?_⟩
  dsimp only
  rw [hlabelled]
  refine Result.bind_eq_ok_iff.2 ⟨(), Label.Registry.close_eq_ok_iff.2 ?_, by simp; rfl⟩
  intro l hl
  refine (hreferences.defined l).2 ?_
  rw [hextends.defined]
  have hl := (hreferences.targets l).1 hl
  rw [hextends.targets] at hl
  rcases hl with (hl | hl) | hl
  · simp [Label.Registry.targets] at hl
  · cases hl
  · obtain ⟨r, hr, hl⟩ := List.mem_filterMap.1 hl
    obtain ⟨l', hl', heq⟩ := exists_label_of_mem_referencesOf hm hr
    rw [hl] at heq
    cases heq
    exact .inl (.inr hl')

/-! ## Code -/

/-- Sizes and frames of a sound method. -/
theorem spares_verified (hm : m.IsSound) (owner : Text) (verify stackMaps : Bool) (l : Layout) :
    Result.SparesLabels (verified owner verify stackMaps m l) := by
  have := Flow.spares_computeMaxima hm.closed owner
  have := Flow.spares_computeFrames hm.closed owner
  have hlandings (place : Text) (positions : List Nat) (index : Nat) (marked : Bool) (body : List Item) :
      Result.SparesLabels (checkLandings place positions index marked body) := by
    induction body generalizing positions index marked with
    | nil => exact Result.spares_ok _
    | cons item body ih =>
      unfold checkLandings
      split
      · infer_instance
      · split
        · split
          · exact ih _ _ _
          · infer_instance
        · exact ih _ _ _
  have hrest (sizes : Maxima) : Result.SparesLabels (do
      if verify && stackMaps then
        checkLandings (Flow.Program.placeOf owner m) (l.landings m.body) 0 false m.body
      return (sizes, ownFrames m.body)) := by
    exact Result.spares_ite _ _ _
  unfold verified
  dsimp only
  split
  · infer_instance
  · split
    · split
      · exact (Flow.spares_computeMaxima hm.closed owner).bind_of fun _ _ =>
          (Result.spares_pure _).bind_of fun sizes _ => hrest sizes
      · exact hrest _
    · exact (Flow.spares_computeMaxima hm.closed owner).bind_of fun sizes _ => hrest sizes

/-- Writing the code of a sound method complains about no label. The labels have been checked at
first, and what is resolved later in the layout, by instructions, handlers and tables, is among
them. -/
theorem spares_code (hm : m.IsSound) (owner : Text) (verify stackMaps : Bool) :
    SparesLabels (code owner verify stackMaps m) := by
  have := spares_verified hm owner verify stackMaps
  have (l : Layout) (place : Text) (frames : List (Nat × Frame)) :
      SparesLabels (attributes (codePieces m l place frames) m.layout.codeOrder) := by
    have (v : LocalVariable) (type : Text) : SparesLabels (localVariable l v type) := by
      unfold localVariable
      infer_instance
    refine SparingPieces.attributes (.append (.append (.append (.append ?_ ?_) ?_) ?_) (.raw _)) _
    · intro p hp
      obtain ⟨table, -, rfl⟩ := List.mem_map.1 hp
      unfold lineTable
      infer_instance
    · exact .pieceIf fun _ => inferInstance
    · exact .pieceIf fun _ => inferInstance
    · exact .pieceIf fun _ => inferInstance
  have (l : Layout) (h : Handler) : SparesLabels (handler l h) := by
    have : SparesLabels (classIndex h.type) := by
      unfold classIndex
      split <;> infer_instance
    rw [handler_eq]
    infer_instance
  have (place : Text) (bytes : Bytes) : SparesLabels (checkLength place bytes) := by
    unfold checkLength
    infer_instance
  rw [code_eq, checkLabels_eq_ok hm]
  infer_instance

/-! ## Members -/

instance spares_memberHead (access : Int) (name descriptor : Text) :
    SparesLabels (memberHead access name descriptor) := by
  unfold memberHead
  infer_instance

instance spares_field (f : Field) : SparesLabels (field f) := by
  have hpieces : SparingPieces (fieldPieces f) :=
    .append (.append (.append (.pieceOf? _ _) (.pieceOf? _ _)) (.annotations _)) (.raw _)
  have := hpieces.attributes f.attributeOrder
  unfold field
  infer_instance

instance spares_parameterCount (place : Text) (m : Method) (given : Option Int) :
    Result.SparesLabels (parameterCount place m given) := by
  unfold parameterCount
  split
  · infer_instance
  · exact Result.spares_ite _ _ _

/-- Parameters that are listed, unless one that is left out has something to list. -/
theorem spares_listed (parameter? : Option Parameter) (refuse : Parameter → Unverified) (place : Text)
    (count : Int) (listed : Encoder Bytes) [SparesLabels listed] :
    SparesLabels (match parameter? with
      | some p => throw (.unverified (refuse p) (some place) none)
      | none => do
        let head ← countByte count
        return head ++ (← listed) : Encoder Bytes) := by
  have : SparesLabels (countByte count) := spares_u1 count
  split <;> infer_instance

instance spares_parameterAnnotations (place : Text) (m : Method) (visible : Bool)
    (given : Option Int) : SparesLabels (parameterAnnotations place m visible given) := by
  unfold parameterAnnotations
  refine spares_lift_bind (spares_parameterCount place m given) fun count _ => ?_
  exact spares_listed _ (fun p => .annotatedParameter p.index count) place count _

instance spares_methodParameters (place : Text) (m : Method) :
    SparesLabels (methodParameters place m) := by
  have (p : Parameter) : SparesLabels (parameter p) := by
    have : SparesLabels (givenName p.name) := by
      unfold givenName
      split <;> infer_instance
    rw [parameter_eq]
    infer_instance
  unfold methodParameters
  refine spares_lift_bind (spares_parameterCount place m m.parameterCount) fun count _ => ?_
  exact spares_listed _ (fun p => .namedParameter p.index count) place count _

theorem spares_method (hm : m.IsSound) (owner : Text) (verify stackMaps : Bool) :
    SparesLabels (method owner verify stackMaps m) := by
  have hpieces : SparingPieces (methodPieces owner verify stackMaps m) :=
    .append (.append (.append (.append (.append (.append (.append (.append
      (.pieceIf fun _ => spares_code hm owner verify stackMaps) (.pieceIf fun _ => inferInstance))
      (.pieceOf? _ _)) (.annotations _)) (.pieceIf fun _ => inferInstance))
      (.pieceIf fun _ => inferInstance)) (.pieceOf? _ _)) (.pieceIf fun _ => inferInstance)) (.raw _)
  have := hpieces.attributes m.layout.attributeOrder
  unfold method
  infer_instance

/-! ## Classes -/

theorem sparingPieces_classPieces (c : Class) (bootstrap : Bool) :
    SparingPieces (classPieces c bootstrap) := by
  have (i : InnerClass) : SparesLabels (innerClass i) := by
    have : SparesLabels (classIndex i.outer) := by
      unfold classIndex
      split <;> infer_instance
    have : SparesLabels (nameIndex i.name) := by
      unfold nameIndex
      split <;> infer_instance
    unfold innerClass
    infer_instance
  have (e : EnclosingMethod) : SparesLabels (enclosingMethod e) := by
    have : SparesLabels (givenMember e) := by
      unfold givenMember
      split <;> infer_instance
    rw [enclosingMethod_eq]
    infer_instance
  have : SparesLabels bootstrapTable := by
    have (b : Bootstrap) : SparesLabels (bootstrapMethod b) := by
      unfold bootstrapMethod
      infer_instance
    unfold bootstrapTable
    infer_instance
  exact .append (.append (.append (.append (.append (.append (.pieceOf? _ _)
    (.pieceIf fun _ => inferInstance)) (.pieceOf? _ _)) (.pieceOf? _ _)) (.annotations _)) (.raw _))
    (.pieceIf fun _ => this)

/-- What stands behind the pool of a sound class. -/
theorem spares_body {c : Class} (hc : c.IsSound) (verify : Bool) : SparesLabels (body verify c) := by
  have := spares_listOf_of_mem fun m hm =>
    spares_method (hc.methods m hm) c.name verify (stackMapMajor ≤ c.major)
  have : SparesLabels (classIndex c.super) := by
    unfold classIndex
    split <;> infer_instance
  have := fun bootstrap => (sparingPieces_classPieces c bootstrap).attributes c.layout.attributeOrder
  unfold body
  infer_instance

theorem spares_classFile {c : Class} (hc : c.IsSound) (verify : Bool) :
    SparesLabels (classFile verify c) := by
  have := spares_body hc verify
  have hencode (p : Pool) : Result.SparesLabels p.encode := by
    unfold Pool.encode
    generalize p.encode? = bytes?
    cases bytes? <;> unfold Pool.known <;> infer_instance
  unfold classFile
  infer_instance

end Encoding

/-- Writing a sound class does not fail over a label. -/
theorem Class.spares_toBytes {c : Class} (hc : c.IsSound) (verify : Bool) :
    Result.SparesLabels (c.toBytes verify) := by
  have hspares := (Encoding.spares_classFile hc verify).spares
    (Pool.seeded c.layout.pool c.layout.bootstrap)
  unfold Class.toBytes
  split
  · infer_instance
  · next e he => exact ⟨fun h => hspares.spares (he.trans (congrArg _ (Except.error.inj h)))⟩

end ClassTree
