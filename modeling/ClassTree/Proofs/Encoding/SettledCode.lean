/-
# ClassTree.Proofs.Encoding.SettledCode — code is written or refused

A number that does not fit into an instruction is reported as a fault of that instruction, and code
that is too long as a fault of its method. Behind these two checks every offset fits into two bytes,
and with it everything in the tables of the code.

The parts of a class that is drawn from a class file and is faultless are written one after another
onto a pool that stays within reach of the class. Whatever such a pool is asked for it gives, so
writing ends with bytes or with the statement that the class cannot be verified. Whatever bytes a
class has been read of, it is drawn from them, and nothing but its faults can keep it from being
written.
-/
import ClassTree.Proofs.Decoding.Drawn
import ClassTree.Proofs.Decoding.LookAhead
import ClassTree.Proofs.Emission
import ClassTree.Proofs.Encoding.Code
import ClassTree.Proofs.Encoding.Outcome
import ClassTree.Proofs.Encoding.Serving
import ClassTree.Proofs.LabelClosure
import ClassTree.Proofs.Spelling

namespace ClassTree.Encoding

open Encoder

variable {I : Pool → Prop}

/-! ## Instructions -/

theorem ends_overflow (bytes? : Option Bytes) : Ends I Error.IsOverflow (fit bytes?) fun _ => True :=
  .fit_or (.inr rfl) bytes?

/-- A number that does not fit is turned into a refusal. -/
theorem settles_naming {e : Encoder Bytes} (h : Ends I Error.IsOverflow e fun _ => True) (op : Opcode)
    (place : Text) (position : Nat) : Settles I (naming op place position e) := by
  intro p hp
  unfold naming
  rcases h p hp with ⟨bytes, q, heq, hq, -⟩ | ⟨err, heq, hrefusal | rfl⟩
  · rw [heq]
    exact .inl ⟨bytes, q, rfl, hq, trivial⟩
  · rw [heq]
    cases err with
    | unverified cause place position => exact .inr ⟨_, rfl, trivial⟩
    | _ => exact hrefusal.elim
  · rw [heq]
    exact .inr ⟨_, rfl, trivial⟩

theorem ends_jump (op : Opcode) (isFar : Bool) (distance : Int) :
    Ends I Error.IsOverflow (jump op isFar distance) fun _ => True := by
  have hfield (bytes? : Option Bytes) (f : Bytes → Bytes) :
      Ends I Error.IsOverflow (fit bytes? >>= fun bytes => pure (f bytes)) fun _ => True :=
    (ends_overflow bytes?).map fun _ _ => trivial
  unfold jump
  refine .ite (fun _ => hfield _ _) fun _ => .ite (fun _ => ?_) fun _ => hfield _ _
  split
  · exact (ends_overflow _).bind fun _ _ => hfield _ _
  · exact hfield _ _

/-- An instruction with the offsets of its targets is written, or a number in it does not fit its
field. Where a constant is needed the pool gives its index; a faultless instruction lacks none. -/
theorem ends_operation {R : Label → Int → Prop} {i : Instruction Label} {j : Instruction Int}
    (h : i.Matches R j) (hfaultless : i.IsFaultless) (hasks : Granted I (instructionAsks i))
    (offset : Nat)
    (isFar : Bool) : Ends I Error.IsOverflow (operation offset isFar j) fun _ => True := by
  have hfield (bytes? : Option Bytes) (f : Bytes → Bytes) :
      Ends I Error.IsOverflow (fit bytes? >>= fun bytes => pure (f bytes)) fun _ => True :=
    (ends_overflow bytes?).map fun _ _ => trivial
  cases h with
  | plain op => exact .pure trivial
  | immediate op n =>
    rw [operation_immediate]
    refine .bind (.ite (fun _ => ends_overflow _) fun _ => .ite (fun _ => ends_overflow _) fun _ =>
      ends_overflow _) fun _ _ => .pure trivial
  | variable_ op slot =>
    unfold operation
    exact .ite (fun _ => hfield _ _) fun _ => hfield _ _
  | increment slot amount =>
    unfold operation
    exact .ite (fun _ => (ends_overflow _).bind fun _ _ => hfield _ _) fun _ =>
      (ends_overflow _).bind fun _ _ => hfield _ _
  | constant op value =>
    unfold operation loadConstant
    exact hasks.head.overflow.bind fun _ _ => .ite (fun _ => hfield _ _) fun _ => hfield _ _
  | type op name =>
    unfold operation
    exact (hasks.reference (List.mem_singleton_self _)).overflow.index.map fun _ _ => trivial
  | field op owner name descriptor =>
    unfold operation
    exact hasks.head.overflow.index.map fun _ _ => trivial
  | method op owner name descriptor interface =>
    unfold operation call
    refine hasks.head.overflow.index.bind fun _ _ => .ite (fun hop => ?_) fun _ => .pure trivial
    obtain ⟨types, htypes⟩ := hfaultless.2 hop
    exact .lift_bind htypes (hfield _ _)
  | callSite name descriptor bootstrap arguments =>
    rw [operation, callSite_eq]
    exact hasks.head.overflow.bind fun _ hi => (Ends.count hi).map fun _ _ => trivial
  | jump op _ => exact ends_jump op isFar _
  | tableSwitch low high _ _ =>
    unfold operation
    refine (ends_overflow _).bind fun _ _ => (ends_overflow _).bind fun _ _ =>
      (ends_overflow _).bind fun _ _ => Ends.map (.all fun _ _ => ends_overflow _) fun _ _ => trivial
  | lookupSwitch keys _ _ =>
    unfold operation
    refine (ends_overflow _).bind fun _ _ => (ends_overflow _).bind fun _ _ =>
      Ends.map (.all fun _ _ => (ends_overflow _).bind fun _ _ => hfield _ _) fun _ _ => trivial
  | multiArray descriptor dimensions =>
    unfold operation
    exact (hasks.reference (List.mem_singleton_self _)).overflow.index.bind fun _ _ => hfield _ _

/-- Exchanging the places that jumps lead to. -/
theorem ends_mapTargets {τ σ : Type} {E : Error → Prop} {f : τ → Encoder σ} {i : Instruction τ}
    (h : ∀ t ∈ i.targets, Ends I E (f t) fun _ => True) :
    Ends I E (i.mapTargets f) (i.Matches fun _ _ => True) := by
  have hmapM {ts : List τ} (hts : ∀ t ∈ ts, Ends I E (f t) fun _ => True) :
      Ends I E (ts.mapM f) (List.Forall₂ (fun _ _ => True) ts) := by
    induction ts with
    | nil => exact .pure .nil
    | cons t ts ih =>
      rw [List.mapM_cons]
      exact (hts t (by simp)).bind fun _ _ =>
        (ih fun t' ht' => hts t' (by simp [ht'])).map fun _ hss => .cons trivial hss
  cases i with
  | jump op t => exact (h t (by simp [Instruction.targets])).map fun _ _ => .jump op trivial
  | tableSwitch low high t ts =>
    refine (h t (by simp [Instruction.targets])).bind fun _ _ => ?_
    exact (hmapM fun t' ht' => h t' (by simp [Instruction.targets, ht'])).map fun _ hss =>
      .tableSwitch low high trivial hss
  | lookupSwitch t keys ts =>
    refine (h t (by simp [Instruction.targets])).bind fun _ _ => ?_
    exact (hmapM fun t' ht' => h t' (by simp [Instruction.targets, ht'])).map fun _ hss =>
      .lookupSwitch keys trivial hss
  | _ => exact .pure (by constructor)

/-- Labels that a layout knows. -/
def Layout.Knows (l : Layout) (labels : List Label) : Prop :=
  ∀ label ∈ labels, ∃ offset, l.resolve label = .ok offset

theorem settles_item {l : Layout} {i : Item} (hknows : l.Knows i.references) (hfaultless : i.IsFaultless)
    (hasks : Granted I (itemAsks i)) (place : Text) (position : Nat) :
    Settles I (item l place position i) := by
  cases i with
  | instruction i =>
    refine Ends.bind (ends_mapTargets fun label hlabel => ?_) fun j hj =>
      settles_naming (ends_operation hj hfaultless hasks _ _) _ _ _
    obtain ⟨offset, hoffset⟩ := hknows label hlabel
    exact .lift_bind hoffset (.pure trivial)
  | label _ | line _ | frame _ => exact Ends.pure trivial

theorem settles_operations {l : Layout} {body : List Item}
    (hknows : ∀ i ∈ body, l.Knows i.references) (hfaultless : ∀ i ∈ body, i.IsFaultless)
    (hasks : Granted I (body.flatMap itemAsks)) (place : Text) : Settles I (operations l place body) := by
  refine Ends.all fun pair hpair => ?_
  have hmem := List.fst_mem_of_mem_zipIdx hpair
  exact settles_item (hknows _ hmem) (hfaultless _ hmem) (hasks.of_mem hmem) place _

/-! ## Layouts -/

/-- The layout of a body with a pool of some sort. -/
def Layout.IsOf (I : Pool → Prop) (body : List Item) (l : Layout) : Prop :=
  ∃ q q', I q ∧ Layout.of body q = .ok (l, q')

/-- A body whose constants can be asked for has a layout. -/
theorem ends_layout {body : List Item} (hasks : Granted I (body.flatMap itemAsks)) :
    Ends I Error.IsRefusal (Layout.of body) (Layout.IsOf I body) := by
  have hrooms : Ends I Error.IsRefusal (roomsOf body) fun _ => True := by
    refine .imp (.mapM (R := fun _ => True) fun i hi => ?_) fun _ _ => trivial
    have hasks := hasks.of_mem hi
    cases i with
    | instruction i =>
      cases i with
      | constant op value =>
        show Ends I Error.IsRefusal (roomOf (.constant op value)) fun _ => True
        unfold roomOf
        exact .ite (fun _ => Ends.map hasks.head fun _ _ => trivial) fun _ => .pure trivial
      | _ => exact .pure trivial
    | label _ | line _ | frame _ => exact .pure trivial
  have hlayout : Ends I Error.IsRefusal (Layout.of body) fun _ => True := hrooms.map fun _ _ => trivial
  exact (hlayout.and fun p _ q hp h _ => ⟨p, q, hp, h⟩).imp fun _ h => h.2

/-- A label of a closed body leads to the offset of its marker. -/
theorem Layout.IsOf.resolve {l : Layout} {body : List Item} (h : l.IsOf I body)
    (hnodup : (definitions body).Nodup) {label : Label} {position : Nat}
    (hat : body[position]? = some (.label label)) : l.resolve label = .ok (l.offset position) := by
  obtain ⟨q, q', -, hl⟩ := h
  obtain ⟨rooms, p, -, hl⟩ := bind_eq_ok_iff.1 hl
  cases hl
  obtain ⟨far, hfar, -, -⟩ := Layout.exists_relax_eq body rooms (body.map fun _ => false)
  rw [hfar]
  have hmem : label ∈ definitions body := List.mem_filterMap.2 ⟨_, List.mem_of_getElem? hat, rfl⟩
  exact resolve_of_existsUnique (existsUnique_label hnodup hmem) hat

theorem Layout.IsOf.knows {l : Layout} {body : List Item} (h : l.IsOf I body)
    (hnodup : (definitions body).Nodup) : l.Knows (definitions body) := by
  intro label hlabel
  obtain ⟨position, hat, -⟩ := existsUnique_label hnodup hlabel
  exact ⟨_, h.resolve hnodup hat⟩

/-- A layout that leaves room for two-byte offsets: they never go down, and none is above the
greatest length of code. -/
structure Layout.Spans (l : Layout) (body : List Item) : Prop where
  mono : ∀ i j, i ≤ j → j ≤ body.length → l.offset i ≤ l.offset j
  le : ∀ i ≤ body.length, l.offset i ≤ maxCodeLength

/-- A switch of a sound body has keys for its targets. -/
theorem hasKeys_of_isSound {i : Instruction Label} (h : i.IsSound) : HasKeys i := by
  cases i with
  | lookupSwitch otherwise keys targets => exact h.1.ge
  | _ => trivial

/-- In code that is not too long all offsets of the layout fit into two bytes, and so do the lengths
of ranges. The length has been checked behind the instructions, so what is written of tables
afterwards relies on it. -/
theorem Layout.spans_of_fixed {P : Pool} {l : Layout} {place : Text} {body : List Item} {bytes : Bytes}
    (hl : Fixed P (Layout.of body) l) (hsound : ∀ i ∈ body, i.IsSound)
    (hbytes : Fixed P (operations l place body) bytes) (hlength : bytes.length ≤ maxCodeLength) :
    l.Spans body := by
  have hkeys : ∀ i, Item.instruction i ∈ body → HasKeys i := fun i hi => hasKeys_of_isSound (hsound _ hi)
  obtain ⟨parts, hparts, rfl⟩ := fixed_all_iff.1 hbytes
  have hoffset {index : Nat} (hindex : index ≤ body.length) :=
    offset_eq_length hl hkeys hparts hindex
  have hprefix {i j : Nat} (hij : i ≤ j) : (parts.take i).flatten.length ≤
      (parts.take j).flatten.length := by
    have htake : parts.take i <+: parts.take j := List.take_prefix_take_left hij
    obtain ⟨rest, hrest⟩ := htake
    rw [← hrest, List.flatten_append, List.length_append]
    omega
  constructor
  · intro i j hij hj
    rw [hoffset (hij.trans hj), hoffset hj]
    exact hprefix hij
  · intro i hi
    rw [hoffset hi]
    refine le_trans ?_ hlength
    obtain ⟨rest, hrest⟩ := List.take_prefix i parts
    conv_rhs => rw [← hrest]
    rw [List.flatten_append, List.length_append]
    omega

/-- Labels that lead to offsets of two bytes. -/
def Layout.Reaches (l : Layout) (labels : List Label) : Prop :=
  ∀ label ∈ labels, ∃ offset, l.resolve label = .ok offset ∧ offset < 0x10000

theorem Layout.Spans.offset_lt {l : Layout} {body : List Item} (h : l.Spans body) {position : Nat}
    (hposition : position ≤ body.length) : l.offset position < 0x10000 := by
  have hle := h.le position hposition
  unfold maxCodeLength at hle
  omega

/-- The labels that the body defines lead to offsets of two bytes. -/
theorem Layout.Spans.reaches {l : Layout} {body : List Item} (h : l.Spans body) (hof : l.IsOf I body)
    (hnodup : (definitions body).Nodup) : l.Reaches (definitions body) := by
  intro label hlabel
  obtain ⟨position, hat, -⟩ := existsUnique_label hnodup hlabel
  exact ⟨_, hof.resolve hnodup hat, h.offset_lt (List.getElem?_eq_some_iff.1 hat).1.le⟩

/-! ## Stack maps -/

theorem settles_verificationType {l : Layout} {v : VerificationType} (hsound : v.IsSound)
    (hne : v ≠ .object none) (hreaches : l.Reaches v.label?.toList) (hasks : Granted I (typeAsks v)) :
    Settles I (verificationType l v) := by
  have htag : 0 ≤ v.tag ∧ v.tag < 0x100 := by
    cases v with
    | irregular tag payload => exact hsound.elim
    | _ => simp [VerificationType.tag]
  unfold verificationType
  refine (Ends.u1 htag).bind fun tag _ => .ite (fun h7 => ?_) fun _ => .ite (fun h8 => ?_) fun _ =>
    .pure trivial
  · cases v with
    | irregular tag payload => exact hsound.elim
    | object name =>
      cases name with
      | none => exact absurd rfl hne
      | some name => exact Ends.map (hasks.reference (List.mem_singleton_self _)).index fun _ _ => trivial
    | _ => exact absurd h7 (by simp [VerificationType.tag])
  · cases v with
    | irregular tag payload => exact hsound.elim
    | uninitialized site =>
      cases site with
      | position p => exact hsound.elim
      | label label =>
        obtain ⟨offset, hoffset, hlt⟩ := hreaches label (by simp [VerificationType.label?])
        exact .lift_bind hoffset (Ends.map (.count hlt) fun _ _ => trivial)
    | _ => exact absurd h8 (by simp [VerificationType.tag])

/-- What it takes to write a frame. -/
structure FrameReady (I : Pool → Prop) (l : Layout) (f : Frame) : Prop where
  kind : f.kind ∈ FrameKind.all
  drawn : f.IsDrawn
  types : ∀ v ∈ f.locals ++ f.stack, Settles I (verificationType l v)

/-- A frame of a sound and faultless body. -/
theorem frameReady_of_mem {l : Layout} {f : Frame} (hsound : f.IsSound) (hdrawn : f.IsDrawn)
    (hfaultless : (Item.frame f).IsFaultless) (hreaches : l.Reaches f.references)
    (hasks : Granted I (itemAsks (.frame f))) : FrameReady I l f := by
  refine ⟨hsound.kind, hdrawn, fun v hv => ?_⟩
  have hv' : v.IsSound := (List.mem_append.1 hv).elim (hsound.locals v) (hsound.stack v)
  refine settles_verificationType hv' (hfaultless v hv) (fun label hlabel => hreaches label ?_)
    (hasks.of_mem hv)
  exact List.mem_filterMap.2 ⟨v, hv, Option.mem_toList.1 hlabel⟩

theorem settles_tagged {distance : Nat} (hdistance : distance < 0x10000) {tag : Int}
    (htag : 0 ≤ tag ∧ tag < 0x100) : Settles I (tagged distance tag) :=
  (Ends.u1 htag).bind fun _ _ => (Ends.count hdistance).map fun _ _ => trivial

theorem settles_frame {l : Layout} {f : Frame} (h : FrameReady I l f) {distance : Nat}
    (hdistance : distance < 0x10000) (place : Text) (position : Nat) :
    Settles I (frame l place position distance f) := by
  obtain ⟨hkind, hdrawn, htypes⟩ := h
  have htagged {tag : Int} (htag : 0 ≤ tag ∧ tag < 0x100) : Settles I (tagged distance tag) :=
    settles_tagged hdistance htag
  have hitem (hone : f.stack ≠ []) : Settles I (stackItem l f) := by
    unfold stackItem
    split
    · next v rest hstack => exact htypes v (by simp [hstack])
    · next hstack => exact absurd hstack hone
  obtain ⟨kind, locals, stack, chop⟩ := f
  cases kind with
  | same =>
    refine Ends.ite (fun hle => .u1 ?_) fun _ => htagged (by omega)
    have hle : distance ≤ 63 := hle
    omega
  | sameExtended => exact htagged (by omega)
  | sameLocals1 =>
    rw [frame_sameLocals1]
    refine Ends.bind (.ite (fun hle => .u1 ?_) fun _ => htagged (by omega)) fun _ _ =>
      (hitem (hdrawn.one (.inl rfl))).map fun _ _ => trivial
    unfold maxShortDistance at hle
    omega
  | sameLocals1Extended =>
    exact Ends.bind (htagged (by omega)) fun _ _ => (hitem (hdrawn.one (.inr rfl))).map fun _ _ => trivial
  | chop =>
    obtain ⟨hone, hthree⟩ : 1 ≤ chop ∧ chop ≤ 3 := hdrawn.shape
    exact settles_tagged hdistance (show 0 ≤ 251 - chop ∧ 251 - chop < 0x100 by omega)
  | append =>
    obtain ⟨hone, hthree⟩ : 1 ≤ locals.length ∧ locals.length ≤ 3 := hdrawn.shape
    have hhead : Settles I (tagged distance (251 + locals.length : Nat)) := htagged (by omega)
    exact Ends.bind hhead fun _ _ =>
      (Ends.all fun v hv => htypes v (List.mem_append_left _ hv)).map fun _ _ => trivial
  | full =>
    exact Ends.bind (htagged (by omega)) fun _ _ =>
      (Ends.listOf hdrawn.locals.1 fun v hv => htypes v (List.mem_append_left _ hv)).bind fun _ _ =>
        (Ends.listOf hdrawn.stack.1 fun v hv =>
          htypes v (List.mem_append_right _ hv)).map fun _ _ => trivial
  | unknown name => exact absurd hkind (by simp [FrameKind.all])

theorem settles_framesFrom {l : Layout} {frames : List (Nat × Frame)}
    (hframes : ∀ f ∈ frames, FrameReady I l f.2 ∧ l.offset f.1 < 0x10000) (place : Text) (next : Nat)
    (acc : List Bytes) : Settles I (framesFrom l place next frames acc) := by
  induction frames generalizing next acc with
  | nil => exact Ends.pure trivial
  | cons first rest ih =>
    obtain ⟨position, f⟩ := first
    obtain ⟨hready, hlt⟩ : FrameReady I l f ∧ l.offset position < 0x10000 := hframes _ List.mem_cons_self
    unfold framesFrom
    dsimp only
    split
    · exact Ends.throw trivial
    · exact Ends.bind (settles_frame hready (by omega) place position) fun part _ =>
        ih (fun f hf => hframes f (by simp [hf])) _ _

/-- The frames of a body stand at its items. -/
theorem mem_of_mem_ownFrames {body : List Item} {position : Nat} {f : Frame}
    (h : (position, f) ∈ ownFrames body) : body[position]? = some (.frame f) := by
  obtain ⟨⟨item, index⟩, hitem, heq⟩ := List.mem_filterMap.1 h
  obtain ⟨f', hf', heq⟩ := Option.map_eq_some_iff.1 heq
  cases heq
  rw [List.mk_mem_zipIdx_iff_getElem?] at hitem
  cases item with
  | frame f' =>
    cases hf'
    exact hitem
  | _ => cases hf'

/-! ## Tables -/

theorem settles_handler {l : Layout} {h : Handler} (hreaches : l.Reaches h.references)
    (hask : Ends I Error.IsRefusal (classIndex h.type) (· < 0x10000)) : Settles I (handler l h) := by
  obtain ⟨start, hstart, hstartlt⟩ := hreaches h.start (by simp [Handler.references])
  obtain ⟨stop, hstop, hstoplt⟩ := hreaches h.stop (by simp [Handler.references])
  obtain ⟨target, htarget, htargetlt⟩ := hreaches h.target (by simp [Handler.references])
  rw [handler_eq]
  exact .lift_bind hstart (.lift_bind hstop (.lift_bind htarget (hask.bind fun type htype =>
    (Ends.count hstartlt).bind fun _ _ => (Ends.count hstoplt).bind fun _ _ =>
      (Ends.count htargetlt).bind fun _ _ => (Ends.count htype).map fun _ _ => trivial)))

theorem settles_lineTable {entries : List (Nat × Int)} (hlength : entries.length < 0x10000)
    (h : ∀ e ∈ entries, e.1 < 0x10000 ∧ IsWord e.2) : Settles I (lineTable entries) :=
  Ends.listOf hlength fun e he => (Ends.count (h e he).1).bind fun _ _ =>
    (Ends.u2 (h e he).2).map fun _ _ => trivial

variable {l : Layout} {body : List Item}

/-- An entry of one of the tables of local variables. -/
theorem settles_localVariable (hof : l.IsOf I body) (hspans : l.Spans body)
    (hnodup : (definitions body).Nodup) {v : LocalVariable} (hdrawn : v.IsDrawn)
    (hordered : v.IsOrdered body)
    {type : Text} (hname : Ends I Error.IsRefusal (pooled (Pool.addUtf8 v.name)) (· < 0x10000))
    (htype : Ends I Error.IsRefusal (pooled (Pool.addUtf8 type)) (· < 0x10000)) :
    Settles I (localVariable l v type) := by
  obtain ⟨start, stop, hle, hstart, hstop⟩ := hordered
  have hstoplt : stop < body.length := (List.getElem?_eq_some_iff.1 hstop).1
  have hmono := hspans.mono start stop hle hstoplt.le
  have hlt := hspans.offset_lt hstoplt.le
  refine .lift_bind (hof.resolve hnodup hstart) (.lift_bind (hof.resolve hnodup hstop) ?_)
  exact hname.bind fun _ hn => htype.bind fun _ ht => (Ends.count (hmono.trans_lt hlt)).bind fun _ _ =>
    (Ends.u2 ⟨by omega, by omega⟩).bind fun _ _ => (Ends.count hn).bind fun _ _ =>
      (Ends.count ht).bind fun _ _ => (Ends.u2 hdrawn.slot).map fun _ _ => trivial

/-- A table of local variables that have a type of some sort. -/
theorem SettledContents.localVariables {name : Text} {typeOf : LocalVariable → Option Text}
    {locals : List LocalVariable} (hlength : (locals.filterMap typeOf).length < 0x10000)
    (h : ∀ v ∈ locals, ∀ type ∈ typeOf v, Settles I (localVariable l v type)) :
    SettledContents I (localVariablePiece name l typeOf locals) := by
  refine .pieceIf fun _ => Ends.listOf ?_ fun pair hpair => ?_
  · have hmap : (locals.filterMap fun v => (typeOf v).map fun type => (v, type)).map Prod.snd =
        locals.filterMap typeOf := by
      rw [List.map_filterMap]
      refine List.filterMap_congr fun v _ => ?_
      cases typeOf v <;> rfl
    rw [← hmap, List.length_map] at hlength
    exact hlength
  · obtain ⟨v, hv, heq⟩ := List.mem_filterMap.1 hpair
    obtain ⟨type, htype, rfl⟩ := Option.map_eq_some_iff.1 heq
    exact h v hv type htype

/-! ## The attribute -/

variable {m : Method}

/-- The attributes of code whose offsets fit into two bytes. -/
theorem settledContents_codePieces (hof : l.IsOf I m.body) (hspans : l.Spans m.body) (hsound : m.IsSound)
    {reached : Pool → Prop} {owner : Text} (hdrawn : m.IsDrawn) (hfaultless : m.IsFaultless reached owner)
    (hasks : Granted I (codeAsks m)) (place : Text) :
    SettledContents I (codePieces m l place (ownFrames m.body)) := by
  have hlines : ∀ e ∈ linesOf l m.body, e.1 < 0x10000 ∧ IsWord e.2 := by
    intro e he
    obtain ⟨position, hat, heq⟩ := exists_of_mem_linesOf he
    refine ⟨heq ▸ hspans.offset_lt (List.getElem?_eq_some_iff.1 hat).1.le, ?_⟩
    exact hdrawn.code.items _ (List.mem_of_getElem? hat)
  have hlocals : ∀ v ∈ m.localVariables, ∀ type ∈ v.descriptor.toList ++ v.signature.toList,
      Settles I (localVariable l v type) := by
    intro v hv type htype
    have hasks := hasks.left.right.of_mem hv
    obtain ⟨hv, hordered⟩ := hdrawn.code.locals v hv
    exact settles_localVariable hof hspans hsound.closed.nodup hv hordered (hasks.text (by simp))
      (hasks.text (List.mem_cons_of_mem _ htype))
  refine .append (.append (.append (.append ?_ ?_) ?_) ?_) (.raw _)
  · intro p hp
    obtain ⟨table, htable, rfl⟩ := List.mem_map.1 hp
    refine settles_lineTable ?_ fun e he => ?_
    · exact (List.length_filterMap_le _ _).trans_lt (hdrawn.code.lines l table htable)
    · obtain ⟨i, -, hi⟩ := List.mem_filterMap.1 he
      exact hlines e (Array.mem_of_getElem? hi)
  · exact .localVariables hfaultless.described fun v hv type htype =>
      hlocals v hv type (List.mem_append_left _ (Option.mem_toList.2 htype))
  · exact .localVariables hfaultless.signed fun v hv type htype =>
      hlocals v hv type (List.mem_append_right _ (Option.mem_toList.2 htype))
  · refine .pieceIf fun _ => Ends.bind (.count hdrawn.code.frames) fun _ _ => Ends.map
      (settles_framesFrom (fun frame hframe => ?_) place 0 []) fun _ _ => trivial
    obtain ⟨position, f⟩ := frame
    have hat := mem_of_mem_ownFrames hframe
    have hmem := List.mem_of_getElem? hat
    refine ⟨frameReady_of_mem (hsound.items _ hmem) (hdrawn.code.items _ hmem) (hfaultless.items _ hmem)
      (fun label hlabel => ?_) (hasks.left.left.left.of_mem hmem),
      hspans.offset_lt (List.getElem?_eq_some_iff.1 hat).1.le⟩
    exact hspans.reaches hof hsound.closed.nodup label (hsound.closed.items _ hmem hlabel)

/-- The line numbers of a table are those of the markers in order, whatever the layout. -/
theorem map_snd_linesOf (l : Layout) (body : List Item) : (linesOf l body).toList.map Prod.snd =
    body.zipIdx.filterMap fun pair => match pair.1 with
      | .line n => some n
      | _ => none := by
  unfold linesOf
  rw [List.map_filterMap]
  refine List.filterMap_congr ?_
  intro pair _
  obtain ⟨item, position⟩ := pair
  cases item <;> rfl

/-- The names of the attributes of code do not depend on a layout. -/
theorem map_name_codePieces (l l' : Layout) (place place' : Text) (frames : List (Nat × Frame)) :
    (codePieces m l place frames).map Piece.name = (codePieces m l' place' frames).map Piece.name := by
  have hsize : (linesOf l m.body).size = (linesOf l' m.body).size := by
    have hlength := congrArg List.length
      ((map_snd_linesOf l m.body).trans (map_snd_linesOf l' m.body).symm)
    simpa using hlength
  have hif (condition : Bool) (name : Text) (content : Encoder Bytes) :
      (pieceIf condition name content).map Piece.name = if condition then [name] else [] := by
    unfold pieceIf
    split <;> rfl
  unfold codePieces localVariablePiece
  simp only [List.map_append, List.map_map, Function.comp_def, hif, hsize]

/-- The sizes and the frames of code that is not verified are its own. -/
theorem verified_false {owner : Text} {stackMaps : Bool} {sizes : Maxima} (h : m.maxima = some sizes) :
    verified owner false stackMaps m l = .ok (sizes, ownFrames m.body) := by
  unfold verified
  simp only [Bool.false_and, Bool.false_eq_true, if_false, h]
  rfl

/-- The layout of a body and its instructions, if these are not too long. -/
def laidOut (place : Text) (body : List Item) : Encoder (Layout × Bytes) := do
  let l ← Layout.of body
  let bytes ← operations l place body
  let _ ← checkLength place bytes
  return (l, bytes)

/-- Code that is not verified, one part after another. -/
theorem code_false_eq (hsound : m.IsSound) {owner : Text} {stackMaps : Bool} {sizes : Maxima}
    (hsizes : m.maxima = some sizes) :
    code owner false stackMaps m = do
      let r ← laidOut (Flow.Program.placeOf owner m) m.body
      let stack ← u2 sizes.stack
      let locals ← u2 sizes.locals
      let length ← u4 r.2.length
      let handlers ← listOf (handler r.1) m.handlers
      let attributes ← attributes (codePieces m r.1 (Flow.Program.placeOf owner m) (ownFrames m.body))
        m.layout.codeOrder
      return stack ++ locals ++ length ++ r.2 ++ handlers ++ attributes := by
  rw [code_eq, checkLabels_eq_ok hsound, lift_ok_bind]
  unfold laidOut
  simp only [verified_false hsizes, lift_ok_bind, bind_assoc, pure_bind]

/-- A body is laid out, or it is too long, or an instruction has no bytes. -/
theorem ends_laidOut (hsound : m.IsSound) (hfaultless : ∀ i ∈ m.body, i.IsFaultless)
    (hasks : Granted I (m.body.flatMap itemAsks)) (place : Text) :
    Ends I Error.IsRefusal (laidOut place m.body) fun r =>
      r.1.IsOf I m.body ∧ r.1.Spans m.body ∧ r.2.length ≤ maxCodeLength := by
  have hcheck (bytes : Bytes) : Ends I Error.IsRefusal (checkLength place bytes)
      fun _ => bytes.length ≤ maxCodeLength :=
    .ite (fun _ => .throw trivial) fun hle => .pure (by omega)
  have hends : Ends I Error.IsRefusal (laidOut place m.body) fun r =>
      r.1.IsOf I m.body ∧ r.2.length ≤ maxCodeLength := by
    refine (ends_layout hasks).bind fun l hof =>
      Ends.bind (settles_operations (fun i hi label hlabel => ?_)
      hfaultless hasks place) fun bytes _ => (hcheck bytes).map fun _ hle => ⟨hof, hle⟩
    exact hof.knows hsound.closed.nodup label (hsound.closed.items i hi hlabel)
  refine (hends.and fun p r q _ hrun hr => ?_).imp fun r h => ⟨h.1.1, h.2, h.1.2⟩
  -- what has been written is written again with the pool as it is in the end, where offsets are
  -- lengths
  obtain ⟨l, p₁, hl, hrun⟩ := bind_eq_ok_iff.1 hrun
  obtain ⟨bytes, p₂, hbytes, hrun⟩ := bind_eq_ok_iff.1 hrun
  obtain ⟨_, p₃, hlength, hrun⟩ := bind_eq_ok_iff.1 hrun
  cases hrun
  have hafter : p₂.Within q := (Growing.grows hlength).within
  exact Layout.spans_of_fixed (Steady.fixed hl ((Growing.grows hbytes).within.trans hafter))
    hsound.items (Steady.fixed hbytes hafter) hr.2

theorem settles_code (hsound : m.IsSound) {owner : Text} (hdrawn : m.IsDrawn)
    (hcounted : m.HasCountedCode) (hcode : m.hasCode = true) (hfaultless : m.IsFaultless I owner)
    (hasks : Granted I (codeAsks m)) (stackMaps : Bool) : Settles I (code owner false stackMaps m) := by
  obtain ⟨sizes, hsizes⟩ := Option.isSome_iff_exists.1 (hdrawn.code.given hcode)
  obtain ⟨hstack, hlocals⟩ := hdrawn.code.maxima sizes hsizes
  rw [code_false_eq hsound hsizes]
  refine (ends_laidOut hsound hfaultless.items hasks.left.left.left _).bind ?_
  rintro ⟨l, bytes⟩ ⟨hof, hspans, hlength⟩
  dsimp only at hof hspans hlength ⊢
  have hpieces : ∀ p ∈ codePieces m l (Flow.Program.placeOf owner m) (ownFrames m.body),
      p.IsSettled I := by
    refine isSettled_of_mem ?_ (settledContents_codePieces hof hspans hsound hdrawn hfaultless hasks _) ?_
    · have hnames := hasks.right
      unfold pieceAsks at hnames ⊢
      rwa [map_name_codePieces l .blank _ []]
    · obtain ⟨q, q', hq, hl⟩ := hof
      exact hfaultless.codeLengths q l q' hq hl
  have hhandlers : ∀ h ∈ m.handlers, Settles I (handler l h) := fun h hh =>
    settles_handler (fun label hlabel => hspans.reaches hof hsound.closed.nodup label
      (hsound.closed.handlers h hh hlabel)) (hasks.left.left.right.map_mem hh)
  have hbytes : bytes.length < 0x10000 := by
    unfold maxCodeLength at hlength
    omega
  exact (Ends.u2 hstack).bind fun _ _ => (Ends.u2 hlocals).bind fun _ _ =>
    (Ends.u4 ⟨by omega, by omega⟩).bind fun _ _ =>
      (Ends.listOf hdrawn.code.handlers.1 hhandlers).bind fun _ _ =>
        Ends.map (settles_attributes (hcounted l _) hpieces _) fun _ _ => trivial

end ClassTree.Encoding

namespace ClassTree

open Encoder Encoding

namespace Encoding

variable {I : Pool → Prop}

/-! ## Members -/

/-- The flags, the name and the descriptor of a member. -/
theorem settles_memberHead {access : Int} {name descriptor : Text} (haccess : IsWord access)
    (hname : Ends I Error.IsRefusal (pooled (Pool.addUtf8 name)) (· < 0x10000))
    (hdescriptor : Ends I Error.IsRefusal (pooled (Pool.addUtf8 descriptor)) (· < 0x10000)) :
    Settles I (memberHead access name descriptor) :=
  hname.bind fun _ hn => hdescriptor.bind fun _ hd => (Ends.u2 haccess).bind fun _ _ =>
    (Ends.count hn).bind fun _ _ => (Ends.count hd).map fun _ _ => trivial

theorem settles_field {f : Field} (hdrawn : f.IsDrawn) (hcounted : (fieldPieces f).length < 0x10000)
    (hfaultless : f.IsFaultless I) (hasks : Granted I (fieldAsks f)) : Settles I (field f) := by
  have htexts := hasks.left.left.left
  have hcontents : SettledContents I (fieldPieces f) := by
    refine .append (.append (.append (.pieceOf? fun v hv => ?_) (.signature ?_))
      (.annotations hdrawn.annotations hfaultless.annotations hasks.left.right)) (.raw _)
    · exact (hasks.left.left.right.map_mem (Option.mem_toList.2 hv)).bind fun _ hi => Ends.count hi
    · exact htexts.tail.tail
  have hpieces := isSettled_of_mem hasks.right hcontents hfaultless.lengths
  exact (settles_memberHead hdrawn.access (htexts.text (by simp)) (htexts.text (by simp))).bind
    fun _ _ => Ends.map (settles_attributes hcounted hpieces _) fun _ _ => trivial

/-! ## Parameters -/

variable {m : Method}

/-- How many parameters an attribute covers fits into a byte, or is refused. -/
theorem ends_parameterCount {given : Option Int} (h : given = none → m.parameters.length < 0x100)
    (place : Text) : Ends I Error.IsRefusal (liftM (parameterCount place m given) : Encoder Int)
      fun count => 0 ≤ count ∧ count < 0x100 := by
  unfold parameterCount
  cases given with
  | none =>
    have hlt := h rfl
    exact .pure ⟨by omega, by omega⟩
  | some count =>
    dsimp only
    split
    · next hcount =>
      unfold maxByte at hcount
      exact .pure ⟨by omega, by omega⟩
    · exact .throw trivial

/-- Parameters that are listed, unless one that is left out has something to list. -/
theorem settles_listed (refuse : Parameter → Unverified) {parameter? : Option Parameter} {place : Text}
    {count : Int} (hcount : 0 ≤ count ∧ count < 0x100) {listed : Encoder Bytes} (h : Settles I listed) :
    Settles I (match parameter? with
      | some p => throw (.unverified (refuse p) (some place) none)
      | none => do
        let head ← countByte count
        return head ++ (← listed) : Encoder Bytes) := by
  split
  · exact Ends.throw trivial
  · exact (Ends.u1 hcount).bind fun _ _ => Ends.map h fun _ _ => trivial

theorem settles_parameterAnnotations {visible : Bool} {given : Option Int}
    (hcount : given = none → m.parameters.length < 0x100) (hdrawn : ∀ p ∈ m.parameters, p.IsDrawn)
    (hfaultless : ∀ p ∈ m.parameters, AnnotationUse.AreFaultless p.annotations)
    (hasks : Granted I (m.parameters.flatMap parameterAsks)) (place : Text) :
    Settles I (parameterAnnotations place m visible given) := by
  unfold parameterAnnotations
  refine (ends_parameterCount hcount place).bind fun count hcount => ?_
  refine settles_listed (fun p => .annotatedParameter p.index count) hcount
    (Ends.all fun p hp => ?_)
  have hmem := List.mem_of_mem_drop hp
  exact settles_ofVisibility (hdrawn p hmem).annotations (hfaultless p hmem)
    (hasks.of_mem hmem).tail visible

theorem settles_methodParameters (hcount : m.parameterCount = none → m.parameters.length < 0x100)
    (hdrawn : ∀ p ∈ m.parameters, p.IsDrawn) (hasks : Granted I (m.parameters.flatMap parameterAsks))
    (place : Text) : Settles I (methodParameters place m) := by
  unfold methodParameters
  refine (ends_parameterCount hcount place).bind fun count hcount => ?_
  refine settles_listed (fun p => .namedParameter p.index count) hcount (Ends.all fun p hp => ?_)
  have hmem := List.mem_of_mem_take hp
  rw [parameter_eq]
  exact (hasks.of_mem hmem).head.bind fun _ hn => (Ends.count hn).bind fun _ _ =>
    (Ends.u2 (hdrawn p hmem).access).map fun _ _ => trivial

/-! ## Methods -/

/-- The names of the attributes of a method do not depend on the class and on what is verified. -/
theorem map_name_methodPieces (owner owner' : Text) (verify verify' stackMaps stackMaps' : Bool) :
    (methodPieces owner verify stackMaps m).map Piece.name =
      (methodPieces owner' verify' stackMaps' m).map Piece.name := by
  have hif (condition : Bool) (name : Text) (content : Encoder Bytes) :
      (pieceIf condition name content).map Piece.name = if condition then [name] else [] := by
    unfold pieceIf
    split <;> rfl
  unfold methodPieces parameterAnnotationPiece
  simp only [List.map_append, hif]

theorem settles_method (hsound : m.IsSound) {owner : Text} (hdrawn : m.IsDrawn)
    (hcounted : m.IsCounted) (hfaultless : m.IsFaultless I owner) (hasks : Granted I (methodAsks m))
    (stackMaps : Bool) : Settles I (method owner false stackMaps m) := by
  have htexts := hasks.left.left.left.left.left.left
  have hparameters := hasks.left.left.left.right
  have hannotations {visible : Bool} {given : Option Int} {place : Text}
      (hcount : given = none → m.parameters.any (isAnnotated visible) = true →
        m.parameters.length < 0x100) :
      SettledContents I (parameterAnnotationPiece place m visible given) := by
    refine .pieceIf fun hreason => settles_parameterAnnotations (fun hnone => ?_) hdrawn.parameters
      hfaultless.parameters hparameters place
    exact hcount hnone (by simpa [hnone] using hreason)
  have hcontents : SettledContents I (methodPieces owner false stackMaps m) := by
    refine .append (.append (.append (.append (.append (.append (.append (.append
      (.pieceIf fun hcode => ?_) (.pieceIf fun _ => ?_)) (.signature htexts.tail.tail))
      (.annotations hdrawn.annotations hfaultless.annotations hasks.left.left.left.left.right))
      (hannotations hdrawn.visible)) (hannotations hdrawn.invisible)) (.pieceOf? fun v hv => ?_))
      (.pieceIf fun hreason => ?_)) (.raw _)
    · have hcodeAsks := hasks.left.right
      rw [if_pos hcode] at hcodeAsks
      exact settles_code hsound hdrawn hcounted.code hcode hfaultless hcodeAsks stackMaps
    · exact Ends.listOf hdrawn.exceptions.1 fun e he =>
        (hasks.left.left.left.left.left.right.reference he).index
    · exact settles_element v (hdrawn.default v hv)
        (hasks.left.left.right.of_mem (Option.mem_toList.2 hv))
    · exact settles_methodParameters (fun hnone => hdrawn.named hnone (by simpa [hnone] using hreason))
        hdrawn.parameters hparameters _
  have hnames := map_name_methodPieces (m := m) owner [] false false stackMaps false
  have hpieces : ∀ p ∈ methodPieces owner false stackMaps m, p.IsSettled I := by
    refine isSettled_of_mem ?_ hcontents (hfaultless.lengths stackMaps)
    have hasks := hasks.right
    unfold pieceAsks at hasks ⊢
    rwa [hnames]
  have hcount : (methodPieces owner false stackMaps m).length < 0x10000 := by
    have hlength := congrArg List.length hnames
    rw [List.length_map, List.length_map] at hlength
    rw [hlength]
    exact hcounted.pieces
  exact (settles_memberHead hdrawn.access (htexts.text (by simp)) (htexts.text (by simp))).bind
    fun _ _ => Ends.map (settles_attributes hcount hpieces _) fun _ _ => trivial

end Encoding

/-! ## Classes -/

theorem Encoder.Ends.get_bind {β : Type} {I : Pool → Prop} {E : Error → Prop} {R : β → Prop}
    {f : Pool → Encoder β} (h : ∀ p, I p → Ends I E (f p) R) : Ends I E (get >>= f) R :=
  fun p hp => h p hp p hp

namespace Class

variable {c : Class}

/-- A pool within reach of a faultless class fits, if the one to begin with does. -/
theorem Reaches.isFit (hserve : AllServe c.asks) (hroom : ∀ p, c.Reaches p → p.IsSmall)
    (hseed : c.seed.IsFit) {p : Pool} (h : c.Reaches p) : p.IsFit := by
  induction h with
  | seed => exact hseed
  | add hp he heq ih => exact ((hserve _ he).keepsFit ih heq (hroom _ (.add hp he heq))).1

/-- A pool within reach gives what the class asks for. -/
theorem granted_asks (hserve : AllServe c.asks) (hroom : ∀ p, c.Reaches p → p.IsSmall)
    (hseed : c.seed.IsFit) : Granted c.Reaches c.asks := by
  intro e he p hp
  obtain ⟨i, q, heq⟩ := (hserve e he).exists_eq_ok p
  have hq : c.Reaches q := .add hp he heq
  exact .inl ⟨i, q, heq, hq, ((hserve e he).keepsFit (hp.isFit hserve hroom hseed) heq (hroom q hq)).2⟩

theorem settles_innerClass {I : Pool → Prop} {i : InnerClass} (hdrawn : i.IsDrawn)
    (hasks : Granted I (innerClassAsks i)) : Settles I (innerClass i) :=
  hasks.head.bind fun _ hinner => hasks.tail.head.bind fun _ houter => hasks.tail.tail.head.bind
    fun _ hname => (Ends.count hinner).bind fun _ _ => (Ends.count houter).bind fun _ _ =>
      (Ends.count hname).bind fun _ _ => (Ends.u2 hdrawn.access).map fun _ _ => trivial

theorem settles_enclosingMethod {I : Pool → Prop} {e : EnclosingMethod}
    (hasks : Granted I (enclosingAsks e)) : Settles I (enclosingMethod e) := by
  rw [enclosingMethod_eq]
  exact hasks.head.bind fun _ hmember => hasks.tail.head.bind fun _ howner =>
    (Ends.count howner).bind fun _ _ => (Ends.count hmember).map fun _ _ => trivial

theorem settles_bootstrapTable {I : Pool → Prop} (hfit : ∀ p, I p → p.IsFit)
    (hroom : ∀ p, I p → p.IsSmall) :
    Settles I bootstrapTable := by
  refine Ends.get_bind fun p hp => Ends.listOf (hroom p hp).bootstrap fun b hb => ?_
  have hb := (hfit p hp).bootstrap b (Array.mem_toList_iff.1 hb)
  exact (Ends.count hb.handle).bind fun _ _ =>
    (Ends.listOf hb.length fun i hi => Ends.count (hb.arguments i hi)).map fun _ _ => trivial

/-- The attributes of a class are among those that it has with a bootstrap table. -/
theorem classPieces_sublist (bootstrap : Bool) :
    (classPieces c bootstrap).Sublist (classPieces c true) := by
  cases bootstrap with
  | true => exact List.Sublist.refl _
  | false =>
    unfold classPieces
    exact List.Sublist.append (List.Sublist.refl _) (List.nil_sublist _)

theorem isSettled_classPieces (hdrawn : c.IsDrawn) (hfaultless : c.IsFaultless)
    (hasks : Granted c.Reaches c.asks) (hfit : ∀ p, c.Reaches p → p.IsFit) (bootstrap : Bool) :
    ∀ p ∈ classPieces c bootstrap, p.IsSettled c.Reaches := by
  have hrest := hasks.tail
  have htexts := hrest.left.left.left.left.right
  have hcontents : SettledContents c.Reaches (classPieces c true) := by
    refine .append (.append (.append (.append (.append (.append (.pieceOf? fun t ht => ?_)
      (.pieceIf fun _ => Ends.listOf hfaultless.innerClasses.1 fun i hi => ?_))
        (.pieceOf? fun e he => ?_))
      (.signature ?_)) (.annotations hdrawn.annotations hfaultless.annotations hrest.left.right))
      (.raw _)) (.pieceIf fun _ => settles_bootstrapTable hfit hfaultless.room)
    · exact (htexts.text (List.mem_append_left _ (Option.mem_toList.2 ht))).index
    · exact settles_innerClass (hdrawn.innerClasses i hi) (hrest.left.left.left.right.of_mem hi)
    · exact settles_enclosingMethod (hrest.left.left.right.of_mem (Option.mem_toList.2 he))
    · exact htexts.subset (List.map_subset _ (List.subset_append_right _ _))
  exact fun p hp => isSettled_of_mem hrest.right hcontents hfaultless.lengths p
    ((classPieces_sublist bootstrap).subset hp)

/-- Everything behind the pool of a class. -/
theorem settles_body (hsound : c.IsSound) (hdrawn : c.IsDrawn) (hcounted : c.HasCountedMembers)
    (hfaultless : c.IsFaultless) (hasks : Granted c.Reaches c.asks) (hfit : ∀ p, c.Reaches p → p.IsFit) :
    Settles c.Reaches (body false c) := by
  have hrest := hasks.tail
  have hmembers := hrest.left.left.left.left.left
  have hreferences := hmembers.left.left
  refine (Ends.u2 hdrawn.access).bind fun _ _ =>
    (hreferences.reference List.mem_cons_self).index.bind fun _ _ => hasks.head.bind fun _ hsuper =>
    (Ends.count hsuper).bind fun _ _ => (Ends.listOf hdrawn.interfaces.1 fun i hi =>
      (hreferences.reference (List.mem_cons_of_mem _ hi)).index).bind fun _ _ => ?_
  refine (Ends.listOf hdrawn.fields.1 fun f hf => settles_field (hdrawn.fields.2 f hf)
    (hcounted.fields f hf) (hfaultless.fields f hf) (hmembers.left.right.of_mem hf)).bind fun _ _ => ?_
  refine (Ends.listOf hdrawn.methods.1 fun m hm => settles_method (hsound.methods m hm)
    (hdrawn.methods.2 m hm) (hcounted.methods m hm) (hfaultless.methods m hm)
    (hmembers.right.of_mem hm) _).bind fun _ _ => ?_
  refine Ends.get_bind fun p _ => ?_
  have hcount (bootstrap : Bool) : (classPieces c bootstrap).length < 0x10000 :=
    (classPieces_sublist bootstrap).length_le.trans_lt hfaultless.count
  exact Ends.map (settles_attributes (hcount _)
    (isSettled_classPieces hdrawn hfaultless hasks hfit _) _) fun _ _ => trivial

theorem settles_classFile (hsound : c.IsSound) (hdrawn : c.IsDrawn) (hcounted : c.HasCountedMembers)
    (hfaultless : c.IsFaultless) (hasks : Granted c.Reaches c.asks) (hfit : ∀ p, c.Reaches p → p.IsFit) :
    Settles c.Reaches (classFile false c) := by
  refine (settles_body hsound hdrawn hcounted hfaultless hasks hfit).bind fun _ _ =>
    Ends.get_bind fun p hp => ?_
  refine .ite (fun _ => .bind (Q := fun _ => False) (.throw trivial) fun _ h => h.elim) fun hsize => ?_
  have hsize : p.size ≤ 0xFFFF := by
    unfold maxPoolSize at hsize
    omega
  obtain ⟨bytes, hbytes, -⟩ := (hfit p hp).isSound.exists_encode hsize fun t ht => by
    have hshort : (ModifiedUtf8.encode t).length < 0x10000 := ((hfit p hp).entries _ ht).isShort
    omega
  exact (Ends.u4 (by decide)).bind fun _ _ => (Ends.u2 hdrawn.version.2).bind fun _ _ =>
    (Ends.u2 hdrawn.version.1).bind fun _ _ => .lift_bind hbytes (.pure trivial)

/-- A sound class that is drawn from a class file and faultless is written, or it is said that it
cannot be verified. -/
theorem exists_or_unverified_of_isDrawn (hsound : c.IsSound) (hdrawn : c.IsDrawn)
    (hcounted : c.HasCountedMembers) (hfaultless : c.IsFaultless) (hseed : c.seed.IsFit) :
    (∃ out, c.toBytes false = .ok out) ∨
      ∃ cause place position, c.toBytes false = .error (.unverified cause place position) := by
  have hserve := allServe_asks hsound hdrawn hfaultless
  have hfit : ∀ p, c.Reaches p → p.IsFit := fun p hp => hp.isFit hserve hfaultless.room hseed
  have hsettles := settles_classFile hsound hdrawn hcounted hfaultless
    (granted_asks hserve hfaultless.room hseed) hfit
  have hends := hsettles.exists_or .seed
  unfold toBytes
  rcases hends with ⟨out, q, heq⟩ | ⟨cause, place, position, heq⟩
  · refine .inl ⟨out, ?_⟩
    have hrun : (classFile false c).run (Pool.seeded c.layout.pool c.layout.bootstrap) = _ := heq
    rw [hrun]
  · refine .inr ⟨cause, place, position, ?_⟩
    have hrun : (classFile false c).run (Pool.seeded c.layout.pool c.layout.bootstrap) = _ := heq
    rw [hrun]

/-- What the pool and the bootstrap table of a class file hold fits the fields that it is written
to. -/
theorem isFit_seed_of_ofBytes {bytes : Bytes} (h : ofBytes bytes = .ok c) : c.seed.IsFit := by
  obtain ⟨hwell, hentries, hbootstrap⟩ := Pool.wellFormed_seeded (isSeed_of_ofBytes h) c.layout.bootstrap
  obtain ⟨hdrawn, -⟩ := isDrawn_of_ofBytes h
  refine ⟨hwell, fun e he => ?_, fun b hb => hdrawn.bootstrap b ?_⟩
  · rw [← Array.mem_toList_iff, seed, hentries] at he
    -- a seed has the empty slot at index zero, or it has nothing
    rcases isSeed_of_ofBytes h with hempty | ⟨es, hes, -⟩
    · simp [hempty, Pool.seedEntries] at he
    · rw [hes] at he
      exact hdrawn.pool e (hes ▸ he)
  · rwa [← Array.mem_toList_iff, seed, hbootstrap] at hb

/-- What the reader accepts the writer can write: a class that has been read of any bytes is
written, or it is said why it cannot be verified, as long as it is faultless. Nothing else can go
wrong. The numbers that have been read fit the fields that they came from, the labels that were made
up are found again, and every constant is of a kind that its place can hold; a faultless class has
no place without the constant that the writer needs there, and room for all that it asks for. -/
theorem exists_or_unverified_of_ofBytes {bytes : Bytes} (h : ofBytes bytes = .ok c)
    (hfaultless : c.IsFaultless) :
    (∃ out, c.toBytes false = .ok out) ∨
      ∃ cause place position, c.toBytes false = .error (.unverified cause place position) := by
  obtain ⟨hdrawn, hcounted⟩ := isDrawn_of_ofBytes h
  exact exists_or_unverified_of_isDrawn (isSound_of_ofBytes h) hdrawn hcounted hfaultless
    (isFit_seed_of_ofBytes h)

/-! ## A class with a call site is written -/

/-- A pool that has all that a class asks for is the only one within reach of the class. -/
theorem Reaches.eq_seed (hheld : ∀ e ∈ c.asks, ∃ i, Fixed c.seed e i) {p : Pool} (h : c.Reaches p) :
    p = c.seed := by
  induction h with
  | seed => rfl
  | add _ he heq ih =>
    obtain ⟨i, hi⟩ := hheld _ he
    rw [ih] at heq
    cases hi.symm.trans heq
    rfl

end Class

namespace Encoding

/-- An attribute is bounded if it is short with the only pool within reach. -/
theorem Piece.isBounded_of_eq_ok {reached : Pool → Prop} {P : Pool} (hreached : ∀ q, reached q → q = P)
    {p : Piece} {data : Bytes} (h : (p.content P).map Prod.fst = .ok data)
    (hlength : data.length < 0x100000000) : p.IsBounded reached := by
  intro q bytes q' hq hcontent
  rw [hreached q hq] at hcontent
  rw [hcontent] at h
  cases h
  exact hlength

/-- Code with neither handlers nor attributes is bounded, since its instructions are. -/
theorem Piece.isBounded_code {reached : Pool → Prop} {owner : Text} {stackMaps : Bool} {m : Method}
    {sizes : Maxima} (hsizes : m.maxima = some sizes) (hhandlers : m.handlers = [])
    (hpieces : ∀ l, codePieces m l (Flow.Program.placeOf owner m) (ownFrames m.body) = []) (name : Text) :
    Piece.IsBounded reached ⟨name, code owner false stackMaps m⟩ := by
  intro q bytes q' _ hcontent
  obtain ⟨parts, rfl⟩ := exists_codeParts (Steady.again hcontent (Pool.Within.refl q'))
  have hframes : parts.frames = ownFrames m.body :=
    (Prod.mk.inj (Except.ok.inj (parts.verified_eq.symm.trans (verified_false hsizes)))).2
  have hattributes := parts.writes
  rw [hframes, hpieces, (ordered_perm _ _).eq_nil, List.forall₂_nil_left_iff] at hattributes
  obtain ⟨count, contents, hcount, hcontents, hrest⟩ := parts.areAttributes
  rw [hattributes, List.forall₂_nil_left_iff] at hcontents
  obtain ⟨entries, hentries, each, heach, hlisted⟩ := fixed_listOf_iff.1 parts.fixed_handlers
  rw [hhandlers, List.forall₂_nil_left_iff] at heach
  have hlength := parts.length_le
  unfold maxCodeLength at hlength
  simp only [CodeParts.bytes, hrest, hcontents, hlisted, heach, List.length_append, List.flatten_nil,
    List.length_nil, length_of_unsigned? parts.stack_eq, length_of_unsigned? parts.locals_eq,
    length_of_unsigned? parts.length_eq, length_of_unsigned? hcount, length_of_unsigned? hentries]
  omega

/-- The code of the method with a call site has no attributes. -/
theorem codePieces_siteMethod (l : Layout) (place : Text) :
    codePieces siteMethod l place (ownFrames siteMethod.body) = [] := by cbv

end Encoding

namespace Class

/-- All that the class with a call site asks for is in its pool. -/
theorem held_siteClass : ∀ e ∈ siteClass.asks, ∃ i, Fixed siteClass.seed e i := by
  have hlocates : siteClass.seed.Locates siteTable.entries :=
    Pool.locates_seeded (isSeed_of_ofBytes ofBytes_siteFile) (by decide) siteTable.bootstrap.toList
  have hA := hlocates 1 _ rfl
  have hf := hlocates 3 _ rfl
  have hdescriptor := hlocates 4 _ rfl
  have hclass : Fixed siteClass.seed (pooled (Pool.addClass (some "A"))) 2 :=
    fixed_addClass_iff.2 ⟨1, fixed_addUtf8_iff.2 hA, hlocates 2 _ rfl⟩
  have hnamed : Fixed siteClass.seed (pooled (Pool.addNameAndType "f" (some "()V"))) 7 :=
    fixed_addNameAndType_iff.2 ⟨3, hf, 4, fixed_addUtf8_iff.2 hdescriptor, hlocates 7 _ rfl⟩
  have hhandle : Fixed siteClass.seed (pooled (Pool.addHandle ⟨6, some "A", "f", "()V", false⟩)) 10 :=
    fixed_pooled_bind_iff.2 ⟨9, fixed_addMethod_iff.2 ⟨2, hclass, 7, hnamed, hlocates 9 _ rfl⟩,
      fixed_add_iff.2 (hlocates 10 _ rfl)⟩
  have hbootstrap : siteClass.seed.bootstrapIndex[(⟨10, [2]⟩ : Bootstrap)]? = some 1 := by
    obtain ⟨hwell, -, hlist⟩ := Pool.wellFormed_seeded (isSeed_of_ofBytes ofBytes_siteFile)
      siteClass.layout.bootstrap
    unfold seed
    rw [hwell.bootstrapIndex, hlist]
    rfl
  have hsite : Fixed siteClass.seed (siteIndex "f" "()V" ⟨6, some "A", "f", "()V", false⟩
      [("reference", .reference "A")]) 8 := by
    refine fixed_bind_iff.2 ⟨[2], fixed_mapM_iff.2 (.cons hclass .nil), ?_⟩
    refine fixed_bind_iff.2 ⟨10, hhandle, fixed_bind_iff.2 ⟨1, fixed_addBootstrap_iff.2 hbootstrap, ?_⟩⟩
    exact fixed_addInvokeDynamic_iff.2 ⟨7, hnamed, hlocates 8 _ rfl⟩
  have hcodeAsks : codeAsks siteMethod =
      [siteIndex "f" "()V" ⟨6, some "A", "f", "()V", false⟩ [("reference", .reference "A")]] := by
    unfold codeAsks
    rw [codePieces_siteMethod]
    rfl
  have hmethodAsks : methodAsks siteMethod = [pooled (Pool.addUtf8 "f"), pooled (Pool.addUtf8 "()V"),
      siteIndex "f" "()V" ⟨6, some "A", "f", "()V", false⟩ [("reference", .reference "A")],
      pooled (Pool.addUtf8 AttributeName.code)] := by
    unfold methodAsks
    rw [hcodeAsks]
    rfl
  have hasks : siteClass.asks = [classIndex none, pooled (Pool.addClass (some "A")),
      pooled (Pool.addClass (some "A"))] ++ (methodAsks siteMethod ++
      [pooled (Pool.addUtf8 "A"), pooled (Pool.addUtf8 AttributeName.bootstrapMethods)]) := by
    unfold Class.asks
    rw [show siteClass.methods.flatMap methodAsks = methodAsks siteMethod ++ [] from rfl, hmethodAsks]
    rfl
  rw [hasks, hmethodAsks]
  simp only [List.cons_append, List.nil_append, List.forall_mem_cons]
  exact ⟨⟨0, fixed_pure_iff.2 rfl⟩, ⟨2, hclass⟩, ⟨2, hclass⟩, ⟨3, fixed_addUtf8_iff.2 hf⟩,
    ⟨4, fixed_addUtf8_iff.2 hdescriptor⟩, ⟨8, hsite⟩, ⟨5, fixed_addUtf8_iff.2 (hlocates 5 _ rfl)⟩,
    ⟨1, fixed_addUtf8_iff.2 hA⟩, ⟨6, fixed_addUtf8_iff.2 (hlocates 6 _ rfl)⟩, fun _ h => by cases h⟩

/-- The class with a call site is faultless. All that it asks for is in its pool, so there is no
other pool within reach, and each bound is about bytes that can be computed. -/
theorem isFaultless_siteClass : siteClass.IsFaultless := by
  have hreached (p : Pool) (h : siteClass.Reaches p) : p = siteClass.seed := h.eq_seed held_siteClass
  have hnone : AnnotationUse.AreFaultless [] :=
    ⟨fun visible => by cases visible <;> decide, fun _ h => by cases h⟩
  have hmethod : siteMethod.IsFaultless siteClass.Reaches "A" := {
    exceptions := by simp [siteMethod]
    items := by
      simp [siteMethod, siteCall, Item.IsFaultless, Instruction.IsFaultless, Constant.HasOwner]
    described := by decide
    signed := by decide
    annotations := hnone
    parameters := by simp [siteMethod]
    default := by simp [siteMethod]
    lengths := by
      intro stackMaps p hp
      rw [show methodPieces "A" false stackMaps siteMethod =
        [⟨AttributeName.code, code "A" false stackMaps siteMethod⟩] from rfl, List.mem_singleton] at hp
      rw [hp]
      exact Piece.isBounded_code rfl rfl (fun l => codePieces_siteMethod l _) _
    codeLengths := by
      intro q l q' _ _ p hp
      rw [codePieces_siteMethod] at hp
      cases hp }
  exact {
    interfaces := by simp [siteClass]
    fields := by simp [siteClass]
    methods := by simpa [siteClass] using hmethod
    annotations := hnone
    innerClasses := by simp [siteClass]
    enclosing := by simp [siteClass]
    count := by decide
    lengths := by
      rw [show classPieces siteClass true =
        [⟨"A", pure [7]⟩, ⟨AttributeName.bootstrapMethods, bootstrapTable⟩] from rfl]
      simp only [List.forall_mem_cons]
      exact ⟨Piece.isBounded_of_eq_ok hreached rfl (by decide),
        Piece.isBounded_of_eq_ok hreached (by cbv) (by decide), fun _ h => by cases h⟩
    room := by
      intro p hp
      rw [hreached p hp]
      exact ⟨by cbv, by cbv⟩ }

/-- The class has been read from a class file and names no absent class, so it is written or cannot be
verified. -/
theorem exists_or_unverified_siteFile : ofBytes siteFile = .ok siteClass ∧ siteClass.IsFaultless ∧
    ((∃ out, siteClass.toBytes false = .ok out) ∨ ∃ cause place position,
      siteClass.toBytes false = .error (.unverified cause place position)) :=
  ⟨ofBytes_siteFile, isFaultless_siteClass,
    exists_or_unverified_of_ofBytes ofBytes_siteFile isFaultless_siteClass⟩

end Class

end ClassTree
