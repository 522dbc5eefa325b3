/-
# ClassTree.Proofs.Flow.Composition — what effects are made of

The effect of an instruction is put together from a few moves: slots are dropped, copied or
exchanged, a type is pushed that the instruction names, a local is loaded or stored, the receiver of
a call is taken. `Composed` says so for all instructions at once, whatever the program and whatever
number the instruction has in it. A property of effects that passes from parts to a sequence is then
proved by looking at the moves, of which there are few, and not at the instructions.

What an analysis finds out about single types, such as that an uninitialized object names the
instruction that made it, it has to find out about all slots of all states. So the file begins with
what the operations on states do to a property that every slot has.
-/
import ClassTree.Flow.Effect
import ClassTree.Proofs.Flow.Merge
import ClassTree.Proofs.Result

namespace ClassTree.Flow

open Result (bind_eq_ok_iff)

/-- The slots of a value hold its type and a top at most. -/
theorem eq_or_eq_top_of_mem_slotsOf {v w : VerificationType} (h : w ∈ slotsOf v) :
    w = v ∨ w = .top := by
  unfold slotsOf at h
  split at h
  · rcases List.mem_cons.1 h with rfl | h
    · exact .inl rfl
    · exact .inr (List.mem_singleton.1 h)
  · exact .inl (List.mem_singleton.1 h)

namespace State

/-! ## Stores -/

/-- Makes a slot top if a wide value begins at a place. -/
def spoil (locals : List VerificationType) (place slot : Int) : Result (List VerificationType) := do
  if ← isWideAt locals place then put locals slot .top else return locals

/-- What follows on a slot that may be spoilt. -/
theorem spoil_bind (c : Prop) [Decidable c] (locals : List VerificationType) (place slot : Int)
    (k : List VerificationType → Result State) :
    (if c then
        isWideAt locals place >>= fun wide => if wide then put locals slot .top >>= k else k locals
      else k locals) =
    (if c then spoil locals place slot else pure locals) >>= k := by
  split
  · unfold spoil
    rw [bind_assoc]
    refine bind_congr fun wide => ?_
    cases wide <;> rfl
  · rfl

/-- Storing spoils the wide values around the slot and then sets the slot. -/
theorem store_eq (s : State) (slot : Int) (v : VerificationType) :
    s.store slot v = (do
      let after := slot + ((slotsOf v).length : Int)
      let padded := s.locals ++ List.replicate (after - s.locals.length).toNat .top
      let first ← (if 0 < slot then spoil padded (slot - 1) (slot - 1) else pure padded)
      let second ← (if after < first.length then spoil first (after - 1) after else pure first)
      let third ← put second slot v
      if ((slotsOf v).length : Int) = 2 then return { s with locals := ← put third (slot + 1) .top }
      else return { s with locals := third }) := by
  unfold State.store
  exact (spoil_bind _ _ _ _ _).trans (bind_congr fun first => spoil_bind _ _ _ _ _)

/-! ## Properties of all slots -/

/-- All types of a state have a property. -/
structure Each (Good : VerificationType → Prop) (s : State) : Prop where
  locals : ∀ v ∈ s.locals, Good v
  stack : ∀ v ∈ s.stack, Good v

variable {Good : VerificationType → Prop} {s t : State}

theorem Each.push (hs : s.Each Good) (htop : Good .top) {v : Option VerificationType}
    (hv : ∀ w, v = some w → Good w) : (s.push v).Each Good := by
  cases v with
  | none => exact hs
  | some w =>
    refine ⟨hs.locals, ?_⟩
    intro u hu
    rcases List.mem_append.1 hu with hu | hu
    · rcases eq_or_eq_top_of_mem_slotsOf (List.mem_reverse.1 hu) with rfl | rfl
      · exact hv _ rfl
      · exact htop
    · exact hs.stack u hu

theorem Each.pop (hs : s.Each Good) {count : Nat} {values : List VerificationType}
    (h : s.pop count = .ok (values, t)) : (∀ v ∈ values, Good v) ∧ t.Each Good := by
  unfold State.pop at h
  split at h
  · cases h
    refine ⟨fun v hv => hs.stack v (List.mem_of_mem_take hv), hs.locals, ?_⟩
    exact fun v hv => hs.stack v (List.mem_of_mem_drop hv)
  · cases h

theorem Each.drop (hs : s.Each Good) {count : Nat} (h : s.drop count = .ok t) : t.Each Good := by
  obtain ⟨⟨values, u⟩, hu, h⟩ := bind_eq_ok_iff.1 h
  cases h
  exact (hs.pop hu).2

theorem Each.pile (hs : s.Each Good) {values : List VerificationType} (hv : ∀ v ∈ values, Good v) :
    Each Good { s with stack := values ++ s.stack } := by
  refine ⟨hs.locals, ?_⟩
  intro v hmem
  rcases List.mem_append.1 hmem with hmem | hmem
  · exact hv v hmem
  · exact hs.stack v hmem

theorem each_of_put {locals locals' : List VerificationType} {slot : Int} {v : VerificationType}
    (hl : ∀ w ∈ locals, Good w) (hv : Good v) (h : put locals slot v = .ok locals') :
    ∀ w ∈ locals', Good w := by
  unfold State.put at h
  split at h
  · cases h
    intro w hw
    rcases List.mem_or_eq_of_mem_set hw with hw | rfl
    · exact hl w hw
    · exact hv
  · cases h

/-- Spoiling a slot, if there is reason to. -/
theorem each_of_spoil (htop : Good .top) {c : Prop} [Decidable c]
    {locals locals' : List VerificationType} {place slot : Int} (hl : ∀ w ∈ locals, Good w)
    (h : (if c then spoil locals place slot else pure locals) = .ok locals') :
    ∀ w ∈ locals', Good w := by
  split at h
  · obtain ⟨wide, -, h⟩ := bind_eq_ok_iff.1 h
    split at h
    · exact each_of_put hl htop h
    · cases h
      exact hl
  · cases h
    exact hl

theorem Each.store (hs : s.Each Good) (htop : Good .top) {slot : Int} {v : VerificationType}
    (hv : Good v) (h : s.store slot v = .ok t) : t.Each Good := by
  have hpadded {count : Nat} : ∀ w ∈ s.locals ++ List.replicate count .top, Good w := by
    intro w hw
    rcases List.mem_append.1 hw with hw | hw
    · exact hs.locals w hw
    · obtain rfl := List.eq_of_mem_replicate hw
      exact htop
  rw [store_eq] at h
  obtain ⟨first, hfirst, h⟩ := bind_eq_ok_iff.1 h
  obtain ⟨second, hsecond, h⟩ := bind_eq_ok_iff.1 h
  obtain ⟨third, hthird, h⟩ := bind_eq_ok_iff.1 h
  have hspoilt := each_of_spoil htop (each_of_spoil htop hpadded hfirst) hsecond
  have hthird := each_of_put hspoilt hv hthird
  split at h
  · obtain ⟨last, hlast, h⟩ := bind_eq_ok_iff.1 h
    cases h
    exact ⟨each_of_put hthird htop hlast, hs.stack⟩
  · cases h
    exact ⟨hthird, hs.stack⟩

theorem Each.read (hs : s.Each Good) (htop : Good .top) {slot : Int} {v : VerificationType}
    (h : s.read slot = .ok v) : Good v := by
  unfold State.read at h
  split at h
  · cases h
    exact htop
  · split at h
    · next w hw =>
      cases h
      obtain ⟨i, -, hi⟩ := Option.bind_eq_some_iff.1 hw
      exact hs.locals v (List.mem_of_getElem? hi)
    · cases h

theorem Each.replaceAll (hs : s.Each Good) {old new : VerificationType} (hnew : Good new) :
    (s.replaceAll old new).Each Good := by
  have hmap {vs : List VerificationType} (h : ∀ v ∈ vs, Good v) :
      ∀ w ∈ vs.map (fun v => if v = old then new else v), Good w := by
    intro w hw
    obtain ⟨v, hv, rfl⟩ := List.mem_map.1 hw
    split
    · exact hnew
    · exact h v hv
  exact ⟨hmap hs.locals, hmap hs.stack⟩

end State

/-! ## Merges -/

variable {Good : VerificationType → Prop}

/-- A merge of two types is one of them or the root of all classes. -/
theorem good_of_mergeType? (hroot : Good (instanceOf objectName)) {a b v : VerificationType}
    (ha : Good a) (hb : Good b) (h : mergeType? a b = some v) : Good v := by
  unfold mergeType? at h
  split at h
  · cases h
    exact ha
  · split at h
    · split at h
      · cases h
        exact hb
      · split at h <;> cases h
        · exact ha
        · exact hroot
    · cases h

theorem good_mergeLocal (hroot : Good (instanceOf objectName)) (htop : Good .top)
    {a b : VerificationType} (ha : Good a) (hb : Good b) : Good (mergeLocal a b) := by
  unfold mergeLocal
  cases h : mergeType? a b with
  | none => exact htop
  | some v => exact good_of_mergeType? hroot ha hb h

theorem State.Each.merge (hroot : Good (instanceOf objectName)) (htop : Good .top)
    {known incoming merged : State} (hk : known.Each Good) (hi : incoming.Each Good)
    (h : known.merge incoming = .ok merged) : merged.Each Good := by
  obtain ⟨-, hlocals, hstack⟩ := merge_eq_ok_iff.1 h
  refine ⟨?_, ?_⟩
  · intro v hv
    rw [hlocals] at hv
    obtain ⟨n, hn, rfl⟩ := List.mem_iff_getElem.1 hv
    rw [List.getElem_zipWith]
    exact good_mergeLocal hroot htop (hk.locals _ (List.getElem_mem _))
      (hi.locals _ (List.getElem_mem _))
  · intro v hv
    have hmem : some v ∈ merged.stack.map some := List.mem_map_of_mem hv
    rw [hstack] at hmem
    obtain ⟨n, hn, hv⟩ := List.mem_iff_getElem.1 hmem
    rw [List.getElem_zipWith] at hv
    exact good_of_mergeType? hroot (hk.stack _ (List.getElem_mem _))
      (hi.stack _ (List.getElem_mem _)) hv

end ClassTree.Flow

namespace ClassTree.Flow

open Result (bind_eq_ok_iff)

/-! ## What instructions contribute -/

/-- The descriptor of the elements of a new array of references. -/
def elementDescriptor (name : Text) : Text :=
  if name.head? = some Descriptor.bracket then name else Text.concat ["L", name, ";"]

/-- A type that an instruction pushes whatever the state is. -/
inductive Pushes (i : Instruction Label) : VerificationType → Prop
  /-- Numbers, null and return addresses. -/
  | basic {v : VerificationType}
      (hv : v ∈ [VerificationType.integer, .float, .double, .long, .null, .top]) : Pushes i v
  | constant {op : Opcode} {value : Constant} (hi : i = .constant op value) :
      Pushes i (constantType op value)
  | numbers {code : Int} (hi : i = .immediate .newarray code) :
      Pushes i (instanceOf (arrayType code))
  | array {name : Text} (hi : i = .type .anewarray (some name)) :
      Pushes i (instanceOf (Descriptor.bracket :: elementDescriptor name))
  | cast {name : Option Text} (hi : i = .type .checkcast name) : Pushes i (.object name)
  | arrays {descriptor : Option Text} {dimensions : Int}
      (hi : i = .multiArray descriptor dimensions) : Pushes i (.object descriptor)

/-- A type that is neither uninitialized nor malformed. -/
def IsInitialized : VerificationType → Prop
  | .irregular _ _ | .uninitialized _ => False
  | _ => True

theorem Pushes.isInitialized {i : Instruction Label} {v : VerificationType} (h : Pushes i v) :
    IsInitialized v := by
  cases h with
  | basic hv =>
    simp only [List.mem_cons, List.not_mem_nil, or_false] at hv
    rcases hv with rfl | rfl | rfl | rfl | rfl | rfl <;> trivial
  | constant _ =>
    unfold constantType
    split
    · split <;> trivial
    · split <;> trivial
  | numbers _ | array _ | cast _ | arrays _ => trivial

/-- The descriptor of the method that an instruction calls. -/
def callee? : Instruction Label → Option Text
  | .method _ _ _ descriptor _ | .callSite _ descriptor _ _ => some descriptor
  | _ => none

/-- The descriptor of a value that an instruction pushes. -/
inductive Describes (i : Instruction Label) : Text → Prop
  | field {op : Opcode} {owner : Option Text} {name descriptor : Text}
      (hi : i = .field op owner name descriptor) : Describes i descriptor
  | result {descriptor : Text} {arguments : List Text} {result : Text}
      (hi : callee? i = some descriptor)
      (hsplit : Descriptor.split descriptor = .ok (arguments, result)) : Describes i result

/-- A failure of an instruction whatever the state is. -/
inductive Refuses (i : Instruction Label) : Error → Prop
  | notInterpretable {op : Opcode} (hi : i = .plain op) :
      Refuses i (.unverified (.notInterpretable op) none none)
  | noElement (hi : i = .type .anewarray none) : Refuses i (.undefined .kind)
  | callee {descriptor : Text} {e : Error} (hi : callee? i = some descriptor)
      (hsplit : Descriptor.split descriptor = .error e) : Refuses i e

/-! ## Moves -/

/-- Stores the lowest of some slots that are popped. -/
def storeLast (size : Nat) (slot : Int) (s : State) : Result State := do
  let (values, s) ← s.pop size
  match values.getLast? with
  | some v => s.store slot v
  | none => throw (.undefined .index)

/-- An effect, given for all programs and all numbers that the instruction may have, is a sequence
of moves of the instruction. -/
inductive Composed (i : Instruction Label) : (Program → Nat → State → Result State) → Prop
  | skip : Composed i fun _ _ s => .ok s
  | fail {e : Error} (he : Refuses i e) : Composed i fun _ _ _ => .error e
  | seq {f k : Program → Nat → State → Result State} (hf : Composed i f) (hk : Composed i k) :
      Composed i fun p n s => f p n s >>= k p n
  /-- The number of slots may depend on how many there are. -/
  | drop (count : Nat → Nat) : Composed i fun _ _ s => s.drop (count s.stack.length)
  | push {v : VerificationType} (hv : Pushes i v) : Composed i fun _ _ s => .ok (s.push (some v))
  | pushDescribed {descriptor : Text} (hd : Describes i descriptor) :
      Composed i fun _ _ s => (do return s.push (← typeOf descriptor))
  | create {name : Option Text} (hi : i = .type .new name) :
      Composed i fun _ n s => .ok (s.push (some (.uninitialized (.position n))))
  | copy (depth count : Nat) : Composed i fun _ _ s => copy depth count s
  | swap : Composed i fun _ _ s => swap s
  | load {op : Opcode} {slot : Int} (hslot : access? i = some (op, slot)) :
      Composed i fun _ _ s => access .aload slot s
  | store {op : Opcode} {slot : Int} (hslot : access? i = some (op, slot)) {size : Nat}
      (hsize : 0 < size) : Composed i fun _ _ s => storeLast size slot s
  | increment {op : Opcode} {slot : Int} (hslot : access? i = some (op, slot)) :
      Composed i fun _ _ s => s.store slot .integer
  | element : Composed i fun _ _ s => loadElement s
  | receive (op : Opcode) (name : Text) : Composed i fun p _ s => takeReceiver p op name s

namespace Composed

variable {i : Instruction Label}

theorem dropped (count : Nat) : Composed i fun _ _ s => s.drop count := drop fun _ => count

theorem replaceTop (count : Nat) {v : VerificationType} (hv : Pushes i v) :
    Composed i fun _ _ s => replaceTop s count v := (dropped count).seq (push hv)

theorem ofAccess {op : Opcode} {slot : Int} (hslot : access? i = some (op, slot)) :
    Composed i fun _ _ s => access op slot s := by
  have hstore {size : Nat} (hsize : 0 < size) := store hslot hsize
  unfold access
  split
  · exact push (.basic (by decide))
  · exact push (.basic (by decide))
  · exact push (.basic (by decide))
  · exact push (.basic (by decide))
  · exact load hslot
  · exact hstore Nat.one_pos
  · exact hstore Nat.one_pos
  · exact hstore Nat.one_pos
  · exact hstore Nat.two_pos
  · exact hstore Nat.two_pos
  · exact increment hslot
  · exact skip

theorem ofField {op : Opcode} {owner : Option Text} {name descriptor : Text}
    (hi : i = .field op owner name descriptor) :
    Composed i fun _ _ s => accessField op descriptor s := by
  have hpush : Composed i fun _ _ s => (do return s.push (← typeOf descriptor)) :=
    pushDescribed (.field hi)
  unfold accessField
  split
  · exact hpush
  · exact dropped _
  · exact (dropped 1).seq hpush
  · exact dropped _

theorem ofCall (op : Opcode) (name : Text) {descriptor : Text} (hi : callee? i = some descriptor) :
    Composed i fun p _ s => call p op name descriptor s := by
  unfold call
  cases hsplit : Descriptor.split descriptor with
  | error e => exact fail (.callee hi hsplit)
  | ok parts => exact (dropped _).seq ((receive op name).seq (pushDescribed (.result hi hsplit)))

theorem ofType {op : Opcode} {name : Option Text} (hi : i = .type op name) :
    Composed i fun _ n s => aboutType op name n s := by
  unfold aboutType
  split
  · exact create hi
  · cases name with
    | none => exact (dropped 1).seq (fail (.noElement hi))
    | some n => exact (dropped 1).seq (push (.array hi))
  · exact replaceTop 1 (.cast hi)
  · exact replaceTop 1 (.basic (by decide))

theorem ofArrays {descriptor : Option Text} {dimensions : Int}
    (hi : i = .multiArray descriptor dimensions) :
    Composed i fun _ _ s => newArrays descriptor dimensions s := by
  have hdrop : Composed i fun _ _ s =>
      s.drop (if 0 ≤ dimensions then dimensions.toNat else s.stack.length - dimensions.natAbs) :=
    drop fun height => if 0 ≤ dimensions then dimensions.toNat else height - dimensions.natAbs
  exact hdrop.seq (push (.arrays hi))

theorem ofShape (i : Instruction Label) : Composed i fun p n s => shapeEffect p n i s := by
  unfold shapeEffect
  split
  · exact replaceTop 1 (.numbers rfl)
  · exact push (.basic (by decide))
  · exact push (.constant rfl)
  · unfold jump
    split
    · exact push (.basic (by decide))
    · exact dropped _
  · exact dropped 1
  · exact dropped 1
  · exact ofField rfl
  · exact ofCall _ _ rfl
  · exact ofCall _ _ rfl
  · exact ofType rfl
  · exact ofArrays rfl
  · exact fail (.notInterpretable rfl)
  · exact skip
  · exact skip

/-- The types of a fixed effect, one after another. -/
theorem ofPushes {pushed : List VerificationType} (hpushed : ∀ v ∈ pushed, Pushes i v) :
    Composed i fun _ _ s => .ok (pushed.foldl (fun s v => s.push (some v)) s) := by
  induction pushed with
  | nil => exact skip
  | cons v rest ih =>
    have hrest := ih fun w hw => hpushed w (List.mem_cons_of_mem v hw)
    exact (push (hpushed v List.mem_cons_self)).seq hrest

end Composed

theorem mem_of_fixedEffect? (op : Opcode) : ∀ v ∈ (fixedEffect? op).elim [] Prod.snd,
    v ∈ [VerificationType.integer, .float, .double, .long, .null] := by
  cases op <;> decide

theorem composed_effect (i : Instruction Label) : Composed i fun p n s => effect p n i s := by
  unfold effect
  split
  · next count pushed hfixed =>
    refine (Composed.dropped count).seq (.ofPushes ?_)
    intro v hv
    have hmem := mem_of_fixedEffect? i.opcode v (by rwa [hfixed])
    exact .basic (List.mem_append_left [VerificationType.top] hmem)
  · split
    · next haccess => exact .ofAccess haccess
    · split
      · exact .element
      · split
        · exact .swap
        · split
          · exact .copy _ _
          · exact .ofShape i

/-! ## Properties of all types -/

/-- A property of types that an instruction passes on: whatever it makes has the property if all
that it finds has it. -/
structure Allows (p : Program) (n : Nat) (i : Instruction Label)
    (Good : VerificationType → Prop) : Prop where
  root : Good (instanceOf objectName)
  pushes : ∀ ⦃v : VerificationType⦄, Pushes i v → Good v
  described : ∀ ⦃descriptor : Text⦄ ⦃v : VerificationType⦄, Describes i descriptor →
    typeOf descriptor = .ok (some v) → Good v
  created : ∀ ⦃name : Option Text⦄, i = .type .new name → Good (.uninitialized (.position n))
  element : ∀ ⦃rest : Text⦄ ⦃v : VerificationType⦄,
    Good (.object (some (Descriptor.bracket :: rest))) → typeOf rest = .ok (some v) → Good v
  owner : Good (instanceOf p.owner)
  constructed : ∀ ⦃k : Nat⦄, Good (.uninitialized (.position k)) → Good (.object (p.createdAt k))

namespace Allows

variable {p : Program} {n : Nat} {i : Instruction Label} {Good : VerificationType → Prop}
  (ha : Allows p n i Good)
include ha

theorem top : Good .top := ha.pushes (.basic (by decide))

theorem each_of_pushTypeOf {s t : State} (hs : s.Each Good) {descriptor : Text}
    (hgood : ∀ v, typeOf descriptor = .ok (some v) → Good v)
    (h : (do return s.push (← typeOf descriptor)) = Except.ok (ε := Error) t) : t.Each Good := by
  obtain ⟨v, hv, h⟩ := bind_eq_ok_iff.1 h
  cases h
  refine hs.push ha.top ?_
  intro w hw
  subst hw
  exact hgood w hv

theorem each_of_push {s : State} (hs : s.Each Good) {v : VerificationType} (hv : Good v) :
    (s.push (some v)).Each Good := by
  refine hs.push ha.top ?_
  rintro w ⟨⟩
  exact hv

theorem each_of_loadElement {s t : State} (hs : s.Each Good) (h : loadElement s = .ok t) :
    t.Each Good := by
  obtain ⟨⟨values, u⟩, hu, h⟩ := bind_eq_ok_iff.1 h
  obtain ⟨hvalues, hu⟩ := hs.pop hu
  dsimp only at h
  split at h
  · next c rest hlast =>
    split at h
    · next hbracket =>
      subst hbracket
      have harray := hvalues _ (List.mem_of_getLast? hlast)
      exact ha.each_of_pushTypeOf hu (fun v hv => ha.element harray hv) h
    · cases h
      exact ha.each_of_push hu ha.root
  · cases h
  · cases h
    exact ha.each_of_push hu (ha.pushes (.basic (by decide)))
  · cases h
    exact ha.each_of_push hu ha.root

theorem each_construct {s : State} (hs : s.Each Good) {receiver : VerificationType}
    (hreceiver : Good receiver) : (construct p receiver s).Each Good := by
  unfold construct
  split
  · exact hs.replaceAll ha.owner
  · exact hs.replaceAll (ha.constructed hreceiver)
  · exact hs

theorem each_of_takeReceiver {s t : State} (hs : s.Each Good) {op : Opcode} {name : Text}
    (h : takeReceiver p op name s = .ok t) : t.Each Good := by
  unfold takeReceiver at h
  split at h
  · cases h
    exact hs
  · obtain ⟨⟨values, u⟩, hu, h⟩ := bind_eq_ok_iff.1 h
    obtain ⟨hvalues, hrest⟩ := hs.pop hu
    dsimp only at h
    split at h
    · split at h <;> cases h
      · exact ha.each_construct hrest (hvalues _ List.mem_cons_self)
      · exact hrest
    · cases h
      exact hrest

end Allows

/-- A sequence of moves passes a property of types on if the instruction does. -/
theorem Composed.each {i : Instruction Label} {f : Program → Nat → State → Result State}
    (hf : Composed i f) {Good : VerificationType → Prop} {p : Program} {n : Nat}
    (ha : Allows p n i Good) {s t : State} (hs : s.Each Good) (h : f p n s = .ok t) :
    t.Each Good := by
  induction hf generalizing s t with
  | skip =>
    cases h
    exact hs
  | fail _ => cases h
  | seq _ _ ihf ihk =>
    obtain ⟨u, hu, h⟩ := bind_eq_ok_iff.1 h
    exact ihk (ihf hs hu) h
  | drop count => exact hs.drop h
  | push hv =>
    cases h
    exact ha.each_of_push hs (ha.pushes hv)
  | pushDescribed hd => exact ha.each_of_pushTypeOf hs (fun v hv => ha.described hd hv) h
  | create hi =>
    cases h
    exact ha.each_of_push hs (ha.created hi)
  | copy depth count =>
    obtain ⟨⟨values, u⟩, hu, h⟩ := bind_eq_ok_iff.1 h
    cases h
    obtain ⟨hvalues, hu⟩ := hs.pop hu
    refine hu.pile ?_
    intro v hv
    rcases List.mem_append.1 hv with hv | hv
    · exact hvalues v hv
    · exact hvalues v (List.mem_of_mem_take hv)
  | swap =>
    obtain ⟨⟨values, u⟩, hu, h⟩ := bind_eq_ok_iff.1 h
    cases h
    obtain ⟨hvalues, hu⟩ := hs.pop hu
    exact hu.pile fun v hv => hvalues v (List.mem_reverse.1 hv)
  | load _ =>
    obtain ⟨v, hv, h⟩ := bind_eq_ok_iff.1 h
    cases h
    refine ha.each_of_push hs ?_
    split
    · exact ha.root
    · exact hs.read ha.top hv
  | store _ _ =>
    obtain ⟨⟨values, u⟩, hu, h⟩ := bind_eq_ok_iff.1 h
    obtain ⟨hvalues, hu⟩ := hs.pop hu
    dsimp only at h
    split at h
    · next v hv => exact hu.store ha.top (hvalues v (List.mem_of_getLast? hv)) h
    · cases h
  | increment _ => exact hs.store ha.top (ha.pushes (.basic (by decide))) h
  | element => exact ha.each_of_loadElement hs h
  | receive op name => exact ha.each_of_takeReceiver hs h

end ClassTree.Flow
