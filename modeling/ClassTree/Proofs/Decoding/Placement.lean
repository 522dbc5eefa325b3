/-
# ClassTree.Proofs.Decoding.Placement — where the markers of a body stand

The body of a method that has been read is the list of its instructions with markers in between.
Each marker stands directly before the instruction whose offset it belongs to, or at the end if it
belongs to the length of the code. Which offsets those are is what the code attribute in the file
says.
-/
import ClassTree.Proofs.Decoding.Inside
import ClassTree.Proofs.Decoding.Total

namespace ClassTree.Decoding

open Decoder

variable {α β σ : Type}

namespace RawCode

variable (r : RawCode) (seen : List (Int × Label))

/-- The marker belongs to the code offset: its label was issued for the offset, or there is an entry
for the offset in a line table or in the stack map. -/
def Owns (offset : Int) : Item → Prop
  | .label l => Known seen offset l
  | .line n => ∃ table ∈ r.tables.lines, ∃ e ∈ table, (e.offset : Int) = offset ∧ (e.line : Int) = n
  | .frame f => ∃ raw ∈ r.tables.frames, (raw.offset : Int) = offset ∧ raw.frame.Matches (Known seen) f
  | .instruction _ => False

/-- A body is made of instructions with their offsets: before each of them stand markers that belong
to its offset, and at the end markers that belong to the length of the code. -/
inductive Stands : List (Nat × Instruction Int) → List Item → Prop
  | done {markers : List Item} (h : ∀ i ∈ markers, r.Owns seen r.length i) : Stands [] markers
  | next {p : Nat × Instruction Int} {rest : List (Nat × Instruction Int)} {markers body : List Item}
      {i : Instruction Label} (hmarkers : ∀ j ∈ markers, r.Owns seen p.1 j)
      (hi : p.2.Matches (Known seen) i) (hrest : Stands rest body) :
      Stands (p :: rest) (markers ++ .instruction i :: body)

variable {r seen} {l : LabelledCode} {code : Code}

/-- The markers of an offset belong to it. -/
theorem Assembles.owns (h : r.Assembles seen l code) {offset : Int} {i : Item}
    (hi : i ∈ (r.markers seen l.frames).before offset) : r.Owns seen offset i := by
  unfold Markers.before at hi
  rw [labels_at, lines_at, frames_at] at hi
  simp only [List.mem_append, List.mem_map, List.mem_filter, decide_eq_true_eq] at hi
  rcases hi with (⟨label, ⟨p, ⟨hp, rfl⟩, rfl⟩, rfl⟩ | ⟨entry, ⟨p, ⟨hp, hoffset⟩, rfl⟩, rfl⟩) |
    ⟨f, ⟨p, ⟨hp, hoffset⟩, rfl⟩, rfl⟩
  · exact hp
  · obtain ⟨table, htable, hp⟩ := List.mem_flatten.1 hp
    have hmem : table.map Prod.snd ∈ r.tables.lines := by
      rw [← (map_fst_flatten_numberLines r.tables.lines).2]
      exact List.mem_map_of_mem htable
    exact ⟨_, hmem, p.2, List.mem_map_of_mem hp, hoffset, rfl⟩
  · obtain ⟨raw, hraw, heq, hmatches⟩ := Result.exists_of_mem_right h.labelled.frames hp
    exact ⟨raw, hraw, by rw [heq, hoffset], hmatches⟩

/-- The body that is put together of a code attribute. -/
theorem Assembles.stands (h : r.Assembles seen l code) : r.Stands seen r.instructions code.body := by
  have hwoven {is : List (Nat × Instruction Int)} {is' : List (Instruction Label)}
      (hmatches : List.Forall₂ (fun p i => p.2.Matches (Known seen) i) is is') :
      r.Stands seen is (((is.zip is').flatMap fun p =>
        (r.markers seen l.frames).before p.1.1 ++ [.instruction p.2]) ++
          (r.markers seen l.frames).before r.length) := by
    induction hmatches with
    | nil => exact .done fun i hi => h.owns hi
    | cons hi _ ih =>
      rw [List.zip_cons_cons, List.flatMap_cons, List.append_assoc, List.append_assoc]
      exact .next (fun j hj => h.owns hj) hi ih
  rw [h.body]
  exact hwoven h.labelled.instructions

/-- The instructions of a body are those of the code that it is put together of. -/
theorem Stands.exists_matches {is : List (Nat × Instruction Int)} {body : List Item}
    (h : r.Stands seen is body) {i : Instruction Label} (hi : .instruction i ∈ body) :
    ∃ p ∈ is, p.2.Matches (Known seen) i := by
  induction h with
  | done h => exact (h _ hi).elim
  | @next p rest markers body j hmarkers hj hrest ih =>
    rcases List.mem_append.1 hi with hi | hi
    · exact (hmarkers _ hi).elim
    · rcases List.mem_cons.1 hi with hi | hi
      · cases hi
        exact ⟨p, List.mem_cons_self .., hj⟩
      · obtain ⟨q, hq, hmatches⟩ := ih hi
        exact ⟨q, List.mem_cons_of_mem p hq, hmatches⟩

/-- The labels, handlers, variables and items of a method are those of a code attribute: its labels
were issued for places in the code, one for each, and everything stands where the attribute says. -/
structure Places (r : RawCode) (seen : List (Int × Label)) (m : Method) : Prop where
  inOrder : InOrder r.length r.instructions
  offsets : (seen.map Prod.fst).Nodup
  labels : (seen.map Prod.snd).Nodup
  boundaries : ∀ p ∈ seen, r.HasOffset p.1 ∨ p.1 = r.length
  body : r.Stands seen r.instructions m.body
  handlers : List.Forall₂ (RawHandler.Matches (Known seen)) r.handlers m.handlers
  locals : List.Forall₂ (JoinedVariable.Matches (Known seen))
    (joinVariables r.tables.described r.tables.signatures) m.localVariables

end RawCode

/-! ## Methods -/

/-- A code attribute stands in a file, which has a table to read it with. -/
def RawCode.IsIn (r : RawCode) (file : Bytes) (t : Table) : Prop :=
  ∃ position c, readRawCode t ⟨position, file.drop position⟩ = .ok (r, c)

/-- The method has no code, or it is read from a code attribute in the file. -/
def IsReadFrom (file : Bytes) (t : Table) (m : Method) : Prop :=
  (m.body = [] ∧ m.handlers = [] ∧ m.localVariables = []) ∨
    ∃ r : RawCode, r.IsIn file t ∧ ∃ seen, r.Places seen m

/-- Two methods have the same code. -/
structure SameCode (m m' : Method) : Prop where
  body : m'.body = m.body
  handlers : m'.handlers = m.handlers
  locals : m'.localVariables = m.localVariables

/-- A method with nothing but its code. -/
def onlyCode (m : Method) : Method where
  access := 0
  name := []
  descriptor := []
  maxima := m.maxima
  body := m.body
  handlers := m.handlers
  localVariables := m.localVariables
  codeAttributes := m.codeAttributes
  layout := { codeOrder := m.layout.codeOrder, lineTables := m.layout.lineTables }

/-- The second of two methods has the code of the first, with its sizes and tables. -/
def KeepsCode (m m' : Method) : Prop := onlyCode m' = onlyCode m

theorem KeepsCode.sameCode {m m' : Method} (h : KeepsCode m m') : SameCode m m' := by
  have hbody : (onlyCode m').body = (onlyCode m).body := congrArg Method.body h
  have hhandlers : (onlyCode m').handlers = (onlyCode m).handlers := congrArg Method.handlers h
  have hlocals : (onlyCode m').localVariables = (onlyCode m).localVariables :=
    congrArg Method.localVariables h
  exact ⟨hbody, hhandlers, hlocals⟩

/-- A method with the same code is read from the same attribute. -/
theorem IsReadFrom.of_sameCode {file : Bytes} {t : Table} {m m' : Method} (h : IsReadFrom file t m)
    (hsame : SameCode m m') : IsReadFrom file t m' := by
  unfold IsReadFrom
  rw [hsame.body, hsame.handlers, hsame.locals]
  rcases h with h | ⟨r, hr, seen, hplaces⟩
  · exact .inl h
  · exact .inr ⟨r, hr, seen, { hplaces with
      body := hsame.body ▸ hplaces.body
      handlers := hsame.handlers ▸ hplaces.handlers
      locals := hsame.locals ▸ hplaces.locals }⟩

/-- What a decoder gives that begins at a place in a file is of some sort. -/
def Yields (file : Bytes) (d : Decoder α) (P : α → Prop) : Prop :=
  ∀ (c c' : Cursor) (a : α), c.IsIn file → d c = .ok (a, c') → P a

namespace Yields

variable {file : Bytes} {d : Decoder α} {k : α → Decoder β} {P : α → Prop} {Q : β → Prop}

theorem pure {a : α} (h : P a) : Yields file (Pure.pure a) P := by
  rintro c c' b - ⟨⟩
  exact h

theorem bind [hstays : Stays d] (h : Yields file d P) (hk : ∀ a, P a → Yields file (k a) Q) :
    Yields file (d >>= k) Q := by
  intro c c' b hc hb
  obtain ⟨a, middle, ha, hb⟩ := bind_eq_ok_iff.1 hb
  exact hk a (h c middle a hc ha) middle c' b (hstays.isIn hc ha) hb

theorem any_bind [Stays d] (hk : ∀ a, Yields file (k a) Q) : Yields file (d >>= k) Q :=
  bind (P := fun _ => True) (fun _ _ _ _ _ => trivial) fun a _ => hk a

theorem any_map [Stays d] {f : α → β} (hf : ∀ a, Q (f a)) :
    Yields file (do return f (← d)) Q := any_bind fun a => pure (hf a)

theorem ite {c : Prop} [Decidable c] {d e : Decoder α} (hd : Yields file d P) (he : Yields file e P) :
    Yields file (if c then d else e) P := by
  split
  · exact hd
  · exact he

theorem throw (e : Error) : Yields file (MonadExcept.throw e) P := by
  rintro c c' a - ⟨⟩

theorem refuseHere (cause : Malformed) : Yields file (Decoder.refuseHere cause) P :=
  any_bind fun _ => throw _

/-- Nothing comes of decoders of which the first one fails. -/
theorem throw_bind (e : Error) : Yields file (MonadExcept.throw e >>= k) Q :=
  bind (P := fun _ => False) (throw e) fun _ h => h.elim

theorem listOf [Stays d] (h : Yields file d P) :
    Yields file (Decoder.listOf d) fun as => ∀ a ∈ as, P a := by
  have honto (count : Nat) (acc : List α) (hacc : ∀ a ∈ acc, P a) :
      Yields file (timesOnto count d acc) fun as => ∀ a ∈ as, P a := by
    induction count generalizing acc with
    | zero => exact pure fun a ha => hacc a (List.mem_reverse.1 ha)
    | succ count ih =>
      refine bind h fun a ha => ih (a :: acc) fun b hb => ?_
      rcases List.mem_cons.1 hb with rfl | hb
      · exact ha
      · exact hacc b hb
  exact any_bind fun count => honto count [] (by simp)

/-- Attributes that keep a state in some sort. -/
theorem attributes {t : Table} {read : Text → Nat → σ → Decoder σ} {S : σ → Prop}
    [∀ name length state, Stays (read name length state)]
    (hread : ∀ name length state, S state → Yields file (read name length state) S) {state : σ}
    (h : S state) : Yields file (Decoding.attributes t read state) S := by
  have hattribute (state : σ) (h : S state) : Yields file (attribute_ t read state) S := by
    unfold attribute_
    refine any_bind fun i => any_bind fun name => any_bind fun length => any_bind fun start => ?_
    refine any_bind fun _ => bind (hread name length state h) fun state' h' => ?_
    refine any_bind fun stop => ite (pure h') (throw_bind _)
  have hcount (count : Nat) (state : σ) (h : S state) :
      Yields file (attributeCount t read count state) S := by
    induction count generalizing state with
    | zero => exact pure h
    | succ count ih => exact bind (hattribute state h) fun state' h' => ih state' h'
  exact any_bind fun count => hcount count state h

end Yields

/-! ## Readers -/

variable {file : Bytes} {t : Table}

/-- The code of a method is read from an attribute in the file. -/
theorem yields_readMethodCode (ht : t.IsReadable) (m : Method) :
    Yields file (readMethodCode t m) (IsReadFrom file t) := by
  have hcode : Yields file (readCode t { place := m.name ++ m.descriptor }) fun code =>
      ∃ r : RawCode, r.IsIn file t ∧ r.IsSound ∧ ∃ seen l, r.Assembles seen l code := by
    refine Yields.bind (P := fun r => r.IsIn file t ∧ r.IsSound) ?_ fun r ⟨hin, hr⟩ => ?_
    · intro c c' r hc h
      exact ⟨⟨c.position, c', hc.eq ▸ h⟩, ((finds_readRawCode ht).of_eq_ok h).2⟩
    · intro c c' code _ h
      exact ⟨r, hin, hr, ((r.finds_assemble _).of_eq_ok h).2⟩
  refine Yields.bind hcode fun code ⟨r, hin, hr, seen, l, h⟩ => .pure (.inr ⟨r, hin, seen, ?_⟩)
  exact {
    inOrder := hr.inOrder
    offsets := h.offsets
    labels := h.labels
    boundaries := h.checked.labels
    body := h.stands
    handlers := h.handlers ▸ h.labelled.handlers
    locals := h.localVariables ▸ h.labelled.locals }

/-- What the parameters of a method are read from leaves its code alone. -/
theorem keepsCode_readParameterAnnotations (visible : Bool) (m : Method) :
    Yields file (readParameterAnnotations t visible m) (KeepsCode m) := by
  unfold readParameterAnnotations
  refine .any_bind fun count => .any_bind fun annotated => ?_
  exact .ite (.pure rfl) (.ite (.pure rfl) (.pure rfl))

theorem keepsCode_readMethodParameters (m : Method) :
    Yields file (readMethodParameters t m) (KeepsCode m) := by
  unfold readMethodParameters
  refine .any_bind fun count => .any_bind fun named => ?_
  exact .ite (.pure rfl) (.pure rfl)

/-- Only a code attribute changes the code of a method. -/
theorem keepsCode_readMethodAttribute {name : Text} (hname : name ≠ AttributeName.code) (length : Nat)
    (m : Method) : Yields file (readMethodAttribute t name length m) (KeepsCode m) := by
  unfold readMethodAttribute
  rw [if_neg hname]
  refine .ite ?_ (.ite ?_ (.ite ?_ (.ite ?_ (.ite (keepsCode_readParameterAnnotations true _)
    (.ite (keepsCode_readParameterAnnotations false _) (.ite ?_
    (.ite (keepsCode_readMethodParameters _) ?_)))))))
  · exact .any_map fun _ => rfl
  · exact .any_bind fun _ => .any_map fun _ => rfl
  · exact .any_map fun _ => rfl
  · exact .any_map fun _ => rfl
  · exact .any_map fun _ => rfl
  · exact .any_map fun _ => rfl

theorem yields_readMethodAttribute (ht : t.IsReadable) (name : Text) (length : Nat) (m : Method)
    (h : IsReadFrom file t m) :
    Yields file (readMethodAttribute t name length m) (IsReadFrom file t) := by
  by_cases hname : name = AttributeName.code
  · unfold readMethodAttribute
    rw [if_pos hname]
    exact yields_readMethodCode ht _
  · intro c c' m' hc hread
    exact h.of_sameCode (keepsCode_readMethodAttribute hname length m c c' m' hc hread).sameCode

theorem yields_readMethod (ht : t.IsReadable) : Yields file (readMethod t) (IsReadFrom file t) := by
  unfold readMethod
  refine .any_bind fun access => .any_bind fun i => .any_bind fun name => .any_bind fun j =>
    .any_bind fun descriptor => ?_
  split
  · exact .attributes (yields_readMethodAttribute ht) (.inl ⟨rfl, rfl, rfl⟩)
  · exact .refuseHere _
  · exact .refuseHere _
  · exact .throw _

/-- A table stands in a file. -/
def Table.IsIn (t : Table) (file : Bytes) : Prop :=
  ∃ position c, readTable ⟨position, file.drop position⟩ = .ok (t, c)

/-- The methods of a class file are read from code attributes in it. -/
theorem yields_readClassFile : Yields file readClassFile fun c =>
    ∃ t : Table, t.IsIn file ∧ ∀ m ∈ c.methods, IsReadFrom file t m := by
  refine .any_bind fun version => ?_
  refine .bind (P := fun t => t.IsIn file ∧ t.IsReadable) ?_ fun t ⟨hin, ht⟩ => ?_
  · intro c c' t hc h
    exact ⟨⟨c.position, c', hc.eq ▸ h⟩, (finds_readTable.of_eq_ok h).2⟩
  refine .any_bind fun access => .any_bind fun name => .any_bind fun i => .any_bind fun super => ?_
  refine .any_bind fun interfaces => .any_bind fun fields => ?_
  refine .bind (.listOf (yields_readMethod ht)) fun methods hmethods => ?_
  have hattribute (name : Text) (length : Nat) (c : Class) (hc : ∀ m ∈ c.methods, IsReadFrom file t m) :
      Yields file (readClassAttribute t name length c) fun c =>
        ∀ m ∈ c.methods, IsReadFrom file t m := by
    unfold readClassAttribute
    refine .ite (.any_bind fun _ => .any_map fun _ => hc) (.ite (.any_bind fun _ => .any_map fun _ => hc)
      (.ite (.any_map fun _ => hc) (.ite (.any_map fun _ => hc) (.ite (.any_map fun _ => hc)
      (.ite (.any_map fun _ => hc) (.ite (.any_bind fun _ => .pure hc) (.any_map fun _ => hc)))))))
  refine .bind (.attributes hattribute hmethods) fun c hc => ?_
  exact .any_bind fun here => .ite (.pure ⟨t, hin, hc⟩)
    (.bind (P := fun _ => False) (.refuseHere _) fun _ h => h.elim)

end ClassTree.Decoding

namespace ClassTree

open Decoding

/-- The methods of a class that has been read stand in the file, with their labels. -/
theorem Class.isReadFrom_of_ofBytes {bytes : Bytes} {c : Class} (h : ofBytes bytes = .ok c) :
    ∃ t : Table, t.IsIn bytes ∧ ∀ m ∈ c.methods, IsReadFrom bytes t m := by
  unfold ofBytes StateT.run at h
  split at h
  · next found stop hrun =>
    cases h
    exact yields_readClassFile _ _ _ (Cursor.isIn_drop bytes 0) hrun
  · cases h

end ClassTree
