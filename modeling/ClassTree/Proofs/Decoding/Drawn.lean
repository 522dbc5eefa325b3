/-
# ClassTree.Proofs.Decoding.Drawn — a class that has been read is drawn from its file

Attribute by attribute, what is read for an entity keeps within the bounds of a class file, and
takes no more attributes to write than have been read for it.
-/
import ClassTree.Proofs.Decoding.DrawnCode

namespace ClassTree.Decoding

open Decoder Encoding

variable {t : Table}

/-! ## Annotations -/

/-- Annotations of one visibility leave those of the other one alone. -/
theorem ofVisibility_append_of_ne {as more : List AnnotationUse} {visible other : Bool}
    (h : ∀ a ∈ more, a.visible = visible) (hne : visible ≠ other) :
    ofVisibility other (as ++ more) = ofVisibility other as := by
  have hnone : more.filter (fun a => a.visible = other) = [] := by
    refine List.filter_eq_nil_iff.2 fun a ha => ?_
    rw [h a ha]
    simpa using hne
  unfold ofVisibility
  rw [List.filter_append, hnone, List.append_nil]

/-- Annotations of one visibility take one more attribute at most. -/
theorem length_annotationPieces_append_le {as more : List AnnotationUse} {visible : Bool}
    (h : ∀ a ∈ more, a.visible = visible) :
    (annotationPieces (as ++ more)).length ≤ (annotationPieces as).length + 1 := by
  rw [length_annotationPieces, length_annotationPieces]
  have hone := Bool.toNat_le (!(ofVisibility visible (as ++ more)).isEmpty)
  cases visible with
  | true =>
    rw [ofVisibility_append_of_ne h (show true ≠ false by decide)]
    omega
  | false =>
    rw [ofVisibility_append_of_ne h (show false ≠ true by decide)]
    omega

theorem forall_isDrawn_annotations {as more : List AnnotationUse} {visible : Bool}
    (h : ∀ a ∈ as, a.IsDrawn) (hmore : ∀ a ∈ more, a.IsDrawn ∧ a.visible = visible) :
    ∀ a ∈ as ++ more, a.IsDrawn := by
  intro a ha
  rcases List.mem_append.1 ha with ha | ha
  · exact h a ha
  · exact (hmore a ha).1

/-! ## Fields -/

theorem length_fieldPieces (f : Field) : (fieldPieces f).length =
    f.value.isSome.toNat + f.signature.isSome.toNat + (annotationPieces f.annotations).length
      + f.attributes.length := by
  unfold fieldPieces signaturePiece
  simp only [List.length_append, length_pieceOf?, length_rawPieces]

theorem finds_drawn_readFieldAttribute (ht : t.IsReadable) (name : Text) (length n : Nat) (f : Field)
    (hname : some (.utf8 name) ∈ t.entries) (hlength : length < 0x100000000)
    (h : f.IsDrawn ∧ (fieldPieces f).length ≤ n) : Finds (readFieldAttribute t name length f) fun f =>
      f.IsDrawn ∧ (fieldPieces f).length ≤ n + 1 := by
  obtain ⟨h, hcount⟩ := h
  simp only [length_fieldPieces] at hcount ⊢
  have hannotations (visible : Bool) : Finds
      (do return { f with
        attributeOrder := f.attributeOrder ++ [name]
        annotations := f.annotations ++ (← readAnnotationUses t visible) }) fun f =>
      f.IsDrawn ∧ f.value.isSome.toNat + f.signature.isSome.toNat
        + (annotationPieces f.annotations).length + f.attributes.length ≤ n + 1 := by
    refine (finds_drawn_readAnnotationUses ht visible).map fun more hmore =>
      ⟨{ h with annotations := forall_isDrawn_annotations h.annotations hmore }, ?_⟩
    have hle := @length_annotationPieces_append_le f.annotations more visible
      fun a ha => (hmore a ha).2
    dsimp only
    omega
  refine Finds.ite (fun _ => ?_) fun _ => Finds.ite (fun _ => ?_) fun _ =>
    Finds.ite (fun _ => hannotations true) fun _ => Finds.ite (fun _ => hannotations false) fun _ => ?_
  · refine Finds.u2_bind fun i _ => (finds_drawn_constant ht i).map fun p hp =>
      ⟨{ h with value := by simpa using hp }, ?_⟩
    have hone : (some p.2).isSome.toNat = 1 := rfl
    dsimp only
    omega
  · refine Finds.storable_bind ht fun s hs => .pure ⟨{ h with signature := by simpa using hs }, ?_⟩
    have hone : (some s).isSome.toNat = 1 := rfl
    dsimp only
    omega
  · refine (Finds.bytes length).map fun data hdata => ?_
    have hattributes := forall_isDrawn_append h.attributes (ht.isStorable hname) hdata hlength
    refine ⟨{ h with attributes := hattributes }, ?_⟩
    dsimp only
    rw [List.length_append, List.length_singleton]
    omega

theorem finds_drawn_readField (ht : t.IsReadable) :
    Finds (readField t) fun f => f.IsDrawn ∧ (fieldPieces f).length < 0x10000 := by
  refine Finds.u2_bind fun access haccess => ?_
  refine Finds.storable_bind ht fun name hname => ?_
  refine Finds.storable_bind ht fun descriptor hdescriptor => ?_
  have hempty : Field.IsDrawn { access, name, descriptor } :=
    ⟨isWord_ofNat haccess, hname, hdescriptor, nofun, nofun, by simp, by simp⟩
  refine (Finds.attributes_counted (T := fun n (f : Field) => f.IsDrawn ∧ (fieldPieces f).length ≤ n)
    (finds_drawn_readFieldAttribute ht)
      ⟨hempty, by simp [length_fieldPieces, annotationPieces, ofVisibility, pieceIf]⟩).imp ?_
  rintro f ⟨n, hn, hf, hcount⟩
  exact ⟨hf, hcount.trans_lt hn⟩

/-! ## Parameters -/

/-- The decoder and the encoder ask the same of a parameter. -/
theorem isAnnotated_eq (visible : Bool) (p : Parameter) :
    Decoding.isAnnotated visible p = Encoding.isAnnotated visible p := by
  unfold Decoding.isAnnotated Encoding.isAnnotated ofVisibility
  rw [Bool.eq_iff_iff]
  simp [List.filter_eq_nil_iff]

/-- A number of parameters that an attribute covers is none too many. -/
theorem finds_drawn_readParameterCount (name : Text) (arity : Nat) :
    Finds (readParameterCount name arity) fun n => n < 0x100 ∧ n ≤ arity := by
  refine Finds.position_bind fun start => ?_
  refine Finds.u1.bind fun count hcount => ?_
  refine Finds.ite (fun _ => ?_) fun hle => .pure ⟨hcount, by omega⟩
  exact (Finds.refuse _ _).bind fun _ h => (h : False).elim

/-- Reading on for parameters gives such as each of them gives, and leaves alone what it leaves
alone of each of them. -/
theorem finds_kept_readParametersOnto {γ : Type} {P : Parameter → Prop} {kept : Parameter → γ}
    {read : Parameter → Decoder Parameter}
    (hread : ∀ p, P p → Finds (read p) fun q => P q ∧ kept q = kept p) {ps : List Parameter}
    (hps : ∀ p ∈ ps, P p) : Finds (readParametersOnto read ps []) fun qs =>
      (∀ q ∈ qs, P q) ∧ qs.map kept = ps.map kept := by
  have honto (acc : List Parameter) : Finds (readParametersOnto read ps acc) fun qs =>
      ∃ more, qs = acc.reverse ++ more ∧ (∀ q ∈ more, P q) ∧ more.map kept = ps.map kept := by
    induction ps generalizing acc with
    | nil => exact .pure ⟨[], by simp, by simp, rfl⟩
    | cons p ps ih =>
      refine (hread p (hps p (by simp))).bind fun q hq => ?_
      refine (ih (fun p hp => hps p (by simp [hp])) (q :: acc)).imp ?_
      rintro qs ⟨more, rfl, hmore, hmap⟩
      exact ⟨q :: more, by simp, List.forall_mem_cons.2 ⟨hq.1, hmore⟩, by simp [hq.2, hmap]⟩
  refine (honto []).imp ?_
  rintro qs ⟨more, rfl, hmore, hmap⟩
  exact ⟨hmore, hmap⟩

/-- What is left alone of each parameter is left alone of them all. -/
theorem any_eq_of_map_eq {γ : Type} {kept : Parameter → γ} {ps qs : List Parameter}
    (h : qs.map kept = ps.map kept) (f : γ → Bool) :
    qs.any (fun p => f (kept p)) = ps.any fun p => f (kept p) := by
  have hany := congrArg (fun l : List γ => l.any f) h
  rw [List.any_map, List.any_map] at hany
  exact hany

/-! ## Methods -/

/-- How many attributes a method takes. -/
def methodCount (m : Method) : Nat :=
  m.hasCode.toNat + (!m.exceptions.isEmpty).toNat + m.signature.isSome.toNat
    + (annotationPieces m.annotations).length
    + (m.visibleCount.isSome || m.parameters.any (Encoding.isAnnotated true)).toNat
    + (m.invisibleCount.isSome || m.parameters.any (Encoding.isAnnotated false)).toNat
    + m.default.isSome.toNat
    + (m.parameterCount.isSome || m.parameters.any Encoding.isNamed).toNat
    + m.attributes.length

theorem length_methodPieces (owner : Text) (verify stackMaps : Bool) (m : Method) :
    (methodPieces owner verify stackMaps m).length = methodCount m := by
  unfold methodPieces methodCount signaturePiece parameterAnnotationPiece
  simp only [List.length_append, length_pieceOf?, length_pieceIf, length_rawPieces]

/-- A method that is drawn so far, with so many attributes at most. -/
structure IsDrawnSoFar (n : Nat) (m : Method) : Prop where
  isDrawn : m.IsDrawn
  code : m.HasCountedCode
  count : methodCount m ≤ n

/-- The tables about the parameters of a method: none is counted in more than one byte, and there is
one more of them at most. -/
structure CountsParameters (m m' : Method) : Prop where
  parameters : ∀ p ∈ m'.parameters, p.IsDrawn
  visible : m'.visibleCount = none → m'.parameters.any (Encoding.isAnnotated true) = true →
    m'.parameters.length < 0x100
  invisible : m'.invisibleCount = none → m'.parameters.any (Encoding.isAnnotated false) = true →
    m'.parameters.length < 0x100
  named : m'.parameterCount = none → m'.parameters.any Encoding.isNamed = true →
    m'.parameters.length < 0x100
  tables : (m'.visibleCount.isSome || m'.parameters.any (Encoding.isAnnotated true)).toNat
      + (m'.invisibleCount.isSome || m'.parameters.any (Encoding.isAnnotated false)).toNat
      + (m'.parameterCount.isSome || m'.parameters.any Encoding.isNamed).toNat ≤
    (m.visibleCount.isSome || m.parameters.any (Encoding.isAnnotated true)).toNat
      + (m.invisibleCount.isSome || m.parameters.any (Encoding.isAnnotated false)).toNat
      + (m.parameterCount.isSome || m.parameters.any Encoding.isNamed).toNat + 1

theorem IsDrawnSoFar.parameters {n : Nat} {m m' : Method} (h : IsDrawnSoFar n m)
    (hcounts : CountsParameters m m')
    (hm : m' = { m with
      parameters := m'.parameters, visibleCount := m'.visibleCount, invisibleCount := m'.invisibleCount
      parameterCount := m'.parameterCount }) : IsDrawnSoFar (n + 1) m' := by
  obtain ⟨hparameters, hvisible, hinvisible, hnamed, htables⟩ := hcounts
  have hcount := h.count
  unfold methodCount at hcount
  generalize m'.parameters = ps at *
  generalize m'.visibleCount = v at *
  generalize m'.invisibleCount = i at *
  generalize m'.parameterCount = p at *
  subst hm
  refine ⟨{ h.isDrawn with
    parameters := hparameters, visible := hvisible, invisible := hinvisible, named := hnamed
    code := { h.isDrawn.code with } }, h.code, ?_⟩
  have hcode : Method.hasCode { m with
    parameters := ps, visibleCount := v, invisibleCount := i, parameterCount := p } = m.hasCode := rfl
  unfold methodCount
  rw [hcode]
  dsimp only
  omega

/-- Annotations of the last parameters, all of which keep their names. A count that is not kept has to
fit the number of parameters, since the table is written again for all of them. -/
theorem finds_drawn_readParameterAnnotations (ht : t.IsReadable) (visible : Bool) {n : Nat} {m : Method}
    (h : IsDrawnSoFar n m) : Finds (readParameterAnnotations t visible m) (IsDrawnSoFar (n + 1)) := by
  -- what the two other tables ask of a parameter does not change
  let kept (p : Parameter) : Bool × Bool := (Encoding.isNamed p, Encoding.isAnnotated (!visible) p)
  have hannotate (p : Parameter) (hp : p.IsDrawn) : Finds (do
      return { p with annotations := p.annotations ++ (← readAnnotationUses t visible) })
      fun q => q.IsDrawn ∧ kept q = kept p := by
    refine (finds_drawn_readAnnotationUses ht visible).map fun more hmore => ⟨?_, ?_⟩
    · exact ⟨hp.name, hp.access, forall_isDrawn_annotations hp.annotations hmore⟩
    · have hsame := @ofVisibility_append_of_ne p.annotations more visible _ (fun a ha => (hmore a ha).2)
        (show visible ≠ !visible by simp)
      simp only [kept, Encoding.isAnnotated, Encoding.isNamed, hsame]
  refine (finds_drawn_readParameterCount _ _).bind fun count hcount => ?_
  refine (finds_kept_readParametersOnto hannotate
    fun p hp => h.isDrawn.parameters p (List.mem_of_mem_drop hp)).bind fun annotated hannotated => ?_
  have hps : ∀ p ∈ m.parameters.take (m.parameters.length - count) ++ annotated, p.IsDrawn := by
    intro p hp
    rcases List.mem_append.1 hp with hp | hp
    · exact h.isDrawn.parameters p (List.mem_of_mem_take hp)
    · exact hannotated.1 p hp
  have hsame : (m.parameters.take (m.parameters.length - count) ++ annotated).map kept =
      m.parameters.map kept := by
    rw [List.map_append, hannotated.2, ← List.map_append, List.take_append_drop]
  generalize m.parameters.take (m.parameters.length - count) ++ annotated = ps at hps hsame ⊢
  have hlength : ps.length = m.parameters.length := by simpa using congrArg List.length hsame
  have hnamed : ps.any Encoding.isNamed = m.parameters.any Encoding.isNamed :=
    any_eq_of_map_eq hsame Prod.fst
  have hother : ps.any (Encoding.isAnnotated !visible) =
      m.parameters.any (Encoding.isAnnotated !visible) :=
    any_eq_of_map_eq hsame Prod.snd
  have hinvisible (hvisible : visible = true) (hnone : m.invisibleCount = none)
      (hany : ps.any (Encoding.isAnnotated false) = true) : ps.length < 0x100 := by
    subst hvisible
    exact hlength ▸ h.isDrawn.invisible hnone (hother ▸ hany)
  have hvisible (hinvisible : visible = false) (hnone : m.visibleCount = none)
      (hany : ps.any (Encoding.isAnnotated true) = true) : ps.length < 0x100 := by
    subst hinvisible
    exact hlength ▸ h.isDrawn.visible hnone (hother ▸ hany)
  have hparameters (hnone : m.parameterCount = none) (hany : ps.any Encoding.isNamed = true) :
      ps.length < 0x100 := hlength ▸ h.isDrawn.named hnone (hnamed ▸ hany)
  -- a table for all the parameters leaves no count behind; any other count is kept, and then how
  -- many parameters there are need not fit the table
  refine Finds.ite (fun hall => .pure (h.parameters ?_ rfl)) fun _ => ?_
  · have hshort : ps.length < 0x100 := by omega
    refine ⟨hps, fun _ _ => hshort, fun _ _ => hshort, hparameters, ?_⟩
    dsimp only
    rw [hnamed]
    cases visible with
    | true =>
      have hone := Bool.toNat_le (m.visibleCount.isSome || ps.any (Encoding.isAnnotated true))
      rw [show ps.any (Encoding.isAnnotated false) = _ from hother]
      simp only [Bool.not_true]
      omega
    | false =>
      have hone := Bool.toNat_le (m.invisibleCount.isSome || ps.any (Encoding.isAnnotated false))
      rw [show ps.any (Encoding.isAnnotated true) = _ from hother]
      simp only [Bool.not_false]
      omega
  · refine Finds.ite (fun htrue => .pure (h.parameters
      ⟨hps, nofun, hinvisible htrue, hparameters, ?_⟩ rfl))
      fun hfalse => .pure (h.parameters
        ⟨hps, hvisible (Bool.eq_false_iff.2 hfalse), nofun, hparameters, ?_⟩ rfl)
    · subst htrue
      dsimp only
      rw [hnamed, show ps.any (Encoding.isAnnotated false) = _ from hother]
      simp only [Bool.not_true, Option.isSome_some, Bool.true_or, Bool.toNat_true]
      omega
    · obtain rfl : visible = false := Bool.eq_false_iff.2 hfalse
      dsimp only
      rw [hnamed, show ps.any (Encoding.isAnnotated true) = _ from hother]
      simp only [Bool.not_false, Option.isSome_some, Bool.true_or, Bool.toNat_true]
      omega

/-- Names and flags of parameters, which keep their annotations. -/
theorem finds_drawn_readMethodParameters (ht : t.IsReadable) {n : Nat} {m : Method}
    (h : IsDrawnSoFar n m) :
    Finds (readMethodParameters t m) (IsDrawnSoFar (n + 1)) := by
  let kept (p : Parameter) : Bool × Bool := (Encoding.isAnnotated true p, Encoding.isAnnotated false p)
  have hname (p : Parameter) (hp : p.IsDrawn) : Finds (do
      let name ← t.utf8? (← u2)
      return { p with name, access := ← u2 }) fun q => q.IsDrawn ∧ kept q = kept p := by
    refine Finds.u2_bind fun i _ => ?_
    refine (finds_drawn_utf8? ht i).bind fun name hname => ?_
    exact Finds.u2.map fun access haccess => ⟨⟨hname, isWord_ofNat haccess, hp.annotations⟩, rfl⟩
  refine (finds_drawn_readParameterCount _ _).bind fun count hcount => ?_
  refine (finds_kept_readParametersOnto hname
    fun p hp => h.isDrawn.parameters p (List.mem_of_mem_take hp)).bind fun named hnamed => ?_
  have hps : ∀ p ∈ named ++ m.parameters.drop count, p.IsDrawn := by
    intro p hp
    rcases List.mem_append.1 hp with hp | hp
    · exact hnamed.1 p hp
    · exact h.isDrawn.parameters p (List.mem_of_mem_drop hp)
  have hsame : (named ++ m.parameters.drop count).map kept = m.parameters.map kept := by
    rw [List.map_append, hnamed.2, ← List.map_append, List.take_append_drop]
  generalize named ++ m.parameters.drop count = ps at hps hsame ⊢
  have hlength : ps.length = m.parameters.length := by simpa using congrArg List.length hsame
  have hvisible : ps.any (Encoding.isAnnotated true) = m.parameters.any (Encoding.isAnnotated true) :=
    any_eq_of_map_eq hsame Prod.fst
  have hinvisible : ps.any (Encoding.isAnnotated false) = m.parameters.any (Encoding.isAnnotated false) :=
    any_eq_of_map_eq hsame Prod.snd
  have htables (given : Option Int) : (m.visibleCount.isSome || ps.any (Encoding.isAnnotated true)).toNat
      + (m.invisibleCount.isSome || ps.any (Encoding.isAnnotated false)).toNat
      + (given.isSome || ps.any Encoding.isNamed).toNat ≤
    (m.visibleCount.isSome || m.parameters.any (Encoding.isAnnotated true)).toNat
      + (m.invisibleCount.isSome || m.parameters.any (Encoding.isAnnotated false)).toNat
      + (m.parameterCount.isSome || m.parameters.any Encoding.isNamed).toNat + 1 := by
    have hone := Bool.toNat_le (given.isSome || ps.any Encoding.isNamed)
    rw [hvisible, hinvisible]
    omega
  have hcounts (given : Option Int) (hshort : given = none → ps.any Encoding.isNamed = true →
      ps.length < 0x100) : CountsParameters m { m with parameters := ps, parameterCount := given } :=
    ⟨hps, fun hnone hany => hlength ▸ h.isDrawn.visible hnone (hvisible ▸ hany),
      fun hnone hany => hlength ▸ h.isDrawn.invisible hnone (hinvisible ▸ hany), hshort, htables given⟩
  refine Finds.ite (fun hall => .pure (h.parameters (hcounts m.parameterCount fun _ _ => ?_) rfl))
    fun _ => .pure (h.parameters (hcounts (some count) nofun) rfl)
  omega

theorem finds_drawn_readMethodCode (ht : t.IsDrawn) {n : Nat} {m : Method} (h : IsDrawnSoFar n m) :
    Finds (readMethodCode t m) (IsDrawnSoFar (n + 1)) := by
  have hraw : Finds (readRawCode t) fun r => r.IsSound ∧ r.IsDrawn :=
    (finds_readRawCode ht.isReadable).and fun c r c' hrun =>
      ((finds_drawn_readRawCode ht).of_eq_ok hrun).2
  have hcode : Finds (readCode t { place := m.name ++ m.descriptor }) fun code =>
      ∃ r seen l, RawCode.IsSound r ∧ RawCode.IsDrawn r ∧ r.Assembles seen l code :=
    hraw.bind fun r hr => (r.finds_assemble _).imp fun code ⟨seen, l, h⟩ => ⟨r, seen, l, hr.1, hr.2, h⟩
  refine hcode.map fun code ⟨r, seen, l, hsound, hdrawn, hassembles⟩ => ?_
  have hm : HasCode { m with
      maxima := some code.maxima, body := code.body, handlers := code.handlers,
      localVariables := code.localVariables, codeAttributes := code.attributes,
      layout := { m.layout with codeOrder := code.order, lineTables := code.lineTables } } code :=
    ⟨rfl, rfl, rfl, rfl, rfl, rfl⟩
  have hattributes : ∀ a ∈ code.attributes, a.IsDrawn := hassembles.attributes ▸ hdrawn.tables.attributes
  refine ⟨{ h.isDrawn with
    code := hassembles.hasDrawnCode hsound hdrawn hm
    codeAttributes := hattributes }, hassembles.hasCountedCode hsound hdrawn hm, ?_⟩
  have hcount := h.count
  unfold methodCount at hcount ⊢
  have hone := Bool.toNat_le (Method.hasCode { m with
      maxima := some code.maxima, body := code.body, handlers := code.handlers,
      localVariables := code.localVariables, codeAttributes := code.attributes,
      layout := { m.layout with codeOrder := code.order, lineTables := code.lineTables } })
  dsimp only at hone ⊢
  omega

theorem finds_drawn_readMethodAttribute (ht : t.IsDrawn) (name : Text) (length n : Nat) (m : Method)
    (hname : some (.utf8 name) ∈ t.entries) (hlength : length < 0x100000000) (h : IsDrawnSoFar n m) :
    Finds (readMethodAttribute t name length m) (IsDrawnSoFar (n + 1)) := by
  -- the order of the attributes is no part of what is drawn
  have hm : IsDrawnSoFar n { m with
      layout := { m.layout with attributeOrder := m.layout.attributeOrder ++ [name] } } :=
    ⟨{ h.isDrawn with code := { h.isDrawn.code with } }, h.code, h.count⟩
  unfold readMethodAttribute
  generalize { m with
    layout := { m.layout with attributeOrder := m.layout.attributeOrder ++ [name] } } = m at hm ⊢
  have hdrawn := hm.isDrawn
  have hcount := hm.count
  unfold methodCount at hcount
  have hannotations (visible : Bool) : Finds
      (do return { m with annotations := m.annotations ++ (← readAnnotationUses t visible) })
      (IsDrawnSoFar (n + 1)) := by
    refine (finds_drawn_readAnnotationUses ht.isReadable visible).map fun more hmore => ?_
    have hall := forall_isDrawn_annotations hdrawn.annotations hmore
    refine ⟨{ hdrawn with annotations := hall, code := { hdrawn.code with } }, hm.code, ?_⟩
    have hle := @length_annotationPieces_append_le m.annotations more visible fun a ha => (hmore a ha).2
    unfold methodCount Method.hasCode at *
    dsimp only
    omega
  refine Finds.ite (fun _ => finds_drawn_readMethodCode ht hm) fun _ => Finds.ite (fun _ => ?_) fun _ =>
    Finds.ite (fun _ => ?_) fun _ => Finds.ite (fun _ => hannotations true) fun _ =>
    Finds.ite (fun _ => hannotations false) fun _ =>
    Finds.ite (fun _ => finds_drawn_readParameterAnnotations ht.isReadable true hm) fun _ =>
    Finds.ite (fun _ => finds_drawn_readParameterAnnotations ht.isReadable false hm) fun _ =>
    Finds.ite (fun _ => ?_) fun _ =>
    Finds.ite (fun _ => finds_drawn_readMethodParameters ht.isReadable hm) fun _ => ?_
  · refine (Finds.listOf (Finds.u2_bind fun i _ => finds_drawn_className ht.isReadable i)).map
      fun exceptions hexceptions => ⟨{ hdrawn with
        exceptions := hexceptions, code := { hdrawn.code with } }, hm.code, ?_⟩
    have hone := Bool.toNat_le (!exceptions.isEmpty)
    unfold methodCount Method.hasCode at *
    dsimp only
    omega
  · refine Finds.storable_bind ht.isReadable fun s hs => .pure ⟨{ hdrawn with
      signature := by simpa using hs, code := { hdrawn.code with } }, hm.code, ?_⟩
    unfold methodCount Method.hasCode at *
    simp only [Option.isSome_some, Bool.toNat_true]
    omega
  · refine (finds_drawn_readElement ht.isReadable true).map fun v hv => ⟨{ hdrawn with
      default := by simpa using hv, code := { hdrawn.code with } }, hm.code, ?_⟩
    unfold methodCount Method.hasCode at *
    simp only [Option.isSome_some, Bool.toNat_true]
    omega
  · refine (Finds.bytes length).map fun data hdata => ?_
    have hattributes := forall_isDrawn_append hdrawn.attributes
      (ht.isReadable.isStorable hname) hdata hlength
    refine ⟨{ hdrawn with attributes := hattributes, code := { hdrawn.code with } }, hm.code, ?_⟩
    unfold methodCount Method.hasCode at *
    simp only [List.length_append, List.length_singleton]
    omega

/-- The parameters of a descriptor have nothing but their types. -/
theorem parametersOf_spec {types : List Text} :
    ∀ p ∈ parametersOf types, p.IsDrawn ∧ Encoding.isNamed p = false ∧
      ∀ visible, Encoding.isAnnotated visible p = false := by
  intro p hp
  obtain ⟨⟨type, i⟩, -, rfl⟩ := List.mem_map.1 hp
  exact ⟨⟨nofun, isWord_ofNat (n := 0) (by decide), by simp⟩, rfl, fun _ => rfl⟩

theorem finds_drawn_readMethod (ht : t.IsDrawn) :
    Finds (readMethod t) fun m => m.IsDrawn ∧ m.IsCounted := by
  refine Finds.u2_bind fun access haccess => ?_
  refine Finds.storable_bind ht.isReadable fun name hname => ?_
  refine Finds.u2_bind fun i _ => ?_
  refine (Finds.storable ht.isReadable i).bind fun descriptor hdescriptor => ?_
  cases harguments : Descriptor.arguments descriptor with
  | error e =>
    rcases Descriptor.arguments_error harguments with rfl | rfl
    · exact .refuseHere _
    · exact .refuseHere _
  | ok types =>
    have hnone (visible : Bool) : (parametersOf types).any (Encoding.isAnnotated visible) = false :=
      List.any_eq_false.2 fun p hp => by simp [(parametersOf_spec p hp).2.2 visible]
    have hnamed : (parametersOf types).any Encoding.isNamed = false :=
      List.any_eq_false.2 fun p hp => by simp [(parametersOf_spec p hp).2.1]
    have hlines (l : Layout) : Encoding.lineTables [] (linesOf l []).size = [] := by
      simp [Encoding.lineTables, linesOf]
    refine (Finds.attributes_counted (finds_drawn_readMethodAttribute ht)
      ⟨?_, fun l _ => ?_, ?_⟩).imp ?_
    · exact {
        access := isWord_ofNat haccess
        name := hname
        descriptor := hdescriptor
        signature := nofun
        exceptions := by simp
        parameters := fun p hp => (parametersOf_spec p hp).1
        visible := fun _ hany => by simp [hnone true] at hany
        invisible := fun _ hany => by simp [hnone false] at hany
        named := fun _ hany => by simp [hnamed] at hany
        code := ⟨nofun, nofun, by simp, by simp, by simp, by simp [ownFrames],
          fun l => by simp [hlines l]⟩
        annotations := by simp
        default := nofun
        attributes := by simp
        codeAttributes := by simp }
    · simp [codePieces, hlines l, localVariablePiece, ownFrames, pieceIf, rawPieces]
    · simp [methodCount, hnone, hnamed, annotationPieces, ofVisibility, pieceIf, Method.hasCode]
    · rintro m ⟨n, hn, hm⟩
      refine ⟨hm.isDrawn, ?_, hm.code⟩
      rw [length_methodPieces]
      exact hm.count.trans_lt hn

/-! ## Classes -/

theorem finds_drawn_readInnerClass (ht : t.IsReadable) : Finds (readInnerClass t) InnerClass.IsDrawn := by
  refine Finds.u2_bind fun innerIndex _ => ?_
  refine Finds.u2_bind fun outerIndex _ => ?_
  refine Finds.u2_bind fun nameIndex _ => ?_
  refine Finds.u2_bind fun access haccess => ?_
  refine (finds_drawn_className ht innerIndex).bind fun inner hinner => ?_
  refine (finds_drawn_className ht outerIndex).bind fun outer houter => ?_
  exact (finds_drawn_utf8? ht nameIndex).map fun _ hname => ⟨hinner, houter, hname, isWord_ofNat haccess⟩

theorem finds_drawn_readEnclosingMethod (ht : t.IsReadable) :
    Finds (readEnclosingMethod t) EnclosingMethod.IsDrawn := by
  refine Finds.u2_bind fun ownerIndex _ => ?_
  refine (finds_drawn_className ht ownerIndex).bind fun owner howner => ?_
  refine Finds.u2_bind fun i _ => ?_
  refine Finds.ite (fun _ => .pure ⟨howner, nofun⟩) fun _ => ?_
  refine (finds_nameAndType i).any_bind fun ⟨n, d⟩ => ?_
  refine (Finds.storable ht n).bind fun name hname => ?_
  refine (Finds.storable ht d).map fun descriptor hdescriptor => ⟨howner, ?_⟩
  rintro _ ⟨⟩
  exact ⟨hname, descriptor, rfl, hdescriptor⟩

theorem finds_drawn_readClassAttribute (ht : t.IsReadable) (name : Text) (length _n : Nat) (c : Class)
    (hname : some (.utf8 name) ∈ t.entries) (hlength : length < 0x100000000)
    (h : c.IsDrawn ∧ c.HasCountedMembers) : Finds (readClassAttribute t name length c) fun c =>
      c.IsDrawn ∧ c.HasCountedMembers := by
  obtain ⟨hdrawn, hcounted⟩ := h
  refine Finds.ite (fun _ => ?_) fun _ => Finds.ite (fun _ => ?_) fun _ =>
    Finds.ite (fun _ => ?_) fun _ => Finds.ite (fun _ => ?_) fun _ => Finds.ite (fun _ => ?_) fun _ =>
    Finds.ite (fun _ => ?_) fun _ => Finds.ite (fun _ => ?_) fun _ => ?_
  · exact Finds.storable_bind ht fun s hs => .pure
      ⟨{ hdrawn with signature := by simpa using hs }, { hcounted with }⟩
  · exact Finds.storable_bind ht fun s hs => .pure
      ⟨{ hdrawn with sourceFile := by simpa using hs }, { hcounted with }⟩
  · exact (finds_drawn_readAnnotationUses ht true).map fun more hmore =>
      ⟨{ hdrawn with annotations := forall_isDrawn_annotations hdrawn.annotations hmore },
        { hcounted with }⟩
  · exact (finds_drawn_readAnnotationUses ht false).map fun more hmore =>
      ⟨{ hdrawn with annotations := forall_isDrawn_annotations hdrawn.annotations hmore },
        { hcounted with }⟩
  · refine (Finds.all_listOf (finds_drawn_readInnerClass ht)).map fun more hmore =>
      ⟨{ hdrawn with innerClasses := ?_ }, { hcounted with }⟩
    exact List.forall_mem_append.2 ⟨hdrawn.innerClasses, hmore⟩
  · exact (finds_drawn_readEnclosingMethod ht).map fun e he =>
      ⟨{ hdrawn with enclosing := by simpa using he }, { hcounted with }⟩
  · exact (Finds.skip length).any_bind fun _ => .pure ⟨{ hdrawn with }, { hcounted with }⟩
  · refine (Finds.bytes length).map fun data hdata => ?_
    have hattributes := forall_isDrawn_append hdrawn.attributes (ht.isStorable hname) hdata hlength
    exact ⟨{ hdrawn with attributes := hattributes }, { hcounted with }⟩

theorem finds_drawn_readTable : Finds readTable Table.IsDrawn := by
  refine Pool.finds_readPool.bind fun entries hentries => ?_
  refine Finds.get_bind fun c => ?_
  exact (finds_scanBootstrap.elsewhere c).map fun found hfound => ⟨hentries, by simpa using hfound⟩

theorem finds_drawn_readClassName (ht : t.IsReadable) : Finds (readClassName t) Text.IsStorable := by
  refine Finds.position_bind fun start => ?_
  refine Finds.u2_bind fun i _ => ?_
  refine (finds_drawn_className ht i).bind fun name hname => ?_
  split
  · exact .refuse _ _
  · exact .refuse _ _
  · exact .pure (hname _ rfl)

/-- What is read of a class file keeps within the bounds of one: its texts, its numbers and its counts
have come out of one. -/
theorem finds_drawn_readClassFile : Finds readClassFile fun c => c.IsDrawn ∧ c.HasCountedMembers := by
  have hversion : Finds readVersion fun v => v.1 < 0x10000 ∧ v.2 < 0x10000 := by
    refine Finds.u4.bind fun found _ => ?_
    refine Finds.check_bind fun _ => ?_
    refine Finds.u2_bind fun minor hminor => ?_
    refine Finds.u2_bind fun major hmajor => ?_
    exact Finds.check_bind fun _ => .pure ⟨hmajor, hminor⟩
  refine hversion.bind fun ⟨major, minor⟩ hversion => ?_
  refine finds_drawn_readTable.bind fun t ht => ?_
  refine Finds.u2_bind fun access haccess => ?_
  refine (finds_drawn_readClassName ht.isReadable).bind fun name hname => ?_
  refine Finds.u2_bind fun i _ => ?_
  refine (finds_drawn_className ht.isReadable i).bind fun super hsuper => ?_
  refine (Finds.listOf (Finds.u2_bind fun i _ => finds_drawn_className ht.isReadable i)).bind
    fun interfaces hinterfaces => ?_
  refine (Finds.listOf (finds_drawn_readField ht.isReadable)).bind fun fields hfields => ?_
  refine (Finds.listOf (finds_drawn_readMethod ht)).bind fun methods hmethods => ?_
  refine (Finds.attributes_counted (T := fun _ (c : Class) => c.IsDrawn ∧ c.HasCountedMembers)
    (finds_drawn_readClassAttribute ht.isReadable) ⟨?_, ?_⟩).bind fun c ⟨_, _, hc⟩ => ?_
  · exact {
      access := isWord_ofNat haccess
      version := ⟨isWord_ofNat hversion.1, isWord_ofNat hversion.2⟩
      name := hname
      super := hsuper
      interfaces := hinterfaces
      fields := ⟨hfields.1, fun f hf => (hfields.2 f hf).1⟩
      methods := ⟨hmethods.1, fun m hm => (hmethods.2 m hm).1⟩
      annotations := by simp
      sourceFile := nofun
      signature := nofun
      innerClasses := by simp
      enclosing := nofun
      attributes := by simp
      pool := fun e he => ht.isReadable e (Array.mem_toList_iff.1 he)
      bootstrap := fun b hb => ht.bootstrap b (Array.mem_toList_iff.1 hb) }
  · exact ⟨fun f hf => (hfields.2 f hf).2, fun m hm => (hmethods.2 m hm).2⟩
  · exact Finds.get_bind fun here => Finds.checkHere_bind fun _ => .pure hc

end ClassTree.Decoding

namespace ClassTree.Class

/-- A class that has been read is drawn from its file. -/
theorem isDrawn_of_ofBytes {bytes : Bytes} {c : Class} (h : ofBytes bytes = .ok c) :
    c.IsDrawn ∧ c.HasCountedMembers := by
  unfold ofBytes StateT.run at h
  split at h
  · next found stop hrun =>
    cases h
    exact (Decoding.finds_drawn_readClassFile.of_eq_ok hrun).2
  · cases h

end ClassTree.Class
