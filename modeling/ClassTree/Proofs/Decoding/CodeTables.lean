/-
# ClassTree.Proofs.Decoding.CodeTables — the tables of the code of a method

The tables around the instructions of a method are attributes of its code: each of them is read by
itself, and all of one sort are put one behind the other. Which code a method has is decided by the
last of its code attributes; no other attribute changes it.
-/
import ClassTree.Proofs.Decoding.Markers
import ClassTree.Proofs.Decoding.Parts
import ClassTree.Proofs.Decoding.Raw
import ClassTree.Proofs.Decoding.Total
import ClassTree.Proofs.Encoding.Kept

namespace ClassTree

open Decoding Decoder

/-! ## Tables -/

/-- The attributes with a name, each read by itself. -/
def Attribute.tables {α : Type} (as : List Attribute) (name : Text) (d : Decoder α) : List (Result α) :=
  (as.filter fun a => a.name = name).map fun a => Outline.whole d a.data

theorem Attribute.tables_append {α : Type} (as as' : List Attribute) (name : Text) (d : Decoder α) :
    Attribute.tables (as ++ as') name d = Attribute.tables as name d ++ Attribute.tables as' name d := by
  simp [Attribute.tables]

namespace Decoding

/-- What attributes of code add to the tables that have been read before. -/
structure CodeTables.Adds (t : Table) (as : List Attribute) (s s' : CodeTables) : Prop where
  lines : ∃ tables : List (List RawLine),
    Attribute.tables as AttributeName.lineNumbers (listOf readLine) = tables.map .ok ∧
      s'.lines = s.lines ++ tables
  described : ∃ tables : List (List RawVariable),
    Attribute.tables as AttributeName.localVariables (listOf (readVariable t)) = tables.map .ok ∧
      s'.described = s.described ++ tables.flatten
  signatures : ∃ tables : List (List RawVariable),
    Attribute.tables as AttributeName.localVariableTypes (listOf (readVariable t)) = tables.map .ok ∧
      s'.signatures = tables.flatten.foldl putSignature s.signatures
  attributes : ∃ raw : List Attribute, s'.attributes = s.attributes ++ raw ∧
    ∀ a ∈ raw, a.name ∉ AttributeName.ofCode

namespace CodeTables.Adds

variable {t : Table} {as as' : List Attribute} {s s₁ s₂ : CodeTables}

theorem nil (t : Table) (s : CodeTables) : Adds t [] s s where
  lines := ⟨[], rfl, by simp⟩
  described := ⟨[], rfl, by simp⟩
  signatures := ⟨[], rfl, rfl⟩
  attributes := ⟨[], by simp, nofun⟩

theorem append (h : Adds t as s s₁) (h' : Adds t as' s₁ s₂) : Adds t (as ++ as') s s₂ := by
  obtain ⟨lines, hlines, heqLines⟩ := h.lines
  obtain ⟨lines', hlines', heqLines'⟩ := h'.lines
  obtain ⟨described, hdescribed, heqDescribed⟩ := h.described
  obtain ⟨described', hdescribed', heqDescribed'⟩ := h'.described
  obtain ⟨signatures, hsignatures, heqSignatures⟩ := h.signatures
  obtain ⟨signatures', hsignatures', heqSignatures'⟩ := h'.signatures
  obtain ⟨raw, hraw, hnames⟩ := h.attributes
  obtain ⟨raw', hraw', hnames'⟩ := h'.attributes
  refine ⟨⟨lines ++ lines', ?_, ?_⟩, ⟨described ++ described', ?_, ?_⟩,
    ⟨signatures ++ signatures', ?_, ?_⟩, ⟨raw ++ raw', ?_, ?_⟩⟩
  · rw [Attribute.tables_append, hlines, hlines', List.map_append]
  · rw [heqLines', heqLines, List.append_assoc]
  · rw [Attribute.tables_append, hdescribed, hdescribed', List.map_append]
  · rw [heqDescribed', heqDescribed, List.flatten_append, List.append_assoc]
  · rw [Attribute.tables_append, hsignatures, hsignatures', List.map_append]
  · rw [heqSignatures', heqSignatures, List.flatten_append, List.foldl_append]
  · rw [hraw', hraw, List.append_assoc]
  · intro a ha
    exact (List.mem_append.1 ha).elim (hnames a) (hnames' a)

theorem of_whole {a : Attribute}
    (h : Outline.whole (readCodeAttribute t a.name a.data.length s) a.data = .ok s₁) :
    Adds t [a] s s₁ := by
  obtain ⟨c, hread, hend⟩ := whole_eq_ok_iff.1 h
  have hone {α : Type} {d : Decoder α} {x : α} (hd : d ⟨0, a.data⟩ = .ok (x, c)) {name : Text}
      (hname : a.name = name) : Attribute.tables [a] name d = [x].map .ok := by
    have hwhole : Outline.whole d a.data = .ok x := whole_eq_ok_iff.2 ⟨c, hd, hend⟩
    simp [Attribute.tables, hname, hwhole]
  have hnone {α : Type} (d : Decoder α) {name : Text} (hne : a.name ≠ name) :
      Attribute.tables [a] name d = ([] : List α).map .ok := by
    simp [Attribute.tables, hne]
  unfold readCodeAttribute at hread
  by_cases hlines : a.name = AttributeName.lineNumbers
  · rw [if_pos hlines] at hread
    obtain ⟨table, _, htable, hs⟩ := bind_eq_ok_iff.1 hread
    cases hs
    refine ⟨⟨_, hone htable hlines, rfl⟩, ⟨_, hnone _ ?_, by simp⟩, ⟨_, hnone _ ?_, rfl⟩,
      ⟨[], by simp, nofun⟩⟩
    · rw [hlines]
      decide
    · rw [hlines]
      decide
  rw [if_neg hlines] at hread
  by_cases hdescribed : a.name = AttributeName.localVariables
  · rw [if_pos hdescribed] at hread
    obtain ⟨table, _, htable, hs⟩ := bind_eq_ok_iff.1 hread
    cases hs
    refine ⟨⟨_, hnone _ hlines, by simp⟩, ⟨_, hone htable hdescribed, by simp⟩, ⟨_, hnone _ ?_, rfl⟩,
      ⟨[], by simp, nofun⟩⟩
    rw [hdescribed]
    decide
  rw [if_neg hdescribed] at hread
  by_cases hsignatures : a.name = AttributeName.localVariableTypes
  · rw [if_pos hsignatures] at hread
    obtain ⟨table, _, htable, hs⟩ := bind_eq_ok_iff.1 hread
    cases hs
    exact ⟨⟨_, hnone _ hlines, by simp⟩, ⟨_, hnone _ hdescribed, by simp⟩,
      ⟨_, hone htable hsignatures, by simp⟩, ⟨[], by simp, nofun⟩⟩
  rw [if_neg hsignatures] at hread
  -- of the others none adds an entry to these tables
  have hrest {raw : List Attribute} (hraw : s₁.attributes = s.attributes ++ raw)
      (hnames : ∀ a ∈ raw, a.name ∉ AttributeName.ofCode) (hl : s₁.lines = s.lines)
      (hd : s₁.described = s.described) (hs : s₁.signatures = s.signatures) : Adds t [a] s s₁ :=
    ⟨⟨_, hnone _ hlines, by simp [hl]⟩, ⟨_, hnone _ hdescribed, by simp [hd]⟩,
      ⟨_, hnone _ hsignatures, hs⟩, ⟨raw, hraw, hnames⟩⟩
  by_cases hframes : a.name = AttributeName.stackMap
  · rw [if_pos hframes] at hread
    obtain ⟨frames, _, -, hs⟩ := bind_eq_ok_iff.1 hread
    cases hs
    exact hrest (List.append_nil _).symm nofun rfl rfl rfl
  · rw [if_neg hframes] at hread
    obtain ⟨data, _, -, hs⟩ := bind_eq_ok_iff.1 hread
    cases hs
    refine hrest rfl (fun b hb => ?_) rfl rfl rfl
    rw [List.mem_singleton.1 hb]
    simp [AttributeName.ofCode, hlines, hdescribed, hsignatures, hframes]

theorem of_readAll (h : Attribute.readAll (readCodeAttribute t) as s = .ok s₁) : Adds t as s s₁ := by
  induction as generalizing s with
  | nil =>
    cases h
    exact nil t _
  | cons a as ih =>
    obtain ⟨s', ha, hrest⟩ := Result.bind_eq_ok_iff.1 h
    exact (of_whole ha).append (ih hrest)

end CodeTables.Adds

/-! ## The code of a method -/

end Decoding

/-- The code of a method, if it gives its sizes. -/
def Method.code? (m : Method) : Option Code :=
  m.maxima.map fun maxima => {
    maxima
    body := m.body
    handlers := m.handlers
    localVariables := m.localVariables
    attributes := m.codeAttributes
    order := m.layout.codeOrder
    lineTables := m.layout.lineTables }

namespace Decoding

variable {file : Bytes} {t : Table}

/-- A method that keeps its code has it as before. -/
theorem KeepsCode.code?_eq {m m' : Method} (h : KeepsCode m m') : m'.code? = m.code? := by
  have hcode : (onlyCode m').code? = (onlyCode m).code? := congrArg Method.code? h
  exact hcode

theorem KeepsCode.hasCode_eq {m m' : Method} (h : KeepsCode m m') : m'.hasCode = m.hasCode := by
  have hcode : (onlyCode m').hasCode = (onlyCode m).hasCode := congrArg Method.hasCode h
  exact hcode

/-- The method has the code that is put together of an attribute. -/
def IsCodeOf (t : Table) (a : Attribute) (m : Method) : Prop :=
  ∃ (r : RawCode) (outline : CodeOutline) (seen : List (Int × Label)) (l : LabelledCode) (code : Code),
    a.HoldsCode t r outline ∧ r.Assembles seen l code ∧ m.code? = some code

/-- The code of a method is that of the last code attribute. -/
theorem isCodeOf_of_readAll {as : List Attribute} {m m' : Method}
    (h : Attribute.readAll (readMethodAttribute t) as m = .ok m') :
    (∃ a, (as.filter fun a => a.name = AttributeName.code).getLast? = some a ∧ IsCodeOf t a m') ∨
      KeepsCode m m' := by
  induction as using List.reverseRecOn generalizing m' with
  | nil =>
    cases h
    exact .inr rfl
  | append_singleton as b ih =>
    unfold Attribute.readAll at h
    rw [List.foldlM_append] at h
    obtain ⟨m₁, hfirst, hlast⟩ := Result.bind_eq_ok_iff.1 h
    rw [List.foldlM_cons] at hlast
    obtain ⟨m₂, hb, hlast⟩ := Result.bind_eq_ok_iff.1 hlast
    cases hlast
    rw [List.filter_append]
    -- induction from behind: the last attribute decides if it is code, and keeps the code otherwise
    by_cases hname : b.name = AttributeName.code
    · refine .inl ⟨b, by simp [hname], ?_⟩
      unfold readMethodAttribute at hb
      rw [if_pos hname] at hb
      obtain ⟨r, code, c, hr, hassemble, rfl⟩ := exists_of_readMethodCode hb
      obtain ⟨outline, hholds⟩ := exists_holdsCode hr
      obtain ⟨seen, l, hcode⟩ := ((r.finds_assemble _).of_eq_ok hassemble).2
      exact ⟨r, outline, seen, l, code, hholds, hcode, rfl⟩
    · obtain ⟨c, hread, -⟩ := whole_eq_ok_iff.1 hb
      have hkeeps := keepsCode_readMethodAttribute hname _ _ _ _ _ (Cursor.isIn_drop b.data 0) hread
      have hnone : ([b].filter fun a => a.name = AttributeName.code) = [] := by simp [hname]
      rw [hnone, List.append_nil]
      rcases ih hfirst with
        ⟨a, ha, r, outline, seen, l, code, hholds, hassembles, hcode⟩ | hfirst
      · exact .inl ⟨a, ha, r, outline, seen, l, code, hholds, hassembles, hkeeps.code?_eq.trans hcode⟩
      · exact .inr (hkeeps.trans hfirst)

end Decoding

theorem Method.eq_of_code? {m : Method} {code : Code} (h : m.code? = some code) :
    m.body = code.body ∧ m.localVariables = code.localVariables ∧ m.codeAttributes = code.attributes ∧
      m.layout.lineTables = code.lineTables := by
  obtain ⟨maxima, -, rfl⟩ := Option.map_eq_some_iff.1 h
  exact ⟨rfl, rfl, rfl, rfl⟩

namespace Attribute.HoldsCode

variable {t : Table} {a : Attribute} {r : RawCode} {outline : CodeOutline}

theorem isSound (h : a.HoldsCode t r outline) (ht : t.IsReadable) : r.IsSound := by
  obtain ⟨c, hread, -⟩ := whole_eq_ok_iff.1 h.whole
  exact ((finds_readRawCode ht).of_eq_ok hread).2

theorem startOf_eq (h : a.HoldsCode t r outline) : startOf r.length r.instructions = 0 := by
  obtain ⟨c, hread, -⟩ := whole_eq_ok_iff.1 h.whole
  obtain ⟨-, -, -, -, ⟨c₂, hfound⟩, -⟩ := (readRawCode_eq_ok_iff t).1 hread
  exact startOf_of_readOperations hfound

theorem adds (h : a.HoldsCode t r outline) : CodeTables.Adds t outline.attributes {} r.tables :=
  .of_readAll h.attributes

end Attribute.HoldsCode

/-! ## Methods of a class file -/

/-- The code of a method of a class that has been read, where it stands in the file. -/
structure Class.HasCodeAt (c : Class) (file : Bytes) (k : Nat) (t : Table) (r : RawCode)
    (code : CodeOutline) : Prop where
  parts : ∃ (o : Outline) (member : MemberOutline) (a : Attribute), Outline.ofBytes file = .ok o ∧
    o.IsReadAs c t ∧ o.methods[k]? = some member ∧
    (member.attributes.filter fun a => a.name = AttributeName.code).getLast? = some a ∧
    a.HoldsCode t r code

namespace Decoding

/-- The entries of a pool that has been read can be read. -/
theorem isReadable_of_isReadAs {file : Bytes} {o : Outline} {c : Class} {t : Table}
    (ho : Outline.ofBytes file = .ok o) (h : o.IsReadAs c t) : t.IsReadable := by
  obtain ⟨_, hread, -⟩ := whole_eq_ok_iff.1 ho
  obtain ⟨_, _, -, hread⟩ := bind_eq_ok_iff.1 hread
  obtain ⟨entries, _, hentries, hread⟩ := bind_eq_ok_iff.1 hread
  obtain ⟨_, _, -, hread⟩ := bind_eq_ok_iff.1 hread
  obtain ⟨_, _, -, hread⟩ := bind_eq_ok_iff.1 hread
  obtain ⟨_, _, -, hread⟩ := bind_eq_ok_iff.1 hread
  obtain ⟨_, _, -, hread⟩ := bind_eq_ok_iff.1 hread
  obtain ⟨_, _, -, hread⟩ := bind_eq_ok_iff.1 hread
  obtain ⟨_, _, -, hread⟩ := bind_eq_ok_iff.1 hread
  cases hread
  rw [h.table]
  exact (Pool.finds_readPool.of_eq_ok hentries).2

end Decoding

/-- A method with code has it from a code attribute in the file, and is put together of it. -/
theorem Class.exists_hasCodeAt {file : Bytes} {c : Class} (hread : Class.ofBytes file = .ok c) {k : Nat}
    {m : Method} (hm : c.methods[k]? = some m) (hcode : m.hasCode = true) :
    ∃ (t : Table) (r : RawCode) (outline : CodeOutline) (seen : List (Int × Label)) (l : LabelledCode)
      (code : Code), c.HasCodeAt file k t r outline ∧ t.IsReadable ∧ r.Assembles seen l code ∧
        m.code? = some code := by
  obtain ⟨o, ho, t, hparts⟩ := exists_isReadAs_of_ofBytes hread
  obtain ⟨hk, heq⟩ := List.getElem?_eq_some_iff.1 hm
  have hk' : k < o.methods.length := hparts.methods.length_eq.symm ▸ hk
  have hmethod := hparts.methods.get hk' hk
  simp only [List.get_eq_getElem, heq] at hmethod
  obtain ⟨types, -, hall⟩ := hmethod.attributes
  rcases isCodeOf_of_readAll hall with
    ⟨a, ha, r, outline, seen, l, code, hholds, hassembles, hsome⟩ | hkeeps
  · have hmember := List.getElem?_eq_getElem hk'
    exact ⟨t, r, outline, seen, l, code, ⟨o, o.methods[k], a, ho, hparts, hmember, ha, hholds⟩,
      isReadable_of_isReadAs ho hparts, hassembles, hsome⟩
  · exact absurd (hkeeps.hasCode_eq.symm.trans hcode) (by simp [MemberOutline.head, Method.hasCode])

end ClassTree
