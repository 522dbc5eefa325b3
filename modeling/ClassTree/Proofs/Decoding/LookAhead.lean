/-
# ClassTree.Proofs.Decoding.LookAhead — the bootstrap table is found where it stands

The bootstrap table of a class stands behind the members that use it, so it is looked for ahead of
them. The look-ahead skips members by the sizes of their parts and by the lengths that their
attributes declare; reading takes them apart. An attribute that is read ends where its length says,
whatever it holds, so both come to the attributes of the class at the same place, and from there on
they meet the same attributes.

To say which attributes a pass meets, the passes are repeated here with a note of each attribute;
without the notes they are the passes themselves.
-/
import Mathlib
import ClassTree.Proofs.Acceptance.Bootstrap
import ClassTree.Proofs.Decoding.Parts
import ClassTree.Proofs.Decoding.Placement

namespace ClassTree

open Decoding Decoder
open Encoding (collect)

variable {σ : Type}

/-! ## Passes that note what they meet -/

/-- An attribute that a pass meets. -/
structure Visit where
  name : Text
  /-- Where the content starts. -/
  start : Nat
  /-- The length that is declared. -/
  length : Nat

namespace Visit

/-- The attribute as its bytes in the file. -/
def toAttribute (file : Bytes) (v : Visit) : Attribute := ⟨v.name, (file.drop v.start).take v.length⟩

/-- A bootstrap table is read from where the attribute starts. -/
def HoldsTable (file : Bytes) (v : Visit) (table : List Bootstrap) : Prop :=
  ∃ c, listOf readBootstrap ⟨v.start, file.drop v.start⟩ = .ok (table, c)

end Visit

namespace Decoding

/-- Reads the content of an attribute and notes the attribute. -/
def noting (read : Text → Nat → σ → Decoder σ) (name : Text) (length : Nat) (s : σ × List Visit) :
    Decoder (σ × List Visit) := do
  let start ← position
  let state ← read name length s.1
  return (state, s.2 ++ [⟨name, start, length⟩])

/-- Skips a class up to its attributes. -/
def skipToAttributes (t : Table) : Decoder Unit := do
  skip 6
  let interfaces ← u2
  skip (2 * interfaces)
  skipMembers t
  skipMembers t

/-- Reads a class up to its attributes. -/
def readToAttributes (t : Table) (version : Nat × Nat) : Decoder Class := do
  let access ← u2
  let name ← readClassName t
  let super ← t.className (← u2)
  let interfaces ← listOf do t.className (← u2)
  let fields ← listOf (readField t)
  let methods ← listOf (readMethod t)
  return { name, access, major := version.1, minor := version.2, super, interfaces, fields, methods
           layout := { pool := t.entries.toList, bootstrap := t.bootstrap.toList } }

/-- The look-ahead for the bootstrap table, with the attributes of the class that it meets. -/
def scanNoting (t : Table) : Decoder (List Bootstrap × List Visit) := do
  skipToAttributes t
  let (tables, visits) ← attributes t (noting collect) ([], [])
  return (tables.reverse.flatten, visits)

/-- Reads a class file, with the attributes of the class that are met. -/
def readNoting : Decoder (Class × List Visit) := do
  let version ← readVersion
  let t ← readTable
  let head ← readToAttributes t version
  let (c, visits) ← attributes t (noting (readClassAttribute t)) (head, [])
  let after := (← get).rest.length
  unless after = 0 do refuseHere (.trailing after)
  return (c, visits)

variable {t : Table}

/-- The look-ahead skips the members and goes on with the attributes of the class. -/
theorem scanBootstrap_eq : scanBootstrap t = (do
    skipToAttributes t
    let tables ← attributes t collect []
    return tables.reverse.flatten) := by
  unfold scanBootstrap skipToAttributes
  simp only [bind_assoc]
  rfl

/-- Reading takes the members apart and goes on with the attributes of the class. -/
theorem readClassFile_eq : readClassFile = (do
    let version ← readVersion
    let t ← readTable
    let c ← attributes t (readClassAttribute t) (← readToAttributes t version)
    let after := (← get).rest.length
    unless after = 0 do refuseHere (.trailing after)
    return c) := by
  unfold readClassFile readToAttributes
  simp only [bind_assoc, pure_bind]

/-- Without its note an attribute is read as it is. -/
theorem map_fst_attribute_noting (read : Text → Nat → σ → Decoder σ) (s : σ × List Visit) :
    Prod.fst <$> attribute_ t (noting read) s = attribute_ t read s.1 := by
  unfold attribute_ noting
  simp only [map_bind, bind_assoc, pure_bind, apply_ite (Prod.fst <$> ·), map_pure]
  rfl

/-- Without the notes attributes are read as they are. -/
theorem map_fst_attributes_noting (read : Text → Nat → σ → Decoder σ) (s : σ × List Visit) :
    Prod.fst <$> attributes t (noting read) s = attributes t read s.1 := by
  have hcount (count : Nat) (s : σ × List Visit) :
      Prod.fst <$> attributeCount t (noting read) count s = attributeCount t read count s.1 := by
    induction count generalizing s with
    | zero => rfl
    | succ count ih =>
      simp only [attributeCount, map_bind, ih]
      rw [← map_fst_attribute_noting, bind_map_left]
  simp only [attributes, map_bind, hcount]

theorem map_fst_scanNoting : Prod.fst <$> scanNoting t = scanBootstrap t := by
  have hpass := map_fst_attributes_noting (t := t) collect ([], [])
  unfold scanNoting
  rw [scanBootstrap_eq, ← hpass]
  simp only [map_bind, map_pure, bind_map_left]

/-- Without the notes a class file is read as it is. -/
theorem map_fst_readNoting : Prod.fst <$> readNoting = readClassFile := by
  have hpass (t : Table) (c : Class) := map_fst_attributes_noting (t := t) (readClassAttribute t) (c, [])
  unfold readNoting
  rw [readClassFile_eq]
  simp only [← hpass, map_bind, bind_map_left, apply_ite (Prod.fst <$> ·), map_pure]

/-- What is read with a note is what is read without it. -/
theorem map_fst_eq_ok_iff {α β : Type} {d : Decoder (α × β)} {c c' : Cursor} {a : α} :
    (Prod.fst <$> d) c = .ok (a, c') ↔ ∃ b, d c = .ok ((a, b), c') := by
  rw [← bind_pure_comp]
  constructor
  · intro h
    obtain ⟨⟨_, b⟩, _, hd, hpure⟩ := bind_eq_ok_iff.1 h
    cases hpure
    exact ⟨b, hd⟩
  · rintro ⟨b, hd⟩
    exact bind_eq_ok_iff.2 ⟨(a, b), c', hd, rfl⟩

/-! ## What a pass meets -/

/-- Attributes in a row from one place to another: each goes on for as many bytes as it declares. -/
inductive AreMet (t : Table) : Cursor → List Visit → Cursor → Prop
  | nil (c : Cursor) : AreMet t c [] c
  | cons {c c' : Cursor} {i length : Nat} {name : Text} {visits : List Visit}
      (hi : u2 c = .ok (i, c.skip 2)) (hname : t.utf8 i (c.skip 2) = .ok (name, c.skip 2))
      (hlength : u4 (c.skip 2) = .ok (length, c.skip 6)) (hroom : length ≤ (c.skip 6).rest.length)
      (hrest : AreMet t ((c.skip 6).skip length) visits c') :
      AreMet t c (⟨name, (c.skip 6).position, length⟩ :: visits) c'

theorem AreMet.unique {c c₁ c₂ : Cursor} {visits visits' : List Visit} (h : AreMet t c visits c₁)
    (h' : AreMet t c visits' c₂) (hlength : visits.length = visits'.length) :
    visits = visits' ∧ c₁ = c₂ := by
  induction h generalizing visits' with
  | nil c =>
    cases h' with
    | nil => exact ⟨rfl, rfl⟩
    | cons => cases hlength
  | cons hi hname hsize hroom _ ih =>
    cases h' with
    | nil => cases hlength
    | cons hi' hname' hsize' hroom' hrest' =>
      cases hi.symm.trans hi'
      cases hname.symm.trans hname'
      cases hsize.symm.trans hsize'
      obtain ⟨rfl, rfl⟩ := ih hrest' (Nat.succ.inj hlength)
      exact ⟨rfl, rfl⟩

/-- The names of attributes do not depend on the bootstrap table. -/
theorem AreMet.of_entries {entries : Array (Option Pool.Entry)} {found found' : Array Bootstrap}
    {c c' : Cursor} {visits : List Visit} (h : AreMet ⟨entries, found⟩ c visits c') :
    AreMet ⟨entries, found'⟩ c visits c' := by
  induction h with
  | nil c => exact .nil c
  | cons hi hname hsize hroom _ ih => exact .cons hi hname hsize hroom ih

theorem AreMet.skipCount {c c' : Cursor} {visits : List Visit} (h : AreMet t c visits c') :
    attributeCount t (fun _ length _ => skip length) visits.length () c = .ok ((), c') := by
  induction h with
  | nil c => rfl
  | @cons c c' i length name visits hi hname hsize hroom _ ih =>
    refine bind_eq_ok_iff.2 ⟨(), _, (attribute_eq_ok_iff t fun _ _ _ => inferInstance).2 ?_, ih⟩
    exact ⟨i, name, length, hi, hname, hsize, hroom, rfl, rfl⟩

instance follows_noting (read : Text → Nat → σ → Decoder σ)
    [hread : ∀ name length s, Follows 0 (read name length s) (read name length s)] (name : Text)
    (length : Nat) (s : σ × List Visit) :
    Follows 0 (noting read name length s) (noting read name length s) where
  follows := by
    intro c c₁ s' h
    obtain ⟨start, _, ⟨⟩, h⟩ := bind_eq_ok_iff.1 h
    obtain ⟨state, c₂, hstate, h⟩ := bind_eq_ok_iff.1 h
    cases h
    obtain ⟨count, rfl, -⟩ := (hread name length s.1).follows hstate
    exact ⟨count, rfl, fun hlt => absurd hlt (Nat.not_lt_zero count)⟩

/-- A pass meets the attributes that stand in a row behind their count, whatever it reads of them.
What holds of the state and the attributes met so far, and is kept by reading one more, holds in the
end. -/
theorem areMet_of_attributes {read : Text → Nat → σ → Decoder σ}
    [hread : ∀ name length s, Follows 0 (read name length s) (read name length s)]
    {Q : σ → List Visit → Prop} {c c' : Cursor} {s s' : σ} {visits : List Visit}
    (hstep : ∀ name length s s' met n, length ≤ (c.skip n).rest.length → Q s met →
      read name length s (c.skip n) = .ok (s', (c.skip n).skip length) →
        Q s' (met ++ [⟨name, (c.skip n).position, length⟩]))
    (hs : Q s []) (h : attributes t (noting read) (s, []) c = .ok ((s', visits), c')) :
    Q s' visits ∧ u2 c = .ok (visits.length, c.skip 2) ∧ AreMet t (c.skip 2) visits c' := by
  -- places are counted from the first cursor on, so that they add up over the attributes
  have hcount (count : Nat) : ∀ (s : σ) (met : List Visit) (n : Nat), Q s met →
      attributeCount t (noting read) count (s, met) (c.skip n) = .ok ((s', visits), c') →
      Q s' visits ∧ ∃ more, visits = met ++ more ∧ more.length = count ∧ AreMet t (c.skip n) more c' := by
    induction count with
    | zero =>
      intro s met n hs h
      cases h
      exact ⟨hs, [], (List.append_nil _).symm, rfl, .nil _⟩
    | succ count ih =>
      intro s met n hs h
      obtain ⟨⟨s₁, met₁⟩, c₁, hfirst, hrest⟩ := bind_eq_ok_iff.1 h
      obtain ⟨i, name, length, hi, hname, hsize, hroom, rfl, hnoted⟩ :=
        (attribute_eq_ok_iff t fun _ _ _ => inferInstance).1 hfirst
      obtain ⟨start, _, ⟨⟩, hnoted⟩ := bind_eq_ok_iff.1 hnoted
      obtain ⟨state, _, hstate, hnote⟩ := bind_eq_ok_iff.1 hnoted
      cases hnote
      have hplace : (c.skip n).skip 6 = c.skip (n + 6) := c.skip_skip n 6
      rw [hplace] at hroom hstate hrest
      rw [c.skip_skip] at hrest
      obtain ⟨hQ, more, rfl, rfl, hmet⟩ :=
        ih s₁ _ _ (hstep name length s s₁ met _ hroom hs hstate) hrest
      rw [← c.skip_skip, ← hplace] at hmet
      rw [← hplace] at hroom ⊢
      exact ⟨hQ, _, List.append_assoc _ _ _, rfl, .cons hi hname hsize hroom hmet⟩
  obtain ⟨count, c₂, hnumber, h⟩ := bind_eq_ok_iff.1 h
  obtain rfl := skip_of_unsigned hnumber
  obtain ⟨hQ, more, rfl, rfl, hmet⟩ := hcount count s [] 2 hs h
  exact ⟨hQ, hnumber, hmet⟩

theorem areMet_of_noting {read : Text → Nat → σ → Decoder σ}
    [∀ name length s, Follows 0 (read name length s) (read name length s)] {s s' : σ}
    {visits : List Visit} {c c' : Cursor}
    (h : attributes t (noting read) (s, []) c = .ok ((s', visits), c')) :
    u2 c = .ok (visits.length, c.skip 2) ∧ AreMet t (c.skip 2) visits c' :=
  (areMet_of_attributes (Q := fun _ _ => True) (fun _ _ _ _ _ _ _ _ _ => trivial) trivial h).2

/-- Two passes over the attributes at one place meet the same ones and end at the same place. -/
theorem eq_of_met {c c₁ c₂ : Cursor} {visits visits' : List Visit}
    (hcount : u2 c = .ok (visits.length, c.skip 2)) (h : AreMet t (c.skip 2) visits c₁)
    (hcount' : u2 c = .ok (visits'.length, c.skip 2)) (h' : AreMet t (c.skip 2) visits' c₂) :
    visits = visits' ∧ c₁ = c₂ := by
  refine h.unique h' ?_
  have hsame := hcount.symm.trans hcount'
  injection hsame with hpair
  exact congrArg Prod.fst hpair

/-! ## Members are skipped -/

theorem skipAttributes_of_attributes {read : Text → Nat → σ → Decoder σ}
    [∀ name length s, Follows 0 (read name length s) (read name length s)] {s s' : σ} {c c' : Cursor}
    (h : attributes t read s c = .ok (s', c')) : skipAttributes t c = .ok ((), c') := by
  obtain ⟨visits, hnoted⟩ := map_fst_eq_ok_iff.1
    ((congrFun (map_fst_attributes_noting read (s, [])) c).trans h)
  obtain ⟨hcount, hmet⟩ := areMet_of_noting hnoted
  exact bind_eq_ok_iff.2 ⟨_, _, hcount, hmet.skipCount⟩

/-- A member that has been read can be skipped: its head has six bytes. -/
theorem skip_of_readMember {o : MemberOutline} {c c' : Cursor}
    (h : Outline.readMember t c = .ok (o, c')) :
    (do
      skip 6
      skipAttributes t : Decoder Unit) c = .ok ((), c') := by
  obtain ⟨access, _, haccess, h⟩ := bind_eq_ok_iff.1 h
  obtain rfl := skip_of_unsigned haccess
  obtain ⟨i, _, hi, h⟩ := bind_eq_ok_iff.1 h
  obtain rfl := skip_of_unsigned hi
  obtain ⟨name, _, hname, h⟩ := bind_eq_ok_iff.1 h
  obtain rfl := Table.eq_of_utf8 hname
  obtain ⟨j, _, hj, h⟩ := bind_eq_ok_iff.1 h
  obtain rfl := skip_of_unsigned hj
  obtain ⟨descriptor, _, hdescriptor, h⟩ := bind_eq_ok_iff.1 h
  obtain rfl := Table.eq_of_utf8 hdescriptor
  obtain ⟨as, _, has, h⟩ := bind_eq_ok_iff.1 h
  cases h
  simp only [Cursor.skip_skip] at has
  exact bind_eq_ok_iff.2 ⟨(), c.skip 6, rfl, skipAttributes_of_attributes has⟩

/-- Members that have been read can be skipped, and the bootstrap table is not needed for that. -/
theorem skipMembers_of_listOf {α : Type} {read : Decoder α} (found : Array Bootstrap)
    (hread : ∀ c c' a, read c = .ok (a, c') → ∃ o, Outline.readMember t c = .ok (o, c')) {as : List α}
    {c c' : Cursor} (h : listOf read c = .ok (as, c')) :
    skipMembers ⟨t.entries, found⟩ c = .ok ((), c') := by
  have hskip (c c' : Cursor) (a : α) (ha : read c = .ok (a, c')) : ∃ u, (do
      skip 6
      skipAttributes ⟨t.entries, found⟩ : Decoder Unit) c = .ok (u, c') ∧ True := by
    obtain ⟨o, ho⟩ := hread c c' a ha
    obtain ⟨entries, bootstrap⟩ := t
    rw [readMember_eq, ← readMember_eq entries found] at ho
    exact ⟨(), skip_of_readMember ho, trivial⟩
  obtain ⟨us, hus, -⟩ := exists_of_listOf (R := fun _ _ => True) hskip h
  exact bind_eq_ok_iff.2 ⟨us, c', hus, rfl⟩

/-- The look-ahead comes to the attributes of a class where reading comes to them. -/
theorem skipToAttributes_of_readToAttributes {version : Nat × Nat} {head : Class} {c c' : Cursor}
    (found : Array Bootstrap) (h : readToAttributes t version c = .ok (head, c')) :
    skipToAttributes ⟨t.entries, found⟩ c = .ok ((), c') := by
  obtain ⟨access, _, haccess, h⟩ := bind_eq_ok_iff.1 h
  obtain rfl := skip_of_unsigned haccess
  obtain ⟨name, _, hname, h⟩ := bind_eq_ok_iff.1 h
  obtain rfl := skip_of_readClassName hname
  obtain ⟨i, _, hi, h⟩ := bind_eq_ok_iff.1 h
  obtain rfl := skip_of_unsigned hi
  obtain ⟨super, _, hsuper, h⟩ := bind_eq_ok_iff.1 h
  obtain rfl := Table.eq_of_className hsuper
  obtain ⟨interfaces, _, hinterfaces, h⟩ := bind_eq_ok_iff.1 h
  obtain ⟨count, hcount, rfl⟩ := skip_of_listOf (fun _ _ _ => skip_of_readInterface) hinterfaces
  obtain ⟨fields, _, hfields, h⟩ := bind_eq_ok_iff.1 h
  obtain ⟨methods, _, hmethods, h⟩ := bind_eq_ok_iff.1 h
  cases h
  have hskipFields := skipMembers_of_listOf found
    (fun _ _ _ h => (exists_of_readField h).imp fun _ h => h.1) hfields
  have hskipMethods := skipMembers_of_listOf found
    (fun _ _ _ h => (exists_of_readMethod h).imp fun _ h => h.1) hmethods
  have hsix : ((c.skip 2).skip 2).skip 2 = c.skip 6 := by simp only [Cursor.skip_skip]
  rw [hsix] at hcount hskipFields
  refine bind_eq_ok_iff.2 ⟨(), c.skip 6, rfl, bind_eq_ok_iff.2 ⟨count, _, hcount, ?_⟩⟩
  refine bind_eq_ok_iff.2 ⟨(), _, rfl, bind_eq_ok_iff.2 ⟨(), _, hskipFields, hskipMethods⟩⟩

/-! ## What is made of the attributes -/

variable {file : Bytes}

/-- Collecting passes over an attribute, and over one of its name with a table in it. -/
theorem exists_of_collect {name : Text} {length : Nat} {found found' : List (List Bootstrap)}
    {c c' : Cursor} (h : collect name length found c = .ok (found', c')) :
    c' = c.skip length ∧ ∃ table, found' = table :: found ∧
      if name = AttributeName.bootstrapMethods then ∃ k, listOf readBootstrap c = .ok (table, k)
      else table = [] := by
  obtain ⟨_, _, ⟨⟩, h⟩ := bind_eq_ok_iff.1 h
  split at h
  · next hname =>
    obtain ⟨table, k, htable, h⟩ := bind_eq_ok_iff.1 h
    cases h
    exact ⟨rfl, table, rfl, by rw [if_pos hname]; exact ⟨k, htable⟩⟩
  · next hname =>
    cases h
    exact ⟨rfl, [], rfl, by rw [if_neg hname]⟩

instance follows_collect (name : Text) (length : Nat) (found : List (List Bootstrap)) :
    Follows 0 (collect name length found) (collect name length found) where
  follows h := ⟨length, (exists_of_collect h).1, fun hlt => absurd hlt (Nat.not_lt_zero length)⟩

/-- The look-ahead collects the tables of the attributes that have their name, in order, each read
from where its attribute starts. -/
theorem exists_tables_of_collect {c c' : Cursor} (hc : c.IsIn file) {found : List (List Bootstrap)}
    {visits : List Visit} (h : attributes t (noting collect) ([], []) c = .ok ((found, visits), c')) :
    ∃ tables, List.Forall₂ (Visit.HoldsTable file)
      (visits.filter fun v => v.name = AttributeName.bootstrapMethods) tables ∧
        found.reverse.flatten = tables.flatten := by
  refine (areMet_of_attributes (Q := fun found visits => ∃ tables, List.Forall₂ (Visit.HoldsTable file)
    (visits.filter fun v => v.name = AttributeName.bootstrapMethods) tables ∧
      found.reverse.flatten = tables.flatten) ?_ ⟨[], .nil, rfl⟩ h).1
  rintro name length found found' met n - ⟨tables, hall, hflat⟩ h
  obtain ⟨-, table, rfl, htable⟩ := exists_of_collect h
  rw [List.filter_append, List.reverse_cons, List.flatten_append, hflat]
  split at htable
  · next hname =>
    obtain ⟨k, htable⟩ := htable
    rw [(hc.skip n).eq] at htable
    refine ⟨tables ++ [table], List.rel_append hall ?_, by simp⟩
    rw [List.filter_eq_self.2 (by simpa using hname)]
    exact .cons ⟨k, htable⟩ .nil
  · next hname =>
    refine ⟨tables, ?_, by simp [htable]⟩
    rw [List.filter_eq_nil_iff.2 (show ∀ v ∈ [_], _ by simpa using hname), List.append_nil]
    exact hall

/-- The parts of a class file have the attributes that are met, as their bytes. -/
theorem exists_of_readAttributes {as : List Attribute} {c c' : Cursor} (hc : c.IsIn file)
    (h : Outline.readAttributes t c = .ok (as, c')) : ∃ visits : List Visit,
      as = visits.map (Visit.toAttribute file) ∧ u2 c = .ok (visits.length, c.skip 2) ∧
        AreMet t (c.skip 2) visits c' := by
  obtain ⟨visits, hnoted⟩ := map_fst_eq_ok_iff.1
    ((congrFun (map_fst_attributes_noting _ ([], [])) c).trans h)
  refine ⟨visits, areMet_of_attributes (Q := fun as visits => as = visits.map (Visit.toAttribute file))
    ?_ rfl hnoted⟩
  rintro name length as as' met n hroom rfl h
  obtain ⟨data, _, hdata, h⟩ := bind_eq_ok_iff.1 h
  cases (bytes_eq_ok hroom).symm.trans hdata
  cases h
  rw [(hc.skip n).eq]
  simp [Visit.toAttribute]

/-! ## Call sites -/

namespace Table

/-- At a place stands a call site: the index behind its code is that of an entry with a name and a
descriptor and the number of a bootstrap method in the table, whose handle and arguments it has. -/
inductive Resolves (t : Table) (c : Cursor) : Text → Text → Handle → List (Text × Constant) → Prop
  | site {i number member n d : Nat} {code : UInt8} {method : Bootstrap} {name descriptor : Text}
      {handle : Handle} {arguments : List (Text × Constant)}
      (hcode : byte c = .ok (code, c.skip 1)) (hop : Opcode.ofCode? code.toNat = some .invokedynamic)
      (hindex : u2 (c.skip 1) = .ok (i, c.skip 3))
      (hentry : t.entry i (c.skip 3) = .ok (.invokeDynamic number member, c.skip 3))
      (hmethod : t.bootstrap[number]? = some method)
      (hmember : t.nameAndType member (c.skip 5) = .ok ((n, d), c.skip 5))
      (hname : t.utf8 n (c.skip 5) = .ok (name, c.skip 5))
      (hdescriptor : t.utf8 d (c.skip 5) = .ok (descriptor, c.skip 5))
      (hhandle : t.handle method.handle (c.skip 5) = .ok (handle, c.skip 5))
      (harguments : method.arguments.mapM t.constant (c.skip 5) = .ok (arguments, c.skip 5)) :
      Resolves t c name descriptor handle arguments

end Table

/-- The instruction is anything but a call site. -/
def IsNoCallSite : Instruction Int → Prop
  | .callSite _ _ _ _ => False
  | _ => True

/-- Operands of other families are not those of a call site. -/
theorem finds_family_readOperands (ht : t.IsReadable) {op : Opcode} (hop : op.family ≠ .callSite)
    (offset start : Nat) : Finds (readOperands t op offset start) IsNoCallSite := by
  have hconstant (i : Nat) : Finds (do return .constant op (← t.constant i).2)
      IsNoCallSite := (finds_constant ht i).map fun _ _ => trivial
  unfold readOperands
  cases hfamily : op.family with
  | plain => exact .pure trivial
  | widening =>
    refine Finds.byte.any_bind fun code => ?_
    split
    · exact Finds.u2_bind fun _ _ => (Finds.signed 1).map fun _ _ => trivial
    · exact Finds.ite (fun _ => Finds.u2.map fun _ _ => trivial) fun _ => .refuse _ _
    · exact .refuse _ _
  | immediate =>
    cases op with
    | bipush => exact (Finds.signed 0).map fun _ _ => trivial
    | sipush => exact (Finds.signed 1).map fun _ _ => trivial
    | _ => exact Finds.u1.map fun _ _ => trivial
  | constant =>
    exact Finds.ite (fun _ => Finds.u1.bind fun i _ => hconstant i)
      fun _ => Finds.u2_bind fun i _ => hconstant i
  | «variable» => exact Finds.u1.map fun _ _ => trivial
  | increment => exact Finds.u1.bind fun _ _ => (Finds.signed 0).map fun _ _ => trivial
  | jump =>
    have hdistance : Finds (signed (if op.isFar then 4 else 2)) fun _ => True := by
      split
      · exact (Finds.signed 3).imp fun _ _ => trivial
      · exact (Finds.signed 1).imp fun _ _ => trivial
    exact hdistance.map fun _ _ => trivial
  | tableSwitch =>
    refine (finds_readTableSwitch offset start).imp ?_
    rintro _ ⟨low, high, otherwise, targets, rfl, -⟩
    trivial
  | lookupSwitch =>
    refine (finds_readLookupSwitch offset start).imp ?_
    rintro _ ⟨otherwise, keys, targets, rfl, -⟩
    trivial
  | field => exact Finds.u2_bind fun i _ => (finds_member i).map fun _ _ => trivial
  | method =>
    refine Finds.u2_bind fun i _ => (finds_member i).any_bind fun m => ?_
    exact Finds.ite (fun _ => (Finds.skip 2).any_bind fun _ => .pure trivial) fun _ => .pure trivial
  | callSite => exact absurd hfamily hop
  | type => exact Finds.u2_bind fun i _ => (finds_className i).map fun _ _ => trivial
  | multiArray =>
    exact Finds.u2_bind fun i _ => (finds_className i).any_bind fun _ => Finds.u1.map fun _ _ => trivial

theorem skip_of_byte {code : UInt8} {c c' : Cursor} (h : byte c = .ok (code, c')) : c' = c.skip 1 := by
  obtain ⟨n, _, hn, hcode⟩ := bind_eq_ok_iff.1 h
  obtain rfl := skip_of_unsigned hn
  cases hcode
  rfl

section Site

variable {name descriptor : Text} {handle : Handle} {arguments : List (Text × Constant)} {c c' : Cursor}

/-- What is read behind the code of a call site resolves it. -/
theorem resolves_of_readCallSite {code : UInt8} {start : Nat} (hcode : byte c = .ok (code, c.skip 1))
    (hop : Opcode.ofCode? code.toNat = some .invokedynamic)
    (h : readCallSite t start (c.skip 1) = .ok (.callSite name descriptor handle arguments, c')) :
    t.Resolves c name descriptor handle arguments := by
  obtain ⟨i, _, hi, h⟩ := bind_eq_ok_iff.1 h
  obtain rfl := skip_of_unsigned hi
  obtain ⟨e, _, he, h⟩ := bind_eq_ok_iff.1 h
  obtain rfl := Table.eq_of_entry he
  cases e <;> try cases h
  next number member =>
  obtain ⟨_, _, ⟨⟩, h⟩ := bind_eq_ok_iff.1 h
  obtain ⟨⟨n, d⟩, _, hmember, h⟩ := bind_eq_ok_iff.1 h
  obtain rfl := Table.eq_of_nameAndType hmember
  cases hmethod : t.bootstrap[number]? with
  | none =>
    rw [hmethod] at h
    cases h
  | some method =>
    rw [hmethod] at h
    obtain ⟨_, _, hname, h⟩ := bind_eq_ok_iff.1 h
    obtain rfl := Table.eq_of_utf8 hname
    obtain ⟨_, _, hdescriptor, h⟩ := bind_eq_ok_iff.1 h
    obtain rfl := Table.eq_of_utf8 hdescriptor
    obtain ⟨_, _, hhandle, h⟩ := bind_eq_ok_iff.1 h
    obtain rfl := Table.eq_of_handle hhandle
    obtain ⟨_, _, harguments, h⟩ := bind_eq_ok_iff.1 h
    obtain rfl := eq_of_mapM (fun _ _ _ _ => Table.eq_of_constant) harguments
    cases h
    simp only [Cursor.skip_skip] at hi he hmember hname hdescriptor hhandle harguments
    exact .site hcode hop hi he hmethod hmember hname hdescriptor hhandle harguments

/-- A call site that has been read is resolved. -/
theorem resolves_of_readInstruction (ht : t.IsReadable) {offset : Nat}
    (h : readInstruction t offset c = .ok (.callSite name descriptor handle arguments, c')) :
    t.Resolves c name descriptor handle arguments := by
  obtain ⟨start, _, ⟨⟩, h⟩ := bind_eq_ok_iff.1 h
  obtain ⟨code, _, hcode, h⟩ := bind_eq_ok_iff.1 h
  obtain rfl := skip_of_byte hcode
  cases hop : Opcode.ofCode? code.toNat with
  | none =>
    rw [hop] at h
    cases h
  | some op =>
    rw [hop] at h
    by_cases hfamily : op.family = .callSite
    · obtain rfl : op = .invokedynamic := by revert hfamily; cases op <;> decide
      exact resolves_of_readCallSite hcode hop h
    · exact ((finds_family_readOperands ht hfamily offset c.position).of_eq_ok h).2.elim

end Site

/-- The call sites of a method stand in the file that the method is read from. -/
theorem IsReadFrom.exists_resolves (ht : t.IsReadable) {m : Method} (h : IsReadFrom file t m)
    {name descriptor : Text} {handle : Handle} {arguments : List (Text × Constant)}
    (hsite : .instruction (.callSite name descriptor handle arguments) ∈ m.body) :
    ∃ position, t.Resolves ⟨position, file.drop position⟩ name descriptor handle arguments := by
  rcases h with ⟨hempty, -, -⟩ | ⟨r, ⟨start, c, hr⟩, seen, hplaces⟩
  · rw [hempty] at hsite
    cases hsite
  · obtain ⟨p, hp, hmatches⟩ := hplaces.body.exists_matches hsite
    obtain ⟨k, hcode⟩ := ((readRawCode_eq_ok_iff t).1 hr).instructions
    obtain ⟨k', hinstruction⟩ := exists_of_mem_readOperations t hcode hp
    generalize p.2 = i at hmatches hinstruction
    cases hmatches
    have hsite := resolves_of_readInstruction ht hinstruction
    simp only [Cursor.skip_skip] at hsite
    have hplace := ((Cursor.isIn_drop file start).skip (2 + 2 + 4 + p.1)).eq
    rw [hplace] at hsite
    exact ⟨_, hsite⟩

/-! ## Class files -/

/-- What a look-ahead has found is in the table. -/
theorem exists_of_readTable {c c' : Cursor} (h : readTable c = .ok (t, c')) :
    ∃ found k, scanBootstrap ⟨t.entries, #[]⟩ c' = .ok (found, k) ∧ t.bootstrap.toList = found := by
  obtain ⟨entries, c₁, hentries, h⟩ := bind_eq_ok_iff.1 h
  obtain ⟨_, _, ⟨⟩, h⟩ := bind_eq_ok_iff.1 h
  obtain ⟨found, c₂, hahead, h⟩ := bind_eq_ok_iff.1 h
  cases h
  obtain ⟨rfl, k, hfound⟩ := elsewhere_eq_ok_iff.1 hahead
  exact ⟨found, k, hfound, List.toList_toArray⟩

instance stays_readToAttributes (version : Nat × Nat) : Stays (readToAttributes t version) := by
  unfold readToAttributes
  infer_instance

/-- Up to its attributes a class has the table that it is read with, and the methods. -/
theorem yields_readToAttributes (ht : t.IsReadable) (version : Nat × Nat) :
    Yields file (readToAttributes t version) fun head =>
      head.layout.bootstrap = t.bootstrap.toList ∧ ∀ m ∈ head.methods, IsReadFrom file t m := by
  refine .any_bind fun access => .any_bind fun name => .any_bind fun i => .any_bind fun super => ?_
  refine .any_bind fun interfaces => .any_bind fun fields => ?_
  exact .bind (.listOf (yields_readMethod ht)) fun methods hmethods => .pure ⟨rfl, hmethods⟩

/-- A class file is its version, its table, the class up to its attributes, and the attributes. -/
theorem exists_of_readNoting {bytes : Bytes} {c : Class} {visits : List Visit} {stop : Cursor}
    (h : readNoting ⟨0, bytes⟩ = .ok ((c, visits), stop)) : ∃ version t start head k,
      readTable ((⟨0, bytes⟩ : Cursor).skip 8) = .ok (t, start) ∧
      readToAttributes t version start = .ok (head, k) ∧
      attributes t (noting (readClassAttribute t)) (head, []) k = .ok ((c, visits), stop) := by
  obtain ⟨version, _, hversion, h⟩ := bind_eq_ok_iff.1 h
  obtain rfl := skip_of_readVersion hversion
  obtain ⟨t, start, htable, h⟩ := bind_eq_ok_iff.1 h
  obtain ⟨head, k, hhead, h⟩ := bind_eq_ok_iff.1 h
  obtain ⟨⟨_, _⟩, _, hattributes, h⟩ := bind_eq_ok_iff.1 h
  obtain ⟨_, _, ⟨⟩, h⟩ := bind_eq_ok_iff.1 h
  split at h
  · cases h
    exact ⟨version, t, start, head, k, htable, hhead, hattributes⟩
  · obtain ⟨_, _, hrefuse, -⟩ := bind_eq_ok_iff.1 h
    cases hrefuse

section Agree

variable {c start k stop : Cursor} {version : Nat × Nat} {head : Class}
    {read : Text → Nat → σ → Decoder σ}
  [∀ name length s, Follows 0 (read name length s) (read name length s)] {s s' : σ} {visits : List Visit}

/-- The look-ahead meets the attributes that reading meets, and collects the tables among them. -/
theorem scanNoting_of_readToAttributes (hk : k.IsIn file) (htable : readTable c = .ok (t, start))
    (hhead : readToAttributes t version start = .ok (head, k))
    (hattributes : attributes t (noting read) (s, []) k = .ok ((s', visits), stop)) :
    scanNoting ⟨t.entries, #[]⟩ start = .ok ((t.bootstrap.toList, visits), stop) ∧
      ∃ tables, List.Forall₂ (Visit.HoldsTable file)
        (visits.filter fun v => v.name = AttributeName.bootstrapMethods) tables ∧
          t.bootstrap.toList = tables.flatten := by
  obtain ⟨found, stop', hscan, hfound⟩ := exists_of_readTable htable
  obtain ⟨visits', hnoted⟩ := map_fst_eq_ok_iff.1 ((congrFun map_fst_scanNoting _).trans hscan)
  obtain ⟨_, _, hskip, hrest⟩ := bind_eq_ok_iff.1 hnoted
  cases (skipToAttributes_of_readToAttributes #[] hhead).symm.trans hskip
  obtain ⟨⟨tables, _⟩, _, hcollected, hrest⟩ := bind_eq_ok_iff.1 hrest
  cases hrest
  -- both stand before the same attributes
  obtain ⟨hcount, hmet⟩ := areMet_of_noting hattributes
  obtain ⟨hcount', hmet'⟩ := areMet_of_noting hcollected
  obtain ⟨rfl, rfl⟩ := eq_of_met hcount hmet hcount' hmet'.of_entries
  obtain ⟨tables, htables, hflat⟩ := exists_tables_of_collect hk hcollected
  exact ⟨hfound ▸ hnoted, tables, htables, hfound.trans hflat⟩

/-- The attributes that reading meets are those that the parts of the class file have. -/
theorem attributes_of_outline {bytes : Bytes} {o : Outline} (hk : k.IsIn bytes)
    (ho : Outline.ofBytes bytes = .ok o)
    (hpool : Table.readPool ((⟨0, bytes⟩ : Cursor).skip 8) = .ok (t.entries, start))
    (hhead : readToAttributes t version start = .ok (head, k))
    (hattributes : attributes t (noting read) (s, []) k = .ok ((s', visits), stop)) :
    o.attributes = visits.map (Visit.toAttribute bytes) := by
  obtain ⟨_, h, -⟩ := whole_eq_ok_iff.1 ho
  obtain ⟨_, _, ⟨⟩, h⟩ := bind_eq_ok_iff.1 h
  obtain ⟨_, _, hentries, h⟩ := bind_eq_ok_iff.1 h
  cases hpool.symm.trans hentries
  obtain ⟨_, _, ⟨⟩, h⟩ := bind_eq_ok_iff.1 h
  obtain ⟨count, _, hcount, h⟩ := bind_eq_ok_iff.1 h
  obtain ⟨_, _, ⟨⟩, h⟩ := bind_eq_ok_iff.1 h
  obtain ⟨fs, k₁, hfs, h⟩ := bind_eq_ok_iff.1 h
  obtain ⟨ms, k₂, hms, h⟩ := bind_eq_ok_iff.1 h
  obtain ⟨as, k₃, has, h⟩ := bind_eq_ok_iff.1 h
  cases h
  -- members that can be found can be skipped, so this is where reading comes to the attributes
  have hskip : skipToAttributes ⟨t.entries, #[]⟩ start = .ok ((), k₂) := by
    refine bind_eq_ok_iff.2 ⟨(), _, rfl, bind_eq_ok_iff.2 ⟨count, _, hcount, ?_⟩⟩
    refine bind_eq_ok_iff.2 ⟨(), _, rfl, bind_eq_ok_iff.2 ⟨(), k₁, ?_, ?_⟩⟩
    · exact skipMembers_of_listOf (t := ⟨t.entries, #[]⟩) #[] (fun _ _ o h => ⟨o, h⟩) hfs
    · exact skipMembers_of_listOf (t := ⟨t.entries, #[]⟩) #[] (fun _ _ o h => ⟨o, h⟩) hms
  cases (skipToAttributes_of_readToAttributes #[] hhead).symm.trans hskip
  obtain ⟨visits', rfl, hcount', hmet'⟩ := exists_of_readAttributes hk has
  obtain ⟨hcount, hmet⟩ := areMet_of_noting hattributes
  obtain ⟨rfl, -⟩ := eq_of_met hcount hmet hcount' hmet'.of_entries
  rfl

end Agree

end Decoding

/-- The bootstrap table of a class is looked for behind the pool and found where it stands. -/
structure Class.IsLookedAhead (bytes : Bytes) (c : Class) (t : Table) (start stop : Cursor)
    (visits : List Visit) : Prop where
  /-- The constant pool stands right behind the version. -/
  pool : Table.readPool ((⟨0, bytes⟩ : Cursor).skip 8) = .ok (t.entries, start)
  /-- The look-ahead begins behind the pool and finds the bootstrap methods of the table. -/
  scan : scanBootstrap ⟨t.entries, #[]⟩ start = .ok (t.bootstrap.toList, stop)
  /-- On its way the look-ahead meets the visits, each at its position and in this order. -/
  ahead : scanNoting ⟨t.entries, #[]⟩ start = .ok ((t.bootstrap.toList, visits), stop)
  /-- The look-ahead consumes nothing: reading goes on right behind the pool, where it has begun. -/
  table : readTable ((⟨0, bytes⟩ : Cursor).skip 8) = .ok (t, start)
  /-- Reading the class meets the same visits as the look-ahead, and stops where it has stopped. -/
  main : readNoting ⟨0, bytes⟩ = .ok ((c, visits), stop)
  /-- The visits are the attributes of the class file, each with its name and its bytes. -/
  attributes : ∃ o, Outline.ofBytes bytes = .ok o ∧ o.attributes = visits.map (Visit.toAttribute bytes)
  /-- The layout of the class keeps the bootstrap methods of the table. -/
  layout : c.layout.bootstrap = t.bootstrap.toList
  /-- The bootstrap methods of the table are those of all bootstrap tables among the visits, one
  behind the other. -/
  tables : ∃ tables, List.Forall₂ (Visit.HoldsTable bytes)
    (visits.filter fun v => v.name = AttributeName.bootstrapMethods) tables ∧
      t.bootstrap.toList = tables.flatten
  /-- Every call site of the class is what the table resolves the index in its instruction to. -/
  sites : ∀ m ∈ c.methods, ∀ name descriptor handle arguments,
    .instruction (.callSite name descriptor handle arguments) ∈ m.body →
      ∃ position, t.Resolves ⟨position, bytes.drop position⟩ name descriptor handle arguments

/-- For every class file that is accepted the look-ahead agrees with reading. Both passes are
repeated with notes of the attributes that they meet. Without the notes they are the passes of the
reader, so it is the same bytes that were skipped at first and read later: the look-ahead met the
attributes of the class at the same positions, and the bootstrap table of the class is made up of
what it found there. -/
theorem Class.exists_isLookedAhead_of_ofBytes {bytes : Bytes} {c : Class} (h : ofBytes bytes = .ok c) :
    ∃ t start stop visits, IsLookedAhead bytes c t start stop visits := by
  obtain ⟨o, ho, -⟩ := exists_isReadAs_of_ofBytes h
  unfold ofBytes StateT.run at h
  split at h
  · next found stop hrun =>
    cases h
    obtain ⟨visits, hmain⟩ := map_fst_eq_ok_iff.1 ((congrFun map_fst_readNoting _).trans hrun)
    obtain ⟨version, t, start, head, k, htable, hhead, hattributes⟩ := exists_of_readNoting hmain
    have hpool := readPool_of_readTable htable
    have ht := (finds_readTable.of_eq_ok htable).2
    have hstart := Stays.isIn ((Cursor.isIn_drop bytes 0).skip 8) htable
    have hk := Stays.isIn hstart hhead
    obtain ⟨hahead, htables⟩ := scanNoting_of_readToAttributes hk htable hhead hattributes
    -- what was known of the class before its attributes still holds behind them
    obtain ⟨hlayout, hmethods⟩ := yields_readToAttributes ht version _ _ _ hstart hhead
    have hsame := sameHead_of_attributes
      ((congrFun (map_fst_attributes_noting _ _) _).symm.trans (map_fst_eq_ok_iff.2 ⟨_, hattributes⟩))
    refine ⟨t, start, stop, visits, {
      pool := hpool
      scan := (congrFun map_fst_scanNoting _).symm.trans (map_fst_eq_ok_iff.2 ⟨visits, hahead⟩)
      ahead := hahead
      table := htable
      main := hmain
      attributes := ⟨o, ho, attributes_of_outline hk ho hpool hhead hattributes⟩
      layout := hsame.bootstrap.trans hlayout
      tables := htables
      sites := fun m hm name descriptor handle arguments hsite => ?_ }⟩
    exact (hmethods m (hsame.methods ▸ hm)).exists_resolves ht hsite
  · cases h

/-! ## A class with two tables -/

/-- The class file of a class with an interface, a call site, and two bootstrap tables with another
attribute in between. -/
def siteFile : Bytes :=
  [202, 254, 186, 190, 0, 0, 0, 52, 0, 11, 1, 0, 1, 65, 7, 0, 1, 1, 0, 1, 102, 1, 0, 3, 40, 41, 86, 1, 0,
    4, 67, 111, 100, 101, 1, 0, 16, 66, 111, 111, 116, 115, 116, 114, 97, 112, 77, 101, 116, 104, 111,
    100, 115, 12, 0, 3, 0, 4, 18, 0, 1, 0, 7, 10, 0, 2, 0, 7, 15, 6, 0, 9, 0, 33, 0, 2, 0, 0, 0, 1, 0, 2,
    0, 0, 0, 1, 0, 9, 0, 3, 0, 4, 0, 1, 0, 5, 0, 0, 0, 18, 0, 0, 0, 0, 0, 0, 0, 6, 186, 0, 8, 0, 0, 177,
    0, 0, 0, 0, 0, 3, 0, 6, 0, 0, 0, 6, 0, 1, 0, 10, 0, 0, 0, 1, 0, 0, 0, 1, 7, 0, 6, 0, 0, 0, 8, 0, 1, 0,
    10, 0, 1, 0, 2]

/-- Its constants, and the bootstrap methods of both tables. -/
def siteTable : Table where
  entries := #[none, some (.utf8 "A"), some (.type 1), some (.utf8 "f"), some (.utf8 "()V"),
    some (.utf8 AttributeName.code), some (.utf8 AttributeName.bootstrapMethods),
    some (.nameAndType 3 4), some (.invokeDynamic 1 7), some (.methodref 2 7), some (.methodHandle 6 9)]
  bootstrap := #[⟨10, []⟩, ⟨10, [2]⟩]

/-- The call site: it has the second of the bootstrap methods. -/
def siteCall (τ : Type) : Instruction τ :=
  .callSite "f" "()V" ⟨6, some "A", "f", "()V", false⟩ [("reference", .reference "A")]

/-- The code with the call site. -/
def siteCode : RawCode where
  maxima := ⟨0, 0⟩
  start := 108
  length := 6
  handlers := []
  instructions := [(0, siteCall Int), (5, .plain .return_)]
  tables := {}

/-- The method with the call site. -/
def siteMethod : Method where
  access := 9
  name := "f"
  descriptor := "()V"
  maxima := some ⟨0, 0⟩
  body := [.instruction (siteCall Label), .instruction (.plain .return_)]
  layout := { attributeOrder := [AttributeName.code] }

/-- The class up to its attributes. -/
def siteHead : Class where
  name := "A"
  super := none
  interfaces := [some "A"]
  methods := [siteMethod]
  layout := { pool := siteTable.entries.toList, bootstrap := siteTable.bootstrap.toList }

/-- The class. -/
def siteClass : Class where
  name := "A"
  super := none
  interfaces := [some "A"]
  methods := [siteMethod]
  attributes := [⟨"A", [7]⟩]
  layout := {
    pool := siteTable.entries.toList
    bootstrap := siteTable.bootstrap.toList
    attributeOrder := [AttributeName.bootstrapMethods, "A", AttributeName.bootstrapMethods] }

namespace Decoding

theorem length_siteFile : siteFile.length = 153 := by cbv

theorem isAttributeAt_siteFile (found : Array Bootstrap) :
    IsAttributeAt ⟨siteTable.entries, found⟩ siteFile 120 6 AttributeName.bootstrapMethods ∧
      IsAttributeAt ⟨siteTable.entries, found⟩ siteFile 132 1 "A" ∧
      IsAttributeAt ⟨siteTable.entries, found⟩ siteFile 139 8 AttributeName.bootstrapMethods :=
  ⟨⟨⟨6, by cbv, rfl⟩, by cbv, by simp [length_siteFile]⟩,
    ⟨⟨1, by cbv, rfl⟩, by cbv, by simp [length_siteFile]⟩,
    ⟨⟨6, by cbv, rfl⟩, by cbv, by simp [length_siteFile]⟩⟩

/-- The bootstrap methods are found behind the method. -/
theorem readTable_siteFile :
    readTable ⟨8, siteFile.drop 8⟩ = .ok (siteTable, ⟨72, siteFile.drop 72⟩) := by
  obtain ⟨hfirst, hsecond, hthird⟩ := isAttributeAt_siteFile #[]
  have hone : listOf readBootstrap ⟨126, siteFile.drop 126⟩ =
      .ok ([⟨10, []⟩], ⟨132, siteFile.drop 132⟩) := by cbv
  have htwo : listOf readBootstrap ⟨145, siteFile.drop 145⟩ =
      .ok ([⟨10, [2]⟩], ⟨153, siteFile.drop 153⟩) := by cbv
  suffices hscan : scanBootstrap ⟨siteTable.entries, #[]⟩ ⟨72, siteFile.drop 72⟩ =
      .ok ([⟨10, []⟩, ⟨10, [2]⟩], ⟨153, siteFile.drop 153⟩) from readTable_eq_ok (by cbv) hscan
  refine bind_eq_ok_iff.2 ⟨(), ⟨78, siteFile.drop 78⟩, rfl, ?_⟩
  refine bind_eq_ok_iff.2 ⟨1, ⟨80, siteFile.drop 80⟩, by cbv, ?_⟩
  refine bind_eq_ok_iff.2 ⟨(), ⟨82, siteFile.drop 82⟩, rfl, ?_⟩
  refine bind_eq_ok_iff.2 ⟨(), ⟨84, siteFile.drop 84⟩, by cbv, ?_⟩
  refine bind_eq_ok_iff.2 ⟨(), ⟨118, siteFile.drop 118⟩, by cbv, ?_⟩
  refine bind_eq_ok_iff.2 ⟨[[⟨10, [2]⟩], [], [⟨10, []⟩]], ⟨153, siteFile.drop 153⟩, ?_, rfl⟩
  refine bind_eq_ok_iff.2 ⟨3, ⟨120, siteFile.drop 120⟩, by cbv, ?_⟩
  refine bind_eq_ok_iff.2 ⟨[[⟨10, []⟩]], ⟨132, siteFile.drop 132⟩, hfirst.attribute_eq_ok ?_, ?_⟩
  · exact bind_eq_ok_iff.2 ⟨_, _, rfl, bind_eq_ok_iff.2 ⟨_, _, hone, rfl⟩⟩
  refine bind_eq_ok_iff.2 ⟨[[], [⟨10, []⟩]], ⟨139, siteFile.drop 139⟩,
    hsecond.scan_eq_ok (by decide) _, ?_⟩
  refine bind_eq_ok_iff.2 ⟨_, ⟨153, siteFile.drop 153⟩, hthird.attribute_eq_ok ?_, rfl⟩
  exact bind_eq_ok_iff.2 ⟨_, _, rfl, bind_eq_ok_iff.2 ⟨_, _, htwo, rfl⟩⟩

theorem readOperations_siteFile : readOperations siteTable 6 ⟨108, siteFile.drop 108⟩ =
    .ok (siteCode.instructions, ⟨114, siteFile.drop 114⟩) := rfl

theorem readRawCode_siteFile :
    readRawCode siteTable ⟨100, siteFile.drop 100⟩ = .ok (siteCode, ⟨118, siteFile.drop 118⟩) := by
  refine (readRawCode_eq_ok_iff siteTable).2 {
    maxima := ⟨0, 0, by cbv, by cbv, rfl⟩
    length := by cbv
    start := rfl
    enough := by cbv
    instructions := ⟨_, readOperations_siteFile⟩
    tables := ⟨⟨116, siteFile.drop 116⟩, by cbv, by cbv⟩ }

theorem readMethod_siteFile : readMethod siteTable ⟨86, siteFile.drop 86⟩ =
    .ok (siteMethod, ⟨118, siteFile.drop 118⟩) := by
  have harguments : Descriptor.arguments "()V" = .ok [] := by cbv
  have hcode : readCode siteTable { place := "f" ++ "()V" } ⟨100, siteFile.drop 100⟩ =
      .ok (⟨⟨0, 0⟩, siteMethod.body, [], [], [], [], []⟩, ⟨118, siteFile.drop 118⟩) :=
    bind_eq_ok_iff.2 ⟨siteCode, _, readRawCode_siteFile, by cbv⟩
  have hattribute : IsAttributeAt siteTable siteFile 94 18 AttributeName.code :=
    ⟨⟨5, by cbv, rfl⟩, by cbv, by simp [length_siteFile]⟩
  refine bind_eq_ok_iff.2 ⟨9, ⟨88, siteFile.drop 88⟩, by cbv, ?_⟩
  refine bind_eq_ok_iff.2 ⟨3, ⟨90, siteFile.drop 90⟩, by cbv, ?_⟩
  refine bind_eq_ok_iff.2 ⟨"f", ⟨90, siteFile.drop 90⟩, by cbv, ?_⟩
  refine bind_eq_ok_iff.2 ⟨4, ⟨92, siteFile.drop 92⟩, by cbv, ?_⟩
  refine bind_eq_ok_iff.2 ⟨"()V", ⟨92, siteFile.drop 92⟩, by cbv, ?_⟩
  rw [harguments]
  refine bind_eq_ok_iff.2 ⟨1, ⟨94, siteFile.drop 94⟩, by cbv, ?_⟩
  refine bind_eq_ok_iff.2 ⟨siteMethod, ⟨118, siteFile.drop 118⟩, hattribute.attribute_eq_ok ?_, rfl⟩
  unfold readMethodAttribute
  rw [if_pos rfl]
  exact bind_eq_ok_iff.2 ⟨_, _, hcode, rfl⟩

theorem attributes_siteFile : attributes siteTable (readClassAttribute siteTable) siteHead
    ⟨118, siteFile.drop 118⟩ = .ok (siteClass, ⟨153, siteFile.drop 153⟩) := by
  obtain ⟨hfirst, hsecond, hthird⟩ := isAttributeAt_siteFile siteTable.bootstrap
  let one := siteHead.noting AttributeName.bootstrapMethods
  let two := { one.noting "A" with attributes := [⟨"A", [7]⟩] }
  refine bind_eq_ok_iff.2 ⟨3, ⟨120, siteFile.drop 120⟩, by cbv, ?_⟩
  refine bind_eq_ok_iff.2 ⟨one, ⟨132, siteFile.drop 132⟩, hfirst.attribute_eq_ok ?_, ?_⟩
  · rw [readClassAttribute_of_lookup _ AttributeName.bootstrapMethods _ rfl]
    exact bind_eq_ok_iff.2 ⟨(), _, rfl, rfl⟩
  refine bind_eq_ok_iff.2 ⟨two, ⟨139, siteFile.drop 139⟩, hsecond.attribute_eq_ok ?_, ?_⟩
  · rw [readClassAttribute_of_notMem 1 _ (by decide)]
    exact bind_eq_ok_iff.2 ⟨[7], _, by cbv, rfl⟩
  refine bind_eq_ok_iff.2 ⟨_, ⟨153, siteFile.drop 153⟩, hthird.attribute_eq_ok ?_, rfl⟩
  rw [readClassAttribute_of_lookup _ AttributeName.bootstrapMethods _ rfl]
  exact bind_eq_ok_iff.2 ⟨(), _, rfl, rfl⟩

end Decoding

theorem Class.ofBytes_siteFile : ofBytes siteFile = .ok siteClass := by
  have hread : readClassFile ⟨0, siteFile⟩ = .ok (siteClass, ⟨153, []⟩) := by
    unfold readClassFile
    refine bind_eq_ok_iff.2 ⟨(52, 0), ⟨8, siteFile.drop 8⟩, by cbv, ?_⟩
    refine bind_eq_ok_iff.2 ⟨_, _, readTable_siteFile, ?_⟩
    refine bind_eq_ok_iff.2 ⟨0x21, ⟨74, siteFile.drop 74⟩, by cbv, ?_⟩
    refine bind_eq_ok_iff.2 ⟨"A", ⟨76, siteFile.drop 76⟩, by cbv, ?_⟩
    refine bind_eq_ok_iff.2 ⟨0, ⟨78, siteFile.drop 78⟩, by cbv, ?_⟩
    refine bind_eq_ok_iff.2 ⟨none, ⟨78, siteFile.drop 78⟩, by cbv, ?_⟩
    refine bind_eq_ok_iff.2 ⟨[some "A"], ⟨82, siteFile.drop 82⟩, by cbv, ?_⟩
    refine bind_eq_ok_iff.2 ⟨[], ⟨84, siteFile.drop 84⟩, by cbv, ?_⟩
    refine bind_eq_ok_iff.2 ⟨[siteMethod], ⟨118, siteFile.drop 118⟩, ?_, ?_⟩
    · refine bind_eq_ok_iff.2 ⟨1, ⟨86, siteFile.drop 86⟩, by cbv, ?_⟩
      exact bind_eq_ok_iff.2 ⟨siteMethod, _, readMethod_siteFile, rfl⟩
    exact bind_eq_ok_iff.2 ⟨siteClass, _, attributes_siteFile, by cbv⟩
  unfold ofBytes StateT.run
  rw [hread]

/-- The class has the methods of both tables, and its call site has the second of them. -/
theorem Class.isLookedAhead_siteFile : ofBytes siteFile = .ok siteClass ∧
    siteClass.layout.bootstrap = [⟨10, []⟩, ⟨10, [2]⟩] ∧
    .instruction (siteCall Label) ∈ siteMethod.body ∧
    ∃ t start stop visits, IsLookedAhead siteFile siteClass t start stop visits :=
  ⟨ofBytes_siteFile, rfl, List.mem_cons_self .., exists_isLookedAhead_of_ofBytes ofBytes_siteFile⟩

end ClassTree
