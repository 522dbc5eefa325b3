/-
# ClassTree.Proofs.Decoding.ClassFile — the pool of a class that has been read

The layout of a class that has been read holds the constant pool of its class file: the attributes
of the class change other parts of the layout only. So the pool of such a layout is a seed.
-/
import ClassTree.Decoding.ClassFile
import ClassTree.Decoding.Outline
import ClassTree.Proofs.Pool.Seed

namespace ClassTree

open Decoding Decoder

variable {σ : Type} {t : Table}

/-! ## Attributes -/

namespace Decoding

/-- Reading an attribute keeps what reading its content keeps. -/
theorem attribute_invariant {R : σ → Prop} {read : Text → Nat → σ → Decoder σ}
    (hread : ∀ ⦃name length s c s' c'⦄, R s → read name length s c = .ok (s', c') → R s')
    {s s' : σ} {c c' : Cursor} (hs : R s) (h : attribute_ t read s c = .ok (s', c')) : R s' := by
  unfold attribute_ at h
  obtain ⟨i, c₁, -, h⟩ := bind_eq_ok_iff.1 h
  obtain ⟨name, c₂, -, h⟩ := bind_eq_ok_iff.1 h
  obtain ⟨length, c₃, -, h⟩ := bind_eq_ok_iff.1 h
  obtain ⟨start, c₄, -, h⟩ := bind_eq_ok_iff.1 h
  obtain ⟨_, c₅, -, h⟩ := bind_eq_ok_iff.1 h
  obtain ⟨s₁, c₆, hstate, h⟩ := bind_eq_ok_iff.1 h
  obtain ⟨stop, c₇, -, h⟩ := bind_eq_ok_iff.1 h
  split at h
  · cases h
    exact hread hs hstate
  · obtain ⟨_, _, hrefuse, -⟩ := bind_eq_ok_iff.1 h
    cases hrefuse

/-- Reading so many attributes keeps what reading each content keeps. -/
theorem attributeCount_invariant {R : σ → Prop} {read : Text → Nat → σ → Decoder σ}
    (hread : ∀ ⦃name length s c s' c'⦄, R s → read name length s c = .ok (s', c') → R s')
    {count : Nat} {s s' : σ} {c c' : Cursor} (hs : R s)
    (h : attributeCount t read count s c = .ok (s', c')) : R s' := by
  induction count generalizing s c with
  | zero =>
    cases h
    exact hs
  | succ n ih =>
    obtain ⟨middle, _, hstep, hrest⟩ := bind_eq_ok_iff.1 h
    exact ih (attribute_invariant hread hs hstep) hrest

theorem attributes_invariant {R : σ → Prop} {read : Text → Nat → σ → Decoder σ}
    (hread : ∀ ⦃name length s c s' c'⦄, R s → read name length s c = .ok (s', c') → R s')
    {s s' : σ} {c c' : Cursor} (hs : R s) (h : attributes t read s c = .ok (s', c')) : R s' := by
  obtain ⟨count, _, -, hrest⟩ := bind_eq_ok_iff.1 h
  exact attributeCount_invariant hread hs hrest

/-! ## Class attributes -/

/-- A class that differs in what its attributes tell at most. -/
structure SameHead (c c' : Class) : Prop where
  pool : c'.layout.pool = c.layout.pool
  bootstrap : c'.layout.bootstrap = c.layout.bootstrap
  fields : c'.fields = c.fields
  methods : c'.methods = c.methods

/-- The tables and the members of a class do not change as its attributes are read. -/
theorem sameHead_of_readClassAttribute {name : Text} {length : Nat} {c c' : Class} {k k' : Cursor}
    (h : readClassAttribute t name length c k = .ok (c', k')) : SameHead c c' := by
  unfold readClassAttribute at h
  split at h
  · obtain ⟨i, _, -, h⟩ := bind_eq_ok_iff.1 h
    obtain ⟨signature, _, -, h⟩ := bind_eq_ok_iff.1 h
    cases h
    exact ⟨rfl, rfl, rfl, rfl⟩
  split at h
  · obtain ⟨i, _, -, h⟩ := bind_eq_ok_iff.1 h
    obtain ⟨file, _, -, h⟩ := bind_eq_ok_iff.1 h
    cases h
    exact ⟨rfl, rfl, rfl, rfl⟩
  split at h
  · obtain ⟨visible, _, -, h⟩ := bind_eq_ok_iff.1 h
    cases h
    exact ⟨rfl, rfl, rfl, rfl⟩
  split at h
  · obtain ⟨invisible, _, -, h⟩ := bind_eq_ok_iff.1 h
    cases h
    exact ⟨rfl, rfl, rfl, rfl⟩
  split at h
  · obtain ⟨inner, _, -, h⟩ := bind_eq_ok_iff.1 h
    cases h
    exact ⟨rfl, rfl, rfl, rfl⟩
  split at h
  · obtain ⟨enclosing, _, -, h⟩ := bind_eq_ok_iff.1 h
    cases h
    exact ⟨rfl, rfl, rfl, rfl⟩
  split at h
  · obtain ⟨_, _, -, h⟩ := bind_eq_ok_iff.1 h
    cases h
    exact ⟨rfl, rfl, rfl, rfl⟩
  · obtain ⟨data, _, -, h⟩ := bind_eq_ok_iff.1 h
    cases h
    exact ⟨rfl, rfl, rfl, rfl⟩

theorem SameHead.trans {c c' c'' : Class} (h : SameHead c c') (h' : SameHead c' c'') :
    SameHead c c'' where
  pool := h'.pool.trans h.pool
  bootstrap := h'.bootstrap.trans h.bootstrap
  fields := h'.fields.trans h.fields
  methods := h'.methods.trans h.methods

theorem sameHead_of_attributes {c c' : Class} {k k' : Cursor}
    (h : attributes t (readClassAttribute t) c k = .ok (c', k')) : SameHead c c' :=
  attributes_invariant (R := SameHead c) (fun _ _ _ _ _ _ hs h =>
    hs.trans (sameHead_of_readClassAttribute h))
    ⟨rfl, rfl, rfl, rfl⟩ h

/-- A number that has been read lies behind. -/
theorem skip_of_unsigned {width n : Nat} {c c' : Cursor} (h : unsigned width c = .ok (n, c')) :
    c' = c.skip width := by
  obtain ⟨b, c₁, hb, h⟩ := bind_eq_ok_iff.1 h
  cases h
  obtain ⟨_, c₂, hneed, hb⟩ := bind_eq_ok_iff.1 hb
  obtain ⟨here, c₃, hhere, hb⟩ := bind_eq_ok_iff.1 hb
  cases hhere
  cases hb
  have hneed : (if Bytes.hasAtLeast width c.rest = true then Pure.pure PUnit.unit
    else refuse (.unexpectedEnd width) c.position : Decoder PUnit) c = .ok ((), c₂) := hneed
  split at hneed
  · cases hneed
    rfl
  · cases hneed

/-- The magic number and the version take eight bytes. -/
theorem skip_of_readVersion {v : Nat × Nat} {c c' : Cursor} (h : readVersion c = .ok (v, c')) :
    c' = c.skip 8 := by
  obtain ⟨found, c₁, hfound, h⟩ := bind_eq_ok_iff.1 h
  obtain rfl := skip_of_unsigned hfound
  split at h
  · obtain ⟨minor, c₂, hminor, h⟩ := bind_eq_ok_iff.1 h
    obtain rfl := skip_of_unsigned hminor
    obtain ⟨major, c₃, hmajor, h⟩ := bind_eq_ok_iff.1 h
    obtain rfl := skip_of_unsigned hmajor
    split at h
    · cases h
      simp [Cursor.skip]
    · obtain ⟨_, _, hrefuse, -⟩ := bind_eq_ok_iff.1 h
      cases hrefuse
  · obtain ⟨_, _, hrefuse, -⟩ := bind_eq_ok_iff.1 h
    cases hrefuse

/-- The table of a class file holds its pool. -/
theorem readPool_of_readTable {c c' : Cursor} (h : readTable c = .ok (t, c')) :
    Table.readPool c = .ok (t.entries, c') := by
  unfold readTable at h
  obtain ⟨entries, c₁, hentries, h⟩ := bind_eq_ok_iff.1 h
  obtain ⟨_, _, ⟨⟩, h⟩ := bind_eq_ok_iff.1 h
  obtain ⟨bootstrap, c₃, hahead, h⟩ := bind_eq_ok_iff.1 h
  cases h
  obtain ⟨_, _, ⟨⟩, hahead⟩ := bind_eq_ok_iff.1 hahead
  obtain ⟨_, _, ⟨⟩, hahead⟩ := bind_eq_ok_iff.1 hahead
  obtain ⟨_, _, -, hahead⟩ := bind_eq_ok_iff.1 hahead
  cases hahead
  exact hentries

/-- The table is read where its pool is, and where the bootstrap table behind the pool is found. -/
theorem readTable_eq_ok {entries : Array (Option Pool.Entry)} {found : List Bootstrap}
    {c c' c'' : Cursor} (hpool : Table.readPool c = .ok (entries, c'))
    (hscan : scanBootstrap ⟨entries, #[]⟩ c' = .ok (found, c'')) :
    readTable c = .ok (⟨entries, found.toArray⟩, c') := by
  -- the scan leaves the input where it was
  have hahead : elsewhere c' (scanBootstrap ⟨entries, #[]⟩) c' = .ok (found, c') := by
    refine bind_eq_ok_iff.2 ⟨_, _, rfl, bind_eq_ok_iff.2 ⟨_, _, rfl, ?_⟩⟩
    exact bind_eq_ok_iff.2 ⟨found, c'', hscan, rfl⟩
  refine bind_eq_ok_iff.2 ⟨entries, c', hpool, bind_eq_ok_iff.2 ⟨_, _, rfl, ?_⟩⟩
  exact bind_eq_ok_iff.2 ⟨found, c', hahead, rfl⟩

end Decoding

/-! ## Classes -/

/-- The pool of a class that has been read is that of its class file. -/
theorem Class.exists_poolOf_of_ofBytes {bytes : Bytes} {c : Class}
    (h : Class.ofBytes bytes = .ok c) :
    ∃ entries, Outline.poolOf bytes = .ok entries ∧ c.layout.pool = entries.toList := by
  unfold Class.ofBytes at h
  split at h
  · next found stop hrun =>
    cases h
    unfold readClassFile at hrun
    obtain ⟨⟨major, minor⟩, c₁, hversion, hrun⟩ := bind_eq_ok_iff.1 hrun
    obtain rfl := skip_of_readVersion hversion
    obtain ⟨t, c₂, htable, hrun⟩ := bind_eq_ok_iff.1 hrun
    obtain ⟨access, c₃, -, hrun⟩ := bind_eq_ok_iff.1 hrun
    obtain ⟨name, c₄, -, hrun⟩ := bind_eq_ok_iff.1 hrun
    obtain ⟨i, c₅, -, hrun⟩ := bind_eq_ok_iff.1 hrun
    obtain ⟨super, c₆, -, hrun⟩ := bind_eq_ok_iff.1 hrun
    obtain ⟨interfaces, c₇, -, hrun⟩ := bind_eq_ok_iff.1 hrun
    obtain ⟨fields, c₈, -, hrun⟩ := bind_eq_ok_iff.1 hrun
    obtain ⟨methods, c₉, -, hrun⟩ := bind_eq_ok_iff.1 hrun
    obtain ⟨read, c₁₀, hattributes, hrun⟩ := bind_eq_ok_iff.1 hrun
    obtain ⟨here, c₁₁, -, hrun⟩ := bind_eq_ok_iff.1 hrun
    have hpool : read.layout.pool = t.entries.toList := (sameHead_of_attributes hattributes).pool
    split at hrun
    · cases hrun
      have hentries := readPool_of_readTable htable
      refine ⟨t.entries, ?_, hpool⟩
      have hskipped : (do skip 8; Table.readPool : Decoder _).run ⟨0, bytes⟩ = .ok (t.entries, c₂) :=
        hentries
      unfold Outline.poolOf
      rw [hskipped]
      rfl
    · obtain ⟨_, _, hrefuse, -⟩ := bind_eq_ok_iff.1 hrun
      obtain ⟨here, _, -, hrefuse⟩ := bind_eq_ok_iff.1 hrefuse
      cases hrefuse
  · cases h

/-- The pool of a class file is read behind its version. -/
theorem Outline.readPool_of_poolOf {bytes : Bytes} {entries : Array (Option Pool.Entry)}
    (h : poolOf bytes = .ok entries) :
    ∃ k, Table.readPool ((⟨0, bytes⟩ : Cursor).skip 8) = .ok (entries, k) := by
  obtain ⟨⟨found, k⟩, hfound, h⟩ := Result.bind_eq_ok_iff.1 h
  cases h
  exact ⟨k, hfound⟩

/-- The pool of a class that has been read is a seed. -/
theorem Class.isSeed_of_ofBytes {bytes : Bytes} {c : Class} (h : Class.ofBytes bytes = .ok c) :
    Pool.IsSeed c.layout.pool := by
  obtain ⟨entries, hpool, heq⟩ := exists_poolOf_of_ofBytes h
  obtain ⟨k, hentries⟩ := Outline.readPool_of_poolOf hpool
  rw [heq]
  exact Pool.isSeed_of_readPool hentries

/-- The layout of a class holds no pool, or that of a class that has been read. -/
def Class.HasReadPool (c : Class) : Prop :=
  c.layout.pool = [] ∨ ∃ bytes read, Class.ofBytes bytes = .ok read ∧ c.layout.pool = read.layout.pool

theorem Class.HasReadPool.isSeed {c : Class} (h : c.HasReadPool) : Pool.IsSeed c.layout.pool := by
  rcases h with hempty | ⟨bytes, read, hread, heq⟩
  · exact .inl hempty
  · rw [heq]
    exact isSeed_of_ofBytes hread

end ClassTree
