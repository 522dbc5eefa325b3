/-
# ClassTree.Proofs.Encoder — writing with a pool that has everything

What an encoder writes depends on the pool, and the pool grows while it writes. But the pool only
ever grows, and an encoder that finds what it had to add before writes the same again. So all parts
of a class file can be looked at as if they had been written with the pool as it is in the end: that
pool has everything, and no encoder changes it any more.
-/
import ClassTree.Encoding.Encoder
import ClassTree.Proofs.Pool.Growth
import ClassTree.Proofs.Result

namespace ClassTree

namespace Encoder

open Pool (Grows Within)

variable {α β : Type}

/-- An encoder adds to the pool at most. -/
class Growing (e : Encoder α) : Prop where
  grows : ∀ {p q : Pool} {a : α}, e p = .ok (a, q) → Grows .all p q

/-- An encoder also writes the same again, without adding anything, once the pool has what it has
added. -/
class Steady (e : Encoder α) : Prop extends Growing e where
  again : ∀ {p q P : Pool} {a : α}, e p = .ok (a, q) → q.Within P → e P = .ok (a, P)

/-- An encoder writes something with a pool that has everything it needs. -/
def Fixed (P : Pool) (e : Encoder α) (a : α) : Prop := e P = .ok (a, P)

/-! ## Steady encoders -/

theorem bind_eq_ok_iff {x : Encoder α} {f : α → Encoder β} {p q : Pool} {b : β} :
    (x >>= f) p = .ok (b, q) ↔ ∃ a p', x p = .ok (a, p') ∧ f a p' = .ok (b, q) := by
  show (x p >>= fun r => f r.1 r.2) = .ok (b, q) ↔ _
  rw [Result.bind_eq_ok_iff]
  simp

/-- What does not depend on the pool does not change it. -/
theorem lift_eq_ok_iff {r : Result α} {p q : Pool} {a : α} :
    (liftM r : Encoder α) p = .ok (a, q) ↔ r = .ok a ∧ p = q := by
  cases r with
  | error e =>
    constructor
    · nofun
    · rintro ⟨⟨⟩, -⟩
  | ok b =>
    show Except.ok (b, p) = Except.ok (a, q) ↔ _
    simp

theorem lift_ok_bind (a : α) (f : α → Encoder β) :
    ((liftM (Except.ok a : Result α) : Encoder α) >>= f) = f a := rfl

theorem lift_error_bind (e : Error) (f : α → Encoder β) :
    ((liftM (Except.error e : Result α) : Encoder α) >>= f) = throw e := rfl

/-- Writing a field does not change the pool. -/
theorem fit_eq_ok_iff {bytes? : Option Bytes} {p q : Pool} {bytes : Bytes} :
    fit bytes? p = .ok (bytes, q) ↔ bytes? = some bytes ∧ p = q := by
  unfold fit
  cases bytes? with
  | none =>
    constructor
    · nofun
    · rintro ⟨⟨⟩, -⟩
  | some found =>
    show Except.ok (found, p) = Except.ok (bytes, q) ↔ _
    simp

/-- Writing a given thing. -/
instance steady_pure (a : α) : Steady (pure a : Encoder α) where
  grows := by
    rintro p q b ⟨⟩
    exact .refl
  again := by
    rintro p q P b ⟨⟩ -
    rfl

/-- Growing encoders in a row. -/
instance growing_bind (x : Encoder α) (f : α → Encoder β) [hx : Growing x]
    [hf : ∀ a, Growing (f a)] : Growing (x >>= f) where
  grows := by
    intro p q b h
    obtain ⟨a, p', hxp, hfp⟩ := bind_eq_ok_iff.1 h
    exact (hx.grows hxp).trans ((hf a).grows hfp)

/-- Steady encoders in a row. -/
instance steady_bind (x : Encoder α) (f : α → Encoder β) [hx : Steady x] [hf : ∀ a, Steady (f a)] :
    Steady (x >>= f) where
  toGrowing := growing_bind x f
  again := by
    intro p q P b h hP
    obtain ⟨a, p', hxp, hfp⟩ := bind_eq_ok_iff.1 h
    have hP' : p'.Within P := ((hf a).grows hfp).within.trans hP
    exact bind_eq_ok_iff.2 ⟨a, P, hx.again hxp hP', (hf a).again hfp hP⟩

/-- The result of a steady encoder may be changed. -/
instance steady_map (f : α → β) (x : Encoder α) [Steady x] : Steady (f <$> x) := by
  rw [map_eq_pure_bind]
  infer_instance

/-- Failing. -/
instance steady_throw (e : Error) : Steady (throw e : Encoder α) where
  grows := nofun
  again := nofun

/-- What does not depend on the pool. -/
instance steady_lift (r : Result α) : Steady (liftM r : Encoder α) where
  grows := by
    intro p q a h
    obtain ⟨-, rfl⟩ := lift_eq_ok_iff.1 h
    exact .refl
  again := by
    intro p q P a h _
    obtain ⟨hr, -⟩ := lift_eq_ok_iff.1 h
    exact lift_eq_ok_iff.2 ⟨hr, rfl⟩

/-- One of two. -/
instance steady_ite (c : Prop) [Decidable c] (x y : Encoder α) [hx : Steady x] [hy : Steady y] :
    Steady (if c then x else y) := by
  split
  · exact hx
  · exact hy

theorem steady_add_of_allowed {e : Pool.Entry} (he : e.Allowed .all) :
    Steady (pooled (Pool.add e)) where
  grows := by
    intro p q i h
    have hinsert : p.insert e = (i, q) := Except.ok.inj h
    have hgrows : Grows .all p (p.insert e).2 := Grows.refl.entry he
    rwa [hinsert] at hgrows
  again := by
    intro p q P i h hP
    have hinsert : p.insert e = (i, q) := Except.ok.inj h
    have hfound := p.index_insert_self e
    rw [hinsert] at hfound
    show Except.ok (P.insert e) = _
    rw [Pool.insert_of_some (hP.index hfound)]

/-- Adding a bootstrap method. -/
instance steady_addBootstrap (handle : Nat) (arguments : List Nat) :
    Steady (pooled (Pool.addBootstrap handle arguments)) where
  grows := by
    intro p q i h
    have hinsert : p.insertBootstrap ⟨handle, arguments⟩ = (i, q) := Except.ok.inj h
    have hgrows : Grows .all p (p.insertBootstrap ⟨handle, arguments⟩).2 :=
      Grows.refl.bootstrap trivial _
    rwa [hinsert] at hgrows
  again := by
    intro p q P i h hP
    have hinsert : p.insertBootstrap ⟨handle, arguments⟩ = (i, q) := Except.ok.inj h
    have hfound := p.bootstrapIndex_insertBootstrap_self ⟨handle, arguments⟩
    rw [hinsert] at hfound
    show Except.ok (P.insertBootstrap _) = _
    rw [Pool.insertBootstrap_of_some (hP.bootstrapIndex hfound)]

theorem pooled_bind (x : StateM Pool α) (f : α → StateM Pool β) :
    pooled (x >>= f) = pooled x >>= fun a => pooled (f a) := rfl

/-- Additions in a row. -/
instance steady_pooled_bind (x : StateM Pool α) (f : α → StateM Pool β) [Steady (pooled x)]
    [∀ a, Steady (pooled (f a))] : Steady (pooled (x >>= f)) := by
  rw [pooled_bind]
  infer_instance

/-- A field. -/
instance steady_fit (bytes? : Option Bytes) : Steady (fit bytes?) := by
  unfold fit
  split <;> infer_instance

/-- An unsigned number in one byte. -/
instance steady_u1 (n : Int) : Steady (u1 n) := steady_fit _

/-- An unsigned number in two bytes. -/
instance steady_u2 (n : Int) : Steady (u2 n) := steady_fit _

/-- An unsigned number in four bytes. -/
instance steady_u4 (n : Int) : Steady (u4 n) := steady_fit _

/-- A signed number in one byte. -/
instance steady_s1 (n : Int) : Steady (s1 n) := steady_fit _

/-- A signed number in two bytes. -/
instance steady_s2 (n : Int) : Steady (s2 n) := steady_fit _

/-- A signed number in four bytes. -/
instance steady_s4 (n : Int) : Steady (s4 n) := steady_fit _

/-- The index of a constant. -/
instance steady_index (m : StateM Pool Nat) [Steady (pooled m)] : Steady (index m) := by
  unfold index
  infer_instance

/-- Things in a row, each of which adds to the pool at most. -/
theorem growing_mapM_of_mem {each : α → Encoder β} {things : List α}
    (h : ∀ a ∈ things, Growing (each a)) : Growing (things.mapM each) := by
  induction things with
  | nil =>
    rw [List.mapM_nil]
    infer_instance
  | cons a things ih =>
    rw [List.mapM_cons]
    have := h a (by simp)
    have := ih fun b hb => h b (by simp [hb])
    infer_instance

/-- Things in a row. -/
instance growing_mapM (each : α → Encoder β) [h : ∀ a, Growing (each a)] (things : List α) :
    Growing (things.mapM each) := growing_mapM_of_mem fun a _ => h a

/-- The bytes of things in a row. -/
instance growing_all (each : α → Encoder Bytes) [∀ a, Growing (each a)] (things : List α) :
    Growing (all each things) := by
  unfold all
  infer_instance

/-- Things in a row, each of which is steady. -/
theorem steady_mapM_of_mem {each : α → Encoder β} {things : List α}
    (h : ∀ a ∈ things, Steady (each a)) : Steady (things.mapM each) := by
  induction things with
  | nil =>
    rw [List.mapM_nil]
    infer_instance
  | cons a things ih =>
    rw [List.mapM_cons]
    have := h a (by simp)
    have := ih fun b hb => h b (by simp [hb])
    infer_instance

/-- Things in a row. -/
instance steady_mapM (each : α → Encoder β) [h : ∀ a, Steady (each a)] (things : List α) :
    Steady (things.mapM each) := steady_mapM_of_mem fun a _ => h a

/-- The bytes of things in a row. -/
instance steady_all (each : α → Encoder Bytes) [∀ a, Steady (each a)] (things : List α) :
    Steady (all each things) := by
  unfold all
  infer_instance

/-- A count and things in a row. -/
instance steady_listOf (each : α → Encoder Bytes) [∀ a, Steady (each a)] (things : List α) :
    Steady (listOf each things) := by
  unfold listOf
  infer_instance

/-- Things in a row are written if each of them is, whatever the pool; what holds of the pool before
each of them and after it holds in the end. -/
theorem exists_mapM {each : α → Encoder β} {I : Pool → Prop} {things : List α}
    (h : ∀ a ∈ things, ∀ p, I p → ∃ b q, each a p = .ok (b, q) ∧ I q) {p : Pool} (hp : I p) :
    ∃ bs q, things.mapM each p = .ok (bs, q) ∧ I q := by
  induction things generalizing p with
  | nil => exact ⟨[], p, rfl, hp⟩
  | cons a things ih =>
    obtain ⟨b, q, hb, hq⟩ := h a (by simp) p hp
    obtain ⟨bs, q', hbs, hq'⟩ := ih (fun a' ha' => h a' (by simp [ha'])) hq
    refine ⟨b :: bs, q', ?_, hq'⟩
    rw [List.mapM_cons]
    exact bind_eq_ok_iff.2 ⟨b, q, hb, bind_eq_ok_iff.2 ⟨bs, q', hbs, rfl⟩⟩

/-! ## Writing with all that is needed -/

variable {P : Pool}

/-- What a steady encoder has written it writes with any pool that has grown since. -/
theorem Steady.fixed {e : Encoder α} [he : Steady e] {p q : Pool} {a : α} (h : e p = .ok (a, q))
    (hP : q.Within P) : Fixed P e a := he.again h hP

theorem Fixed.within {e : Encoder α} [he : Steady e] {Q : Pool} {a : α} (h : Fixed P e a)
    (hQ : P.Within Q) : Fixed Q e a := he.again h hQ

theorem Fixed.unique {e : Encoder α} {a b : α} (h : Fixed P e a) (h' : Fixed P e b) : a = b := by
  unfold Fixed at h h'
  rw [h] at h'
  cases h'
  rfl

@[simp] theorem fixed_pure_iff {a b : α} : Fixed P (pure a) b ↔ b = a := by
  show Except.ok (a, P) = Except.ok (b, P) ↔ _
  simp [eq_comm]

@[simp] theorem not_fixed_throw {e : Error} {a : α} : ¬ Fixed P (throw e) a := nofun

/-- Encoders in a row write with the same pool. -/
@[simp] theorem fixed_bind_iff {x : Encoder α} {f : α → Encoder β} [hx : Growing x]
    [hf : ∀ a, Growing (f a)] {b : β} :
    Fixed P (x >>= f) b ↔ ∃ a, Fixed P x a ∧ Fixed P (f a) b := by
  unfold Fixed
  rw [bind_eq_ok_iff]
  constructor
  · rintro ⟨a, p, hxp, hfp⟩
    obtain rfl : P = p := (hx.grows hxp).antisymm ((hf a).grows hfp)
    exact ⟨a, hxp, hfp⟩
  · rintro ⟨a, hxp, hfp⟩
    exact ⟨a, P, hxp, hfp⟩

@[simp] theorem fixed_map_iff {f : α → β} {x : Encoder α} [Growing x] {b : β} :
    Fixed P (f <$> x) b ↔ ∃ a, Fixed P x a ∧ b = f a := by
  rw [map_eq_pure_bind]
  simp only [fixed_bind_iff, fixed_pure_iff]

@[simp] theorem fixed_lift_iff {r : Result α} {a : α} : Fixed P (liftM r) a ↔ r = .ok a := by
  cases r with
  | error e =>
    constructor <;> nofun
  | ok b =>
    show Except.ok (b, P) = Except.ok (a, P) ↔ _
    simp

@[simp] theorem fixed_add_iff {e : Pool.Entry} {i : Nat} :
    Fixed P (pooled (Pool.add e)) i ↔ P.index[e.key]? = some i := by
  show Except.ok (P.insert e) = Except.ok (i, P) ↔ _
  constructor
  · intro h
    have hinsert : P.insert e = (i, P) := Except.ok.inj h
    have hfound := P.index_insert_self e
    rwa [hinsert] at hfound
  · intro h
    rw [Pool.insert_of_some h]

/-- A bootstrap method is found at its index. -/
@[simp] theorem fixed_addBootstrap_iff {handle : Nat} {arguments : List Nat} {i : Nat} :
    Fixed P (pooled (Pool.addBootstrap handle arguments)) i ↔
      P.bootstrapIndex[(⟨handle, arguments⟩ : Bootstrap)]? = some i := by
  show Except.ok (P.insertBootstrap _) = Except.ok (i, P) ↔ _
  constructor
  · intro h
    have hinsert : P.insertBootstrap ⟨handle, arguments⟩ = (i, P) := Except.ok.inj h
    have hfound := P.bootstrapIndex_insertBootstrap_self ⟨handle, arguments⟩
    rwa [hinsert] at hfound
  · intro h
    rw [Pool.insertBootstrap_of_some h]

@[simp] theorem fixed_pooled_bind_iff {x : StateM Pool α} {f : α → StateM Pool β}
    [Growing (pooled x)] [∀ a, Growing (pooled (f a))] {b : β} :
    Fixed P (pooled (x >>= f)) b ↔ ∃ a, Fixed P (pooled x) a ∧ Fixed P (pooled (f a)) b := by
  rw [pooled_bind, fixed_bind_iff]

@[simp] theorem fixed_fit_iff {bytes? : Option Bytes} {bytes : Bytes} :
    Fixed P (fit bytes?) bytes ↔ bytes? = some bytes := by
  unfold Fixed
  rw [fit_eq_ok_iff, and_iff_left rfl]

@[simp] theorem fixed_u1_iff {n : Int} {bytes : Bytes} :
    Fixed P (u1 n) bytes ↔ Bytes.unsigned? 1 n = some bytes := fixed_fit_iff

@[simp] theorem fixed_u2_iff {n : Int} {bytes : Bytes} :
    Fixed P (u2 n) bytes ↔ Bytes.unsigned? 2 n = some bytes := fixed_fit_iff

@[simp] theorem fixed_u4_iff {n : Int} {bytes : Bytes} :
    Fixed P (u4 n) bytes ↔ Bytes.unsigned? 4 n = some bytes := fixed_fit_iff

@[simp] theorem fixed_s1_iff {n : Int} {bytes : Bytes} :
    Fixed P (s1 n) bytes ↔ Bytes.signed? 1 n = some bytes := fixed_fit_iff

@[simp] theorem fixed_s2_iff {n : Int} {bytes : Bytes} :
    Fixed P (s2 n) bytes ↔ Bytes.signed? 2 n = some bytes := fixed_fit_iff

@[simp] theorem fixed_s4_iff {n : Int} {bytes : Bytes} :
    Fixed P (s4 n) bytes ↔ Bytes.signed? 4 n = some bytes := fixed_fit_iff

@[simp] theorem fixed_index_iff {m : StateM Pool Nat} [Growing (pooled m)] {bytes : Bytes} :
    Fixed P (index m) bytes ↔
      ∃ i, Fixed P (pooled m) i ∧ Bytes.unsigned? 2 (i : Nat) = some bytes := by
  unfold index
  simp

/-- With a pool that has everything, things in a row are written one by one: the parts are those of
the things, each written with the same pool. The steps need not grow the pool in general, only for
the things of the row. -/
theorem fixed_mapM_iff_of_mem {each : α → Encoder β} {things : List α}
    (hgrowing : ∀ a ∈ things, Growing (each a)) {parts : List β} :
    Fixed P (things.mapM each) parts ↔
      List.Forall₂ (fun a part => Fixed P (each a) part) things parts := by
  induction things generalizing parts with
  | nil =>
    rw [List.mapM_nil, fixed_pure_iff]
    constructor
    · rintro rfl
      exact .nil
    · rintro ⟨⟩
      rfl
  | cons a things ih =>
    have := hgrowing a (by simp)
    have htail : ∀ b ∈ things, Growing (each b) := fun b hb => hgrowing b (by simp [hb])
    have := growing_mapM_of_mem htail
    rw [List.mapM_cons, fixed_bind_iff]
    simp only [fixed_bind_iff, ih htail, fixed_pure_iff]
    constructor
    · rintro ⟨part, hpart, parts, hparts, rfl⟩
      exact .cons hpart hparts
    · rintro ⟨⟩
      next part parts hpart hparts => exact ⟨part, hpart, parts, hparts, rfl⟩

@[simp] theorem fixed_mapM_iff {each : α → Encoder β} [hgrowing : ∀ a, Growing (each a)]
    {things : List α} {parts : List β} :
    Fixed P (things.mapM each) parts ↔
      List.Forall₂ (fun a part => Fixed P (each a) part) things parts :=
  fixed_mapM_iff_of_mem fun a _ => hgrowing a

@[simp] theorem fixed_all_iff {each : α → Encoder Bytes} [∀ a, Growing (each a)] {things : List α}
    {bytes : Bytes} :
    Fixed P (all each things) bytes ↔
      ∃ parts, List.Forall₂ (fun a part => Fixed P (each a) part) things parts ∧
        bytes = parts.flatten := by
  unfold all
  simp

/-- A count and the bytes of things in a row. -/
@[simp] theorem fixed_listOf_iff {each : α → Encoder Bytes} [∀ a, Growing (each a)]
    {things : List α} {bytes : Bytes} :
    Fixed P (listOf each things) bytes ↔
      ∃ count, Bytes.unsigned? 2 (things.length : Nat) = some count ∧
        ∃ parts, List.Forall₂ (fun a part => Fixed P (each a) part) things parts ∧
          bytes = count ++ parts.flatten := by
  unfold listOf
  simp only [fixed_bind_iff, fixed_u2_iff, fixed_all_iff, fixed_pure_iff]
  constructor
  · rintro ⟨count, hcount, _, ⟨parts, hparts, rfl⟩, rfl⟩
    exact ⟨count, hcount, parts, hparts, rfl⟩
  · rintro ⟨count, hcount, parts, hparts, rfl⟩
    exact ⟨count, hcount, _, ⟨parts, hparts, rfl⟩, rfl⟩

end Encoder

end ClassTree
