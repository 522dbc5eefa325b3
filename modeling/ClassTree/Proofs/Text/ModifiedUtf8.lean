/-
# ClassTree.Proofs.Text.ModifiedUtf8 — strings read back from a class file

Bytes that are read are forms: one, two or three bytes that spell a unit, where a unit may have more
than one form and only the shortest is written. So the units read from bytes give the same bytes
again exactly if no form is overlong.

The string form of class files has no place for a high surrogate right before a low one: both are
written, and read back as the one code point that they make. A text without such a pair is read back
as it was, and no text that has been read holds one.
-/
import ClassTree.Text.ModifiedUtf8
import Mathlib.Data.List.Chain

namespace ClassTree

/-- No high surrogate stands right before a low one. -/
def Text.IsWhole (t : Text) : Prop :=
  t.IsChain fun a b => ¬ (a.isHighSurrogate = true ∧ b.isLowSurrogate = true)

instance (t : Text) : Decidable t.IsWhole := by
  unfold Text.IsWhole
  infer_instance

namespace ModifiedUtf8

/-- What a text is read back as: surrogates that make a pair are joined. -/
def stored (t : Text) : Text := joinFrom (t.flatMap unitsOf) []

/-! ## Forms -/

private theorem toNat_byte {n : Nat} (hn : n < 256) : (UInt8.ofNat n).toNat = n := by
  rw [UInt8.toNat_ofNat']
  omega

private theorem ofNat_eq {n : Nat} {b : UInt8} (h : n = b.toNat) : UInt8.ofNat n = b := by
  rw [h, UInt8.ofNat_toNat]

/-- A unit with the number of bytes that spell it. -/
inductive UnitForm where
  | one (u : Nat) (h : 0 < u ∧ u < 0x80)
  | two (u : Nat) (h : u < 0x800)
  | three (u : Nat) (h : u < 0x10000)

namespace UnitForm

/-- The unit that is spelled. -/
def unit : UnitForm → Nat
  | one u _ => u
  | two u _ => u
  | three u _ => u

/-- The bytes that spell it: `0xxxxxxx`, `110xxxxx 10xxxxxx` or `1110xxxx 10xxxxxx 10xxxxxx`. -/
def bytes : UnitForm → Bytes
  | one u _ => [UInt8.ofNat u]
  | two u _ => [UInt8.ofNat (0xC0 + u / 0x40), UInt8.ofNat (0x80 + u % 0x40)]
  | three u _ =>
    [UInt8.ofNat (0xE0 + u / 0x1000), UInt8.ofNat (0x80 + u / 0x40 % 0x40),
      UInt8.ofNat (0x80 + u % 0x40)]

/-- There is a shorter form of the unit. -/
def IsOverlong : UnitForm → Prop
  | one _ _ => False
  | two u _ => 0 < u ∧ u < 0x80
  | three u _ => u < 0x800

theorem length_pos (f : UnitForm) : 0 < f.bytes.length := by
  cases f <;> exact Nat.succ_pos _

theorem unit_lt (f : UnitForm) : f.unit < 0x10000 := by
  cases f with
  | one u h => exact Nat.lt_trans h.2 (by decide)
  | two u h => exact Nat.lt_trans h (by decide)
  | three u h => exact h

/-- A form that is not overlong is the one that is written. -/
theorem encodeUnit_unit {f : UnitForm} (h : ¬ f.IsOverlong) : encodeUnit f.unit = f.bytes := by
  cases f with
  | one u hu => exact if_pos hu
  | two u hu => exact (if_neg h).trans (if_pos hu)
  | three u hu =>
    have hlarge : ¬ u < 0x800 := h
    exact (if_neg (show ¬ (0 < u ∧ u < 0x80) by omega)).trans (if_neg hlarge)

/-- An overlong form is longer than the one that is written. -/
theorem length_encodeUnit_lt {f : UnitForm} (h : f.IsOverlong) :
    (encodeUnit f.unit).length < f.bytes.length := by
  cases f with
  | one u hu => exact h.elim
  | two u hu =>
    have hone : encodeUnit u = [UInt8.ofNat u] := if_pos h
    show (encodeUnit u).length < 2
    rw [hone]
    exact Nat.one_lt_two
  | three u hu =>
    have hsmall : u < 0x800 := h
    show (encodeUnit u).length < 3
    unfold encodeUnit
    split <;> simp

/-- No form is shorter than the one that is written. -/
theorem length_encodeUnit_le (f : UnitForm) : (encodeUnit f.unit).length ≤ f.bytes.length := by
  by_cases h : f.IsOverlong
  · exact (length_encodeUnit_lt h).le
  · rw [encodeUnit_unit h]

theorem exists_of_lt {u : Nat} (hu : u < 0x10000) : ∃ f : UnitForm, f.unit = u ∧ ¬ f.IsOverlong := by
  by_cases hone : 0 < u ∧ u < 0x80
  · exact ⟨.one u hone, rfl, not_false⟩
  · by_cases htwo : u < 0x800
    · exact ⟨.two u htwo, rfl, hone⟩
    · exact ⟨.three u hu, rfl, htwo⟩

/-- The unit of a form is read from its bytes. -/
theorem unitsFrom_bytes (f : UnitForm) (rest : Bytes) (position : Nat) (acc : List Nat) :
    unitsFrom (f.bytes ++ rest) position acc =
      unitsFrom rest (position + f.bytes.length) (f.unit :: acc) := by
  cases f with
  | one u h =>
    show unitsFrom (UInt8.ofNat u :: rest) position acc = _
    rw [unitsFrom.eq_def]
    simp only [toNat_byte (show u < 256 by omega), h, and_self, if_true]
    rfl
  | two u h =>
    have hlead := toNat_byte (show 0xC0 + u / 0x40 < 256 by omega)
    have htail := toNat_byte (show 0x80 + u % 0x40 < 256 by omega)
    show unitsFrom (UInt8.ofNat (0xC0 + u / 0x40) :: UInt8.ofNat (0x80 + u % 0x40) :: rest)
      position acc = unitsFrom rest (position + 2) (u :: acc)
    rw [unitsFrom.eq_def]
    simp only [hlead]
    rw [if_neg (by omega), if_pos (by omega)]
    simp only [isTail, htail]
    rw [if_pos (by simp; omega)]
    congr 2
    omega
  | three u h =>
    have hlead := toNat_byte (show 0xE0 + u / 0x1000 < 256 by omega)
    have hmid := toNat_byte (show 0x80 + u / 0x40 % 0x40 < 256 by omega)
    have htail := toNat_byte (show 0x80 + u % 0x40 < 256 by omega)
    show unitsFrom (UInt8.ofNat (0xE0 + u / 0x1000) :: UInt8.ofNat (0x80 + u / 0x40 % 0x40) ::
      UInt8.ofNat (0x80 + u % 0x40) :: rest) position acc = unitsFrom rest (position + 3) (u :: acc)
    rw [unitsFrom.eq_def]
    simp only [hlead]
    rw [if_neg (by omega), if_neg (by omega), if_pos (by omega)]
    simp only [isTail, hmid, htail]
    rw [if_pos (by simp; omega)]
    congr 2
    omega

end UnitForm

/-- Forms that are not overlong are what is written for their units. -/
theorem flatMap_encodeUnit_unit {forms : List UnitForm} (h : ∀ f ∈ forms, ¬ f.IsOverlong) :
    (forms.map UnitForm.unit).flatMap encodeUnit = forms.flatMap UnitForm.bytes := by
  rw [List.flatMap_map]
  exact List.flatMap_congr fun f hf => UnitForm.encodeUnit_unit (h f hf)

/-- Forms are no shorter than what is written for their units, and longer if one is overlong. -/
theorem length_flatMap_encodeUnit (forms : List UnitForm) :
    ((forms.map UnitForm.unit).flatMap encodeUnit).length ≤ (forms.flatMap UnitForm.bytes).length ∧
      ∀ f ∈ forms, f.IsOverlong →
        ((forms.map UnitForm.unit).flatMap encodeUnit).length <
          (forms.flatMap UnitForm.bytes).length := by
  induction forms with
  | nil => exact ⟨le_rfl, nofun⟩
  | cons g forms ih =>
    have hg := g.length_encodeUnit_le
    simp only [List.map_cons, List.flatMap_cons, List.length_append]
    refine ⟨by omega, ?_⟩
    intro f hf hlong
    rcases List.mem_cons.1 hf with rfl | hf
    · have := UnitForm.length_encodeUnit_lt hlong
      omega
    · have := ih.2 f hf hlong
      omega

/-- The units of forms are read from their bytes. -/
theorem unitsFrom_forms (forms : List UnitForm) (position : Nat) (acc : List Nat) :
    unitsFrom (forms.flatMap UnitForm.bytes) position acc =
      .ok (acc.reverse ++ forms.map UnitForm.unit) := by
  induction forms generalizing position acc with
  | nil => simp [unitsFrom]
  | cons f forms ih =>
    rw [List.flatMap_cons, f.unitsFrom_bytes, ih]
    simp

/-- Bytes that are read begin with a form, and what is left is read behind its unit. -/
theorem exists_form_of_unitsFrom {a : UInt8} {bytes : Bytes} {position : Nat} {acc units : List Nat}
    (h : unitsFrom (a :: bytes) position acc = .ok units) :
    ∃ (f : UnitForm) (rest : Bytes), a :: bytes = f.bytes ++ rest ∧
      unitsFrom rest (position + f.bytes.length) (f.unit :: acc) = .ok units := by
  have ha := a.toNat_lt
  rw [unitsFrom.eq_def] at h
  simp only at h
  split at h
  · next hone =>
    exact ⟨.one a.toNat hone, bytes, by simp [UnitForm.bytes], h⟩
  split at h
  · next hlead =>
    split at h
    · next b rest =>
      split at h
      · next htail =>
        have hb : b.toNat / 0x40 = 2 := by simpa [isTail] using htail
        refine ⟨.two (a.toNat % 0x20 * 0x40 + b.toNat % 0x40) (by omega), rest, ?_, h⟩
        have hfirst := ofNat_eq
          (show 0xC0 + (a.toNat % 0x20 * 0x40 + b.toNat % 0x40) / 0x40 = a.toNat by omega)
        have hsecond := ofNat_eq
          (show 0x80 + (a.toNat % 0x20 * 0x40 + b.toNat % 0x40) % 0x40 = b.toNat by omega)
        rw [UnitForm.bytes, hfirst, hsecond]
        rfl
      · cases h
    · cases h
  split at h
  · next hlead =>
    split at h
    · next b c rest =>
      split at h
      · next htail =>
        obtain ⟨hb, hc⟩ : b.toNat / 0x40 = 2 ∧ c.toNat / 0x40 = 2 := by simpa [isTail] using htail
        -- the digits of a unit with a name are simpler than those of the whole sum
        obtain ⟨u, hu⟩ : ∃ u, u = a.toNat % 0x10 * 0x1000 + b.toNat % 0x40 * 0x40 + c.toNat % 0x40 :=
          ⟨_, rfl⟩
        rw [← hu] at h
        refine ⟨.three u (by omega), rest, ?_, h⟩
        have hfirst := ofNat_eq (show 0xE0 + u / 0x1000 = a.toNat by omega)
        have hsecond := ofNat_eq (show 0x80 + u / 0x40 % 0x40 = b.toNat by omega)
        have hthird := ofNat_eq (show 0x80 + u % 0x40 = c.toNat by omega)
        rw [UnitForm.bytes, hfirst, hsecond, hthird]
        rfl
      · cases h
    · cases h
  · cases h

/-- Bytes that are read are forms of the units that come out. -/
theorem exists_forms_of_unitsFrom {bytes : Bytes} {position : Nat} {acc units : List Nat}
    (h : unitsFrom bytes position acc = .ok units) :
    ∃ forms : List UnitForm, bytes = forms.flatMap UnitForm.bytes ∧
      units = acc.reverse ++ forms.map UnitForm.unit := by
  match bytes with
  | [] =>
    cases h
    exact ⟨[], rfl, by simp⟩
  | a :: tail =>
    obtain ⟨f, rest, hsplit, hrest⟩ := exists_form_of_unitsFrom h
    have hshorter : rest.length < (a :: tail).length := by
      have hpos := f.length_pos
      rw [hsplit, List.length_append]
      omega
    obtain ⟨forms, rfl, rfl⟩ := exists_forms_of_unitsFrom hrest
    exact ⟨f :: forms, hsplit, by simp⟩
termination_by bytes.length
decreasing_by exact hshorter

/-- Units are those of forms that are not overlong. -/
theorem exists_forms_of_lt {units : List Nat} (h : ∀ u ∈ units, u < 0x10000) :
    ∃ forms : List UnitForm, forms.map UnitForm.unit = units ∧ ∀ f ∈ forms, ¬ f.IsOverlong := by
  induction units with
  | nil => exact ⟨[], rfl, nofun⟩
  | cons u units ih =>
    obtain ⟨f, rfl, hf⟩ := UnitForm.exists_of_lt (h u (by simp))
    obtain ⟨forms, rfl, hforms⟩ := ih fun v hv => h v (by simp [hv])
    exact ⟨f :: forms, rfl, by simpa using ⟨hf, hforms⟩⟩

/-! ## Units -/

/-- The units of a code point fit into two bytes. -/
theorem unit_lt {c : CodePoint} {u : Nat} (h : u ∈ unitsOf c) : u < 0x10000 := by
  have hc := c.isLt
  unfold unitsOf at h
  split at h
  · simp only [List.mem_singleton] at h
    omega
  · simp only [List.mem_cons, List.not_mem_nil, or_false] at h
    omega

theorem unitsFrom_flatMap_encodeUnit {units : List Nat} (hunits : ∀ u ∈ units, u < 0x10000)
    (position : Nat) (acc : List Nat) :
    unitsFrom (units.flatMap encodeUnit) position acc = .ok (acc.reverse ++ units) := by
  obtain ⟨forms, rfl, hforms⟩ := exists_forms_of_lt hunits
  rw [flatMap_encodeUnit_unit hforms]
  exact unitsFrom_forms forms position acc

/-- A text is read back with its surrogate pairs joined. -/
theorem decode_encode (t : Text) : decode (encode t) = .ok (stored t) := by
  have hunits : ∀ u ∈ t.flatMap unitsOf, u < 0x10000 := by
    intro u hu
    obtain ⟨c, -, hc⟩ := List.mem_flatMap.1 hu
    exact unit_lt hc
  unfold decode encode
  rw [unitsFrom_flatMap_encodeUnit hunits]
  rfl

/-! ## Whole texts -/

/-- Joining goes on behind what has been joined. -/
theorem joinFrom_append (units : List Nat) (acc acc' : Text) :
    joinFrom units (acc ++ acc') = acc'.reverse ++ joinFrom units acc := by
  induction units, acc using joinFrom.induct with
  | case1 acc => simp [joinFrom]
  | case2 u acc => simp [joinFrom]
  | case3 u v rest acc h ih =>
    simp only [joinFrom, h, if_true]
    exact ih
  | case4 u v rest acc h ih =>
    simp only [joinFrom, h]
    exact ih

theorem joinFrom_pair {u v : Nat} (h : (isHigh u && isLow v) = true) (rest : List Nat) :
    joinFrom (u :: v :: rest) [] =
      Fin.ofNat _ (0x10000 + (u - 0xD800) * 0x400 + (v - 0xDC00)) :: joinFrom rest [] := by
  rw [joinFrom, if_pos h]
  exact joinFrom_append rest [] [_]

/-- A unit that opens no surrogate pair stays alone. -/
theorem joinFrom_single {u : Nat} {rest : List Nat}
    (h : ∀ v, rest.head? = some v → (isHigh u && isLow v) = false) :
    joinFrom (u :: rest) [] = Fin.ofNat _ u :: joinFrom rest [] := by
  cases rest with
  | nil => rfl
  | cons v rest =>
    rw [joinFrom, if_neg (by simp [h v rfl])]
    exact joinFrom_append (v :: rest) [] [_]

/-- A text has no surrogates and nothing above them. -/
def IsPlain (t : Text) : Prop := ∀ c ∈ t, c.val < 0xD800

/-- A string of ASCII characters is a plain text. -/
theorem isPlain_ofString {s : String} (h : s.toList.all (fun c => c.toNat ≤ 0x7F) = true) :
    IsPlain (Text.ofString s) := by
  intro c hc
  obtain ⟨d, hd, rfl⟩ := List.mem_map.1 hc
  have hle : d.toNat ≤ 0x7F := of_decide_eq_true (List.all_eq_true.1 h d hd)
  show d.toNat < 0xD800
  omega

/-- Units that make a plain text are its code points. -/
theorem joinFrom_of_isPlain : ∀ {units : List Nat}, (∀ u ∈ units, u < 0x10000) →
    IsPlain (joinFrom units []) →
      joinFrom units [] = units.map (Fin.ofNat _) ∧ ∀ u ∈ units, u < 0xD800
  | [], _, _ => ⟨rfl, nofun⟩
  | u :: rest, hunits, hplain => by
    have hsingle : ∀ v, rest.head? = some v → (isHigh u && isLow v) = false := by
      intro v hv
      cases hpair : isHigh u && isLow v with
      | false => rfl
      | true =>
        obtain ⟨tail, rfl⟩ : ∃ tail, rest = v :: tail := by
          cases rest with
          | nil => cases hv
          | cons w tail =>
            cases hv
            exact ⟨tail, rfl⟩
        rw [joinFrom_pair hpair] at hplain
        have hlarge := hplain _ (List.mem_cons_self ..)
        simp only [isHigh, isLow, Bool.and_eq_true, decide_eq_true_eq] at hpair
        rw [Fin.val_ofNat, Nat.mod_eq_of_lt (by omega)] at hlarge
        omega
    rw [joinFrom_single hsingle] at hplain ⊢
    have htail : ∀ v ∈ rest, v < 0x10000 := fun v hv => hunits v (List.mem_cons_of_mem u hv)
    obtain ⟨heq, hall⟩ := joinFrom_of_isPlain htail
      fun c hc => hplain c (List.mem_cons_of_mem _ hc)
    have hu : u < 0xD800 := by
      have hhead := hplain _ (List.mem_cons_self ..)
      have := hunits u (List.mem_cons_self ..)
      rwa [Fin.val_ofNat, Nat.mod_eq_of_lt (by omega)] at hhead
    rw [heq]
    refine ⟨rfl, ?_⟩
    intro v hv
    rcases List.mem_cons.1 hv with rfl | hv
    · exact hu
    · exact hall v hv

/-- A code point with two units is the one that they make. -/
theorem unitsOf_of_large {c : CodePoint} (h : 0x10000 ≤ c.val) :
    ∃ u v, unitsOf c = [u, v] ∧ (isHigh u && isLow v) = true ∧
      Fin.ofNat 0x110000 (0x10000 + (u - 0xD800) * 0x400 + (v - 0xDC00)) = c := by
  have hc := c.isLt
  obtain ⟨u, hu⟩ : ∃ u, u = 0xD800 + (c.val - 0x10000) / 0x400 := ⟨_, rfl⟩
  obtain ⟨v, hv⟩ : ∃ v, v = 0xDC00 + (c.val - 0x10000) % 0x400 := ⟨_, rfl⟩
  refine ⟨u, v, ?_, ?_, ?_⟩
  · unfold unitsOf
    rw [if_neg (by omega), hu, hv]
  · simp only [isHigh, isLow, Bool.and_eq_true, decide_eq_true_eq]
    omega
  · apply Fin.ext
    rw [Fin.val_ofNat]
    omega

/-- The first unit of a text closes a surrogate pair only if its first code point does. -/
theorem isLow_head {t : Text} {v : Nat} (h : (t.flatMap unitsOf).head? = some v)
    (hlow : isLow v = true) : ∃ d rest, t = d :: rest ∧ d.isLowSurrogate = true := by
  cases t with
  | nil => cases h
  | cons d rest =>
    refine ⟨d, rest, rfl, ?_⟩
    have hd := d.isLt
    rw [List.flatMap_cons] at h
    unfold unitsOf at h
    unfold isLow at hlow
    split at h <;> simp at h hlow <;> subst h
    · simpa [CodePoint.isLowSurrogate] using hlow
    · omega

/-- A code point that makes no pair with the one behind it is stored as it is. -/
theorem stored_cons_of_not_pair {c : CodePoint} {t : Text}
    (h : ∀ d, t.head? = some d → ¬ (c.isHighSurrogate = true ∧ d.isLowSurrogate = true)) :
    stored (c :: t) = c :: stored t := by
  have hc := c.isLt
  unfold stored
  rw [List.flatMap_cons]
  by_cases hsmall : c.val < 0x10000
  · have hunits : unitsOf c = [c.val] := if_pos hsmall
    rw [hunits, List.singleton_append, joinFrom_single, Fin.ofNat_val_eq_self]
    intro v hv
    by_contra hpair
    simp only [Bool.not_eq_false, Bool.and_eq_true] at hpair
    obtain ⟨d, tail, rfl, hd⟩ := isLow_head hv hpair.2
    exact h d rfl ⟨hpair.1, hd⟩
  · obtain ⟨u, v, hunits, hpair, hcode⟩ := unitsOf_of_large (by omega : 0x10000 ≤ c.val)
    rw [hunits, List.cons_append, List.singleton_append, joinFrom_pair hpair, hcode]

/-- A text without a high surrogate right before a low one is read back as it was. -/
theorem stored_of_isWhole {t : Text} (h : t.IsWhole) : stored t = t := by
  induction t with
  | nil => rfl
  | cons c rest ih =>
    rw [stored_cons_of_not_pair, ih (List.IsChain.tail h)]
    intro d hd
    obtain ⟨tail, rfl⟩ := List.head?_eq_some_iff.1 hd
    exact (List.isChain_cons_cons.1 h).1

/-- A plain text is stored for itself only: joining pairs takes nothing plain out of a text and puts
nothing plain into it, so no other text can be stored as a plain one. -/
theorem eq_of_stored_isPlain {t : Text} (h : IsPlain (stored t)) : stored t = t := by
  have hunits : ∀ u ∈ t.flatMap unitsOf, u < 0x10000 := by
    intro u hu
    obtain ⟨c, -, hc⟩ := List.mem_flatMap.1 hu
    exact unit_lt hc
  obtain ⟨heq, hall⟩ := joinFrom_of_isPlain hunits h
  have hsmall : ∀ c ∈ t, c.val < 0x10000 := by
    intro c hc
    by_contra hlarge
    obtain ⟨u, v, huv, hpair, -⟩ := unitsOf_of_large (Nat.le_of_not_lt hlarge)
    have hu := hall u (List.mem_flatMap.2 ⟨c, hc, by simp [huv]⟩)
    simp only [isHigh, Bool.and_eq_true, decide_eq_true_eq] at hpair
    omega
  have hmap : t.flatMap unitsOf = t.map Fin.val := by
    clear heq hall hunits h
    induction t with
    | nil => rfl
    | cons c rest ih =>
      have hc : unitsOf c = [c.val] := if_pos (hsmall c (by simp))
      rw [List.flatMap_cons, hc, ih fun d hd => hsmall d (by simp [hd])]
      rfl
  unfold stored
  rw [heq, hmap, List.map_map]
  conv_rhs => rw [← List.map_id t]
  refine List.map_congr_left fun c _ => ?_
  exact Fin.ext (Nat.mod_eq_of_lt c.isLt)

/-- A text whose first code point closes no pair of a surrogate in front stays whole with it. -/
theorem isWhole_cons {c : CodePoint} {t : Text} (ht : t.IsWhole)
    (h : ∀ d, t.head? = some d → ¬ (c.isHighSurrogate = true ∧ d.isLowSurrogate = true)) :
    Text.IsWhole (c :: t) := by
  cases t with
  | nil => exact .singleton c
  | cons d t => exact List.isChain_cons_cons.2 ⟨h d rfl, ht⟩

theorem isWhole_of_isPlain {t : Text} (h : IsPlain t) : t.IsWhole := by
  induction t with
  | nil => exact .nil
  | cons c rest ih =>
    refine isWhole_cons (ih fun d hd => h d (List.mem_cons_of_mem c hd)) ?_
    rintro d - ⟨hhigh, -⟩
    have := h c (List.mem_cons_self ..)
    simp only [CodePoint.isHighSurrogate, Bool.and_eq_true, decide_eq_true_eq] at hhigh
    omega

/-- What is stored as a plain text is that text. -/
theorem stored_eq_iff {t name : Text} (h : IsPlain name) : stored t = name ↔ t = name := by
  constructor
  · rintro rfl
    exact (eq_of_stored_isPlain h).symm
  · rintro rfl
    exact stored_of_isWhole (isWhole_of_isPlain h)

/-- A unit that is no surrogate is joined with nothing around it. -/
theorem joinFrom_append_cons {u : Nat} (hu : u < 0xD800) (units rest : List Nat) (acc : Text) :
    joinFrom (units ++ u :: rest) acc = joinFrom units acc ++ Fin.ofNat _ u :: joinFrom rest [] := by
  have hlow : isLow u = false := by
    simp only [isLow, Bool.and_eq_false_iff, decide_eq_false_iff_not]
    omega
  have hhigh : isHigh u = false := by
    simp only [isHigh, Bool.and_eq_false_iff, decide_eq_false_iff_not]
    omega
  have hhead (acc : Text) :
      joinFrom (u :: rest) acc = acc.reverse ++ Fin.ofNat _ u :: joinFrom rest [] := by
    rw [← joinFrom_single (fun v _ => by rw [hhigh, Bool.false_and]), ← joinFrom_append, List.nil_append]
  induction units, acc using joinFrom.induct with
  | case1 acc => exact hhead acc
  | case2 w acc =>
    simp only [List.singleton_append, joinFrom, hlow, Bool.and_false, Bool.false_eq_true, if_false,
      hhead]
  | case3 v w tail acc h ih =>
    simp only [List.cons_append, joinFrom, h, if_true]
    exact ih
  | case4 v w tail acc h ih =>
    simp only [List.cons_append, joinFrom, h]
    exact ih

/-- A plain code point is stored as it is, and so is what stands on its sides. -/
theorem stored_append_cons {c : CodePoint} (hc : c.val < 0xD800) (t rest : Text) :
    stored (t ++ c :: rest) = stored t ++ c :: stored rest := by
  have hunits : unitsOf c = [c.val] := if_pos (by omega)
  unfold stored
  rw [List.flatMap_append, List.flatMap_cons, hunits, List.singleton_append, joinFrom_append_cons hc,
    Fin.ofNat_val_eq_self]

/-- Behind a plain code point a text is stored like a text of its own. -/
theorem stored_cons {c : CodePoint} (hc : c.val < 0xD800) (t : Text) :
    stored (c :: t) = c :: stored t := stored_append_cons hc [] t

/-- Only the empty text is stored as the empty one. -/
theorem stored_ne_nil {t : Text} (h : t ≠ []) : stored t ≠ [] := by
  have hjoin (u : Nat) (rest : List Nat) : joinFrom (u :: rest) [] ≠ [] := by
    by_cases hpair : ∃ v tail, rest = v :: tail ∧ (isHigh u && isLow v) = true
    · obtain ⟨v, tail, rfl, hpair⟩ := hpair
      rw [joinFrom_pair hpair]
      exact List.cons_ne_nil _ _
    · rw [joinFrom_single]
      · exact List.cons_ne_nil _ _
      · intro v hv
        cases rest with
        | nil => cases hv
        | cons w tail =>
          cases hv
          exact Bool.eq_false_iff.2 fun hlow => hpair ⟨_, tail, rfl, hlow⟩
  obtain ⟨c, rest, rfl⟩ := List.exists_cons_of_ne_nil h
  unfold stored
  rw [List.flatMap_cons]
  unfold unitsOf
  split <;> exact hjoin _ _

/-- Every code point of joined units is a unit or made of two. -/
theorem mem_joinFrom {units : List Nat} {acc : Text} {c : CodePoint} (h : c ∈ joinFrom units acc) :
    c ∈ acc ∨ (∃ u ∈ units, c = Fin.ofNat _ u) ∨ 0x10000 ≤ c.val := by
  induction units, acc using joinFrom.induct with
  | case1 acc => exact .inl (List.mem_reverse.1 h)
  | case2 u acc =>
    rcases List.mem_cons.1 (List.mem_reverse.1 h) with rfl | h
    · exact .inr (.inl ⟨u, List.mem_singleton_self u, rfl⟩)
    · exact .inl h
  | case3 u v rest acc hpair ih =>
    rw [joinFrom, if_pos hpair] at h
    rcases ih h with h | ⟨w, hw, rfl⟩ | h
    · rcases List.mem_cons.1 h with rfl | h
      · simp only [isHigh, isLow, Bool.and_eq_true, decide_eq_true_eq] at hpair
        rw [Fin.val_ofNat]
        omega
      · exact .inl h
    · exact .inr (.inl ⟨w, by simp [hw], rfl⟩)
    · exact .inr (.inr h)
  | case4 u v rest acc hpair ih =>
    rw [joinFrom, if_neg hpair] at h
    rcases ih h with h | ⟨w, hw, rfl⟩ | h
    · rcases List.mem_cons.1 h with rfl | h
      · exact .inr (.inl ⟨u, List.mem_cons_self .., rfl⟩)
      · exact .inl h
    · exact .inr (.inl ⟨w, List.mem_cons_of_mem u hw, rfl⟩)
    · exact .inr (.inr h)

/-- A plain code point is stored only where it is. -/
theorem mem_of_mem_stored {c : CodePoint} (hc : c.val < 0xD800) {t : Text} (h : c ∈ stored t) :
    c ∈ t := by
  rcases mem_joinFrom h with h | ⟨u, hu, rfl⟩ | h
  · cases h
  · obtain ⟨d, hd, hmem⟩ := List.mem_flatMap.1 hu
    have hlt := unit_lt hmem
    have hval : (Fin.ofNat 0x110000 u).val = u := Nat.mod_eq_of_lt (by omega)
    rw [hval] at hc
    unfold unitsOf at hmem
    split at hmem
    · rw [List.mem_singleton.1 hmem, Fin.ofNat_val_eq_self]
      exact hd
    · -- a half of a pair is no plain unit
      rcases List.mem_pair.1 hmem with hhalf | hhalf <;> omega
  · omega

/-- A text that is joined from units holds no high surrogate right before a low one; and it begins
with a low surrogate only if the units do. -/
theorem isWhole_joinFrom : ∀ {units : List Nat}, (∀ u ∈ units, u < 0x10000) →
    (joinFrom units []).IsWhole ∧ ∀ c, (joinFrom units []).head? = some c →
      c.isLowSurrogate = true → ∃ v, units.head? = some v ∧ isLow v = true
  | [], _ => ⟨.nil, nofun⟩
  | u :: rest, hunits => by
    have hu : u < 0x10000 := hunits u (by simp)
    have hval : (Fin.ofNat 0x110000 u).val = u := by
      rw [Fin.val_ofNat]
      omega
    by_cases hpair : ∃ v tail, rest = v :: tail ∧ (isHigh u && isLow v) = true
    · obtain ⟨v, tail, rfl, hpair⟩ := hpair
      have htailUnits : ∀ w ∈ tail, w < 0x10000 := fun w hw => hunits w (by simp [hw])
      obtain ⟨htail, -⟩ := isWhole_joinFrom htailUnits
      have hv : v < 0x10000 := hunits v (by simp)
      rw [joinFrom_pair hpair]
      simp only [isHigh, isLow, Bool.and_eq_true, decide_eq_true_eq] at hpair
      -- the code point of a pair is no surrogate
      have hcode : ¬ (Fin.ofNat 0x110000 (0x10000 + (u - 0xD800) * 0x400 + (v - 0xDC00))).val <
          0x10000 := by
        rw [Fin.val_ofNat]
        omega
      refine ⟨isWhole_cons htail ?_, ?_⟩
      · rintro d - ⟨hhigh, -⟩
        simp only [CodePoint.isHighSurrogate, Bool.and_eq_true, decide_eq_true_eq] at hhigh
        omega
      · intro c hc hlow
        simp only [List.head?_cons, Option.some.injEq] at hc
        subst hc
        simp only [CodePoint.isLowSurrogate, Bool.and_eq_true, decide_eq_true_eq] at hlow
        omega
    · have hrestUnits : ∀ w ∈ rest, w < 0x10000 := fun w hw => hunits w (by simp [hw])
      obtain ⟨hrest, hhead⟩ := isWhole_joinFrom hrestUnits
      rw [joinFrom_single]
      · refine ⟨isWhole_cons hrest ?_, ?_⟩
        · rintro d hd ⟨hhigh, hlow⟩
          obtain ⟨v, hv, hlow⟩ := hhead d hd hlow
          obtain ⟨tail, rfl⟩ := List.head?_eq_some_iff.1 hv
          refine hpair ⟨v, tail, rfl, ?_⟩
          simp only [CodePoint.isHighSurrogate, hval] at hhigh
          simp [isHigh, hlow, hhigh]
        · intro c hc hlow
          simp only [List.head?_cons, Option.some.injEq] at hc
          subst hc
          simp only [CodePoint.isLowSurrogate, hval] at hlow
          exact ⟨u, rfl, hlow⟩
      · intro v hv
        obtain ⟨tail, rfl⟩ := List.head?_eq_some_iff.1 hv
        by_contra hnot
        exact hpair ⟨v, tail, rfl, by simpa using hnot⟩
termination_by units => units.length

/-- Bytes are read if they are forms, as what the units of the forms make. -/
theorem decode_eq_ok_iff {bytes : Bytes} {t : Text} : decode bytes = .ok t ↔
    ∃ forms : List UnitForm, bytes = forms.flatMap UnitForm.bytes ∧
      t = joinFrom (forms.map UnitForm.unit) [] := by
  unfold decode
  constructor
  · intro h
    cases hunits : unitsFrom bytes 0 [] with
    | error fault =>
      rw [hunits] at h
      cases h
    | ok units =>
      rw [hunits] at h
      cases h
      obtain ⟨forms, rfl, rfl⟩ := exists_forms_of_unitsFrom hunits
      exact ⟨forms, rfl, rfl⟩
  · rintro ⟨forms, rfl, rfl⟩
    rw [unitsFrom_forms]
    rfl

theorem unit_lt_of_forms (forms : List UnitForm) : ∀ u ∈ forms.map UnitForm.unit, u < 0x10000 := by
  intro u hu
  obtain ⟨f, -, rfl⟩ := List.mem_map.1 hu
  exact f.unit_lt

theorem isWhole_of_decode {bytes : Bytes} {t : Text} (h : decode bytes = .ok t) : t.IsWhole := by
  obtain ⟨forms, -, rfl⟩ := decode_eq_ok_iff.1 h
  exact (isWhole_joinFrom (unit_lt_of_forms forms)).1

/-! ## Lengths -/

/-- The units of joined units are these units: joining a pair of surrogates makes a code point whose
units are the pair. The induction is on the units, two at a time where they make a pair. -/
theorem flatMap_unitsOf_joinFrom {units : List Nat} {acc : Text} (h : ∀ u ∈ units, u < 0x10000) :
    (joinFrom units acc).flatMap unitsOf = acc.reverse.flatMap unitsOf ++ units := by
  have hsingle {u : Nat} (hu : u < 0x10000) : unitsOf (Fin.ofNat _ u) = [u] := by
    have hval : (Fin.ofNat 0x110000 u).val = u := Nat.mod_eq_of_lt (by omega)
    unfold unitsOf
    rw [hval, if_pos hu]
  induction units, acc using joinFrom.induct with
  | case1 acc => simp [joinFrom]
  | case2 u acc =>
    rw [joinFrom, List.reverse_cons, List.flatMap_append, List.flatMap_singleton,
      hsingle (h u (List.mem_singleton_self u))]
  | case3 u v rest acc hpair ih =>
    rw [joinFrom, if_pos hpair, ih fun w hw => h w (by simp [hw])]
    simp only [isHigh, isLow, Bool.and_eq_true, decide_eq_true_eq] at hpair
    have hval : (Fin.ofNat 0x110000 (0x10000 + (u - 0xD800) * 0x400 + (v - 0xDC00))).val =
        0x10000 + (u - 0xD800) * 0x400 + (v - 0xDC00) := Nat.mod_eq_of_lt (by omega)
    have hpaired : unitsOf (Fin.ofNat _ (0x10000 + (u - 0xD800) * 0x400 + (v - 0xDC00))) = [u, v] := by
      unfold unitsOf
      rw [hval, if_neg (by omega), List.cons.injEq, List.cons.injEq]
      exact ⟨by omega, by omega, rfl⟩
    rw [List.reverse_cons, List.flatMap_append, List.flatMap_singleton, hpaired, List.append_assoc]
    rfl
  | case4 u v rest acc hpair ih =>
    rw [joinFrom, if_neg hpair, ih fun w hw => h w (List.mem_cons_of_mem u hw), List.reverse_cons,
      List.flatMap_append, List.flatMap_singleton, hsingle (h u List.mem_cons_self),
      List.append_assoc]
    rfl

/-- What forms are read as is written as the shortest forms of their units. -/
theorem encode_joinFrom_forms (forms : List UnitForm) :
    encode (joinFrom (forms.map UnitForm.unit) []) =
      (forms.map UnitForm.unit).flatMap encodeUnit := by
  unfold encode
  rw [flatMap_unitsOf_joinFrom (unit_lt_of_forms forms)]
  rfl

/-- A text that has been read takes no more bytes than it was read from. -/
theorem length_encode_le_of_decode {bytes : Bytes} {t : Text} (h : decode bytes = .ok t) :
    (encode t).length ≤ bytes.length := by
  obtain ⟨forms, rfl, rfl⟩ := decode_eq_ok_iff.1 h
  rw [encode_joinFrom_forms]
  exact (length_flatMap_encodeUnit forms).1

/-- Forms are written as they were read if there is no overlong one among them. -/
theorem encode_eq_iff_of_forms (forms : List UnitForm) :
    encode (joinFrom (forms.map UnitForm.unit) []) = forms.flatMap UnitForm.bytes ↔
      ∀ f ∈ forms, ¬ f.IsOverlong := by
  rw [encode_joinFrom_forms]
  constructor
  · intro heq f hf hlong
    have hlt := (length_flatMap_encodeUnit forms).2 f hf hlong
    rw [heq] at hlt
    exact Nat.lt_irrefl _ hlt
  · exact flatMap_encodeUnit_unit

/-- A text is no longer than its bytes. -/
theorem length_le_length_encode (t : Text) : t.length ≤ (encode t).length := by
  have hunit (u : Nat) : 1 ≤ (encodeUnit u).length := by
    unfold encodeUnit
    split_ifs <;> simp
  induction t with
  | nil => simp
  | cons c t ih =>
    have hfirst : 1 ≤ ((unitsOf c).flatMap encodeUnit).length := by
      unfold unitsOf
      split
      · simpa using hunit _
      · have := hunit (0xD800 + (c.val - 0x10000) / 0x400)
        simp only [List.flatMap_cons, List.length_append]
        omega
    unfold encode at ih ⊢
    rw [List.flatMap_cons, List.flatMap_append, List.length_append, List.length_cons]
    omega

end ModifiedUtf8

/-! ## Pairs -/

namespace Text

/-- The code point that a high and a low surrogate make. -/
def paired (high low : CodePoint) : CodePoint :=
  Fin.ofNat _ (0x10000 + (high.val - 0xD800) * 0x400 + (low.val - 0xDC00))

/-- Each high surrogate right before a low one makes one code point with it. -/
def joined : Text → Text
  | [] => []
  | [c] => [c]
  | c :: d :: rest =>
    if c.isHighSurrogate && d.isLowSurrogate then paired c d :: joined rest
    else c :: joined (d :: rest)

theorem length_joined_le (t : Text) : t.joined.length ≤ t.length := by
  induction t using joined.induct with
  | case1 => exact le_rfl
  | case2 c => exact le_rfl
  | case3 c d rest h ih =>
    rw [joined, if_pos h, List.length_cons, List.length_cons, List.length_cons]
    omega
  | case4 c d rest h ih =>
    rw [joined, if_neg h, List.length_cons, List.length_cons]
    omega

/-- Joining leaves a text alone that has no pair, and no other. -/
theorem joined_eq_self_iff (t : Text) : t.joined = t ↔ t.IsWhole := by
  induction t using joined.induct with
  | case1 => exact ⟨fun _ => .nil, fun _ => rfl⟩
  | case2 c => exact ⟨fun _ => .singleton c, fun _ => rfl⟩
  | case3 c d rest h ih =>
    have hpair : c.isHighSurrogate = true ∧ d.isLowSurrogate = true := by simpa using h
    rw [joined, if_pos h]
    constructor
    · intro heq
      have hlength := congrArg List.length heq
      have hle := length_joined_le rest
      simp only [List.length_cons] at hlength
      omega
    · intro hwhole
      exact absurd hpair (List.isChain_cons_cons.1 hwhole).1
  | case4 c d rest h ih =>
    have hpair : ¬ (c.isHighSurrogate = true ∧ d.isLowSurrogate = true) := by simpa using h
    rw [joined, if_neg h, List.cons.injEq, eq_self, true_and, ih]
    exact ⟨fun hwhole => List.isChain_cons_cons.2 ⟨hpair, hwhole⟩, List.IsChain.tail⟩

end Text

namespace ModifiedUtf8

/-- A text is stored with its pairs joined. -/
theorem stored_eq_joined (t : Text) : stored t = t.joined := by
  induction t using Text.joined.induct with
  | case1 => rfl
  | case2 c => exact stored_cons_of_not_pair nofun
  | case3 c d rest h ih =>
    obtain ⟨hhigh, hlow⟩ := (Bool.and_eq_true _ _).mp h
    simp only [CodePoint.isHighSurrogate, Bool.and_eq_true, decide_eq_true_eq] at hhigh
    simp only [CodePoint.isLowSurrogate, Bool.and_eq_true, decide_eq_true_eq] at hlow
    have hfirst : unitsOf c = [c.val] := if_pos (by omega)
    have hsecond : unitsOf d = [d.val] := if_pos (by omega)
    rw [Text.joined, if_pos h, ← ih]
    unfold stored
    rw [List.flatMap_cons, List.flatMap_cons, hfirst, hsecond]
    exact joinFrom_pair h _
  | case4 c d rest h ih =>
    rw [Text.joined, if_neg h, ← ih]
    refine stored_cons_of_not_pair ?_
    rintro e ⟨⟩
    simpa using h

/-- Every text is written and read back with its pairs joined, which changes no text without one.
Bytes are read exactly if they are forms, as a text without a pair that takes no more bytes, and the
same bytes exactly if no form is overlong. -/
theorem exact_on_forms (t : Text) (bytes : Bytes) :
    decode (encode t) = .ok t.joined ∧ (t.joined = t ↔ t.IsWhole) ∧
      ((∃ read, decode bytes = .ok read) ↔
        ∃ forms : List UnitForm, bytes = forms.flatMap UnitForm.bytes) ∧
      ∀ read, decode bytes = .ok read →
        read.IsWhole ∧ (encode read).length ≤ bytes.length ∧
          ∀ forms : List UnitForm, bytes = forms.flatMap UnitForm.bytes →
            (encode read = bytes ↔ ∀ f ∈ forms, ¬ f.IsOverlong) := by
  refine ⟨?_, t.joined_eq_self_iff, ?_, ?_⟩
  · rw [decode_encode, stored_eq_joined]
  · constructor
    · rintro ⟨read, hread⟩
      obtain ⟨forms, hbytes, -⟩ := decode_eq_ok_iff.1 hread
      exact ⟨forms, hbytes⟩
    · rintro ⟨forms, hbytes⟩
      exact ⟨_, decode_eq_ok_iff.2 ⟨forms, hbytes, rfl⟩⟩
  · intro read hread
    refine ⟨isWhole_of_decode hread, length_encode_le_of_decode hread, ?_⟩
    rintro forms rfl
    have hmade := decode_eq_ok_iff.2 ⟨forms, rfl, rfl⟩
    obtain rfl : read = _ := Except.ok.inj (hread.symm.trans hmade)
    exact encode_eq_iff_of_forms forms

/-- The zero unit in its two bytes, `A` in two bytes too many and a high surrogate in three. -/
theorem exact_on_forms_overlong :
    decode [0xC0, 0x80, 0xC1, 0x81, 0xED, 0xA0, 0x80] = .ok [0, 0x41, 0xD800] ∧
      encode [0, 0x41, 0xD800] ≠ [0xC0, 0x80, 0xC1, 0x81, 0xED, 0xA0, 0x80] := by
  have hread : decode [0xC0, 0x80, 0xC1, 0x81, 0xED, 0xA0, 0x80] = .ok [0, 0x41, 0xD800] := by cbv
  refine ⟨hread, ?_⟩
  intro heq
  have hforms := (((exact_on_forms [] _).2.2.2 _ hread).2.2
    [.two 0 (by decide), .two 0x41 (by decide), .three 0xD800 (by decide)] (by decide)).1 heq
  exact hforms (.two 0x41 (by decide)) (by simp) ⟨by decide, by decide⟩

end ModifiedUtf8

end ClassTree
