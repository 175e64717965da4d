import ExprBackend.Number.Binary64
import Mathlib

/-!
# The order of floats

Every word that is no not-a-number stands for a number, which is finite or one of the two
infinities. The relations on words are the relations of these numbers, and none of them holds of a
not-a-number: both zeros are one number, and everything else is told apart by sign, exponent and
fraction.
-/

namespace ExprBackend.Binary64

open Float.Model Float.Model.UnpackedFloat

/-- The rational numbers and two infinities. -/
abbrev Extended := WithBot (WithTop ℚ)

/-- A number of units, which are as large as the least positive float. -/
def ofUnits (z : ℤ) : Extended := ((z / 2 ^ 1074 : ℚ) : WithTop ℚ)

def units (w : UInt64) : ℤ :=
  if isNegative w then -((finite w).mantissa * 2 ^ (finite w).exponent : Nat)
  else ((finite w).mantissa * 2 ^ (finite w).exponent : Nat)

/-- The number that a word stands for, which a not-a-number does not. -/
def number? (w : UInt64) : Option Extended :=
  if isNaN w then none
  else if magnitude w = infinity then some (if isNegative w then ⊥ else ⊤)
  else some (ofUnits (units w))

theorem ofUnits_strictMono : StrictMono ofUnits := by
  intro y z h
  have hdiv : (y / 2 ^ 1074 : ℚ) < z / 2 ^ 1074 := by
    apply div_lt_div_of_pos_right _ (by positivity)
    exact_mod_cast h
  exact WithBot.coe_lt_coe.2 (WithTop.coe_lt_coe.2 hdiv)

theorem bot_lt_ofUnits (z : ℤ) : ⊥ < ofUnits z := WithBot.bot_lt_coe _

theorem ofUnits_lt_top (z : ℤ) : ofUnits z < ⊤ := WithBot.coe_lt_coe.2 (WithTop.coe_lt_top _)

def field (w : UInt64) : Nat := w.toNat / 2 ^ 52 % 2 ^ 11

def fraction (w : UInt64) : Nat := w.toNat % 2 ^ 52

def sign (w : UInt64) : Sign := if isNegative w then .negative else .positive

theorem field_lt (w : UInt64) : field w < 2048 := Nat.mod_lt _ (by decide)

theorem fraction_lt (w : UInt64) : fraction w < 2 ^ 52 := Nat.mod_lt _ (by decide)

theorem toNat_magnitude (w : UInt64) : (magnitude w).toNat = field w * 2 ^ 52 + fraction w := by
  have hmask : (magnitude w).toNat = w.toNat % 2 ^ 63 := by
    rw [magnitude, UInt64.toNat_and]
    exact Nat.and_two_pow_sub_one_eq_mod w.toNat 63
  rw [hmask, field, fraction]
  omega

theorem toNat_infinity : infinity.toNat = 2047 * 2 ^ 52 := rfl

theorem isNegative_iff (w : UInt64) : isNegative w = true ↔ w.toNat / 2 ^ 63 = 1 := by
  have hbit : w.toNat &&& 2 ^ 63 = 2 ^ 63 * (w.toNat / 2 ^ 63 % 2) := by
    rw [Nat.and_comm, Nat.two_pow_and, Nat.toNat_testBit]
  have hlt : w.toNat < 2 ^ 64 := w.toNat_lt
  unfold isNegative signBit
  rw [bne_iff_ne, ne_eq, ← UInt64.toNat_inj, UInt64.toNat_and]
  change ¬ w.toNat &&& 2 ^ 63 = 0 ↔ _
  rw [hbit]
  omega

theorem isNaN_iff (w : UInt64) : isNaN w = true ↔ field w = 2047 ∧ fraction w ≠ 0 := by
  have hfield := field_lt w
  have hfraction := fraction_lt w
  unfold isNaN
  rw [decide_eq_true_eq, gt_iff_lt, UInt64.lt_iff_toNat_lt, toNat_magnitude, toNat_infinity]
  omega

theorem magnitude_eq_infinity_iff (w : UInt64) :
    magnitude w = infinity ↔ field w = 2047 ∧ fraction w = 0 := by
  have hfield := field_lt w
  have hfraction := fraction_lt w
  rw [← UInt64.toNat_inj, toNat_magnitude, toNat_infinity]
  omega

theorem finite_eq (w : UInt64) : finite w =
    if field w = 0 then ⟨fraction w, 0⟩ else ⟨2 ^ 52 + fraction w, field w - 1⟩ := by
  have hfraction := fraction_lt w
  have hdiv : (field w * 2 ^ 52 + fraction w) / hiddenBit = field w := by
    unfold hiddenBit
    omega
  have hmod : (field w * 2 ^ 52 + fraction w) % hiddenBit = fraction w := by
    unfold hiddenBit
    omega
  unfold finite
  simp only [toNat_magnitude, hdiv, hmod]
  split
  next h => simp [h]
  next => rfl

def ofFields (s : Sign) (field fraction : Nat) : UnpackedFloat :=
  if field = 2047 then if fraction = 0 then .infinity s else .notANumber
  else if field = 0 then
    if h : fraction = 0 then .zero s else .finite s fraction (-1074) (Nat.pos_of_ne_zero h)
  else .finite s (2 ^ 52 + fraction) (field - 1075) (by omega)

/-- A float is what its fields say. -/
theorem unpack_eq_ofFields (b : BitVec Format.binary64.numBits) :
    UnpackedFloat.unpack Format.binary64 b =
      ofFields (.ofBitVec (unpackSign b)) (unpackExponent b).toNat (unpackMantissa b).toNat := by
  have hones (e : BitVec Format.binary64.exponentBits) : e = -1#_ ↔ e.toNat = 2047 := by
    rw [← BitVec.toNat_inj]
    rfl
  have hzero (e : BitVec Format.binary64.exponentBits) : e = 0#_ ↔ e.toNat = 0 := by
    rw [← BitVec.toNat_inj]
    rfl
  have hnone (m : BitVec Format.binary64.mantissaBitsWithoutImplicit) : m = 0#_ ↔ m.toNat = 0 := by
    rw [← BitVec.toNat_inj]
    rfl
  have hnormal (m : BitVec Format.binary64.mantissaBitsWithoutImplicit) :
      (1#1 ++ m).toNat = 2 ^ 52 + m.toNat := by
    rw [BitVec.toNat_append, ← Nat.shiftLeft_add_eq_or_of_lt m.isLt]
    simp [Nat.shiftLeft_eq]
  have hbias : Format.binary64.exponentBias = 1023 := rfl
  unfold UnpackedFloat.unpack ofFields
  simp only [hones, hzero, hnone, hnormal, hbias]
  split
  · rfl
  · split
    next h =>
      split
      · rfl
      · rw [h]
        rfl
    · rfl

theorem toNat_unpackMantissa (w : UInt64) :
    (@unpackMantissa Format.binary64 w.toBitVec).toNat = fraction w := by
  simp [unpackMantissa, fraction]

theorem toNat_unpackExponent (w : UInt64) :
    (@unpackExponent Format.binary64 w.toBitVec).toNat = field w := by
  simp [unpackExponent, field, Nat.shiftRight_eq_div_pow]

theorem ofBitVec_unpackSign (w : UInt64) :
    Sign.ofBitVec (@unpackSign Format.binary64 w.toBitVec) = sign w := by
  have hword := w.toNat_lt
  have hlt : w.toNat / 2 ^ 63 < 2 := by omega
  have hbit : (@unpackSign Format.binary64 w.toBitVec).toNat = w.toNat / 2 ^ 63 := by
    simpa [unpackSign, Nat.shiftRight_eq_div_pow] using hlt
  have hpositive : @unpackSign Format.binary64 w.toBitVec = 0#1 ↔ w.toNat / 2 ^ 63 = 0 := by
    rw [← BitVec.toNat_inj, hbit]
    rfl
  unfold Sign.ofBitVec sign
  split
  next h =>
    have hneg : ¬ isNegative w = true := by
      rw [isNegative_iff]
      rw [hpositive] at h
      omega
    rw [if_neg hneg]
  next h =>
    have hneg : isNegative w = true := by
      rw [isNegative_iff]
      rw [hpositive] at h
      omega
    rw [if_pos hneg]

theorem unpack_toBitVec (w : UInt64) :
    UnpackedFloat.unpack Format.binary64 w.toBitVec = ofFields (sign w) (field w) (fraction w) := by
  rw [unpack_eq_ofFields, ofBitVec_unpackSign, toNat_unpackExponent, toNat_unpackMantissa]

theorem unpackSign_packComponents (s : Sign) (e : BitVec Format.binary64.exponentBits)
    (m : BitVec Format.binary64.mantissaBitsWithoutImplicit) :
    unpackSign (packComponents Format.binary64 s e m) = s.toBitVec := by
  change (s.toBitVec ++ e ++ m).extractLsb' 63 1 = s.toBitVec
  rw [BitVec.extractLsb'_append_eq_of_le (by decide),
    BitVec.extractLsb'_append_eq_of_le (by decide)]
  cases s with
  | negative => rfl
  | positive => rfl

theorem unpack_packComponents (s : Sign) (e : BitVec Format.binary64.exponentBits)
    (m : BitVec Format.binary64.mantissaBitsWithoutImplicit) :
    UnpackedFloat.unpack Format.binary64 (packComponents Format.binary64 s e m) =
      ofFields s e.toNat m.toNat := by
  have hsign : Sign.ofBitVec s.toBitVec = s := by
    cases s with
    | negative => rfl
    | positive => rfl
  rw [unpack_eq_ofFields, unpackSign_packComponents, unpackExponent_packComponents,
    unpackMantissa_packComponents, hsign]

section Pack

variable (s : Sign) {field fraction : Nat}

theorem pack_subnormal (hnone : fraction ≠ 0) (hfraction : fraction < 2 ^ 52) :
    UnpackedFloat.pack Format.binary64 (ofFields s 0 fraction) =
      packComponents Format.binary64 s 0#_ (BitVec.ofNat _ fraction) := by
  have hbias : Format.binary64.exponentBias = 1023 := rfl
  have hwidth : Format.binary64.mantissaBits = 53 := rfl
  have hlog : fraction.log2 < 52 := (Nat.log2_lt hnone).2 hfraction
  have hof : ofFields s 0 fraction = .finite s fraction (-1074) (Nat.pos_of_ne_zero hnone) := by
    simp [ofFields, hnone]
  rw [hof]
  unfold UnpackedFloat.pack
  simp only [hbias]
  rw [if_neg (by decide), if_neg (by omega)]

theorem pack_normal (hfinite : field < 2047) (hnormal : field ≠ 0) (hfraction : fraction < 2 ^ 52) :
    UnpackedFloat.pack Format.binary64 (ofFields s field fraction) =
      packComponents Format.binary64 s (BitVec.ofNat _ field) (BitVec.ofNat _ (2 ^ 52 + fraction)) := by
  have hbias : Format.binary64.exponentBias = 1023 := rfl
  have hwidth : Format.binary64.mantissaBits = 53 := rfl
  have hlog : (2 ^ 52 + fraction).log2 = 52 := by
    rw [Nat.log2_eq_iff (by omega)]
    omega
  have hexponent : ((field : Int) - 1075 + (1023 : Nat) + (52 : Nat)).toNat = field := by omega
  have hof : ofFields s field fraction =
      .finite s (2 ^ 52 + fraction) (field - 1075) (by omega) := by
    simp [ofFields, hfinite.ne, hnormal]
  rw [hof]
  unfold UnpackedFloat.pack
  simp only [hbias, hlog, hexponent]
  rw [if_neg (by omega), if_pos hwidth.symm]

/-- Packing loses nothing: a not-a-number has no fields but those that make it one. -/
theorem unpack_pack_ofFields (hfield : field < 2048) (hfraction : fraction < 2 ^ 52) :
    UnpackedFloat.unpack Format.binary64
      (UnpackedFloat.pack Format.binary64 (ofFields s field fraction)) =
        ofFields s field fraction := by
  have hmod {n k : Nat} (h : k < 2 ^ n) : (BitVec.ofNat n k).toNat = k := by
    rw [BitVec.toNat_ofNat, Nat.mod_eq_of_lt h]
  by_cases hspecial : field = 2047
  · subst hspecial
    by_cases hinf : fraction = 0
    · subst hinf
      exact unpack_packComponents s _ _
    · have hnan : ofFields s 2047 fraction = .notANumber := by simp [ofFields, hinf]
      rw [hnan]
      exact unpack_packComponents .positive _ _
  · by_cases hzero : field = 0
    · subst hzero
      by_cases hnone : fraction = 0
      · subst hnone
        exact unpack_packComponents s _ _
      · rw [pack_subnormal s hnone hfraction, unpack_packComponents, hmod hfraction]
        rfl
    · have hm : (BitVec.ofNat 52 (2 ^ 52 + fraction)).toNat = fraction := by
        rw [BitVec.toNat_ofNat]
        omega
      rw [pack_normal s (by omega) hzero hfraction, unpack_packComponents, hmod hfield, hm]

end Pack

def value? : UnpackedFloat → Option Extended
  | .notANumber => none
  | .infinity .negative => some ⊥
  | .infinity .positive => some ⊤
  | .zero _ => some (ofUnits 0)
  | .finite s m e _ => some (ofUnits (s.apply (m * 2 ^ (e + 1074).toNat)))

/-- A mantissa has all its bits unless the exponent is the least one. -/
structure Canonical (m : Nat) (e : ℤ) : Prop where
  lower : -1074 ≤ e
  upper : m < 2 ^ 53
  full : 2 ^ 52 ≤ m ∨ e = -1074

def IsCanonical : UnpackedFloat → Prop
  | .finite _ m e _ => Canonical m e
  | _ => True

section Units

variable {m₁ m₂ : Nat} {e₁ e₂ : ℤ}

theorem units_lt (h₁ : Canonical m₁ e₁) (h₂ : Canonical m₂ e₂) (h : e₁ < e₂) :
    m₁ * 2 ^ (e₁ + 1074).toNat < m₂ * 2 ^ (e₂ + 1074).toNat := by
  have hlow := h₁.lower
  have hfull : 2 ^ 52 ≤ m₂ := h₂.full.resolve_right (by omega)
  have hexp : (e₁ + 1074).toNat + 1 ≤ (e₂ + 1074).toNat := by omega
  calc m₁ * 2 ^ (e₁ + 1074).toNat < 2 ^ 53 * 2 ^ (e₁ + 1074).toNat :=
        Nat.mul_lt_mul_of_pos_right h₁.upper (Nat.two_pow_pos _)
    _ = 2 ^ 52 * 2 ^ ((e₁ + 1074).toNat + 1) := by
        rw [pow_succ]
        ring
    _ ≤ m₂ * 2 ^ (e₂ + 1074).toNat :=
        Nat.mul_le_mul hfull (Nat.pow_le_pow_right (by decide) hexp)

/-- Exponents first, then mantissas: that is the order of the products. -/
theorem compare_units (h₁ : Canonical m₁ e₁) (h₂ : Canonical m₂ e₂) :
    (compare e₁ e₂).then (compare m₁ m₂) =
      cmp ((m₁ * 2 ^ (e₁ + 1074).toNat : Nat) : ℤ) ((m₂ * 2 ^ (e₂ + 1074).toNat : Nat) : ℤ) := by
  rw [Nat.strictMono_cast.cmp_map_eq, ← cmp_eq_compare, ← cmp_eq_compare]
  rcases lt_trichotomy e₁ e₂ with hlt | rfl | hgt
  · rw [hlt.cmp_eq_lt, (units_lt h₁ h₂ hlt).cmp_eq_lt]
    rfl
  · have hmono : StrictMono fun m : Nat => m * 2 ^ (e₁ + 1074).toNat := by
      intro m m' hm
      exact Nat.mul_lt_mul_of_pos_right hm (Nat.two_pow_pos _)
    rw [cmp_self_eq_eq]
    exact (hmono.cmp_map_eq m₁ m₂).symm
  · rw [hgt.cmp_eq_gt, (units_lt h₂ h₁ hgt).cmp_eq_gt]
    rfl

theorem units_pos {m : Nat} (hm : 0 < m) (k : Nat) : (0 : ℤ) < (m * 2 ^ k : Nat) := by
  exact_mod_cast Nat.mul_pos hm (Nat.two_pow_pos k)

end Units

/-- Floats are compared as the numbers they stand for. -/
theorem compare_eq_cmp {u v : UnpackedFloat} (hu : IsCanonical u) (hv : IsCanonical v) :
    u.compare v = (value? u).bind fun x => (value? v).map (cmp x) := by
  have hends : (⊥ : Extended) < ⊤ := bot_lt_top
  cases u with
  | notANumber => cases v <;> rfl
  | infinity s =>
    cases v with
    | notANumber => cases s <;> rfl
    | infinity s' =>
      cases s <;> cases s'
      · exact congrArg some (cmp_self_eq_eq _).symm
      · exact congrArg some hends.cmp_eq_lt.symm
      · exact congrArg some hends.cmp_eq_gt.symm
      · exact congrArg some (cmp_self_eq_eq _).symm
    | zero s' =>
      cases s
      · exact congrArg some (bot_lt_ofUnits _).cmp_eq_lt.symm
      · exact congrArg some (ofUnits_lt_top _).cmp_eq_gt.symm
    | finite s' m e hm =>
      cases s
      · exact congrArg some (bot_lt_ofUnits _).cmp_eq_lt.symm
      · exact congrArg some (ofUnits_lt_top _).cmp_eq_gt.symm
  | zero s =>
    cases v with
    | notANumber => rfl
    | infinity s' =>
      cases s'
      · exact congrArg some (bot_lt_ofUnits _).cmp_eq_gt.symm
      · exact congrArg some (ofUnits_lt_top _).cmp_eq_lt.symm
    | zero s' => exact congrArg some (cmp_self_eq_eq _).symm
    | finite s' m e hm =>
      have hpos := units_pos hm (e + 1074).toNat
      cases s'
      · exact congrArg some (ofUnits_strictMono (Int.neg_neg_of_pos hpos)).cmp_eq_gt.symm
      · exact congrArg some (ofUnits_strictMono hpos).cmp_eq_lt.symm
  | finite s m e hm =>
    have hpos := units_pos hm (e + 1074).toNat
    cases v with
    | notANumber => cases s <;> rfl
    | infinity s' =>
      cases s <;> cases s'
      · exact congrArg some (bot_lt_ofUnits _).cmp_eq_gt.symm
      · exact congrArg some (ofUnits_lt_top _).cmp_eq_lt.symm
      · exact congrArg some (bot_lt_ofUnits _).cmp_eq_gt.symm
      · exact congrArg some (ofUnits_lt_top _).cmp_eq_lt.symm
    | zero s' =>
      cases s
      · exact congrArg some (ofUnits_strictMono (Int.neg_neg_of_pos hpos)).cmp_eq_lt.symm
      · exact congrArg some (ofUnits_strictMono hpos).cmp_eq_gt.symm
    | finite s' m' e' hm' =>
      have hpos' := units_pos hm' (e' + 1074).toNat
      have hunits := compare_units hu hv
      cases s <;> cases s'
      · -- the order of the magnitudes is turned round
        have hanti : StrictAnti fun z : ℤ => -z := fun y z h => Int.neg_lt_neg h
        apply congrArg some
        rw [hunits, cmp_swap, ← hanti.cmp_map_eq]
        exact (ofUnits_strictMono.cmp_map_eq _ _).symm
      · have hlt := lt_trans (Int.neg_neg_of_pos hpos) hpos'
        exact congrArg some (ofUnits_strictMono hlt).cmp_eq_lt.symm
      · have hlt := lt_trans (Int.neg_neg_of_pos hpos') hpos
        exact congrArg some (ofUnits_strictMono hlt).cmp_eq_gt.symm
      · exact congrArg some (hunits.trans (ofUnits_strictMono.cmp_map_eq _ _).symm)

theorem isCanonical_ofFields (s : Sign) {field fraction : Nat} (hfraction : fraction < 2 ^ 52) :
    IsCanonical (ofFields s field fraction) := by
  unfold ofFields
  split
  · split <;> trivial
  · split
    · split
      · trivial
      · exact ⟨le_refl _, by omega, Or.inr rfl⟩
    · exact ⟨by omega, by omega, Or.inl (Nat.le_add_right _ _)⟩

theorem value?_finite (w : UInt64) {m : Nat} {e : ℤ} (hm : 0 < m)
    (hparts : finite w = ⟨m, (e + 1074).toNat⟩) :
    value? (.finite (sign w) m e hm) = some (ofUnits (units w)) := by
  rw [value?, units, hparts, sign]
  split
  · simp [Sign.apply]
  · simp [Sign.apply]

/-- The fields of a word stand for the number that the word stands for. -/
theorem value?_ofFields (w : UInt64) :
    value? (ofFields (sign w) (field w) (fraction w)) = number? w := by
  unfold number? ofFields
  by_cases hspecial : field w = 2047
  · by_cases hinf : fraction w = 0
    · have hnan : ¬ isNaN w = true := by
        rw [isNaN_iff]
        exact fun h => h.2 hinf
      rw [if_pos hspecial, if_pos hinf, if_neg hnan,
        if_pos ((magnitude_eq_infinity_iff w).2 ⟨hspecial, hinf⟩), sign]
      split <;> rfl
    · rw [if_pos hspecial, if_neg hinf, if_pos ((isNaN_iff w).2 ⟨hspecial, hinf⟩)]
      rfl
  · have hnan : ¬ isNaN w = true := by
      rw [isNaN_iff]
      exact fun h => hspecial h.1
    have hinf : ¬ magnitude w = infinity := by
      rw [magnitude_eq_infinity_iff]
      exact fun h => hspecial h.1
    rw [if_neg hspecial, if_neg hnan, if_neg hinf]
    have hparts := finite_eq w
    by_cases hzero : field w = 0
    · rw [if_pos hzero] at hparts ⊢
      split
      next hnone => simp [value?, units, hparts, hnone]
      next hnone => exact value?_finite w _ hparts
    · rw [if_neg hzero] at hparts ⊢
      have hexponent : ((field w : ℤ) - 1075 + 1074).toNat = field w - 1 := by omega
      exact value?_finite w _ (hexponent ▸ hparts)

theorem unpack_ofBits (w : UInt64) :
    (Float.Model.ofBits w).unpack = ofFields (sign w) (field w) (fraction w) := by
  have hround := unpack_pack_ofFields (sign w) (field_lt w) (fraction_lt w)
  rw [← unpack_toBitVec] at hround ⊢
  exact hround

theorem compare_ofBits (a b : UInt64) :
    (Float.Model.ofBits a).unpack.compare (Float.Model.ofBits b).unpack =
      (number? a).bind fun x => (number? b).map (cmp x) := by
  rw [unpack_ofBits, unpack_ofBits, compare_eq_cmp (isCanonical_ofFields _ (fraction_lt a))
    (isCanonical_ofFields _ (fraction_lt b)), value?_ofFields, value?_ofFields]

theorem lt_iff {a b : UInt64} :
    lt a b = true ↔ ∃ x y, number? a = some x ∧ number? b = some y ∧ x < y := by
  have hlt : lt a b = true ↔
      (Float.Model.ofBits a).unpack.compare (Float.Model.ofBits b).unpack = some .lt := by
    rw [lt, decide_eq_true_eq, ← beq_iff_eq (a := UnpackedFloat.compare _ _)]
    change Float.lt _ _ = true ↔ _
    unfold Float.lt
    rw [decide_eq_true_eq]
    rfl
  rw [hlt, compare_ofBits]
  cases number? a <;> cases number? b <;> simp [cmp_eq_lt_iff]

theorem le_iff {a b : UInt64} :
    le a b = true ↔ ∃ x y, number? a = some x ∧ number? b = some y ∧ x ≤ y := by
  have hle : le a b = true ↔ ((Float.Model.ofBits a).unpack.compare
      (Float.Model.ofBits b).unpack).any Ordering.isLE = true := by
    rw [le, decide_eq_true_eq]
    change Float.le _ _ = true ↔ _
    unfold Float.le
    rw [decide_eq_true_eq]
    rfl
  rw [hle, compare_ofBits]
  cases number? a <;> cases number? b <;> simp [Ordering.isLE_iff_ne_gt, cmp_eq_gt_iff]

theorem eq_iff {a b : UInt64} :
    eq a b = true ↔ ∃ x y, number? a = some x ∧ number? b = some y ∧ x = y := by
  have heq : eq a b = ((Float.Model.ofBits a).unpack.compare (Float.Model.ofBits b).unpack ==
      some .eq) := rfl
  rw [heq, beq_iff_eq, compare_ofBits]
  cases number? a <;> cases number? b <;> simp [eq_comm (a := (_ : Extended))]

end ExprBackend.Binary64
