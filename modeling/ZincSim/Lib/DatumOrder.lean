/-
  ZincSim.Lib.DatumOrder — delivery keeps the order of the data.

  A mode rounds monotonically on the whole line: inside a binade because rounding to an
  integer is monotone, and from one binade to the next because no rounding crosses a power
  of two.  What is out of range stays at or beyond the largest number, so the patterns that
  are delivered are ordered as their data.
-/
import ZincSim.Lib.Datum
import ZincSim.Lib.NumericOrder

namespace Rounding

variable {K : Type*} [Field K] [LinearOrder K] [IsStrictOrderedRing K] [FloorRing K]

/-! ## §1. Rounding to multiples -/

omit [IsStrictOrderedRing K] [FloorRing K] in
/-- A larger fraction above the same integer is rounded up as well. -/
theorem RoundsUp.mono {dir : Direction} {q : ℤ} {f g : K} (h : RoundsUp dir q f) (hfg : f ≤ g) :
    RoundsUp dir q g := by
  cases dir with
  | toZero => exact h
  | away => exact lt_of_lt_of_le h hfg
  | tiesToAway => exact le_trans h hfg
  | tiesToEven =>
    rcases h with hup | ⟨htie, hodd⟩
    · exact .inl (hup.trans_le hfg)
    · rcases hfg.lt_or_eq with hlt | rfl
      · exact .inl (htie ▸ hlt)
      · exact .inr ⟨htie, hodd⟩

/-- The two results of a rounding. -/
theorem roundInt_cases (dir : Direction) (x : K) :
    RoundsUp dir ⌊x⌋ (Int.fract x) ∧ roundInt dir x = ⌊x⌋ + 1 ∨
      ¬ RoundsUp dir ⌊x⌋ (Int.fract x) ∧ roundInt dir x = ⌊x⌋ := by
  have h := roundInt_add_fract dir ⌊x⌋ (Int.fract_nonneg x) (Int.fract_lt_one x)
  rw [Int.floor_add_fract] at h
  by_cases hup : RoundsUp dir ⌊x⌋ (Int.fract x)
  · exact .inl ⟨hup, h.1 hup⟩
  · exact .inr ⟨hup, h.2 hup⟩

/-- **Rounding to an integer is monotone.** -/
theorem roundInt_mono (dir : Direction) {x y : K} (hxy : x ≤ y) :
    roundInt dir x ≤ roundInt dir y := by
  have hfloor := Int.floor_le_floor hxy
  rcases roundInt_cases dir x with ⟨hx, hxr⟩ | ⟨hx, hxr⟩ <;>
    rcases roundInt_cases dir y with ⟨hy, hyr⟩ | ⟨hy, hyr⟩ <;> rw [hxr, hyr]
  · omega
  · -- `x` goes up and `y` does not, so they have different floors
    have hne : ⌊x⌋ ≠ ⌊y⌋ := by
      intro heq
      have hfract : Int.fract x ≤ Int.fract y := by
        rw [Int.fract, Int.fract, heq]
        linarith
      exact hy (heq ▸ hx.mono hfract)
    omega
  · omega
  · exact hfloor

theorem roundAt_mono (dir : Direction) (e : ℤ) {x y : K} (hxy : x ≤ y) :
    roundAt dir e x ≤ roundAt dir e y := by
  have hunit : (0 : K) < 2 ^ e := zpow_pos (by norm_num) e
  refine mul_le_mul_of_nonneg_right ?_ hunit.le
  exact Int.cast_le.mpr (roundInt_mono dir (div_le_div_of_nonneg_right hxy hunit.le))

theorem roundAt_nonneg (dir : Direction) (e : ℤ) {x : K} (hx : 0 ≤ x) : 0 ≤ roundAt dir e x := by
  have h := roundAt_mono dir e hx
  rwa [(roundAt_eq_self_iff dir e 0).mpr ⟨0, by rw [Int.cast_zero, zero_mul]⟩] at h

end Rounding

namespace Binary32

open Rounding

/-! ## §2. The line -/

/-- A magnitude rounded to the grid of the format. -/
noncomputable def roundMagnitude (dir : Direction) (x : ℝ) : ℝ := roundAt dir (ulpExponent x) x

@[simp] theorem ulpExponent_neg (x : ℝ) : ulpExponent (-x) = ulpExponent x := by
  rw [ulpExponent, ulpExponent, abs_neg]

theorem roundReal_of_nonneg (mode : Mode) {x : ℝ} (hx : 0 ≤ x) :
    roundReal mode x = roundMagnitude (mode.direction false) x :=
  if_neg (not_lt.mpr hx)

theorem roundReal_of_neg (mode : Mode) {x : ℝ} (hx : x < 0) :
    roundReal mode x = -roundMagnitude (mode.direction true) (-x) := by
  rw [roundReal, if_pos hx, roundMagnitude, ulpExponent_neg]

theorem roundMagnitude_nonneg (dir : Direction) {x : ℝ} (hx : 0 ≤ x) : 0 ≤ roundMagnitude dir x :=
  roundAt_nonneg dir _ hx

/-- **Magnitudes are rounded monotonically.** -/
theorem roundMagnitude_mono (dir : Direction) {x y : ℝ} (hx : 0 ≤ x) (hxy : x ≤ y) :
    roundMagnitude dir x ≤ roundMagnitude dir y := by
  rcases hx.eq_or_lt with rfl | hpos
  · rw [roundMagnitude, (roundAt_eq_self_iff dir _ 0).mpr ⟨0, by rw [Int.cast_zero, zero_mul]⟩]
    exact roundMagnitude_nonneg dir hxy
  have hpos' := hpos.trans_le hxy
  have hlog : Int.log 2 x ≤ Int.log 2 y := Int.log_mono_right hpos hxy
  have hux : ulpExponent x = max (Int.log 2 x) (-126) - 23 := by rw [ulpExponent, abs_of_pos hpos]
  have huy : ulpExponent y = max (Int.log 2 y) (-126) - 23 := by
    rw [ulpExponent, abs_of_pos hpos']
  by_cases hsame : ulpExponent x = ulpExponent y
  · rw [roundMagnitude, roundMagnitude, hsame]
    exact roundAt_mono dir _ hxy
  · -- the power of two at the foot of the binade of `y` is between the two
    have hfoot : x ≤ 2 ^ Int.log 2 y :=
      (lt_zpow_log_add_one x).le.trans (zpow_le_zpow_right₀ (by norm_num) (by omega))
    calc roundMagnitude dir x ≤ 2 ^ Int.log 2 y := roundAt_le (by omega) hfoot
      _ ≤ roundMagnitude dir y := le_roundAt (by omega) (zpow_log_le hpos')

/-- **A mode rounds the line monotonically.** -/
theorem roundReal_mono (mode : Mode) {x y : ℝ} (hxy : x ≤ y) :
    roundReal mode x ≤ roundReal mode y := by
  rcases lt_or_ge x 0 with hx | hx <;> rcases lt_or_ge y 0 with hy | hy
  · rw [roundReal_of_neg mode hx, roundReal_of_neg mode hy, neg_le_neg_iff]
    exact roundMagnitude_mono _ (neg_pos.mpr hy).le (neg_le_neg hxy)
  · rw [roundReal_of_neg mode hx, roundReal_of_nonneg mode hy]
    exact (neg_nonpos.mpr (roundMagnitude_nonneg _ (neg_pos.mpr hx).le)).trans
      (roundMagnitude_nonneg _ hy)
  · exact absurd (hx.trans hxy) (not_le.mpr hy)
  · rw [roundReal_of_nonneg mode hx, roundReal_of_nonneg mode hy]
    exact roundMagnitude_mono _ hx hxy

/-- A number on its own grid is kept. -/
theorem roundReal_of_onGrid (mode : Mode) {x : ℝ} (h : OnGrid (ulpExponent x) x) :
    roundReal mode x = x := by
  rcases lt_or_ge x 0 with hx | hx
  · rw [roundReal_of_neg mode hx, roundMagnitude, ulpExponent_neg,
      (roundAt_eq_self_iff _ _ _).mpr h.neg, neg_neg]
  · rw [roundReal_of_nonneg mode hx, roundMagnitude, (roundAt_eq_self_iff _ _ _).mpr h]

/-! ## §3. The extended line -/

/-- The value that a mode delivers for a number: past the largest number it is the largest
number or an infinity. -/
noncomputable def limit (mode : Mode) (x : ℝ) : EReal :=
  if largest < roundReal mode x then
    if mode.direction false = .toZero then (largest : EReal) else ⊤
  else if roundReal mode x < -largest then
    if mode.direction true = .toZero then ((-largest : ℝ) : EReal) else ⊥
  else (roundReal mode x : EReal)

/-- The value that a mode delivers for a number or an infinity. -/
noncomputable def roundExtended (mode : Mode) (x : EReal) : EReal :=
  if x = ⊤ then ⊤ else if x = ⊥ then ⊥ else limit mode x.toReal

@[simp] theorem roundExtended_top (mode : Mode) : roundExtended mode ⊤ = ⊤ := if_pos rfl

@[simp] theorem roundExtended_bot (mode : Mode) : roundExtended mode ⊥ = ⊥ := by
  rw [roundExtended, if_neg bot_ne_top, if_pos rfl]

@[simp] theorem roundExtended_coe (mode : Mode) (x : ℝ) :
    roundExtended mode x = limit mode x := by
  rw [roundExtended, if_neg (EReal.coe_ne_top x), if_neg (EReal.coe_ne_bot x), EReal.toReal_coe]

theorem largest_pos : 0 < largest := by
  rw [largest]
  norm_num

theorem limit_mono (mode : Mode) {x y : ℝ} (hxy : x ≤ y) : limit mode x ≤ limit mode y := by
  have hround := roundReal_mono mode hxy
  have hpos := largest_pos
  have htop : (largest : EReal) ≤
      if mode.direction false = .toZero then (largest : EReal) else ⊤ := by
    split
    · exact le_rfl
    · exact le_top
  have hbot : (if mode.direction true = .toZero then ((-largest : ℝ) : EReal) else ⊥) ≤
      ((-largest : ℝ) : EReal) := by
    split
    · exact le_rfl
    · exact bot_le
  have hmiddle : ((-largest : ℝ) : EReal) ≤ largest := EReal.coe_le_coe_iff.mpr (by linarith)
  unfold limit
  by_cases hx : largest < roundReal mode x
  · rw [if_pos hx, if_pos (hx.trans_le hround)]
  · rw [if_neg hx]
    by_cases hy : largest < roundReal mode y
    · rw [if_pos hy]
      refine le_trans ?_ htop
      split
      · exact hbot.trans hmiddle
      · exact EReal.coe_le_coe_iff.mpr (not_lt.mp hx)
    · rw [if_neg hy]
      by_cases hy' : roundReal mode y < -largest
      · rw [if_pos hy', if_pos (hround.trans_lt hy')]
      · rw [if_neg hy']
        split
        · exact hbot.trans (EReal.coe_le_coe_iff.mpr (not_lt.mp hy'))
        · exact EReal.coe_le_coe_iff.mpr hround

/-- **A mode rounds the extended line monotonically.** -/
theorem roundExtended_mono (mode : Mode) : Monotone (roundExtended mode) := by
  intro x y hxy
  induction x using EReal.rec with
  | bot => exact roundExtended_bot mode ▸ bot_le
  | top => rw [top_le_iff.mp hxy]
  | coe x =>
    induction y using EReal.rec with
    | bot => exact absurd (le_bot_iff.mp hxy) (EReal.coe_ne_bot x)
    | top => exact roundExtended_top mode ▸ le_top
    | coe y =>
      rw [roundExtended_coe, roundExtended_coe]
      exact limit_mono mode (EReal.coe_le_coe_iff.mp hxy)

/-! A number that is not below the smallest of the format keeps its sign. -/

theorem onGrid_smallest : OnGrid (ulpExponent (2 ^ (-149 : ℤ))) (2 ^ (-149 : ℤ) : ℝ) := by
  have hlog : Int.log 2 ((2 : ℝ) ^ (-149 : ℤ)) = -149 :=
    log_eq_of_binade le_rfl (zpow_lt_zpow_right₀ (by norm_num) (by norm_num))
  rw [ulpExponent, abs_of_pos (by positivity), hlog]
  exact ⟨1, by rw [Int.cast_one, one_mul]; rfl⟩

theorem limit_of_onGrid (mode : Mode) {x : ℝ} (h : OnGrid (ulpExponent x) x) (hx : |x| ≤ largest) :
    limit mode x = x := by
  obtain ⟨hlow, hhigh⟩ := abs_le.mp hx
  rw [limit, roundReal_of_onGrid mode h, if_neg (not_lt.mpr hhigh), if_neg (not_lt.mpr hlow)]

theorem smallest_le_largest : |(2 : ℝ) ^ (-149 : ℤ)| ≤ largest := by
  rw [abs_of_pos (by positivity), largest]
  norm_num

theorem limit_pos (mode : Mode) {x : ℝ} (h : 2 ^ (-149 : ℤ) ≤ x) : 0 < limit mode x := by
  refine lt_of_lt_of_le ?_ (limit_mono mode h)
  rw [limit_of_onGrid mode onGrid_smallest smallest_le_largest]
  exact EReal.coe_pos.mpr (by positivity)

theorem limit_neg (mode : Mode) {x : ℝ} (h : x ≤ -2 ^ (-149 : ℤ)) : limit mode x < 0 := by
  refine lt_of_le_of_lt (limit_mono mode h) ?_
  rw [limit_of_onGrid mode]
  · exact EReal.coe_neg'.mpr (neg_neg_of_pos (by positivity))
  · rw [ulpExponent_neg]
    exact onGrid_smallest.neg
  · rw [abs_neg]
    exact smallest_le_largest

@[simp] theorem limit_zero (mode : Mode) : limit mode 0 = 0 := by
  rw [limit_of_onGrid mode ⟨0, by rw [Int.cast_zero, zero_mul]⟩ (abs_zero.trans_le largest_pos.le)]
  rfl

/-- A multiple of the smallest number is not nearer to zero. -/
theorem smallest_le_of_onGrid {x : ℝ} (h : OnGrid (-149) x) (hx : 0 < x) :
    2 ^ (-149 : ℤ) ≤ x := by
  obtain ⟨n, rfl⟩ := h
  have hunit : (0 : ℝ) < 2 ^ (-149 : ℤ) := by positivity
  have hn : 0 < n := by exact_mod_cast pos_of_mul_pos_left hx hunit.le
  refine le_mul_of_one_le_left hunit.le ?_
  exact_mod_cast hn

/-- **Rounding does not lose a difference of multiples of the smallest number.** -/
theorem limit_sub_cmp (mode : Mode) {x y : ℝ} (hx : OnGrid (-149) x) (hy : OnGrid (-149) y) :
    (limit mode (x - y) < 0 ↔ x < y) ∧ (limit mode (x - y) = 0 ↔ x = y) := by
  have hgrid : OnGrid (-149) (x - y) := sub_eq_add_neg x y ▸ hx.add hy.neg
  rcases lt_trichotomy x y with hlt | rfl | hgt
  · have hneg : limit mode (x - y) < 0 := by
      refine limit_neg mode ?_
      have h := smallest_le_of_onGrid hgrid.neg (by linarith)
      linarith
    exact ⟨iff_of_true hneg hlt, iff_of_false hneg.ne hlt.ne⟩
  · rw [sub_self, limit_zero]
    exact ⟨iff_of_false (lt_irrefl _) (lt_irrefl _), iff_of_true rfl rfl⟩
  · have hpos := limit_pos mode (smallest_le_of_onGrid hgrid (by linarith))
    exact ⟨iff_of_false hpos.le.not_gt hgt.le.not_gt, iff_of_false hpos.ne' hgt.ne'⟩

/-! ## §4. Patterns of data -/

namespace Datum

/-- The value of a datum, with the two infinities.  A NaN has none. -/
noncomputable def extended : Datum → Option EReal
  | nan _ => none
  | infinite a => some (if a then ⊥ else ⊤)
  | finite _ x => some x

theorem extended_eq_none_iff (d : Datum) : d.extended = none ↔ d.isNaN = true := by
  cases d <;> simp [extended]

/-- The sign of a number other than zero is the one that it has. -/
def WellSigned : Datum → Prop
  | finite a x => x ≠ 0 → (a = true ↔ x < 0)
  | _ => True

end Datum

theorem extended_of_standsFor {pattern : BitVec 32} {x : ℝ} (h : StandsFor pattern x) :
    extended pattern = some (x : EReal) := by
  obtain ⟨v, hv, rfl⟩ := h
  unfold value at hv
  split at hv
  · cases hv
  next hfinite => rw [extended, if_neg hfinite, ← Option.some.inj hv, number]

theorem extended_pack_infinity (s : Bool) :
    extended (pack s 255 0) = some (if s then ⊥ else ⊤) := by
  rw [extended, exponent_pack, fraction_pack, sign_pack, if_pos rfl, if_pos rfl]

theorem extended_pack_largest (s : Bool) : extended (pack s 254 (BitVec.allOnes 23)) =
    some (((if s then -largest else largest : ℝ)) : EReal) := by
  have hmagnitude : magnitude (pack s 254 (BitVec.allOnes 23)) = (2 ^ 24 - 1) * 2 ^ 104 := by
    rw [magnitude, exponent_pack, fraction_pack, if_neg (by decide)]
    show ((2 : ℚ) ^ 23 + ((2 ^ 23 - 1 : ℕ) : ℚ)) * 2 ^ (((254 : ℕ) : ℤ) - 150) = _
    norm_num
  rw [extended, exponent_pack, if_neg (by decide), number, sign_pack, hmagnitude, largest]
  cases s <;> simp

/-- **The pattern of a datum has the value that the mode delivers.** -/
theorem extended_of_encodes {mode : Mode} {pattern : BitVec 32} {d : Datum} (hd : d.WellSigned)
    (h : Encodes mode pattern d) : extended pattern = d.extended.map (roundExtended mode) := by
  cases d with
  | nan signaling =>
    rw [show pattern = 0x7fc00000 from h, (extended_eq_none_iff _).mpr (by decide)]
    rfl
  | infinite s =>
    rw [show pattern = pack s 255 0 from h, extended_pack_infinity, Datum.extended,
      Option.map_some]
    cases s
    · exact congrArg some (roundExtended_top mode).symm
    · exact congrArg some (roundExtended_bot mode).symm
  | finite s x =>
    rw [Datum.extended, Option.map_some, roundExtended_coe, limit]
    by_cases hover : Overflows mode x
    · have hword := h.2 hover
      have hpos := largest_pos
      rcases lt_abs.mp hover with hlarge | hlarge
      · -- only a positive number is rounded past the largest
        have hx : ¬ x < 0 := by
          intro hx
          rw [roundReal_of_neg mode hx] at hlarge
          have hnonneg := roundMagnitude_nonneg (mode.direction true) (neg_pos.mpr hx).le
          linarith
        have hx0 : x ≠ 0 := by
          rintro rfl
          rw [roundReal_of_onGrid mode ⟨0, by rw [Int.cast_zero, zero_mul]⟩] at hlarge
          linarith
        have hs : s = false := Bool.eq_false_iff.mpr (mt (hd hx0).mp hx)
        rw [if_pos hlarge, hword, hs]
        split
        · exact extended_pack_largest false
        · exact extended_pack_infinity false
      · have hx : x < 0 := by
          by_contra hx
          rw [roundReal_of_nonneg mode (not_lt.mp hx)] at hlarge
          have hnonneg := roundMagnitude_nonneg (mode.direction false) (not_lt.mp hx)
          linarith
        have hs : s = true := (hd hx.ne).mpr hx
        rw [if_neg (by linarith), if_pos (by linarith), hword, hs]
        split
        · exact extended_pack_largest true
        · exact extended_pack_infinity true
    · rw [extended_of_standsFor (h.1 hover).2]
      obtain ⟨hlow, hhigh⟩ := abs_le.mp (not_lt.mp hover)
      rw [if_neg (not_lt.mpr hhigh), if_neg (not_lt.mpr hlow)]

theorem extended_datum (pattern : BitVec 32) : (datum pattern).extended = extended pattern := by
  unfold datum extended
  by_cases he : exponent pattern = 255
  · rw [if_pos he, if_pos he]
    by_cases hf : fraction pattern = 0
    · rw [if_pos hf, if_pos hf]
      rfl
    · rw [if_neg hf, if_neg hf]
      rfl
  · rw [if_neg he, if_neg he]
    rfl

theorem wellSigned_datum (pattern : BitVec 32) : (datum pattern).WellSigned := by
  rcases datum_cases pattern with ⟨-, hd⟩ | ⟨-, hd⟩ | ⟨v, hv, hd⟩ <;> rw [hd]
  · trivial
  · trivial
  · intro hne
    have hv0 : v ≠ 0 := by exact_mod_cast hne
    unfold value at hv
    split at hv
    · cases hv
    have hmagnitude := magnitude_nonneg pattern
    rw [← Option.some.inj hv] at hv0 ⊢
    rw [show ((0 : ℝ)) = ((0 : ℚ) : ℝ) from Rat.cast_zero.symm, Rat.cast_lt]
    cases hs : sign pattern with
    | false => exact iff_of_false Bool.false_ne_true (not_lt.mpr hmagnitude)
    | true =>
      rw [hs, if_pos rfl, neg_ne_zero] at hv0
      exact iff_of_true rfl (neg_neg_of_pos (lt_of_le_of_ne hmagnitude hv0.symm))

/-! ## §5. Arithmetic -/

namespace Datum

variable {d e : Datum} {x y : EReal}

theorem extended_neg (d : Datum) : d.neg.extended = d.extended.map (- ·) := by
  cases d with
  | nan => rfl
  | infinite a => cases a <;> simp [neg, extended]
  | finite a x => simp [neg, extended]

theorem extended_negIf (c : Bool) (hx : d.extended = some x) :
    (d.negIf c).extended = some (if c then -x else x) := by
  cases c with
  | false => exact hx
  | true => exact (extended_neg d).trans (by rw [hx]; rfl)

/-- **A sum that is not a NaN** has the sum of the values. -/
theorem extended_add (mode : Mode) (hx : d.extended = some x) (hy : e.extended = some y)
    (hnan : (d.add mode e).isNaN = false) : (d.add mode e).extended = some (x + y) := by
  cases d with
  | nan => cases hx
  | infinite a =>
    obtain rfl := Option.some.inj hx
    cases e with
    | nan => cases hy
    | infinite b =>
      obtain rfl := Option.some.inj hy
      rw [add] at hnan ⊢
      split at hnan
      next hab =>
        subst hab
        rw [if_pos rfl]
        cases a <;> rfl
      next => cases hnan
    | finite b y =>
      obtain rfl := Option.some.inj hy
      cases a
      · exact congrArg some (EReal.top_add_coe y).symm
      · exact congrArg some (EReal.bot_add y).symm
  | finite a x =>
    obtain rfl := Option.some.inj hx
    cases e with
    | nan => cases hy
    | infinite b =>
      obtain rfl := Option.some.inj hy
      cases b
      · exact congrArg some (EReal.coe_add_top x).symm
      · exact congrArg some (EReal.add_bot x).symm
    | finite b y =>
      obtain rfl := Option.some.inj hy
      exact congrArg some (EReal.coe_add x y)

theorem wellSigned_add (mode : Mode) (d e : Datum) : (d.add mode e).WellSigned := by
  cases d <;> cases e
  case infinite.infinite a b =>
    rw [add]
    split <;> trivial
  case finite.finite a x b y =>
    intro hne
    rw [sumSign, if_neg hne, decide_eq_true_iff]
  all_goals trivial

/-- **A product that is not a NaN** has the product of the values. -/
theorem extended_mul (hd : d.WellSigned) (he : e.WellSigned) (hx : d.extended = some x)
    (hy : e.extended = some y) (hnan : (d.mul e).isNaN = false) :
    (d.mul e).extended = some (x * y) := by
  -- an infinity times a number that is not zero
  have hinfinite {a b : Bool} {z : ℝ} (hz : z ≠ 0) (hb : b = true ↔ z < 0) :
      ((if (a ^^ b) then ⊥ else ⊤ : EReal)) = (if a then ⊥ else ⊤) * z := by
    rcases lt_or_gt_of_ne hz with hneg | hpos
    · rw [hb.mpr hneg]
      cases a
      · exact (EReal.top_mul_coe_of_neg hneg).symm
      · exact (EReal.bot_mul_coe_of_neg hneg).symm
    · rw [Bool.eq_false_iff.mpr (mt hb.mp (not_lt.mpr hpos.le))]
      cases a
      · exact (EReal.top_mul_coe_of_pos hpos).symm
      · exact (EReal.bot_mul_coe_of_pos hpos).symm
  cases d with
  | nan => cases hx
  | infinite a =>
    obtain rfl := Option.some.inj hx
    cases e with
    | nan => cases hy
    | infinite b =>
      obtain rfl := Option.some.inj hy
      refine congrArg some ?_
      cases a <;> cases b <;> rfl
    | finite b y =>
      obtain rfl := Option.some.inj hy
      rw [mul] at hnan ⊢
      split at hnan
      next => cases hnan
      next hy0 =>
        rw [if_neg hy0]
        exact congrArg some (hinfinite hy0 (he hy0))
  | finite a x =>
    obtain rfl := Option.some.inj hx
    cases e with
    | nan => cases hy
    | infinite b =>
      obtain rfl := Option.some.inj hy
      rw [mul] at hnan ⊢
      split at hnan
      next => cases hnan
      next hx0 =>
        rw [if_neg hx0, Bool.xor_comm, mul_comm]
        exact congrArg some (hinfinite hx0 (hd hx0))
    | finite b y =>
      obtain rfl := Option.some.inj hy
      exact congrArg some (EReal.coe_mul x y)

/-- **A difference that is not a NaN** is compared with zero as its operands are, in any
mode, when they are multiples of the smallest number. -/
theorem sub_cmp (mode : Mode) (hx : d.extended = some x) (hy : e.extended = some y)
    (hd : ∀ a v, d = finite a v → OnGrid (-149) v) (he : ∀ b v, e = finite b v → OnGrid (-149) v)
    (hnan : (d.add mode (e.negIf true)).isNaN = false) :
    (roundExtended mode (x + -y) < 0 ↔ x < y) ∧ (roundExtended mode (x + -y) = 0 ↔ x = y) := by
  cases d with
  | nan => cases hx
  | infinite a =>
    obtain rfl := Option.some.inj hx
    cases e with
    | nan => cases hy
    | infinite b =>
      obtain rfl := Option.some.inj hy
      -- equal infinities make a NaN
      rw [negIf_infinite, add] at hnan
      cases a <;> cases b <;> simp at hnan ⊢
    | finite b y =>
      obtain rfl := Option.some.inj hy
      rw [← EReal.coe_neg]
      cases a <;> simp
  | finite a x =>
    obtain rfl := Option.some.inj hx
    cases e with
    | nan => cases hy
    | infinite b =>
      obtain rfl := Option.some.inj hy
      cases b <;> simp
    | finite b y =>
      obtain rfl := Option.some.inj hy
      rw [← EReal.coe_neg, ← EReal.coe_add, ← sub_eq_add_neg, roundExtended_coe,
        EReal.coe_lt_coe_iff, EReal.coe_eq_coe_iff]
      exact limit_sub_cmp mode (hd a x rfl) (he b y rfl)

end Datum

end Binary32
