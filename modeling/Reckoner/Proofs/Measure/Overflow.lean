/-
# `Reckoner.Proofs.Measure.Overflow` — conversions that leave the range

A conversion multiplies before it divides, so a number may leave the range on the way to
a result that is in it.  Nothing checks for that: the conversion gives an infinity.

* `Scale.StaysInRange` runs the formula of a conversion with a rounding in every step,
  and asks whether the range is left; the conversion of a double is finite exactly if it
  is not.
* `Scale.Safe` tells the pairs of scales on which that takes a result out of range.
  Between two factors one of them has to be at most one.  If it is the divisor, the
  product is no larger than the result.  The formulas of Fahrenheit multiply by five and
  by nine, and no pair with Fahrenheit is safe.
-/
import Reckoner.Calculator
import Reckoner.Proofs.Binary64.Places
import Reckoner.Proofs.Binary64.Ranged
import Reckoner.Proofs.Measure.Compatible

namespace Reckoner

open Binary64

/-! ## Factors -/

/-- Every right operand within a factor is finite, and no divisor is zero. -/
def Factor.regular : Factor → Bool
  | .decimal .. => true
  | .times a b => a.regular && b.regular && (b.value : Float).isFinite
  | .over a b => a.regular && b.regular && (b.value : Float).isFinite && toRat b.value != 0

theorem Factor.ofFloat_value {f : Factor} (hf : f.regular = true) :
    Ranged.ofFloat f.value = f.value := by
  induction f with
  | decimal digits places => rfl
  | times a b iha ihb =>
      simp only [regular, Bool.and_eq_true] at hf
      obtain ⟨⟨ha, hb⟩, hfinite⟩ := hf
      rw [value, Ranged.ofFloat_mul hfinite, iha ha, ihb hb, value]
  | «over» a b iha ihb =>
      simp only [regular, Bool.and_eq_true, bne_iff_ne] at hf
      obtain ⟨⟨⟨ha, hb⟩, hfinite⟩, hne⟩ := hf
      rw [value, Ranged.ofFloat_div hfinite hne, iha ha, ihb hb, value]

def Factor.double (f : Factor) : Rat := toRat f.value

/-- What is needed of a factor: it is a positive double.  One that is at most one takes the
largest double down and back again, and one that is not is at least three. -/
def Factor.sound (f : Factor) : Bool :=
  f.regular && (f.value : Float).isFinite && decide (0 < f.double) &&
    (decide (f.double ≤ 1) && (greatest * f.value / f.value).isFinite || decide (3 ≤ f.double))

def Scale.sound : Scale → Bool
  | .linear f => f.sound
  | .temperature _ => true

theorem Measure.sound_of_mem_table : ∀ m ∈ Measure.table, m.scale.sound = true := by
  decide +kernel

/-- The double of a sound factor. -/
structure Factor.Sound (f : Factor) : Prop where
  regular : f.regular = true
  isFinite : (f.value : Float).isFinite = true
  pos : 0 < f.double
  size : f.double ≤ 1 ∧ (greatest * f.value / f.value).isFinite = true ∨ 3 ≤ f.double

theorem Factor.sound_iff {f : Factor} : f.sound = true ↔ f.Sound := by
  simp only [sound, Bool.and_eq_true, Bool.or_eq_true, decide_eq_true_iff]
  exact ⟨fun ⟨⟨⟨hr, hf⟩, hp⟩, hs⟩ => ⟨hr, hf, hp, hs⟩, fun ⟨hr, hf, hp, hs⟩ => ⟨⟨⟨hr, hf⟩, hp⟩, hs⟩⟩

/-! ## Between two factors -/

section Linear

variable {f g : Factor} (hf : f.Sound) (hg : g.Sound)

include hf hg

theorem isFinite_linear_iff (v : Float) : (v * f.value / g.value).isFinite = true ↔
    v.isFinite = true ∧ |toRat v * f.double| < overflowBound ∧
      |rounded (toRat v * f.double) / g.double| < overflowBound := by
  rw [isFinite_div_iff hg.isFinite hg.pos.ne', isFinite_mul_iff hf.isFinite, and_assoc]
  refine and_congr_right fun hv => and_congr_right fun hrange => ?_
  rw [toRat_mul hf.isFinite ((isFinite_mul_iff hf.isFinite).mpr ⟨hv, hrange⟩)]
  exact Iff.rfl

/-- One of two factors is at most one: a result in the range is reached within it. -/
theorem isFinite_linear_of_le_one (h : f.double ≤ 1 ∨ g.double ≤ 1) {v : Float}
    (hv : v.isFinite = true) (hexact : |toRat v * f.double / g.double| ≤ largest) :
    (v * f.value / g.value).isFinite = true := by
  have hproduct : g.double ≤ 1 → |toRat v * f.double| ≤ largest * g.double := fun _ => by
    rwa [abs_div, abs_of_pos hg.pos, div_le_iff₀ hg.pos] at hexact
  have hfirst : |toRat v * f.double| < overflowBound := by
    refine lt_of_le_of_lt ?_ largest_lt_overflowBound
    rcases h with hle | hle
    · rw [abs_mul, abs_of_pos hf.pos]
      exact (mul_le_of_le_one_right (abs_nonneg _) hle).trans (abs_toRat_le_largest hv)
    · exact (hproduct hle).trans (mul_le_of_le_one_right largest_pos.le hle)
  refine (isFinite_linear_iff hf hg v).mpr ⟨hv, hfirst, ?_⟩
  rw [abs_div, abs_of_pos hg.pos]
  rcases hg.size with ⟨hle, hback⟩ | hge
  · -- no product is larger than that of the largest double, which comes back
    obtain ⟨hgreatest, hlt⟩ := (isFinite_div_iff hg.isFinite hg.pos.ne').mp hback
    rw [toRat_mul hg.isFinite hgreatest, toRat_greatest] at hlt
    refine lt_of_le_of_lt ?_ ((le_abs_self _).trans_lt hlt)
    rw [abs_rounded]
    exact div_le_div_of_nonneg_right (rounded_mono (hproduct hle)) hg.pos.le
  · exact (div_le_self (abs_nonneg _) (by linarith)).trans_lt
      ((abs_rounded_le_largest hfirst).trans_lt largest_lt_overflowBound)

/-- Both factors are large: a power of two just out of range of the first comes back in range. -/
theorem exists_linear_overflow (h3f : 3 ≤ f.double) (h3g : 3 ≤ g.double) :
    ∃ v : Float, v.isFinite = true ∧ |toRat v * f.double / g.double| ≤ largest ∧
      ¬(v * f.value / g.value).isFinite = true := by
  obtain ⟨k, hk⟩ : ∃ k, k = Int.log 2 f.double := ⟨_, rfl⟩
  have hlow : (2 : Rat) ^ k ≤ f.double := by
    rw [hk]
    exact_mod_cast Int.zpow_log_le_self (R := Rat) (b := 2) (by norm_num) hf.pos
  have hhigh : f.double < 2 ^ (k + 1) := by
    rw [hk]
    exact_mod_cast Int.lt_zpow_succ_log_self (R := Rat) (b := 2) (by norm_num) f.double
  have hleast : 1 ≤ k := by
    have hlt : (2 : Rat) ^ (1 : Int) < 2 ^ (k + 1) := lt_of_le_of_lt (by norm_num; linarith) hhigh
    have := (zpow_lt_zpow_iff_right₀ (by norm_num : (1 : Rat) < 2)).mp hlt
    omega
  have hmost : k < 1024 := by
    have hrange : f.double < 2 ^ (1024 : Int) :=
      ((le_abs_self _).trans (abs_toRat_le_largest hf.isFinite)).trans_lt
        (largest_lt_overflowBound.trans overflowBound_lt)
    exact (zpow_lt_zpow_iff_right₀ (by norm_num : (1 : Rat) < 2)).mp (hlow.trans_lt hrange)
  obtain ⟨hfinite, hvalue⟩ := ofParts_exact .positive (n := 2 ^ 52) (e := 972 - k) (by norm_num)
    (by omega) (by omega)
  have hpower : toRat (ofParts .positive (2 ^ 52) (972 - k)) = 2 ^ (1024 - k) := by
    have hsplit : (1024 - k : Int) = (52 : Nat) + (972 - k) := by omega
    rw [hvalue, hsplit, zpow_add₀ two_ne_zero, zpow_natCast]
    rfl
  have hpos : (0 : Rat) < 2 ^ (1024 - k) := by positivity
  refine ⟨_, hfinite, ?_, ?_⟩
  · have htop := topHalf_pos
    have hsum : (1024 - k + (k + 1) : Int) = 970 + (55 : Nat) := by omega
    rw [hpower, abs_of_pos (div_pos (mul_pos hpos hf.pos) hg.pos), div_le_iff₀ hg.pos]
    calc 2 ^ (1024 - k) * f.double ≤ (2 : Rat) ^ (1024 - k) * 2 ^ (k + 1) := by gcongr
      _ = 2 ^ 55 * topHalf := by rw [← zpow_add₀ two_ne_zero, hsum, two_zpow_eq_topHalf]
      _ ≤ largest * 3 := by rw [largest_eq]; linarith
      _ ≤ largest * g.double := mul_le_mul_of_nonneg_left h3g largest_pos.le
  · rw [isFinite_linear_iff hf hg, hpower]
    rintro ⟨-, hlt, -⟩
    refine absurd hlt (not_lt.mpr ?_)
    rw [abs_of_pos (mul_pos hpos hf.pos)]
    refine overflowBound_lt.le.trans ?_
    have hsplit : (2 : Rat) ^ (1024 : Int) = 2 ^ (1024 - k) * 2 ^ k := by
      rw [← zpow_add₀ two_ne_zero, sub_add_cancel]
    rw [hsplit]
    exact mul_le_mul_of_nonneg_left hlow hpos.le

end Linear

/-! ## Between two temperatures -/

section Temperature

theorem isFinite_constants : (32.0 : Float).isFinite = true ∧ (5.0 : Float).isFinite = true ∧
    (9.0 : Float).isFinite = true ∧ (273.15 : Float).isFinite = true := by decide

theorem constants_ne_zero : toRat 5.0 ≠ 0 ∧ toRat 9.0 ≠ 0 := by decide +kernel

theorem Temperature.ofFloat_toCelsius (t : Temperature) (x : Float) :
    Ranged.ofFloat (t.toCelsius x) = t.toCelsius (Ranged.ofFloat x) := by
  obtain ⟨h32, h5, h9, hkelvin⟩ := isFinite_constants
  cases t with
  | celsius => rfl
  | fahrenheit =>
      rw [toCelsius, Ranged.ofFloat_div h9 constants_ne_zero.2, Ranged.ofFloat_mul h5,
        Ranged.ofFloat_sub h32]
      rfl
  | kelvin => exact Ranged.ofFloat_sub hkelvin

theorem Temperature.ofFloat_ofCelsius (t : Temperature) (x : Float) :
    Ranged.ofFloat (t.ofCelsius x) = t.ofCelsius (Ranged.ofFloat x) := by
  obtain ⟨h32, h5, h9, hkelvin⟩ := isFinite_constants
  cases t with
  | celsius => rfl
  | fahrenheit =>
      rw [ofCelsius, Ranged.ofFloat_add h32, Ranged.ofFloat_div h5 constants_ne_zero.1,
        Ranged.ofFloat_mul h9]
      rfl
  | kelvin => exact Ranged.ofFloat_add hkelvin

/-- Next to the largest double a shift by a few hundred is lost in rounding. -/
theorem abs_lt_overflowBound_of_shift {q r d : Rat} (hq : |q| ≤ largest) (hd : |d| ≤ 274)
    (hr : r = q + d) : |r| < overflowBound := by
  have htop : (274 : Rat) < topHalf := by
    have hlt : (2 : Rat) ^ (9 : Int) ≤ topHalf := zpow_le_zpow_right₀ one_le_two (by norm_num)
    exact lt_of_lt_of_le (by norm_num) hlt
  rw [largest_eq] at hq
  rw [hr, overflowBound_eq]
  calc |q + d| ≤ |q| + |d| := abs_add_le q d
    _ < (2 ^ 54 - 1) * topHalf := by linarith

theorem abs_toRat_kelvin_le : |toRat 273.15| ≤ 274 := by decide +kernel

/-- Celsius and kelvin are a shift apart. -/
theorem Temperature.isFinite_toCelsius {t : Temperature} (ht : t ≠ .fahrenheit) {x : Float}
    (hx : x.isFinite = true) : (t.toCelsius x).isFinite = true := by
  cases t with
  | celsius => exact hx
  | fahrenheit => exact absurd rfl ht
  | kelvin =>
      refine (isFinite_sub_iff isFinite_constants.2.2.2).mpr ⟨hx, ?_⟩
      exact abs_lt_overflowBound_of_shift (abs_toRat_le_largest hx)
        ((abs_neg _).trans_le abs_toRat_kelvin_le) (sub_eq_add_neg _ _)

theorem Temperature.isFinite_ofCelsius {t : Temperature} (ht : t ≠ .fahrenheit) {x : Float}
    (hx : x.isFinite = true) : (t.ofCelsius x).isFinite = true := by
  cases t with
  | celsius => exact hx
  | fahrenheit => exact absurd rfl ht
  | kelvin =>
      refine (isFinite_add_iff isFinite_constants.2.2.2).mpr ⟨hx, ?_⟩
      exact abs_lt_overflowBound_of_shift (abs_toRat_le_largest hx) abs_toRat_kelvin_le rfl

/-- From Fahrenheit the largest double is out of range, to Fahrenheit its half. -/
theorem exists_temperature_overflow {s t : Temperature} (h : s = .fahrenheit ∨ t = .fahrenheit) :
    ∃ v : Float, v.isFinite = true ∧ |t.ofCelsius (s.toCelsius (toRat v))| ≤ largest ∧
      ¬(t.ofCelsius (s.toCelsius v)).isFinite = true := by
  by_cases hs : s = .fahrenheit
  · subst hs
    refine ⟨greatest, ?_⟩
    cases t <;> decide +kernel
  · obtain rfl : t = .fahrenheit := h.resolve_left hs
    refine ⟨greatest / 2.0, ?_⟩
    cases s with
    | fahrenheit => exact absurd rfl hs
    | celsius | kelvin => decide +kernel

end Temperature

/-! ## Conversions -/

namespace Scale

/-- The exact value of a conversion, with the factors as they are stored. -/
def exactConvert (x : Rat) : Scale → Scale → Rat
  | .linear f, .linear g => x * f.double / g.double
  | .temperature s, .temperature t => t.ofCelsius (s.toCelsius x)
  | _, _ => x

/-- The formula of a conversion, with a rounding in every step, does not leave the range. -/
def StaysInRange (x : Rat) (s t : Scale) : Prop :=
  Scale.convert? (Ranged.number x) s t ≠ some .lost

/-- No conversion between these scales leaves the range on the way to a result within it. -/
def Safe : Scale → Scale → Prop
  | .linear f, .linear g => f.double ≤ 1 ∨ g.double ≤ 1
  | .temperature s, .temperature t => s ≠ .fahrenheit ∧ t ≠ .fahrenheit
  | _, _ => True

variable {s t : Scale} (hs : s.sound = true) (ht : t.sound = true)

include hs ht

/-- The conversion of a double runs the formula with roundings. -/
theorem map_ofFloat_convert? (x : Float) :
    (Scale.convert? x s t).map Ranged.ofFloat = Scale.convert? (Ranged.ofFloat x) s t := by
  cases s with
  | linear f =>
      cases t with
      | linear g =>
          have hf := Factor.sound_iff.mp hs
          have hg := Factor.sound_iff.mp ht
          rw [convert?, convert?, Option.map_some, Ranged.ofFloat_div hg.isFinite hg.pos.ne',
            Ranged.ofFloat_mul hf.isFinite, Factor.ofFloat_value hf.regular,
            Factor.ofFloat_value hg.regular]
      | temperature t => rfl
  | temperature s =>
      cases t with
      | linear g => rfl
      | temperature t =>
          rw [convert?, convert?, Option.map_some, Temperature.ofFloat_ofCelsius,
            Temperature.ofFloat_toCelsius]

theorem isFinite_convert?_iff {x y : Float} (hx : x.isFinite = true)
    (hy : Scale.convert? x s t = some y) : y.isFinite = true ↔ StaysInRange (toRat x) s t := by
  have hmap := map_ofFloat_convert? hs ht x
  rw [hy, Option.map_some, Ranged.ofFloat_of_isFinite hx] at hmap
  rw [StaysInRange, ← hmap, ne_eq, Option.some.injEq, Ranged.ofFloat_eq_lost_iff, not_not]

theorem safe_iff (hkind : s.isTemperature = t.isTemperature) : Safe s t ↔
    ∀ x y : Float, x.isFinite = true → |exactConvert (toRat x) s t| ≤ largest →
      Scale.convert? x s t = some y → y.isFinite = true := by
  cases s with
  | linear f =>
      cases t with
      | temperature t => exact absurd hkind Bool.false_ne_true
      | linear g =>
          have hf := Factor.sound_iff.mp hs
          have hg := Factor.sound_iff.mp ht
          constructor
          · intro hsafe x y hx hexact hy
            obtain rfl := Option.some.inj hy
            exact isFinite_linear_of_le_one hf hg hsafe hx hexact
          · intro h
            by_contra hunsafe
            obtain ⟨hfone, hgone⟩ := not_or.mp hunsafe
            obtain ⟨v, hv, hexact, hlost⟩ := exists_linear_overflow hf hg
              (hf.size.resolve_left fun h => hfone h.1) (hg.size.resolve_left fun h => hgone h.1)
            exact hlost (h v _ hv hexact rfl)
  | temperature s =>
      cases t with
      | linear g => exact absurd hkind.symm Bool.false_ne_true
      | temperature t =>
          constructor
          · rintro ⟨hs, ht⟩ x y hx - hy
            obtain rfl := Option.some.inj hy
            exact Temperature.isFinite_ofCelsius ht (Temperature.isFinite_toCelsius hs hx)
          · intro h
            by_contra hunsafe
            obtain ⟨v, hv, hexact, hlost⟩ := exists_temperature_overflow
              ((Decidable.not_and_iff_or_not.mp hunsafe).imp Decidable.not_not.mp
                Decidable.not_not.mp)
            exact hlost (h v _ hv hexact rfl)

end Scale

/-! ## Conversions by name -/

namespace Measure

/-- **When a conversion leaves the range.**  A finite number has a conversion between any two
units of one dimension.  It is finite exactly if no step of the formula leaves the range, and
the rounding of the calculator changes nothing about that.  A result in the range is always
reached exactly between two factors of which one is at most one, and between Celsius and kelvin. -/
theorem convert_leaves_range {a b : String} {m n : Measure} (ha : lookup a = .ok m)
    (hb : lookup b = .ok n) (hdimension : m.dimension = n.dimension) (c : Calculator) :
    (∀ v : Float, v.isFinite = true → ∃ y z, convertNamed v a b = .ok y ∧
      c.convert v a b = .ok z ∧
      (y.isFinite = true ↔ Scale.StaysInRange (toRat v) m.scale n.scale) ∧
      z.isFinite = y.isFinite) ∧
    ((∀ v y : Float, v.isFinite = true →
      |Scale.exactConvert (toRat v) m.scale n.scale| ≤ largest →
      convertNamed v a b = .ok y → y.isFinite = true) ↔ Scale.Safe m.scale n.scale) := by
  have hm := mem_table_of_lookup ha
  have hn := mem_table_of_lookup hb
  have hkind : m.scale.isTemperature = n.scale.isTemperature := by
    rw [Bool.eq_iff_iff, isTemperature_scale_iff m hm, isTemperature_scale_iff n hn, hdimension]
  have hconvert : ∀ {v y : Float}, v.isFinite = true →
      (convertNamed v a b = .ok y ↔ Scale.convert? v m.scale n.scale = some y) := by
    intro v y hv
    have hr : resolve a b = .ok (m, n) := resolve_eq_ok_iff.mpr ⟨ha, hb⟩
    obtain ⟨z, hz⟩ := Scale.exists_convert? hkind v
    have hnamed : convertNamed v a b = .ok z := by
      rw [convertNamed_eq hv, hr]
      show convert v m n = .ok z
      rw [convert, if_pos hdimension, hz]
    rw [hnamed, hz, Except.ok.injEq, Option.some.injEq]
  refine ⟨fun v hv => ?_, ?_⟩
  · obtain ⟨y, hy⟩ := Scale.exists_convert? hkind v
    have hnamed := (hconvert hv).mpr hy
    refine ⟨y, c.settings.round y, hnamed, ?_, ?_, isFinite_roundPlaces _ y⟩
    · rw [Calculator.convert, hnamed]
      rfl
    · exact Scale.isFinite_convert?_iff (sound_of_mem_table m hm) (sound_of_mem_table n hn) hv hy
  · rw [Scale.safe_iff (sound_of_mem_table m hm) (sound_of_mem_table n hn) hkind]
    refine forall_congr' fun v => forall_congr' fun y => forall_congr' fun hv => ?_
    rw [hconvert hv]

/-- From an hour to itself numbers leave the range, from an inch to itself none does. -/
theorem convert_leaves_range_hour : ∃ hour inch, lookup "h" = .ok hour ∧ lookup "in" = .ok inch ∧
    (∃ v y : Float, v.isFinite = true ∧
      |Scale.exactConvert (toRat v) hour.scale hour.scale| ≤ largest ∧
      convertNamed v "h" "h" = .ok y ∧ ¬y.isFinite = true) ∧
    ∀ v y : Float, v.isFinite = true →
      |Scale.exactConvert (toRat v) inch.scale inch.scale| ≤ largest →
      convertNamed v "in" "in" = .ok y → y.isFinite = true := by
  obtain ⟨hour, hhour, hlarge⟩ :
      ∃ m, lookup "h" = .ok m ∧ ¬Scale.Safe m.scale m.scale :=
    ⟨⟨"hour", .time, .linear 3600.0, ["h", "hr", "hrs", "hours"]⟩, by with_unfolding_all rfl, by
      rintro (h | h) <;> exact absurd h (by decide +kernel)⟩
  obtain ⟨inch, hinch, hsmall⟩ :
      ∃ m, lookup "in" = .ok m ∧ Scale.Safe m.scale m.scale :=
    ⟨⟨"inch", .distance, .linear 0.0254, ["in", "inches"]⟩, by with_unfolding_all rfl,
      Or.inl (by decide +kernel)⟩
  have hunsafe := mt (convert_leaves_range hhour hhour rfl {}).2.mp hlarge
  push Not at hunsafe
  exact ⟨hour, inch, hhour, hinch, by simpa using hunsafe,
    (convert_leaves_range hinch hinch rfl {}).2.mpr hsmall⟩

/-- A result in the range is not always reached: some kilometers are no kilometers. -/
theorem conversion_overflows :
    ¬∀ (a b : String) (m n : Measure), lookup a = .ok m → lookup b = .ok n →
      m.dimension = n.dimension → ∀ v : Float, v.isFinite = true →
      |Scale.exactConvert (toRat v) m.scale n.scale| ≤ largest →
      ∃ y z, convertNamed v a b = .ok y ∧ y.isFinite = true ∧
        ({} : Calculator).convert v a b = .ok z ∧ z.isFinite = true := by
  intro h
  have hlookup : lookup "km" = .ok ⟨"kilometer", .distance, .linear 1000.0,
      ["km", "kilometers", "kilometre", "kilometres"]⟩ := by with_unfolding_all rfl
  obtain ⟨y, -, hy, hfinite, -⟩ := h "km" "km" _ _ hlookup hlookup rfl 1e306 (by decide +kernel)
    (by decide +kernel)
  have hoverflow : convertNamed 1e306 "km" "km" = .ok (1.0 / 0.0) := by decide +kernel
  obtain rfl := Except.ok.inj (hy.symm.trans hoverflow)
  exact absurd hfinite (by decide +kernel)

end Measure

end Reckoner
