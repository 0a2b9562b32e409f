import Mathlib.Algebra.Order.Field.Power
import Mathlib.Algebra.Order.Field.Rat
import Mathlib.Data.Int.Log
import Mathlib.Data.Rat.Floor
import Mathlib.Tactic.FieldSimp
import Mathlib.Tactic.Linarith
import Mathlib.Tactic.NormNum
import Mathlib.Tactic.Ring

/-!
# The nearest number of the binary32 format

A number that is not negative is its bit pattern without the sign: eight bits of exponent
above 23 of fraction. The pattern of infinity stands for the power of two behind the
largest number, so that rounding to the nearest one, of two to the one with the even
pattern, also says from where on the result is infinity.
-/

namespace Foundation.Binary32
set_option autoImplicit false

def infinity : Nat := 0x7F800000

/-- The integer with the fraction, and the exponent of its last bit. -/
def significand (bits : Nat) : Nat := if bits < 2 ^ 23 then bits else 2 ^ 23 + bits % 2 ^ 23

def exponent (bits : Nat) : ℤ := max (bits / 2 ^ 23 : Nat) 1 - 150

def value (bits : Nat) : ℚ := significand bits * 2 ^ exponent bits

/-- To the nearest integer, to the even one of two. -/
def roundEven (y : ℚ) : ℤ :=
  if 1 / 2 < Int.fract y ∨ (Int.fract y = 1 / 2 ∧ ⌊y⌋ % 2 = 1) then ⌊y⌋ + 1 else ⌊y⌋

/-- The exponent of the last bit of the numbers around `x`. -/
def lastBit (x : ℚ) : ℤ := max (Int.log 2 x - 23) (-149)

def round (x : ℚ) : Nat :=
  if x = 0 then 0
  else min ((lastBit x + 149) * 2 ^ 23 + roundEven (x / 2 ^ lastBit x)).toNat infinity

/-- Every other number is farther away, or as far and the pattern is even. -/
structure Nearest (x : ℚ) (bits : Nat) : Prop where
  le_infinity : bits ≤ infinity
  closest : ∀ other ≤ infinity, other ≠ bits →
    |value bits - x| < |value other - x| ∨
      (|value bits - x| = |value other - x| ∧ bits % 2 = 0)

theorem value_lt_succ (bits : Nat) : value bits < value (bits + 1) := by
  have hpos : (0 : ℚ) < 2 ^ exponent bits := by positivity
  by_cases hcarry : 2 ^ 23 ≤ bits ∧ (bits + 1) % 2 ^ 23 = 0
  · have hexp : exponent (bits + 1) = exponent bits + 1 := by
      simp only [exponent]
      omega
    have hlast : significand bits = 2 ^ 24 - 1 := by
      rw [significand, if_neg (by omega)]
      omega
    have hfirst : significand (bits + 1) = 2 ^ 23 := by
      rw [significand, if_neg (by omega)]
      omega
    rw [value, value, hexp, hlast, hfirst, zpow_add_one₀ two_ne_zero]
    push_cast
    linarith
  · have hexp : exponent (bits + 1) = exponent bits := by
      simp only [exponent]
      omega
    have hsig : significand bits < significand (bits + 1) := by
      simp only [significand]
      split <;> split <;> omega
    rw [value, value, hexp]
    gcongr

theorem value_strictMono : StrictMono value := strictMono_nat_of_lt_succ value_lt_succ

theorem value_infinity : value infinity = 2 ^ 128 := by
  norm_num [value, significand, exponent, infinity]

theorem value_largest : value (infinity - 1) = 2 ^ 128 - 2 ^ 104 := by
  norm_num [value, significand, exponent, infinity]

section Unique
variable {x : ℚ} {bits other : Nat}

theorem Nearest.unique (h : Nearest x bits) (hother : Nearest x other) : bits = other := by
  wlog hle : bits ≤ other generalizing bits other
  · exact (this hother h (Nat.le_of_not_le hle)).symm
  by_contra hne
  have hlt : bits < other := Nat.lt_of_le_of_ne hle hne
  -- two numbers as near as each other are even, so there is one between them, and it is nearer
  have htie : |value bits - x| = |value other - x| ∧ bits % 2 = 0 ∧ other % 2 = 0 := by
    rcases h.closest other hother.le_infinity (Ne.symm hne) with hnear | ⟨heq, heven⟩
    · rcases hother.closest bits h.le_infinity hne with hnear' | ⟨heq', _⟩
      · exact absurd hnear' hnear.asymm
      · exact absurd heq'.symm hnear.ne
    · rcases hother.closest bits h.le_infinity hne with hnear' | ⟨_, heven'⟩
      · exact absurd heq.symm hnear'.ne
      · exact ⟨heq, heven, heven'⟩
  obtain ⟨heq, heven, heven'⟩ := htie
  have hbetween : bits + 1 < other := by omega
  have hleft := value_lt_succ bits
  have hright := value_strictMono hbetween
  have hmiddle : x - value bits = value other - x := by
    rcases abs_eq_abs.mp heq with hsame | hopposite
    · linarith
    · linarith
  have hnearer : |value (bits + 1) - x| < |value bits - x| := by
    rw [abs_lt, abs_of_neg (by linarith : value bits - x < 0)]
    constructor <;> linarith
  have hle := hother.le_infinity
  rcases h.closest (bits + 1) (by omega) (by omega) with hnear | ⟨hsame, _⟩
  · exact absurd hnear hnearer.asymm
  · exact absurd hsame.symm hnearer.ne

/-- The result is infinity from half a last bit behind the largest number on. -/
theorem Nearest.infinity_iff (h : Nearest x bits) :
    bits = infinity ↔ 2 ^ 128 - 2 ^ 103 ≤ x := by
  have hlargest := value_largest
  have hinfinity := value_infinity
  constructor
  · rintro rfl
    by_contra hlt
    have hnear : |value (infinity - 1) - x| < |value infinity - x| := by
      rw [hlargest, hinfinity, abs_lt, abs_of_pos (by linarith : 0 < 2 ^ 128 - x)]
      constructor <;> linarith
    rcases h.closest (infinity - 1) (by decide) (by decide) with hfar | ⟨hsame, _⟩
    · exact absurd hfar hnear.asymm
    · exact absurd hsame.symm hnear.ne
  · intro hx
    by_contra hne
    have hle : bits ≤ infinity - 1 := by
      have := h.le_infinity
      omega
    have hvalue := value_strictMono.monotone hle
    have hleft : |value bits - x| = x - value bits := by
      rw [abs_sub_comm, abs_of_nonneg]
      linarith
    have hright : |value infinity - x| ≤ x - value (infinity - 1) := by
      rw [hlargest, hinfinity, abs_le]
      constructor <;> linarith
    rcases h.closest infinity le_rfl (Ne.symm hne) with hnear | ⟨hsame, heven⟩
    · linarith
    · have hsame : value bits = value (infinity - 1) := by linarith
      rw [value_strictMono.injective hsame] at heven
      exact absurd heven (by decide)

end Unique

theorem roundEven_spec (y : ℚ) : |roundEven y - y| ≤ 1 / 2 ∧
    (|roundEven y - y| = 1 / 2 → roundEven y % 2 = 0) := by
  have hfract : (⌊y⌋ : ℚ) - y = -Int.fract y := by rw [Int.fract]; ring
  have hlow := Int.fract_nonneg y
  have hhigh := Int.fract_lt_one y
  rw [roundEven]
  split
  · rename_i h
    have hup : ((⌊y⌋ + 1 : ℤ) : ℚ) - y = 1 - Int.fract y := by
      push_cast
      linarith
    rw [hup, abs_of_pos (by linarith)]
    rcases h with h | ⟨h, hodd⟩
    · exact ⟨by linarith, fun heq => by linarith⟩
    · exact ⟨by linarith, fun _ => by omega⟩
  · rename_i h
    push Not at h
    rw [hfract, abs_neg, abs_of_nonneg hlow]
    refine ⟨h.1, fun heq => ?_⟩
    have := h.2 heq
    omega

theorem le_roundEven {y : ℚ} {k : ℤ} (h : k ≤ y) : k ≤ roundEven y := by
  have hfloor := Int.le_floor.mpr h
  rw [roundEven]
  split <;> omega

theorem roundEven_le {y : ℚ} {k : ℤ} (h : y < k) : roundEven y ≤ k := by
  have hfloor := Int.floor_lt.mpr h
  rw [roundEven]
  split <;> omega

theorem roundEven_closest {y : ℚ} {k : ℤ} (hne : k ≠ roundEven y) :
    |roundEven y - y| < |k - y| ∨ (|roundEven y - y| = |k - y| ∧ roundEven y % 2 = 0) := by
  obtain ⟨hhalf, heven⟩ := roundEven_spec y
  have hone : (1 : ℚ) ≤ |(k : ℚ) - roundEven y| := by
    exact_mod_cast Int.one_le_abs (sub_ne_zero.mpr hne)
  have htriangle : |(k : ℚ) - roundEven y| ≤ |k - y| + |roundEven y - y| := by
    rw [abs_sub_comm (roundEven y : ℚ) y]
    exact abs_sub_le _ _ _
  rcases lt_or_eq_of_le (show |(roundEven y : ℚ) - y| ≤ |k - y| by linarith) with hlt | heq
  · exact Or.inl hlt
  · exact Or.inr ⟨heq, heven (by linarith)⟩

section Round
variable {x : ℚ} {e m : ℤ}

/-- What is between two powers of two in units of its last bit. -/
theorem lastBit_bounds (hx : 0 < x) : -149 ≤ lastBit x ∧ x / 2 ^ lastBit x < 2 ^ 24 ∧
    (lastBit x ≠ -149 → 2 ^ 23 ≤ x / 2 ^ lastBit x) := by
  have hlow : (2 : ℚ) ^ Int.log 2 x ≤ x := by exact_mod_cast Int.zpow_log_le_self (by decide) hx
  have hhigh : x < (2 : ℚ) ^ (Int.log 2 x + 1) := by
    exact_mod_cast Int.lt_zpow_succ_log_self (by decide) x
  have hpos : (0 : ℚ) < 2 ^ lastBit x := by positivity
  refine ⟨le_max_right _ _, ?_, ?_⟩
  · rw [div_lt_iff₀ hpos, ← zpow_natCast, ← zpow_add₀ two_ne_zero]
    have hle : Int.log 2 x + 1 ≤ (24 : ℕ) + lastBit x := by
      have := le_max_left (Int.log 2 x - 23) (-149)
      rw [lastBit]
      omega
    exact hhigh.trans_le (zpow_le_zpow_right₀ one_le_two hle)
  · intro hne
    have heq : (23 : ℕ) + lastBit x = Int.log 2 x := by
      rw [lastBit] at hne ⊢
      omega
    rw [le_div_iff₀ hpos, ← zpow_natCast, ← zpow_add₀ two_ne_zero, heq]
    exact hlow

/-- The pattern of `m` last bits of this exponent. -/
theorem value_pack (he : -149 ≤ e) (hm : 0 ≤ m) (hle : m ≤ 2 ^ 24)
    (hnormal : e ≠ -149 → 2 ^ 23 ≤ m) :
    value ((e + 149) * 2 ^ 23 + m).toNat = m * 2 ^ e := by
  obtain ⟨k, rfl⟩ : ∃ k : Nat, e = k - 149 := ⟨(e + 149).toNat, by omega⟩
  lift m to Nat using hm
  have hbits : (((k : ℤ) - 149 + 149) * 2 ^ 23 + m).toNat = k * 2 ^ 23 + m := by omega
  rw [hbits]
  have hk : k ≠ 0 → 2 ^ 23 ≤ m := fun hne => by exact_mod_cast hnormal (by omega)
  have hm : m ≤ 2 ^ 24 := by exact_mod_cast hle
  by_cases hlast : m = 2 ^ 24
  · have hexp : exponent (k * 2 ^ 23 + m) = (k - 149 : ℤ) + 1 := by
      simp only [exponent]
      omega
    have hsig : significand (k * 2 ^ 23 + m) = 2 ^ 23 := by
      rw [significand, if_neg (by omega)]
      omega
    rw [value, hexp, hsig, hlast, zpow_add_one₀ two_ne_zero]
    push_cast
    ring
  · have hexp : exponent (k * 2 ^ 23 + m) = k - 149 := by
      simp only [exponent]
      omega
    have hsig : significand (k * 2 ^ 23 + m) = m := by
      rw [significand]
      split <;> omega
    rw [value, hexp, hsig]
    push_cast
    ring

/-- A number is a multiple of the last bit around `x`, or it is below the numbers around `x`. -/
theorem value_grid (e : ℤ) (bits : Nat) :
    (∃ k : ℤ, value bits = k * 2 ^ e) ∨ (e ≠ -149 ∧ value bits < 2 ^ 23 * 2 ^ e) := by
  have hsig : significand bits < 2 ^ 24 := by
    rw [significand]
    split <;> omega
  by_cases hle : e ≤ exponent bits
  · left
    obtain ⟨n, hn⟩ := Int.le.dest hle
    refine ⟨significand bits * 2 ^ n, ?_⟩
    rw [value, ← hn, zpow_add₀ two_ne_zero, zpow_natCast]
    push_cast
    ring
  · right
    have hexp : -149 ≤ exponent bits := by
      rw [exponent]
      omega
    refine ⟨by omega, ?_⟩
    have hpow : (2 : ℚ) ^ exponent bits ≤ 2 ^ (e - 1) := zpow_le_zpow_right₀ one_le_two (by omega)
    have hhalf : (2 : ℚ) ^ e = 2 ^ (e - 1) * 2 := by
      rw [← zpow_add_one₀ two_ne_zero, sub_add_cancel]
    have hpos : (0 : ℚ) < 2 ^ (e - 1) := by positivity
    have hlt : (significand bits : ℚ) < 2 ^ 24 := by exact_mod_cast hsig
    calc value bits ≤ significand bits * 2 ^ (e - 1) := by rw [value]; gcongr
      _ < 2 ^ 24 * 2 ^ (e - 1) := by gcongr
      _ = 2 ^ 23 * 2 ^ e := by rw [hhalf]; ring

/-- In units of the last bit no other number is as near, but for one as far as the even one. -/
theorem closest_units {y : ℚ} {bits : Nat} (hy : e ≠ -149 → 2 ^ 23 ≤ y)
    (hne : value bits ≠ roundEven y * 2 ^ e) :
    |roundEven y * 2 ^ e - y * 2 ^ e| < |value bits - y * 2 ^ e| ∨
      (|roundEven y * 2 ^ e - y * 2 ^ e| = |value bits - y * 2 ^ e| ∧ roundEven y % 2 = 0) := by
  have hpos : (0 : ℚ) < 2 ^ e := by positivity
  have units (a : ℚ) : |a * 2 ^ e - y * 2 ^ e| = |a - y| * 2 ^ e := by
    rw [← sub_mul, abs_mul, abs_of_pos hpos]
  rcases value_grid e bits with ⟨k, hk⟩ | ⟨hnormal, hlt⟩
  · have hother : k ≠ roundEven y := by
      rintro rfl
      exact hne hk
    rw [hk, units, units]
    rcases roundEven_closest hother with hnear | ⟨hsame, heven⟩
    · exact Or.inl (mul_lt_mul_of_pos_right hnear hpos)
    · exact Or.inr ⟨by rw [hsame], heven⟩
  · -- the power of two in front of `y` is nearer than what is below it
    have hle := hy hnormal
    have hcast : ((2 ^ 23 : ℤ) : ℚ) = 2 ^ 23 := by norm_num
    have hfar : |((2 ^ 23 : ℤ) : ℚ) - y| = y - 2 ^ 23 := by
      rw [abs_sub_comm, hcast, abs_of_nonneg (by linarith)]
    have hpower : |roundEven y - y| ≤ y - 2 ^ 23 := by
      rw [← hfar]
      by_cases hround : roundEven y = 2 ^ 23
      · rw [hround]
      · exact (roundEven_closest (Ne.symm hround)).elim le_of_lt fun hsame => hsame.1.le
    left
    calc |roundEven y * 2 ^ e - y * 2 ^ e| = |roundEven y - y| * 2 ^ e := units _
      _ ≤ (y - 2 ^ 23) * 2 ^ e := by gcongr
      _ < y * 2 ^ e - value bits := by linarith
      _ ≤ |value bits - y * 2 ^ e| := by
        rw [abs_sub_comm]
        exact le_abs_self _

theorem nearest_zero : Nearest 0 0 where
  le_infinity := by decide
  closest := by
    intro other _ hne
    left
    have hzero : value 0 = 0 := by norm_num [value, significand]
    have hpos := value_strictMono (Nat.pos_of_ne_zero hne)
    rw [hzero] at hpos ⊢
    rw [sub_zero, sub_zero, abs_zero]
    exact abs_pos.mpr hpos.ne'

/-- `round` rounds to the nearest number, to the even one of two. -/
theorem nearest_round (hx : 0 ≤ x) : Nearest x (round x) := by
  rcases hx.eq_or_lt with rfl | hx
  · exact nearest_zero
  obtain ⟨he, hhigh, hlow⟩ := lastBit_bounds hx
  rw [round, if_neg hx.ne']
  generalize lastBit x = e at he hhigh hlow
  have hpos : (0 : ℚ) < 2 ^ e := by positivity
  obtain ⟨y, rfl⟩ : ∃ y, x = y * 2 ^ e := ⟨x / 2 ^ e, (div_mul_cancel₀ x hpos.ne').symm⟩
  rw [mul_div_cancel_right₀ y hpos.ne'] at hhigh hlow ⊢
  have hy : 0 < y := pos_of_mul_pos_left hx hpos.le
  have hnonneg : 0 ≤ roundEven y := le_roundEven (by exact_mod_cast hy.le)
  have hle : roundEven y ≤ 2 ^ 24 := roundEven_le (by exact_mod_cast hhigh)
  have hnormal : e ≠ -149 → 2 ^ 23 ≤ roundEven y := fun hne =>
    le_roundEven (by exact_mod_cast hlow hne)
  have hpack := value_pack he hnonneg hle hnormal
  by_cases hfinite : ((e + 149) * 2 ^ 23 + roundEven y).toNat ≤ infinity
  · rw [min_eq_left hfinite]
    refine ⟨hfinite, fun other _ hother => ?_⟩
    have hne : value other ≠ roundEven y * 2 ^ e := by
      rw [← hpack]
      exact fun heq => hother (value_strictMono.injective heq)
    rw [hpack]
    refine (closest_units hlow hne).imp_right fun ⟨hsame, heven⟩ => ⟨hsame, ?_⟩
    omega
  · -- `y` is at least the power of two that infinity stands for
    rw [min_eq_right (Nat.le_of_not_le hfinite)]
    refine ⟨le_rfl, fun other hother hne => Or.inl ?_⟩
    have hbig : 105 ≤ e := by
      simp only [infinity] at hfinite
      omega
    have hlarge : value infinity ≤ y * 2 ^ e := by
      have hpow : (2 : ℚ) ^ (105 : ℤ) ≤ 2 ^ e := zpow_le_zpow_right₀ one_le_two hbig
      have hy := hlow (by omega)
      calc value infinity = 2 ^ 23 * 2 ^ (105 : ℤ) := by rw [value_infinity]; norm_num
        _ ≤ y * 2 ^ e := by gcongr
    have hless := value_strictMono (Nat.lt_of_le_of_ne hother hne)
    rw [abs_sub_comm, abs_of_nonneg (by linarith), abs_sub_comm, abs_of_nonneg (by linarith)]
    linarith

/-- The pattern of infinity is the result from half a last bit behind the largest number on. -/
theorem round_eq_infinity (hx : 0 ≤ x) : round x = infinity ↔ 2 ^ 128 - 2 ^ 103 ≤ x :=
  (nearest_round hx).infinity_iff

end Round

end Foundation.Binary32
