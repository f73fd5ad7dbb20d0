import Mathlib.Data.Int.Log
import Mathlib.Data.Rat.Floor

/-!
# Rounding to `f64`

The finite values of `f64` are rational numbers.  An operation takes the exact result and rounds it to 53 significant
binary digits, to the nearest value and in the middle to the even one.  Results whose exponent leaves the range of `f64`
do not occur here.
-/

namespace OpenProxy

/-- The nearest integer, in the middle the even one. -/
def roundTiesEven (q : ℚ) : ℤ :=
  let below := ⌊q⌋
  if q - below < 1 / 2 then below
  else if 1 / 2 < q - below then below + 1
  else if below % 2 = 0 then below else below + 1

/-- The value of `f64` that is nearest to `q`. -/
def toF64 (q : ℚ) : ℚ :=
  if q = 0 then 0
  else
    let unit := (2 : ℚ) ^ (Int.log 2 |q| - 52)
    roundTiesEven (q / unit) * unit

theorem floor_le_roundTiesEven (q : ℚ) : ⌊q⌋ ≤ roundTiesEven q := by
  unfold roundTiesEven
  dsimp only
  split
  · exact le_refl _
  · split
    · omega
    · split <;> omega

/-- Rounding does not bring a positive number down to zero. -/
theorem toF64_pos {q : ℚ} (hq : 0 < q) : 0 < toF64 q := by
  have hunit : (0 : ℚ) < 2 ^ (Int.log 2 |q| - 52) := zpow_pos (by norm_num) _
  have hlog : (2 : ℚ) ^ Int.log 2 |q| ≤ q := by
    rw [abs_of_pos hq]
    exact_mod_cast Int.zpow_log_le_self (by norm_num) hq
  have hone : (1 : ℚ) ≤ q / 2 ^ (Int.log 2 |q| - 52) := by
    rw [le_div_iff₀ hunit, one_mul]
    exact le_trans (zpow_le_zpow_right₀ (by norm_num) (by omega)) hlog
  have hround : 1 ≤ roundTiesEven (q / 2 ^ (Int.log 2 |q| - 52)) :=
    le_trans (Int.le_floor.mpr (by exact_mod_cast hone)) (floor_le_roundTiesEven _)
  rw [toF64, if_neg hq.ne']
  exact mul_pos (by exact_mod_cast hround) hunit

end OpenProxy
