import InverseTelecine.Fault

namespace InverseTelecine.Signed64

def least : Int := -9223372036854775808

def greatest : Int := 9223372036854775807

def Fits (x : Int) : Prop := least ≤ x ∧ x ≤ greatest

instance (x : Int) : Decidable (Fits x) := inferInstanceAs (Decidable (_ ∧ _))

def truncate (x : Int) : Int := Int.bmod x 18446744073709551616

def saturate (x : Int) : Int := if x < least then least else if greatest < x then greatest else x

def negate (x : Int) : Except Fault Int := if x = least then .error .negateOverflow else .ok (-x)

theorem negate_of_ne {x : Int} (h : x ≠ least) : negate x = .ok (-x) := if_neg h

theorem truncate_fits (x : Int) : Fits (truncate x) := by
  have low := Int.le_bmod (x := x) (m := 18446744073709551616) (by decide)
  have high := Int.bmod_lt (x := x) (m := 18446744073709551616) (by decide)
  simp only [Fits, least, greatest, truncate]
  omega

theorem truncate_of_fits {x : Int} (h : Fits x) : truncate x = x := by
  simp only [Fits, least, greatest] at h
  simp only [truncate, Int.bmod_eq_emod]
  split <;> omega

theorem saturate_fits (x : Int) : Fits (saturate x) := by
  rw [saturate]
  split
  · exact ⟨Int.le_refl _, by decide⟩
  · split
    · exact ⟨by decide, Int.le_refl _⟩
    · exact ⟨by omega, by omega⟩

theorem saturate_of_fits {x : Int} (h : Fits x) : saturate x = x := by
  simp only [Fits] at h
  rw [saturate, if_neg (by omega), if_neg (by omega)]

end InverseTelecine.Signed64
