import Mathlib.Algebra.Group.Int.Defs
import Mathlib.Algebra.Group.Nat.Defs
import Mathlib.Order.Bounds.Basic
import RegisterCompiler.Code.SizeByte

/-!
# Sizes are rounded up

The sizes that bytes stand for grow with the byte (`sizeOfByte_succ`), and a byte is at least that of a
size just if it stands for at least that size (`sizeByte_le_iff`). All else about rounding follows.
-/

namespace RegisterCompiler

theorem halve_bounds {fuel x e : Nat} (hx : x ≤ fuel) (h8 : 8 ≤ x) :
    8 ≤ (halve fuel x e).1 ∧ (halve fuel x e).1 < 16 ∧ e ≤ (halve fuel x e).2 := by
  induction fuel generalizing x e with
  | zero => omega
  | succ fuel ih =>
    rw [halve]
    split
    · have h := @ih ((x + 1) / 2) (e + 1) (by omega) (by omega)
      omega
    · exact ⟨h8, by omega, le_rfl⟩

-- Rounding up in every halving overshoots nothing: `(x + 1) / 2 ≤ y` just if `x ≤ 2 * y`.
theorem halve_le_iff {fuel x e m j : Nat} (hx : x ≤ fuel) (h8 : 8 ≤ x) (hm : 8 ≤ m ∧ m < 16) :
    (halve fuel x e).2 * 8 + (halve fuel x e).1 ≤ (e + j) * 8 + m ↔ x ≤ m * 2 ^ j := by
  induction fuel generalizing x e j with
  | zero => omega
  | succ fuel ih =>
    rw [halve]
    split
    · cases j with
      | zero =>
        have h := @halve_bounds fuel ((x + 1) / 2) (e + 1) (by omega) (by omega)
        omega
      | succ j =>
        have h := @ih ((x + 1) / 2) (e + 1) j (by omega) (by omega)
        rw [Nat.pow_succ, ← Nat.mul_assoc]
        omega
    · cases j with
      | zero => simp
      | succ j =>
        have hle := Nat.mul_le_mul hm.1 (Nat.one_le_two_pow (n := j))
        rw [Nat.pow_succ, ← Nat.mul_assoc]
        omega

theorem sizeByte_eq {x : Int} (h : 8 ≤ x) :
    sizeByte x = ((halve x.toNat x.toNat 0).2 * 8 + (halve x.toNat x.toNat 0).1 : Nat) := by
  have hb := @halve_bounds x.toNat x.toNat 0 le_rfl (by omega)
  have hor : ∀ e m : Nat, m < 8 → e * 8 ||| m = e * 8 + m := fun e m hm => by
    rw [Nat.mul_comm e]
    exact (Nat.two_pow_add_eq_or_of_lt (i := 3) hm e).symm
  rw [sizeByte, if_neg (by omega)]
  simp only []
  rw [hor _ _ (by omega)]
  omega

theorem sizeOfByte_of_lt {b : Int} (h0 : 0 ≤ b) (h : b < 8) : sizeOfByte b = b :=
  if_pos (by omega)

theorem exists_sizeOfByte {b : Int} (h8 : 8 ≤ b) (h : b ≤ 255) :
    ∃ j m : Nat, b = (j * 8 + m : Nat) ∧ 8 ≤ m ∧ m < 16 ∧ sizeOfByte b = (m * 2 ^ j : Nat) := by
  refine ⟨(b / 8).toNat - 1, (b % 8).toNat + 8, by omega, by omega, by omega, ?_⟩
  have he : (b / 8 % 32).toNat = (b / 8).toNat := by omega
  rw [sizeOfByte, he, if_neg (by omega), Int.natCast_mul]
  congr
  omega

section Bytes
variable {x b : Int}

theorem sizeByte_nonneg (hx : 0 ≤ x) : 0 ≤ sizeByte x := by
  by_cases h8 : 8 ≤ x
  · rw [sizeByte_eq h8]
    omega
  · rwa [sizeByte, if_pos (by omega)]

theorem sizeByte_le_iff (hx : 0 ≤ x) (h0 : 0 ≤ b) (hb : b ≤ 255) : sizeByte x ≤ b ↔ x ≤ sizeOfByte b := by
  by_cases h8 : 8 ≤ x
  · have hbounds := @halve_bounds x.toNat x.toNat 0 le_rfl (by omega)
    rw [sizeByte_eq h8]
    by_cases hb8 : 8 ≤ b
    · obtain ⟨j, m, rfl, hm, hm', hsize⟩ := exists_sizeOfByte hb8 hb
      have h := @halve_le_iff x.toNat x.toNat 0 m j le_rfl (by omega) ⟨hm, hm'⟩
      omega
    · rw [sizeOfByte_of_lt h0 (by omega)]
      omega
  · rw [sizeByte, if_pos (by omega)]
    by_cases hb8 : 8 ≤ b
    · obtain ⟨j, m, rfl, hm, -, hsize⟩ := exists_sizeOfByte hb8 hb
      have hle := Nat.mul_le_mul hm (Nat.one_le_two_pow (n := j))
      omega
    · rw [sizeOfByte_of_lt h0 (by omega)]

/-- The size in a byte is not below the number, unless the number is too large for any byte. -/
theorem le_sizeOfByte (hx : 0 ≤ x) (h : x ≤ 15 * 2 ^ 30) :
    x ≤ sizeOfByte (sizeByte x) ∧ 0 ≤ sizeByte x ∧ sizeByte x ≤ 255 :=
  have hbyte : sizeByte x ≤ 255 := (sizeByte_le_iff hx (by decide) le_rfl).2 h
  ⟨(sizeByte_le_iff hx (sizeByte_nonneg hx) hbyte).1 le_rfl, sizeByte_nonneg hx, hbyte⟩

/-- The sizes of two bytes in a row differ by one or by an eighth at most. -/
theorem sizeOfByte_succ (h0 : 0 ≤ b) (hb : b < 255) :
    ∃ d, sizeOfByte (b + 1) = sizeOfByte b + d ∧ 0 < d ∧ (d = 1 ∨ 8 * d ≤ sizeOfByte b) := by
  by_cases hb8 : 8 ≤ b
  · obtain ⟨j, m, rfl, hm, hm', hsize⟩ := exists_sizeOfByte hb8 hb.le
    obtain ⟨j', m', heq, hj, hj', hsize'⟩ := @exists_sizeOfByte ((j * 8 + m : Nat) + 1) (by omega) hb
    have hpos := Nat.two_pow_pos j
    have hm8 := Nat.mul_le_mul_right (2 ^ j) hm
    refine ⟨(2 ^ j : Nat), ?_, by omega, .inr (by omega)⟩
    rw [hsize, hsize', ← Int.natCast_add, Int.natCast_inj]
    -- After 15 the significand starts again at 8, with the next exponent.
    by_cases hlast : m = 15
    · obtain ⟨rfl, rfl⟩ : j' = j + 1 ∧ m' = 8 := by omega
      rw [hlast, Nat.pow_succ]
      omega
    · obtain ⟨rfl, rfl⟩ : j' = j ∧ m' = m + 1 := by omega
      rw [Nat.add_mul, Nat.one_mul]
  · refine ⟨1, ?_, one_pos, .inl rfl⟩
    rw [sizeOfByte_of_lt h0 (by omega)]
    by_cases h7 : b = 7
    · subst h7
      decide
    · exact sizeOfByte_of_lt (by omega) (by omega)

theorem sizeOfByte_lt_of_lt_sizeByte (hx : 0 ≤ x) (h0 : 0 ≤ b) (hb : b ≤ 255) (h : b < sizeByte x) :
    sizeOfByte b < x :=
  lt_of_not_ge fun hle => absurd ((sizeByte_le_iff hx h0 hb).2 hle) (by omega)

theorem sizeOfByte_nonneg (h0 : 0 ≤ b) (hb : b ≤ 255) : 0 ≤ sizeOfByte b := by
  by_cases hb8 : 8 ≤ b
  · obtain ⟨j, m, -, -, -, hsize⟩ := exists_sizeOfByte hb8 hb
    omega
  · rwa [sizeOfByte_of_lt h0 (by omega)]

theorem sizeByte_sizeOfByte (h0 : 0 ≤ b) (hb : b ≤ 255) : sizeByte (sizeOfByte b) = b := by
  have hsize := sizeOfByte_nonneg h0 hb
  refine le_antisymm ((sizeByte_le_iff hsize h0 hb).2 le_rfl) ?_
  by_contra hlt
  -- A lower byte would stand for less.
  have hpos := sizeByte_nonneg hsize
  obtain ⟨d, hd, hd0, -⟩ := @sizeOfByte_succ (b - 1) (by omega) (by omega)
  have hle := (@sizeByte_le_iff (sizeOfByte b) (b - 1) hsize (by omega) (by omega)).1 (by omega)
  rw [Int.sub_add_cancel] at hd
  omega

theorem sizeOfByte_sizeByte_le (hx : 0 ≤ x) (h : sizeByte x ≤ 255) : sizeOfByte (sizeByte x) ≤ x + x / 8 := by
  rcases (sizeByte_nonneg hx).eq_or_lt with h0 | hpos
  · rw [← h0, sizeOfByte_of_lt le_rfl (by omega)]
    omega
  · obtain ⟨d, hd, -, hsmall⟩ := @sizeOfByte_succ (sizeByte x - 1) (by omega) (by omega)
    have hlt := @sizeOfByte_lt_of_lt_sizeByte x (sizeByte x - 1) hx (by omega) (by omega) (by omega)
    rw [Int.sub_add_cancel] at hd
    omega

end Bytes

theorem sizeByte_rounds_up {x : Int} (hx : 0 ≤ x) (h : x ≤ 15 * 2 ^ 30) : sizeByte x ≤ 255 ∧
    IsLeast {y | x ≤ y ∧ ∃ b, 0 ≤ b ∧ b ≤ 255 ∧ sizeOfByte b = y} (sizeOfByte (sizeByte x)) ∧
    (∀ y, x ≤ y → y ≤ 15 * 2 ^ 30 → sizeByte x ≤ sizeByte y) ∧ (∀ b, 0 ≤ b → b ≤ 255 → sizeByte (sizeOfByte b) = b) ∧
    sizeOfByte (sizeByte x) ≤ x + x / 8 := by
  obtain ⟨hle, h0, hbyte⟩ := le_sizeOfByte hx h
  have hmono : ∀ y, x ≤ y → sizeByte y ≤ 255 → sizeByte x ≤ sizeByte y := fun y hxy hy =>
    (sizeByte_le_iff hx (sizeByte_nonneg (hx.trans hxy)) hy).2
      (hxy.trans ((sizeByte_le_iff (hx.trans hxy) (sizeByte_nonneg (hx.trans hxy)) hy).1 le_rfl))
  refine ⟨hbyte, ⟨⟨hle, _, h0, hbyte, rfl⟩, ?_⟩,
    fun y hxy hy => hmono y hxy (le_sizeOfByte (hx.trans hxy) hy).2.2, fun b => sizeByte_sizeOfByte,
    sizeOfByte_sizeByte_le hx hbyte⟩
  rintro y ⟨hxy, b, hb0, hb, rfl⟩
  have hle := hmono _ hxy (by rwa [sizeByte_sizeOfByte hb0 hb])
  rw [sizeByte_sizeOfByte hb0 hb] at hle
  refine (sizeByte_le_iff (sizeOfByte_nonneg h0 hbyte) hb0 hb).1 ?_
  rwa [sizeByte_sizeOfByte h0 hbyte]

/-- A carry: 1000 is between the sizes 960 and 1024, whose significands are 15 and 8. -/
theorem sizeByte_rounds_up_carry : sizeByte 1000 ≤ 255 ∧ sizeOfByte (sizeByte 1000) = 1024 ∧
      sizeOfByte (sizeByte 1000) ≤ 1000 + 1000 / 8 :=
  have h := @sizeByte_rounds_up 1000 (by decide) (by decide)
  ⟨h.1, by decide, h.2.2.2.2⟩

end RegisterCompiler
