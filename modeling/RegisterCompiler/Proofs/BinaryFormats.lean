import Mathlib.Tactic.IntervalCases
import Mathlib.Tactic.Linarith
import Mathlib.Tactic.Ring
import RegisterCompiler.Number.Binary

/-!
# Numbers in binary formats

Bits are a sign, an exponent and a fraction in a row. A number that a format holds is read back from
its bits, if not with the mantissa and exponent that it was packed with, then with others that mean
the same.

* `Binary.pack?_mul_pow` : factors two may stand in the mantissa or in the exponent;
* `Binary.unpack_of_pack?` : bits that were packed stand for what was packed;
* `Binary.pack?_of_unpack` : a finite number packed again has the bits that it was read from.
-/

namespace RegisterCompiler

namespace Binary

variable {f : Binary} {negative : Bool} {m n : Nat} {q : Int}

/-! ## Factors two -/

theorem exists_oddPart (fuel m : Nat) (q : Int) :
    ∃ k : Nat, m = (oddPart fuel m q).1 * 2 ^ k ∧ (oddPart fuel m q).2 = q + k := by
  induction fuel generalizing m q with
  | zero => exact ⟨0, by simp [oddPart]⟩
  | succ fuel ih =>
    unfold oddPart
    split
    · obtain ⟨k, hm, hq⟩ := ih (m / 2) (q + 1)
      refine ⟨k + 1, ?_, by rw [hq]; push_cast; ring⟩
      rw [pow_succ, ← mul_assoc, ← hm]
      omega
    · exact ⟨0, by simp⟩

theorem oddPart_odd {fuel : Nat} (hm : 0 < m) (hfuel : m.log2 ≤ fuel) : (oddPart fuel m q).1 % 2 = 1 := by
  induction fuel generalizing m q with
  | zero =>
    have hlt : m < 2 ^ (m.log2 + 1) := Nat.lt_log2_self
    rw [Nat.le_zero.1 hfuel] at hlt
    show m % 2 = 1
    omega
  | succ fuel ih =>
    unfold oddPart
    split
    case isTrue heven =>
      have hlog : (2 * (m / 2)).log2 = (m / 2).log2 + 1 := Nat.log2_two_mul (by omega)
      rw [show 2 * (m / 2) = m by omega] at hlog
      exact ih (by omega) (by omega)
    case isFalse hodd => show m % 2 = 1; omega

theorem oddPart_mul_pow {fuel k : Nat} (hm : m % 2 = 1) (hk : k ≤ fuel) : oddPart fuel (m * 2 ^ k) q = (m, q + k) := by
  induction k generalizing fuel q with
  | zero =>
    cases fuel with
    | zero => simp [oddPart]
    | succ fuel => simp [oddPart, hm]
  | succ k ih =>
    obtain ⟨fuel, rfl⟩ : ∃ n, fuel = n + 1 := ⟨fuel - 1, by omega⟩
    have htwo : m * 2 ^ (k + 1) = m * 2 ^ k * 2 := by rw [pow_succ, mul_assoc]
    rw [oddPart, htwo, if_pos (Nat.mul_mod_left ..), Nat.mul_div_cancel _ (by decide), ih (by omega)]
    push_cast
    congr 1
    ring

theorem oddPart_log2_mul_pow {k : Nat} (hm : m % 2 = 1) : oddPart (m * 2 ^ k).log2 (m * 2 ^ k) q = (m, q + k) := by
  refine oddPart_mul_pow hm ((Nat.le_log2 ?_).2 ?_)
  · exact Nat.mul_ne_zero (by omega) (by positivity)
  · exact Nat.le_mul_of_pos_left _ (by omega)

theorem exists_odd_mul_pow (hm : 0 < m) : ∃ d k : Nat, d % 2 = 1 ∧ m = d * 2 ^ k := by
  obtain ⟨k, hk, -⟩ := exists_oddPart m.log2 m 0
  exact ⟨_, k, oddPart_odd hm le_rfl, hk⟩

theorem pack?_mul_pow (hm : m % 2 = 1) (k : Nat) : f.pack? negative (m * 2 ^ k) q = f.pack? negative m (q + k) := by
  have hzero : m ≠ 0 := by omega
  have hone : oddPart m.log2 m (q + k) = (m, q + k) := by
    simpa using oddPart_log2_mul_pow (q := q + k) (k := 0) hm
  unfold pack?
  rw [oddPart_log2_mul_pow hm, hone]
  simp [hzero]

/-! ## Fields -/

def signPart (f : Binary) (negative : Bool) : Nat :=
  if negative then f.signWeight else 0

theorem unit_pos (f : Binary) : 0 < f.unit :=
  Nat.two_pow_pos _

theorem signWeight_eq (f : Binary) : f.signWeight = 2 ^ f.exponentBits * f.unit :=
  Nat.pow_add ..

theorem fields_of_sum (negative : Bool) {e r : Nat} (he : e < 2 ^ f.exponentBits) (hr : r < f.unit) :
    let n := f.signPart negative + e * f.unit + r
    n / f.unit % 2 ^ f.exponentBits = e ∧ n % f.unit = r ∧ (n / f.signWeight % 2 == 1) = negative ∧
      n < 2 * f.signWeight := by
  have hP := f.unit_pos
  have hQ := Nat.two_pow_pos f.exponentBits
  simp only [signPart, signWeight_eq]
  generalize f.unit = P at *
  generalize 2 ^ f.exponentBits = Q at *
  set b : Nat := if negative then 1 else 0 with hb
  have hn : (if negative = true then Q * P else 0) + e * P + r = r + P * (e + Q * b) := by
    cases negative <;> simp [hb] <;> ring
  have hdiv : (r + P * (e + Q * b)) / P = e + Q * b := by
    rw [Nat.add_mul_div_left _ _ hP, Nat.div_eq_of_lt hr, Nat.zero_add]
  have hfield : r + P * (e + Q * b) < P * (Q * (b + 1)) := by
    calc r + P * (e + Q * b) < P + P * (e + Q * b) := by omega
      _ = P * (e + 1 + Q * b) := by ring
      _ ≤ P * (Q + Q * b) := Nat.mul_le_mul_left P (by omega)
      _ = P * (Q * (b + 1)) := by ring
  rw [hn]
  refine ⟨?_, ?_, ?_, ?_⟩
  · rw [hdiv, Nat.add_mul_mod_self_left, Nat.mod_eq_of_lt he]
  · rw [Nat.add_mul_mod_self_left, Nat.mod_eq_of_lt hr]
  · rw [mul_comm Q P, ← Nat.div_div_eq_div_mul, hdiv, Nat.add_mul_div_left _ _ hQ,
      Nat.div_eq_of_lt he, Nat.zero_add, hb]
    cases negative <;> rfl
  · refine hfield.trans_le ?_
    rw [show 2 * (Q * P) = P * (Q * 2) by ring]
    have : b ≤ 1 := by rw [hb]; split <;> omega
    exact Nat.mul_le_mul_left P (Nat.mul_le_mul_left Q (by omega))

theorem sum_of_fields (hn : n < 2 * f.signWeight) :
    f.signPart (n / f.signWeight % 2 == 1) + n / f.unit % 2 ^ f.exponentBits * f.unit + n % f.unit = n := by
  have hP := f.unit_pos
  have hQ := Nat.two_pow_pos f.exponentBits
  simp only [signPart, signWeight_eq] at hn ⊢
  generalize f.unit = P at *
  generalize 2 ^ f.exponentBits = Q at *
  have hsplit : n = n / (Q * P) * (Q * P) + n / P % Q * P + n % P := by
    have h1 := Nat.div_add_mod n P
    have h2 := Nat.div_add_mod (n / P) Q
    rw [Nat.div_div_eq_div_mul, mul_comm P Q] at h2
    calc n = P * (n / P) + n % P := h1.symm
      _ = P * (Q * (n / (Q * P)) + n / P % Q) + n % P := by rw [h2]
      _ = _ := by ring
  have htop : n / (Q * P) < 2 := (Nat.div_lt_iff_lt_mul (by positivity)).2 hn
  rw [Nat.mod_eq_of_lt htop]
  have hsign : (if (n / (Q * P) == 1) = true then Q * P else 0) = n / (Q * P) * (Q * P) := by
    interval_cases n / (Q * P) <;> simp
  rw [hsign]
  exact hsplit.symm

/-! ## Packing and unpacking -/

/-- The bits that `pack?` makes of an odd mantissa: a normal number has its leading bit left out, the
others have the least exponent. -/
theorem pack?_odd (hm : m % 2 = 1) :
    f.pack? negative m q =
      let top := q + m.log2
      let lowest := max top f.least - f.fractionBits
      if top > f.bias ∨ q < lowest then none
      else some (f.signPart negative + (if top ≥ f.least then (top + f.bias - 1).toNat else 0) * f.unit
        + m * 2 ^ (q - lowest).toNat) := by
  have hone : oddPart m.log2 m q = (m, q) := by simpa using oddPart_log2_mul_pow (q := q) (k := 0) hm
  unfold pack?
  rw [hone, if_neg (show m ≠ 0 by omega)]
  rfl

theorem log2_mul_pow (hm : 0 < m) (k : Nat) : (m * 2 ^ k).log2 = m.log2 + k := by
  induction k with
  | zero => simp
  | succ k ih =>
    rw [pow_succ, ← mul_assoc, mul_comm _ 2, Nat.log2_two_mul (by positivity), ih]
    omega

theorem two_pow_exponentBits (hf : 0 < f.exponentBits) : ((2 ^ f.exponentBits : Nat) : Int) = 2 * f.bias + 2 := by
  obtain ⟨k, hk⟩ : ∃ k, f.exponentBits = k + 1 := ⟨f.exponentBits - 1, by omega⟩
  have hbias : f.bias = ((2 ^ k : Nat) : Int) - 1 := by simp [bias, hk]
  rw [hbias, hk, pow_succ]
  push_cast
  ring

/-- What was packed is unpacked: the sign, and a mantissa and exponent that every format packs in the
same way. -/
theorem unpack_of_pack? (hf : 0 < f.exponentBits) (h : f.pack? negative m q = some n) :
    n < 2 * f.signWeight ∧ ∃ m' q', f.unpack n = (negative, .finite m' q') ∧
      ∀ g : Binary, g.pack? negative m' q' = g.pack? negative m q := by
  have hQ := two_pow_exponentBits hf
  have hfit : 0 < 2 ^ f.exponentBits := Nat.two_pow_pos _
  rcases Nat.eq_zero_or_pos m with rfl | hpos
  · -- zero has no bits but the sign
    obtain rfl : f.signPart negative = n := by simpa [pack?, signPart] using h
    obtain ⟨h1, h2, h3, h4⟩ := fields_of_sum (f := f) negative hfit f.unit_pos
    simp only [zero_mul, add_zero] at h1 h2 h3 h4
    refine ⟨h4, 0, f.least - f.fractionBits, ?_, fun g => by simp [pack?]⟩
    have hne : (0 : Nat) ≠ 2 ^ f.exponentBits - 1 := by omega
    simp only [unpack, Nat.pow_eq, h1, h2, h3]
    rw [if_neg hne, if_pos trivial]
  · obtain ⟨d, k, hd, rfl⟩ := exists_odd_mul_pow hpos
    have hdpos : 0 < d := by omega
    rw [pack?_mul_pow hd, pack?_odd hd] at h
    simp only at h
    split at h
    · cases h
    case isFalse hrange =>
    set top : Int := q + k + d.log2 with htopdef
    set lowest : Int := max top f.least - f.fractionBits with hlowest
    set j : Nat := (q + k - lowest).toNat with hj
    have hjq : lowest + j = q + k := by omega
    have hlog : (d * 2 ^ j).log2 = d.log2 + j := log2_mul_pow hdpos j
    have hscaled : d * 2 ^ j ≠ 0 := Nat.mul_ne_zero (by omega) (by positivity)
    have hsame : ∀ g : Binary, g.pack? negative (d * 2 ^ j) lowest = g.pack? negative (d * 2 ^ k) q := by
      intro g
      rw [pack?_mul_pow hd, pack?_mul_pow hd, hjq]
    have hn := Option.some.inj h
    have hleast : f.least = 1 - f.bias := rfl
    by_cases hnormal : top ≥ f.least
    · -- a normal number: the leading bit is counted in the exponent
      rw [if_pos hnormal] at hn
      have hlogeq : (d * 2 ^ j).log2 = f.fractionBits := by omega
      have hge : f.unit ≤ d * 2 ^ j := (Nat.le_log2 hscaled).1 hlogeq.ge
      have hlt : d * 2 ^ j < 2 * f.unit := by
        have := Nat.lt_log2_self (n := d * 2 ^ j)
        rw [hlogeq, pow_succ] at this
        rw [mul_comm 2]
        exact this
      obtain ⟨r, hr⟩ : ∃ r, d * 2 ^ j = f.unit + r := ⟨_, (Nat.add_sub_of_le hge).symm⟩
      obtain ⟨e, he⟩ : ∃ e : Nat, (e : Int) = top + f.bias := ⟨(top + f.bias).toNat, by omega⟩
      have hexp : (top + f.bias - 1).toNat + 1 = e := by omega
      have hsum : n = f.signPart negative + e * f.unit + r := by
        rw [← hn, hr, ← hexp]
        ring
      obtain ⟨h1, h2, h3, h4⟩ :=
        fields_of_sum (f := f) negative (e := e) (r := r) (by omega) (by omega)
      rw [← hsum] at h1 h2 h3 h4
      refine ⟨h4, d * 2 ^ j, lowest, ?_, hsame⟩
      simp only [unpack, Nat.pow_eq, h1, h2, h3]
      rw [if_neg (by omega), if_neg (by omega), hr, add_comm r]
      congr 2
      omega
    · rw [if_neg hnormal, zero_mul] at hn
      have hlogeq : (d * 2 ^ j).log2 < f.fractionBits := by omega
      have hlt : d * 2 ^ j < f.unit := (Nat.log2_lt hscaled).1 hlogeq
      have hsum : n = f.signPart negative + 0 * f.unit + d * 2 ^ j := by rw [← hn, zero_mul]
      obtain ⟨h1, h2, h3, h4⟩ := fields_of_sum (f := f) negative hfit hlt
      rw [← hsum] at h1 h2 h3 h4
      refine ⟨h4, d * 2 ^ j, lowest, ?_, hsame⟩
      have hne : (0 : Nat) ≠ 2 ^ f.exponentBits - 1 := by omega
      simp only [unpack, Nat.pow_eq, h1, h2, h3]
      rw [if_neg hne, if_pos trivial]
      congr 2
      omega

theorem pack?_of_unpack (hf : 0 < f.exponentBits) (hn : n < 2 * f.signWeight)
    (h : f.unpack n = (negative, .finite m q)) : f.pack? negative m q = some n := by
  have hQ := two_pow_exponentBits hf
  have hleast : f.least = 1 - f.bias := rfl
  have hsum := sum_of_fields hn
  have hr : n % f.unit < f.unit := Nat.mod_lt _ f.unit_pos
  have he : n / f.unit % 2 ^ f.exponentBits < 2 ^ f.exponentBits := Nat.mod_lt _ (Nat.two_pow_pos _)
  simp only [unpack, Nat.pow_eq, Prod.mk.injEq] at h
  generalize n / f.unit % 2 ^ f.exponentBits = e at *
  generalize n % f.unit = r at *
  obtain ⟨hsign, hshape⟩ := h
  rw [hsign] at hsum
  split at hshape
  · split at hshape <;> cases hshape
  · split at hshape
    case isFalse.isTrue hspecial hzero =>
      subst hzero
      cases hshape
      rcases Nat.eq_zero_or_pos m with rfl | hpos
      · simpa [pack?, signPart] using hsum
      · obtain ⟨d, k, hd, rfl⟩ := exists_odd_mul_pow hpos
        have hlog : d.log2 + k < f.fractionBits := by
          rw [← log2_mul_pow (by omega), Nat.log2_lt (by omega)]
          exact hr
        have hlowest : max (f.least - f.fractionBits + k + d.log2) f.least - f.fractionBits
            = f.least - f.fractionBits := by omega
        rw [pack?_mul_pow hd, pack?_odd hd]
        simp only [hlowest]
        rw [if_neg (by omega), if_neg (by omega)]
        rw [show (f.least - (f.fractionBits : Int) + k - (f.least - f.fractionBits)).toNat = k by omega]
        rw [hsum]
    case isFalse.isFalse hspecial hzero =>
      cases hshape
      obtain ⟨d, k, hd, hdk⟩ := exists_odd_mul_pow (m := r + f.unit) (by omega)
      have hlog : d.log2 + k = f.fractionBits := by
        have hne : d * 2 ^ k ≠ 0 := by omega
        rw [← log2_mul_pow (by omega)]
        refine Nat.le_antisymm (Nat.lt_succ_iff.1 ((Nat.log2_lt hne).2 ?_)) ((Nat.le_log2 hne).2 ?_)
        · rw [← hdk, pow_succ]
          show r + f.unit < f.unit * 2
          omega
        · rw [← hdk]
          exact Nat.le_add_left _ _
      have hlowest : max ((e : Int) - f.bias - f.fractionBits + k + d.log2) f.least - f.fractionBits
          = e - f.bias - f.fractionBits := by omega
      rw [hdk, pack?_mul_pow hd, pack?_odd hd]
      simp only [hlowest]
      rw [if_neg (by omega), if_pos (by omega)]
      rw [show ((e : Int) - f.bias - f.fractionBits + k - (e - f.bias - f.fractionBits)).toNat = k by
        omega]
      rw [← hdk]
      have hexp : ((e : Int) - f.bias - f.fractionBits + k + d.log2 + f.bias - 1).toNat + 1 = e := by
        omega
      generalize ((e : Int) - f.bias - f.fractionBits + k + d.log2 + f.bias - 1).toNat = e' at hexp
      refine congrArg some (Eq.trans ?_ hsum)
      rw [← hexp]
      ring

end Binary

namespace Number

/-- The number, or the canonical NaN if it is one. -/
def canonical (x : Number) : Number :=
  if x.isNaN then notANumber else x

theorem unpack_bits (x : Number) : Binary.double.unpack x.bits.toNat = (x.negative, x.shape) := by
  have hleast : Binary.double.least - (52 : Nat) = -1074 := by decide
  have hbias : Binary.double.bias = 1023 := by decide
  have hunit : Binary.double.unit = 0x10000000000000 := rfl
  have htop : Nat.pow 2 Binary.double.exponentBits = 2048 := rfl
  have hfraction : Binary.double.fractionBits = 52 := rfl
  have hexp : ∀ e : Int, e - 1023 - (52 : Nat) = e - 1075 := by omega
  simp only [Binary.unpack, shape, exponentBits, fractionBits, hunit, htop, hfraction, hleast, hbias, hexp, beq_iff_eq]
  rfl

theorem isNaN_iff (x : Number) : x.isNaN = true ↔ x.shape = .nan := by
  simp only [isNaN, shape, beq_iff_eq, Bool.and_eq_true, bne_iff_ne]
  split
  · split <;> simp_all
  · split <;> simp_all

theorem pack?_shape {x : Number} {m : Nat} {q : Int} (h : x.shape = .finite m q) :
    Binary.double.pack? x.negative m q = some x.bits.toNat :=
  Binary.pack?_of_unpack (by decide) x.bits.toNat_lt (by rw [unpack_bits, h])

theorem ofShape?_of_pack? {f : Binary} {x : Number} {m n : Nat} {q : Int} (hf : 0 < f.exponentBits)
    (hx : x.shape = .finite m q) (h : f.pack? x.negative m q = some n) :
    n < 2 * f.signWeight ∧ ofShape? (f.unpack n).1 (f.unpack n).2 = some x.canonical := by
  obtain ⟨hn, m', q', hunpack, hsame⟩ := Binary.unpack_of_pack? hf h
  refine ⟨hn, ?_⟩
  have hcanonical : x.canonical = x := by
    rw [canonical, if_neg]
    rw [isNaN_iff, hx]
    simp
  rw [hunpack, hcanonical]
  simp [ofShape?, hsame, pack?_shape hx]

end Number

end RegisterCompiler
