import Mathlib.Algebra.Group.Int.Defs
import Mathlib.Algebra.Group.Nat.Defs
import RegisterCompiler.Code.Instr

/-!
# Fields of instruction words

* `word_abc`, `word_abx`, `word_ofAx` : a word built from operands that fit is their weighted sum;
* `abc_fields`, `abx_fields`, `ofAx_fields` : reading such a word gives the operands back;
* `get_set`, `get_set_below`, `get_set_above` : a replaced field reads as the new operand, and a field
  below or above it as before;
* `fields_independent` : the views of a word as a whole.

The proofs are arithmetic on `word.toNat`, where a field is a quotient and a remainder.
-/

namespace RegisterCompiler

theorem Opcode.code_lt (op : Opcode) : op.code < 64 := by
  cases op <;> decide

@[simp] theorem Opcode.ofCode?_code (op : Opcode) : Opcode.ofCode? op.code = some op := by
  cases op <;> rfl

namespace Instr

/-! ## Sizes of the fields -/

theorem c_lt (i : Instr) : i.c < 512 := Nat.mod_lt _ (by decide)

theorem word_lt (i : Instr) : i.word.toNat < 4294967296 := i.word.toNat_lt

theorem ext_word {i j : Instr} (h : i.word.toNat = j.word.toNat) : i = j :=
  congrArg mk (UInt32.toNat.inj h)

/-! ## Words from operands -/

theorem toNat_place {f : Field} {v : Int} (hv : 0 ≤ v)
    (h : v.toNat * f.weight < 4294967296) : (place f v).toNat = v.toNat * f.weight := by
  obtain ⟨n, rfl⟩ := Int.eq_ofNat_of_zero_le hv
  have hn : UInt32.ofInt (n : Int) = UInt32.ofNat n := by
    apply UInt32.toNat.inj
    simp only [UInt32.ofInt, UInt32.toNat_ofNat']
    omega
  simp only [Int.toNat_natCast] at h ⊢
  rw [place, hn, UInt32.toNat_mul, UInt32.toNat_ofNat', UInt32.toNat_ofNat', ← Nat.mul_mod, Nat.mod_eq_of_lt h]

theorem or_eq_add {x y k : Nat} (hx : x < 2 ^ k) : x ||| y * 2 ^ k = x + y * 2 ^ k := by
  rw [Nat.or_comm, Nat.mul_comm y, ← Nat.two_pow_add_eq_or_of_lt hx, Nat.add_comm]

variable {code : Nat}

theorem toNat_code (h : code < 64) : (UInt32.ofNat code).toNat = code := by
  rw [UInt32.toNat_ofNat', Nat.mod_eq_of_lt (by omega)]

theorem word_abc {a b c : Int} (hcode : code < 64) (ha : 0 ≤ a ∧ a ≤ maxA)
    (hb : 0 ≤ b ∧ b ≤ maxB) (hc : 0 ≤ c ∧ c ≤ maxC) : (abc code a b c).word.toNat =
      code + a.toNat * 64 + c.toNat * 16384 + b.toNat * 8388608 := by
  simp only [maxA, maxB, maxC] at ha hb hc
  have pa : (place .a a).toNat = a.toNat * 2 ^ 6 :=
    toNat_place ha.1 (by simp only [Field.a]; omega)
  have pb : (place .b b).toNat = b.toNat * 2 ^ 23 :=
    toNat_place hb.1 (by simp only [Field.b]; omega)
  have pc : (place .c c).toNat = c.toNat * 2 ^ 14 :=
    toNat_place hc.1 (by simp only [Field.c]; omega)
  -- `C` lies below `B`, so the fields are joined in that order.
  simp only [abc, UInt32.toNat_or, pa, pb, pc, toNat_code hcode]
  rw [Nat.or_assoc, Nat.or_comm (b.toNat * 2 ^ 23), ← Nat.or_assoc, or_eq_add (show code < 2 ^ 6 by omega),
    or_eq_add (show code + a.toNat * 2 ^ 6 < 2 ^ 14 by omega)]
  exact or_eq_add (show code + a.toNat * 2 ^ 6 + c.toNat * 2 ^ 14 < 2 ^ 23 by omega)

theorem word_abx {a bx : Int} (hcode : code < 64) (ha : 0 ≤ a ∧ a ≤ maxA) (hbx : 0 ≤ bx ∧ bx ≤ maxBx) :
    (abx code a bx).word.toNat = code + a.toNat * 64 + bx.toNat * 16384 := by
  simp only [maxA, maxBx] at ha hbx
  have pa : (place .a a).toNat = a.toNat * 2 ^ 6 :=
    toNat_place ha.1 (by simp only [Field.a]; omega)
  have pb : (place .bx bx).toNat = bx.toNat * 2 ^ 14 :=
    toNat_place hbx.1 (by simp only [Field.bx]; omega)
  simp only [abx, UInt32.toNat_or, pa, pb, toNat_code hcode]
  rw [or_eq_add (show code < 2 ^ 6 by omega)]
  exact or_eq_add (show code + a.toNat * 2 ^ 6 < 2 ^ 14 by omega)

theorem word_ofAx {ax : Int} (hcode : code < 64) (hax : 0 ≤ ax ∧ ax ≤ maxAx) :
    (ofAx code ax).word.toNat = code + ax.toNat * 64 := by
  simp only [maxAx] at hax
  have pa : (place .ax ax).toNat = ax.toNat * 2 ^ 6 :=
    toNat_place hax.1 (by simp only [Field.ax]; omega)
  simp only [ofAx, UInt32.toNat_or, pa, toNat_code hcode]
  exact or_eq_add (show code < 2 ^ 6 by omega)

theorem place_mod (f : Field) (v : Int) (h : 64 ∣ f.weight) : (place f v).toNat % 2 ^ 6 = 0 := by
  obtain ⟨k, hk⟩ := h
  simp only [place, UInt32.toNat_mul, UInt32.toNat_ofNat', hk]
  rw [Nat.mod_mod_of_dvd _ (by decide), Nat.mul_mod, Nat.mod_mod_of_dvd _ (by decide)]
  simp

theorem op?_or_place {op : Opcode} {w : UInt32} (hw : w.toNat % 2 ^ 6 = op.code) : op? ⟨w⟩ = some op := by
  have hcode : opcode ⟨w⟩ = op.code := by simpa [opcode, get, Field.op] using hw
  rw [op?, hcode, Opcode.ofCode?_code]

theorem op?_abc (op : Opcode) (a b c : Int) : (abc op.code a b c).op? = some op := by
  have hop := op.code_lt
  refine op?_or_place ?_
  simp only [UInt32.toNat_or, Nat.or_mod_two_pow, place_mod .a a (by decide),
    place_mod .b b (by decide), place_mod .c c (by decide), UInt32.toNat_ofNat', Nat.or_zero]
  omega

theorem op?_abx (op : Opcode) (a bx : Int) : (abx op.code a bx).op? = some op := by
  have hop := op.code_lt
  refine op?_or_place ?_
  simp only [UInt32.toNat_or, Nat.or_mod_two_pow, place_mod .a a (by decide),
    place_mod .bx bx (by decide), UInt32.toNat_ofNat', Nat.or_zero]
  omega

theorem op?_ofAx (op : Opcode) (ax : Int) : (ofAx op.code ax).op? = some op := by
  have hop := op.code_lt
  refine op?_or_place ?_
  simp only [UInt32.toNat_or, Nat.or_mod_two_pow, place_mod .ax ax (by decide),
    UInt32.toNat_ofNat', Nat.or_zero]
  omega

theorem abc_reads {a b c : Int} (hcode : code < 64) (ha : 0 ≤ a ∧ a ≤ maxA)
    (hb : 0 ≤ b ∧ b ≤ maxB) (hc : 0 ≤ c ∧ c ≤ maxC) : (abc code a b c).opcode = code ∧ ((abc code a b c).a : Int) = a ∧
      ((abc code a b c).b : Int) = b ∧ ((abc code a b c).c : Int) = c := by
  have hw := word_abc hcode ha hb hc
  simp only [maxA, maxB, maxC] at ha hb hc
  simp only [opcode, Instr.a, Instr.b, Instr.c, get, Field.op, Field.a, Field.b, Field.c, hw]
  omega

theorem abx_reads {a bx : Int} (hcode : code < 64) (ha : 0 ≤ a ∧ a ≤ maxA) (hbx : 0 ≤ bx ∧ bx ≤ maxBx) :
    (abx code a bx).opcode = code ∧ ((abx code a bx).a : Int) = a ∧ ((abx code a bx).bx : Int) = bx := by
  have hw := word_abx hcode ha hbx
  simp only [maxA, maxBx] at ha hbx
  simp only [opcode, Instr.a, Instr.bx, get, Field.op, Field.a, Field.bx, hw]
  omega

theorem ofAx_reads {ax : Int} (hcode : code < 64) (hax : 0 ≤ ax ∧ ax ≤ maxAx) :
    (ofAx code ax).opcode = code ∧ ((ofAx code ax).ax : Int) = ax := by
  have hw := word_ofAx hcode hax
  simp only [maxAx] at hax
  simp only [opcode, Instr.ax, get, Field.op, Field.ax, hw]
  omega

theorem abc_fields (op : Opcode) {a b c : Int} (ha : 0 ≤ a ∧ a ≤ maxA) (hb : 0 ≤ b ∧ b ≤ maxB)
    (hc : 0 ≤ c ∧ c ≤ maxC) : (abc op.code a b c).op? = some op ∧ ((abc op.code a b c).a : Int) = a ∧
      ((abc op.code a b c).b : Int) = b ∧ ((abc op.code a b c).c : Int) = c :=
  ⟨op?_abc op a b c, (abc_reads op.code_lt ha hb hc).2⟩

theorem abx_fields (op : Opcode) {a bx : Int} (ha : 0 ≤ a ∧ a ≤ maxA) (hbx : 0 ≤ bx ∧ bx ≤ maxBx) :
    (abx op.code a bx).op? = some op ∧ ((abx op.code a bx).a : Int) = a ∧ ((abx op.code a bx).bx : Int) = bx :=
  ⟨op?_abx op a bx, (abx_reads op.code_lt ha hbx).2⟩

theorem ofAx_fields (op : Opcode) {ax : Int} (hax : 0 ≤ ax ∧ ax ≤ maxAx) :
    (ofAx op.code ax).op? = some op ∧ ((ofAx op.code ax).ax : Int) = ax :=
  ⟨op?_ofAx op ax, (ofAx_reads op.code_lt hax).2⟩

/-! ## Replaced fields -/

end Instr

/-- The field consists of the `size` bits of the word from bit `pos` on. -/
structure Field.Spans (f : Field) (pos size : Nat) : Prop where
  weight : f.weight = 2 ^ pos
  bound : f.bound = 2 ^ size
  le : pos + size ≤ 32

namespace Instr

section Set
variable {f g : Field} {pos size : Nat} (v : Int) (i : Instr)

theorem digits (x w n : Nat) : w * (n * (x / (w * n)) + x / w % n) + x % w = x := by
  rw [← Nat.div_div_eq_div_mul, Nat.div_add_mod, Nat.div_add_mod]

/-- The digit of `x` with weight `w` in base `n` is replaced by `d`. -/
theorem replace_digit {x w n d : Nat} (hw : 0 < w) (hd : d < n) :
    (x - x / w % n * w + d * w) % w = x % w ∧ (x - x / w % n * w + d * w) / w % n = d ∧
      (x - x / w % n * w + d * w) / (w * n) = x / (w * n) := by
  have hy : x - x / w % n * w + d * w = w * (n * (x / (w * n)) + d) + x % w := by
    have hx := digits x w n
    rw [Nat.mul_add] at hx ⊢
    rw [Nat.mul_comm _ w, Nat.mul_comm d w]
    omega
  have hdiv : (w * (n * (x / (w * n)) + d) + x % w) / w = n * (x / (w * n)) + d := by
    rw [Nat.mul_add_div hw, Nat.div_eq_of_lt (Nat.mod_lt x hw), Nat.add_zero]
  refine ⟨?_, ?_, ?_⟩
  · rw [hy, Nat.mul_add_mod, Nat.mod_mod]
  · rw [hy, hdiv, Nat.mul_add_mod, Nat.mod_eq_of_lt hd]
  · rw [hy, ← Nat.div_div_eq_div_mul, hdiv, Nat.mul_add_div (by omega), Nat.div_eq_of_lt hd, Nat.add_zero]

section
variable (h : f.Spans pos size)
include h

theorem word_set : (i.set f v).word.toNat % f.weight = i.word.toNat % f.weight ∧
      ((i.set f v).get f : Int) = v % f.bound ∧
      (i.set f v).word.toNat / (f.weight * f.bound) = i.word.toNat / (f.weight * f.bound) := by
  have hw : 0 < f.weight := h.weight ▸ Nat.two_pow_pos pos
  have hn : 0 < f.bound := h.bound ▸ Nat.two_pow_pos size
  have hv := Int.emod_nonneg v (b := f.bound) (by omega)
  have hlt := Int.emod_lt_of_pos v (b := f.bound) (by omega)
  obtain ⟨hlow, hdigit, hhigh⟩ :=
    @replace_digit i.word.toNat f.weight f.bound (v % f.bound).toNat hw (by omega)
  -- The digits above are as before, so the word still has 32 bits.
  have hword : (i.set f v).word.toNat =
      i.word.toNat - i.word.toNat / f.weight % f.bound * f.weight + (v % f.bound).toNat * f.weight := by
    have htop : 2 ^ 32 = 2 ^ (32 - (pos + size)) * (f.weight * f.bound) := by
      rw [h.weight, h.bound, ← Nat.pow_add, ← Nat.pow_add, Nat.sub_add_cancel h.le]
    rw [set, UInt32.toNat_ofNat', htop]
    refine Nat.mod_eq_of_lt ((Nat.div_lt_iff_lt_mul (Nat.mul_pos hw hn)).1 ?_)
    rw [get, hhigh, Nat.div_lt_iff_lt_mul (Nat.mul_pos hw hn), ← htop]
    exact i.word_lt
  rw [get, hword, hdigit, Int.toNat_of_nonneg hv]
  exact ⟨hlow, rfl, hhigh⟩

theorem get_set : ((i.set f v).get f : Int) = v % f.bound :=
  (word_set v i h).2.1

theorem get_set_below (hg : g.weight * g.bound ∣ f.weight) : (i.set f v).get g = i.get g := by
  rw [get, get, ← Nat.mod_mul_right_div_self, ← Nat.mod_mul_right_div_self, ← Nat.mod_mod_of_dvd _ hg,
    (word_set v i h).1, Nat.mod_mod_of_dvd _ hg]

theorem get_set_above (hg : f.weight * f.bound ∣ g.weight) : (i.set f v).get g = i.get g := by
  obtain ⟨k, hk⟩ := hg
  rw [get, get, hk, ← Nat.div_div_eq_div_mul _ (f.weight * f.bound), (word_set v i h).2.2, Nat.div_div_eq_div_mul]

theorem testBit_set {k : Nat} (hk : k < pos ∨ pos + size ≤ k) :
    (i.set f v).word.toNat.testBit k = i.word.toNat.testBit k := by
  obtain ⟨hlow, -, hhigh⟩ := word_set v i h
  rw [h.bound, h.weight, ← Nat.pow_add] at hhigh
  rw [h.weight] at hlow
  rcases hk with hk | hk
  · have hbit := congrArg (Nat.testBit · k) hlow
    simpa [Nat.testBit_mod_two_pow, hk] using hbit
  · have hbit := congrArg (Nat.testBit · (k - (pos + size))) hhigh
    simpa [Nat.testBit_div_two_pow, Nat.sub_add_cancel hk] using hbit

/-- A field that gets its first value back. -/
theorem set_set_get : (i.set f v).set f (i.get f) = i := by
  obtain ⟨hlow, hget, hhigh⟩ := word_set (i.get f) (i.set f v) h
  have hself : ((i.set f v).set f (i.get f)).get f = i.get f := by
    rw [← Int.natCast_emod, Int.natCast_inj] at hget
    rw [hget]
    exact Nat.mod_mod ..
  rw [(word_set v i h).1] at hlow
  rw [(word_set v i h).2.2] at hhigh
  have hword := digits ((i.set f v).set f (i.get f)).word.toNat f.weight f.bound
  rw [hlow, hhigh, ← get, hself, get, digits] at hword
  exact ext_word hword.symm

end

end Set

theorem spans_op : Field.op.Spans 0 6 := ⟨rfl, rfl, by decide⟩
theorem spans_a : Field.a.Spans 6 8 := ⟨rfl, rfl, by decide⟩
theorem spans_c : Field.c.Spans 14 9 := ⟨rfl, rfl, by decide⟩
theorem spans_b : Field.b.Spans 23 9 := ⟨rfl, rfl, by decide⟩
theorem spans_bx : Field.bx.Spans 14 18 := ⟨rfl, rfl, by decide⟩

section Setters
variable (v : Int) (i : Instr)

@[simp] theorem opcode_setA : (i.setA v).opcode = i.opcode := get_set_below v i spans_a (by decide)

@[simp] theorem opcode_setB : (i.setB v).opcode = i.opcode := get_set_below v i spans_b (by decide)

@[simp] theorem opcode_setC : (i.setC v).opcode = i.opcode := get_set_below v i spans_c (by decide)

@[simp] theorem opcode_setSBx : (i.setSBx v).opcode = i.opcode :=
  get_set_below _ i spans_bx (by decide)

@[simp] theorem op?_setA : (i.setA v).op? = i.op? := by rw [op?, opcode_setA, op?]

@[simp] theorem op?_setB : (i.setB v).op? = i.op? := by rw [op?, opcode_setB, op?]

@[simp] theorem op?_setC : (i.setC v).op? = i.op? := by rw [op?, opcode_setC, op?]

@[simp] theorem op?_setSBx : (i.setSBx v).op? = i.op? := by rw [op?, opcode_setSBx, op?]

theorem op?_setOpcode (op : Opcode) : (i.setOpcode op.code).op? = some op := by
  have hget : ((i.setOpcode op.code).opcode : Int) = op.code % 64 := get_set op.code i spans_op
  have hop := op.code_lt
  rw [op?, show (i.setOpcode op.code).opcode = op.code by omega, Opcode.ofCode?_code]

@[simp] theorem a_setOpcode : (i.setOpcode v).a = i.a := get_set_above v i spans_op (by decide)

@[simp] theorem b_setOpcode : (i.setOpcode v).b = i.b := get_set_above v i spans_op (by decide)

@[simp] theorem a_setB : (i.setB v).a = i.a := get_set_below v i spans_b (by decide)

@[simp] theorem a_setC : (i.setC v).a = i.a := get_set_below v i spans_c (by decide)

@[simp] theorem a_setSBx : (i.setSBx v).a = i.a := get_set_below _ i spans_bx (by decide)

@[simp] theorem b_setA : (i.setA v).b = i.b := get_set_above v i spans_a (by decide)

@[simp] theorem b_setC : (i.setC v).b = i.b := get_set_above v i spans_c (by decide)

@[simp] theorem c_setA : (i.setA v).c = i.c := get_set_above v i spans_a (by decide)

@[simp] theorem c_setB : (i.setB v).c = i.c := get_set_below v i spans_b (by decide)

@[simp] theorem bx_setA : (i.setA v).bx = i.bx := get_set_above v i spans_a (by decide)

@[simp] theorem sbx_setA : (i.setA v).sbx = i.sbx := by rw [sbx, bx_setA, sbx]

variable {v}

theorem a_setA (hv : 0 ≤ v ∧ v ≤ maxA) : ((i.setA v).a : Int) = v :=
  (get_set v i spans_a).trans (Int.emod_eq_of_lt hv.1 (Int.lt_add_one_of_le hv.2))

theorem b_setB (hv : 0 ≤ v ∧ v ≤ maxB) : ((i.setB v).b : Int) = v :=
  (get_set v i spans_b).trans (Int.emod_eq_of_lt hv.1 (Int.lt_add_one_of_le hv.2))

theorem c_setC (hv : 0 ≤ v ∧ v ≤ maxC) : ((i.setC v).c : Int) = v :=
  (get_set v i spans_c).trans (Int.emod_eq_of_lt hv.1 (Int.lt_add_one_of_le hv.2))

theorem sbx_setSBx (hv : -maxSBx ≤ v ∧ v ≤ maxSBx) : (i.setSBx v).sbx = v := by
  have hget : ((i.setSBx v).bx : Int) = (v + maxSBx) % 262144 := get_set _ i spans_bx
  simp only [maxSBx] at hv hget
  simp only [sbx, maxSBx]
  omega

end Setters

/-! ## The views of a word -/

/-- The operand that `get` reads is in `size` bits from bit `pos` on, and `set` replaces it by a number
modulo `2 ^ size` and keeps all other bits. -/
def Replaces (set : Int → Instr → Instr) (get : Instr → Nat) (pos size : Nat) : Prop :=
  ∀ v i, get i = i.word.toNat / 2 ^ pos % 2 ^ size ∧ (get (set v i) : Int) = v % 2 ^ size ∧
    ∀ k, k < pos ∨ pos + size ≤ k → (set v i).word.toNat.testBit k = i.word.toNat.testBit k

theorem replaces_of_spans {f : Field} {pos size : Nat} (h : f.Spans pos size) :
    Replaces (Instr.set f) (Instr.get f) pos size := by
  intro v i
  refine ⟨by rw [get, h.weight, h.bound], ?_, fun k hk => testBit_set v i h hk⟩
  rw [get_set v i h, h.bound, Int.natCast_pow]
  rfl

theorem fields_cover (i : Instr) :
    abc i.opcode i.a i.b i.c = i ∧ abx i.opcode i.a i.bx = i ∧ ofAx i.opcode i.ax = i := by
  have hw := i.word_lt
  have hmax : ∀ f : Field, 0 < f.bound → 0 ≤ (i.get f : Int) ∧ (i.get f : Int) ≤ f.bound - 1 :=
    fun f hf => ⟨by omega, Int.le_sub_one_of_lt (Int.ofNat_lt.2 (Nat.mod_lt _ hf))⟩
  have hop : i.opcode < 64 := Nat.mod_lt _ (by decide)
  have ha := hmax .a (by decide)
  refine ⟨ext_word ?_, ext_word ?_, ext_word ?_⟩
  · refine (word_abc hop ha (hmax .b (by decide)) (hmax .c (by decide))).trans ?_
    simp only [opcode, get, Field.op, Field.a, Field.b, Field.c]
    omega
  · refine (word_abx hop ha (hmax .bx (by decide))).trans ?_
    simp only [opcode, get, Field.op, Field.a, Field.bx]
    omega
  · refine (word_ofAx hop (hmax .ax (by decide))).trans ?_
    simp only [opcode, get, Field.op, Field.ax]
    omega

/-- Words and their views: what is put into a word is read from it, every word is put together from what
is read from it, and replacing a field changes the bits of this field alone. -/
theorem fields_independent :
    (∀ (code : Nat) (a b c : Int), code < 64 → 0 ≤ a ∧ a ≤ maxA → 0 ≤ b ∧ b ≤ maxB → 0 ≤ c ∧ c ≤ maxC →
      (abc code a b c).opcode = code ∧ ((abc code a b c).a : Int) = a ∧
        ((abc code a b c).b : Int) = b ∧ ((abc code a b c).c : Int) = c) ∧
    (∀ (code : Nat) (a bx : Int), code < 64 → 0 ≤ a ∧ a ≤ maxA → 0 ≤ bx ∧ bx ≤ maxBx →
      (abx code a bx).opcode = code ∧ ((abx code a bx).a : Int) = a ∧ ((abx code a bx).bx : Int) = bx) ∧
    (∀ (code : Nat) (a sbx : Int), code < 64 → 0 ≤ a ∧ a ≤ maxA → -maxSBx ≤ sbx ∧ sbx ≤ maxSBx →
      (asbx code a sbx).opcode = code ∧ ((asbx code a sbx).a : Int) = a ∧ (asbx code a sbx).sbx = sbx) ∧
    (∀ (code : Nat) (ax : Int), code < 64 → 0 ≤ ax ∧ ax ≤ maxAx →
      (ofAx code ax).opcode = code ∧ ((ofAx code ax).ax : Int) = ax) ∧
    (∀ i : Instr, abc i.opcode i.a i.b i.c = i ∧ abx i.opcode i.a i.bx = i ∧ ofAx i.opcode i.ax = i ∧
      i.bx = i.b * 2 ^ 9 + i.c ∧ i.ax = i.bx * 2 ^ 8 + i.a) ∧
    Replaces setOpcode opcode 0 6 ∧ Replaces setA a 6 8 ∧ Replaces setB b 23 9 ∧ Replaces setC c 14 9 ∧
      Replaces setBx bx 14 18 := by
  refine ⟨fun _ _ _ _ => abc_reads, fun _ _ _ => abx_reads, fun code a sbx hcode ha hsbx => ?_,
    fun _ _ => ofAx_reads, fun i => ?_, replaces_of_spans spans_op, replaces_of_spans spans_a,
    replaces_of_spans spans_b, replaces_of_spans spans_c, replaces_of_spans spans_bx⟩
  · simp only [maxSBx] at hsbx
    have h := @abx_reads code a (sbx + maxSBx) hcode ha (by simp only [maxSBx, maxBx]; omega)
    exact ⟨h.1, h.2.1, Int.sub_eq_iff_eq_add.2 h.2.2⟩
  · obtain ⟨h1, h2, h3⟩ := i.fields_cover
    refine ⟨h1, h2, h3, ?_, ?_⟩ <;>
    · simp only [a, b, c, bx, ax, get, Field.a, Field.b, Field.c, Field.bx, Field.ax]
      omega

theorem fields_independent_setA :
    ((abc 63 255 511 0).b : Int) = 511 ∧ ((abc 63 255 511 0).setA (-1)).word = (abc 63 255 511 0).word ∧
      (((abc 63 255 511 0).setA (-2)).a : Int) = 254 :=
  ⟨(fields_independent.1 63 255 511 0 (by decide) (by decide) (by decide) (by decide)).2.2.1, by decide,
    (fields_independent.2.2.2.2.2.2.1 (-2) (abc 63 255 511 0)).2.1⟩

end Instr

end RegisterCompiler
