import RegisterCompiler.Generator.Operation
import RegisterCompiler.Proofs.JumpLists

/-!
# Negated comparisons

The negation of a comparison is made by the comparison itself: its outcome is flipped, and the jumps that
leave it change places. All that is left of two negations is that the tests of these jumps store nothing.
-/

namespace RegisterCompiler

open Gen

variable {s : GenState} {code code' : Array Instr} {ps qs : List Nat} {i : Instr} {p d : Nat} {e : Operand}

/-! ## Tests that store nothing -/

/-- The code in which the storing tests of the jumps at `ps` are plain. -/
def Gen.plain (ps : List Nat) (code : Array Instr) : Array Instr :=
  code.mapIdx fun q i => if q + 1 ∈ ps ∧ i.op? = some .testSet then i.settle noRegister else i

theorem getElem?_plain {q : Nat} : (plain ps code)[q]? = code[q]?.map fun i =>
    if q + 1 ∈ ps ∧ i.op? = some .testSet then i.settle noRegister else i :=
  Array.getElem?_mapIdx

theorem getElem?_plain_of_ne {q : Nat} (hi : code[q]? = some i) (hop : i.op? ≠ some .testSet) :
    (plain ps code)[q]? = some i := by
  rw [getElem?_plain, hi, Option.map_some, if_neg fun h => hop h.2]

theorem op?_settle : (i.settle noRegister).op? = some .test := by
  rw [Instr.settle, if_neg (by simp), Instr.op?_abc]

theorem plain_plain {rs : List Nat} (h : ∀ q, q ∈ rs ↔ q ∈ ps ∨ q ∈ qs) :
    plain qs (plain ps code) = plain rs code := by
  apply Array.ext_getElem?
  intro q
  rw [getElem?_plain, getElem?_plain, getElem?_plain, Option.map_map]
  congr
  funext i
  by_cases hi : i.op? = some .testSet
  · by_cases hp : q + 1 ∈ ps <;> simp [h, hi, hp, op?_settle]
  · simp [hi]

theorem Gen.Dropped.eq_plain (h : Dropped ps code code') : code' = plain ps code := by
  apply Array.ext_getElem?
  intro q
  rw [getElem?_plain]
  by_cases hs : q + 1 ∈ ps ∧ storesAt code (q + 1) = true
  · obtain ⟨i, hi, hop⟩ := storesAt_succ_iff.1 hs.2
    rw [h.test q hs.1 i hi hop, hi, Option.map_some, if_pos ⟨hs.1, hop⟩]
  · rw [h.other q fun hq => by simpa [hq] using hs]
    cases hi : code[q]? with
    | none => rfl
    | some i =>
      rw [Option.map_some, if_neg]
      simpa [storesAt, hi] using hs

theorem chain_plain {l : JumpList} (h : Chain code l ps) : Chain (plain qs code) l ps :=
  h.congr fun p hp => by
    obtain ⟨i, hi, hj⟩ := h.jump_of_mem hp
    rw [getElem?_plain_of_ne hi (not_testSet_of_isJump hj), hi]

/-! ## Steps that return -/

theorem Gen.Ensures.returns {α : Type} {m : Gen α} {Q : α → GenState → Prop} (h : m.Ensures s Q)
    (hm : ∀ c, RaisesOnly c m) : ∃ a t, m s = .ok (a, t) ∧ Q a t := by
  obtain ⟨hok, hbroken⟩ := ensures_iff.1 h
  cases hs : m s with
  | ok r => exact ⟨r.1, r.2, rfl, hok _ _ hs⟩
  | error e =>
    cases e with
    | broken k => exact absurd hs (hbroken k)
    | error e =>
      -- An error of the source would have every cause.
      have hcause := (hm .controlTooLong s e hs).symm.trans (hm .tooComplex s e hs)
      cases hcause

theorem Gen.raisesOnly_dropValuesFrom {c : Cause} : ∀ (fuel : Nat) (l : JumpList), RaisesOnly c (dropValuesFrom fuel l)
  | 0, _ => raisesOnly_broken
  | k + 1, l => by
    unfold dropValuesFrom
    split
    · simp
    · exact raisesOnly_bind raisesOnly_patchTest fun _ => raisesOnly_bind raisesOnly_nextJump fun rest =>
        raisesOnly_dropValuesFrom k rest

theorem dropValues_eq {l : JumpList} (h : Chain s.fn.code l ps) :
    dropValues l s = .ok ((), s.setCode (plain ps s.fn.code)) := by
  obtain ⟨_, t, hs, code, rfl, hd⟩ := (dropValues_spec h).returns fun c =>
    raisesOnly_bind (raisesOnly_bind raisesOnly_getFn fun _ => raisesOnly_pure) fun fuel =>
      raisesOnly_dropValuesFrom fuel l
  rw [hs, hd.eq_plain]

/-! ## Comparisons -/

theorem deciding_congr (h : ∀ q : Nat, code'[q]?.any Instr.isTest = code[q]?.any Instr.isTest) :
    deciding code' p = deciding code p := by
  cases p with
  | zero => rfl
  | succ q => rw [deciding, h, deciding]

/-- The operand is the outcome of the comparison `i` at place `d`, which decides about the jump at `p`. -/
structure Compares (code : Array Instr) (e : Operand) (p d : Nat) (i : Instr) : Prop where
  kind : e.kind = .jump
  info : e.info = p
  lt : p < code.size
  deciding : deciding code p = d
  instr : code[d]? = some i
  op : i.op? = some .eq ∨ i.op? = some .lt ∨ i.op? = some .le

def Operand.swapped (e : Operand) : Operand :=
  { e with whenTrue := e.whenFalse, whenFalse := e.whenTrue }

def flipped (d : Nat) (code : Array Instr) : Array Instr :=
  code.modify d fun i => i.setA (1 - i.a)

theorem getElem?_flipped_self (hi : code[d]? = some i) : (flipped d code)[d]? = some (i.setA (1 - i.a)) := by
  rw [flipped, Array.getElem?_modify, if_pos rfl, hi, Option.map_some]

theorem getElem?_flipped_of_ne {q : Nat} (hq : d ≠ q) : (flipped d code)[q]? = code[q]? := by
  rw [flipped, Array.getElem?_modify, if_neg hq]

theorem flipped_flipped (hi : code[d]? = some i) (ha : i.a ≤ 1) : flipped d (flipped d code) = code := by
  apply Array.ext_getElem?
  intro q
  by_cases hq : d = q
  · subst hq
    have hset : ((i.setA (1 - i.a)).a : Int) = 1 - i.a := Instr.a_setA i (by simp only [maxA]; omega)
    rw [getElem?_flipped_self (getElem?_flipped_self hi), hi, hset, Int.sub_sub_self]
    exact congrArg some (Instr.set_set_get _ i Instr.spans_a)
  · rw [getElem?_flipped_of_ne hq, getElem?_flipped_of_ne hq]

namespace Compares

section
variable (h : Compares code e p d i)
include h

theorem ne_testSet : i.op? ≠ some .testSet := by
  rcases h.op with h | h | h <;> simp [h]

theorem inPlain : Compares (plain ps code) e p d i where
  kind := h.kind
  info := h.info
  lt := by simpa [plain] using h.lt
  deciding := by
    refine (deciding_congr fun q => ?_).trans h.deciding
    rw [getElem?_plain, Option.any_map]
    congr
    funext j
    split
    · next hj =>
      rw [Instr.isTest, op?_settle, Instr.isTest, hj.2]
      rfl
    · rfl
  instr := getElem?_plain_of_ne h.instr h.ne_testSet
  op := h.op

theorem inFlipped : Compares (flipped d code) e.swapped p d (i.setA (1 - i.a)) where
  kind := h.kind
  info := h.info
  lt := by simpa [flipped] using h.lt
  deciding := by
    refine (deciding_congr fun q => ?_).trans h.deciding
    by_cases hq : d = q
    · subst hq
      rw [getElem?_flipped_self h.instr, h.instr]
      simp [Instr.isTest]
    · rw [getElem?_flipped_of_ne hq]
  instr := getElem?_flipped_self h.instr
  op := by simpa using h.op

theorem plain_flipped : plain ps (flipped d code) = flipped d (plain ps code) := by
  apply Array.ext_getElem?
  intro q
  by_cases hq : d = q
  · subst hq
    rw [getElem?_flipped_self (getElem?_plain_of_ne h.instr h.ne_testSet),
      getElem?_plain_of_ne (getElem?_flipped_self h.instr) (by simpa using h.ne_testSet)]
  · rw [getElem?_flipped_of_ne hq, getElem?_plain, getElem?_plain, getElem?_flipped_of_ne hq]

theorem chain_flipped {l : JumpList} (hc : Chain code l ps) : Chain (flipped d code) l ps := hc.congr fun q hq => by
  obtain ⟨j, hj, hjump⟩ := hc.jump_of_mem hq
  refine getElem?_flipped_of_ne ?_
  rintro rfl
  rw [h.instr] at hj
  cases hj
  rcases h.op with h | h | h <;> simp [Instr.isJump, h] at hjump

end

theorem flipTest_eq (h : Compares s.fn.code e p d i) : flipTest e s = .ok ((), s.setCode (flipped d s.fn.code)) := by
  have hens : (flipTest e).Ensures s fun _ t => t = s.setCode (flipped d s.fn.code) := by
    unfold flipTest
    rw [h.info, ensures_bind, ensures_decidingPlace h.lt, h.deciding, ensures_bind,
      ensures_instrAt rfl h.instr, ensures_bind, ensures_require,
      ensures_updateInstr rfl (lt_size_of_some h.instr)]
    · rfl
    · rcases h.op with h | h | h <;> rw [h] <;> rfl
  obtain ⟨_, t, hs, rfl⟩ := hens.returns fun c =>
    raisesOnly_bind raisesOnly_decidingPlace fun _ => raisesOnly_bind raisesOnly_instrAt fun _ =>
      raisesOnly_bind raisesOnly_require fun _ => raisesOnly_updateInstr
  exact hs

/-- One negation flips the outcome, and makes the tests of the jumps plain. -/
theorem negate_eq (h : Compares s.fn.code e p d i) (ht : Chain s.fn.code e.whenTrue ps)
    (hf : Chain s.fn.code e.whenFalse qs) :
    negate e s = .ok (e.swapped, s.setCode (flipped d (plain (ps ++ qs) s.fn.code))) := by
  have hnegate : negate e = (do
      flipTest e
      dropValues e.whenTrue
      dropValues e.whenFalse
      return e.swapped) := by
    have hkind := h.kind
    cases e
    cases hkind
    rfl
  have ht' := dropValues_eq (s := s.setCode (flipped d s.fn.code)) (h.chain_flipped ht)
  have hf' := dropValues_eq (s := s.setCode (plain ps (flipped d s.fn.code))) (chain_plain (h.chain_flipped hf))
  rw [hnegate, ← h.plain_flipped, ← plain_plain fun _ => List.mem_append]
  simp only [bind, StateT.bind, Except.bind, h.flipTest_eq, ht', hf']
  rfl

end Compares

/-! ## Two negations -/

/-- The storing tests right before the jumps at `ps` are plain tests of the same value for the same
truth. Nothing else is changed. -/
structure Untested (ps : List Nat) (code code' : Array Instr) : Prop where
  size : code'.size = code.size
  test : ∀ q i, q + 1 ∈ ps → code[q]? = some i → i.op? = some .testSet →
    ∃ j, code'[q]? = some j ∧ j.op? = some .test ∧ j.a = i.b ∧ j.b = 0 ∧ j.c = i.c
  other : ∀ q, (q + 1 ∈ ps → ∀ i, code[q]? = some i → i.op? ≠ some .testSet) → code'[q]? = code[q]?

theorem untested_plain (hreg : ∀ q i, q + 1 ∈ ps → code[q]? = some i → i.op? = some .testSet → (i.b : Int) ≤ maxA) :
    Untested ps code (plain ps code) where
  size := Array.size_mapIdx
  test q i hq hi hop := by
    refine ⟨i.settle noRegister, ?_, plain_fields (hreg q i hq hi hop)⟩
    rw [getElem?_plain, hi, Option.map_some, if_pos ⟨hq, hop⟩]
  other q hq := by
    rw [getElem?_plain]
    cases hi : code[q]? with
    | none => rfl
    | some i => rw [Option.map_some, if_neg fun h => hq h.1 i hi h.2]

/-- A comparison is negated in place, and a second negation takes the first one back. -/
theorem unary_not_not (h : Compares s.fn.code e p d i) (ha : i.a ≤ 1)
    (ht : Chain s.fn.code e.whenTrue ps) (hf : Chain s.fn.code e.whenFalse qs)
    (hreg : ∀ q i, q + 1 ∈ ps ++ qs → s.fn.code[q]? = some i → i.op? = some .testSet → (i.b : Int) ≤ maxA)
    (line line' : Int) : ∃ code, Untested (ps ++ qs) s.fn.code code ∧
      unary .not e line s = .ok (e.swapped, s.setCode (flipped d code)) ∧
      unary .not e.swapped line' (s.setCode (flipped d code)) = .ok (e, s.setCode code) := by
  have hc : Compares (plain (ps ++ qs) s.fn.code) e p d i := h.inPlain
  have hplain : plain (qs ++ ps) (plain (ps ++ qs) s.fn.code) = plain (ps ++ qs) s.fn.code :=
    plain_plain (by simp; tauto)
  have htwice := hc.inFlipped.negate_eq (s := s.setCode (flipped d (plain (ps ++ qs) s.fn.code)))
    (hc.chain_flipped (chain_plain hf)) (hc.chain_flipped (chain_plain ht))
  rw [hc.plain_flipped, flipped_flipped hc.inPlain.instr ha, hplain] at htwice
  exact ⟨_, untested_plain hreg, h.negate_eq ht hf, htwice⟩

/-- A storing test of register `b` with its jump, then a comparison with its jump. -/
def comparedJumps (b : Int) : GenState :=
  (GenState.initial []).setCode #[.abc Opcode.testSet.code maxA b 0,
    .abx Opcode.jmp.code 0 (noJump + maxSBx), .abc Opcode.eq.code 1 0 1,
    .abx Opcode.jmp.code 0 (noJump + maxSBx)]

def comparison : Operand := ⟨.jump, 3, .empty, .ofHead 1⟩

theorem comparison_compares (b : Int) :
    Compares (comparedJumps b).fn.code comparison 3 2 (.abc Opcode.eq.code 1 0 1) := by
  have heq : (comparedJumps b).fn.code[2]? = some (.abc Opcode.eq.code 1 0 1) := rfl
  refine ⟨rfl, rfl, Nat.lt_succ_self 3, ?_, heq, .inl (by decide)⟩
  rw [deciding, heq]
  decide

theorem unary_not_not_compared : ∃ code, Untested [1] (comparedJumps 3).fn.code code ∧
      unary .not comparison 1 (comparedJumps 3) =
        .ok (comparison.swapped, (comparedJumps 3).setCode (flipped 2 code)) ∧
      unary .not comparison.swapped 1 ((comparedJumps 3).setCode (flipped 2 code)) =
        .ok (comparison, (comparedJumps 3).setCode code) :=
  unary_not_not (comparison_compares 3) (by decide) (.empty _)
    (.single rfl (by decide) (by decide))
    (by
      rintro q i hq hi -
      obtain rfl : q = 0 := by simpa using hq
      cases hi
      decide) 1 1

/-- Operand `A` cannot name the register of this test. -/
theorem unary_not_wide_test : ¬ ∀ (s : GenState) (e : Operand) (p d : Nat) (i : Instr) (ps qs : List Nat),
    Compares s.fn.code e p d i → i.a ≤ 1 → Chain s.fn.code e.whenTrue ps → Chain s.fn.code e.whenFalse qs →
      ps.Disjoint qs → p ∉ ps ++ qs → ∃ code t, unary .not e 1 s = .ok (e.swapped, t) ∧
        unary .not e.swapped 1 t = .ok (e, s.setCode code) ∧ Untested (ps ++ qs) s.fn.code code := by
  intro h
  obtain ⟨code, t, -, -, hcode⟩ := h (comparedJumps 300) comparison 3 2 _ [] [1] (comparison_compares 300)
    (by decide) (.empty _) (.single rfl (by decide) (by decide)) (by simp) (by simp)
  obtain ⟨j, -, -, ha, -⟩ := hcode.test 0 _ (by simp) rfl (by decide)
  have hlt : j.a < 256 := Nat.mod_lt _ (by decide)
  rw [ha] at hlt
  revert hlt
  decide

end RegisterCompiler
