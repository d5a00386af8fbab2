import RegisterCompiler.Proofs.InstrFields
import RegisterCompiler.Proofs.JumpChains

/-!
# Lists of jumps

* `Gen.RaisesOnly c m` : no state makes the step `m` end with an error of the source for another cause
  than `c`;
* `Gen.Joined`, `Gen.Aimed` : the changes that joining two lists makes, and those that pointing a list
  to a target makes;
* `Gen.jumpLists_spec` : these steps do just this, or end because a jump is too long.

A word has fewer bits for operand `A` than for operand `B`. A storing test of a value that `A` cannot
name therefore does not become a plain test of the same value.
-/

namespace RegisterCompiler.Gen

/-! ## The only error -/

section RaisesOnly
variable {α β : Type} {c : Cause}

/-- The step ends with no error of the source, or with one for this cause. -/
def RaisesOnly (c : Cause) (m : Gen α) : Prop :=
  ∀ s e, m s = .error (.error e) → e.cause = c

theorem raisesOnly_bind {m : Gen α} {f : α → Gen β} (hm : RaisesOnly c m)
    (hf : ∀ a, RaisesOnly c (f a)) : RaisesOnly c (m >>= f) := by
  intro s e h
  simp only [bind, StateT.bind, Except.bind] at h
  cases hs : m s with
  | error e' =>
    rw [hs] at h
    exact hm s e (hs.trans (congrArg _ (Except.error.inj h)))
  | ok r =>
    rw [hs] at h
    exact hf r.1 r.2 e h

theorem raisesOnly_of_ok {m : Gen α} (h : ∀ s, ∃ r, m s = .ok r) : RaisesOnly c m := by
  intro s e he
  obtain ⟨r, hr⟩ := h s
  rw [hr] at he
  cases he

@[simp] theorem raisesOnly_pure {a : α} : RaisesOnly c (pure a : Gen α) :=
  raisesOnly_of_ok fun _ => ⟨_, rfl⟩

@[simp] theorem raisesOnly_getFn : RaisesOnly c getFn :=
  raisesOnly_of_ok fun _ => ⟨_, rfl⟩

@[simp] theorem raisesOnly_modifyFn {h : Func → Func} : RaisesOnly c (modifyFn h) :=
  raisesOnly_of_ok fun _ => ⟨_, rfl⟩

@[simp] theorem raisesOnly_broken {i : Invariant} : RaisesOnly c (broken i : Gen α) :=
  fun _ _ h => Failure.noConfusion (Except.error.inj h)

@[simp] theorem raisesOnly_require {b : Bool} {i : Invariant} : RaisesOnly c (require b i) := by
  cases b
  · exact raisesOnly_broken
  · exact raisesOnly_pure

@[simp] theorem raisesOnly_place {i : Int} {n : Nat} : RaisesOnly c (place i n) := by
  unfold place
  split <;> simp

theorem raisesOnly_error : RaisesOnly c (error c : Gen α) := by
  rintro s e h
  cases h
  rfl

variable {pc : Int} {l : JumpList}

@[simp] theorem raisesOnly_instrAt : RaisesOnly c (instrAt pc) := by
  refine raisesOnly_bind raisesOnly_getFn fun f => raisesOnly_bind raisesOnly_place fun n => ?_
  split <;> simp

@[simp] theorem raisesOnly_updateInstr {h : Instr → Instr} : RaisesOnly c (updateInstr pc h) :=
  raisesOnly_bind raisesOnly_getFn fun _ => raisesOnly_bind raisesOnly_place fun _ =>
    raisesOnly_modifyFn

@[simp] theorem raisesOnly_nextJump : RaisesOnly c (nextJump pc) :=
  raisesOnly_bind raisesOnly_instrAt fun _ => raisesOnly_pure

@[simp] theorem raisesOnly_decidingPlace : RaisesOnly c (decidingPlace pc) := by
  unfold decidingPlace
  split
  · refine raisesOnly_bind raisesOnly_instrAt fun i => ?_
    split <;> simp
  · simp

@[simp] theorem raisesOnly_patchTest {reg : Int} : RaisesOnly c (patchTest pc reg) := by
  refine raisesOnly_bind raisesOnly_decidingPlace fun d => raisesOnly_bind raisesOnly_instrAt fun i => ?_
  split
  · simp
  · split <;> exact raisesOnly_bind raisesOnly_updateInstr fun _ => raisesOnly_pure

theorem raisesOnly_setTarget {target : Int} : RaisesOnly .controlTooLong (setTarget pc target) := by
  refine raisesOnly_bind raisesOnly_require fun _ => ?_
  dsimp only
  split
  · exact raisesOnly_bind raisesOnly_error fun _ => raisesOnly_updateInstr
  · exact raisesOnly_updateInstr

theorem raisesOnly_concat {l1 l2 : JumpList} : RaisesOnly .controlTooLong (concat l1 l2) := by
  unfold concat
  split
  · simp
  · simp
  · refine raisesOnly_bind (raisesOnly_bind raisesOnly_getFn fun f => ?_) fun q =>
      raisesOnly_bind raisesOnly_setTarget fun _ => raisesOnly_pure
    dsimp only
    split <;> simp

theorem raisesOnly_patchFrom {wv reg wo : Int} : ∀ (fuel : Nat) (l : JumpList),
    RaisesOnly .controlTooLong (patchFrom wv reg wo fuel l)
  | 0, _ => raisesOnly_broken
  | k + 1, l => by
    unfold patchFrom
    split
    · simp
    · refine raisesOnly_bind raisesOnly_nextJump fun rest => raisesOnly_bind raisesOnly_patchTest fun b => ?_
      split <;> exact raisesOnly_bind raisesOnly_setTarget fun _ => raisesOnly_patchFrom k rest

theorem raisesOnly_patchValues {wv reg wo : Int} : RaisesOnly .controlTooLong (patchValues l wv reg wo) :=
  raisesOnly_bind (raisesOnly_bind raisesOnly_getFn fun _ => raisesOnly_pure) fun fuel =>
    raisesOnly_patchFrom fuel l

theorem raisesOnly_aimHere : RaisesOnly .controlTooLong (aimHere l) := by
  refine raisesOnly_bind (raisesOnly_of_ok fun _ => ⟨_, rfl⟩) fun _ => raisesOnly_bind raisesOnly_getFn fun f =>
    raisesOnly_bind raisesOnly_concat fun all => raisesOnly_bind raisesOnly_modifyFn fun _ =>
    raisesOnly_bind raisesOnly_getFn fun g => ?_
  dsimp only
  split
  · exact raisesOnly_bind (raisesOnly_of_ok fun _ => ⟨_, rfl⟩) fun _ => raisesOnly_bind raisesOnly_modifyFn fun _ =>
      raisesOnly_patchValues
  · simp

theorem raisesOnly_aimAt {target : Int} : RaisesOnly .controlTooLong (aimAt l target) := by
  refine raisesOnly_bind (raisesOnly_of_ok fun _ => ⟨_, rfl⟩) fun here => ?_
  split
  · exact raisesOnly_aimHere
  · exact raisesOnly_bind raisesOnly_require fun _ => raisesOnly_patchValues

end RaisesOnly

/-! ## What changes -/

/-- The offset of the jump at the place `last`, if there is one, is changed, and nothing else. -/
structure Joined (last : Option Nat) (code code' : Array Instr) : Prop where
  size : code'.size = code.size
  jump : ∀ p i, last = some p → code[p]? = some i →
    ∃ j, code'[p]? = some j ∧ j.opcode = i.opcode ∧ j.a = i.a
  other : ∀ p, last ≠ some p → code'[p]? = code[p]?

/-- The jumps at `ps` lead to `target`, and the storing tests right before them are plain tests of
the same value for the same truth. Nothing else is changed. -/
structure Aimed (ps : List Nat) (target : Int) (code code' : Array Instr) : Prop where
  size : code'.size = code.size
  jump : ∀ p i, p ∈ ps → code[p]? = some i →
    ∃ j, code'[p]? = some j ∧ j.target p = target ∧ j.opcode = i.opcode ∧ j.a = i.a
  test : ∀ p i, p + 1 ∈ ps → code[p]? = some i → i.op? = some .testSet →
    ∃ j, code'[p]? = some j ∧ j.op? = some .test ∧ j.a = i.b ∧ j.b = 0 ∧ j.c = i.c
  other : ∀ p, p ∉ ps → (p + 1 ∈ ps → ∀ i, code[p]? = some i → i.op? ≠ some .testSet) →
    code'[p]? = code[p]?

section Changes
variable {code code' : Array Instr} {ps : List Nat}

theorem Relinked.joined {last : Option Nat} (h : Relinked last.toList code code') : Joined last code code' where
  size := h.size
  jump p i hp hi := by
    rcases h.jump p (Option.mem_toList.2 hp) i hi with hj | ⟨v, hj⟩
    · exact ⟨i, hj, rfl, rfl⟩
    · exact ⟨_, hj, i.opcode_setSBx v, i.a_setSBx v⟩
  other p hp := h.other p fun hmem => hp (Option.mem_toList.1 hmem)

theorem plain_fields {i : Instr} (hb : (i.b : Int) ≤ maxA) :
    (i.settle noRegister).op? = some .test ∧ (i.settle noRegister).a = i.b ∧
      (i.settle noRegister).b = 0 ∧ (i.settle noRegister).c = i.c := by
  have hc := i.c_lt
  obtain ⟨htest, h1, h2, h3⟩ := Instr.abc_fields .test (a := i.b) (b := 0) (c := i.c)
    ⟨by omega, hb⟩ ⟨by omega, by decide⟩ ⟨by omega, by simp only [maxC]; omega⟩
  rw [Instr.settle, if_neg (by simp)]
  refine ⟨htest, ?_, ?_, ?_⟩ <;> omega

theorem Patched.aimed {target : Int} (h : Patched ps target noRegister target code code')
    (hreg : ∀ p i, p + 1 ∈ ps → code[p]? = some i → i.op? = some .testSet → (i.b : Int) ≤ maxA) :
    Aimed ps target code code' where
  size := h.size
  jump p i hp hi := by
    obtain ⟨v, hlo, hhi, ht, hj⟩ := h.jump p hp i hi
    rw [ite_self] at ht
    refine ⟨_, hj, ?_, i.opcode_setSBx v, i.a_setSBx v⟩
    rw [Instr.target, Instr.sbx_setSBx i ⟨hlo, hhi⟩, ht]
  test p i hp hi hop := ⟨_, h.test p hp i hi hop, plain_fields (hreg p i hp hi hop)⟩
  other p hp hs := by
    refine h.other p hp fun hmem => ?_
    cases hi : code[p]? with
    | none => simp [storesAt, hi]
    | some i => simpa [storesAt, hi] using hs hmem i hi

end Changes

/-! ## The steps -/

/-- Lists of jumps behave as lists. Joining two gives the jumps of the first, then those of the
second, and relinks the last jump of the first. Pointing a list to a target makes all its jumps lead
there and their tests store nothing, if operand `A` can name what is tested. -/
theorem jumpLists_spec {s : GenState} {l₁ l₂ : JumpList} {ps qs : List Nat}
    (h₁ : Chain s.fn.code l₁ ps) (h₂ : Chain s.fn.code l₂ qs) (hd : ps.Disjoint qs)
    (hpending : s.fn.pending = .empty) :
    (RaisesOnly .controlTooLong (concat l₁ l₂) ∧ RaisesOnly .controlTooLong (aimHere l₁) ∧
      ∀ target, RaisesOnly .controlTooLong (aimAt l₁ target)) ∧
    (concat l₁ l₂).Ensures s (fun l t => ∃ code, t = s.setCode code ∧ Chain code l (ps ++ qs) ∧
      Joined ps.getLast? s.fn.code code) ∧
    ((∀ p i, p + 1 ∈ ps → s.fn.code[p]? = some i → i.op? = some .testSet → (i.b : Int) ≤ maxA) →
      (aimHere l₁).Ensures s (fun _ t => t.fn.pending = .empty ∧
        Aimed ps s.fn.code.size s.fn.code t.fn.code) ∧
      ∀ target : Int, 0 ≤ target → target ≤ s.fn.code.size →
        (aimAt l₁ target).Ensures s fun _ t => t.fn.pending = .empty ∧
          Aimed ps target s.fn.code t.fn.code) := by
  refine ⟨⟨raisesOnly_concat, raisesOnly_aimHere, fun _ => raisesOnly_aimAt⟩, ?_,
    fun hreg => ⟨?_, fun target h0 hle => ?_⟩⟩
  · refine (concat_spec h₁ h₂ hd).mono ?_
    rintro l t ⟨code, rfl, hchain, hlink⟩
    exact ⟨code, rfl, hchain, hlink.joined⟩
  · refine (aimHere_spec h₁ hpending).mono ?_
    rintro - t ⟨code, rfl, hpat⟩
    exact ⟨hpending, hpat.aimed hreg⟩
  · refine (aimAt_spec h₁ hpending h0 hle).mono ?_
    rintro - t ⟨code, rfl, hpat⟩
    exact ⟨hpending, hpat.aimed hreg⟩

/-- A storing test of register `b` with its jump, then another jump. -/
def testedJumps (b : Int) : GenState :=
  (GenState.initial []).setCode #[.abc Opcode.testSet.code maxA b 0,
    .abx Opcode.jmp.code 0 (noJump + maxSBx), .abx Opcode.jmp.code 0 (noJump + maxSBx)]

theorem jumpLists_tested :
    (∃ t, concat (.ofHead 1) (.ofHead 2) (testedJumps 3) = .ok (.ofHead 1, t) ∧
      Chain t.fn.code (.ofHead 1) [1, 2]) ∧
    ∃ t, aimAt (.ofHead 1) 0 (testedJumps 3) = .ok ((), t) ∧
      Aimed [1] 0 (testedJumps 3).fn.code t.fn.code := by
  have h₁ : Chain (testedJumps 3).fn.code (.ofHead 1) [1] := .single rfl (by decide) (by decide)
  have h₂ : Chain (testedJumps 3).fn.code (.ofHead 2) [2] := .single rfl (by decide) (by decide)
  obtain ⟨-, hconcat, haim⟩ := jumpLists_spec h₁ h₂ (by simp) rfl
  obtain ⟨-, haimAt⟩ := haim (by
    rintro p i hp hi -
    obtain rfl : p = 0 := by simpa using hp
    cases hi
    decide)
  obtain ⟨t, ht⟩ : ∃ t, concat (.ofHead 1) (.ofHead 2) (testedJumps 3) = .ok (.ofHead 1, t) := ⟨_, rfl⟩
  obtain ⟨u, hu⟩ : ∃ u, aimAt (.ofHead 1) 0 (testedJumps 3) = .ok ((), u) := ⟨_, rfl⟩
  obtain ⟨code, rfl, hchain, -⟩ := (ensures_iff.1 hconcat).1 _ _ ht
  exact ⟨⟨_, ht, hchain⟩, _, hu, ((ensures_iff.1 (haimAt 0 (by decide) (by decide))).1 _ _ hu).2⟩

/-- Operand `A` cannot name the register of this test. -/
theorem aimHere_wide_test : ¬ ∀ (s : GenState) (l : JumpList) (ps : List Nat) (t : GenState),
    Chain s.fn.code l ps → s.fn.pending = .empty → aimHere l s = .ok ((), t) →
      Aimed ps s.fn.code.size s.fn.code t.fn.code := by
  intro h
  have haimed := h (testedJumps 300) (.ofHead 1) [1] _ (.single rfl (by decide) (by decide)) rfl rfl
  obtain ⟨j, hj, -, ha, -⟩ := haimed.test 0 _ (by simp) rfl (by decide)
  cases hj
  revert ha
  decide

end RegisterCompiler.Gen
