import RegisterCompiler.Proofs.JumpChains

/-!
# Open jumps

How walks along jump lists keep the code in order.

* `Revised code code'` : instructions are changed in place, and each needs the same next instruction
  as before. Targets stay targets;
* `Kept n code code'` : the code before `n` stays as it is, except that a load of nils right before
  `n` may take in more registers;
* `CodeOk.relinked`, `CodeOk.patched`, `CodeOk.dropped`, `CodeOk.closing` : the walks keep the code
  in order.
-/

namespace RegisterCompiler

open Gen (Relinked Patched Dropped Closing storesAt storesAt_succ_iff not_testSet_of_isJump noJump noRegister)

variable {H : Set Nat} {ps : List Nat} {p n : Nat} {code code' : Array Instr} {i : Instr} {B : Bounds} {reg : Int}

/-! ## Sets of open jumps -/

def Held (H : Set Nat) (ps : List Nat) : Set Nat :=
  {p | p ∈ H ∨ p ∈ ps}

@[simp] abbrev AreJumps (code : Array Instr) (ps : List Nat) : Prop :=
  ∀ p ∈ ps, ∃ i, code[p]? = some i ∧ i.op? = some .jmp

@[simp] theorem mem_held : p ∈ Held H ps ↔ p ∈ H ∨ p ∈ ps := Iff.rfl

@[simp] theorem held_nil (H : Set Nat) : Held H [] = H := by
  ext p
  simp

theorem held_held (H : Set Nat) (ps qs : List Nat) : Held (Held H ps) qs = Held H (ps ++ qs) := by
  ext p
  simp [or_assoc]

theorem held_congr {qs : List Nat} (h : ∀ p, p ∈ ps ↔ p ∈ qs) : Held H ps = Held H qs := by
  ext p
  simp [h p]

/-! ## Code changed in place -/

/-- Instructions are changed in place, and each needs the same next instruction as before. -/
structure Revised (code code' : Array Instr) : Prop where
  size : code'.size = code.size
  next : ∀ (q : Nat) (i i' : Instr), code[q]? = some i → code'[q]? = some i' →
    i'.next? = i.next?
  closures : ∀ (q : Nat) (i' : Instr), code'[q]? = some i' → i'.op? = some .closure →
    ∃ i, code[q]? = some i ∧ i.op? = some .closure ∧ i'.bx = i.bx

theorem Revised.refl (code : Array Instr) : Revised code code where
  size := rfl
  next _ _ _ h h' := by rw [Option.some.inj (h.symm.trans h')]
  closures _ i h hop := ⟨i, h, hop, rfl⟩

theorem Revised.trans {code'' : Array Instr} (h : Revised code code')
    (h' : Revised code' code'') : Revised code code'' where
  size := h'.size.trans h.size
  next q i i'' hi hi'' := by
    obtain ⟨i', hi'⟩ := exists_getElem?_of_size h.size hi
    rw [h'.next q i' i'' hi' hi'', h.next q i i' hi hi']
  closures q i'' hi'' hop := by
    obtain ⟨i', hi', hop', hbx'⟩ := h'.closures q i'' hi'' hop
    obtain ⟨i, hi, hop, hbx⟩ := h.closures q i' hi' hop'
    exact ⟨i, hi, hop, hbx'.trans hbx⟩

theorem IsTarget.revised {T t : Int} (h : IsTarget code T t) (hr : Revised code code') : IsTarget code' T t :=
  h.revise hr.size hr.next

theorem Sealed.revised (h : Sealed code) (hr : Revised code code') : Sealed code' := by
  intro i' hi'
  rw [Array.back?_eq_getElem?, hr.size] at hi'
  obtain ⟨i, hi⟩ := exists_getElem?_of_size hr.size.symm hi'
  rw [hr.next _ i i' hi hi']
  exact h i (by rw [Array.back?_eq_getElem?, hi])

/-- The code before `n` stays as it is, except that a load of nils right before `n` may take in more
registers. -/
def Kept (n : Nat) (code code' : Array Instr) : Prop :=
  ∀ (p : Nat) (i : Instr), p < n → code[p]? = some i → code'[p]? = some i ∨
    p + 1 = n ∧ i.op? = some .loadNil ∧ ∃ i', code'[p]? = some i' ∧ i'.op? = some .loadNil

theorem Kept.refl (n : Nat) (code : Array Instr) : Kept n code code :=
  fun _ _ _ h => .inl h

theorem Kept.trans {m : Nat} {code'' : Array Instr} (h : Kept m code code')
    (h' : Kept n code' code'') (hmn : m ≤ n) : Kept m code code'' := by
  intro p i hp hi
  rcases h p i hp hi with hi' | ⟨hpm, hop, i', hi', hop'⟩
  · rcases h' p i (by omega) hi' with hi'' | ⟨hpn, hop, hex⟩
    · exact .inl hi''
    · exact .inr ⟨by omega, hop, hex⟩
  · rcases h' p i' (by omega) hi' with hi'' | ⟨-, -, hex⟩
    · exact .inr ⟨hpm, hop, i', hi'', hop'⟩
    · exact .inr ⟨hpm, hop, hex⟩

theorem Kept.of_eq (h : ∀ p, p < n → code'[p]? = code[p]?) : Kept n code code' :=
  fun p _ hp hi => .inl ((h p hp).trans hi)

theorem Kept.get (h : Kept n code code')
    (hp : p < n) (hi : code[p]? = some i) (hop : i.op? ≠ some .loadNil) : code'[p]? = some i :=
  (h p i hp hi).resolve_right fun hx => hop hx.2.1

theorem Kept.jump (h : Kept n code code') (hp : p < n) (hi : code[p]? = some i) (hj : i.isJump) : code'[p]? = some i :=
  h.get hp hi fun hop => by simp [Instr.isJump, hop] at hj

theorem Chain.kept {l : JumpList}
    (h : Chain code l ps) (hk : Kept n code code') (hps : ∀ p ∈ ps, p < n) : Chain code' l ps := by
  refine h.congr fun p hp => ?_
  obtain ⟨i, hi, hj⟩ := h.jump_of_mem hp
  rw [hk.jump (hps p hp) hi hj, hi]

/-! ## Jumps -/

theorem isJump_cases (h : i.isJump) :
    i.op? = some .jmp ∨ i.op? = some .forPrep ∨ i.op? = some .forLoop ∨ i.op? = some .tForLoop := by
  simpa [Instr.isJump, or_assoc] using h

theorem next?_of_isJump (h : i.isJump) : i.next? = none := by
  rcases isJump_cases h with h | h | h | h <;> exact Instr.next?_eq_none h (by decide)

@[simp] theorem isJump_setSBx (i : Instr) (v : Int) : (i.setSBx v).isJump = i.isJump := by
  simp [Instr.isJump]

@[simp] theorem isJump_setA (i : Instr) (v : Int) : (i.setA v).isJump = i.isJump := by
  simp [Instr.isJump]

theorem Changes.setSBx (v : Int) (hfit : i.Fits B) (hj : i.isJump) (hp : p ∈ H) : Changes B H p i (i.setSBx v) where
  revises := by
    rcases isJump_cases hj with h | h | h | h <;>
      exact .of_op h (by simpa using h) (by decide) (.inr (by decide)) (by simp)
  fits := by
    left
    unfold Instr.Fits at hfit ⊢
    rcases isJump_cases hj with h | h | h | h <;> simpa [h] using hfit
  aim hn := absurd hp hn
  loop hn := absurd hp hn

theorem Changes.setA_jmp {v : Int} (hop : i.op? = some .jmp) (hv : 0 ≤ v ∧ v ≤ maxA) (hB : v ≤ B.stack) :
    Changes B H p i (i.setA v) where
  revises := .of_op hop (by simpa using hop) (by decide) (.inl (by simp)) (by simp)
  fits := by
    left
    have ha := Instr.a_setA i hv
    simp only [Instr.Fits, Instr.op?_setA, hop]
    omega
  aim _ _ := ⟨by simp [Instr.isJump, hop], by simp⟩
  loop _ := by simp [hop]

@[simp] theorem isJump_settle (hi : i.op? = some .testSet) : (i.settle reg).isJump = false := by
  unfold Instr.settle
  split
  · simp [Instr.isJump, hi]
  · simp [Instr.isJump, Instr.op?_abc]

theorem settle_fields (hi : i.op? = some .testSet) (hreg : 0 ≤ reg ∧ reg ≤ maxA) (hb : (i.b : Int) ≤ maxA) :
    (reg ≠ noRegister ∧ reg ≠ i.b ∧ (i.settle reg).op? = some .testSet ∧
      ((i.settle reg).a : Int) = reg ∧ (i.settle reg).b = i.b ∧ (i.settle reg).c = i.c) ∨
    ((reg = noRegister ∨ reg = i.b) ∧ (i.settle reg).op? = some .test ∧
      (i.settle reg).a = i.b ∧ (i.settle reg).c = i.c) := by
  unfold Instr.settle
  split
  · rename_i h
    exact .inl ⟨h.1, h.2, by simpa using hi, Instr.a_setA i hreg, by simp, by simp⟩
  · have hc : (i.c : Int) ≤ maxC := by
      have := i.c_lt
      simp only [maxC]
      omega
    obtain ⟨h1, h2, -, h4⟩ := Instr.abc_fields .test (a := i.b) (b := 0) (c := i.c)
      ⟨Int.natCast_nonneg _, hb⟩ (by decide) ⟨Int.natCast_nonneg _, hc⟩
    exact .inr ⟨by tauto, h1, by omega, by omega⟩

theorem Changes.settle (hop : i.op? = some .testSet) (hb : (i.b : Int) < B.stack) (hB : B.stack ≤ 249)
    (hreg : 0 ≤ reg ∧ reg < B.stack ∨ reg = noRegister) : Changes B H p i (i.settle reg) := by
  have hreg' : 0 ≤ reg ∧ reg ≤ maxA := by
    simp only [maxA, noRegister] at hreg ⊢
    omega
  have hb' : (i.b : Int) ≤ maxA := by
    simp only [maxA]
    omega
  have hnext : i.next? = some .jmp :=
    Instr.next?_eq_jmp (by simp [Instr.isTest, hop, Opcode.isTest, Opcode.info])
  rcases settle_fields hop hreg' hb' with ⟨hne, -, h, ha, hb2, hc⟩ | ⟨-, h, ha, hc⟩
  · have hfit : (i.settle reg).Fits B := by
      simp only [Instr.Fits, h]
      omega
    exact ⟨.of_op hop h (by decide) (.inl hc) (by simp), .inl hfit, fun _ hj => by simp [Instr.isJump, h] at hj,
      fun _ => by simp [hop, h]⟩
  · have hfit : (i.settle reg).Fits B := by
      simp only [Instr.Fits, h]
      omega
    have hnext' : (i.settle reg).next? = some .jmp :=
      Instr.next?_eq_jmp (by simp [Instr.isTest, h, Opcode.isTest, Opcode.info])
    refine ⟨⟨hnext'.trans hnext.symm, ?_, by simp [hop, h], by simp [h], by simp [h],
        by simp [Instr.isJump, h]⟩, .inl hfit,
      fun _ hj => by simp [Instr.isJump, h] at hj, fun _ => by simp [hop, h]⟩
    intro op ho hmem
    cases hop.symm.trans ho
    simp at hmem

/-! ## Walks -/

section Walks
variable {T wv wo : Int}

section
variable (h : CodeOk B T H code)
include h

theorem CodeOk.revised_of_changes (hsize : code'.size = code.size)
    (hrev : ∀ (pc : Nat) (i i' : Instr), code[pc]? = some i → code'[pc]? = some i' →
      i' = i ∨ Changes B H pc i i') : CodeOk B T H code' ∧ Revised code code' := by
  refine ⟨h.revise hsize hrev, hsize, fun q i i' hi hi' => ?_, fun q i' hi' hop => ?_⟩
  · rcases hrev q i i' hi hi' with rfl | hc
    · rfl
    · exact hc.revises.next
  · obtain ⟨i, hi⟩ := exists_getElem?_of_size hsize.symm hi'
    rcases hrev q i i' hi hi' with rfl | hc
    · exact ⟨i', hi, hop, rfl⟩
    · exact ⟨i, hi, hc.revises.closure hop⟩

theorem CodeOk.revised_modify {f : Instr → Instr} (hi : code[n]? = some i) (hch : Changes B H n i (f i)) :
    CodeOk B T H (code.modify n f) ∧ Revised code (code.modify n f) := by
  refine h.revised_of_changes Array.size_modify fun p j j' hj hj' => ?_
  rw [Array.getElem?_modify, hj] at hj'
  split at hj'
  · rename_i hp
    subst hp
    cases hi.symm.trans hj
    exact .inr (Option.some.inj hj' ▸ hch)
  · exact .inl (Option.some.inj hj').symm

theorem CodeOk.fits_of_not_testSet (hi : code[p]? = some i) (hop : i.op? ≠ some .testSet) : i.Fits B :=
  (h.fits hi).resolve_right fun hw => hop hw.1.1

theorem CodeOk.b_lt_of_testSet (hi : code[p]? = some i) (hop : i.op? = some .testSet) : (i.b : Int) < B.stack := by
  rcases h.fits hi with hf | hw
  · simp only [Instr.Fits, hop] at hf
    exact hf.2
  · exact hw.1.2

theorem CodeOk.relinked (hr : Relinked ps code code')
    (hps : ∀ p ∈ ps, p ∈ H) (hj : ∀ p ∈ ps, ∃ i, code[p]? = some i ∧ i.isJump) :
    CodeOk B T H code' ∧ Revised code code' := by
  refine h.revised_of_changes hr.size fun p i i' hi hi' => ?_
  by_cases hp : p ∈ ps
  · obtain ⟨j, hj', hjump⟩ := hj p hp
    cases hi.symm.trans hj'
    rcases hr.jump p hp i hi with hsame | ⟨v, hv⟩
    · exact .inl (Option.some.inj (hi'.symm.trans hsame))
    · cases hi'.symm.trans hv
      exact .inr (.setSBx v (h.fits_of_not_testSet hi (not_testSet_of_isJump hjump)) hjump (hps p hp))
  · rw [hr.other p hp, hi] at hi'
    exact .inl (Option.some.inj hi').symm

theorem CodeOk.patched (hB : B.stack ≤ 249) (hr : Patched ps wv reg wo code code') (hps : ∀ p ∈ ps, p ∈ H)
    (hj : ∀ p ∈ ps, ∃ i, code[p]? = some i ∧ i.isJump) (hreg : 0 ≤ reg ∧ reg < B.stack ∨ reg = noRegister) :
    CodeOk B T H code' ∧ Revised code code' := by
  refine h.revised_of_changes hr.size fun p i i' hi hi' => ?_
  by_cases hp : p ∈ ps
  · obtain ⟨j, hj', hjump⟩ := hj p hp
    cases hi.symm.trans hj'
    obtain ⟨v, -, -, -, hv⟩ := hr.jump p hp i hi
    cases hi'.symm.trans hv
    exact .inr (.setSBx v (h.fits_of_not_testSet hi (not_testSet_of_isJump hjump)) hjump (hps p hp))
  · by_cases htest : p + 1 ∈ ps ∧ i.op? = some .testSet
    · rw [hr.test p htest.1 i hi htest.2] at hi'
      cases hi'
      exact .inr (.settle htest.2 (h.b_lt_of_testSet hi htest.2) hB hreg)
    · rw [hr.other p hp, hi] at hi'
      · exact .inl (Option.some.inj hi').symm
      · intro hp'
        simpa [storesAt, hi] using fun hop => htest ⟨hp', hop⟩

theorem CodeOk.dropped (hB : B.stack ≤ 249)
    (hr : Dropped ps code code') : CodeOk B T H code' ∧ Revised code code' := by
  refine h.revised_of_changes hr.size fun p i i' hi hi' => ?_
  by_cases htest : p + 1 ∈ ps ∧ i.op? = some .testSet
  · rw [hr.test p htest.1 i hi htest.2] at hi'
    cases hi'
    exact .inr (.settle htest.2 (h.b_lt_of_testSet hi htest.2) hB (.inr rfl))
  · rw [hr.other p, hi] at hi'
    · exact .inl (Option.some.inj hi').symm
    · intro hp'
      simpa [storesAt, hi] using fun hop => htest ⟨hp', hop⟩

theorem CodeOk.closing {level : Int} (hlevel : 0 ≤ level ∧ level ≤ B.stack)
    (hB : B.stack ≤ 249) (hr : Closing ps level code code')
    (hj : ∀ p ∈ ps, ∀ i, code[p]? = some i → i.op? = some .jmp) : CodeOk B T H code' ∧ Revised code code' := by
  refine h.revised_of_changes hr.size fun p i i' hi hi' => ?_
  by_cases hp : p ∈ ps
  · rw [hr.jump p hp i hi] at hi'
    cases hi'
    exact .inr (.setA_jmp (hj p hp i hi) ⟨hlevel.1, by simp only [maxA]; omega⟩ hlevel.2)
  · rw [hr.other p hp, hi] at hi'
    exact .inl (Option.some.inj hi').symm

end

theorem CodeOk.aimed_of_patched (h : CodeOk B T H code') {H' : Set Nat}
    (hB : B.stack ≤ 249) (hr : Patched ps wv reg wo code code')
    (hj : AreJumps code ps)
    (hreg : 0 ≤ reg ∧ reg < B.stack ∨ reg = noRegister)
    (hb : ∀ (p : Nat) (i : Instr), code[p]? = some i → i.op? = some .testSet → (i.b : Int) < B.stack)
    (ht : ∀ p ∈ ps, IsTarget code' T (if storesAt code p then wv else wo))
    (hsub : H' ⊆ H) (hrest : ∀ p ∈ H, p ∉ H' → p ∈ ps) : CodeOk B T H' code' := by
  refine h.release ?_ ?_ ?_ hsub
  · intro p hp hn i' hi' _
    obtain ⟨i, hi, -⟩ := hj p (hrest p hp hn)
    obtain ⟨v, hv1, hv2, hv3, hv⟩ := hr.jump p (hrest p hp hn) i hi
    cases hi'.symm.trans hv
    rw [Instr.target, Instr.sbx_setSBx _ ⟨hv1, hv2⟩, hv3]
    exact ht p (hrest p hp hn)
  · intro p hp hn i' hi'
    by_cases hop : i'.op? = some .testSet
    · obtain ⟨i, hi⟩ := exists_getElem?_of_size hr.size.symm hi'
      by_cases htest : i.op? = some .testSet
      · have hps := hrest _ hp hn
        rw [hr.test p hps i hi htest] at hi'
        cases hi'
        have hc : Changes B H' p i (i.settle reg) := .settle htest (hb p i hi htest) hB hreg
        exact hc.fits.resolve_right fun hw => hn hw.2
      · -- Only a jump could have stood here, and it would still be one.
        exfalso
        by_cases hps : p ∈ ps
        · obtain ⟨j, hj', hjop⟩ := hj p hps
          obtain ⟨v, -, -, -, hv⟩ := hr.jump p hps j hj'
          cases hi'.symm.trans hv
          simp [hjop] at hop
        · rw [hr.other p hps fun _ => by simpa [storesAt, hi] using htest, hi] at hi'
          cases hi'
          exact htest hop
    · exact h.fits_of_not_testSet hi' hop
  · intro p hp hn i' hi' hop
    obtain ⟨i, hi, hjop⟩ := hj p (hrest p hp hn)
    obtain ⟨v, -, -, -, hv⟩ := hr.jump p (hrest p hp hn) i hi
    cases hi'.symm.trans hv
    simp [hjop] at hop

/-! ## What walks leave alone -/

/-- A test before an open jump that comes after `n` comes after `n` as well, if what is before `n`
needs no particular next instruction. -/
theorem Gen.Patched.kept (hr : Patched ps wv reg wo code code')
    (hps : ∀ p ∈ ps, n ≤ p) (hn : storesAt code n = false) : ∀ p, p < n → code'[p]? = code[p]? := by
  intro p hp
  refine hr.other p (fun h => ?_) fun h => ?_
  · have := hps p h
    omega
  · have := hps _ h
    rw [show p + 1 = n by omega, hn]

theorem Gen.Dropped.kept (hr : Dropped ps code code') (hps : ∀ p ∈ ps, n ≤ p) (hn : storesAt code n = false) :
    ∀ p, p < n → code'[p]? = code[p]? := by
  intro p hp
  refine hr.other p fun h => ?_
  have := hps _ h
  rw [show p + 1 = n by omega, hn]

theorem Gen.Relinked.kept (hr : Relinked ps code code') (hps : ∀ p ∈ ps, n ≤ p) :
    ∀ p, p < n → code'[p]? = code[p]? := by
  intro p hp
  refine hr.other p fun h => ?_
  have := hps p h
  omega

theorem storesAt_of_sealed (h : Sealed code) (hk : Kept code.size code code') : storesAt code' code.size = false := by
  cases hn : code.size with
  | zero => rfl
  | succ k =>
    cases hs : storesAt code' (k + 1) with
    | false => rfl
    | true =>
      obtain ⟨i', hi', hop⟩ := storesAt_succ_iff.1 hs
      have hget : code[k]? = some code[k] := Array.getElem?_eq_getElem (by omega)
      have hnone := h _ (by rw [Array.back?_eq_getElem?, hn, Nat.add_sub_cancel, hget])
      rcases hk k _ (by omega) hget with hsame | ⟨-, -, i'', hi'', hnil⟩
      · rw [hi'] at hsame
        rw [← Option.some.inj hsame, Instr.next?_eq_jmp] at hnone
        · simp at hnone
        · simp [Instr.isTest, hop, Opcode.isTest, Opcode.info]
      · rw [hi'] at hi''
        rw [Option.some.inj hi'', hnil] at hop
        simp at hop

end Walks

/-! ## Where jumps lead -/

/-- The jumps from `n` on lead to places from `n` on. -/
def AimsFrom (n : Nat) (code : Array Instr) : Prop :=
  ∀ (p : Nat) (i : Instr), n ≤ p → code[p]? = some i → i.isJump → (n : Int) ≤ i.target p

section Aims

theorem AimsFrom.of_size_le (h : code.size ≤ n) : AimsFrom n code := by
  intro p i hp hi
  have := lt_size_of_some hi
  omega

theorem AimsFrom.trans {m : Nat} (h : AimsFrom m code)
    (h' : AimsFrom n code') (hk : Kept n code code') (hmn : m ≤ n) (hn : n = code.size) : AimsFrom m code' := by
  intro p i hp hi hj
  rcases lt_or_ge p n with hlt | hge
  · -- A jump before `n` is the one that was there.
    obtain ⟨i0, hi0⟩ : ∃ i0, code[p]? = some i0 := ⟨_, Array.getElem?_eq_getElem (by omega)⟩
    rcases hk p i0 hlt hi0 with hi' | ⟨-, -, i', hi', hop⟩
    · rw [hi] at hi'
      exact Option.some.inj hi' ▸ h p i0 hp hi0 (Option.some.inj hi' ▸ hj)
    · cases hi.symm.trans hi'
      simp [Instr.isJump, hop] at hj
  · have := h' p i hge hi hj
    omega

theorem AimsFrom.push (h : AimsFrom n code)
    (hi : i.isJump → (n : Int) ≤ i.target code.size) : AimsFrom n (code.push i) := by
  intro p j hp hj hjump
  rw [Array.getElem?_push] at hj
  split at hj
  · rename_i heq
    cases hj
    exact heq ▸ hi hjump
  · exact h p j hp hj hjump

theorem AimsFrom.of_jumps (h : AimsFrom n code)
    (hj : ∀ (p : Nat) (i : Instr), code'[p]? = some i → i.isJump → code[p]? = some i) : AimsFrom n code' :=
  fun p i hp hi hjump => h p i hp (hj p i hi hjump) hjump

theorem AimsFrom.modify (h : AimsFrom n code) {k : Nat} {f : Instr → Instr}
    (hi : code[k]? = some i) (hf : (f i).isJump = false) : AimsFrom n (code.modify k f) := by
  refine h.of_jumps fun p j hj hjump => ?_
  rw [Array.getElem?_modify] at hj
  split at hj
  · rename_i hp
    subst hp
    rw [hi] at hj
    obtain rfl : f i = j := by simpa using hj
    simp [hf] at hjump
  · exact hj

theorem AimsFrom.patched (h : AimsFrom n code) {wv wo : Int} (hr : Patched ps wv reg wo code code')
    (hj : ∀ p ∈ ps, ∃ i, code[p]? = some i ∧ i.isJump)
    (ht : ∀ p ∈ ps, (n : Int) ≤ if storesAt code p then wv else wo) : AimsFrom n code' := by
  intro p i hp hi hjump
  by_cases hps : p ∈ ps
  · obtain ⟨j, hj, -⟩ := hj p hps
    obtain ⟨v, hmin, hmax, hv, hi'⟩ := hr.jump p hps j hj
    cases hi.symm.trans hi'
    rw [Instr.target, Instr.sbx_setSBx j ⟨hmin, hmax⟩, hv]
    exact ht p hps
  · by_cases hs : p + 1 ∈ ps ∧ storesAt code (p + 1) = true
    · -- The settled test is no jump.
      obtain ⟨j, hj, hop⟩ := storesAt_succ_iff.1 hs.2
      obtain rfl := Option.some.inj (hi.symm.trans (hr.test p hs.1 j hj hop))
      exact absurd hjump (by simp [isJump_settle hop])
    · rw [hr.other p hps (by simpa using hs)] at hi
      exact h p i hp hi hjump

theorem AimsFrom.dropped (h : AimsFrom n code) (hr : Dropped ps code code') : AimsFrom n code' := by
  refine h.of_jumps fun p i hi hjump => ?_
  by_cases hs : p + 1 ∈ ps ∧ storesAt code (p + 1) = true
  · obtain ⟨j, hj, hop⟩ := storesAt_succ_iff.1 hs.2
    obtain rfl := Option.some.inj (hi.symm.trans (hr.test p hs.1 j hj hop))
    exact absurd hjump (by simp [isJump_settle hop])
  · rw [← hr.other p (by simpa using hs), hi]

theorem AimsFrom.of_chain {l : JumpList} (h : Chain code l ps) (hps : ∀ p ∈ ps, n ≤ p) :
    ∀ p ∈ ps, ∀ i, code[p]? = some i → (n : Int) ≤ i.target p := by
  induction h with
  | nil => simp
  | @cons l p i ps hhead hi hjump hchain ih =>
    intro q hq j hj
    rcases List.mem_cons.1 hq with rfl | hq
    · cases hi.symm.trans hj
      have hle := hps q List.mem_cons_self
      by_cases hs : i.sbx = noJump
      · simp only [Instr.target, hs, noJump]
        omega
      · rw [link, if_neg hs] at hchain
        cases hchain with
        | nil hnone => simp [JumpList.ofHead] at hnone
        | @cons _ p' _ _ hhead' =>
          have := hps p' (by simp)
          have : (q : Int) + 1 + i.sbx = p' := by simpa [JumpList.ofHead] using hhead'
          simp only [Instr.target]
          omega
    · exact ih (fun p hp => hps p (List.mem_cons_of_mem _ hp)) q hq j hj

theorem AimsFrom.relinked (h : AimsFrom n code) {l : JumpList} {qs : List Nat}
    (hr : Relinked ps code code') (hc : Chain code' l (ps ++ qs)) (hps : ∀ p ∈ ps ++ qs, n ≤ p) :
    AimsFrom n code' := by
  intro p i hp hi hjump
  by_cases hmem : p ∈ ps
  · exact AimsFrom.of_chain hc hps p (List.mem_append_left _ hmem) i hi
  · rw [hr.other p hmem] at hi
    exact h p i hp hi hjump

end Aims

end RegisterCompiler
