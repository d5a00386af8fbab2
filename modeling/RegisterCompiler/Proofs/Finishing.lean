import RegisterCompiler.Proofs.Scopes
import RegisterCompiler.Proofs.Threading
import RegisterCompiler.Proofs.FunctionTrees

/-!
# Finished functions

* `CodeOk.controlFlow` : code in order that ends in a return and has no open jumps has well-formed
  control flow;
* `Enclosed.confined`, `Func.Lives.closesCaptured` : captured variables are closed;
* `Func.wellFormed_toProto`, `Proto.sound_toProto` : so a function is well formed once its last block
  is closed and its jumps are threaded.
-/

namespace RegisterCompiler

open Gen

/-! ## Control flow -/

section Control
variable {B : Bounds} {T : Int} {code : Array Instr}

theorem CodeOk.exists_next {H : Set Nat} (h : CodeOk B T H code) (hs : Sealed code) {pc : Nat}
    {i : Instr} {op : Opcode} (hi : code[pc]? = some i) (hop : i.next? = some op) :
    ∃ j, code[pc + 1]? = some j ∧ j.op? = some op := by
  have hlt := lt_size_of_some hi
  have hne : pc + 1 ≠ code.size := by
    intro heq
    have hback : code.back? = some i := by
      rw [Array.back?_eq_getElem?, ← hi]
      congr 1
      omega
    rw [hs i hback] at hop
    simp at hop
  have hj := Array.getElem?_eq_getElem (show pc + 1 < code.size by omega)
  exact ⟨_, hj, (h.leads hi hj).next op hop⟩

theorem CodeOk.controlFlow (h : CodeOk B T ∅ code) (hT : T < code.size)
    (hends : ∃ i, code.back? = some i ∧ i.op? = some .ret) : ControlFlow code := by
  obtain ⟨last, hlast, hret⟩ := hends
  have hs : Sealed code := by
    intro i hi
    cases hi.symm.trans hlast
    exact Instr.next?_eq_none hret (by decide)
  have hextra : ∀ {i : Instr}, i.takesExtra → i.next? = some .extraArg := by
    intro i hx
    have htest : ¬ i.isTest := by
      intro ht
      simp only [Instr.takesExtra, Bool.or_eq_true, Bool.and_eq_true, beq_iff_eq] at hx
      rcases hx with hop | ⟨hop, -⟩ <;>
        simp [Instr.isTest, hop, Opcode.isTest, Opcode.info] at ht
    rw [Instr.next?, if_neg htest, if_pos hx]
  constructor
  · exact ⟨last, hlast, hret⟩
  · intro pc i hi hj
    have ht := h.aimed hi hj (Set.notMem_empty _)
    exact ⟨ht.1, ht.2.1.trans_lt hT⟩
  · intro pc i hi ht
    exact h.exists_next hs hi (Instr.next?_eq_jmp ht)
  · intro pc i hi hx
    exact h.exists_next hs hi (hextra hx)
  · intro pc j hj hop
    cases pc with
    | zero => exact absurd hop (h.first hj)
    | succ q =>
      have hlt := lt_size_of_some hj
      have hi := Array.getElem?_eq_getElem (show q < code.size by omega)
      refine ⟨q, _, rfl, hi, ?_⟩
      have hnext := (h.leads hi hj).extra hop
      unfold Instr.next? at hnext
      split at hnext
      · simp at hnext
      · split at hnext
        · assumption
        · split at hnext
          · simp at hnext
          · split at hnext <;> simp at hnext
  · intro pc i hi hb q j hj hjump heq
    refine (h.aimed hj hjump (Set.notMem_empty _)).2.2 pc i heq hi ?_
    rcases hb with ht | hx
    · exact ⟨_, Instr.next?_eq_jmp ht, by decide⟩
    · exact ⟨_, hextra hx, by decide⟩
  · intro pc i hi hop hc
    have hnext : i.next? = some .loadBool := by
      simp [Instr.next?, Instr.isTest, Instr.takesExtra, hop, hc, Opcode.isTest, Opcode.info]
    obtain ⟨j, hj, hopj⟩ := h.exists_next hs hi hnext
    have hlt := lt_size_of_some hj
    by_contra hge
    -- The last instruction is a return, so it is not the one that is skipped.
    have hback : code.back? = some j := by
      rw [Array.back?_eq_getElem?, ← hj]
      congr 1
      omega
    rw [Option.some.inj (hlast.symm.trans hback), hopj] at hret
    simp at hret
  · intro pc i hi hop
    have hnext : i.next? = some .tForLoop := by
      simp [Instr.next?, Instr.isTest, Instr.takesExtra, hop, Opcode.isTest, Opcode.info]
    exact h.exists_next hs hi hnext
  · intro pc i hi hop
    obtain ⟨q, -, htarget, j, hj⟩ := h.loops hi hop (Set.notMem_empty _)
    exact ⟨q, j, htarget, hj⟩

end Control

/-! ## Operands -/

section Operands
variable {B : Bounds} {i : Instr} {x r k : Nat}

theorem Bounds.HasRK.register (h : B.HasRK x) (hr : r ∈ Instr.rkRegisters x) : (r : Int) < B.stack := by
  unfold Instr.rkRegisters at hr
  split at hr
  · simp at hr
  · rename_i hx
    obtain rfl := List.mem_singleton.1 hr
    rcases h with h | h
    · exact h.2
    · exact absurd (isConstantRK_of_ge ⟨h.1, h.2.1⟩) hx

theorem Bounds.HasRK.constant (h : B.HasRK x) (hB : B.stack ≤ 249) (hk : k ∈ Instr.rkConstants x) :
    k < B.constants := by
  unfold Instr.rkConstants at hk
  split at hk
  · rename_i hx
    obtain rfl := List.mem_singleton.1 hk
    rw [constantOfRK, if_pos hx]
    rcases h with h | h
    · rw [isConstantRK_of_lt (by omega)] at hx
      simp at hx
    · omega
  · simp at hk

theorem Instr.Fits.register (h : i.Fits B) (hr : r ∈ i.registers) : (r : Int) < B.stack := by
  cases hop : i.op? with
  | none => simp [Fits, hop] at h
  | some op =>
    simp only [Fits, hop] at h
    simp only [registers, hop] at hr
    cases op <;> simp at h hr <;> grind [→ Bounds.HasRK.register]

theorem Instr.Fits.constant (h : i.Fits B) (hB : B.stack ≤ 249) (hk : k ∈ i.constants) : k < B.constants := by
  cases hop : i.op? with
  | none => simp [Fits, hop] at h
  | some op =>
    simp only [Fits, hop] at h
    simp only [constants, hop] at hk
    cases op <;> simp at h hk <;> grind [→ Bounds.HasRK.constant]

theorem Instr.Fits.upvalue (h : i.Fits B) (hk : k ∈ i.upvalues) : k < B.upvalues := by
  cases hop : i.op? with
  | none => simp [Fits, hop] at h
  | some op =>
    simp only [Fits, hop] at h
    simp only [upvalues, hop] at hk
    cases op <;> simp at h hk <;> omega

end Operands

/-! ## Ranges of variables -/

/-- Control goes where a jump leads, to the next instruction, or past an instruction that has to come
next. -/
theorem Instr.GoesTo.cases {i : Instr} {pc : Nat} {t : Int} (h : i.GoesTo pc t) :
    i.op? ≠ some .ret ∧ (i.isJump ∧ t = i.target pc ∨ t = pc + 1 ∨ i.next? ≠ none ∧ t = pc + 2) := by
  unfold Instr.GoesTo at h
  cases hop : i.op? with
  | none => exact ⟨by simp, .inr (.inl (by simpa [hop] using h))⟩
  | some op =>
    have hnext : op.isTest = true → i.next? ≠ none := fun ht => by
      rw [Instr.next?_eq_jmp (by simpa [Instr.isTest, hop] using ht)]
      simp
    cases op <;> simp only [hop] at h
    case loadBool =>
      split at h
      · exact ⟨by simp, .inr (.inl h)⟩
      · rename_i hc
        refine ⟨by simp, .inr (.inr ⟨?_, h⟩)⟩
        simp [Instr.next?, Instr.isTest, Instr.takesExtra, hop, hc, Opcode.isTest, Opcode.info]
    case jmp | forPrep => exact ⟨by simp, .inl ⟨by simp [Instr.isJump, hop], h⟩⟩
    case forLoop | tForLoop => exact ⟨by simp, h.imp (fun h => ⟨by simp [Instr.isJump, hop], h⟩) .inl⟩
    case eq | lt | le | test | testSet =>
      exact ⟨by simp, .inr (h.imp_right fun h => ⟨hnext rfl, h⟩)⟩
    all_goals exact ⟨by simp, .inr (.inl h)⟩

/-- A range is confined if the jumps in it lead to places in it or close the register, and if the
last instruction closes it too or is a return. -/
theorem Confined.of_steps {code : Array Instr} {start stop : Int} {r : Nat}
    (hjump : ∀ (pc : Nat) (i : Instr), start ≤ pc → (pc : Int) < stop → code[pc]? = some i →
      i.isJump → i.Closes r ∨ start ≤ i.target pc ∧ i.target pc < stop)
    (hlast : ∀ (pc : Nat) (i : Instr), start ≤ pc → (pc : Int) + 1 = stop → code[pc]? = some i →
      i.Closes r ∨ i.op? = some .ret)
    (hskip : ∀ (pc : Nat) (i : Instr), start ≤ pc → (pc : Int) + 2 = stop → code[pc]? = some i →
      i.next? = none) : Confined code start stop r := by
  intro pc i t hi hgo hp hp' hout
  obtain ⟨hret, hcases⟩ := hgo.cases
  by_cases hstop : (pc : Int) + 1 = stop
  · exact (hlast pc i hp hstop hi).resolve_right hret
  rcases hcases with ⟨hj, rfl⟩ | rfl | ⟨hn, rfl⟩
  · exact (hjump pc i hp hp' hi hj).resolve_right hout
  · omega
  · exact absurd (hskip pc i hp (by omega) hi) hn

theorem Enclosed.confined {code : Array Instr} {start stop : Int} {r : Nat}
    (h : Enclosed code ∅ ∅ start stop r) : Confined code start stop r := by
  refine .of_steps (fun pc i hp hp' hi hj => ?_) (fun pc i hp hp' hi => .inl (h.last pc i hp hp' hi))
    h.single
  rcases h.jumps pc i hp hp' hi hj with hc | hx | hin
  · exact .inl hc
  · exact absurd hx (Set.notMem_empty _)
  · exact .inr hin.2

section Finished
variable {f g : Func} {source : Bytes} {B : Bounds} {T : Int}

section
variable (h : f.Lives ∅ ∅) (hcode : CodeOk B T ∅ f.code) (hT : T < f.code.size) (hends : ∃ i, f.code.back? = some i ∧ i.op? = some .ret)
include h hcode hT hends

/-- A variable that is active up to the last return is never left by a jump that does not close it. -/
theorem Func.Lives.confined {r : Nat} {v : LocalVar} (hr : (r : Int) < f.active) (hv : f.record? r = some v) :
    Confined f.code v.startPC f.code.size r := by
  have hflow := hcode.controlFlow hT hends
  obtain ⟨last, hlast, hret⟩ := hends
  have hback : ∀ {pc : Nat} {i : Instr}, pc + 1 = f.code.size → f.code[pc]? = some i →
      i.op? = some .ret := by
    intro pc i hpc hi
    rw [Array.back?_eq_getElem?, show f.code.size - 1 = pc by omega] at hlast
    rw [Option.some.inj (hi.symm.trans hlast), hret]
  have hsealed : Sealed f.code := by
    intro i hi
    rw [Option.some.inj (hi.symm.trans hlast)]
    exact Instr.next?_eq_none hret (by decide)
  refine .of_steps (fun pc i hp _ hi hj => ?_) (fun pc i _ hp hi => .inr (hback (by omega) hi))
    fun pc i _ hp hi => ?_
  · rcases h.aimed r v hr hv pc i hp hi hj (Set.notMem_empty _) with haim | hc
    · exact .inr ⟨haim, (hflow.jumps hi hj).2⟩
    · exact .inl hc
  · -- An instruction that has to come next is no return, so it is not the last one.
    cases hn : i.next? with
    | none => rfl
    | some op =>
      obtain ⟨j, hj, hop⟩ := hcode.exists_next hsealed hi hn
      have := hback (by omega) hj
      rw [hop] at this
      rcases Instr.next?_mem hn with rfl | rfl | rfl | rfl <;> simp at this

/-- Once all variables of a function have ended, control leaves the ranges of captured ones only by
jumps that close them. -/
theorem Func.Lives.confined_of_finishes (hfin : Finishes 0 f g) {k q : Nat} {v : LocalVar} (hv : g.locals[k]? = some v)
    (hq : v.startPC ≤ q + 1 ∧ (q : Int) < v.endPC) (hc : g.Captures q (g.registerOf k)) :
    Confined f.code v.startPC v.endPC (g.registerOf k) := by
  have hact : g.isActive k = false := by
    rw [Func.isActive, hfin.active]
    rfl
  rcases lt_or_ge v.startPC v.endPC with hne | hempty
  · rcases hfin.record_cases h hv hact hne with ⟨hv0, hact0, heq⟩ | ⟨v0, -, hr, hv0, rfl⟩
    · rw [heq] at hc ⊢
      exact (h.closed k v hv0 hact0 q hq.1 hq.2 (hfin.captures_iff.1 hc)).confined
    · exact Func.Lives.confined (v := v0) h hcode hT hends hr hv0
  · intro pc i t _ _ hp hp'
    omega

end

/-! ## The compiled function -/

theorem Func.Ok.operandsInRange (h : f.Ok ∅) : OperandsInRange (f.toProto source) := by
  have hfits : ∀ {pc : Nat} {i : Instr}, f.code[pc]? = some i → i.Fits f.bounds := fun hi =>
    (h.code.fits hi).resolve_right fun hw => hw.2
  constructor
  · exact h.stack
  · exact h.params
  · intro pc i hi r hr
    rw [Func.codeArray_toProto] at hi
    exact (hfits hi).register hr
  · intro pc i hi hop ha
    rw [Func.codeArray_toProto] at hi
    have hfit := hfits hi
    simp only [Instr.Fits, hop] at hfit
    show (i.a : Int) - 1 < f.bounds.stack
    omega
  · intro pc i hi k hk
    rw [Func.codeArray_toProto] at hi
    rw [Func.constantArray_toProto]
    exact (hfits hi).constant h.stack.2 hk
  · intro pc i j hi hop hj
    rw [Func.codeArray_toProto] at hi hj
    rw [Func.constantArray_toProto]
    exact (h.code.leads hi hj).constant hop
  · intro pc i hi u hu
    rw [Func.codeArray_toProto] at hi
    rw [Func.upvalueList_toProto, Array.length_toList]
    exact (hfits hi).upvalue hu
  · rw [Func.upvalueList_toProto, Array.length_toList]
    exact h.upvalues
  · intro pc i hi hop
    rw [Func.codeArray_toProto] at hi
    rw [Func.children_toProto, List.length_map, Array.length_toList]
    have hfit := hfits hi
    simp only [Instr.Fits, hop] at hfit
    exact hfit.2

theorem countP_take {α : Type} (p : α → Bool) (xs : List α) (k : Nat) :
    (xs.take k).countP p = (List.range k).countP fun j => xs[j]?.any p := by
  induction k with
  | zero => simp
  | succ k ih =>
    rw [List.take_add_one, List.countP_append, ih, List.range_succ, List.countP_append]
    cases hk : xs[k]? <;> simp [List.countP_cons, hk]

theorem Func.registerOfLocal_toProto (h : f.active = 0) {k : Nat} {v : LocalVar}
    (hv : f.locals[k]? = some v) : (f.toProto source).registerOfLocal k v = f.registerOf k := by
  have hact : ∀ j, f.isActive j = false := by
    intro j
    rw [Func.isActive, h]
    rfl
  rw [Proto.registerOfLocal, countP_take, Func.registerOf, hv]
  refine List.countP_congr fun j _ => ?_
  simp [Func.isLive, hact, Func.toProto]

theorem Func.captures_of_makesClosureOver {q r : Nat} (h : (f.toProto source).MakesClosureOver q r) :
    f.Captures q r := by
  obtain ⟨i, child, u, hi, hop, hchild, hu⟩ := h
  rw [Func.codeArray_toProto] at hi
  rw [Func.children_toProto, List.getElem?_map, Option.map_eq_some_iff] at hchild
  obtain ⟨p, hp, hsome⟩ := hchild
  obtain rfl := Option.some.inj hsome
  exact ⟨i, p, u, hi, hop, by simpa using hp, hu⟩

theorem CodeOk.threaded {code : Array Instr} (h : CodeOk B T ∅ code) :
    CodeOk B T ∅ (threadJumps code) ∧ Revised code (threadJumps code) ∧
      (∀ (q : Nat) (j : Instr), code[q]? = some j → j.op? ≠ some .jmp → (threadJumps code)[q]? = some j) ∧
      ∀ (start stop : Int) (r : Nat), Confined code start stop r → Confined (threadJumps code) start stop r := by
  refine threadJumps_induct (P := fun code' => CodeOk B T ∅ code' ∧ Revised code code' ∧
    (∀ (q : Nat) (j : Instr), code[q]? = some j → j.op? ≠ some .jmp → code'[q]? = some j) ∧
    ∀ (start stop : Int) (r : Nat), Confined code start stop r → Confined code' start stop r)
    ?_ ⟨h, .refl _, fun _ _ h _ => h, fun _ _ _ h => h⟩
  rintro code1 code2 pc i w ⟨hcode, hrev, hsame, hconf⟩ ht
  obtain ⟨hcode', hrev'⟩ := hcode.threads ht
  exact ⟨hcode', hrev.trans hrev', fun q j hj hop => ht.get_of_ne (hsame q j hj hop) hop,
    fun start stop r hc => (hconf start stop r hc).threads ht⟩

theorem Proto.Recorded.of_finishes {p : Proto} (h : f.Lives ∅ ∅) (hfin : Finishes 0 f g)
    (hdecl : (f.declared.size : Int) ≤ f.active) (hlocals : p.locals = g.locals.toList)
    (hcode : p.lines.size = p.codeArray.size ∧ p.codeArray.size = g.code.size) : p.Recorded := by
  have hended (k : Nat) : g.isActive k = false := by
    rw [Func.isActive, hfin.active]
    rfl
  refine ⟨hcode.1, fun v hv => ?_, ?_⟩
  · rw [hlocals] at hv
    obtain ⟨k, hk⟩ := List.getElem?_of_mem hv
    rw [Array.getElem?_toList] at hk
    rw [hcode.2, hfin.code]
    exact ⟨hfin.forward h hdecl hk (hended k), (hfin.ended h hk (hended k)).2⟩
  · rw [hlocals, List.pairwise_iff_getElem]
    intro j k hj hk hjk
    refine (hfin.nested h hdecl hjk (Array.getElem?_eq_getElem hj) (Array.getElem?_eq_getElem hk)
      (hended k)).imp_right fun ho => ho.resolve_left ?_
    simp [hended j]

theorem Func.wellFormed_toProto (h : f.Lives ∅ ∅) (hfin : Finishes 0 f g)
    (hdecl : (f.declared.size : Int) ≤ f.active) (hok : g.Ok ∅)
    (hT : g.lastTarget < g.code.size) (hends : ∃ i, g.code.back? = some i ∧ i.op? = some .ret)
    (hnames : (g.upvalues.toList.map Upvalue.name).Nodup) :
    Proto.WellFormed (Func.toProto source { g with code := threadJumps g.code }) := by
  obtain ⟨hcode, hrev, hsame, hconf⟩ := hok.code.threaded
  have hends' : ∃ i, (threadJumps g.code).back? = some i ∧ i.op? = some .ret := by
    obtain ⟨i, hi, hop⟩ := hends
    refine ⟨i, ?_, hop⟩
    rw [Array.back?_eq_getElem?] at hi ⊢
    rw [hrev.size]
    exact hsame _ i hi (by simp [hop])
  refine ⟨?_, ?_, ?_, ?_, ?_⟩
  · rw [Func.codeArray_toProto]
    exact hcode.controlFlow (hrev.size ▸ hT) hends'
  · exact Func.Ok.operandsInRange
      { hok with code := hcode, lines := hok.lines.trans hrev.size.symm, target := hrev.size ▸ hok.target }
  · rintro k v hv ⟨q, hq, hq', hc⟩
    have hv' : g.locals[k]? = some v := by simpa [Func.toProto] using hv
    have hreg : (Func.toProto source { g with code := threadJumps g.code }).registerOfLocal k v =
        g.registerOf k :=
      Func.registerOfLocal_toProto (f := { g with code := threadJumps g.code }) hfin.active hv'
    rw [hreg] at hc
    rw [Func.codeArray_toProto, hreg]
    have hc' := (Func.captures_of_makesClosureOver hc).of_revised hrev
    have hcode' := hok.code
    rw [hfin.code] at hcode' hT hends
    refine hconf _ _ _ ?_
    rw [hfin.code]
    exact h.confined_of_finishes hcode' hT hends hfin hv' ⟨hq, hq'⟩ hc'
  · rw [Func.upvalueList_toProto]
    exact hnames
  · refine .of_finishes h hfin hdecl rfl ?_
    rw [Func.codeArray_toProto]
    exact ⟨hok.lines.trans hrev.size.symm, hrev.size⟩

theorem Proto.sound_toProto (h : (f.toProto source).WellFormed) (hn : ∀ p ∈ f.protos, p.Sound) :
    (f.toProto source).Sound := by
  intro q hq
  rw [Func.walk_toProto, List.mem_cons, List.mem_flatMap] at hq
  rcases hq with rfl | ⟨p, hp, hq⟩
  · exact h
  · exact hn p (by simpa using hp) q hq

end Finished

end RegisterCompiler
