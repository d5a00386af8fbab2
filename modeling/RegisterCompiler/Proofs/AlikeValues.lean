import RegisterCompiler.Proofs.AlikeBlocks

/-!
# Values, operators and functions do not look at lines

An operator and a call are told the line that their instruction belongs to; it is written down and
nothing else, so any two lines will do that are related.

* `alike_unary`, `alike_binary` : operators, on related lines.
-/

namespace RegisterCompiler.Gen

variable {L : View} {line line' : Int}

/-! ## Values -/

@[simp] theorem alike_giveResults (e : Operand) (n : Int) : Blind L (giveResults e n) := by
  unfold giveResults
  cases e.kind <;> simp

@[simp] theorem alike_giveAll (e : Operand) : Blind L (giveAll e) :=
  alike_giveResults ..

@[simp] theorem alike_giveOne (e : Operand) : Blind L (giveOne e) := by
  unfold giveOne
  cases e.kind <;> simp

@[simp] theorem alike_discharge (e : Operand) : Blind L (discharge e) := by
  unfold discharge
  cases e.kind with
  | indexed inUpvalue key =>
    refine .bind (alike_releaseRegister _) fun _ => ?_
    cases inUpvalue <;> simp
  | _ => simp

@[simp] theorem alike_dischargeTo (e : Operand) (reg : Int) : Blind L (dischargeTo e reg) := by
  refine .bind (alike_discharge e) fun e => ?_
  cases e.kind with
  | nonRelocatable =>
    refine .ite ?_ ?_ <;> simp
  | _ => simp

@[simp] theorem alike_dischargeToAny (e : Operand) : Blind L (dischargeToAny e) := by
  unfold dischargeToAny
  have hput : Blind L (do reserve 1; dischargeTo e ((← getFn).free - 1)) :=
    .bind (alike_reserve 1) fun _ => .getFn (fun _ _ => rfl) fun f => alike_dischargeTo ..
  cases e.kind with
  | nonRelocatable => simp
  | _ => exact hput

@[simp] theorem alike_loadBool (reg b skip : Int) : Blind L (loadBool reg b skip) := by
  unfold loadBool
  simp

section
variable (e : Operand)

@[simp] theorem alike_joinComparison : Blind L (joinComparison e) := by
  unfold joinComparison
  simp

@[simp] theorem alike_wantsLoads : Blind L (wantsLoads e) := by
  unfold wantsLoads
  simp

@[simp] theorem alike_loadBools (reg : Int) : Blind L (loadBools e reg) := by
  have hloads (past : JumpList) :
      Blind L (do let f ← loadBool reg 0 1; let t ← loadBool reg 1 0; aimHere past; return (f, t)) :=
    .bind (alike_loadBool ..) fun _ => .bind (alike_loadBool ..) fun _ => by simp
  unfold loadBools
  exact .ite (.bind (alike_pure _) hloads) (.bind alike_jump hloads)

@[simp] theorem alike_settleJumps (reg : Int) : Blind L (settleJumps e reg) := by
  have hpatch (r : Int × Int) :
      Blind L (do
          let done ← label
          patchValues e.whenFalse done reg r.1
          patchValues e.whenTrue done reg r.2) := by
    simp
  refine .bind (alike_wantsLoads e) fun wants => ?_
  exact .ite (.bind (alike_loadBools ..) hpatch) (.bind (alike_pure _) hpatch)

@[simp] theorem alike_toRegister (reg : Int) : Blind L (toRegister e reg) := by
  refine .bind (alike_dischargeTo ..) fun e => .bind (alike_joinComparison e) fun e => ?_
  refine .ite ?_ ?_ <;> simp

@[simp] theorem alike_toNextRegister : Blind L (toNextRegister e) := by
  refine .bind (alike_discharge e) fun e => .bind (alike_releaseOperand e) fun _ => ?_
  exact .bind (alike_reserve 1) fun _ => .getFn (fun _ _ => rfl) fun f => alike_toRegister ..

@[simp] theorem alike_toAnyRegister : Blind L (toAnyRegister e) := by
  refine .bind (alike_discharge e) fun e => ?_
  cases e.kind with
  | nonRelocatable =>
    refine .ite (alike_pure e) (.getFn (fun _ _ => rfl) fun f => ?_)
    simp
  | _ => simp

@[simp] theorem alike_toAnyRegisterOrUpvalue : Blind L (toAnyRegisterOrUpvalue e) := by
  unfold toAnyRegisterOrUpvalue
  simp

@[simp] theorem alike_toValue : Blind L (toValue e) := by
  unfold toValue
  simp

@[simp] theorem alike_registerRK : Blind L (registerRK e) := by
  unfold registerRK
  simp

@[simp] theorem alike_toRK : Blind L (toRK e) := by
  refine .bind (alike_toValue e) fun e => ?_
  have hnamed (v : Constant) :
      Blind L (do
          if (← getFn).constants.size ≤ maxIndexRK then
            let k ← internConstant v
            return ({ e with info := k, kind := .constant }, asConstantRK k)
          else registerRK e) := by
    refine .getFn (fun _ _ => rfl) fun f => ?_
    simp
  cases e.kind with
  | true | false | nil => exact hnamed _
  | _ => simp

end

/-! ## Variables -/

@[simp] theorem alike_store (v e : Operand) : Blind L (store v e) := by
  unfold store
  cases v.kind with
  | indexed inUpvalue key =>
    refine .bind (alike_toRK e) fun r => .bind (alike_emitABC ..) fun _ => ?_
    simp
  | _ => simp

@[simp] theorem alike_method (e key : Operand) : Blind L (method e key) := by
  refine .bind (alike_toAnyRegister e) fun e => .bind (alike_releaseOperand e) fun _ => ?_
  refine .bind alike_firstFree fun base => .bind (alike_reserve 2) fun _ => .bind (alike_toRK key) fun r => ?_
  simp

@[simp] theorem alike_indexed (t k : Operand) : Blind L (indexed t k) := by
  refine .bind (alike_require ..) fun _ => .bind (alike_toRK k) fun r => ?_
  cases t.kind <;> simp

@[simp] theorem alike_localOrUpvalue (name : Bytes) : Blind L (localOrUpvalue name) := by
  refine .getFn (fun _ _ => rfl) fun f => .getFn (fun _ _ => rfl) fun g => .bind (alike_require ..) fun _ => ?_
  refine .getFn_of fun f f' hf => ?_
  rw [hf.findLocal? name]
  cases f'.findLocal? name with
  | some reg => simp
  | none =>
    refine .bind (alike_makeUpvalue name) fun i => ?_
    cases i <;> simp

@[simp] theorem alike_namedVariable (name : Bytes) : Blind L (namedVariable name) := by
  refine .bind (alike_localOrUpvalue name) fun found => ?_
  cases found with
  | some e => simp
  | none =>
    refine .bind (alike_require ..) fun _ => .bind (alike_localOrUpvalue envName) fun env => ?_
    cases env <;> simp

/-! ## Conditions -/

@[simp] theorem alike_flipTest (e : Operand) : Blind L (flipTest e) := by
  refine .bind (alike_decidingPlace _) fun p => .bind (alike_instrAt p) fun i => ?_
  simp

@[simp] theorem alike_jumpOn (e : Operand) (cond : Bool) : Blind L (jumpOn e cond) := by
  unfold jumpOn
  have htest :
      Blind L (do
          let e ← dischargeToAny e
          releaseOperand e
          return (e, ← testJump .testSet noRegister e.info (if cond then 1 else 0))) :=
    .bind (alike_dischargeToAny e) fun _ => by simp
  cases e.kind with
  | relocatable =>
    refine .bind (alike_instrAt _) fun i => .ite ?_ htest
    simp
  | _ => exact htest

@[simp] theorem alike_continueIfTrue (e : Operand) : Blind L (continueIfTrue e) := by
  refine .bind (alike_discharge e) fun e => ?_
  have haway (r : Operand × JumpList) :
      Blind L (do
          let whenFalse ← concat r.1.whenFalse r.2
          aimHere r.1.whenTrue
          return { r.1 with whenFalse := whenFalse, whenTrue := .empty }) := by
    simp
  cases e.kind with
  | jump => exact .bind (alike_flipTest e) fun _ => .bind (alike_pure _) haway
  | constant | number x | true => exact .bind (alike_pure _) haway
  | _ => exact .bind (alike_jumpOn e false) haway

@[simp] theorem alike_continueIfFalse (e : Operand) : Blind L (continueIfFalse e) := by
  refine .bind (alike_discharge e) fun e => ?_
  have haway (r : Operand × JumpList) :
      Blind L (do
          let whenTrue ← concat r.1.whenTrue r.2
          aimHere r.1.whenFalse
          return { r.1 with whenTrue := whenTrue, whenFalse := .empty }) := by
    simp
  cases e.kind with
  | jump | nil | false => exact .bind (alike_pure _) haway
  | _ => exact .bind (alike_jumpOn e true) haway

/-! ## Operators -/

@[simp] theorem alike_freeOperands (e1 : Operand) (rk1 : Int) (e2 : Operand) (rk2 : Int) :
    Blind L (freeOperands e1 rk1 e2 rk2) := by
  unfold freeOperands
  simp

theorem alike_arith₁ (op : Opcode) (e : Operand) (h : L line line') :
    Alike L (arith₁ op e line) (arith₁ op e line') := by
  refine .bind (alike_toRK e) fun r => .bind (alike_freeOperands ..) fun _ => .bind (alike_emitABC ..) fun at_ => ?_
  exact .bind (alike_moveLastToLine h) fun _ => alike_pure _

theorem alike_arith₂ (op : Opcode) (e1 e2 : Operand) (h : L line line') :
    Alike L (arith₂ op e1 e2 line) (arith₂ op e1 e2 line') := by
  unfold arith₂
  cases foldNumbers op e1 e2 with
  | some e => simp
  | none =>
    refine .bind (alike_toRK e2) fun r2 => .bind (alike_toRK e1) fun r1 => ?_
    refine .bind (alike_freeOperands ..) fun _ => .bind (alike_emitABC ..) fun at_ => ?_
    exact .bind (alike_moveLastToLine h) fun _ => alike_pure _

@[simp] theorem alike_compare (op : Opcode) (holds : Bool) (e1 e2 : Operand) : Blind L (compare op holds e1 e2) := by
  have hjump (j : JumpList) : Blind L (do return Operand.plain .jump (← listHead j)) := by
    simp
  refine .bind (alike_toRK e1) fun r1 => .bind (alike_toRK e2) fun r2 => ?_
  refine .bind (alike_releaseOperand _) fun _ => .bind (alike_releaseOperand _) fun _ => ?_
  exact .ite (.bind (alike_testJump ..) hjump)
    (.ite (.bind (alike_testJump ..) hjump) (.bind (alike_testJump ..) hjump))

@[simp] theorem alike_negate (e : Operand) : Blind L (negate e) := by
  refine .bind (alike_discharge e) fun e => ?_
  have hswap (e : Operand) :
      Blind L
        (do
          let e := { e with whenTrue := e.whenFalse, whenFalse := e.whenTrue }
          dropValues e.whenFalse
          dropValues e.whenTrue
          return e) := by
    simp
  cases e.kind with
  | nil | false | constant | number | true => exact .bind (alike_pure _) hswap
  | jump => exact .bind (alike_flipTest e) fun _ => .bind (alike_pure _) hswap
  | relocatable | nonRelocatable =>
    refine .bind (alike_dischargeToAny e) fun e => .bind (alike_releaseOperand e) fun _ => ?_
    exact .bind (alike_emitABC ..) fun _ => .bind (alike_pure _) hswap
  | _ => exact .bind (alike_broken ..) hswap

theorem alike_unary (op : UnaryOp) (e : Operand) (h : L line line') :
    Alike L (unary op e line) (unary op e line') := by
  unfold unary
  cases op with
  | minus =>
    cases e.numeral? with
    | some x => exact alike_pure _
    | none => exact .bind (alike_toAnyRegister e) fun e => alike_arith₁ _ e h
  | not => exact alike_negate e
  | len => exact .bind (alike_toAnyRegister e) fun e => alike_arith₁ _ e h

@[simp] theorem alike_prepareLeft (op : BinaryOp) (e : Operand) : Blind L (prepareLeft op e) := by
  unfold prepareLeft
  cases op.family <;> simp

theorem alike_concatenate (e1 e2 : Operand) (h : L line line') :
    Alike L (concatenate e1 e2 line) (concatenate e1 e2 line') := by
  refine .bind (alike_toValue e2) fun e2 => ?_
  have hapart : Alike L (do arith₂ .concat e1 (← toNextRegister e2) line)
      (do arith₂ .concat e1 (← toNextRegister e2) line') :=
    .bind (alike_toNextRegister e2) fun e2 => alike_arith₂ _ e1 e2 h
  cases e2.kind with
  | relocatable =>
    refine .bind (alike_instrAt _) fun i => .ite (.bind (alike_require ..) fun _ => ?_) hapart
    simp
  | _ => exact hapart

theorem alike_binary (op : BinaryOp) (e1 e2 : Operand) (h : L line line') :
    Alike L (binary op e1 e2 line) (binary op e1 e2 line') := by
  unfold binary
  cases op.family with
  | conjunction | disjunction =>
    refine .bind (alike_discharge e2) fun e2 => ?_
    simp
  | concat => exact alike_concatenate e1 e2 h
  | arith op => exact alike_arith₂ op e1 e2 h
  | compare op holds => exact alike_compare op holds e1 e2

/-! ## Functions -/

theorem alike_openMain (h : L 1 1) : Blind L openMain := by
  have hvararg : Blind L (modifyFn fun f => { f with isVararg := true }) :=
    .modifyFn fun _ _ hf => { hf with isVararg := rfl }
  refine .bind (alike_onLine h) fun _ => .bind (alike_enterScope _) fun _ => ?_
  simp [hvararg]

theorem run_openFunction (line : Int) (s : GenState) : openFunction line s =
    if s.inner.isEmpty then
      enterScope false { s with outer := s.fn :: s.outer, fn := { level := s.outer.length + 1, line := line } }
    else .error (.broken .openInnermost) := by
  unfold openFunction
  rw [bind_get]
  cases s.inner.isEmpty <;> rfl

theorem alike_openFunction (hfresh : ∀ n, L.table n #[] ∅) (line line' : Int) :
    Alike L (openFunction line) (openFunction line') := by
  refine ⟨fun s s' hs => ?_⟩
  rw [run_openFunction, run_openFunction, hs.isEmpty_inner]
  split
  · rename_i hinner'
    have hinner : s.inner = [] := List.isEmpty_iff.1 (hs.isEmpty_inner.trans hinner')
    refine (alike_enterScope false).run _ _ ⟨hs.line, ?_, .cons hs.fn hs.outer, ?_, fun _ => hinner⟩
    · rw [hs.outer.length_eq]
      constructor <;> first | rfl | exact .empty | exact .nil | exact hfresh _
    · rw [hinner, List.isEmpty_iff.1 hinner']
      exact .nil
  · exact .error trivial

@[simp] theorem alike_closeFunction : Blind L closeFunction := by
  refine .getFn (fun _ _ => rfl) fun f => .bind (alike_require ..) fun _ => ⟨fun s s' hs => ?_⟩
  rw [bind_get, bind_get, hs.isEmpty_inner]
  cases hempty : s'.inner.isEmpty with
  | false => exact .error trivial
  | true =>
    -- no function is inside this one, so closing it moves no other
    have hinner : s.inner = [] := List.isEmpty_iff.1 (hs.isEmpty_inner.trans hempty)
    have hs' : s.Alike L True s' := { hs with innermost := fun _ => hinner }
    refine Agree.mono (R := fun r r' => r.1 = r'.1 ∧ r.2.Alike L True r'.2) ?_ fun _ _ h =>
      ⟨h.1, { h.2 with innermost := fun _ => h.2.innermost trivial }⟩
    refine (alike_require ..).bind_run hs' fun _ _ s s' _ hs => ?_
    refine (alike_ret ..).bind_run hs fun _ _ s s' _ hs => alike_leaveScope.bind_run hs fun _ _ s s' _ hs => ?_
    rw [bind_getFn, bind_getFn, hs.fn.scopes]
    refine (alike_require ..).bind_run hs fun _ _ s s' _ hs => ?_
    refine (Alike.modifyFn fun f f' hf => ?_).bind_run hs fun _ _ s s' _ hs => ?_
    · exact { hf with code := by rw [hf.code], isClosed := rfl }
    have houter := hs.outer
    have hs' : s'.inner = [] := List.isEmpty_iff.1 (hs.isEmpty_inner.symm.trans (by rw [hs.innermost trivial]; rfl))
    rw [bind_get, bind_get]
    generalize s.outer = outer at houter ⊢
    generalize s'.outer = outer' at houter ⊢
    cases houter with
    | nil => exact .ok ⟨rfl, hs⟩
    | cons hparent houter =>
      dsimp only
      rw [hparent.size_protos]
      refine (Alike.bind (alike_limit ..) fun _ => .bind (.modifyFn fun f f' hf => ?_) fun _ => alike_pure _).run _ _
        ⟨hs.line, hparent, houter, ?_, hs.innermost⟩
      case refine_2 =>
        rw [hs.innermost trivial, hs']
        exact .nil
      refine { hf with protos := ?_, nested := ?_ }
      · rw [Array.map_push, Array.map_push, hf.protos, hs.fn.toProto s.source s'.source]
      · rw [Array.toList_push, Array.toList_push]
        exact List.rel_append hf.nested (.cons (hs.fn.alike_toProto s.source s'.source) .nil)

/-! ## Parts of code for trees -/

@[simp] theorem alike_adjustTo (wanted count : Int) (last : Operand) : Blind L (adjustTo wanted count last) := by
  unfold adjustTo
  refine .ite (.bind (alike_giveResults ..) fun _ => ?_) ?_
  · simp
  · refine .ite (.bind (alike_toNextRegister last) fun _ => ?_) ?_ <;>
    · refine .ite (.bind alike_firstFree fun reg => ?_) (alike_pure ())
      simp

theorem alike_call (callee last : Operand) (h : L line line') :
    Alike L (call callee last line) (call callee last line') := by
  have hcall (count : Int) :
      Alike L
        (do
          let at_ ← emitABC .call callee.info (count + 1) 2
          moveLastToLine line
          modifyFn fun f => { f with free := callee.info + 1 }
          return Operand.plain .call at_)
        (do
          let at_ ← emitABC .call callee.info (count + 1) 2
          moveLastToLine line'
          modifyFn fun f => { f with free := callee.info + 1 }
          return Operand.plain .call at_) :=
    .bind (alike_emitABC ..) fun _ => .bind (alike_moveLastToLine h) fun _ => by simp
  refine .bind (alike_require ..) fun _ => ?_
  refine .ite (.bind (alike_pure _) hcall) (.ite (.bind (alike_toNextRegister last) fun _ => ?_) ?_)
  all_goals exact .getFn (fun _ _ => rfl) fun f => .bind (alike_pure _) hcall

@[simp] theorem alike_closeItem (c : Constructor) : Blind L (closeItem c) := by
  refine .ite (alike_pure c) (.bind (alike_toNextRegister _) fun _ => ?_)
  simp

@[simp] theorem alike_closeItems (c : Constructor) : Blind L (closeItems c) := by
  refine .ite (alike_pure c) (.ite ?_ ?_)
  · simp
  · refine .ite ?_ ?_ <;> simp

@[simp] theorem alike_storeField (c : Constructor) (reg rk : Int) (value : Operand) :
    Blind L (storeField c reg rk value) := by
  refine .bind (alike_toRK value) fun r => ?_
  simp

@[simp] theorem alike_condition (e : Operand) : Blind L (condition e) := by
  unfold condition
  simp

@[simp] theorem alike_protectTargets (targets : List Operand) (v : Operand) : Blind L (protectTargets targets v) := by
  refine .bind alike_firstFree fun copy => ?_
  refine .ite (.bind (alike_emitABC ..) fun _ => ?_) ?_ <;> simp

@[simp] theorem alike_storeAll (targets : List Operand) : Blind L (storeAll targets) := by
  induction targets with
  | nil => exact alike_pure ()
  | cons t rest ih => exact .getFn (fun _ _ => rfl) fun f => .bind (alike_store ..) fun _ => ih

@[simp] theorem alike_assignTo (targets : List Operand) (count : Int) (e : Operand) :
    Blind L (assignTo targets count e) := by
  have hfree (n : Int) : Blind L (modifyFn fun f => { f with free := f.free - n }) :=
    .modifyFn fun _ _ hf => { hf with free := by rw [hf.free] }
  unfold assignTo
  refine .ite ?_ (.bind (alike_adjustTo ..) fun _ => ?_)
  · cases targets <;> simp
  · refine .ite ?_ ?_ <;> simp [hfree]

@[simp] theorem alike_startLoop (kind : ForLoop) (base vars : Int) : Blind L (startLoop kind base vars) := by
  have hopen (prep : JumpList) :
      Blind L
        (do
          enterScope false
          activate vars
          reserve vars
          enterScope false
          return prep) :=
    .bind (alike_enterScope _) fun _ => .bind (alike_activate _) fun _ => by simp
  cases kind with
  | counting => exact .bind (alike_emitAsBx ..) fun _ => .bind (alike_pure _) hopen
  | _ => exact .bind alike_jump hopen

theorem alike_endLoop (kind : ForLoop) (base vars : Int) (h : L line line') (prep : JumpList) :
    Alike L (endLoop kind base vars line prep) (endLoop kind base vars line' prep) := by
  have hback (back : Int) :
      Alike L
        (do
          aimAt (.ofHead back) ((← listHead prep) + 1)
          moveLastToLine line)
        (do
          aimAt (.ofHead back) ((← listHead prep) + 1)
          moveLastToLine line') :=
    .bind (alike_listHead prep) fun _ => .bind (alike_aimAt ..) fun _ => alike_moveLastToLine h
  iterate 2 refine .bind alike_leaveScope fun _ => ?_
  refine .bind (alike_aimHere prep) fun _ => ?_
  cases kind with
  | counting => exact .bind (alike_emitAsBx ..) hback
  | _ =>
    exact .bind (alike_emitABC ..) fun _ => .bind (alike_moveLastToLine h) fun _ =>
      .bind (alike_emitAsBx ..) hback

@[simp] theorem alike_returnValues (count : Int) (e : Operand) : Blind L (returnValues count e) := by
  refine .bind alike_activeLocals fun active => .ite (.bind (alike_giveAll e) fun _ => ?_) (.ite ?_ ?_)
  · refine .ite (.bind (alike_updateInstr ..) fun _ => ?_) ?_ <;> simp
  · simp
  · refine .bind (alike_toNextRegister e) fun _ => .getFn (fun _ _ => rfl) fun f => ?_
    simp

@[simp] theorem alike_endStat : Blind L endStat := by
  refine .getFn (fun _ _ => rfl) fun f => .bind (alike_require ..) fun _ => ?_
  exact .modifyFn fun _ _ hf => { hf with free := hf.active }

end RegisterCompiler.Gen
