import Mathlib.Data.List.InsertIdx
import RegisterCompiler.Proofs.Alike

/-!
# Labels, blocks and upvalues do not look at lines

A label and a pending jump carry a line for the error that names them. Two states that agree have the
same of both, one by one, up to that line; so the same jump finds the same label.

* `alike_resolveEarly`, `alike_defineLabel`, `alike_addGoto` : jumps to labels.
-/

namespace RegisterCompiler.Gen

variable {L : View} {α β : Type}

/-! ## Labels -/

@[simp] theorem alike_currentScope : Blind L currentScope := by
  refine .getFn (fun _ _ => rfl) fun f => ?_
  cases f.scopes <;> simp

theorem alikeUpTo_pendingAt (g : Nat) :
    AlikeUpTo L (fun p p' => p.forgetLine = p'.forgetLine) (pendingAt g) (pendingAt g) := by
  refine .bind alikeUpTo_getFn ?_
  rintro f f' ⟨n, hf⟩
  have hgoto := hf.goto g
  cases hp : f.gotos[g]? <;> cases hp' : f'.gotos[g]? <;> simp only [hp, hp', Option.map] at hgoto
  · exact ⟨fun _ _ _ => .error trivial⟩
  · simp at hgoto
  · simp at hgoto
  · exact ⟨fun _ _ hs => .ok ⟨Option.some.inj hgoto, hs⟩⟩

@[simp] theorem alike_eraseGoto (g : Nat) :
    Blind L (modifyFn fun f => { f with gotos := f.gotos.eraseIdxIfInBounds g }) := by
  have hmap (ps : Array Pending) : ((ps.eraseIdxIfInBounds g).map Pending.forgetLine).toList =
      (ps.map Pending.forgetLine).toList.eraseIdx g := by
    simp [Array.toList_eraseIdxIfInBounds, List.eraseIdx_map]
  refine .modifyFn fun f f' hf => { hf with gotos := Array.toList_inj.1 ?_ }
  rw [hmap, hmap, hf.gotos]

theorem alike_resolveGoto (g : Nat) {l l' : Label} (hl : l.forgetLine = l'.forgetLine) :
    Alike L (resolveGoto g l) (resolveGoto g l') := by
  rw [Label.eq_of_forgetLine hl]
  refine AlikeUpTo.bind (alikeUpTo_pendingAt g) fun p p' hp => ?_
  rw [Pending.eq_of_forgetLine hp]
  refine Alike.bind (alike_require ..) fun _ => ?_
  refine .ite (.bind (alike_localAt _) fun v => ?_) ?_ <;> simp

@[simp] theorem alike_resolveEarly (g : Nat) : Blind L (resolveEarly g) := by
  refine .bind alike_currentScope fun scope => AlikeUpTo.bind (alikeUpTo_pendingAt g) fun p p' hp => ?_
  rw [Pending.eq_of_forgetLine hp]
  refine Alike.getFn_of fun f f' hf => ?_
  have hfind := hf.find_label scope.firstLabel p.name
  dsimp only
  rw [hf.size_labels]
  refine .bind (alike_require ..) fun _ => ?_
  cases hl : (f.labels.toList.drop scope.firstLabel).find? fun l => l.name == p.name <;>
    cases hl' : (f'.labels.toList.drop scope.firstLabel).find? fun l => l.name == p.name <;>
    simp only [hl, hl', Option.map_none, Option.map_some, reduceCtorEq, Option.some.injEq] at hfind
  · exact alike_pure _
  case some.some l l' =>
    have hresolve := alike_resolveGoto (L := L) g hfind
    rw [Label.eq_of_forgetLine hfind] at hresolve ⊢
    refine .ite ?_ ?_ <;> simp [hresolve]

theorem alike_resolveGotosFrom {l l' : Label} (hl : l.forgetLine = l'.forgetLine) (n i : Nat) :
    Alike L (resolveGotosFrom l n i) (resolveGotosFrom l' n i) := by
  induction n generalizing i with
  | zero => exact alike_pure ()
  | succ n ih =>
    refine .getFn_of fun f f' hf => ?_
    have hgoto := hf.goto i
    cases hp : f.gotos[i]? <;> cases hp' : f'.gotos[i]? <;>
      simp only [hp, hp', Option.map_none, Option.map_some, reduceCtorEq, Option.some.injEq] at hgoto
    · exact alike_pure ()
    case some.some p p' =>
      have hname : (p'.name == l'.name) = (p.name == l.name) := by
        rw [Pending.eq_of_forgetLine hgoto, Label.eq_of_forgetLine hl]
      dsimp only
      rw [hname]
      exact .ite (.bind (alike_resolveGoto i hl) fun _ => ih i) (ih (i + 1))

theorem alike_addLabel {l l' : Label} (hl : l.forgetLine = l'.forgetLine) : Alike L (addLabel l) (addLabel l') := by
  refine .bind (.modifyFn fun f f' hf => { hf with labels := ?_ }) fun _ => .getFn_of fun f f' hf => ?_
  · rw [Array.map_push, Array.map_push, hf.labels, hl]
  · rw [hf.size_gotos]
    exact .bind alike_currentScope fun scope => alike_resolveGotosFrom hl ..

theorem alike_addGoto (name : Bytes) (line line' : Int) (jumps : JumpList) :
    Alike L (addGoto name line jumps) (addGoto name line' jumps) := by
  refine .getFn_of fun f f' hf => .bind (.modifyFn fun f f' hf => { hf with gotos := ?_ }) fun _ => ?_
  · rw [Array.map_push, Array.map_push, hf.gotos, hf.active]
    rfl
  · rw [hf.size_gotos]
    simp

theorem alike_defineLabel (name : Bytes) (line line' : Int) (isLast : Bool) :
    Alike L (defineLabel name line isLast) (defineLabel name line' isLast) := by
  refine .bind alike_currentScope fun scope => .getFn_of fun f f' hf => ?_
  have hfind := hf.find_label scope.firstLabel name
  dsimp only
  rw [hf.size_labels]
  refine .bind (alike_require ..) fun _ => ?_
  cases hl : (f.labels.toList.drop scope.firstLabel).find? fun l => l.name == name <;>
    cases hl' : (f'.labels.toList.drop scope.firstLabel).find? fun l => l.name == name <;>
    simp only [hl, hl', Option.map_none, Option.map_some, reduceCtorEq, Option.some.injEq] at hfind
  · exact .bind alike_label fun here => .bind alike_activeLocals fun active => alike_addLabel rfl
  · exact alike_error _ _

@[simp] theorem alike_markLoopEnd : Blind L markLoopEnd := by
  have hadd (l : Label) : Blind L (addLabel l) := alike_addLabel rfl
  exact .bind alike_label fun here => .getFn (fun _ _ => rfl) fun f => hadd _

/-! ## Blocks -/

@[simp] theorem alike_enterScope (isLoop : Bool) : Blind L (enterScope isLoop) := by
  refine .getFn (fun _ _ => rfl) fun f => .getFn (fun _ _ => rfl) fun g => .bind (alike_require ..) fun _ => .modifyFn fun f f' hf => ?_
  exact { hf with scopes := by rw [hf.size_labels, hf.size_gotos, hf.active, hf.scopes] }

@[simp] theorem alike_setGotoActive (i : Nat) (active : Int) :
    Blind L (modifyFn fun f => { f with gotos := f.gotos.modify i fun p => { p with active := active } }) := by
  have hmap (ps : Array Pending) :
      (ps.modify i fun p => { p with active := active }).map Pending.forgetLine =
        (ps.map Pending.forgetLine).modify i fun p => { p with active := active } := by
    ext k hk hk'
    · simp
    · simp only [Array.getElem_map, Array.getElem_modify]
      split <;> rfl
  refine .modifyFn fun f f' hf => { hf with gotos := ?_ }
  rw [hmap, hmap, hf.gotos]

@[simp] theorem alike_moveGotosFrom (scope : Scope) (n i : Nat) : Blind L (moveGotosFrom scope n i) := by
  induction n generalizing i with
  | zero => exact alike_pure ()
  | succ n ih =>
    refine .getFn_of fun f f' hf => ?_
    have hgoto := hf.goto i
    cases hp : f.gotos[i]? <;> cases hp' : f'.gotos[i]? <;>
      simp only [hp, hp', Option.map_none, Option.map_some, reduceCtorEq, Option.some.injEq] at hgoto
    · exact alike_pure ()
    case some.some p p' =>
      have hrest : Blind L (do if ← resolveEarly i then moveGotosFrom scope n i else moveGotosFrom scope n (i + 1)) :=
        .bind (alike_resolveEarly i) fun _ => .ite (ih i) (ih (i + 1))
      rw [Pending.eq_of_forgetLine hgoto]
      refine .ite (.ite (.bind (alike_closeOnJump ..) fun _ => ?_) ?_) hrest
      all_goals exact .bind (alike_setGotoActive ..) fun _ => hrest

@[simp] theorem alike_danglingGoto (p p' : Pending) : Alike L (danglingGoto p) (danglingGoto p') := by
  unfold danglingGoto
  split_ifs <;> exact alike_error _ _

@[simp] theorem alike_closeVariables (level : Int) : Blind L (closeVariables level) := by
  unfold closeVariables
  simp

@[simp] theorem alike_endScope (scope : Scope) : Blind L (endScope scope) := by
  refine .bind (.modifyFn fun f f' hf => { hf with scopes := by rw [hf.scopes] }) fun _ => ?_
  refine .bind (alike_deactivate _) fun _ => .getFn (fun _ _ => rfl) fun f => .bind (alike_require ..) fun _ => ?_
  refine .getFn (fun _ _ => rfl) fun g => .bind (alike_require ..) fun _ => .getFn_of fun f f' hf => ?_
  rw [hf.size_labels]
  refine .bind (alike_require ..) fun _ => .modifyFn fun f f' hf => ?_
  refine { hf with free := hf.active, labels := ?_ }
  rw [Array.take_eq_extract, Array.take_eq_extract, Array.map_extract, Array.map_extract, hf.labels]

theorem alike_finishScope (scope : Scope) (outermost : Bool) :
    Blind L
      (do
        endScope scope
        if !outermost then
          moveGotosFrom scope (← getFn).gotos.size scope.firstGoto
        else
          match (← getFn).gotos[scope.firstGoto]? with
          | some p => danglingGoto p
          | none => return) := by
  refine .bind (alike_endScope scope) fun _ => .ite (.getFn_of fun f f' hf => ?_) (.getFn_of fun f f' hf => ?_)
  · rw [hf.size_gotos]
    exact alike_moveGotosFrom ..
  · have hgoto := hf.goto scope.firstGoto
    cases hp : f.gotos[scope.firstGoto]? <;> cases hp' : f'.gotos[scope.firstGoto]? <;>
      simp only [hp, hp', Option.map_none, Option.map_some, reduceCtorEq] at hgoto
    · exact alike_pure ()
    · exact alike_danglingGoto ..

@[simp] theorem alike_leaveScope : Blind L leaveScope := by
  refine .bind alike_currentScope fun scope => .getFn (fun _ _ => rfl) fun f => ?_
  have hend := alike_finishScope (L := L) scope (f.scopes.length == 1)
  refine .ite (.bind (alike_closeVariables _) fun _ => .ite ?_ hend) (.ite ?_ hend)
  all_goals exact .bind alike_markLoopEnd fun _ => hend

/-! ## Upvalues -/

theorem agree_addUpvalue {n : Nat} {f g : Func} (h : f.Alike L n g) (name : Bytes) (isLocal : Bool) (index : Int) :
    Agree (fun _ _ => True) (fun r r' => r.1.Alike L n r'.1 ∧ r.2 = r'.2) (addUpvalue f name isLocal index)
      (addUpvalue g name isLocal index) := by
  unfold addUpvalue
  rw [h.upvalues]
  exact .ite (.error trivial) (.ok ⟨{ h with upvalues := rfl }, rfl⟩)

/-- The search for a name goes through the functions around, none of whose lines it looks at. -/
theorem agree_resolveUpvalue (name : Bytes) {f g : Func} {outer outer' : List Func}
    (h : f.Alike L outer.length g) (ho : OuterAlike L outer outer') : Agree (fun e e' => e = .noPlace ↔ e' = .noPlace)
      (fun r r' => r.1 = r'.1 ∧ r.2.2.length = outer.length ∧ r.2.1.Alike L outer.length r'.2.1 ∧
        OuterAlike L r.2.2 r'.2.2) (resolveUpvalue name f outer) (resolveUpvalue name g outer') := by
  induction ho generalizing f g with
  | nil =>
    unfold resolveUpvalue
    rw [h.findUpvalue? name]
    cases g.findUpvalue? name with
    | some i => exact .ok ⟨rfl, rfl, h, .nil⟩
    | none => exact .ok ⟨rfl, rfl, h, .nil⟩
  | @cons parent parent' rest rest' hparent hrest ih =>
    unfold resolveUpvalue
    rw [h.findUpvalue? name]
    cases g.findUpvalue? name with
    | some i => exact .ok ⟨rfl, rfl, h, .cons hparent hrest⟩
    | none =>
      dsimp only
      rw [hparent.findLocal? name, hparent.active, hparent.declared, hparent.scopes]
      refine .ite (.error Iff.rfl) ?_
      cases parent'.findLocal? name with
      | some reg =>
        refine .ite (.error Iff.rfl) ?_
        have hadd := agree_addUpvalue h name true reg
        generalize addUpvalue f name true reg = r at hadd ⊢
        generalize addUpvalue g name true reg = r' at hadd ⊢
        obtain ⟨hf, hi⟩ | _ := hadd
        · exact .ok ⟨congrArg some hi, rfl, hf, .cons { hparent with scopes := rfl, declared := rfl, active := rfl } hrest⟩
        · exact .error (by simp)
      | none =>
        have hup := ih hparent
        generalize resolveUpvalue name parent rest = r at hup ⊢
        generalize resolveUpvalue name parent' rest' = r' at hup ⊢
        obtain @⟨⟨found, p, ps⟩, ⟨found', p', ps'⟩, hi, hlen, hp, hps⟩ | he := hup
        · obtain rfl : found = found' := hi
          replace hlen : ps.length = rest.length := hlen
          have hall : OuterAlike L (p :: ps) (p' :: ps') := .cons (hlen ▸ hp) hps
          cases found with
          | none => exact .ok ⟨rfl, congrArg Nat.succ hlen, h, hall⟩
          | some j =>
            have hadd := agree_addUpvalue h name false j
            dsimp only
            generalize addUpvalue f name false j = r at hadd ⊢
            generalize addUpvalue g name false j = r' at hadd ⊢
            obtain ⟨hf, hi⟩ | _ := hadd
            · exact .ok ⟨congrArg some hi, congrArg Nat.succ hlen, hf, hall⟩
            · exact .error (by simp)
        · exact .error he

@[simp] theorem alike_makeUpvalue (name : Bytes) : Blind L (makeUpvalue name) := by
  refine ⟨fun s s' hs => ?_⟩
  have hup := agree_resolveUpvalue name hs.fn hs.outer
  unfold makeUpvalue
  rw [bind_get, bind_get]
  generalize resolveUpvalue name s.fn s.outer = r at hup ⊢
  generalize resolveUpvalue name s'.fn s'.outer = r' at hup ⊢
  obtain @⟨⟨i, f, ps⟩, ⟨i', f', ps'⟩, hi, hlen, hf, hps⟩ | @⟨e, e', he⟩ := hup
  · replace hlen : ps.length = s.outer.length := hlen
    exact .ok ⟨hi, { hs with fn := hlen ▸ hf, outer := hps, inner := hlen ▸ hs.inner }⟩
  · cases e <;> cases e' <;> simp only [reduceCtorEq, iff_true, iff_false, not_true] at he
    · exact (alike_error ..).run s s' hs
    · exact (alike_broken ..).run s s' hs

@[simp] theorem alike_declareUpvalue (name : Bytes) (isLocal : Bool) (index : Int) :
    Blind L (declareUpvalue name isLocal index) := by
  refine ⟨fun s s' hs => ?_⟩
  have hadd := agree_addUpvalue hs.fn name isLocal index
  unfold declareUpvalue
  rw [bind_getFn, bind_getFn]
  generalize addUpvalue s.fn name isLocal index = r at hadd ⊢
  generalize addUpvalue s'.fn name isLocal index = r' at hadd ⊢
  obtain ⟨hg, hi⟩ | _ := hadd
  · exact .ok ⟨congrArg Nat.cast hi, { hs with fn := hg }⟩
  · exact (alike_error ..).run s s' hs

end RegisterCompiler.Gen
