import RegisterCompiler.Generator.State

/-!
# Functions and the functions inside them

* `Proto.induction_children` : induction on the functions inside a function;
* `Proto.walk_eq`, `Proto.mem_walk_iff` : the functions at every depth;
* `Proto.strip_eq`, `Proto.walk_strip` : the same for functions without debug information.
-/

namespace RegisterCompiler

namespace Proto

theorem sizeOf_child {p c : Proto} (h : some c ∈ p.children) : sizeOf c < sizeOf p := by
  obtain ⟨source, line, lastLine, params, isVararg, stack, code, constants, protos, upvalues, lines, locals⟩ := p
  cases protos with
  | none => cases h
  | some ps =>
    have := List.sizeOf_lt_of_mem (show some c ∈ ps from h)
    simp only [Proto.mk.sizeOf_spec, Option.some.sizeOf_spec] at this ⊢
    omega

theorem induction_children {P : Proto → Prop} (h : ∀ p, (∀ c, some c ∈ p.children → P c) → P p) (p : Proto) : P p :=
  h p fun c hc => have := sizeOf_child hc; induction_children h c
termination_by p

theorem walk_eq (p : Proto) : p.walk = p :: p.children.flatMap walkChild := by
  have hlist (ps : List (Option Proto)) : walkList ps = ps.flatMap walkChild := by
    induction ps with
    | nil => rfl
    | cons x ps ih => rw [walkList, ih, List.flatMap_cons]
  obtain ⟨source, line, lastLine, params, isVararg, stack, code, constants, protos, upvalues, lines, locals⟩ := p
  cases protos with
  | none => rfl
  | some ps =>
    rw [walk, walkProtos, hlist]
    rfl

theorem mem_walk_iff {p q : Proto} : q ∈ p.walk ↔ q = p ∨ ∃ c, some c ∈ p.children ∧ q ∈ c.walk := by
  rw [walk_eq, List.mem_cons, List.mem_flatMap]
  refine or_congr_right ⟨fun ⟨x, hx, hq⟩ => ?_, fun ⟨c, hc, hq⟩ => ⟨some c, hc, hq⟩⟩
  cases x with
  | none => cases hq
  | some c => exact ⟨c, hx, hq⟩

theorem mem_walk_self (p : Proto) : p ∈ p.walk :=
  mem_walk_iff.2 (.inl rfl)

theorem mem_walk_child {p c q : Proto} (hc : some c ∈ p.children) (hq : q ∈ c.walk) : q ∈ p.walk :=
  mem_walk_iff.2 (.inr ⟨c, hc, hq⟩)

/-! ## Functions without debug information -/

theorem getD_present {α : Type} (xs : Array α) : (present xs).getD #[] = xs := by
  unfold present
  split <;> simp_all

theorem strip_eq (p : Proto) :
    p.strip = ⟨p.source, p.line, p.lastLine, p.params, p.isVararg, p.stack, present p.codeArray, present p.constantArray,
      some (p.children.map stripChild), some (p.upvalueList.map stripUpvalue), #[], []⟩ := by
  have hlist (ps : List (Option Proto)) : stripList ps = ps.map stripChild := by
    induction ps with
    | nil => rfl
    | cons p ps ih => rw [stripList, ih, List.map_cons]
  obtain ⟨source, line, lastLine, params, isVararg, stack, code, constants, protos, upvalues, lines, locals⟩ := p
  rw [strip]
  cases protos with
  | none => rfl
  | some ps =>
    rw [stripProtos, hlist]
    rfl

@[simp] theorem codeArray_strip (p : Proto) : p.strip.codeArray = p.codeArray := by
  rw [strip_eq]
  exact getD_present _

@[simp] theorem constantArray_strip (p : Proto) : p.strip.constantArray = p.constantArray := by
  rw [strip_eq]
  exact getD_present _

theorem children_strip (p : Proto) : p.strip.children = p.children.map stripChild := by
  rw [strip_eq]
  rfl

theorem upvalueList_strip (p : Proto) : p.strip.upvalueList = p.upvalueList.map stripUpvalue := by
  rw [strip_eq]
  rfl

theorem walk_strip (p : Proto) : p.strip.walk = p.walk.map strip := by
  induction p using induction_children with
  | h p ih =>
    rw [walk_eq, walk_eq, children_strip, List.map_cons, List.flatMap_map, List.map_flatMap, List.flatMap_def,
      List.flatMap_def]
    refine congrArg _ (congrArg _ (List.map_congr_left fun x hx => ?_))
    cases x with
    | none => rfl
    | some c => exact ih c hx

end Proto

/-! ## Functions under construction -/

namespace Func
variable {source : Bytes} {f : Func}

@[simp] theorem codeArray_toProto : (f.toProto source).codeArray = f.code :=
  Proto.getD_present _

@[simp] theorem constantArray_toProto : (f.toProto source).constantArray = f.constants :=
  Proto.getD_present _

@[simp] theorem children_toProto : (f.toProto source).children = f.protos.toList.map some := by
  show (if f.protos.isEmpty then none else some (f.protos.toList.map some)).getD [] = _
  split <;> simp_all

@[simp] theorem upvalueList_toProto : (f.toProto source).upvalueList = f.upvalues.toList := by
  show (if f.upvalues.isEmpty then none else some f.upvalues.toList).getD [] = _
  split <;> simp_all

theorem walk_toProto : (f.toProto source).walk = f.toProto source :: f.protos.toList.flatMap Proto.walk := by
  rw [Proto.walk_eq, children_toProto, List.flatMap_map]
  rfl

end Func

end RegisterCompiler
