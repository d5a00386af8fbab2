import RegisterCompiler.Proofs.Trees

/-!
# Steps that end without a failure

* `Gen.Passes` : what holds after steps that end without a failure;
* `Gen.Gives` : what holds of their result, whatever state they start in;
* `gives_unary`, `gives_binary` : operations give values, which there is nothing to fetch for.
-/

namespace RegisterCompiler

open Gen

namespace Gen
section Passes
variable {α β : Type} {m : Gen α} {f : α → Gen β} {s : GenState} {P P' : α → GenState → Prop}
  {Q : β → GenState → Prop}

/-- If the steps end without a failure, `P` holds of the result and the state after them. -/
def Passes (m : Gen α) (s : GenState) (P : α → GenState → Prop) : Prop :=
  ∀ a t, m s = .ok (a, t) → P a t

theorem passes_pure {a : α} (h : P a s) : (pure a : Gen α).Passes s P := by
  rintro b t ⟨⟩
  exact h

theorem passes_pure_bind {a : α} (h : (f a).Passes s Q) : (pure a >>= f).Passes s Q :=
  h

theorem Passes.bind (h : m.Passes s P) (hf : ∀ a t, P a t → (f a).Passes t Q) : (m >>= f).Passes s Q := by
  intro b u hu
  cases hm : m s with
  | error e => rw [run_bind_error hm] at hu; cases hu
  | ok r =>
    rw [run_bind (a := r.1) (t := r.2) hm] at hu
    exact hf r.1 r.2 (h r.1 r.2 hm) b u hu

theorem Passes.mono (h : m.Passes s P) (hP : ∀ a t, P a t → P' a t) : m.Passes s P' :=
  fun a t ht => hP a t (h a t ht)

theorem Ensures.passes (h : m.Ensures s P) : m.Passes s P := by
  intro a t ht
  simpa only [Ensures, ht] using h

theorem passes_mark {mk : Mark} {P : Unit → GenState → Prop} (h : ∀ n, mk = .line n → P () (s.onLine n)) :
    (mark mk).Passes s P :=
  (ensures_mark h).passes

theorem Passes.onLine {mk : Mark} {k : Unit → Gen β} (h : ∀ n : Nat, (k ()).Passes (s.onLine n) Q) :
    (mark mk >>= k).Passes s Q :=
  .bind (passes_mark fun n _ => h n) fun _ _ h => h

theorem Passes.getFn {k : Func → Gen β} (h : (k s.fn).Passes s Q) : (getFn >>= k).Passes s Q := h

theorem Passes.firstFree {k : Int → Gen β} (h : (k s.fn.free).Passes s Q) : (firstFree >>= k).Passes s Q := h

theorem Passes.pc {k : Int → Gen β} (h : (k s.fn.code.size).Passes s Q) : (pc >>= k).Passes s Q := h

/-- Whatever state the steps start in, what they give has the property `P`. -/
def Gives (m : Gen α) (P : α → Prop) : Prop :=
  ∀ s, m.Passes s fun a _ => P a

theorem gives_pure {a : α} {P : α → Prop} (h : P a) : (pure a : Gen α).Gives P :=
  fun _ => passes_pure h

theorem Gives.bind {P : β → Prop} (h : ∀ a, (f a).Gives P) : (m >>= f).Gives P :=
  fun _ => Passes.bind (P := fun _ _ => True) (fun _ _ _ => trivial) fun a t _ => h a t

theorem Gives.bind_of {P : α → Prop} {P' : β → Prop} (h : m.Gives P) (hf : ∀ a, P a → (f a).Gives P') :
    (m >>= f).Gives P' :=
  fun s => Passes.bind (h s) fun a t ha => hf a ha t

theorem gives_broken {i : Invariant} {P : α → Prop} : (broken i : Gen α).Gives P := by
  intro s a t h
  cases h

end Passes

end Gen

/-! ## Operations -/

/-- The operand is neither a variable nor a call, so there is nothing to fetch. -/
def Operand.isValue (e : Operand) : Bool :=
  match e.kind with
  | .local | .upvalue | .indexed .. | .call | .vararg => false
  | _ => true

namespace Gen

section Operations
variable {e e1 e2 : Operand} {line : Int}

theorem discharge_eq_pure (h : e.isValue = true) : discharge e = pure e := by
  unfold Operand.isValue at h
  unfold discharge
  cases hk : e.kind <;> simp_all

theorem gives_discharge : (discharge e).Gives (·.isValue = true) := by
  unfold discharge giveOne
  split
  · exact gives_pure rfl
  · exact .bind fun _ => gives_pure rfl
  · refine .bind fun _ => ?_
    extract_lets op k
    have hk : ∀ u, (k u).Gives (·.isValue = true) := fun _ => .bind fun _ => gives_pure rfl
    split
    · exact .bind hk
    · exact hk ()
  · simp_all only
    exact .bind fun _ => gives_pure rfl
  · simp_all only
    exact .bind fun _ => gives_pure rfl
  · refine gives_pure ?_
    unfold Operand.isValue
    split <;> simp_all

theorem gives_arith₁ {op : Opcode} : (arith₁ op e line).Gives (·.isValue = true) :=
  .bind fun _ => .bind fun _ => .bind fun _ => .bind fun _ => gives_pure rfl

theorem gives_arith₂ {op : Opcode} : (arith₂ op e1 e2 line).Gives (·.isValue = true) := by
  unfold arith₂
  split
  · rename_i e h
    refine gives_pure ?_
    simp only [foldNumbers, Option.bind_eq_bind, Option.bind_eq_some_iff] at h
    obtain ⟨f, -, x, -, y, -, h⟩ := h
    split at h
    · cases h
    · split at h
      · cases h
      · cases h
        rfl
  · exact .bind fun _ => .bind fun _ => .bind fun _ => .bind fun _ => .bind fun _ => gives_pure rfl

theorem gives_negate : (negate e).Gives (·.isValue = true) := by
  refine .bind fun e => ?_
  extract_lets k
  have hk : ∀ e : Operand, e.isValue = true → (k e).Gives (·.isValue = true) :=
    fun e he => .bind fun _ => .bind fun _ => gives_pure he
  split
  case h_6 => exact .bind fun _ => hk _ (by simp_all [Operand.isValue])
  case h_7 | h_8 => exact .bind fun _ => .bind fun _ => .bind fun _ => hk _ rfl
  case h_9 => exact .bind_of gives_broken hk
  all_goals exact hk _ rfl

theorem gives_unary {op : UnaryOp} : (unary op e line).Gives (·.isValue = true) := by
  unfold unary
  split
  · split
    · exact gives_pure rfl
    · exact .bind fun _ => gives_arith₁
  · exact gives_negate
  · exact .bind fun _ => gives_arith₁

theorem gives_concatenate : (concatenate e1 e2 line).Gives (·.isValue = true) := by
  refine .bind fun e => ?_
  extract_lets apart
  have hapart : apart.Gives (·.isValue = true) := .bind fun _ => gives_arith₂
  split
  · refine .bind fun i => ?_
    split
    · exact .bind fun _ => .bind fun _ => .bind fun _ => gives_pure rfl
    · exact hapart
  · exact hapart

theorem gives_compare {op : Opcode} {holds : Bool} : (compare op holds e1 e2).Gives (·.isValue = true) := by
  refine .bind fun _ => .bind fun _ => .bind fun _ => .bind fun _ => ?_
  extract_lets k
  have hk : ∀ j, (k j).Gives (·.isValue = true) := fun _ => .bind fun _ => gives_pure rfl
  split
  · exact .bind hk
  · split
    · exact .bind hk
    · exact .bind hk

theorem gives_binary {op : BinaryOp} : (binary op e1 e2 line).Gives (·.isValue = true) := by
  unfold binary
  split
  case h_3 => exact gives_concatenate
  case h_4 => exact gives_arith₂
  case h_5 => exact gives_compare
  all_goals exact .bind_of gives_discharge fun e he => .bind fun _ => .bind fun _ => gives_pure he

end Operations

end Gen

end RegisterCompiler
