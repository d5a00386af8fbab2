import Mathlib.Data.List.Forall2
import RegisterCompiler.Generator.Tree
import RegisterCompiler.Proofs.FunctionTrees

/-!
# Steps that do not look at lines

Lines of the source are kept in the state of generation at many places: the current line, the lines of
instructions, functions, labels and pending jumps. None of them decides what is done.

* `View` : a relation of lines, and with it a condition on tables of constants that new constants keep;
* `Func.Alike L`, `GenState.Alike L` : two states agree in all but lines, the lines of instructions are
  related by `L`, and the tables of constants are as `L` wants them;
* `Gen.Alike L m m'` : from states that agree, `m` and `m'` both fail, on lines related by `L`, or give one
  result and states that agree.
-/

namespace RegisterCompiler

namespace Proto

mutual

/-- The function without the name of its chunk and without lines, at every depth. -/
def forgetLines : Proto → Proto
  | ⟨_, _, _, params, isVararg, stack, code, constants, protos, upvalues, _, locals⟩ =>
    ⟨[], 0, 0, params, isVararg, stack, code, constants, forgetProtos protos, upvalues, #[], locals⟩

def forgetProtos : Option (List (Option Proto)) → Option (List (Option Proto))
  | none => none
  | some ps => some (forgetList ps)

def forgetList : List (Option Proto) → List (Option Proto)
  | [] => []
  | p :: ps => forgetChild p :: forgetList ps

def forgetChild : Option Proto → Option Proto
  | none => none
  | some p => some (forgetLines p)

end

theorem forgetList_map_some (ps : List Proto) : forgetList (ps.map some) = (ps.map forgetLines).map some := by
  induction ps with
  | nil => rfl
  | cons p ps ih => simp [forgetList, forgetChild, ih]

end Proto

/-! ## States that agree -/

def Label.forgetLine (l : Label) : Label := { l with line := 0 }

def Pending.forgetLine (p : Pending) : Pending := { p with line := 0 }

theorem Label.eq_of_forgetLine {l l' : Label} (h : l.forgetLine = l'.forgetLine) :
    l' = { l with line := l'.line } := by
  cases l
  cases l'
  simp_all [Label.forgetLine]

theorem Pending.eq_of_forgetLine {p p' : Pending} (h : p.forgetLine = p'.forgetLine) :
    p' = { p with line := p'.line } := by
  cases p
  cases p'
  simp_all [Pending.forgetLine]

structure LinesAlike (L : Int → Int → Prop) (ls ls' : Array Int) : Prop where
  size : ls.size = ls'.size
  get (i : Nat) (h : i < ls.size) (h' : i < ls'.size) : L ls[i] ls'[i]

namespace LinesAlike

variable {L : Int → Int → Prop} {ls ls' : Array Int}

theorem empty : LinesAlike L #[] #[] :=
  ⟨rfl, fun _ h => absurd h (Nat.not_lt_zero _)⟩

theorem push (h : LinesAlike L ls ls') {n n' : Int} (hn : L n n') : LinesAlike L (ls.push n) (ls'.push n') := by
  refine ⟨by simp [h.size], fun i hi hi' => ?_⟩
  rw [Array.getElem_push, Array.getElem_push]
  have hsize := h.size
  split_ifs
  · exact h.get ..
  · omega
  · omega
  · exact hn

theorem modify (h : LinesAlike L ls ls') {n n' : Int} (hn : L n n') (k : Nat) :
    LinesAlike L (ls.modify k fun _ => n) (ls'.modify k fun _ => n') := by
  refine ⟨by simp [h.size], fun i hi hi' => ?_⟩
  rw [Array.getElem_modify, Array.getElem_modify]
  split
  · exact hn
  · exact h.get ..

theorem pop (h : LinesAlike L ls ls') : LinesAlike L ls.pop ls'.pop := by
  refine ⟨by simp [h.size], fun i hi hi' => ?_⟩
  rw [Array.getElem_pop, Array.getElem_pop]
  exact h.get ..

end LinesAlike

structure View where
  lines : Int → Int → Prop
  /-- What holds of the constants of the function with that many functions around it, and of their
  places. -/
  table : Nat → Array Constant → Std.HashMap Constant.Key Nat → Prop
  intern {n : Nat} {cs : Array Constant} {places : Std.HashMap Constant.Key Nat} {v : Constant} :
    table n cs places → places[v.key]? = none → table n (cs.push v) (places.insert v.key cs.size)

namespace View

instance : CoeFun View fun _ => Int → Int → Prop := ⟨lines⟩

abbrev ofLines (L : Int → Int → Prop) : View where
  lines := L
  table _ _ _ := True
  intern _ _ := trivial

end View

/-- The lines of two functions are related, at every depth, and the constants are those of a table. -/
def Proto.Alike (L : View) (p q : Proto) : Prop :=
  List.Forall₂ (fun a b => LinesAlike L a.lines b.lines ∧ ∃ n places, L.table n a.constantArray places)
    p.walk q.walk

variable {L : View} {n : Nat}

/-- Two functions under construction, with `n` functions around them, agree in all but lines, and lines
of instructions are related. -/
structure Func.Alike (L : View) (n : Nat) (f g : Func) : Prop where
  level : f.level = g.level
  params : f.params = g.params
  isVararg : f.isVararg = g.isVararg
  stack : f.stack = g.stack
  code : f.code = g.code
  lines : LinesAlike L f.lines g.lines
  constants : f.constants = g.constants
  constantPlaces : f.constantPlaces = g.constantPlaces
  table : L.table n f.constants f.constantPlaces
  protos : f.protos.map Proto.forgetLines = g.protos.map Proto.forgetLines
  nested : List.Forall₂ (Proto.Alike L) f.protos.toList g.protos.toList
  upvalues : f.upvalues = g.upvalues
  locals : f.locals = g.locals
  scopes : f.scopes = g.scopes
  declared : f.declared = g.declared
  labels : f.labels.map Label.forgetLine = g.labels.map Label.forgetLine
  gotos : f.gotos.map Pending.forgetLine = g.gotos.map Pending.forgetLine
  pending : f.pending = g.pending
  lastTarget : f.lastTarget = g.lastTarget
  free : f.free = g.free
  active : f.active = g.active
  isClosed : f.isClosed = g.isClosed

/-- The function `f` with the lines of `g`, and with those of its records that have lines. -/
def Func.withLines (f g : Func) : Func :=
  { f with
    line := g.line, lastLine := g.lastLine, lines := g.lines, protos := g.protos, labels := g.labels,
    gotos := g.gotos }

namespace Func.Alike

variable {f g : Func}

section
variable (h : f.Alike L n g)
include h

theorem eq_withLines : g = f.withLines g := by
  obtain ⟨h1, h2, h3, h4, h5, -, h7, h8, -, -, -, h10, h11, h12, h13, -, -, h16, h17, h18, h19, h20⟩ := h
  rw [Func.withLines, h1, h2, h3, h4, h5, h7, h8, h10, h11, h12, h13, h16, h17, h18, h19, h20]

theorem size_protos : f.protos.size = g.protos.size := by
  simpa using congrArg Array.size h.protos

theorem size_labels : f.labels.size = g.labels.size := by
  simpa using congrArg Array.size h.labels

theorem size_gotos : f.gotos.size = g.gotos.size := by
  simpa using congrArg Array.size h.gotos

theorem goto (i : Nat) : f.gotos[i]?.map Pending.forgetLine = g.gotos[i]?.map Pending.forgetLine := by
  simpa only [Array.getElem?_map] using congrArg (·[i]?) h.gotos

theorem find_label (k : Nat) (name : Bytes) :
    ((f.labels.toList.drop k).find? fun l => l.name == name).map Label.forgetLine =
      ((g.labels.toList.drop k).find? fun l => l.name == name).map Label.forgetLine := by
  have hfind (ls : Array Label) :
      (((ls.map Label.forgetLine).toList.drop k).find? fun l => l.name == name) =
        ((ls.toList.drop k).find? fun l => l.name == name).map Label.forgetLine := by
    rw [Array.toList_map, ← List.map_drop, List.find?_map]
    rfl
  rw [← hfind, ← hfind, h.labels]

theorem toProto (source source' : Bytes) : (f.toProto source).forgetLines = (g.toProto source').forgetLines := by
  have hprotos : Proto.forgetProtos (f.toProto source).protos =
      Proto.forgetProtos (g.toProto source').protos := by
    have hsize := h.size_protos
    have hlist := congrArg Array.toList h.protos
    simp only [Array.toList_map] at hlist
    by_cases hempty : g.protos.size = 0
    · simp [Func.toProto, Array.isEmpty, hsize, hempty]
    · simp [Func.toProto, Array.isEmpty, hsize, hempty, Proto.forgetProtos, Proto.forgetList_map_some, hlist]
  simp only [Func.toProto] at hprotos ⊢
  simp only [Proto.forgetLines, hprotos, h.params, h.isVararg, h.stack, h.code, h.constants, h.upvalues, h.locals]

theorem alike_toProto (source source' : Bytes) : (f.toProto source).Alike L (g.toProto source') := by
  rw [Proto.Alike, Func.walk_toProto, Func.walk_toProto]
  refine .cons ⟨h.lines, n, f.constantPlaces, ?_⟩ (List.rel_flatMap h.nested fun _ _ h => h)
  rw [Proto.constantArray, Func.toProto, Proto.getD_present]
  exact h.table

theorem findLocal? (name : Bytes) : f.findLocal? name = g.findLocal? name := by
  have hbelow (n : Nat) : f.findLocalBelow name n = g.findLocalBelow name n := by
    induction n with
    | zero => rfl
    | succ n ih =>
      have hname : f.nameOfLocal? n = g.nameOfLocal? n := by
        simp only [Func.nameOfLocal?, h.declared, h.locals]
      rw [Func.findLocalBelow, Func.findLocalBelow, hname, ih]
  simp only [Func.findLocal?, h.active, hbelow]

theorem findUpvalue? (name : Bytes) : f.findUpvalue? name = g.findUpvalue? name := by
  simp only [Func.findUpvalue?, h.upvalues]

end

end Func.Alike

/-- Functions around one, the nearest first, agree. -/
inductive OuterAlike (L : View) : List Func → List Func → Prop
  | nil : OuterAlike L [] []
  | cons {f g : Func} {fs gs : List Func} : f.Alike L fs.length g → OuterAlike L fs gs →
      OuterAlike L (f :: fs) (g :: gs)

theorem OuterAlike.length_eq {fs gs : List Func} (h : OuterAlike L fs gs) : fs.length = gs.length := by
  induction h with
  | nil => rfl
  | cons _ _ ih => rw [List.length_cons, List.length_cons, ih]

/-- Functions inside one another agree, the first of which has `n` functions around it. -/
inductive InnerAlike (L : View) : Nat → List Func → List Func → Prop
  | nil {n : Nat} : InnerAlike L n [] []
  | cons {n : Nat} {f g : Func} {fs gs : List Func} : f.Alike L n g → InnerAlike L (n + 1) fs gs →
      InnerAlike L n (f :: fs) (g :: gs)

/-- Two states agree in all but lines and the name of the chunk, and lines are related. If `A` holds, the
functions under construction are the innermost ones. -/
structure GenState.Alike (L : View) (A : Prop) (s t : GenState) : Prop where
  line : L s.line t.line
  fn : s.fn.Alike L s.outer.length t.fn
  outer : OuterAlike L s.outer t.outer
  inner : InnerAlike L (s.outer.length + 1) s.inner t.inner
  innermost : A → s.inner = []

theorem GenState.Alike.isEmpty_inner {A : Prop} {s t : GenState} (h : s.Alike L A t) :
    s.inner.isEmpty = t.inner.isEmpty := by
  have hinner := h.inner
  generalize s.inner = fs at hinner
  generalize t.inner = gs at hinner
  cases hinner <;> rfl

/-- Both outcomes are failures that `E` relates, or both are results that `R` relates. -/
inductive Agree {ε α β : Type} (E : ε → ε → Prop) (R : α → β → Prop) : Except ε α → Except ε β → Prop
  | ok {a : α} {b : β} (h : R a b) : Agree E R (.ok a) (.ok b)
  | error {e e' : ε} (h : E e e') : Agree E R (.error e) (.error e')

namespace Agree

variable {ε α β : Type} {E : ε → ε → Prop} {R S : α → β → Prop} {x x' : Except ε α} {y y' : Except ε β}

theorem mono (h : Agree E R x y) (hR : ∀ a b, R a b → S a b) : Agree E S x y := by
  cases h with
  | ok h => exact .ok (hR _ _ h)
  | error h => exact .error h

theorem of_ok {a : α} (h : Agree E R (.ok a) y) : ∃ b, y = .ok b ∧ R a b := by
  cases h with
  | ok h => exact ⟨_, rfl, h⟩

theorem of_error {e : ε} (h : Agree E R (.error e) y) : ∃ e', y = .error e' ∧ E e e' := by
  cases h with
  | error h => exact ⟨_, rfl, h⟩

theorem ite {c : Prop} [Decidable c] (h : Agree E R x y) (h' : Agree E R x' y') :
    Agree E R (if c then x else x') (if c then y else y') := by
  split
  · exact h
  · exact h'

end Agree

/-- Both failures are errors in the source, on lines that `L` relates, or neither is. -/
def Failure.Alike (L : Int → Int → Prop) : Failure → Failure → Prop
  | .error e, .error e' => L e.line e'.line
  | .broken _, .broken _ => True
  | _, _ => False

namespace Gen

variable {α α' β β' : Type}

/-- From states that agree, both steps fail, or give results that `R` relates and states that
agree. -/
structure AlikeUpTo (L : View) (R : α → β → Prop) (m : Gen α) (m' : Gen β) : Prop where
  run {A : Prop} (s s' : GenState) : s.Alike L A s' →
    Agree (Failure.Alike L.lines) (fun r r' => R r.1 r'.1 ∧ r.2.Alike L A r'.2) (m s) (m' s')

/-- From states that agree, both steps fail, or give one result and states that agree. -/
def Alike (L : View) (m m' : Gen α) : Prop := AlikeUpTo L Eq m m'

abbrev Blind (L : View) (m : Gen α) : Prop := Alike L m m

/-! ## Steps in a row -/

theorem AlikeUpTo.bind_run {A : Prop} {S : α → α' → Prop} {R : β → β' → Prop} {m : Gen α} {m' : Gen α'}
    {k : α → Gen β} {k' : α' → Gen β'} {s s' : GenState} (h : AlikeUpTo L S m m') (hs : s.Alike L A s')
    (hk : ∀ a b t t', S a b → t.Alike L A t' →
      Agree (Failure.Alike L.lines) (fun r r' => R r.1 r'.1 ∧ r.2.Alike L A r'.2) (k a t) (k' b t')) :
    Agree (Failure.Alike L.lines) (fun r r' => R r.1 r'.1 ∧ r.2.Alike L A r'.2) ((m >>= k) s) ((m' >>= k') s') := by
  have hm := h.run s s' hs
  change Agree _ _ (Except.bind (m s) _) (Except.bind (m' s') _)
  generalize m s = r at hm ⊢
  generalize m' s' = r' at hm ⊢
  cases hm with
  | error he => exact .error he
  | ok hr => exact hk _ _ _ _ hr.1 hr.2

theorem AlikeUpTo.bind {S : α → α' → Prop} {R : β → β' → Prop} {m : Gen α} {m' : Gen α'}
    {k : α → Gen β} {k' : α' → Gen β'} (h : AlikeUpTo L S m m')
    (hk : ∀ a b, S a b → AlikeUpTo L R (k a) (k' b)) : AlikeUpTo L R (m >>= k) (m' >>= k') :=
  ⟨fun _ _ hs => h.bind_run hs fun a b t t' hab ht => (hk a b hab).run t t' ht⟩

@[simp] theorem Alike.bind {m m' : Gen α} {k k' : α → Gen β} (h : Alike L m m')
    (hk : ∀ a, Alike L (k a) (k' a)) : Alike L (m >>= k) (m' >>= k') :=
  AlikeUpTo.bind h fun a _ hab => hab ▸ hk a

@[simp] theorem alike_pure (a : α) : Blind L (pure a) :=
  ⟨fun _ _ hs => .ok ⟨rfl, hs⟩⟩

@[simp] theorem Alike.map {m m' : Gen α} (g : α → β) (h : Alike L m m') : Alike L (g <$> m) (g <$> m') := by
  exact .bind h fun a => alike_pure (g a)

@[simp] theorem alike_broken (i i' : Invariant) : Alike L (broken i : Gen α) (broken i') :=
  ⟨fun _ _ _ => .error trivial⟩

@[simp] theorem alike_error (c c' : Cause) : Alike L (error c : Gen α) (error c') :=
  ⟨fun _ _ hs => .error hs.line⟩

theorem alike_stopAt {f f' : SyntaxFault} (h : L f.line f'.line) : Alike L (stopAt f : Gen α) (stopAt f') :=
  ⟨fun _ _ _ => .error h⟩

@[simp] theorem Alike.ite {c : Prop} [Decidable c] {m1 m2 m1' m2' : Gen α} (h1 : Alike L m1 m1')
    (h2 : Alike L m2 m2') : Alike L (if c then m1 else m2) (if c then m1' else m2') := by
  split
  · exact h1
  · exact h2

@[simp] theorem alike_require (b : Bool) (i i' : Invariant) : Alike L (require b i) (require b i') := by
  cases b
  · exact ⟨fun _ _ _ => .error trivial⟩
  · exact alike_pure ()

theorem bind_get (k : GenState → Gen β) (s : GenState) : (get >>= k) s = k s s := rfl

theorem bind_getFn (k : Func → Gen β) (s : GenState) : (getFn >>= k) s = k s.fn s := rfl

theorem Alike.getFn {k k' : Func → Gen β} (hk : ∀ f g, k' (Func.withLines f g) = k' f)
    (h : ∀ f, Alike L (k f) (k' f)) : Alike L (getFn >>= k) (getFn >>= k') := by
  refine ⟨fun s s' hs => ?_⟩
  have hstep := (h s.fn).run s s' hs
  rw [← hk s.fn s'.fn, ← hs.fn.eq_withLines] at hstep
  exact hstep

theorem alikeUpTo_getFn : AlikeUpTo L (fun f f' => ∃ n, f.Alike L n f') getFn getFn :=
  ⟨fun _ _ hs => .ok ⟨⟨_, hs.fn⟩, hs⟩⟩

theorem Alike.getFn_of {k k' : Func → Gen β} (h : ∀ {n} f f', f.Alike L n f' → Alike L (k f) (k' f')) :
    Alike L (Gen.getFn >>= k) (Gen.getFn >>= k') :=
  AlikeUpTo.bind alikeUpTo_getFn (by rintro f f' ⟨n, hf⟩; exact h f f' hf)

theorem Alike.modify {h h' : GenState → GenState} (hh : ∀ {A} s s', s.Alike L A s' → (h s).Alike L A (h' s')) :
    Alike L (modify h) (modify h') :=
  ⟨fun _ _ hs => .ok ⟨rfl, hh _ _ hs⟩⟩

theorem Alike.modifyFn {h h' : Func → Func} (hh : ∀ {n} f f', f.Alike L n f' → (h f).Alike L n (h' f')) :
    Alike L (Gen.modifyFn h) (Gen.modifyFn h') :=
  .modify fun _ _ hs => { hs with fn := hh _ _ hs.fn }

@[simp] theorem alike_onLine {n n' : Int} (h : L n n') : Alike L (onLine n) (onLine n') :=
  .modify fun _ _ hs => { hs with line := h }

@[simp] theorem alike_firstFree : Blind L firstFree := by
  exact .getFn (fun _ _ => rfl) fun f => alike_pure _

@[simp] theorem alike_activeLocals : Blind L activeLocals := by
  exact .getFn (fun _ _ => rfl) fun f => alike_pure _

@[simp] theorem alike_place (i : Int) (n : Nat) : Blind L (place i n) := by
  unfold place
  simp

@[simp] theorem alike_limit (n max : Int) (what : Counted) : Blind L (limit n max what) := by
  refine .ite (.getFn_of fun f f' _ => ?_) (alike_pure ())
  exact alike_error _ _

/-! ## Instructions -/

@[simp] theorem alike_pc : Blind L pc := by
  exact .getFn (fun _ _ => rfl) fun f => alike_pure _

@[simp] theorem alike_emit (i : Instr) : Blind L (emit i) := by
  refine .getFn (fun _ _ => rfl) fun f => .bind (alike_require ..) fun _ => ?_
  refine .getFn (fun _ _ => rfl) fun f => .bind (.modify fun s s' hs => ?_) fun _ => alike_pure _
  exact { hs with fn := { hs.fn with code := by simp [hs.fn.code], lines := hs.fn.lines.push hs.line } }

@[simp] theorem alike_emitABC (op : Opcode) (a b c : Int) : Blind L (emitABC op a b c) := by
  iterate 4 refine .bind (alike_require ..) fun _ => ?_
  exact alike_emit _

@[simp] theorem alike_emitABx (op : Opcode) (a bx : Int) : Blind L (emitABx op a bx) := by
  iterate 2 refine .bind (alike_require ..) fun _ => ?_
  exact alike_emit _

@[simp] theorem alike_emitAsBx (op : Opcode) (a sbx : Int) : Blind L (emitAsBx op a sbx) :=
  alike_emitABx ..

@[simp] theorem alike_emitExtra (ax : Int) : Blind L (emitExtra ax) := by
  unfold emitExtra
  simp

@[simp] theorem alike_emitConstant (reg k : Int) : Blind L (emitConstant reg k) := by
  refine .ite (alike_emitABx ..) (.bind (alike_emitABx ..) fun _ => ?_)
  simp

@[simp] theorem alike_instrAt (pc : Int) : Blind L (instrAt pc) := by
  refine .getFn (fun _ _ => rfl) fun f => .bind (alike_place ..) fun n => ?_
  cases f.code[n]? <;> simp

@[simp] theorem alike_updateInstr (pc : Int) (h : Instr → Instr) : Blind L (updateInstr pc h) := by
  refine .getFn (fun _ _ => rfl) fun f => .bind (alike_place ..) fun n => .modifyFn fun f f' hf => ?_
  exact { hf with code := by simp [hf.code] }

@[simp] theorem alike_moveLastToLine {line line' : Int} (h : L line line') :
    Alike L (moveLastToLine line) (moveLastToLine line') := by
  refine .getFn_of fun f f' hf => .getFn_of fun g g' hg => ?_
  rw [hf.lines.size, hg.lines.size]
  refine .bind (alike_place ..) fun n => .modifyFn fun f f' hf => ?_
  exact { hf with lines := hf.lines.modify h n }

@[simp] theorem alike_dropLastInstr : Blind L dropLastInstr := by
  refine .getFn (fun _ _ => rfl) fun f => .getFn (fun _ _ => rfl) fun g => ?_
  refine .bind (alike_place ..) fun n => .modifyFn fun f f' hf => ?_
  exact { hf with code := by simp [hf.code], lines := hf.lines.pop }

@[simp] theorem alike_label : Blind L label := by
  exact .bind alike_pc fun n => .bind (.modifyFn fun f f' hf => { hf with lastTarget := rfl }) fun _ => alike_pure _

@[simp] theorem alike_emitNils (first n : Int) : Blind L (emitNils first n) := by
  have hload : Blind L (do let _ ← emitABC .loadNil first (n - 1) 0) := by
    simp
  refine .bind alike_pc fun at_ => .getFn (fun _ _ => rfl) fun f => ?_
  exact .ite (.bind (alike_instrAt _) fun before => .ite (alike_updateInstr ..) hload) hload

@[simp] theorem alike_ret (first n : Int) : Blind L (ret first n) := by
  unfold ret
  simp

@[simp] theorem alike_setFree (n : Int) :
    Blind L (modifyFn fun f => { f with free := n }) :=
  .modifyFn fun _ _ hf => { hf with free := rfl }

@[simp] theorem alike_storeItems (base count n : Int) : Blind L (storeItems base count n) := by
  refine .bind (alike_require ..) fun _ => ?_
  refine .ite ?_ (.ite ?_ ?_) <;> simp

/-! ## Registers, constants and local variables -/

@[simp] theorem alike_ensureRegisters (n : Int) : Blind L (ensureRegisters n) := by
  refine .getFn (fun _ _ => rfl) fun f => .getFn (fun _ _ => rfl) fun g => .ite ?_ (alike_pure ())
  have hgrow (top : Int) : Blind L (modifyFn fun f => { f with stack := top }) :=
    .modifyFn fun _ _ hf => { hf with stack := rfl }
  split_ifs <;> simp [hgrow]

@[simp] theorem alike_reserve (n : Int) : Blind L (reserve n) := by
  refine .bind (alike_ensureRegisters n) fun _ => .modifyFn fun f f' hf => ?_
  exact { hf with free := by rw [hf.free] }

@[simp] theorem alike_releaseRegister (reg : Int) : Blind L (releaseRegister reg) := by
  refine .getFn (fun _ _ => rfl) fun f => .ite (.bind (.modifyFn fun f f' hf => ?_) fun _ => ?_) (alike_pure ())
  · exact { hf with free := by rw [hf.free] }
  · exact .getFn (fun _ _ => rfl) fun f => alike_require ..

@[simp] theorem alike_releaseOperand (e : Operand) : Blind L (releaseOperand e) := by
  unfold releaseOperand
  cases e.kind <;> simp

theorem run_internConstant (v : Constant) (s : GenState) : internConstant v s =
    match s.fn.constantPlaces[v.key]? with
    | some k => .ok (k, s)
    | none => (limit (s.fn.constants.size + 1) maxConstants .constants s).map fun _ =>
      (s.fn.constants.size, { s with fn := { s.fn with
        constantPlaces := s.fn.constantPlaces.insert v.key s.fn.constants.size
        constants := s.fn.constants.push v } }) := by
  unfold internConstant
  rw [bind_getFn]
  cases s.fn.constantPlaces[v.key]? with
  | some k => rfl
  | none =>
    change Except.bind (limit (s.fn.constants.size + 1) maxConstants .constants s) _ = _
    unfold limit
    split <;> rfl

@[simp] theorem alike_internConstant (v : Constant) : Blind L (internConstant v) := by
  refine ⟨fun s s' hs => ?_⟩
  have hplaces := hs.fn.constantPlaces
  have hconstants := hs.fn.constants
  rw [run_internConstant, run_internConstant, ← hplaces, ← hconstants]
  cases hk : s.fn.constantPlaces[v.key]? with
  | some k => exact .ok ⟨rfl, hs⟩
  | none =>
    have hlimit := (alike_limit (L := L) (s.fn.constants.size + 1) maxConstants .constants).run s s' hs
    generalize limit _ _ _ s = r at hlimit ⊢
    generalize limit _ _ _ s' = r' at hlimit ⊢
    cases hlimit with
    | error he => exact .error he
    | ok _ =>
      refine .ok ⟨rfl, { hs with fn := { hs.fn with constants := ?_, constantPlaces := ?_, table := ?_ } }⟩
      · rfl
      · rfl
      · exact L.intern hs.fn.table hk

@[simp] theorem alike_stringOperand (t : Bytes) : Blind L (stringOperand t) := by
  unfold stringOperand
  simp

@[simp] theorem alike_newLocal (name : Bytes) : Blind L (newLocal name) := by
  refine .getFn (fun _ _ => rfl) fun f => .bind (alike_limit ..) fun _ => .getFn (fun _ _ => rfl) fun g => .modifyFn fun f f' hf => ?_
  exact { hf with declared := by rw [hf.declared], locals := by rw [hf.locals] }

@[simp] theorem alike_localAt (reg : Int) : Blind L (localAt reg) := by
  refine .getFn (fun _ _ => rfl) fun f => .bind (alike_place ..) fun n => ?_
  cases f.declared[n]?.bind fun k => f.locals[k]? <;> simp

@[simp] theorem alike_updateLocal (reg : Int) (h : LocalVar → LocalVar) : Blind L (updateLocal reg h) := by
  refine .getFn (fun _ _ => rfl) fun f => .bind (alike_place ..) fun n => .modifyFn fun f f' hf => ?_
  have hplace : f.declared[n]? = f'.declared[n]? := by rw [hf.declared]
  cases hk : f'.declared[n]? with
  | none =>
    simp only [hplace, hk]
    exact hf
  | some k =>
    simp only [hplace, hk]
    exact { hf with locals := by rw [hf.locals] }

@[simp] theorem alike_startLocals (pc : Int) (n : Nat) (reg : Int) : Blind L (startLocals pc n reg) := by
  induction n generalizing reg with
  | zero => exact alike_pure ()
  | succ n ih => exact .bind (alike_updateLocal ..) fun _ => ih _

@[simp] theorem alike_activate (n : Int) : Blind L (activate n) := by
  refine .bind alike_activeLocals fun first => .bind (.modifyFn fun f f' hf => ?_) fun _ => ?_
  · exact { hf with active := rfl }
  · simp

@[simp] theorem alike_endLocals (pc : Int) (n : Nat) : Blind L (endLocals pc n) := by
  induction n with
  | zero => exact alike_pure ()
  | succ n ih =>
    refine .bind (.modifyFn fun f f' hf => ?_) fun _ => .getFn (fun _ _ => rfl) fun f => .bind (alike_updateLocal ..) fun _ => ih
    exact { hf with active := by rw [hf.active] }

@[simp] theorem alike_deactivate (level : Int) : Blind L (deactivate level) := by
  refine .bind alike_pc fun here => .getFn (fun _ _ => rfl) fun f => .bind (alike_endLocals ..) fun _ => .modifyFn fun f f' hf => ?_
  exact { hf with declared := by rw [hf.declared] }

/-! ## Jumps -/

@[simp] theorem alike_nextJump (pc : Int) : Blind L (nextJump pc) := by
  unfold nextJump
  simp

@[simp] theorem alike_chainBound : Blind L chainBound := by
  exact .getFn (fun _ _ => rfl) fun f => alike_pure _

@[simp] theorem alike_setTarget (pc target : Int) : Blind L (setTarget pc target) := by
  refine .bind (alike_require ..) fun _ => ?_
  refine .ite ?_ ?_ <;> simp

@[simp] theorem alike_lastJump (pc : Int) : Blind L (lastJump pc) := by
  refine .getFn (fun _ _ => rfl) fun f => ?_
  dsimp only
  cases lastJumpIn f.code (f.code.size + 1) pc <;> simp

@[simp] theorem alike_concat (l1 l2 : JumpList) : Blind L (concat l1 l2) := by
  unfold concat
  rcases l1 with ⟨_ | h1⟩ <;> rcases l2 with ⟨_ | h2⟩ <;> simp

@[simp] theorem alike_jump : Blind L jump := by
  unfold jump
  simp

@[simp] theorem alike_testJump (op : Opcode) (a b c : Int) : Blind L (testJump op a b c) := by
  unfold testJump
  simp

@[simp] theorem alike_decidingPlace (pc : Int) : Blind L (decidingPlace pc) := by
  refine .ite (.bind (alike_instrAt _) fun i => ?_) (alike_pure _)
  cases i.op? <;> simp

@[simp] theorem alike_wantsValueFrom (n : Nat) (l : JumpList) : Blind L (wantsValueFrom n l) := by
  induction n generalizing l with
  | zero => exact alike_broken ..
  | succ n ih =>
    rcases l with ⟨_ | pc⟩
    · exact alike_pure _
    · refine .bind (alike_decidingPlace pc) fun p => .bind (alike_instrAt p) fun i => ?_
      simp [ih]

@[simp] theorem alike_wantsValue (l : JumpList) : Blind L (wantsValue l) := by
  unfold wantsValue
  simp

@[simp] theorem alike_patchTest (pc reg : Int) : Blind L (patchTest pc reg) := by
  refine .bind (alike_decidingPlace pc) fun p => .bind (alike_instrAt p) fun i => ?_
  split_ifs <;> simp

@[simp] theorem alike_dropValuesFrom (n : Nat) (l : JumpList) : Blind L (dropValuesFrom n l) := by
  induction n generalizing l with
  | zero => exact alike_broken ..
  | succ n ih =>
    rcases l with ⟨_ | pc⟩
    · exact alike_pure _
    · exact .bind (alike_patchTest ..) fun _ => .bind (alike_nextJump pc) fun rest => ih rest

@[simp] theorem alike_dropValues (l : JumpList) : Blind L (dropValues l) := by
  unfold dropValues
  simp

@[simp] theorem alike_patchFrom (withValue reg without : Int) (n : Nat) (l : JumpList) :
    Blind L (patchFrom withValue reg without n l) := by
  induction n generalizing l with
  | zero => exact alike_broken ..
  | succ n ih =>
    rcases l with ⟨_ | pc⟩
    · exact alike_pure _
    · refine .bind (alike_nextJump pc) fun rest => .bind (alike_patchTest ..) fun stores => ?_
      cases stores <;> simp [ih]

@[simp] theorem alike_patchValues (l : JumpList) (withValue reg without : Int) :
    Blind L (patchValues l withValue reg without) := by
  unfold patchValues
  simp

@[simp] theorem alike_setPending (l : JumpList) :
    Blind L (modifyFn fun f => { f with pending := l }) :=
  .modifyFn fun _ _ hf => { hf with pending := rfl }

@[simp] theorem alike_resolvePending : Blind L resolvePending := by
  refine .getFn (fun _ _ => rfl) fun f => .ite (.bind alike_pc fun here => ?_) (alike_pure ())
  simp

@[simp] theorem alike_aimHere (l : JumpList) : Blind L (aimHere l) := by
  refine .bind alike_label fun _ => .getFn (fun _ _ => rfl) fun f => .bind (alike_concat ..) fun all => ?_
  simp

@[simp] theorem alike_aimAt (l : JumpList) (target : Int) : Blind L (aimAt l target) := by
  refine .bind alike_pc fun here => ?_
  split_ifs <;> simp

@[simp] theorem alike_jumpBackTo (target : Int) : Blind L (jumpBackTo target) := by
  unfold jumpBackTo
  simp

@[simp] theorem alike_patchCloseFrom (level : Int) (n : Nat) (l : JumpList) : Blind L (patchCloseFrom level n l) := by
  induction n generalizing l with
  | zero => exact alike_broken ..
  | succ n ih =>
    rcases l with ⟨_ | pc⟩
    · exact alike_pure _
    · refine .bind (alike_nextJump pc) fun rest => .bind (alike_instrAt pc) fun i => ?_
      exact .bind (alike_require ..) fun _ => .bind (alike_updateInstr ..) fun _ => ih rest

@[simp] theorem alike_closeOnJump (l : JumpList) (level : Int) : Blind L (closeOnJump l level) := by
  unfold closeOnJump
  simp

@[simp] theorem alike_listHead (l : JumpList) : Blind L (listHead l) := by
  unfold listHead
  rcases l with ⟨_ | pc⟩ <;> simp

end Gen

end RegisterCompiler
