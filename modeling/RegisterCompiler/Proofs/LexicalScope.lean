import Mathlib.Order.Bounds.Basic
import RegisterCompiler.Proofs.Compiled

/-!
# Lexical scope

* `Func.Binds`, `Bound` : the innermost local variable of a name, in a function and in the functions
  around it;
* `Designates` : an operand stands for the variable that a name is bound to, or for the environment;
* `Lexical` : a name is resolved by the rules of lexical scope. `Gen.namedVariable_lexical` says that
  all names are, in states that are in order;
* `Occurs`, `compile_names_lexical` : so are all names that are resolved while a source is compiled.
-/

namespace RegisterCompiler

open Gen

/-! ## What a name is bound to -/

/-- Register `r` holds the innermost local variable called `name` that is active in the function. -/
def Func.Binds (f : Func) (name : Bytes) (r : Nat) : Prop :=
  IsGreatest {k : Nat | (k : Int) < f.active ∧ f.nameOfLocal? k = some name} r

/-- Of the functions, the nearest first, the one at `depth` is the first with an active local variable
called `name`, and its innermost one is in register `r`. -/
inductive Bound (name : Bytes) : List Func → (depth r : Nat) → Prop
  | here {f : Func} {fs : List Func} {r : Nat} (h : f.Binds name r) : Bound name (f :: fs) 0 r
  | around {f : Func} {fs : List Func} {depth r : Nat} (hf : ∀ k, ¬ f.Binds name k) (h : Bound name fs depth r) :
    Bound name (f :: fs) (depth + 1) r

variable {f : Func} {name : Bytes}

theorem Func.findLocalBelow_eq_none {n k : Nat} (h : f.findLocalBelow name n = none)
    (hk : k < n) : f.nameOfLocal? k ≠ some name := by
  induction n with
  | zero => omega
  | succ n ih =>
    simp only [findLocalBelow] at h
    split at h
    · cases h
    · rename_i hname
      rcases Nat.lt_succ_iff_lt_or_eq.1 hk with hk | rfl
      · exact ih h hk
      · exact hname

theorem Func.findLocalBelow_last {n r k : Nat} (h : f.findLocalBelow name n = some r)
    (hk : k < n) (hname : f.nameOfLocal? k = some name) : k ≤ r := by
  induction n with
  | zero => omega
  | succ n ih =>
    simp only [findLocalBelow] at h
    split at h
    · cases h
      omega
    · rename_i hn
      rcases Nat.lt_succ_iff_lt_or_eq.1 hk with hk | rfl
      · exact ih h hk
      · exact absurd hname hn

theorem Func.findLocal?_eq_some_iff {r : Nat} : f.findLocal? name = some r ↔ f.Binds name r := by
  have hbinds {r : Nat} (h : f.findLocal? name = some r) : f.Binds name r := by
    obtain ⟨hlt, v, hv, hname⟩ := findLocal?_eq_some h
    have hlocal : f.nameOfLocal? r = some name := hname ▸ congrArg (Option.map LocalVar.name) hv
    refine ⟨⟨hlt, hlocal⟩, fun k hk => ?_⟩
    exact findLocalBelow_last h (by have := hk.1; omega) hk.2
  refine ⟨hbinds, fun h => ?_⟩
  cases hfind : f.findLocal? name with
  | some k => rw [(hbinds hfind).unique h]
  | none =>
    have hlt := h.1.1
    exact absurd h.1.2 (findLocalBelow_eq_none hfind (by omega))

theorem Func.findLocal?_eq_none_iff : f.findLocal? name = none ↔ ∀ r, ¬ f.Binds name r := by
  simp only [← findLocal?_eq_some_iff]
  cases f.findLocal? name <;> simp

namespace Bound

variable {name : Bytes} {f g : Func} {fs gs : List Func} {d d' r r' : Nat}

theorem unique (h : Bound name fs d r) (h' : Bound name fs d' r') : d = d' ∧ r = r' := by
  induction h generalizing d' with
  | here hf =>
    cases h' with
    | here hf' => exact ⟨rfl, hf.unique hf'⟩
    | around hnone => exact absurd hf (hnone _)
  | around hnone _ ih =>
    cases h' with
    | here hf' => exact absurd hf' (hnone _)
    | around _ h' =>
      obtain ⟨rfl, rfl⟩ := ih h'
      exact ⟨rfl, rfl⟩

theorem false_of_findLocal? (h : Bound name fs d r) (hnone : ∀ f ∈ fs, f.findLocal? name = none) : False := by
  induction h with
  | here hf => exact Func.findLocal?_eq_none_iff.1 (hnone _ (List.mem_cons_self ..)) _ hf
  | around _ _ ih => exact ih fun f hf => hnone f (List.mem_cons_of_mem _ hf)

theorem of_forall₂ (h : List.Forall₂ (fun f g => f.findLocal? name = g.findLocal? name) fs gs)
    (hfs : Bound name fs d r) : Bound name gs d r := by
  induction hfs generalizing gs with
  | here hf =>
    cases h with
    | cons hfg _ => exact .here (Func.findLocal?_eq_some_iff.1 (hfg ▸ Func.findLocal?_eq_some_iff.2 hf))
  | around hnone _ ih =>
    cases h with
    | cons hfg hrest =>
      exact .around (Func.findLocal?_eq_none_iff.1 (hfg ▸ Func.findLocal?_eq_none_iff.2 hnone)) (ih hrest)

end Bound

/-! ## What an upvalue stands for -/

inductive Home where
  /-- In a register of the function at `depth`, where 0 is the function itself. -/
  | register (depth : Nat) (r : Int)
  | upvalue (i : Nat)
deriving DecidableEq

def Home.inner : Home → Home
  | .register depth r => .register (depth + 1) r
  | .upvalue i => .upvalue i

/-- The place that upvalue `i` of a function inside the functions `outer` stands for. -/
def Func.homeOf (f : Func) : (outer : List Func) → (i : Nat) → Option Home
  | [], i => f.upvalues[i]?.map fun _ => .upvalue i
  | g :: outer, i =>
    match f.upvalues[i]? with
    | none => none
    | some u => if u.isLocal then some (.register 1 u.index) else (g.homeOf outer u.index.toNat).map .inner

/-- An upvalue leads to what its name is bound to outside the function, or else to the first upvalue of
the outermost function. -/
theorem Linked.homeOf {outer : List Func} {i : Nat} {u : Upvalue} (h : Linked f outer) (hu : f.upvalues[i]? = some u) :
    (∃ d r, Bound u.name outer d r ∧ f.homeOf outer i = some (.register (d + 1) r)) ∨
      (∀ d r, ¬ Bound u.name outer d r) ∧ u.name = envName ∧ f.homeOf outer i = some (.upvalue 0) := by
  induction outer generalizing f i u with
  | nil =>
    have hup : f.upvalues = #[⟨envName, true, 0⟩] := h
    obtain rfl : i = 0 := by
      have hlt := lt_size_of_some hu
      rw [hup] at hlt
      simpa using hlt
    refine .inr ⟨fun d r hb => (by cases hb), ?_, by rw [Func.homeOf, hu, Option.map_some]⟩
    rw [hup] at hu
    exact (congrArg Upvalue.name (Option.some.inj hu)).symm
  | cons g outer ih =>
    obtain ⟨-, hlinks, hg⟩ := h
    have hlink := hlinks u (Array.mem_of_getElem? hu)
    rw [Func.homeOf, hu]
    dsimp only
    unfold Upvalue.LinksTo at hlink
    split at hlink
    · rename_i hlocal
      obtain ⟨r, hr, hfind, -⟩ := hlink
      refine .inl ⟨0, r, .here (Func.findLocal?_eq_some_iff.1 hfind), ?_⟩
      rw [if_pos hlocal, hr]
    · rename_i hlocal
      obtain ⟨k, hk, hfind, v, hv, hname⟩ := hlink
      have hnone := Func.findLocal?_eq_none_iff.1 hfind
      rw [if_neg hlocal, hk, Int.toNat_natCast]
      rcases ih hg hv with ⟨d, r, hb, hf⟩ | ⟨hb, henv, hf⟩
      · refine .inl ⟨d + 1, r, .around hnone (hname ▸ hb), ?_⟩
        rw [hf]
        rfl
      · refine .inr ⟨fun d r hb' => ?_, hname ▸ henv, ?_⟩
        · cases hb' with
          | here h => exact hnone _ h
          | around _ h => exact hb _ _ (hname ▸ h)
        · rw [hf]
          rfl

/-! ## Names that are resolved -/

/-- In the state `t`, in which names are bound as in `s`, the operand stands for what the name is bound to:
a local variable of the function, or an upvalue that leads to one of a function around it. A name that
is bound to nothing is that of the environment, and an upvalue leads to the first upvalue of the
outermost function. -/
structure Designates (name : Bytes) (s : GenState) (e : Operand) (t : GenState) : Prop where
  inside (r : Nat) : Bound name (s.fn :: s.outer) 0 r → e = .plain .local r
  outside (d r : Nat) : Bound name (s.fn :: s.outer) (d + 1) r →
    ∃ i : Nat, e = .plain .upvalue i ∧ t.fn.homeOf t.outer i = some (.register (d + 1) r)
  nowhere : (∀ d r, ¬ Bound name (s.fn :: s.outer) d r) → name = envName ∧
    ∃ i : Nat, e = .plain .upvalue i ∧ t.fn.homeOf t.outer i = some (.upvalue 0)

def loadConstant (r : Int) (n : Nat) : List Instr :=
  if (n : Int) ≤ maxBx then [.abx Opcode.loadK.code r n] else [.abx Opcode.loadKX.code r 0, .ofAx Opcode.extraArg.code n]

/-- In the state `t` the operand is the field called `name` of what `env` stands for. The key is a
constant, or the first register that was free in `s`, into which the constant has been loaded. -/
def FieldOf (env : Operand) (name : Bytes) (s : GenState) (e : Operand) (t : GenState) : Prop :=
  ∃ (n : Nat) (key : Int), e = .plain (.indexed (env.kind == .upvalue) key) env.info ∧
    t.fn.constants[n]? = some (.string name) ∧
    if (n : Int) ≤ maxIndexRK then key = asConstantRK n ∧ t.fn.code = s.fn.code
    else key = s.fn.free ∧ t.fn.code.toList = s.fn.code.toList ++ loadConstant key n

/-- A name is resolved in the state `s` by the rules of lexical scope: it stands for the variable that it
is bound to, or else for a field of the environment. -/
def Lexical (name : Bytes) (s : GenState) : Prop :=
  (namedVariable name).Ensures s fun e t =>
    ((∃ d r, Bound name (s.fn :: s.outer) d r) ∨ name = envName → Designates name s e t) ∧
      ((∀ d r, ¬ Bound name (s.fn :: s.outer) d r) → name ≠ envName →
        ∃ env, Designates envName s env t ∧ FieldOf env name s e t)

section Resolved
variable {name : Bytes} {s t : GenState} {H : Set Nat}

def SameLocals (s t : GenState) : Prop :=
  ∀ name : Bytes, List.Forall₂ (fun f g => f.findLocal? name = g.findLocal? name) (s.fn :: s.outer) (t.fn :: t.outer)

theorem SameLocals.refl (s : GenState) : SameLocals s s :=
  fun _ => List.forall₂_same.2 fun _ _ => rfl

theorem SameLocals.bound_iff (h : SameLocals s t) {d r : Nat} :
    Bound name (s.fn :: s.outer) d r ↔ Bound name (t.fn :: t.outer) d r :=
  ⟨.of_forall₂ (h name), .of_forall₂ ((h name).flip.imp fun _ _ hgf => hgf.symm)⟩

theorem Resolved.sameLocals {i : Option Nat} (h : Resolved name s.fn s.outer i t.fn t.outer) : SameLocals s t := by
  intro name'
  exact .cons (h.captured.findLocal? name').symm (h.outer.imp fun f g hfg => (hfg.findLocal? name').symm)

theorem Resolved.designates {i : Nat} (h : Resolved name s.fn s.outer (some i) t.fn t.outer)
    (hlocal : s.fn.findLocal? name = none) : Designates name s (.plain .upvalue i) t := by
  have hnone := Func.findLocal?_eq_none_iff.1 (h.captured.findLocal? name ▸ hlocal)
  obtain ⟨u, hu, rfl⟩ := h.found i rfl
  rcases h.env.homeOf hu with ⟨d, r, hb, hhome⟩ | ⟨hb, henv, hhome⟩
  · have hbound := h.sameLocals.bound_iff.2 (Bound.around hnone hb)
    refine ⟨fun k hk => ?_, fun d' r' hb' => ?_, fun hb' => absurd hbound (hb' _ _)⟩
    · cases (hbound.unique hk).1
    · obtain ⟨hd, rfl⟩ := hbound.unique hb'
      obtain rfl := Nat.succ.inj hd
      exact ⟨i, rfl, hhome⟩
  · have hfree (d r : Nat) : ¬ Bound u.name (s.fn :: s.outer) d r := by
      intro hb'
      cases h.sameLocals.bound_iff.1 hb' with
      | here h' => exact hnone _ h'
      | around _ h' => exact hb _ _ h'
    exact ⟨fun k hk => absurd hk (hfree _ _), fun d r hb' => absurd hb' (hfree _ _), fun _ => ⟨henv, i, rfl, hhome⟩⟩

theorem Gen.localOrUpvalue_designates (h : s.Ok H) (hname : ¬ IsHidden name) :
    (localOrUpvalue name).Ensures s fun r t => SameLocals s t ∧ t.fn.code = s.fn.code ∧
      (∀ e, r = some e → Designates name s e t) ∧
      (r = none → name ≠ envName ∧ ∀ d r, ¬ Bound name (s.fn :: s.outer) d r) := by
  unfold localOrUpvalue
  simp only [ensures_bind, ensures_getFn]
  rw [ensures_require (by simpa using h.fn.active.2)]
  cases hfind : s.fn.findLocal? name with
  | some reg =>
    have hbound : Bound name (s.fn :: s.outer) 0 reg := .here (Func.findLocal?_eq_some_iff.1 hfind)
    refine ⟨.refl s, rfl, fun e he => ?_, by simp⟩
    cases he
    refine ⟨fun r hr => by rw [(hbound.unique hr).2], fun d r hr => ?_, fun hb => absurd hbound (hb _ _)⟩
    cases (hbound.unique hr).1
  | none =>
    refine .bind (makeUpvalue_spec h hname) ?_
    rintro r t ⟨-, -, -, hres⟩
    have hcode : t.fn.code = s.fn.code := by rw [hres.fn]
    cases r with
    | some i =>
      refine ⟨hres.sameLocals, hcode, fun e he => ?_, by simp⟩
      cases he
      exact hres.designates hfind
    | none =>
      obtain ⟨henv, houter⟩ := hres.missing rfl
      have hfn : t.fn.findLocal? name = none := (hres.captured.findLocal? name).trans hfind
      refine ⟨hres.sameLocals, hcode, by simp, fun _ => ⟨henv, fun d r hb => ?_⟩⟩
      exact (hres.sameLocals.bound_iff.1 hb).false_of_findLocal? (List.forall_mem_cons.2 ⟨hfn, houter⟩)

theorem Gen.stringOperand_place (h : s.Ok H) :
    (stringOperand name).Ensures s fun k t => t.Ok H ∧ t = s.withConstants t.fn.constants t.fn.constantPlaces ∧
      ∃ n : Nat, k = .plain .constant n ∧ t.fn.constants[n]? = some (.string name) := by
  refine .bind (internConstant_spec h rfl) ?_
  rintro _ t ⟨hok, -, ht, n, rfl, -, hc⟩
  exact ⟨hok, ht, n, rfl, hc⟩

theorem Gen.toRK_constant (hopen : s.fn.isClosed = false) (hstack : s.fn.stack ≤ 249) {n : Nat}
    (hn : (n : Int) ≤ maxAx) :
    (toRK (.plain .constant n)).Ensures s fun r t => t.fn.upvalues = s.fn.upvalues ∧ t.outer = s.outer ∧
      t.fn.constants = s.fn.constants ∧
      if (n : Int) ≤ maxIndexRK then r.2 = asConstantRK n ∧ t.fn.code = s.fn.code
      else r.2 = s.fn.free ∧ t.fn.code.toList = s.fn.code.toList ++ loadConstant r.2 n := by
  change (if (n : Int) ≤ maxIndexRK then pure (Operand.plain .constant n, asConstantRK n)
    else registerRK (.plain .constant n) : Gen (Operand × Int)).Ensures s _
  split
  · exact ⟨rfl, rfl, rfl, rfl, rfl⟩
  · change ((do
        reserve 1
        toRegister (.plain .constant n) ((← getFn).free - 1)) >>= fun e => pure (e, e.info) :
      Gen (Operand × Int)).Ensures s _
    rw [ensures_bind, ensures_bind, ensures_reserve hstack]
    intro _
    have hfree : (s.reserved 1).fn.free - 1 = s.fn.free := Int.add_sub_cancel ..
    rw [ensures_bind, ensures_getFn, hfree]
    unfold toRegister
    rw [ensures_bind]
    change ((emitConstant s.fn.free n >>= fun _ => pure (.plain .nonRelocatable s.fn.free)) :
      Gen Operand).Ensures (s.reserved 1) _
    have hopen' : (s.reserved 1).fn.isClosed = false := hopen
    rw [ensures_bind, ensures_emitConstant hopen' ⟨Int.natCast_nonneg n, hn⟩, ensures_pure]
    unfold GenState.pushConstant loadConstant
    split
    · exact ⟨rfl, rfl, rfl, rfl, Array.toList_push⟩
    · refine ⟨rfl, rfl, rfl, rfl, ?_⟩
      change ((s.fn.code.push _).push _).toList = _
      rw [Array.toList_push, Array.toList_push, List.append_assoc]
      rfl

theorem Designates.congr {e : Operand} {s' t' : GenState} (h : Designates name s' e t') (hs : SameLocals s s')
    (hup : t.fn.upvalues = t'.fn.upvalues) (houter : t.outer = t'.outer) : Designates name s e t := by
  have hhome (i : Nat) : t.fn.homeOf t.outer i = t'.fn.homeOf t'.outer i := by
    rw [houter]
    cases t'.outer <;> rw [Func.homeOf, Func.homeOf, hup]
  constructor
  · intro r hr
    exact h.inside r (hs.bound_iff.1 hr)
  · intro d r hr
    obtain ⟨i, hi⟩ := h.outside d r (hs.bound_iff.1 hr)
    exact ⟨i, hi.1, (hhome i).trans hi.2⟩
  · intro hb
    obtain ⟨henv, i, hi⟩ := h.nowhere fun d r hr => hb d r (hs.bound_iff.2 hr)
    exact ⟨henv, i, hi.1, (hhome i).trans hi.2⟩

theorem Gen.indexed_constant {env : Operand} {n : Nat} (h : s.Ok H) (henv : IsNamed s.fn env)
    (hn : s.fn.constants[n]? = some (.string name)) :
    (indexed env (.plain .constant n)).Ensures s fun e t => t.fn.upvalues = s.fn.upvalues ∧ t.outer = s.outer ∧
      FieldOf env name s e t := by
  have hmax : (n : Int) ≤ maxAx := by
    have hlt := lt_size_of_some hn
    have hsize := h.fn.constants
    simp only [maxConstants, maxAx] at hsize ⊢
    omega
  have hkey := toRK_constant h.fn.isOpen h.fn.stack.2 hmax
  have hjumps : (!env.carriesJumps) = true := by
    rcases henv with ⟨reg, rfl, -⟩ | ⟨i, rfl, -⟩ <;> simp [Operand.plain, Operand.carriesJumps]
  unfold indexed
  rw [ensures_bind, ensures_require hjumps]
  refine .bind hkey ?_
  rintro ⟨k, key⟩ t ⟨hup, houter, hconstants, hloads⟩
  rcases henv with ⟨reg, rfl, -⟩ | ⟨i, rfl, -⟩ <;> exact ⟨hup, houter, n, key, rfl, hconstants ▸ hn, hloads⟩

theorem Gen.namedVariable_lexical (h : s.Ok H) (hname : ¬ IsHidden name) : Lexical name s := by
  refine .bind ((localOrUpvalue_designates h hname).and (localOrUpvalue_spec h hname)) ?_
  rintro r s1 ⟨⟨hsame1, hcode1, hsome1, hnone1⟩, hok1, -, hfree1, -, -⟩
  cases r with
  | some e =>
    have he := hsome1 e rfl
    exact ⟨fun _ => he, fun hb henv => absurd (he.nowhere hb).1 henv⟩
  | none =>
    obtain ⟨henv, hb⟩ := hnone1 rfl
    simp only [ensures_bind]
    rw [ensures_require (by simpa using henv)]
    refine ((localOrUpvalue_designates hok1 not_isHidden_envName).and
      (localOrUpvalue_spec hok1 not_isHidden_envName)).mono ?_
    rintro r s2 ⟨⟨-, hcode2, hsome2, hnone2⟩, hok2, -, hfree2, hnamed2, -⟩
    cases r with
    | none => exact absurd rfl (hnone2 rfl).1
    | some env =>
      refine .bind (stringOperand_place hok2) ?_
      rintro _ s3 ⟨hok3, hs3, n, rfl, hn⟩
      refine (indexed_constant hok3 (hs3 ▸ hnamed2 env rfl) hn).mono ?_
      rintro e t ⟨hup, houter, hfield⟩
      refine ⟨fun hor => ?_, fun _ _ => ⟨env, ?_, ?_⟩⟩
      · rcases hor with ⟨d, r, hbound⟩ | heq
        · exact absurd hbound (hb d r)
        · exact absurd heq henv
      · refine (hsome2 env rfl).congr hsame1 (hup.trans ?_) (houter.trans ?_)
        · rw [hs3]
          rfl
        · rw [hs3]
          rfl
      · have hcode : s3.fn.code = s.fn.code := by
          rw [hs3]
          exact hcode2.trans hcode1
        have hfree : s3.fn.free = s.fn.free := by
          rw [hs3]
          exact hfree2.trans hfree1
        unfold FieldOf at hfield ⊢
        rwa [hcode, hfree] at hfield

end Resolved

/-! ## Every name of a source -/

def Failure.IsOn (line : Nat) : Failure → Prop
  | .error e => e.line = line
  | .broken _ => False

section Runs
variable {α : Type} {m m' : Gen α} {halted : Nat → Gen α} {s : GenState} {Q Q' : α → GenState → Prop}

/-- A run ends as all the halted runs do, or else each of these stops where it was halted. -/
theorem Tracks.halted_cases (h : ∀ line, Tracks (Failure.IsOn line) m (halted line) s Q) :
    (∀ line, halted line s = m s) ∨
      m s = .error (.broken .noTemporaries) ∧ ∀ line, ∃ e, halted line s = .error e ∧ e.IsOn line := by
  unfold Tracks at h
  cases hm : m s with
  | ok r =>
    simp only [hm] at h
    exact .inl fun line => (h line).1
  | error e =>
    cases e with
    | error e =>
      simp only [hm] at h
      exact .inl h
    | broken i =>
      simp only [hm] at h
      obtain rfl := (h 0).1
      exact .inr ⟨rfl, fun line => (h line).2⟩

theorem Tracks.eq_of_halted (h : ∀ line, Tracks (Failure.IsOn line) m (halted line) s Q)
    (h' : ∀ line, Tracks (Failure.IsOn line) m' (halted line) s Q') : m s = m' s := by
  -- halted runs that stop on different lines do not end alike
  have habsurd {r : Except Failure (α × GenState)} (hr : ∀ line, halted line s = r)
      (hstop : ∀ line, ∃ e, halted line s = .error e ∧ e.IsOn line) : False := by
    obtain ⟨e, he, hon⟩ := hstop 0
    obtain ⟨e', he', hon'⟩ := hstop 1
    obtain rfl : e = e' := Except.error.inj (by rw [← he, ← he', hr, hr])
    cases e with
    | broken i => exact hon
    | error e =>
      have hline : ((0 : Nat) : Int) = (1 : Nat) := hon.symm.trans hon'
      cases hline
  rcases halted_cases h with hm | ⟨hm, hstop⟩
  · rcases halted_cases h' with hm' | ⟨hm', hstop'⟩
    · rw [← hm 0, hm' 0]
    · exact (habsurd hm hstop').elim
  · rcases halted_cases h' with hm' | ⟨hm', hstop'⟩
    · exact (habsurd hm' hstop).elim
    · rw [hm, hm']

end Runs

theorem chunk_eq_of_lexical {named : Bytes → Gen Operand} {c : Chunk} (hc : c.body.Proper)
    (hnamed : ∀ name s, Lexical name s → named name s = namedVariable name s) (name : Bytes) :
    chunk named c (.initial name) = chunk namedVariable c (.initial name) := by
  have hagree : ∀ (name : Bytes) (s : GenState) (H : Set Nat), s.Ok H → ¬ IsHidden name →
      named name s = namedVariable name s :=
    fun name s _ hok hname => hnamed name s (namedVariable_lexical hok hname)
  have htracks (named' : Bytes → Gen Operand) (hnamed' : ∀ (name : Bytes) (s : GenState) (H : Set Nat), s.Ok H →
      ¬ IsHidden name → named' name s = namedVariable name s) (line : Nat) :
      Tracks (Failure.IsOn line) (chunk named' c) (chunk named (c.halt ⟨.syntaxError, line, []⟩)) (.initial name) _ :=
    tracks_chunk ⟨Failure.IsOn line, ⟨.syntaxError, line, []⟩, fun _ => rfl, named', named, hnamed', hagree⟩ hc name
  exact Tracks.eq_of_halted (htracks named hagree) (htracks namedVariable fun _ _ _ _ _ => rfl)

theorem not_broken_chunk {c : Chunk} (hc : c.body.Proper) (name : Bytes) (i : Invariant)
    (h : chunk namedVariable c (.initial name) = .error (.broken i)) : i = .noTemporaries := by
  have htracks : Tracks (fun _ => True) (chunk namedVariable c) _ _ _ :=
    tracks_chunk .compiler hc name
  unfold Tracks at htracks
  rw [h] at htracks
  exact htracks.1

theorem upvalues_of_compile {source : Bytes} {p : Proto} (h : compile source name false = .ok p) :
    p.Sound ∧ p.upvalueList = [⟨envName, true, 0⟩] := by
  have htracks : Tracks (fun _ => True) (chunk namedVariable (readChunk source)) _ _ _ :=
    tracks_chunk .compiler (readChunk_proper source) (if name.isEmpty then source else name)
  obtain ⟨r, hrun, rfl⟩ := chunk_of_compile h
  unfold Tracks at htracks
  rw [hrun] at htracks
  exact htracks.2

/-- While a chunk is compiled the name `x` is resolved in the state `s`: some other answer there makes a
difference to the outcome. -/
def Occurs (c : Chunk) (name x : Bytes) (s : GenState) : Prop :=
  ∃ named : Bytes → Gen Operand, (∀ y t, (y, t) ≠ (x, s) → named y t = namedVariable y t) ∧
    chunk named c (.initial name) ≠ chunk namedVariable c (.initial name)

/-- Every name that is resolved while a source is compiled is resolved lexically. Where compiling
with debug information succeeds (without it upvalues have no names), the upvalues of each function have
different names, and the only one of the outermost function is the environment. -/
theorem compile_names_lexical (source name : Bytes) :
    (∀ x s, Occurs (readChunk source) name x s → Lexical x s) ∧
      ∀ p, compile source name false = .ok p →
        p.upvalueList = [⟨envName, true, 0⟩] ∧ ∀ q ∈ p.walk, (q.upvalueList.map Upvalue.name).Nodup := by
  refine ⟨fun x s hoccurs => ?_, fun p hp => ?_⟩
  · obtain ⟨named, hnamed, hne⟩ := hoccurs
    by_contra hlexical
    refine hne (chunk_eq_of_lexical (readChunk_proper source) (fun y t hy => hnamed y t ?_) name)
    rintro ⟨⟩
    exact hlexical hy
  · obtain ⟨hsound, hmain⟩ := upvalues_of_compile hp
    exact ⟨hmain, fun q hq => (hsound q hq).names⟩

/-- What comes before the name is resolved in `local function f() return f end`. -/
def beforeInnerName : Gen Unit := do
  mark (.line 1)
  openMain
  mark (.line 1)
  newLocal (bytes "f")
  activate 1
  openFunction 1
  mark (.line 1)
  newLocals []
  activate 0
  modifyFn fun f => { f with isVararg := false, params := f.active }
  reserve (← getFn).active
  mark (.line 1)
  mark (.line 1)
  mark (.line 1)

theorem chunk_innerName (named : Bytes → Gen Operand) : ∃ k : Operand → Gen Proto,
    chunk named (readChunk (bytes "local function f() return f end")) =
      beforeInnerName >>= fun _ => named (bytes "f") >>= k := by
  have hread : readChunk (bytes "local function f() return f end") =
      ⟨.line 1, .cons (.localFunction (.line 1) (bytes "f") (.mk 1 (.line 1) false [] none (.line 1)
        (.cons (.ret (.given (.line 1) (.one (.name (.line 1) (bytes "f")))) (.line 1)) .nil) 1 (.line 1))) .nil,
        .line 1⟩ := rfl
  rw [hread]
  simp only [chunk, block, stat, body, values, exprs, expr, beforeInnerName, bind_assoc, Bool.false_eq_true,
    if_false, List.length_nil, Option.isSome_none]
  exact ⟨_, rfl⟩

/-- The name is not declared in the function that it is in but in the one around it. -/
theorem compile_names_lexical_inner : ∃ s, beforeInnerName (.initial []) = .ok ((), s) ∧
    s.fn.findLocal? (bytes "f") = none ∧ s.outer.length = 1 ∧
    Occurs (readChunk (bytes "local function f() return f end")) [] (bytes "f") s ∧ Lexical (bytes "f") s := by
  classical
  obtain ⟨s, hs, hlocal, hout⟩ : ∃ s, beforeInnerName (.initial []) = .ok ((), s) ∧
    s.fn.findLocal? (bytes "f") = none ∧ s.outer.length = 1 := ⟨_, rfl, rfl, rfl⟩
  let named : Bytes → Gen Operand := fun y u =>
    if (y, u) = (bytes "f", s) then .error (.broken .environment) else namedVariable y u
  have hnamed : named (bytes "f") s = .error (.broken .environment) := if_pos rfl
  have hoccurs : Occurs (readChunk (bytes "local function f() return f end")) [] (bytes "f") s := by
    refine ⟨named, fun y u hne => if_neg hne, fun heq => ?_⟩
    obtain ⟨k, hk⟩ := chunk_innerName named
    rw [hk, run_bind hs, run_bind_error hnamed] at heq
    cases not_broken_chunk (readChunk_proper _) [] .environment heq.symm
  exact ⟨s, hs, hlocal, hout, hoccurs, (compile_names_lexical _ []).1 _ _ hoccurs⟩

end RegisterCompiler
