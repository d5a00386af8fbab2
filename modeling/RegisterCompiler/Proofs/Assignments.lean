import Mathlib.Data.Int.CharZero
import RegisterCompiler.Proofs.StraightCode

/-!
# Assignments to several targets

An assignment stores in its targets one after the other, from right to left, but has the effect of
storing in all of them at once: their tables and keys, and the values, are those from before it.

* `Expr.valueIn?`, `Expr.placeIn?` : the values of simple expressions, and the places they name;
* `Lined` : operands for targets, which no store in a target before them changes;
* `assign_simultaneous` : the code for an assignment.
-/

namespace RegisterCompiler

open Gen Machine

variable {ρ σ : Type}

/-! ## Names -/

inductive Variable where
  | reg (r : Nat)
  | upval (u : Nat)
deriving DecidableEq

namespace Variable

def operand : Variable → Operand
  | reg r => .plain .local r
  | upval u => .plain .upvalue u

def value (g : Frame ρ σ) : Variable → Value ρ
  | reg r => g.reg r
  | upval u => g.upval u

/-- The register of the variable, if it is in one, is below `n`. -/
def Below (n : Int) : Variable → Prop
  | reg r => (r : Int) < n
  | upval _ => True

theorem value_agree {n : Int} {g g' : Frame ρ σ} {x : Variable} (h : AgreeBelow n g g')
    (hx : x.Below n) : x.value g' = x.value g := by
  cases x with
  | reg r => exact h.reg r hx
  | upval u => exact congrFun h.upval u

theorem means {s : GenState} {g : Frame ρ σ} {x : Variable} (hx : x.Below s.fn.active) :
    Means s g x.operand (x.value g) := by
  cases x with
  | reg r => exact .local hx
  | upval u => exact .upvalue u

end Variable

/-- The variable that a name stands for in a function: the innermost local one, or else an upvalue. -/
def Func.variableOf? (fn : Func) (name : Bytes) : Option Variable :=
  match fn.findLocal? name with
  | some r => some (.reg r)
  | none => (fn.findUpvalue? name).map .upval

theorem Func.variableOf?_below {fn : Func} {name : Bytes} {x : Variable}
    (h : fn.variableOf? name = some x) : x.Below fn.active := by
  unfold Func.variableOf? at h
  split at h
  · next r hr =>
    cases h
    exact (Func.findLocal?_eq_some hr).1
  · obtain ⟨u, -, rfl⟩ := Option.map_eq_some_iff.1 h
    trivial

theorem Later.variableOf? {s t : GenState} (h : Later s t) {name : Bytes} {x : Variable}
    (hx : s.fn.variableOf? name = some x) : t.fn.variableOf? name = some x := by
  unfold Func.variableOf? at hx ⊢
  rw [h.locals]
  split at hx
  · exact hx
  · obtain ⟨u, hu, rfl⟩ := Option.map_eq_some_iff.1 hx
    rw [h.upvalues name u hu, Option.map_some]

section Names
variable {name name' : Bytes} {f f' : Func} {outer outer' : List Func}

theorem Func.findLocal?_of_links (f : Func) (scopes : List Scope) (upvalues : Array Upvalue)
    (name : Bytes) :
    { f with scopes := scopes, upvalues := upvalues }.findLocal? name = f.findLocal? name := by
  apply Func.findLocal?_congr <;> rfl

theorem Func.findUpvalue?_push {u : Upvalue} {i : Nat}
    (h : f.findUpvalue? name = some i) :
    { f with upvalues := f.upvalues.push u }.findUpvalue? name = some i := by
  simp only [Func.findUpvalue?, Array.findIdx?_push] at h ⊢
  rw [h]
  rfl

theorem Func.findUpvalue?_push_self {isLocal : Bool} {index : Int} (h : f.findUpvalue? name = none) :
    { f with upvalues := f.upvalues.push ⟨name, isLocal, index⟩ }.findUpvalue? name =
      some f.upvalues.size := by
  simp only [Func.findUpvalue?, Array.findIdx?_push] at h ⊢
  rw [h]
  simp

/-- A search for an upvalue called `name` changed `f` to `f'` and the functions around to `outer'`. -/
structure Searched (name : Bytes) (f : Func) (outer : List Func) (i : Option Nat) (f' : Func)
    (outer' : List Func) : Prop where
  only : f' = { f with upvalues := f'.upvalues }
  upvalues : ∀ name' u, f.findUpvalue? name' = some u → f'.findUpvalue? name' = some u
  reach : ∀ name', f.CanReach outer name' → f'.CanReach outer' name'
  found : f.CanReach outer name → ∃ u, i = some u ∧ f'.findUpvalue? name = some u

theorem Searched.known {i : Nat} (h : f.findUpvalue? name = some i) : Searched name f outer (some i) f outer :=
  ⟨rfl, fun _ _ h => h, fun _ h => h, fun _ => ⟨i, rfl, h⟩⟩

theorem Searched.added {isLocal : Bool} {index : Int} {i : Nat} (hnew : f.findUpvalue? name = none)
    (hadd : addUpvalue f name isLocal index = .ok (f', i))
    (houter : ∀ name', (∃ g ∈ outer, (g.findLocal? name').isSome ∨ (g.findUpvalue? name').isSome) →
      ∃ g ∈ outer', (g.findLocal? name').isSome ∨ (g.findUpvalue? name').isSome) :
    Searched name f outer (some i) f' outer' := by
  unfold addUpvalue at hadd
  simp only at hadd
  split at hadd
  · cases hadd
  · obtain ⟨rfl, rfl⟩ := Prod.ext_iff.1 (Except.ok.inj hadd)
    refine ⟨rfl, fun _ _ h => Func.findUpvalue?_push h, fun name' h => h.imp (fun hu => ?_) (houter name'),
      fun _ => ⟨_, rfl, Func.findUpvalue?_push_self hnew⟩⟩
    obtain ⟨u, hu⟩ := Option.isSome_iff_exists.1 hu
    exact Option.isSome_iff_exists.2 ⟨u, Func.findUpvalue?_push hu⟩

theorem resolveUpvalue_searched {i : Option Nat}
    (h : resolveUpvalue name f outer = .ok (i, f', outer')) : Searched name f outer i f' outer' := by
  induction outer generalizing f i f' outer' with
  | nil =>
    unfold resolveUpvalue at h
    split at h
    · next i hi =>
      cases h
      exact .known hi
    · next hnone =>
      cases h
      refine ⟨rfl, fun _ _ h => h, fun _ h => h, fun hreach => ?_⟩
      rcases hreach with hu | ⟨g, hg, -⟩
      · rw [hnone] at hu
        cases hu
      · cases hg
  | cons parent rest ih =>
    unfold resolveUpvalue at h
    split at h
    · next i hi =>
      cases h
      exact .known hi
    · next hnone =>
      simp only at h
      split at h
      · cases h
      split at h
      · next reg hreg =>
        split at h
        · cases h
        split at h
        · cases h
        · next f1 j hadd =>
          cases h
          refine .added hnone hadd fun name' hg => ?_
          obtain ⟨g, hg, hname⟩ := hg
          rcases List.mem_cons.1 hg with rfl | hg
          · refine ⟨_, List.mem_cons_self .., hname.imp (fun hl => ?_) id⟩
            rwa [Func.findLocal?_of_links]
          · exact ⟨g, List.mem_cons_of_mem _ hg, hname⟩
      · next hlocal =>
        -- What is known in `parent` and around it stays known there.
        have houter {parent' : Func} {rest' : List Func} {j : Option Nat}
            (hsearch : Searched name parent rest j parent' rest') (name' : Bytes)
            (hg : ∃ g ∈ parent :: rest, (g.findLocal? name').isSome ∨ (g.findUpvalue? name').isSome) :
            ∃ g ∈ parent' :: rest', (g.findLocal? name').isSome ∨ (g.findUpvalue? name').isSome := by
          obtain ⟨g, hg, hname⟩ := hg
          have hcases : (parent.findLocal? name').isSome ∨ parent.CanReach rest name' := by
            rcases List.mem_cons.1 hg with rfl | hg
            · exact hname.imp id .inl
            · exact .inr (.inr ⟨g, hg, hname⟩)
          rcases hcases with hl | hreach
          · refine ⟨parent', List.mem_cons_self .., .inl ?_⟩
            rwa [hsearch.only, Func.findLocal?_of_links]
          · rcases hsearch.reach name' hreach with hu | ⟨g', hg', hname'⟩
            · exact ⟨parent', List.mem_cons_self .., .inr hu⟩
            · exact ⟨g', List.mem_cons_of_mem _ hg', hname'⟩
        split at h
        · cases h
        · next parent' rest' hrest =>
          cases h
          have hsearch := ih hrest
          refine ⟨rfl, fun _ _ h => h, fun name' h => h.imp id (houter hsearch name'), fun hreach => ?_⟩
          rcases hreach with hu | ⟨g, hg, hname⟩
          · rw [hnone] at hu
            cases hu
          · have hparent : parent.CanReach rest name := by
              rcases List.mem_cons.1 hg with rfl | hg
              · rw [hlocal] at hname
                exact .inl (hname.resolve_left (by simp))
              · exact .inr ⟨g, hg, hname⟩
            obtain ⟨u, hu, -⟩ := hsearch.found hparent
            cases hu
        · next j parent' rest' hrest =>
          split at h
          · cases h
          · next f1 i hadd =>
            cases h
            exact .added hnone hadd (houter (ih hrest))

end Names

section Values
variable {host : Host ρ σ} {p : Nat} {f g : Frame ρ σ} {s t : GenState} {name : Bytes}

theorem Gen.passes_makeUpvalue (host : Host ρ σ) (f g : Frame ρ σ) (h : Steady p s) :
    (makeUpvalue name).Passes s fun i t => t.fn.free = s.fn.free ∧ Does host p f s g t g ∧
      (s.fn.CanReach s.outer name → ∃ u, i = some u ∧ t.fn.findUpvalue? name = some u) := by
  refine Passes.bind (P := fun u t => u = s ∧ t = s) (by rintro _ _ ⟨⟩; exact ⟨rfl, rfl⟩) ?_
  rintro _ s ⟨rfl, rfl⟩
  split
  · rintro _ _ ⟨⟩
  · rintro _ _ ⟨⟩
  · next i f' outer' hres =>
    have hsearch := resolveUpvalue_searched hres
    rintro _ _ ⟨⟩
    have hsteady : Steady p { s with fn := f', outer := outer' } := by
      rw [hsearch.only]
      exact ⟨h.target, h.start, h.active, h.stack, h.places, h.nils⟩
    have hlater : Later s { s with fn := f', outer := outer' } := by
      refine ⟨by rw [hsearch.only], fun name => ?_, hsearch.upvalues, hsearch.reach, ?_⟩
      · rw [hsearch.only]
        exact Func.findLocal?_of_links ..
      · rw [hsearch.only]
        exact fun _ _ hc => hc
    refine ⟨by rw [hsearch.only], .still hsteady hlater (by rw [hsearch.only]), hsearch.found⟩

theorem Gen.namedVariable_does (host : Host ρ σ) (f g : Frame ρ σ) (h : Steady p s) (hname : s.Sees name) :
    (namedVariable name).Passes s fun e t => t.fn.free = s.fn.free ∧ Does host p f s g t g ∧
      ∃ x, t.fn.variableOf? name = some x ∧ e = x.operand := by
  refine Passes.bind (P := fun e t => t.fn.free = s.fn.free ∧ Does host p f s g t g ∧
    ∃ x : Variable, t.fn.variableOf? name = some x ∧ e = some x.operand) ?_ ?_
  · refine .getFn ?_
    refine .getFn ?_
    refine .require fun _ => ?_
    refine .getFn ?_
    split
    · next r hr =>
      exact passes_pure ⟨rfl, .refl h, .reg r, by rw [Func.variableOf?, hr], rfl⟩
    · next hlocal =>
      refine Passes.bind (P := fun i t => t.fn.free = s.fn.free ∧ Does host p f s g t g ∧
        ∃ u, i = some u ∧ t.fn.findUpvalue? name = some u ∧ t.fn.findLocal? name = none) ?_ ?_
      · refine (passes_makeUpvalue host f g h).mono ?_
        rintro i t ⟨hfree, hdoes, hfound⟩
        obtain ⟨u, hi, hu⟩ := hfound (hname.resolve_left (by simp [hlocal]))
        exact ⟨hfree, hdoes, u, hi, hu, (hdoes.later.locals name).trans hlocal⟩
      · rintro _ t ⟨hfree, hdoes, u, rfl, hu, hnone⟩
        refine passes_pure ⟨hfree, hdoes, .upval u, ?_, rfl⟩
        rw [Func.variableOf?, hnone]
        simp [hu]
  · rintro _ t ⟨hfree, hdoes, x, hx, rfl⟩
    exact passes_pure ⟨hfree, hdoes, x, hx, rfl⟩

end Values

/-! ## Simple expressions -/

namespace Expr

/-- The value of a literal, or of a variable of `fn` in frame `g`. -/
def valueIn? (fn : Func) (g : Frame ρ σ) : Expr → Option (Value ρ)
  | .nil _ => some .nil
  | .true _ => some (.boolean Bool.true)
  | .false _ => some (.boolean Bool.false)
  | .number x _ => some (.number x)
  | .string b _ => some (.string b)
  | .name _ n => (fn.variableOf? n).map (·.value g)
  | _ => none

/-- The expression is a literal or the name of a variable. -/
def IsSimple (s : GenState) : Expr → Prop
  | .nil _ | .true _ | .false _ | .number _ _ | .string _ _ => True
  | .name _ n => s.Sees n
  | _ => False

/-- The expression is a literal or the name of a local variable. -/
def IsSimpleKey (s : GenState) : Expr → Prop
  | .nil _ | .true _ | .false _ | .number _ _ | .string _ _ => True
  | .name _ n => (s.fn.findLocal? n).isSome
  | _ => False

end Expr

section Simple
variable {host : Host ρ σ} {p : Nat} {f g g' : Frame ρ σ} {s t : GenState} {x : Expr} {v : Value ρ}

theorem Expr.valueIn?_later (hx : x.valueIn? s.fn g = some v) (h : Later s t) : x.valueIn? t.fn g = some v := by
  cases x with
  | name m name =>
    simp only [Expr.valueIn?] at hx ⊢
    obtain ⟨y, hy, rfl⟩ := Option.map_eq_some_iff.1 hx
    rw [h.variableOf? hy, Option.map_some]
  | _ => exact hx

theorem Expr.valueIn?_agree {fn : Func} (hx : x.valueIn? fn g = some v)
    (h : AgreeBelow fn.active g' g) : x.valueIn? fn g' = some v := by
  cases x with
  | name m name =>
    simp only [Expr.valueIn?] at hx ⊢
    obtain ⟨y, hy, rfl⟩ := Option.map_eq_some_iff.1 hx
    rw [hy, Option.map_some, Variable.value_agree h (Func.variableOf?_below hy)]
  | _ => exact hx

theorem Expr.IsSimple.later (hx : x.IsSimple s) (h : Later s t) : x.IsSimple t := by
  cases x with
  | name m name => exact h.sees hx
  | _ => exact hx

theorem Expr.IsSimpleKey.later (hx : x.IsSimpleKey s) (h : Later s t) : x.IsSimpleKey t := by
  cases x with
  | name m name =>
    simp only [Expr.IsSimpleKey] at hx ⊢
    rwa [h.locals]
  | _ => exact hx

theorem Expr.IsSimpleKey.isSimple (hx : x.IsSimpleKey s) : x.IsSimple s := by
  cases x with
  | name m name => exact .inl hx
  | _ => exact hx

theorem Gen.stringOperand_does (host : Host ρ σ) (f g : Frame ρ σ) (h : Steady p s) (b : Bytes) :
    (stringOperand b).Passes s fun e t => t.fn.free = s.fn.free ∧ Does host p f s g t g ∧
      ∃ (k : Nat), e = .plain .constant k ∧ Means t g e (.string b) := by
  refine (internConstant_does host f g h (.string b)).bind ?_
  rintro _ t ⟨hfree, hdoes, k, rfl, -, c, hc, hv⟩
  have hmeans : Means t g (.plain .constant k) (.ofConstant c) := .constant hc
  rw [hv] at hmeans
  exact passes_pure ⟨hfree, hdoes, k, rfl, hmeans⟩

theorem Gen.simpleExpr_does (host : Host ρ σ) (f g : Frame ρ σ) (h : Steady p s) (hx : x.IsSimple s) :
    (expr namedVariable x).Passes s fun e t => t.fn.free = s.fn.free ∧ Does host p f s g t g ∧
      ∃ v, x.valueIn? t.fn g = some v ∧ Means t g e v ∧ (x.IsSimpleKey s → e.kind ≠ .upvalue) := by
  have hliteral {e : Operand} {v : Value ρ} {m : Mark} (hv : ∀ fn, x.valueIn? fn g = some v)
      (hkind : e.kind ≠ .upvalue) (he : ∀ t, Means t g e v) :
      (do mark m; return e : Gen Operand).Passes s fun e t => t.fn.free = s.fn.free ∧
        Does host p f s g t g ∧
        ∃ v, x.valueIn? t.fn g = some v ∧ Means t g e v ∧ (x.IsSimpleKey s → e.kind ≠ .upvalue) := by
    refine .onLine fun n => ?_
    exact passes_pure ⟨rfl, .onLine h n, v, hv _, he _, fun _ => hkind⟩
  cases x with
  | nil m => exact hliteral (fun _ => rfl) (by decide) fun _ => .nil
  | true m => exact hliteral (fun _ => rfl) (by decide) fun _ => .true
  | false m => exact hliteral (fun _ => rfl) (by decide) fun _ => .false
  | number y m => exact hliteral (fun _ => rfl) (by simp [Operand.number, Operand.plain]) fun _ => .number y
  | string b m =>
    refine (stringOperand_does host f g h b).bind ?_
    rintro _ t ⟨hfree, hdoes, k, rfl, hmeans⟩
    refine .onLine fun n => ?_
    have hline : Does host p f t g (t.onLine n) g := .onLine hdoes.steady n
    exact passes_pure ⟨hfree, hdoes.trans hline, _, rfl, hmeans.later hline.later, fun _ => by simp [Operand.plain]⟩
  | name m name =>
    refine .onLine fun n => ?_
    have hline : Does host p f s g (s.onLine n) g := .onLine h n
    refine (namedVariable_does host f g hline.steady (hline.later.sees hx)).mono ?_
    rintro _ t ⟨hfree, hdoes, y, hy, rfl⟩
    refine ⟨hfree, hline.trans hdoes, y.value g, by simp [Expr.valueIn?, hy],
      Variable.means (Func.variableOf?_below hy), fun hkey => ?_⟩
    cases y with
    | reg r => simp [Variable.operand, Operand.plain]
    | upval u =>
      simp only [Expr.IsSimpleKey] at hkey
      rw [Func.variableOf?, (hline.trans hdoes).later.locals] at hy
      split at hy
      · cases hy
      · next hnone => simp [hnone] at hkey
  | _ => exact hx.elim

theorem Gen.toValue_still {e : Operand} (he : Means s g e v) (hkind : e.kind ≠ .upvalue) :
    (toValue e).Passes s fun e' t => t = s ∧ Means s g e' v := by
  cases he with
  | nil => exact passes_pure ⟨rfl, .nil⟩
  | true => exact passes_pure ⟨rfl, .true⟩
  | false => exact passes_pure ⟨rfl, .false⟩
  | number y => exact passes_pure ⟨rfl, .number y⟩
  | constant hc => exact passes_pure ⟨rfl, .constant hc⟩
  | register hr | «local» hr => exact passes_pure ⟨rfl, .register hr⟩
  | upvalue u => exact absurd rfl hkind

end Simple

/-! ## Places -/

inductive StorePlace (ρ : Type) where
  | variable (x : Variable)
  | slot (table key : Value ρ)

structure TableStore (ρ : Type) where
  table : Value ρ
  key : Value ρ
  value : Value ρ

def Machine.Host.Records (host : Host ρ (List (TableStore ρ))) : Prop :=
  ∀ table key value (g : Frame ρ (List (TableStore ρ))),
    host.write table key value g = some { g with mem := g.mem ++ [⟨table, key, value⟩] }

/-- A frame in which tables are not changed, but stores in them are recorded. -/
abbrev Recorded (ρ : Type) : Type := Frame ρ (List (TableStore ρ))

/-- The surroundings that record stores in tables, and where all else fails. -/
def Machine.Host.recorder (ρ : Type) : Host ρ (List (TableStore ρ)) where
  read _ _ _ := none
  write table key value g := some { g with mem := g.mem ++ [⟨table, key, value⟩] }
  newTable _ _ _ := none
  arith _ _ _ _ := none
  compare _ _ _ _ := none
  length _ _ := none
  concat _ _ _ := none
  call _ _ _ := none
  closure _ _ := none
  close _ _ := none

theorem Machine.Host.recorder_records (ρ : Type) : (recorder ρ).Records :=
  fun _ _ _ _ => rfl

def Machine.Frame.empty : Recorded ρ :=
  ⟨fun _ => .nil, fun _ => .nil, 0, [], []⟩

def Machine.Frame.put (g : Recorded ρ) (v : Value ρ) : StorePlace ρ → Recorded ρ
  | .variable (.reg r) => g.setReg r v
  | .variable (.upval u) => g.setUpval u v
  | .slot table key => { g with mem := g.mem ++ [⟨table, key, v⟩] }

def Machine.Frame.putAll (g : Recorded ρ) : List (StorePlace ρ) → List (Value ρ) → Recorded ρ
  | l :: ls, v :: vs => (g.put v l).putAll ls vs
  | _, _ => g

/-- The place that a target names: a variable of `fn`, or a slot of the table in one. -/
def Expr.placeIn? (fn : Func) (g : Frame ρ σ) : Expr → Option (StorePlace ρ)
  | .name _ n => (fn.variableOf? n).map .variable
  | .suffixed (.name _ n) (.field _ key .nil) =>
    (fn.variableOf? n).map fun x => .slot (x.value g) (.string key)
  | .suffixed (.name _ n) (.index _ key _ .nil) =>
    (fn.variableOf? n).bind fun x => (key.valueIn? fn g).map (.slot (x.value g))
  | _ => none

/-- The target is a variable, or a field of a variable whose key is a name, a literal or a local
variable. -/
def Expr.IsSimpleTarget (s : GenState) : Expr → Prop
  | .name _ n => s.Sees n
  | .suffixed (.name _ n) (.field _ _ .nil) => s.Sees n
  | .suffixed (.name _ n) (.index _ key _ .nil) => s.Sees n ∧ key.IsSimpleKey s
  | _ => False

/-! ## Operands for targets -/

namespace Variable

def table : Variable → Operand
  | reg r => .plain .nonRelocatable r
  | upval u => .plain .upvalue u

def setOpcode : Variable → Opcode
  | reg _ => .setTable
  | upval _ => .setTabUp

/-- A slot of the table in the variable as an operand; `n` names the key. -/
def slot (n : Nat) : Variable → Operand
  | reg r => .plain (.indexed false n) r
  | upval u => .plain (.indexed true n) u

theorem slot_inj {x y : Variable} {m n : Nat} (h : x.slot m = y.slot n) : x = y ∧ m = n := by
  cases x <;> cases y <;> simp_all [slot, Operand.plain]

theorem operand_ne_slot (x y : Variable) (n : Nat) : x.operand ≠ y.slot n := by
  cases x <;> cases y <;> simp [slot, operand, Operand.plain]

/-- A store in the variable `x` does not change what the operand `o` stands for. -/
def Untouched (x : Variable) (o : Operand) : Prop :=
  ∀ (y : Variable) (n : Nat), o = y.slot n → y ≠ x ∧ x ≠ .reg n

theorem untouched_operand (x y : Variable) : x.Untouched y.operand :=
  fun z n h => absurd h (operand_ne_slot y z n)

theorem untouched_slot {x y : Variable} {n : Nat} (hy : y ≠ x) (hn : x ≠ .reg n) : x.Untouched (y.slot n) := by
  intro z m h
  obtain ⟨rfl, rfl⟩ := slot_inj h
  exact ⟨hy, hn⟩

theorem Below.ne_reg {x : Variable} {n : Int} {r : Nat} (hx : x.Below n) (hr : n ≤ r) : x ≠ .reg r := by
  rintro rfl
  simp only [Below] at hx
  omega

theorem Below.mono {x : Variable} {m n : Int} (hx : x.Below m) (h : m ≤ n) : x.Below n := by
  cases x with
  | reg r => simp only [Below] at hx ⊢; omega
  | upval u => trivial

end Variable

/-- The operand `o` stands for the place `l`. The registers that it uses are below `b`. -/
inductive Aims (s : GenState) (b : Int) (g : Frame ρ σ) : Operand → StorePlace ρ → Prop
  | variable {x : Variable} (hx : x.Below s.fn.active) : Aims s b g x.operand (.variable x)
  | slot {x : Variable} {n : Nat} {k : Value ρ} (hx : x.Below b)
    (hn : isConstantRK n = true ∨ (n : Int) < b)
    (hk : ∀ cs, Within s.fn.constants cs → rkValue cs g n = some k) :
    Aims s b g (x.slot n) (.slot (x.value g) k)

/-- The operands stand for places, and a store in one of them does not change those after it. -/
inductive Lined (s : GenState) (b : Int) (g : Frame ρ σ) : List Operand → List (StorePlace ρ) → Prop
  | nil : Lined s b g [] []
  | cons {o : Operand} {l : StorePlace ρ} {os : List Operand} {ls : List (StorePlace ρ)} :
    Aims s b g o l → (∀ x, l = .variable x → ∀ o' ∈ os, x.Untouched o') → Lined s b g os ls →
      Lined s b g (o :: os) (l :: ls)

section Targets
variable {host : Host ρ σ} {p : Nat} {f g g' : Frame ρ σ} {s t : GenState} {b b' : Int} {x y : Variable}
  {o : Operand} {l : StorePlace ρ} {os : List Operand} {ls : List (StorePlace ρ)}

theorem rkValue_agree {cs : Array Constant} {n : Nat} (h : AgreeBelow b g g')
    (hn : isConstantRK n = true ∨ (n : Int) < b) : rkValue cs g' n = rkValue cs g n := by
  unfold rkValue
  split
  · rfl
  · next hrk => rw [h.reg n (hn.resolve_left hrk)]

theorem Aims.mono (h : Aims s b g o l) (hlater : Later s t) (hb : b ≤ b') (hg : AgreeBelow b g g') :
    Aims t b' g' o l := by
  cases h with
  | «variable» hx => exact .variable (by rwa [hlater.active])
  | @slot x n k hx hn hk =>
    rw [← Variable.value_agree hg hx]
    refine .slot (hx.mono hb) (hn.imp id fun hlt => by omega) fun cs hcs => ?_
    rw [rkValue_agree hg hn]
    exact hk cs fun k c hc => hcs k c (hlater.constants k c hc)

theorem Lined.mono (h : Lined s b g os ls) (hlater : Later s t) (hb : b ≤ b') (hg : AgreeBelow b g g') :
    Lined t b' g' os ls := by
  induction h with
  | nil => exact .nil
  | cons ho hun _ ih => exact .cons (ho.mono hlater hb hg) hun ih

theorem Lined.aims (h : Lined s b g os ls) (ho : o ∈ os) : ∃ l, Aims s b g o l := by
  induction h with
  | nil => cases ho
  | cons ho' _ _ ih =>
    rcases List.mem_cons.1 ho with rfl | hmem
    · exact ⟨_, ho'⟩
    · exact ih hmem

/-! ## Saved variables -/

theorem avoid_operand (x y : Variable) (c : Int) : avoid x.operand c y.operand = (y.operand, false) := by
  cases y <;> rfl

theorem avoid_slot (x y : Variable) (n c : Nat) :
    avoid x.operand c (y.slot n) = ((if y = x then .reg c else y).slot (if x = .reg n then c else n),
      decide (y = x ∨ x = .reg n)) := by
  cases x with
  | reg r =>
    by_cases hn : r = n
    · subst hn
      cases y with
      | reg q =>
        by_cases hq : q = r <;>
          simp [avoid, Variable.operand, Variable.slot, Operand.plain, hq]
      | upval u => simp [avoid, Variable.operand, Variable.slot, Operand.plain]
    · have hn' : ¬ n = r := fun h => hn h.symm
      cases y with
      | reg q =>
        by_cases hq : q = r <;>
          simp [avoid, Variable.operand, Variable.slot, Operand.plain, hq, hn, hn']
      | upval u =>
        simp [avoid, Variable.operand, Variable.slot, Operand.plain, hn, hn']
  | upval u =>
    cases y with
    | reg q => simp [avoid, Variable.operand, Variable.slot, Operand.plain]
    | upval w =>
      by_cases hw : w = u <;>
        simp [avoid, Variable.operand, Variable.slot, Operand.plain, hw]

/-- A target that a store in `x` changes uses the copy of `x` in register `c` instead. -/
theorem Aims.avoid {c : Nat} (h : Aims s c g o l) (hlater : Later s t) (hx : x.Below c) (hc : c < 250) :
    Aims t (c + 1) (g.setReg c (x.value g)) (Gen.avoid x.operand c o).1 l := by
  have hg : AgreeBelow c g (g.setReg c (x.value g)) := .setReg g le_rfl _
  have hreg : (g.setReg c (x.value g)).reg c = x.value g := g.setReg_reg c _
  cases h with
  | @«variable» y hy =>
    rw [avoid_operand]
    exact .variable (by rwa [hlater.active])
  | @slot y n k hy hn hk =>
    rw [avoid_slot]
    have htable : y.value g = (if y = x then Variable.reg c else y).value (g.setReg c (x.value g)) := by
      split
      · next hyx => rw [hyx]; exact hreg.symm
      · exact (Variable.value_agree hg hy).symm
    rw [htable]
    refine .slot ?_ ?_ fun cs hcs => ?_
    · split
      · simp only [Variable.Below]; omega
      · exact hy.mono (by omega)
    · split
      · exact .inr (by omega)
      · exact hn.imp id fun hlt => by omega
    · have hold := hk cs fun k c hc => hcs k c (hlater.constants k c hc)
      split
      · next hxn =>
        subst hxn
        simp only [Variable.Below] at hx
        rw [rkValue_register (by omega)] at hold ⊢
        exact (congrArg some hreg).trans hold
      · rwa [rkValue_agree hg hn]

theorem Aims.untouched_avoid {c : Nat} (h : Aims s b g o l) (hx : x.Below c) :
    x.Untouched (Gen.avoid x.operand c o).1 := by
  cases h with
  | «variable» hy =>
    rw [avoid_operand]
    exact x.untouched_operand _
  | @slot y n k hy hn hk =>
    rw [avoid_slot]
    have hne := hx.ne_reg le_rfl
    refine Variable.untouched_slot ?_ ?_
    · split
      · exact hne.symm
      · next hyx => exact hyx
    · split
      · exact hne
      · next hxn => exact hxn

theorem Aims.untouched_of_avoid {c : Nat} (h : Aims s b g o l) (hy : y.Below c) (ho : y.Untouched o) :
    y.Untouched (Gen.avoid x.operand c o).1 := by
  cases h with
  | «variable» =>
    rw [avoid_operand]
    exact ho
  | @slot z n k hz hn hk =>
    rw [avoid_slot]
    have hne := hy.ne_reg le_rfl
    obtain ⟨hzy, hyn⟩ := ho z n rfl
    refine Variable.untouched_slot ?_ ?_
    · split
      · exact hne.symm
      · exact hzy
    · split
      · exact hne
      · exact hyn

theorem Aims.avoid_still {c : Nat} (h : Aims s b g o l) (hno : (Gen.avoid x.operand c o).2 = false) :
    (Gen.avoid x.operand c o).1 = o := by
  cases h with
  | «variable» => rw [avoid_operand]
  | @slot y n k =>
    rw [avoid_slot] at hno ⊢
    simp only [decide_eq_false_iff_not, not_or] at hno
    simp only [if_neg hno.1, if_neg hno.2]

theorem Lined.avoid {c : Nat} (h : Lined s c g os ls) (hlater : Later s t) (hactive : s.fn.active ≤ c)
    (hx : x.Below c) (hc : c < 250) :
    Lined t (c + 1) (g.setReg c (x.value g)) (os.map fun o => (Gen.avoid x.operand c o).1) ls := by
  induction h with
  | nil => exact .nil
  | @cons o l os ls ho hun hos ih =>
    refine .cons (ho.avoid hlater hx hc) (fun y hy o' ho' => ?_) ih
    obtain ⟨o1, hmem, rfl⟩ := List.mem_map.1 ho'
    obtain ⟨l1, hl1⟩ := hos.aims hmem
    have hbelow : y.Below s.fn.active := by
      subst hy
      cases ho with
      | «variable» hy => exact hy
    exact hl1.untouched_of_avoid (hbelow.mono hactive) (hun y hy o1 hmem)

theorem Gen.copyVariable_does (host : Host ρ σ) (f g : Frame ρ σ) (h : Steady p s) (x : Variable)
    (c : Nat) :
    (emitABC (if x.operand.kind = .upvalue then .getUpval else .move) c x.operand.info 0).Passes s
      fun _ t => t.fn.free = s.fn.free ∧ Does host p f s g t (g.setReg c (x.value g)) := by
  cases x with
  | reg r => exact emitMove_does host f g h
  | upval u =>
    refine passes_emitABC.mono ?_
    rintro _ _ ⟨-, rfl, ha, hb, hc⟩
    obtain ⟨hop, ha', hb', -⟩ := Instr.abc_natFields .getUpval ha hb ⟨le_rfl, hc⟩
    refine ⟨rfl, .push h (by simp [hop, Variable.operand, Operand.plain]) fun cs ax _ => ?_⟩
    simp only [Variable.operand, Operand.plain, if_true]
    rw [exec_getUpval hop, ha', hb']
    rfl

/-- Earlier targets that need the value of a variable, which is a target itself, get a copy of it. -/
theorem Gen.protectTargets_does (host : Host ρ σ) (f : Frame ρ σ) (h : Steady p s)
    (hl : Lined s s.fn.free g os ls) (hx : x.Below s.fn.active) :
    (protectTargets os x.operand).Passes s fun os' t => ∃ g', s.fn.free ≤ t.fn.free ∧
      AgreeBelow s.fn.free g g' ∧ Does host p f s g t g' ∧ Lined t t.fn.free g' os' ls ∧ ∀ o ∈ os', x.Untouched o := by
  obtain ⟨c, hc⟩ : ∃ c : Nat, s.fn.free = c := ⟨s.fn.free.toNat, by have := h.active; omega⟩
  have hactive : s.fn.active ≤ c := by have := h.active; omega
  have hbelow : x.Below c := hx.mono hactive
  rw [hc] at hl ⊢
  have huntouched : ∀ o ∈ os.map fun o => (avoid x.operand c o).1, x.Untouched o := by
    intro o ho
    obtain ⟨o1, hmem, rfl⟩ := List.mem_map.1 ho
    obtain ⟨l1, hl1⟩ := hl.aims hmem
    exact hl1.untouched_avoid hbelow
  refine .firstFree ?_
  rw [hc]
  dsimp only
  rw [List.map_map]
  split
  · next hany =>
    refine (copyVariable_does host f g h x c).bind ?_
    rintro _ t ⟨hfree, hdoes⟩
    refine (passes_reserve hdoes.steady.stack.2).bind ?_
    rintro _ _ ⟨rfl, hmax⟩
    have hroom : Does host p f s g (t.reserved 1) (g.setReg c (x.value g)) :=
      hdoes.trans (.reserved hdoes.steady (by omega) hmax)
    have hfree' : (t.reserved 1).fn.free = c + 1 := by
      simp only [GenState.reserved, GenState.withFree]
      omega
    refine passes_pure ⟨_, by omega, .setReg g le_rfl _, hroom, ?_, huntouched⟩
    rw [hfree']
    exact hl.avoid hroom.later hactive hbelow (by omega)
  · next hno =>
    have hstill : os.map (fun o => (avoid x.operand c o).1) = os := by
      refine (List.map_congr_left fun o ho => ?_).trans (List.map_id os)
      obtain ⟨l1, hl1⟩ := hl.aims ho
      refine hl1.avoid_still ?_
      simpa using fun h => hno (List.any_eq_true.2 ⟨_, List.mem_map_of_mem ho, h⟩)
    refine passes_pure ⟨g, by omega, .refl _ g, .refl h, ?_, huntouched⟩
    rw [hc]
    exact (congrArg (Lined s c g · ls) hstill).mpr hl

/-! ## Code for targets -/

theorem Gen.passes_tableOperand (x : Variable) :
    (toAnyRegisterOrUpvalue x.operand).Passes s fun e t => e = x.table ∧ t = s := by
  cases x with
  | reg r => exact passes_pure ⟨rfl, rfl⟩
  | upval u => exact passes_pure ⟨rfl, rfl⟩

theorem Gen.indexed_does (host : Host ρ σ) (f g : Frame ρ σ) (h : Steady p s) (hx : x.Below s.fn.active)
    {e : Operand} {v : Value ρ} (he : Means s g e v) :
    (indexed x.table e).Passes s fun o t => ∃ g', s.fn.free ≤ t.fn.free ∧ AgreeBelow s.fn.free g g' ∧
      Does host p f s g t g' ∧ Aims t t.fn.free g' o (.slot (x.value g) v) := by
  refine .require fun _ => ?_
  refine (toRK_does host f g h he).bind ?_
  rintro ⟨e', rk⟩ t ⟨n, g', hrk, hagree, hin, hdoes⟩
  obtain rfl : rk = n := hrk
  have hactive := h.active
  have hfree : s.fn.free ≤ t.fn.free := by
    rcases hin.free with hfree | ⟨-, hfree | hfree⟩ <;> omega
  have hn : isConstantRK n = true ∨ (n : Int) < t.fn.free := by
    rcases hin.free with hfree | ⟨-, hfree | hfree⟩
    · exact .inl hfree.2.1
    · exact .inr (by omega)
    · exact .inr (by omega)
  have hbelow := hx.mono hactive.2
  have haims : Aims t t.fn.free g' (x.slot n) (.slot (x.value g) v) := by
    rw [← Variable.value_agree hagree hbelow]
    exact .slot (hbelow.mono hfree) hn hin.value
  cases x with
  | reg r | upval u => exact passes_pure ⟨g', hfree, hagree, hdoes, haims⟩

theorem Gen.target_does (host : Host ρ σ) {e : Expr} (h : Steady p s) (he : e.IsSimpleTarget s)
    (hfg : AgreeBelow s.fn.active f g) :
    (expr namedVariable e).Passes s fun o t => ∃ g' l, e.placeIn? t.fn f = some l ∧
      s.fn.free ≤ t.fn.free ∧ AgreeBelow s.fn.free g g' ∧ Does host p f s g t g' ∧ Aims t t.fn.free g' o l := by
  cases e with
  | name m n =>
    refine .onLine fun k => ?_
    have hline : Does host p f s g (s.onLine k) g := .onLine h k
    refine (namedVariable_does host f g hline.steady (hline.later.sees he)).mono ?_
    rintro _ t ⟨hfree, hdoes, x, hx, rfl⟩
    exact ⟨g, .variable x, by rw [Expr.placeIn?, hx, Option.map_some], hfree.ge, .refl _ g,
      hline.trans hdoes, .variable (Func.variableOf?_below hx)⟩
  | suffixed e rest =>
    cases e with
    | name m n =>
      -- The table is a variable; the key comes after it.
      have hname (hsees : s.Sees n) : (expr namedVariable (.name m n)).Passes s fun o t =>
          t.fn.free = s.fn.free ∧ Does host p f s g t g ∧ ∃ x, t.fn.variableOf? n = some x ∧
            x.Below t.fn.active ∧ x.value g = x.value f ∧ o = x.operand := by
        refine .onLine fun k => ?_
        have hline : Does host p f s g (s.onLine k) g := .onLine h k
        refine (namedVariable_does host f g hline.steady (hline.later.sees hsees)).mono ?_
        rintro _ t ⟨hfree, hdoes, x, hx, rfl⟩
        have hbelow := Func.variableOf?_below hx
        have hactive := (hline.trans hdoes).later.active
        exact ⟨hfree, hline.trans hdoes, x, hx, hbelow, Variable.value_agree hfg (hactive ▸ hbelow), rfl⟩
      cases rest with
      | field m' key rest =>
        cases rest with
        | nil =>
          refine Passes.bind (hname he) ?_
          rintro _ t ⟨hfree, hdoes, x, hx, hbelow, hvalue, rfl⟩
          refine Passes.bind (P := fun o u => ∃ g' l,
            Expr.placeIn? u.fn f (.suffixed (.name m n) (.field m' key .nil)) = some l ∧
              s.fn.free ≤ u.fn.free ∧ AgreeBelow s.fn.free g g' ∧ Does host p f s g u g' ∧
              Aims u u.fn.free g' o l) ?_ fun o u hu => passes_pure hu
          · refine (passes_tableOperand x).bind ?_
            rintro _ t ⟨rfl, rfl⟩
            refine .onLine fun k => ?_
            have hline : Does host p f t g (t.onLine k) g := .onLine hdoes.steady k
            refine (stringOperand_does host f g hline.steady key).bind ?_
            rintro _ u ⟨hfree', hdoes', _, -, hmeans⟩
            have hdoes2 := hdoes.trans (hline.trans hdoes')
            have hbelow' : x.Below u.fn.active := by
              rwa [(hline.trans hdoes').later.active]
            refine (indexed_does host f g hdoes'.steady hbelow' hmeans).mono ?_
            rintro o w ⟨g', hle, hagree, hdoes3, haims⟩
            have hfree2 : u.fn.free = s.fn.free := hfree'.trans hfree
            have hx' : w.fn.variableOf? n = some x :=
              ((hline.trans hdoes').trans hdoes3).later.variableOf? hx
            rw [hfree2] at hle hagree
            exact ⟨g', _, by rw [Expr.placeIn?, hx', Option.map_some, hvalue.symm], hle, hagree,
              hdoes2.trans hdoes3, haims⟩
        | _ => exact he.elim
      | index m1 key m2 rest =>
        cases rest with
        | nil =>
          obtain ⟨hsees, hkey⟩ := he
          refine Passes.bind (hname hsees) ?_
          rintro _ t ⟨hfree, hdoes, x, hx, hbelow, hvalue, rfl⟩
          refine (passes_tableOperand x).bind ?_
          rintro _ t ⟨rfl, rfl⟩
          refine .onLine fun k => ?_
          have hline : Does host p f t g (t.onLine k) g := .onLine hdoes.steady k
          have hkey' := hkey.later (hdoes.trans hline).later
          refine (simpleExpr_does host f g hline.steady hkey'.isSimple).bind ?_
          rintro e u ⟨hfree', hdoes', v, hv, hmeans, hkind⟩
          refine (toValue_still hmeans (hkind hkey')).bind ?_
          rintro e' u ⟨rfl, hmeans'⟩
          refine .onLine fun k' => ?_
          have hline' : Does host p f u g (u.onLine k') g := .onLine hdoes'.steady k'
          have hafter := (hline.trans hdoes').trans hline'
          have hbelow' : x.Below (u.onLine k').fn.active := by
            rwa [hafter.later.active]
          refine Passes.bind (indexed_does host f g hline'.steady hbelow' (hmeans'.later hline'.later)) ?_
          rintro o w ⟨g', hle, hagree, hdoes3, haims⟩
          have hfree2 : (u.onLine k').fn.free = s.fn.free := hfree'.trans hfree
          have hx' : w.fn.variableOf? n = some x := (hafter.trans hdoes3).later.variableOf? hx
          have hlater := ((hdoes.trans hafter).trans hdoes3).later
          have hv' : key.valueIn? w.fn f = some v :=
            Expr.valueIn?_agree (Expr.valueIn?_later hv (hline'.trans hdoes3).later)
              (by rwa [hlater.active])
          rw [hfree2] at hle hagree
          exact passes_pure ⟨g', _, by
            rw [Expr.placeIn?, hx', Option.bind_some, hv', Option.map_some, hvalue.symm], hle, hagree,
            hdoes.trans (hafter.trans hdoes3), haims⟩
        | _ => exact he.elim
      | _ => exact he.elim
    | _ => exact he.elim
  | _ => exact he.elim

end Targets

def Targets.placesIn? (fn : Func) (g : Frame ρ σ) : Targets → Option (List (StorePlace ρ))
  | .nil => some []
  | .cons _ e _ rest => do return (← e.placeIn? fn g) :: (← rest.placesIn? fn g)

def Targets.AreSimple (s : GenState) : Targets → Prop
  | .nil => True
  | .cons _ e _ rest => e.IsSimpleTarget s ∧ rest.AreSimple s

def Exprs.valuesIn? (fn : Func) (g : Frame ρ σ) : Exprs → Option (List (Value ρ))
  | .one e => do return [← e.valueIn? fn g]
  | .more e _ rest => do return (← e.valueIn? fn g) :: (← rest.valuesIn? fn g)

def Exprs.AreSimple (s : GenState) : Exprs → Prop
  | .one e => e.IsSimple s
  | .more e _ rest => e.IsSimple s ∧ rest.AreSimple s

section Lists
variable {host : Host ρ σ} {p : Nat} {f g g' : Frame ρ σ} {s t : GenState}

theorem Expr.IsSimpleTarget.later {e : Expr} (he : e.IsSimpleTarget s) (h : Later s t) : e.IsSimpleTarget t := by
  unfold Expr.IsSimpleTarget at he ⊢
  split at he
  · exact h.sees he
  · exact h.sees he
  · exact ⟨h.sees he.1, he.2.later h⟩
  · exact he.elim

theorem Targets.areSimple_later (h : Later s t) : ∀ ts : Targets, ts.AreSimple s → ts.AreSimple t
  | .nil, _ => trivial
  | .cons _ _ _ rest, hts => ⟨hts.1.later h, areSimple_later h rest hts.2⟩

theorem Exprs.areSimple_later (h : Later s t) : ∀ vs : Exprs, vs.AreSimple s → vs.AreSimple t
  | .one _, hvs => Expr.IsSimple.later hvs h
  | .more _ _ rest, hvs => ⟨hvs.1.later h, areSimple_later h rest hvs.2⟩

theorem Expr.placeIn?_later {e : Expr} {l : StorePlace ρ} (he : e.placeIn? s.fn g = some l) (h : Later s t) :
    e.placeIn? t.fn g = some l := by
  unfold Expr.placeIn? at he ⊢
  split at he
  case h_1 | h_2 =>
    obtain ⟨x, hx, rfl⟩ := Option.map_eq_some_iff.1 he
    rw [h.variableOf? hx, Option.map_some]
  · obtain ⟨x, hx, he⟩ := Option.bind_eq_some_iff.1 he
    obtain ⟨v, hv, rfl⟩ := Option.map_eq_some_iff.1 he
    rw [h.variableOf? hx, Option.bind_some, Expr.valueIn?_later hv h, Option.map_some]
  · cases he

theorem Targets.placesIn?_later (h : Later s t) : ∀ (ts : Targets) {ls : List (StorePlace ρ)},
    ts.placesIn? s.fn g = some ls → ts.placesIn? t.fn g = some ls
  | .nil, _, hts => hts
  | .cons _ e _ rest, _, hts => by
    simp only [Targets.placesIn?, Option.bind_eq_bind, Option.bind_eq_some_iff, Option.pure_def,
      Option.some.injEq] at hts ⊢
    obtain ⟨l, hl, ls, hls, rfl⟩ := hts
    exact ⟨l, Expr.placeIn?_later hl h, ls, placesIn?_later h rest hls, rfl⟩

theorem Exprs.valuesIn?_later (h : Later s t) : ∀ (vs : Exprs) {xs : List (Value ρ)},
    vs.valuesIn? s.fn g = some xs → vs.valuesIn? t.fn g = some xs
  | .one e, _, hvs => by
    simp only [Exprs.valuesIn?, Option.bind_eq_bind, Option.bind_eq_some_iff, Option.pure_def,
      Option.some.injEq] at hvs ⊢
    obtain ⟨v, hv, rfl⟩ := hvs
    exact ⟨v, Expr.valueIn?_later hv h, rfl⟩
  | .more e _ rest, _, hvs => by
    simp only [Exprs.valuesIn?, Option.bind_eq_bind, Option.bind_eq_some_iff, Option.pure_def,
      Option.some.injEq] at hvs ⊢
    obtain ⟨v, hv, xs, hxs, rfl⟩ := hvs
    exact ⟨v, Expr.valueIn?_later hv h, xs, valuesIn?_later h rest hxs, rfl⟩

theorem Gen.targets_does (host : Host ρ σ) : ∀ (ts : Targets) {s : GenState} {g : Frame ρ σ}
    {os : List Operand} {ls : List (StorePlace ρ)}, Steady p s → ts.AreSimple s →
    AgreeBelow s.fn.active f g → Lined s s.fn.free g os ls →
    (targets namedVariable ts os).Passes s fun os' t => ∃ g' ls', ts.placesIn? t.fn f = some ls' ∧
      AgreeBelow s.fn.active f g' ∧ Does host p f s g t g' ∧
      Lined t t.fn.free g' os' (ls'.reverse ++ ls)
  | .nil, s, g, os, ls, h, _, hfg, hl => passes_pure ⟨g, [], rfl, hfg, .refl h, hl⟩
  | .cons comma e m rest, s, g, os, ls, h, hts, hfg, hl => by
    obtain ⟨he, hrest⟩ := hts
    refine .onLine fun n => ?_
    have hline : Does host p f s g (s.onLine n) g := .onLine h n
    refine (target_does host hline.steady (he.later hline.later) hfg).bind ?_
    rintro o t ⟨g1, l, hplace, hle, hagree, hdoes, haims⟩
    have hactive := h.active
    have hl1 : Lined t t.fn.free g1 os ls := hl.mono (hline.trans hdoes).later hle hagree
    have hafter {os' : List Operand} {u : GenState} (hu : ∃ g2, t.fn.free ≤ u.fn.free ∧
        AgreeBelow t.fn.free g1 g2 ∧ Does host p f t g1 u g2 ∧
        Lined u u.fn.free g2 (o :: os') (l :: ls)) :
        (do mark m; targets namedVariable rest (o :: os') : Gen (List Operand)).Passes u fun os' w =>
        ∃ g' ls', (Targets.cons comma e m rest).placesIn? w.fn f = some ls' ∧
          AgreeBelow s.fn.active f g' ∧ Does host p f s g w g' ∧
          Lined w w.fn.free g' os' (ls'.reverse ++ ls) := by
      obtain ⟨g2, hle', hagree', hdoes', hl2⟩ := hu
      refine .onLine fun n' => ?_
      have hline' : Does host p f u g2 (u.onLine n') g2 := .onLine hdoes'.steady n'
      have hall := hline.trans (hdoes.trans (hdoes'.trans hline'))
      have hfg2 : AgreeBelow s.fn.active f g2 :=
        hfg.trans ((hagree.mono hactive.2).trans (hagree'.mono (hactive.2.trans hle)))
      refine (targets_does host rest hline'.steady (Targets.areSimple_later hall.later rest hrest)
        (by rwa [hall.later.active]) (hl2.mono hline'.later le_rfl (.refl _ g2))).mono ?_
      rintro os'' w ⟨g3, ls', hplaces, hfg3, hdoes3, hl3⟩
      have hplace' := Expr.placeIn?_later hplace (hdoes'.trans (hline'.trans hdoes3)).later
      refine ⟨g3, l :: ls', ?_, by rwa [← hall.later.active], hall.trans hdoes3, ?_⟩
      · simp [Targets.placesIn?, hplace', hplaces]
      · rw [List.reverse_cons, List.append_assoc]
        exact hl3
    cases haims with
    | @«variable» x hx =>
      have hprotect : (protectTargets os x.operand).Passes t fun os' u => ∃ g2, t.fn.free ≤ u.fn.free ∧
          AgreeBelow t.fn.free g1 g2 ∧ Does host p f t g1 u g2 ∧
          Lined u u.fn.free g2 (x.operand :: os') (.variable x :: ls) := by
        refine (protectTargets_does host f hdoes.steady hl1 hx).mono ?_
        rintro os' u ⟨g2, hle', hagree', hdoes', hl2, huntouched⟩
        refine ⟨g2, hle', hagree', hdoes', .cons (.variable ?_) ?_ hl2⟩
        · rwa [hdoes'.later.active]
        · rintro y hy o' ho'
          cases hy
          exact huntouched o' ho'
      have hmatch := hprotect.bind fun _ _ => hafter
      cases x with
      | reg r => exact hmatch
      | upval u => exact hmatch
    | @slot x n' k hx hn hk =>
      have hslot : Lined t t.fn.free g1 (x.slot n' :: os) (.slot (x.value g1) k :: ls) :=
        .cons (.slot hx hn hk) (fun y hy => by cases hy) hl1
      have hmatch := hafter ⟨g1, le_rfl, .refl _ g1, .refl hdoes.steady, hslot⟩
      cases x with
      | reg r => exact hmatch
      | upval u => exact hmatch

/-- The registers from `base` on have the values. -/
def Stacked (g : Frame ρ σ) (base : Nat) (vs : List (Value ρ)) : Prop :=
  ∀ (i : Nat) (v : Value ρ), vs[i]? = some v → g.reg (base + i) = v

theorem Gen.exprs_does (host : Host ρ σ) : ∀ (vs : Exprs) {s : GenState} {g : Frame ρ σ} {base : Nat}
    {count : Int}, Steady p s → vs.AreSimple s → AgreeBelow s.fn.active f g → s.fn.free = base →
    (exprs namedVariable vs count).Passes s fun r t => ∃ (g' : Frame ρ σ) (xs : List (Value ρ))
      (x : Value ρ), vs.valuesIn? t.fn f = some (xs ++ [x]) ∧ r.2 = count + xs.length + 1 ∧
      Means t g' r.1 x ∧ t.fn.free = base + xs.length ∧ Stacked g' base xs ∧ AgreeBelow base g g' ∧
      Does host p f s g t g'
  | .one e, s, g, base, count, h, he, hfg, hbase => by
    refine (simpleExpr_does host f g h he).bind ?_
    rintro o t ⟨hfree, hdoes, v, hv, hmeans, -⟩
    have hv' : e.valueIn? t.fn f = some v := Expr.valueIn?_agree hv (by rwa [hdoes.later.active])
    exact passes_pure ⟨g, [], v, by simp [Exprs.valuesIn?, hv'], by simp, hmeans, by simp [hfree, hbase],
      fun i v hi => by simp at hi, .refl _ g, hdoes⟩
  | .more e comma rest, s, g, base, count, h, hvs, hfg, hbase => by
    obtain ⟨he, hrest⟩ := hvs
    refine (simpleExpr_does host f g h he).bind ?_
    rintro o t ⟨hfree, hdoes, v, hv, hmeans, -⟩
    refine .onLine fun n => ?_
    have hline : Does host p f t g (t.onLine n) g := .onLine hdoes.steady n
    refine (toNextRegister_does host f g hline.steady (hmeans.later hline.later)).bind ?_
    rintro _ u ⟨r, hr, -, hfree', hdoes'⟩
    obtain rfl : r = base := by
      simp only [GenState.onLine] at hr
      omega
    have hall := hdoes.trans (hline.trans hdoes')
    have hactive := h.active
    have hg : AgreeBelow r g (g.setReg r v) := .setReg g le_rfl v
    have hfg' : AgreeBelow u.fn.active f (g.setReg r v) := by
      rw [hall.later.active]
      exact hfg.trans (hg.mono (by omega))
    have hbase' : u.fn.free = (r + 1 : Nat) := hfree'
    refine (exprs_does host rest hdoes'.steady (Exprs.areSimple_later hall.later rest hrest) hfg' hbase').mono ?_
    · rintro x w ⟨g', xs, y, hvalues, hcount, hmeans', hfree'', hstack, hagree, hdoes''⟩
      have hv' : e.valueIn? w.fn f = some v := by
        refine Expr.valueIn?_agree (Expr.valueIn?_later hv ((hline.trans hdoes').trans hdoes'').later) ?_
        rwa [(hall.trans hdoes'').later.active]
      refine ⟨g', v :: xs, y, by simp [Exprs.valuesIn?, hv', hvalues], ?_, hmeans', ?_, ?_,
        hg.trans (hagree.mono (by omega)), hall.trans hdoes''⟩
      · rw [hcount, List.length_cons]
        omega
      · rw [hfree'', List.length_cons]
        omega
      · intro i z hi
        cases i with
        | zero =>
          simp only [List.getElem?_cons_zero, Option.some.injEq] at hi
          rw [← hi, Nat.add_zero, hagree.reg r (by omega), g.setReg_reg]
        | succ i =>
          rw [← hstack i z hi]
          congr 1
          omega

end Lists

/-! ## Stores -/

section Stores
variable {host : Host ρ (List (TableStore ρ))} {p : Nat} {f g g' : Recorded ρ} {s t : GenState}
  {b : Int} {o e : Operand} {l l' : StorePlace ρ} {v : Value ρ} {x : Variable} {os : List Operand}
  {ls : List (StorePlace ρ)}

theorem AgreeBelow.put {n : Int} (h : AgreeBelow n g g') (v : Value ρ) (l : StorePlace ρ) :
    AgreeBelow n (g.put v l) (g'.put v l) := by
  cases l with
  | «variable» x =>
    cases x with
    | reg r =>
      refine ⟨fun q hq => ?_, h.upval, h.mem⟩
      simp only [Frame.put, Frame.setReg]
      split
      · rfl
      · exact h.reg q hq
    | upval u =>
      refine ⟨h.reg, ?_, h.mem⟩
      simp only [Frame.put, Frame.setUpval, h.upval]
  | slot table key =>
    refine ⟨h.reg, h.upval, ?_⟩
    simp only [Frame.put, h.mem]

theorem AgreeBelow.putAll {n : Int} (h : AgreeBelow n g g') (ls : List (StorePlace ρ)) (vs : List (Value ρ)) :
    AgreeBelow n (g.putAll ls vs) (g'.putAll ls vs) := by
  induction ls generalizing g g' vs with
  | nil => exact h
  | cons l ls ih =>
    cases vs with
    | nil => exact h
    | cons v vs => exact ih (h.put v l) vs

theorem Variable.value_put {y : Variable} (h : ∀ x, l = .variable x → y ≠ x) : y.value (g.put v l) = y.value g := by
  cases l with
  | slot table key => cases y <;> rfl
  | «variable» x =>
    have hne := h x rfl
    cases x <;> cases y <;> try rfl
    · exact if_neg fun heq => hne (congrArg Variable.reg heq)
    · exact if_neg fun heq => hne (congrArg Variable.upval heq)

theorem Aims.put (h : Aims s b g o l') (hun : ∀ x, l = .variable x → x.Untouched o) : Aims s b (g.put v l) o l' := by
  cases h with
  | «variable» hx => exact .variable hx
  | @slot y n k hy hn hk =>
    have htable : y.value (g.put v l) = y.value g :=
      Variable.value_put fun x hx => (hun x hx y n rfl).1
    have hkey : (g.put v l).reg n = g.reg n :=
      Variable.value_put (y := .reg n) fun x hx heq => (hun x hx y n rfl).2 heq.symm
    rw [← htable]
    refine .slot hy hn fun cs hcs => ?_
    rw [← hk cs hcs, rkValue, rkValue, hkey]

theorem Lined.put (h : Lined s b g os ls) (hun : ∀ x, l = .variable x → ∀ o ∈ os, x.Untouched o) :
    Lined s b (g.put v l) os ls := by
  induction h with
  | nil => exact .nil
  | cons ho hrest _ ih =>
    exact .cons (ho.put fun x hx => hun x hx _ (List.mem_cons_self ..)) hrest
      (ih fun x hx o ho => hun x hx o (List.mem_cons_of_mem _ ho))

/-! ### Code for a store -/

theorem Gen.emitSetUpval_does (host : Host ρ σ) (f g : Frame ρ σ) (h : Steady p s) {r u : Nat} :
    (emitABC .setUpval r u 0).Passes s fun _ t => t.fn.free = s.fn.free ∧
      Does host p f s g t (g.setUpval u (g.reg r)) := by
  refine passes_emitABC.mono ?_
  rintro _ _ ⟨-, rfl, ha, hb, hc⟩
  obtain ⟨hop, ha', hb', -⟩ := Instr.abc_natFields .setUpval ha hb ⟨le_rfl, hc⟩
  refine ⟨rfl, .push h (by simp [hop]) fun cs ax _ => ?_⟩
  rw [exec_setUpval hop, ha', hb']

theorem Gen.emitSetSlot_does (hrec : host.Records) (f g : Recorded ρ) (h : Steady p s) {n q : Nat}
    {k : Value ρ} (hk : ∀ cs, Within s.fn.constants cs → rkValue cs g n = some k)
    (hv : ∀ cs, Within s.fn.constants cs → rkValue cs g q = some v) :
    (emitABC x.setOpcode (x.slot n).info n q).Passes s
      fun _ t => t.fn.free = s.fn.free ∧ Does host p f s g t (g.put v (.slot (x.value g) k)) := by
  cases x with
  | reg r =>
    change (emitABC .setTable r n q).Passes s _
    refine passes_emitABC.mono ?_
    rintro _ _ ⟨-, rfl, ha, hb, hc⟩
    obtain ⟨hop, ha', hb', hc'⟩ := Instr.abc_natFields .setTable ha hb ⟨Int.natCast_nonneg q, hc⟩
    refine ⟨rfl, .push h (by simp [hop]) fun cs ax hcs => ?_⟩
    refine exec_setTable hop (v := k) (w := v) ?_ ?_ ?_
    · rw [hb', hk cs hcs]
    · rw [Int.ofNat_inj.1 hc', hv cs hcs]
    · rw [ha', hrec]
      rfl
  | upval u =>
    change (emitABC .setTabUp u n q).Passes s _
    refine passes_emitABC.mono ?_
    rintro _ _ ⟨-, rfl, ha, hb, hc⟩
    obtain ⟨hop, ha', hb', hc'⟩ := Instr.abc_natFields .setTabUp ha hb ⟨Int.natCast_nonneg q, hc⟩
    refine ⟨rfl, .push h (by simp [hop]) fun cs ax hcs => ?_⟩
    refine exec_setTabUp hop (v := k) (w := v) ?_ ?_ ?_
    · rw [hb', hk cs hcs]
    · rw [Int.ofNat_inj.1 hc', hv cs hcs]
    · rw [ha', hrec]
      rfl

theorem Gen.passes_releaseTop (h : Steady p s) {r : Nat} (hfree : s.fn.free = r + 1) (hr : s.fn.active ≤ r) :
    (releaseOperand (.plain .nonRelocatable r)).Passes s fun _ t => t = s.withFree r := by
  have hstack := h.stack
  refine passes_releaseRegister.mono ?_
  rintro _ t (⟨hor, rfl⟩ | ⟨-, -, rfl⟩)
  · rcases hor with hrk | hlt
    · rw [show (Operand.plain .nonRelocatable r).info = r from rfl, isConstantRK_of_lt (by omega)] at hrk
      cases hrk
    · simp only [Operand.plain] at hlt
      omega
  · rw [hfree, Int.add_sub_cancel]

theorem Gen.passes_releaseMeans (h : Steady p s) (he : Means s g e v) :
    (releaseOperand e).Passes s fun _ t => t = s := by
  cases he with
  | register hr => exact passes_releaseVariable h hr
  | _ => exact passes_pure rfl

theorem Does.withFree (h : Steady p s) {r : Int} (hr : s.fn.active ≤ r ∧ r ≤ s.fn.free) :
    Does host p f s g (s.withFree r) g :=
  .still (h.withFree hr) (.withFree s r) rfl

theorem Gen.passes_releaseLast (h : Does host p f s g t g') {r : Nat} (hfree : t.fn.free = r + 1)
    (hr : s.fn.active ≤ r) : (releaseOperand (.plain .nonRelocatable r)).Passes t fun _ u => u.fn.free = r ∧
      Does host p f s g u g' := by
  rw [← h.later.active] at hr
  refine (passes_releaseTop h.steady hfree hr).mono ?_
  rintro _ _ rfl
  exact ⟨rfl, h.trans (.withFree h.steady ⟨hr, by omega⟩)⟩

theorem Gen.passes_releaseAfter (h : Does host p f s g t g') (hactive : s.fn.active ≤ s.fn.free) {r : Nat}
    (hr : (r : Int) < s.fn.active ∧ t.fn.free = s.fn.free ∨ (r : Int) = s.fn.free ∧ t.fn.free = s.fn.free + 1) :
    (releaseOperand (.plain .nonRelocatable r)).Passes t fun _ u => u.fn.free = s.fn.free ∧
      Does host p f s g u g' := by
  have hsame := h.later.active
  rcases hr with ⟨hr, hfree⟩ | ⟨hr, hfree⟩
  · refine (passes_releaseVariable h.steady (by omega)).mono ?_
    rintro _ _ rfl
    exact ⟨hfree, h⟩
  · rw [← hr] at hactive hfree ⊢
    exact passes_releaseLast h hfree hactive

theorem Gen.moveRegister_does (host : Host ρ σ) (f g : Frame ρ σ) (h : Steady p s) {q r : Nat} :
    (toRegister (.plain .nonRelocatable r) q).Passes s fun _ t => t.fn.free = s.fn.free ∧
      Does host p f s g t (g.setReg q (g.reg r)) := by
  refine Passes.bind (P := fun e t => e = .plain .nonRelocatable q ∧ t.fn.free = s.fn.free ∧
    Does host p f s g t (g.setReg q (g.reg r))) ?_ ?_
  · exact moveTo_does host f g h
  · rintro _ t ⟨rfl, hfree, hdoes⟩
    exact passes_settled ⟨hfree, hdoes⟩

theorem Gen.storeTop_does (hrec : host.Records) (f : Recorded ρ) (h : Steady p s) {r : Nat}
    (ho : Aims s r g o l) (hfree : s.fn.free = r + 1) (hr : s.fn.active ≤ r) :
    (store o (.plain .nonRelocatable r)).Passes s fun _ t => t.fn.free = r ∧
      Does host p f s g t (g.put (g.reg r) l) := by
  have hstack := h.stack
  cases ho with
  | @«variable» x hx =>
    cases x with
    | reg q =>
      refine (passes_releaseTop h hfree hr).bind ?_
      rintro _ _ rfl
      have hdoes : Does host p f s g (s.withFree r) g := .withFree h ⟨hr, by omega⟩
      refine Passes.bind (moveRegister_does host f g hdoes.steady) ?_
      rintro _ t ⟨hfree', hdoes'⟩
      exact passes_pure ⟨hfree', hdoes.trans hdoes'⟩
    | upval u =>
      refine passes_pure_bind (a := Operand.plain .nonRelocatable r) ?_
      refine (emitSetUpval_does host f g h).bind ?_
      rintro _ t ⟨hfree', hdoes⟩
      exact passes_releaseLast hdoes (hfree'.trans hfree) hr
  | @slot x n k hx hn hk =>
    have hvalue : ∀ cs, Within s.fn.constants cs → rkValue cs g r = some (g.reg r) :=
      fun cs _ => rkValue_register (by omega)
    have hemit := (emitSetSlot_does (x := x) hrec f g h hk hvalue).bind (f := fun _ =>
        releaseOperand (.plain .nonRelocatable r)) (Q := fun _ t => t.fn.free = r ∧
          Does host p f s g t (g.put (g.reg r) (.slot (x.value g) k))) <| by
      rintro _ t ⟨hfree', hdoes⟩
      exact passes_releaseLast hdoes (hfree'.trans hfree) hr
    cases x with
    | reg q | upval u =>
      refine passes_pure_bind (a := (Operand.plain .nonRelocatable r, (r : Int))) ?_
      exact hemit

theorem Gen.store_does (hrec : host.Records) (f : Recorded ρ) (h : Steady p s)
    (ho : Aims s s.fn.free g o l) (he : Means s g e v) : (store o e).Passes s fun _ t => t.fn.free = s.fn.free ∧ ∃ g',
      AgreeBelow s.fn.free (g.put v l) g' ∧ Does host p f s g t g' := by
  have hactive := h.active
  have hstack := h.stack
  cases ho with
  | @«variable» x hx =>
    cases x with
    | reg r =>
      refine (passes_releaseMeans h he).bind ?_
      rintro _ s rfl
      have hr : (r : Int) < s.fn.active := hx
      refine Passes.bind (toRegister_does host f g h he (show r < 250 by omega)) ?_
      rintro _ t ⟨-, hfree, hdoes⟩
      exact passes_pure ⟨hfree, _, .refl _ _, hdoes⟩
    | upval u =>
      refine (toAnyRegister_does host f g h he).bind ?_
      rintro _ t ⟨r, g', rfl, hin, hagree, hdoes⟩
      refine (emitSetUpval_does host f g' hdoes.steady).bind ?_
      rintro _ w ⟨hfree, hdoes'⟩
      rw [hin.value] at hdoes'
      refine (passes_releaseAfter (hdoes.trans hdoes') hactive.2 ?_).mono ?_
      · exact hin.free.imp (fun hr => ⟨hr.1, hfree.trans hr.2⟩) fun hr => ⟨hr.1, hfree.trans hr.2⟩
      · rintro _ z ⟨hfree', hdoes''⟩
        exact ⟨hfree', _, hagree.put v (.variable (.upval u)), hdoes''⟩
  | @slot x n k hx hn hk =>
    have hstore : (do
        let r ← toRK e
        let _ ← emitABC x.setOpcode (x.slot n).info n r.2
        releaseOperand r.1 : Gen Unit).Passes s fun _ t => t.fn.free = s.fn.free ∧ ∃ g',
        AgreeBelow s.fn.free (g.put v (.slot (x.value g) k)) g' ∧ Does host p f s g t g' := by
      refine (toRK_does host f g h he).bind ?_
      rintro ⟨e', rk⟩ t ⟨q, g', hrk, hagree, hin, hdoes⟩
      obtain rfl : rk = q := hrk
      have hkey : ∀ cs, Within t.fn.constants cs → rkValue cs g' n = some k := fun cs hcs => by
        rw [rkValue_agree hagree hn]
        exact hk cs fun i c hc => hcs i c (hdoes.later.constants i c hc)
      refine (emitSetSlot_does (x := x) hrec f g' hdoes.steady hkey hin.value).bind ?_
      rintro _ w ⟨hfree, hdoes'⟩
      rw [Variable.value_agree hagree hx] at hdoes'
      have hput := hagree.put v (.slot (x.value g) k)
      have hall := hdoes.trans hdoes'
      rcases hin.free with ⟨hkind, -, hfree'⟩ | ⟨rfl, hr⟩
      · unfold releaseOperand
        rw [hkind]
        exact passes_pure ⟨hfree.trans hfree', _, hput, hall⟩
      · refine (passes_releaseAfter hall hactive.2 ?_).mono ?_
        · exact hr.imp (fun hr => ⟨hr.1, hfree.trans hr.2⟩) fun hr => ⟨hr.1, hfree.trans hr.2⟩
        · rintro _ z ⟨hfree', hdoes''⟩
          exact ⟨hfree', _, hput, hdoes''⟩
    cases x with
    | reg r => exact hstore
    | upval u => exact hstore

theorem Stacked.put {base : Nat} {vs : List (Value ρ)} (h : Stacked g base vs)
    (hl : ∀ x, l = .variable x → x.Below base) : Stacked (g.put v l) base vs := by
  intro i w hi
  rw [← h i w hi]
  exact Variable.value_put (y := .reg (base + i)) fun x hx heq =>
    (hl x hx).ne_reg (by omega) heq.symm

theorem Gen.storeAll_does (hrec : host.Records) (f : Recorded ρ) {base : Nat} {vs : List (Value ρ)}
    (h : Steady p s) (hl : Lined s base g os ls) (hvs : vs.length = os.length)
    (hfree : s.fn.free = base + os.length) (hbase : s.fn.active ≤ base) (hstack : Stacked g base vs) :
    (storeAll os).Passes s fun _ t => Does host p f s g t (g.putAll ls vs.reverse) := by
  induction os generalizing s g ls vs with
  | nil =>
    cases hl
    exact passes_pure (.refl h)
  | cons o os ih =>
    cases hl with
    | @cons _ l _ ls ho hun hos =>
      obtain ⟨init, v, rfl⟩ : ∃ init v, vs = init ++ [v] := by
        rcases List.eq_nil_or_concat vs with rfl | ⟨init, v, rfl⟩
        · simp at hvs
        · exact ⟨init, v, by simp⟩
      have hlen : init.length = os.length := by simpa using hvs
      have hv : g.reg (base + os.length) = v := hstack _ v (by simp [hlen])
      refine .getFn ?_
      have htop : s.fn.free - 1 = (base + os.length : Nat) := by
        rw [hfree, List.length_cons]
        omega
      rw [htop]
      refine Passes.bind (storeTop_does hrec f h (ho.mono (.refl s) (by omega) (.refl _ g))
        (by omega) (by omega)) ?_
      rintro _ t ⟨hfree', hdoes⟩
      rw [hv] at hdoes
      have hbelow : ∀ x, l = .variable x → x.Below base := by
        rintro x rfl
        cases ho with
        | «variable» hx => exact hx.mono hbase
      have hinit : Stacked g base init := fun i w hi =>
        hstack i w (by rw [List.getElem?_append_left (List.getElem?_eq_some_iff.1 hi).1, hi])
      have hos' : Lined t base (g.put v l) os ls :=
        (hos.put hun).mono hdoes.later le_rfl (.refl _ _)
      have hinit' : Stacked (g.put v l) base init := hinit.put hbelow
      refine (ih hdoes.steady hos' hlen (by omega) (by rwa [hdoes.later.active]) hinit').mono ?_
      intro _ u hdoes'
      rw [List.reverse_append, List.reverse_singleton, List.singleton_append, Frame.putAll]
      exact hdoes.trans hdoes'

end Stores

/-! ## Assignments -/

/-- Values are dropped, or nils added, to make `n` of them. -/
def adjusted (n : Nat) (vs : List (Value ρ)) : List (Value ρ) :=
  (vs ++ List.replicate (n - vs.length) Value.nil).take n

theorem length_adjusted (n : Nat) (vs : List (Value ρ)) : (adjusted n vs).length = n := by
  simp only [adjusted, List.length_take, List.length_append, List.length_replicate]
  omega

theorem adjusted_self (vs : List (Value ρ)) : adjusted vs.length vs = vs := by
  simp [adjusted]

section Adjust
variable {host : Host ρ σ} {p base : Nat} {f g g' : Frame ρ σ} {s t : GenState} {e : Operand}
  {x : Value ρ} {xs : List (Value ρ)}

theorem Stacked.agree {n : Int} (h : Stacked g base xs) (hg : AgreeBelow n g g')
    (hn : (base : Int) + xs.length ≤ n) : Stacked g' base xs := by
  intro i v hi
  have hlt := (List.getElem?_eq_some_iff.1 hi).1
  rw [hg.reg _ (by omega), h i v hi]

theorem Stacked.concat (h : Stacked g base xs) (hx : g.reg (base + xs.length) = x) : Stacked g base (xs ++ [x]) := by
  intro i v hi
  rw [List.getElem?_append] at hi
  split at hi
  · exact h i v hi
  · next hle =>
    obtain ⟨hlt, rfl⟩ := List.getElem?_eq_some_iff.1 hi
    obtain rfl : i = xs.length := by simp at hlt; omega
    simpa using hx

theorem Stacked.nils (h : Stacked g base xs) (n : Nat) :
    Stacked (g.setNils (base + xs.length) (base + xs.length + n - 1)) base (xs ++ List.replicate n Value.nil) := by
  intro i v hi
  rw [List.getElem?_append] at hi
  split at hi
  · next hlt =>
    rw [← h i v hi]
    exact if_neg (by omega)
  · next hle =>
    obtain ⟨hlt, rfl⟩ := List.getElem?_eq_some_iff.1 hi
    rw [List.length_replicate] at hlt
    rw [List.getElem_replicate]
    exact if_pos (by omega)

theorem Stacked.take (h : Stacked g base xs) (n : Nat) : Stacked g base (xs.take n) := by
  intro i v hi
  rw [List.getElem?_take] at hi
  split at hi
  · exact h i v hi
  · cases hi

theorem Means.isOpen (h : Means s g e x) : e.isOpen = Bool.false := by
  cases h <;> rfl

theorem Means.kind_ne_void (h : Means s g e x) : e.kind ≠ .void := by
  cases h <;> simp [Operand.plain, Operand.number]

/-- The values, the last of which is that of `e`, and more nils if `n` are wanted, are in registers. -/
theorem Gen.adjustTo_does (host : Host ρ σ) (f : Frame ρ σ) (n : Nat) (h : Steady p s)
    (he : Means s g e x) (hstack : Stacked g base xs) (hfree : s.fn.free = base + xs.length) :
    (adjustTo n (xs.length + 1) e).Passes s fun _ t => ∃ g', AgreeBelow s.fn.free g g' ∧
      Does host p f s g t g' ∧ t.fn.free = base + (max n (xs.length + 1) : Nat) ∧
      Stacked g' base ((xs ++ [x]) ++ List.replicate (n - (xs.length + 1)) Value.nil) := by
  unfold adjustTo
  rw [he.isOpen]
  rw [if_neg (by simp), if_pos he.kind_ne_void]
  refine (toNextRegister_does host f g h he).bind ?_
  rintro _ t ⟨r, hr, -, hfree', hdoes⟩
  obtain rfl : r = base + xs.length := by omega
  have hagree : AgreeBelow s.fn.free g (g.setReg (base + xs.length) x) := .setReg g hr.le x
  have hall : Stacked (g.setReg (base + xs.length) x) base (xs ++ [x]) :=
    (hstack.agree hagree hfree.ge).concat (g.setReg_reg _ x)
  split
  · next hextra =>
    obtain ⟨k, hk⟩ : ∃ k, n = xs.length + 1 + k := ⟨n - (xs.length + 1), by omega⟩
    refine .firstFree ?_
    refine (passes_reserve hdoes.steady.stack.2).bind ?_
    rintro _ _ ⟨rfl, hmax⟩
    have hroom := hdoes.trans (.reserved hdoes.steady (n := (n : Int) - (xs.length + 1)) (by omega) hmax)
    have hregister : t.fn.free = (base + (xs.length + 1) : Nat) := by omega
    have hcount : (n : Int) - (xs.length + 1) = (k : Nat) := by omega
    rw [hregister, hcount] at hmax ⊢
    rw [hcount] at hroom
    refine (emitNils_leads host f (g.setReg (base + xs.length) x) hroom.steady (base + (xs.length + 1)) k
      (by omega) (by omega)).mono ?_
    rintro _ u ⟨hsteady, hlater, hfree'', hleads⟩
    have hnils := hall.nils k
    rw [List.length_append, List.length_singleton] at hnils
    refine ⟨_, hagree.trans (.setNils _ (by omega) _), hroom.trans ⟨hsteady, hlater, hleads⟩, ?_, ?_⟩
    · rw [hfree'']
      simp only [GenState.reserved, GenState.withFree]
      omega
    · rwa [hk, Nat.add_sub_cancel_left]
  · next hextra =>
    refine passes_pure ⟨_, hagree, hdoes, by omega, ?_⟩
    rwa [show n - (xs.length + 1) = 0 by omega, List.replicate_zero, List.append_nil]

theorem Gen.passes_giveOne (h : Means s g e x) : (giveOne e).Passes s fun e' t => e' = e ∧ t = s := by
  cases h <;> exact passes_pure ⟨rfl, rfl⟩

end Adjust

section Assign
variable {host : Host ρ (List (TableStore ρ))} {p base : Nat} {f g : Recorded ρ} {s t : GenState}
  {e : Operand} {x : Value ρ} {xs : List (Value ρ)} {os : List Operand} {ls : List (StorePlace ρ)}

theorem Gen.assignEqual_does (hrec : host.Records) (f : Recorded ρ) {o : Operand} (h : Steady p s)
    (hl : Lined s base g (o :: os) ls) (he : Means s g e x) (hstack : Stacked g base xs)
    (hfree : s.fn.free = base + xs.length) (hbase : s.fn.active ≤ base) (hlen : xs.length = os.length) :
    (do store o (← giveOne e); storeAll os : Gen Unit).Passes s fun _ t => ∃ g',
      AgreeBelow s.fn.active (g.putAll ls (xs ++ [x]).reverse) g' ∧ Does host p f s g t g' := by
  cases hl with
  | @cons _ l _ ls ho hun hos =>
    refine (passes_giveOne he).bind ?_
    rintro _ s ⟨rfl, rfl⟩
    refine (store_does hrec f h (ho.mono (.refl s) (by omega) (.refl _ g)) he).bind ?_
    rintro _ t ⟨hfree', g1, hagree, hdoes⟩
    have hbelow : ∀ y, l = .variable y → y.Below base := by
      rintro y rfl
      cases ho with
      | «variable» hy => exact hy.mono hbase
    have hos' : Lined t base g1 os ls :=
      (hos.put hun).mono hdoes.later le_rfl (hagree.mono (by omega))
    have hstack' : Stacked g1 base xs := (hstack.put hbelow).agree hagree hfree.ge
    refine (storeAll_does hrec f hdoes.steady hos' hlen (by omega) (by rwa [hdoes.later.active])
      hstack').mono ?_
    intro _ u hdoes'
    refine ⟨_, ?_, hdoes.trans hdoes'⟩
    rw [List.reverse_append, List.reverse_singleton, List.singleton_append, Frame.putAll]
    exact (hagree.mono (by omega)).putAll ls xs.reverse

theorem Gen.assignTo_does (hrec : host.Records) (f : Recorded ρ) (h : Steady p s)
    (hl : Lined s base g os ls) (he : Means s g e x) (hstack : Stacked g base xs)
    (hfree : s.fn.free = base + xs.length) (hbase : s.fn.active ≤ base) :
    (assignTo os (xs.length + 1) e).Passes s fun _ t => ∃ g',
      AgreeBelow s.fn.active (g.putAll ls (adjusted os.length (xs ++ [x])).reverse) g' ∧ Does host p f s g t g' := by
  unfold assignTo
  dsimp only
  split
  · next hcount =>
    have hlen : os.length = (xs ++ [x]).length := by
      rw [List.length_append, List.length_singleton]
      omega
    rw [hlen, adjusted_self]
    cases os with
    | nil => simp at hcount; omega
    | cons o os =>
      exact assignEqual_does hrec f h hl he hstack hfree hbase (by simp at hcount; omega)
  · refine (adjustTo_does host f os.length h he hstack hfree).bind ?_
    rintro _ t ⟨g1, hagree, hdoes, hfree', hstack'⟩
    have hactive := hdoes.later.active
    have hvalues : Stacked g1 base (adjusted os.length (xs ++ [x])) := by
      have := hstack'.take os.length
      rwa [adjusted, List.length_append, List.length_singleton]
    have hos : Lined t base g1 os ls := hl.mono hdoes.later le_rfl (hagree.mono (by omega))
    have hput : AgreeBelow s.fn.active (g.putAll ls (adjusted os.length (xs ++ [x])).reverse)
        (g1.putAll ls (adjusted os.length (xs ++ [x])).reverse) :=
      (hagree.mono (by omega)).putAll ls _
    split
    · next hmore =>
      refine passes_modifyFn.bind ?_
      rintro _ _ rfl
      have hdrop : Does host p f t g1 (t.withFree (t.fn.free - ((xs.length : Int) + 1 - os.length))) g1 :=
        .withFree hdoes.steady ⟨by omega, by omega⟩
      refine (storeAll_does hrec f hdrop.steady (hos.mono hdrop.later le_rfl (.refl _ g1))
        (length_adjusted ..) ?_ ?_ hvalues).mono fun _ u hdoes' =>
          ⟨_, hput, (hdoes.trans hdrop).trans hdoes'⟩
      · simp only [GenState.withFree]
        omega
      · rw [(hdoes.trans hdrop).later.active]
        exact hbase
    · next hless =>
      exact (storeAll_does hrec f hdoes.steady hos (length_adjusted ..) (by omega) (by omega)
        hvalues).mono fun _ u hdoes' => ⟨_, hput, hdoes.trans hdoes'⟩

theorem Lined.length_eq {b : Int} (h : Lined s b g os ls) : os.length = ls.length := by
  induction h with
  | nil => rfl
  | cons _ _ _ ih => simp [ih]

theorem Steady.of_ok {H : Set Nat} (h : s.Ok H) (hlabel : s.fn.lastTarget = s.fn.code.size)
    (hfree : s.fn.active ≤ s.fn.free) : Steady s.fn.code.size s where
  target := hlabel
  start := le_rfl
  active := ⟨h.fn.active.1, hfree⟩
  stack := ⟨h.fn.free.2, h.fn.stack.2⟩
  places key k hk := ⟨_, h.fn.places key k hk, by cases key <;> rfl⟩
  nils k i hk hi := absurd (lt_size_of_some hi) (by omega)

/-- An assignment has the effect of storing in all its targets at once. Its targets are variables, or
fields of variables whose keys are names, literals or local variables, and its values are variables or
literals. If no jump leads into its code, and stores in tables are recorded, then its code runs to its end
from every frame `f`. There, all variables and the record are as after these steps: the tables and keys of
all targets, and all values, are found in `f`; there are made as many values as targets; and the values are
stored in the targets from right to left. -/
theorem assign_simultaneous {H : Set Nat} {ts : Targets} {m : Mark} {vs : Exprs} (hs : s.Ok H)
    (hlabel : s.fn.lastTarget = s.fn.code.size) (hfree : s.fn.active ≤ s.fn.free)
    (hts : ts.AreSimple s) (hvs : vs.AreSimple s)
    (hrun : stat namedVariable (.assign ts m vs) s = .ok ((), t)) (hrec : host.Records)
    (f : Recorded ρ) :
    ∃ places values f', ts.placesIn? t.fn f = some places ∧ vs.valuesIn? t.fn f = some values ∧
      Reaches host t.fn.constants t.fn.code (.running s.fn.code.size f) (.running t.fn.code.size f') ∧
      AgreeBelow s.fn.active (f.putAll places.reverse (adjusted places.length values).reverse) f' := by
  have hsteady := Steady.of_ok hs hlabel hfree
  suffices hpasses : (stat namedVariable (.assign ts m vs)).Passes s fun _ t => ∃ places values f',
      ts.placesIn? t.fn f = some places ∧ vs.valuesIn? t.fn f = some values ∧
      AgreeBelow s.fn.active (f.putAll places.reverse (adjusted places.length values).reverse) f' ∧
      Does host s.fn.code.size f s f t f' by
    obtain ⟨places, values, f', hplaces, hvalues, hagree, hdoes⟩ := hpasses () t hrun
    have hflow := hdoes.leads (fun cs _ => .start) t.fn.constants fun _ _ hc => hc
    exact ⟨places, values, f', hplaces, hvalues, hflow.reaches, hagree⟩
  simp only [stat]
  refine (targets_does host ts hsteady hts (.refl _ f) .nil).bind ?_
  rintro os t ⟨g₁, places, hplaces, hagree₁, hdoes₁, hl⟩
  rw [List.append_nil] at hl
  refine .onLine fun n => ?_
  have hline : Does host s.fn.code.size f t g₁ (t.onLine n) g₁ := .onLine hdoes₁.steady n
  have hall := hdoes₁.trans hline
  obtain ⟨base, hbase⟩ : ∃ base : Nat, t.fn.free = base :=
    ⟨t.fn.free.toNat, by have := hdoes₁.steady.active; omega⟩
  refine (exprs_does host vs hall.steady (Exprs.areSimple_later hall.later vs hvs)
    (by rwa [hall.later.active]) hbase).bind ?_
  rintro ⟨e, count⟩ u ⟨g₂, xs, x, hvalues, hcount, hmeans, hfree₂, hstack, hagree₂, hdoes₂⟩
  have hall₂ := hall.trans hdoes₂
  rw [hbase] at hl
  have hactive : s.fn.active ≤ base := by
    have := hdoes₁.steady.active
    have := hdoes₁.later.active
    omega
  have hcount' : count = xs.length + 1 := by
    simp only at hcount
    omega
  rw [hcount']
  refine (assignTo_does hrec f hdoes₂.steady
    (hl.mono (hline.trans hdoes₂).later le_rfl hagree₂) hmeans hstack hfree₂ ?_).mono ?_
  · rwa [hall₂.later.active]
  · rintro _ w ⟨g₃, hagree₃, hdoes₃⟩
    have hlater := (hline.trans (hdoes₂.trans hdoes₃)).later
    have hstart : AgreeBelow s.fn.active f g₂ := hagree₁.trans (hagree₂.mono hactive)
    rw [hall₂.later.active, hl.length_eq, List.length_reverse] at hagree₃
    exact ⟨places, xs ++ [x], g₃, Targets.placesIn?_later hlater ts hplaces,
      Exprs.valuesIn?_later hdoes₃.later vs hvalues, (hstart.putAll _ _).trans hagree₃,
      hall₂.trans hdoes₃⟩

theorem exists_ok_of_toOption {ε α β : Type} {x : Except ε (Unit × α)} {h : α → β} {b : β}
    (hx : (x.toOption.map fun r => h r.2) = some b) : ∃ a, x = .ok ((), a) ∧ h a = b := by
  cases x with
  | error e => cases hx
  | ok r => exact ⟨r.2, rfl, Option.some.inj hx⟩

/-- `_ENV, _ENV = true` stores a nil and then the value. -/
theorem assign_simultaneous_twice : ∃ t f', stat namedVariable
      (.assign (.cons (.line 1) (.name (.line 1) envName) (.line 1)
        (.cons (.line 1) (.name (.line 1) envName) (.line 1) .nil)) (.line 1) (.one (.true (.line 1))))
      (GenState.main []) = .ok ((), t) ∧
    Reaches (Host.recorder Unit) t.fn.constants t.fn.code (.running 0 Frame.empty)
      (.running t.fn.code.size f') ∧ f'.upval 0 = .boolean true ∧ f'.mem = [] := by
  have hflow : Flow (GenState.main []) ∅ [] :=
    .fresh rfl (by simp) rfl (by simp [GenState.main]) rfl
  have hok : (GenState.main []).Ok ∅ := by simpa [places] using hflow.ok
  have hsees : (GenState.main []).Sees envName := .inr (.inl (by decide +kernel))
  have hts : (Targets.cons (.line 1) (.name (.line 1) envName) (.line 1)
      (.cons (.line 1) (.name (.line 1) envName) (.line 1) .nil)).AreSimple (GenState.main []) :=
    ⟨hsees, hsees, trivial⟩
  have hvs : (Exprs.one (.true (.line 1))).AreSimple (GenState.main []) := trivial
  obtain ⟨t, hrun, hvariable⟩ := exists_ok_of_toOption (h := (·.fn.variableOf? envName))
    (b := some (.upval 0)) (x := stat namedVariable (.assign (.cons (.line 1) (.name (.line 1) envName) (.line 1)
        (.cons (.line 1) (.name (.line 1) envName) (.line 1) .nil)) (.line 1) (.one (.true (.line 1))))
      (GenState.main [])) (by decide +kernel)
  obtain ⟨places, values, f', hplaces, hvalues, hreach, hagree⟩ :=
    assign_simultaneous hok rfl le_rfl hts hvs hrun (Host.recorder_records Unit) Frame.empty
  simp only [Targets.placesIn?, Expr.placeIn?, hvariable] at hplaces
  simp only [Exprs.valuesIn?, Expr.valueIn?] at hvalues
  cases hplaces
  cases hvalues
  exact ⟨t, f', hrun, hreach, congrFun hagree.upval 0, hagree.mem⟩

end Assign

end RegisterCompiler
