import RegisterCompiler.Proofs.Layout

/-!
# Compiled functions

What holds of every function that `compile` gives, and how `compile` can end:

* `tracks_chunk` : code for a whole source and for the halted source, from the tree;
* `compile_controlFlow`, `compile_operandsInRange`, `compile_closesCaptured` : compiled functions are
  well formed, at every depth;
* `compile_outcomes` : no requirement of a step fails, but for the one that a loop over more than
  three values breaks.
-/

namespace RegisterCompiler

open Gen

/-! ## Whole sources -/

theorem GenState.rests_main {name : Bytes} (h : Flow (GenState.main name) ∅ []) : Rests (GenState.main name) ∅ [] :=
  ⟨h, by simp [GenState.main, Func.fresh], rfl, rfl⟩

theorem tracks_chunk (w : Runs) {c : Chunk} (hc : c.body.Proper) (name : Bytes) :
    Tracks w.stop (chunk w.named c) (chunk w.named' (c.halt w.fault)) (.initial name)
      fun p _ => p.Sound ∧ p.upvalueList = [⟨envName, true, 0⟩] := by
  refine tracks_mark fun n _ => .step (openMain_spec.mono ?_)
  rintro - _ ⟨rfl, hflow⟩
  refine (tracks_block w c.body hc _ ∅ [] (GenState.rests_main hflow) ⟨_, _, rfl, rfl⟩).bind ?_
  rintro - t ⟨ws, ht, hadv⟩
  refine tracks_mark fun k _ => Ensures.tracks ?_
  -- only the outermost block is open, and there is no function around
  obtain ⟨d, ds, hscopes, hd, hnil⟩ := List.map_eq_cons_iff.1 hadv.scopes
  obtain rfl := List.map_eq_nil_iff.1 hnil
  have hloop : d.erase.isLoop = false := hd ▸ rfl
  have hout : (t.onLine k).outer = [] := List.forall₂_nil_left_iff.1 hadv.outer
  refine .bind (closeFunction_spec (ht.onLine k).toFlow hscopes hloop ht.free.ge ht.declared.le) ?_
  rintro i u ⟨g, hsound, hup, hu⟩
  rw [hout] at hu
  subst hu
  refine ⟨hsound, ?_⟩
  have henv : Linked (t.onLine k).fn [] := hout ▸ (ht.onLine k).ok.env
  exact (Func.upvalueList_toProto ..).trans (congrArg Array.toList (hup.trans henv))

/-! ## Functions without debug information -/

namespace Proto

@[simp] theorem length_upvalueList_strip (p : Proto) : p.strip.upvalueList.length = p.upvalueList.length := by
  rw [upvalueList_strip, List.length_map]

@[simp] theorem length_children_strip (p : Proto) : p.strip.children.length = p.children.length := by
  rw [children_strip, List.length_map]

@[simp] theorem stack_strip (p : Proto) : p.strip.stack = p.stack := by
  cases p
  rw [strip]

@[simp] theorem params_strip (p : Proto) : p.strip.params = p.params := by
  cases p
  rw [strip]

end Proto

theorem OperandsInRange.strip {p : Proto} (h : OperandsInRange p) : OperandsInRange p.strip where
  stack := by simpa using h.stack
  params := by simpa using h.params
  registers := by simpa using @h.registers
  closes := by simpa using @h.closes
  constants := by simpa using @h.constants
  extraConstants := by simpa using @h.extraConstants
  upvalues := by simpa using @h.upvalues
  upvalueCount := by simpa using h.upvalueCount
  protos := by simpa using @h.protos

/-! ## Compiling -/

theorem exists_sound_of_compile {source name : Bytes} {strip : Bool} {p : Proto}
    (h : compile source name strip = .ok p) :
    ∃ q : Proto, q.Sound ∧ p = if strip then q.strip else q := by
  have htracks : Tracks _ (chunk namedVariable _) _ _ _ :=
    tracks_chunk .compiler (readChunk_proper source) (if name.isEmpty then source else name)
  obtain ⟨r, hrun, rfl⟩ := chunk_of_compile h
  unfold Tracks at htracks
  rw [hrun] at htracks
  exact ⟨r.1, htracks.2.1, rfl⟩

/-- What holds of the functions of a source with debug information, and of a function without if it
holds of the function with it, holds of all compiled functions. -/
theorem forall_walk_of_compile {source name : Bytes} {strip : Bool} {p : Proto}
    {P : Proto → Prop} (h : compile source name strip = .ok p)
    (hP : ∀ q : Proto, q.WellFormed → P q) (hstrip : ∀ q : Proto, P q → P q.strip) : ∀ q ∈ p.walk, P q := by
  obtain ⟨q, hq, rfl⟩ := exists_sound_of_compile h
  cases strip with
  | false => exact fun r hr => hP r (hq r hr)
  | true =>
    intro r hr
    rw [if_pos rfl, Proto.walk_strip] at hr
    obtain ⟨r', hr', rfl⟩ := List.mem_map.1 hr
    exact hstrip r' (hP r' (hq r' hr'))

/-- A loop with a test and a way out, in which the variable `a` is captured. -/
def loopSource : Bytes :=
  bytes "local x, f while x do local a if a then local b break end f = function() return a end end"

theorem exists_compile_loop (strip : Bool) : ∃ p, compile loopSource [] strip = .ok p := by
  refine exists_eq_ok ?_
  revert strip
  decide +kernel

/-- The control flow of every compiled function is well formed. -/
theorem compile_controlFlow {source name : Bytes} {strip : Bool} {p : Proto}
    (h : compile source name strip = .ok p) : ∀ q ∈ p.walk, ControlFlow q.codeArray :=
  forall_walk_of_compile h (fun _ hq => hq.control) fun q hq => by rwa [Proto.codeArray_strip]

theorem compile_controlFlow_loop : ∃ p, compile loopSource [] true = .ok p ∧
    ∀ q ∈ p.walk, ControlFlow q.codeArray := by
  obtain ⟨p, hp⟩ := exists_compile_loop true
  exact ⟨p, hp, compile_controlFlow hp⟩

/-- All that the instructions of a compiled function use exists in it. -/
theorem compile_operandsInRange {source name : Bytes} {strip : Bool} {p : Proto}
    (h : compile source name strip = .ok p) : ∀ q ∈ p.walk, OperandsInRange q :=
  forall_walk_of_compile h (fun _ hq => hq.operands) fun _ hq => hq.strip

theorem compile_operandsInRange_loop : ∃ p, compile loopSource [] true = .ok p ∧
    ∀ q ∈ p.walk, OperandsInRange q := by
  obtain ⟨p, hp⟩ := exists_compile_loop true
  exact ⟨p, hp, compile_operandsInRange hp⟩

/-- Control leaves the range of a captured variable only by jumps that close it, in every function
that is compiled with its debug information. -/
theorem compile_closesCaptured {source name : Bytes} {p : Proto}
    (h : compile source name false = .ok p) : ∀ q ∈ p.walk, ClosesCaptured q := by
  obtain ⟨p, hsound, rfl⟩ := exists_sound_of_compile h
  exact fun q hq => (hsound q hq).captured

/-- The jump at 7 leaves the loop, and with it the range of `a`. -/
theorem compile_closesCaptured_loop : ∃ p i, compile loopSource [] false = .ok p ∧
    p.locals[2]? = some ⟨bytes "a", 4, 11⟩ ∧ p.MakesClosureOver 8 2 ∧
    p.codeArray[7]? = some i ∧ i.GoesTo 7 12 ∧ i.Closes 2 := by
  obtain ⟨p, hp⟩ := exists_compile_loop false
  have hfacts : (compile loopSource [] false).toOption.all (fun p =>
      p.locals == [⟨bytes "x", 1, 13⟩, ⟨bytes "f", 1, 13⟩, ⟨bytes "a", 4, 11⟩, ⟨bytes "b", 7, 8⟩] &&
      p.codeArray[7]? == some (.abx Opcode.jmp.code 3 (maxSBx + 4)) &&
      p.codeArray[8]? == some (.abx Opcode.closure.code 3 0) &&
      p.children.map (·.map Proto.upvalueList) == [some [⟨bytes "a", true, 2⟩]]) = true := by
    decide +kernel
  simp only [hp, Except.toOption, Option.all_some, Bool.and_eq_true, beq_iff_eq, and_assoc] at hfacts
  obtain ⟨hlocals, hjump, hclosure, hchildren⟩ := hfacts
  obtain ⟨child, hchild, hups'⟩ := List.map_eq_singleton_iff.1 hchildren
  obtain ⟨child, rfl, hups⟩ := Option.map_eq_some_iff.1 hups'
  have hlocal : p.locals[2]? = some ⟨bytes "a", 4, 11⟩ := by rw [hlocals]; rfl
  have hreg : p.registerOfLocal 2 ⟨bytes "a", 4, 11⟩ = 2 := by rw [Proto.registerOfLocal, hlocals]; decide
  have hover : p.MakesClosureOver 8 2 :=
    ⟨_, child, ⟨bytes "a", true, 2⟩, hclosure, by decide, by rw [hchild]; rfl, by simp [hups], rfl, rfl⟩
  have hconfined := compile_closesCaptured hp p (Proto.mem_walk_self p) 2 _ hlocal ⟨8, by decide, by decide, by rwa [hreg]⟩
  rw [hreg] at hconfined
  have hgoes : Instr.GoesTo (.abx Opcode.jmp.code 3 (maxSBx + 4)) 7 12 := rfl
  exact ⟨p, _, hp, hlocal, hover, hjump, hgoes, hconfined 7 _ 12 hjump hgoes (by decide) (by decide) (by decide)⟩

/-! ## Loops over more than three values -/

mutual

/-- No loop in the expression goes over more than three values. -/
def Expr.Narrow : Expr → Prop
  | .missing _ | .nil _ | .true _ | .false _ | .number .. | .string .. | .vararg _ | .name .. => True
  | .function _ b => b.Narrow
  | .table t => t.Narrow
  | .paren _ e _ => e.Narrow
  | .suffixed e rest => e.Narrow ∧ rest.Narrow
  | .unary _ _ _ e => e.Narrow
  | .binary e rest => e.Narrow ∧ rest.Narrow

def Suffixes.Narrow : Suffixes → Prop
  | .nil => True
  | .field _ _ rest => rest.Narrow
  | .index _ key _ rest => key.Narrow ∧ rest.Narrow
  | .call _ as rest => as.Narrow ∧ rest.Narrow
  | .method _ _ _ as rest => as.Narrow ∧ rest.Narrow

def Operations.Narrow : Operations → Prop
  | .nil => True
  | .cons _ _ _ right rest => right.Narrow ∧ rest.Narrow

def Exprs.Narrow : Exprs → Prop
  | .one e => e.Narrow
  | .more e _ rest => e.Narrow ∧ rest.Narrow

def Args.Narrow : Args → Prop
  | .missing _ | .none .. | .string .. => True
  | .list _ values _ => values.Narrow
  | .table t => t.Narrow

def Table.Narrow : Table → Prop
  | .mk _ fs _ => fs.Narrow

def Fields.Narrow : Fields → Prop
  | .nil => True
  | .item value _ rest => value.Narrow ∧ rest.Narrow
  | .named _ _ _ value _ rest => value.Narrow ∧ rest.Narrow
  | .keyed _ key _ value _ rest => key.Narrow ∧ value.Narrow ∧ rest.Narrow

def Body.Narrow : Body → Prop
  | .mk _ _ _ _ _ _ b _ _ => b.Narrow

/-- No loop in the statement, nor the statement itself, goes over more than three values. -/
def Stat.Narrow : Stat → Prop
  | .missing _ | .empty _ | .label .. | .goto _ => True
  | .block _ b _ => b.Narrow
  | .cond cs _ b _ => cs.Narrow ∧ b.Narrow
  | .while _ test _ b _ => test.Narrow ∧ b.Narrow
  | .repeat _ b _ test => b.Narrow ∧ test.Narrow
  | .forNum _ _ _ _ first _ limit s _ b _ => first.Narrow ∧ limit.Narrow ∧ s.Narrow ∧ b.Narrow
  | .forIn _ _ _ _ _ values _ b _ => values.length ≤ 3 ∧ values.Narrow ∧ b.Narrow
  | .function _ _ _ _ _ b => b.Narrow
  | .localFunction _ _ b => b.Narrow
  | .localVars _ vs => vs.Narrow
  | .ret vs _ => vs.Narrow
  | .call e _ => e.Narrow
  | .assign ts _ vs => ts.Narrow ∧ vs.Narrow

def Values.Narrow : Values → Prop
  | .none _ => True
  | .given _ es => es.Narrow

def Step.Narrow : Step → Prop
  | .unit => True
  | .given _ e => e.Narrow

def Clauses.Narrow : Clauses → Prop
  | .nil => True
  | .cons _ test _ _ b rest => test.Narrow ∧ b.Narrow ∧ rest.Narrow

def Targets.Narrow : Targets → Prop
  | .nil => True
  | .cons _ e _ rest => e.Narrow ∧ rest.Narrow

def Block.Narrow : Block → Prop
  | .nil => True
  | .cons s rest => s.Narrow ∧ rest.Narrow

end

section Halt
variable (f : SyntaxFault)

mutual

theorem Expr.halt_of_narrow : (e : Expr) → e.Narrow → e.halt f = e
  | .missing _, _ | .nil _, _ | .true _, _ | .false _, _ | .number .., _ | .string .., _
  | .vararg _, _ | .name .., _ => by rw [Expr.halt]
  | .function _ b, h => by rw [Expr.halt, Body.halt_of_narrow b h]
  | .table t, h => by rw [Expr.halt, Table.halt_of_narrow t h]
  | .paren _ e _, h => by rw [Expr.halt, Expr.halt_of_narrow e h]
  | .suffixed e rest, h => by
    rw [Expr.halt, Expr.halt_of_narrow e h.1, Suffixes.halt_of_narrow rest h.2]
  | .unary _ _ _ e, h => by rw [Expr.halt, Expr.halt_of_narrow e h]
  | .binary e rest, h => by
    rw [Expr.halt, Expr.halt_of_narrow e h.1, Operations.halt_of_narrow rest h.2]

theorem Suffixes.halt_of_narrow : (rest : Suffixes) → rest.Narrow → rest.halt f = rest
  | .nil, _ => by rw [Suffixes.halt]
  | .field _ _ rest, h => by rw [Suffixes.halt, Suffixes.halt_of_narrow rest h]
  | .index _ key _ rest, h => by
    rw [Suffixes.halt, Expr.halt_of_narrow key h.1, Suffixes.halt_of_narrow rest h.2]
  | .call _ as rest, h | .method _ _ _ as rest, h => by
    rw [Suffixes.halt, Args.halt_of_narrow as h.1, Suffixes.halt_of_narrow rest h.2]

theorem Operations.halt_of_narrow : (rest : Operations) → rest.Narrow → rest.halt f = rest
  | .nil, _ => by rw [Operations.halt]
  | .cons _ _ _ right rest, h => by
    rw [Operations.halt, Expr.halt_of_narrow right h.1, Operations.halt_of_narrow rest h.2]

theorem Exprs.halt_of_narrow : (es : Exprs) → es.Narrow → es.halt f = es
  | .one e, h => by rw [Exprs.halt, Expr.halt_of_narrow e h]
  | .more e _ rest, h => by
    rw [Exprs.halt, Expr.halt_of_narrow e h.1, Exprs.halt_of_narrow rest h.2]

theorem Args.halt_of_narrow : (as : Args) → as.Narrow → as.halt f = as
  | .missing _, _ | .none .., _ | .string .., _ => by rw [Args.halt]
  | .list _ values _, h => by rw [Args.halt, Exprs.halt_of_narrow values h]
  | .table t, h => by rw [Args.halt, Table.halt_of_narrow t h]

theorem Table.halt_of_narrow : (t : Table) → t.Narrow → t.halt f = t
  | .mk _ fs _, h => by rw [Table.halt, Fields.halt_of_narrow fs h]

theorem Fields.halt_of_narrow : (fs : Fields) → fs.Narrow → fs.halt f = fs
  | .nil, _ => by rw [Fields.halt]
  | .item value _ rest, h | .named _ _ _ value _ rest, h => by
    rw [Fields.halt, Expr.halt_of_narrow value h.1, Fields.halt_of_narrow rest h.2]
  | .keyed _ key _ value _ rest, h => by
    rw [Fields.halt, Expr.halt_of_narrow key h.1, Expr.halt_of_narrow value h.2.1,
      Fields.halt_of_narrow rest h.2.2]

theorem Body.halt_of_narrow : (b : Body) → b.Narrow → b.halt f = b
  | .mk _ _ _ _ _ _ b _ _, h => by rw [Body.halt, Block.halt_of_narrow b h]

theorem Stat.halt_of_narrow : (s : Stat) → s.Narrow → s.halt f = s
  | .missing _, _ | .empty _, _ | .label .., _ | .goto _, _ => by rw [Stat.halt]
  | .block _ b _, h => by rw [Stat.halt, Block.halt_of_narrow b h]
  | .cond cs _ b _, h => by
    rw [Stat.halt, Clauses.halt_of_narrow cs h.1, Block.halt_of_narrow b h.2]
  | .while _ test _ b _, h => by
    rw [Stat.halt, Expr.halt_of_narrow test h.1, Block.halt_of_narrow b h.2]
  | .repeat _ b _ test, h => by
    rw [Stat.halt, Block.halt_of_narrow b h.1, Expr.halt_of_narrow test h.2]
  | .forNum _ _ _ _ first _ limit s _ b _, h => by
    rw [Stat.halt, Expr.halt_of_narrow first h.1, Expr.halt_of_narrow limit h.2.1,
      Step.halt_of_narrow s h.2.2.1, Block.halt_of_narrow b h.2.2.2]
  | .forIn _ _ _ _ _ values _ b _, h => by
    rw [Stat.halt, if_pos h.1, Exprs.halt_of_narrow values h.2.1, Block.halt_of_narrow b h.2.2]
  | .function _ _ _ _ _ b, h | .localFunction _ _ b, h => by rw [Stat.halt, Body.halt_of_narrow b h]
  | .localVars _ vs, h | .ret vs _, h => by rw [Stat.halt, Values.halt_of_narrow vs h]
  | .call e _, h => by rw [Stat.halt, Expr.halt_of_narrow e h]
  | .assign ts _ vs, h => by
    rw [Stat.halt, Targets.halt_of_narrow ts h.1, Exprs.halt_of_narrow vs h.2]

theorem Values.halt_of_narrow : (vs : Values) → vs.Narrow → vs.halt f = vs
  | .none _, _ => by rw [Values.halt]
  | .given _ es, h => by rw [Values.halt, Exprs.halt_of_narrow es h]

theorem Step.halt_of_narrow : (s : Step) → s.Narrow → s.halt f = s
  | .unit, _ => by rw [Step.halt]
  | .given _ e, h => by rw [Step.halt, Expr.halt_of_narrow e h]

theorem Clauses.halt_of_narrow : (cs : Clauses) → cs.Narrow → cs.halt f = cs
  | .nil, _ => by rw [Clauses.halt]
  | .cons _ test _ _ b rest, h => by
    rw [Clauses.halt, Expr.halt_of_narrow test h.1, Block.halt_of_narrow b h.2.1,
      Clauses.halt_of_narrow rest h.2.2]

theorem Targets.halt_of_narrow : (ts : Targets) → ts.Narrow → ts.halt f = ts
  | .nil, _ => by rw [Targets.halt]
  | .cons _ e _ rest, h => by
    rw [Targets.halt, Expr.halt_of_narrow e h.1, Targets.halt_of_narrow rest h.2]

theorem Block.halt_of_narrow : (b : Block) → b.Narrow → b.halt f = b
  | .nil, _ => by rw [Block.halt]
  | .cons s rest, h => by
    rw [Block.halt, Stat.halt_of_narrow s h.1, Block.halt_of_narrow rest h.2]

end

end Halt

/-- Compiling a source gives a function or an error in the source, but for one case: with temporaries
in use where the block of a loop is opened. Then some loop goes over more than three values, and
compiling gets as far as its body: any stop put there is what compiling ends with. -/
theorem compile_outcomes (source name : Bytes) (strip : Bool) :
    (∃ p, compile source name strip = .ok p) ∨ (∃ e, compile source name strip = .error (.error e)) ∨
      compile source name strip = .error (.broken .noTemporaries) ∧ ¬ (readChunk source).body.Narrow ∧
        ∀ f : SyntaxFault, ∃ shown,
          chunk namedVariable ((readChunk source).halt f) (.initial (if name.isEmpty then source else name)) =
            .error (.error ⟨shown, f.line, f.cause, f.near⟩) := by
  have htracks (f : SyntaxFault) : Tracks _ (chunk namedVariable _) (chunk namedVariable _) _ _ :=
    tracks_chunk { Runs.compiler with
      stop := fun e => ∃ source, e = .error ⟨source, f.line, f.cause, f.near⟩
      fault := f
      stops := fun source => ⟨source, rfl⟩ } (readChunk_proper source) (if name.isEmpty then source else name)
  rw [compile_eq]
  unfold Tracks at htracks
  cases hrun : chunk namedVariable (readChunk source) (.initial (if name.isEmpty then source else name)) with
  | ok r => exact .inl ⟨_, rfl⟩
  | error e =>
    simp only [hrun] at htracks
    cases e with
    | error e => exact .inr (.inl ⟨e, rfl⟩)
    | broken i =>
      obtain ⟨rfl, -⟩ := htracks ⟨.syntaxError, 0, []⟩
      have hhalted : ∀ f : SyntaxFault, ∃ shown,
          chunk namedVariable ((readChunk source).halt f) (.initial (if name.isEmpty then source else name)) =
            .error (.error ⟨shown, f.line, f.cause, f.near⟩) := by
        intro f
        obtain ⟨-, e, hrun', shown, rfl⟩ := htracks f
        exact ⟨shown, hrun'⟩
      refine .inr (.inr ⟨rfl, fun hnarrow => ?_, hhalted⟩)
      obtain ⟨shown, hrun'⟩ := hhalted ⟨.syntaxError, 0, []⟩
      rw [Chunk.halt, Block.halt_of_narrow _ _ hnarrow, hrun] at hrun'
      cases hrun'

end RegisterCompiler
