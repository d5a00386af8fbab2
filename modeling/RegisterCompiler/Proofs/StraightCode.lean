import RegisterCompiler.Proofs.Passes
import RegisterCompiler.Proofs.Machine
import Mathlib.Logic.Relation

/-!
# Runs of code without jumps

* `Machine.Flows` : instructions in a row, each of which passes on to the next one;
* `GenState.Leads` : what the code that a state has so far does to a frame;
* `Means` : the value of such an operand;
* `Does` : what the code between two states does. `Gen.toRegister_does`, `Gen.toNextRegister_does` and
  `Gen.toRK_does` put the value of an operand where they should.
-/

namespace RegisterCompiler

open Gen Machine

variable {ρ σ : Type}

namespace Machine

def Reaches (host : Host ρ σ) (constants : Array Constant) (code : Array Instr) :
    Config ρ σ → Config ρ σ → Prop :=
  Relation.ReflTransGen fun c d => step host constants code c = some d

/-- The instructions from place `p` up to another place, each of which passes on to the next one, lead
from frame `f` to another frame. -/
inductive Flows (host : Host ρ σ) (constants : Array Constant) (code : Array Instr) (p : Nat)
    (f : Frame ρ σ) : Nat → Frame ρ σ → Prop
  | start : Flows host constants code p f p f
  | next {q : Nat} {i : Instr} {g g' : Frame ρ σ} :
    Flows host constants code p f q g → code[q]? = some i →
      (∀ ax, exec host constants ax i q g = some (.goto ((q + 1 : Nat) : Int) g')) →
      Flows host constants code p f (q + 1) g'
  | large {q : Nat} {i j : Instr} {g g' : Frame ρ σ} :
    Flows host constants code p f q g → code[q]? = some i → code[q + 1]? = some j →
      j.op? = some .extraArg →
      exec host constants (some j.ax) i q g = some (.goto ((q + 2 : Nat) : Int) g') →
      Flows host constants code p f (q + 2) g'

section Flows
variable {host : Host ρ σ} {constants : Array Constant} {code code' : Array Instr} {p q : Nat}
  {f g : Frame ρ σ}

theorem fetch_of_getElem? {i : Instr} (h : code[q]? = some i) : fetch code (q : Int) = some i := by
  rw [fetch, if_neg (by omega), Int.toNat_natCast, h]

theorem Flows.congr (h : Flows host constants code p f q g)
    (hcode : ∀ k < q, ∀ i, code[k]? = some i → code'[k]? = some i) : Flows host constants code' p f q g := by
  induction h with
  | start => exact .start
  | next _ hi hexec ih =>
    exact .next (ih fun k hk => hcode k (by omega)) (hcode _ (by omega) _ hi) hexec
  | large _ hi hj hop hexec ih =>
    exact .large (ih fun k hk => hcode k (by omega)) (hcode _ (by omega) _ hi)
      (hcode _ (by omega) _ hj) hop hexec

/-- An instruction other than a large operand was run from a frame that the ones before it lead to. -/
theorem Flows.last {i : Instr} (h : Flows host constants code p f (q + 1) g) (hq : p ≤ q)
    (hi : code[q]? = some i) (hop : i.op? ≠ some .extraArg) : ∃ g', Flows host constants code p f q g' ∧
      ∀ ax, exec host constants ax i q g' = some (.goto ((q + 1 : Nat) : Int) g) := by
  generalize hn : q + 1 = n at h
  cases h with
  | start => omega
  | @next q' i' g' _ hflow hi' hexec =>
    obtain rfl : q' = q := by omega
    cases hi.symm.trans hi'
    exact ⟨g', hflow, hexec⟩
  | @large q' i' j g' _ hflow hi' hj hop' hexec =>
    obtain rfl : q = q' + 1 := by omega
    cases hi.symm.trans hj
    exact absurd hop' hop

theorem Flows.reaches (h : Flows host constants code p f q g) :
    Reaches host constants code (.running p f) (.running q g) := by
  induction h with
  | start => exact .refl
  | next _ hi hexec ih =>
    refine ih.tail ?_
    rw [step, fetch_of_getElem? hi]
    simp [hexec, Outcome.config]
  | @large q' i j g1 g2 _ hi hj hop hexec ih =>
    refine ih.tail ?_
    have hax : largeOperand code ((q' : Int) + 1) = some j.ax := by
      rw [largeOperand, ← Int.natCast_succ, fetch_of_getElem? hj]
      simp [hop]
    rw [step, fetch_of_getElem? hi, hax]
    simp [hexec, Outcome.config]

end Flows

/-! ## Instructions -/

section Exec
variable {host : Host ρ σ} {constants : Array Constant} {ax : Option Nat} {i : Instr} {pc : Int}
  {f f' : Frame ρ σ} {v w : Value ρ}

theorem exec_move (h : i.op? = some .move) :
    exec host constants ax i pc f = some (.goto (pc + 1) (f.setReg i.a (f.reg i.b))) := by
  simp [exec, h]

theorem exec_getUpval (h : i.op? = some .getUpval) :
    exec host constants ax i pc f = some (.goto (pc + 1) (f.setReg i.a (f.upval i.b))) := by
  simp [exec, h]

theorem exec_setUpval (h : i.op? = some .setUpval) :
    exec host constants ax i pc f = some (.goto (pc + 1) (f.setUpval i.b (f.reg i.a))) := by
  simp [exec, h]

theorem exec_loadNil (h : i.op? = some .loadNil) :
    exec host constants ax i pc f = some (.goto (pc + 1) (f.setNils i.a (i.a + i.b))) := by
  simp [exec, h]

theorem exec_loadBool (h : i.op? = some .loadBool) (hc : i.c = 0) :
    exec host constants ax i pc f = some (.goto (pc + 1) (f.setReg i.a (.boolean (i.b ≠ 0)))) := by
  simp [exec, h, hc]

theorem exec_loadK (h : i.op? = some .loadK) (hv : constantAt constants i.bx = some v) :
    exec host constants ax i pc f = some (.goto (pc + 1) (f.setReg i.a v)) := by
  simp [exec, h, hv]

theorem exec_loadKX {k : Nat} (h : i.op? = some .loadKX) (hv : constantAt constants k = some v) :
    exec host constants (some k) i pc f = some (.goto (pc + 2) (f.setReg i.a v)) := by
  simp [exec, h, hv]

theorem exec_setTable (h : i.op? = some .setTable) (hv : rkValue constants f i.b = some v)
    (hw : rkValue constants f i.c = some w) (hf : host.write (f.reg i.a) v w f = some f') :
    exec host constants ax i pc f = some (.goto (pc + 1) f') := by
  simp [exec, h, hv, hw, hf]

theorem exec_setTabUp (h : i.op? = some .setTabUp) (hv : rkValue constants f i.b = some v)
    (hw : rkValue constants f i.c = some w) (hf : host.write (f.upval i.a) v w f = some f') :
    exec host constants ax i pc f = some (.goto (pc + 1) f') := by
  simp [exec, h, hv, hw, hf]

theorem Frame.setReg_self (f : Frame ρ σ) (r : Nat) : f.setReg r (f.reg r) = f := by
  simp only [Frame.setReg]
  congr
  funext q
  split
  · next h => rw [h]
  · rfl

theorem Frame.setNils_one (f : Frame ρ σ) (r : Nat) : f.setNils r r = f.setReg r .nil := by
  simp only [Frame.setNils, Frame.setReg]
  congr
  funext q
  by_cases hq : q = r
  · rw [if_pos (by omega), if_pos hq]
  · rw [if_neg (by omega), if_neg hq]

theorem Frame.setNils_setNils (f : Frame ρ σ) {a b a' b' : Nat} (h : (a ≤ a' ∧ a' ≤ b + 1) ∨ (a' ≤ a ∧ a ≤ b' + 1)) :
    (f.setNils a b).setNils a' b' = f.setNils (min a a') (max b b') := by
  simp only [Frame.setNils]
  congr
  funext q
  by_cases hq : min a a' ≤ q ∧ q ≤ max b b'
  · split
    · rfl
    · rw [if_pos (by omega)]
  · rw [if_neg hq, if_neg (by omega), if_neg (by omega)]

end Exec

theorem Value.ofConstant_of_key {c c' : Constant} (h : c.key = c'.key) : (ofConstant c : Value ρ) = ofConstant c' := by
  rw [ofConstant, ofConstant, h]

end Machine

/-! ## Steps that end without a failure -/

namespace Gen
section Passes
variable {s : GenState}

theorem passes_require {b : Bool} {i : Invariant} : (require b i).Passes s fun _ t => b = true ∧ t = s := by
  intro _ t h
  cases b with
  | true => cases h; exact ⟨rfl, rfl⟩
  | false => cases h

theorem Passes.require {b : Bool} {i : Invariant} {α : Type} {k : Unit → Gen α} {Q : α → GenState → Prop}
    (h : b = true → (k ()).Passes s Q) : (require b i >>= k).Passes s Q := by
  refine passes_require.bind ?_
  rintro _ _ ⟨hb, rfl⟩
  exact h hb

theorem passes_modifyFn {h : Func → Func} : (modifyFn h).Passes s fun _ t => t = { s with fn := h s.fn } := by
  rintro _ t ⟨⟩
  rfl

theorem passes_emit {i : Instr} : (emit i).Passes s fun n t => n = s.fn.code.size ∧ t = s.push i := by
  refine .getFn ?_
  refine .require fun _ => ?_
  rintro n t ⟨⟩
  exact ⟨rfl, rfl⟩

theorem passes_emitABC {op : Opcode} {a b c : Int} : (emitABC op a b c).Passes s fun n t =>
      n = s.fn.code.size ∧ t = s.push (.abc op.code a b c) ∧ a ≤ maxA ∧ b ≤ maxB ∧ c ≤ maxC := by
  refine .require fun _ => ?_
  refine .require fun _ => ?_
  refine .require fun _ => ?_
  refine .require fun hmax => ?_
  simp only [Bool.and_eq_true, decide_eq_true_eq] at hmax
  exact passes_emit.mono fun n t h => ⟨h.1, h.2, hmax.1.1, hmax.1.2, hmax.2⟩

theorem passes_emitABx {op : Opcode} {a bx : Int} :
    (emitABx op a bx).Passes s fun _ t => t = s.push (.abx op.code a bx) := by
  refine .require fun _ => ?_
  refine .require fun _ => ?_
  exact passes_emit.mono fun n t h => h.2

theorem passes_emitExtra {k : Int} :
    (emitExtra k).Passes s fun _ t => t = s.push (.ofAx Opcode.extraArg.code k) ∧ k ≤ maxAx := by
  refine .require fun hmax => ?_
  exact passes_emit.mono fun n t h => ⟨h.2, by simpa using hmax⟩

theorem passes_emitConstant {reg k : Int} :
    (emitConstant reg k).Passes s fun _ t => t = s.pushConstant reg k ∧ k ≤ maxAx := by
  unfold emitConstant GenState.pushConstant
  split
  · next hle =>
    refine passes_emitABx.mono fun n t h => ⟨h, ?_⟩
    simp only [maxBx, maxAx] at hle ⊢
    omega
  · refine passes_emitABx.bind ?_
    rintro _ _ rfl
    refine passes_emitExtra.bind ?_
    rintro _ _ ⟨rfl, hmax⟩
    exact passes_pure ⟨rfl, hmax⟩

theorem passes_reserve {n : Int} (hstack : s.fn.stack ≤ 249) :
    (reserve n).Passes s fun _ t => t = s.reserved n ∧ s.fn.free + n ≤ 249 :=
  ((ensures_reserve hstack).2 fun h => ⟨rfl, h⟩).passes

theorem passes_releaseRegister {reg : Int} : (releaseRegister reg).Passes s fun _ t =>
      (isConstantRK reg = true ∨ reg < s.fn.active) ∧ t = s ∨
      s.fn.active ≤ reg ∧ reg = s.fn.free - 1 ∧ t = s.withFree (s.fn.free - 1) := by
  refine .getFn ?_
  split
  · next h =>
    simp only [Bool.and_eq_true, Bool.not_eq_true', decide_eq_true_eq] at h
    refine passes_modifyFn.bind ?_
    rintro _ _ rfl
    refine .getFn ?_
    refine passes_require.mono ?_
    rintro _ _ ⟨htop, rfl⟩
    exact .inr ⟨h.2, by simpa using htop, rfl⟩
  · next h =>
    refine passes_pure (.inl ⟨?_, rfl⟩)
    simp only [Bool.and_eq_true, Bool.not_eq_true', decide_eq_true_eq] at h
    by_cases hrk : isConstantRK reg = true
    · exact .inl hrk
    · exact .inr (by simp only [hrk, true_and] at h; omega)

end Passes
end Gen

/-! ## States -/

/-- All constants of `cs` are in `cs'`, at the same places. -/
def Within (cs cs' : Array Constant) : Prop :=
  ∀ (k : Nat) (c : Constant), cs[k]? = some c → cs'[k]? = some c

theorem Within.push (cs : Array Constant) (c : Constant) : Within cs (cs.push c) := by
  intro k c' hk
  have hlt := lt_size_of_some hk
  rw [Array.getElem?_push, if_neg (by omega), hk]

/-- A variable called `name` is an upvalue of `f`, or can be made one, since it is known in one of the
functions around. -/
def Func.CanReach (f : Func) (outer : List Func) (name : Bytes) : Prop :=
  (f.findUpvalue? name).isSome ∨
    ∃ g ∈ outer, (g.findLocal? name).isSome ∨ (g.findUpvalue? name).isSome

/-- The name is that of a variable, here or in a function around. -/
def GenState.Sees (s : GenState) (name : Bytes) : Prop :=
  (s.fn.findLocal? name).isSome ∨ s.fn.CanReach s.outer name

/-- What `t` knows of names and constants after more code than `s`. -/
structure Later (s t : GenState) : Prop where
  active : t.fn.active = s.fn.active
  locals : ∀ name, t.fn.findLocal? name = s.fn.findLocal? name
  upvalues : ∀ name u, s.fn.findUpvalue? name = some u → t.fn.findUpvalue? name = some u
  reach : ∀ name, s.fn.CanReach s.outer name → t.fn.CanReach t.outer name
  constants : Within s.fn.constants t.fn.constants

namespace Later
variable {s t u : GenState}

theorem refl (s : GenState) : Later s s :=
  ⟨rfl, fun _ => rfl, fun _ _ h => h, fun _ h => h, fun _ _ h => h⟩

theorem trans (h : Later s t) (h' : Later t u) : Later s u where
  active := h'.active.trans h.active
  locals name := (h'.locals name).trans (h.locals name)
  upvalues name i hi := h'.upvalues name i (h.upvalues name i hi)
  reach name hn := h'.reach name (h.reach name hn)
  constants k c hk := h'.constants k c (h.constants k c hk)

theorem sees (h : Later s t) {name : Bytes} (hn : s.Sees name) : t.Sees name :=
  hn.imp (fun hl => by rwa [h.locals]) (h.reach name)

end Later

theorem Func.findLocal?_congr {f g : Func} (hdeclared : g.declared = f.declared)
    (hlocals : g.locals = f.locals) (hactive : g.active = f.active) (name : Bytes) :
    g.findLocal? name = f.findLocal? name := by
  have hbelow (n : Nat) : g.findLocalBelow name n = f.findLocalBelow name n := by
    induction n with
    | zero => rfl
    | succ n ih =>
      rw [Func.findLocalBelow, Func.findLocalBelow, ih, Func.nameOfLocal?, Func.nameOfLocal?, hdeclared, hlocals]
  rw [Func.findLocal?, Func.findLocal?, hactive, hbelow]

theorem Later.of_fn {s t : GenState} (hfn : t.fn = { s.fn with
      code := t.fn.code, lines := t.fn.lines, stack := t.fn.stack, free := t.fn.free,
      constants := t.fn.constants, constantPlaces := t.fn.constantPlaces })
    (houter : t.outer = s.outer) (hconstants : Within s.fn.constants t.fn.constants) : Later s t where
  active := by rw [hfn]
  locals := Func.findLocal?_congr (by rw [hfn]) (by rw [hfn]) (by rw [hfn])
  upvalues name u hu := by
    rw [hfn]
    exact hu
  reach name := by
    rw [Func.CanReach, Func.CanReach, houter, hfn]
    exact id
  constants := hconstants

/-- The state in the middle of a statement whose code starts at place `p`, which no jump inside the
statement leads to. -/
structure Steady (p : Nat) (s : GenState) : Prop where
  target : s.fn.lastTarget = p
  start : p ≤ s.fn.code.size
  active : 0 ≤ s.fn.active ∧ s.fn.active ≤ s.fn.free
  stack : s.fn.free ≤ s.fn.stack ∧ s.fn.stack ≤ 249
  places : ∀ (key : Constant.Key) (k : Nat), s.fn.constantPlaces[key]? = some k →
    ∃ c, s.fn.constants[k]? = some c ∧ c.key = key
  nils : ∀ (k : Nat) (i : Instr), p ≤ k → s.fn.code[k]? = some i → i.op? = some .loadNil →
    i.a + i.b < 250

namespace Steady
variable {p : Nat} {s : GenState} {i : Instr}

theorem push (h : Steady p s) (hi : i.op? = some .loadNil → i.a + i.b < 250) : Steady p (s.push i) where
  target := h.target
  start := by
    have := h.start
    simp only [GenState.push, Array.size_push]
    omega
  active := h.active
  stack := h.stack
  places := h.places
  nils k j hk hj hop := by
    simp only [GenState.push, Array.getElem?_push] at hj
    split at hj
    · cases hj
      exact hi hop
    · exact h.nils k j hk hj hop

theorem onLine (h : Steady p s) (n : Int) : Steady p (s.onLine n) :=
  ⟨h.target, h.start, h.active, h.stack, h.places, h.nils⟩

theorem reserved (h : Steady p s) {n : Int} (hn : 0 ≤ n) (hmax : s.fn.free + n ≤ 249) : Steady p (s.reserved n) where
  target := h.target
  start := h.start
  active := by
    have := h.active
    simp only [GenState.reserved, GenState.withFree, GenState.withRoom]
    omega
  stack := by
    have := h.stack
    simp only [GenState.reserved, GenState.withFree, GenState.withRoom]
    omega
  places := h.places
  nils := h.nils

theorem withFree (h : Steady p s) {r : Int} (hr : s.fn.active ≤ r ∧ r ≤ s.fn.free) : Steady p (s.withFree r) where
  target := h.target
  start := h.start
  active := ⟨h.active.1, hr.1⟩
  stack := ⟨hr.2.trans h.stack.1, h.stack.2⟩
  places := h.places
  nils := h.nils

end Steady

theorem Later.push (s : GenState) (i : Instr) : Later s (s.push i) :=
  .of_fn rfl rfl fun _ _ h => h

theorem Later.onLine (s : GenState) (n : Int) : Later s (s.onLine n) :=
  .of_fn rfl rfl fun _ _ h => h

theorem Later.reserved (s : GenState) (n : Int) : Later s (s.reserved n) :=
  .of_fn rfl rfl fun _ _ h => h

theorem Later.withFree (s : GenState) (r : Int) : Later s (s.withFree r) :=
  .of_fn rfl rfl fun _ _ h => h

/-- The code of the function from place `p` on leads from frame `f` to frame `g`. -/
def GenState.Leads (host : Host ρ σ) (p : Nat) (f : Frame ρ σ) (s : GenState) (g : Frame ρ σ) : Prop :=
  ∀ cs, Within s.fn.constants cs → Flows host cs s.fn.code p f s.fn.code.size g

namespace GenState.Leads
variable {host : Host ρ σ} {p : Nat} {f g g' : Frame ρ σ} {s t : GenState} {i : Instr}

theorem congr (h : s.Leads host p f g) (hcode : t.fn.code = s.fn.code)
    (hconstants : Within s.fn.constants t.fn.constants) : t.Leads host p f g := by
  intro cs hcs
  rw [hcode]
  exact h cs fun k c hk => hcs k c (hconstants k c hk)

theorem push (h : s.Leads host p f g) (hexec : ∀ cs ax, Within s.fn.constants cs →
      exec host cs ax i s.fn.code.size g = some (.goto ((s.fn.code.size : Int) + 1) g')) :
    (s.push i).Leads host p f g' := by
  intro cs hcs
  have hflow : Flows host cs (s.fn.code.push i) p f s.fn.code.size g :=
    (h cs hcs).congr fun k hk j hj => by rw [Array.getElem?_push, if_neg (by omega), hj]
  simp only [GenState.push, Array.size_push]
  exact hflow.next Array.getElem?_push_size fun ax => by
    rw [hexec cs ax hcs]
    simp

end GenState.Leads

/-! ## Constants and nils -/

section Loads
variable {host : Host ρ σ} {p : Nat} {f g : Frame ρ σ} {s : GenState}

theorem Gen.passes_internConstant (h : Steady p s) (v : Constant) :
    (internConstant v).Passes s fun k t => Steady p t ∧ Later s t ∧
      t = s.withConstants t.fn.constants t.fn.constantPlaces ∧ ∃ n : Nat, k = n ∧ n ≤ s.fn.constants.size ∧
        ∃ c, t.fn.constants[n]? = some c ∧ c.key = v.key := by
  refine .getFn ?_
  split
  · next k hk =>
    obtain ⟨c, hc, hkey⟩ := h.places v.key k hk
    exact passes_pure ⟨h, .refl _, rfl, k, rfl, (lt_size_of_some hc).le, c, hc, hkey⟩
  · next hk =>
    refine .getFn ?_
    refine Passes.bind (P := fun _ u => u = s) (ensures_limit.2 fun _ => rfl).passes ?_
    rintro _ s rfl
    refine passes_modifyFn.bind ?_
    rintro _ _ rfl
    refine passes_pure ⟨⟨h.target, h.start, h.active, h.stack, ?_, h.nils⟩,
      .of_fn rfl rfl (.push _ v), rfl, _, rfl, le_rfl, v, Array.getElem?_push_size, rfl⟩
    intro key k hk'
    rw [Std.HashMap.getElem?_insert] at hk'
    split at hk'
    · next heq =>
      cases hk'
      exact ⟨v, Array.getElem?_push_size, by simpa using heq⟩
    · obtain ⟨c, hc, hkey⟩ := h.places key k hk'
      exact ⟨c, Within.push _ v k c hc, hkey⟩

theorem constantAt_of_within {cs : Array Constant} {k : Nat} {c : Constant}
    (hc : s.fn.constants[k]? = some c) (hcs : Within s.fn.constants cs) :
    constantAt cs k = some (Value.ofConstant c : Value ρ) := by
  rw [constantAt, hcs k c hc, Option.map_some]

theorem GenState.Leads.pushConstant {reg k : Nat} {c : Constant} (h : s.Leads host p f g)
    (hreg : reg < 250) (hc : s.fn.constants[k]? = some c) (hk : (k : Int) ≤ maxAx) :
    (s.pushConstant reg k).Leads host p f (g.setReg reg (.ofConstant c)) := by
  have hreg' : 0 ≤ (reg : Int) ∧ (reg : Int) ≤ maxA := by
    simp only [maxA]
    omega
  unfold GenState.pushConstant
  split
  · next hle =>
    obtain ⟨hop, ha, hbx⟩ := Instr.abx_fields .loadK hreg' ⟨Int.natCast_nonneg k, hle⟩
    refine h.push fun cs ax hcs => ?_
    rw [exec_loadK hop (v := .ofConstant c)
      (by rw [Int.ofNat_inj.1 hbx, constantAt_of_within hc hcs]), Int.ofNat_inj.1 ha]
  · obtain ⟨hop, ha, -⟩ := Instr.abx_fields .loadKX hreg' (show 0 ≤ 0 ∧ 0 ≤ maxBx by decide)
    obtain ⟨hop', hax⟩ := Instr.ofAx_fields .extraArg ⟨Int.natCast_nonneg k, hk⟩
    intro cs hcs
    have hflow : Flows host cs ((s.push (.abx Opcode.loadKX.code reg 0)).push
        (.ofAx Opcode.extraArg.code k)).fn.code p f s.fn.code.size g :=
      (h cs hcs).congr fun j hj i hi => by
        simp only [GenState.push]
        rw [Array.getElem?_push, if_neg (by simp; omega), Array.getElem?_push, if_neg (by omega), hi]
    have hsize : ((s.push (.abx Opcode.loadKX.code reg 0)).push
      (.ofAx Opcode.extraArg.code k)).fn.code.size = s.fn.code.size + 2 := by
        simp [GenState.push]
    rw [hsize]
    refine hflow.large (i := .abx Opcode.loadKX.code reg 0) ?_ ?_ hop' ?_
    · simp only [GenState.push]
      rw [Array.getElem?_push, if_neg (by simp), Array.getElem?_push_size]
    · simp only [GenState.push]
      rw [← Array.size_push, Array.getElem?_push_size]
    · rw [Int.ofNat_inj.1 hax, exec_loadKX hop (constantAt_of_within hc hcs), Int.ofNat_inj.1 ha]
      simp

theorem Steady.pushConstant (h : Steady p s) (reg k : Int) : Steady p (s.pushConstant reg k) := by
  unfold GenState.pushConstant
  split
  · exact h.push fun h' => by simp [Instr.op?_abx] at h'
  · exact (h.push fun h' => by simp [Instr.op?_abx] at h').push fun h' => by
      simp [Instr.op?_ofAx] at h'

theorem Later.pushConstant (s : GenState) (reg k : Int) : Later s (s.pushConstant reg k) := by
  unfold GenState.pushConstant
  split
  · exact .push _ _
  · exact (Later.push _ _).trans (.push _ _)

@[simp] theorem GenState.pushConstant_free (s : GenState) (reg k : Int) :
    (s.pushConstant reg k).fn.free = s.fn.free := by
  unfold GenState.pushConstant
  split <;> rfl

theorem GenState.Leads.widenNils {q : Nat} {i : Instr} {w : Instr → Instr} {g' : Frame ρ σ}
    (h : s.Leads host p f g) (hq : p ≤ q) (hsize : s.fn.code.size = q + 1)
    (hi : s.fn.code[q]? = some i) (hop : i.op? = some .loadNil) (hop' : (w i).op? = some .loadNil)
    (hset : ∀ g0 : Frame ρ σ, g = g0.setNils i.a (i.a + i.b) → g' = g0.setNils (w i).a ((w i).a + (w i).b)) :
    (s.setCode (s.fn.code.modify q w)).Leads host p f g' := by
  intro cs hcs
  have hflow := h cs hcs
  rw [hsize] at hflow
  obtain ⟨g0, hbefore, hexec⟩ := hflow.last hq hi (by rw [hop]; simp)
  have hg : g = g0.setNils i.a (i.a + i.b) := by
    have := (hexec none).symm.trans (exec_loadNil hop)
    simp only [Option.some.injEq, Outcome.goto.injEq] at this
    exact this.2
  simp only [Array.size_modify, hsize]
  refine (hbefore.congr fun k hk j hj => ?_).next (i := w i) ?_ fun ax => ?_
  · rw [Array.getElem?_modify, if_neg (by omega), hj]
  · rw [Array.getElem?_modify, if_pos rfl, hi, Option.map_some]
  · rw [exec_loadNil hop', hset g0 hg]
    simp

/-- From place `p` on, only registers below 250 are set to nil. -/
def NilsFit (p : Nat) (code : Array Instr) : Prop :=
  ∀ (k : Nat) (i : Instr), p ≤ k → code[k]? = some i → i.op? = some .loadNil → i.a + i.b < 250

theorem Gen.passes_emitNils {first n : Nat} (htarget : p ≤ s.fn.lastTarget) (hnils : NilsFit p s.fn.code)
    (hn : 0 < n) (hlast : first + n ≤ 250) :
    (emitNils first n).Passes s fun _ t => NilsFit p t.fn.code ∧ s.fn.code.size ≤ t.fn.code.size ∧
      t = { s with fn := { s.fn with code := t.fn.code, lines := t.fn.lines } } ∧
      ∀ {ρ σ : Type} (host : Host ρ σ) (f g : Frame ρ σ), s.Leads host p f g →
        t.Leads host p f (g.setNils first (first + n - 1)) := by
  have hemit : (do let _ ← emitABC .loadNil first ((n : Int) - 1) 0 : Gen Unit).Passes s fun _ t =>
      NilsFit p t.fn.code ∧ s.fn.code.size ≤ t.fn.code.size ∧
      t = { s with fn := { s.fn with code := t.fn.code, lines := t.fn.lines } } ∧
      ∀ {ρ σ : Type} (host : Host ρ σ) (f g : Frame ρ σ), s.Leads host p f g →
        t.Leads host p f (g.setNils first (first + n - 1)) := by
    refine passes_emitABC.bind ?_
    rintro _ _ ⟨-, rfl, ha, hb, hc⟩
    obtain ⟨hop, ha', hb', -⟩ := Instr.abc_fields .loadNil ⟨Int.natCast_nonneg first, ha⟩
      ⟨by omega, hb⟩ ⟨le_rfl, hc⟩
    refine passes_pure ⟨fun k j hk hj hopj => ?_, by simp [GenState.push], rfl, fun host f g hl =>
      hl.push fun cs ax _ => ?_⟩
    · simp only [GenState.push, Array.getElem?_push] at hj
      split at hj
      · cases hj
        omega
      · exact hnils k j hk hj hopj
    · rw [exec_loadNil hop]
      congr <;> omega
  refine .pc ?_
  refine .getFn ?_
  split
  · next hnext =>
    simp only [Bool.and_eq_true, decide_eq_true_eq] at hnext
    obtain ⟨q, hq⟩ : ∃ q, s.fn.code.size = q + 1 := ⟨s.fn.code.size - 1, by omega⟩
    obtain ⟨i, hi⟩ : ∃ i, s.fn.code[q]? = some i := ⟨_, Array.getElem?_eq_getElem (by omega)⟩
    have hplace : (s.fn.code.size : Int) - 1 = q := by omega
    refine Passes.bind (P := fun j u => j = i ∧ u = s)
      ((ensures_instrAt hplace hi).2 ⟨rfl, rfl⟩).passes ?_
    rintro i s ⟨rfl, rfl⟩
    dsimp only
    split
    · next hmerge =>
      simp only [Bool.and_eq_true, Bool.or_eq_true, decide_eq_true_eq, beq_iff_eq] at hmerge
      obtain ⟨hop, hmerge⟩ := hmerge
      have hbound := hnils q i (by omega) hi hop
      obtain ⟨hop', ha, hb⟩ := @Instr.widen_fields i first n 250 hop le_rfl (by omega) (by omega) (by omega)
      refine ((ensures_updateInstr hplace (by omega)).2 ⟨fun k j hk hj hopj => ?_, by simp, rfl, fun host f g hl =>
        hl.widenNils (by omega) hq hi hop hop' fun g0 hg => ?_⟩).passes
      · rw [GenState.setCode, Array.getElem?_modify] at hj
        split at hj
        · next hkq =>
          subst hkq
          rw [hi, Option.map_some] at hj
          cases hj
          change (i.widen first n).a + (i.widen first n).b < 250
          omega
        · exact hnils k j hk hj hopj
      · change _ = g0.setNils (i.widen first n).a ((i.widen first n).a + (i.widen first n).b)
        rw [hg, Frame.setNils_setNils _ (by omega)]
        congr <;> omega
    · exact hemit
  · exact hemit

theorem Gen.emitNils_leads (host : Host ρ σ) (f g : Frame ρ σ) (h : Steady p s) (first n : Nat)
    (hn : 0 < n) (hlast : first + n ≤ 250) :
    (emitNils first n).Passes s fun _ t => Steady p t ∧ Later s t ∧ t.fn.free = s.fn.free ∧
      (s.Leads host p f g → t.Leads host p f (g.setNils first (first + n - 1))) := by
  refine (passes_emitNils h.target.ge h.nils hn hlast).mono ?_
  rintro _ t ⟨hnils, hsize, ht, hleads⟩
  obtain ⟨code, lines, rfl⟩ :
    ∃ code lines, t = { s with fn := { s.fn with code := code, lines := lines } } := ⟨_, _, ht⟩
  exact ⟨⟨h.target, h.start.trans hsize, h.active, h.stack, h.places, hnils⟩,
    .of_fn rfl rfl fun _ _ h => h, rfl, hleads host f g⟩

end Loads

/-! ## Operands -/

/-- The value, in frame `g`, of an operand that no jump leaves. -/
inductive Means (s : GenState) (g : Frame ρ σ) : Operand → Value ρ → Prop
  | nil : Means s g (.plain .nil 0) .nil
  | true : Means s g (.plain .true 0) (.boolean Bool.true)
  | false : Means s g (.plain .false 0) (.boolean Bool.false)
  | number (x : Number) : Means s g (.number x) (.number x)
  | constant {k : Nat} {c : Constant} (hc : s.fn.constants[k]? = some c) :
    Means s g (.plain .constant k) (.ofConstant c)
  | register {r : Nat} (hr : (r : Int) < s.fn.active) : Means s g (.plain .nonRelocatable r) (g.reg r)
  | local {r : Nat} (hr : (r : Int) < s.fn.active) : Means s g (.plain .local r) (g.reg r)
  | upvalue (u : Nat) : Means s g (.plain .upvalue u) (g.upval u)

/-- The code that `t` has and `s` has not leads from frame `g` to frame `g'`. -/
structure Does (host : Host ρ σ) (p : Nat) (f : Frame ρ σ) (s : GenState) (g : Frame ρ σ) (t : GenState)
    (g' : Frame ρ σ) : Prop where
  steady : Steady p t
  later : Later s t
  leads : s.Leads host p f g → t.Leads host p f g'

/-- The frames agree in the registers below `n` and in all else that variables and tables can be in. -/
structure AgreeBelow (n : Int) (g g' : Frame ρ σ) : Prop where
  reg : ∀ r : Nat, (r : Int) < n → g'.reg r = g.reg r
  upval : g'.upval = g.upval
  mem : g'.mem = g.mem

namespace AgreeBelow
variable {m n : Int} {g g' g'' : Frame ρ σ}

theorem refl (n : Int) (g : Frame ρ σ) : AgreeBelow n g g :=
  ⟨fun _ _ => rfl, rfl, rfl⟩

theorem trans (h : AgreeBelow n g g') (h' : AgreeBelow n g' g'') : AgreeBelow n g g'' :=
  ⟨fun r hr => (h'.reg r hr).trans (h.reg r hr), h'.upval.trans h.upval, h'.mem.trans h.mem⟩

theorem mono (h : AgreeBelow n g g') (hm : m ≤ n) : AgreeBelow m g g' :=
  ⟨fun r hr => h.reg r (by omega), h.upval, h.mem⟩

theorem setReg (g : Frame ρ σ) {r : Nat} (hr : n ≤ r) (v : Value ρ) : AgreeBelow n g (g.setReg r v) :=
  ⟨fun q hq => if_neg (by omega), rfl, rfl⟩

theorem setNils (g : Frame ρ σ) {r : Nat} (hr : n ≤ r) (last : Nat) : AgreeBelow n g (g.setNils r last) :=
  ⟨fun q hq => if_neg (by omega), rfl, rfl⟩

end AgreeBelow

theorem Machine.Frame.setReg_reg (g : Frame ρ σ) (r : Nat) (v : Value ρ) : (g.setReg r v).reg r = v :=
  if_pos rfl

section Operands
variable {host : Host ρ σ} {p : Nat} {f g g' g'' : Frame ρ σ} {s t u : GenState} {e : Operand}
  {v : Value ρ}

theorem Does.refl (h : Steady p s) : Does host p f s g s g :=
  ⟨h, .refl s, id⟩

theorem Does.trans (h : Does host p f s g t g') (h' : Does host p f t g' u g'') : Does host p f s g u g'' :=
  ⟨h'.steady, h.later.trans h'.later, fun hl => h'.leads (h.leads hl)⟩

theorem Does.still (hsteady : Steady p t) (hlater : Later s t) (hcode : t.fn.code = s.fn.code) :
    Does host p f s g t g :=
  ⟨hsteady, hlater, fun hl => hl.congr hcode hlater.constants⟩

theorem Does.onLine (h : Steady p s) (n : Int) : Does host p f s g (s.onLine n) g :=
  .still (h.onLine n) (.onLine s n) rfl

theorem Does.reserved (h : Steady p s) {n : Int} (hn : 0 ≤ n) (hmax : s.fn.free + n ≤ 249) :
    Does host p f s g (s.reserved n) g :=
  .still (h.reserved hn hmax) (.reserved s n) rfl

theorem Means.later (h : Means s g e v) (hlater : Later s t) : Means t g e v := by
  cases h with
  | nil => exact .nil
  | true => exact .true
  | false => exact .false
  | number x => exact .number x
  | constant hc => exact .constant (hlater.constants _ _ hc)
  | register hr => exact .register (by rwa [hlater.active])
  | «local» hr => exact .local (by rwa [hlater.active])
  | upvalue u => exact .upvalue u

theorem Does.push (h : Steady p s) {i : Instr} (hop : i.op? ≠ some .loadNil)
    (hexec : ∀ cs ax, Within s.fn.constants cs →
      exec host cs ax i s.fn.code.size g = some (.goto ((s.fn.code.size : Int) + 1) g')) :
    Does host p f s g (s.push i) g' :=
  ⟨h.push fun h' => absurd h' hop, .push s i, fun hl => hl.push hexec⟩

variable {reg : Nat} {c : Constant}

theorem Does.pushConstant (h : Steady p s) {k : Nat} (hreg : reg < 250)
    (hc : s.fn.constants[k]? = some c) (hk : (k : Int) ≤ maxAx) :
    Does host p f s g (s.pushConstant reg k) (g.setReg reg (.ofConstant c)) :=
  ⟨h.pushConstant reg k, .pushConstant s reg k, fun hl => hl.pushConstant hreg hc hk⟩

theorem Instr.abc_natFields (op : Opcode) {a b : Nat} {c : Int} (ha : (a : Int) ≤ maxA)
    (hb : (b : Int) ≤ maxB) (hc : 0 ≤ c ∧ c ≤ maxC) :
    (abc op.code a b c).op? = some op ∧ (abc op.code a b c).a = a ∧ (abc op.code a b c).b = b ∧
      ((abc op.code a b c).c : Int) = c := by
  obtain ⟨hop, ha', hb', hc'⟩ := abc_fields op ⟨Int.natCast_nonneg a, ha⟩ ⟨Int.natCast_nonneg b, hb⟩ hc
  exact ⟨hop, Int.ofNat_inj.1 ha', Int.ofNat_inj.1 hb', hc'⟩

section
variable (host f g) (h : Steady p s)
include h

theorem Gen.emitMove_does {reg r : Nat} : (emitABC .move reg r 0).Passes s fun _ t => t.fn.free = s.fn.free ∧
      Does host p f s g t (g.setReg reg (g.reg r)) := by
  refine passes_emitABC.mono ?_
  rintro _ _ ⟨-, rfl, ha, hb, hc⟩
  obtain ⟨hop, ha', hb', -⟩ := Instr.abc_natFields .move ha hb ⟨le_rfl, hc⟩
  refine ⟨rfl, .push h (by simp [hop]) fun cs ax _ => ?_⟩
  rw [exec_move hop, ha', hb']

theorem Gen.emitBool_does {reg b : Nat} : (emitABC .loadBool reg b 0).Passes s fun _ t => t.fn.free = s.fn.free ∧
      Does host p f s g t (g.setReg reg (.boolean (b ≠ 0))) := by
  refine passes_emitABC.mono ?_
  rintro _ _ ⟨-, rfl, ha, hb, hc⟩
  obtain ⟨hop, ha', hb', hc'⟩ := Instr.abc_natFields .loadBool ha hb ⟨le_rfl, hc⟩
  refine ⟨rfl, .push h (by simp [hop]) fun cs ax _ => ?_⟩
  rw [exec_loadBool hop (by omega), ha', hb']

theorem Gen.emitConstant_does {reg k : Nat} {c : Constant} (hreg : reg < 250) (hc : s.fn.constants[k]? = some c) :
    (emitConstant reg k).Passes s fun _ t => t.fn.free = s.fn.free ∧
      Does host p f s g t (g.setReg reg (.ofConstant c)) := by
  refine passes_emitConstant.mono ?_
  rintro _ _ ⟨rfl, hk⟩
  exact ⟨by simp, .pushConstant h hreg hc hk⟩

theorem Gen.internConstant_does (c : Constant) :
    (internConstant c).Passes s fun k t => t.fn.free = s.fn.free ∧ Does host p f s g t g ∧
      ∃ n : Nat, k = n ∧ n ≤ s.fn.constants.size ∧ ∃ c', t.fn.constants[n]? = some c' ∧
        (Value.ofConstant c' : Value ρ) = .ofConstant c := by
  refine (passes_internConstant h c).mono ?_
  rintro k t ⟨hsteady, hlater, ht, n, rfl, hn, c', hc', hkey⟩
  have hcode : t.fn.code = s.fn.code := by rw [ht]; rfl
  exact ⟨by rw [ht]; rfl, .still hsteady hlater hcode, n, rfl, hn, c', hc',
    Value.ofConstant_of_key hkey⟩

end

theorem modify_push {α : Type} (xs : Array α) (x : α) (w : α → α) : (xs.push x).modify xs.size w = xs.push (w x) := by
  apply Array.ext_getElem?
  intro k
  rw [Array.getElem?_modify, Array.getElem?_push, Array.getElem?_push]
  split
  · next h => simp [h]
  · next h => rw [if_neg (Ne.symm h), if_neg (Ne.symm h)]

theorem Does.fetchUpvalue (h : Steady p s) {u : Nat} (hreg : (reg : Int) ≤ maxA) (hu : (u : Int) ≤ maxB) :
    Does host p f s g (s.push ((Instr.abc Opcode.getUpval.code 0 u 0).setA reg)) (g.setReg reg (g.upval u)) := by
  obtain ⟨hop, -, hb, -⟩ := Instr.abc_fields .getUpval (show 0 ≤ (0 : Int) ∧ 0 ≤ maxA by decide)
    ⟨Int.natCast_nonneg u, hu⟩ (show 0 ≤ (0 : Int) ∧ 0 ≤ maxC by decide)
  have ha : (((Instr.abc Opcode.getUpval.code 0 u 0).setA reg).a : Int) = reg := by
    rw [Instr.a_setA]
    exact ⟨Int.natCast_nonneg reg, hreg⟩
  refine .push h (by simp [hop]) fun cs ax _ => ?_
  rw [exec_getUpval (by simpa using hop), Instr.b_setA, Int.ofNat_inj.1 hb, Int.ofNat_inj.1 ha]

theorem Gen.moveTo_does (host : Host ρ σ) (f g : Frame ρ σ) (h : Steady p s) {r : Nat} :
    (do
      if (reg : Int) ≠ r then
        let _ ← emitABC .move reg r 0
      return Operand.plain .nonRelocatable reg : Gen Operand).Passes s fun e' t =>
      e' = .plain .nonRelocatable reg ∧ t.fn.free = s.fn.free ∧
        Does host p f s g t (g.setReg reg (g.reg r)) := by
  split
  · refine (emitMove_does host f g h).bind ?_
    rintro _ t ⟨hfree, hdoes⟩
    exact passes_pure ⟨rfl, hfree, hdoes⟩
  · next heq =>
    obtain rfl : reg = r := by omega
    rw [Frame.setReg_self]
    exact passes_pure ⟨rfl, rfl, .refl h⟩

theorem Gen.dischargeTo_does (host : Host ρ σ) (f g : Frame ρ σ) (h : Steady p s)
    (he : Means s g e v) (hreg : reg < 250) :
    (dischargeTo e reg).Passes s fun e' t => e' = .plain .nonRelocatable reg ∧ t.fn.free = s.fn.free ∧
      Does host p f s g t (g.setReg reg v) := by
  cases he with
  | nil =>
    refine passes_pure_bind (a := Operand.plain .nil 0) ?_
    refine (emitNils_leads host f g h reg 1 Nat.one_pos (by omega)).bind ?_
    rintro _ t ⟨hsteady, hlater, hfree, hleads⟩
    rw [Nat.add_sub_cancel, Frame.setNils_one] at hleads
    exact passes_pure ⟨rfl, hfree, hsteady, hlater, hleads⟩
  | true =>
    refine passes_pure_bind (a := Operand.plain .true 0) ?_
    refine (emitBool_does host f g (b := 1) h).bind ?_
    rintro _ t ⟨hfree, hdoes⟩
    exact passes_pure ⟨rfl, hfree, hdoes⟩
  | false =>
    refine passes_pure_bind (a := Operand.plain .false 0) ?_
    refine (emitBool_does host f g (b := 0) h).bind ?_
    rintro _ t ⟨hfree, hdoes⟩
    exact passes_pure ⟨rfl, hfree, hdoes⟩
  | number x =>
    refine passes_pure_bind (a := Operand.number x) ?_
    refine (internConstant_does host f g h (.number x)).bind ?_
    rintro _ t ⟨hfree, hdoes, n, rfl, -, c, hc, hv⟩
    refine (emitConstant_does host f g hdoes.steady hreg hc).bind ?_
    rintro _ u ⟨hfree', hdoes'⟩
    rw [hv] at hdoes'
    exact passes_pure ⟨rfl, hfree'.trans hfree, hdoes.trans hdoes'⟩
  | @constant k c hc =>
    refine passes_pure_bind (a := Operand.plain .constant k) ?_
    refine (emitConstant_does host f g h hreg hc).bind ?_
    rintro _ u ⟨hfree, hdoes⟩
    exact passes_pure ⟨rfl, hfree, hdoes⟩
  | @register r hr | @«local» r hr =>
    refine passes_pure_bind (a := Operand.plain .nonRelocatable r) ?_
    exact moveTo_does host f g h
  | upvalue u =>
    refine Passes.bind (P := fun e' t => e' = .plain .relocatable s.fn.code.size ∧
      t = s.push (.abc Opcode.getUpval.code 0 u 0) ∧ (u : Int) ≤ maxB) ?_ ?_
    · refine passes_emitABC.bind ?_
      rintro _ _ ⟨rfl, rfl, -, hu, -⟩
      exact passes_pure ⟨rfl, rfl, hu⟩
    · rintro _ _ ⟨rfl, rfl, hu⟩
      refine Passes.bind (P := fun _ t => t = s.push ((Instr.abc Opcode.getUpval.code 0 u 0).setA reg))
        ((ensures_updateInstr rfl (by simp [GenState.push])).2 ?_).passes ?_
      · simp only [GenState.setCode, GenState.push, modify_push]
      · rintro _ _ rfl
        exact passes_pure ⟨rfl, rfl, .fetchUpvalue h (by simp only [maxA]; omega) hu⟩

theorem Gen.passes_settled {reg : Int} {P : Operand → GenState → Prop}
    (h : P (.plain .nonRelocatable reg) s) :
    (do
      let e ← joinComparison (.plain .nonRelocatable reg)
      if e.carriesJumps then settleJumps e reg
      return Operand.plain .nonRelocatable reg : Gen Operand).Passes s P := by
  refine passes_pure_bind (a := Operand.plain .nonRelocatable reg) ?_
  exact passes_pure h

theorem Gen.toRegister_does (host : Host ρ σ) (f g : Frame ρ σ) (h : Steady p s) (he : Means s g e v) (hreg : reg < 250) :
    (toRegister e reg).Passes s fun e' t => e' = .plain .nonRelocatable reg ∧ t.fn.free = s.fn.free ∧
      Does host p f s g t (g.setReg reg v) := by
  refine (dischargeTo_does host f g h he hreg).bind ?_
  rintro _ t ⟨rfl, hfree, hdoes⟩
  exact passes_settled ⟨rfl, hfree, hdoes⟩

theorem Gen.passes_releaseVariable (h : Steady p s) {r : Nat} (hr : (r : Int) < s.fn.active) :
    (releaseOperand (.plain .nonRelocatable r)).Passes s fun _ t => t = s := by
  refine passes_releaseRegister.mono ?_
  rintro _ t (⟨-, rfl⟩ | ⟨hle, -⟩)
  · rfl
  · simp only [Operand.plain] at hle
    omega

theorem Gen.loadNext_does (host : Host ρ σ) (f g : Frame ρ σ) (h : Steady p s) (he : Means s g e v) :
    (do
      reserve 1
      toRegister e ((← getFn).free - 1) : Gen Operand).Passes s fun e' t =>
      ∃ r : Nat, s.fn.free = r ∧ e' = .plain .nonRelocatable r ∧ t.fn.free = r + 1 ∧
        Does host p f s g t (g.setReg r v) := by
  refine (passes_reserve h.stack.2).bind ?_
  rintro _ _ ⟨rfl, hmax⟩
  refine .getFn ?_
  obtain ⟨r, hr⟩ : ∃ r : Nat, s.fn.free = r := ⟨s.fn.free.toNat, by have := h.active; omega⟩
  have hdoes : Does host p f s g (s.reserved 1) g := .reserved h (by omega) hmax
  have hfree : (s.reserved 1).fn.free - 1 = r := by
    simp only [GenState.reserved, GenState.withFree]
    omega
  rw [hfree]
  refine (toRegister_does host f g hdoes.steady (he.later hdoes.later) (by omega)).mono ?_
  rintro _ t ⟨rfl, hfree', hdoes'⟩
  exact ⟨r, hr, rfl, by omega, hdoes.trans hdoes'⟩

/-- The instruction that fetches an upvalue comes first and gets the next register last. -/
theorem Gen.loadFetched_does (host : Host ρ σ) (f g : Frame ρ σ) (h : Steady p s) {u : Nat}
    (hu : (u : Int) ≤ maxB) :
    (do
      reserve 1
      toRegister (.plain .relocatable s.fn.code.size) ((← getFn).free - 1) : Gen Operand).Passes
      (s.push (.abc Opcode.getUpval.code 0 u 0)) fun e' t =>
      ∃ r : Nat, s.fn.free = r ∧ e' = .plain .nonRelocatable r ∧ t.fn.free = r + 1 ∧
        Does host p f s g t (g.setReg r (g.upval u)) := by
  refine (passes_reserve (s := s.push _) h.stack.2).bind ?_
  rintro _ _ ⟨rfl, hmax⟩
  refine .getFn ?_
  obtain ⟨r, hr⟩ : ∃ r : Nat, s.fn.free = r := ⟨s.fn.free.toNat, by have := h.active; omega⟩
  have hroom : s.fn.free + 1 ≤ 249 := hmax
  have hfree : ((s.push (.abc Opcode.getUpval.code 0 u 0)).reserved 1).fn.free - 1 = r := by
    simp only [GenState.reserved, GenState.withFree, GenState.push]
    omega
  rw [hfree]
  refine Passes.bind (P := fun e' t => e' = .plain .nonRelocatable r ∧
    t = (s.push ((Instr.abc Opcode.getUpval.code 0 u 0).setA r)).reserved 1) ?_ ?_
  · refine Passes.bind (P := fun e' t => e' = .plain .relocatable s.fn.code.size ∧
      t = (s.push (.abc Opcode.getUpval.code 0 u 0)).reserved 1) (passes_pure ⟨rfl, rfl⟩) ?_
    rintro _ _ ⟨rfl, rfl⟩
    refine Passes.bind (P := fun _ t => t = (s.push ((Instr.abc Opcode.getUpval.code 0 u 0).setA r)).reserved 1)
      ((ensures_updateInstr rfl ?_).2 ?_).passes ?_
    · simp [GenState.reserved, GenState.withFree, GenState.withRoom, GenState.push]
    · simp only [GenState.setCode, GenState.reserved, GenState.withFree, GenState.withRoom, GenState.push, modify_push]
    · rintro _ _ rfl
      exact passes_pure ⟨rfl, rfl⟩
  · rintro _ _ ⟨rfl, rfl⟩
    have hdoes : Does host p f s g (s.push ((Instr.abc Opcode.getUpval.code 0 u 0).setA r))
        (g.setReg r (g.upval u)) :=
      .fetchUpvalue h (by simp only [maxA]; omega) hu
    refine passes_settled ⟨r, hr, rfl, ?_, hdoes.trans (.reserved hdoes.steady (by omega) hmax)⟩
    simp only [GenState.reserved, GenState.withFree, GenState.push]
    omega

theorem Gen.passes_fetchUpvalue {u : Nat} :
    (discharge (.plain .upvalue u)).Passes s fun e' t => e' = .plain .relocatable s.fn.code.size ∧
      t = s.push (.abc Opcode.getUpval.code 0 u 0) ∧ (u : Int) ≤ maxB := by
  refine passes_emitABC.bind ?_
  rintro _ _ ⟨rfl, rfl, -, hu, -⟩
  exact passes_pure ⟨rfl, rfl, hu⟩

theorem Gen.toNextRegister_does (host : Host ρ σ) (f g : Frame ρ σ) (h : Steady p s) (he : Means s g e v) :
    (toNextRegister e).Passes s fun e' t => ∃ r : Nat, s.fn.free = r ∧
      e' = .plain .nonRelocatable r ∧ t.fn.free = r + 1 ∧ Does host p f s g t (g.setReg r v) := by
  have hvariable {r : Nat} (hr : (r : Int) < s.fn.active) : (do
      releaseOperand (.plain .nonRelocatable r)
      reserve 1
      toRegister (.plain .nonRelocatable r) ((← getFn).free - 1) : Gen Operand).Passes s fun e' t =>
      ∃ q : Nat, s.fn.free = q ∧ e' = .plain .nonRelocatable q ∧ t.fn.free = q + 1 ∧
        Does host p f s g t (g.setReg q (g.reg r)) := by
    refine (passes_releaseVariable h hr).bind ?_
    rintro _ s rfl
    exact loadNext_does host f g h (.register hr)
  cases he with
  | register hr => exact hvariable hr
  | «local» hr => exact hvariable hr
  | upvalue u =>
    refine passes_fetchUpvalue.bind ?_
    rintro _ _ ⟨rfl, rfl, hu⟩
    exact loadFetched_does host f g h hu
  | nil => exact loadNext_does host f g h .nil
  | true => exact loadNext_does host f g h .true
  | false => exact loadNext_does host f g h .false
  | number x => exact loadNext_does host f g h (.number x)
  | constant hc => exact loadNext_does host f g h (.constant hc)

/-- A value is in a register after `s`: in that of a variable, or else in the next one. -/
structure InRegister (s t : GenState) (g' : Frame ρ σ) (r : Nat) (v : Value ρ) : Prop where
  value : g'.reg r = v
  free : (r : Int) < s.fn.active ∧ t.fn.free = s.fn.free ∨ (r : Int) = s.fn.free ∧ t.fn.free = s.fn.free + 1

theorem Gen.Passes.inRegister {m : Gen Operand} (h : m.Passes t fun e' u => ∃ r : Nat, s.fn.free = r ∧
      e' = .plain .nonRelocatable r ∧ u.fn.free = r + 1 ∧ Does host p f s g u (g.setReg r v)) :
    m.Passes t fun e' u => ∃ (r : Nat) (g' : Frame ρ σ), e' = .plain .nonRelocatable r ∧
      InRegister s u g' r v ∧ AgreeBelow s.fn.free g g' ∧ Does host p f s g u g' := by
  refine h.mono ?_
  rintro _ u ⟨r, hr, rfl, hfree, hdoes⟩
  exact ⟨r, _, rfl, ⟨g.setReg_reg r v, .inr ⟨hr.symm, by omega⟩⟩, .setReg g hr.le v, hdoes⟩

theorem Gen.toAnyRegister_does (host : Host ρ σ) (f g : Frame ρ σ) (h : Steady p s) (he : Means s g e v) :
    (toAnyRegister e).Passes s fun e' t => ∃ (r : Nat) (g' : Frame ρ σ),
      e' = .plain .nonRelocatable r ∧ InRegister s t g' r v ∧ AgreeBelow s.fn.free g g' ∧ Does host p f s g t g' := by
  cases he with
  | @register r hr | @«local» r hr => exact passes_pure ⟨r, g, rfl, ⟨rfl, .inl ⟨hr, rfl⟩⟩, .refl _ g, .refl h⟩
  | upvalue u =>
    refine passes_fetchUpvalue.bind ?_
    rintro _ _ ⟨rfl, rfl, hu⟩
    exact (loadFetched_does host f g h hu).inRegister
  | nil => exact (toNextRegister_does host f g h .nil).inRegister
  | true => exact (toNextRegister_does host f g h .true).inRegister
  | false => exact (toNextRegister_does host f g h .false).inRegister
  | number x => exact (toNextRegister_does host f g h (.number x)).inRegister
  | constant hc => exact (toNextRegister_does host f g h (.constant hc)).inRegister

/-- An operand of an instruction names a value after `s`: a constant, or the register of the operand
`e'`, which is that of a variable or the next one. -/
structure InOperand (s t : GenState) (g' : Frame ρ σ) (e' : Operand) (n : Nat) (v : Value ρ) : Prop where
  value : ∀ cs, Within t.fn.constants cs → rkValue cs g' n = some v
  free : e'.kind = .constant ∧ isConstantRK n = true ∧ t.fn.free = s.fn.free ∨
    e' = .plain .nonRelocatable n ∧ ((n : Int) < s.fn.active ∧ t.fn.free = s.fn.free ∨
      (n : Int) = s.fn.free ∧ t.fn.free = s.fn.free + 1)

theorem rkValue_constant {cs : Array Constant} {k : Nat} (hk : k ≤ 255)
    (hc : cs[k]? = some c) : rkValue cs g (k + 256) = some (.ofConstant c) := by
  have hrk : isConstantRK ((k + 256 : Nat) : Int) = true := isConstantRK_of_ge (by omega)
  have hof : (constantOfRK ((k + 256 : Nat) : Int)).toNat = k := by
    rw [constantOfRK, if_pos hrk]
    omega
  rw [rkValue, if_pos hrk, hof, constantAt, hc, Option.map_some]

theorem rkValue_register {cs : Array Constant} {r : Nat} (hr : r < 256) : rkValue cs g r = some (g.reg r) := by
  rw [rkValue, if_neg (by rw [isConstantRK_of_lt (by omega)]; simp)]

theorem InOperand.constant (hdoes : Does host p f s g t g) (hfree : t.fn.free = s.fn.free) {k : Nat} (hk : k ≤ 255) (hc : t.fn.constants[k]? = some c) :
    ∃ (n : Nat) (g' : Frame ρ σ), asConstantRK k = n ∧ AgreeBelow s.fn.free g g' ∧
      InOperand s t g' (.plain .constant k) n (.ofConstant c) ∧ Does host p f s g t g' := by
  refine ⟨k + 256, g, ?_, .refl _ g, ⟨fun cs hcs => rkValue_constant hk (hcs k c hc),
    .inl ⟨rfl, isConstantRK_of_ge (by omega), hfree⟩⟩, hdoes⟩
  rw [asConstantRK_eq (by omega)]
  rfl

theorem Gen.Passes.inOperand {m : Gen Operand} (hs : Steady p s)
    (h : m.Passes t fun e' u => ∃ (r : Nat) (g' : Frame ρ σ), e' = .plain .nonRelocatable r ∧
      InRegister s u g' r v ∧ AgreeBelow s.fn.free g g' ∧ Does host p f s g u g') :
    (do
      let e ← m
      return (e, e.info) : Gen (Operand × Int)).Passes t fun r u => ∃ (n : Nat) (g' : Frame ρ σ),
      r.2 = n ∧ AgreeBelow s.fn.free g g' ∧ InOperand s u g' r.1 n v ∧ Does host p f s g u g' := by
  refine h.bind ?_
  rintro _ u ⟨r, g', rfl, hin, hagree, hdoes⟩
  refine passes_pure ⟨r, g', rfl, hagree, ⟨fun cs _ => ?_, .inr ⟨rfl, hin.free⟩⟩, hdoes⟩
  have hactive := hs.active
  have hstack := hs.stack
  rw [rkValue_register (by rcases hin.free with hr | hr <;> omega), hin.value]

theorem Gen.registerRK_does (host : Host ρ σ) (f g : Frame ρ σ) (h : Steady p s) (he : Means s g e v) :
    (registerRK e).Passes s fun r t => ∃ (n : Nat) (g' : Frame ρ σ), r.2 = n ∧
      AgreeBelow s.fn.free g g' ∧ InOperand s t g' r.1 n v ∧ Does host p f s g t g' :=
  (toAnyRegister_does host f g h he).inOperand h

theorem Gen.toRK_does (host : Host ρ σ) (f g : Frame ρ σ) (h : Steady p s) (he : Means s g e v) :
    (toRK e).Passes s fun r t => ∃ (n : Nat) (g' : Frame ρ σ), r.2 = n ∧
      AgreeBelow s.fn.free g g' ∧ InOperand s t g' r.1 n v ∧ Does host p f s g t g' := by
  have hnamed {kind : Operand.Kind} (c : Constant)
      (he : Means s g (.plain kind 0) (.ofConstant c)) :
      (do
        if (← getFn).constants.size ≤ maxIndexRK then
          let k ← internConstant c
          return (.plain .constant k, asConstantRK k)
        else registerRK (.plain kind 0) : Gen (Operand × Int)).Passes s fun r t =>
        ∃ (n : Nat) (g' : Frame ρ σ), r.2 = n ∧ AgreeBelow s.fn.free g g' ∧
          InOperand s t g' r.1 n (.ofConstant c) ∧ Does host p f s g t g' := by
    refine .getFn ?_
    split
    · next hsize =>
      refine (internConstant_does host f g h c).bind ?_
      rintro _ t ⟨hfree, hdoes, n, rfl, hn, c', hc', hv⟩
      rw [← hv]
      simp only [maxIndexRK] at hsize
      exact passes_pure (InOperand.constant hdoes hfree (by omega) hc')
    · exact registerRK_does host f g h he
  have hfitting {s : GenState} (h : Steady p s) {k : Nat} {c : Constant}
      (hc : s.fn.constants[k]? = some c) :
      (if (k : Int) ≤ maxIndexRK then pure (.plain .constant k, asConstantRK k)
        else registerRK (.plain .constant k) : Gen (Operand × Int)).Passes s fun r t =>
        ∃ (n : Nat) (g' : Frame ρ σ), r.2 = n ∧ AgreeBelow s.fn.free g g' ∧
          InOperand s t g' r.1 n (.ofConstant c) ∧ Does host p f s g t g' := by
    split
    · next hk =>
      simp only [maxIndexRK] at hk
      exact passes_pure (InOperand.constant (.refl h) rfl (by omega) hc)
    · exact registerRK_does host f g h (.constant hc)
  cases he with
  | nil => exact hnamed .nil .nil
  | true => exact hnamed (.boolean true) .true
  | false => exact hnamed (.boolean false) .false
  | number x =>
    refine passes_pure_bind (a := Operand.number x) ?_
    refine (internConstant_does host f g h (.number x)).bind ?_
    rintro _ t ⟨hfree, hdoes, n, rfl, -, c, hc, hv⟩
    refine (hfitting hdoes.steady hc).mono ?_
    rintro r u ⟨n, g', hn, hagree, hin, hdoes'⟩
    rw [hv] at hin
    refine ⟨n, g', hn, hfree ▸ hagree, ⟨hin.value, ?_⟩, hdoes.trans hdoes'⟩
    have := hin.free
    rwa [hfree, hdoes.later.active] at this
  | constant hc => exact hfitting h hc
  | register hr | «local» hr => exact registerRK_does host f g h (.register hr)
  | upvalue u =>
    refine passes_fetchUpvalue.bind ?_
    rintro _ _ ⟨rfl, rfl, hu⟩
    exact (loadFetched_does host f g h hu).inRegister.inOperand h

end Operands

end RegisterCompiler
