import Mathlib.Data.List.Forall2
import RegisterCompiler.Generator.Function
import RegisterCompiler.Proofs.OpenJumps

/-!
# The state of generation, in order

* `Func.Ok f H` : the function is in order, the jumps at the places in `H` being open;
* `GenState.Valid`, `GenState.Ok` : so is the state. Between two instructions that belong together a
  state is only valid;
* `Grows s t` : what generating code from `s` to `t` keeps in any case;
* `Evolves s t` : what code for an expression keeps besides. It only adds code after the code that
  was there.
-/

namespace RegisterCompiler

open Gen (envName maxConstants)

variable {f : Func} {s t : GenState} {n : Nat} {labels : Array Label} {top : Int} {cs : List Scope}

/-! ## Functions -/

def Func.bounds (f : Func) : Bounds :=
  ⟨f.stack, f.constants.size, f.upvalues.size, f.protos.size⟩

def Scope.erase (c : Scope) : Scope :=
  { c with isCaptured := false }

/-- The open blocks, the innermost first, of a function with `top` active variables and `n` labels.
The number `g` is the place of the first pending jump inside; the outermost block starts with
nothing. -/
def ScopesOk (labels : Array Label) : (top : Int) → (n g : Nat) → List Scope → Prop
  | top, n, g, [] => top = 0 ∧ n = 0 ∧ g = 0
  | top, n, _, c :: rest =>
    c.active ≤ top ∧ (c.isCaptured → c.active < top) ∧ c.firstLabel ≤ n ∧
      (∀ (k : Nat) (l : Label), k < n → labels[k]? = some l → l.active ≤ top) ∧
      ScopesOk labels c.active c.firstLabel c.firstGoto rest

def Func.record? (f : Func) (r : Nat) : Option LocalVar :=
  f.declared[r]?.bind fun k => f.locals[k]?

/-- The active variables are visible from `pc` on, or before it. -/
abbrev Func.StartsBy (f : Func) (pc : Int) : Prop :=
  ∀ (r : Nat) (v : LocalVar), (r : Int) < f.active → f.record? r = some v → v.startPC ≤ pc

/-- The name starts with a parenthesis, as the name of no variable in a source does. -/
def IsHidden (name : Bytes) : Prop :=
  name.head? = some 40

/-- The variables right in the block of a loop are hidden, and the block is not marked as captured;
`top` is the number of active variables, and `vars` are their records. -/
def LoopsOk (vars : Nat → Option LocalVar) : (top : Int) → List Scope → Prop
  | _, [] => True
  | top, c :: rest =>
    (c.isLoop → c.isCaptured = false ∧ ∀ (r : Nat) (v : LocalVar), c.active ≤ r → (r : Int) < top →
      vars r = some v → IsHidden v.name) ∧ LoopsOk vars c.active rest

/-- The variables and blocks of the function are in order. -/
structure Func.Scoped (f : Func) : Prop where
  active : 0 ≤ f.active ∧ f.active ≤ f.declared.size
  upvalues : f.upvalues.size ≤ 255
  scopes : ScopesOk f.labels f.active f.labels.size 0 f.scopes
  loops : LoopsOk f.record? f.active f.scopes

/-- The block that the variable in register `r` belongs to is marked as captured; the innermost block
comes first. -/
def CapturedAt (r : Int) : List Scope → Prop
  | [] => False
  | [c] => c.isCaptured
  | c :: rest => if c.active > r then CapturedAt r rest else c.isCaptured

/-- The instruction at `q` makes a closure over the variable in register `r`. -/
def Func.Captures (f : Func) (q r : Nat) : Prop :=
  ∃ (i : Instr) (p : Proto) (u : Upvalue), f.code[q]? = some i ∧ i.op? = some .closure ∧
    f.protos[i.bx]? = some p ∧ u ∈ p.upvalueList ∧ u.isLocal ∧ u.index = r

/-- The constant of a source that has the key. -/
def Constant.Key.constant : Key → Constant
  | .nil => .nil
  | .boolean b => .boolean b
  | .number x => .number ⟨x⟩
  | .string s => .string s

/-- The function is in order, except that the jumps at the places in `H` are open. -/
structure Func.Ok (f : Func) (H : Set Nat) : Prop extends f.Scoped where
  isOpen : f.isClosed = false
  lines : f.lines.size = f.code.size
  pending : f.pending = .empty
  target : 0 ≤ f.lastTarget ∧ f.lastTarget ≤ f.code.size
  code : CodeOk f.bounds f.lastTarget H f.code
  stack : 2 ≤ f.stack ∧ f.stack ≤ 249
  free : 0 ≤ f.free ∧ f.free ≤ f.stack
  params : f.params ≤ f.stack
  declared : ∀ k ∈ f.declared, k < f.locals.size
  places : ∀ (key : Constant.Key) (k : Nat), f.constantPlaces[key]? = some k →
    f.constants[k]? = some key.constant
  constants : (f.constants.size : Int) ≤ maxConstants
  protos : (f.protos.size : Int) ≤ maxBx
  nested : ∀ p ∈ f.protos, p.Sound

/-! ## States -/

/-- An upvalue of a function right inside `f` stands for what its name stands for in `f`: a local
variable, whose block is marked as captured, or else an upvalue. -/
def Upvalue.LinksTo (u : Upvalue) (f : Func) : Prop :=
  if u.isLocal then
    ∃ r : Nat, u.index = r ∧ f.findLocal? u.name = some r ∧ CapturedAt r f.scopes
  else
    ∃ k : Nat, u.index = k ∧ f.findLocal? u.name = none ∧
      ∃ v, f.upvalues[k]? = some v ∧ v.name = u.name

/-- The upvalues of a function inside the functions `outer`, the nearest first, and of those have
different names and stand for variables further out. The only one of the outermost function is the
environment. -/
def Linked : Func → (outer : List Func) → Prop
  | f, [] => f.upvalues = #[⟨envName, true, 0⟩]
  | f, g :: rest =>
    (f.upvalues.toList.map Upvalue.name).Nodup ∧ (∀ u ∈ f.upvalues, u.LinksTo g) ∧ Linked g rest

variable {g : Func} {u : GenState}

theorem Linked.congr {outer : List Func} (h : Linked f outer) (hu : g.upvalues = f.upvalues) : Linked g outer := by
  cases outer with
  | nil => exact hu.trans h
  | cons => exact ⟨hu ▸ h.1, hu ▸ h.2.1, h.2.2⟩

/-- The state is in order, except that the jumps at the places in `H` are open and that the last
instruction may need a particular next one. -/
structure GenState.Valid (s : GenState) (H : Set Nat) : Prop where
  fn : s.fn.Ok H
  inner : s.inner = []
  outer : ∀ g ∈ s.outer, g.Scoped
  env : Linked s.fn s.outer

/-- The state is in order, except that the jumps at the places in `H` are open. -/
structure GenState.Ok (s : GenState) (H : Set Nat) : Prop extends s.Valid H where
  ends : Sealed s.fn.code
  held : ∀ p ∈ H, p < s.fn.code.size

/-! ## What generation keeps -/

/-- `g` is `f` with more upvalues and more variables captured. -/
structure Captured (f g : Func) : Prop where
  eq : g = { f with scopes := g.scopes, upvalues := g.upvalues }
  scopes : g.scopes.map Scope.erase = f.scopes.map Scope.erase
  marks : ∀ r, CapturedAt r f.scopes → CapturedAt r g.scopes
  upvalues : ∀ (k : Nat) (u : Upvalue), f.upvalues[k]? = some u → g.upvalues[k]? = some u

theorem Captured.refl (f : Func) : Captured f f := ⟨rfl, rfl, fun _ h => h, fun _ _ h => h⟩

theorem Captured.trans {h : Func} (hfg : Captured f g) (hgh : Captured g h) : Captured f h where
  eq := by
    rw [hgh.eq, hfg.eq]
  scopes := hgh.scopes.trans hfg.scopes
  marks r hr := hgh.marks r (hfg.marks r hr)
  upvalues k u hu := hgh.upvalues k u (hfg.upvalues k u hu)

theorem Captured.findLocal? (h : Captured f g) (name : Bytes) : g.findLocal? name = f.findLocal? name := by
  rw [h.eq]
  have hbelow : ∀ n, Func.findLocalBelow { f with scopes := g.scopes, upvalues := g.upvalues } name n =
      f.findLocalBelow name n := by
    intro n
    induction n with
    | zero => rfl
    | succ n ih => rw [Func.findLocalBelow, ih]; rfl
  exact hbelow _

theorem Upvalue.LinksTo.captured {u : Upvalue} (h : u.LinksTo f) (hc : Captured f g) : u.LinksTo g := by
  unfold Upvalue.LinksTo at h ⊢
  simp only [hc.findLocal?]
  split at h
  · rename_i hl
    obtain ⟨r, hr, hfind, hmark⟩ := h
    exact if_pos hl ▸ ⟨r, hr, hfind, hc.marks r hmark⟩
  · rename_i hl
    obtain ⟨k, hk, hfind, v, hv, hname⟩ := h
    exact if_neg hl ▸ ⟨k, hk, hfind, v, hc.upvalues k v hv, hname⟩

/-- A variable that is active in `g` was so in `f`, from the same place on, or has started since. -/
def Starts (f g : Func) : Prop :=
  ∀ (r : Nat) (v : LocalVar), (r : Int) < g.active → g.record? r = some v →
    f.code.size ≤ v.startPC ∨
      (r : Int) < f.active ∧ ∃ v0, f.record? r = some v0 ∧ v0.startPC = v.startPC

theorem Starts.refl (f : Func) : Starts f f :=
  fun _ v hr hv => .inr ⟨hr, v, hv, rfl⟩

theorem Starts.trans {h : Func} (hfg : Starts f g) (hgh : Starts g h)
    (hsize : f.code.size ≤ g.code.size) : Starts f h := by
  intro r v hr hv
  rcases hgh r v hr hv with hnew | ⟨hr', v0, hv0, heq⟩
  · exact .inl (by omega)
  · rcases hfg r v0 hr' hv0 with hnew | ⟨hr'', v1, hv1, heq'⟩
    · exact .inl (heq ▸ hnew)
    · exact .inr ⟨hr'', v1, hv1, heq'.trans heq⟩

structure Grows (s t : GenState) : Prop where
  source : t.source = s.source
  inner : t.inner = s.inner
  outer : List.Forall₂ Captured s.outer t.outer
  bounds : s.fn.bounds.Le t.fn.bounds
  size : s.fn.code.size ≤ t.fn.code.size
  target : s.fn.lastTarget ≤ t.fn.lastTarget
  protos : ∀ (k : Nat) (p : Proto), s.fn.protos[k]? = some p → t.fn.protos[k]? = some p
  starts : Starts s.fn t.fn
  targets : ∀ u, IsTarget s.fn.code s.fn.lastTarget u → IsTarget t.fn.code t.fn.lastTarget u

/-- What code generation keeps from one statement to the next: the same blocks are open besides. -/
structure Proceeds (s t : GenState) : Prop extends Grows s t where
  scopes : t.fn.scopes.map Scope.erase = s.fn.scopes.map Scope.erase

theorem forall₂_captured_refl (fs : List Func) : List.Forall₂ Captured fs fs :=
  List.forall₂_same.2 fun f _ => .refl f

theorem forall₂_captured_trans {fs gs hs : List Func} (h : List.Forall₂ Captured fs gs)
    (h' : List.Forall₂ Captured gs hs) : List.Forall₂ Captured fs hs := by
  induction h generalizing hs with
  | nil => exact h'
  | cons hfg _ ih => cases h' with
    | cons hgh hrest => exact .cons (hfg.trans hgh) (ih hrest)

theorem Grows.refl (s : GenState) : Grows s s :=
  ⟨rfl, rfl, forall₂_captured_refl _, .refl _, le_rfl, le_rfl, fun _ _ h => h, .refl _, fun _ h => h⟩

theorem Grows.trans (h : Grows s t) (h' : Grows t u) : Grows s u where
  source := h'.source.trans h.source
  inner := h'.inner.trans h.inner
  outer := forall₂_captured_trans h.outer h'.outer
  bounds := h.bounds.trans h'.bounds
  size := h.size.trans h'.size
  target := h.target.trans h'.target
  protos k p hp := h'.protos k p (h.protos k p hp)
  starts := h.starts.trans h'.starts h.size
  targets v hv := h'.targets v (h.targets v hv)

theorem Proceeds.refl (s : GenState) : Proceeds s s :=
  ⟨.refl s, rfl⟩

theorem Proceeds.trans (h : Proceeds s t) (h' : Proceeds t u) : Proceeds s u :=
  ⟨h.toGrows.trans h'.toGrows, h'.scopes.trans h.scopes⟩

/-- The closures from `n` on are made over active variables whose blocks are marked as captured. -/
def Func.MarksFrom (n : Nat) (f : Func) : Prop :=
  ∀ (q : Nat) (i : Instr), n ≤ q → f.code[q]? = some i → i.op? = some .closure →
    i.bx < f.protos.size ∧ ∀ r, f.Captures q r → (r : Int) < f.active ∧ CapturedAt r f.scopes

/-- What code for an expression keeps besides: it adds code after the code that was there, and
neither declares variables nor jumps to labels. -/
structure Evolves (s t : GenState) : Prop extends Proceeds s t where
  kept : Kept s.fn.code.size s.fn.code t.fn.code
  aims : AimsFrom s.fn.code.size t.fn.code
  marks : ∀ r, CapturedAt r s.fn.scopes → CapturedAt r t.fn.scopes
  closures : t.fn.MarksFrom s.fn.code.size
  constants : ∀ (k : Nat) (c : Constant), s.fn.constants[k]? = some c → t.fn.constants[k]? = some c
  active : t.fn.active = s.fn.active
  declared : t.fn.declared = s.fn.declared
  locals : t.fn.locals = s.fn.locals
  labels : t.fn.labels = s.fn.labels
  gotos : t.fn.gotos = s.fn.gotos

theorem Func.MarksFrom.of_size_le (h : f.code.size ≤ n) : f.MarksFrom n := by
  intro q i hq hi
  have := lt_size_of_some hi
  omega

theorem Func.Captures.of_kept {q r : Nat} (h : g.Captures q r)
    (hk : Kept f.code.size f.code g.code) (hq : q < f.code.size)
    (hp : ∀ (k : Nat) (p : Proto), f.protos[k]? = some p → g.protos[k]? = some p)
    (hbx : ∀ i, f.code[q]? = some i → i.op? = some .closure → i.bx < f.protos.size) : f.Captures q r := by
  obtain ⟨i, p, u, hi, hop, hproto, hu⟩ := h
  have hget : f.code[q]? = some i := by
    rcases hk q _ hq (Array.getElem?_eq_getElem hq) with hi' | ⟨-, -, i', hi', hop'⟩
    · rw [Array.getElem?_eq_getElem hq, ← hi', hi]
    · cases hi.symm.trans hi'
      simp [hop] at hop'
  have hlt := hbx i hget hop
  have hsame := hp _ _ (Array.getElem?_eq_getElem hlt)
  exact ⟨i, p, u, hget, hop, by rw [Array.getElem?_eq_getElem hlt, ← hsame, hproto], hu⟩

theorem Func.MarksFrom.trans (h : s.fn.MarksFrom n)
    (h' : t.fn.MarksFrom s.fn.code.size) (hev : Evolves s t) : t.fn.MarksFrom n := by
  intro q i hn hi hop
  rcases lt_or_ge q s.fn.code.size with hq | hq
  · have hold : s.fn.code[q]? = some i := by
      rcases hev.kept q _ hq (Array.getElem?_eq_getElem hq) with hi' | ⟨-, -, i', hi', hop'⟩
      · rw [Array.getElem?_eq_getElem hq, ← hi', hi]
      · cases hi.symm.trans hi'
        simp [hop] at hop'
    obtain ⟨hbx, hr⟩ := h q i hn hold hop
    have hle := hev.bounds.protos
    simp only [Func.bounds] at hle
    refine ⟨by omega, fun r hc => ?_⟩
    obtain ⟨hactive, hmark⟩ := hr r (hc.of_kept hev.kept hq hev.protos fun j hj _ => by
      rwa [Option.some.inj (hj.symm.trans hold)])
    exact ⟨hev.active ▸ hactive, hev.marks r hmark⟩
  · exact h' q i hq hi hop

theorem Evolves.refl (s : GenState) : Evolves s s :=
  ⟨.refl s, Kept.refl _ _, .of_size_le le_rfl, fun _ h => h, .of_size_le le_rfl, fun _ _ h => h, rfl,
    rfl, rfl, rfl, rfl⟩

theorem Evolves.trans (h : Evolves s t) (h' : Evolves t u) : Evolves s u where
  toProceeds := h.toProceeds.trans h'.toProceeds
  kept := h.kept.trans h'.kept h.size
  aims := h.aims.trans h'.aims h'.kept h.size rfl
  marks r hr := h'.marks r (h.marks r hr)
  closures := h.closures.trans h'.closures h'
  constants k c hc := h'.constants k c (h.constants k c hc)
  active := h'.active.trans h.active
  declared := h'.declared.trans h.declared
  locals := h'.locals.trans h.locals
  labels := h'.labels.trans h.labels
  gotos := h'.gotos.trans h.gotos

/-! ## Scopes -/

theorem ScopesOk.top_nonneg {g : Nat} (h : ScopesOk labels top n g cs) : 0 ≤ top := by
  induction cs generalizing top n g with
  | nil => exact h.1.ge
  | cons c rest ih => exact (ih h.2.2.2.2).trans h.1

theorem LoopsOk.congr {vars vars' : Nat → Option LocalVar}
    {k : Nat} (h : LoopsOk vars top cs) (hs : ScopesOk labels top n k cs)
    (hname : ∀ (r : Nat) (v : LocalVar), (r : Int) < top → vars' r = some v →
      ∃ v0, vars r = some v0 ∧ v0.name = v.name) : LoopsOk vars' top cs := by
  induction cs generalizing top n k with
  | nil => trivial
  | cons c rest ih =>
    have hle := hs.1
    refine ⟨fun hloop => ⟨(h.1 hloop).1, fun r v hr hr' hv => ?_⟩, ?_⟩
    · obtain ⟨v0, hv0, heq⟩ := hname r v hr' hv
      exact heq ▸ (h.1 hloop).2 r v0 hr hr' hv0
    · exact ih h.2 hs.2.2.2.2 fun r v hr => hname r v (by omega)

theorem ScopesOk.raise {top' : Int} {g : Nat} {c : Scope} (h : ScopesOk labels top n g (c :: cs)) (hle : top ≤ top') :
    ScopesOk labels top' n g (c :: cs) :=
  ⟨h.1.trans hle, fun hc => (h.2.1 hc).trans_le hle, h.2.2.1,
    fun k l hk hl => (h.2.2.2.1 k l hk hl).trans hle, h.2.2.2.2⟩

end RegisterCompiler
