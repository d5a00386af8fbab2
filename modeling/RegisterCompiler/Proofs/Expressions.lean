import RegisterCompiler.Generator.Tree
import RegisterCompiler.Proofs.Functions

/-!
# Code for expressions, side by side

Two runs of the generator, for trees of one shape, are compared step by step, as `Gen.Tracks` has it. The
lemmas here take one construct each: if the runs for its parts track each other, those for the whole do.

* `Runs` : what the two runs have of their own;
* `TracksExpr`, `TracksRest`, `TracksExprs` and their kin : the runs for an expression, for what follows
  one, and so on, and what the code leaves.
-/

namespace RegisterCompiler

open Gen

/-! ## Marks -/

section Marks
variable {β : Type} {stop : Failure → Prop} {s s0 : GenState} {H : Set Nat} {e : Operand} {ts fs : List Nat}

theorem tracks_mark {m : Mark} {f f' : Unit → Gen β} {Q : β → GenState → Prop}
    (h : ∀ n, m = .line n → Tracks stop (f ()) (f' ()) (s.onLine n) Q) :
    Tracks stop (mark m >>= f) (mark m >>= f') s Q := by
  cases m with
  | line n => exact .step (ensures_onLine.2 (h n rfl))
  | stop g => exact .step trivial

theorem Gen.Ensures.tracks_of_eq {m m1 m2 : Gen β} {Q : β → GenState → Prop} (h : m.Ensures s Q)
    (h1 : m1 s = m s) (h2 : m2 s = m s) : Tracks stop m1 m2 s Q := by
  have : Tracks stop m m s Q := h.tracks
  unfold Tracks at this ⊢
  rwa [h1, h2]

theorem Yields.onLine (h : Yields s0 H e s ts fs) (n : Int) : Yields s0 H e (s.onLine n) ts fs :=
  { h with evolves := h.evolves.trans (.onLine s n), ok := h.ok.onLine n }

theorem Yields.of_onLine {n : Int} (h : Yields (s0.onLine n) H e s ts fs) (h0 : s0.Ok H) : Yields s0 H e s ts fs :=
  { h with start := h0, evolves := (Evolves.onLine s0 n).trans h.evolves }

theorem LastOf.onLine {count : Int} (h : LastOf s0 H count e s) (n : Int) : LastOf s0 H count e (s.onLine n) := by
  obtain ⟨hc, s1, ts, fs, hev, hfree, hy⟩ := h
  exact ⟨hc, s1, ts, fs, hev, hfree, hy.onLine n⟩

theorem LastOf.of_onLine {count n : Int} (h : LastOf (s0.onLine n) H count e s) : LastOf s0 H count e s := by
  obtain ⟨hc, s1, ts, fs, hev, hfree, hy⟩ := h
  exact ⟨hc, s1, ts, fs, (Evolves.onLine s0 n).trans hev, hfree, hy⟩

end Marks

/-! ## What the runs do -/

/-- Two runs. Each finds names in its own way, but what it finds is what the compiler finds. Where a loop
goes over more than three values the first run breaks off; the second may stop with the fault there. -/
structure Runs where
  stop : Failure → Prop
  fault : SyntaxFault
  stops : ∀ source, stop (.error ⟨source, fault.line, fault.cause, fault.near⟩)
  named : Bytes → Gen Operand
  named' : Bytes → Gen Operand
  finds : ∀ (name : Bytes) (s : GenState) (H : Set Nat), s.Ok H → ¬ IsHidden name →
    named name s = namedVariable name s
  finds' : ∀ (name : Bytes) (s : GenState) (H : Set Nat), s.Ok H → ¬ IsHidden name →
    named' name s = namedVariable name s

/-- Both runs find names as the compiler does, and the second may fail in any way. -/
def Runs.compiler : Runs where
  stop _ := True
  fault := ⟨.syntaxError, 0, []⟩
  stops _ := trivial
  named := namedVariable
  named' := namedVariable
  finds _ _ _ _ _ := rfl
  finds' _ _ _ _ _ := rfl

section Specs
variable (w : Runs)

def TracksValue (m m' : Gen Operand) (s0 s : GenState) (H : Set Nat) (P : Operand → Prop) : Prop :=
  Tracks w.stop m m' s fun e t => (∃ ts fs, Yields s0 H e t ts fs) ∧ P e

/-- The runs give the value of an expression, of which `P` holds. -/
def TracksExpr (x x' : Expr) (P : Operand → Prop) : Prop :=
  ∀ (s : GenState) (H : Set Nat), s.Ok H → s.fn.active ≤ s.fn.free →
    TracksValue w (expr w.named x) (expr w.named' x') s s H P

/-- The runs go on with the value of an expression, and `P` holds of the value they give then. -/
def TracksRest (m m' : Operand → Gen Operand) (P : Operand → Operand → Prop) : Prop :=
  ∀ (s0 s : GenState) (H : Set Nat) (e : Operand) (ts fs : List Nat), Yields s0 H e s ts fs →
    TracksValue w (m e) (m' e) s0 s H (P e)

def TracksSuffixes (r r' : Suffixes) (P : Operand → Operand → Prop) : Prop :=
  TracksRest w (suffixes w.named · r) (suffixes w.named' · r') P

def TracksOperations (o o' : Operations) : Prop :=
  TracksRest w (operations w.named · o) (operations w.named' · o') fun _ _ => True

/-- The runs give the last of `n` more values; all before it are in registers. -/
def TracksExprs (es es' : Exprs) (n : Nat) : Prop :=
  ∀ (s0 s : GenState) (H : Set Nat) (count : Int), Evolves s0 s → s.Ok H → s0.fn.active ≤ s0.fn.free →
    0 ≤ count → s.fn.free = s0.fn.free + count →
    Tracks w.stop (exprs w.named es count) (exprs w.named' es' count) s fun r t =>
      r.2 = count + n ∧ LastOf s0 H r.2 r.1 t

def TracksArgs (as as' : Args) : Prop :=
  ∀ (s : GenState) (H : Set Nat), s.Ok H → s.fn.active ≤ s.fn.free →
    Tracks w.stop (args w.named as) (args w.named' as') s fun e t => ArgsOf s H e t

def TracksTable (x x' : Table) : Prop :=
  ∀ (s : GenState) (H : Set Nat), s.Ok H → s.fn.active ≤ s.fn.free →
    TracksValue w (table w.named x) (table w.named' x') s s H (·.isOpen = false)

def TracksFields (q q' : Fields) : Prop :=
  ∀ (s0 s : GenState) (H : Set Nat) (c : Constructor), FieldsOf s0 H c s →
    Tracks w.stop (fields w.named q c) (fields w.named' q' c) s fun c' t => FieldsOf s0 H c' t

def TracksBody (b b' : Body) : Prop :=
  ∀ (s : GenState) (H : Set Nat), s.Ok H → Tracks w.stop (body w.named b) (body w.named' b') s fun e t =>
    e = .plain .nonRelocatable s.fn.free ∧ t.Ok H ∧ Evolves s t ∧ t.fn.free = s.fn.free + 1 ∧
      0 < t.fn.code.size

end Specs

section Expr
variable {w : Runs} {s : GenState} {H : Set Nat} {P P' : Operand → Prop} {mk : Mark} {x x' : Expr}

theorem TracksExpr.mono (h : TracksExpr w x x' P) (hP : ∀ e, P e → P' e) : TracksExpr w x x' P' :=
  fun s H hok hbase => (h s H hok hbase).mono fun e _ he => ⟨he.1, hP e he.2⟩

theorem tracks_stopAt {α : Type} {stop : Failure → Prop} {f : SyntaxFault} {Q : α → GenState → Prop} :
    Tracks stop (stopAt f) (stopAt f) s Q :=
  Ensures.tracks (ensures_bind.2 (ensures_get.2 (ensures_throw.2 trivial)))

theorem tracks_literal {kind : Operand.Kind} (hok : s.Ok H) (hbase : s.fn.active ≤ s.fn.free)
    (hk : kind = .nil ∨ kind = .true ∨ kind = .false ∨ ∃ x, kind = .number x) (hP : P (.plain kind 0)) :
    TracksValue w (do mark mk; return .plain kind 0) (do mark mk; return .plain kind 0) s s H P := by
  refine tracks_mark fun n _ => ?_
  refine tracks_pure.2 ⟨⟨[], [], .of_plain hok hbase (hok.onLine n) (.onLine s n) ?_ ?_⟩, hP⟩
  · rcases hk with rfl | rfl | rfl | ⟨x, rfl⟩ <;> simp
  · rcases hk with rfl | rfl | rfl | ⟨x, rfl⟩ <;> exact ⟨trivial, rfl⟩

theorem tracks_string {v : Bytes} (hok : s.Ok H) (hbase : s.fn.active ≤ s.fn.free) :
    TracksValue w (do let e ← stringOperand v; mark mk; return e) (do let e ← stringOperand v; mark mk; return e) s s H
      (·.isOpen = false) := by
  refine .step ((stringOperand_spec hok).mono ?_)
  rintro e t ⟨hok', hev, ht, k, rfl, hk⟩
  refine tracks_mark fun n _ => ?_
  refine tracks_pure.2 ⟨⟨[], [], (Yields.of_plain hok hbase hok' hev (by simp) ?_).onLine n⟩, rfl⟩
  have hfree : t.fn.free = s.fn.free := by rw [ht]; rfl
  exact ⟨⟨Int.natCast_nonneg k, Int.ofNat_lt.2 hk⟩, hfree⟩

theorem TracksExpr.vararg : TracksExpr w (.vararg mk) (.vararg mk) fun _ => True := by
  intro s H hok hbase
  have hstack := hok.fn.stack
  refine .step ((emitABC_ok hok rfl (.inl (by decide)) (.inr rfl) (by decide) (by decide) (by decide)
    fun i hi => ⟨?_, Instr.next?_eq_none hi.op (by decide)⟩).mono ?_)
  · have ha := hi.a
    have hb := hi.b
    simp only [Instr.Fits, hi.op, Func.bounds]
    omega
  · rintro k t ⟨rfl, i, hi, rfl, hok', hev⟩
    refine tracks_mark fun n _ => ?_
    refine tracks_pure.2 ⟨⟨[], [], (Yields.of_plain hok hbase hok' hev (by simp) ?_).onLine n⟩, trivial⟩
    refine ⟨s.fn.code.size, i, rfl, le_rfl, by simp [GenState.push], by simp [GenState.push], hi.op, ?_,
      hok.fn.target.2, rfl⟩
    have := hi.a
    omega

theorem Yields.of_next {t : GenState} (h0 : s.Ok H) (hbase : s.fn.active ≤ s.fn.free)
    (hok : t.Ok H) (hev : Evolves s t) (hfree : t.fn.free = s.fn.free + 1) :
    Yields s H (.plain .nonRelocatable s.fn.free) t [] [] :=
  .of_plain h0 hbase hok hev (by simp) (.inr ⟨rfl, hfree⟩)

theorem TracksExpr.function {b b' : Body} (h : TracksBody w b b') :
    TracksExpr w (.function mk b) (.function mk b') fun _ => True := by
  intro s H hok hbase
  refine tracks_mark fun n _ => ?_
  refine (h _ H (hok.onLine n)).mono ?_
  rintro e t ⟨rfl, hok', hev, hfree, -⟩
  exact ⟨⟨[], [], .of_next hok hbase hok' ((Evolves.onLine s n).trans hev) hfree⟩, trivial⟩

theorem TracksExpr.name {name : Bytes} (hname : ∀ n, mk = .line n → ¬ IsHidden name) :
    TracksExpr w (.name mk name) (.name mk name) (·.isVariable) := by
  intro s H hok hbase
  refine tracks_mark fun n hn => ?_
  have hok' := hok.onLine n
  refine ((namedVariable_spec hok' hbase (hname n hn)).mono ?_).tracks_of_eq
    (w.finds _ _ H hok' (hname n hn)) (w.finds' _ _ H hok' (hname n hn))
  rintro e t ⟨hy, hv⟩
  exact ⟨⟨[], [], hy.of_onLine hok⟩, hv⟩

section
variable (h : TracksExpr w x x' P)
include h

theorem TracksExpr.paren {opening closing : Mark} :
    TracksExpr w (.paren opening x closing) (.paren opening x' closing) fun _ => True := by
  intro s H hok hbase
  refine tracks_mark fun n _ => ?_
  refine (h _ H (hok.onLine n) hbase).bind ?_
  rintro e t ⟨⟨ts, fs, hy⟩, -⟩
  refine tracks_mark fun n' _ => ?_
  refine ((discharge_spec (hy.onLine n')).mono ?_).tracks
  rintro e' u ⟨hy', -, -⟩
  exact ⟨⟨ts, fs, hy'.of_onLine hok⟩, trivial⟩

theorem TracksExpr.rest {r r' : Operand → Gen Operand} {R : Operand → Operand → Prop}
    (hr : TracksRest w r r' R) (hP : ∀ e e', P e → R e e' → P' e') (hok : s.Ok H) (hbase : s.fn.active ≤ s.fn.free) :
    TracksValue w (do r (← expr w.named x)) (do r' (← expr w.named' x')) s s H P' := by
  refine (h s H hok hbase).bind ?_
  rintro e t ⟨⟨ts, fs, hy⟩, hp⟩
  refine (hr s t H e ts fs hy).mono ?_
  rintro e' u ⟨hy', hR⟩
  exact ⟨hy', hP e e' hp hR⟩

theorem TracksExpr.suffixed {r r' : Suffixes} {R : Operand → Operand → Prop}
    (hr : TracksSuffixes w r r' R) (hP : ∀ e e', R e e' → P' e') :
    TracksExpr w (.suffixed x r) (.suffixed x' r') P' := by
  intro s H hok hbase
  exact h.rest hr (fun e e' _ => hP e e') hok hbase

theorem TracksExpr.binary {o o' : Operations} (ho : TracksOperations w o o') :
    TracksExpr w (.binary x o) (.binary x' o') fun _ => True := by
  intro s H hok hbase
  exact h.rest ho (fun _ _ _ _ => trivial) hok hbase

theorem TracksExpr.unary {op : UnaryOp} {line : Nat} :
    TracksExpr w (.unary op line mk x) (.unary op line mk x') fun _ => True := by
  intro s H hok hbase
  refine tracks_mark fun n _ => ?_
  refine (h _ H (hok.onLine n) hbase).bind ?_
  rintro e t ⟨⟨ts, fs, hy⟩, -⟩
  refine ((unary_spec hy).mono ?_).tracks
  rintro e' u ⟨ts', fs', hy'⟩
  exact ⟨⟨ts', fs', hy'.of_onLine hok⟩, trivial⟩

end

end Expr

/-! ## What follows an expression -/

section Rest
variable {w : Runs} {s s0 t : GenState} {H : Set Nat} {e : Operand} {ts fs : List Nat} {r r' : Suffixes}
  {R : Operand → Operand → Prop} {P : Operand → Prop} {x x' : Expr} {as as' : Args} {mk : Mark} {name : Bytes}
  {line : Nat}

theorem Gen.ensures_mark {Q : Unit → GenState → Prop}
    (h : ∀ n, mk = .line n → Q () (s.onLine n)) : (mark mk).Ensures s Q := by
  cases mk with
  | line n => exact ensures_onLine.2 (h n rfl)
  | stop f => exact ensures_bind.2 (ensures_get.2 (ensures_throw.2 trivial))

theorem Operand.Placed.withConstants {n0 : Nat} {r : Int} {cs : Array Constant}
    {places : Std.HashMap Constant.Key Nat} (h : e.Placed n0 r s.fn)
    (hle : s.fn.constants.size ≤ cs.size) : e.Placed n0 r (s.withConstants cs places).fn := by
  have hkey : ∀ {r key : Int}, KeyPlaced s.fn r key → KeyPlaced (s.withConstants cs places).fn r key := by
    intro r key hk
    rcases hk with ⟨h1, h2, h3, h4⟩ | hk
    · refine .inl ⟨h1, h2, ?_, h4⟩
      show key - 256 < (cs.size : Int)
      omega
    · exact .inr hk
  unfold Operand.Placed at h ⊢
  cases hkind : e.kind with
  | void => simp [hkind] at h
  | constant =>
    simp only [hkind, Operand.Ready] at h ⊢
    refine ⟨⟨h.1.1, ?_⟩, h.2⟩
    show e.info < (cs.size : Int)
    omega
  | indexed inUpvalue key =>
    cases inUpvalue with
    | true =>
      simp only [hkind] at h ⊢
      exact ⟨h.1, h.2.1, hkey h.2.2⟩
    | false =>
      simp only [hkind] at h ⊢
      exact h.imp (fun h => ⟨h.1, h.2.1, hkey h.2.2⟩) fun h => ⟨h.1, hkey h.2⟩
  | _ =>
    simp only [hkind, Operand.Ready] at h ⊢
    exact h

theorem Yields.withConstants (h : Yields s0 H e s ts fs) (hok : t.Ok (Held H (ts ++ fs ++ e.ownJump)))
    (hev : Evolves s t) (ht : t = s.withConstants t.fn.constants t.fn.constantPlaces) : Yields s0 H e t ts fs :=
  { h.toCarries.evolve hev hok with
    base := h.base
    placed := ht ▸ h.placed.withConstants hev.bounds.constants
    plain := h.plain }

theorem TracksSuffixes.nil : TracksSuffixes w .nil .nil fun e e' => e' = e := by
  intro s0 s H e ts fs hy
  exact tracks_pure.2 ⟨⟨ts, fs, hy⟩, rfl⟩

theorem TracksOperations.nil : TracksOperations w .nil .nil := by
  intro s0 s H e ts fs hy
  exact tracks_pure.2 ⟨⟨ts, fs, hy⟩, trivial⟩

theorem Yields.of_string {k : Nat} (hok : s.Ok H) (hbase : s.fn.active ≤ s.fn.free) (hok' : t.Ok H)
    (hev : Evolves s t) (ht : t = s.withConstants t.fn.constants t.fn.constantPlaces)
    (hk : k < t.fn.constants.size) : Yields s H (.plain .constant k) t [] [] := by
  refine .of_plain hok hbase hok' hev (by simp) ⟨⟨Int.natCast_nonneg k, Int.ofNat_lt.2 hk⟩, ?_⟩
  rw [ht]
  rfl

theorem Yields.free_le (h : Yields s0 H e s ts fs) : s0.fn.free ≤ s.fn.free := by
  have hplaced := h.placed
  unfold Operand.Placed at hplaced
  cases hk : e.kind with
  | void => simp only [hk] at hplaced
  | indexed inUpvalue key =>
    cases inUpvalue <;> simp only [hk, Operand.KeyPlaced, Operand.InRegister] at hplaced <;> omega
  | call =>
    simp only [hk] at hplaced
    omega
  | vararg =>
    simp only [hk] at hplaced
    omega
  | _ =>
    simp only [hk, Operand.InRegister] at hplaced
    omega

theorem Gen.fieldOf_spec (h : Yields s0 H e s ts fs) :
    (fieldOf e mk name).Ensures s fun e' t => Yields s0 H e' t [] [] ∧ e'.isVariable := by
  refine .bind (toAnyRegisterOrUpvalue_spec h) ?_
  rintro _ t ⟨hy, kind, info, rfl, hkind⟩
  have hbase : t.fn.active ≤ t.fn.free := hy.active_le.trans hy.free_le
  refine .bind (ensures_mark (Q := fun _ u => ∃ n, u = t.onLine n) fun n _ => ⟨n, rfl⟩) ?_
  rintro - _ ⟨n, rfl⟩
  have hok : (t.onLine n).Ok H := (hy.onLine n).ok_plain (by rcases hkind with rfl | rfl <;> simp)
  refine .bind (stringOperand_spec hok) ?_
  rintro _ u ⟨hok', hev, hu, k, rfl, hk⟩
  refine (indexed_spec (hy.onLine n) rfl (hkind.imp_right .inr) (.of_string hok hbase hok' hev hu hk)).mono ?_
  rintro e' v ⟨hy', inUpvalue, rk, rfl⟩
  exact ⟨hy', rfl⟩

theorem TracksSuffixes.field (h : TracksSuffixes w r r' R) :
    TracksSuffixes w (.field mk name r) (.field mk name r') fun _ e' => ∃ e1 : Operand, e1.isVariable ∧ R e1 e' := by
  intro s0 s H e ts fs hy
  refine .step ((fieldOf_spec hy).mono ?_)
  rintro e1 t ⟨hy1, hv⟩
  refine (h s0 t H e1 [] [] hy1).mono ?_
  rintro e' u ⟨hy', hR⟩
  exact ⟨hy', e1, hv, hR⟩

theorem TracksSuffixes.index {opening closing : Mark} (hkey : TracksExpr w x x' P) (h : TracksSuffixes w r r' R) :
    TracksSuffixes w (.index opening x closing r) (.index opening x' closing r')
      fun _ e' => ∃ e1 : Operand, e1.isVariable ∧ R e1 e' := by
  intro s0 s H e ts fs hy
  refine .step ((toAnyRegisterOrUpvalue_spec hy).mono ?_)
  rintro _ t ⟨hyt, kind, info, rfl, hkind⟩
  have hbase : t.fn.active ≤ t.fn.free := hyt.active_le.trans hyt.free_le
  refine tracks_mark fun n _ => ?_
  have hok : (t.onLine n).Ok H := (hyt.onLine n).ok_plain (by rcases hkind with rfl | rfl <;> simp)
  refine (hkey _ H hok hbase).bind ?_
  rintro key u ⟨⟨ts', fs', hyk⟩, -⟩
  refine .step ((toValue_spec hyk).mono ?_)
  rintro key' v ⟨hyk', -, -⟩
  refine tracks_mark fun n' _ => ?_
  refine .step ((indexed_spec (hyt.onLine n) rfl (hkind.imp_right .inr) (hyk'.onLine n')).mono ?_)
  rintro e1 w ⟨hy1, inUpvalue, rk, rfl⟩
  refine (h s0 w H _ [] [] hy1).mono ?_
  rintro e' x ⟨hy', hR⟩
  exact ⟨hy', _, rfl, hR⟩

section
variable (hargs : TracksArgs w as as') (h : TracksSuffixes w r r' R)
include hargs h

theorem TracksSuffixes.call_next {s1 : GenState}
    (h0 : s0.Ok H) (hbase : s0.fn.active ≤ s0.fn.free) (hok : s1.Ok H) (hev : Evolves s0 s1)
    (hfree : s0.fn.free + 1 ≤ s1.fn.free) :
    TracksValue w (do suffixes w.named (← Gen.call (.plain .nonRelocatable s0.fn.free) (← args w.named as) line) r)
      (do suffixes w.named' (← Gen.call (.plain .nonRelocatable s0.fn.free) (← args w.named' as') line) r') s0 s1 H
      fun e' => ∃ e1 : Operand, e1.kind = .call ∧ R e1 e' := by
  have hactive := hev.active
  refine (hargs s1 H hok (by omega)).bind ?_
  intro a t ha
  refine .step ((call_spec h0 hbase hev hfree ha).mono ?_)
  rintro e1 u ⟨hy, hk⟩
  refine (h s0 u H e1 [] [] hy).mono ?_
  rintro e' v ⟨hy', hR⟩
  exact ⟨hy', e1, hk, hR⟩

theorem TracksSuffixes.call :
    TracksSuffixes w (.call line as r) (.call line as' r') fun _ e' => ∃ e1 : Operand, e1.kind = .call ∧ R e1 e' := by
  intro s0 s H e ts fs hy
  refine .step ((toNextRegister_spec hy).mono ?_)
  rintro _ t ⟨rfl, hok, hev, hfree⟩
  exact call_next hargs h hy.start hy.base hok hev hfree.ge

theorem TracksSuffixes.method : TracksSuffixes w (.method mk name line as r) (.method mk name line as' r')
      fun _ e' => ∃ e1 : Operand, e1.kind = .call ∧ R e1 e' := by
  intro s0 s H e ts fs hy
  refine tracks_mark fun n _ => ?_
  have hyn := hy.onLine n
  refine .step ((stringOperand_spec hyn.ok).mono ?_)
  rintro _ t ⟨hokt, hevt, ht, k, rfl, hk⟩
  refine .step ((method_spec (hyn.withConstants hokt hevt ht) hk).mono ?_)
  rintro _ u ⟨rfl, hok, hev, hfree⟩
  exact call_next hargs h hy.start hy.base hok hev (by omega)

end

theorem IsPrepared.ok {op : BinaryOp} {ps : List Nat} (h : IsPrepared op s0 H e s ps)
    (hbase : s0.fn.active ≤ s0.fn.free) : s.Ok (Held H ps) ∧ s.fn.active ≤ s.fn.free := by
  unfold IsPrepared at h
  split at h
  case h_1 | h_2 =>
    obtain ⟨-, hfree, hc⟩ := h
    have hactive := hc.evolves.active
    exact ⟨by simpa [Operand.asJumps, Operand.ownJump] using hc.ok, by omega⟩
  · obtain ⟨rfl, -, hfree, hok, hev⟩ := h
    have hactive := hev.active
    exact ⟨by simpa using hok, by omega⟩
  · obtain ⟨rfl, hleft, hok, hev⟩ := h
    have hactive := hev.active
    refine ⟨by simpa using hok, ?_⟩
    rcases hleft with ⟨-, -, -, hfree⟩ | ⟨rk, hnamed⟩
    · omega
    · rcases hnamed.cases with ⟨hfree, -⟩ | ⟨hfree, -⟩ <;> omega
  · obtain ⟨rfl, ⟨rk, hnamed⟩, hok, hev⟩ := h
    have hactive := hev.active
    refine ⟨by simpa using hok, ?_⟩
    rcases hnamed.cases with ⟨hfree, -⟩ | ⟨hfree, -⟩ <;> omega

theorem TracksOperations.cons {op : BinaryOp} {o o' : Operations} (hright : TracksExpr w x x' P)
    (h : TracksOperations w o o') : TracksOperations w (.cons op line mk x o) (.cons op line mk x' o') := by
  intro s0 s H e ts fs hy
  refine tracks_mark fun n _ => ?_
  refine .step ((prepareLeft_spec (hy.onLine n)).mono ?_)
  rintro e1 t ⟨ps, hprep⟩
  obtain ⟨hok, hle⟩ := hprep.ok hy.base
  refine (hright t _ hok hle).bind ?_
  rintro e2 u ⟨⟨ts', fs', hy2⟩, -⟩
  refine .step ((binary_spec hy.start hy.base hprep hy2).mono ?_)
  rintro e3 v ⟨ts'', fs'', hy3⟩
  refine (h s0 v H e3 ts'' fs'' hy3).mono ?_
  rintro e' w ⟨hy', -⟩
  exact ⟨hy', trivial⟩

end Rest

/-! ## Lists, arguments and tables -/

section Lists
variable {w : Runs} {s s0 t : GenState} {H : Set Nat} {P : Operand → Prop} {x x' : Expr} {es es' : Exprs} {n : Nat}

theorem TracksExprs.one (h : TracksExpr w x x' P) : TracksExprs w (.one x) (.one x') 1 := by
  intro s0 s H count hev hok hbase hcount hfree
  have hactive := hev.active
  refine (h s H hok (by omega)).bind ?_
  rintro e t ⟨⟨ts, fs, hy⟩, -⟩
  refine tracks_pure.2 ⟨rfl, by omega, s, ts, fs, hev, by omega, hy⟩

theorem TracksExprs.more {comma : Mark} (h : TracksExpr w x x' P) (hr : TracksExprs w es es' n) :
    TracksExprs w (.more x comma es) (.more x' comma es') (n + 1) := by
  intro s0 s H count hev hok hbase hcount hfree
  have hactive := hev.active
  refine (h s H hok (by omega)).bind ?_
  rintro e t ⟨⟨ts, fs, hy⟩, -⟩
  refine tracks_mark fun k _ => ?_
  refine .step ((toNextRegister_spec (hy.onLine k)).mono ?_)
  rintro - u ⟨-, hok', hev', hfree'⟩
  refine (hr s0 u H (count + 1) (hev.trans hev') hok' hbase (by omega) (by omega)).mono ?_
  rintro x v ⟨hcount', hlast⟩
  refine ⟨?_, hlast⟩
  omega

theorem TracksArgs.none {opening closing : Mark} : TracksArgs w (.none opening closing) (.none opening closing) := by
  intro s H hok hbase
  refine tracks_mark fun k _ => tracks_mark fun k' _ => tracks_pure.2 (.inl ⟨.inl rfl, ?_⟩)
  exact ⟨(hok.onLine k).onLine k', (Evolves.onLine s k).trans (.onLine _ k'), le_rfl⟩

theorem giveAll_eq_pure {e : Operand} (h : e.isOpen = false) : giveAll e = pure () := by
  unfold giveAll giveResults
  unfold Operand.isOpen at h
  split <;> simp_all

theorem TracksArgs.list {opening closing : Mark} (h : TracksExprs w es es' n) :
    TracksArgs w (.list opening es closing) (.list opening es' closing) := by
  intro s H hok hbase
  refine tracks_mark fun k _ => ?_
  refine (h _ _ H 0 (.refl _) (hok.onLine k) hbase le_rfl (by simp)).bind ?_
  rintro ⟨e, count⟩ t ⟨-, hlast⟩
  obtain ⟨hcount, s1, ts, fs, hev, hfree, hy⟩ := hlast.of_onLine
  by_cases ho : e.isOpen
  · refine .step ((giveAll_spec hy ho).mono ?_)
    rintro - u ⟨hok', hev', hfree'⟩
    refine tracks_mark fun k' _ => tracks_pure.2 (.inl ⟨.inr ho, hok'.onLine k', ?_, ?_⟩)
    · exact (hev.trans hev').trans (.onLine u k')
    · show s.fn.free ≤ u.fn.free
      omega
  · simp only [giveAll_eq_pure (Bool.not_eq_true _ ▸ ho), pure_bind]
    refine tracks_mark fun k' _ => tracks_pure.2 (.inr ⟨by simpa using ho, ?_⟩)
    exact ⟨s1, ts, fs, hev, by omega, hy.onLine k'⟩

theorem TracksValue.argsOf {m m' : Gen Operand} (h : TracksValue w m m' s s H (·.isOpen = false)) :
    Tracks w.stop m m' s fun e t => ArgsOf s H e t := by
  refine h.mono ?_
  rintro e t ⟨⟨ts, fs, hy⟩, ho⟩
  exact .inr ⟨ho, s, ts, fs, .refl s, le_rfl, hy⟩

theorem TracksFields.nil : TracksFields w .nil .nil := by
  intro s0 s H c hc
  exact tracks_pure.2 hc

theorem FieldsOf.onLine {c : Constructor} (h : FieldsOf s0 H c s) (k : Int) : FieldsOf s0 H c (s.onLine k) :=
  { h with
    rest := h.rest.imp (fun h => ⟨h.1, h.2.1, h.2.2.1.onLine k, h.2.2.2.1.trans (.onLine s k), h.2.2.2.2⟩)
      fun h => h.onLine k }

theorem FieldsOf.active_le {c : Constructor} (h : FieldsOf s0 H c s) (hv : c.last.kind = .void) :
    s.fn.active ≤ s.fn.free := by
  obtain ⟨-, -, hev, hfree⟩ := h.settled hv
  have := hev.active
  have := h.base
  have := h.reg
  have := h.room
  omega

section Fields
variable {q q' : Fields} {separator : Mark}

theorem TracksFields.item (h : TracksExpr w x x' P) (hq : TracksFields w q q') :
    TracksFields w (.item x separator q) (.item x' separator q') := by
  intro s0 s H c hc
  refine .step ((closeItem_spec hc).mono ?_)
  rintro c1 t ⟨hc1, hv⟩
  obtain ⟨-, hok, -⟩ := hc1.settled hv
  refine (h t H hok (hc1.active_le hv)).bind ?_
  rintro e u ⟨⟨ts, fs, hy⟩, -⟩
  refine tracks_mark fun k _ => ?_
  exact hq s0 _ H _ (hc1.item hv (hy.onLine k))

theorem Gen.toRK_key {e : Operand} {ts fs : List Nat} (h : Yields s0 H e s ts fs) :
    (toRK e).Ensures s fun r t => t.Ok H ∧ Evolves s0 t ∧ t.fn.bounds.HasRK r.2 ∧ t.fn.active ≤ t.fn.free := by
  refine (toRK_spec h).mono ?_
  rintro ⟨e', rk⟩ t ⟨hok, hev, hnamed⟩
  have hbase := h.base
  have hactive := hev.active
  refine ⟨hok, hev, KeyPlaced.hasRK hnamed.keyPlaced hok (by omega) h.start.fn.free.1, ?_⟩
  rcases hnamed.cases with ⟨hfree, -⟩ | ⟨hfree, -⟩ <;> omega

theorem TracksFields.store {c : Constructor} {s1 : GenState} {key : Operand} {ts fs : List Nat}
    (h : TracksExpr w x x' P) (hq : TracksFields w q q') (hc : FieldsOf s0 H c s1) (hv : c.last.kind = .void)
    (hkey : Yields s1 H key s ts fs) :
    Tracks w.stop
      (do
        let (_, rk) ← toRK key
        let c ← storeField c s1.fn.free rk (← expr w.named x)
        mark separator
        fields w.named q c)
      (do
        let (_, rk) ← toRK key
        let c ← storeField c s1.fn.free rk (← expr w.named' x')
        mark separator
        fields w.named' q' c) s fun c' t => FieldsOf s0 H c' t := by
  refine .step ((toRK_key hkey).mono ?_)
  rintro ⟨e, rk⟩ s2 ⟨hok, hev, hrk, hbase⟩
  refine (h s2 H hok hbase).bind ?_
  rintro e u ⟨⟨ts, fs, hy⟩, -⟩
  refine .step ((storeField_spec hc hv hev hrk hy).mono ?_)
  rintro c' v ⟨hc', -⟩
  refine tracks_mark fun k _ => ?_
  exact hq s0 _ H c' (hc'.onLine k)

theorem TracksFields.named {mk assign : Mark} {name : Bytes} (h : TracksExpr w x x' P) (hq : TracksFields w q q') :
    TracksFields w (.named mk name assign x separator q) (.named mk name assign x' separator q') := by
  intro s0 s H c hc
  refine .step ((closeItem_spec hc).mono ?_)
  rintro c1 s1 ⟨hc1, hv⟩
  obtain ⟨-, hok, -⟩ := hc1.settled hv
  have hbase := hc1.active_le hv
  refine .step (ensures_firstFree.2 ?_)
  refine tracks_mark fun k _ => ?_
  refine .step ((stringOperand_spec (hok.onLine k)).mono ?_)
  rintro _ t ⟨hok', hev', ht, x, rfl, hx⟩
  refine tracks_mark fun k' _ => ?_
  have hkey := (Yields.of_string (hok.onLine k) hbase hok' hev' ht hx).onLine k'
  exact TracksFields.store h hq hc1 hv (hkey.of_onLine hok)

theorem TracksFields.keyed {opening assign : Mark} {key key' : Expr} {P' : Operand → Prop}
    (hkey : TracksExpr w key key' P') (h : TracksExpr w x x' P) (hq : TracksFields w q q') :
    TracksFields w (.keyed opening key assign x separator q) (.keyed opening key' assign x' separator q') := by
  intro s0 s H c hc
  refine .step ((closeItem_spec hc).mono ?_)
  rintro c1 s1 ⟨hc1, hv⟩
  obtain ⟨-, hok, -⟩ := hc1.settled hv
  have hbase := hc1.active_le hv
  refine .step (ensures_firstFree.2 ?_)
  refine tracks_mark fun k _ => ?_
  refine (hkey _ H (hok.onLine k) hbase).bind ?_
  rintro e t ⟨⟨ts, fs, hy⟩, -⟩
  refine .step ((toValue_spec hy).mono ?_)
  rintro e' u ⟨hy', -, -⟩
  refine tracks_mark fun k' _ => ?_
  exact TracksFields.store h hq hc1 hv ((hy'.onLine k').of_onLine hok)

theorem TracksTable.mk {opening closing : Mark} (hq : TracksFields w q q') :
    TracksTable w (.mk opening q closing) (.mk opening q' closing) := by
  intro s H hok hbase
  refine .step ((newTable_spec hok hbase).mono ?_)
  rintro _ s1 ⟨p, i, rfl, hp, hy, hi, hop⟩
  refine .step (((toNextRegister_spec hy).and (toNextRegister_op (hy.ok_plain (by simp)) (hy.ready rfl) hi)).mono ?_)
  rintro _ s2 ⟨⟨rfl, hok2, hev2, hfree2⟩, i2, hi2, hop2, -⟩
  refine tracks_mark fun k _ => ?_
  have hfields : FieldsOf (s2.onLine k) H { reg := (Operand.plain .nonRelocatable s.fn.free).info }
      (s2.onLine k) :=
    { start := hok2.onLine k
      base := by
        have := hev2.active
        show s2.fn.active ≤ s.fn.free
        omega
      reg := hfree2
      items := le_rfl
      room := show (0 : Int) ≤ 0 ∧ (0 : Int) ≤ fieldsPerFlush by decide
      rest := .inl ⟨rfl, show (0 : Int) < fieldsPerFlush by decide, hok2.onLine k, .refl _, by simp⟩ }
  refine (hq _ _ H _ hfields).bind ?_
  intro c s3 hc
  refine tracks_mark fun k' _ => ?_
  refine .step ((closeItems_spec (hc.onLine k')).mono ?_)
  rintro c' s4 ⟨hok4, hev4, hfree4⟩
  have hlt : p < s2.fn.code.size := lt_size_of_some hi2
  have hi4 : s4.fn.code[p]? = some i2 := hev4.kept.get hlt hi2 (by simp [hop2, hop])
  have hev := (hev2.trans (.onLine s2 k)).trans hev4
  refine .step ((sizeTable_spec hok4 hev rfl hp.ge hi4 (hop2.trans hop)).mono ?_)
  rintro - s5 ⟨hok5, hev5, hfree5⟩
  refine tracks_pure.2 ⟨⟨[], [], .of_next hok hbase hok5 hev5 ?_⟩, rfl⟩
  rw [hfree5, hfree4]
  exact hfree2

end Fields

end Lists

end RegisterCompiler
