import RegisterCompiler.Generator.Operation
import RegisterCompiler.Proofs.Variables

/-!
# Operators

* `NamedPair` : two named values, the registers of which are released one after the other;
* `arith₁_spec`, `arith₂_spec`, `compare_spec`, `concatenate_spec`, `negate_spec` : the kinds of
  operators;
* `unary_spec`, `prepareLeft_spec`, `binary_spec` : what operators leave in use and which jumps they
  leave open.
-/

namespace RegisterCompiler

open Gen
open Operand (InRegister KeyPlaced)

variable {s0 s s1 t : GenState} {H : Set Nat} {e e' e1 e2 : Operand} {ts fs ps : List Nat}
  {r rk rk1 rk2 line : Int} {op : Opcode} {f : Func} {i : Instr} {code : Array Instr}

/-! ## Two values -/

/-- Two named values, one above the other: the registers from `r` on that are in use are theirs. -/
def NamedPair (f : Func) (r : Int) (e1 : Operand) (rk1 : Int) (e2 : Operand) (rk2 : Int) : Prop :=
  ∃ r', (e1.NamedBy { f with free := r' } r rk1 ∧ e2.NamedBy f r' rk2) ∨
    (e2.NamedBy { f with free := r' } r rk2 ∧ e1.NamedBy f r' rk1)

theorem Operand.NamedBy.mono {g : Func} (h : e.NamedBy f r rk) (ha : g.active = f.active)
    (hc : f.constants.size ≤ g.constants.size) : e.NamedBy { g with free := f.free } r rk := by
  rcases h with ⟨k, he, hk, hlt, hrk, hf⟩ | ⟨he, h⟩
  · exact .inl ⟨k, he, hk, hlt.trans_le hc, hrk, hf⟩
  · refine .inr ⟨he, ?_⟩
    rw [ha]
    exact h

/-- A named value either is the last one in use, in a register of its own, or has none to release. -/
theorem Operand.NamedBy.cases (h : e.NamedBy f r rk) :
    (f.free = r ∧ ∀ (s : GenState) (Q : Unit → GenState → Prop), s.fn.active = f.active →
        ((releaseOperand e).Ensures s Q ↔ Q () s)) ∨ f.free = r + 1 ∧ rk = r ∧ e = .plain .nonRelocatable r := by
  rcases h with ⟨k, rfl, -, -, -, hf⟩ | ⟨rfl, ⟨h0, hlt, hf⟩ | ⟨rfl, hf⟩⟩
  · exact .inl ⟨hf, fun s Q _ => ensures_pure⟩
  · refine .inl ⟨hf, fun s Q ha => ?_⟩
    show (releaseRegister rk).Ensures s Q ↔ _
    rw [ensures_releaseRegister (fun _ _ => by omega), if_neg (by omega)]
  · exact .inr ⟨hf, rfl, rfl⟩

theorem Operand.NamedBy.eq_plain (h : e.NamedBy f r rk) : e = .plain e.kind e.info := by
  rcases h with ⟨k, rfl, -⟩ | ⟨rfl, -⟩ <;> rfl

theorem NamedPair.eq_plain (h : NamedPair f r e1 rk1 e2 rk2) : e1 = .plain e1.kind e1.info := by
  obtain ⟨r', ⟨h, -⟩ | ⟨-, h⟩⟩ := h <;> exact h.eq_plain

theorem NamedPair.hasRK (h : NamedPair t.fn r e1 rk1 e2 rk2) (hok : t.Ok H) (hactive : t.fn.active ≤ r) (hr : 0 ≤ r) :
    t.fn.bounds.HasRK rk1 ∧ t.fn.bounds.HasRK rk2 := by
  have hfree := hok.fn.free
  have hlow : ∀ {e e' : Operand} {rk rk' r' : Int}, e.NamedBy { t.fn with free := r' } r rk →
      e'.NamedBy t.fn r' rk' → t.fn.bounds.HasRK rk ∧ t.fn.bounds.HasRK rk' := by
    intro e e' rk rk' r' h h'
    have hr' : r ≤ r' ∧ r' ≤ t.fn.free := by
      constructor
      · rcases h.keyPlaced with h | h | h <;> simp only at h <;> omega
      · rcases h'.keyPlaced with h | h | h <;> omega
    have hkey := KeyPlaced.hasRK h'.keyPlaced hok (by omega) (by omega)
    refine ⟨?_, hkey⟩
    rcases h.keyPlaced with h | h | h <;> simp only at h <;>
      simp only [Bounds.HasRK, Func.bounds] <;> omega
  obtain ⟨r', ⟨h, h'⟩ | ⟨h, h'⟩⟩ := h
  · exact hlow h h'
  · exact (hlow h h').symm

/-- The value above is released before the one below, or in any order if not both have a register. -/
theorem Gen.ensures_releasePair {Q : Unit → GenState → Prop} {r' : Int}
    (h1 : e1.NamedBy { s.fn with free := r' } r rk1) (h2 : e2.NamedBy s.fn r' rk2)
    (hactive : s.fn.active ≤ r) (hr : 0 ≤ r) (hfree : s.fn.free ≤ 249) :
    ((do releaseOperand e2; releaseOperand e1 : Gen Unit).Ensures s Q ↔ Q () (s.withFree r)) ∧
      (rk2 ≤ rk1 →
        ((do releaseOperand e1; releaseOperand e2 : Gen Unit).Ensures s Q ↔ Q () (s.withFree r))) := by
  have hown : ∀ {u : GenState} {r : Int} {Q : Unit → GenState → Prop}, u.fn.free = r + 1 →
      u.fn.active ≤ r → 0 ≤ r → r < 249 →
      ((releaseOperand (.plain .nonRelocatable r)).Ensures u Q ↔ Q () (u.withFree r)) :=
    fun hf ha h0 hlt => ensures_release (.inr ⟨rfl, hf⟩) ha h0 (by omega)
  rcases h1.cases with ⟨hr', idle1⟩ | ⟨hr', rfl, rfl⟩ <;>
    rcases h2.cases with ⟨hf, idle2⟩ | ⟨hf, rfl, rfl⟩ <;> simp only at hr' <;> subst hr' <;>
    simp only [ensures_bind]
  · rw [← hf]
    exact ⟨(idle2 s _ rfl).trans (idle1 s _ rfl), fun _ => (idle1 s _ rfl).trans (idle2 s _ rfl)⟩
  · exact ⟨(hown hf hactive hr (by omega)).trans (idle1 _ _ rfl),
      fun _ => (idle1 _ _ rfl).trans (hown hf hactive hr (by omega))⟩
  · exact ⟨(idle2 _ _ rfl).trans (hown hf hactive hr (by omega)),
      fun _ => (hown hf hactive hr (by omega)).trans (idle2 _ _ rfl)⟩
  · rw [hown hf (by omega) (by omega) (by omega)]
    exact ⟨hown rfl hactive hr (by omega), fun hle => by omega⟩

theorem Gen.ensures_freeOperands {Q : Unit → GenState → Prop}
    (h : NamedPair s.fn r e1 rk1 e2 rk2) (hactive : s.fn.active ≤ r) (hr : 0 ≤ r) (hfree : s.fn.free ≤ 249) :
    (freeOperands e1 rk1 e2 rk2).Ensures s Q ↔ Q () (s.withFree r) := by
  unfold freeOperands
  obtain ⟨r', ⟨h1, h2⟩ | ⟨h2, h1⟩⟩ := h
  · obtain ⟨hup, hdown⟩ := ensures_releasePair (Q := Q) h1 h2 hactive hr hfree
    split
    · exact hdown (by omega)
    · exact hup
  · obtain ⟨hup, hdown⟩ := ensures_releasePair (Q := Q) h2 h1 hactive hr hfree
    split
    · exact hup
    · exact hdown (by omega)

/-! ## Arithmetic -/

section
variable (h0 : s0.Ok H) (hbase : s0.fn.active ≤ s0.fn.free) (hok : t.Ok H) (hev : Evolves s0 t) (hfree : t.fn.free = s0.fn.free)
include h0 hbase hok hev hfree

theorem Yields.of_push {n : Nat}
    (hsize : t.fn.code.size = n + 1) (hn : s0.fn.code.size ≤ n) (hi : t.fn.code[n]? = some i)
    (hrel : i.Relocates) (htarget : t.fn.lastTarget ≤ n) (hcat : i.op? = some .concat → (i.b : Int) = s0.fn.free) :
    Yields s0 H (.plain .relocatable n) t [] [] := by
  refine .of_plain h0 hbase hok hev (by simp) ⟨⟨n, i, rfl, hn, hsize, hi, hrel, htarget⟩, hfree, fun j hj hop => ?_⟩
  rw [Array.back?_eq_getElem?, hsize, Nat.add_sub_cancel, hi] at hj
  cases hj
  exact hcat hop

theorem Gen.operate_spec (hmode : op.info.mode = .abc)
    (hb0 : op.info.b ≠ .unused) (hc0 : op.info.c ≠ .unused ∨ rk2 = 0)
    (hrel : op.relocates ∧ op ≠ .vararg) (hb : 0 ≤ rk1 ∧ rk1 ≤ maxB) (hc : 0 ≤ rk2 ∧ rk2 ≤ maxC)
    (hfit : ∀ i : Instr, i.Encodes op 0 rk1 rk2 → i.Fits t.fn.bounds)
    (hcat : op = .concat → rk1 = s0.fn.free) {f : Int → Operand}
    (hf : ∀ k, f k = .plain .relocatable k) :
    (do
      let at_ ← emitABC op 0 rk1 rk2
      moveLastToLine line
      return f at_ : Gen Operand).Ensures t fun e' u => Yields s0 H e' u [] [] ∧
        e' = .plain .relocatable t.fn.code.size ∧
        u = (t.push (.abc op.code 0 rk1 rk2)).withLastLine line := by
  have hnext : ∀ i : Instr, i.Encodes op 0 rk1 rk2 → i.next? = none := fun i hi =>
    Instr.next?_eq_none hi.op (by
      have := hrel.1
      cases op <;> simp [Opcode.relocates] at this ⊢)
  have henc := encodes_abc op (show 0 ≤ 0 ∧ 0 ≤ maxA by decide) hb hc
  have hjump := not_isJump_of_mode henc.op (.inl hmode)
  rw [ensures_bind, ensures_emitABC hok.fn.isOpen hmode (.inl hb0) hc0 ⟨by decide, hb.2, hc.2⟩]
  have hok1 := hok.push (hfit _ henc) (hnext _ henc) hjump.1 hjump.2
  rw [ensures_bind, ensures_moveLastToLine (by rw [hok1.fn.lines]; simp [GenState.push])]
  refine ⟨?_, hf _, rfl⟩
  rw [hf]
  exact .of_push h0 hbase (hok1.withLastLine line)
    (hev.trans ((Evolves.push_abc t _ _ _ hok.fn.target.2 hmode).trans (.withLastLine ..))) hfree
    (by simp [GenState.withLastLine, GenState.push]) hev.size
    (by simp [GenState.withLastLine, GenState.push])
    ⟨op, henc.op, hrel.1, fun hv => absurd hv hrel.2⟩ hok.fn.target.2
    fun hop => henc.b.trans (hcat (Option.some.inj (henc.op.symm.trans hop)))

end

theorem Gen.toRK_named (h : e.NamedBy f r rk) : toRK e = pure (e, rk) := by
  rcases h with ⟨k, rfl, hk, -, rfl, -⟩ | ⟨rfl, -⟩
  · have hle : (k : Int) ≤ maxIndexRK := by simp only [maxIndexRK]; omega
    simp [toRK, toValue, Operand.plain, Operand.carriesJumps, discharge, hle,
      asConstantRK_eq (show 0 ≤ (k : Int) ∧ (k : Int) < 256 by omega)]
  · simp [toRK, toValue, Operand.plain, Operand.carriesJumps, discharge, registerRK, toAnyRegister]

theorem Gen.arith₁_spec (h0 : s0.Ok H) (hbase : s0.fn.active ≤ s0.fn.free) (hok : t.Ok H)
    (hev : Evolves s0 t) {reg : Int} (hreg : InRegister t.fn s0.fn.free reg) (hop : op = .unm ∨ op = .len) :
    (arith₁ op (.plain .nonRelocatable reg) line).Ensures t fun e' u => Yields s0 H e' u [] [] ∧
      e' = .plain .relocatable t.fn.code.size ∧
      u = ((t.withFree s0.fn.free).push (.abc op.code 0 reg 0)).withLastLine line := by
  have hr := h0.fn.free.1
  have hactive : t.fn.active ≤ s0.fn.free := hev.active ▸ hbase
  have hstack := hok.fn.stack
  have hfree := hok.fn.free
  have hroom : s0.fn.free ≤ t.fn.stack := h0.fn.free.2.trans hev.bounds.stack
  have hlt : 0 ≤ reg ∧ reg < t.fn.stack := by rcases hreg with hreg | hreg <;> omega
  unfold arith₁
  rw [toRK_named (.inr ⟨rfl, hreg⟩), pure_bind]
  have hrel : ∀ {Q : Unit → GenState → Prop},
      (freeOperands (.plain .nonRelocatable reg) reg (.number .zero) 0).Ensures t Q ↔
        Q () (t.withFree s0.fn.free) := by
    intro Q
    have hone : (releaseOperand (.plain .nonRelocatable reg)).Ensures t Q ↔
        Q () (t.withFree s0.fn.free) := ensures_release hreg hactive hr (by omega)
    unfold freeOperands
    split
    · rw [ensures_bind]
      exact hone
    · exact hone
  rw [ensures_bind, hrel]
  have hop' : op.info.mode = .abc ∧ op.info.b ≠ .unused ∧ op.relocates ∧ op ≠ .vararg ∧
      op ≠ .concat := by
    rcases hop with rfl | rfl <;> decide
  refine operate_spec h0 hbase (hok.withFree ⟨hr, hroom⟩) (hev.trans (.withFree ..)) rfl hop'.1
    hop'.2.1 (.inr rfl) ⟨hop'.2.2.1, hop'.2.2.2.1⟩ (by simp only [maxB]; omega) (by decide)
    (fun i hi => ?_) (fun hcat => absurd hcat hop'.2.2.2.2) fun _ => rfl
  have ha := hi.a
  have hb := hi.b
  rcases hop with rfl | rfl <;> simp only [Instr.Fits, hi.op, Func.bounds, GenState.withFree] <;> omega

/-- What becomes of a left operand before the right one is compiled: a numeral, or a named value. -/
def Operand.IsLeft (f : Func) (r : Int) (e : Operand) : Prop :=
  (∃ x info, e = .plain (.number x) info ∧ f.free = r) ∨ ∃ rk, e.NamedBy f r rk

theorem Gen.nameLeft_spec (hleft : e1.IsLeft s1.fn s0.fn.free) (hbase : s0.fn.active ≤ s0.fn.free)
    (hev0 : Evolves s0 s1) (hok : t.Ok H) (hev : Evolves s1 t) (hright : e2.NamedBy t.fn s1.fn.free rk2) :
    (toRK e1).Ensures t fun r u => u.Ok H ∧ Evolves t u ∧ NamedPair u.fn s0.fn.free r.1 r.2 e2 rk2 := by
  have hactive : t.fn.active = s0.fn.active := hev.active.trans hev0.active
  rcases hleft with ⟨x, info, rfl, hfree⟩ | ⟨rk, hnamed⟩
  · have hle : s1.fn.free ≤ t.fn.free := by
      rcases hright.keyPlaced with h | h | h <;> omega
    have hy : Yields t H (.plain (.number x) info) t [] [] :=
      .of_plain hok (by omega) hok (.refl t) (by simp) ⟨trivial, rfl⟩
    refine (toRK_spec hy).mono ?_
    rintro ⟨e, rk⟩ u ⟨hok', hev', hnamed⟩
    refine ⟨hok', hev', t.fn.free, .inr ⟨?_, hnamed⟩⟩
    rw [← hfree]
    exact hright.mono hev'.active hev'.bounds.constants
  · rw [toRK_named hnamed]
    exact ⟨hok, .refl t, s1.fn.free, .inl ⟨hnamed.mono hev.active hev.bounds.constants, hright⟩⟩

theorem numeral?_eq_some {x : Number} (h : e.numeral? = some x) : e = .plain (.number x) e.info := by
  obtain ⟨kind, info, whenTrue, whenFalse⟩ := e
  unfold Operand.numeral? at h
  split at h
  · split at h
    · rename_i hk hempty
      simp only at hk hempty
      cases h
      rw [hk, hempty.1, hempty.2]
      rfl
    · simp at h
  · simp at h

theorem foldNumbers_eq_some (h : foldNumbers op e1 e2 = some e') :
    ∃ f x y i j, op.arith? = some f ∧ e1 = .plain (.number x) i ∧ e2 = .plain (.number y) j ∧
      e' = .plain (.number (f x y)) i := by
  unfold foldNumbers at h
  simp only [Option.bind_eq_bind, Option.bind_eq_some_iff] at h
  obtain ⟨f, hf, x, hx, y, hy, h⟩ := h
  have h1 := numeral?_eq_some hx
  have h2 := numeral?_eq_some hy
  refine ⟨f, x, y, e1.info, e2.info, hf, h1, h2, ?_⟩
  split at h
  · simp at h
  · split at h
    · simp at h
    · rw [h1] at h
      exact (Option.some.inj h).symm

theorem Gen.arith₂_spec (h0 : s0.Ok H) (hbase : s0.fn.active ≤ s0.fn.free) (hev0 : Evolves s0 s1)
    (hleft : e1.IsLeft s1.fn s0.fn.free) (h : Yields s1 H e2 s ts fs)
    (hop : op ∈ [.add, .sub, .mul, .div, .mod, .pow]) :
    (arith₂ op e1 e2 line).Ensures s fun e' u => Yields s0 H e' u [] [] := by
  have hr := h0.fn.free.1
  unfold arith₂
  split
  · rename_i e' hfold
    obtain ⟨f, x, y, i, j, -, rfl, rfl, rfl⟩ := foldNumbers_eq_some hfold
    obtain ⟨-, rfl, rfl⟩ := h.eq_plain (by simp [Operand.plain, Operand.carriesJumps])
    refine .of_plain h0 hbase (h.ok_plain (by simp)) (hev0.trans h.evolves) (by simp) ⟨trivial, ?_⟩
    have hfree : s.fn.free = s1.fn.free := h.placed.2
    rcases hleft with ⟨_, _, _, hfree'⟩ | ⟨rk, ⟨k, he, -⟩ | ⟨he, -⟩⟩
    · exact hfree.trans hfree'
    · simp [Operand.plain] at he
    · simp [Operand.plain] at he
  · refine .bind (toRK_spec h) ?_
    rintro ⟨e2', rk2⟩ t ⟨hok, hev, hnamed⟩
    refine .bind (nameLeft_spec hleft hbase hev0 hok hev hnamed) ?_
    rintro ⟨e1', rk1⟩ u ⟨hok', hev', hpair⟩
    have hev'' := hev0.trans (hev.trans hev')
    have hactive : u.fn.active ≤ s0.fn.free := hev''.active ▸ hbase
    have hstack := hok'.fn.stack
    have hfree := hok'.fn.free
    have hroom : s0.fn.free ≤ u.fn.stack := h0.fn.free.2.trans hev''.bounds.stack
    obtain ⟨hrk1, hrk2⟩ := hpair.hasRK hok' hactive hr
    dsimp only at hpair hrk1 ⊢
    rw [ensures_bind, ensures_freeOperands hpair hactive hr (by omega)]
    have hop' : op.info.mode = .abc ∧ op.info.b ≠ .unused ∧ op.info.c ≠ .unused ∧ op.relocates ∧
        op ≠ .vararg ∧ op ≠ .concat := by
      simp only [List.mem_cons, List.not_mem_nil, or_false] at hop
      rcases hop with rfl | rfl | rfl | rfl | rfl | rfl <;> decide
    refine (operate_spec h0 hbase (hok'.withFree ⟨hr, hroom⟩) (hev''.trans (.withFree ..)) rfl hop'.1
      hop'.2.1 (.inl hop'.2.2.1) ⟨hop'.2.2.2.1, hop'.2.2.2.2.1⟩ (hrk1.le hstack.2) (hrk2.le hstack.2)
      (fun i hi => ?_) (fun hcat => absurd hcat hop'.2.2.2.2.2) fun k => ?_).mono fun _ _ h => h.1
    · have ha := hi.a
      simp only [List.mem_cons, List.not_mem_nil, or_false] at hop
      rcases hop with rfl | rfl | rfl | rfl | rfl | rfl <;>
        simp only [Instr.Fits, hi.op, hi.b, hi.c] <;>
        exact ⟨by simp only [Func.bounds, GenState.withFree]; omega, hrk1, hrk2⟩
    · rw [hpair.eq_plain]
      rfl

/-! ## Comparison -/

theorem Yields.of_compare (h0 : s0.Ok H) (hbase : s0.fn.active ≤ s0.fn.free) (hok : t.Ok H)
    (hev : Evolves s0 t) (hfree : t.fn.free = s0.fn.free) (hi : i.isComparison) (hfit : i.Fits t.fn.bounds) :
    Yields s0 H (.plain .jump (t.fn.code.size + 1)) ((t.push i).push openJump) [] [] := by
  obtain ⟨op, hop, hcmp⟩ := Instr.isComparison_cases hi
  have htest : i.isTest := by
    rcases hcmp with rfl | rfl | rfl <;> simp [Instr.isTest, hop, Opcode.isTest, Opcode.info]
  have hcar : Carries s0 H (.plain .void 0) t [] [] := by
    refine ⟨h0, hev, ?_, .empty _, .empty _, ?_, ?_⟩ <;> simp [Operand.plain, Operand.ownJump, hok]
  refine {
    toCarries := hcar.pushTest (by simp [Operand.plain]) (.inl hfit) htest
    base := hbase
    placed := ⟨⟨t.fn.code.size, i, rfl, hev.size, ?_, ?_, hi, ?_⟩, hfree⟩
    plain := by simp }
  · simp [GenState.push]
  · simp only [GenState.push]
    rw [getElem?_push_of_lt (by simp)]
    simp
  · simp only [GenState.push]
    rw [Array.getElem?_push, if_pos (by simp)]

theorem Gen.compare_spec {holds : Bool} (h0 : s0.Ok H) (hbase : s0.fn.active ≤ s0.fn.free)
    (hev0 : Evolves s0 s1) (hleft : e1.NamedBy s1.fn s0.fn.free rk1) (h : Yields s1 H e2 s ts fs)
    (hop : op = .eq ∨ op = .lt ∨ op = .le) :
    (compare op holds e1 e2).Ensures s fun e' u => Yields s0 H e' u [] [] := by
  have hr := h0.fn.free.1
  unfold Gen.compare
  rw [toRK_named hleft, pure_bind]
  refine .bind (toRK_spec h) ?_
  rintro ⟨e2', rk2⟩ t ⟨hok, hev, hnamed⟩
  have hev' := hev0.trans hev
  have hactive : t.fn.active ≤ s0.fn.free := hev'.active ▸ hbase
  have hstack := hok.fn.stack
  have hfree := hok.fn.free
  have hroom : s0.fn.free ≤ t.fn.stack := h0.fn.free.2.trans hev'.bounds.stack
  have hlow := hleft.mono hev.active hev.bounds.constants
  obtain ⟨hrk1, hrk2⟩ := NamedPair.hasRK ⟨_, .inl ⟨hlow, hnamed⟩⟩ hok hactive hr
  have hrelease : ∀ {α : Type} {k : Gen α} {Q : α → GenState → Prop},
      (do releaseOperand e2'; releaseOperand e1; k : Gen α).Ensures t Q ↔
        k.Ensures (t.withFree s0.fn.free) Q := by
    intro α k Q
    rw [← bind_assoc, ensures_bind, (ensures_releasePair hlow hnamed hactive hr (by omega)).1]
  rw [hrelease]
  have hop' : op.info.mode = .abc ∧ op.info.b ≠ .unused ∧ op.info.c ≠ .unused := by
    rcases hop with rfl | rfl | rfl <;> decide
  have htest : ∀ {a b c : Int}, 0 ≤ a ∧ a ≤ maxA → t.fn.bounds.HasRK b → t.fn.bounds.HasRK c →
      (do
        let j ← testJump op a b c
        return .plain .jump (← listHead j) : Gen Operand).Ensures (t.withFree s0.fn.free)
          fun e' u => Yields s0 H e' u [] [] := by
    intro a b c ha hb hc
    have hb' := hb.le hstack.2
    have hc' := hc.le hstack.2
    have henc := encodes_abc op ha hb' hc'
    rw [ensures_bind, ensures_testJump (by exact hok.fn.isOpen) hop'.1 (.inl hop'.2.1)
      (.inl hop'.2.2) ⟨ha.2, hb'.2, hc'.2⟩]
    refine .of_compare h0 hbase (hok.withFree ⟨hr, hroom⟩) (hev'.trans (.withFree ..)) rfl ?_ ?_
    · rw [Instr.isComparison, henc.op]
      rcases hop with rfl | rfl | rfl <;> rfl
    · rw [fits_comparison henc.op hop, henc.b, henc.c]
      exact ⟨hb, hc⟩
  split
  · exact htest (by decide) hrk1 hrk2
  · split
    · exact htest (by decide) hrk1 hrk2
    · exact htest (by decide) hrk2 hrk1

/-! ## Concatenation -/

theorem fits_concat {B : Bounds} (hop : i.op? = some .concat) :
    i.Fits B ↔ (i.a : Int) < B.stack ∧ (i.b : Int) < B.stack ∧ (i.c : Int) < B.stack := by
  simp only [Instr.Fits, hop]

theorem Gen.concatRegisters_spec (h0 : s0.Ok H) (hbase : s0.fn.active ≤ s0.fn.free)
    (hev : Evolves s0 t) (hok : t.Ok H) (hfree : t.fn.free = s0.fn.free + 2) :
    (arith₂ .concat (.plain .nonRelocatable s0.fn.free) (.plain .nonRelocatable (s0.fn.free + 1))
      line).Ensures t fun e' u => Yields s0 H e' u [] [] := by
  have hr := h0.fn.free.1
  have hactive : t.fn.active ≤ s0.fn.free := hev.active ▸ hbase
  have hstack := hok.fn.stack
  have hroom := hok.fn.free.2
  have hlow : Operand.NamedBy { t.fn with free := s0.fn.free + 1 } s0.fn.free
      (.plain .nonRelocatable s0.fn.free) s0.fn.free := .inr ⟨rfl, .inr ⟨rfl, rfl⟩⟩
  have hhigh : Operand.NamedBy t.fn (s0.fn.free + 1)
      (.plain .nonRelocatable (s0.fn.free + 1)) (s0.fn.free + 1) :=
    .inr ⟨rfl, .inr ⟨rfl, by omega⟩⟩
  unfold arith₂
  have hnone : foldNumbers .concat (.plain .nonRelocatable s0.fn.free)
      (.plain .nonRelocatable (s0.fn.free + 1)) = none := rfl
  rw [hnone]
  rw [toRK_named hhigh, pure_bind]
  dsimp only
  rw [toRK_named hlow, pure_bind]
  rw [ensures_bind, ensures_freeOperands ⟨_, .inl ⟨hlow, hhigh⟩⟩ hactive hr (by omega)]
  refine (operate_spec h0 hbase (hok.withFree (r := s0.fn.free) (by omega)) (hev.trans (.withFree ..)) rfl rfl
    (by decide) (.inl (by decide)) (by decide) (by simp only [maxB]; omega)
    (by simp only [maxC]; omega) (fun i hi => ?_) (fun _ => rfl) fun k => rfl).mono fun _ _ h => h.1
  rw [fits_concat hi.op, hi.a, hi.b, hi.c]
  simp only [Func.bounds, GenState.withFree]
  omega

theorem Gen.concatenate_spec (h0 : s0.Ok H) (hbase : s0.fn.active ≤ s0.fn.free)
    (hev0 : Evolves s0 s1) (hfree1 : s1.fn.free = s0.fn.free + 1) (h : Yields s1 H e2 s ts fs) :
    (concatenate (.plain .nonRelocatable s0.fn.free) e2 line).Ensures s fun e' u => Yields s0 H e' u [] [] := by
  have hr := h0.fn.free.1
  refine .bind (toValue_spec h) ?_
  rintro e t ⟨h', he, hready⟩
  have hapart : (do
      arith₂ .concat (.plain .nonRelocatable s0.fn.free) (← toNextRegister e) line :
        Gen Operand).Ensures t fun e' u => Yields s0 H e' u [] [] := by
    refine .bind (toNextRegister_spec h') ?_
    rintro _ u ⟨rfl, hok, hev, hfree⟩
    rw [hfree1] at hfree ⊢
    exact concatRegisters_spec h0 hbase (hev0.trans hev) hok (by omega)
  split
  · rename_i hk
    have hplaced := h'.placed
    simp only [Operand.Placed, hk] at hplaced
    simp only [Operand.Ready, hk] at hready
    obtain ⟨n, i, hinfo, hn, hsize, hi, hrel, htarget⟩ := hready
    rw [ensures_bind, ensures_instrAt hinfo hi]
    split
    · rename_i hop
      have hback : t.fn.code.back? = some i := by
        rw [Array.back?_eq_getElem?, hsize, Nat.add_sub_cancel, hi]
      have hb : (i.b : Int) = s0.fn.free + 1 := (hplaced.2.2 i hback hop).trans hfree1
      have hfree : t.fn.free = s0.fn.free + 1 := hplaced.2.1.trans hfree1
      have hev := hev0.trans h'.evolves
      have hactive : t.fn.active ≤ s0.fn.free := hev.active ▸ hbase
      have hstack := h'.ok.fn.stack
      have hroom := h'.ok.fn.free.2
      have hfit := h'.ok.fn.code.fits_of_not_testSet hi (by simp [hop])
      rw [fits_concat hop] at hfit
      have hb' := Instr.b_setB i (v := s0.fn.free) (by simp only [maxB]; omega)
      have hop' : (i.setB s0.fn.free).op? = some .concat := (Instr.op?_setB _ i).trans hop
      have hch : Changes t.fn.bounds (Held H ([] ++ [] ++ e.ownJump)) n i (i.setB s0.fn.free) := by
        refine .of_fits hop hop' (.inl rfl) (.inl (Instr.c_setB _ i)) (by simp) ?_
        rw [fits_concat hop', Instr.a_setB, Instr.c_setB, hb']
        exact ⟨hfit.1, by simp only [Func.bounds]; omega, hfit.2.2⟩
      have hcar := h'.toCarries.modify (f := (·.setB s0.fn.free)) hi hn
        (by simp [Instr.isJump, hop]) hch
      have hok : (t.setCode (t.fn.code.modify n (·.setB s0.fn.free))).Ok H := by
        simpa [Operand.ownJump, hk] using hcar.ok
      have hrelease : Operand.InRegister t.fn s0.fn.free s0.fn.free := .inr ⟨rfl, hfree⟩
      rw [ensures_bind, ensures_require (by simp [Operand.plain, hb]), ensures_bind]
      refine (ensures_release hrelease hactive hr (by omega)).2 ?_
      rw [ensures_bind, ensures_updateInstr hinfo (by simp only [GenState.withFree]; omega), hinfo]
      have hle : s0.fn.free ≤ t.fn.stack := by omega
      refine .of_push h0 hbase (hok.withFree ⟨hr, hle⟩)
        (hev0.trans (hcar.evolves.trans (.withFree ..))) rfl
        (by simpa [GenState.withFree] using hsize) (hev0.size.trans hn) (i := i.setB s0.fn.free)
        ?_ ?_ htarget fun _ => hb'
      · simp only [GenState.withFree]
        rw [Array.getElem?_modify, if_pos rfl, hi]
        rfl
      · exact ⟨_, hop', rfl, by simp⟩
    · exact hapart
  · exact hapart

/-! ## Negation -/

theorem Carries.dropped (h : Carries s0 H e s ts fs)
    (hps : ∀ p ∈ ps, s0.fn.code.size ≤ p) (hd : Dropped ps s.fn.code code) :
    Carries s0 H e (s.setCode code) ts fs := by
  obtain ⟨hcode, hrev⟩ := h.ok.fn.code.dropped h.ok.fn.stack.2 hd
  have hchain : ∀ {l : JumpList} {qs : List Nat}, Chain s.fn.code l qs → Chain code l qs :=
    fun hl => hl.congr fun p hp => by
      obtain ⟨i, hi, hj⟩ := hl.jump_of_mem hp
      rw [hd.jump hi hj, hi]
  exact {
    start := h.start
    evolves := h.evolves.setCode hrev
      (hd.kept hps (storesAt_of_sealed h.start.ends h.evolves.kept)) (h.evolves.aims.dropped hd)
    ok := h.ok.setCode hrev hcode h.ok.held
    whenTrue := hchain h.whenTrue
    whenFalse := hchain h.whenFalse
    apart := h.apart
    fresh := fun p hp => by
      obtain ⟨hn, i, hi, hop, ha⟩ := h.fresh p hp
      exact ⟨hn, i, hd.jump hi (by simp [Instr.isJump, hop]), hop, ha⟩ }

theorem Gen.Dropped.get {code' : Array Instr} (hd : Dropped ps code code') {p : Nat}
    (hi : code[p]? = some i) (hop : i.op? ≠ some .testSet) : code'[p]? = some i := by
  rw [hd.other p, hi]
  simp [storesAt, hi, hop]

theorem Operand.Ready.dropped {n0 : Nat} (h : e.Ready n0 s.fn)
    (hd : Dropped ps s.fn.code code) : e.Ready n0 (s.setCode code).fn := by
  unfold Operand.Ready at h ⊢
  cases hk : e.kind <;> simp only [hk] at h ⊢
  case constant => exact h
  case nonRelocatable => exact h
  case jump =>
    obtain ⟨n, i, hinfo, hn, hsize, hi, hcmp, hj⟩ := h
    obtain ⟨op, hop, hcases⟩ := Instr.isComparison_cases hcmp
    exact ⟨n, i, hinfo, hn, hd.size.trans hsize, hd.get hi (by
      rcases hcases with rfl | rfl | rfl <;> simp [hop]), hcmp, hd.jump hj openJump_isJump⟩
  case relocatable =>
    obtain ⟨n, i, hinfo, hn, hsize, hi, hrel, htarget⟩ := h
    refine ⟨n, i, hinfo, hn, hd.size.trans hsize, hd.get hi ?_, hrel, htarget⟩
    intro hts
    obtain ⟨op, hop, hrel, -⟩ := hrel
    cases hts.symm.trans hop
    simp [Opcode.relocates] at hrel

theorem Gen.exchange_spec (h : Yields s0 H e s ts fs) (hr : e.Ready s0.fn.code.size s.fn)
    (hk : e.kind ≠ .nonRelocatable)
    (hnot : e.kind = .relocatable → ∃ i, s.fn.code.back? = some i ∧ i.op? = some .not) :
    (do
      dropValues e.whenTrue
      dropValues e.whenFalse
      return e.swap : Gen Operand).Ensures s fun e' t => e' = e.swap ∧ Yields s0 H e.swap t fs ts ∧
        ∃ code1 code2, t = s.setCode code2 ∧ Dropped ts s.fn.code code1 ∧
          Dropped fs code1 code2 := by
  have hfree := h.placed.free_eq hr.isPlace hk
  refine .bind (dropValues_spec h.whenTrue) ?_
  rintro - _ ⟨code1, rfl, hd1⟩
  have h1 := h.toCarries.dropped (fun p hp => (h.fresh p (by simp [hp])).1) hd1
  refine .bind (dropValues_spec h1.whenFalse) ?_
  rintro - _ ⟨code2, rfl, hd2⟩
  have h2 := h1.dropped (fun p hp => (h1.fresh p (by simp [hp])).1) hd2
  have hr2 : e.swap.Ready s0.fn.code.size (s.setCode code2).fn :=
    (hr.dropped hd1).dropped (s := s.setCode code1) hd2
  refine ⟨rfl, { toCarries := h2.swap, base := h.base, placed := ?_, plain := ?_ }, code1, code2, rfl, hd1, hd2⟩
  · unfold Operand.Placed
    have hkind : e.swap.kind = e.kind := rfl
    have hready := hr
    unfold Operand.Ready at hready
    cases hke : e.kind <;> simp only [hkind, hke] at hready ⊢
    case nonRelocatable => exact absurd hke hk
    case relocatable =>
      obtain ⟨i, hback, hop⟩ := hnot hke
      refine ⟨hr2, hfree, fun j hj hjop => ?_⟩
      rw [Array.back?_eq_getElem?] at hback hj
      have hi := hd2.get (hd1.get hback (by simp [hop])) (by simp [hop])
      rw [hd2.size, hd1.size, hi] at hj
      rw [← Option.some.inj hj, hop] at hjop
      simp at hjop
    all_goals exact ⟨hr2, hfree⟩
  · intro hp
    have : e.isPlace = true := hp
    simp [hr.isPlace] at this

theorem Gen.negate_spec (h : Yields s0 H e s ts fs) : (negate e).Ensures s fun e' t => Yields s0 H e' t fs ts := by
  refine .bind (discharge_spec h) ?_
  rintro e1 s1 ⟨h1, hr, -⟩
  have hfinish : ∀ {d : Operand} {u : GenState}, Yields s0 H d u ts fs →
      d.Ready s0.fn.code.size u.fn → d.kind ≠ .nonRelocatable →
      (d.kind = .relocatable → ∃ i, u.fn.code.back? = some i ∧ i.op? = some .not) →
      (do
        dropValues d.whenTrue
        dropValues d.whenFalse
        return d.swap : Gen Operand).Ensures u fun e' t => Yields s0 H e' t fs ts := by
    intro d u hd hr hk hnot
    refine (exchange_spec hd hr hk hnot).mono ?_
    rintro _ t ⟨rfl, hy, -⟩
    exact hy
  -- A constant is negated at once.
  have hconst : ∀ {kind : Operand.Kind}, (kind = .true ∨ kind = .false) → e1.kind ≠ .jump →
      e1.kind ≠ .nonRelocatable → (do
        dropValues e1.whenTrue
        dropValues e1.whenFalse
        return Operand.swap { e1 with kind := kind } : Gen Operand).Ensures s1
          fun e' t => Yields s0 H e' t fs ts := by
    intro kind hkind hj hn
    have hready : Operand.Ready s0.fn.code.size s1.fn { e1 with kind := kind } := by
      rcases hkind with rfl | rfl <;> trivial
    have hfree := h1.placed.free_eq hr.isPlace hn
    have hy : Yields s0 H { e1 with kind := kind } s1 ts fs := {
      toCarries := h1.toCarries.congr rfl rfl (by
        rcases hkind with rfl | rfl <;> simp [Operand.ownJump, hj])
      base := h1.base
      placed := by rcases hkind with rfl | rfl <;> exact ⟨trivial, hfree⟩
      plain := by rcases hkind with rfl | rfl <;> simp [Operand.isPlace] }
    refine hfinish hy hready ?_ ?_ <;> rcases hkind with rfl | rfl <;> simp
  -- Any other value is negated by an instruction.
  have hvalue : e1.kind = .relocatable ∨ e1.kind = .nonRelocatable → (do
        let e ← dischargeToAny e1
        releaseOperand e
        let e : Operand := { e with info := ← emitABC .not 0 e.info 0, kind := .relocatable }
        dropValues e.whenTrue
        dropValues e.whenFalse
        return e.swap : Gen Operand).Ensures s1 fun e' t => Yields s0 H e' t fs ts := by
    intro hk
    have hkj : e1.kind ≠ .jump := by rcases hk with hk | hk <;> simp [hk]
    have hbase := h1.start.fn.free.1
    refine .bind (dischargeToAny_spec h1 hr hkj) ?_
    rintro _ u ⟨reg, rfl, h2, -⟩
    have hinfo : 0 ≤ reg ∧ reg < u.fn.stack := h2.ready rfl
    have hstack := h2.ok.fn.stack
    rw [ensures_bind, ensures_releaseOperand h2 rfl]
    have hok := h2.ok.withFree (r := s0.fn.free) ⟨hbase, h2.room⟩
    have hcar := h2.toCarries.evolve (.withFree u s0.fn.free) hok
    refine .bind (emitABC_ok hok rfl (.inl (by decide)) (.inr rfl) (by decide)
      (by simp only [maxB]; omega) (by decide)
      fun i hi => ⟨?_, Instr.next?_eq_none hi.op (by decide)⟩) ?_
    · have ha := hi.a
      have hb : (i.b : Int) = reg := hi.b
      simp only [Instr.Fits, hi.op, Func.bounds, GenState.withFree]
      omega
    · rintro _ _ ⟨rfl, i, hi, rfl, hok', hev⟩
      have hcar' : Carries s0 H
          { e1 with info := (u.withFree s0.fn.free).fn.code.size, kind := .relocatable }
          ((u.withFree s0.fn.free).push i) ts fs :=
        (hcar.evolve hev hok').congr rfl rfl (by simp [Operand.ownJump])
      have hready : Operand.Ready s0.fn.code.size ((u.withFree s0.fn.free).push i).fn
          { e1 with info := (u.withFree s0.fn.free).fn.code.size, kind := .relocatable } :=
        ⟨_, i, rfl, hcar.evolves.size, by simp [GenState.push], by simp [GenState.push],
          ⟨_, hi.op, rfl, by simp⟩, hok.fn.target.2⟩
      have hback : ((u.withFree s0.fn.free).push i).fn.code.back? = some i := by
        simp [GenState.push]
      refine hfinish { toCarries := hcar', base := h2.base, placed := ?_, plain := ?_ } hready
        (by simp) fun _ => ⟨i, hback, hi.op⟩
      · refine ⟨hready, rfl, fun j hj hjop => ?_⟩
        rw [hback] at hj
        rw [← Option.some.inj hj, hi.op] at hjop
        simp at hjop
      · simp [Operand.isPlace]
  split
  case h_1 hk | h_2 hk => exact hconst (.inl rfl) (by simp [hk]) (by simp [hk])
  case h_3 hk | h_4 _ hk | h_5 hk => exact hconst (.inr rfl) (by simp [hk]) (by simp [hk])
  · rename_i hk
    refine .bind (flipTest_spec h1.toCarries hr hk) ?_
    rintro - t ⟨n, -, rfl, hcar, hr'⟩
    have hfree := h1.placed.free_eq hr.isPlace (by simp [hk])
    refine hfinish { toCarries := hcar, base := h1.base, placed := ?_, plain := ?_ } hr'
      (by simp [hk]) (by simp [hk])
    · simp only [Operand.Placed, hk]
      exact ⟨hr', hfree⟩
    · simp [Operand.isPlace, hk]
  · rename_i hk
    exact hvalue (.inl hk)
  · rename_i hk
    exact hvalue (.inr hk)
  · unfold Operand.Ready at hr
    split at hr <;> simp_all

/-! ## Operators -/

theorem Gen.unary_spec {op : UnaryOp} (h : Yields s0 H e s ts fs) :
    (unary op e line).Ensures s fun e' t => ∃ ts' fs', Yields s0 H e' t ts' fs' := by
  have harith : ∀ {op : Opcode}, (op = .unm ∨ op = .len) →
      (do arith₁ op (← toAnyRegister e) line : Gen Operand).Ensures s
        fun e' t => ∃ ts' fs', Yields s0 H e' t ts' fs' := by
    intro op hop
    refine .bind (toAnyRegister_spec h) ?_
    rintro _ t ⟨reg, rfl, hok, hev, hreg⟩
    refine (arith₁_spec h.start h.base hok hev hreg hop).mono ?_
    rintro e' u ⟨hy, -⟩
    exact ⟨_, _, hy⟩
  unfold unary
  cases op with
  | minus =>
    dsimp only
    split
    · rename_i x hx
      have he := numeral?_eq_some hx
      rw [he] at h ⊢
      obtain ⟨-, rfl, rfl⟩ := h.eq_plain (by simp [Operand.plain, Operand.carriesJumps])
      exact ⟨[], [], .of_plain h.start h.base (h.ok_plain (by simp)) h.evolves (by simp)
        ⟨trivial, h.placed.2⟩⟩
    · exact harith (.inl rfl)
  | not =>
    refine (negate_spec h).mono fun e' t hy => ⟨_, _, hy⟩
  | len => exact harith (.inr rfl)

/-- What a left operand is while the right one is compiled. The jumps at `ps` leave it. -/
def IsPrepared (op : BinaryOp) (s0 : GenState) (H : Set Nat) (e : Operand) (s : GenState)
    (ps : List Nat) : Prop :=
  match op.family with
  | .conjunction => e.whenTrue = .empty ∧ s.fn.free = s0.fn.free ∧ Carries s0 H e.asJumps s [] ps
  | .disjunction => e.whenFalse = .empty ∧ s.fn.free = s0.fn.free ∧ Carries s0 H e.asJumps s ps []
  | .concat => ps = [] ∧ e = .plain .nonRelocatable s0.fn.free ∧ s.fn.free = s0.fn.free + 1 ∧
      s.Ok H ∧ Evolves s0 s
  | .arith _ => ps = [] ∧ e.IsLeft s.fn s0.fn.free ∧ s.Ok H ∧ Evolves s0 s
  | .compare .. => ps = [] ∧ (∃ rk, e.NamedBy s.fn s0.fn.free rk) ∧ s.Ok H ∧ Evolves s0 s

theorem Gen.prepareLeft_spec {op : BinaryOp} (h : Yields s0 H e s ts fs) :
    (prepareLeft op e).Ensures s fun e' t => ∃ ps, IsPrepared op s0 H e' t ps := by
  unfold prepareLeft IsPrepared
  generalize op.family = family
  cases family with
  | conjunction =>
    refine (continueIfTrue_spec h).mono ?_
    rintro e' t ⟨hempty, hfree, fs', hcar⟩
    exact ⟨fs', hempty, hfree, hcar⟩
  | disjunction =>
    refine (continueIfFalse_spec h).mono ?_
    rintro e' t ⟨hempty, hfree, ts', hcar⟩
    exact ⟨ts', hempty, hfree, hcar⟩
  | concat =>
    refine (toNextRegister_spec h).mono ?_
    rintro e' t ⟨he, hok, hev, hfree⟩
    exact ⟨[], rfl, he, hfree, hok, hev⟩
  | arith =>
    dsimp only
    split
    · rename_i hnum
      obtain ⟨x, hx⟩ := Option.isSome_iff_exists.1 hnum
      have he := numeral?_eq_some hx
      rw [he] at h ⊢
      obtain ⟨-, rfl, rfl⟩ := h.eq_plain (by simp [Operand.plain, Operand.carriesJumps])
      exact ⟨[], rfl, .inl ⟨x, _, rfl, h.placed.2⟩, h.ok_plain (by simp), h.evolves⟩
    · refine .bind (toRK_spec h) ?_
      rintro r t ⟨hok, hev, hnamed⟩
      exact ⟨[], rfl, .inr ⟨_, hnamed⟩, hok, hev⟩
  | compare =>
    refine .bind (toRK_spec h) ?_
    rintro r t ⟨hok, hev, hnamed⟩
    exact ⟨[], rfl, ⟨_, hnamed⟩, hok, hev⟩

theorem Yields.swap (h : Yields s0 H e s ts fs) : Yields s0 H e.swap s fs ts where
  toCarries := h.toCarries.swap
  base := h.base
  placed := h.placed
  plain hp := (h.plain hp).symm

theorem Operand.Ready.relinked {n0 : Nat} (h : e.Ready n0 s.fn) (hlink : Relinked ps s.fn.code code)
    (hps : ∀ p ∈ ps, (∃ i, s.fn.code[p]? = some i ∧ i.isJump) ∧ p ∉ e.ownJump) : e.Ready n0 (s.setCode code).fn := by
  have hget : ∀ {p : Nat} {i : Instr}, s.fn.code[p]? = some i → i.isJump = false →
      code[p]? = some i := by
    intro p i hi hj
    rw [hlink.other p, hi]
    intro hp
    obtain ⟨⟨j, hj', hjump⟩, -⟩ := hps p hp
    rw [hi] at hj'
    simp [← Option.some.inj hj', hj] at hjump
  unfold Operand.Ready at h ⊢
  cases hk : e.kind <;> simp only [hk] at h ⊢
  case constant => exact h
  case nonRelocatable => exact h
  case jump =>
    obtain ⟨n, i, hinfo, hn, hsize, hi, hcmp, hj⟩ := h
    obtain ⟨op, hop, hcases⟩ := Instr.isComparison_cases hcmp
    refine ⟨n, i, hinfo, hn, hlink.size.trans hsize, hget hi ?_, hcmp, ?_⟩
    · rcases hcases with rfl | rfl | rfl <;> simp [Instr.isJump, hop]
    · rw [hlink.other, hj]
      intro hp
      refine (hps _ hp).2 ?_
      simp only [Operand.ownJump, hk, if_true, List.mem_singleton]
      omega
  case relocatable =>
    obtain ⟨n, i, hinfo, hn, hsize, hi, hrel, htarget⟩ := h
    obtain ⟨op, hop, hmode⟩ := hrel.mode
    exact ⟨n, i, hinfo, hn, hlink.size.trans hsize, hget hi (not_isJump_of_mode hop hmode).1, hrel, htarget⟩

theorem Operand.Ready.weaken {m n : Nat} (h : e.Ready n f) (hmn : m ≤ n) : e.Ready m f := by
  unfold Operand.Ready at h ⊢
  cases hk : e.kind <;> simp only [hk] at h ⊢
  case constant => exact h
  case nonRelocatable => exact h
  case jump =>
    obtain ⟨k, i, hinfo, hk, hrest⟩ := h
    exact ⟨k, i, hinfo, hmn.trans hk, hrest⟩
  case relocatable =>
    obtain ⟨k, i, hinfo, hk, hrest⟩ := h
    exact ⟨k, i, hinfo, hmn.trans hk, hrest⟩

theorem Operand.Placed.of_ready {m n : Nat} {g : Func} (h : e.Placed n r f)
    (hr : e.Ready m g) (hfree : g.free = f.free) (ha : g.active = f.active)
    (hback : e.kind = .relocatable → g.code.back? = f.code.back?) : e.Placed m r g := by
  have hp := hr.isPlace
  unfold Operand.Placed at h ⊢
  unfold Operand.isPlace at hp
  unfold Operand.InRegister at h ⊢
  rw [hfree, ha]
  cases hk : e.kind <;> simp only [hk] at h hp hback ⊢
  case nonRelocatable => exact h
  case relocatable =>
    rw [hback trivial]
    exact ⟨hr, h.2⟩
  all_goals first | exact ⟨hr, h.2⟩ | simp at hp

theorem Gen.Relinked.back? {code' : Array Instr} (hlink : Relinked ps code code')
    (hps : ∀ p ∈ ps, ∃ i, code[p]? = some i ∧ i.isJump) {n : Nat}
    (hsize : code.size = n + 1) (hi : code[n]? = some i) (hj : i.isJump = false) : code'.back? = code.back? := by
  rw [Array.back?_eq_getElem?, Array.back?_eq_getElem?, hlink.size, hsize, Nat.add_sub_cancel]
  refine hlink.other n fun hn => ?_
  obtain ⟨j, hj', hjump⟩ := hps n hn
  rw [hi] at hj'
  simp [← Option.some.inj hj', hj] at hjump

theorem Gen.join_spec {d : Operand} (hleft : Carries s0 H d.asJumps s1 [] ps)
    (hbase : s0.fn.active ≤ s0.fn.free) (hfree : s1.fn.free = s0.fn.free)
    (h : Yields s1 (Held H ps) e s ts fs) (hr : e.Ready s1.fn.code.size s.fn) :
    (concat e.whenFalse d.whenFalse).Ensures s fun l u =>
      Yields s0 H { e with whenFalse := l } u ts (fs ++ ps) ∧
      ∃ code, u = s.setCode code ∧ Relinked fs s.fn.code code := by
  have hps : ∀ p ∈ ps, p < s1.fn.code.size ∧ IsFresh s0.fn.code.size s1.fn.code p := fun p hp =>
    ⟨hleft.whenFalse.lt_of_mem hp, hleft.fresh p (by simp [hp])⟩
  -- The jumps of the left operand come before those of the right one.
  have hne : ∀ p ∈ ps, ∀ q ∈ ts ++ fs ++ e.ownJump, p ≠ q := fun p hp q hq => by
    have := (h.fresh q hq).1
    have := (hps p hp).1
    omega
  have hok : s.Ok (Held H (ps ++ (ts ++ fs ++ e.ownJump))) := held_held H ps _ ▸ h.ok
  have hchain : Chain s.fn.code d.whenFalse ps :=
    hleft.whenFalse.kept h.evolves.kept fun p hp => (hps p hp).1
  obtain ⟨hleft', hown, hd⟩ := List.nodup_append.1 h.apart
  obtain ⟨hts, hfs, hd'⟩ := List.nodup_append.1 hleft'
  refine (concat_ok hok h.whenFalse hchain (fun p hp hq => hne p hq p (by simp [hp]) rfl)
    (by simp +contextual)).mono ?_
  rintro l u ⟨code, rfl, hchain', hlink, hrev, hok'⟩
  have hmem : ∀ p, p ∈ ps ++ (ts ++ fs ++ e.ownJump) ↔ p ∈ ts ++ (fs ++ ps) ++ e.ownJump := by
    simp only [List.mem_append]
    tauto
  have hready : Operand.Ready s0.fn.code.size (s.setCode code).fn e :=
    (hr.relinked hlink fun p hp => ⟨h.whenFalse.jump_of_mem hp,
      fun ho => hd p (by simp [hp]) p ho rfl⟩).weaken hleft.evolves.size
  refine ⟨{
    start := hleft.start
    evolves := (hleft.evolves.trans h.evolves).setCode hrev (hlink.kept fun p hp =>
      hleft.evolves.size.trans (h.fresh p (by simp [hp])).1)
      ((hleft.evolves.trans h.evolves).aims.relinked hlink hchain' fun p hp => by
        rcases List.mem_append.1 hp with hp | hp
        · exact hleft.evolves.size.trans (h.fresh p (by simp [hp])).1
        · exact (hps p hp).2.1)
    ok := by rwa [held_congr hmem] at hok'
    whenTrue := h.whenTrue.relinked hlink fun p hp hq => hd' p hq p hp rfl
    whenFalse := hchain'
    apart := ?_
    fresh := ?_
    base := hbase
    placed := ?_
    plain := ?_ }, code, rfl, hlink⟩
  · have hperm : (ts ++ (fs ++ ps) ++ e.ownJump).Perm (ps ++ (ts ++ fs ++ e.ownJump)) := by
      rw [← List.append_assoc ts, List.append_assoc (ts ++ fs)]
      refine (List.perm_append_comm.append_left (ts ++ fs)).trans ?_
      rw [← List.append_assoc]
      exact List.perm_append_comm
    exact hperm.nodup_iff.2 (List.nodup_append.2 ⟨hleft.whenFalse.nodup, h.apart, hne⟩)
  · intro p hp
    have hp' : p ∈ ps ++ (ts ++ fs ++ e.ownJump) := (hmem p).2 hp
    refine IsFresh.relinked ?_ hlink
    rcases List.mem_append.1 hp' with hp | hp
    · obtain ⟨hlt, hn, i, hi, hop, ha⟩ := hps p hp
      exact ⟨hn, i, h.evolves.kept.get hlt hi (by simp [hop]), hop, ha⟩
    · obtain ⟨hn, hex⟩ := h.fresh p hp
      exact ⟨hleft.evolves.size.trans hn, hex⟩
  · have hplaced := h.placed.of_ready hready rfl rfl fun hk => ?_
    · rwa [hfree] at hplaced
    · simp only [Operand.Ready, hk] at hr
      obtain ⟨n, i, -, -, hsize, hi, hrel, -⟩ := hr
      obtain ⟨op, hop, hmode⟩ := hrel.mode
      exact hlink.back? (fun p hp => h.whenFalse.jump_of_mem hp) hsize hi
        (not_isJump_of_mode hop hmode).1
  · intro hp
    have : e.isPlace = true := hp
    simp [hr.isPlace] at this

theorem BinaryOp.arith_mem {op : BinaryOp} {o : Opcode} (h : op.family = .arith o) :
    o ∈ [.add, .sub, .mul, .div, .mod, .pow] := by
  cases op <;> simp [BinaryOp.family] at h <;> simp [← h]

theorem BinaryOp.compare_mem {op : BinaryOp} {o : Opcode} {holds : Bool}
    (h : op.family = .compare o holds) : o = .eq ∨ o = .lt ∨ o = .le := by
  cases op <;> simp [BinaryOp.family] at h <;> simp [← h.1]

theorem Gen.binary_spec {op : BinaryOp} (h0 : s0.Ok H) (hbase : s0.fn.active ≤ s0.fn.free)
    (hprep : IsPrepared op s0 H e1 s1 ps) (h : Yields s1 (Held H ps) e2 s ts fs) :
    (binary op e1 e2 line).Ensures s fun e' t => ∃ ts' fs', Yields s0 H e' t ts' fs' := by
  unfold binary
  unfold IsPrepared at hprep
  cases hfam : op.family with
  | conjunction =>
    simp only [hfam] at hprep
    obtain ⟨hempty, hfree, hcar⟩ := hprep
    refine .bind (discharge_spec h) ?_
    rintro e3 t ⟨h', hr, -⟩
    rw [ensures_bind, ensures_require (by simp [hempty])]
    refine .bind (join_spec hcar hbase hfree h' hr) ?_
    rintro l u ⟨hy, -⟩
    exact ⟨_, _, hy⟩
  | disjunction =>
    simp only [hfam] at hprep
    obtain ⟨hempty, hfree, hcar⟩ := hprep
    refine .bind (discharge_spec h) ?_
    rintro e3 t ⟨h', hr, -⟩
    rw [ensures_bind, ensures_require (by simp [hempty])]
    refine .bind (join_spec (d := e1.swap) hcar.swap hbase hfree h'.swap hr) ?_
    rintro l u ⟨hy, -⟩
    exact ⟨_, _, hy.swap⟩
  | concat =>
    simp only [hfam] at hprep
    obtain ⟨rfl, rfl, hfree, -, hev⟩ := hprep
    rw [held_nil] at h
    exact (concatenate_spec h0 hbase hev hfree h).mono fun _ _ hy => ⟨_, _, hy⟩
  | arith o =>
    simp only [hfam] at hprep
    obtain ⟨rfl, hleft, -, hev⟩ := hprep
    rw [held_nil] at h
    exact (arith₂_spec h0 hbase hev hleft h (BinaryOp.arith_mem hfam)).mono fun _ _ hy => ⟨_, _, hy⟩
  | compare o holds =>
    simp only [hfam] at hprep
    obtain ⟨rfl, ⟨rk, hleft⟩, -, hev⟩ := hprep
    rw [held_nil] at h
    exact (compare_spec h0 hbase hev hleft h (BinaryOp.compare_mem hfam)).mono
      fun _ _ hy => ⟨_, _, hy⟩

end RegisterCompiler
