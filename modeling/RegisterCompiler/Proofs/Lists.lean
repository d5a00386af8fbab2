import RegisterCompiler.Generator.Tree
import RegisterCompiler.Proofs.Operators

/-!
# Lists of values

* `giveResults_spec` : a call or `...` is made to give any number of results;
* `LastOf`, `ValuesOf` : a list of values, of which all but the last are in registers;
* `adjustTo_spec` : the values fill a given number of registers.
-/

namespace RegisterCompiler

open Gen

/-! ## Any number of results -/

theorem fits_call {B : Bounds} {i : Instr} (hop : i.op? = some .call) :
    i.Fits B ↔ (i.a : Int) < B.stack ∧ (i.a : Int) + i.b ≤ B.stack ∧ (i.a : Int) + i.c ≤ B.stack + 1 := by
  simp only [Instr.Fits, hop]

variable {s0 s t : GenState} {H : Set Nat} {e : Operand} {ts fs : List Nat} {count n : Int}

section Results
variable {k top : Int}

theorem GenState.withRoom_of_le (h : top ≤ s.fn.stack) : s.withRoom top = s := by
  simp only [GenState.withRoom, max_eq_left h]

theorem Gen.giveResults_spec (h : Yields s0 H e s ts fs) (ho : e.isOpen) (hk : -1 ≤ k) :
    (giveResults e k).Ensures s fun _ t => t.fn.free = s0.fn.free + 1 ∧ t.fn.stack ≤ 249 ∧
      t.fn.free ≤ t.fn.stack ∧ ∀ top, s0.fn.free + k ≤ top → top ≤ 249 →
        (t.withRoom top).Ok H ∧ Evolves s0 (t.withRoom top) := by
  have hplaced := h.placed
  have hstack := h.ok.fn.stack
  have hfree := h.ok.fn.free
  have hpl : e.isPlace := by
    unfold Operand.isOpen at ho
    unfold Operand.isPlace
    split at ho <;> simp_all
  obtain ⟨rfl, rfl⟩ := h.plain hpl
  have hok := h.ok_place hpl
  have hown : e.ownJump = [] := by
    unfold Operand.isOpen at ho
    unfold Operand.ownJump
    split at ho <;> simp_all
  have hheld : Held H ([] ++ [] ++ e.ownJump) = H := by simp [hown]
  unfold giveResults
  cases hkind : e.kind with
  | call =>
    simp only [Operand.Placed, hkind] at hplaced
    obtain ⟨n, i, hinfo, hn, hsize, hi, hop, ha, hf⟩ := hplaced
    rw [ensures_updateInstr hinfo (by omega)]
    refine ⟨hf, hstack.2, hfree.2, fun top htop hmax => ?_⟩
    have hok' := hok.withRoom hmax
    have hcar := h.toCarries.evolve (.withRoom s top) (hheld.symm ▸ hok')
    have hc := Instr.c_setC i (v := k + 1) (by simp only [maxC]; omega)
    have hop' : (i.setC (k + 1)).op? = some .call := (Instr.op?_setC _ i).trans hop
    have hfit := hok'.fn.code.fits_of_not_testSet hi (by simp [hop])
    have hroom : top ≤ (s.withRoom top).fn.bounds.stack := le_max_right ..
    rw [fits_call hop] at hfit
    have hcar' := hcar.modify (f := (·.setC (k + 1))) hi hn (by simp [Instr.isJump, hop])
      (.of_fits hop hop' (.inl rfl) (.inr (by simp)) (by simp) (by
        rw [fits_call hop', Instr.a_setC, Instr.b_setC, hc]
        omega))
    exact ⟨hheld ▸ hcar'.ok, hcar'.evolves⟩
  | vararg =>
    simp only [Operand.Placed, hkind] at hplaced
    obtain ⟨n, i, hinfo, hn, hsize, hi, hop, ha, htarget, hf⟩ := hplaced
    simp only [ensures_bind, ensures_firstFree]
    rw [ensures_updateInstr hinfo (by omega), ensures_reserve (by exact hstack.2)]
    intro hle
    have hle' : s.fn.free + 1 ≤ 249 := hle
    have hres := hok.reserved (n := 1) (by omega) hle'
    refine ⟨congrArg (· + 1) hf, hres.fn.stack.2, hres.fn.free.2, fun top htop hmax => ?_⟩
    have hok' := hres.withRoom hmax
    have hcar := h.toCarries.evolve ((Evolves.reserved s 1).trans (.withRoom _ top))
      (hheld.symm ▸ hok')
    have hfree' : s.fn.free + 1 ≤ ((s.reserved 1).withRoom top).fn.bounds.stack :=
      (le_max_right ..).trans (le_max_left ..)
    have hroom : top ≤ ((s.reserved 1).withRoom top).fn.bounds.stack := le_max_right ..
    have hb := Instr.b_setB i (v := k + 1) (by simp only [maxB]; omega)
    have ha' := Instr.a_setA (i.setB (k + 1)) (v := s.fn.free) (by simp only [maxA]; omega)
    have hop' : ((i.setB (k + 1)).setA s.fn.free).op? = some .vararg := by
      rw [Instr.op?_setA, Instr.op?_setB, hop]
    have hcar' := hcar.modify (f := fun i => (i.setB (k + 1)).setA s.fn.free) hi hn
      (by simp [Instr.isJump, hop])
      (.of_fits hop hop' (.inl rfl) (.inr (by simp)) (by simp) (by
        rw [fits_vararg hop', ha', Instr.b_setA, hb]
        omega))
    exact ⟨hheld ▸ hcar'.ok, hcar'.evolves⟩
  | _ => simp [Operand.isOpen, hkind] at ho

/-- The call or `...` gives all its results, the first of which is in the register after those of the
other values. -/
theorem Gen.giveAll_spec (h : Yields s0 H e s ts fs) (ho : e.isOpen) :
    (giveAll e).Ensures s fun _ t => t.Ok H ∧ Evolves s0 t ∧ t.fn.free = s0.fn.free + 1 := by
  refine (giveResults_spec h ho (by decide)).mono ?_
  rintro - t ⟨hfree, hstack, hle, hroom⟩
  obtain ⟨hok, hev⟩ := hroom t.fn.free (by simp only [multRet]; omega) (by omega)
  rw [GenState.withRoom_of_le hle] at hok hev
  exact ⟨hok, hev, hfree⟩

theorem Gen.giveOne_spec (h : Yields s0 H e s ts fs) :
    (giveOne e).Ensures s fun e' t => Yields s0 H e' t ts fs ∧ e'.isOpen = false := by
  have hnot : ∀ {e' : Operand} {f : Func}, e'.Ready s0.fn.code.size f → e'.isOpen = false := by
    intro e' f hr
    have := hr.isPlace
    unfold Operand.isPlace at this
    unfold Operand.isOpen
    split at this <;> simp_all
  by_cases ho : e.isOpen
  · have hsame : giveOne e = discharge e := by
      unfold Operand.isOpen at ho
      unfold discharge
      split at ho <;> simp_all
    rw [hsame]
    exact (discharge_spec h).mono fun e' t h' => ⟨h'.1, hnot h'.2.1⟩
  · have hsame : giveOne e = pure e := by
      unfold giveOne
      split <;> simp_all [Operand.isOpen]
    rw [hsame]
    exact ⟨h, by simpa using ho⟩

end Results

/-! ## Values in registers -/

/-- All but the last of `count` values are in the registers that were free in `s0`; the last one
is `e`. -/
def LastOf (s0 : GenState) (H : Set Nat) (count : Int) (e : Operand) (s : GenState) : Prop :=
  1 ≤ count ∧ ∃ s1 ts fs, Evolves s0 s1 ∧ s1.fn.free = s0.fn.free + (count - 1) ∧
    Yields s1 H e s ts fs

def ValuesOf (s0 : GenState) (H : Set Nat) (count : Int) (e : Operand) (s : GenState) : Prop :=
  count = 0 ∧ e = .void ∧ s.Ok H ∧ Evolves s0 s ∧ s.fn.free = s0.fn.free ∨ LastOf s0 H count e s

section Adjust
variable {wanted : Int}

theorem Yields.kind_ne_void {s1 : GenState} (h : Yields s1 H e s ts fs) : e.kind ≠ .void := by
  intro hk
  have := h.placed
  simp [Operand.Placed, hk] at this

theorem Gen.fillNils_spec {extra : Int} (hok : s.Ok H) :
    (if extra > 0 then do
        let reg ← firstFree
        reserve extra
        emitNils reg extra
      else pure () : Gen Unit).Ensures s fun _ t => t.Ok H ∧ Evolves s t ∧
        t.fn.free = s.fn.free + max extra 0 := by
  split
  · have hfree := hok.fn.free
    simp only [ensures_bind, ensures_firstFree]
    rw [ensures_reserve hok.fn.stack.2]
    intro hle
    have hok' := hok.reserved (by omega) hle
    have hroom := hok'.fn.free
    have hfree' : (s.reserved extra).fn.free = s.fn.free + extra := rfl
    rw [ensures_emitNils hok'.fn.isOpen hok'.fn.target.1 ⟨by simp only [maxA]; omega, by simp only [maxB]; omega⟩]
    obtain ⟨hok'', hev⟩ := hok'.pushNils (show 0 ≤ s.fn.free ∧
      s.fn.free + extra ≤ (s.reserved extra).fn.stack by omega) (by omega)
    refine ⟨hok'', (Evolves.reserved s extra).trans hev, ?_⟩
    rw [(GenState.free_pushNils ..).1]
    omega
  · exact ⟨hok, .refl s, by omega⟩

theorem Gen.adjustTo_spec (h : ValuesOf s0 H count e s) (hw : 0 ≤ wanted) :
    (adjustTo wanted count e).Ensures s fun _ t => t.Ok H ∧ Evolves s0 t ∧
      t.fn.free = s0.fn.free + max count wanted := by
  unfold adjustTo
  rcases h with ⟨rfl, rfl, hok, hev, hfree⟩ | ⟨hcount, s1, ts, fs, hev1, hfree1, h⟩
  · refine (fillNils_spec hok).mono ?_
    rintro - t ⟨hok', hev', hfree'⟩
    exact ⟨hok', hev.trans hev', by omega⟩
  · split
    · rename_i ho
      rw [ensures_bind]
      refine (giveResults_spec h ho (by omega)).mono ?_
      rintro - t ⟨hfree, hstack, hle, hroom⟩
      split
      · rw [ensures_reserve hstack]
        intro hmax
        obtain ⟨hok, hev⟩ := hroom _ (by omega) hmax
        have hnew : (t.reserved (max (wanted - count + 1) 0 - 1)).fn.free =
          t.fn.free + (max (wanted - count + 1) 0 - 1) := rfl
        refine ⟨hok.withFree ⟨?_, le_max_right ..⟩, hev1.trans (hev.trans (.withFree ..)), ?_⟩
        · have := h.start.fn.free.1
          omega
        · omega
      · obtain ⟨hok, hev⟩ := hroom t.fn.free (by omega) (by omega)
        rw [GenState.withRoom_of_le hle] at hok hev
        exact ⟨hok, hev1.trans hev, by omega⟩
    · rw [if_pos h.kind_ne_void, ensures_bind]
      refine (toNextRegister_spec h).mono ?_
      rintro - t ⟨-, hok, hev, hfree⟩
      refine (fillNils_spec hok).mono ?_
      rintro - u ⟨hok', hev', hfree'⟩
      exact ⟨hok', hev1.trans (hev.trans hev'), by omega⟩

end Adjust

/-! ## Calls -/

/-- What the arguments of a call leave: nothing, a call or `...` that gives all its results, or one
value that is not in its register yet. -/
def ArgsOf (s0 : GenState) (H : Set Nat) (e : Operand) (s : GenState) : Prop :=
  (e = .void ∨ e.isOpen) ∧ s.Ok H ∧ Evolves s0 s ∧ s0.fn.free ≤ s.fn.free ∨
    e.isOpen = false ∧ ∃ s1 ts fs, Evolves s0 s1 ∧ s0.fn.free ≤ s1.fn.free ∧ Yields s1 H e s ts fs

section Calls
variable {s1 : GenState} {line : Int}

/-- The call itself, with `b - 1` arguments or an open number of them. -/
theorem Gen.emitCall_spec {b : Int} (h0 : s0.Ok H) (hbase : s0.fn.active ≤ s0.fn.free)
    (hok : t.Ok H) (hev : Evolves s0 t) (hfree : s0.fn.free + 1 ≤ t.fn.free)
    (hb : 0 ≤ b ∧ s0.fn.free + b ≤ t.fn.stack) :
    (do
      let at_ ← emitABC .call s0.fn.free b 2
      moveLastToLine line
      modifyFn fun f => { f with free := s0.fn.free + 1 }
      return .plain .call at_ : Gen Operand).Ensures t fun e' u =>
        Yields s0 H e' u [] [] ∧ e'.kind = .call := by
  have hr := h0.fn.free.1
  have hstack := hok.fn.stack
  have hroom := hok.fn.free
  refine .bind (emitABC_ok hok rfl (.inl (by decide)) (.inl (by decide))
    (by simp only [maxA]; omega) (by simp only [maxB]; omega) (by decide)
    fun i hi => ⟨?_, Instr.next?_eq_none hi.op (by decide)⟩) ?_
  · rw [fits_call hi.op, hi.a, hi.b, hi.c]
    simp only [Func.bounds]
    omega
  · rintro _ _ ⟨rfl, i, hi, rfl, hok', hev'⟩
    rw [ensures_bind, ensures_moveLastToLine (by rw [hok'.fn.lines]; simp [GenState.push])]
    have hle : s0.fn.free + 1 ≤ (t.push i).fn.stack := hfree.trans hroom.2
    refine ⟨.of_plain h0 hbase ((hok'.withLastLine line).withFree ⟨by omega, hle⟩)
      (hev.trans (hev'.trans ((Evolves.withLastLine ..).trans (.withFree ..)))) (by simp)
      ⟨t.fn.code.size, i, rfl, hev.size, ?_, ?_, hi.op, hi.a, rfl⟩, rfl⟩
    · simp [GenState.withLastLine, GenState.push]
    · simp [GenState.withLastLine, GenState.push]

theorem Gen.call_spec (h0 : s0.Ok H) (hbase : s0.fn.active ≤ s0.fn.free) (hev : Evolves s0 s1)
    (hfree : s0.fn.free + 1 ≤ s1.fn.free) (h : ArgsOf s1 H e s) :
    (call (.plain .nonRelocatable s0.fn.free) e line).Ensures s fun e' t =>
      Yields s0 H e' t [] [] ∧ e'.kind = .call := by
  unfold call
  rw [ensures_bind, ensures_require (by simp [Operand.plain])]
  extract_lets base emit count
  have hcount : ∀ {t : GenState}, t.Ok H → Evolves s1 t → s1.fn.free ≤ t.fn.free →
      (count ()).Ensures t fun e' u => Yields s0 H e' u [] [] ∧ e'.kind = .call := by
    intro t hok hev' hle
    have := hok.fn.free.2
    simp only [count, ensures_bind, ensures_getFn, ensures_pure]
    exact emitCall_spec h0 hbase hok (hev.trans hev') (by omega)
      (b := t.fn.free - (s0.fn.free + 1) + 1) (by omega)
  clear_value count
  rcases h with ⟨rfl | ho, hok, hev', hle⟩ | ⟨ho, s2, ts, fs, hev2, hle, hy⟩
  · exact hcount hok hev' hle
  · rw [if_pos ho, pure_bind]
    have := hok.fn.free.2
    exact emitCall_spec h0 hbase hok (hev.trans hev') (by omega)
      (b := multRet + 1) (by simp only [multRet]; omega)
  · rw [if_neg (by simp [ho]), if_pos hy.kind_ne_void]
    refine .bind (toNextRegister_spec hy) ?_
    rintro - t ⟨-, hok, hev', hfree'⟩
    exact hcount hok (hev2.trans hev') (by omega)

end Calls

/-! ## Returns -/

section Returns
variable {first : Int}

theorem Gen.ret_spec (hok : s.Ok H) (hfirst : 0 ≤ first)
    (hn : 0 ≤ n ∧ first + n ≤ s.fn.stack ∨ n = multRet ∧ first < s.fn.stack) :
    (ret first n).Ensures s fun _ t => ∃ i : Instr, i.op? = some .ret ∧ t = s.push i ∧ t.Ok H ∧ Evolves s t := by
  have hstack := hok.fn.stack
  simp only [multRet] at hn
  refine .bind (emitABC_ok hok rfl (.inl (by decide)) (.inr rfl) (by simp only [maxA]; omega)
    (by simp only [maxB]; omega) (by decide) fun i hi => ⟨?_, Instr.next?_eq_none hi.op (by decide)⟩) ?_
  · have ha := hi.a
    have hb := hi.b
    simp only [Instr.Fits, hi.op, Func.bounds]
    omega
  · rintro - t ⟨-, i, hi, ht, hok', hev⟩
    exact ⟨i, hi.op, ht, hok', hev⟩

theorem Gen.giveAll_call (h : Yields s0 H e s ts fs) (hk : e.kind = .call) :
    (giveAll e).Ensures s fun _ t => ∃ (n : Nat) (i : Instr), e.info = n ∧
      s0.fn.code.size ≤ n ∧ t.fn.code[n]? = some i ∧ i.op? = some .call ∧ (i.a : Int) = s0.fn.free := by
  have hplaced := h.placed
  simp only [Operand.Placed, hk] at hplaced
  obtain ⟨n, i, hinfo, hn, hsize, hi, hop, ha, -⟩ := hplaced
  unfold giveAll giveResults
  simp only [hk]
  rw [ensures_updateInstr hinfo (by omega)]
  exact ⟨n, _, hinfo, hn, by rw [Array.getElem?_modify, if_pos rfl, hi]; rfl, by simpa using hop,
    by simpa using ha⟩

theorem Changes.tailCall {B : Bounds} {p : Nat} {i : Instr} (hop : i.op? = some .call)
    (hfit : i.Fits B) : Changes B H p i (i.setOpcode Opcode.tailCall.code) := by
  have hop' := Instr.op?_setOpcode i .tailCall
  rw [fits_call hop] at hfit
  refine ⟨⟨?_, fun op ho hmem => ?_, by simp [hop, hop'], by simp [hop'], by simp [hop'],
    by simp [Instr.isJump, hop']⟩, .inl ?_,
    fun _ hj => by simp [Instr.isJump, hop'] at hj, fun _ => by simp [hop, hop']⟩
  · rw [Instr.next?_eq_none hop (by decide), Instr.next?_eq_none hop' (by decide)]
  · cases hop.symm.trans ho
    simp at hmem
  · simp only [Instr.Fits, hop', Instr.a_setOpcode, Instr.b_setOpcode]
    exact ⟨hfit.1, hfit.2.1⟩

theorem GenState.Ok.modify {p : Nat} {i : Instr} {f : Instr → Instr} (h : t.Ok H)
    (hev : Evolves s0 t) (hi : t.fn.code[p]? = some i) (hp : s0.fn.code.size ≤ p)
    (hj : i.isJump = false) (hch : Changes t.fn.bounds H p i (f i)) :
    (t.setCode (t.fn.code.modify p f)).Ok H ∧ Evolves s0 (t.setCode (t.fn.code.modify p f)) := by
  obtain ⟨hcode, hrev⟩ := h.fn.code.revised_modify (f := f) hi hch
  exact ⟨h.setCode hrev hcode h.held, hev.setCode hrev (fun q hq => by rw [Array.getElem?_modify, if_neg (by omega)])
    (hev.aims.modify hi (hch.revises.not_isJump hj))⟩

theorem Gen.returnValues_spec (hbase : s0.fn.free = s0.fn.active) (h : LastOf s0 H count e s) :
    (returnValues count e).Ensures s fun _ t => t.Ok H ∧ Evolves s0 t ∧ s0.fn.free ≤ t.fn.free := by
  obtain ⟨hcount, s1, ts, fs, hev1, hfree1, hy⟩ := h
  have hpos : 0 ≤ s0.fn.free := by
    rw [hbase, ← hev1.active]
    exact hy.start.fn.active.1
  have hactive : s.fn.active = s0.fn.free := by
    rw [hy.evolves.active, hev1.active, hbase]
  have hret : ∀ {t : GenState} {a n : Int}, t.Ok H → Evolves s1 t → s0.fn.free ≤ t.fn.free → 0 ≤ a →
      (0 ≤ n ∧ a + n ≤ t.fn.stack ∨ n = multRet ∧ a < t.fn.stack) →
      (ret a n).Ensures t fun _ u => u.Ok H ∧ Evolves s0 u ∧ s0.fn.free ≤ u.fn.free := by
    intro t a n hok hev hle ha hn
    refine (ret_spec hok ha hn).mono ?_
    rintro - _ ⟨i, -, rfl, hok', hev'⟩
    exact ⟨hok', hev1.trans (hev.trans hev'), hle⟩
  unfold returnValues
  rw [ensures_bind, ensures_activeLocals, hactive]
  split
  · rename_i ho
    by_cases hcall : e.kind = .call ∧ count = 1
    · refine .bind ((giveAll_spec hy ho).and (giveAll_call hy hcall.1)) ?_
      rintro - t ⟨⟨hok, hev, hfree⟩, n, i, hinfo, hn, hi, hop, ha⟩
      have hlt := lt_size_of_some hi
      have hroom := hok.fn.free
      obtain ⟨hok', hev'⟩ := hok.modify hev hi hn (by simp [Instr.isJump, hop])
        (.tailCall hop (hok.fn.code.fits_of_not_testSet hi (by simp [hop])))
      rw [if_pos hcall, ensures_bind, ensures_updateInstr hinfo hlt, ensures_bind,
        ensures_instrAt (i := i.setOpcode Opcode.tailCall.code) hinfo ?_, ensures_bind,
        ensures_require ?_]
      · refine hret hok' hev' ?_ (by omega) (.inr ⟨rfl, ?_⟩)
        · show s0.fn.free ≤ t.fn.free
          omega
        · show s0.fn.free < t.fn.stack
          omega
      · rw [beq_iff_eq, Instr.a_setOpcode]
        omega
      · rw [Array.getElem?_modify, if_pos rfl, hi]
        rfl
    · refine .bind (giveAll_spec hy ho) ?_
      rintro - t ⟨hok, hev, hfree⟩
      have hroom := hok.fn.free
      rw [if_neg hcall]
      exact hret hok hev (by omega) (by omega) (.inr ⟨rfl, by omega⟩)
  · split
    · refine .bind (toAnyRegister_spec hy) ?_
      rintro _ t ⟨reg, rfl, hok, hev, hreg⟩
      have hroom := hok.fn.free
      have hle := hev.active ▸ hy.base
      refine hret hok hev ?_ ?_ (.inl ⟨by omega, ?_⟩)
      · rcases hreg with hreg | hreg <;> omega
      · rcases hreg with hreg | hreg <;> simp only [Operand.plain] <;> omega
      · rcases hreg with hreg | hreg <;> simp only [Operand.plain] <;> omega
    · refine .bind (toNextRegister_spec hy) ?_
      rintro - t ⟨-, hok, hev, hfree⟩
      have hroom := hok.fn.free
      rw [ensures_bind, ensures_getFn, ensures_bind, ensures_require (by simp; omega)]
      exact hret hok hev (by omega) (by omega) (.inl ⟨by omega, by omega⟩)

end Returns

/-! ## Assignments -/

section Assignments
variable {v : Operand} {targets : List Operand}

theorem Yields.of_top (hok : s.Ok H) (hle : s.fn.active + 1 ≤ s.fn.free) :
    Yields (s.withFree (s.fn.free - 1)) H (.plain .nonRelocatable (s.fn.free - 1)) s [] [] := by
  have hroom := hok.fn.free
  have hpos := hok.fn.active.1
  refine .of_plain (hok.withFree (by omega)) (show s.fn.active ≤ s.fn.free - 1 by omega) hok
    { Evolves.refl s with } (by simp) (.inr ⟨rfl, ?_⟩)
  show s.fn.free = s.fn.free - 1 + 1
  omega

theorem Gen.storeAll_spec (hok : s.Ok H) (hts : ∀ t ∈ targets, t.Assignable s.fn)
    (hle : s.fn.active + targets.length ≤ s.fn.free) : (storeAll targets).Ensures s fun _ t => t.Ok H ∧ Evolves s t ∧
      t.fn.free = s.fn.free - targets.length := by
  induction targets generalizing s with
  | nil => exact ⟨hok, .refl s, by simp⟩
  | cons t rest ih =>
    simp only [List.length_cons] at hle
    unfold storeAll
    rw [ensures_bind, ensures_getFn]
    refine .bind (store_spec (.of_top hok (by omega)) rfl (hts t (by simp))) ?_
    rintro - u ⟨hok', hev, hfree⟩
    have hev' : Evolves s u := (Evolves.withFree s _).trans hev
    have hfree' : u.fn.free = s.fn.free - 1 := hfree
    have hactive := hev'.active
    refine (ih hok' (fun x hx => (hts x (by simp [hx])).mono hev'.active hev'.bounds)
      (by omega)).mono ?_
    rintro - w ⟨hok'', hev'', hfree''⟩
    refine ⟨hok'', hev'.trans hev'', ?_⟩
    simp only [List.length_cons]
    omega

theorem Gen.assignTo_spec (hbase : s0.fn.active ≤ s0.fn.free) (h : LastOf s0 H count e s)
    (hts : ∀ t ∈ targets, t.Assignable s0.fn) : (assignTo targets count e).Ensures s fun _ t => t.Ok H ∧ Evolves s0 t ∧
      t.fn.free = s0.fn.free := by
  have hstore : ∀ {t : GenState} {rest : List Operand}, t.Ok H → Evolves s0 t →
      (∀ x ∈ rest, x ∈ targets) → t.fn.free = s0.fn.free + rest.length →
      (storeAll rest).Ensures t fun _ u => u.Ok H ∧ Evolves s0 u ∧ u.fn.free = s0.fn.free := by
    intro t rest hok hev hsub hfree
    refine (storeAll_spec hok (fun x hx => (hts x (hsub x hx)).mono hev.active hev.bounds) ?_).mono ?_
    · rw [hev.active]
      omega
    · rintro - u ⟨hok', hev', hfree'⟩
      exact ⟨hok', hev.trans hev', by omega⟩
  unfold assignTo
  by_cases hc : count = (targets.length : Int)
  · rw [if_pos hc]
    obtain ⟨hcount, s1, ts, fs, hev1, hfree1, hy⟩ := h
    cases targets with
    | nil => simp at hc; omega
    | cons t rest =>
      refine .bind (giveOne_spec hy) ?_
      rintro e' u ⟨hy', ho⟩
      refine .bind (store_spec hy' ho ((hts t (by simp)).mono hev1.active hev1.bounds)) ?_
      rintro - w ⟨hok, hev, hfree⟩
      simp only [List.length_cons] at hc
      exact hstore hok (hev1.trans hev) (by simp +contextual) (by omega)
  · rw [if_neg hc]
    refine .bind (adjustTo_spec (.inr h) (Int.natCast_nonneg _)) ?_
    rintro - t ⟨hok, hev, hfree⟩
    have hroom := hok.fn.free
    have hpos := hok.fn.active.1
    have hactive := hev.active
    by_cases hgt : count > (targets.length : Int)
    · rw [if_pos hgt, ensures_bind, ensures_modifyFn]
      exact hstore (hok.withFree (r := t.fn.free - (count - targets.length)) (by omega))
        (hev.trans (.withFree ..)) (fun _ hx => hx)
        (show t.fn.free - (count - targets.length) = _ by omega)
    · rw [if_neg hgt]
      exact hstore hok hev (fun _ hx => hx) (by omega)

theorem Gen.avoid_eq_self {copy : Int} {t : Operand} (h : (avoid v copy t).2 = false) : (avoid v copy t).1 = t := by
  unfold avoid at h ⊢
  split
  · rename_i inUpvalue key hk
    simp only [hk, decide_eq_false_iff_not, not_or] at h ⊢
    rw [if_neg h.1, if_neg h.2, ← hk]
  · rfl

theorem Gen.avoid_assignable {copy : Int} {t : Operand} {f : Func} (h : t.Assignable f)
    (hcopy : 0 ≤ copy ∧ copy < f.stack) : (avoid v copy t).1.Assignable f := by
  unfold avoid
  split
  · rename_i inUpvalue key hk
    simp only [Operand.Assignable, hk] at h
    simp only
    split_ifs <;> cases inUpvalue <;> simp only [Operand.Assignable] <;> tauto
  · exact h

theorem Gen.protectTargets_eq (h : v.kind ≠ .local ∧ v.kind ≠ .upvalue) : protectTargets targets v = pure targets := by
  have hno : ∀ copy t, (avoid v copy t).2 = false := by
    intro copy t
    unfold avoid
    split
    · rename_i inUpvalue key hk
      cases inUpvalue <;> simp [h.1, h.2]
    · rfl
  have hmap : ∀ copy, (targets.map (avoid v copy)).map (·.1) = targets := by
    intro copy
    rw [List.map_map]
    exact List.map_id'' (fun t => avoid_eq_self (hno copy t)) targets
  have hany : ∀ copy, (targets.map (avoid v copy)).any (·.2) = false := by
    simp [hno]
  unfold protectTargets
  simp only [hany, hmap]
  rfl

/-- A variable is copied into the next register. The register is only reserved after the instruction
that fills it. -/
theorem Gen.saveCopy_spec {op : Opcode} {info : Int} (hok : s.Ok H)
    (hop : op = .getUpval ∧ 0 ≤ info ∧ info < s.fn.upvalues.size ∨ op = .move ∧ 0 ≤ info ∧ info < s.fn.stack) :
    (do
      let _ ← emitABC op s.fn.free info 0
      reserve 1 : Gen Unit).Ensures s fun _ t => t.Ok H ∧ Evolves s t ∧
        t.fn.free = s.fn.free + 1 := by
  have hstack := hok.fn.stack
  have hfree := hok.fn.free
  have hup := hok.fn.upvalues
  have henc := encodes_abc op (a := s.fn.free) (b := info) (c := 0)
    (by simp only [maxA]; omega) (by simp only [maxB]; omega) (by decide)
  have hmode : op.info.mode = .abc ∧ op.info.b ≠ .unused ∧
      op ∉ [.eq, .lt, .le, .test, .testSet, .loadKX, .setList, .tForCall, .loadBool] := by
    rcases hop with ⟨rfl, -⟩ | ⟨rfl, -⟩ <;> decide
  rw [ensures_bind, ensures_emitABC hok.fn.isOpen hmode.1 (.inl hmode.2.1) (.inr rfl)
    (by simp only [maxA, maxB, maxC]; omega), ensures_reserve (s := s.push _) hstack.2]
  intro hle
  have hle' : s.fn.free + 1 ≤ 249 := hle
  have hres := hok.reserved (n := 1) (by omega) hle'
  have hroom : s.fn.free + 1 ≤ (s.reserved 1).fn.stack := hres.fn.free.2
  have hmono : s.fn.stack ≤ (s.reserved 1).fn.stack := le_max_left ..
  have hupv : (s.reserved 1).fn.upvalues.size = s.fn.upvalues.size := rfl
  obtain ⟨hjump, hextra⟩ := not_isJump_of_mode henc.op (.inl hmode.1)
  refine ⟨hres.push ?_ (Instr.next?_eq_none henc.op hmode.2.2) hjump hextra,
    (Evolves.reserved s 1).trans (.push_abc _ _ _ _ hres.fn.target.2 hmode.1), rfl⟩
  have ha := henc.a
  have hb := henc.b
  rcases hop with ⟨rfl, hop⟩ | ⟨rfl, hop⟩ <;>
    simp only [Instr.Fits, henc.op, Func.bounds] <;> omega

theorem Gen.protectTargets_spec (hok : s.Ok H) (hbase : s.fn.active ≤ s.fn.free)
    (hts : ∀ t ∈ targets, t.Assignable s.fn) (hv : v.Assignable s.fn) :
    (protectTargets targets v).Ensures s fun ts' t => t.Ok H ∧ Evolves s t ∧
      s.fn.free ≤ t.fn.free ∧ ∀ x ∈ ts', x.Assignable t.fn := by
  by_cases hkind : v.kind = .local ∨ v.kind = .upvalue
  · have hop : (if v.kind = .upvalue then Opcode.getUpval else .move) = .getUpval ∧ 0 ≤ v.info ∧
        v.info < s.fn.upvalues.size ∨ (if v.kind = .upvalue then Opcode.getUpval else .move) = .move ∧
        0 ≤ v.info ∧ v.info < s.fn.stack := by
      have hfree := hok.fn.free.2
      rcases hkind with hk | hk <;> simp only [Operand.Assignable, hk] at hv
      · exact .inr ⟨by simp [hk], hv.1, by omega⟩
      · exact .inl ⟨by simp [hk], hv⟩
    unfold protectTargets
    rw [ensures_bind, ensures_firstFree]
    by_cases hany : (targets.map (avoid v s.fn.free)).any (·.2)
    · rw [if_pos hany]
      have hsave := saveCopy_spec hok hop
      rw [ensures_bind] at hsave ⊢
      refine hsave.mono fun _ t h => ?_
      rw [ensures_bind]
      refine h.mono ?_
      rintro - u ⟨hok', hev, hfree⟩
      have hroom := hok'.fn.free
      refine ⟨hok', hev, by omega, fun x hx => ?_⟩
      simp only [List.map_map, List.mem_map, Function.comp_apply] at hx
      obtain ⟨t, ht, rfl⟩ := hx
      have := hok.fn.free.1
      exact avoid_assignable ((hts t ht).mono hev.active hev.bounds) (by omega)
    · have hall : ∀ t ∈ targets, (avoid v s.fn.free t).2 = false := by
        simpa using hany
      rw [if_neg hany]
      refine ⟨hok, .refl s, le_rfl, fun x hx => ?_⟩
      simp only [List.map_map, List.mem_map, Function.comp_apply] at hx
      obtain ⟨t, ht, rfl⟩ := hx
      rw [avoid_eq_self (hall t ht)]
      exact hts t ht
  · rw [protectTargets_eq (by tauto)]
    exact ⟨hok, .refl s, le_rfl, hts⟩

end Assignments

/-! ## Table constructors -/

section Tables
variable {base : Int} {i : Instr}

theorem Gen.storeItems_spec (hok : s.Ok H) (hbase : 0 ≤ base) (hcount : 1 ≤ count)
    (hn : 1 ≤ n ∧ base + n < s.fn.stack ∨ n = multRet ∧ base < s.fn.stack) :
    (storeItems base count n).Ensures s fun _ t => t.Ok H ∧ Evolves s t ∧ t.fn.free = base + 1 := by
  have hstack := hok.fn.stack
  have hopen := hok.fn.isOpen
  have hA : 0 ≤ base ∧ base ≤ maxA := by
    simp only [maxA]
    omega
  have hdone : ∀ {t : GenState}, t.Ok H → Evolves s t →
      (modifyFn fun f => { f with free := base + 1 }).Ensures t fun _ u =>
        u.Ok H ∧ Evolves s u ∧ u.fn.free = base + 1 := by
    intro t hok' hev
    have hle : s.fn.stack ≤ t.fn.stack := hev.bounds.stack
    exact ⟨hok'.withFree (by omega), hev.trans (.withFree ..), rfl⟩
  unfold storeItems
  rw [ensures_bind, ensures_require (by simp only [multRet] at hn; simp; omega)]
  extract_lets batch b done
  have hbatch : 1 ≤ batch := by
    have : 0 ≤ Int.tdiv (count - 1) fieldsPerFlush :=
      Int.tdiv_nonneg (by omega) (by decide)
    omega
  have hb : 0 ≤ b ∧ b ≤ maxB ∧ base + b < s.fn.stack := by
    simp only [b, multRet, maxB] at hn ⊢
    split_ifs <;> omega
  clear_value batch b
  have hfit : ∀ {c : Int} (i : Instr), i.Encodes .setList base b c → i.Fits s.fn.bounds := by
    intro c i hi
    have ha := hi.a
    have hb' := hi.b
    simp only [Instr.Fits, hi.op, Func.bounds]
    omega
  split
  · rename_i hmax
    refine .bind (emitABC_ok hok rfl (.inl (by decide)) (.inl (by decide)) hA ⟨hb.1, hb.2.1⟩
      ⟨by omega, hmax⟩ fun i hi => ⟨hfit i hi, ?_⟩) ?_
    · have hc := hi.c
      have hne : i.c ≠ 0 := by omega
      simp [Instr.next?, Instr.isTest, Instr.takesExtra, hi.op, Opcode.isTest, Opcode.info, hne]
    · rintro - t ⟨-, -, -, -, hok', hev⟩
      exact hdone hok' hev
  · split
    · rename_i hmax hmax'
      have henc := encodes_abc .setList (c := 0) hA ⟨hb.1, hb.2.1⟩ (by decide)
      have hop' := (Instr.ofAx_fields .extraArg ⟨by omega, hmax'⟩).1
      have hc : (Instr.abc Opcode.setList.code base b 0).c = 0 := by
        have := henc.c
        omega
      rw [ensures_bind, ensures_emitABC hopen rfl (.inl (by decide)) (.inl (by decide))
        ⟨hA.2, hb.2.1, by decide⟩, ensures_bind, ensures_emitExtra (s := s.push _) hopen hmax']
      refine hdone (hok.pushExtra (hfit _ henc) (by simp [Instr.takesExtra, henc.op, hc]) hop'
        fun hx => by simp [henc.op] at hx) ?_
      refine (Evolves.push_abc s _ _ _ hok.fn.target.2 rfl).trans
        (.push _ _ ?_ (by simp [Instr.isJump, hop']) (by simp [hop']))
      have := hok.fn.target.2
      simp only [GenState.push, Array.size_push]
      omega
    · exact trivial

/-- A table constructor under way. The items that are not stored yet are in the registers that were
free in `s0`, right above the table; the last one may still have to be put there. -/
structure FieldsOf (s0 : GenState) (H : Set Nat) (c : Constructor) (s : GenState) : Prop where
  start : s0.Ok H
  base : s0.fn.active ≤ c.reg
  reg : s0.fn.free = c.reg + 1
  items : c.waiting ≤ c.items
  room : 0 ≤ c.waiting ∧ c.waiting ≤ fieldsPerFlush
  rest : c.last.kind = .void ∧ c.waiting < fieldsPerFlush ∧ s.Ok H ∧ Evolves s0 s ∧
      s.fn.free = s0.fn.free + c.waiting ∨
    LastOf s0 H c.waiting c.last s

variable {c : Constructor}

theorem FieldsOf.settled (h : FieldsOf s0 H c s) (hv : c.last.kind = .void) :
    c.waiting < fieldsPerFlush ∧ s.Ok H ∧ Evolves s0 s ∧ s.fn.free = s0.fn.free + c.waiting := by
  rcases h.rest with ⟨-, hrest⟩ | ⟨-, s1, ts, fs, -, -, hy⟩
  · exact hrest
  · exact absurd hv hy.kind_ne_void

theorem Gen.closeItem_spec (h : FieldsOf s0 H c s) :
    (closeItem c).Ensures s fun c' t => FieldsOf s0 H c' t ∧ c'.last.kind = .void := by
  unfold closeItem
  split
  · rename_i hv
    exact ⟨h, hv⟩
  · rename_i hv
    obtain ⟨hcount, s1, ts, fs, hev1, hfree1, hy⟩ := h.rest.resolve_left fun hx => hv hx.1
    have hpos := h.start.fn.active.1
    have hbase := h.base
    have hreg := h.reg
    have hitems := h.items
    refine .bind (toNextRegister_spec hy) ?_
    rintro - t ⟨-, hok, hev, hfree⟩
    have hroom := hok.fn.free
    split
    · refine .bind (storeItems_spec hok (by omega) (by omega) (.inl ⟨hcount, by omega⟩)) ?_
      rintro - u ⟨hok', hev', hfree'⟩
      exact ⟨{
        start := h.start
        base := h.base
        reg := h.reg
        items := show 0 ≤ c.items by omega
        room := show (0 : Int) ≤ 0 ∧ 0 ≤ fieldsPerFlush by decide
        rest := .inl ⟨rfl, show 0 < fieldsPerFlush by decide, hok', hev1.trans (hev.trans hev'),
          show _ = _ + 0 by omega⟩ }, rfl⟩
    · rename_i hne
      exact ⟨{
        start := h.start
        base := h.base
        reg := h.reg
        items := h.items
        room := h.room
        rest := .inl ⟨rfl, lt_of_le_of_ne h.room.2 hne, hok, hev1.trans hev, show _ = _ + c.waiting by omega⟩ }, rfl⟩

theorem FieldsOf.item (h : FieldsOf s0 H c s) (hv : c.last.kind = .void) (hy : Yields s H e t ts fs) :
    FieldsOf s0 H { c with last := e, items := c.items + 1, waiting := c.waiting + 1 } t := by
  obtain ⟨hlt, -, hev, hfree⟩ := h.settled hv
  have hitems := h.items
  have hroom := h.room
  exact {
    start := h.start
    base := h.base
    reg := h.reg
    items := show c.waiting + 1 ≤ c.items + 1 by omega
    room := show 0 ≤ c.waiting + 1 ∧ c.waiting + 1 ≤ fieldsPerFlush by omega
    rest := .inr ⟨show 1 ≤ c.waiting + 1 by omega, s, ts, fs, hev,
      show _ = _ + (c.waiting + 1 - 1) by omega, hy⟩ }

theorem Gen.storeField_spec {s1 s2 : GenState} {rk : Int} (h : FieldsOf s0 H c s1)
    (hv : c.last.kind = .void) (hev2 : Evolves s1 s2) (hrk : s2.fn.bounds.HasRK rk) (hy : Yields s2 H e s ts fs) :
    (storeField c s1.fn.free rk e).Ensures s fun c' t => FieldsOf s0 H c' t ∧ c'.last.kind = .void := by
  obtain ⟨hlt, hok1, hev1, hfree1⟩ := h.settled hv
  have hpos := h.start.fn.active.1
  have hbase := h.base
  have hreg := h.reg
  refine .bind (toRK_spec hy) ?_
  rintro ⟨e', rkv⟩ t ⟨hok, hev, hnamed⟩
  have hstack := hok.fn.stack
  have hle : s0.fn.stack ≤ t.fn.stack := (hev1.trans (hev2.trans hev)).bounds.stack
  have hle1 : s1.fn.stack ≤ t.fn.stack := (hev2.trans hev).bounds.stack
  have hroom0 := h.start.fn.free
  have hroom1 := hok1.fn.free
  have hrk' := hrk.mono hev.bounds
  have hrkv := KeyPlaced.hasRK hnamed.keyPlaced hok (hev.active ▸ hy.base) hy.start.fn.free.1
  refine .bind (emitABC_ok hok rfl (.inl (by decide)) (.inl (by decide)) (by simp only [maxA]; omega)
    (hrk'.le hstack.2) (hrkv.le hstack.2) fun i hi => ⟨?_, Instr.next?_eq_none hi.op (by decide)⟩) ?_
  · have ha := hi.a
    simp only [Instr.Fits, hi.op, hi.b, hi.c]
    exact ⟨by simp only [Func.bounds]; omega, hrk', hrkv⟩
  · rintro - u ⟨-, i, -, rfl, hok', hev'⟩
    exact ⟨{
      start := h.start
      base := h.base
      reg := h.reg
      items := h.items
      room := h.room
      rest := .inl ⟨hv, hlt, hok'.withFree ⟨hroom1.1, hroom1.2.trans hle1⟩,
        hev1.trans (hev2.trans (hev.trans (hev'.trans (.withFree ..)))), hfree1⟩ }, hv⟩

theorem Gen.closeItems_spec (h : FieldsOf s0 H c s) :
    (closeItems c).Ensures s fun _ t => t.Ok H ∧ Evolves s0 t ∧ t.fn.free = s0.fn.free := by
  have hpos := h.start.fn.active.1
  have hbase := h.base
  have hreg := h.reg
  have hitems := h.items
  have hwait := h.room.1
  have hstore : ∀ {t : GenState} {n : Int}, t.Ok H → Evolves s0 t → 1 ≤ c.waiting →
      (1 ≤ n ∧ c.reg + n < t.fn.stack ∨ n = multRet ∧ c.reg < t.fn.stack) →
      (storeItems c.reg c.items n).Ensures t fun _ u =>
        u.Ok H ∧ Evolves s0 u ∧ u.fn.free = s0.fn.free := by
    intro t n hok hev hpos' hn
    refine (storeItems_spec hok (by omega) (by omega) hn).mono ?_
    rintro - u ⟨hok', hev', hfree'⟩
    exact ⟨hok', hev.trans hev', by omega⟩
  unfold closeItems
  split
  · rcases h.rest with ⟨-, -, hok, hev, hfree⟩ | ⟨hcount, -⟩
    · exact ⟨hok, hev, by omega⟩
    · omega
  · split
    · rename_i hne ho
      rcases h.rest with ⟨hv, -⟩ | ⟨hcount, s1, ts, fs, hev1, hfree1, hy⟩
      · simp [Operand.isOpen, hv] at ho
      · refine .bind (giveAll_spec hy ho) ?_
        rintro - t ⟨hok, hev, hfree⟩
        have hroom := hok.fn.free
        refine .bind (hstore hok (hev1.trans hev) hcount (.inr ⟨rfl, by omega⟩)) ?_
        exact fun _ u hu => hu
    · rcases h.rest with ⟨hv, -, hok, hev, hfree⟩ | ⟨hcount, s1, ts, fs, hev1, hfree1, hy⟩
      · have hroom := hok.fn.free
        rw [if_neg (by simp [hv])]
        exact .bind (hstore hok hev (by omega) (.inl ⟨by omega, by omega⟩)) fun _ u hu => hu
      · rw [if_pos hy.kind_ne_void, ensures_bind]
        refine (toNextRegister_spec hy).mono ?_
        rintro - t ⟨-, hok, hev, hfree⟩
        have hroom := hok.fn.free
        exact .bind (hstore hok (hev1.trans hev) hcount (.inl ⟨hcount, by omega⟩)) fun _ u hu => hu

theorem Gen.newTable_spec (hok : s.Ok H) (hbase : s.fn.active ≤ s.fn.free) :
    (emitABC .newTable 0 0 0).Ensures s fun k t => ∃ (n : Nat) (i : Instr), k = n ∧
      n = s.fn.code.size ∧ Yields s H (.plain .relocatable n) t [] [] ∧ t.fn.code[n]? = some i ∧
      i.op? = some .newTable := by
  have hstack := hok.fn.stack
  refine (emitABC_ok hok rfl (.inl (by decide)) (.inl (by decide)) (by decide) (by decide)
    (by decide) fun i hi => ⟨?_, Instr.next?_eq_none hi.op (by decide)⟩).mono ?_
  · have ha := hi.a
    simp only [Instr.Fits, hi.op, Func.bounds]
    omega
  · rintro _ _ ⟨rfl, i, hi, rfl, hok', hev⟩
    have hget : (s.push i).fn.code[s.fn.code.size]? = some i := by simp [GenState.push]
    refine ⟨_, i, rfl, rfl, .of_plain hok hbase hok' hev (by simp) ⟨?_, rfl, ?_⟩, hget, hi.op⟩
    · exact ⟨_, i, rfl, le_rfl, by simp [GenState.push], hget, ⟨_, hi.op, by decide, by simp⟩,
        hok.fn.target.2⟩
    · intro j hj hop
      obtain rfl : i = j := by simpa [GenState.push] using hj
      simp [hi.op] at hop

/-- An instruction whose result goes into the next register stays what it is, and names the register. -/
theorem Gen.toNextRegister_op {n0 p : Nat} (hok : s.Ok H)
    (hr : (Operand.plain .relocatable p).Ready n0 s.fn) (hi : s.fn.code[p]? = some i) :
    (toNextRegister (.plain .relocatable p)).Ensures s fun _ t =>
      ∃ i', t.fn.code[p]? = some i' ∧ i'.op? = i.op? ∧ (i'.a : Int) = s.fn.free := by
  have hbase := hok.fn.free
  have hrelease : releaseOperand (.plain .relocatable p) = pure () := rfl
  unfold toNextRegister
  rw [ensures_bind, discharge_of_ready hr, ensures_pure, ensures_bind, hrelease, ensures_pure,
    ensures_bind, ensures_reserve hok.fn.stack.2]
  intro hle
  have hok' := hok.reserved (n := 1) (by omega) hle
  have hreg := hok'.fn.free
  rw [ensures_bind, ensures_getFn]
  unfold toRegister
  have hfree : (s.reserved 1).fn.free = s.fn.free + 1 := rfl
  rw [ensures_bind, ensures_dischargeTo hok' (hr.mono rfl rfl (Evolves.reserved s 1).bounds)
    (by simp [Operand.plain]) (by simp [Operand.plain]) (by omega)]
  unfold joinComparison
  refine ⟨i.setA (s.fn.free + 1 - 1), ?_, by simp, ?_⟩
  · show ((s.fn.code.modify p _)[p]?) = _
    rw [Array.getElem?_modify, if_pos rfl, hi]
    rfl
  · rw [Instr.a_setA i ⟨by omega, by simp only [maxA]; omega⟩]
    omega

theorem fits_newTable {B : Bounds} (hop : i.op? = some .newTable) : i.Fits B ↔ (i.a : Int) < B.stack := by
  simp only [Instr.Fits, hop]

theorem Gen.sizeTable_spec {p : Nat} {k b c : Int} (hok : s.Ok H) (hev : Evolves s0 s)
    (hk : k = p) (hp : s0.fn.code.size ≤ p) (hi : s.fn.code[p]? = some i) (hop : i.op? = some .newTable) :
    (updateInstr k fun i => (i.setB b).setC c).Ensures s fun _ t => t.Ok H ∧ Evolves s0 t ∧ t.fn.free = s.fn.free := by
  have hlt := lt_size_of_some hi
  have hfit := hok.fn.code.fits_of_not_testSet hi (by simp [hop])
  have hop' : ((i.setB b).setC c).op? = some .newTable := by
    rw [Instr.op?_setC, Instr.op?_setB, hop]
  rw [fits_newTable hop] at hfit
  obtain ⟨hok', hev'⟩ := hok.modify (f := fun i => (i.setB b).setC c) hev hi hp
    (by simp [Instr.isJump, hop])
    (.of_fits hop hop' (.inl rfl) (.inr (by decide)) (by simp) (by
      rw [fits_newTable hop', Instr.a_setC, Instr.a_setB]
      exact hfit))
  rw [ensures_updateInstr hk hlt]
  exact ⟨hok', hev', rfl⟩

end Tables

end RegisterCompiler
