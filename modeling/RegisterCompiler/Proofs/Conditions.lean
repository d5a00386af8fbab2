import RegisterCompiler.Proofs.Arriving

/-!
# Conditions

* `jumpOn_spec` : a test and its jump are added for a value;
* `continueIfTrue_spec`, `continueIfFalse_spec` : code goes on if the value is true, or false, and
  only the jumps that leave it in the other case stay open.
-/

namespace RegisterCompiler

open Gen

section Tests
variable {s0 s t : GenState} {H : Set Nat} {e e' : Operand} {ts fs : List Nat} {i : Instr}

/-! ## Tests of values -/

/-- The value of `e`, its jumps apart, is put into the register `reg` unless it is in one. -/
def Loaded (s : GenState) (e : Operand) (u : GenState) (reg : Int) : Prop :=
  e.kind = .nonRelocatable ∧ u = s ∧ reg = e.info ∨
    e.kind ≠ .nonRelocatable ∧ reg = s.fn.free ∧
      ∃ v d, Interned (s.reserved 1) e v d ∧ Evolves (s.reserved 1) v ∧ u = v.load d reg

theorem Gen.dischargeToAny_spec (h : Yields s0 H e s ts fs) (hr : e.Ready s0.fn.code.size s.fn)
    (hk : e.kind ≠ .jump) :
    (dischargeToAny e).Ensures s fun e' t => ∃ reg,
      e' = { e with kind := .nonRelocatable, info := reg } ∧ Yields s0 H e' t ts fs ∧
      Loaded s e t reg := by
  unfold dischargeToAny
  split
  · rename_i hnon
    have he : e = { e with kind := .nonRelocatable, info := e.info } := by rw [← hnon]
    exact ⟨e.info, he, h, .inl ⟨hnon, rfl, rfl⟩⟩
  · rename_i hnon
    have hfree := h.placed.free_eq hr.isPlace hnon
    have hbase := h.start.fn.free.1
    rw [ensures_bind, ensures_reserve h.ok.fn.stack.2]
    intro hle
    have hok := h.ok.reserved (by omega) hle
    have hev := Evolves.reserved s 1
    have hfree1 : (s.reserved 1).fn.free = s0.fn.free + 1 := congrArg (· + 1) hfree
    simp only [ensures_bind, ensures_getFn]
    rw [hfree1, Int.add_sub_cancel]
    have hreg : 0 ≤ s0.fn.free ∧ s0.fn.free < (s.reserved 1).fn.stack := by
      have := hok.fn.free.2
      omega
    refine (dischargeTo_spec (h.toCarries.evolve hev hok) (hr.mono rfl rfl hev.bounds) hk hreg).mono ?_
    rintro e' t ⟨rfl, hcar, hfree2, -, v, d, hint, hev', ht⟩
    refine ⟨s0.fn.free, rfl, { toCarries := hcar, base := h.base, placed := ?_, plain := ?_ },
      .inr ⟨hnon, hfree.symm, v, d, hint, hev', ht⟩⟩
    · exact .inr ⟨rfl, hfree2.trans hfree1⟩
    · simp [Operand.isPlace]

theorem Gen.ensures_testJump {op : Opcode} {a b c : Int} {Q : JumpList → GenState → Prop}
    (hopen : s.fn.isClosed = false) (hmode : op.info.mode = .abc)
    (hb : op.info.b ≠ .unused ∨ b = 0) (hc : op.info.c ≠ .unused ∨ c = 0) (hmax : a ≤ maxA ∧ b ≤ maxB ∧ c ≤ maxC) :
    (testJump op a b c).Ensures s Q ↔
      Q (.ofHead (s.fn.code.size + 1)) ((s.push (.abc op.code a b c)).push openJump) := by
  unfold testJump
  rw [ensures_bind, ensures_emitABC hopen hmode hb hc hmax, ensures_jump (by exact hopen)]
  simp [GenState.push]

theorem Carries.pushTest (h : Carries s0 H e s ts fs) (hk : e.kind ≠ .jump)
    (hfit : i.Fits s.fn.bounds ∨ i.Awaits s.fn.bounds) (ht : i.isTest) :
    Carries s0 H { e with kind := .jump, info := s.fn.code.size + 1 }
      ((s.push i).push openJump) ts fs := by
  have hnext := Instr.next?_eq_jmp ht
  have hown : e.ownJump = [] := by simp [Operand.ownJump, hk]
  have hown' : Operand.ownJump { e with kind := .jump, info := s.fn.code.size + 1 } =
      [s.fn.code.size + 1] := by
    rfl
  have hlt : ∀ p ∈ ts ++ fs, p < s.fn.code.size := fun p hp => h.lt_size (by simpa [hown] using hp)
  have hok := h.ok
  have hapart := h.apart
  have hfresh := h.fresh
  rw [hown, List.append_nil] at hok hapart hfresh
  have hev1 := Evolves.push s i h.ok.fn.target.2 (fun hj => by
    rw [next?_of_isJump hj] at hnext
    simp at hnext) fun hop => by
    rw [Instr.next?_eq_none hop (by decide)] at hnext
    simp at hnext
  have hev2 : Evolves (s.push i) ((s.push i).push openJump) := .pushJump _ (by
    have := h.ok.fn.target.2
    simp only [GenState.push, Array.size_push]
    omega)
  exact {
    start := h.start
    evolves := h.evolves.trans (hev1.trans hev2)
    ok := by
      rw [hown', ← held_held]
      exact hok.pushTest hfit ht
    whenTrue := (h.whenTrue.push i).push openJump
    whenFalse := (h.whenFalse.push i).push openJump
    apart := by
      rw [hown', List.nodup_append]
      refine ⟨hapart, by simp, fun p hp q hq => ?_⟩
      have := hlt p hp
      obtain rfl : q = s.fn.code.size + 1 := by simpa using hq
      omega
    fresh := fun p hp => by
      rw [hown'] at hp
      rcases List.mem_append.1 hp with hp | hp
      · obtain ⟨hn, j, hj, hop⟩ := hfresh p hp
        have hp' := hlt p hp
        refine ⟨hn, j, ?_, hop⟩
        simp only [GenState.push]
        rw [getElem?_push_of_lt (by simp only [Array.size_push]; omega), getElem?_push_of_lt hp', hj]
      · obtain rfl : p = s.fn.code.size + 1 := by simpa using hp
        refine ⟨by have := h.evolves.size; omega, openJump, ?_, openJump_op, openJump_a⟩
        simp only [GenState.push]
        rw [Array.getElem?_push, if_pos (by simp)] }

def GenState.pop (s : GenState) : GenState :=
  { s with fn := { s.fn with code := s.fn.code.pop, lines := s.fn.lines.pop } }

theorem Gen.ensures_dropLastInstr {Q : Unit → GenState → Prop} (h : 0 < s.fn.code.size) :
    dropLastInstr.Ensures s Q ↔ Q () s.pop := by
  unfold dropLastInstr
  simp only [ensures_bind, ensures_getFn]
  rw [ensures_place (by omega)]
  exact Iff.rfl

theorem Carries.pop (h : Carries s0 H e s ts fs) {n : Nat}
    (hn : s0.fn.code.size ≤ n) (hsize : s.fn.code.size = n + 1) (hi : s.fn.code[n]? = some i)
    (hop : i.op? = some .not) (htarget : s.fn.lastTarget ≤ n) : Carries s0 H e s.pop ts fs := by
  have hsize' : s.pop.fn.code.size = n := by simp [GenState.pop, hsize]
  have hget : ∀ p, p < n → s.pop.fn.code[p]? = s.fn.code[p]? := fun p hp => by
    simp only [GenState.pop]
    rw [Array.getElem?_pop, if_pos (by omega)]
  -- No open jump stands where the negation stood.
  have hlt : ∀ p ∈ ts ++ fs ++ e.ownJump, p < n := fun p hp => by
    obtain ⟨-, j, hj, hjop, -⟩ := h.fresh p hp
    have hp' := lt_size_of_some hj
    have hne : p ≠ n := by
      rintro rfl
      simp [Option.some.inj (hi.symm.trans hj), hjop] at hop
    omega
  have hchain : ∀ {l : JumpList} {ps : List Nat}, Chain s.fn.code l ps →
      (∀ p ∈ ps, p ∈ ts ++ fs ++ e.ownJump) → Chain s.pop.fn.code l ps :=
    fun hl hps => hl.congr fun p hp => hget p (hlt p (hps p hp))
  have hends : Sealed s.pop.fn.code := fun k hk => by
    rw [Array.back?_eq_getElem?, hsize'] at hk
    have hlt' := lt_size_of_some hk
    rw [hsize'] at hlt'
    rw [hget _ hlt'] at hk
    have hl := h.ok.fn.code.leads (j := i) hk (by rw [Nat.sub_add_cancel (by omega), hi])
    cases hnext : k.next? with
    | none => rfl
    | some op =>
      have := hl.next op hnext
      rcases Instr.next?_mem hnext with rfl | rfl | rfl | rfl <;> simp [hop] at this
  have hold : ∀ {p : Nat} {j : Instr}, s.pop.fn.code[p]? = some j → s.fn.code[p]? = some j :=
    fun {p j} hj => by
      have hlt := lt_size_of_some hj
      rw [← hget p (by omega), hj]
  have hcode := h.ok.fn.code.pop fun j hj => by
    rw [Array.back?_eq_getElem?, hsize, Nat.add_sub_cancel, hi] at hj
    simp [← Option.some.inj hj, hop]
  exact {
    start := h.start
    evolves := { h.evolves with
      size := by rw [hsize']; exact hn
      targets := fun u hu => (h.evolves.targets u hu).pop
      kept := h.evolves.kept.trans (.of_eq fun p hp => hget p (by omega)) le_rfl
      aims := h.evolves.aims.of_jumps fun p j hj _ => hold hj
      closures := fun q j hq hj hop => by
        obtain ⟨hbx, hr⟩ := h.evolves.closures q j hq (hold hj) hop
        refine ⟨hbx, fun r hc => hr r ?_⟩
        obtain ⟨k, p, u, hk, hc⟩ := hc
        exact ⟨k, p, u, hold hk, hc⟩ }
    ok := {
      fn := { h.ok.fn with
        lines := by simp [GenState.pop, h.ok.fn.lines]
        target := ⟨h.ok.fn.target.1, by rw [hsize']; exact htarget⟩
        code := hcode }
      inner := h.ok.inner
      outer := h.ok.outer
      env := h.ok.env.congr rfl
      ends := hends
      held := fun p hp => by
        rw [hsize']
        rcases hp with hp | hp
        · exact (h.start.held p hp).trans_le hn
        · exact hlt p hp }
    whenTrue := hchain h.whenTrue fun p hp => by simp [hp]
    whenFalse := hchain h.whenFalse fun p hp => by simp [hp]
    apart := h.apart
    fresh := fun p hp => by
      obtain ⟨hp0, j, hj, hj'⟩ := h.fresh p hp
      exact ⟨hp0, j, by rw [hget p (hlt p hp), hj], hj'⟩ }

/-- A test of `e` and its jump, which is taken if `e` is as `cond` says. The operand of a negation is
tested itself, for the opposite; any other value is stored where the jump leads to. -/
def TestedOn (e : Operand) (cond : Bool) (s t : GenState) : Prop :=
  (∃ i, e.kind = .relocatable ∧ s.fn.code.back? = some i ∧ i.op? = some .not ∧
      t = (s.pop.push (.abc Opcode.test.code i.b 0 (if cond then 0 else 1))).push openJump) ∨
    ∃ u reg, Loaded s e u reg ∧
      t = ((u.withFree t.fn.free).push
        (.abc Opcode.testSet.code noRegister reg (if cond then 1 else 0))).push openJump

structure JumpAdded (s0 : GenState) (H : Set Nat) (e e' : Operand) (away : JumpList) (t : GenState)
    (ts fs : List Nat) : Prop where
  whenTrue : e'.whenTrue = e.whenTrue
  whenFalse : e'.whenFalse = e.whenFalse
  carries : ∃ n : Nat, Carries s0 H { e' with kind := .jump, info := n } t ts fs ∧
    Chain t.fn.code away [n] ∧ t.fn.code.size = n + 1
  free : t.fn.free = s0.fn.free

theorem Carries.jumpAdded (h : Carries s0 H e s ts fs) (hk : e.kind ≠ .jump)
    (hfit : i.Fits s.fn.bounds ∨ i.Awaits s.fn.bounds) (ht : i.isTest) (hfree : s.fn.free = s0.fn.free) :
    JumpAdded s0 H e e (.ofHead (s.fn.code.size + 1)) ((s.push i).push openJump) ts fs := by
  refine ⟨rfl, rfl, ⟨s.fn.code.size + 1, h.pushTest hk hfit ht, ?_, by simp [GenState.push]⟩, hfree⟩
  refine .single (i := openJump) ?_ openJump_isJump openJump_sbx
  simp only [GenState.push]
  rw [Array.getElem?_push, if_pos (by simp)]

theorem Gen.jumpOn_spec {cond : Bool} (h : Yields s0 H e s ts fs)
    (hr : e.Ready s0.fn.code.size s.fn) (hk : e.kind ≠ .jump) :
    (jumpOn e cond).Ensures s fun r t => JumpAdded s0 H e r.1 r.2 t ts fs ∧ TestedOn e cond s t := by
  have hbase := h.start.fn.free.1
  have hstack := h.ok.fn.stack
  have hbyTest : (do
      let e ← dischargeToAny e
      releaseOperand e
      return (e, ← testJump .testSet noRegister e.info (if cond then 1 else 0)) :
        Gen (Operand × JumpList)).Ensures s fun r t => JumpAdded s0 H e r.1 r.2 t ts fs ∧
      TestedOn e cond s t := by
    refine .bind (dischargeToAny_spec h hr hk) ?_
    rintro e1 u ⟨reg, rfl, h1, hload⟩
    have hinfo : 0 ≤ reg ∧ reg < u.fn.stack := h1.ready rfl
    have hstack1 := h1.ok.fn.stack
    rw [ensures_bind, ensures_releaseOperand h1 rfl, ensures_bind]
    have hcar := h1.toCarries.evolve (.withFree u s0.fn.free) (h1.ok.withFree ⟨hbase, h1.room⟩)
    rw [ensures_testJump (by exact h1.ok.fn.isOpen) rfl (.inl (by decide)) (.inl (by decide))
      ⟨by decide, by simp only [maxB]; omega, by cases cond <;> decide⟩]
    have henc := encodes_abc .testSet (a := noRegister) (b := reg) (c := if cond then 1 else 0)
      (by decide) (by simp only [maxB]; omega) (by cases cond <;> decide)
    refine ⟨?_, .inr ⟨u, reg, hload, rfl⟩⟩
    obtain ⟨-, -, hadd, hfree⟩ := hcar.jumpAdded (by simp)
      (.inr ⟨henc.op, henc.b.trans_lt hinfo.2⟩)
      (by simp [Instr.isTest, henc.op, Opcode.isTest, Opcode.info]) rfl
    exact ⟨rfl, rfl, hadd, hfree⟩
  unfold jumpOn
  extract_lets byTest
  split
  · rename_i hrel
    have hready := hr
    simp only [Operand.Ready, hrel] at hready
    obtain ⟨n, i, hinfo, hn, hsize, hi, -, htarget⟩ := hready
    rw [ensures_bind, ensures_instrAt hinfo hi]
    split
    · rename_i hop
      have hfree := h.placed.free_eq hr.isPlace (by simp [hrel])
      rw [ensures_bind, ensures_dropLastInstr (by omega), ensures_bind]
      have hcar := h.toCarries.pop hn hsize hi hop htarget
      have hb : (i.b : Int) < s.fn.stack := by
        have hfit := h.ok.fn.code.fits_of_not_testSet hi (by simp [hop])
        simp only [Instr.Fits, hop, Func.bounds] at hfit
        exact hfit.2
      have hA : 0 ≤ (i.b : Int) ∧ (i.b : Int) ≤ maxA := by simp only [maxA]; omega
      rw [ensures_testJump (by exact h.ok.fn.isOpen) rfl (.inr rfl) (.inl (by decide))
        ⟨hA.2, by decide, by cases cond <;> decide⟩]
      have henc := encodes_abc .test (b := 0) (c := if cond then 0 else 1) hA (by decide)
        (by cases cond <;> decide)
      have hfit : Instr.Fits s.fn.bounds
          (.abc Opcode.test.code i.b 0 (if cond then 0 else 1)) := by
        simp only [Instr.Fits, henc.op]
        exact henc.a.trans_lt hb
      refine ⟨hcar.jumpAdded hk (.inl hfit)
        (by simp [Instr.isTest, henc.op, Opcode.isTest, Opcode.info]) hfree, .inl ⟨i, hrel, ?_, hop, rfl⟩⟩
      rw [Array.back?_eq_getElem?, hsize, Nat.add_sub_cancel, hi]
    · exact hbyTest
  · exact hbyTest

def Instr.flip (i : Instr) : Instr :=
  i.setA (1 - i.a)

theorem Instr.isComparison_cases (h : i.isComparison) : ∃ op, i.op? = some op ∧ (op = .eq ∨ op = .lt ∨ op = .le) := by
  simp only [Instr.isComparison, Bool.or_eq_true, beq_iff_eq] at h
  rcases h with (h | h) | h <;> simp [h]

theorem fits_comparison {B : Bounds} {op : Opcode} (hop : i.op? = some op)
    (hcmp : op = .eq ∨ op = .lt ∨ op = .le) : i.Fits B ↔ B.HasRK i.b ∧ B.HasRK i.c := by
  rcases hcmp with rfl | rfl | rfl <;> simp only [Instr.Fits, hop]

theorem Changes.flip {B : Bounds} {p : Nat} (h : i.isComparison) (hfit : i.Fits B) : Changes B H p i i.flip := by
  obtain ⟨op, hop, hcmp⟩ := Instr.isComparison_cases h
  have hop' : i.flip.op? = some op := (Instr.op?_setA _ i).trans hop
  have hb : i.flip.b = i.b := Instr.b_setA _ i
  have hc : i.flip.c = i.c := Instr.c_setA _ i
  refine .of_fits hop hop' (.inl (by rcases hcmp with rfl | rfl | rfl <;> rfl)) (.inl hc)
    (by rcases hcmp with rfl | rfl | rfl <;> simp) ?_
  rwa [fits_comparison hop' hcmp, hb, hc, ← fits_comparison hop hcmp]

theorem Gen.flipTest_spec (h : Carries s0 H e s ts fs) (hr : e.Ready s0.fn.code.size s.fn) (hk : e.kind = .jump) :
    (flipTest e).Ensures s fun _ t => ∃ n : Nat, e.info = n + 1 ∧
      t = s.setCode (s.fn.code.modify n Instr.flip) ∧ Carries s0 H e t ts fs ∧ e.Ready s0.fn.code.size t.fn := by
  have hready := hr
  simp only [Operand.Ready, hk] at hready
  obtain ⟨n, i, hinfo, hn, hsize, hi, hcmp, hjump⟩ := hready
  obtain ⟨op, hop, hcases⟩ := Instr.isComparison_cases hcmp
  have hplace : deciding s.fn.code (n + 1) = n := by
    have ht : i.isTest := by
      rcases hcases with rfl | rfl | rfl <;>
        simp [Instr.isTest, hop, Opcode.isTest, Opcode.info]
    simp [deciding, hi, ht]
  unfold flipTest
  rw [hinfo, show (n : Int) + 1 = ((n + 1 : Nat) : Int) by rfl, ensures_bind,
    ensures_decidingPlace (by omega), hplace, ensures_bind, ensures_instrAt rfl hi, ensures_bind,
    ensures_require, ensures_updateInstr rfl (by omega)]
  · have hfit := h.ok.fn.code.fits_of_not_testSet hi (by
      rcases hcases with rfl | rfl | rfl <;> simp [hop])
    have hcar := h.modify (f := Instr.flip) hi hn
      (by rcases hcases with rfl | rfl | rfl <;> simp [Instr.isJump, hop]) (.flip hcmp hfit)
    refine ⟨n, rfl, rfl, hcar, ?_⟩
    simp only [Operand.Ready, hk]
    refine ⟨n, i.flip, hinfo, hn, by simpa using hsize, ?_, ?_, ?_⟩
    · rw [Array.getElem?_modify, if_pos rfl, hi]
      rfl
    · rwa [Instr.isComparison, show i.flip.op? = i.op? from Instr.op?_setA _ i]
    · rw [Array.getElem?_modify, if_neg (by omega), hjump]
  · rcases hcases with rfl | rfl | rfl <;> simp [hop, Opcode.isTest, Opcode.info]

end Tests

/-! ## Conditions -/

section Branch
variable {s0 s t : GenState} {H : Set Nat} {e e' : Operand} {ts fs : List Nat}

theorem Gen.redirect_spec {l l' away : JumpList} {ps qs ws : List Nat} {f : JumpList → Operand}
    (h0 : s0.Ok H) (hev : Evolves s0 s) (hok : s.Ok (Held H (ps ++ qs ++ ws)))
    (hps : Chain s.fn.code l ps) (hqs : Chain s.fn.code l' qs) (hws : Chain s.fn.code away ws)
    (hapart : (ps ++ qs ++ ws).Nodup)
    (hfresh : ∀ p ∈ ps ++ qs ++ ws, IsFresh s0.fn.code.size s.fn.code p) :
    (do
      let l ← concat l away
      aimHere l'
      return f l : Gen Operand).Ensures s fun e' t => ∃ l code1 code2, e' = f l ∧
        t = s.marked.setCode code2 ∧ t.Ok (Held H (ps ++ ws)) ∧ Evolves s0 t ∧
        Chain code2 l (ps ++ ws) ∧ (∀ p ∈ ps ++ ws, IsFresh s0.fn.code.size code2 p) ∧
        Relinked ps s.fn.code code1 ∧
        Patched qs s.fn.code.size noRegister s.fn.code.size code1 code2 := by
  obtain ⟨hleft, -, hd⟩ := List.nodup_append.1 hapart
  obtain ⟨-, -, hd'⟩ := List.nodup_append.1 hleft
  refine .bind (concat_ok hok hps hws (fun p hp hq => hd p (by simp [hp]) p hq rfl)
    (by simp +contextual)) ?_
  rintro r _ ⟨code1, rfl, hchain, hlink, hrev, hok1⟩
  have hmem : ∀ p, p ∈ ps ++ qs ++ ws ↔ p ∈ qs ++ (ps ++ ws) := by
    simp only [List.mem_append]
    tauto
  rw [held_congr hmem] at hok1
  have hfresh1 : ∀ p ∈ ps ++ qs ++ ws, IsFresh s0.fn.code.size code1 p :=
    fun p hp => (hfresh p hp).relinked hlink
  have hev1 : Evolves s0 (s.setCode code1) :=
    hev.setCode hrev (hlink.kept fun p hp => (hfresh p (by simp [hp])).1)
      (hev.aims.relinked hlink hchain fun p hp => (hfresh p (by
        simp only [List.mem_append] at hp ⊢
        tauto)).1)
  refine .bind (aimHere_ok hok1 (hqs.relinked hlink fun p hp hq => hd' p hp p hq rfl) fun p hp => ?_) ?_
  · obtain ⟨-, i, hi, hop, -⟩ := hfresh1 p (by simp [hp])
    exact ⟨i, hi, hop⟩
  rintro - _ ⟨code2, rfl, hpat, hrev2, hok2⟩
  have hnot : ∀ p ∈ ps ++ ws, p ∉ qs := fun p hp hq => by
    rcases List.mem_append.1 hp with hp | hp
    · exact hd' p hp p hq rfl
    · exact hd p (by simp [hq]) p hp rfl
  have hsize : code1.size = s.fn.code.size := hlink.size
  have hev2 := (hev1.trans (.marked _ hok1.fn.target.2)).setCode hrev2 (hpat.kept
    (fun p hp => (hfresh p (by simp [hp])).1) (storesAt_of_sealed h0.ends hev1.kept))
    (hev1.aims.patched hpat (fun p hp => (hfresh1 p (by simp [hp])).isJump) fun p _ => by
      have := hev.size
      simp only [hsize, ite_self]
      omega)
  rw [hsize] at hpat
  refine ⟨r, code1, code2, rfl, ?_, hok2, hev2, hchain.patched hpat fun p hq hp => hnot p hp hq,
    fun p hp => ?_, hlink, hpat⟩
  · simp only [GenState.marked, hsize]
  · refine (hfresh1 p ?_).patched hpat (hnot p hp)
    exact (hmem p).2 (List.mem_append_right _ hp)

def Operand.swap (e : Operand) : Operand :=
  { e with whenTrue := e.whenFalse, whenFalse := e.whenTrue }

theorem Carries.swap (h : Carries s0 H e s ts fs) : Carries s0 H e.swap s fs ts := by
  have hown : e.swap.ownJump = e.ownJump := rfl
  have hperm : (fs ++ ts ++ e.ownJump).Perm (ts ++ fs ++ e.ownJump) :=
    List.perm_append_comm.append_right _
  exact {
    start := h.start
    evolves := h.evolves
    ok := by
      rw [hown, held_congr fun p => hperm.mem_iff]
      exact h.ok
    whenTrue := h.whenFalse
    whenFalse := h.whenTrue
    apart := hperm.nodup_iff.2 h.apart
    fresh := fun p hp => h.fresh p (hperm.mem_iff.1 hp) }

/-- Code goes on if the value is true: the jumps that leave when it is true arrive, and the jump
`away` joins the others. -/
theorem Gen.branch_spec {d : Operand} {away : JumpList} {f : JumpList → Operand}
    (h : Carries s0 H d s ts fs) (haway : Chain s.fn.code away d.ownJump) :
    (do
      let l ← concat d.whenFalse away
      aimHere d.whenTrue
      return f l : Gen Operand).Ensures s fun e' t => ∃ l code1 code2, e' = f l ∧
        t = s.marked.setCode code2 ∧
        Carries s0 H ⟨.void, 0, .empty, l⟩ t [] (fs ++ d.ownJump) ∧
        Relinked fs s.fn.code code1 ∧
        Patched ts s.fn.code.size noRegister s.fn.code.size code1 code2 := by
  have hs := h.swap
  have hown : d.swap.ownJump = d.ownJump := rfl
  refine (redirect_spec hs.start hs.evolves (hown ▸ hs.ok) h.whenFalse h.whenTrue haway
    (hown ▸ hs.apart) (hown ▸ hs.fresh)).mono ?_
  rintro e' t ⟨l, code1, code2, rfl, rfl, hok, hev, hchain, hfresh, hlink, hpat⟩
  refine ⟨l, code1, code2, rfl, rfl, ?_, hlink, hpat⟩
  have hnone : Operand.ownJump ⟨.void, 0, .empty, l⟩ = [] := by simp [Operand.ownJump]
  exact {
    start := h.start
    evolves := hev
    ok := by simpa [hnone] using hok
    whenTrue := .empty _
    whenFalse := hchain
    apart := by
      have hsub : (fs ++ d.ownJump).Sublist (fs ++ ts ++ d.ownJump) :=
        (List.sublist_append_left fs ts).append_right _
      simpa [hnone] using hs.apart.sublist hsub
    fresh := fun p hp => hfresh p (by simpa [hnone] using hp) }

theorem Chain.of_ownJump {code : Array Instr} (hk : e.kind ≠ .jump) : Chain code .empty e.ownJump := by
  rw [Operand.ownJump, if_neg hk]
  exact .empty _

/-- Code goes on if the value is true, and only the jumps that leave when it is false are open. -/
theorem Gen.continueIfTrue_spec (h : Yields s0 H e s ts fs) :
    (continueIfTrue e).Ensures s fun e' t => e'.whenTrue = .empty ∧ t.fn.free = s0.fn.free ∧
      ∃ fs', Carries s0 H e'.asJumps t [] fs' := by
  refine .bind (discharge_spec h) ?_
  rintro e1 s1 ⟨h1, hr, -⟩
  have hfinish : ∀ {d e2 : Operand} {away : JumpList} {u : GenState}, Carries s0 H d u ts fs →
      e2.whenTrue = d.whenTrue → e2.whenFalse = d.whenFalse →
      Chain u.fn.code away d.ownJump → u.fn.free = s0.fn.free →
      (do
        let whenFalse ← concat e2.whenFalse away
        aimHere e2.whenTrue
        return { e2 with whenFalse := whenFalse, whenTrue := .empty } : Gen Operand).Ensures u
        fun e' t => e'.whenTrue = .empty ∧ t.fn.free = s0.fn.free ∧
          ∃ fs', Carries s0 H e'.asJumps t [] fs' := by
    intro d e2 away u hd htrue hfalse haway hfree
    rw [htrue, hfalse]
    refine (branch_spec (f := fun l => { e2 with whenFalse := l, whenTrue := .empty }) hd haway).mono ?_
    rintro e' t ⟨l, code1, code2, rfl, rfl, hcar, -⟩
    exact ⟨rfl, hfree, _, hcar.congr rfl rfl (by simp [Operand.asJumps, Operand.ownJump])⟩
  split
  · rename_i hk
    rw [ensures_bind]
    refine (flipTest_spec h1.toCarries hr hk).mono ?_
    rintro - t ⟨n, -, rfl, hcar, hr'⟩
    exact hfinish hcar rfl rfl (hr'.chain hk) (h1.placed.free_eq hr.isPlace (by simp [hk]))
  case h_2 hk | h_3 _ hk | h_4 hk =>
    exact hfinish h1.toCarries rfl rfl (.of_ownJump (by simp [hk]))
      (h1.placed.free_eq hr.isPlace (by simp [hk]))
  · rename_i hk _ _ _
    refine .bind (jumpOn_spec h1 hr hk) ?_
    rintro ⟨e2, away⟩ t ⟨⟨htrue, hfalse, ⟨n, hcar, haway, -⟩, hfree⟩, -⟩
    exact hfinish hcar rfl rfl (by simpa [Operand.ownJump] using haway) hfree

/-- Code goes on if the value is false, and only the jumps that leave when it is true are open. -/
theorem Gen.continueIfFalse_spec (h : Yields s0 H e s ts fs) :
    (continueIfFalse e).Ensures s fun e' t => e'.whenFalse = .empty ∧ t.fn.free = s0.fn.free ∧
      ∃ ts', Carries s0 H e'.asJumps t ts' [] := by
  refine .bind (discharge_spec h) ?_
  rintro e1 s1 ⟨h1, hr, -⟩
  have hfinish : ∀ {d e2 : Operand} {away : JumpList} {u : GenState}, Carries s0 H d u ts fs →
      e2.whenTrue = d.whenTrue → e2.whenFalse = d.whenFalse →
      Chain u.fn.code away d.ownJump → u.fn.free = s0.fn.free →
      (do
        let whenTrue ← concat e2.whenTrue away
        aimHere e2.whenFalse
        return { e2 with whenTrue := whenTrue, whenFalse := .empty } : Gen Operand).Ensures u
        fun e' t => e'.whenFalse = .empty ∧ t.fn.free = s0.fn.free ∧
          ∃ ts', Carries s0 H e'.asJumps t ts' [] := by
    intro d e2 away u hd htrue hfalse haway hfree
    rw [htrue, hfalse]
    refine (branch_spec (f := fun l => { e2 with whenTrue := l, whenFalse := .empty }) hd.swap haway).mono ?_
    rintro e' t ⟨l, code1, code2, rfl, rfl, hcar, -⟩
    exact ⟨rfl, hfree, _, hcar.swap.congr rfl rfl (by simp [Operand.asJumps, Operand.ownJump,
      Operand.swap])⟩
  split
  · rename_i hk
    exact hfinish h1.toCarries rfl rfl (hr.chain hk)
      (h1.placed.free_eq hr.isPlace (by simp [hk]))
  case h_2 hk | h_3 hk =>
    exact hfinish h1.toCarries rfl rfl (.of_ownJump (by simp [hk]))
      (h1.placed.free_eq hr.isPlace (by simp [hk]))
  · rename_i hk _ _
    refine .bind (jumpOn_spec h1 hr hk) ?_
    rintro ⟨e2, away⟩ t ⟨⟨htrue, hfalse, ⟨n, hcar, haway, -⟩, hfree⟩, -⟩
    exact hfinish hcar rfl rfl (by simpa [Operand.ownJump] using haway) hfree

end Branch

end RegisterCompiler
