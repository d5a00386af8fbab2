import RegisterCompiler.Generator.Value
import RegisterCompiler.Proofs.Operands

/-!
# Values go into registers

* `Carries.evolve` : more code leaves the jumps of an operand alone;
* `discharge_spec` : a variable becomes a value;
* `dischargeTo_spec` : the value, its jumps apart, goes into a register.
-/

namespace RegisterCompiler

open Gen

variable {i : Instr} {op : Opcode}

/-! ## New instructions -/

/-- The instruction has this operation and these operands. -/
structure Instr.Encodes (i : Instr) (op : Opcode) (a b c : Int) : Prop where
  op : i.op? = some op
  a : (i.a : Int) = a
  b : (i.b : Int) = b
  c : (i.c : Int) = c

theorem encodes_abc (op : Opcode) {a b c : Int} (ha : 0 ≤ a ∧ a ≤ maxA) (hb : 0 ≤ b ∧ b ≤ maxB)
    (hc : 0 ≤ c ∧ c ≤ maxC) : (Instr.abc op.code a b c).Encodes op a b c := by
  obtain ⟨h1, h2, h3, h4⟩ := Instr.abc_fields op ha hb hc
  exact ⟨h1, h2, h3, h4⟩

theorem not_isJump_of_mode (hop : i.op? = some op) (hmode : op.info.mode = .abc ∨ op.info.mode = .abx) :
    i.isJump = false ∧ i.op? ≠ some .extraArg := by
  rw [Instr.isJump, hop]
  cases op <;> simp [Opcode.info] at hmode ⊢

theorem not_closure_of_mode (hop : i.op? = some op) (hmode : op.info.mode = .abc) : i.op? ≠ some .closure := by
  rintro h
  cases hop.symm.trans h
  simp [Opcode.info] at hmode

theorem Evolves.push_abc (s : GenState) (a b c : Int)
    (h : s.fn.lastTarget ≤ s.fn.code.size) (hmode : op.info.mode = .abc) : Evolves s (s.push (.abc op.code a b c)) :=
  .push s _ h (by simp [(not_isJump_of_mode (Instr.op?_abc op a b c) (.inl hmode)).1])
    (not_closure_of_mode (Instr.op?_abc op a b c) hmode)

theorem Changes.of_fits {B : Bounds} {H : Set Nat} {p : Nat} {i' : Instr}
    (hop : i.op? = some op) (hop' : i'.op? = some op) (hmode : op.info.mode = .abc ∨ op.info.mode = .abx)
    (hc : i'.c = i.c ∨ op ≠ .setList ∧ op ≠ .loadBool) (hbx : op = .closure → i'.bx = i.bx)
    (hfit : i'.Fits B) : Changes B H p i i' := by
  obtain ⟨hjump, hextra⟩ := not_isJump_of_mode hop' hmode
  refine ⟨.of_op hop hop' (fun h => hextra (h ▸ hop')) hc hbx, .inl hfit,
    fun _ hj => absurd hj (by simp [hjump]), fun _ => ⟨?_, ?_⟩⟩
  · rintro h
    simp [Instr.isJump, hop', ← hop, h] at hjump
  · rintro h
    simp [Instr.isJump, h] at hjump

theorem fits_vararg {B : Bounds} (hop : i.op? = some .vararg) :
    i.Fits B ↔ (i.b = 0 → (i.a : Int) < B.stack) ∧ (i.a : Int) + i.b ≤ B.stack + 1 := by
  simp only [Instr.Fits, hop]

section Steps
variable {s : GenState} {H : Set Nat}

theorem Gen.emitABC_ok {a b c : Int} (h : s.Ok H) (hmode : op.info.mode = .abc)
    (hb0 : op.info.b ≠ .unused ∨ b = 0) (hc0 : op.info.c ≠ .unused ∨ c = 0)
    (ha : 0 ≤ a ∧ a ≤ maxA) (hb : 0 ≤ b ∧ b ≤ maxB) (hc : 0 ≤ c ∧ c ≤ maxC)
    (hfit : ∀ i : Instr, i.Encodes op a b c → i.Fits s.fn.bounds ∧ i.next? = none) :
    (emitABC op a b c).Ensures s fun k t => k = s.fn.code.size ∧
      ∃ i : Instr, i.Encodes op a b c ∧ t = s.push i ∧ t.Ok H ∧ Evolves s t := by
  rw [ensures_emitABC h.fn.isOpen hmode hb0 hc0 ⟨ha.2, hb.2, hc.2⟩]
  have henc := encodes_abc op ha hb hc
  obtain ⟨hjump, hextra⟩ := not_isJump_of_mode henc.op (.inl hmode)
  obtain ⟨hfit, hnext⟩ := hfit _ henc
  exact ⟨rfl, _, henc, rfl, h.push hfit hnext hjump hextra, .push_abc s _ _ _ h.fn.target.2 hmode⟩

end Steps

/-! ## Jumps of operands -/

section Carries
variable {s0 s t : GenState} {H : Set Nat} {e e' : Operand} {ts fs : List Nat}

section
variable (h : Carries s0 H e s ts fs)
include h

theorem Carries.lt_size {p : Nat} (hp : p ∈ ts ++ fs ++ e.ownJump) : p < s.fn.code.size := by
  obtain ⟨-, i, hi, -⟩ := h.fresh p hp
  exact lt_size_of_some hi

theorem Carries.room : s0.fn.free ≤ s.fn.stack :=
  h.start.fn.free.2.trans h.evolves.bounds.stack

theorem Carries.evolve (he : Evolves s t) (hok : t.Ok (Held H (ts ++ fs ++ e.ownJump))) : Carries s0 H e t ts fs where
  start := h.start
  evolves := h.evolves.trans he
  ok := hok
  whenTrue := h.whenTrue.kept he.kept fun _ hp => h.whenTrue.lt_of_mem hp
  whenFalse := h.whenFalse.kept he.kept fun _ hp => h.whenFalse.lt_of_mem hp
  apart := h.apart
  fresh p hp := by
    obtain ⟨hn, i, hi, hop, ha⟩ := h.fresh p hp
    exact ⟨hn, i, he.kept.get (h.lt_size hp) hi (by simp [hop]), hop, ha⟩

theorem Carries.congr (ht : e'.whenTrue = e.whenTrue)
    (hf : e'.whenFalse = e.whenFalse) (hown : e'.ownJump = e.ownJump) : Carries s0 H e' s ts fs :=
  ⟨h.start, h.evolves, hown ▸ h.ok, ht ▸ h.whenTrue, hf ▸ h.whenFalse, hown ▸ h.apart, hown ▸ h.fresh⟩

theorem Carries.modify {n : Nat} {f : Instr → Instr}
    (hi : s.fn.code[n]? = some i) (hn : s0.fn.code.size ≤ n) (hjump : i.isJump = false)
    (hch : Changes s.fn.bounds (Held H (ts ++ fs ++ e.ownJump)) n i (f i)) :
    Carries s0 H e (s.setCode (s.fn.code.modify n f)) ts fs := by
  obtain ⟨hcode, hrev⟩ := h.ok.fn.code.revised_modify (f := f) hi hch
  have hkeep : ∀ (p : Nat) (j : Instr), s.fn.code[p]? = some j → j.isJump →
      (s.fn.code.modify n f)[p]? = some j := by
    intro p j hj hjj
    rw [Array.getElem?_modify, if_neg, hj]
    rintro rfl
    rw [hi] at hj
    simp [← Option.some.inj hj, hjump] at hjj
  have hchain : ∀ {l : JumpList} {ps : List Nat}, Chain s.fn.code l ps →
      Chain (s.fn.code.modify n f) l ps := fun hl => hl.congr fun p hp => by
    obtain ⟨j, hj, hjj⟩ := hl.jump_of_mem hp
    rw [hkeep p j hj hjj, hj]
  exact {
    start := h.start
    evolves := h.evolves.setCode hrev
      (fun p hp => by rw [Array.getElem?_modify, if_neg (by omega)])
      (h.evolves.aims.modify hi (hch.revises.not_isJump hjump))
    ok := h.ok.setCode hrev hcode h.ok.held
    whenTrue := hchain h.whenTrue
    whenFalse := hchain h.whenFalse
    apart := h.apart
    fresh := fun p hp => by
      obtain ⟨hn, j, hj, hop, ha⟩ := h.fresh p hp
      exact ⟨hn, j, hkeep p j hj (by simp [Instr.isJump, hop]), hop, ha⟩ }

end

end Carries

/-! ## Registers of operands -/

section Release
variable {s : GenState} {H : Set Nat} {r : Int} {Q : Unit → GenState → Prop}

open Operand (InRegister KeyPlaced)

theorem Gen.ensures_release {reg : Int} (h : InRegister s.fn r reg) (hr : s.fn.active ≤ r)
    (h0 : 0 ≤ r) (hfree : s.fn.free ≤ 249) : (releaseRegister reg).Ensures s Q ↔ Q () (s.withFree r) := by
  have hrk : isConstantRK reg = false := isConstantRK_of_lt (by rcases h with h | h <;> omega)
  rw [ensures_releaseRegister (by rcases h with h | h <;> omega)]
  rcases h with ⟨-, hlt, hf⟩ | ⟨rfl, hf⟩
  · rw [if_neg (by omega), ← hf]
    rfl
  · rw [if_pos ⟨hrk, hr⟩, hf, Int.add_sub_cancel]

theorem Gen.ensures_releaseKey {key : Int} (h : KeyPlaced s.fn r key) (hr : s.fn.active ≤ r)
    (h0 : 0 ≤ r) (hfree : s.fn.free ≤ 249) : (releaseRegister key).Ensures s Q ↔ Q () (s.withFree r) := by
  rcases h with ⟨h1, h2, -, hf⟩ | h
  · have hrk := isConstantRK_of_ge ⟨h1, h2⟩
    rw [ensures_releaseRegister (by simp [hrk]), if_neg (by simp [hrk]), ← hf]
    rfl
  · exact ensures_release h hr h0 hfree

theorem KeyPlaced.hasRK {key : Int} (h : KeyPlaced s.fn r key) (hok : s.Ok H)
    (hr : s.fn.active ≤ r) (h0 : 0 ≤ r) : s.fn.bounds.HasRK key := by
  have := hok.fn.free
  rcases h with h | h | h <;> simp only [Bounds.HasRK, Func.bounds] <;> omega

end Release

/-! ## Variables become values -/

section Discharge
variable {s0 s t : GenState} {H : Set Nat} {e e' : Operand} {ts fs : List Nat}

theorem Yields.active_le (h : Yields s0 H e s ts fs) : s.fn.active ≤ s0.fn.free :=
  h.evolves.active ▸ h.base

theorem Yields.ready (h : Yields s0 H e s ts fs) (hk : e.isPlace = false) : e.Ready s0.fn.code.size s.fn := by
  have hplaced := h.placed
  have hactive := h.active_le
  have hbase := h.start.fn.free.1
  have hfree := h.ok.fn.free
  unfold Operand.Placed at hplaced
  cases hkind : e.kind <;> simp only [hkind, Operand.isPlace] at hplaced hk
  case nonRelocatable =>
    simp only [Operand.Ready, hkind]
    rcases hplaced with h | h <;> omega
  all_goals first | exact hplaced.1 | simp at hk

theorem Operand.Placed.free_eq {n0 : Nat} {r : Int} {f : Func} (h : e.Placed n0 r f)
    (hp : e.isPlace = false) (hk : e.kind ≠ .nonRelocatable) : f.free = r := by
  unfold Operand.Placed at h
  unfold Operand.isPlace at hp
  cases hkind : e.kind <;> simp only [hkind] at h hp hk
  case relocatable => exact h.2.1
  all_goals first | exact h.2 | simp at hp | simp at hk

theorem Instr.Relocates.mode (h : i.Relocates) :
    ∃ op, i.op? = some op ∧ (op.info.mode = .abc ∨ op.info.mode = .abx) := by
  obtain ⟨op, hi, hrel, -⟩ := h
  refine ⟨op, hi, ?_⟩
  cases op <;> simp [Opcode.relocates] at hrel <;> simp [Opcode.info]

theorem Instr.Relocates.not_isJump (h : i.Relocates) : i.isJump = false := by
  obtain ⟨op, hop, hmode⟩ := h.mode
  exact (not_isJump_of_mode hop hmode).1

theorem Carries.yield_push (h : Carries s0 H e s ts fs) (hbase : s0.fn.active ≤ s0.fn.free)
    (hkind : e.isPlace) (hplain : ts = [] ∧ fs = []) (hfree : s.fn.free = s0.fn.free)
    (hi : i.Relocates) (hop : i.op? ≠ some .concat ∧ i.op? ≠ some .closure)
    (hok : (s.push i).Ok H)
    (he : e' = { e with kind := .relocatable, info := s.fn.code.size }) :
    Yields s0 H e' (s.push i) ts fs ∧ e'.Ready s0.fn.code.size (s.push i).fn := by
  have hown : e.ownJump = [] := by
    unfold Operand.ownJump
    rw [if_neg]
    intro hj
    simp [Operand.isPlace, hj] at hkind
  have hown' : e'.ownJump = [] := by simp [he, Operand.ownJump]
  have hready : e'.Ready s0.fn.code.size (s.push i).fn := by
    simp only [he, Operand.Ready]
    exact ⟨_, i, rfl, h.evolves.size, by simp [GenState.push], by simp [GenState.push], hi,
      h.ok.fn.target.2⟩
  have hcar : Carries s0 H e (s.push i) ts fs :=
    h.evolve (.push s i h.ok.fn.target.2 (by simp [hi.not_isJump]) hop.2)
      (by simpa [hplain, hown] using hok)
  refine ⟨{ hcar.congr (by simp [he]) (by simp [he]) (hown'.trans hown.symm) with
    base := hbase
    placed := ?_
    plain := fun _ => hplain }, hready⟩
  have hk : e'.kind = .relocatable := by simp [he]
  simp only [Operand.Placed, hk]
  refine ⟨hready, hfree, fun j hj hjop => ?_⟩
  obtain rfl : i = j := by simpa [GenState.push] using hj
  exact absurd hjop hop.1

/-- A field is fetched by one instruction, once the registers of key and table are released. -/
theorem Gen.discharge_indexed {inUpvalue : Bool} {key : Int} (h : Yields s0 H e s ts fs)
    (hk : e.kind = .indexed inUpvalue key) :
    (do
      releaseRegister key
      if !inUpvalue then releaseRegister e.info
      let op := if inUpvalue then .getTabUp else .getTable
      return { e with info := ← emitABC op 0 e.info key, kind := .relocatable } :
        Gen Operand).Ensures s fun e' t => Yields s0 H e' t ts fs ∧ e'.Ready s0.fn.code.size t.fn ∧
          t.fn.free = s0.fn.free := by
  have hplaced := h.placed
  have hactive := h.active_le
  have hbase := h.start.fn.free.1
  have hroom := h.room
  have hstack := h.ok.fn.stack
  have hfree := h.ok.fn.free
  have hplain := h.plain (by simp [Operand.isPlace, hk])
  have hok : s.Ok H := by simpa [hplain, Operand.ownJump, hk] using h.ok
  have hmax := hok.fn.upvalues
  have hget : ∀ {op : Opcode}, op = (if inUpvalue then .getTabUp else .getTable) →
      (∀ i : Instr, i.Encodes op 0 e.info key → i.Fits s.fn.bounds) →
      0 ≤ e.info ∧ e.info ≤ maxB → 0 ≤ key ∧ key ≤ maxC →
      (do return { e with info := ← emitABC op 0 e.info key, kind := .relocatable } :
        Gen Operand).Ensures (s.withFree s0.fn.free) fun e' t =>
          Yields s0 H e' t ts fs ∧ e'.Ready s0.fn.code.size t.fn ∧ t.fn.free = s0.fn.free := by
    intro op hop hfit hb hc
    have hop' : op.info.mode = .abc ∧ op.info.b ≠ .unused ∧ op.info.c ≠ .unused ∧
        op ∉ [.eq, .lt, .le, .test, .testSet, .loadKX, .setList, .tForCall, .loadBool] ∧
        op.relocates ∧ op ≠ .vararg ∧ op ≠ .concat ∧ op ≠ .closure := by
      cases inUpvalue <;> subst hop <;> decide
    have hok1 : (s.withFree s0.fn.free).Ok H := hok.withFree (by omega)
    have hcar : Carries s0 H e (s.withFree s0.fn.free) ts fs :=
      h.toCarries.evolve (.withFree s _) (by simpa [hplain, Operand.ownJump, hk] using hok1)
    refine .bind (emitABC_ok hok1 hop'.1 (.inl hop'.2.1) (.inl hop'.2.2.1) (by decide) hb hc
      fun i hi => ⟨hfit i hi, Instr.next?_eq_none hi.op hop'.2.2.2.1⟩) ?_
    rintro _ _ ⟨rfl, i, hi, rfl, hok', -⟩
    obtain ⟨hy, hr⟩ := hcar.yield_push h.base (by simp [Operand.isPlace, hk]) hplain rfl
      ⟨_, hi.op, hop'.2.2.2.2.1, fun hv => absurd hv hop'.2.2.2.2.2.1⟩
      (by simpa [hi.op] using hop'.2.2.2.2.2.2) hok' rfl
    exact ⟨hy, hr, rfl⟩
  cases inUpvalue with
  | true =>
    simp only [Operand.Placed, hk] at hplaced
    obtain ⟨h1, h2, hkey⟩ := hplaced
    have hrk := KeyPlaced.hasRK hkey hok hactive hbase
    have hrk' := hrk.le hok.fn.stack.2
    simp only [ensures_bind]
    rw [ensures_releaseKey hkey hactive hbase (by omega)]
    refine hget rfl (fun i hi => ?_) (by simp only [maxB]; omega) hrk'
    have ha := hi.a
    have hb := hi.b
    simp only [Instr.Fits, hi.op, hi.c]
    exact ⟨by simp only [Func.bounds]; omega, by simp only [Func.bounds]; omega, hrk⟩
  | false =>
    simp only [Operand.Placed, hk] at hplaced
    have hkey : ∃ r', (r' = s0.fn.free ∧ 0 ≤ e.info ∧ e.info < s.fn.active ∨
        r' = s0.fn.free + 1 ∧ e.info = s0.fn.free) ∧ Operand.KeyPlaced s.fn r' key := by
      rcases hplaced with ⟨h1, h2, hkey⟩ | ⟨h1, hkey⟩
      · exact ⟨_, .inl ⟨rfl, h1, h2⟩, hkey⟩
      · exact ⟨_, .inr ⟨rfl, h1⟩, hkey⟩
    obtain ⟨r', hinfo, hkey⟩ := hkey
    have hrk := KeyPlaced.hasRK hkey hok (by omega) (by omega)
    have hrk' := hrk.le hok.fn.stack.2
    have hle : r' ≤ s.fn.free := by rcases hkey with hkey | hkey | hkey <;> omega
    simp only [ensures_bind]
    rw [ensures_releaseKey hkey (by omega) (by omega) (by omega)]
    simp only [Bool.not_false, if_true]
    rw [ensures_bind, ensures_release (s := s.withFree r') (r := s0.fn.free) ?_ hactive hbase ?_]
    · refine hget rfl (fun i hi => ?_) (by simp only [maxB]; omega) hrk'
      have ha := hi.a
      have hb := hi.b
      simp only [Instr.Fits, hi.op, hi.c]
      exact ⟨by simp only [Func.bounds]; omega, by simp only [Func.bounds]; omega, hrk⟩
    · rcases hinfo with ⟨hr, h1, h2⟩ | ⟨hr, h1⟩
      · exact .inl ⟨h1, h2, hr⟩
      · exact .inr ⟨h1, hr⟩
    · simp only [GenState.withFree]
      omega

theorem Gen.discharge_spec (h : Yields s0 H e s ts fs) : (discharge e).Ensures s fun e' t =>
      Yields s0 H e' t ts fs ∧ e'.Ready s0.fn.code.size t.fn ∧
      (e.kind ≠ .nonRelocatable → e.kind ≠ .call → t.fn.free = s0.fn.free) := by
  have hplaced := h.placed
  have hactive := h.active_le
  have hstack := h.ok.fn.stack
  have hfree := h.ok.fn.free
  unfold discharge
  cases hk : e.kind with
  | void => simp [Operand.Placed, hk] at hplaced
  | nil | true | false | constant | number | nonRelocatable | jump | relocatable =>
    have hp : e.isPlace = false := by simp [Operand.isPlace, hk]
    exact ⟨h, h.ready hp, fun hne _ => h.placed.free_eq hp (hk ▸ hne)⟩
  | «local» =>
    simp only [Operand.Placed, hk] at hplaced
    refine ⟨{
      toCarries := h.toCarries.congr rfl rfl (by simp [Operand.ownJump, hk])
      base := h.base
      placed := .inl hplaced
      plain := fun hp => by simp [Operand.isPlace] at hp }, ?_, fun _ _ => hplaced.2.2⟩
    simp only [Operand.Ready]
    omega
  | upvalue =>
    simp only [Operand.Placed, hk] at hplaced
    have hplain := h.plain (by simp [Operand.isPlace, hk])
    have hok : s.Ok H := by simpa [hplain, Operand.ownJump, hk] using h.ok
    have hmax := hok.fn.upvalues
    refine .bind (emitABC_ok hok rfl (.inl (by decide)) (.inr rfl) (by decide)
      (by simp only [maxB]; omega) (by decide) fun i hi => ?_) ?_
    · refine ⟨?_, Instr.next?_eq_none hi.op (by decide)⟩
      have ha := hi.a
      have hb := hi.b
      simp only [Instr.Fits, hi.op, Func.bounds]
      omega
    · rintro _ _ ⟨rfl, i, hi, rfl, hok', -⟩
      obtain ⟨hy, hr⟩ := h.toCarries.yield_push h.base (by simp [Operand.isPlace, hk]) hplain
        hplaced.2.2 ⟨_, hi.op, rfl, by simp⟩ (by simp [hi.op]) hok' rfl
      exact ⟨hy, hr, fun _ _ => hplaced.2.2⟩
  | indexed inUpvalue key =>
    refine (discharge_indexed h hk).mono ?_
    rintro e' t ⟨hy, hr, hfree⟩
    exact ⟨hy, hr, fun _ _ => hfree⟩
  | call =>
    simp only [Operand.Placed, hk] at hplaced
    obtain ⟨n, i, hinfo, -, -, hi, -, ha, hf⟩ := hplaced
    have hplain := h.plain (by simp [Operand.isPlace, hk])
    simp only [giveOne, hk, ensures_bind]
    rw [ensures_instrAt hinfo hi]
    refine ⟨{
      toCarries := h.toCarries.congr rfl rfl (by simp [Operand.ownJump, hk])
      base := h.base
      placed := .inr ⟨ha, hf⟩
      plain := fun _ => hplain }, ?_, fun _ hne => absurd rfl hne⟩
    simp only [Operand.Ready]
    omega
  | vararg =>
    simp only [Operand.Placed, hk] at hplaced
    obtain ⟨n, i, hinfo, hn, hsize, hi, hop, ha, htarget, hf⟩ := hplaced
    have hplain := h.plain (by simp [Operand.isPlace, hk])
    simp only [giveOne, hk, ensures_bind]
    rw [ensures_updateInstr hinfo (by omega)]
    have hb := Instr.b_setB i (v := 2) (by decide)
    have hop' : (i.setB 2).op? = some .vararg := (Instr.op?_setB 2 i).trans hop
    have hch : Changes s.fn.bounds (Held H (ts ++ fs ++ e.ownJump)) n i (i.setB 2) := by
      refine .of_fits hop hop' (.inl rfl) (.inl (Instr.c_setB 2 i)) (by simp) ?_
      rw [fits_vararg hop', Instr.a_setB, ha]
      simp only [Func.bounds]
      omega
    have hcar := h.toCarries.modify hi hn (by simp [Instr.isJump, hop]) hch
    have hget : (s.fn.code.modify n (·.setB 2))[n]? = some (i.setB 2) := by
      rw [Array.getElem?_modify, if_pos rfl, hi]
      rfl
    have hready : Operand.Ready s0.fn.code.size (s.setCode (s.fn.code.modify n (·.setB 2))).fn
        { e with kind := .relocatable } := by
      refine ⟨n, i.setB 2, hinfo, hn, by simpa using hsize, hget,
        ⟨_, hop', rfl, fun _ => by omega⟩, htarget⟩
    refine ⟨{
      toCarries := hcar.congr rfl rfl (by simp [Operand.ownJump, hk])
      base := h.base
      placed := ⟨hready, hf, fun j hj hjop => ?_⟩
      plain := fun _ => hplain }, hready, fun _ _ => hf⟩
    rw [Array.back?_eq_getElem?, Array.size_modify, hsize, Nat.add_sub_cancel, hget] at hj
    rw [← Option.some.inj hj, hop'] at hjop
    simp at hjop

end Discharge

/-! ## Values go into registers -/

theorem Instr.Relocates.fits {B : Bounds} {i' : Instr} (h : i.Relocates) (hfit : i.Fits B)
    (hop : i'.op? = i.op?) (ha : (i'.a : Int) < B.stack) (hb : i'.b = i.b) (hc : i'.c = i.c)
    (hbx : i'.bx = i.bx) : i'.Fits B := by
  obtain ⟨op, hi, hrel, hvar⟩ := h
  unfold Instr.Fits at hfit ⊢
  rw [hop, hb, hc, hbx]
  simp only [hi] at hfit ⊢
  cases op <;> simp [Opcode.relocates] at hrel <;> simp only [Bounds.HasRK] at hfit ⊢
  case vararg =>
    have := hvar rfl
    omega
  all_goals omega

theorem Changes.setA_relocates {B : Bounds} {H : Set Nat} {p : Nat} {reg : Int}
    (h : i.Relocates) (hfit : i.Fits B) (hreg : 0 ≤ reg ∧ reg < B.stack) (hB : B.stack ≤ 249) :
    Changes B H p i (i.setA reg) := by
  obtain ⟨op, hop, hmode⟩ := h.mode
  have ha := Instr.a_setA i (v := reg) (by simp only [maxA]; omega)
  have hop' := Instr.op?_setA reg i
  have hb := Instr.b_setA reg i
  have hc := Instr.c_setA reg i
  have hbx := Instr.bx_setA reg i
  exact .of_fits hop (hop'.trans hop) hmode (.inl hc) (fun _ => hbx)
    (h.fits hfit hop' (ha.trans_lt hreg.2) hb hc hbx)

/-- The state after putting the value of an operand, its jumps apart, into a register. A numeral is
in the constants by then. -/
def GenState.load (s : GenState) (e : Operand) (reg : Int) : GenState :=
  match e.kind with
  | .nil => s.pushNils reg 1
  | .false => s.push (.abc Opcode.loadBool.code reg 0 0)
  | .true => s.push (.abc Opcode.loadBool.code reg 1 0)
  | .constant => s.pushConstant reg e.info
  | .relocatable => s.setCode (s.fn.code.modify e.info.toNat (·.setA reg))
  | .nonRelocatable => if reg ≠ e.info then s.push (.abc Opcode.move.code reg e.info 0) else s
  | _ => s

/-- A numeral is put into the constants; nothing happens to other operands. -/
def Interned (s : GenState) (e : Operand) (u : GenState) (d : Operand) : Prop :=
  match e.kind with
  | .number x => ∃ n : Nat, d = { e with kind := .constant, info := n } ∧
      u = s.withConstants u.fn.constants u.fn.constantPlaces ∧
      ∃ c, u.fn.constants[n]? = some c ∧ c.key = (Constant.number x).key
  | _ => u = s ∧ d = e

section Load
variable {s0 s t : GenState} {H : Set Nat} {e e' : Operand} {ts fs : List Nat} {reg : Int}

theorem GenState.free_pushNils (s : GenState) (first n : Int) :
    (s.pushNils first n).fn.free = s.fn.free ∧ (s.pushNils first n).fn.stack = s.fn.stack := by
  unfold GenState.pushNils
  split <;> exact ⟨rfl, rfl⟩

theorem GenState.free_pushConstant (s : GenState) (reg k : Int) :
    (s.pushConstant reg k).fn.free = s.fn.free ∧ (s.pushConstant reg k).fn.stack = s.fn.stack := by
  unfold GenState.pushConstant
  split <;> exact ⟨rfl, rfl⟩

theorem GenState.free_load (s : GenState) (e : Operand) (reg : Int) :
    (s.load e reg).fn.free = s.fn.free ∧ (s.load e reg).fn.stack = s.fn.stack := by
  unfold GenState.load
  split
  case h_1 => exact s.free_pushNils reg 1
  case h_4 => exact s.free_pushConstant reg _
  case h_6 => split <;> exact ⟨rfl, rfl⟩
  all_goals exact ⟨rfl, rfl⟩

theorem GenState.Ok.push_abc {a b c : Int} (h : s.Ok H)
    (ha : 0 ≤ a ∧ a ≤ maxA) (hb : 0 ≤ b ∧ b ≤ maxB) (hc : 0 ≤ c ∧ c ≤ maxC) (hmode : op.info.mode = .abc)
    (hfit : ∀ i : Instr, i.Encodes op a b c → i.Fits s.fn.bounds ∧ i.next? = none) :
    (s.push (.abc op.code a b c)).Ok H := by
  have henc := encodes_abc op ha hb hc
  obtain ⟨hjump, hextra⟩ := not_isJump_of_mode henc.op (.inl hmode)
  obtain ⟨hfit, hnext⟩ := hfit _ henc
  exact h.push hfit hnext hjump hextra

theorem Carries.load (h : Carries s0 H e s ts fs) (hr : e.Ready s0.fn.code.size s.fn)
    (hkind : e.kind ≠ .jump) (hreg : 0 ≤ reg ∧ reg < s.fn.stack) : Carries s0 H e (s.load e reg) ts fs := by
  have hstack := h.ok.fn.stack
  have hA : 0 ≤ reg ∧ reg ≤ maxA := by simp only [maxA]; omega
  have htarget := h.ok.fn.target.2
  unfold Operand.Ready at hr
  unfold GenState.load
  cases hk : e.kind with
  | nil =>
    obtain ⟨hok, hev⟩ := h.ok.pushNils (show 0 ≤ reg ∧ reg + 1 ≤ s.fn.stack by omega) le_rfl
    exact h.evolve hev hok
  | «false» | «true» =>
    refine h.evolve (.push_abc s _ _ _ htarget rfl) (h.ok.push_abc hA (by decide) (by decide) rfl fun i hi => ?_)
    have ha := hi.a
    have hc := hi.c
    refine ⟨?_, ?_⟩
    · simp only [Instr.Fits, hi.op, Func.bounds]
      omega
    · have hc0 : i.c = 0 := by omega
      simp [Instr.next?, Instr.isTest, Instr.takesExtra, hi.op, hc0, Opcode.isTest, Opcode.info]
  | constant =>
    simp only [hk] at hr
    obtain ⟨n, hn⟩ := Int.eq_ofNat_of_zero_le hr.1
    rw [hn] at hr ⊢
    exact h.evolve (.pushConstant s _ _ htarget) (h.ok.pushConstant hreg (by omega))
  | relocatable =>
    simp only [hk] at hr
    obtain ⟨n, i, hinfo, hn, hsize, hi, hrel, -⟩ := hr
    obtain ⟨op, hop, hmode⟩ := hrel.mode
    have hts : i.op? ≠ some .testSet := by
      rintro hts
      obtain ⟨op', hop', hrel', -⟩ := hrel
      cases hts.symm.trans hop'
      simp [Opcode.relocates] at hrel'
    rw [hinfo, Int.toNat_natCast]
    exact h.modify hi hn (not_isJump_of_mode hop hmode).1
      (.setA_relocates hrel (h.ok.fn.code.fits_of_not_testSet hi hts) hreg hstack.2)
  | nonRelocatable =>
    simp only [hk] at hr
    dsimp only
    split
    · refine h.evolve (.push_abc s _ _ _ htarget rfl) (h.ok.push_abc hA (by simp only [maxB]; omega) (by decide) rfl
        fun i hi => ⟨?_, Instr.next?_eq_none hi.op (by decide)⟩)
      have ha := hi.a
      have hb := hi.b
      simp only [Instr.Fits, hi.op, Func.bounds]
      omega
    · exact h
  | jump => exact absurd hk hkind
  | void | number | «local» | upvalue | indexed | call | vararg => exact h

theorem Gen.discharge_of_ready {n0 : Nat} {f : Func} (h : e.Ready n0 f) : discharge e = pure e := by
  unfold Operand.Ready at h
  unfold discharge
  cases hk : e.kind <;> simp only [hk] at h <;> rfl

theorem Interned.carries {u : GenState} {d : Operand} (h : Carries s0 H e s ts fs)
    (hi : Interned s e u d) (hev : Evolves s u) (hok : u.Ok (Held H (ts ++ fs ++ e.ownJump))) :
    Carries s0 H d u ts fs := by
  unfold Interned at hi
  split at hi
  · rename_i x hk
    obtain ⟨n, rfl, -, -⟩ := hi
    exact (h.evolve hev hok).congr rfl rfl (by simp [Operand.ownJump, hk])
  · obtain ⟨rfl, rfl⟩ := hi
    exact h

theorem Gen.ensures_dischargeTo {n0 : Nat} {Q : Operand → GenState → Prop} (hok : s.Ok H)
    (hr : e.Ready n0 s.fn) (hkind : e.kind ≠ .jump) (hnum : ∀ x, e.kind ≠ .number x)
    (hreg : 0 ≤ reg ∧ reg < s.fn.stack) :
    (dischargeTo e reg).Ensures s Q ↔
      Q { e with info := reg, kind := .nonRelocatable } (s.load e reg) := by
  have hclosed := hok.fn.isOpen
  have hstack := hok.fn.stack
  have hA : reg ≤ maxA := by simp only [maxA]; omega
  have hconst := hok.fn.constants
  unfold dischargeTo
  rw [discharge_of_ready hr, pure_bind]
  unfold Operand.Ready at hr
  unfold GenState.load
  cases hk : e.kind with
  | nil =>
    simp only [ensures_bind]
    rw [ensures_emitNils hclosed hok.fn.target.1 ⟨hA, by decide⟩]
    exact ensures_pure
  | «false» | «true» =>
    simp only [ensures_bind]
    rw [ensures_emitABC hclosed rfl (.inl (by decide)) (.inl (by decide)) ⟨hA, by decide, by decide⟩]
    exact ensures_pure
  | constant =>
    simp only [hk] at hr
    simp only [ensures_bind]
    rw [ensures_emitConstant hclosed (by simp only [maxConstants] at hconst; omega)]
    exact ensures_pure
  | relocatable =>
    simp only [hk] at hr
    obtain ⟨n, i, hinfo, -, hsize, -⟩ := hr
    simp only [ensures_bind]
    rw [ensures_updateInstr hinfo (by omega), hinfo]
    exact ensures_pure
  | nonRelocatable =>
    simp only [hk] at hr
    dsimp only
    split
    · simp only [ensures_bind]
      rw [ensures_emitABC hclosed rfl (.inl (by decide)) (.inr rfl)
        ⟨hA, by simp only [maxB]; omega, by decide⟩]
      exact ensures_pure
    · exact ensures_pure
  | jump => exact absurd hk hkind
  | number x => exact absurd hk (hnum x)
  | void | «local» | upvalue | indexed | call | vararg => simp [hk] at hr

theorem Gen.dischargeTo_number {x : Number} (hk : e.kind = .number x) :
    dischargeTo e reg = (do
      let k ← internConstant (.number x)
      dischargeTo { e with kind := .constant, info := k } reg) := by
  unfold dischargeTo discharge
  simp only [hk, pure_bind]

theorem Gen.dischargeTo_spec (h : Carries s0 H e s ts fs) (hr : e.Ready s0.fn.code.size s.fn)
    (hkind : e.kind ≠ .jump) (hreg : 0 ≤ reg ∧ reg < s.fn.stack) :
    (dischargeTo e reg).Ensures s fun e' t =>
      e' = { e with info := reg, kind := .nonRelocatable } ∧ Carries s0 H e' t ts fs ∧
      t.fn.free = s.fn.free ∧ t.fn.stack = s.fn.stack ∧
      ∃ u d, Interned s e u d ∧ Evolves s u ∧ t = u.load d reg := by
  by_cases hnum : ∃ x, e.kind = .number x
  · obtain ⟨x, hk⟩ := hnum
    rw [dischargeTo_number hk]
    refine .bind (internConstant_spec h.ok rfl) ?_
    rintro _ u ⟨hok, hev, hu, n, rfl, -, hc⟩
    have hint : Interned s e u { e with kind := .constant, info := n } := by
      simp only [Interned, hk]
      exact ⟨n, rfl, hu, _, hc, rfl⟩
    have hlt := lt_size_of_some hc
    have hready : Operand.Ready s0.fn.code.size u.fn { e with kind := .constant, info := n } := by
      simp only [Operand.Ready]
      omega
    have hreg' : 0 ≤ reg ∧ reg < u.fn.stack := ⟨hreg.1, hreg.2.trans_le hev.bounds.stack⟩
    rw [ensures_dischargeTo hok hready (by simp) (by simp) hreg']
    refine ⟨rfl, ((hint.carries h hev hok).load hready (by simp) hreg').congr rfl rfl
      (by simp [Operand.ownJump]), ?_, ?_, u, _, hint, hev, rfl⟩
    · rw [(u.free_load _ reg).1, hu]
      rfl
    · rw [(u.free_load _ reg).2, hu]
      rfl
  · have hint : Interned s e s e := by
      unfold Interned
      split
      · exact absurd ⟨_, ‹_›⟩ hnum
      · exact ⟨rfl, rfl⟩
    rw [ensures_dischargeTo h.ok hr hkind (fun x hx => hnum ⟨x, hx⟩) hreg]
    exact ⟨rfl, (h.load hr hkind hreg).congr rfl rfl (by simp [Operand.ownJump, hkind]),
      (s.free_load e reg).1, (s.free_load e reg).2, s, e, hint, .refl s, rfl⟩

end Load

end RegisterCompiler
