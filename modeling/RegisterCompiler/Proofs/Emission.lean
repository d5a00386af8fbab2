import RegisterCompiler.Proofs.StateInvariant

/-!
# New instructions, registers and constants

* `GenState.push`, `GenState.withFree`, `GenState.reserved`, `GenState.marked` : the states after
  the small steps of generation;
* `ensures_emitABC`, `ensures_jump`, `ensures_reserve` and their kin : those steps end in these states
  or with an error;
* `internConstant_spec` : a constant gets a place, and the other constants keep theirs.
-/

namespace RegisterCompiler

open Gen (noJump noRegister maxRegisters)

/-! ## States after small steps -/

namespace GenState

def push (s : GenState) (i : Instr) : GenState :=
  { s with fn := { s.fn with code := s.fn.code.push i, lines := s.fn.lines.push s.line } }

def withFree (s : GenState) (r : Int) : GenState :=
  { s with fn := { s.fn with free := r } }

def withRoom (s : GenState) (top : Int) : GenState :=
  { s with fn := { s.fn with stack := max s.fn.stack top } }

def reserved (s : GenState) (n : Int) : GenState :=
  (s.withRoom (s.fn.free + n)).withFree (s.fn.free + n)

/-- The state in which the next instruction is known to be a target. -/
def marked (s : GenState) : GenState :=
  { s with fn := { s.fn with lastTarget := s.fn.code.size } }

def onLine (s : GenState) (line : Int) : GenState :=
  { s with line := line }

def withLastLine (s : GenState) (line : Int) : GenState :=
  { s with fn := { s.fn with lines := s.fn.lines.modify (s.fn.lines.size - 1) fun _ => line } }

def withConstants (s : GenState) (cs : Array Constant) (places : Std.HashMap Constant.Key Nat) :
    GenState :=
  { s with fn := { s.fn with constants := cs, constantPlaces := places } }

end GenState

def openJump : Instr := .asbx Opcode.jmp.code 0 noJump

@[simp] theorem openJump_op : openJump.op? = some .jmp := by decide

@[simp] theorem openJump_a : openJump.a = 0 := by decide

@[simp] theorem openJump_sbx : openJump.sbx = noJump := by decide

@[simp] theorem openJump_isJump : openJump.isJump = true := by decide

theorem openJump_next : openJump.next? = none := by decide

theorem openJump_target (n : Nat) : openJump.target n = n := by
  simp only [Instr.target, openJump_sbx, noJump]
  omega

namespace Gen

variable {s : GenState} {Q : Int → GenState → Prop} {Q' : Unit → GenState → Prop} {op : Opcode}

/-! ## Outcomes -/

theorem ensures_emit {i : Instr} (hopen : s.fn.isClosed = false) :
    (emit i).Ensures s Q ↔ Q s.fn.code.size (s.push i) := by
  unfold emit
  simp only [ensures_bind, ensures_getFn]
  rw [ensures_require (by simp [hopen])]
  exact Iff.rfl

theorem ensures_emitABC {a b c : Int} (hopen : s.fn.isClosed = false)
    (hmode : op.info.mode = .abc) (hb : op.info.b ≠ .unused ∨ b = 0)
    (hc : op.info.c ≠ .unused ∨ c = 0) (hmax : a ≤ maxA ∧ b ≤ maxB ∧ c ≤ maxC) :
    (emitABC op a b c).Ensures s Q ↔ Q s.fn.code.size (s.push (.abc op.code a b c)) := by
  unfold emitABC
  simp only [ensures_bind]
  rw [ensures_require (by simp [hmode]), ensures_require (by simpa using hb),
    ensures_require (by simpa using hc), ensures_require (by simp [hmax]), ensures_emit hopen]

theorem ensures_emitABx {a bx : Int} (hopen : s.fn.isClosed = false)
    (hmode : op.info.mode = .abx ∨ op.info.mode = .asbx) (hbx : 0 ≤ bx ∧ bx ≤ maxBx) :
    (emitABx op a bx).Ensures s Q ↔ Q s.fn.code.size (s.push (.abx op.code a bx)) := by
  unfold emitABx
  simp only [ensures_bind]
  rw [ensures_require (by simpa using hmode), ensures_require (by simpa using hbx),
    ensures_emit hopen]

theorem ensures_emitAsBx {a : Int} (hopen : s.fn.isClosed = false) (hmode : op.info.mode = .asbx) :
    (emitAsBx op a noJump).Ensures s Q ↔ Q s.fn.code.size (s.push (.asbx op.code a noJump)) := by
  exact ensures_emitABx hopen (.inr hmode) (by decide)

theorem ensures_emitExtra {ax : Int} (hopen : s.fn.isClosed = false) (hax : ax ≤ maxAx) : (emitExtra ax).Ensures s Q ↔
      Q s.fn.code.size (s.push (.ofAx Opcode.extraArg.code ax)) := by
  unfold emitExtra
  rw [ensures_bind, ensures_require (by simpa using hax), ensures_emit hopen]

theorem ensures_jump {Q : JumpList → GenState → Prop} (hopen : s.fn.isClosed = false) :
    jump.Ensures s Q ↔ Q (.ofHead s.fn.code.size) (s.push openJump) := by
  unfold jump
  rw [ensures_bind, ensures_emitAsBx hopen (by rfl)]
  exact ensures_pure

theorem ensures_marked : label.Ensures s Q ↔ Q s.fn.code.size s.marked := Iff.rfl

theorem ensures_moveLastToLine {line : Int} (h : 0 < s.fn.lines.size) :
    (moveLastToLine line).Ensures s Q' ↔ Q' () (s.withLastLine line) := by
  unfold moveLastToLine
  simp only [ensures_bind, ensures_getFn]
  rw [ensures_place (by omega), show ((s.fn.lines.size : Int) - 1).toNat = s.fn.lines.size - 1 by omega]
  exact ensures_modifyFn

theorem ensures_ensureRegisters {n : Int} (hstack : s.fn.stack ≤ 249) : (ensureRegisters n).Ensures s Q' ↔
      (s.fn.free + n ≤ 249 → Q' () (s.withRoom (s.fn.free + n))) := by
  unfold ensureRegisters
  simp only [ensures_bind, ensures_getFn]
  split
  · rename_i htop
    split
    · rename_i hmax
      simp only [maxRegisters] at hmax
      simp only [ensures_bind, ensures_error, true_iff]
      omega
    · rename_i hmax
      simp only [maxRegisters] at hmax
      rw [ensures_modifyFn, GenState.withRoom, max_eq_right htop.le]
      exact ⟨fun h _ => h, fun h => h (by omega)⟩
  · rename_i htop
    rw [ensures_pure, GenState.withRoom, max_eq_left (not_lt.1 htop)]
    exact ⟨fun h _ => h, fun h => h (by omega)⟩

theorem ensures_reserve {n : Int} (hstack : s.fn.stack ≤ 249) :
    (reserve n).Ensures s Q' ↔ (s.fn.free + n ≤ 249 → Q' () (s.reserved n)) := by
  unfold reserve
  rw [ensures_bind, ensures_ensureRegisters hstack]
  exact Iff.rfl

end Gen

/-! ## States in order -/

section Push
variable {s : GenState} {H H' : Set Nat} {i j : Instr}

theorem GenState.Valid.push (h : s.Valid H)
    (hlead : ∀ k, s.fn.code.back? = some k → Leads s.fn.bounds k i)
    (hfirst : s.fn.code.size = 0 → i.op? ≠ some .extraArg)
    (hfit : i.Fits s.fn.bounds ∨ i.Awaits s.fn.bounds ∧ s.fn.code.size + 1 ∈ H)
    (hopen : i.isJump → s.fn.code.size ∈ H) : (s.push i).Valid H where
  fn := { h.fn with
    lines := by simp [GenState.push, h.fn.lines]
    target := by
      have := h.fn.target
      simp only [GenState.push, Array.size_push]
      omega
    code := h.fn.code.push h.fn.target.2 hlead hfirst hfit hopen }
  inner := h.inner
  outer := h.outer
  env := h.env.congr rfl

theorem GenState.Ok.hold (h : s.Ok H) (hsub : H ⊆ H') (hnew : ∀ p ∈ H', p ∈ H ∨ s.fn.code.size ≤ p) :
    s.Valid H' where
  fn := { h.fn with
    code := h.fn.code.hold hsub fun p hp j hj _ => by
      have hlt := lt_size_of_some hj
      exact (hnew p hp).resolve_right (by omega) }
  inner := h.inner
  outer := h.outer
  env := h.env

theorem GenState.Ok.push (h : s.Ok H) (hfit : i.Fits s.fn.bounds) (hnext : i.next? = none)
    (hjump : i.isJump = false) (hop : i.op? ≠ some .extraArg) : (s.push i).Ok H where
  toValid := h.toValid.push (fun k hk => .of_none (h.ends k hk) hop) (fun _ => hop) (.inl hfit)
    fun hj => absurd hj (by simp [hjump])
  ends := sealed_push hnext
  held p hp := by
    have := h.held p hp
    simp only [GenState.push, Array.size_push]
    omega

theorem GenState.Ok.pushJump (h : s.Ok H) (hfit : i.Fits s.fn.bounds) (hj : i.isJump) :
    (s.push i).Ok (Held H [s.fn.code.size]) := by
  have hop : i.op? ≠ some .extraArg := by
    intro hop
    simp [Instr.isJump, hop] at hj
  have hv : s.Valid (Held H [s.fn.code.size]) := h.hold (fun p hp => .inl hp) fun p hp => by
    rcases hp with hp | hp
    · exact .inl hp
    · exact .inr (by simp_all)
  refine ⟨hv.push (fun k hk => .of_none (h.ends k hk) hop) (fun _ => hop) (.inl hfit) fun _ => ?_,
    sealed_push (next?_of_isJump hj), fun p hp => ?_⟩
  · simp
  · simp only [GenState.push, Array.size_push]
    rcases hp with hp | hp
    · have := h.held p hp
      omega
    · simp_all

theorem GenState.Ok.pushTest (h : s.Ok H) (hfit : i.Fits s.fn.bounds ∨ i.Awaits s.fn.bounds)
    (ht : i.isTest) : ((s.push i).push openJump).Ok (Held H [s.fn.code.size + 1]) := by
  have hnext := Instr.next?_eq_jmp ht
  have hop : i.op? ≠ some .extraArg := by
    intro hop
    simp [Instr.isTest, hop, Opcode.isTest, Opcode.info] at ht
  have hjump : i.isJump = false := by
    cases hj : i.isJump with
    | false => rfl
    | true => simp [next?_of_isJump hj] at hnext
  have hv : s.Valid (Held H [s.fn.code.size + 1]) := h.hold (fun p hp => .inl hp) fun p hp => by
    rcases hp with hp | hp
    · exact .inl hp
    · exact .inr (by simp_all)
  have hv' := hv.push (i := i) (fun k hk => .of_none (h.ends k hk) hop) (fun _ => hop)
    (hfit.imp_right fun hw => ⟨hw, by simp⟩) fun hj => absurd hj (by simp [hjump])
  have hsize : (s.push i).fn.code.size = s.fn.code.size + 1 := by simp [GenState.push]
  refine ⟨hv'.push ?_ (by simp) (.inl ?_) fun _ => ?_, sealed_push openJump_next, fun p hp => ?_⟩
  · intro k hk
    obtain rfl : i = k := by simpa [GenState.push] using hk
    refine ⟨fun op hop' => ?_, by simp, fun hkx => ?_⟩
    · rw [hnext] at hop'
      simp [← Option.some.inj hop']
    · simp [Instr.isTest, hkx, Opcode.isTest, Opcode.info] at ht
  · have := h.fn.stack.1
    simp only [Instr.Fits, openJump_op, openJump_a, GenState.push, Func.bounds]
    omega
  · simp [hsize]
  · simp only [GenState.push, Array.size_push]
    rcases hp with hp | hp
    · have := h.held p hp
      omega
    · simp_all

theorem GenState.Ok.pushExtra (h : s.Ok H) (hfit : i.Fits s.fn.bounds) (hi : i.takesExtra)
    (hj : j.op? = some .extraArg)
    (hconst : i.op? = some .loadKX → j.ax < s.fn.constants.size) : ((s.push i).push j).Ok H := by
  have hcases : i.op? = some .loadKX ∨ i.op? = some .setList ∧ i.c = 0 := by
    simpa [Instr.takesExtra] using hi
  have hop : i.op? ≠ some .extraArg ∧ i.isJump = false ∧ i.isTest = false := by
    rcases hcases with hx | hx <;>
      simp [Instr.isJump, Instr.isTest, hx, Opcode.isTest, Opcode.info]
  have hnext : i.next? = some .extraArg := by simp [Instr.next?, hop.2.2, hi]
  have hv := h.toValid.push (fun k hk => .of_none (h.ends k hk) hop.1) (fun _ => hop.1) (.inl hfit)
    fun hj => absurd hj (by simp [hop.2.1])
  refine ⟨hv.push ?_ (by simp [GenState.push]) (.inl ?_) ?_, sealed_push ?_, fun p hp => ?_⟩
  · intro k hk
    obtain rfl : i = k := by simpa [GenState.push] using hk
    exact ⟨fun op ho => by rw [hnext] at ho; rw [hj, ho], fun _ => hnext, hconst⟩
  · simp [Instr.Fits, hj]
  · simp [Instr.isJump, hj]
  · exact Instr.next?_eq_none hj (by decide)
  · have := h.held p hp
    simp only [GenState.push, Array.size_push]
    omega

end Push

/-! ## Evolution by small steps -/

section Steps
variable {s t : GenState} {H H' : Set Nat} {i : Instr} {code : Array Instr}

theorem getElem?_push_of_lt {p : Nat} (hp : p < code.size) (i : Instr) : (code.push i)[p]? = code[p]? := by
  rw [Array.getElem?_push, if_neg (by omega)]

theorem Chain.push {l : JumpList} {ps : List Nat} (h : Chain code l ps) (i : Instr) : Chain (code.push i) l ps :=
  h.congr fun _ hp => getElem?_push_of_lt (h.lt_of_mem hp) i

theorem Evolves.push (s : GenState) (i : Instr) (h : s.fn.lastTarget ≤ s.fn.code.size)
    (hj : i.isJump → (s.fn.code.size : Int) ≤ i.target s.fn.code.size)
    (hc : i.op? ≠ some .closure) : Evolves s (s.push i) where
  source := rfl
  inner := rfl
  outer := forall₂_captured_refl _
  scopes := rfl
  bounds := .refl _
  size := by simp [GenState.push]
  target := le_rfl
  targets u hu := hu.push h i
  kept := .of_eq fun p hp => getElem?_push_of_lt hp i
  aims := (AimsFrom.of_size_le le_rfl).push hj
  protos _ _ hp := hp
  starts _ v hr hv := .inr ⟨hr, v, hv, rfl⟩
  marks _ hr := hr
  closures q k hq hk hop := by
    simp only [GenState.push, Array.getElem?_push] at hk
    split at hk
    · exact absurd (Option.some.inj hk ▸ hop) hc
    · exact absurd (lt_size_of_some hk) (by omega)
  constants _ _ hc := hc
  active := rfl
  declared := rfl
  locals := rfl
  labels := rfl
  gotos := rfl

theorem Evolves.pushJump (s : GenState) (h : s.fn.lastTarget ≤ s.fn.code.size) : Evolves s (s.push openJump) :=
  .push s _ h (fun _ => (openJump_target _).ge) (by simp)

theorem Evolves.withFree (s : GenState) (r : Int) : Evolves s (s.withFree r) :=
  { Evolves.refl s with }

theorem Evolves.onLine (s : GenState) (line : Int) : Evolves s (s.onLine line) :=
  { Evolves.refl s with }

theorem Evolves.withLastLine (s : GenState) (line : Int) : Evolves s (s.withLastLine line) :=
  { Evolves.refl s with }

theorem Evolves.withRoom (s : GenState) (top : Int) : Evolves s (s.withRoom top) :=
  { Evolves.refl s with bounds := ⟨le_max_left .., le_rfl, le_rfl, le_rfl⟩ }

theorem Evolves.reserved (s : GenState) (n : Int) : Evolves s (s.reserved n) :=
  (Evolves.withRoom s _).trans (.withFree _ _)

theorem Evolves.marked (s : GenState) (h : s.fn.lastTarget ≤ s.fn.code.size) : Evolves s s.marked :=
  { Evolves.refl s with target := h, targets := fun _ hu => hu.mono h }

theorem Func.Captures.of_revised {f : Func} {q r : Nat} (h : Func.Captures { f with code := code } q r) (hr : Revised f.code code) : f.Captures q r := by
  obtain ⟨i, p, u, hi, hop, hp, hu⟩ := h
  obtain ⟨i', hi', hop', hbx⟩ := hr.closures q i hi hop
  exact ⟨i', p, u, hi', hop', hbx ▸ hp, hu⟩

theorem Func.MarksFrom.revised {n : Nat} {f : Func} (h : f.MarksFrom n)
    (hr : Revised f.code code) : Func.MarksFrom n { f with code := code } := by
  intro q i hq hi hop
  obtain ⟨i', hi', hop', hbx⟩ := hr.closures q i hi hop
  obtain ⟨hlt, hall⟩ := h q i' hq hi' hop'
  exact ⟨hbx ▸ hlt, fun r hc => hall r (hc.of_revised hr)⟩

theorem Evolves.setCode (h : Evolves s t) (hr : Revised t.fn.code code)
    (hk : ∀ p, p < s.fn.code.size → code[p]? = t.fn.code[p]?)
    (ha : AimsFrom s.fn.code.size code) : Evolves s (t.setCode code) :=
  { h with
    size := by
      have := h.size
      have := hr.size
      simp only
      omega
    targets := fun u hu => (h.targets u hu).revised hr
    kept := h.kept.trans (.of_eq hk) le_rfl
    aims := ha
    closures := h.closures.revised hr }

theorem GenState.Valid.withFree (h : s.Valid H) {r : Int} (hr : 0 ≤ r ∧ r ≤ s.fn.stack) : (s.withFree r).Valid H :=
  ⟨{ h.fn with free := hr }, h.inner, h.outer, h.env.congr rfl⟩

theorem GenState.Ok.withFree (h : s.Ok H) {r : Int} (hr : 0 ≤ r ∧ r ≤ s.fn.stack) : (s.withFree r).Ok H :=
  ⟨h.toValid.withFree hr, h.ends, h.held⟩

theorem GenState.Ok.onLine (h : s.Ok H) (line : Int) : (s.onLine line).Ok H :=
  ⟨⟨h.fn, h.inner, h.outer, h.env⟩, h.ends, h.held⟩

theorem GenState.Ok.withLastLine (h : s.Ok H) (line : Int) : (s.withLastLine line).Ok H :=
  ⟨⟨{ h.fn with lines := by simp [GenState.withLastLine, h.fn.lines] }, h.inner, h.outer,
    h.env.congr rfl⟩, h.ends, h.held⟩

theorem GenState.Ok.withRoom (h : s.Ok H) {top : Int} (htop : top ≤ 249) : (s.withRoom top).Ok H where
  fn :=
    have hle : s.fn.stack ≤ max s.fn.stack top := le_max_left ..
    { h.fn with
      code := h.fn.code.mono ⟨hle, le_rfl, le_rfl, le_rfl⟩ le_rfl
      stack := ⟨h.fn.stack.1.trans hle, max_le h.fn.stack.2 htop⟩
      free := ⟨h.fn.free.1, h.fn.free.2.trans hle⟩
      params := h.fn.params.trans hle }
  inner := h.inner
  outer := h.outer
  env := h.env.congr rfl
  ends := h.ends
  held := h.held

theorem GenState.Ok.reserved (h : s.Ok H) {n : Int} (hn : 0 ≤ s.fn.free + n)
    (hle : s.fn.free + n ≤ 249) : (s.reserved n).Ok H :=
  (h.withRoom hle).withFree ⟨hn, le_max_right ..⟩

theorem GenState.Valid.marked (h : s.Valid H) : s.marked.Valid H :=
  ⟨{ h.fn with
      target := ⟨Int.natCast_nonneg _, le_rfl⟩
      code := h.fn.code.mono (.refl _) h.fn.target.2 }, h.inner, h.outer, h.env.congr rfl⟩

theorem GenState.Ok.marked (h : s.Ok H) : s.marked.Ok H :=
  ⟨h.toValid.marked, h.ends, h.held⟩

theorem GenState.Ok.setCode (h : s.Ok H) (hr : Revised s.fn.code code)
    (hcode : CodeOk s.fn.bounds s.fn.lastTarget H' code) (hheld : ∀ p ∈ H', p < s.fn.code.size) :
    (s.setCode code).Ok H' where
  fn := { h.fn with
    lines := h.fn.lines.trans hr.size.symm
    target := by
      have := h.fn.target
      have := hr.size
      simp only
      omega
    code := hcode }
  inner := h.inner
  outer := h.outer
  env := h.env.congr rfl
  ends := h.ends.revised hr
  held p hp := by
    have := hheld p hp
    have := hr.size
    simp only
    omega

end Steps

/-! ## Constants -/

section Constants
variable {s : GenState} {H : Set Nat}

theorem isConstantRK_of_lt {x : Int} (h : 0 ≤ x ∧ x < 256) : isConstantRK x = false := by
  simp only [isConstantRK, beq_eq_false_iff_ne]
  omega

theorem isConstantRK_of_ge {x : Int} (h : 256 ≤ x ∧ x ≤ 511) : isConstantRK x = true := by
  simp only [isConstantRK, beq_iff_eq]
  omega

theorem asConstantRK_eq {k : Int} (h : 0 ≤ k ∧ k < 256) : asConstantRK k = k + 256 := by
  rw [asConstantRK, isConstantRK_of_lt h]
  simp

/-- A constant of a source has a place, which is a new one only if it is the next. The other constants
keep theirs. -/
theorem Gen.internConstant_spec (h : s.Ok H) {v : Constant} (hv : v.key.constant = v) :
    (internConstant v).Ensures s fun k t => t.Ok H ∧ Evolves s t ∧
      t = s.withConstants t.fn.constants t.fn.constantPlaces ∧ ∃ n : Nat, k = n ∧ n ≤ s.fn.constants.size ∧
        t.fn.constants[n]? = some v := by
  unfold internConstant
  simp only [ensures_bind, ensures_getFn]
  cases hk : s.fn.constantPlaces[v.key]? with
  | some k =>
    have hc := h.fn.places v.key k hk
    exact ⟨h, .refl s, rfl, k, rfl, (lt_size_of_some hc).le, hc.trans (by rw [hv])⟩
  | none =>
    simp only [ensures_bind]
    rw [ensures_getFn, ensures_limit]
    intro hmax
    have hget : ∀ (j : Nat) (c : Constant), s.fn.constants[j]? = some c →
        (s.fn.constants.push v)[j]? = some c := by
      intro j c hc
      have hlt := lt_size_of_some hc
      rw [Array.getElem?_push, if_neg (by omega), hc]
    have hle : s.fn.bounds.Le { s.fn.bounds with constants := (s.fn.constants.push v).size } :=
      ⟨le_rfl, by simp [Func.bounds], le_rfl, le_rfl⟩
    refine ⟨⟨⟨{ h.fn with
        code := h.fn.code.mono hle le_rfl
        places := ?_
        constants := by simpa using hmax }, h.inner, h.outer, h.env.congr rfl⟩, h.ends, h.held⟩,
      { Evolves.refl s with bounds := hle, constants := hget }, rfl, _, rfl, le_rfl, by simp⟩
    intro key k hk'
    rw [Std.HashMap.getElem?_insert] at hk'
    split at hk'
    · rename_i heq
      cases hk'
      rw [← eq_of_beq heq, hv]
      simp
    · exact hget k _ (h.fn.places key k hk')

def GenState.pushConstant (s : GenState) (reg k : Int) : GenState :=
  if k ≤ maxBx then s.push (.abx Opcode.loadK.code reg k)
  else (s.push (.abx Opcode.loadKX.code reg 0)).push (.ofAx Opcode.extraArg.code k)

theorem Gen.ensures_emitConstant {reg k : Int} {Q : Int → GenState → Prop}
    (hopen : s.fn.isClosed = false) (hk : 0 ≤ k ∧ k ≤ maxAx) :
    (emitConstant reg k).Ensures s Q ↔ Q s.fn.code.size (s.pushConstant reg k) := by
  unfold emitConstant GenState.pushConstant
  split
  · rename_i hmax
    exact ensures_emitABx hopen (.inl rfl) ⟨hk.1, hmax⟩
  · rw [ensures_bind, ensures_emitABx hopen (.inl rfl) (by decide), ensures_bind,
      ensures_emitExtra (s := s.push _) hopen hk.2]
    exact ensures_pure

theorem GenState.Ok.pushConstant (h : s.Ok H) {reg : Int} {k : Nat}
    (hreg : 0 ≤ reg ∧ reg < s.fn.stack) (hk : k < s.fn.constants.size) : (s.pushConstant reg k).Ok H := by
  have hstack := h.fn.stack
  have hmax : (k : Int) ≤ maxAx := by
    have := h.fn.constants
    simp only [Gen.maxConstants] at this
    omega
  have hreg' : 0 ≤ reg ∧ reg ≤ maxA := by
    simp only [maxA]
    omega
  unfold GenState.pushConstant
  split
  · rename_i hle
    obtain ⟨hop, ha, hbx⟩ := Instr.abx_fields .loadK hreg' ⟨Int.natCast_nonneg k, hle⟩
    refine h.push ?_ (Instr.next?_eq_none hop (by decide)) (by simp [Instr.isJump, hop])
      (by simp [hop])
    simp only [Instr.Fits, hop, Func.bounds]
    omega
  · obtain ⟨hop, ha, -⟩ := Instr.abx_fields .loadKX hreg' (show 0 ≤ 0 ∧ 0 ≤ maxBx by decide)
    obtain ⟨hop', hax⟩ := Instr.ofAx_fields .extraArg ⟨Int.natCast_nonneg k, hmax⟩
    refine h.pushExtra ?_ (by simp [Instr.takesExtra, hop]) hop' fun _ => by omega
    simp only [Instr.Fits, hop, Func.bounds]
    omega

theorem Evolves.pushConstant (s : GenState) (reg k : Int) (h : s.fn.lastTarget ≤ s.fn.code.size) :
    Evolves s (s.pushConstant reg k) := by
  unfold GenState.pushConstant
  split
  · exact .push s _ h (by simp [Instr.isJump, Instr.op?_abx]) (by simp [Instr.op?_abx])
  · refine (Evolves.push s _ h (by simp [Instr.isJump, Instr.op?_abx]) (by simp [Instr.op?_abx])).trans
      (.push _ _ ?_ (by simp [Instr.isJump, Instr.op?_ofAx]) (by simp [Instr.op?_ofAx]))
    simp only [GenState.push, Array.size_push]
    omega

end Constants

/-! ## Registers -/

section Registers
variable {s : GenState} {Q : Unit → GenState → Prop} {i : Instr}

theorem Gen.ensures_releaseRegister {reg : Int}
    (h : isConstantRK reg = false → s.fn.active ≤ reg → reg = s.fn.free - 1) :
    (releaseRegister reg).Ensures s Q ↔
      Q () (if isConstantRK reg = false ∧ s.fn.active ≤ reg then s.withFree (s.fn.free - 1) else s) := by
  unfold releaseRegister
  simp only [ensures_bind, ensures_getFn]
  by_cases hc : isConstantRK reg = false ∧ s.fn.active ≤ reg
  · rw [if_pos hc, if_pos (by simpa using hc)]
    simp only [ensures_bind, ensures_modifyFn, ensures_getFn]
    rw [ensures_require (by simpa using h hc.1 hc.2)]
    exact Iff.rfl
  · rw [if_neg hc, if_neg (by simpa using hc)]
    exact ensures_pure

/-- The load of nils right before the next instruction, if there is one that no jump comes after and
whose registers overlap or adjoin the `n` from `first` on. -/
def GenState.nilsBefore? (s : GenState) (first n : Int) : Option Instr :=
  if s.fn.lastTarget < s.fn.code.size then
    s.fn.code.back?.filter fun i => i.op? == some .loadNil &&
      ((i.a ≤ first && first ≤ i.a + i.b + 1) || (first ≤ i.a && i.a ≤ first + n - 1 + 1))
  else none

/-- The load of nils `i` with `n` registers from `first` on as well. -/
def Instr.widen (first n : Int) (i : Instr) : Instr :=
  (i.setA (min (i.a : Int) first)).setB (max (i.a + i.b : Int) (first + n - 1) - min (i.a : Int) first)

def GenState.pushNils (s : GenState) (first n : Int) : GenState :=
  match s.nilsBefore? first n with
  | some _ => s.setCode (s.fn.code.modify (s.fn.code.size - 1) (·.widen first n))
  | none => s.push (.abc Opcode.loadNil.code first (n - 1) 0)

theorem GenState.nilsBefore?_eq_some (h : s.nilsBefore? first n = some i) :
    s.fn.lastTarget < s.fn.code.size ∧ s.fn.code.back? = some i ∧ i.op? = some .loadNil ∧
      (((i.a : Int) ≤ first ∧ first ≤ i.a + i.b + 1) ∨ (first ≤ i.a ∧ (i.a : Int) ≤ first + n)) := by
  unfold GenState.nilsBefore? at h
  split at h
  · rename_i hlt
    obtain ⟨hback, hp⟩ := Option.filter_eq_some_iff.1 h
    refine ⟨hlt, hback, ?_⟩
    simp only [Bool.and_eq_true, beq_iff_eq, Bool.or_eq_true, decide_eq_true_eq] at hp
    exact ⟨hp.1, by omega⟩
  · simp at h

theorem Gen.ensures_emitNils (hopen : s.fn.isClosed = false)
    (htarget : 0 ≤ s.fn.lastTarget) (hmax : first ≤ maxA ∧ n - 1 ≤ maxB) :
    (emitNils first n).Ensures s Q ↔ Q () (s.pushNils first n) := by
  have hpush : (do
      let _ ← emitABC .loadNil first (n - 1) 0
      pure () : Gen Unit).Ensures s Q ↔ Q () (s.push (.abc Opcode.loadNil.code first (n - 1) 0)) := by
    rw [ensures_bind, ensures_emitABC hopen rfl (.inl (by decide)) (.inr rfl)
      ⟨hmax.1, hmax.2, by decide⟩]
    exact ensures_pure
  unfold emitNils GenState.pushNils GenState.nilsBefore?
  simp only [ensures_bind, ensures_pc, ensures_getFn]
  by_cases hlt : s.fn.lastTarget < s.fn.code.size
  · obtain ⟨m, hm⟩ : ∃ m, s.fn.code.size = m + 1 := ⟨s.fn.code.size - 1, by omega⟩
    obtain ⟨i, hi⟩ : ∃ i, s.fn.code[m]? = some i := ⟨_, Array.getElem?_eq_getElem (by omega)⟩
    have hback : s.fn.code.back? = some i := by
      rw [Array.back?_eq_getElem?, hm, Nat.add_sub_cancel, hi]
    rw [if_pos hlt, if_pos (by simp only [Bool.and_eq_true, decide_eq_true_eq]; omega), ensures_bind,
      ensures_instrAt (p := m) (by omega) hi, hback]
    simp only [Option.filter_some]
    split
    · rw [ensures_updateInstr (p := m) (by omega) (by omega), hm, Nat.add_sub_cancel]
      refine iff_of_eq (congrArg (fun code => Q () (s.setCode code)) (modify_congr hi ?_))
      rfl
    · exact hpush
  · rw [if_neg hlt, if_neg (by simp only [Bool.and_eq_true, decide_eq_true_eq]; omega)]
    exact hpush

variable {H : Set Nat} {first n : Int}

theorem Instr.widen_fields {top : Int} (hi : i.op? = some .loadNil) (htop : top ≤ 250)
    (hi' : (i.a : Int) + i.b < top) (hfirst : 0 ≤ first ∧ first + n ≤ top) (hn : 1 ≤ n) :
    (i.widen first n).op? = some .loadNil ∧ ((i.widen first n).a : Int) = min (i.a : Int) first ∧
      ((i.widen first n).a : Int) + (i.widen first n).b = max (i.a + i.b : Int) (first + n - 1) := by
  have ha := Instr.a_setA i (v := min (i.a : Int) first) (by simp only [maxA]; omega)
  have hb := Instr.b_setB (i.setA (min (i.a : Int) first))
    (v := max (i.a + i.b : Int) (first + n - 1) - min (i.a : Int) first) (by simp only [maxB]; omega)
  refine ⟨by simpa [Instr.widen] using hi, ?_, ?_⟩
  · rw [Instr.widen, Instr.a_setB, ha]
  · rw [Instr.widen, Instr.a_setB, ha, hb]
    omega

theorem Changes.loadNil {B : Bounds} {p : Nat} {i' : Instr} (hop : i.op? = some .loadNil)
    (hop' : i'.op? = some .loadNil) (hfit : (i'.a : Int) + i'.b < B.stack) : Changes B H p i i' := by
  refine ⟨.of_op hop hop' (by decide) (.inr (by decide)) (by simp), .inl ?_,
    fun _ hj => by simp [Instr.isJump, hop'] at hj, fun _ => by simp [hop, hop']⟩
  simpa only [Instr.Fits, hop'] using hfit

theorem GenState.Ok.widenNils (h : s.Ok H) (hback : s.fn.code.back? = some i)
    (hop : i.op? = some .loadNil) (hfirst : 0 ≤ first ∧ first + n ≤ s.fn.stack) (hn : 1 ≤ n) :
    (s.setCode (s.fn.code.modify (s.fn.code.size - 1) (·.widen first n))).Ok H ∧
      Evolves s (s.setCode (s.fn.code.modify (s.fn.code.size - 1) (·.widen first n))) := by
  have hfit := h.fn.code.fits_of_not_testSet hback (by simp [hop])
  simp only [Instr.Fits, hop, Func.bounds] at hfit
  obtain ⟨hop', ha, hb⟩ := Instr.widen_fields hop (h.fn.stack.2.trans (by decide)) hfit hfirst hn
  have hch : Changes s.fn.bounds H (s.fn.code.size - 1) i (i.widen first n) :=
    .loadNil hop hop' (hb ▸ max_lt hfit (show first + n - 1 < s.fn.stack by omega))
  obtain ⟨hcode, hrev⟩ := h.fn.code.revised_modify (f := (·.widen first n)) hback hch
  refine ⟨h.setCode hrev hcode h.held, { Evolves.refl s with
    size := by simp
    aims := .of_size_le (by simp)
    closures := .of_size_le (by simp)
    targets := fun u hu => hu.revised hrev
    kept := fun p j hp hj => ?_ }⟩
  rw [Array.getElem?_modify, hj]
  split
  · rename_i hp
    subst hp
    cases hback.symm.trans hj
    exact .inr ⟨by omega, hop, _, rfl, hop'⟩
  · exact .inl rfl

theorem GenState.Ok.pushNils (h : s.Ok H) (hfirst : 0 ≤ first ∧ first + n ≤ s.fn.stack)
    (hn : 1 ≤ n) : (s.pushNils first n).Ok H ∧ Evolves s (s.pushNils first n) := by
  unfold GenState.pushNils
  split
  · rename_i i hi
    obtain ⟨-, hback, hop, -⟩ := GenState.nilsBefore?_eq_some hi
    exact h.widenNils hback hop hfirst hn
  · have hstack := h.fn.stack
    obtain ⟨hop, ha, hb, -⟩ := Instr.abc_fields .loadNil (a := first) (b := n - 1) (c := 0)
      (by simp only [maxA]; omega) (by simp only [maxB]; omega) (by decide)
    refine ⟨h.push ?_ (Instr.next?_eq_none hop (by decide)) (by simp [Instr.isJump, hop])
      (by simp [hop]), .push s _ h.fn.target.2 (by simp [Instr.isJump, hop]) (by simp [hop])⟩
    simp only [Instr.Fits, hop, Func.bounds]
    omega

end Registers

end RegisterCompiler
