import RegisterCompiler.Proofs.Emission

/-!
# Operands and the code before them

* `Operand.Ready`, `Operand.Placed` : where the value of an operand is, and which registers above the
  base register `r` it takes;
* `Carries s0 H e s ts fs` : since the state `s0` code has been added for an expression, of which `e`
  is what there is so far. The jumps at `ts` and `fs` leave it when it is true or false;
* `Yields` : moreover the value of `e` is in its place.
-/

namespace RegisterCompiler

open Gen (noRegister Relinked Patched Dropped Closing storesAt)

/-! ## Places of values -/

/-- The result of the operation can go to any register, `A`. -/
def Opcode.relocates (op : Opcode) : Bool :=
  op ∈ [.getUpval, .getTabUp, .getTable, .newTable, .add, .sub, .mul, .div, .mod, .pow, .unm, .not,
    .len, .concat, .closure, .vararg]

namespace Instr

def isComparison (i : Instr) : Bool :=
  i.op? == some .eq || i.op? == some .lt || i.op? == some .le

/-- The one result of the instruction can go to any register, `A`. -/
def Relocates (i : Instr) : Prop :=
  ∃ op, i.op? = some op ∧ op.relocates ∧ (op = .vararg → i.b = 2)

end Instr

namespace Operand

/-- The value of the operand can be put into a register at once. Code that belongs to the operand
stands at the end of the code, and at `n0` or later. -/
def Ready (n0 : Nat) (f : Func) (e : Operand) : Prop :=
  match e.kind with
  | .nil | .true | .false | .number _ => True
  | .constant => 0 ≤ e.info ∧ e.info < f.constants.size
  | .nonRelocatable => 0 ≤ e.info ∧ e.info < f.stack
  | .jump => ∃ (n : Nat) (i : Instr), e.info = n + 1 ∧ n0 ≤ n ∧ f.code.size = n + 2 ∧
      f.code[n]? = some i ∧ i.isComparison ∧ f.code[n + 1]? = some openJump
  | .relocatable => ∃ (n : Nat) (i : Instr), e.info = n ∧ n0 ≤ n ∧ f.code.size = n + 1 ∧
      f.code[n]? = some i ∧ i.Relocates ∧ f.lastTarget ≤ n
  | _ => False

/-- The register is that of a local variable, and `r` is the first free one, or it is `r` itself,
which is the last one in use. -/
def InRegister (f : Func) (r reg : Int) : Prop :=
  (0 ≤ reg ∧ reg < f.active ∧ f.free = r) ∨ (reg = r ∧ f.free = r + 1)

/-- The key of a field is a constant or in a register. -/
def KeyPlaced (f : Func) (r key : Int) : Prop :=
  (256 ≤ key ∧ key ≤ 511 ∧ key - 256 < f.constants.size ∧ f.free = r) ∨ InRegister f r key

/-- Where the value of the operand is. The registers from `r` on that are in use are its own. -/
def Placed (n0 : Nat) (r : Int) (f : Func) (e : Operand) : Prop :=
  match e.kind with
  | .void => False
  | .nil | .true | .false | .number _ | .constant | .jump => e.Ready n0 f ∧ f.free = r
  | .relocatable => e.Ready n0 f ∧ f.free = r ∧
      ∀ i, f.code.back? = some i → i.op? = some .concat → (i.b : Int) = r
  | .nonRelocatable => InRegister f r e.info
  | .local => 0 ≤ e.info ∧ e.info < f.active ∧ f.free = r
  | .upvalue => 0 ≤ e.info ∧ e.info < f.upvalues.size ∧ f.free = r
  | .indexed Bool.true key => 0 ≤ e.info ∧ e.info < f.upvalues.size ∧ KeyPlaced f r key
  | .indexed Bool.false key =>
    (0 ≤ e.info ∧ e.info < f.active ∧ KeyPlaced f r key) ∨ (e.info = r ∧ KeyPlaced f (r + 1) key)
  | .call => ∃ (n : Nat) (i : Instr), e.info = n ∧ n0 ≤ n ∧ f.code.size = n + 1 ∧
      f.code[n]? = some i ∧ i.op? = some .call ∧ (i.a : Int) = r ∧ f.free = r + 1
  | .vararg => ∃ (n : Nat) (i : Instr), e.info = n ∧ n0 ≤ n ∧ f.code.size = n + 1 ∧
      f.code[n]? = some i ∧ i.op? = some .vararg ∧ i.a = 0 ∧ f.lastTarget ≤ n ∧ f.free = r

/-- The jump of the comparison that the operand is. -/
def ownJump (e : Operand) : List Nat :=
  if e.kind = .jump then [e.info.toNat] else []

def isPlace (e : Operand) : Bool :=
  match e.kind with
  | .void | .local | .upvalue | .indexed .. | .call | .vararg => Bool.true
  | _ => Bool.false

end Operand

/-! ## Expressions under way -/

/-- The jump at `p` is open and closes nothing, and it was made after the first `n0` instructions. -/
def IsFresh (n0 : Nat) (code : Array Instr) (p : Nat) : Prop :=
  n0 ≤ p ∧ ∃ i, code[p]? = some i ∧ i.op? = some .jmp ∧ i.a = 0

/-- Since the state `s0`, in which the jumps at `H` are open, code has been added for an expression;
`e` is what there is of it so far. The jumps at `ts` leave it when it is true and those at `fs` when
it is false. -/
structure Carries (s0 : GenState) (H : Set Nat) (e : Operand) (s : GenState) (ts fs : List Nat) :
    Prop where
  start : s0.Ok H
  evolves : Evolves s0 s
  ok : s.Ok (Held H (ts ++ fs ++ e.ownJump))
  whenTrue : Chain s.fn.code e.whenTrue ts
  whenFalse : Chain s.fn.code e.whenFalse fs
  apart : (ts ++ fs ++ e.ownJump).Nodup
  fresh : ∀ p ∈ ts ++ fs ++ e.ownJump, IsFresh s0.fn.code.size s.fn.code p

/-- Moreover the value of `e` is in its place, and `e` takes no registers below those that were free
in `s0`. -/
structure Yields (s0 : GenState) (H : Set Nat) (e : Operand) (s : GenState) (ts fs : List Nat) :
    Prop extends Carries s0 H e s ts fs where
  base : s0.fn.active ≤ s0.fn.free
  placed : e.Placed s0.fn.code.size s0.fn.free s.fn
  plain : e.isPlace → ts = [] ∧ fs = []

/-! ## Lists get their targets -/

section Targets
variable {s : GenState} {H : Set Nat} {l : JumpList} {ps qs : List Nat} {n0 : Nat}
  {code code' : Array Instr} {wv reg wo : Int}

theorem Sealed.isTarget {T : Int} (h : Sealed code) (hT : (code.size : Int) ≤ T) : IsTarget code T code.size := by
  refine ⟨Int.natCast_nonneg _, hT, fun k i hk hi => ?_⟩
  have hback : code.back? = some i := by
    rw [Array.back?_eq_getElem?, ← hi]
    congr 1
    omega
  rintro ⟨op, hop, -⟩
  simp [h i hback] at hop

theorem IsFresh.isJump {p : Nat} (h : IsFresh n0 code p) : ∃ i, code[p]? = some i ∧ i.isJump := by
  obtain ⟨-, i, hi, hop, -⟩ := h
  exact ⟨i, hi, by simp [Instr.isJump, hop]⟩

theorem IsFresh.patched {p : Nat} (h : IsFresh n0 code p) (hr : Patched ps wv reg wo code code') (hp : p ∉ ps) :
    IsFresh n0 code' p := by
  obtain ⟨hn, i, hi, hop, ha⟩ := h
  refine ⟨hn, i, ?_, hop, ha⟩
  rw [hr.other p hp, hi]
  simp [storesAt, hi, hop]

theorem Chain.patched (h : Chain code l qs)
    (hr : Patched ps wv reg wo code code') (hd : ps.Disjoint qs) : Chain code' l qs := by
  refine h.congr fun p hp => ?_
  obtain ⟨i, hi, hj⟩ := h.jump_of_mem hp
  refine hr.other p (fun hp' => hd hp' hp) fun _ => ?_
  simp [storesAt, hi, Gen.not_testSet_of_isJump hj]

theorem IsFresh.relinked {p : Nat} (h : IsFresh n0 code p) (hr : Relinked ps code code') : IsFresh n0 code' p := by
  obtain ⟨hn, i, hi, hop, ha⟩ := h
  by_cases hp : p ∈ ps
  · rcases hr.jump p hp i hi with hi' | ⟨v, hi'⟩
    · exact ⟨hn, i, hi', hop, ha⟩
    · exact ⟨hn, _, hi', by simpa using hop, by simpa using ha⟩
  · exact ⟨hn, i, by rw [hr.other p hp, hi], hop, ha⟩

theorem Chain.relinked (h : Chain code l qs) (hr : Relinked ps code code') (hd : ps.Disjoint qs) : Chain code' l qs :=
  h.congr fun p hp => hr.other p fun hp' => hd hp' hp

theorem GenState.Ok.patched (h : s.Ok (Held H (ps ++ qs)))
    (hj : AreJumps s.fn.code ps)
    (hreg : 0 ≤ reg ∧ reg < s.fn.stack ∨ reg = noRegister)
    (ht : ∀ p ∈ ps, IsTarget s.fn.code s.fn.lastTarget (if storesAt s.fn.code p then wv else wo))
    (hpat : Patched ps wv reg wo s.fn.code code) :
    Revised s.fn.code code ∧ (s.setCode code).Ok (Held H qs) := by
  obtain ⟨hcode, hrev⟩ := h.fn.code.patched h.fn.stack.2 hpat (fun p hp => by simp [hp])
    (fun p hp => by
      obtain ⟨i, hi, hop⟩ := hj p hp
      exact ⟨i, hi, by simp [Instr.isJump, hop]⟩) hreg
  have hsub : Held H qs ⊆ Held H (ps ++ qs) := fun p hp =>
    hp.imp_right (List.mem_append_right _)
  refine ⟨hrev, h.setCode hrev ?_ fun p hp => h.held p (hsub hp)⟩
  refine hcode.aimed_of_patched h.fn.stack.2 hpat hj hreg
    (fun p i hi hop => h.fn.code.b_lt_of_testSet hi hop) (fun p hp => (ht p hp).revised hrev) hsub ?_
  intro p hp hn
  rcases hp with hp | hp
  · exact absurd (.inl hp) hn
  · rcases List.mem_append.1 hp with hp | hp
    · exact hp
    · exact absurd (.inr hp) hn

namespace Gen

section
variable (h : s.Ok (Held H (ps ++ qs))) (hc : Chain s.fn.code l ps) (hj : AreJumps s.fn.code ps)
include h hc hj

theorem patchValues_ok
    (hreg : 0 ≤ reg ∧ reg < s.fn.stack ∨ reg = noRegister)
    (ht : ∀ p ∈ ps, IsTarget s.fn.code s.fn.lastTarget (if storesAt s.fn.code p then wv else wo)) :
    (patchValues l wv reg wo).Ensures s fun _ t => ∃ code, t = s.setCode code ∧
      Patched ps wv reg wo s.fn.code code ∧ Revised s.fn.code code ∧ t.Ok (Held H qs) := by
  refine (patchValues_spec hc fun p hp => (ht p hp).1).mono ?_
  rintro - t ⟨code, rfl, hpat⟩
  exact ⟨code, rfl, hpat, h.patched hj hreg ht hpat⟩

theorem aimHere_ok : (aimHere l).Ensures s fun _ t => ∃ code, t = s.marked.setCode code ∧
      Patched ps s.fn.code.size noRegister s.fn.code.size s.fn.code code ∧
      Revised s.fn.code code ∧ t.Ok (Held H qs) := by
  refine (aimHere_spec hc h.fn.pending).mono ?_
  rintro - t ⟨code, rfl, hpat⟩
  refine ⟨code, rfl, hpat, h.marked.patched hj (.inr rfl) (fun p _ => ?_) hpat⟩
  rw [ite_self]
  exact h.ends.isTarget le_rfl

theorem aimAt_ok {target : Int} (ht : IsTarget s.fn.code s.fn.lastTarget target) :
    (aimAt l target).Ensures s fun _ t => ∃ code u, (u = s ∨ u = s.marked) ∧ t = u.setCode code ∧
      Patched ps target noRegister target s.fn.code code ∧ Revised s.fn.code code ∧ t.Ok (Held H qs) := by
  refine (aimAt_spec hc h.fn.pending ht.1 (ht.2.1.trans h.fn.target.2)).mono ?_
  rintro - t ⟨code, rfl, hpat⟩
  by_cases hsize : target = s.fn.code.size
  · refine ⟨code, s.marked, .inr rfl, by rw [if_pos hsize, hsize]; rfl, hpat, ?_⟩
    have := h.marked.patched hj (.inr rfl) (fun p _ => by rw [ite_self]; exact ht.mono h.fn.target.2) hpat
    rw [if_pos hsize, hsize]
    exact this
  · refine ⟨code, s, .inl rfl, by rw [if_neg hsize], hpat, ?_⟩
    have := h.patched hj (.inr rfl) (fun p _ => by rw [ite_self]; exact ht) hpat
    rw [if_neg hsize]
    exact this

end

theorem concat_ok {l1 l2 : JumpList} {rest : List Nat} (h : s.Ok (Held H rest))
    (h1 : Chain s.fn.code l1 ps) (h2 : Chain s.fn.code l2 qs) (hd : ps.Disjoint qs) (hps : ∀ p ∈ ps, p ∈ rest) :
    (concat l1 l2).Ensures s fun l t => ∃ code, t = s.setCode code ∧ Chain code l (ps ++ qs) ∧
      Relinked ps s.fn.code code ∧ Revised s.fn.code code ∧ t.Ok (Held H rest) := by
  refine (concat_spec h1 h2 hd).mono ?_
  rintro l t ⟨code, rfl, hchain, hlast⟩
  have hlink : Relinked ps s.fn.code code :=
    hlast.mono fun p hp => List.mem_of_getLast? (Option.mem_toList.1 hp)
  obtain ⟨hcode, hrev⟩ := h.fn.code.relinked hlink (fun p hp => .inr (hps p hp))
    fun p hp => h1.jump_of_mem hp
  exact ⟨code, rfl, hchain, hlink, hrev, h.setCode hrev hcode h.held⟩

end Gen

end Targets

end RegisterCompiler
