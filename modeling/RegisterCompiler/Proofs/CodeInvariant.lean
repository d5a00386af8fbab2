import Mathlib.Data.Set.Basic
import RegisterCompiler.Proofs.WellFormed

/-!
# Code under construction

The invariant that the generator keeps on the instructions made so far.

* `Instr.Fits B i` : the operands of `i` are in range, as inequalities between its fields;
* `IsTarget code T t` : a jump may lead to `t`, where `T` is the last known target;
* `CodeOk B T H code` : the invariant. The jumps at the places in `H` are open: they belong to jump
  lists, so their offsets lead to each other and not to their targets. A test in front of an open
  jump may still lack its register.
-/

namespace RegisterCompiler

theorem lt_size_of_some {α : Type} {xs : Array α} {k : Nat} {x : α} (h : xs[k]? = some x) : k < xs.size :=
  (Array.getElem?_eq_some_iff.1 h).1

variable {B : Bounds}

/-- The numbers of registers, constants, upvalues and nested functions of a function. -/
structure Bounds where
  stack : Int
  constants : Nat
  upvalues : Nat
  protos : Nat

structure Bounds.Le (B C : Bounds) : Prop where
  stack : B.stack ≤ C.stack
  constants : B.constants ≤ C.constants
  upvalues : B.upvalues ≤ C.upvalues
  protos : B.protos ≤ C.protos

theorem Bounds.Le.refl (B : Bounds) : B.Le B := ⟨le_refl _, le_refl _, le_refl _, le_refl _⟩

theorem Bounds.Le.trans {C D : Bounds} (h : B.Le C) (h' : C.Le D) : B.Le D :=
  ⟨h.stack.trans h'.stack, h.constants.trans h'.constants, h.upvalues.trans h'.upvalues, h.protos.trans h'.protos⟩

/-- The operand names a register or a constant that exists. -/
def Bounds.HasRK (B : Bounds) (x : Int) : Prop :=
  0 ≤ x ∧ x < B.stack ∨ 256 ≤ x ∧ x ≤ 511 ∧ x - 256 < B.constants

theorem Bounds.HasRK.mono {C : Bounds} {x : Int} (h : B.HasRK x) (hle : B.Le C) : C.HasRK x := by
  have h1 := hle.stack
  have h2 := hle.constants
  unfold Bounds.HasRK at h ⊢
  omega

theorem Bounds.HasRK.le {x : Int} (h : B.HasRK x) (hB : B.stack ≤ 249) : 0 ≤ x ∧ x ≤ maxB := by
  unfold Bounds.HasRK at h
  simp only [maxB]
  omega

namespace Instr

variable {i : Instr}

/-! ## Operands -/

/-- The operands of the instruction are in range. -/
def Fits (B : Bounds) (i : Instr) : Prop :=
  match i.op? with
  | none => False
  | some op =>
    match op with
    | .move | .unm | .not | .len | .testSet => (i.a : Int) < B.stack ∧ (i.b : Int) < B.stack
    | .loadK => (i.a : Int) < B.stack ∧ i.bx < B.constants
    | .loadKX | .loadBool | .newTable | .test => (i.a : Int) < B.stack
    | .closure => (i.a : Int) < B.stack ∧ i.bx < B.protos
    | .loadNil => (i.a : Int) + i.b < B.stack
    | .getUpval | .setUpval => (i.a : Int) < B.stack ∧ i.b < B.upvalues
    | .getTabUp => (i.a : Int) < B.stack ∧ i.b < B.upvalues ∧ B.HasRK i.c
    | .getTable => (i.a : Int) < B.stack ∧ (i.b : Int) < B.stack ∧ B.HasRK i.c
    | .setTabUp => i.a < B.upvalues ∧ B.HasRK i.b ∧ B.HasRK i.c
    | .setTable | .add | .sub | .mul | .div | .mod | .pow =>
      (i.a : Int) < B.stack ∧ B.HasRK i.b ∧ B.HasRK i.c
    | .self => (i.a : Int) + 1 < B.stack ∧ (i.b : Int) < B.stack ∧ B.HasRK i.c
    | .concat => (i.a : Int) < B.stack ∧ (i.b : Int) < B.stack ∧ (i.c : Int) < B.stack
    | .jmp => (i.a : Int) ≤ B.stack
    | .eq | .lt | .le => B.HasRK i.b ∧ B.HasRK i.c
    | .call =>
      (i.a : Int) < B.stack ∧ (i.a : Int) + i.b ≤ B.stack ∧ (i.a : Int) + i.c ≤ B.stack + 1
    | .tailCall => (i.a : Int) < B.stack ∧ (i.a : Int) + i.b ≤ B.stack
    | .ret | .vararg => (i.b = 0 → (i.a : Int) < B.stack) ∧ (i.a : Int) + i.b ≤ B.stack + 1
    | .forPrep | .forLoop => (i.a : Int) + 3 < B.stack
    | .tForCall => (i.a : Int) + 2 + i.c < B.stack ∧ (i.a : Int) + 5 < B.stack
    | .tForLoop => (i.a : Int) + 1 < B.stack
    | .setList => (i.a : Int) + i.b < B.stack
    | .extraArg => True

theorem Fits.mono {C : Bounds} (h : i.Fits B) (hle : B.Le C) : i.Fits C := by
  have h1 := hle.stack
  have h2 := hle.constants
  have h3 := hle.upvalues
  have h4 := hle.protos
  unfold Fits at h ⊢
  cases hop : i.op? with
  | none => simp only [hop] at h
  | some op =>
    simp only [hop] at h ⊢
    cases op <;> simp only [Bounds.HasRK] at h ⊢ <;> omega

/-- A test that stores a value, whose register is not chosen yet. -/
def Awaits (B : Bounds) (i : Instr) : Prop :=
  i.op? = some .testSet ∧ (i.b : Int) < B.stack

/-! ## The next instruction -/

/-- The operation that must come after the instruction, if there is one. -/
def next? (i : Instr) : Option Opcode :=
  if i.isTest then some .jmp
  else if i.takesExtra then some .extraArg
  else if i.op? = some .tForCall then some .tForLoop
  else if i.op? = some .loadBool ∧ i.c ≠ 0 then some .loadBool
  else none

/-- The instruction and the next one are executed together, so no jump leads between them. -/
def Binds (i : Instr) : Prop :=
  ∃ op, i.next? = some op ∧ op ≠ .loadBool

theorem next?_congr {j : Instr} (hop : j.op? = i.op?) (hc : j.c = i.c) : j.next? = i.next? := by
  unfold next? isTest takesExtra
  rw [hop, hc]

theorem next?_congr' {j : Instr} (hop : j.op? = i.op?)
    (h : i.op? ≠ some .setList ∧ i.op? ≠ some .loadBool) : j.next? = i.next? := by
  simp [next?, isTest, takesExtra, hop, h.1, h.2]

theorem next?_eq_none {op : Opcode} (hop : i.op? = some op)
    (h : op ∉ [.eq, .lt, .le, .test, .testSet, .loadKX, .setList, .tForCall, .loadBool]) : i.next? = none := by
  cases op <;> simp_all [next?, isTest, takesExtra, Opcode.isTest, Opcode.info]

theorem next?_eq_jmp (h : i.isTest) : i.next? = some .jmp := if_pos h

theorem next?_mem {op : Opcode} (h : i.next? = some op) :
    op = .jmp ∨ op = .extraArg ∨ op = .tForLoop ∨ op = .loadBool := by
  unfold next? at h
  split_ifs at h <;> simp_all

end Instr

variable {i j i' : Instr} {code : Array Instr} {T t : Int}

structure Leads (B : Bounds) (i j : Instr) : Prop where
  next : ∀ op, i.next? = some op → j.op? = some op
  extra : j.op? = some .extraArg → i.next? = some .extraArg
  constant : i.op? = some .loadKX → j.ax < B.constants

theorem Leads.mono {C : Bounds} (h : Leads B i j) (hle : B.Le C) : Leads C i j :=
  ⟨h.next, h.extra, fun hop => lt_of_lt_of_le (h.constant hop) hle.constants⟩

/-- After an instruction that needs no particular next one, anything but a large operand may
come. -/
theorem Leads.of_none (hi : i.next? = none) (hj : j.op? ≠ some .extraArg) : Leads B i j := by
  refine ⟨fun op h => by simp [hi] at h, fun h => absurd h hj, fun h => ?_⟩
  simp [Instr.next?, Instr.isTest, Instr.takesExtra, h, Opcode.isTest, Opcode.info] at hi

def Sealed (code : Array Instr) : Prop :=
  ∀ i, code.back? = some i → i.next? = none

theorem sealed_push (h : i.next? = none) : Sealed (code.push i) := by
  intro j hj
  rw [Array.back?_push] at hj
  exact Option.some.inj hj ▸ h

/-- A jump may lead to `t`, where `T` is the last place that a jump is known to reach: what is
before `t` does not belong together with what is at `t`. -/
def IsTarget (code : Array Instr) (T t : Int) : Prop :=
  0 ≤ t ∧ t ≤ T ∧ ∀ (k : Nat) (i : Instr), t = k + 1 → code[k]? = some i → ¬ i.Binds

theorem IsTarget.mono {U : Int} (h : IsTarget code T t) (hle : T ≤ U) : IsTarget code U t :=
  ⟨h.1, h.2.1.trans hle, h.2.2⟩

/-- The start and the end of a counting loop at `pc` and `q` lead to each other. -/
def IsLoop (code : Array Instr) (pc q : Nat) (i : Instr) : Prop :=
  i.target pc = q ∧ ∃ j, code[q]? = some j ∧ j.op? = some .forLoop ∧ j.a = i.a ∧ j.target q = pc + 1

structure Revises (i i' : Instr) : Prop where
  next : i'.next? = i.next?
  follows : ∀ op, i.op? = some op → op ∈ [.jmp, .tForLoop, .loadBool] → i'.op? = some op
  notExtra : i.op? ≠ some .extraArg ∧ i'.op? ≠ some .extraArg
  constant : i'.op? = some .loadKX → i.op? = some .loadKX
  closure : i'.op? = some .closure → i.op? = some .closure ∧ i'.bx = i.bx
  jump : i'.isJump → i.isJump

theorem Revises.of_op {op : Opcode} (hi : i.op? = some op) (hop : i'.op? = some op)
    (hne : op ≠ .extraArg) (hc : i'.c = i.c ∨ op ≠ .setList ∧ op ≠ .loadBool)
    (hbx : op = .closure → i'.bx = i.bx) : Revises i i' where
  next := by
    rcases hc with hc | hc
    · exact Instr.next?_congr (hop.trans hi.symm) hc
    · exact Instr.next?_congr' (hop.trans hi.symm) (by simp [hi, hc.1, hc.2])
  follows _ h _ := by rw [hop, ← hi, h]
  notExtra := by simp [hi, hop, hne]
  constant h := by rw [hi, ← hop, h]
  closure h := ⟨by rw [hi, ← hop, h], hbx (Option.some.inj (hop.symm.trans h))⟩
  jump h := by rwa [Instr.isJump, hi, ← hop]

theorem Revises.not_isJump (h : Revises i i') (hi : i.isJump = false) : i'.isJump = false :=
  Bool.eq_false_iff.2 fun hj => by simp [h.jump hj] at hi

theorem Leads.revise (h : Leads B i j) (hr : Revises i i') : Leads B i' j :=
  ⟨fun op ho => h.next op (hr.next ▸ ho), fun ho => hr.next ▸ h.extra ho, fun ho => h.constant (hr.constant ho)⟩

theorem Leads.revise_right {j' : Instr} (h : Leads B i j) (hr : Revises j j') : Leads B i j' where
  next op ho := by
    have hj := h.next op ho
    refine hr.follows op hj ?_
    rcases Instr.next?_mem ho with rfl | rfl | rfl | rfl
    · simp
    · exact absurd hj hr.notExtra.1
    · simp
    · simp
  extra ho := absurd ho hr.notExtra.2
  constant ho := by
    -- A large constant is followed by a large operand, which is never changed.
    have hn : i.next? = some .extraArg := by
      simp [Instr.next?, Instr.isTest, Instr.takesExtra, ho, Opcode.isTest, Opcode.info]
    exact absurd (h.next _ hn) hr.notExtra.1

/-- An instruction at `pc` may be changed from `i` to `i'`. The offset of a jump, and the ends of a
counting loop, are only changed while they are open. -/
structure Changes (B : Bounds) (H : Set Nat) (pc : Nat) (i i' : Instr) : Prop where
  revises : Revises i i'
  fits : i'.Fits B ∨ i'.Awaits B ∧ pc + 1 ∈ H
  aim : pc ∉ H → i'.isJump → i.isJump ∧ i'.sbx = i.sbx
  loop : pc ∉ H → i.op? ≠ some .forLoop ∧ i'.op? ≠ some .forPrep

theorem exists_getElem?_of_size {α : Type} {xs ys : Array α} (h : ys.size = xs.size) {k : Nat} {x : α}
    (hx : xs[k]? = some x) : ∃ y, ys[k]? = some y := by
  obtain ⟨hk, -⟩ := Array.getElem?_eq_some_iff.1 hx
  exact ⟨_, Array.getElem?_eq_getElem (h ▸ hk)⟩

theorem IsTarget.push (h : IsTarget code T t) (hT : T ≤ code.size) (i : Instr) : IsTarget (code.push i) T t := by
  refine ⟨h.1, h.2.1, fun k j hk hj => h.2.2 k j hk ?_⟩
  have := h.2.1
  rwa [Array.getElem?_push, if_neg (by omega)] at hj

theorem IsTarget.revise {code' : Array Instr} (h : IsTarget code T t) (hsize : code'.size = code.size)
    (hnext : ∀ (q : Nat) (j j' : Instr), code[q]? = some j → code'[q]? = some j' → j'.next? = j.next?) :
    IsTarget code' T t := by
  refine ⟨h.1, h.2.1, fun k j' hk hj' => ?_⟩
  obtain ⟨j, hj⟩ := exists_getElem?_of_size hsize.symm hj'
  have hb := h.2.2 k j hk hj
  rwa [Instr.Binds, ← hnext k j j' hj hj'] at hb

theorem IsTarget.pop (h : IsTarget code T t) : IsTarget code.pop T t := by
  refine ⟨h.1, h.2.1, fun k i hk hi => h.2.2 k i hk ?_⟩
  rw [Array.getElem?_pop] at hi
  split_ifs at hi
  exact hi

/-- The code made so far is in order, except that the jumps at the places in `H` are open. -/
structure CodeOk (B : Bounds) (T : Int) (H : Set Nat) (code : Array Instr) : Prop where
  fits : ∀ {pc : Nat} {i : Instr}, code[pc]? = some i → i.Fits B ∨ i.Awaits B ∧ pc + 1 ∈ H
  leads : ∀ {pc : Nat} {i j : Instr}, code[pc]? = some i → code[pc + 1]? = some j → Leads B i j
  first : ∀ {i : Instr}, code[0]? = some i → i.op? ≠ some .extraArg
  aimed : ∀ {pc : Nat} {i : Instr}, code[pc]? = some i → i.isJump → pc ∉ H → IsTarget code T (i.target pc)
  loops : ∀ {pc : Nat} {i : Instr}, code[pc]? = some i → i.op? = some .forPrep → pc ∉ H →
    ∃ q, q ∉ H ∧ IsLoop code pc q i

namespace CodeOk

variable {B : Bounds} {T : Int} {H : Set Nat} {code : Array Instr}

theorem empty (B : Bounds) (T : Int) (H : Set Nat) : CodeOk B T H #[] where
  fits h := by simp at h
  leads h := by simp at h
  first h := by simp at h
  aimed h := by simp at h
  loops h := by simp at h

section
variable (h : CodeOk B T H code)
include h

theorem mono {C : Bounds} {U : Int} (hB : B.Le C) (hT : T ≤ U) : CodeOk C U H code where
  fits hi := (h.fits hi).imp (fun hf => hf.mono hB)
    fun hf => ⟨⟨hf.1.1, lt_of_lt_of_le hf.1.2 hB.stack⟩, hf.2⟩
  leads hi hj := (h.leads hi hj).mono hB
  first := h.first
  aimed hi hj hH := (h.aimed hi hj hH).mono hT
  loops := h.loops

theorem hold {H' : Set Nat} (hH : H ⊆ H') (hloop : ∀ q ∈ H', ∀ j, code[q]? = some j → j.op? = some .forLoop → q ∈ H) :
    CodeOk B T H' code where
  fits hi := (h.fits hi).imp_right fun hf => ⟨hf.1, hH hf.2⟩
  leads := h.leads
  first := h.first
  aimed hi hj hn := h.aimed hi hj fun hm => hn (hH hm)
  loops hi hop hn := by
    obtain ⟨q, hq, ht, j, hj, hjop, hrest⟩ := h.loops hi hop fun hm => hn (hH hm)
    exact ⟨q, fun hm => hq (hloop q hm j hj hjop), ht, j, hj, hjop, hrest⟩

/-- Jumps are no longer open once they lead to their targets and the tests before them have their
registers. -/
theorem release {H' : Set Nat}
    (haim : ∀ pc ∈ H, pc ∉ H' → ∀ i, code[pc]? = some i → i.isJump → IsTarget code T (i.target pc))
    (hfit : ∀ pc, pc + 1 ∈ H → pc + 1 ∉ H' → ∀ i, code[pc]? = some i → i.Fits B)
    (hloop : ∀ pc ∈ H, pc ∉ H' → ∀ i, code[pc]? = some i → i.op? = some .forPrep → ∃ q, q ∉ H' ∧ IsLoop code pc q i)
    (hsub : H' ⊆ H) : CodeOk B T H' code where
  fits {pc i} hi := by
    rcases h.fits hi with hf | ⟨hf, hm⟩
    · exact .inl hf
    · by_cases hm' : pc + 1 ∈ H'
      · exact .inr ⟨hf, hm'⟩
      · exact .inl (hfit pc hm hm' i hi)
  leads := h.leads
  first := h.first
  aimed {pc i} hi hj hn := by
    by_cases hm : pc ∈ H
    · exact haim pc hm hn i hi hj
    · exact h.aimed hi hj hm
  loops {pc i} hi hop hn := by
    by_cases hm : pc ∈ H
    · exact hloop pc hm hn i hi hop
    · obtain ⟨q, hq, hl⟩ := h.loops hi hop hm
      exact ⟨q, fun hq' => hq (hsub hq'), hl⟩

theorem push (hT : T ≤ code.size) (hlead : ∀ j, code.back? = some j → Leads B j i)
    (hfirst : code.size = 0 → i.op? ≠ some .extraArg)
    (hfit : i.Fits B ∨ i.Awaits B ∧ code.size + 1 ∈ H) (hopen : i.isJump → code.size ∈ H) :
    CodeOk B T H (code.push i) where
  fits {pc j} hj := by
    rw [Array.getElem?_push] at hj
    split_ifs at hj with hpc
    · cases hj
      exact hpc ▸ hfit
    · exact h.fits hj
  leads {pc j k} hj hk := by
    rw [Array.getElem?_push] at hj hk
    split_ifs at hk with hpc
    · cases hk
      rw [if_neg (by omega)] at hj
      exact hlead j (by rw [Array.back?_eq_getElem?, ← hpc, Nat.add_sub_cancel, hj])
    · have hlt := lt_size_of_some hk
      rw [if_neg (by omega)] at hj
      exact h.leads hj hk
  first {j} hj := by
    rw [Array.getElem?_push] at hj
    split_ifs at hj with h0
    · cases hj
      exact hfirst h0.symm
    · exact h.first hj
  aimed {pc j} hj hjump hn := by
    rw [Array.getElem?_push] at hj
    split_ifs at hj with hpc
    · cases hj
      exact absurd (hpc ▸ hopen hjump) hn
    · exact (h.aimed hj hjump hn).push hT i
  loops {pc j} hj hop hn := by
    rw [Array.getElem?_push] at hj
    split_ifs at hj with hpc
    · cases hj
      exact absurd (hpc ▸ hopen (by simp [Instr.isJump, hop])) hn
    · obtain ⟨q, hq, ht, k, hk, hrest⟩ := h.loops hj hop hn
      have hlt := lt_size_of_some hk
      exact ⟨q, hq, ht, k, by rw [Array.getElem?_push, if_neg (by omega), hk], hrest⟩

theorem revise {code' : Array Instr} (hsize : code'.size = code.size)
    (hrev : ∀ (pc : Nat) (i i' : Instr), code[pc]? = some i → code'[pc]? = some i' → i' = i ∨ Changes B H pc i i') :
    CodeOk B T H code' where
  fits {pc i'} hi' := by
    obtain ⟨i, hi⟩ := exists_getElem?_of_size hsize.symm hi'
    rcases hrev pc i i' hi hi' with rfl | hc
    · exact h.fits hi
    · exact hc.fits
  leads {pc i' j'} hi' hj' := by
    obtain ⟨i, hi⟩ := exists_getElem?_of_size hsize.symm hi'
    obtain ⟨j, hj⟩ := exists_getElem?_of_size hsize.symm hj'
    have hl := h.leads hi hj
    have hl' : Leads B i' j := by
      rcases hrev pc i i' hi hi' with rfl | hc
      · exact hl
      · exact hl.revise hc.revises
    rcases hrev (pc + 1) j j' hj hj' with rfl | hc
    · exact hl'
    · exact hl'.revise_right hc.revises
  first {i'} hi' := by
    obtain ⟨i, hi⟩ := exists_getElem?_of_size hsize.symm hi'
    rcases hrev 0 i i' hi hi' with rfl | hc
    · exact h.first hi
    · exact hc.revises.notExtra.2
  aimed {pc i'} hi' hjump hn := by
    obtain ⟨i, hi⟩ := exists_getElem?_of_size hsize.symm hi'
    have hnext : ∀ (q : Nat) (j j' : Instr), code[q]? = some j → code'[q]? = some j' → j'.next? = j.next? := by
      intro q j j' hj hj'
      rcases hrev q j j' hj hj' with rfl | hc
      · rfl
      · exact hc.revises.next
    rcases hrev pc i i' hi hi' with rfl | hc
    · exact (h.aimed hi hjump hn).revise hsize hnext
    · obtain ⟨hij, hs⟩ := hc.aim hn hjump
      rw [Instr.target, hs]
      exact (h.aimed hi hij hn).revise hsize hnext
  loops {pc i'} hi' hop hn := by
    obtain ⟨i, hi⟩ := exists_getElem?_of_size hsize.symm hi'
    rcases hrev pc i i' hi hi' with rfl | hc
    · obtain ⟨q, hq, ht, j, hj, hjop, hrest⟩ := h.loops hi hop hn
      obtain ⟨j', hj'⟩ := exists_getElem?_of_size hsize hj
      rcases hrev q j j' hj hj' with rfl | hc
      · exact ⟨q, hq, ht, j', hj', hjop, hrest⟩
      · exact absurd hjop (hc.loop hq).1
    · exact absurd hop (hc.loop hn).2

theorem pop (hlast : ∀ i, code.back? = some i → i.op? ≠ some .forLoop) : CodeOk B T H code.pop := by
  have of_pop : ∀ {k : Nat} {i : Instr}, code.pop[k]? = some i → code[k]? = some i := by
    intro k i hi
    rw [Array.getElem?_pop] at hi
    split_ifs at hi
    exact hi
  refine ⟨fun hi => h.fits (of_pop hi), fun hi hj => h.leads (of_pop hi) (of_pop hj),
    fun hi => h.first (of_pop hi), fun hi hj hn => (h.aimed (of_pop hi) hj hn).pop,
    fun hi hop hn => ?_⟩
  obtain ⟨q, hq, ht, j, hj, hjop, hrest⟩ := h.loops (of_pop hi) hop hn
  refine ⟨q, hq, ht, j, ?_, hjop, hrest⟩
  have hlt := lt_size_of_some hj
  rw [Array.getElem?_pop, if_pos, hj]
  by_contra hge
  exact hlast j (by rw [Array.back?_eq_getElem?, ← hj]; congr 1; omega) hjop

end

end CodeOk

end RegisterCompiler
