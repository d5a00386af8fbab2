import Mathlib.Data.List.Nodup
import Mathlib.Data.List.Perm.Subperm
import RegisterCompiler.Generator.Jumps
import RegisterCompiler.Proofs.CodeInvariant
import RegisterCompiler.Proofs.Outcome

/-!
# Chains of jumps

What the steps on jump lists do, exactly.

* `Chain code l ps` : the list `l` is the chain of the jumps at the places `ps`. The places of a
  chain are distinct, so following it ends within the bound on steps;
* `storesAt`, `Instr.settle` : a test that stores its value, and what becomes of it once it is known
  where the value is wanted;
* `patchValues_spec`, `dropValues_spec`, `closeOnJump_spec` : which instructions a walk along a
  chain changes, and how, as the relations `Patched`, `Dropped` and `Closing`.
-/

namespace RegisterCompiler

/-- The state with other instructions in the function under construction. -/
abbrev GenState.setCode (s : GenState) (code : Array Instr) : GenState :=
  { s with fn := { s.fn with code := code } }

theorem JumpList.eq_ofHead {l : JumpList} {pc : Int} (h : l.head = some pc) : l = .ofHead pc := by
  cases l
  exact congrArg JumpList.mk h

/-! ## Places of a list -/

/-- What follows the jump `i` at `p` in its chain. -/
def link (p : Nat) (i : Instr) : JumpList :=
  if i.sbx = Gen.noJump then .empty else .ofHead (p + 1 + i.sbx)

/-- The list `l` consists of the jumps at the places `ps`, in this order. -/
inductive Chain (code : Array Instr) : JumpList → List Nat → Prop
  | nil {l : JumpList} : l.head = none → Chain code l []
  | cons {l : JumpList} {p : Nat} {i : Instr} {ps : List Nat} : l.head = some (p : Int) →
      code[p]? = some i → i.isJump → Chain code (link p i) ps → Chain code l (p :: ps)

namespace Chain

variable {code code' : Array Instr} {l : JumpList} {ps qs : List Nat} {p : Nat}

theorem empty (code : Array Instr) : Chain code .empty [] := .nil rfl

theorem single {i : Instr} (hi : code[p]? = some i) (hj : i.isJump)
    (hs : i.sbx = Gen.noJump) : Chain code (.ofHead p) [p] :=
  .cons rfl hi hj (.nil (by rw [link, if_pos hs]; rfl))

section
variable (h : Chain code l ps)
include h

theorem jump_of_mem (hp : p ∈ ps) : ∃ i, code[p]? = some i ∧ i.isJump := by
  induction h with
  | nil => simp at hp
  | cons _ hi hj _ ih =>
    rcases List.mem_cons.1 hp with rfl | hp
    · exact ⟨_, hi, hj⟩
    · exact ih hp

theorem lt_of_mem (hp : p ∈ ps) : p < code.size := by
  obtain ⟨i, hi, -⟩ := h.jump_of_mem hp
  exact lt_size_of_some hi

theorem congr (hcode : ∀ p ∈ ps, code'[p]? = code[p]?) : Chain code' l ps := by
  induction h with
  | nil hl => exact .nil hl
  | cons hl hi hj _ ih =>
    refine .cons hl ((hcode _ (List.mem_cons_self ..)).trans hi) hj (ih fun p hp => ?_)
    exact hcode p (List.mem_cons_of_mem _ hp)

theorem unique (h' : Chain code l qs) : ps = qs := by
  induction h generalizing qs with
  | nil hl => cases h' with
    | nil => rfl
    | cons hl' => simp [hl] at hl'
  | cons hl hi _ _ ih => cases h' with
    | nil hl' => simp [hl] at hl'
    | cons hl' hi' _ hrest =>
      rw [hl, Option.some.injEq, Int.natCast_inj] at hl'
      subst hl'
      cases hi.symm.trans hi'
      rw [ih hrest]

theorem suffix (hp : p ∈ ps) : ∃ qs, p :: qs <:+ ps ∧ Chain code (.ofHead p) (p :: qs) := by
  induction h with
  | nil => simp at hp
  | @cons l q i ps hl hi hj hrest ih =>
    rcases List.mem_cons.1 hp with rfl | hp
    · exact ⟨ps, List.suffix_refl _, .cons rfl hi hj hrest⟩
    · obtain ⟨qs, hs, hc⟩ := ih hp
      exact ⟨qs, hs.trans (List.suffix_cons ..), hc⟩

theorem nodup : ps.Nodup := by
  induction h with
  | nil => exact List.nodup_nil
  | @cons l q i ps hl hi hj hrest ih =>
    refine List.nodup_cons.2 ⟨fun hq => ?_, ih⟩
    obtain ⟨qs, hs, hc⟩ := hrest.suffix hq
    have heq := hc.unique (.cons rfl hi hj hrest)
    have hlen := hs.length_le
    rw [heq, List.length_cons] at hlen
    omega

theorem length_le : ps.length ≤ code.size := by
  have hsub : ps ⊆ List.range code.size := fun p hp => List.mem_range.2 (h.lt_of_mem hp)
  simpa using (h.nodup.subperm hsub).length_le

end

theorem eq_empty (h : Chain code l []) : l = .empty := by
  cases h with
  | nil hl => cases l; simpa [JumpList.empty] using hl

theorem eq_nil (h : Chain code .empty ps) : ps = [] := by
  cases h with
  | nil => rfl
  | cons hl => simp [JumpList.empty] at hl

theorem eq_iff_of_disjoint {l' : JumpList} (h : Chain code l ps) (h' : Chain code l' qs)
    (hd : ps.Disjoint qs) : l = l' ↔ ps = [] ∧ qs = [] := by
  constructor
  · rintro rfl
    obtain rfl := h.unique h'
    have hnil : ps = [] := List.eq_nil_iff_forall_not_mem.2 fun p hp => hd hp hp
    exact ⟨hnil, hnil⟩
  · rintro ⟨rfl, rfl⟩
    rw [h.eq_empty, h'.eq_empty]

theorem extend {q : Nat} {j : Instr} (h : Chain code l (p :: ps)) (hlast : (p :: ps).getLast? = some q)
    (hkeep : ∀ x ∈ p :: ps, x ≠ q → code'[x]? = code[x]?) (hj : code'[q]? = some j)
    (hjump : j.isJump) (hqs : Chain code' (link q j) qs) : Chain code' l (p :: ps ++ qs) := by
  induction ps generalizing l p with
  | nil =>
    obtain rfl : p = q := by simpa using hlast
    cases h with
    | cons hl => exact .cons hl hj hjump hqs
  | cons p' ps ih =>
    have hnd := h.nodup
    cases h with
    | cons hl hi hij hrest =>
      have hlast' : (p' :: ps).getLast? = some q := by
        exact hlast
      have hpq : p ≠ q := by
        rintro rfl
        exact (List.nodup_cons.1 hnd).1 (List.mem_of_getLast? hlast')
      refine .cons hl ((hkeep p (List.mem_cons_self ..) hpq).trans hi) hij (ih hrest hlast' ?_)
      exact fun x hx => hkeep x (List.mem_cons_of_mem _ hx)

end Chain

namespace Gen

variable {s : GenState} {l : JumpList} {ps : List Nat}
  {pc : Int} {p : Nat} {i : Instr} {code : Array Instr}

theorem ensures_instrAt {Q : Instr → GenState → Prop}
    (hpc : pc = p) (hi : s.fn.code[p]? = some i) : (instrAt pc).Ensures s Q ↔ Q i s := by
  have hlt := lt_size_of_some hi
  unfold instrAt
  simp only [ensures_bind, ensures_getFn]
  rw [ensures_place (by omega), show pc.toNat = p by omega, hi]
  exact ensures_pure

theorem ensures_updateInstr {f : Instr → Instr} {Q : Unit → GenState → Prop} (hpc : pc = p) (hp : p < s.fn.code.size) :
    (updateInstr pc f).Ensures s Q ↔ Q () (s.setCode (s.fn.code.modify p f)) := by
  unfold updateInstr
  simp only [ensures_bind, ensures_getFn]
  rw [ensures_place (by omega), show pc.toNat = p by omega]
  exact ensures_modifyFn

theorem ensures_setTarget {target : Int} {Q : Unit → GenState → Prop}
    (hpc : pc = p) (hp : p < s.fn.code.size) (ht : 0 ≤ target) : (setTarget pc target).Ensures s Q ↔
      (-maxSBx ≤ target - (p + 1) ∧ target - (p + 1) ≤ maxSBx →
        Q () (s.setCode (s.fn.code.modify p (·.setSBx (target - (p + 1)))))) := by
  subst hpc
  unfold setTarget
  rw [ensures_bind, ensures_require (by simpa using ht)]
  simp only []
  split
  · rename_i h
    simp only [Bool.or_eq_true, decide_eq_true_eq] at h
    simp only [ensures_bind, ensures_error, true_iff]
    omega
  · rename_i h
    simp only [Bool.or_eq_true, decide_eq_true_eq] at h
    rw [ensures_updateInstr rfl hp]
    exact ⟨fun hq _ => hq, fun hq => hq (by omega)⟩

theorem ensures_nextJump {Q : JumpList → GenState → Prop}
    (hi : s.fn.code[p]? = some i) : (nextJump p).Ensures s Q ↔ Q (link p i) s := by
  unfold nextJump
  rw [ensures_bind, ensures_instrAt rfl hi]
  exact ensures_pure

/-! ## Joining chains -/

theorem lastJumpIn_eq {q : Nat} (h : Chain code l (p :: ps))
    (hlast : (p :: ps).getLast? = some q) {fuel : Nat} (hfuel : (p :: ps).length ≤ fuel) :
    lastJumpIn code fuel p = .ok (q : Int) := by
  induction fuel generalizing l p ps with
  | zero => simp at hfuel
  | succ fuel ih =>
    cases h with
    | @cons _ _ i _ hl hi hj hrest =>
      obtain ⟨hp, hget⟩ := Array.getElem?_eq_some_iff.1 hi
      rw [lastJumpIn, if_neg (by omega)]
      simp only [Int.toNat_natCast, hp, ↓reduceDIte, hget]
      cases hrest with
      | nil hnil =>
        have hs : i.sbx = noJump := by
          by_contra hs
          simp [link, hs, JumpList.ofHead] at hnil
        have hpq : p = q := by simpa using hlast
        rw [if_pos hs, hpq]
      | @cons _ p' _ ps' hcons hi' hj' hrest' =>
        have hs : i.sbx ≠ noJump := by
          intro hs
          simp [link, hs, JumpList.empty] at hcons
        have hp' : (p : Int) + 1 + i.sbx = p' := by
          simpa [link, hs, JumpList.ofHead] using hcons
        rw [if_neg hs, hp']
        refine ih (.cons hcons hi' hj' hrest') ?_ (by simpa using hfuel)
        rwa [List.getLast?_cons_cons] at hlast

/-- The offsets of some of the jumps at `ps` are changed, and nothing else. -/
structure Relinked (ps : List Nat) (code code' : Array Instr) : Prop where
  size : code'.size = code.size
  jump : ∀ p ∈ ps, ∀ i, code[p]? = some i →
    code'[p]? = some i ∨ ∃ v, code'[p]? = some (i.setSBx v)
  other : ∀ p, p ∉ ps → code'[p]? = code[p]?

theorem Relinked.refl (ps : List Nat) (code : Array Instr) : Relinked ps code code :=
  ⟨rfl, fun _ _ _ h => .inl h, fun _ _ => rfl⟩

theorem Relinked.mono {qs : List Nat} {code' : Array Instr} (h : Relinked ps code code')
    (hsub : ps ⊆ qs) : Relinked qs code code' where
  size := h.size
  jump p _ i hi := by
    by_cases hp : p ∈ ps
    · exact h.jump p hp i hi
    · exact .inl ((h.other p hp).trans hi)
  other p hp := h.other p fun hmem => hp (hsub hmem)

theorem concat_spec {l1 l2 : JumpList} {qs : List Nat} (h1 : Chain s.fn.code l1 ps)
    (h2 : Chain s.fn.code l2 qs) (hd : ps.Disjoint qs) :
    (concat l1 l2).Ensures s fun l t => ∃ code, t = s.setCode code ∧ Chain code l (ps ++ qs) ∧
      Relinked ps.getLast?.toList s.fn.code code := by
  unfold concat
  cases h2 with
  | nil hl2 =>
    rw [hl2]
    exact ⟨s.fn.code, rfl, by simpa using h1, .refl ..⟩
  | @cons _ q j qs hl2 hj hjump hrest =>
    have hq := Chain.cons hl2 hj hjump hrest
    cases h1 with
    | nil hl1 =>
      rw [hl1, hl2]
      exact ⟨s.fn.code, rfl, hq, .refl ..⟩
    | @cons _ p i ps hl1 hi hij hrest1 =>
      have hp := Chain.cons hl1 hi hij hrest1
      obtain ⟨k, hk⟩ : ∃ k, (p :: ps).getLast? = some k :=
        Option.isSome_iff_exists.1 (by simp)
      have hmem := List.mem_of_getLast? hk
      have hklt := hp.lt_of_mem hmem
      have hlast := lastJumpIn_eq hp hk (Nat.le_succ_of_le hp.length_le)
      rw [hl1, hl2]
      simp only [lastJump, ensures_bind, ensures_getFn, hlast, ensures_pure]
      rw [ensures_setTarget rfl hklt (Int.natCast_nonneg q)]
      intro hoff
      obtain ⟨x, hx, hxj⟩ := hp.jump_of_mem hmem
      have hx' : (s.fn.code.modify k (·.setSBx (q - (k + 1))))[k]? =
          some (x.setSBx (q - (k + 1))) := by
        rw [Array.getElem?_modify, if_pos rfl, hx]
        rfl
      have hkq : k ∉ q :: qs := fun h => hd hmem h
      -- The offset leads to the second chain, and is not the mark of an end.
      have hlink : link k (x.setSBx (q - (k + 1))) = l2 := by
        have hne : q ≠ k := fun h => hkq (h ▸ List.mem_cons_self ..)
        rw [link, Instr.sbx_setSBx _ hoff, if_neg (by simp only [noJump]; omega),
          JumpList.eq_ofHead hl2]
        congr 1
        omega
      refine ⟨_, rfl, ?_, Array.size_modify, fun y _ z hz => ?_, fun y hy => ?_⟩
      · refine hp.extend hk (fun y _ hy => ?_) hx' (by simpa [Instr.isJump] using hxj) ?_
        · rw [Array.getElem?_modify, if_neg hy.symm]
        · rw [hlink]
          refine hq.congr fun y hy => ?_
          rw [Array.getElem?_modify, if_neg]
          rintro rfl
          exact hkq hy
      · rw [Array.getElem?_modify, hz]
        split
        · exact .inr ⟨_, rfl⟩
        · exact .inl rfl
      · rw [Array.getElem?_modify, if_neg]
        rintro rfl
        exact hy (by simp [hk])

/-! ## Tests that store their value -/

/-- The place of the instruction that decides about the jump at a place. -/
def deciding (code : Array Instr) : Nat → Nat
  | 0 => 0
  | k + 1 => if code[k]?.any Instr.isTest then k else k + 1

/-- The jump at a place belongs to a test that stores the tested value. -/
def storesAt (code : Array Instr) : Nat → Bool
  | 0 => false
  | k + 1 => code[k]?.any fun i => i.op? == some .testSet

theorem storesAt_succ_iff {k : Nat} :
    storesAt code (k + 1) = true ↔ ∃ i, code[k]? = some i ∧ i.op? = some .testSet := by
  cases h : code[k]? <;> simp [storesAt, h]

theorem ensures_decidingPlace {Q : Int → GenState → Prop} (hp : p < s.fn.code.size) :
    (decidingPlace p).Ensures s Q ↔ Q (deciding s.fn.code p) s := by
  unfold decidingPlace
  cases p with
  | zero => exact ensures_pure
  | succ k =>
    have hk : s.fn.code[k]? = some s.fn.code[k] := Array.getElem?_eq_getElem (by omega)
    rw [if_pos (by omega), ensures_bind, ensures_instrAt (p := k) (by omega) hk]
    simp only [deciding, hk, Option.any_some, Instr.isTest]
    cases s.fn.code[k].op? with
    | none => simp
    | some op =>
      by_cases ht : op.isTest <;> simp [ht]

theorem not_testSet_of_isJump (h : i.isJump) : i.op? ≠ some .testSet := by
  intro hop
  simp [Instr.isJump, hop] at h

theorem deciding_testSet (hi : code[p]? = some i) (hj : i.isJump) :
    ∃ d, code[deciding code p]? = some d ∧ (d.op? = some .testSet ↔ storesAt code p = true) := by
  cases p with
  | zero => exact ⟨i, hi, by simp [storesAt, not_testSet_of_isJump hj]⟩
  | succ k =>
    have hlt := lt_size_of_some hi
    have hk : code[k]? = some code[k] := Array.getElem?_eq_getElem (by omega)
    simp only [deciding, storesAt, hk, Option.any_some]
    by_cases ht : code[k].isTest
    · rw [if_pos ht]
      exact ⟨_, hk, by simp⟩
    · rw [if_neg ht]
      refine ⟨i, hi, ?_⟩
      simp only [not_testSet_of_isJump hj, false_iff, beq_iff_eq]
      intro hop
      simp [Instr.isTest, hop, Opcode.isTest, Opcode.info] at ht

theorem wantsValueFrom_spec {fuel : Nat} (h : Chain s.fn.code l ps) (hfuel : ps.length < fuel) :
    (wantsValueFrom fuel l).Ensures s fun b t => t = s ∧ (b = false ↔ ∀ p ∈ ps, storesAt s.fn.code p) := by
  induction fuel generalizing l ps with
  | zero => omega
  | succ fuel ih =>
    unfold wantsValueFrom
    cases h with
    | nil hl =>
      rw [hl]
      exact ⟨rfl, by simp⟩
    | @cons _ p i ps hl hi hj hrest =>
      obtain ⟨d, hd, hstore⟩ := deciding_testSet hi hj
      rw [hl]
      simp only [ensures_bind]
      rw [ensures_decidingPlace (lt_size_of_some hi), ensures_instrAt rfl hd]
      by_cases ht : d.op? = some .testSet
      · rw [if_neg (by simp [ht]), ensures_bind, ensures_nextJump hi]
        refine (ih hrest (by simpa using hfuel)).mono fun b t hb => ⟨hb.1, ?_⟩
        simp [hb.2, hstore.1 ht]
      · rw [if_pos (by simp [ht])]
        refine ⟨rfl, ?_⟩
        simp only [List.forall_mem_cons, Bool.true_eq_false, false_iff, not_and]
        exact fun hs => absurd (hstore.2 hs) ht

theorem wantsValue_spec (h : Chain s.fn.code l ps) :
    (wantsValue l).Ensures s fun b t => t = s ∧ (b = false ↔ ∀ p ∈ ps, storesAt s.fn.code p) := by
  exact wantsValueFrom_spec h (Nat.lt_succ_of_le h.length_le)

end Gen

/-- A storing test once it is known that its value goes to `reg`: it stores it there, or nothing if
there is no such register or the value is in it already. -/
def Instr.settle (reg : Int) (i : Instr) : Instr :=
  if reg ≠ Gen.noRegister ∧ reg ≠ i.b then i.setA reg else .abc Opcode.test.code i.b 0 i.c

namespace Gen

variable {s : GenState} {l : JumpList} {ps : List Nat} {reg : Int} {code : Array Instr} {i : Instr}

/-- The code in which the test of the jump at a place is settled. -/
def settleAt (reg : Int) (code : Array Instr) : Nat → Array Instr
  | 0 => code
  | k + 1 => if storesAt code (k + 1) then code.modify k (·.settle reg) else code

@[simp] theorem size_settleAt {p : Nat} : (settleAt reg code p).size = code.size := by
  cases p with
  | zero => rfl
  | succ k =>
    simp only [settleAt]
    split <;> simp

theorem getElem?_settleAt_of_ne {p q : Nat}
    (h : q + 1 = p → storesAt code p = false) : (settleAt reg code p)[q]? = code[q]? := by
  cases p with
  | zero => rfl
  | succ k =>
    simp only [settleAt]
    split
    · rename_i hs
      rw [Array.getElem?_modify, if_neg]
      rintro rfl
      simp [h rfl] at hs
    · rfl

theorem getElem?_settleAt {q : Nat} (hi : code[q]? = some i) (hop : i.op? = some .testSet) :
    (settleAt reg code (q + 1))[q]? = some (i.settle reg) := by
  rw [settleAt, if_pos (storesAt_succ_iff.2 ⟨i, hi, hop⟩), Array.getElem?_modify, if_pos rfl, hi]
  rfl

theorem modify_congr {k : Nat} {f g : Instr → Instr}
    (hi : code[k]? = some i) (hfg : f i = g i) : code.modify k f = code.modify k g := by
  apply Array.ext_getElem?
  intro q
  simp only [Array.getElem?_modify]
  split
  · rename_i hq
    subst hq
    simp [hi, hfg]
  · rfl

theorem patchTest_spec {p : Nat} (hi : s.fn.code[p]? = some i) (hj : i.isJump) : (patchTest p reg).Ensures s fun b t =>
      b = storesAt s.fn.code p ∧ t = s.setCode (settleAt reg s.fn.code p) := by
  obtain ⟨d, hd, hstore⟩ := deciding_testSet hi hj
  unfold patchTest
  simp only [ensures_bind]
  rw [ensures_decidingPlace (lt_size_of_some hi), ensures_instrAt rfl hd]
  cases p with
  | zero =>
    rw [if_pos (by simpa [storesAt] using hstore)]
    exact ⟨rfl, rfl⟩
  | succ k =>
    by_cases hs : storesAt s.fn.code (k + 1) = true
    · obtain ⟨j, hjk, hop⟩ := storesAt_succ_iff.1 hs
      have hk : deciding s.fn.code (k + 1) = k := by
        simp [deciding, hjk, Instr.isTest, hop, Opcode.isTest, Opcode.info]
      rw [hk] at hd ⊢
      have hlt := lt_size_of_some hd
      rw [if_neg (by simp [hstore.2 hs]), settleAt, if_pos hs]
      split
      · rename_i hreg
        rw [ensures_bind, ensures_updateInstr rfl hlt]
        refine ⟨hs.symm, ?_⟩
        rw [modify_congr (f := (·.settle reg)) hd (if_pos (by simpa using hreg))]
      · rename_i hreg
        rw [ensures_bind, ensures_updateInstr rfl hlt]
        refine ⟨hs.symm, ?_⟩
        rw [modify_congr (f := (·.settle reg)) (g := fun i => .abc Opcode.test.code i.b 0 i.c) hd
          (if_neg (by simpa using hreg))]
    · rw [if_pos (by simpa using fun h => hs (hstore.1 h))]
      rw [settleAt, if_neg hs]
      exact ⟨by simpa using hs, rfl⟩

/-! ## Walks along a chain -/

/-- The jumps at `ps` get their targets: `withValue` for those whose test stores its value, which
then goes to `reg`, and `without` for the others. -/
structure Patched (ps : List Nat) (withValue reg without : Int) (code code' : Array Instr) :
    Prop where
  size : code'.size = code.size
  jump : ∀ p ∈ ps, ∀ i, code[p]? = some i → ∃ v, -maxSBx ≤ v ∧ v ≤ maxSBx ∧
    p + 1 + v = (if storesAt code p then withValue else without) ∧
    code'[p]? = some (i.setSBx v)
  test : ∀ p, p + 1 ∈ ps → ∀ i, code[p]? = some i → i.op? = some .testSet →
    code'[p]? = some (i.settle reg)
  other : ∀ p, p ∉ ps → (p + 1 ∈ ps → storesAt code (p + 1) = false) → code'[p]? = code[p]?

/-- The code after one step of the walk: the jump at `p` gets the offset `v`. -/
def aimOne (reg : Int) (code : Array Instr) (p : Nat) (v : Int) : Array Instr :=
  (settleAt reg code p).modify p (·.setSBx v)

section AimOne
variable {reg v : Int} {code : Array Instr} {p q : Nat} {i j : Instr}

theorem getElem?_aimOne_self (hi : code[p]? = some i) : (aimOne reg code p v)[p]? = some (i.setSBx v) := by
  rw [aimOne, Array.getElem?_modify, if_pos rfl, getElem?_settleAt_of_ne (by omega), hi]
  rfl

theorem getElem?_aimOne_of_ne (hq : q ≠ p) (hs : q + 1 = p → storesAt code p = false) :
    (aimOne reg code p v)[q]? = code[q]? := by
  rw [aimOne, Array.getElem?_modify, if_neg hq.symm, getElem?_settleAt_of_ne hs]

theorem getElem?_aimOne_of_isJump (hq : q ≠ p) (hj : code[q]? = some j) (hjump : j.isJump) :
    (aimOne reg code p v)[q]? = code[q]? := by
  refine getElem?_aimOne_of_ne hq ?_
  rintro rfl
  cases hs : storesAt code (q + 1) with
  | false => rfl
  | true =>
    obtain ⟨j', hj', hop⟩ := storesAt_succ_iff.1 hs
    rw [hj] at hj'
    exact absurd (Option.some.inj hj' ▸ hop) (not_testSet_of_isJump hjump)

theorem storesAt_aimOne (hi : code[p]? = some i) (hq : q ≠ p) :
    storesAt (aimOne reg code p v) q = storesAt code q := by
  cases q with
  | zero => rfl
  | succ k =>
    by_cases hk : k = p
    · subst hk
      simp [storesAt, getElem?_aimOne_self hi, hi]
    · simp only [storesAt]
      rw [getElem?_aimOne_of_ne hk (by omega)]

end AimOne

variable {wv wo : Int} {fuel : Nat}

theorem Patched.cons {code' : Array Instr} {p : Nat} {v : Int}
    (hi : code[p]? = some i) (hj : i.isJump) (hps : ∀ q ∈ ps, ∃ j, code[q]? = some j ∧ j.isJump)
    (hp : p ∉ ps) (hv : -maxSBx ≤ v ∧ v ≤ maxSBx)
    (ht : p + 1 + v = if storesAt code p then wv else wo)
    (h : Patched ps wv reg wo (aimOne reg code p v) code') :
    Patched (p :: ps) wv reg wo code code' where
  size := by rw [h.size, aimOne, Array.size_modify, size_settleAt]
  jump q hq j hjq := by
    rcases List.mem_cons.1 hq with rfl | hq
    · cases hi.symm.trans hjq
      refine ⟨v, hv.1, hv.2, ht, ?_⟩
      rw [h.other q hp, getElem?_aimOne_self hi]
      simp [storesAt, getElem?_aimOne_self hi, not_testSet_of_isJump hj]
    · have hqp : q ≠ p := fun h => hp (h ▸ hq)
      obtain ⟨j', hj', hjump⟩ := hps q hq
      obtain ⟨w, h1, h2, h3, h4⟩ :=
        h.jump q hq j (by rw [getElem?_aimOne_of_isJump hqp hj' hjump, hjq])
      exact ⟨w, h1, h2, by rw [h3, storesAt_aimOne hi hqp], h4⟩
  test q hq j hjq hop := by
    have hqp : q ≠ p := by
      rintro rfl
      rw [hi] at hjq
      exact not_testSet_of_isJump hj (Option.some.inj hjq ▸ hop)
    have hqn : q ∉ ps := by
      intro hq
      obtain ⟨j', hj', hjump⟩ := hps q hq
      rw [hjq] at hj'
      exact not_testSet_of_isJump hjump (Option.some.inj hj' ▸ hop)
    rcases List.mem_cons.1 hq with rfl | hq'
    · rw [h.other q hqn fun hq => absurd hq hp, aimOne, Array.getElem?_modify, if_neg (by omega)]
      exact getElem?_settleAt hjq hop
    · refine h.test q hq' j ?_ hop
      rw [getElem?_aimOne_of_ne hqp, hjq]
      rintro rfl
      exact absurd hq' hp
  other q hq hs := by
    obtain ⟨hqp, hqn⟩ := not_or.1 (mt List.mem_cons.2 hq)
    rw [h.other q hqn, getElem?_aimOne_of_ne hqp]
    · rintro rfl
      exact hs (List.mem_cons_self ..)
    · intro hq'
      rw [storesAt_aimOne hi fun h => hp (h ▸ hq')]
      exact hs (List.mem_cons_of_mem _ hq')

theorem patchFrom_spec (h : Chain s.fn.code l ps) (hfuel : ps.length < fuel)
    (ht : ∀ p ∈ ps, 0 ≤ if storesAt s.fn.code p then wv else wo) :
    (patchFrom wv reg wo fuel l).Ensures s fun _ t => ∃ code, t = s.setCode code ∧
      Patched ps wv reg wo s.fn.code code := by
  induction fuel generalizing s l ps with
  | zero => omega
  | succ fuel ih =>
    unfold patchFrom
    have hnd := h.nodup
    cases h with
    | nil hl =>
      rw [hl]
      exact ⟨s.fn.code, rfl, rfl, by simp, by simp, fun _ _ _ => rfl⟩
    | @cons _ p i ps hl hi hj hrest =>
      have hp := (List.nodup_cons.1 hnd).1
      have hlt := lt_size_of_some hi
      have hps : ∀ q ∈ ps, ∃ j, s.fn.code[q]? = some j ∧ j.isJump := fun q hq =>
        hrest.jump_of_mem hq
      have hstep : ∀ target, 0 ≤ target →
          target = (if storesAt s.fn.code p then wv else wo) →
          (setTarget p target).Ensures (s.setCode (settleAt reg s.fn.code p)) fun _ t =>
            (patchFrom wv reg wo fuel (link p i)).Ensures t fun _ t =>
              ∃ code, t = s.setCode code ∧ Patched (p :: ps) wv reg wo s.fn.code code := by
        intro target h0 htarget
        rw [ensures_setTarget rfl (by simpa using hlt) h0]
        intro hoff
        have hchain : Chain (aimOne reg s.fn.code p (target - (p + 1))) (link p i) ps := by
          refine hrest.congr fun q hq => ?_
          obtain ⟨j, hjq, hjump⟩ := hps q hq
          exact getElem?_aimOne_of_isJump (fun h => hp (h ▸ hq)) hjq hjump
        refine (ih (s := s.setCode (aimOne reg s.fn.code p (target - (p + 1)))) hchain
          (by simpa using hfuel) fun q hq => ?_).mono ?_
        · rw [storesAt_aimOne hi fun h => hp (h ▸ hq)]
          exact ht q (List.mem_cons_of_mem _ hq)
        · rintro - t ⟨code, rfl, hpat⟩
          exact ⟨code, rfl, hpat.cons hi hj hps hp hoff (by omega)⟩
      rw [hl]
      simp only [ensures_bind]
      rw [ensures_nextJump hi]
      refine (patchTest_spec hi hj).mono ?_
      rintro b t ⟨rfl, rfl⟩
      have h0 := ht p (List.mem_cons_self ..)
      split
      · rename_i hs
        rw [if_pos hs] at h0
        exact ensures_bind.2 (hstep wv h0 (if_pos hs).symm)
      · rename_i hs
        rw [if_neg hs] at h0
        exact ensures_bind.2 (hstep wo h0 (if_neg hs).symm)

theorem patchValues_spec (h : Chain s.fn.code l ps)
    (ht : ∀ p ∈ ps, 0 ≤ if storesAt s.fn.code p then wv else wo) :
    (patchValues l wv reg wo).Ensures s fun _ t => ∃ code, t = s.setCode code ∧
      Patched ps wv reg wo s.fn.code code := by
  exact patchFrom_spec h (Nat.lt_succ_of_le h.length_le) ht

/-- The tests of the jumps at `ps` no longer store their values. -/
structure Dropped (ps : List Nat) (code code' : Array Instr) : Prop where
  size : code'.size = code.size
  test : ∀ p, p + 1 ∈ ps → ∀ i, code[p]? = some i → i.op? = some .testSet →
    code'[p]? = some (i.settle noRegister)
  other : ∀ p, (p + 1 ∈ ps → storesAt code (p + 1) = false) → code'[p]? = code[p]?

theorem Dropped.jump {code' : Array Instr} (h : Dropped ps code code') {p : Nat}
    (hi : code[p]? = some i) (hj : i.isJump) : code'[p]? = some i := by
  rw [h.other p, hi]
  simp [storesAt, hi, not_testSet_of_isJump hj]

theorem dropValuesFrom_spec (h : Chain s.fn.code l ps) (hfuel : ps.length < fuel) :
    (dropValuesFrom fuel l).Ensures s fun _ t => ∃ code, t = s.setCode code ∧ Dropped ps s.fn.code code := by
  induction fuel generalizing s l ps with
  | zero => omega
  | succ fuel ih =>
    unfold dropValuesFrom
    have hnd := h.nodup
    cases h with
    | nil hl =>
      rw [hl]
      exact ⟨s.fn.code, rfl, rfl, by simp, fun _ _ => rfl⟩
    | @cons _ p i ps hl hi hj hrest =>
      have hp := (List.nodup_cons.1 hnd).1
      have hjump : ∀ (q : Nat) (j : Instr), s.fn.code[q]? = some j → j.isJump →
          (settleAt noRegister s.fn.code p)[q]? = some j := by
        intro q j hjq hjj
        rw [getElem?_settleAt_of_ne, hjq]
        rintro rfl
        simp [storesAt, hjq, not_testSet_of_isJump hjj]
      rw [hl]
      simp only [ensures_bind]
      refine (patchTest_spec hi hj).mono ?_
      rintro b t ⟨-, rfl⟩
      rw [ensures_nextJump (hjump p i hi hj)]
      have hchain : Chain (settleAt noRegister s.fn.code p) (link p i) ps := by
        refine hrest.congr fun q hq => ?_
        obtain ⟨j, hjq, hjj⟩ := hrest.jump_of_mem hq
        rw [hjump q j hjq hjj, hjq]
      refine (ih (s := s.setCode (settleAt noRegister s.fn.code p)) hchain (by simpa using hfuel)).mono ?_
      rintro - t ⟨code, rfl, hd⟩
      refine ⟨code, rfl, by rw [hd.size, size_settleAt], fun q hq j hjq hop => ?_, fun q hq => ?_⟩
      · rcases List.mem_cons.1 hq with rfl | hq'
        · rw [hd.other q fun h => absurd h hp]
          exact getElem?_settleAt hjq hop
        · refine hd.test q hq' j ?_ hop
          rw [getElem?_settleAt_of_ne, hjq]
          rintro rfl
          exact absurd hq' hp
      · have hq1 : (settleAt noRegister s.fn.code p)[q]? = s.fn.code[q]? := by
          refine getElem?_settleAt_of_ne ?_
          rintro rfl
          exact hq (List.mem_cons_self ..)
        rw [hd.other q, hq1]
        intro hq'
        simp only [storesAt, hq1]
        exact hq (List.mem_cons_of_mem _ hq')

theorem dropValues_spec (h : Chain s.fn.code l ps) : (dropValues l).Ensures s fun _ t => ∃ code, t = s.setCode code ∧
      Dropped ps s.fn.code code := by
  exact dropValuesFrom_spec h (Nat.lt_succ_of_le h.length_le)

/-- The jumps at `ps` get `level` as their operand `A`. -/
structure Closing (ps : List Nat) (level : Int) (code code' : Array Instr) : Prop where
  size : code'.size = code.size
  jump : ∀ p ∈ ps, ∀ i, code[p]? = some i → code'[p]? = some (i.setA level)
  other : ∀ p, p ∉ ps → code'[p]? = code[p]?

theorem patchCloseFrom_spec {level : Int} (h : Chain s.fn.code l ps) (hfuel : ps.length < fuel)
    (hlevel : ∀ p ∈ ps, ∀ i, s.fn.code[p]? = some i → i.op? = some .jmp ∧ (i.a = 0 ∨ level ≤ i.a)) :
    (patchCloseFrom level fuel l).Ensures s fun _ t => ∃ code, t = s.setCode code ∧
      Closing ps level s.fn.code code := by
  induction fuel generalizing s l ps with
  | zero => omega
  | succ fuel ih =>
    unfold patchCloseFrom
    have hnd := h.nodup
    cases h with
    | nil hl =>
      rw [hl]
      exact ⟨s.fn.code, rfl, rfl, by simp, fun _ _ => rfl⟩
    | @cons _ p i ps hl hi hj hrest =>
      have hp := (List.nodup_cons.1 hnd).1
      obtain ⟨hop, ha⟩ := hlevel p (List.mem_cons_self ..) i hi
      have hkeep : ∀ q, q ≠ p →
          (s.fn.code.modify p (·.setA level))[q]? = s.fn.code[q]? := fun q hq => by
        rw [Array.getElem?_modify, if_neg hq.symm]
      rw [hl]
      simp only [ensures_bind]
      rw [ensures_nextJump hi, ensures_instrAt rfl hi, ensures_require (by simpa [hop] using ha),
        ensures_updateInstr rfl (lt_size_of_some hi)]
      refine (ih (s := s.setCode (s.fn.code.modify p (·.setA level)))
        (hrest.congr fun q hq => hkeep q fun h => hp (h ▸ hq)) (by simpa using hfuel) ?_).mono ?_
      · intro q hq j hjq
        rw [hkeep q fun h => hp (h ▸ hq)] at hjq
        exact hlevel q (List.mem_cons_of_mem _ hq) j hjq
      · rintro - t ⟨code, rfl, hc⟩
        refine ⟨code, rfl, by rw [hc.size, Array.size_modify], fun q hq j hjq => ?_, fun q hq => ?_⟩
        · rcases List.mem_cons.1 hq with rfl | hq
          · rw [hc.other q hp, Array.getElem?_modify, if_pos rfl, hjq]
            rfl
          · exact hc.jump q hq j (by rw [hkeep q fun h => hp (h ▸ hq), hjq])
        · obtain ⟨hqp, hqn⟩ := not_or.1 (mt List.mem_cons.2 hq)
          rw [hc.other q hqn, hkeep q hqp]

theorem closeOnJump_spec {level : Int} (h : Chain s.fn.code l ps)
    (hlevel : ∀ p ∈ ps, ∀ i, s.fn.code[p]? = some i → i.op? = some .jmp ∧ (i.a = 0 ∨ level + 1 ≤ i.a)) :
    (closeOnJump l level).Ensures s fun _ t => ∃ code, t = s.setCode code ∧ Closing ps (level + 1) s.fn.code code := by
  exact patchCloseFrom_spec h (Nat.lt_succ_of_le h.length_le) hlevel

/-! ## Targets -/

theorem ensures_pc {Q : Int → GenState → Prop} : pc.Ensures s Q ↔ Q s.fn.code.size s := Iff.rfl

theorem ensures_label {Q : Int → GenState → Prop} : label.Ensures s Q ↔
    Q s.fn.code.size { s with fn := { s.fn with lastTarget := s.fn.code.size } } := Iff.rfl

theorem aimHere_spec (h : Chain s.fn.code l ps) (hpending : s.fn.pending = .empty) :
    (aimHere l).Ensures s fun _ t => ∃ code,
      t = { s with fn := { s.fn with code := code, lastTarget := s.fn.code.size } } ∧
      Patched ps s.fn.code.size noRegister s.fn.code.size s.fn.code code := by
  unfold aimHere
  rw [ensures_bind, ensures_label, ensures_bind, ensures_getFn, ensures_bind, hpending]
  have hconcat : concat .empty l = (pure l : Gen JumpList) := by
    unfold concat
    cases hl : l.head with
    | none => rw [Chain.eq_empty (.nil hl : Chain s.fn.code l [])]
    | some p => rfl
  rw [hconcat, ensures_pure]
  simp only [resolvePending, ensures_bind, ensures_modifyFn, ensures_getFn]
  split
  · refine (patchValues_spec (s := { s with fn := { s.fn with
      pending := .empty, lastTarget := s.fn.code.size } }) h fun p _ => ?_).mono ?_
    · split <;> omega
    · rintro - t ⟨code, rfl, hp⟩
      exact ⟨code, by rw [← hpending], hp⟩
  · rename_i hl
    have hl' : l = .empty := by simpa using hl
    subst hl'
    obtain rfl := h.eq_nil
    refine ⟨s.fn.code, by rw [← hpending], rfl, by simp, by simp, fun _ _ _ => rfl⟩

theorem aimAt_spec {target : Int} (h : Chain s.fn.code l ps) (hpending : s.fn.pending = .empty)
    (h0 : 0 ≤ target) (hle : target ≤ s.fn.code.size) :
    (aimAt l target).Ensures s fun _ t => ∃ code,
      t = { s with fn := { s.fn with
        code := code
        lastTarget := if target = s.fn.code.size then target else s.fn.lastTarget } } ∧
      Patched ps target noRegister target s.fn.code code := by
  unfold aimAt
  rw [ensures_bind, ensures_pc]
  split
  · rename_i ht
    subst ht
    simpa using aimHere_spec h hpending
  · rw [ensures_bind, ensures_require (by simp; omega)]
    exact patchValues_spec h fun p _ => by simpa using h0

end Gen

end RegisterCompiler
