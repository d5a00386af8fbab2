import RegisterCompiler.Proofs.Placing

/-!
# Jumps arrive at registers

* `settleJumps_spec` : the jumps that leave an expression get their targets, with instructions that
  load `false` or `true` where they are needed;
* `toRegister_spec` : the value is in a register, and no jump is open any more;
* `toNextRegister_spec`, `toAnyRegister_spec`, `toValue_spec`, `toRK_spec` : what the steps that
  choose the register leave in use.
-/

namespace RegisterCompiler

open Gen

/-! ## Jumps arrive -/

def Operand.asJumps (e : Operand) : Operand :=
  { e with kind := .void }

/-- The state after the instructions that load `false` and `true`, both of which are targets. -/
def GenState.pushBools (s : GenState) (reg : Int) : GenState :=
  (s.marked.push (.abc Opcode.loadBool.code reg 0 1)).marked.push
    (.abc Opcode.loadBool.code reg 1 0)

/-- How code changes when the jumps that leave an operand get their targets. -/
def Settled (e : Operand) (reg : Int) (ts fs : List Nat) (code code' : Array Instr) : Prop :=
  ∃ loaded lf lt code1,
    ((∀ p ∈ ts ++ fs, storesAt code p) ∧ loaded = code ∨
      ∃ pre, pre = (if e.kind = .jump then code else code.push (openJump.setSBx 2)) ∧
        loaded = (pre.push (.abc Opcode.loadBool.code reg 0 1)).push
          (.abc Opcode.loadBool.code reg 1 0) ∧
        lf = (pre.size : Int) ∧ lt = (pre.size : Int) + 1) ∧
    Patched fs loaded.size reg lf loaded code1 ∧ Patched ts loaded.size reg lt code1 code'

section Arrive
variable {s0 s t : GenState} {H : Set Nat} {e e' : Operand} {ts fs : List Nat} {reg : Int}
  {i : Instr} {code code' : Array Instr}

theorem GenState.pushBools_fields (s : GenState) (reg : Int) :
    (s.pushBools reg).fn.free = s.fn.free ∧ (s.pushBools reg).fn.stack = s.fn.stack ∧
      (s.pushBools reg).fn.constants = s.fn.constants ∧
      (s.pushBools reg).fn.code = (s.fn.code.push (.abc Opcode.loadBool.code reg 0 1)).push
        (.abc Opcode.loadBool.code reg 1 0) := by
  simp only [GenState.pushBools, GenState.push, GenState.marked, and_self]

theorem next?_loadBool (hop : i.op? = some .loadBool) :
    i.next? = if i.c = 0 then none else some .loadBool := by
  simp [Instr.next?, Instr.isTest, Instr.takesExtra, hop, Opcode.isTest, Opcode.info]

theorem fits_loadBool {B : Bounds} (hop : i.op? = some .loadBool) : i.Fits B ↔ (i.a : Int) < B.stack := by
  simp only [Instr.Fits, hop]

theorem GenState.Ok.pushBools (h : s.Ok H) (hreg : 0 ≤ reg ∧ reg < s.fn.stack) : (s.pushBools reg).Ok H := by
  have hA : 0 ≤ reg ∧ reg ≤ maxA := by
    have := h.fn.stack
    simp only [maxA]
    omega
  have h1 := encodes_abc .loadBool hA (show 0 ≤ 0 ∧ 0 ≤ maxB by decide) (show 0 ≤ 1 ∧ 1 ≤ maxC by decide)
  have h2 := encodes_abc .loadBool hA (show 0 ≤ 1 ∧ 1 ≤ maxB by decide) (show 0 ≤ 0 ∧ 0 ≤ maxC by decide)
  obtain ⟨hj1, hx1⟩ := not_isJump_of_mode h1.op (.inl rfl)
  obtain ⟨hj2, hx2⟩ := not_isJump_of_mode h2.op (.inl rfl)
  have hc1 := h1.c
  have hc2 := h2.c
  have hv := h.marked.toValid.push (fun k hk => .of_none (h.ends k hk) hx1) (fun _ => hx1)
    (.inl ((fits_loadBool h1.op).2 (h1.a.trans_lt hreg.2))) fun hj => absurd hj (by simp [hj1])
  refine ⟨hv.marked.push ?_ (fun _ => hx2)
    (.inl ((fits_loadBool h2.op).2 (h2.a.trans_lt hreg.2))) (fun hj => absurd hj (by simp [hj2])),
    sealed_push ?_, fun p hp => ?_⟩
  · intro k hk
    obtain rfl : _ = k := by simpa [GenState.push, GenState.marked] using hk
    refine ⟨fun op hop => ?_, fun hx => absurd hx hx2, fun hx => ?_⟩
    · rw [next?_loadBool h1.op, if_neg (by omega)] at hop
      rw [h2.op, ← hop]
    · rw [h1.op] at hx
      simp at hx
  · rw [next?_loadBool h2.op, if_pos (by omega)]
  · have := h.held p hp
    simp only [GenState.pushBools, GenState.push, GenState.marked, Array.size_push]
    omega

theorem Evolves.pushBools (s : GenState) (reg : Int) (h : s.fn.lastTarget ≤ s.fn.code.size) :
    Evolves s (s.pushBools reg) := by
  have h1 := Evolves.push s.marked (.abc Opcode.loadBool.code reg 0 1) le_rfl
    (by simp [Instr.isJump, Instr.op?_abc]) (by simp [Instr.op?_abc])
  have h2 : Evolves _ (s.pushBools reg) := .push _ (.abc Opcode.loadBool.code reg 1 0) le_rfl
    (by simp [Instr.isJump, Instr.op?_abc]) (by simp [Instr.op?_abc])
  refine (Evolves.marked s h).trans (h1.trans (.trans (.marked _ ?_) h2))
  simp only [GenState.push, GenState.marked, Array.size_push]
  omega

theorem pushBools_targets (h : s.Ok H) (hreg : 0 ≤ reg ∧ reg < s.fn.stack) :
    IsTarget (s.pushBools reg).fn.code (s.pushBools reg).fn.lastTarget s.fn.code.size ∧
      IsTarget (s.pushBools reg).fn.code (s.pushBools reg).fn.lastTarget (s.fn.code.size + 1) := by
  have hA : 0 ≤ reg ∧ reg ≤ maxA := by
    have := h.fn.stack
    simp only [maxA]
    omega
  have h1 := encodes_abc .loadBool hA (show 0 ≤ 0 ∧ 0 ≤ maxB by decide) (show 0 ≤ 1 ∧ 1 ≤ maxC by decide)
  have htarget : (s.pushBools reg).fn.lastTarget = s.fn.code.size + 1 := by
    simp [GenState.pushBools, GenState.push, GenState.marked]
  rw [htarget]
  constructor
  · have hs : IsTarget s.fn.code (s.fn.code.size + 1) s.fn.code.size := h.ends.isTarget (by omega)
    refine ⟨hs.1, hs.2.1, fun k i hk hi => hs.2.2 k i hk ?_⟩
    simpa [GenState.pushBools, GenState.push, GenState.marked, Array.getElem?_push,
      show k ≠ s.fn.code.size + 1 by omega, show k ≠ s.fn.code.size by omega] using hi
  · refine ⟨by omega, le_rfl, fun k i hk hi => ?_⟩
    obtain rfl : k = s.fn.code.size := by omega
    simp only [GenState.pushBools, GenState.push, GenState.marked, Array.getElem?_push, Array.size_push] at hi
    rw [if_neg (by omega), if_pos trivial] at hi
    cases hi
    rintro ⟨op, hop, hne⟩
    rw [next?_loadBool h1.op] at hop
    split at hop
    · simp at hop
    · exact hne (Option.some.inj hop).symm

theorem Gen.ensures_loadBool {b skip : Int} {Q : Int → GenState → Prop} (hopen : s.fn.isClosed = false)
    (hmax : reg ≤ maxA ∧ b ≤ maxB ∧ skip ≤ maxC) : (loadBool reg b skip).Ensures s Q ↔
      Q s.fn.code.size (s.marked.push (.abc Opcode.loadBool.code reg b skip)) := by
  unfold loadBool
  rw [ensures_bind, ensures_marked]
  exact ensures_emitABC hopen rfl (.inl (by decide)) (.inl (by decide)) hmax

theorem Gen.Patched.nil_eq {wv wo : Int} (h : Patched [] wv reg wo code code') : code' = code :=
  Array.ext_getElem? fun p => h.other p (by simp) (by simp)

theorem Gen.Patched.push_jump {j k : Instr} {w : Int}
    (h : Patched [code.size] w reg w (((code.push i).push j).push k) code')
    (hs : storesAt (((code.push i).push j).push k) code.size = false) :
    ∃ v, code' = ((code.push (i.setSBx v)).push j).push k ∧ code.size + 1 + v = w := by
  have hi : (((code.push i).push j).push k)[code.size]? = some i := by
    rw [getElem?_push_of_lt (by simp only [Array.size_push]; omega),
      getElem?_push_of_lt (by simp)]
    simp
  obtain ⟨v, -, -, hv, hi'⟩ := h.jump _ (by simp) i hi
  refine ⟨v, Array.ext_getElem? fun p => ?_, by simpa using hv⟩
  by_cases hp : p = code.size
  · subst hp
    rw [hi', getElem?_push_of_lt (by simp only [Array.size_push]; omega),
      getElem?_push_of_lt (by simp)]
    simp
  · rw [h.other p (by simpa using hp)]
    · simp only [Array.getElem?_push, Array.size_push, hp, if_false]
    · intro hp'
      rw [show p + 1 = code.size by simpa using hp', hs]

theorem Gen.bools_spec {past : JumpList} {ps : List Nat} (h : s.Ok (Held H ps))
    (hc : Chain s.fn.code past ps)
    (hj : AreJumps s.fn.code ps)
    (hreg : 0 ≤ reg ∧ reg < s.fn.stack) :
    (do
      let loadFalse ← loadBool reg 0 1
      let loadTrue ← loadBool reg 1 0
      aimHere past
      return (loadFalse, loadTrue) : Gen (Int × Int)).Ensures s fun r u => ∃ code,
        r = ((s.fn.code.size : Int), (s.fn.code.size : Int) + 1) ∧
        u = (s.pushBools reg).marked.setCode code ∧ u.Ok H ∧
        Patched ps (s.fn.code.size + 2) noRegister (s.fn.code.size + 2)
          (s.pushBools reg).fn.code code ∧
        Revised (s.pushBools reg).fn.code code := by
  have hmax : reg ≤ maxA := by
    have := h.fn.stack
    simp only [maxA]
    omega
  have hev := Evolves.pushBools s reg h.fn.target.2
  have hsize : ((s.pushBools reg).fn.code.size : Int) = s.fn.code.size + 2 := by
    simp only [GenState.pushBools, GenState.push, GenState.marked, Array.size_push]
    omega
  rw [ensures_bind, ensures_loadBool h.fn.isOpen ⟨hmax, by decide, by decide⟩, ensures_bind,
    ensures_loadBool (by exact h.fn.isOpen) ⟨hmax, by decide, by decide⟩, ensures_bind]
  have haim := aimHere_ok (show (s.pushBools reg).Ok (Held H (ps ++ [])) by
      simpa using h.pushBools hreg) (hc.kept hev.kept fun p hp => hc.lt_of_mem hp) fun p hp => by
      obtain ⟨i, hi, hop⟩ := hj p hp
      exact ⟨i, hev.kept.get (hc.lt_of_mem hp) hi (by simp [hop]), hop⟩
  refine haim.mono ?_
  rintro - u ⟨code, rfl, hpat, hrev, hok⟩
  rw [hsize] at hpat
  refine ⟨code, ?_, rfl, by simpa using hok, hpat, hrev⟩
  simp [GenState.push, GenState.marked]

/-- The loads for jumps that do not store the tested value. Before them stands a jump past them,
unless the value is the outcome of a comparison. -/
theorem Gen.loadBools_spec (h : Carries s0 H e.asJumps s ts fs)
    (hreg : 0 ≤ reg ∧ reg < s.fn.stack) :
    (loadBools e reg).Ensures s fun r u =>
      Carries s0 H e.asJumps u ts fs ∧ u.fn.free = s.fn.free ∧ u.fn.stack = s.fn.stack ∧
      u.fn.constants = s.fn.constants ∧ ∃ pre, pre = (if e.kind = .jump then s.fn.code else s.fn.code.push (openJump.setSBx 2)) ∧
        u.fn.code = (pre.push (.abc Opcode.loadBool.code reg 0 1)).push
          (.abc Opcode.loadBool.code reg 1 0) ∧
        r = ((pre.size : Int), (pre.size : Int) + 1) ∧
        IsTarget u.fn.code u.fn.lastTarget pre.size ∧
        IsTarget u.fn.code u.fn.lastTarget (pre.size + 1) := by
  have htarget := h.ok.fn.target.2
  unfold loadBools
  by_cases hk : e.kind = .jump
  · simp only [if_pos hk, pure_bind]
    refine (bools_spec (show s.Ok (Held (Held H (ts ++ fs ++ e.asJumps.ownJump)) []) by
      simpa using h.ok) (.empty _) (by simp) hreg).mono ?_
    rintro r u ⟨code, rfl, rfl, hok, hpat, hrev⟩
    obtain rfl := hpat.nil_eq
    have hev : Evolves s ((s.pushBools reg).marked.setCode (s.pushBools reg).fn.code) :=
      (Evolves.pushBools s reg htarget).trans (.marked _ (h.ok.pushBools hreg).fn.target.2)
    obtain ⟨h1, h2⟩ := pushBools_targets h.ok hreg
    have hle := (h.ok.pushBools hreg).fn.target.2
    obtain ⟨hfree, hstack, hconst, hcode⟩ := s.pushBools_fields reg
    exact ⟨h.evolve hev hok, hfree, hstack, hconst, s.fn.code, rfl, hcode, rfl, h1.mono hle, h2.mono hle⟩
  · simp only [if_neg hk]
    rw [ensures_bind, ensures_jump h.ok.fn.isOpen]
    have hfit : openJump.Fits s.fn.bounds := by
      simp only [Instr.Fits, openJump_op, openJump_a, Func.bounds]
      omega
    have hok1 := h.ok.pushJump hfit openJump_isJump
    have hget : (s.push openJump).fn.code[s.fn.code.size]? = some openJump := by
      simp [GenState.push]
    have hreg1 : 0 ≤ reg ∧ reg < (s.push openJump).fn.stack := hreg
    refine (bools_spec hok1 (.single hget openJump_isJump openJump_sbx)
      (by simpa using ⟨_, hget, openJump_op⟩) hreg1).mono ?_
    rintro r u ⟨code, rfl, rfl, hok, hpat, hrev⟩
    have hev1 := Evolves.pushJump s htarget
    have hev2 := hev1.trans (Evolves.pushBools _ reg hok1.fn.target.2)
    have hev3 := hev2.trans (.marked _ (hok1.pushBools hreg1).fn.target.2)
    have hstore := storesAt_of_sealed h.ok.ends hev2.kept
    obtain ⟨v, hcode, hv⟩ := hpat.push_jump hstore
    have hv2 : v = 2 := by
      simp only [GenState.push, Array.size_push] at hv
      omega
    subst hv2
    have hget' := (Evolves.pushBools _ reg hok1.fn.target.2).kept.jump (by simp [GenState.push]) hget
      openJump_isJump
    have hev : Evolves s (((s.push openJump).pushBools reg).marked.setCode code) :=
      hev3.setCode hrev (hpat.kept (by simp) hstore) <| hev3.aims.patched hpat
        (by simpa using ⟨_, hget', openJump_isJump⟩) fun p hp => by
          split <;> omega
    obtain ⟨h1, h2⟩ := pushBools_targets hok1 hreg1
    have hle := (hok1.pushBools hreg1).fn.target.2
    have hsize : (s.push openJump).fn.code.size = (s.fn.code.push (openJump.setSBx 2)).size := by
      simp [GenState.push]
    obtain ⟨hfree, hstack, hconst, -⟩ := (s.push openJump).pushBools_fields reg
    refine ⟨h.evolve hev hok, hfree, hstack, hconst, s.fn.code.push (openJump.setSBx 2), rfl, hcode, ?_, ?_, ?_⟩
    · rw [hsize]
    · rw [← hsize]
      exact (h1.revised hrev).mono hle
    · rw [← hsize]
      exact (h2.revised hrev).mono hle

theorem Gen.wantsLoads_spec (ht : Chain s.fn.code e.whenTrue ts) (hf : Chain s.fn.code e.whenFalse fs) :
    (wantsLoads e).Ensures s fun b t => t = s ∧ (b = false ↔ ∀ p ∈ ts ++ fs, storesAt s.fn.code p) := by
  refine .bind (wantsValue_spec ht) ?_
  rintro b _ ⟨rfl, hb⟩
  cases b with
  | true =>
    refine ⟨rfl, ?_⟩
    simp only [Bool.true_eq_false, false_iff] at hb ⊢
    exact fun h => hb fun p hp => h p (List.mem_append_left _ hp)
  | false =>
    refine (wantsValue_spec hf).mono ?_
    rintro b _ ⟨rfl, hb'⟩
    refine ⟨rfl, hb'.trans ⟨fun h p hp => ?_, fun h p hp => h p (List.mem_append_right _ hp)⟩⟩
    rcases List.mem_append.1 hp with hp | hp
    · exact hb.1 rfl p hp
    · exact h p hp

theorem Gen.Patched.storesAt_eq {ps : List Nat} {wv wo : Int}
    (h : Patched ps wv reg wo code code') (hj : ∀ p ∈ ps, ∃ i, code[p]? = some i ∧ i.isJump)
    {p : Nat} (hp : p ∉ ps) : storesAt code' p = storesAt code p := by
  cases p with
  | zero => rfl
  | succ k =>
    by_cases hk : k ∈ ps
    · obtain ⟨i, hi, hjump⟩ := hj k hk
      obtain ⟨v, -, -, -, hi'⟩ := h.jump k hk i hi
      simp [storesAt, hi, hi']
    · simp only [storesAt]
      rw [h.other k hk fun h => absurd h hp]

/-- The jumps that leave an expression get their targets: those that store the value go on after it,
and the others go to the loads at `lf` and `lt`. -/
theorem Gen.settle_spec {lf lt : Int} (h : Carries s0 H e.asJumps s ts fs)
    (hreg : 0 ≤ reg ∧ reg < s.fn.stack)
    (hf : ∀ p ∈ fs, storesAt s.fn.code p = false → IsTarget s.fn.code s.fn.lastTarget lf ∧ s0.fn.code.size ≤ lf)
    (ht : ∀ p ∈ ts, storesAt s.fn.code p = false → IsTarget s.fn.code s.fn.lastTarget lt ∧ s0.fn.code.size ≤ lt) :
    (do
      let done ← label
      patchValues e.whenFalse done reg lf
      patchValues e.whenTrue done reg lt : Gen Unit).Ensures s fun _ t => ∃ code1 code2,
        t = s.marked.setCode code2 ∧ t.Ok H ∧ Evolves s0 t ∧
        Patched fs s.fn.code.size reg lf s.fn.code code1 ∧
        Patched ts s.fn.code.size reg lt code1 code2 := by
  have hown : e.asJumps.ownJump = [] := by simp [Operand.asJumps, Operand.ownJump]
  have hfresh := h.fresh
  have hapart := h.apart
  rw [hown, List.append_nil] at hfresh hapart
  have hd : ts.Disjoint fs := List.disjoint_of_nodup_append hapart
  have hok : s.marked.Ok (Held H (fs ++ ts)) := by
    have := h.ok.marked
    rwa [hown, List.append_nil, @held_congr _ _ (fs ++ ts) (by simp [or_comm])] at this
  have hdone : IsTarget s.fn.code s.fn.code.size s.fn.code.size := h.ok.ends.isTarget le_rfl
  have hjf : AreJumps s.fn.code fs := fun p hp => by
    obtain ⟨-, i, hi, hop, -⟩ := hfresh p (List.mem_append_right _ hp)
    exact ⟨i, hi, hop⟩
  have hevm : Evolves s0 s.marked := h.evolves.trans (.marked s h.ok.fn.target.2)
  rw [ensures_bind, ensures_marked]
  refine .bind (patchValues_ok (s := s.marked) hok h.whenFalse hjf (.inl hreg) fun p hp => ?_) ?_
  · split
    · exact hdone
    · rename_i hs
      exact (hf p hp (Bool.eq_false_iff.2 hs)).1.mono h.ok.fn.target.2
  rintro - u ⟨code1, rfl, hpat1, hrev1, hok1⟩
  have hev1 : Evolves s0 (s.marked.setCode code1) := hevm.setCode hrev1 (hpat1.kept
    (fun p hp => (hfresh p (List.mem_append_right _ hp)).1)
    (storesAt_of_sealed h.start.ends h.evolves.kept)) (hevm.aims.patched hpat1
    (fun p hp => h.whenFalse.jump_of_mem hp) fun p hp => by
      have := h.evolves.size
      split
      · simpa using this
      · exact (hf p hp (Bool.eq_false_iff.2 ‹_›)).2)
  have hjt : AreJumps code1 ts := fun p hp => by
    obtain ⟨-, i, hi, hop, -⟩ := (hfresh p (List.mem_append_left _ hp)).patched hpat1 (hd hp)
    exact ⟨i, hi, hop⟩
  refine (patchValues_ok (s := s.marked.setCode code1) (H := H)
    (show (s.marked.setCode code1).Ok (Held H (ts ++ [])) by simpa using hok1)
    (h.whenTrue.patched hpat1 fun p hp hq => hd hq hp) hjt (.inl hreg) fun p hp => ?_).mono ?_
  · rw [hpat1.storesAt_eq (fun q hq => h.whenFalse.jump_of_mem hq) (hd hp)]
    split
    · exact hdone.revised hrev1
    · rename_i hs
      exact ((ht p hp (Bool.eq_false_iff.2 hs)).1.mono h.ok.fn.target.2).revised hrev1
  rintro - u ⟨code2, rfl, hpat2, hrev2, hok2⟩
  refine ⟨code1, code2, rfl, by simpa using hok2, ?_, hpat1, ?_⟩
  · refine hev1.setCode hrev2 (hpat2.kept (fun p hp => (hfresh p (List.mem_append_left _ hp)).1)
      (storesAt_of_sealed h.start.ends hev1.kept)) (hev1.aims.patched hpat2 (fun p hp => ?_) fun p hp => ?_)
    · obtain ⟨i, hi, hop⟩ := hjt p hp
      exact ⟨i, hi, by simp [Instr.isJump, hop]⟩
    · rw [hpat1.storesAt_eq (fun q hq => h.whenFalse.jump_of_mem hq) (hd hp)]
      have := h.evolves.size
      split
      · simpa using this
      · exact (ht p hp (Bool.eq_false_iff.2 ‹_›)).2
  · exact hpat2

theorem Gen.settleJumps_spec (h : Carries s0 H e.asJumps s ts fs) (hreg : 0 ≤ reg ∧ reg < s.fn.stack) :
    (settleJumps e reg).Ensures s fun _ t => t.Ok H ∧ Evolves s0 t ∧ t.fn.free = s.fn.free ∧
      t.fn.constants = s.fn.constants ∧ Settled e reg ts fs s.fn.code t.fn.code := by
  refine .bind (wantsLoads_spec h.whenTrue h.whenFalse) ?_
  rintro b t ⟨ht, hb⟩
  obtain rfl := ht.symm
  cases b with
  | false =>
    have hstores := hb.1 rfl
    have hno : ∀ p ∈ ts ++ fs, ¬ storesAt s.fn.code p = false := fun p hp => by
      simp [hstores p hp]
    refine (settle_spec h hreg (fun p hp h0 => absurd h0 (hno p (by simp [hp])))
      fun p hp h0 => absurd h0 (hno p (by simp [hp]))).mono ?_
    rintro - t ⟨code1, code2, rfl, hok, hev, h1, h2⟩
    exact ⟨hok, hev, rfl, rfl, _, _, _, code1, .inl ⟨hstores, rfl⟩, h1, h2⟩
  | true =>
    refine .bind (loadBools_spec h hreg) ?_
    rintro r u ⟨hu, hfree, hstack, hconst, pre, hpre, hcode, rfl, hlf, hlt⟩
    have hle : s0.fn.code.size ≤ pre.size := h.evolves.size.trans (by
      rw [hpre]
      split <;> simp)
    refine (settle_spec hu (hstack ▸ hreg) (fun _ _ _ => ⟨hlf, by omega⟩)
      fun _ _ _ => ⟨hlt, by omega⟩).mono ?_
    rintro - t ⟨code1, code2, rfl, hok, hev, h1, h2⟩
    exact ⟨hok, hev, hfree, hconst, _, _, _, code1, .inr ⟨pre, hpre, hcode, rfl, rfl⟩, h1, h2⟩

theorem Gen.joinComparison_spec (h : Carries s0 H e s ts fs) (hr : e.kind = .jump →
      Chain s.fn.code (.ofHead e.info) e.ownJump) :
    (joinComparison e).Ensures s fun e' t => ∃ code, t = s.setCode code ∧ e'.kind = e.kind ∧
      Relinked ts s.fn.code code ∧ Carries s0 H e'.asJumps t (ts ++ e.ownJump) fs := by
  unfold joinComparison
  have hnil (e : Operand) : e.asJumps.ownJump = [] := by simp [Operand.asJumps, Operand.ownJump]
  split
  · rename_i hk
    obtain ⟨hleft, hown, hd⟩ := List.nodup_append.1 h.apart
    obtain ⟨hts, hfs, hd'⟩ := List.nodup_append.1 hleft
    refine .bind (concat_ok h.ok h.whenTrue (hr hk)
      (fun p hp hp' => hd p (by simp [hp]) p hp' rfl) (by simp +contextual)) ?_
    rintro l t ⟨code, rfl, hchain, hlink, hrev, hok⟩
    have hmem : ∀ p, p ∈ ts ++ e.ownJump ++ fs ↔ p ∈ ts ++ fs ++ e.ownJump := by
      simp [or_comm]
    refine ⟨code, rfl, rfl, hlink, ?_⟩
    exact {
      start := h.start
      evolves := h.evolves.setCode hrev (hlink.kept fun p hp => (h.fresh p (by simp [hp])).1)
        (h.evolves.aims.relinked hlink hchain fun p hp => (h.fresh p (by
          simp only [List.mem_append] at hp ⊢
          tauto)).1)
      ok := by rwa [hnil, List.append_nil, held_congr hmem]
      whenTrue := hchain
      whenFalse := h.whenFalse.relinked hlink fun p hp hp' => hd' p hp p hp' rfl
      apart := by
        rw [hnil, List.append_nil]
        exact (List.Perm.nodup_iff (by
          rw [List.append_assoc, List.append_assoc]
          exact List.perm_append_comm.append_left ts)).1 h.apart
      fresh := fun p hp => (h.fresh p ((hmem p).1 (by simpa [hnil] using hp))).relinked hlink }
  · rename_i hk
    have hown : e.ownJump = [] := by simp [Operand.ownJump, hk]
    refine ⟨s.fn.code, rfl, rfl, .refl .., ?_⟩
    rw [hown, List.append_nil]
    exact h.congr rfl rfl ((hnil e).trans hown.symm)

theorem Carries.jumps_nil (h : Carries s0 H e s ts fs) (hc : e.carriesJumps = false) : ts = [] ∧ fs = [] := by
  have heq : e.whenTrue = e.whenFalse := by simpa [Operand.carriesJumps] using hc
  exact (h.whenTrue.eq_iff_of_disjoint h.whenFalse
    (List.disjoint_of_nodup_append (List.nodup_append.1 h.apart).1)).1 heq

theorem Gen.arrive_spec (h : Carries s0 H e s ts fs)
    (hr : e.kind = .jump → Chain s.fn.code (.ofHead e.info) e.ownJump)
    (hreg : 0 ≤ reg ∧ reg < s.fn.stack) :
    (do
      let e ← joinComparison e
      if e.carriesJumps then settleJumps e reg
      return .plain .nonRelocatable reg : Gen Operand).Ensures s fun e' t =>
        e' = .plain .nonRelocatable reg ∧ t.Ok H ∧ Evolves s0 t ∧ t.fn.free = s.fn.free := by
  refine .bind (joinComparison_spec h hr) ?_
  rintro e1 _ ⟨code, rfl, -, -, h1⟩
  cases hc : e1.carriesJumps with
  | true =>
    refine .bind (settleJumps_spec h1 hreg) ?_
    rintro - t ⟨hok, hev, hfree, -⟩
    exact ⟨rfl, hok, hev, hfree⟩
  | false =>
    obtain ⟨hts, hfs⟩ := h1.jumps_nil hc
    have hok := h1.ok
    rw [hts, hfs] at hok
    exact ⟨rfl, by simpa [Operand.asJumps, Operand.ownJump] using hok, h1.evolves, rfl⟩

theorem Operand.Ready.chain {n0 : Nat} {f : Func} (h : e.Ready n0 f) (hk : e.kind = .jump) :
    Chain f.code (.ofHead e.info) e.ownJump := by
  simp only [Operand.Ready, hk] at h
  obtain ⟨n, i, hinfo, -, -, -, -, hjump⟩ := h
  have hown : e.ownJump = [n + 1] := by
    simp only [Operand.ownJump, hk, if_true, hinfo]
    rfl
  rw [hown, hinfo]
  exact .single hjump openJump_isJump openJump_sbx

theorem Gen.dischargeTo_jump (hk : e.kind = .jump) : dischargeTo e reg = pure e := by
  simp only [dischargeTo, discharge, hk, pure_bind]

theorem Gen.toRegister_spec (h : Carries s0 H e s ts fs) (hr : e.Ready s0.fn.code.size s.fn)
    (hreg : 0 ≤ reg ∧ reg < s.fn.stack) : (toRegister e reg).Ensures s fun e' t =>
      e' = .plain .nonRelocatable reg ∧ t.Ok H ∧ Evolves s0 t ∧ t.fn.free = s.fn.free := by
  unfold toRegister
  by_cases hk : e.kind = .jump
  · rw [dischargeTo_jump hk, pure_bind]
    exact arrive_spec h hr.chain hreg
  · refine .bind (dischargeTo_spec h hr hk hreg) ?_
    rintro e1 t ⟨rfl, h1, hfree, hstack, -⟩
    refine (arrive_spec h1 (by simp) (hstack ▸ hreg)).mono ?_
    rintro e2 t' ⟨he, hok, hev', hfree'⟩
    exact ⟨he, hok, hev', hfree'.trans hfree⟩

end Arrive

/-! ## Registers are chosen -/

section Choose
variable {s0 s t : GenState} {H : Set Nat} {e e' : Operand} {ts fs : List Nat} {reg : Int} {f : Func}

open Operand (InRegister KeyPlaced)

theorem Operand.Ready.isPlace {n0 : Nat} (h : e.Ready n0 f) : e.isPlace = false := by
  unfold Operand.Ready at h
  unfold Operand.isPlace
  cases hk : e.kind <;> simp only [hk] at h <;> rfl

theorem Operand.Ready.mono {n0 : Nat} {g : Func} (h : e.Ready n0 f) (hcode : g.code = f.code)
    (ht : g.lastTarget = f.lastTarget) (hb : f.bounds.Le g.bounds) : e.Ready n0 g := by
  have hstack := hb.stack
  have hconst := hb.constants
  simp only [Func.bounds] at hstack hconst
  unfold Operand.Ready at h ⊢
  rw [hcode, ht]
  cases hk : e.kind <;> simp only [hk] at h ⊢
  case constant => omega
  case nonRelocatable => omega
  all_goals exact h

theorem Yields.of_plain {kind : Operand.Kind} {info : Int} (h0 : s0.Ok H)
    (hbase : s0.fn.active ≤ s0.fn.free) (h : t.Ok H) (hev : Evolves s0 t) (hk : kind ≠ .jump)
    (hp : (Operand.plain kind info).Placed s0.fn.code.size s0.fn.free t.fn) :
    Yields s0 H (.plain kind info) t [] [] := by
  have hown : (Operand.plain kind info).ownJump = [] := by simp [Operand.plain, Operand.ownJump, hk]
  exact {
    start := h0
    evolves := hev
    ok := by simpa [hown] using h
    whenTrue := .empty _
    whenFalse := .empty _
    apart := by simp [hown]
    fresh := by simp [hown]
    base := hbase
    placed := hp
    plain := by simp }

theorem Carries.eq_plain (h : Carries s0 H e s ts fs) (hc : e.carriesJumps = false) :
    e = .plain e.kind e.info ∧ ts = [] ∧ fs = [] := by
  obtain ⟨rfl, rfl⟩ := h.jumps_nil hc
  obtain ⟨kind, info, whenTrue, whenFalse⟩ := e
  obtain rfl := h.whenTrue.eq_empty
  obtain rfl := h.whenFalse.eq_empty
  exact ⟨rfl, rfl, rfl⟩

theorem Yields.ok_plain {kind : Operand.Kind} {info : Int}
    (h : Yields s0 H (.plain kind info) s [] []) (hk : kind ≠ .jump) : s.Ok H := by
  simpa [Operand.plain, Operand.ownJump, hk] using h.ok

theorem Gen.ensures_releaseOperand {Q : Unit → GenState → Prop} (h : Yields s0 H e s ts fs) (hk : e.isPlace = false) :
    (releaseOperand e).Ensures s Q ↔ Q () (s.withFree s0.fn.free) := by
  have hplaced := h.placed
  have hfree := h.ok.fn.free
  have hstack := h.ok.fn.stack
  unfold Operand.Placed at hplaced
  unfold releaseOperand
  cases hkind : e.kind <;> simp only [hkind, Operand.isPlace] at hplaced hk
  case nonRelocatable =>
    exact ensures_release hplaced h.active_le h.start.fn.free.1 (by omega)
  case relocatable => rw [← hplaced.2.1]; exact ensures_pure
  all_goals first | (rw [← hplaced.2]; exact ensures_pure) | simp at hk

theorem Gen.enterNext_spec (h : Carries s0 H e s ts fs) (hr : e.Ready s0.fn.code.size s.fn)
    (hfree : s.fn.free = s0.fn.free) :
    (do
      reserve 1
      toRegister e ((← getFn).free - 1) : Gen Operand).Ensures s fun e' t =>
        e' = .plain .nonRelocatable s0.fn.free ∧ t.Ok H ∧ Evolves s0 t ∧
        t.fn.free = s0.fn.free + 1 := by
  have hbase := h.start.fn.free.1
  rw [ensures_bind, ensures_reserve h.ok.fn.stack.2]
  intro hle
  have hok := h.ok.reserved (by omega) hle
  have hev := Evolves.reserved s 1
  have hfree1 : (s.reserved 1).fn.free = s0.fn.free + 1 := congrArg (· + 1) hfree
  simp only [ensures_bind, ensures_getFn]
  rw [hfree1, Int.add_sub_cancel]
  refine (toRegister_spec (h.evolve hev hok) (hr.mono rfl rfl hev.bounds) ⟨hbase, ?_⟩).mono ?_
  · have := hok.fn.free.2
    omega
  · rintro e2 t ⟨he, hok, hev, hfree⟩
    exact ⟨he, hok, hev, hfree.trans hfree1⟩

theorem Gen.toNextRegister_spec (h : Yields s0 H e s ts fs) :
    (toNextRegister e).Ensures s fun e' t => e' = .plain .nonRelocatable s0.fn.free ∧
      t.Ok H ∧ Evolves s0 t ∧ t.fn.free = s0.fn.free + 1 := by
  refine .bind (discharge_spec h) ?_
  rintro e1 s1 ⟨h1, hr, -⟩
  rw [ensures_bind, ensures_releaseOperand h1 hr.isPlace]
  exact enterNext_spec (h1.toCarries.evolve (.withFree s1 s0.fn.free)
    (h1.ok.withFree ⟨h.start.fn.free.1, h1.room⟩)) (hr.mono rfl rfl (.refl _)) rfl

theorem Gen.toAnyRegister_spec (h : Yields s0 H e s ts fs) :
    (toAnyRegister e).Ensures s fun e' t => ∃ reg, e' = .plain .nonRelocatable reg ∧
      t.Ok H ∧ Evolves s0 t ∧ InRegister t.fn s0.fn.free reg := by
  refine .bind (discharge_spec h) ?_
  rintro e1 s1 ⟨h1, hr, -⟩
  have hnext : (toNextRegister e1).Ensures s1 fun e' t => ∃ reg, e' = .plain .nonRelocatable reg ∧
      t.Ok H ∧ Evolves s0 t ∧ InRegister t.fn s0.fn.free reg := by
    refine (toNextRegister_spec h1).mono ?_
    rintro e' t ⟨he, hok, hev, hfree⟩
    exact ⟨_, he, hok, hev, .inr ⟨rfl, hfree⟩⟩
  split
  · rename_i hk
    have hplaced := h1.placed
    simp only [Operand.Placed, hk] at hplaced
    cases hc : e1.carriesJumps with
    | false =>
      obtain ⟨he, rfl, rfl⟩ := h1.eq_plain hc
      rw [he, hk] at h1 ⊢
      exact ⟨_, rfl, h1.ok_plain (by simp), h1.evolves, hplaced⟩
    | true =>
      simp only [Bool.not_true, Bool.false_eq_true, if_false, ensures_bind, ensures_getFn]
      split
      · have hready := hr
        simp only [Operand.Ready, hk] at hready
        refine (toRegister_spec h1.toCarries hr hready).mono ?_
        rintro e' t ⟨he, hok, hev, hfree⟩
        refine ⟨_, he, hok, hev, .inr ?_⟩
        rcases hplaced with hp | hp <;> omega
      · exact hnext
  · exact hnext

theorem Gen.toAnyRegisterOrUpvalue_spec (h : Yields s0 H e s ts fs) :
    (toAnyRegisterOrUpvalue e).Ensures s fun e' t => Yields s0 H e' t [] [] ∧ ∃ kind info,
      e' = .plain kind info ∧ (kind = .upvalue ∨ kind = .nonRelocatable) := by
  unfold toAnyRegisterOrUpvalue
  split
  · rename_i hk
    obtain ⟨he, rfl, rfl⟩ := h.eq_plain (by simpa using hk.2)
    exact ⟨h, _, _, he, .inl hk.1⟩
  · refine (toAnyRegister_spec h).mono ?_
    rintro e' t ⟨reg, rfl, hok, hev, hreg⟩
    exact ⟨.of_plain h.start h.base hok hev (by simp) hreg, _, _, rfl, .inr rfl⟩

theorem Gen.toValue_spec (h : Yields s0 H e s ts fs) :
    (toValue e).Ensures s fun e' t => Yields s0 H e' t [] [] ∧ e' = .plain e'.kind e'.info ∧
      e'.Ready s0.fn.code.size t.fn := by
  unfold toValue
  split
  · refine (toAnyRegister_spec h).mono ?_
    rintro e' t ⟨reg, rfl, hok, hev, hreg⟩
    have h' : Yields s0 H (.plain .nonRelocatable reg) t [] [] :=
      .of_plain h.start h.base hok hev (by simp) hreg
    exact ⟨h', rfl, h'.ready rfl⟩
  · rename_i hc
    obtain ⟨-, rfl, rfl⟩ := h.eq_plain (by simpa using hc)
    refine (discharge_spec h).mono ?_
    rintro e' t ⟨h', hr, -⟩
    obtain ⟨kind, info, whenTrue, whenFalse⟩ := e'
    obtain rfl := h'.whenTrue.eq_empty
    obtain rfl := h'.whenFalse.eq_empty
    exact ⟨h', rfl, hr⟩

/-- The operand names the value: it is a constant, or in a register. -/
def Operand.NamedBy (f : Func) (r : Int) (e : Operand) (rk : Int) : Prop :=
  (∃ k : Nat, e = .plain .constant k ∧ k ≤ 255 ∧ k < f.constants.size ∧ rk = k + 256 ∧ f.free = r) ∨
    e = .plain .nonRelocatable rk ∧ InRegister f r rk

theorem Operand.NamedBy.keyPlaced {r rk : Int} (h : e.NamedBy f r rk) : KeyPlaced f r rk := by
  rcases h with ⟨k, -, h1, h2, rfl, hfree⟩ | ⟨-, h⟩
  · exact .inl (by omega)
  · exact .inr h

theorem Gen.registerRK_spec (h : Yields s0 H e s ts fs) : (registerRK e).Ensures s fun r t => t.Ok H ∧ Evolves s0 t ∧
      r.1.NamedBy t.fn s0.fn.free r.2 := by
  refine .bind (toAnyRegister_spec h) ?_
  rintro e' t ⟨reg, rfl, hok, hev, hreg⟩
  exact ⟨hok, hev, .inr ⟨rfl, hreg⟩⟩

theorem Gen.fitting_spec {k : Nat} (h0 : s0.Ok H) (hbase : s0.fn.active ≤ s0.fn.free) (hok : s.Ok H)
    (hev : Evolves s0 s) (hfree : s.fn.free = s0.fn.free) (hk : k < s.fn.constants.size) :
    (if (k : Int) ≤ maxIndexRK then pure (.plain .constant k, asConstantRK k)
      else registerRK (.plain .constant k) : Gen (Operand × Int)).Ensures s fun r t =>
        t.Ok H ∧ Evolves s0 t ∧ r.1.NamedBy t.fn s0.fn.free r.2 := by
  split
  · rename_i hle
    simp only [maxIndexRK] at hle
    refine ⟨hok, hev, .inl ⟨k, rfl, by omega, hk, asConstantRK_eq (by omega), hfree⟩⟩
  · refine registerRK_spec (Yields.of_plain h0 hbase hok hev (by simp) ⟨?_, hfree⟩)
    simp only [Operand.plain, Operand.Ready]
    omega

theorem Gen.toRK_spec (h : Yields s0 H e s ts fs) :
    (toRK e).Ensures s fun r t => t.Ok H ∧ Evolves s0 t ∧ r.1.NamedBy t.fn s0.fn.free r.2 := by
  refine .bind (toValue_spec h) ?_
  rintro e1 s1 ⟨h1, he, hr⟩
  have hplaced := h1.placed
  obtain ⟨kind, info, rfl⟩ : ∃ kind info, e1 = .plain kind info := ⟨_, _, he⟩
  have hnamed : ∀ v : Constant, v.key.constant = v → kind ≠ .jump → s1.fn.free = s0.fn.free → (do
      if (← getFn).constants.size ≤ maxIndexRK then
        let k ← internConstant v
        return (.plain .constant k, asConstantRK k)
      else registerRK (.plain kind info) : Gen (Operand × Int)).Ensures s1 fun r t =>
        t.Ok H ∧ Evolves s0 t ∧ r.1.NamedBy t.fn s0.fn.free r.2 := by
    intro v hv hk hfree
    simp only [ensures_bind, ensures_getFn]
    split
    · rename_i hle
      refine .bind (internConstant_spec (h1.ok_plain hk) hv) ?_
      rintro _ t ⟨hok, hev, ht, n, rfl, hn, hc⟩
      simp only [maxIndexRK] at hle
      have hlt := lt_size_of_some hc
      refine ⟨hok, h1.evolves.trans hev, .inl ⟨n, rfl, by omega, hlt, asConstantRK_eq (by omega), ?_⟩⟩
      rw [ht]
      exact hfree
    · exact registerRK_spec h1
  cases kind with
  | void => exact hplaced.elim
  | nil | «true» | «false» => exact hnamed _ rfl (by simp) hplaced.2
  | constant =>
    simp only [Operand.plain, Operand.Ready] at hr
    obtain ⟨n, rfl⟩ := Int.eq_ofNat_of_zero_le hr.1
    exact fitting_spec h1.start h1.base (h1.ok_plain (by simp)) h1.evolves hplaced.2 (by omega)
  | number x =>
    refine .bind (internConstant_spec (h1.ok_plain (by simp)) rfl) ?_
    rintro _ t ⟨hok, hev, ht, n, rfl, -, hc⟩
    have hfree : t.fn.free = s0.fn.free := by
      rw [ht]
      exact hplaced.2
    exact fitting_spec h1.start h1.base hok (h1.evolves.trans hev) hfree
      (lt_size_of_some hc)
  | nonRelocatable | jump | relocatable => exact registerRK_spec h1
  | «local» | upvalue | indexed | call | vararg => exact hr.elim

end Choose

end RegisterCompiler
