import Mathlib.Tactic.ByContra
import RegisterCompiler.Proofs.OpenJumps

/-!
# Jumps to jumps

* `followJumps_mem` : following jumps stays in every set that the jumps on the way do not leave;
* `Threads code code'` : one jump is pointed to where the jumps that it leads to end;
* `threadJumps_induct` : what one such step keeps, threading all jumps keeps;
* `CodeOk.threads`, `Confined.threads` : so the code stays in order, and ranges are left only by jumps
  that close a register, as before.
-/

namespace RegisterCompiler

theorem followJumps_mem {code : Array Instr} {S : Int → Prop}
    (hS : ∀ (q : Nat) (i : Instr), S q → code[q]? = some i → i.op? = some .jmp → i.a = 0 →
      S (i.target q)) (pc : Nat) {t : Int} (ht : S t) (n : Nat) : S (followJumps code pc n t) := by
  induction n generalizing t with
  | zero => exact ht
  | succ n ih =>
    unfold followJumps
    split
    · exact ht
    · split
      · exact ht
      · rename_i i hi
        split
        · rename_i hjmp
          have hq : (t.toNat : Int) = t := by omega
          have := ih (hS t.toNat i (hq ▸ ht) hi hjmp.1 hjmp.2)
          rwa [Instr.target, hq] at this
        · exact ht

/-- The jump `i` at `pc` is pointed to where the jumps that it leads to end. -/
structure Threads (code code' : Array Instr) (pc : Nat) (i : Instr) (w : Int) : Prop where
  old : code[pc]? = some i
  op : i.op? = some .jmp
  eq : code' = code.modify pc (·.setSBx w)
  target : (i.setSBx w).target pc = followJumps code pc maxHops (i.target pc)

theorem threadJump_cases (code : Array Instr) (pc : Nat) :
    threadJump code pc = code ∨ ∃ i w, Threads code (threadJump code pc) pc i w := by
  unfold threadJump
  split
  · exact .inl rfl
  · rename_i i hi
    split
    · rename_i hop
      extract_lets offset
      split
      · rename_i hoff
        refine .inr ⟨i, offset, hi, hop, rfl, ?_⟩
        rw [Instr.target, Instr.sbx_setSBx i hoff.2]
        show (pc : Int) + 1 + (followJumps code pc maxHops (i.target pc) - (pc + 1)) = _
        omega
      · exact .inl rfl
    · exact .inl rfl

theorem threadJumps_induct {P : Array Instr → Prop}
    (hstep : ∀ {code code' : Array Instr} {pc : Nat} {i : Instr} {w : Int}, P code →
      Threads code code' pc i w → P code') {code : Array Instr} (h : P code) : P (threadJumps code) := by
  have hfrom : ∀ (n pc : Nat) (code : Array Instr), P code → P (threadFrom n pc code) := by
    intro n
    induction n with
    | zero => exact fun _ _ h => h
    | succ n ih =>
      intro pc code h
      apply ih
      rcases threadJump_cases code pc with heq | ⟨i, w, ht⟩
      · rwa [heq]
      · exact hstep h ht
  exact hfrom _ _ _ h

section Threads
variable {code code' : Array Instr} {pc : Nat} {i : Instr} {w : Int}

theorem Threads.get (h : Threads code code' pc i w) {q : Nat} {j : Instr} (hj : code'[q]? = some j) :
    code[q]? = some j ∨ q = pc ∧ j = i.setSBx w := by
  rw [h.eq, Array.getElem?_modify] at hj
  split at hj
  · rename_i hq
    rw [← hq, h.old] at hj
    exact .inr ⟨hq.symm, (Option.some.inj hj).symm⟩
  · exact .inl hj

theorem Threads.get_of_ne (h : Threads code code' pc i w) {q : Nat} {j : Instr}
    (hj : code[q]? = some j) (hop : j.op? ≠ some .jmp) : code'[q]? = some j := by
  rw [h.eq, Array.getElem?_modify, if_neg, hj]
  rintro rfl
  exact hop (Option.some.inj (hj.symm.trans h.old) ▸ h.op)

theorem CodeOk.threads {B : Bounds} {T : Int} (h : CodeOk B T ∅ code)
    (ht : Threads code code' pc i w) : CodeOk B T ∅ code' ∧ Revised code code' := by
  have hjump : i.isJump := by simp [Instr.isJump, ht.op]
  have hheld : CodeOk B T {pc} code := by
    refine h.hold (Set.empty_subset _) fun q hq j hj hop => ?_
    obtain rfl : q = pc := hq
    cases hj.symm.trans ht.old
    simp [ht.op] at hop
  -- With the jump taken for open its offset may change, and it leads where a jump may lead.
  obtain ⟨hcode, hrev⟩ := hheld.revised_modify ht.old
    (.setSBx w (h.fits_of_not_testSet ht.old (by simp [ht.op])) hjump rfl)
  rw [← ht.eq] at hcode hrev
  refine ⟨hcode.release ?_ ?_ ?_ (Set.empty_subset _), hrev⟩
  · rintro q rfl - j hj -
    obtain rfl : j = i.setSBx w := by
      rw [ht.eq, Array.getElem?_modify, if_pos rfl, ht.old] at hj
      exact (Option.some.inj hj).symm
    rw [ht.target]
    refine IsTarget.revised (followJumps_mem (S := IsTarget code T) (fun k x _ hx hop _ => ?_) _
      (h.aimed ht.old hjump (Set.notMem_empty _)) _) hrev
    exact h.aimed hx (by simp [Instr.isJump, hop]) (Set.notMem_empty _)
  · rintro q hq - j hj
    rcases hcode.fits hj with hfit | ⟨hwait, -⟩
    · exact hfit
    · rcases ht.get hj with hj | ⟨rfl, rfl⟩
      · exact (h.fits hj).resolve_right fun hw => hw.2
      · have := hwait.1
        simp [ht.op] at this
  · rintro q rfl - j hj hop
    rcases ht.get hj with hj | ⟨-, rfl⟩
    · rw [Option.some.inj (hj.symm.trans ht.old), ht.op] at hop
      simp at hop
    · simp [ht.op] at hop

theorem Confined.threads {start stop : Int} {r : Nat} (h : Confined code start stop r)
    (ht : Threads code code' pc i w) : Confined code' start stop r := by
  intro q j t hj hgo hq hq' hout
  rcases ht.get hj with hj | ⟨rfl, rfl⟩
  · exact h q j t hj hgo hq hq' hout
  by_contra hcl
  have hcl' : ¬ i.Closes r := by
    rintro ⟨hop, hc⟩
    exact hcl ⟨by simpa using hop, by simpa using hc⟩
  -- The jump stays inside, and so do the jumps that it is pointed past, which close nothing.
  have hstay : ∀ {k : Nat} {x : Instr}, code[k]? = some x → x.op? = some .jmp → ¬ x.Closes r →
      start ≤ (k : Int) ∧ (k : Int) < stop → start ≤ x.target k ∧ x.target k < stop := by
    intro k x hx hop hno hk
    by_contra hleave
    exact hno (h k x _ hx (by rw [Instr.GoesTo, hop]) hk.1 hk.2 hleave)
  have htarget : t = followJumps code q maxHops (i.target q) := by
    rw [Instr.GoesTo, Instr.op?_setSBx, ht.op] at hgo
    rw [← ht.target]
    exact hgo
  apply hout
  rw [htarget]
  refine followJumps_mem (S := fun t => start ≤ t ∧ t < stop) (fun k x hk hx hop ha => ?_) _
    (hstay ht.old ht.op hcl' ⟨hq, hq'⟩) _
  exact hstay hx hop (fun hc => hc.2.1 ha) hk

end Threads

end RegisterCompiler
