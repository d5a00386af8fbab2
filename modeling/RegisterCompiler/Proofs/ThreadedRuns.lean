import Mathlib.Logic.Relation
import RegisterCompiler.Proofs.Machine
import RegisterCompiler.Proofs.Threading

/-!
# Runs of threaded code

A plain jump, which closes nothing, changes only where the run goes on. So what is seen of a run is the
steps that are not plain jumps.

* `Hops`, `Settles` : the way that plain jumps lead from a place, and where it ends;
* `SameWays code code'` : the ways end in the same places, and what is done there is the same but for
  the way that follows. Pointing one jump to where it leads keeps to this (`Threads.sameWays`);
* `threadJumps_sameRuns` : so threading all jumps changes nothing that is seen.
-/

namespace RegisterCompiler

namespace Machine

/-! ## What is seen of a run -/

/-- What an instruction does, a jump's target apart. -/
inductive Action where
  | run (i : Instr)
  /-- A jump that closes the upvalues of registers from `a - 1` on. -/
  | close (a : Nat)

/-- A step that is seen: its place, what is done, and the frame before it. -/
structure Event (ρ σ : Type) where
  pc : Int
  action : Action
  frame : Frame ρ σ

def hop? (code : Array Instr) (pc : Int) : Option Int :=
  match fetch code pc with
  | some i => if i.op? = some .jmp ∧ i.a = 0 then some (pc + 1 + i.sbx) else none
  | none => none

def Action.ofInstr (i : Instr) : Action :=
  if i.op? = some .jmp then .close i.a else .run i

variable {ρ σ : Type}

/-- What is seen of the next step; a plain jump is not seen. -/
def event? (code : Array Instr) : Config ρ σ → Option (Event ρ σ)
  | .returned _ _ => none
  | .running pc f =>
    if (hop? code pc).isSome then none
    else (fetch code pc).map fun i => ⟨pc, .ofInstr i, f⟩

section Runs
variable (host : Host ρ σ) (constants : Array Constant) (code : Array Instr)

/-- Steps lead from one configuration to another, and `w` is seen of them. -/
inductive Performs : Config ρ σ → List (Event ρ σ) → Config ρ σ → Prop
  | refl (c : Config ρ σ) : Performs c [] c
  | step {c d e : Config ρ σ} {w : List (Event ρ σ)} :
    step host constants code c = some d → Performs d w e →
      Performs c ((event? code c).toList ++ w) e

/-- The run from `c` never ends, and nothing is seen of it. -/
def EndlessJumps (c : Config ρ σ) : Prop :=
  ∃ run : Nat → Config ρ σ, run 0 = c ∧
    ∀ n, step host constants code (run n) = some (run (n + 1)) ∧ event? code (run n) = none

end Runs

section Steps
variable {host : Host ρ σ} {constants : Array Constant} {code : Array Instr} {pc : Int}

theorem Performs.trans {c d e : Config ρ σ} {w w' : List (Event ρ σ)}
    (h : Performs host constants code c w d) (h' : Performs host constants code d w' e) :
    Performs host constants code c (w ++ w') e := by
  induction h with
  | refl => exact h'
  | step hstep _ ih =>
    rw [List.append_assoc]
    exact .step hstep (ih h')

theorem hop?_eq_some {t : Int} (h : hop? code pc = some t) :
    ∃ i, fetch code pc = some i ∧ i.op? = some .jmp ∧ i.a = 0 ∧ t = pc + 1 + i.sbx := by
  unfold hop? at h
  split at h
  · rename_i i hi
    split at h
    · rename_i hjmp
      exact ⟨i, hi, hjmp.1, hjmp.2, (Option.some.inj h).symm⟩
    · cases h
  · cases h

theorem hop?_of_fetch {i : Instr} (hi : fetch code pc = some i) :
    hop? code pc = if i.op? = some .jmp ∧ i.a = 0 then some (pc + 1 + i.sbx) else none := by
  rw [hop?, hi]

theorem step_of_hop {t : Int} (h : hop? code pc = some t) (f : Frame ρ σ) :
    step host constants code (.running pc f) = some (.running t f) := by
  obtain ⟨i, hi, hop, ha, rfl⟩ := hop?_eq_some h
  simp [step, hi, exec, hop, ha, Outcome.config]

theorem event?_of_hop {t : Int} (h : hop? code pc = some t) (f : Frame ρ σ) : event? code (.running pc f) = none := by
  simp [event?, h]

theorem event?_of_rest {i : Instr} (h : hop? code pc = none) (hi : fetch code pc = some i)
    (f : Frame ρ σ) : event? code (.running pc f) = some ⟨pc, .ofInstr i, f⟩ := by
  simp [event?, h, hi]

theorem step_cases {f : Frame ρ σ} {d : Config ρ σ} (h : step host constants code (.running pc f) = some d) :
    (∃ t, hop? code pc = some t ∧ d = .running t f) ∨ hop? code pc = none ∧ ∃ i, fetch code pc = some i := by
  cases hhop : hop? code pc with
  | some t => exact .inl ⟨t, rfl, Option.some.inj (h.symm.trans (step_of_hop hhop f))⟩
  | none =>
    refine .inr ⟨rfl, ?_⟩
    cases hi : fetch code pc with
    | some i => exact ⟨i, rfl⟩
    | none => simp [step, hi] at h

end Steps

/-! ## The way that plain jumps lead -/

abbrev Hops (code : Array Instr) : Int → Int → Prop :=
  Relation.ReflTransGen fun pc t => hop? code pc = some t

/-- Plain jumps, `n` in number, lead from `pc` to `q`, where no plain jump is. -/
inductive SettlesIn (code : Array Instr) : Nat → Int → Int → Prop
  | here {q : Int} : hop? code q = none → SettlesIn code 0 q q
  | hop {n : Nat} {pc t q : Int} :
    hop? code pc = some t → SettlesIn code n t q → SettlesIn code (n + 1) pc q

/-- Plain jumps lead from `pc` to `q`, where no plain jump is. -/
def Settles (code : Array Instr) (pc q : Int) : Prop :=
  ∃ n, SettlesIn code n pc q

section Ways
variable {host : Host ρ σ} {constants : Array Constant} {code : Array Instr} {q pc t : Int}

theorem Settles.here (h : hop? code q = none) : Settles code q q :=
  ⟨0, .here h⟩

theorem Settles.hop (h : hop? code pc = some t) (ht : Settles code t q) : Settles code pc q :=
  ht.elim fun n hn => ⟨n + 1, .hop h hn⟩

theorem Settles.hop_none (h : Settles code pc q) : hop? code q = none := by
  obtain ⟨n, h⟩ := h
  induction h with
  | here h => exact h
  | hop _ _ ih => exact ih

theorem SettlesIn.of_hops {n : Nat} (h : SettlesIn code n pc q) (ht : Hops code pc t) :
    ∃ m ≤ n, SettlesIn code m t q := by
  induction ht with
  | refl => exact ⟨n, Nat.le_refl n, h⟩
  | tail _ hhop ih =>
    obtain ⟨m, hm, h⟩ := ih
    cases h with
    | here hrest => simp [hhop] at hrest
    | hop hhop' h =>
      cases hhop'.symm.trans hhop
      exact ⟨_, by omega, h⟩

theorem Settles.hops (hp : Hops code pc t) (h : Settles code t q) : Settles code pc q := by
  induction hp using Relation.ReflTransGen.head_induction_on with
  | refl => exact h
  | head hhop _ ih => exact .hop hhop ih

theorem settles_iff_of_hops (hp : Hops code pc t) (q : Int) : Settles code pc q ↔ Settles code t q := by
  refine ⟨fun ⟨n, h⟩ => ?_, .hops hp⟩
  obtain ⟨m, -, h⟩ := h.of_hops hp
  exact ⟨m, h⟩

theorem settles_iff_of_hop (h : hop? code pc = some t) (q : Int) : Settles code pc q ↔ Settles code t q :=
  settles_iff_of_hops (.single h) q

theorem Settles.performs (h : Settles code pc q) (host : Host ρ σ) (constants : Array Constant) (f : Frame ρ σ) :
    Performs host constants code (.running pc f) [] (.running q f) := by
  obtain ⟨n, h⟩ := h
  induction h with
  | here => exact .refl _
  | hop hhop _ ih =>
    have := Performs.step (step_of_hop hhop f) ih
    rwa [event?_of_hop hhop] at this

theorem endlessJumps_iff {f : Frame ρ σ} :
    EndlessJumps host constants code (.running pc f) ↔ ∀ q, ¬ Settles code pc q := by
  constructor
  · rintro ⟨run, h0, hrun⟩ q ⟨n, hrest⟩
    induction hrest generalizing run with
    | here hrest =>
      have hstep := (hrun 0).1
      have hunseen := (hrun 0).2
      rw [h0] at hstep hunseen
      rcases step_cases hstep with ⟨t, ht, -⟩ | ⟨-, i, hi⟩
      · simp [ht] at hrest
      · simp [event?_of_rest hrest hi] at hunseen
    | hop hhop _ ih =>
      refine ih (fun n => run (n + 1)) ?_ fun n => hrun (n + 1)
      have hstep := (hrun 0).1
      rw [h0, step_of_hop hhop] at hstep
      exact (Option.some.inj hstep).symm
  · intro hno
    -- The next place exists always, since a place without one would be the end of the way.
    have hnext : ∀ t, Hops code pc t → ∃ u, hop? code t = some u := by
      intro t ht
      by_contra hrest
      exact hno t (.hops ht (.here (Option.eq_none_iff_forall_ne_some.2 (not_exists.1 hrest))))
    let place : Nat → Int := fun n => (fun t => (hop? code t).getD t)^[n] pc
    have hplace : ∀ n, Hops code pc (place n) ∧ hop? code (place n) = some (place (n + 1)) := by
      have hgo : ∀ n, Hops code pc (place n) → hop? code (place n) = some (place (n + 1)) := by
        intro n hn
        obtain ⟨u, hu⟩ := hnext _ hn
        have : place (n + 1) = (hop? code (place n)).getD (place n) :=
          Function.iterate_succ_apply' ..
        rw [this, hu]
        rfl
      intro n
      induction n with
      | zero => exact ⟨.refl, hgo 0 .refl⟩
      | succ n ih => exact ⟨ih.1.tail ih.2, hgo _ (ih.1.tail ih.2)⟩
    exact ⟨fun n => .running (place n) f, rfl, fun n => ⟨step_of_hop (hplace n).2 f, event?_of_hop (hplace n).2 f⟩⟩

end Ways

/-! ## Code whose ways end in the same places -/

/-- The ways that plain jumps lead end in the same places, and there the same is done, but that a jump
that closes upvalues may lead to another place on the same way. -/
structure SameWays (code code' : Array Instr) : Prop where
  settles : ∀ pc q, Settles code pc q ↔ Settles code' pc q
  large : ∀ pc, largeOperand code' pc = largeOperand code pc
  acts : ∀ q, hop? code q = none → fetch code' q = fetch code q ∨
    ∃ i i', fetch code q = some i ∧ fetch code' q = some i' ∧ i.op? = some .jmp ∧
      i'.op? = some .jmp ∧ i.a ≠ 0 ∧ i'.a = i.a ∧
      ∀ r, Settles code (q + 1 + i.sbx) r ↔ Settles code' (q + 1 + i'.sbx) r

/-- Two configurations that differ at most in how far plain jumps were followed. -/
inductive Level (code code' : Array Instr) : Config ρ σ → Config ρ σ → Prop
  | running {pc pc' : Int} (f : Frame ρ σ) :
    (∀ q, Settles code pc q ↔ Settles code' pc' q) → Level code code' (.running pc f) (.running pc' f)
  | returned (vs : List (Value ρ)) (f : Frame ρ σ) : Level code code' (.returned vs f) (.returned vs f)

namespace SameWays
variable {host : Host ρ σ} {constants : Array Constant} {code code' : Array Instr} {d : Config ρ σ}

section
variable (h : SameWays code code')
include h

theorem hop?_none {q : Int} (hq : hop? code q = none) : hop? code' q = none :=
  ((h.settles q q).1 (.here hq)).hop_none

theorem symm : SameWays code' code where
  settles pc q := (h.settles pc q).symm
  large pc := (h.large pc).symm
  acts q hq := by
    have hq' : hop? code q = none := ((h.settles q q).2 (.here hq)).hop_none
    rcases h.acts q hq' with heq | ⟨i, i', hi, hi', hop, hop', ha, haa, hsettles⟩
    · exact .inl heq.symm
    · exact .inr ⟨i', i, hi', hi, hop', hop, haa ▸ ha, haa.symm, fun r => (hsettles r).symm⟩

theorem level (c : Config ρ σ) : Level code code' c c := by
  cases c with
  | running pc f => exact .running f (h.settles pc)
  | returned vs f => exact .returned vs f

theorem step_rest {q : Int} (hq : hop? code q = none) (host : Host ρ σ) (constants : Array Constant) (f : Frame ρ σ) :
    event? code' (.running q f) = event? code (.running q f) ∧
      Option.Rel (Level code code') (step host constants code (.running q f))
        (step host constants code' (.running q f)) := by
  have hq' := h.hop?_none hq
  rcases h.acts q hq with heq | ⟨i, i', hi, hi', hop, hop', ha, haa, hsettles⟩
  · constructor
    · simp only [event?, hq, hq', heq]
    · have hstep : step host constants code' (.running q f) =
          step host constants code (.running q f) := by
        simp only [step, heq, h.large]
      rw [hstep]
      cases step host constants code (.running q f) with
      | none => exact .none
      | some d => exact .some (h.level d)
  · constructor
    · rw [event?_of_rest hq hi, event?_of_rest hq' hi', Action.ofInstr, Action.ofInstr, if_pos hop, if_pos hop', haa]
    · simp only [step, hi, hi', exec, hop, hop', haa, if_neg ha, Option.bind_eq_bind,
        Option.bind_some, Option.pure_def]
      cases host.close (i.a - 1) f with
      | none => exact .none
      | some g => exact .some (.running g hsettles)

theorem performs {c' : Config ρ σ} (hlevel : Level code code' c c') (hrun : Performs host constants code c w d) :
    ∃ d', Performs host constants code' c' w d' ∧ Level code code' d d' := by
  induction hrun generalizing c' with
  | refl c => exact ⟨c', .refl c', hlevel⟩
  | step hstep _ ih =>
    cases hlevel with
    | returned => cases hstep
    | @running pc pc' f hsettles =>
      rcases step_cases hstep with ⟨t, ht, rfl⟩ | ⟨hrest, -⟩
      · -- A plain jump: the other run waits.
        rw [event?_of_hop ht]
        exact ih (.running f fun q => (settles_iff_of_hop ht q).symm.trans (hsettles q))
      · -- The other run follows its plain jumps to the same place, and does the same there.
        have hway := ((hsettles pc).1 (.here hrest)).performs host constants f
        obtain ⟨hevent, hnext⟩ := h.step_rest hrest host constants f
        rw [hstep] at hnext
        generalize hstep' : step host constants code' (.running pc f) = o at hnext
        cases hnext with
        | some hnext =>
          obtain ⟨d', hrun', hlevel'⟩ := ih hnext
          refine ⟨d', ?_, hlevel'⟩
          rw [← hevent]
          exact hway.trans (.step hstep' hrun')

end

theorem endlessJumps {c' : Config ρ σ} (hlevel : Level code code' c c')
    (h : EndlessJumps host constants code c) : EndlessJumps host constants code' c' := by
  cases hlevel with
  | running f hsettles =>
    rw [endlessJumps_iff] at h ⊢
    exact fun q hq => h q ((hsettles q).2 hq)
  | returned vs f =>
    obtain ⟨run, h0, hrun⟩ := h
    have := (hrun 0).1
    rw [h0] at this
    cases this

theorem stops (h : SameWays code code') {d' : Config ρ σ} (hlevel : Level code code' d d')
    (hend : step host constants code d = none) :
    Performs host constants code' d' [] d ∧ step host constants code' d = none := by
  cases hlevel with
  | returned vs f => exact ⟨.refl _, rfl⟩
  | @running pc pc' f hsettles =>
    have hrest : hop? code pc = none := by
      cases hhop : hop? code pc with
      | none => rfl
      | some t => rw [step_of_hop hhop] at hend; cases hend
    refine ⟨((hsettles pc).1 (.here hrest)).performs host constants f, ?_⟩
    have hnext := (h.step_rest hrest host constants f).2
    rw [hend] at hnext
    generalize step host constants code' (.running pc f) = o at hnext ⊢
    cases hnext
    rfl

variable {c : Config ρ σ} {w : List (Event ρ σ)}

theorem performs_self (h : SameWays code code') :
    (∃ d, Performs host constants code c w d) → ∃ d, Performs host constants code' c w d := by
  rintro ⟨d, hrun⟩
  obtain ⟨d', hrun', -⟩ := h.performs (h.level c) hrun
  exact ⟨d', hrun'⟩

theorem endlessJumps_self (h : SameWays code code') :
    (∃ d, Performs host constants code c w d ∧ EndlessJumps host constants code d) →
      ∃ d, Performs host constants code' c w d ∧ EndlessJumps host constants code' d := by
  rintro ⟨d, hrun, hjumps⟩
  obtain ⟨d', hrun', hlevel⟩ := h.performs (h.level c) hrun
  exact ⟨d', hrun', endlessJumps hlevel hjumps⟩

theorem stops_self (h : SameWays code code')
    (hd : Performs host constants code c w d ∧ step host constants code d = none) :
    Performs host constants code' c w d ∧ step host constants code' d = none := by
  obtain ⟨d', hrun', hlevel⟩ := h.performs (h.level c) hd.1
  obtain ⟨hon, hend⟩ := h.stops hlevel hd.2
  exact ⟨by simpa using hrun'.trans hon, hend⟩

end SameWays

/-! ## Threading -/

section Threading
variable {code code' : Array Instr} {p : Nat} {i : Instr} {w : Int}

theorem fetch_natCast (code : Array Instr) (q : Nat) : fetch code q = code[q]? := by
  rw [fetch, if_neg (by omega), Int.toNat_natCast]

theorem hop?_natCast {q : Nat} {j : Instr} (hj : code[q]? = some j) (hop : j.op? = some .jmp)
    (ha : j.a = 0) : hop? code q = some (j.target q) := by
  rw [hop?_of_fetch (by rw [fetch_natCast, hj]), if_pos ⟨hop, ha⟩, Instr.target]

theorem hops_followJumps (code : Array Instr) (p : Nat) (t : Int) (n : Nat) : Hops code t (followJumps code p n t) :=
  followJumps_mem (fun _ _ hq hj hop ha => hq.tail (hop?_natCast hj hop ha)) p .refl n

end Threading

end Machine

open Machine

section Threads
variable {code code' : Array Instr} {p : Nat} {i : Instr} {w : Int}

namespace Threads

variable {pc : Int}

section
variable (h : Threads code code' p i w)
include h

theorem fetch_self : fetch code' p = some (i.setSBx w) := by
  rw [fetch_natCast, h.eq, Array.getElem?_modify, if_pos rfl, h.old]
  rfl

theorem fetch_of_ne (hpc : pc ≠ p) : fetch code' pc = fetch code pc := by
  unfold fetch
  split
  · rfl
  · rw [h.eq, Array.getElem?_modify, if_neg (by omega)]

theorem hop?_of_ne (hpc : pc ≠ p) : hop? code' pc = hop? code pc := by
  rw [hop?, hop?, h.fetch_of_ne hpc]

/-- The jump that is changed is a plain one, and leads further along its way, or closes upvalues. -/
theorem hop?_self : (∃ t t', hop? code p = some t ∧ hop? code' p = some t' ∧ Hops code t t') ∨
      hop? code p = none ∧ hop? code' p = none ∧ i.a ≠ 0 := by
  have hold : hop? code p = _ := hop?_of_fetch (by rw [fetch_natCast, h.old])
  have hnew : hop? code' p = _ := hop?_of_fetch h.fetch_self
  by_cases ha : i.a = 0
  · rw [if_pos ⟨h.op, ha⟩] at hold
    rw [if_pos ⟨by simpa using h.op, by simpa using ha⟩] at hnew
    refine .inl ⟨_, _, hold, hnew, ?_⟩
    have htarget := h.target
    rw [Instr.target] at htarget
    rw [htarget]
    exact hops_followJumps code p _ _
  · rw [if_neg fun hp => ha hp.2] at hold
    rw [if_neg fun hp => ha (by simpa using hp.2)] at hnew
    exact .inr ⟨hold, hnew, ha⟩

theorem hop?_eq_none_iff (pc : Int) : hop? code' pc = none ↔ hop? code pc = none := by
  by_cases hpc : pc = p
  · subst hpc
    rcases h.hop?_self with ⟨t, t', ht, ht', -⟩ | ⟨ht, ht', -⟩ <;> simp [ht, ht']
  · rw [h.hop?_of_ne hpc]

theorem settles_of_new {q : Int} (hrest : Settles code' pc q) : Settles code pc q := by
  obtain ⟨n, hrest⟩ := hrest
  induction hrest with
  | here hnone => exact .here ((h.hop?_eq_none_iff _).1 hnone)
  | @hop n pc t q hhop _ ih =>
    by_cases hpc : pc = p
    · subst hpc
      rcases h.hop?_self with ⟨u, u', hu, hu', hway⟩ | ⟨-, hnone, -⟩
      · cases hu'.symm.trans hhop
        exact .hop hu (.hops hway ih)
      · simp [hnone] at hhop
    · exact .hop (h.hop?_of_ne hpc ▸ hhop) ih

/-- By induction on the length of the old way: the changed jump leads to a place on it that is nearer
to its end. -/
theorem settles_of_old {n : Nat} {q : Int} (hrest : SettlesIn code n pc q) : Settles code' pc q := by
  induction n using Nat.strongRecOn generalizing pc with
  | ind n ih =>
    cases hrest with
    | here hnone => exact .here ((h.hop?_eq_none_iff _).2 hnone)
    | @hop n pc t q hhop hrest =>
      by_cases hpc : pc = p
      · subst hpc
        rcases h.hop?_self with ⟨u, u', hu, hu', hway⟩ | ⟨hnone, -⟩
        · cases hu.symm.trans hhop
          obtain ⟨m, hm, hrest'⟩ := hrest.of_hops hway
          exact .hop hu' (ih m (by omega) hrest')
        · simp [hnone] at hhop
      · exact .hop ((h.hop?_of_ne hpc).trans hhop) (ih n (by omega) hrest)

theorem settles_iff (pc q : Int) : Settles code pc q ↔ Settles code' pc q :=
  ⟨fun ⟨_, hrest⟩ => h.settles_of_old hrest, h.settles_of_new⟩

theorem largeOperand_eq (pc : Int) : largeOperand code' pc = largeOperand code pc := by
  by_cases hpc : pc = p
  · subst hpc
    rw [largeOperand, largeOperand, h.fetch_self, fetch_natCast, h.old]
    simp [h.op]
  · rw [largeOperand, largeOperand, h.fetch_of_ne hpc]

theorem sameWays : SameWays code code' where
  settles := h.settles_iff
  large := h.largeOperand_eq
  acts q hq := by
    by_cases hqp : q = p
    · subst hqp
      rcases h.hop?_self with ⟨t, -, ht, -⟩ | ⟨-, -, ha⟩
      · simp [ht] at hq
      refine .inr ⟨i, i.setSBx w, by rw [fetch_natCast, h.old], h.fetch_self, h.op, by simpa using h.op,
        ha, by simp, fun r => ?_⟩
      -- The closing jump leads further along the way that it led before.
      have htarget := h.target
      rw [Instr.target, Instr.target] at htarget
      rw [htarget]
      exact (settles_iff_of_hops (hops_followJumps code p _ _) r).trans (h.settles_iff _ r)
    · exact .inl (h.fetch_of_ne hqp)

end

end Threads

end Threads

/-! ## Runs before and after threading -/

/-- Threading does not change what is seen of a run: from every configuration, with every host, the same
sequences of steps are performed once plain jumps are left out; after the same steps the run is plain
jumps for ever; and after the same steps it ends, in the same configuration. -/
theorem threadJumps_sameRuns {ρ σ : Type} (host : Host ρ σ) (constants : Array Constant)
    (code : Array Instr) (c : Config ρ σ) (w : List (Event ρ σ)) :
    ((∃ d, Performs host constants code c w d) ↔ ∃ d, Performs host constants (threadJumps code) c w d) ∧
    ((∃ d, Performs host constants code c w d ∧ EndlessJumps host constants code d) ↔
      ∃ d, Performs host constants (threadJumps code) c w d ∧
        EndlessJumps host constants (threadJumps code) d) ∧
    ∀ d, (Performs host constants code c w d ∧ step host constants code d = none) ↔
      Performs host constants (threadJumps code) c w d ∧
        step host constants (threadJumps code) d = none := by
  refine threadJumps_induct (P := fun code' =>
    ((∃ d, Performs host constants code c w d) ↔ ∃ d, Performs host constants code' c w d) ∧
    ((∃ d, Performs host constants code c w d ∧ EndlessJumps host constants code d) ↔
      ∃ d, Performs host constants code' c w d ∧ EndlessJumps host constants code' d) ∧
    ∀ d, (Performs host constants code c w d ∧ step host constants code d = none) ↔
      Performs host constants code' c w d ∧ step host constants code' d = none)
    (fun hbefore hstep => ?_) ⟨Iff.rfl, Iff.rfl, fun _ => Iff.rfl⟩
  have hsame := hstep.sameWays
  exact ⟨hbefore.1.trans ⟨hsame.performs_self, hsame.symm.performs_self⟩,
    hbefore.2.1.trans ⟨hsame.endlessJumps_self, hsame.symm.endlessJumps_self⟩,
    fun d => (hbefore.2.2 d).trans ⟨hsame.stops_self, hsame.symm.stops_self⟩⟩

end RegisterCompiler
