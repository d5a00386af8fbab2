import RegisterCompiler.Proofs.StraightCode

/-!
# Loads of nil in a row

Loads of nil are merged as long as no jump can come between them. `nilSteps_clear` says that this is not
seen: from the start, and from each place that was marked as a target of jumps, the code sets just those
registers to nil that were asked for since then.
-/

namespace RegisterCompiler

open Gen Machine

/-- A step of generation that marks a target of jumps, or sets registers to nil. -/
inductive NilStep where
  | label
  | nils (first n : Nat)

namespace NilStep

def run : NilStep → Gen Unit
  | .label => do let _ ← Gen.label
  | .nils first n => emitNils first n

def runAll : List NilStep → Gen Unit
  | [] => pure ()
  | c :: cs => do
    c.run
    runAll cs

theorem runAll_append (as bs : List NilStep) : runAll (as ++ bs) = (do runAll as; runAll bs) := by
  induction as with
  | nil => rfl
  | cons c as ih => simp only [List.cons_append, runAll, ih, bind_assoc]

/-- Some register is asked for, and none above the last that a function can have. -/
def Fits : NilStep → Prop
  | .label => True
  | .nils first n => 1 ≤ n ∧ first + n ≤ 250

def clears (r : Nat) : NilStep → Bool
  | .label => false
  | .nils first n => first ≤ r && r < first + n

end NilStep

/-- The frame in which the registers that one of the steps asks for are nil. -/
def Machine.Frame.cleared {ρ σ : Type} (f : Frame ρ σ) (steps : List NilStep) : Frame ρ σ :=
  { f with reg := fun r => if steps.any (·.clears r) then .nil else f.reg r }

/-- The code from place `p` to its end does what the steps ask for, and nothing else. -/
def GenState.Clears (s : GenState) (p : Int) (steps : List NilStep) : Prop :=
  ∀ {ρ σ : Type} (host : Host ρ σ) (f : Frame ρ σ),
    Reaches host s.fn.constants s.fn.code (.running p f) (.running s.fn.code.size (f.cleared steps))

theorem Machine.Frame.cleared_concat {ρ σ : Type} (f : Frame ρ σ) (steps : List NilStep) {first n : Nat} (hn : 1 ≤ n) :
    f.cleared (steps ++ [.nils first n]) = (f.cleared steps).setNils first (first + n - 1) := by
  simp only [Frame.cleared, Frame.setNils]
  congr
  funext r
  by_cases hr : first ≤ r ∧ r ≤ first + n - 1
  · rw [if_pos hr, if_pos]
    simp [NilStep.clears]
    omega
  · rw [if_neg hr]
    congr 1
    simp [NilStep.clears]
    omega

/-- The code from place `p` on was made by the steps, and `p` was marked as a target before them. -/
structure NilsSince (p : Nat) (steps : List NilStep) (s : GenState) : Prop where
  isOpen : s.fn.isClosed = false
  start : p ≤ s.fn.code.size
  target : p ≤ s.fn.lastTarget
  nils : NilsFit p s.fn.code
  leads : ∀ {ρ σ : Type} (host : Host ρ σ) (f : Frame ρ σ), s.Leads host p f (f.cleared steps)

theorem Gen.eq_ok_of_ensures {α : Type} {m : Gen α} {s t : GenState} {a : α}
    (h : ∀ Q, m.Ensures s Q ↔ Q a t) : m s = .ok (a, t) := by
  have hok := (h fun b u => b = a ∧ u = t).2 ⟨rfl, rfl⟩
  have herror := (h fun _ _ => False).1
  unfold Ensures at hok herror
  split at hok <;> simp_all

namespace NilsSince
variable {p : Nat} {steps : List NilStep} {s : GenState} {c : NilStep}

theorem of_label (h : s.fn.isClosed = false) (hp : s.fn.code.size = p) (htarget : s.fn.lastTarget = p) :
    NilsSince p [] s where
  isOpen := h
  start := hp.ge
  target := htarget.ge
  nils k i hk hi := by
    have := lt_size_of_some hi
    omega
  leads host f _ _ := hp ▸ .start

theorem step (h : NilsSince p steps s) (hc : c.Fits) : ∃ t, c.run s = .ok ((), t) ∧ NilsSince p (steps ++ [c]) t := by
  cases c with
  | label =>
    refine ⟨_, rfl, h.isOpen, h.start, Int.ofNat_le.2 h.start, h.nils, fun host f => ?_⟩
    rw [show f.cleared (steps ++ [.label]) = f.cleared steps by simp [Frame.cleared, NilStep.clears]]
    exact (h.leads host f).congr rfl fun _ _ hk => hk
  | nils first n =>
    have hrun : emitNils first n s = .ok ((), s.pushNils first n) := eq_ok_of_ensures fun Q =>
      ensures_emitNils h.isOpen (by have := h.target; omega)
        (by simp only [NilStep.Fits, maxA, maxB] at hc ⊢; omega)
    obtain ⟨hnils, hsize, ht, hleads⟩ := passes_emitNils h.target h.nils hc.1 hc.2 _ _ hrun
    refine ⟨_, hrun, ?_, h.start.trans hsize, ?_, hnils, fun host f => ?_⟩
    · rw [ht]
      exact h.isOpen
    · rw [ht]
      exact h.target
    · rw [Frame.cleared_concat f steps hc.1]
      exact hleads host f _ (h.leads host f)

theorem run (h : NilsSince p steps s) {cs : List NilStep} (hcs : ∀ c ∈ cs, c.Fits) :
    ∃ t, NilStep.runAll cs s = .ok ((), t) ∧ NilsSince p (steps ++ cs) t := by
  induction cs generalizing steps s with
  | nil => exact ⟨s, rfl, by rwa [List.append_nil]⟩
  | cons c cs ih =>
    obtain ⟨t, ht, hstep⟩ := h.step (hcs c (List.mem_cons_self ..))
    obtain ⟨u, hu, hrun⟩ := ih hstep fun c hc => hcs c (List.mem_cons_of_mem _ hc)
    refine ⟨u, (run_bind ht).trans hu, ?_⟩
    rwa [List.append_assoc] at hrun

theorem clears (h : NilsSince p steps s) : s.Clears p steps := fun host f =>
  (h.leads host f _ fun _ _ hk => hk).reaches

end NilsSince

/-- Merged loads of nil do what was asked for, wherever the code is entered. -/
theorem nilSteps_clear (s : GenState) (level : Nat) (line : Int) (steps : List NilStep)
    (h : ∀ c ∈ steps, c.Fits) :
    ∃ u, NilStep.runAll steps { s with fn := { level := level, line := line } } = .ok ((), u) ∧
      u.Clears 0 steps ∧
      ∀ before after, steps = before ++ .label :: after → ∃ t t' p,
        NilStep.runAll before { s with fn := { level := level, line := line } } = .ok ((), t) ∧
        label t = .ok (p, t') ∧ NilStep.runAll after t' = .ok ((), u) ∧ u.Clears p after := by
  have hfresh : NilsSince 0 [] { s with fn := { level := level, line := line } } := .of_label rfl rfl rfl
  obtain ⟨u, hu, hclear⟩ := hfresh.run h
  refine ⟨u, hu, hclear.clears, ?_⟩
  rintro before after rfl
  obtain ⟨t, ht, hbefore⟩ := hfresh.run fun c hc => h c (List.mem_append_left _ hc)
  have hlabel : NilsSince t.fn.code.size [] { t with fn := { t.fn with lastTarget := t.fn.code.size } } :=
    .of_label hbefore.isOpen rfl rfl
  obtain ⟨v, hv, hafter⟩ := hlabel.run fun c hc => h c (List.mem_append_right _ (List.mem_cons_of_mem _ hc))
  have huv : NilStep.runAll after { t with fn := { t.fn with lastTarget := t.fn.code.size } } = .ok ((), u) := by
    rw [NilStep.runAll_append, run_bind ht] at hu
    exact hu
  obtain rfl : u = v := by simpa [huv] using hv
  exact ⟨t, _, _, ht, rfl, hv, hafter.clears⟩

theorem nilSteps_clear_crossing :
    ∃ u, NilStep.runAll [.nils 0 2, .nils 2 1, .label, .nils 1 3] (GenState.initial []) = .ok ((), u) ∧
      u.Clears 0 [.nils 0 2, .nils 2 1, .label, .nils 1 3] ∧ u.Clears 1 [.nils 1 3] := by
  obtain ⟨u, hu, hall, hlabel⟩ := nilSteps_clear (GenState.initial []) 0 0
    [.nils 0 2, .nils 2 1, .label, .nils 1 3] (by simp [NilStep.Fits])
  obtain ⟨t, t', p, ht, hp, -, hclear⟩ := hlabel [.nils 0 2, .nils 2 1] [.nils 1 3] rfl
  cases ht
  cases hp
  exact ⟨u, hu, hall, hclear⟩

end RegisterCompiler
