import RegisterCompiler.Proofs.Pending

/-!
# Local variables and blocks

* `newLocal_spec`, `activate_spec`, `deactivate_spec` : variables are declared, start and end;
* `enterScope_spec`, `leaveScope_spec` : a block is opened and closed. What was pending in it is
  pending in the block around;
* `leaveMain_spec` : the outermost block of a function is only closed if no jump is pending.
-/

namespace RegisterCompiler

open Gen

/-! ## Local variables -/

def GenState.withLocals (s : GenState) (declared : Array Nat) (locals : Array LocalVar)
    (active : Int) : GenState :=
  { s with fn := { s.fn with declared := declared, locals := locals, active := active } }

section Locals
variable {s : GenState} {H : Set Nat} {ws : List (Pending × List Nat)} {reg : Int}
  {declared : Array Nat} {locals : Array LocalVar} {active : Int}
  {lo hi : Int} {c : Scope} {cs : List Scope}

theorem GenState.Ok.withLocals (h : s.Ok H) (hactive : 0 ≤ active ∧ active ≤ declared.size)
    (hscopes : ScopesOk s.fn.labels active s.fn.labels.size 0 s.fn.scopes)
    (hloops : LoopsOk (s.withLocals declared locals active).fn.record? active s.fn.scopes)
    (hdecl : ∀ k ∈ declared, k < locals.size) : (s.withLocals declared locals active).Ok H :=
  ⟨⟨{ h.fn with active := hactive, scopes := hscopes, loops := hloops, declared := hdecl }, h.inner,
    h.outer, h.env.congr rfl⟩, h.ends, h.held⟩

theorem Keeps.withLocals (H : Set Nat) (h : Starts s.fn (s.withLocals declared locals active).fn) :
    Keeps H s (s.withLocals declared locals active) :=
  ⟨{ Grows.refl s with starts := h }, fun _ _ _ hi _ => hi⟩

theorem Flow.withLocals (h : Flow s H ws) (hok : (s.withLocals declared locals active).Ok (Held H (places ws)))
    (hlives : (s.withLocals declared locals active).fn.Lives (Held H (places ws)) ∅)
    (hstarts : Starts s.fn (s.withLocals declared locals active).fn)
    (hlabels : ∀ l ∈ s.fn.labels, ∀ r : Nat, (r : Int) < l.active →
      (s.withLocals declared locals active).fn.record? r = s.fn.record? r)
    (hactive : s.fn.active ≤ active) : Flow (s.withLocals declared locals active) H ws :=
  ⟨⟨h.toWaiting.frame (fun _ _ hp => hp) (.withLocals _ hstarts) hok hlives
    fun l hl => ⟨hl, hlabels l hl⟩, h.gotos, h.outside⟩,
    fun p hp => (h.within p hp).trans hactive⟩

theorem Flow.active_of_mem_labels (h : Flow s H ws) (hs : s.fn.scopes ≠ []) {l : Label}
    (hl : l ∈ s.fn.labels) : l.active ≤ s.fn.active := by
  obtain ⟨c, cs, hcs⟩ := List.exists_cons_of_ne_nil hs
  have hscopes := h.ok.fn.scopes
  rw [hcs] at hscopes
  obtain ⟨k, hk, rfl⟩ := Array.mem_iff_getElem.1 hl
  exact hscopes.2.2.2.1 k _ hk (Array.getElem?_eq_getElem hk)

def GenState.declare (s : GenState) (name : Bytes) : GenState :=
  s.withLocals (s.fn.declared.push s.fn.locals.size) (s.fn.locals.push ⟨name, 0, 0⟩) s.fn.active

theorem Func.record?_declare (h : s.Ok H) (name : Bytes) (r : Nat) :
    (s.declare name).fn.record? r =
      if r = s.fn.declared.size then some ⟨name, 0, 0⟩ else s.fn.record? r := by
  simp only [Func.record?, GenState.declare, GenState.withLocals, Array.getElem?_push]
  split
  · simp
  · cases hd : s.fn.declared[r]? with
    | none => rfl
    | some k =>
      have := h.fn.declared k (Array.mem_of_getElem? hd)
      rw [Option.bind_some, Option.bind_some, if_neg (by omega)]

theorem Gen.newLocal_spec {name : Bytes} (h : Flow s H ws) (hs : s.fn.scopes ≠ []) :
    (newLocal name).Ensures s fun _ t => Flow t H ws ∧ t = s.declare name := by
  have hactive := h.ok.fn.active
  have hvar : ∀ r : Nat, (r : Int) < s.fn.active →
      (s.declare name).fn.record? r = s.fn.record? r := fun r hr => by
    rw [Func.record?_declare h.ok, if_neg (by omega)]
  have hok : (s.declare name).Ok (Held H (places ws)) := by
    refine h.ok.withLocals ⟨hactive.1, ?_⟩ h.ok.fn.scopes ?_ fun k hk => ?_
    · rw [Array.size_push]
      omega
    · exact h.ok.fn.loops.congr h.ok.fn.scopes fun r v hr hv => ⟨v, hvar r hr ▸ hv, rfl⟩
    · rw [Array.size_push]
      rcases Array.mem_push.1 hk with hk | rfl
      · have := h.ok.fn.declared k hk
        omega
      · omega
  unfold newLocal
  rw [ensures_bind, ensures_getFn, ensures_bind, ensures_limit]
  intro _
  refine ⟨h.withLocals hok (h.lives.declare hactive.2 h.ok.fn.declared name) ?_ ?_ le_rfl, rfl⟩
  · exact fun r v hr hv => .inr ⟨hr, v, hvar r hr ▸ hv, rfl⟩
  · exact fun l hl r hr => hvar r (hr.trans_le (h.active_of_mem_labels hs hl))

theorem Gen.ensures_updateLocal {k : Nat} {f : LocalVar → LocalVar} {Q : Unit → GenState → Prop}
    (hreg : 0 ≤ reg) (hk : s.fn.declared[reg.toNat]? = some k) : (updateLocal reg f).Ensures s Q ↔
      Q () (s.withLocals s.fn.declared (s.fn.locals.modify k f) s.fn.active) := by
  have hlt := lt_size_of_some hk
  unfold updateLocal
  rw [ensures_bind, ensures_getFn, ensures_bind, ensures_place (by omega), ensures_modifyFn, hk]
  rfl

theorem Gen.startLocals_spec {pc : Int} {n : Nat}
    (hnd : s.fn.declared.toList.Nodup)
    (hreg : 0 ≤ reg ∧ reg + n ≤ s.fn.declared.size) :
    (startLocals pc n reg).Ensures s fun _ t => ∃ locals, locals.size = s.fn.locals.size ∧
      Updates s.fn.declared reg (reg + n) (fun v => { v with startPC := pc }) s.fn.locals locals ∧
      t = s.withLocals s.fn.declared locals s.fn.active := by
  induction n generalizing s reg with
  | zero => exact ⟨s.fn.locals, rfl, .refl _ (by omega) _ _, rfl⟩
  | succ n ih =>
    have hk : s.fn.declared[reg.toNat]? = some s.fn.declared[reg.toNat] :=
      Array.getElem?_eq_getElem (by omega)
    unfold startLocals
    rw [ensures_bind, ensures_updateLocal hreg.1 hk]
    refine Ensures.mono (ih hnd ?_) ?_
    · simp only [GenState.withLocals]
      omega
    · rintro - _ ⟨locals', hsize', hup, rfl⟩
      refine ⟨locals', hsize'.trans Array.size_modify, .modify hnd hk hup (fun x => ?_) ?_, rfl⟩
      all_goals omega

theorem Updates.name {u : LocalVar → LocalVar}
    (h : Updates s.fn.declared lo hi u s.fn.locals locals) (hu : ∀ v, (u v).name = v.name) {r : Nat}
    {v : LocalVar} (hv : (s.withLocals s.fn.declared locals active).fn.record? r = some v) :
    ∃ v0, s.fn.record? r = some v0 ∧ v0.name = v.name := by
  obtain ⟨k, hk, hv⟩ := Func.record?_eq_some.1 hv
  have hv : locals[k]? = some v := hv
  by_cases hnew : ∃ r' : Nat, lo ≤ r' ∧ (r' : Int) < hi ∧ s.fn.declared[r']? = some k
  · obtain ⟨r', h1, h2, hd⟩ := hnew
    rw [h.new r' k h1 h2 hd] at hv
    obtain ⟨v0, hv0, rfl⟩ := Option.map_eq_some_iff.1 hv
    exact ⟨v0, Func.record?_eq_some.2 ⟨k, hk, hv0⟩, (hu v0).symm⟩
  · rw [h.old k fun r' h1 h2 hd => hnew ⟨r', h1, h2, hd⟩] at hv
    exact ⟨v, Func.record?_eq_some.2 ⟨k, hk, hv⟩, rfl⟩

theorem Updates.record?_eq {u : LocalVar → LocalVar} (hnd : s.fn.declared.toList.Nodup)
    (h : Updates s.fn.declared lo hi u s.fn.locals locals) {r : Nat} (hr : (r : Int) < lo ∨ hi ≤ r) :
    (s.withLocals s.fn.declared locals active).fn.record? r = s.fn.record? r := by
  simp only [Func.record?, GenState.withLocals]
  cases hk : s.fn.declared[r]? with
  | none => rfl
  | some k =>
    rw [Option.bind_some, Option.bind_some, h.old k fun r' h1 h2 hd => ?_]
    have := register_inj hnd hk hd
    omega

theorem Updates.starts {X : Set (Nat × Nat)} (hl : s.fn.Lives H X)
    (h : Updates s.fn.declared lo hi (fun v => { v with startPC := s.fn.code.size }) s.fn.locals locals)
    (hold : ∀ r : Nat, (r : Int) < active → (r : Int) < lo ∨ hi ≤ r → (r : Int) < s.fn.active) :
    Starts s.fn (s.withLocals s.fn.declared locals active).fn := by
  intro r v hr hv
  obtain ⟨k, hk, hv'⟩ := Func.record?_eq_some.1 hv
  rcases h.record? hl hk hv' with ⟨hout, hv0⟩ | ⟨-, -, v0, -, rfl⟩
  · exact .inr ⟨hold r hr hout, v, hv0, rfl⟩
  · exact .inl le_rfl

theorem LoopsOk.raise {vars vars' : Nat → Option LocalVar} {labels : Array Label} {top top' : Int}
    {n k : Nat} (h : LoopsOk vars top (c :: cs)) (hs : ScopesOk labels top n k (c :: cs))
    (hold : ∀ (r : Nat) (v : LocalVar), vars' r = some v → ∃ v0, vars r = some v0 ∧ v0.name = v.name)
    (hnew : c.isLoop → ∀ (r : Nat) (v : LocalVar), top ≤ r → (r : Int) < top' → vars r = some v →
      IsHidden v.name) : LoopsOk vars' top' (c :: cs) := by
  refine ⟨fun hloop => ⟨(h.1 hloop).1, fun r v hr hr' hv => ?_⟩, h.2.congr hs.2.2.2.2 fun r v _ hv => hold r v hv⟩
  obtain ⟨v0, hv0, heq⟩ := hold r v hv
  rw [← heq]
  rcases lt_or_ge (r : Int) top with hlt | hge
  · exact (h.1 hloop).2 r v0 hr hlt hv0
  · exact hnew hloop r v0 hge hr' hv0

theorem Gen.activate_locals {n : Int} (hnd : s.fn.declared.toList.Nodup) (hn : 0 ≤ n)
    (hactive : 0 ≤ s.fn.active) (hle : s.fn.active + n ≤ s.fn.declared.size) :
    (activate n).Ensures s fun _ t => ∃ locals, locals.size = s.fn.locals.size ∧
      Updates s.fn.declared s.fn.active (s.fn.active + n) (fun v => { v with startPC := s.fn.code.size })
        s.fn.locals locals ∧
      t = s.withLocals s.fn.declared locals (s.fn.active + n) := by
  have hraise : s.fn.active + (n.toNat : Int) = s.fn.active + n := by omega
  unfold activate
  refine Ensures.mono (startLocals_spec hnd ?_) ?_
  · show 0 ≤ s.fn.active ∧ s.fn.active + n.toNat ≤ s.fn.declared.size
    omega
  · rintro - _ ⟨locals, hsize, hup, rfl⟩
    refine ⟨locals, hsize, ?_, rfl⟩
    rw [← hraise]
    exact hup

theorem Flow.activate {n : Int} (h : Flow s H ws)
    (hcs : s.fn.scopes = c :: cs) (hn : 0 ≤ n) (hle : s.fn.active + n ≤ s.fn.declared.size)
    (hhidden : c.isLoop → ∀ (r : Nat) (v : LocalVar), s.fn.active ≤ r → (r : Int) < s.fn.active + n →
      s.fn.record? r = some v → IsHidden v.name)
    (hsize : locals.size = s.fn.locals.size)
    (hup : Updates s.fn.declared s.fn.active (s.fn.active + n)
      (fun v => { v with startPC := s.fn.code.size }) s.fn.locals locals) :
    Flow (s.withLocals s.fn.declared locals (s.fn.active + n)) H ws := by
  have hactive := h.ok.fn.active
  have hscopes := h.ok.fn.scopes
  have hloops := h.ok.fn.loops
  rw [hcs] at hscopes hloops
  have hnew : 0 ≤ s.fn.active + n := by omega
  have hraise : s.fn.active ≤ s.fn.active + n := by omega
  have hok : (s.withLocals s.fn.declared locals (s.fn.active + n)).Ok (Held H (places ws)) := by
    refine h.ok.withLocals ⟨hnew, hle⟩ ?_ ?_ fun k hk => ?_
    · rw [hcs]
      exact hscopes.raise (by omega)
    · rw [hcs]
      exact hloops.raise hscopes (fun r v hv => hup.name (fun _ => rfl) hv) hhidden
    · rw [hsize]
      exact h.ok.fn.declared k hk
  refine h.withLocals hok (h.lives.activate hn hup) (hup.starts h.lives fun r hr hout => ?_) ?_ hraise
  · omega
  · intro l hl r hr
    have := h.active_of_mem_labels (by simp [hcs]) hl
    exact hup.record?_eq h.lives.nodup (by omega)

theorem Gen.activate_spec {n : Int} (h : Flow s H ws)
    (hcs : s.fn.scopes = c :: cs) (hn : 0 ≤ n) (hle : s.fn.active + n ≤ s.fn.declared.size)
    (hhidden : c.isLoop → ∀ (r : Nat) (v : LocalVar), s.fn.active ≤ r → (r : Int) < s.fn.active + n →
      s.fn.record? r = some v → IsHidden v.name) :
    (activate n).Ensures s fun _ t => Flow t H ws ∧ ∃ locals, locals.size = s.fn.locals.size ∧
      Updates s.fn.declared s.fn.active (s.fn.active + n) (fun v => { v with startPC := s.fn.code.size })
        s.fn.locals locals ∧
      t = s.withLocals s.fn.declared locals (s.fn.active + n) := by
  refine (activate_locals h.lives.nodup hn h.ok.fn.active.1 hle).mono ?_
  rintro - t ⟨locals, hsize, hup, rfl⟩
  exact ⟨h.activate hcs hn hle hhidden hsize hup, locals, hsize, hup, rfl⟩

theorem Gen.restart_spec {r k : Nat} (h : Flow s H ws) (hr : (r : Int) + 1 = s.fn.active)
    (hk : s.fn.declared[r]? = some k) (hlast : k + 1 = s.fn.locals.size)
    (hlabels : ∀ l ∈ s.fn.labels, l.active ≤ r) :
    (updateLocal r fun v => { v with startPC := s.fn.code.size }).Ensures s fun _ t =>
      Flow t H ws ∧ Keeps H s t ∧ (∀ r' : Nat, r' < r → t.fn.record? r' = s.fn.record? r') ∧
        ∃ locals, t = s.withLocals s.fn.declared locals s.fn.active := by
  rw [ensures_updateLocal (by omega) hk]
  set u : LocalVar → LocalVar := fun v => { v with startPC := s.fn.code.size }
  have hnd := h.lives.nodup
  have hup : Updates s.fn.declared r (r + 1) u s.fn.locals (s.fn.locals.modify k u) :=
    .modify hnd hk (.refl _ (le_refl 0) u _) (fun x => by omega) (by omega)
  have hok : (s.withLocals s.fn.declared (s.fn.locals.modify k u) s.fn.active).Ok
      (Held H (places ws)) := by
    refine h.ok.withLocals h.ok.fn.active h.ok.fn.scopes ?_ fun k hk => ?_
    · exact h.ok.fn.loops.congr h.ok.fn.scopes fun r v _ hv => hup.name (fun _ => rfl) hv
    · rw [Array.size_modify]
      exact h.ok.fn.declared k hk
  have hstarts : Starts s.fn (s.withLocals s.fn.declared (s.fn.locals.modify k u) s.fn.active).fn :=
    hup.starts h.lives fun _ hr' _ => hr'
  refine ⟨h.withLocals hok (h.lives.restart hr hk hlast hup) hstarts ?_ le_rfl, Keeps.withLocals H hstarts,
    fun r' hr' => hup.record?_eq hnd (by omega), _, rfl⟩
  intro l hl r' hr'
  have := hlabels l hl
  exact hup.record?_eq hnd (by omega)

theorem Gen.endLocals_spec {pc : Int} {n : Nat}
    (hnd : s.fn.declared.toList.Nodup)
    (hn : n ≤ s.fn.active) (hle : s.fn.active ≤ s.fn.declared.size) :
    (endLocals pc n).Ensures s fun _ t => ∃ locals, locals.size = s.fn.locals.size ∧
      Updates s.fn.declared (s.fn.active - n) s.fn.active (fun v => { v with endPC := pc })
        s.fn.locals locals ∧
      t = s.withLocals s.fn.declared locals (s.fn.active - n) := by
  induction n generalizing s with
  | zero => exact ⟨s.fn.locals, rfl, .refl _ (by omega) _ _, by simp [GenState.withLocals]⟩
  | succ n ih =>
    have hk : s.fn.declared[(s.fn.active - 1).toNat]? = some s.fn.declared[(s.fn.active - 1).toNat] :=
      Array.getElem?_eq_getElem (by omega)
    unfold endLocals
    rw [ensures_bind, ensures_modifyFn, ensures_bind, ensures_getFn, ensures_bind,
      ensures_updateLocal (s := { s with fn := { s.fn with active := s.fn.active - 1 } })
        (by show 0 ≤ s.fn.active - 1; omega) hk]
    refine Ensures.mono (ih hnd ?_ ?_) ?_
    · show (n : Int) ≤ s.fn.active - 1
      omega
    · show s.fn.active - 1 ≤ s.fn.declared.size
      omega
    · rintro - _ ⟨locals', hsize', hup, rfl⟩
      refine ⟨locals', hsize'.trans Array.size_modify, .modify hnd hk hup (fun x => ?_) ?_, ?_⟩
      · simp only [GenState.withLocals]
        omega
      · simp only [GenState.withLocals]
        omega
      · simp only [GenState.withLocals, GenState.mk.injEq, Func.mk.injEq, true_and, and_true]
        omega

theorem Gen.deactivate_spec {level : Int}
    (hnd : s.fn.declared.toList.Nodup)
    (hlevel : 0 ≤ level ∧ level ≤ s.fn.active) (hle : s.fn.active ≤ s.fn.declared.size) :
    (deactivate level).Ensures s fun _ t => ∃ locals, locals.size = s.fn.locals.size ∧
      Updates s.fn.declared level s.fn.active (fun v => { v with endPC := s.fn.code.size })
        s.fn.locals locals ∧
      t = s.withLocals (s.fn.declared.take level.toNat) locals level := by
  have heq : s.fn.active - ((s.fn.active - level).toNat : Int) = level := by omega
  unfold deactivate
  rw [ensures_bind, ensures_pc, ensures_bind, ensures_getFn]
  refine .bind (endLocals_spec hnd (by omega) hle) ?_
  rintro - _ ⟨locals, hsize, hup, rfl⟩
  rw [heq] at hup ⊢
  exact ⟨locals, hsize, hup, rfl⟩

end Locals

/-! ## Blocks -/

def GenState.entered (s : GenState) (isLoop : Bool) : GenState :=
  { s with fn := { s.fn with
    scopes := ⟨s.fn.labels.size, s.fn.gotos.size, s.fn.active, false, isLoop⟩ :: s.fn.scopes } }

/-- The state after the block `c` inside the blocks `rest` is closed, before its pending jumps are
looked at. -/
def GenState.left (s : GenState) (c : Scope) (rest : List Scope) (locals : Array LocalVar) : GenState :=
  { s with fn := { s.fn with
    scopes := rest
    declared := s.fn.declared.take c.active.toNat
    locals := locals
    active := c.active
    free := c.active
    labels := s.fn.labels.take c.firstLabel } }

section Scopes
variable {s t : GenState} {H : Set Nat} {ws : List (Pending × List Nat)} {isLoop : Bool}
  {c : Scope} {rest : List Scope} {locals : Array LocalVar} {u : LocalVar → LocalVar}

theorem Gen.ensures_enterScope {Q : Unit → GenState → Prop} (h : s.fn.free = s.fn.active) :
    (enterScope isLoop).Ensures s Q ↔ Q () (s.entered isLoop) := by
  unfold enterScope
  rw [ensures_bind, ensures_getFn, ensures_bind, ensures_getFn, ensures_bind, ensures_require (by simp [h])]
  exact Iff.rfl

theorem GenState.Ok.entered (h : s.Ok H) (hg : s.fn.scopes = [] → s.fn.gotos.size = 0)
    (isLoop : Bool) : (s.entered isLoop).Ok H := by
  have hscopes := h.fn.scopes
  refine ⟨⟨{ h.fn with scopes := ⟨le_rfl, by simp, le_rfl, ?_, ?_⟩, loops := ⟨fun _ => ⟨rfl, ?_⟩, ?_⟩ },
    h.inner, h.outer, h.env.congr rfl⟩, h.ends, h.held⟩
  · intro k l hk hl
    cases hcs : s.fn.scopes with
    | nil =>
      rw [hcs] at hscopes
      exact absurd (hscopes.2.1 ▸ hk) k.not_lt_zero
    | cons c cs =>
      rw [hcs] at hscopes
      exact hscopes.2.2.2.1 k l hk hl
  · cases hcs : s.fn.scopes with
    | nil =>
      rw [hcs] at hscopes
      exact ⟨hscopes.1, hscopes.2.1, hg hcs⟩
    | cons c cs =>
      rw [hcs] at hscopes
      exact hscopes
  · intro r v hr hr'
    simp only [GenState.entered] at hr hr'
    omega
  · exact h.fn.loops

theorem Keeps.entered (H : Set Nat) (s : GenState) (isLoop : Bool) : Keeps H s (s.entered isLoop) :=
  ⟨{ Grows.refl s with }, fun _ _ _ hi _ => hi⟩

theorem capturedAt_entered (h : s.fn.scopes ≠ []) {r : Nat}
    (hr : (r : Int) < s.fn.active) (hm : CapturedAt r s.fn.scopes) : CapturedAt r (s.entered isLoop).fn.scopes := by
  obtain ⟨c, cs, hcs⟩ := List.exists_cons_of_ne_nil h
  simp only [GenState.entered, hcs, CapturedAt] at hm ⊢
  rwa [if_pos hr]

theorem Flow.entered (h : Flow s H ws) (hs : s.fn.scopes ≠ []) (isLoop : Bool) : Flow (s.entered isLoop) H ws := by
  have hlives : (s.entered isLoop).fn.Lives (Held H (places ws)) ∅ :=
    { h.lives with
      marked := fun q r v hc hr hv hq => capturedAt_entered hs hr (h.lives.marked q r v hc hr hv hq)
      recent := fun q r hq hc => by
        obtain ⟨hr, hm⟩ := h.lives.recent q r hq hc
        exact ⟨hr, capturedAt_entered hs hr hm⟩
      ranges := { h.lives.ranges with } }
  refine ⟨⟨h.toWaiting.frame (fun _ _ hp => hp) (.entered ..)
    (h.ok.entered (fun hn => absurd hn hs) isLoop) hlives fun l hl => ⟨hl, fun _ _ => rfl⟩, h.gotos,
    le_rfl, ?_, h.outside⟩, h.within⟩
  exact fun g p _ hp => h.within p (Array.mem_of_getElem? hp)

theorem ScopesOk.take {labels : Array Label} {top : Int} {n m g : Nat} {cs : List Scope}
    (h : ScopesOk labels top n g cs) (hn : n ≤ m) : ScopesOk (labels.take m) top n g cs := by
  induction cs generalizing top n g with
  | nil => exact h
  | cons c rest ih =>
    refine ⟨h.1, h.2.1, h.2.2.1, fun k l hk hl => h.2.2.2.1 k l hk ?_, ih h.2.2.2.2 ?_⟩
    · rw [Array.take_eq_extract, Array.getElem?_extract] at hl
      split at hl
      · rwa [Nat.zero_add] at hl
      · simp at hl
    · exact h.2.2.1.trans hn

theorem GenState.record?_left {hi : Int} (hnd : s.fn.declared.toList.Nodup)
    (hl : Updates s.fn.declared c.active hi u s.fn.locals locals) {r : Nat} (hr : (r : Int) < c.active) :
    (s.left c rest locals).fn.record? r = s.fn.record? r := by
  have hget : (s.fn.declared.take c.active.toNat)[r]? = s.fn.declared[r]? := by
    rw [Array.take_eq_extract, Array.getElem?_extract, Nat.zero_add]
    split
    · rfl
    · rw [Array.getElem?_eq_none (by omega)]
  have : (s.withLocals s.fn.declared locals 0).fn.record? r = s.fn.record? r :=
    hl.record?_eq hnd (.inl hr)
  simpa only [Func.record?, GenState.left, GenState.withLocals, hget] using this

theorem GenState.Ok.left (h : s.Ok H) (hcs : s.fn.scopes = c :: rest) (hfree : s.fn.active ≤ s.fn.free)
    (hsize : locals.size = s.fn.locals.size) (hnd : s.fn.declared.toList.Nodup)
    (hl : Updates s.fn.declared c.active s.fn.active u s.fn.locals locals) : (s.left c rest locals).Ok H := by
  have hscopes := h.fn.scopes
  have hloops := h.fn.loops
  rw [hcs] at hscopes hloops
  have hc0 := hscopes.2.2.2.2.top_nonneg
  have hc1 := hscopes.1
  have hdecl := h.fn.active.2
  have hstack := h.fn.free.2
  refine ⟨⟨{ h.fn with
    active := ⟨hc0, ?_⟩
    scopes := ?_
    loops := hloops.2.congr hscopes.2.2.2.2 fun r v hr hv =>
      ⟨v, by rwa [GenState.record?_left hnd hl hr] at hv, rfl⟩
    free := ⟨hc0, by simp only [GenState.left]; omega⟩
    declared := fun k hk => ?_ }, h.inner, h.outer, h.env.congr rfl⟩, h.ends, h.held⟩
  · simp only [GenState.left, Array.take_eq_extract, Array.size_extract]
    omega
  · have hlabels : (s.fn.labels.take c.firstLabel).size = c.firstLabel := by
      have := hscopes.2.2.1
      simp only [Array.take_eq_extract, Array.size_extract]
      omega
    have hrest := hscopes.2.2.2.2.take (le_refl c.firstLabel)
    show ScopesOk (s.fn.labels.take c.firstLabel) c.active (s.fn.labels.take c.firstLabel).size 0 rest
    rw [hlabels]
    cases rest with
    | nil => exact ⟨hrest.1, hrest.2.1, rfl⟩
    | cons => exact hrest
  · have : k ∈ s.fn.declared := by
      obtain ⟨j, -, rfl⟩ := Array.mem_extract_iff_getElem.1 hk
      exact Array.getElem_mem _
    have := h.fn.declared k this
    simp only [GenState.left]
    omega

theorem Keeps.left (H : Set Nat) (hnd : s.fn.declared.toList.Nodup) (hc : c.active ≤ s.fn.active)
    (hl : Updates s.fn.declared c.active s.fn.active u s.fn.locals locals) : Keeps H s (s.left c rest locals) := by
  refine ⟨{ Grows.refl s with starts := fun r v hr hv => ?_ }, fun _ _ _ hi _ => hi⟩
  have hr : (r : Int) < c.active := hr
  exact .inr ⟨by omega, v, by rwa [GenState.record?_left hnd hl hr] at hv, rfl⟩

/-! ## Leaving a block -/

/-- The pending jumps in `ws` that leave the block `c` need not close its variables yet. -/
def Exempt (c : Scope) (ws : List (Pending × List Nat)) : Set (Nat × Nat) :=
  {x | c.isCaptured ∧ c.active ≤ x.2 ∧ ∃ w ∈ ws, x.1 ∈ w.2 ∧ (x.2 : Int) < w.1.active}

@[simp] theorem exempt_nil (c : Scope) : Exempt c [] = ∅ := by
  simp [Exempt]

theorem Flow.left (h : Flow s H ws) (hcs : s.fn.scopes = c :: rest)
    (hrest : rest ≠ []) (hfree : s.fn.active ≤ s.fn.free)
    (hdecl : (s.fn.declared.size : Int) ≤ s.fn.active) (hsize : locals.size = s.fn.locals.size)
    (hl : Updates s.fn.declared c.active s.fn.active (fun v => { v with endPC := s.fn.code.size })
      s.fn.locals locals)
    (hclosure : c.isCaptured → ∀ (q r : Nat), s.fn.code.size = q + 1 → ¬ s.fn.Captures q r)
    (hclose : c.isCaptured → ∀ (r : Nat) (v : LocalVar), c.active ≤ r → (r : Int) < s.fn.active →
      s.fn.record? r = some v → Enclosed s.fn.code (Held H (places ws))
        (Exempt c (ws.drop c.firstGoto)) v.startPC s.fn.code.size r) :
    Flowing (Exempt c (ws.drop c.firstGoto)) (s.left c rest locals) H ws := by
  have hscopes := h.ok.fn.scopes
  have hout := h.outside
  rw [hcs] at hscopes hout
  have hnd := h.lives.nodup
  have hlives : (s.left c rest locals).fn.Lives (Held H (places ws))
      (Exempt c (ws.drop c.firstGoto)) := by
    refine h.lives.finish ⟨hscopes.2.2.2.2.top_nonneg, hscopes.1, rfl, rfl, rfl, rfl, hl⟩ hdecl hcs
      hrest rfl (fun q r hq hc hm => ?_) hclose
    rw [hcs] at hm
    by_contra hge
    simp only [CapturedAt, if_neg (show ¬ c.active > r by omega)] at hm
    exact hclosure hm q r hq hc
  refine ⟨h.toWaiting.frame (fun _ _ hp => hp) (.left _ hnd hscopes.1 hl)
    (h.ok.left hcs hfree hsize hnd hl) hlives fun l hl' => ?_, h.gotos, ?_⟩
  · obtain ⟨j, hj, rfl⟩ := Array.mem_extract_iff_getElem.1 hl'
    refine ⟨Array.getElem_mem _, fun r hr => GenState.record?_left hnd hl ?_⟩
    -- The labels that are left see no variable of the block.
    obtain ⟨d, ds, rfl⟩ := List.exists_cons_of_ne_nil hrest
    have := hscopes.2.2.2.2.2.2.2.1 (0 + j) _ (by omega) (Array.getElem?_eq_getElem (by omega))
    omega
  · obtain ⟨d, ds, rfl⟩ := List.exists_cons_of_ne_nil hrest
    exact hout.2.2.change (hout.2.2.1.trans hout.1) fun _ _ => rfl

theorem Flow.pushJump {i : Instr} (h : Flow s H ws) (hfit : i.Fits s.fn.bounds) (hj : i.isJump)
    (hsbx : i.sbx = noJump) : Flow (s.push i) (Held H [s.fn.code.size]) ws ∧
      Chain (s.push i).fn.code (.ofHead s.fn.code.size) [s.fn.code.size] ∧ s.fn.code.size ∉ H ∧
      Retargets H s (s.push i) := by
  have hev : Evolves s (s.push i) := by
    refine .push s i h.ok.fn.target.2 (fun _ => ?_) fun hop => ?_
    · simp only [Instr.target, hsbx, noJump]
      omega
    · rcases isJump_cases hj with hop' | hop' | hop' | hop' <;> simp [hop'] at hop
  have hlt : ∀ q ∈ Held H (places ws), q < s.fn.code.size := h.ok.held
  have hget : (s.push i).fn.code[s.fn.code.size]? = some i := by simp [GenState.push]
  refine ⟨h.evolves hev ?_ (fun q hq => .inl hq) ?_, .single hget hj hsbx,
    fun hn => lt_irrefl _ (hlt _ (.inl hn)), { Retargets.refl H s with toKeeps := hev.keeps H }⟩
  · have hok := h.ok.pushJump hfit hj
    rw [held_held] at hok ⊢
    rwa [held_congr fun q => List.perm_append_comm.mem_iff]
  · rintro q (hq | hq) hlt'
    · exact hq
    · rw [List.mem_singleton.1 hq] at hlt'
      omega

theorem Gen.jump_flow (h : Flow s H ws) :
    jump.Ensures s fun l t => t = s.push openJump ∧ Flow t (Held H [s.fn.code.size]) ws ∧
      Chain t.fn.code l [s.fn.code.size] ∧ s.fn.code.size ∉ H ∧ Retargets H s t := by
  rw [ensures_jump h.ok.fn.isOpen]
  refine ⟨rfl, h.pushJump ?_ openJump_isJump openJump_sbx⟩
  have := h.ok.fn.stack.1
  simp only [Instr.Fits, openJump_op, openJump_a, Func.bounds]
  omega

theorem Gen.closeVariables_spec {level : Int} (h : Flow s H ws) (hlevel : 0 ≤ level ∧ level + 1 ≤ s.fn.stack) :
    (closeVariables level).Ensures s fun _ t => Flow t H ws ∧ Retargets H s t ∧ t.fn.code.size = s.fn.code.size + 1 ∧
      (∀ p, p < s.fn.code.size → t.fn.code[p]? = s.fn.code[p]?) ∧
      ∃ i, t.fn.code[s.fn.code.size]? = some i ∧ i.op? = some .jmp ∧ (i.a : Int) = level + 1 := by
  refine .bind (jump_flow h) ?_
  rintro j _ ⟨rfl, hf, hc, hn, hr⟩
  have hn' : ∀ q ∈ [s.fn.code.size], q ∉ H := by simpa using hn
  have hget : (s.push openJump).fn.code[s.fn.code.size]? = some openJump := by simp [GenState.push]
  refine .bind (hf.toWaiting.closing hn' hc (fun q hq => ?_) hlevel) ?_
  · obtain rfl := List.mem_singleton.1 hq
    exact ⟨openJump, hget, openJump_op, .inl openJump_a⟩
  · rintro - _ ⟨code, rfl, hcl, hw, hc', hr', hj⟩
    refine (aimHere_waiting hw hn' hc' fun q hq => ?_).mono ?_
    · obtain ⟨i, hi, hop, -⟩ := hj q hq
      exact ⟨i, hi, hop⟩
    · rintro - t ⟨hw', hr'', hg, hpat⟩
      have hsize : code.size = s.fn.code.size + 1 := by
        rw [hcl.size]
        simp [GenState.push]
      have hstart : ∀ p, p < s.fn.code.size → code[p]? = s.fn.code[p]? := fun p hp => by
        rw [hcl.other p (by simp; omega)]
        simp only [GenState.push, Array.getElem?_push]
        rw [if_neg (by omega)]
      have hstores : storesAt code s.fn.code.size = false :=
        storesAt_of_sealed h.ok.ends (.of_eq hstart)
      refine ⟨⟨⟨hw', by rw [hg]; exact h.gotos, ?_⟩, ?_⟩, hr.trans (hr'.trans hr''), ?_, ?_, ?_⟩
      · rw [hg, hr''.scopes]
        exact h.outside
      · rw [hg, hr''.active]
        exact h.within
      · rw [hpat.size]
        exact hsize
      · intro p hp
        rw [hpat.kept (n := s.fn.code.size) (by simp) hstores p hp]
        exact hstart p hp
      · obtain ⟨i, hi, hop, ha⟩ := hj s.fn.code.size (by simp)
        obtain ⟨v, -, -, -, hi'⟩ := hpat.jump _ (by simp) i hi
        exact ⟨_, hi', by simpa using hop, by simpa using ha⟩

/-- Once a jump at its end closes the variables of a block, control leaves their ranges by jumps that
close them, but for those that are pending. The jumps at `H` are before the block or close them. -/
theorem Flow.enclosed (h : Flow s H ws) (hcs : s.fn.scopes = c :: rest)
    (hH : ∀ p ∈ H, ∀ (i : Instr) (r : Nat) (v : LocalVar), s.fn.code[p]? = some i → c.active ≤ r →
      (r : Int) < s.fn.active → s.fn.record? r = some v → v.startPC ≤ p → i.Closes r)
    (hsize : t.fn.code.size = s.fn.code.size + 1)
    (hsame : ∀ p, p < s.fn.code.size → t.fn.code[p]? = s.fn.code[p]?) {j : Instr}
    (hj : t.fn.code[s.fn.code.size]? = some j) (hop : j.op? = some .jmp)
    (ha : (j.a : Int) = c.active + 1) (hc0 : 0 ≤ c.active) {r : Nat} {v : LocalVar}
    (hcap : c.isCaptured) (hcr : c.active ≤ r) (hr : (r : Int) < s.fn.active) (hv : s.fn.record? r = some v) :
    Enclosed t.fn.code (Held H (places ws)) (Exempt c (ws.drop c.firstGoto)) v.startPC t.fn.code.size r := by
  have hcl : j.Closes r := ⟨hop, by omega, by omega⟩
  refine ⟨fun p i hp hp' hi hjmp => ?_, fun p i hp hp' hi => ?_, fun p i hp hp' hi => ?_⟩
  · rcases Nat.lt_or_ge p s.fn.code.size with hlt | hge
    · rw [hsame p hlt] at hi
      by_cases hpH : p ∈ H
      · exact .inl (hH p hpH i r v hi hcr hr hv hp)
      by_cases hpw : p ∈ places ws
      · obtain ⟨w, hw, hpw⟩ := List.mem_flatMap.1 hpw
        have hin := (h.waits w hw).inside p hpw r v hr hv hp
        obtain ⟨k, hk⟩ := List.mem_iff_getElem?.1 hw
        have hge : c.firstGoto ≤ k := by
          by_contra hlt
          have hout := h.outside
          rw [hcs] at hout
          have := hout.2.1 k w.1 (by omega) (by
            rw [← Array.getElem?_toList, h.gotos, List.getElem?_map, hk]
            rfl)
          omega
        refine .inr (.inl ⟨hcap, hcr, w, ?_, hpw, hin⟩)
        refine List.mem_iff_getElem?.2 ⟨k - c.firstGoto, ?_⟩
        rw [List.getElem?_drop, show c.firstGoto + (k - c.firstGoto) = k by omega, hk]
      · have hopen : p ∉ Held H (places ws) := fun hp => hp.elim hpH hpw
        have ht := h.ok.fn.code.aimed hi hjmp hopen
        have := ht.2.1.trans h.ok.fn.target.2
        rcases h.lives.aimed r v hr hv p i hp hi hjmp hopen with hle | hcl'
        · exact .inr (.inr ⟨hopen, hle, by omega⟩)
        · exact .inl hcl'
    · obtain rfl : p = s.fn.code.size := by omega
      exact .inl (Option.some.inj (hi.symm.trans hj) ▸ hcl)
  · obtain rfl : p = s.fn.code.size := by omega
    exact Option.some.inj (hi.symm.trans hj) ▸ hcl
  · rw [hsame p (by omega)] at hi
    refine h.ok.ends i ?_
    rw [Array.back?_eq_getElem?, show s.fn.code.size - 1 = p by omega, hi]

theorem Waiting.lower {X : Set (Nat × Nat)} {g : Nat} {p : Pending} {ps : List Nat}
    (h : Waiting X s (Held H ps) (ws.eraseIdx g)) (hw : ws[g]? = some (p, ps))
    (hg : s.fn.gotos.toList = ws.map Prod.fst) (hps : ∀ q ∈ ps, q ∉ H) {d : Scope} {ds : List Scope}
    (hds : s.fn.scopes = d :: ds) (hout : OutsideOk s.fn.gotos s.fn.gotos.size (d :: ds))
    (hfirst : d.firstGoto ≤ g) (hwaits : Waits s.fn { p with active := c.active } ps) :
    Flowing X (s.withGotos (s.fn.gotos.modify g fun p => { p with active := c.active })) H
      (ws.set g ({ p with active := c.active }, ps)) := by
  have hlt := (List.getElem?_eq_some_iff.1 hw).1
  have hset : (ws.set g ({ p with active := c.active }, ps))[g]? =
      some ({ p with active := c.active }, ps) := by
    rw [List.getElem?_set_self hlt]
  have hperm := perm_eraseIdx hset
  rw [List.eraseIdx_set_eq] at hperm
  refine ⟨((waiting_cons.2 ⟨hwaits, hps, h⟩).perm hperm.symm).withGotos _, ?_, ?_⟩
  · show (s.fn.gotos.modify g _).toList = _
    rw [Array.toList_modify, hg]
    apply List.ext_getElem?
    intro k
    rw [List.getElem?_modify, List.getElem?_map, List.getElem?_map, List.getElem?_set]
    by_cases hk : g = k
    · subst hk
      rw [hw, if_pos rfl, if_pos hlt]
      simp
    · simp [hk]
  · simp only [GenState.withGotos, hds]
    refine hout.change (by rw [Array.size_modify]; exact hout.1) fun k hk => ?_
    rw [Array.getElem?_modify, if_neg (by omega)]

/-- The pending jumps from place `g` on are taken out of the block `c`, which was just left. -/
theorem Gen.moveGotosFrom_spec {fuel g : Nat} {d : Scope} {ds : List Scope}
    (h : Flowing (Exempt c (ws.drop g)) s H ws) (hds : s.fn.scopes = d :: ds)
    (hfirst : d.firstGoto ≤ g) (hactive : s.fn.active = c.active) (hfuel : ws.length ≤ g + fuel)
    (hbelow : ∀ k, k < g → ∀ w, ws[k]? = some w → w.1.active ≤ c.active) :
    (moveGotosFrom c fuel g).Ensures s fun _ t => ∃ ws', Flow t H ws' ∧ Retargets H s t := by
  have hc : 0 ≤ c.active := hactive ▸ h.ok.fn.active.1
  -- Past the last pending jump nothing is exempt.
  have hdone : ∀ {t : GenState} {ws' : List (Pending × List Nat)} {g' : Nat},
      Flowing (Exempt c (ws'.drop g')) t H ws' → t.fn.active = c.active → ws'.length ≤ g' →
      (∀ k, k < g' → ∀ w, ws'[k]? = some w → w.1.active ≤ c.active) → Flow t H ws' := by
    intro t ws' g' hf ha hle hb
    rw [List.drop_eq_nil_of_le hle, exempt_nil] at hf
    refine ⟨hf, fun p hp => ?_⟩
    rw [← Array.mem_toList_iff, hf.gotos] at hp
    obtain ⟨w, hw, rfl⟩ := List.mem_map.1 hp
    obtain ⟨k, hk⟩ := List.mem_iff_getElem?.1 hw
    rw [ha]
    exact hb k ((List.getElem?_eq_some_iff.1 hk).1.trans_le hle) w hk
  induction fuel generalizing s g ws with
  | zero => exact ⟨ws, hdone h hactive (by omega) hbelow, .refl H s⟩
  | succ fuel ih =>
    unfold moveGotosFrom
    rw [ensures_bind, ensures_getFn]
    split
    · rename_i hnone
      have hle : ws.length ≤ g := by
        have := Array.getElem?_eq_none_iff.1 hnone
        rwa [← Array.length_toList, h.gotos, List.length_map] at this
      exact ⟨ws, hdone h hactive hle hbelow, .refl H s⟩
    · rename_i p hp
      extract_lets next
      have hnext : ∀ {t : GenState} {x : List (Pending × List Nat)} {w : Pending × List Nat},
          Flowing (Exempt c (x.drop (g + 1))) t H x → Retargets H s t → x.length = ws.length →
          (∀ k, k < g → x[k]? = ws[k]?) → x[g]? = some w → w.1.active ≤ c.active →
          (next ()).Ensures t fun _ u => ∃ ws', Flow u H ws' ∧ Retargets H s u := by
        intro t x w hf hr hlen hsame hw hwa
        have hds' : t.fn.scopes = d :: ds := hr.scopes.trans hds
        have hp' : t.fn.gotos[g]? = some w.1 := by
          rw [← Array.getElem?_toList, hf.gotos, List.getElem?_map, hw]
          rfl
        refine .bind (resolveEarly_spec hf hds' hp' hfirst) ?_
        rintro b u ⟨hb, hf', hr'⟩
        have ha' : u.fn.active = c.active := by rw [hr'.active, hr.active, hactive]
        cases b with
        | true =>
          have hlt := (List.getElem?_eq_some_iff.1 hw).1
          have hdrop : (x.eraseIdx g).drop g = x.drop (g + 1) := by
            rw [List.eraseIdx_eq_take_drop_succ, List.drop_left' (by simp; omega)]
          rw [← hdrop] at hf'
          refine (ih hf' (hr'.scopes.trans hds') hfirst ha' ?_ ?_).mono ?_
          · rw [List.length_eraseIdx, if_pos hlt]
            omega
          · intro k hk w' hw'
            rw [List.getElem?_eraseIdx_of_lt hk, hsame k hk] at hw'
            exact hbelow k hk w' hw'
          · rintro - v ⟨ws3, hf3, hr3⟩
            exact ⟨ws3, hf3, hr.trans (hr'.trans hr3)⟩
        | false =>
          refine (ih hf' (hr'.scopes.trans hds') (by omega) ha' (by omega) ?_).mono ?_
          · intro k hk w' hw'
            rcases Nat.lt_or_ge k g with hlt | hge
            · exact hbelow k hlt w' (hsame k hlt ▸ hw')
            · obtain rfl : k = g := by omega
              exact Option.some.inj (hw.symm.trans hw') ▸ hwa
          · rintro - v ⟨ws3, hf3, hr3⟩
            exact ⟨ws3, hf3, hr.trans (hr'.trans hr3)⟩
      clear_value next
      obtain ⟨ps, hw⟩ := h.get hp
      obtain ⟨hwaits, hps, hrest⟩ := waiting_cons.1 (h.toWaiting.perm (perm_eraseIdx hw))
      have hlt := (List.getElem?_eq_some_iff.1 hw).1
      have hpa := hwaits.active
      have hout := h.outside
      rw [hds] at hout
      have hdrop : ws.drop g = (p, ps) :: ws.drop (g + 1) := by
        rw [List.drop_eq_getElem_cons hlt, (List.getElem?_eq_some_iff.1 hw).2]
      split
      · -- The jump is lowered to the level of the block.
        have hset : (ws.set g ({ p with active := c.active }, ps)).drop (g + 1) = ws.drop (g + 1) :=
          List.drop_set_of_lt (by omega)
        have hkept : ∀ k, k < g → (ws.set g ({ p with active := c.active }, ps))[k]? = ws[k]? :=
          fun k hk => List.getElem?_set_ne (by omega)
        split
        · rw [ensures_bind]
          refine (hrest.closing hps hwaits.chain (fun q hq => ?_) (by omega)).mono ?_
          · obtain ⟨i, hi, hop, ha⟩ := hwaits.jumps q hq
            exact ⟨i, hi, hop, by omega⟩
          · rintro - _ ⟨code, rfl, -, hrest', hc', hr', hj'⟩
            have hrest'' : Waiting (Exempt c (ws.drop (g + 1))) (s.setCode code) (Held H ps)
                (ws.eraseIdx g) := hrest'.exempt fun q r i hx hi _ => by
              obtain ⟨hcap, hcr, w, hw', hq, hra⟩ := hx
              rw [hdrop] at hw'
              rcases List.mem_cons.1 hw' with rfl | hw'
              · obtain ⟨j, hj, hop, ha⟩ := hj' q hq
                cases hi.symm.trans hj
                exact .inl ⟨hop, by omega, by omega⟩
              · exact .inr ⟨hcap, hcr, w, hw', hq, hra⟩
            refine hnext (x := ws.set g ({ p with active := c.active }, ps)) ?_
              (hr'.trans (.withGotos ..)) (by simp) hkept (List.getElem?_set_self hlt) le_rfl
            rw [hset]
            refine hrest''.lower hw h.gotos hps hds hout hfirst ⟨hc', ⟨hc, ?_⟩, fun q hq => ?_, ?_⟩
            · show c.active ≤ s.fn.stack
              omega
            · obtain ⟨i, hi, hop, ha⟩ := hj' q hq
              exact ⟨i, hi, hop, .inr ha.ge⟩
            · exact fun q _ r v hr _ _ => hr.trans_eq hactive
        · rename_i hcap
          have hrest' : Waiting (Exempt c (ws.drop (g + 1))) s (Held H ps) (ws.eraseIdx g) :=
            hrest.exempt fun q r i hx _ _ => absurd hx.1 hcap
          refine hnext (x := ws.set g ({ p with active := c.active }, ps)) ?_ (.withGotos ..) (by simp)
            hkept (List.getElem?_set_self hlt) le_rfl
          rw [hset]
          refine hrest'.lower hw h.gotos hps hds hout hfirst ⟨hwaits.chain, ⟨hc, ?_⟩, fun q hq => ?_, ?_⟩
          · show c.active ≤ s.fn.stack
            omega
          · obtain ⟨i, hi, hop, ha⟩ := hwaits.jumps q hq
            exact ⟨i, hi, hop, by show i.a = 0 ∨ c.active + 1 ≤ _; omega⟩
          · exact fun q _ r v hr _ _ => hr.trans_eq hactive
      · rename_i hle
        refine hnext ?_ (.refl H s) rfl (fun _ _ => rfl) hw (by simpa using hle)
        refine { h with toWaiting := h.toWaiting.exempt fun q r i hx _ _ => .inr ?_ }
        obtain ⟨hcap, hcr, w, hw', hq, hra⟩ := hx
        rw [hdrop] at hw'
        rcases List.mem_cons.1 hw' with rfl | hw'
        · simp only at hcr hra
          omega
        · exact ⟨hcap, hcr, w, hw', hq, hra⟩

theorem Gen.endScope_spec (h : s.Ok H) (hcs : s.fn.scopes = c :: rest)
    (hnd : s.fn.declared.toList.Nodup) :
    (endScope c).Ensures s fun _ t => ∃ locals : Array LocalVar,
      locals.size = s.fn.locals.size ∧
      Updates s.fn.declared c.active s.fn.active (fun v => { v with endPC := s.fn.code.size })
        s.fn.locals locals ∧ t = s.left c rest locals := by
  have hscopes := h.fn.scopes
  rw [hcs] at hscopes
  have hc0 := hscopes.2.2.2.2.top_nonneg
  have hc1 := hscopes.1
  have hdecl := h.fn.active.2
  unfold endScope
  rw [ensures_bind, ensures_modifyFn]
  refine .bind (deactivate_spec hnd ⟨hc0, hc1⟩ hdecl) ?_
  rintro - _ ⟨locals, hsize, hup, rfl⟩
  rw [ensures_bind, ensures_getFn, ensures_bind, ensures_require (by simp [GenState.withLocals]),
    ensures_bind, ensures_getFn, ensures_bind, ensures_require ?_, ensures_bind, ensures_getFn,
    ensures_bind, ensures_require (by simpa [GenState.withLocals] using hscopes.2.2.1),
    ensures_modifyFn]
  · refine ⟨locals, hsize, hup, ?_⟩
    simp only [GenState.left, GenState.withLocals, hcs, List.drop_succ_cons, List.drop_zero]
  · simp only [GenState.withLocals, Array.take_eq_extract, Array.size_extract, beq_iff_eq]
    omega

/-- What leaving the block `c` leaves as it is. -/
structure Leaves (H : Set Nat) (c : Scope) (s t : GenState) : Prop extends Keeps H s t where
  scopes : s.fn.scopes = c :: t.fn.scopes
  active : t.fn.active = c.active
  free : t.fn.free = c.active
  declared : t.fn.declared = s.fn.declared.take c.active.toNat
  vars : ∀ r : Nat, (r : Int) < c.active → t.fn.record? r = s.fn.record? r

/-- A block that is not the outermost one of its function is closed. Jumps that are open in it close
its variables. -/
theorem Gen.leaveScope_spec (h : Flow s H ws) (hcs : s.fn.scopes = c :: rest) (hrest : rest ≠ [])
    (hfree : s.fn.active ≤ s.fn.free) (hdecl : (s.fn.declared.size : Int) ≤ s.fn.active)
    (hH : c.isCaptured → ∀ p ∈ H, ∀ (i : Instr) (r : Nat) (v : LocalVar), s.fn.code[p]? = some i →
      c.active ≤ r → (r : Int) < s.fn.active → s.fn.record? r = some v → v.startPC ≤ p → i.Closes r) :
    leaveScope.Ensures s fun _ t => ∃ ws', Flow t H ws' ∧ Leaves H c s t := by
  have hscopes := h.ok.fn.scopes
  have hloops := h.ok.fn.loops
  rw [hcs] at hscopes hloops
  have hc0 := hscopes.2.2.2.2.top_nonneg
  have hroom := h.ok.fn.free
  have hlen : (!s.fn.scopes.length == 1) = true := by
    rw [hcs]
    cases rest with
    | nil => exact absurd rfl hrest
    | cons => simp
  unfold leaveScope
  rw [ensures_bind, ensures_currentScope hcs, ensures_bind, ensures_getFn]
  extract_lets outermost finish mark
  have hfinish : ∀ {t : GenState} {ws' : List (Pending × List Nat)}, Flow t H ws' → Keeps H s t →
      t.fn.scopes = c :: rest → t.fn.active = s.fn.active → t.fn.free = s.fn.free →
      t.fn.declared = s.fn.declared → t.fn.locals = s.fn.locals →
      (c.isCaptured → ∀ (q r : Nat), t.fn.code.size = q + 1 → ¬ t.fn.Captures q r) →
      (c.isCaptured → ∀ (r : Nat) (v : LocalVar), c.active ≤ r → (r : Int) < t.fn.active →
        t.fn.record? r = some v → Enclosed t.fn.code (Held H (places ws'))
          (Exempt c (ws'.drop c.firstGoto)) v.startPC t.fn.code.size r) →
      (finish ()).Ensures t fun _ u => ∃ ws', Flow u H ws' ∧ Leaves H c s u := by
    intro t ws' hf hk hcs' ha hfr hd hlo hclosure hclose
    have hscopes' := hf.ok.fn.scopes
    have hout := hf.outside
    rw [hcs'] at hscopes' hout
    refine .bind (endScope_spec hf.ok hcs' hf.lives.nodup) ?_
    rintro - _ ⟨locals, hsize, hup, rfl⟩
    rw [if_pos hlen, ensures_bind, ensures_getFn]
    obtain ⟨d, ds, rfl⟩ := List.exists_cons_of_ne_nil hrest
    have hleft := hf.left hcs' hrest (by rw [ha, hfr]; exact hfree) (by rw [hd, ha]; exact hdecl)
      hsize hup hclosure hclose
    refine (moveGotosFrom_spec hleft rfl hout.2.2.1 rfl ?_ ?_).mono ?_
    · show ws'.length ≤ c.firstGoto + t.fn.gotos.size
      rw [← Array.length_toList, hf.gotos, List.length_map]
      omega
    · intro k hk w hw
      refine hout.2.1 k w.1 hk ?_
      rw [← Array.getElem?_toList, hf.gotos, List.getElem?_map, hw]
      rfl
    · rintro - u ⟨ws'', hf', hr⟩
      refine ⟨ws'', hf', hk.trans ((Keeps.left H hf.lives.nodup hscopes'.1 hup).trans hr.toKeeps), ?_,
        hr.active, hr.free, ?_, fun r hr' => ?_⟩
      · rw [hcs, hr.scopes]
        rfl
      · rw [hr.declared, ← hd]
        rfl
      · rw [hr.record?, GenState.record?_left hf.lives.nodup hup hr', Func.record?, hd, hlo]
        rfl
  have hcapLoop : c.isCaptured → c.isLoop = false := fun hcap => by
    by_contra hloop
    rw [(hloops.1 (by simpa using hloop)).1] at hcap
    simp at hcap
  simp only [mark]
  split
  · rename_i hcap
    have hcap : c.isCaptured := (Bool.and_eq_true ..▸ hcap).2
    have hlt : c.active < s.fn.active := hscopes.2.1 hcap
    refine .bind (closeVariables_spec h (by omega)) ?_
    rintro - t ⟨hf, hr, hsize, hsame, j, hj, hop, ha⟩
    simp only [hcapLoop hcap, Bool.false_eq_true, if_false]
    refine hfinish hf hr.toKeeps (hr.scopes.trans hcs) hr.active hr.free hr.declared hr.locals ?_ ?_
    · rintro - q r hq ⟨i, -, -, hi, hclosure, -⟩
      obtain rfl : q = s.fn.code.size := by omega
      rw [Option.some.inj (hi.symm.trans hj), hop] at hclosure
      simp at hclosure
    · intro _ r v hcr hra hv
      rw [hr.active] at hra
      rw [hr.record?] at hv
      exact h.enclosed hcs (hH hcap) hsize hsame hj hop ha hc0 hcap hcr hra hv
  · rename_i hcap
    have hcap : ¬ c.isCaptured := fun hc => hcap (by
      rw [Bool.and_eq_true]
      exact ⟨hlen, hc⟩)
    split
    · refine .bind (markLoopEnd_spec h (by simp [hcs])) ?_
      rintro - t ⟨ws', hf, hl⟩
      exact hfinish hf hl.toKeeps (hl.scopes.trans hcs) hl.active hl.free hl.declared hl.locals
        (fun hc => absurd hc hcap) fun hc => absurd hc hcap
    · exact hfinish h (.refl H s) hcs rfl rfl rfl rfl (fun hc => absurd hc hcap)
        fun hc => absurd hc hcap

/-- The outermost block of a function is closed. No code is added, and no jump is pending. -/
theorem Gen.leaveMain_spec (h : Flow s H ws) (hcs : s.fn.scopes = [c]) (hloop : c.isLoop = false)
    (hfree : s.fn.active ≤ s.fn.free) :
    leaveScope.Ensures s fun _ t => ws = [] ∧ t.Ok H ∧ ∃ locals : Array LocalVar,
      Updates s.fn.declared c.active s.fn.active (fun v => { v with endPC := s.fn.code.size })
        s.fn.locals locals ∧ t = s.left c [] locals := by
  have hscopes := h.ok.fn.scopes
  rw [hcs] at hscopes
  have hfirst : c.firstGoto = 0 := hscopes.2.2.2.2.2.2
  unfold leaveScope
  rw [ensures_bind, ensures_currentScope hcs, ensures_bind, ensures_getFn]
  simp only [hcs, hloop, List.length_singleton, beq_self_eq_true, Bool.not_true, Bool.false_and,
    Bool.false_eq_true, if_false]
  refine .bind (endScope_spec h.ok hcs h.lives.nodup) ?_
  rintro - _ ⟨locals, hsize, hup, rfl⟩
  rw [ensures_bind, ensures_getFn]
  split
  · unfold danglingGoto
    split <;> exact trivial
  · rename_i hnone
    have hempty : ws = [] := by
      have hg : s.fn.gotos.toList = [] := by
        rw [hfirst] at hnone
        have : s.fn.gotos.size ≤ 0 := Array.getElem?_eq_none_iff.1 hnone
        simpa using this
      rw [h.gotos] at hg
      simpa using hg
    have hok := h.ok
    rw [hempty] at hok
    exact ⟨hempty, (by simpa [places] using hok : s.Ok H).left hcs hfree hsize h.lives.nodup hup,
      locals, hup, rfl⟩

end Scopes

end RegisterCompiler
