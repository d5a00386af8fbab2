import RegisterCompiler.Proofs.Finishing

/-!
# Functions start and end

* `openFunction_spec`, `openMain_spec` : a new function is in order;
* `closeFunction_spec` : the function that ends is sound, and it is added to the function around.
-/

namespace RegisterCompiler

open Gen

section Open
variable {s : GenState} {H : Set Nat}

def Func.fresh (level : Nat) (line : Int) (isVararg : Bool) (upvalues : Array Upvalue) : Func :=
  { level, line, isVararg, upvalues, scopes := [⟨0, 0, 0, false, false⟩] }

theorem Func.fresh_ok (level : Nat) (line : Int) (isVararg : Bool) {upvalues : Array Upvalue}
    (h : upvalues.size ≤ 255) : (Func.fresh level line isVararg upvalues).Ok ∅ where
  active := ⟨le_rfl, le_rfl⟩
  upvalues := h
  scopes := ⟨le_rfl, by simp, le_rfl, by simp [Func.fresh], rfl, rfl, rfl⟩
  loops := ⟨by simp, trivial⟩
  isOpen := rfl
  lines := rfl
  pending := rfl
  target := ⟨le_rfl, le_rfl⟩
  code := .empty _ _ _
  stack := show (2 : Int) ≤ 2 ∧ (2 : Int) ≤ 249 by decide
  free := show (0 : Int) ≤ 0 ∧ (0 : Int) ≤ 2 by decide
  params := show (0 : Int) ≤ 2 by decide
  declared := by simp [Func.fresh]
  places := by simp [Func.fresh]
  constants := show (0 : Int) ≤ maxConstants by decide
  protos := show (0 : Int) ≤ maxBx by decide
  nested := by simp [Func.fresh]

theorem Func.fresh_lives (level : Nat) (line : Int) (isVararg : Bool) (upvalues : Array Upvalue) :
    (Func.fresh level line isVararg upvalues).Lives ∅ ∅ := by
  constructor
  case ranges => constructor <;> simp [Func.fresh]
  all_goals simp [Func.fresh, Func.record?, Func.Captures]

theorem Flow.fresh {level : Nat} {line : Int} {isVararg : Bool} {upvalues : Array Upvalue}
    (hfn : s.fn = .fresh level line isVararg upvalues) (hup : upvalues.size ≤ 255)
    (hinner : s.inner = []) (houter : ∀ g ∈ s.outer, g.Scoped) (henv : Linked s.fn s.outer) : Flow s ∅ [] where
  waits := by simp
  nodup := by simp [places]
  apart := by simp [places]
  ok :=
    { fn := by simpa [places, hfn] using Func.fresh_ok level line isVararg hup
      inner := hinner
      outer := houter
      env := henv
      ends := by simp [hfn, Func.fresh, Sealed]
      held := by simp [places] }
  labels := by simp [hfn, Func.fresh]
  lives := by simpa [places, hfn] using Func.fresh_lives level line isVararg upvalues
  gotos := by simp [hfn, Func.fresh]
  outside := by simp [hfn, Func.fresh, OutsideOk]
  within := by simp [hfn, Func.fresh]

/-- The state after a function inside the function of `s` is opened. -/
def GenState.opened (s : GenState) (line : Int) : GenState :=
  { s with outer := s.fn :: s.outer, fn := .fresh (s.outer.length + 1) line false #[] }

theorem Gen.openFunction_spec {line : Int} (h : s.Ok H) :
    (openFunction line).Ensures s fun _ t => t = s.opened line ∧ Flow t ∅ [] := by
  unfold openFunction
  simp only [ensures_bind, ensures_get]
  rw [ensures_require (by simp [h.inner]), ensures_modify, ensures_enterScope rfl]
  refine ⟨rfl, Flow.fresh (s := s.opened line) rfl (by simp) h.inner ?_ ?_⟩
  · intro g hg
    rcases List.mem_cons.1 hg with rfl | hg
    · exact h.fn.toScoped
    · exact h.outer g hg
  · exact ⟨by simp [GenState.opened, Func.fresh], by simp [GenState.opened, Func.fresh], h.env⟩

def GenState.main (name : Bytes) : GenState :=
  ⟨name, 1, .fresh 0 0 true #[⟨envName, true, 0⟩], [], []⟩

theorem Gen.openMain_spec {name : Bytes} {line : Int} :
    openMain.Ensures ((GenState.initial name).onLine line) fun _ t => t = GenState.main name ∧ Flow t ∅ [] := by
  unfold openMain
  simp only [ensures_bind, ensures_onLine]
  refine ⟨rfl, Flow.fresh (s := GenState.main name) rfl (by simp) rfl ?_ rfl⟩
  simp [GenState.main]

end Open

section Close
variable {s t : GenState} {H : Set Nat} {ws : List (Pending × List Nat)} {c : Scope}

theorem Gen.closeFunction_spec (h : Flow s ∅ ws) (hcs : s.fn.scopes = [c]) (hloop : c.isLoop = false)
    (hfree : s.fn.active ≤ s.fn.free) (hdecl : (s.fn.declared.size : Int) ≤ s.fn.active) :
    closeFunction.Ensures s fun n t => ∃ f : Func, (f.toProto s.source).Sound ∧
      f.upvalues = s.fn.upvalues ∧
      match s.outer with
      | [] => t = { s with fn := f }
      | g :: gs => n = g.protos.size ∧ (g.protos.size : Int) + 1 ≤ maxBx ∧
          t = { s with fn := { g with protos := g.protos.push (f.toProto s.source) }, outer := gs } := by
  unfold closeFunction
  simp only [ensures_bind, ensures_getFn, ensures_get]
  rw [ensures_require (by simp [h.ok.fn.isOpen]), ensures_require (by simp [h.ok.inner])]
  have hstack := h.ok.fn.stack
  refine Ensures.mono (ret_spec h.ok le_rfl (.inl ⟨le_rfl, by omega⟩)) ?_
  rintro - _ ⟨i, hop, rfl, hok, hev⟩
  have hflow : Flow (s.push i) ∅ ws := h.evolves hev hok subset_rfl (fun p hp _ => hp)
  refine Ensures.mono (leaveMain_spec hflow hcs hloop hfree) ?_
  rintro - t ⟨rfl, hok', locals, hup, ht⟩
  have hscopes := h.ok.fn.scopes
  rw [hcs] at hscopes
  have hactive : c.active = 0 := hscopes.2.2.2.2.1
  have hfin : Finishes 0 (s.push i).fn t.fn :=
    { nonneg := le_rfl, le := h.ok.fn.active.1, declared := by rw [ht, ← hactive]; rfl
      active := by rw [ht]; exact hactive
      code := by rw [ht]; rfl
      protos := by rw [ht]; rfl
      locals := by rw [ht, ← hactive]; exact hup }
  have hnames : (s.fn.upvalues.toList.map Upvalue.name).Nodup := by
    have henv := h.ok.env
    cases hout : s.outer with
    | nil =>
      rw [hout] at henv
      simp [show s.fn.upvalues = #[⟨envName, true, 0⟩] from henv]
    | cons g gs =>
      rw [hout] at henv
      exact henv.1
  have hlast : t.fn.lastTarget < t.fn.code.size := by
    have := h.ok.fn.target.2
    rw [ht]
    show s.fn.lastTarget < ((s.fn.code.push i).size : Int)
    rw [Array.size_push]
    omega
  have hends : ∃ i, t.fn.code.back? = some i ∧ i.op? = some .ret :=
    ⟨i, by rw [ht]; exact Array.back?_push, hop⟩
  have hup' : t.fn.upvalues = s.fn.upvalues := by rw [ht]; rfl
  have hwf : Proto.WellFormed (Func.toProto s.source { t.fn with code := threadJumps t.fn.code }) :=
    Func.wellFormed_toProto (by simpa [places] using hflow.lives) hfin hdecl hok'.fn hlast
      hends (hup' ▸ hnames)
  have hsound := Proto.sound_toProto hwf hok'.fn.nested
  have hstate : t = { s with fn := t.fn } := by rw [ht]; rfl
  rw [ensures_require (by rw [ht]; rfl), ensures_modifyFn]
  rw [hstate]
  cases hout : s.outer with
  | nil => exact ⟨{ t.fn with code := threadJumps t.fn.code, isClosed := true }, hsound, hup', rfl⟩
  | cons g gs =>
    simp only [ensures_bind, ensures_set, ensures_limit, ensures_modifyFn, ensures_pure]
    intro hroom
    exact ⟨_, hsound, hup', trivial, hroom, rfl⟩

def GenState.returned (s : GenState) (g : Func) (gs : List Func) (p : Proto) : GenState :=
  { s with fn := { g with protos := g.protos.push p }, outer := gs }

section Return
variable {g : Func} {gs : List Func} {p : Proto} {line : Int} {K : Set Nat}

theorem Captured.bounds_le {f : Func} (h : Captured f g) : f.bounds.Le g.bounds := by
  rw [h.eq]
  exact ⟨le_rfl, le_rfl, size_le_of_getElem? h.upvalues, le_rfl⟩

theorem Captured.ok {f : Func} (h : Captured f g) (hf : f.Ok H) (hg : g.Scoped) : g.Ok H := by
  have hcode := hf.code.mono h.bounds_le le_rfl
  obtain ⟨cs, us, rfl⟩ : ∃ cs us, g = { f with scopes := cs, upvalues := us } := ⟨_, _, h.eq⟩
  exact { hf with toScoped := hg, code := hcode }

theorem Func.Ok.pushProto (h : g.Ok H) (hp : p.Sound) (hroom : (g.protos.size : Int) + 1 ≤ maxBx) :
    Func.Ok { g with protos := g.protos.push p } H :=
  { h with
    code := h.code.mono ⟨le_rfl, le_rfl, le_rfl, by simp [Func.bounds]⟩ le_rfl
    protos := by simpa using hroom
    nested := fun q hq => by
      rcases Array.mem_push.1 hq with hq | rfl
      · exact h.nested q hq
      · exact hp }

theorem GenState.Ok.returned (h : s.Ok H) (hgrow : Grows (s.opened line) t) (ht : t.Ok K)
    (hout : t.outer = g :: gs) (hp : p.Sound) (hroom : (g.protos.size : Int) + 1 ≤ maxBx) :
    (t.returned g gs p).Ok H ∧ Evolves s (t.returned g gs p) := by
  have hcap := hgrow.outer
  rw [hout] at hcap
  obtain ⟨hc, hcs⟩ := List.forall₂_cons.1 hcap
  have hscoped : ∀ f ∈ g :: gs, f.Scoped := hout ▸ ht.outer
  have henv : Linked t.fn (g :: gs) := hout ▸ ht.env
  have hok := (hc.ok h.fn (hscoped g List.mem_cons_self)).pushProto hp hroom
  have hbounds := hc.bounds_le.trans (C := g.bounds) (D := (t.returned g gs p).fn.bounds)
    ⟨le_rfl, le_rfl, le_rfl, by simp [Func.bounds, GenState.returned]⟩
  obtain ⟨cs, us, rfl⟩ : ∃ cs us, g = { s.fn with scopes := cs, upvalues := us } := ⟨_, _, hc.eq⟩
  constructor
  · exact
      { fn := hok, inner := ht.inner, outer := fun f hf => hscoped f (List.mem_cons_of_mem _ hf)
        env := henv.2.2.congr rfl
        ends := h.ends
        held := h.held }
  · exact
      { source := hgrow.source, inner := hgrow.inner, outer := hcs, scopes := hc.scopes, bounds := hbounds
        size := le_rfl
        target := le_rfl
        protos := fun k q hq => by
          have := lt_size_of_some hq
          show (s.fn.protos.push p)[k]? = some q
          rw [Array.getElem?_push, if_neg (by omega), hq]
        starts := fun _ v hr hv => .inr ⟨hr, v, hv, rfl⟩
        targets := fun _ hu => hu
        kept := Kept.refl _ _
        aims := .of_size_le le_rfl
        marks := hc.marks
        closures := .of_size_le le_rfl
        constants := fun _ _ hc => hc
        active := rfl
        declared := rfl
        locals := rfl
        labels := rfl
        gotos := rfl }

theorem Evolves.pushClosure (h : s.Ok H) {i : Instr} (hop : i.op? = some .closure) (hbx : i.bx < s.fn.protos.size)
    (hcap : ∀ p, s.fn.protos[i.bx]? = some p → ∀ u ∈ p.upvalueList, u.isLocal → ∀ r : Nat, u.index = r →
      (r : Int) < s.fn.active ∧ CapturedAt r s.fn.scopes) : Evolves s (s.push i) where
  source := rfl
  inner := rfl
  outer := forall₂_captured_refl _
  scopes := rfl
  bounds := .refl _
  size := by simp [GenState.push]
  target := le_rfl
  targets u hu := hu.push h.fn.target.2 i
  kept := .of_eq fun p hp => getElem?_push_of_lt hp i
  aims := (AimsFrom.of_size_le le_rfl).push (by simp [Instr.isJump, hop])
  protos _ _ hp := hp
  starts _ v hr hv := .inr ⟨hr, v, hv, rfl⟩
  marks _ hr := hr
  closures q k hq hk _ := by
    have hlast : k = i := by
      simp only [GenState.push, Array.getElem?_push] at hk
      split at hk
      · exact (Option.some.inj hk).symm
      · exact absurd (lt_size_of_some hk) (by omega)
    subst hlast
    refine ⟨hbx, fun r hc => ?_⟩
    obtain ⟨j, p, u, hj, -, hp, hu, hlocal, hr⟩ := hc
    cases hj.symm.trans hk
    exact hcap p hp u hu hlocal r hr
  constants _ _ hc := hc
  active := rfl
  declared := rfl
  locals := rfl
  labels := rfl
  gotos := rfl

theorem Gen.closure_spec (h : s.Ok H) (hgrow : Grows (s.opened line) t) (ht : t.Ok K)
    (hout : t.outer = g :: gs) (hp : p.Sound) (hroom : (g.protos.size : Int) + 1 ≤ maxBx)
    (hup : p.upvalueList = t.fn.upvalues.toList) :
    (do toNextRegister (.plain .relocatable (← emitABx .closure 0 g.protos.size)) : Gen Operand).Ensures
      (t.returned g gs p) fun e u => e = .plain .nonRelocatable s.fn.free ∧ u.Ok H ∧ Evolves s u ∧
        u.fn.free = s.fn.free + 1 ∧ 0 < u.fn.code.size := by
  obtain ⟨hok, hev⟩ := h.returned hgrow ht hout hp hroom
  have henv : Linked t.fn (g :: gs) := hout ▸ ht.env
  have hfits : 0 ≤ (g.protos.size : Int) ∧ (g.protos.size : Int) ≤ maxBx := ⟨by omega, by omega⟩
  obtain ⟨hop, ha, hbx⟩ := Instr.abx_fields .closure (show 0 ≤ (0 : Int) ∧ 0 ≤ maxA by decide) hfits
  rw [ensures_bind, ensures_emitABx hok.fn.isOpen (.inl rfl) ⟨by omega, by omega⟩]
  generalize Instr.abx Opcode.closure.code 0 g.protos.size = i at hop ha hbx ⊢
  have hbx : i.bx = g.protos.size := by omega
  have hproto : (t.returned g gs p).fn.protos[i.bx]? = some p := by
    rw [hbx]
    exact Array.getElem?_push_size
  have hstack := hok.fn.stack
  have hfit : i.Fits (t.returned g gs p).fn.bounds := by
    simp only [Instr.Fits, hop]
    exact ⟨by simp only [Func.bounds]; omega, (lt_size_of_some hproto)⟩
  have hok' := hok.push hfit (Instr.next?_eq_none hop (by decide)) (by simp [Instr.isJump, hop])
    (by simp [hop])
  have hev' : Evolves (t.returned g gs p) ((t.returned g gs p).push i) := by
    refine .pushClosure hok hop (lt_size_of_some hproto) fun q hq x hx hlocal r hr => ?_
    cases hq.symm.trans hproto
    rw [hup] at hx
    have hlink := henv.2.1 x (by simpa using hx)
    rw [Upvalue.LinksTo, if_pos hlocal] at hlink
    obtain ⟨r', hr', hfind, hmark⟩ := hlink
    obtain rfl : r' = r := by omega
    exact ⟨(Func.findLocal?_eq_some hfind).1, hmark⟩
  have hfree : (t.returned g gs p).fn.free = s.fn.free := by
    have hcap := hgrow.outer
    rw [hout] at hcap
    show g.free = s.fn.free
    rw [(List.forall₂_cons.1 hcap).1.eq]
  have hsize : ((t.returned g gs p).push i).fn.code.size = (t.returned g gs p).fn.code.size + 1 := by
    simp [GenState.push]
  have hready : (Operand.plain .relocatable (t.returned g gs p).fn.code.size).Ready s.fn.code.size
      ((t.returned g gs p).push i).fn :=
    ⟨_, i, rfl, hev.size, hsize, Array.getElem?_push_size, ⟨.closure, hop, rfl, by simp⟩, hok.fn.target.2⟩
  have hcarries : Carries s H (.plain .relocatable (t.returned g gs p).fn.code.size)
      ((t.returned g gs p).push i) [] [] := by
    have hown : (Operand.plain .relocatable (t.returned g gs p).fn.code.size).ownJump = [] := rfl
    exact ⟨h, hev.trans hev', by simpa [hown] using hok', .empty _, .empty _, by simp [hown],
      by simp [hown]⟩
  have hnext : (toNextRegister (.plain .relocatable (t.returned g gs p).fn.code.size)).Ensures
      ((t.returned g gs p).push i) _ := enterNext_spec hcarries hready hfree
  refine (hnext.and (toNextRegister_op hok' hready Array.getElem?_push_size)).mono ?_
  rintro e u ⟨⟨he, hoku, hevu, hfreeu⟩, i', hi', -⟩
  have := lt_size_of_some hi'
  exact ⟨he, hoku, hevu, hfreeu, by omega⟩

end Return

end Close

end RegisterCompiler
