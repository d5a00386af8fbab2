import RegisterCompiler.Proofs.Lifetimes

/-!
# Jumps to labels

* `Waits f p ps` : the pending jump `p` is the chain of the jumps at `ps`, which close nothing below
  its level, and are before the start of every variable above it;
* `Waiting X s H ws` : so are all pending jumps in `ws`, and the jumps at `H` and at their places are
  open. The lifetimes of variables are in order, but for the exemptions in `X`;
* `resolveGoto_spec`, `resolveEarly_spec`, `addGoto_spec`, `defineLabel_spec` : jumps and labels are
  matched.
-/

namespace RegisterCompiler

open Gen

/-! ## Pending jumps -/

/-- The pending jump consists of the jumps at `ps`. None of them closes a variable that is active
where the jump is, and all variables that started before one of them are. -/
structure Waits (f : Func) (p : Pending) (ps : List Nat) : Prop where
  chain : Chain f.code p.jumps ps
  active : 0 ≤ p.active ∧ p.active ≤ f.stack
  jumps : ∀ q ∈ ps, ∃ i, f.code[q]? = some i ∧ i.op? = some .jmp ∧
    (i.a = 0 ∨ p.active + 1 ≤ (i.a : Int))
  inside : ∀ q ∈ ps, ∀ (r : Nat) (v : LocalVar), (r : Int) < f.active → f.record? r = some v →
    v.startPC ≤ q → (r : Int) < p.active

def places (ws : List (Pending × List Nat)) : List Nat :=
  ws.flatMap Prod.snd

/-- The label is a target, and the variables that are active there have started before it. -/
structure Label.Ok (l : Label) (f : Func) : Prop where
  active : 0 ≤ l.active
  target : IsTarget f.code f.lastTarget l.pc
  started : ∀ (r : Nat) (v : LocalVar), (r : Int) < l.active → f.record? r = some v →
    v.startPC ≤ l.pc

/-- The pending jumps in `ws` are in order, apart from each other and from the jumps at `H`. -/
structure Waiting (X : Set (Nat × Nat)) (s : GenState) (H : Set Nat)
    (ws : List (Pending × List Nat)) : Prop where
  waits : ∀ w ∈ ws, Waits s.fn w.1 w.2
  nodup : (places ws).Nodup
  apart : ∀ p ∈ places ws, p ∉ H
  ok : s.Ok (Held H (places ws))
  labels : ∀ l ∈ s.fn.labels, l.Ok s.fn
  lives : s.fn.Lives (Held H (places ws)) X

/-- What was pending when a block was opened, the innermost first, is outside it; `n` is the number
of pending jumps. -/
def OutsideOk (gotos : Array Pending) : (n : Nat) → List Scope → Prop
  | _, [] => True
  | n, c :: rest =>
    c.firstGoto ≤ n ∧ (∀ (g : Nat) (p : Pending), g < c.firstGoto → gotos[g]? = some p →
      p.active ≤ c.active) ∧ OutsideOk gotos c.firstGoto rest

/-- The pending jumps of the function are those in `ws`. -/
structure Flowing (X : Set (Nat × Nat)) (s : GenState) (H : Set Nat)
    (ws : List (Pending × List Nat)) : Prop extends Waiting X s H ws where
  gotos : s.fn.gotos.toList = ws.map Prod.fst
  outside : OutsideOk s.fn.gotos s.fn.gotos.size s.fn.scopes

/-- Between statements no jump is above the active variables. -/
structure Flow (s : GenState) (H : Set Nat) (ws : List (Pending × List Nat)) : Prop
    extends Flowing ∅ s H ws where
  within : ∀ p ∈ s.fn.gotos, p.active ≤ s.fn.active

/-- From `s` to `t` the open jumps at `H` stay as they are. -/
structure Keeps (H : Set Nat) (s t : GenState) : Prop extends Grows s t where
  jumps : ∀ p ∈ H, ∀ i, s.fn.code[p]? = some i → i.isJump → t.fn.code[p]? = some i

section Keeps
variable {s t u : GenState} {H H' : Set Nat} {l : JumpList} {ps : List Nat}

theorem Keeps.refl (H : Set Nat) (s : GenState) : Keeps H s s :=
  ⟨.refl s, fun _ _ _ h _ => h⟩

theorem Keeps.trans (h : Keeps H s t) (h' : Keeps H t u) : Keeps H s u :=
  ⟨h.toGrows.trans h'.toGrows, fun p hp i hi hj => h'.jumps p hp i (h.jumps p hp i hi hj) hj⟩

theorem Keeps.mono (h : Keeps H s t) (hsub : H' ⊆ H) : Keeps H' s t :=
  ⟨h.toGrows, fun p hp => h.jumps p (hsub hp)⟩

theorem Evolves.keeps (h : Evolves s t) (H : Set Nat) : Keeps H s t :=
  ⟨h.toGrows, fun _ _ _ hi hj => h.kept.jump (lt_size_of_some hi) hi hj⟩

theorem Keeps.chain (h : Keeps H s t) (hc : Chain s.fn.code l ps) (hps : ∀ p ∈ ps, p ∈ H) : Chain t.fn.code l ps :=
  hc.congr fun p hp => by
    obtain ⟨i, hi, hj⟩ := hc.jump_of_mem hp
    rw [h.jumps p (hps p hp) i hi hj, hi]

end Keeps

section Waiting
variable {s t : GenState} {H : Set Nat} {X : Set (Nat × Nat)} {p : Pending} {ps : List Nat}
  {ws ws' : List (Pending × List Nat)} {gotos : Array Pending} {cs : List Scope}

theorem places_perm (h : ws.Perm ws') : (places ws).Perm (places ws') :=
  h.flatMap_right _

theorem mem_places_of_mem {w : Pending × List Nat} (hw : w ∈ ws) {q : Nat} (hq : q ∈ w.2) : q ∈ places ws :=
  List.mem_flatMap.2 ⟨w, hw, hq⟩

theorem Waiting.perm (h : Waiting X s H ws) (hp : ws.Perm ws') : Waiting X s H ws' where
  waits w hw := h.waits w (hp.mem_iff.2 hw)
  nodup := (places_perm hp).nodup_iff.1 h.nodup
  apart q hq := h.apart q ((places_perm hp).mem_iff.2 hq)
  ok := held_congr (fun _ => (places_perm hp).mem_iff) ▸ h.ok
  labels := h.labels
  lives := held_congr (fun _ => (places_perm hp).mem_iff) ▸ h.lives

theorem waiting_cons : Waiting X s H ((p, ps) :: ws) ↔
    Waits s.fn p ps ∧ (∀ q ∈ ps, q ∉ H) ∧ Waiting X s (Held H ps) ws := by
  have hplaces : places ((p, ps) :: ws) = ps ++ places ws := rfl
  constructor
  · intro h
    have hnd := h.nodup
    rw [hplaces, List.nodup_append'] at hnd
    refine ⟨h.waits (p, ps) (by simp), fun q hq => h.apart q (by simp [hplaces, hq]), ?_⟩
    exact {
      waits := fun w hw => h.waits w (by simp [hw])
      nodup := hnd.2.1
      apart := fun q hq => by
        rintro (hH | hps)
        · exact h.apart q (by simp [hplaces, hq]) hH
        · exact hnd.2.2 hps hq
      ok := by
        rw [held_held]
        exact h.ok
      labels := h.labels
      lives := by
        rw [held_held]
        exact h.lives }
  · rintro ⟨hw, hH, h⟩
    exact {
      waits := by
        rintro w hw'
        rcases List.mem_cons.1 hw' with rfl | hw'
        · exact hw
        · exact h.waits w hw'
      nodup := by
        rw [hplaces, List.nodup_append']
        exact ⟨hw.chain.nodup, h.nodup, fun q hq hq' => h.apart q hq' (.inr hq)⟩
      apart := fun q hq => by
        rcases List.mem_append.1 hq with hq | hq
        · exact hH q hq
        · exact fun hH' => h.apart q hq (.inl hH')
      ok := by
        rw [hplaces, ← held_held]
        exact h.ok
      labels := h.labels
      lives := by
        rw [hplaces, ← held_held]
        exact h.lives }

theorem perm_eraseIdx {g : Nat} {w : Pending × List Nat} (hg : ws[g]? = some w) : ws.Perm (w :: ws.eraseIdx g) := by
  obtain ⟨hlt, rfl⟩ := List.getElem?_eq_some_iff.1 hg
  exact (List.getElem_cons_eraseIdx_perm hlt).symm

theorem Waits.frame (h : Waits s.fn p ps) (hk : Keeps H s t) (hps : ∀ q ∈ ps, q ∈ H) : Waits t.fn p ps where
  chain := hk.chain h.chain hps
  active := ⟨h.active.1, h.active.2.trans hk.bounds.stack⟩
  jumps q hq := by
    obtain ⟨i, hi, hop, ha⟩ := h.jumps q hq
    exact ⟨i, hk.jumps q (hps q hq) i hi (by simp [Instr.isJump, hop]), hop, ha⟩
  inside q hq r v hr hv hle := by
    rcases hk.starts r v hr hv with hnew | ⟨hr', v0, hv0, heq⟩
    · have := h.chain.lt_of_mem hq
      omega
    · exact h.inside q hq r v0 hr' hv0 (heq ▸ hle)

theorem Label.Ok.frame {l : Label} (h : l.Ok s.fn) (hg : Grows s t)
    (hvar : ∀ r : Nat, (r : Int) < l.active → t.fn.record? r = s.fn.record? r) : l.Ok t.fn where
  active := h.active
  target := hg.targets _ h.target
  started r v hr hv := h.started r v hr (hvar r hr ▸ hv)

theorem Waiting.frame {H' : Set Nat} {X' : Set (Nat × Nat)} (h : Waiting X s H ws)
    (hsub : ∀ q ∈ places ws, q ∈ H' → q ∈ H) (hk : Keeps {q | q ∈ places ws} s t)
    (hok : t.Ok (Held H' (places ws))) (hlives : t.fn.Lives (Held H' (places ws)) X')
    (hl : ∀ l ∈ t.fn.labels, l ∈ s.fn.labels ∧ ∀ r : Nat, (r : Int) < l.active → t.fn.record? r = s.fn.record? r) :
    Waiting X' t H' ws where
  waits w hw := (h.waits w hw).frame hk fun _ hq => mem_places_of_mem hw hq
  nodup := h.nodup
  apart q hq hH := h.apart q hq (hsub q hq hH)
  ok := hok
  labels l hl' := (h.labels l (hl l hl').1).frame hk.toGrows (hl l hl').2
  lives := hlives

theorem OutsideOk.congr {n : Nat} {cs' : List Scope}
    (h : OutsideOk gotos n cs) (hcs : cs'.map Scope.erase = cs.map Scope.erase) : OutsideOk gotos n cs' := by
  induction cs generalizing n cs' with
  | nil =>
    obtain rfl := List.map_eq_nil_iff.1 hcs
    trivial
  | cons c rest ih =>
    obtain ⟨c', rest', rfl, hc, hrest⟩ := List.map_eq_cons_iff.1 hcs
    have hfirst : c'.firstGoto = c.firstGoto := (Scope.mk.inj hc).2.1
    have hactive : c'.active = c.active := (Scope.mk.inj hc).2.2.1
    refine ⟨hfirst ▸ h.1, fun g p hg hp => hactive ▸ h.2.1 g p (hfirst ▸ hg) hp, ?_⟩
    exact hfirst ▸ ih h.2.2 hrest

theorem OutsideOk.agree {gotos' : Array Pending} {n : Nat}
    (h : OutsideOk gotos n cs) (hg : ∀ g, g < n → gotos'[g]? = gotos[g]?) : OutsideOk gotos' n cs := by
  induction cs generalizing n with
  | nil => trivial
  | cons c rest ih =>
    have hle := h.1
    exact ⟨hle, fun g p hlt hp => h.2.1 g p hlt (hg g (by omega) ▸ hp),
      ih h.2.2 fun g hlt => hg g (by omega)⟩

theorem OutsideOk.change {gotos' : Array Pending} {n n' : Nat} {c : Scope}
    (h : OutsideOk gotos n (c :: cs)) (hn : c.firstGoto ≤ n')
    (hg : ∀ g, g < c.firstGoto → gotos'[g]? = gotos[g]?) : OutsideOk gotos' n' (c :: cs) :=
  ⟨hn, fun g p hlt hp => h.2.1 g p hlt (hg g hlt ▸ hp), h.2.2.agree hg⟩

theorem Waiting.exempt {X' : Set (Nat × Nat)} (h : Waiting X s H ws)
    (hX : ∀ (p r : Nat) (i : Instr), (p, r) ∈ X → s.fn.code[p]? = some i → i.isJump →
      i.Closes r ∨ (p, r) ∈ X') : Waiting X' s H ws :=
  { h with lives := h.lives.exempt hX }

theorem Flow.evolves {H' : Set Nat} (h : Flow s H ws) (hev : Evolves s t)
    (hok : t.Ok (Held H' (places ws))) (hsub : H ⊆ H')
    (hnew : ∀ p ∈ H', p < s.fn.code.size → p ∈ H) : Flow t H' ws := by
  have hlt : ∀ q ∈ places ws, q < s.fn.code.size := fun q hq => h.ok.held q (.inr hq)
  have hrec : Recodes (Held H (places ws)) (Held H' (places ws)) s.fn t.fn :=
    hev.recodes h.ok.fn.code rfl (fun q hq => hq.imp_left fun hq => hsub hq)
      fun q hq hlt => hq.imp_left fun hq => hnew q hq hlt
  refine ⟨⟨h.toWaiting.frame (fun q hq hH => hnew q hH (hlt q hq)) (hev.keeps _) hok
    (h.lives.recode hrec) fun l hl => ⟨hev.labels ▸ hl, fun r _ => hrec.record? r⟩,
    by rw [hev.gotos, h.gotos], ?_⟩, by rw [hev.gotos, hev.active]; exact h.within⟩
  rw [hev.gotos]
  exact h.outside.congr hev.scopes

theorem Flowing.get {g : Nat} (h : Flowing X s H ws) (hg : s.fn.gotos[g]? = some p) : ∃ ps, ws[g]? = some (p, ps) := by
  rw [← Array.getElem?_toList, h.gotos, List.getElem?_map, Option.map_eq_some_iff] at hg
  obtain ⟨⟨p', ps⟩, hw, rfl⟩ := hg
  exact ⟨ps, hw⟩

end Waiting

/-! ## Jumps get their targets -/

/-- What matching jumps and labels leaves as it is. -/
structure Retargets (H : Set Nat) (s t : GenState) : Prop extends Keeps H s t where
  scopes : t.fn.scopes = s.fn.scopes
  active : t.fn.active = s.fn.active
  free : t.fn.free = s.fn.free
  labels : t.fn.labels = s.fn.labels
  declared : t.fn.declared = s.fn.declared
  locals : t.fn.locals = s.fn.locals

section Resolve
variable {s t u : GenState} {H : Set Nat} {X : Set (Nat × Nat)} {p : Pending} {ps : List Nat} {l : Label} {g : Nat}
  {ws : List (Pending × List Nat)} {code : Array Instr} {j : JumpList} {c : Scope} {cs : List Scope}

theorem Retargets.refl (H : Set Nat) (s : GenState) : Retargets H s s :=
  ⟨.refl H s, rfl, rfl, rfl, rfl, rfl, rfl⟩

theorem Retargets.trans (h : Retargets H s t) (h' : Retargets H t u) : Retargets H s u :=
  ⟨h.toKeeps.trans h'.toKeeps, h'.scopes.trans h.scopes, h'.active.trans h.active,
    h'.free.trans h.free, h'.labels.trans h.labels, h'.declared.trans h.declared,
    h'.locals.trans h.locals⟩

theorem Retargets.record? (h : Retargets H s t) (r : Nat) : t.fn.record? r = s.fn.record? r := by
  rw [Func.record?, h.declared, h.locals]
  rfl

theorem Chain.closing {code' : Array Instr} {l : JumpList} {qs : List Nat} {level : Int}
    (h : Chain code l qs) (hcl : Closing ps level code code') : Chain code' l qs := by
  induction h with
  | nil hl => exact .nil hl
  | @cons l q i qs hl hi hj _ ih =>
    by_cases hq : q ∈ ps
    · refine .cons hl (hcl.jump q hq i hi) (by simpa using hj) ?_
      rwa [show link q (i.setA level) = link q i by simp [link]]
    · exact .cons hl (by rw [hcl.other q hq, hi]) hj ih

theorem Waiting.closing {level : Int} (h : Waiting X s (Held H ps) ws)
    (hps : ∀ q ∈ ps, q ∉ H) (hc : Chain s.fn.code j ps)
    (hj : ∀ q ∈ ps, ∃ i, s.fn.code[q]? = some i ∧ i.op? = some .jmp ∧ (i.a = 0 ∨ level + 1 ≤ (i.a : Int)))
    (hlevel : 0 ≤ level ∧ level + 1 ≤ s.fn.stack) :
    (closeOnJump j level).Ensures s fun _ t => ∃ code, t = s.setCode code ∧
      Closing ps (level + 1) s.fn.code code ∧ Waiting X t (Held H ps) ws ∧ Chain code j ps ∧
      Retargets H s t ∧ ∀ q ∈ ps, ∃ i, code[q]? = some i ∧ i.op? = some .jmp ∧ (i.a : Int) = level + 1 := by
  have hstack := h.ok.fn.stack
  refine (closeOnJump_spec hc fun q hq i hi => ?_).mono ?_
  · obtain ⟨j, hj', hop, ha⟩ := hj q hq
    cases hi.symm.trans hj'
    exact ⟨hop, ha⟩
  · rintro - _ ⟨code, rfl, hcl⟩
    obtain ⟨hcode, hrev⟩ := h.ok.fn.code.closing (by simp only [Func.bounds]; omega) hstack.2 hcl
      fun q hq i hi => by
        obtain ⟨j, hj', hop, -⟩ := hj q hq
        rw [hi] at hj'
        exact Option.some.inj hj' ▸ hop
    have hgrows : Grows s (s.setCode code) :=
      { Grows.refl s with size := hrev.size.ge, targets := fun u hu => hu.revised hrev }
    have hkeep : ∀ q, q ∉ ps → ∀ i, s.fn.code[q]? = some i → code[q]? = some i :=
      fun q hq i hi => by rw [hcl.other q hq, hi]
    have hrec : Recodes (Held (Held H ps) (places ws)) (Held (Held H ps) (places ws)) s.fn
        (s.setCode code).fn :=
      .closing hcl hrev (by simp only [maxA]; omega) fun q hq i hi => by
        obtain ⟨j, hj', hop, ha⟩ := hj q hq
        rw [hi] at hj'
        exact Option.some.inj hj' ▸ ⟨hop, ha⟩
    refine ⟨code, rfl, hcl, h.frame (fun _ _ h => h)
      ⟨hgrows, fun q hq i hi _ => hkeep q (fun hq' => ?_) i hi⟩ (h.ok.setCode hrev hcode h.ok.held)
      (h.lives.recode hrec) (fun l hl => ⟨hl, fun _ _ => rfl⟩), hc.closing hcl,
      ⟨⟨hgrows, fun q hq i hi _ => hkeep q (fun hq' => hps q hq' hq) i hi⟩, rfl, rfl, rfl, rfl, rfl,
        rfl⟩, fun q hq => ?_⟩
    · exact h.apart q hq (.inr hq')
    · obtain ⟨i, hi, hop, -⟩ := hj q hq
      refine ⟨_, hcl.jump q hq i hi, by simpa using hop, ?_⟩
      rw [Instr.a_setA i (by simp only [maxA]; omega)]

theorem isJump_of_jmp (h : AreJumps code ps) : ∀ q ∈ ps, ∃ i, code[q]? = some i ∧ i.isJump := by
  intro q hq
  obtain ⟨i, hi, hop⟩ := h q hq
  exact ⟨i, hi, by simp [Instr.isJump, hop]⟩

/-- The jumps at `ps` have got their targets, and all others stay as they are. Those in `H'` are still
taken for open. -/
theorem Waiting.patched {target : Int} {H' K : Set Nat} (h : Waiting X s H ws)
    (hps : ∀ q ∈ ps, q ∈ H) (hK : ∀ q ∈ K, q ∉ ps) (hsub : H' ⊆ H) (hrest : ∀ q ∈ H, q ∉ ps → q ∈ H')
    (hj : ∀ q ∈ ps, ∃ i, s.fn.code[q]? = some i ∧ i.isJump) (hu : u = s ∨ u = s.marked)
    (hpat : Patched ps target noRegister target s.fn.code code) (hrev : Revised s.fn.code code)
    (haim : ∀ q ∈ ps, ∀ (i : Instr) (r : Nat) (v : LocalVar), s.fn.code[q]? = some i →
      (r : Int) < s.fn.active → s.fn.record? r = some v → v.startPC ≤ q → v.startPC ≤ target ∨ i.Closes r)
    (hok : (u.setCode code).Ok (Held H' (places ws))) :
    Waiting X (u.setCode code) H' ws ∧ Retargets K s (u.setCode code) := by
  have hev : Evolves s u := by
    rcases hu with rfl | rfl
    · exact .refl _
    · exact .marked s h.ok.fn.target.2
  have hcode : u.fn.code = s.fn.code := by rcases hu with rfl | rfl <;> rfl
  have hgrows : Grows s (u.setCode code) :=
    { hev.toGrows with
      size := hrev.size.ge
      targets := fun v hv => by
        have := (hev.targets v hv)
        rw [hcode] at this
        exact this.revised hrev }
  have hkeep : ∀ q, q ∉ ps → ∀ i, s.fn.code[q]? = some i → i.isJump → code[q]? = some i := by
    intro q hq i hi hj
    rw [hpat.other q hq, hi]
    simp [storesAt, hi, not_testSet_of_isJump hj]
  have hfn : (u.setCode code).fn = { s.fn with code := code, lastTarget := u.fn.lastTarget } := by
    rcases hu with rfl | rfl <;> rfl
  have hrec : Recodes (Held H (places ws)) (Held H' (places ws)) s.fn (u.setCode code).fn := by
    rw [hfn]
    refine .patched hpat hrev (fun q hq => .inl (hps q hq)) hj ?_ ?_ haim
    · rintro q (hq | hq) hn
      · exact .inl (hrest q hq hn)
      · exact .inr hq
    · exact fun q hq => hq.imp_left fun hq => hsub hq
  refine ⟨h.frame (fun q _ hq => hsub hq) ⟨hgrows, fun q hq => hkeep q fun hq' => ?_⟩ hok
    (h.lives.recode hrec) fun l hl => ⟨by rw [hfn] at hl; exact hl, fun r _ => hrec.record? r⟩,
    ⟨hgrows, fun q hq => hkeep q (hK q hq)⟩, ?_, ?_, ?_, ?_, ?_, ?_⟩
  · exact h.apart q hq (hps q hq')
  all_goals rw [hfn]

section
variable (h : Waiting X s (Held H ps) ws) (hps : ∀ q ∈ ps, q ∉ H) (hc : Chain s.fn.code j ps) (hj : AreJumps s.fn.code ps)
include h hps hc hj

theorem Gen.aimAt_waiting {target : Int} (ht : IsTarget s.fn.code s.fn.lastTarget target)
    (haim : ∀ q ∈ ps, ∀ (i : Instr) (r : Nat) (v : LocalVar), s.fn.code[q]? = some i →
      (r : Int) < s.fn.active → s.fn.record? r = some v → v.startPC ≤ q → v.startPC ≤ target ∨ i.Closes r) :
    (aimAt j target).Ensures s fun _ t => Waiting X t H ws ∧ Retargets H s t ∧
      t.fn.gotos = s.fn.gotos ∧ t.fn.code.size = s.fn.code.size := by
  refine (aimAt_ok (by rw [← held_held]; exact h.ok) hc hj ht).mono ?_
  rintro - _ ⟨code, u, hu, rfl, hpat, hrev, hok⟩
  obtain ⟨h', hr⟩ := h.patched (fun q hq => .inr hq) (fun q hq hq' => hps q hq' hq) (fun q hq => .inl hq)
    (fun q hq hn => hq.resolve_right hn) (isJump_of_jmp hj) hu hpat hrev haim hok
  exact ⟨h', hr, by rcases hu with rfl | rfl <;> rfl, hrev.size⟩

theorem Gen.aimHere_waiting : (aimHere j).Ensures s fun _ t => Waiting X t H ws ∧ Retargets H s t ∧
      t.fn.gotos = s.fn.gotos ∧ Patched ps s.fn.code.size noRegister s.fn.code.size s.fn.code t.fn.code := by
  refine (aimHere_ok (by rw [← held_held]; exact h.ok) hc hj).mono ?_
  rintro - _ ⟨code, rfl, hpat, hrev, hok⟩
  obtain ⟨h', hr⟩ := h.patched (fun q hq => .inr hq) (fun q hq hq' => hps q hq' hq) (fun q hq => .inl hq)
    (fun q hq hn => hq.resolve_right hn) (isJump_of_jmp hj) (.inr rfl) hpat hrev
    (fun q _ i r v _ hr hv _ => .inl (h.lives.started r v hr hv).2) hok
  exact ⟨h', hr, rfl, hpat⟩

end

def GenState.withGotos (s : GenState) (gotos : Array Pending) : GenState :=
  { s with fn := { s.fn with gotos := gotos } }

theorem GenState.Ok.withGotos (h : s.Ok H) (gotos : Array Pending) : (s.withGotos gotos).Ok H :=
  ⟨⟨{ h.fn with }, h.inner, h.outer, h.env.congr rfl⟩, h.ends, h.held⟩

theorem Retargets.withGotos (H : Set Nat) (s : GenState) (gotos : Array Pending) : Retargets H s (s.withGotos gotos) :=
  { Retargets.refl H s with }

theorem Waiting.withGotos (h : Waiting X s H ws) (gotos : Array Pending) : Waiting X (s.withGotos gotos) H ws :=
  h.frame (fun _ _ h => h) (Retargets.withGotos _ s gotos).toKeeps (h.ok.withGotos gotos)
    { h.lives with ranges := { h.lives.ranges with } } fun _ hl => ⟨hl, fun _ _ => rfl⟩

theorem Gen.ensures_localAt {reg : Int} {Q : LocalVar → GenState → Prop} (h : s.Ok H)
    (hreg : 0 ≤ reg ∧ reg < s.fn.declared.size) (hQ : ∀ v, Q v s) : (localAt reg).Ensures s Q := by
  unfold localAt
  have hd : s.fn.declared[reg.toNat]? = some s.fn.declared[reg.toNat] :=
    Array.getElem?_eq_getElem (by omega)
  have hlt := h.fn.declared _ (Array.mem_of_getElem? hd)
  rw [ensures_bind, ensures_getFn, ensures_bind, ensures_place hreg, hd, Option.bind_some,
    Array.getElem?_eq_getElem hlt]
  exact hQ _

theorem Gen.ensures_currentScope {Q : Scope → GenState → Prop}
    (h : s.fn.scopes = c :: cs) : currentScope.Ensures s Q ↔ Q c s := by
  unfold currentScope
  rw [ensures_bind, ensures_getFn, h]
  exact ensures_pure

theorem Gen.resolveGoto_spec (h : Waiting X s (Held H ps) (ws.eraseIdx g))
    (hps : ∀ q ∈ ps, q ∉ H) (hc : Chain s.fn.code p.jumps ps) (hj : AreJumps s.fn.code ps)
    (hp : s.fn.gotos[g]? = some p) (hg : s.fn.gotos.toList = ws.map Prod.fst)
    (hcs : s.fn.scopes = c :: cs) (hout : OutsideOk s.fn.gotos s.fn.gotos.size (c :: cs))
    (hfirst : c.firstGoto ≤ g) (hname : p.name = l.name)
    (ht : IsTarget s.fn.code s.fn.lastTarget l.pc) (hactive : 0 ≤ p.active) (hl : l.active ≤ s.fn.declared.size)
    (haim : l.active ≤ p.active → ∀ q ∈ ps, ∀ (i : Instr) (r : Nat) (v : LocalVar),
      s.fn.code[q]? = some i → (r : Int) < s.fn.active → s.fn.record? r = some v →
      v.startPC ≤ q → v.startPC ≤ l.pc ∨ i.Closes r) :
    (resolveGoto g l).Ensures s fun _ t => Flowing X t H (ws.eraseIdx g) ∧ Retargets H s t ∧
      t.fn.code.size = s.fn.code.size := by
  have hlt := lt_size_of_some hp
  unfold resolveGoto pendingAt
  rw [ensures_bind, ensures_bind, ensures_getFn, hp, ensures_pure, ensures_bind,
    ensures_require (by simpa using hname)]
  split
  · rw [ensures_bind]
    exact ensures_localAt h.ok (by omega) fun _ => trivial
  · refine .bind (aimAt_waiting h hps hc hj ht (haim (by omega))) ?_
    rintro - t ⟨h', hr, hgt, hsize⟩
    rw [ensures_modifyFn]
    refine ⟨⟨h'.withGotos _, ?_, ?_⟩, hr.trans (.withGotos ..), hsize⟩
    · rw [Array.toList_eraseIdxIfInBounds, hgt, hg, List.eraseIdx_map]
    · rw [hr.scopes, hcs, hgt]
      refine hout.change ?_ fun k hk => ?_
      · rw [← Array.length_toList, Array.toList_eraseIdxIfInBounds, List.length_eraseIdx,
          Array.length_toList, if_pos hlt]
        omega
      · rw [← Array.getElem?_toList, Array.toList_eraseIdxIfInBounds, List.getElem?_eraseIdx_of_lt
          (by omega), Array.getElem?_toList]

theorem Gen.resolveEarly_spec (h : Flowing X s H ws)
    (hcs : s.fn.scopes = c :: cs) (hp : s.fn.gotos[g]? = some p) (hfirst : c.firstGoto ≤ g) :
    (resolveEarly g).Ensures s fun b t => (b = false → t = s) ∧
      Flowing X t H (if b then ws.eraseIdx g else ws) ∧ Retargets H s t := by
  obtain ⟨ps, hw⟩ := h.get hp
  obtain ⟨hwaits, hps, hrest⟩ := waiting_cons.1 (h.toWaiting.perm (perm_eraseIdx hw))
  have hscopes := h.ok.fn.scopes
  have hout := h.outside
  rw [hcs] at hscopes hout
  unfold resolveEarly pendingAt
  rw [ensures_bind, ensures_currentScope hcs, ensures_bind, ensures_bind, ensures_getFn, hp,
    ensures_pure, ensures_bind, ensures_getFn, ensures_bind,
    ensures_require (by simpa using hscopes.2.2.1)]
  split
  · exact ⟨fun _ => rfl, h, .refl H s⟩
  · rename_i l hfind
    have hfound := List.mem_of_find?_eq_some hfind
    have hmem : l ∈ s.fn.labels := by simpa using List.mem_of_mem_drop hfound
    have hmore : c.firstLabel < s.fn.labels.size := by
      have := List.length_pos_of_mem hfound
      simp only [List.length_drop, Array.length_toList] at this
      omega
    have hname : p.name = l.name := by
      have := List.find?_some hfind
      exact (beq_iff_eq.1 this).symm
    have hlok := h.labels l hmem
    have hdecl := h.ok.fn.active.2
    have hl1 : l.active ≤ s.fn.active := by
      obtain ⟨k, hk, rfl⟩ := Array.mem_iff_getElem.1 hmem
      exact hscopes.2.2.2.1 k _ hk (Array.getElem?_eq_getElem hk)
    have hjmp : AreJumps s.fn.code ps := fun q hq => by
      obtain ⟨i, hi, hop, -⟩ := hwaits.jumps q hq
      exact ⟨i, hi, hop⟩
    split
    · rename_i hclose
      have hlt : l.active < p.active := by
        simp only [Bool.and_eq_true, decide_eq_true_eq] at hclose
        exact hclose.1
      have := hwaits.active
      have := hlok.active
      rw [ensures_bind]
      refine (hrest.closing hps hwaits.chain (fun q hq => ?_) (by omega)).mono ?_
      · obtain ⟨i, hi, hop, ha⟩ := hwaits.jumps q hq
        exact ⟨i, hi, hop, by omega⟩
      · rintro - _ ⟨code, rfl, -, hrest', hc', hr', hj'⟩
        refine .bind (resolveGoto_spec hrest' hps hc' (fun q hq => ?_) hp h.gotos hcs hout hfirst hname
          (hr'.targets _ hlok.target) hwaits.active.1 (hl1.trans hdecl) fun _ q hq i r v hi hr hv hle => ?_) ?_
        · obtain ⟨i, hi, hop, -⟩ := hj' q hq
          exact ⟨i, hi, hop⟩
        · -- A variable that the label does not see is closed.
          rcases lt_or_ge (r : Int) l.active with hlt | hge
          · exact .inl (hlok.started r v hlt hv)
          · obtain ⟨i', hi', hop, ha⟩ := hj' q hq
            cases hi.symm.trans hi'
            exact .inr ⟨hop, by omega, by omega⟩
        · rintro - t ⟨hf, hr, -⟩
          exact ⟨by simp, hf, hr'.trans hr⟩
    · rename_i hclose
      refine .bind (resolveGoto_spec hrest hps hwaits.chain hjmp hp h.gotos hcs hout hfirst hname
        hlok.target hwaits.active.1 (hl1.trans hdecl) fun hle q hq i r v hi hr hv hstart => ?_) ?_
      · have hsame : p.active ≤ l.active := by
          simp only [Bool.and_eq_true, Bool.or_eq_true, decide_eq_true_eq, not_and, not_or] at hclose
          by_contra hgt
          exact (hclose (by omega)).2 hmore
        exact .inl (hlok.started r v ((hwaits.inside q hq r v hr hv hstart).trans_le hsame) hv)
      · rintro - t ⟨hf, hr, -⟩
        exact ⟨by simp, hf, hr⟩

theorem Gen.resolveGotosFrom_spec {fuel : Nat} (h : Flowing X s H ws)
    (hcs : s.fn.scopes = c :: cs) (hfirst : c.firstGoto ≤ g)
    (ht : IsTarget s.fn.code s.fn.lastTarget l.pc) (hpc : l.pc = s.fn.code.size) (hl : l.active ≤ s.fn.declared.size) :
    (resolveGotosFrom l fuel g).Ensures s fun _ t => ∃ ws', ws'.Sublist ws ∧ Flowing X t H ws' ∧
      Retargets H s t ∧ t.fn.code.size = s.fn.code.size := by
  induction fuel generalizing s g ws with
  | zero => exact ⟨ws, .refl ws, h, .refl H s, rfl⟩
  | succ fuel ih =>
    unfold resolveGotosFrom
    rw [ensures_bind, ensures_getFn]
    split
    · exact ⟨ws, .refl ws, h, .refl H s, rfl⟩
    · rename_i p hp
      split
      · rename_i hname
        obtain ⟨ps, hw⟩ := h.get hp
        obtain ⟨hwaits, hps, hrest⟩ := waiting_cons.1 (h.toWaiting.perm (perm_eraseIdx hw))
        have hout := h.outside
        rw [hcs] at hout
        refine .bind (resolveGoto_spec hrest hps hwaits.chain (fun q hq => ?_) hp h.gotos hcs hout
          hfirst (beq_iff_eq.1 hname) ht hwaits.active.1 hl
          fun _ q _ i r v _ hr hv _ => .inl (hpc ▸ (h.lives.started r v hr hv).2)) ?_
        · obtain ⟨i, hi, hop, -⟩ := hwaits.jumps q hq
          exact ⟨i, hi, hop⟩
        · rintro - t ⟨hf, hr, hsize⟩
          refine (ih hf (hr.scopes.trans hcs) hfirst (hr.targets _ ht) (by rw [hpc, hsize])
            (by rw [hr.declared]; exact hl)).mono ?_
          rintro - u ⟨ws', hsub, hf', hr', hsize'⟩
          exact ⟨ws', hsub.trans (List.eraseIdx_sublist ..), hf', hr.trans hr', hsize'.trans hsize⟩
      · exact ih h hcs (by omega) ht hpc hl

theorem Gen.resolveGotos_spec (h : Flow s H ws) (hs : s.fn.scopes ≠ [])
    (ht : IsTarget s.fn.code s.fn.lastTarget l.pc) (hpc : l.pc = s.fn.code.size) (hl : l.active ≤ s.fn.declared.size) :
    (resolveGotos l).Ensures s fun _ t => ∃ ws', Flow t H ws' ∧ Retargets H s t ∧ t.fn.code.size = s.fn.code.size := by
  obtain ⟨c, cs, hcs⟩ := List.exists_cons_of_ne_nil hs
  unfold resolveGotos
  rw [ensures_bind, ensures_getFn, ensures_bind, ensures_currentScope hcs]
  refine (resolveGotosFrom_spec h.toFlowing hcs le_rfl ht hpc hl).mono ?_
  rintro - t ⟨ws', hsub, hf, hr, hsize⟩
  refine ⟨ws', ⟨hf, fun p hp => ?_⟩, hr, hsize⟩
  rw [hr.active]
  refine h.within p ?_
  rw [← Array.mem_toList_iff, hf.gotos] at hp
  rw [← Array.mem_toList_iff, h.gotos]
  exact (hsub.map _).subset hp

theorem Gen.addGoto_spec {name : Bytes} {line : Int} (h : Flow s (Held H ps) ws)
    (hs : s.fn.scopes ≠ []) (hps : ∀ q ∈ ps, q ∉ H) (hc : Chain s.fn.code j ps)
    (hj : ∀ q ∈ ps, ∃ i, s.fn.code[q]? = some i ∧ i.op? = some .jmp ∧ i.a = 0) (hactive : s.fn.active ≤ s.fn.stack) :
    (addGoto name line j).Ensures s fun _ t => ∃ ws', Flow t H ws' ∧ Retargets H s t := by
  obtain ⟨c, cs, hcs⟩ := List.exists_cons_of_ne_nil hs
  have hout := h.outside
  rw [hcs] at hout
  have hnew : Waiting ∅ s H (ws ++ [(⟨name, j, line, s.fn.active⟩, ps)]) := by
    refine (waiting_cons.2 ⟨⟨hc, ⟨h.ok.fn.active.1, hactive⟩, fun q hq => ?_,
      fun _ _ _ _ hr _ _ => hr⟩, hps, h.toWaiting⟩).perm (List.perm_append_singleton ..).symm
    obtain ⟨i, hi, hop, ha⟩ := hj q hq
    exact ⟨i, hi, hop, .inl ha⟩
  unfold addGoto
  rw [ensures_bind, ensures_getFn, ensures_bind, ensures_modifyFn]
  have hf : Flowing ∅ (s.withGotos (s.fn.gotos.push ⟨name, j, line, s.fn.active⟩)) H
      (ws ++ [(⟨name, j, line, s.fn.active⟩, ps)]) := by
    refine ⟨hnew.withGotos _, by simp [GenState.withGotos, h.gotos], ?_⟩
    show OutsideOk _ _ s.fn.scopes
    rw [hcs]
    have hle := hout.1
    refine hout.change (by simp only [GenState.withGotos, Array.size_push]; omega) fun g hg => ?_
    simp only [GenState.withGotos]
    rw [Array.getElem?_push, if_neg (by omega)]
  refine .bind (resolveEarly_spec hf hcs (p := ⟨name, j, line, s.fn.active⟩)
    (Array.getElem?_push_size ..) hout.1) ?_
  rintro b t ⟨-, hf', hr⟩
  refine ⟨_, ⟨hf', fun p hp => ?_⟩, (Retargets.withGotos H s _).trans hr⟩
  rw [hr.active]
  have hmem : p ∈ (s.fn.gotos.push ⟨name, j, line, s.fn.active⟩) := by
    rw [← Array.mem_toList_iff, hf'.gotos] at hp
    rw [← Array.mem_toList_iff]
    have := hf.gotos
    simp only [GenState.withGotos] at this
    rw [this]
    refine (List.Sublist.map _ ?_).subset hp
    split
    · exact List.eraseIdx_sublist ..
    · exact .refl _
  rcases Array.mem_push.1 hmem with hp | rfl
  · exact h.within p hp
  · exact le_rfl

def GenState.withLabel (s : GenState) (l : Label) : GenState :=
  { s with fn := { s.fn with labels := s.fn.labels.push l } }

theorem ScopesOk.push {labels : Array Label} {top : Int} {n : Nat}
    (h : ScopesOk labels top n g cs) (hn : n ≤ labels.size) : ScopesOk (labels.push l) top n g cs := by
  induction cs generalizing top n g with
  | nil => exact h
  | cons c rest ih =>
    refine ⟨h.1, h.2.1, h.2.2.1, fun k l' hk hl' => h.2.2.2.1 k l' hk ?_, ih h.2.2.2.2 (h.2.2.1.trans hn)⟩
    rwa [Array.getElem?_push, if_neg (by omega)] at hl'

theorem Flow.withLabel (h : Flow s H ws) (hs : s.fn.scopes ≠ [])
    (hl : 0 ≤ l.active ∧ l.active ≤ s.fn.active) (ht : IsTarget s.fn.code s.fn.lastTarget l.pc)
    (hpc : l.pc = s.fn.code.size) : Flow (s.withLabel l) H ws := by
  obtain ⟨c, cs, hcs⟩ := List.exists_cons_of_ne_nil hs
  have hscopes := h.ok.fn.scopes
  rw [hcs] at hscopes
  have hnew : ScopesOk (s.fn.labels.push l) s.fn.active (s.fn.labels.push l).size 0 s.fn.scopes := by
    rw [hcs, Array.size_push]
    refine ⟨hscopes.1, hscopes.2.1, by have := hscopes.2.2.1; omega, fun k l' hk hl' => ?_,
      hscopes.2.2.2.2.push hscopes.2.2.1⟩
    rw [Array.getElem?_push] at hl'
    split at hl'
    · cases hl'
      exact hl.2
    · exact hscopes.2.2.2.1 k l' (by omega) hl'
  have hok : (s.withLabel l).Ok (Held H (places ws)) :=
    ⟨⟨{ h.ok.fn with scopes := hnew }, h.ok.inner, h.ok.outer, h.ok.env.congr rfl⟩, h.ok.ends, h.ok.held⟩
  refine ⟨⟨⟨fun w hw => { h.waits w hw with }, h.nodup, h.apart, hok, fun l' hl' => ?_,
    { h.lives with ranges := { h.lives.ranges with } }⟩, h.gotos, h.outside⟩, h.within⟩
  rcases Array.mem_push.1 hl' with hl' | rfl
  · exact { h.labels l' hl' with }
  · exact ⟨hl.1, ht, fun r v hr hv => hpc ▸ (h.lives.started r v (by omega) hv).2⟩

structure Labels (H : Set Nat) (s t : GenState) : Prop extends Keeps H s t where
  scopes : t.fn.scopes = s.fn.scopes
  active : t.fn.active = s.fn.active
  free : t.fn.free = s.fn.free
  declared : t.fn.declared = s.fn.declared
  locals : t.fn.locals = s.fn.locals
  length : t.fn.code.size = s.fn.code.size

theorem Gen.addLabel_spec (h : Flow s H ws) (hs : s.fn.scopes ≠ [])
    (hl : 0 ≤ l.active ∧ l.active ≤ s.fn.active) (ht : IsTarget s.fn.code s.fn.lastTarget l.pc)
    (hpc : l.pc = s.fn.code.size) : (addLabel l).Ensures s fun _ t => ∃ ws', Flow t H ws' ∧ Labels H s t := by
  unfold addLabel
  refine (resolveGotos_spec (h.withLabel hs hl ht hpc) hs ht hpc (hl.2.trans h.ok.fn.active.2)).mono ?_
  rintro - t ⟨ws', hf', hr, hsize⟩
  have hk : Keeps H s (s.withLabel l) := ⟨{ Grows.refl s with }, fun _ _ _ hi _ => hi⟩
  exact ⟨ws', hf', hk.trans hr.toKeeps, hr.scopes, hr.active, hr.free, hr.declared, hr.locals, hsize⟩

theorem Flow.marked (h : Flow s H ws) : Flow s.marked H ws :=
  h.evolves (.marked s h.ok.fn.target.2) h.ok.marked subset_rfl fun _ hp _ => hp

theorem Flow.isTarget (h : Flow s H ws) : IsTarget s.marked.fn.code s.marked.fn.lastTarget s.fn.code.size :=
  h.ok.ends.isTarget le_rfl

theorem Gen.defineLabel_spec {name : Bytes} {line : Int} {isLast : Bool} (h : Flow s H ws) (hs : s.fn.scopes ≠ []) :
    (defineLabel name line isLast).Ensures s fun _ t => ∃ ws', Flow t H ws' ∧ Labels H s t := by
  obtain ⟨c, cs, hcs⟩ := List.exists_cons_of_ne_nil hs
  have hscopes := h.ok.fn.scopes
  rw [hcs] at hscopes
  have hc0 := hscopes.2.2.2.2.top_nonneg
  have hactive := h.ok.fn.active.1
  unfold defineLabel
  rw [ensures_bind, ensures_currentScope hcs, ensures_bind, ensures_getFn, ensures_bind,
    ensures_require (by simpa using hscopes.2.2.1)]
  split
  · exact trivial
  · have hk : Keeps H s s.marked := (Evolves.marked s h.ok.fn.target.2).keeps H
    refine (addLabel_spec h.marked hs (l := ⟨name, _, line, _⟩) ?_ h.isTarget rfl).mono ?_
    · have := hscopes.1
      split <;> exact ⟨by assumption, by first | assumption | exact le_rfl⟩
    · rintro - t ⟨ws', hf', hr⟩
      exact ⟨ws', hf', { hr with toKeeps := hk.trans hr.toKeeps }⟩

theorem Gen.markLoopEnd_spec (h : Flow s H ws) (hs : s.fn.scopes ≠ []) :
    markLoopEnd.Ensures s fun _ t => ∃ ws', Flow t H ws' ∧ Labels H s t := by
  unfold markLoopEnd
  have hk : Keeps H s s.marked := (Evolves.marked s h.ok.fn.target.2).keeps H
  refine (addLabel_spec h.marked hs (l := ⟨breakName, _, 0, _⟩) ⟨h.ok.fn.active.1, le_rfl⟩ h.isTarget rfl).mono ?_
  rintro - t ⟨ws', hf', hr⟩
  exact ⟨ws', hf', { hr with toKeeps := hk.trans hr.toKeeps }⟩

end Resolve

end RegisterCompiler
