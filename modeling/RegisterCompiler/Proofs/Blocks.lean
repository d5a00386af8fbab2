import RegisterCompiler.Proofs.Expressions

/-!
# From statement to statement

* `Rests s H ws` : the state between two statements: no registers are in use above the variables;
* `Advances H s t` : what a statement leaves as it is;
* `leaveBlock_spec` : the end of a block that was opened before.
-/

namespace RegisterCompiler

open Gen

/-- Between two statements no registers are in use above the variables, and all variables that are
declared are active. -/
structure Rests (s : GenState) (H : Set Nat) (ws : List (Pending × List Nat)) : Prop
    extends Flow s H ws where
  inside : s.fn.scopes ≠ []
  free : s.fn.free = s.fn.active
  declared : (s.fn.declared.size : Int) = s.fn.active

/-- What a statement leaves as it is: the open blocks, the variables and the jumps at `H`. -/
structure Advances (H : Set Nat) (s t : GenState) : Prop extends Keeps H s t where
  scopes : t.fn.scopes.map Scope.erase = s.fn.scopes.map Scope.erase
  active : s.fn.active ≤ t.fn.active
  vars : ∀ r : Nat, (r : Int) < s.fn.active → t.fn.record? r = s.fn.record? r

section Advances
variable {s t u : GenState} {H H' : Set Nat} {ws : List (Pending × List Nat)} {ps : List Nat}

theorem Advances.refl (H : Set Nat) (s : GenState) : Advances H s s :=
  ⟨.refl H s, rfl, le_rfl, fun _ _ => rfl⟩

/-- The innermost block is still there. -/
theorem Advances.innermost {c : Scope} {rest : List Scope} (h : Advances H s t) (hcs : s.fn.scopes = c :: rest) :
    ∃ d ds, t.fn.scopes = d :: ds ∧ d.active = c.active ∧ d.isLoop = c.isLoop ∧
      ds.map Scope.erase = rest.map Scope.erase := by
  have hscopes := h.scopes
  rw [hcs, List.map_cons] at hscopes
  obtain ⟨d, ds, hds, hd, hrest⟩ := List.map_eq_cons_iff.1 hscopes
  have hactive : d.erase.active = c.erase.active := congrArg Scope.active hd
  have hloop : d.erase.isLoop = c.erase.isLoop := congrArg Scope.isLoop hd
  exact ⟨d, ds, hds, hactive, hloop, hrest⟩

theorem Advances.trans (h : Advances H s t) (h' : Advances H t u) : Advances H s u where
  toKeeps := h.toKeeps.trans h'.toKeeps
  scopes := h'.scopes.trans h.scopes
  active := h.active.trans h'.active
  vars r hr := (h'.vars r (hr.trans_le h.active)).trans (h.vars r hr)

theorem Advances.mono (h : Advances H s t) (hsub : H' ⊆ H) : Advances H' s t :=
  { h with toKeeps := h.toKeeps.mono hsub }

theorem Keeps.hold (h : Keeps H s t) (hps : ∀ p ∈ ps, s.fn.code.size ≤ p) : Keeps (Held H ps) s t := by
  refine { h with jumps := ?_ }
  rintro p (hp | hp) i hi hj
  · exact h.jumps p hp i hi hj
  · have := lt_size_of_some hi
    have := hps p hp
    omega

theorem Advances.hold (h : Advances H s t) (hps : ∀ p ∈ ps, s.fn.code.size ≤ p) : Advances (Held H ps) s t :=
  { h with toKeeps := h.toKeeps.hold hps }

theorem Evolves.record? (h : Evolves s t) (r : Nat) : t.fn.record? r = s.fn.record? r := by
  rw [Func.record?, h.declared, h.locals]
  rfl

theorem Evolves.advances (h : Evolves s t) (H : Set Nat) : Advances H s t :=
  ⟨h.keeps H, h.scopes, h.active.ge, fun r _ => h.record? r⟩

theorem Retargets.advances (h : Retargets H s t) : Advances H s t :=
  ⟨h.toKeeps, by rw [h.scopes], h.active.ge, fun r _ => h.record? r⟩

theorem Labels.advances (h : Labels H s t) : Advances H s t := by
  refine ⟨h.toKeeps, by rw [h.scopes], h.active.ge, fun r _ => ?_⟩
  rw [Func.record?, h.declared, h.locals]
  rfl

theorem scopes_ne_nil_of_erase {cs ds : List Scope} (h : ds.map Scope.erase = cs.map Scope.erase)
    (hcs : cs ≠ []) : ds ≠ [] := by
  rintro rfl
  exact hcs (List.map_eq_nil_iff.1 h.symm)

theorem Advances.scopes_ne_nil (h : Advances H s t) (hs : s.fn.scopes ≠ []) : t.fn.scopes ≠ [] :=
  scopes_ne_nil_of_erase h.scopes hs

theorem held_comm (H : Set Nat) (ps qs : List Nat) : Held (Held H ps) qs = Held (Held H qs) ps := by
  ext p
  simp only [mem_held]
  tauto

theorem subset_held (H : Set Nat) (ps : List Nat) : H ⊆ Held H ps :=
  fun _ hp => .inl hp

/-! ## Code for expressions -/

theorem Flow.evolve (h : Flow s H ws) (hok : t.Ok (Held H (places ws))) (hev : Evolves s t) : Flow t H ws :=
  h.evolves hev hok subset_rfl fun _ hp _ => hp

theorem Flow.hold (h : Flow s H ws) (hok : t.Ok (Held (Held H (places ws)) ps)) (hev : Evolves s t)
    (hps : ∀ p ∈ ps, s.fn.code.size ≤ p) : Flow t (Held H ps) ws := by
  refine h.evolves hev (held_comm H _ _ ▸ hok) (subset_held H ps) ?_
  rintro p (hp | hp) hlt
  · exact hp
  · have := hps p hp
    omega

theorem Flow.onLine (h : Flow s H ws) (n : Int) : Flow (s.onLine n) H ws :=
  h.evolve (h.ok.onLine n) (.onLine s n)

theorem Rests.onLine (h : Rests s H ws) (n : Int) : Rests (s.onLine n) H ws :=
  { h.toFlow.onLine n with inside := h.inside, free := h.free, declared := h.declared }

theorem Rests.evolve (h : Rests s H ws) (hok : t.Ok (Held H (places ws))) (hev : Evolves s t)
    (hfree : t.fn.free = s.fn.free) : Rests t H ws :=
  { h.toFlow.evolve hok hev with
    inside := scopes_ne_nil_of_erase hev.scopes h.inside
    free := hfree.trans (h.free.trans hev.active.symm)
    declared := by rw [hev.declared, hev.active, h.declared] }

theorem Rests.hold (h : Rests s H ws) (hok : t.Ok (Held (Held H (places ws)) ps)) (hev : Evolves s t)
    (hps : ∀ p ∈ ps, s.fn.code.size ≤ p) (hfree : t.fn.free = s.fn.free) : Rests t (Held H ps) ws :=
  { h.toFlow.hold hok hev hps with
    inside := scopes_ne_nil_of_erase hev.scopes h.inside
    free := hfree.trans (h.free.trans hev.active.symm)
    declared := by rw [hev.declared, hev.active, h.declared] }

theorem Rests.retarget {ws' : List (Pending × List Nat)} (h : Rests s H ws) (hf : Flow t H' ws')
    {K : Set Nat} (hr : Retargets K s t) : Rests t H' ws' :=
  { hf with
    inside := hr.scopes ▸ h.inside
    free := hr.free.trans (h.free.trans hr.active.symm)
    declared := by rw [hr.declared, hr.active, h.declared] }

theorem Flow.lt_size (h : Flow s H ws) {p : Nat} (hp : p ∈ H) : p < s.fn.code.size :=
  h.ok.held p (.inl hp)

/-! ## Jumps -/

theorem Flow.of_waiting {K : Set Nat} (h : Flow s H ws) (hw : Waiting ∅ t H' ws) (hr : Retargets K s t)
    (hg : t.fn.gotos = s.fn.gotos) : Flow t H' ws :=
  { hw with
    gotos := hg ▸ h.gotos
    outside := by
      rw [hg, hr.scopes]
      exact h.outside
    within := by
      rw [hg, hr.active]
      exact h.within }

theorem Gen.aimHere_flow {j : JumpList} (h : Flow s (Held H ps) ws) (hps : ∀ q ∈ ps, q ∉ H)
    (hc : Chain s.fn.code j ps) (hj : AreJumps s.fn.code ps) :
    (aimHere j).Ensures s fun _ t => Flow t H ws ∧ Retargets H s t := by
  refine (aimHere_waiting h.toWaiting hps hc hj).mono ?_
  rintro - t ⟨hw, hr, hg, -⟩
  exact ⟨h.of_waiting hw hr hg, hr⟩

theorem Gen.aimAt_flow {j : JumpList} {target : Int} (h : Flow s (Held H ps) ws)
    (hps : ∀ q ∈ ps, q ∉ H) (hc : Chain s.fn.code j ps) (hj : AreJumps s.fn.code ps)
    (ht : IsTarget s.fn.code s.fn.lastTarget target) (haim : s.fn.StartsBy target) :
    (aimAt j target).Ensures s fun _ t => Flow t H ws ∧ Retargets H s t := by
  refine (aimAt_waiting h.toWaiting hps hc hj ht fun q _ i r v _ hr hv _ => .inl (haim r v hr hv)).mono ?_
  rintro - t ⟨hw, hr, hg, -⟩
  exact ⟨h.of_waiting hw hr hg, hr⟩

theorem Gen.jumpBackTo_flow {target : Int} (h : Flow s H ws) (ht : IsTarget s.fn.code s.fn.lastTarget target)
    (haim : s.fn.StartsBy target) : (jumpBackTo target).Ensures s fun _ t => Flow t H ws ∧ Retargets H s t := by
  refine .bind (jump_flow h) ?_
  rintro l _ ⟨rfl, hf, hc, hnew, hr⟩
  have hop : ∀ q ∈ [s.fn.code.size], ∃ i, (s.push openJump).fn.code[q]? = some i ∧ i.op? = some .jmp := by
    intro q hq
    obtain rfl := List.mem_singleton.1 hq
    exact ⟨openJump, Array.getElem?_push_size, openJump_op⟩
  refine (aimAt_flow hf (fun q hq => List.mem_singleton.1 hq ▸ hnew) hc hop (hr.targets _ ht) ?_).mono ?_
  · intro r v hr' hv
    exact haim r v hr' hv
  · rintro - t ⟨hf', hr'⟩
    exact ⟨hf', hr.trans hr'⟩

theorem Gen.concat_flow {l1 l2 : JumpList} {qs : List Nat} (h : Flow s (Held H (ps ++ qs)) ws)
    (hps : ∀ q ∈ ps, q ∉ H) (h1 : Chain s.fn.code l1 ps) (h2 : Chain s.fn.code l2 qs) (hd : ps.Disjoint qs) :
    (concat l1 l2).Ensures s fun l t => Flow t (Held H (ps ++ qs)) ws ∧ Chain t.fn.code l (ps ++ qs) ∧
      Relinked ps s.fn.code t.fn.code ∧ Retargets H s t := by
  have hok := h.ok
  rw [held_held, ← List.append_nil (_ ++ places ws)] at hok
  have hmem : ∀ p ∈ ps, p ∈ ps ++ qs ++ places ws ++ [] := by simp +contextual
  refine (concat_ok hok h1 h2 hd hmem).mono ?_
  rintro l _ ⟨code, rfl, hchain, hlink, hrev, hok'⟩
  rw [List.append_nil, ← held_held] at hok'
  have hgrows : Grows s (s.setCode code) :=
    { Grows.refl s with size := hrev.size.ge, targets := fun v hv => hv.revised hrev }
  have hrec : Recodes (Held (Held H (ps ++ qs)) (places ws)) (Held (Held H (ps ++ qs)) (places ws)) s.fn
      (s.setCode code).fn :=
    .relinked (T := s.fn.lastTarget) hlink hrev (fun p hp => .inl (.inr (by simp [hp])))
      fun p hp => h1.jump_of_mem hp
  have hret : ∀ K : Set Nat, (∀ q ∈ K, q ∉ ps) → Retargets K s (s.setCode code) := fun K hK =>
    ⟨⟨hgrows, fun q hq i hi _ => (hlink.other q (hK q hq)).trans hi⟩, rfl, rfl, rfl, rfl, rfl, rfl⟩
  refine ⟨h.of_waiting (h.toWaiting.frame (fun _ _ hq => hq) (hret _ ?_).toKeeps hok'
    (h.lives.recode hrec) fun l hl => ⟨hl, fun r _ => rfl⟩) (hret H fun q hq hq' => hps q hq' hq) rfl,
    hchain, hlink, hret H fun q hq hq' => hps q hq' hq⟩
  intro q hq hq'
  exact h.apart q hq (.inr (by simp [hq']))

theorem Gen.closeOnJump_flow {j : JumpList} {level : Int} (h : Flow s (Held H ps) ws)
    (hps : ∀ q ∈ ps, q ∉ H) (hc : Chain s.fn.code j ps)
    (hj : ∀ q ∈ ps, ∃ i, s.fn.code[q]? = some i ∧ i.op? = some .jmp ∧ i.a = 0)
    (hlevel : 0 ≤ level ∧ level + 1 ≤ s.fn.stack) :
    (closeOnJump j level).Ensures s fun _ t => Flow t (Held H ps) ws ∧ Chain t.fn.code j ps ∧
      Retargets H s t ∧ ∀ q ∈ ps, ∃ i, t.fn.code[q]? = some i ∧ i.op? = some .jmp ∧ (i.a : Int) = level + 1 := by
  refine (h.toWaiting.closing hps hc (fun q hq => ?_) hlevel).mono ?_
  · obtain ⟨i, hi, hop, ha⟩ := hj q hq
    exact ⟨i, hi, hop, .inl ha⟩
  · rintro - _ ⟨code, rfl, -, hw, hchain, hr, hclose⟩
    exact ⟨h.of_waiting hw hr rfl, hchain, hr, hclose⟩

end Advances

/-! ## Blocks -/

section Blocks
variable {s s1 t : GenState} {H : Set Nat} {ws : List (Pending × List Nat)} {c : Scope}
  {rest : List Scope}

/-- The innermost block `c` is closed. In `s1` it had no variables yet; the jumps at `H` were there
then, or they close the variables. -/
theorem Gen.leaveBlock_spec (h : Flow s H ws) (hcs : s1.fn.scopes = c :: rest) (hrest : rest ≠ [])
    (hactive : s1.fn.active = c.active) (hadv : Advances ∅ s1 s) (hfree : s.fn.active ≤ s.fn.free)
    (hdecl : (s.fn.declared.size : Int) ≤ s.fn.active)
    (hH : ∀ p ∈ H, s1.fn.code.size ≤ p → ∀ d, s.fn.scopes.head? = some d → d.isCaptured →
      ∀ i, s.fn.code[p]? = some i → ∀ r : Nat, c.active ≤ r → i.Closes r) :
    leaveScope.Ensures s fun _ t => ∃ ws', Rests t H ws' ∧ Keeps H s t ∧
      t.fn.scopes.map Scope.erase = rest.map Scope.erase ∧ t.fn.active = c.active ∧
      ∀ r : Nat, (r : Int) < c.active → t.fn.record? r = s.fn.record? r := by
  obtain ⟨d, ds, hds, hdactive, -, hrest'⟩ := hadv.innermost hcs
  have hdsne : ds ≠ [] := scopes_ne_nil_of_erase hrest' hrest
  refine (leaveScope_spec h hds hdsne hfree hdecl ?_).mono ?_
  · intro hcap p hp i r v hi hr hr' hv hstart
    rw [hdactive] at hr
    rcases hadv.starts r v hr' hv with hge | ⟨hlt, -⟩
    · exact hH p hp (by omega) d (by simp [hds]) hcap i hi r hr
    · omega
  · rintro - t ⟨ws', hf, hl⟩
    have htail : t.fn.scopes = ds := by
      have := hl.scopes
      rw [hds] at this
      exact (List.cons.inj this).2.symm
    have hle : d.active ≤ s.fn.active := by
      have := h.ok.fn.scopes
      rw [hds] at this
      exact this.1
    have hd0 : 0 ≤ d.active := by
      have := hf.ok.fn.active.1
      rwa [hl.active] at this
    have hdecl := h.ok.fn.active.2
    refine ⟨ws', ⟨hf, htail ▸ hdsne, ?_, ?_⟩, hl.toKeeps, htail ▸ hrest', hl.active.trans hdactive,
      fun r hr => hl.vars r (hdactive ▸ hr)⟩
    · rw [hl.free, hl.active]
    · rw [hl.declared, hl.active, Array.take_eq_extract, Array.size_extract]
      omega

theorem Rests.entered (h : Rests s H ws) (isLoop : Bool) : Rests (s.entered isLoop) H ws :=
  { h.toFlow.entered h.inside isLoop with
    inside := by simp [GenState.entered]
    free := h.free
    declared := h.declared }

/-- Since `s` a block has been opened that has no variables yet. -/
structure Enters (isLoop : Bool) (H : Set Nat) (s t : GenState) : Prop extends Keeps H s t where
  scopes : ∃ c cs, t.fn.scopes = c :: cs ∧ c.active = s.fn.active ∧ c.isLoop = isLoop ∧
    cs.map Scope.erase = s.fn.scopes.map Scope.erase
  active : t.fn.active = s.fn.active
  vars : ∀ r : Nat, (r : Int) < s.fn.active → t.fn.record? r = s.fn.record? r

theorem Enters.entered (isLoop : Bool) (H : Set Nat) (s : GenState) : Enters isLoop H s (s.entered isLoop) :=
  ⟨.entered H s isLoop, ⟨_, _, rfl, rfl, rfl, rfl⟩, rfl, fun _ _ => rfl⟩

theorem Enters.hold {isLoop : Bool} {ps : List Nat} (h : Enters isLoop H s t)
    (hps : ∀ p ∈ ps, s.fn.code.size ≤ p) : Enters isLoop (Held H ps) s t :=
  { h with toKeeps := h.toKeeps.hold hps }

theorem Enters.advance {isLoop : Bool} (h : Enters isLoop H s s1) (hadv : Advances H s1 t)
    (hactive : t.fn.active = s1.fn.active) : Enters isLoop H s t := by
  obtain ⟨c, cs, hcs, hc, hloop, hrest⟩ := h.scopes
  obtain ⟨d, ds, hds, hdactive, hdloop, hrest'⟩ := hadv.innermost hcs
  exact ⟨h.toKeeps.trans hadv.toKeeps, ⟨d, ds, hds, hdactive.trans hc, hdloop.trans hloop,
    hrest'.trans hrest⟩, hactive.trans h.active,
    fun r hr => (hadv.vars r (h.active ▸ hr)).trans (h.vars r hr)⟩

/-- The block that was opened is closed. The block of a loop never has captured variables. -/
theorem Gen.leaveEntered_spec {isLoop : Bool} (hs : s.fn.scopes ≠ []) (hent : Enters isLoop H s s1)
    (hadv : Advances H s1 t) (h : Flow t H ws) (hfree : t.fn.active ≤ t.fn.free)
    (hdecl : (t.fn.declared.size : Int) ≤ t.fn.active)
    (hH : isLoop = false → ∀ p ∈ H, s1.fn.code.size ≤ p → ∀ d, t.fn.scopes.head? = some d →
      d.isCaptured → ∀ i, t.fn.code[p]? = some i → ∀ r : Nat, s.fn.active ≤ r → i.Closes r) :
    leaveScope.Ensures t fun _ u => ∃ ws', Rests u H ws' ∧ Keeps H t u ∧ Advances H s u ∧
      u.fn.active = s.fn.active := by
  obtain ⟨c, cs, hcs, hc, hloop, hrest⟩ := hent.scopes
  have hne : cs ≠ [] := scopes_ne_nil_of_erase hrest hs
  refine (leaveBlock_spec h hcs hne (hent.active.trans hc.symm) (hadv.mono (Set.empty_subset H)) hfree
    hdecl ?_).mono ?_
  · intro p hp hge d hd hcap
    cases isLoop with
    | false =>
      rw [hc]
      exact hH rfl p hp hge d hd hcap
    | true =>
      -- only hidden variables are right in the block of a loop, so that none is captured
      obtain ⟨d', ds, hds, -, hdloop, -⟩ := hadv.innermost hcs
      obtain rfl : d' = d := by simpa [hds] using hd
      have hloops := h.ok.fn.loops
      rw [hds] at hloops
      have hfalse := (hloops.1 (hdloop.trans hloop)).1
      simp [hfalse] at hcap
  · rintro - u ⟨ws', hu, hkeep, hscopes, hactive, hvars⟩
    rw [hc] at hactive hvars
    refine ⟨ws', hu, hkeep, ⟨(hent.toKeeps.trans hadv.toKeeps).trans hkeep, hscopes.trans hrest,
      hactive.ge, fun r hr => ?_⟩, hactive⟩
    rw [hvars r hr, hadv.vars r (hent.active ▸ hr), hent.vars r hr]

end Blocks

end RegisterCompiler
