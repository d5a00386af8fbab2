import RegisterCompiler.Proofs.Statements

/-!
# Code for conditions and their loops, side by side

* `Exits H l ps s` : the jumps of the list `l` are open;
* `TracksClauses` : the runs for the clauses of a conditional statement;
* `TracksStat.cond`, `TracksStat.while`, `TracksStat.repeat` : the statements.
-/

namespace RegisterCompiler

open Gen

/-- The list `l` is that of the jumps at `ps`, which are open, close nothing, and are not in `H`. -/
structure Exits (H : Set Nat) (l : JumpList) (ps : List Nat) (s : GenState) : Prop where
  chain : Chain s.fn.code l ps
  apart : ∀ q ∈ ps, q ∉ H
  jumps : ∀ q ∈ ps, ∃ i, s.fn.code[q]? = some i ∧ i.op? = some .jmp ∧ i.a = 0

variable {w : Runs} {s t : GenState} {H : Set Nat} {ws : List (Pending × List Nat)} {l : JumpList} {ps : List Nat}
  {x x' : Expr} {b b' : Block} {P : Operand → Prop}

section Exits
variable {s0 : GenState} {K : Set Nat} {ts fs : List Nat} {e : Operand}

theorem Exits.empty (H : Set Nat) (s : GenState) : Exits H .empty [] s :=
  ⟨.empty _, by simp, by simp⟩

theorem Exits.keeps (h : Exits H l ps s) (hk : Keeps K s t) (hK : ∀ q ∈ ps, q ∈ K) : Exits H l ps t := by
  refine ⟨hk.chain h.chain hK, h.apart, fun q hq => ?_⟩
  obtain ⟨i, hi, hop, ha⟩ := h.jumps q hq
  exact ⟨i, hk.jumps q (hK q hq) i hi (by simp [Instr.isJump, hop]), hop, ha⟩

theorem Exits.onLine (h : Exits H l ps s) (n : Int) : Exits H l ps (s.onLine n) :=
  ⟨h.chain, h.apart, h.jumps⟩

theorem Exits.isJmp (h : Exits H l ps s) : AreJumps s.fn.code ps := by
  intro q hq
  obtain ⟨i, hi, hop, -⟩ := h.jumps q hq
  exact ⟨i, hi, hop⟩

theorem Rests.branch (h : Rests s H ws) (hc : Carries s (Held H (places ws)) e.asJumps t ts fs)
    (hps : ts ++ fs = ps) (hl : Chain t.fn.code l ps) (hfree : t.fn.free = s.fn.free) :
    Rests t (Held H ps) ws ∧ Exits H l ps t ∧ Evolves s t ∧ ∀ q ∈ ps, s.fn.code.size ≤ q := by
  have hown : e.asJumps.ownJump = [] := by simp [Operand.ownJump, Operand.asJumps]
  have hok := hc.ok
  have hfresh := hc.fresh
  rw [hown, List.append_nil, hps] at hok hfresh
  refine ⟨h.hold hok hc.evolves (fun q hq => (hfresh q hq).1) hfree, ⟨hl, ?_, ?_⟩, hc.evolves,
    fun q hq => (hfresh q hq).1⟩
  · intro q hq hH
    have := h.toFlow.lt_size hH
    have := (hfresh q hq).1
    omega
  · intro q hq
    exact (hfresh q hq).2

theorem Gen.continueIfTrue_rests (h : Rests s H ws) (hy : Yields s (Held H (places ws)) e t ts fs) :
    (continueIfTrue e).Ensures t fun e' u => ∃ ps, Rests u (Held H ps) ws ∧
      Exits H e'.whenFalse ps u ∧ Evolves s u ∧ ∀ q ∈ ps, s.fn.code.size ≤ q := by
  refine (continueIfTrue_spec hy).mono ?_
  rintro e' u ⟨-, hfree, ps, hc⟩
  exact ⟨ps, h.branch hc rfl hc.whenFalse hfree⟩

theorem Gen.continueIfFalse_rests (h : Rests s H ws) (hy : Yields s (Held H (places ws)) e t ts fs) :
    (continueIfFalse e).Ensures t fun e' u => ∃ ps, Rests u (Held H ps) ws ∧
      Exits H e'.whenTrue ps u ∧ Evolves s u ∧ ∀ q ∈ ps, s.fn.code.size ≤ q := by
  refine (continueIfFalse_spec hy).mono ?_
  rintro e' u ⟨-, hfree, ps, hc⟩
  exact ⟨ps, h.branch hc (List.append_nil ps) hc.whenTrue hfree⟩

theorem Yields.asFalse (h : Yields s0 H e s ts fs) (hk : e.kind = .nil) :
    Yields s0 H { e with kind := .false } s ts fs := by
  have hplaced := h.placed
  have hok := h.ok
  have hapart := h.apart
  have hfresh := h.fresh
  simp only [Operand.Placed, Operand.Ready, Operand.ownJump, hk] at hplaced hok hapart hfresh
  exact ⟨⟨h.start, h.evolves, hok, h.whenTrue, h.whenFalse, hapart, hfresh⟩, h.base, hplaced,
    fun hp => by simp [Operand.isPlace] at hp⟩

theorem Gen.condition_spec (h : Rests s H ws) (hy : Yields s (Held H (places ws)) e t ts fs) :
    (condition e).Ensures t fun l u => ∃ ps, Rests u (Held H ps) ws ∧ Exits H l ps u ∧ Evolves s u ∧
      ∀ q ∈ ps, s.fn.code.size ≤ q := by
  have hy' : Yields s (Held H (places ws)) (if e.kind = .nil then { e with kind := .false } else e) t
      ts fs := by
    split
    next hk => exact hy.asFalse hk
    next => exact hy
  exact Ensures.bind (continueIfTrue_rests h hy') fun e' u hu => ensures_pure.2 hu

theorem Gen.aimHere_rests (h : Rests s (Held H ps) ws) (he : Exits H l ps s) :
    (aimHere l).Ensures s fun _ t => Rests t H ws ∧ Retargets H s t := by
  refine (aimHere_flow h.toFlow he.apart he.chain he.isJmp).mono ?_
  rintro - t ⟨hf, hr⟩
  exact ⟨h.retarget hf hr, hr⟩

end Exits

/-! ## Conditional statements -/

section Cond
variable {escapes exit : JumpList} {es : List Nat} {r r' : Clauses}

/-- The runs do clauses; what they add to the list are jumps to the end of the statement. -/
def TracksClauses (w : Runs) (r r' : Clauses) : Prop :=
  ∀ (s : GenState) (H : Set Nat) (ws : List (Pending × List Nat)) (hasElse : Bool) (l : JumpList)
    (es : List Nat), Rests s (Held H es) ws → Exits H l es s →
    Tracks w.stop (clauses w.named r hasElse l) (clauses w.named' r' hasElse l) s fun l' t => ∃ ws' es',
      Rests t (Held H es') ws' ∧ Exits H l' es' t ∧ Advances H s t

theorem TracksClauses.nil : TracksClauses w .nil .nil := by
  intro s H ws hasElse l es hs he
  exact tracks_pure.2 ⟨ws, es, hs, he, .refl H s⟩

theorem Gen.escape_spec (h : Rests s (Held (Held H es) ps) ws) (he : Exits H l es s)
    (hx : Exits (Held H es) exit ps s) :
    (do concat l (← jump) : Gen JumpList).Ensures s fun l' t => ∃ es',
      Rests t (Held (Held H es') ps) ws ∧ Exits H l' es' t ∧ Exits (Held H es') exit ps t ∧
      Advances H s t := by
  refine .bind (jump_rests h) ?_
  rintro j _ ⟨rfl, hs', hc, hnew, hr⟩
  set n := s.fn.code.size
  have he' : Exits H l es (s.push openJump) := he.keeps hr.toKeeps fun q hq => .inl (.inr hq)
  have hx' : Exits (Held H es) exit ps (s.push openJump) := hx.keeps hr.toKeeps fun q hq => .inr hq
  have hn : n ∉ H ∧ n ∉ es ∧ n ∉ ps :=
    ⟨fun hn => hnew (.inl (.inl hn)), fun hn => hnew (.inl (.inr hn)), fun hn => hnew (.inr hn)⟩
  have hset : Held (Held (Held H es) ps) [n] = Held (Held H ps) (es ++ [n]) := by
    rw [held_comm H es ps, held_held]
  have hset' : Held (Held H ps) (es ++ [n]) = Held (Held H (es ++ [n])) ps := held_comm ..
  rw [hset] at hs'
  have hes : ∀ q ∈ es, q ∉ Held H ps := by
    rintro q hq (hH | hps)
    · exact he.apart q hq hH
    · exact hx.apart q hps (.inr hq)
  refine (concat_flow hs'.toFlow hes he'.chain hc (by simpa using hn.2.1)).mono ?_
  rintro l' t ⟨hf, hchain, hlink, hr'⟩
  refine ⟨es ++ [n], hset' ▸ hs'.retarget hf hr', ⟨hchain, ?_, ?_⟩, ?_, ?_⟩
  · intro q hq
    rcases List.mem_append.1 hq with hq | hq
    · exact he.apart q hq
    · exact List.mem_singleton.1 hq ▸ hn.1
  · intro q hq
    rcases List.mem_append.1 hq with hq | hq
    · obtain ⟨i, hi, hop, ha⟩ := he'.jumps q hq
      rcases hlink.jump q hq i hi with hi' | ⟨v, hi'⟩
      · exact ⟨i, hi', hop, ha⟩
      · exact ⟨_, hi', by simpa using hop, by simpa using ha⟩
    · obtain rfl := List.mem_singleton.1 hq
      exact ⟨openJump, (hlink.other n hn.2.1).trans Array.getElem?_push_size, openJump_op, openJump_a⟩
  · have hx'' := hx'.keeps hr'.toKeeps fun q hq => .inr hq
    refine ⟨hx''.chain, ?_, hx''.jumps⟩
    rintro q hq (hH | hmem)
    · exact hx.apart q hq (.inl hH)
    · rcases List.mem_append.1 hmem with hmem | hmem
      · exact hx.apart q hq (.inr hmem)
      · exact hn.2.2 (List.mem_singleton.1 hmem ▸ hq)
  · have hH : H ⊆ Held (Held H es) ps := fun q hq => .inl (.inl hq)
    exact (hr.advances.mono hH).trans (hr'.advances.mono (subset_held H ps))

theorem tracks_endClause {s0 : GenState} (hasElse : Bool) {isLast isLast' : Bool} (hlast : isLast = isLast')
    (hr : TracksClauses w r r') (h : Rests s (Held (Held H es) ps) ws) (he : Exits H l es s0)
    (hx : Exits (Held H es) exit ps s) (hadv : Advances (Held H es) s0 s) :
    Tracks w.stop
      (do
        let l ← if isLast && !hasElse then pure l else concat l (← jump)
        aimHere exit
        clauses w.named r hasElse l)
      (do
        let l ← if isLast' && !hasElse then pure l else concat l (← jump)
        aimHere exit
        clauses w.named' r' hasElse l) s fun l' t => ∃ ws' es', Rests t (Held H es') ws' ∧ Exits H l' es' t ∧
          Advances H s0 t := by
  subst hlast
  have he := he.keeps hadv.toKeeps fun q hq => .inr hq
  have hadv := hadv.mono (subset_held H es)
  have hrest (t : GenState) (l' : JumpList) (es' : List Nat) (ht : Rests t (Held (Held H es') ps) ws)
      (he' : Exits H l' es' t) (hx' : Exits (Held H es') exit ps t) (hadv : Advances H s0 t) :
      Tracks w.stop (do aimHere exit; clauses w.named r hasElse l') (do aimHere exit; clauses w.named' r' hasElse l') t
        fun l'' u => ∃ ws' es'', Rests u (Held H es'') ws' ∧ Exits H l'' es'' u ∧ Advances H s0 u := by
    refine .step ((aimHere_rests ht hx').mono ?_)
    rintro - u ⟨hu, hret⟩
    refine (hr u H ws hasElse l' es' hu (he'.keeps hret.toKeeps fun q hq => .inr hq)).mono ?_
    rintro l'' v ⟨ws', es'', hv, hev, hadv'⟩
    exact ⟨ws', es'', hv, hev, (hadv.trans (hret.advances.mono (subset_held H es'))).trans hadv'⟩
  cases isLast && !hasElse with
  | true => exact hrest s l es h he hx hadv
  | false =>
    have hstep : Tracks w.stop _ _ s _ := .step (f := fun l => do aimHere exit; clauses w.named r hasElse l)
      (g := fun l => do aimHere exit; clauses w.named' r' hasElse l)
      ((escape_spec h he hx).mono fun l' t ⟨es', ht, he', hx', hadv'⟩ => hrest t l' es' ht he' hx' (hadv.trans hadv'))
    simp only [bind_assoc] at hstep
    exact hstep

/-- A clause: its block starts with a jump that its condition can take itself, or it does not. -/
theorem TracksClauses.cons {opening thenMark : Mark} {lead : Option Lead} (hc : TracksExpr w x x' P)
    (hm : TracksBlock w b b') (hr : TracksClauses w r r') (hnil : r = .nil ↔ r' = .nil) :
    TracksClauses w (.cons opening x thenMark lead b r) (.cons opening x' thenMark lead b' r') := by
  intro s H ws hasElse escapes es hs he
  refine tracks_mark fun n _ => ?_
  have hs1 := hs.onLine n
  refine (hc _ _ hs1.ok hs1.free.ge).bind ?_
  rintro e t ⟨⟨ts, fs, hy⟩, -⟩
  refine tracks_mark fun k _ => ?_
  have hy := hy.onLine k
  cases lead with
  | none =>
    refine .step ((continueIfTrue_rests hs1 hy).mono ?_)
    rintro e' u ⟨ps, hu, hx, hev, -⟩
    refine Tracks.scoped hm hu fun v ws' hw hadv _ => ?_
    refine tracks_endClause hasElse ?_ hr hw he (hx.keeps hadv.toKeeps fun q hq => .inr hq)
      ((((Evolves.onLine s n).trans hev).advances _).trans (hadv.mono (subset_held _ ps)))
    cases r <;> cases r' <;> simp_all
  | some l =>
    refine .step ((continueIfFalse_rests hs1 hy).mono ?_)
    rintro e' u ⟨ps, hu, hx, hev, -⟩
    refine .step ((ensures_enterScope hu.free).2 ?_)
    have hx' : Exits (Held H es) e'.whenTrue ps (u.entered false) := ⟨hx.chain, hx.apart, hx.jumps⟩
    refine .step ((goto_spec (hu.entered false) hx'.apart hx'.chain hx'.jumps).mono ?_)
    rintro - v ⟨ws', hw, hadv, hactive⟩
    refine tracks_mark fun k' _ => ?_
    have hw := hw.onLine k'
    have hline := (Evolves.onLine v k').advances (Held H es)
    have hent : Enters false (Held H es) u (v.onLine k') :=
      ((Enters.entered false _ u).advance hadv hactive).advance hline rfl
    have hbefore : Advances (Held H es) s u := ((Evolves.onLine s n).trans hev).advances _
    cases l.alone with
    | true =>
      -- the block is over
      refine .step (ensures_pure.2 ?_)
      refine .step (Ensures.mono (leaveEntered_spec hu.inside hent (.refl _ _) hw.toFlow hw.free.ge
        hw.declared.le ?_) ?_)
      · intro _ p hp hge
        have := hw.toFlow.lt_size hp
        omega
      · rintro - x ⟨ws'', hx, -, hadv', -⟩
        have hadv'' := hbefore.trans hadv'
        refine (hr x H ws'' hasElse escapes es hx (he.keeps hadv''.toKeeps fun q hq => .inr hq)).mono ?_
        rintro l' y ⟨ws3, es', hy, hey, hadv3⟩
        exact ⟨ws3, es', hy, hey, (hadv''.mono (subset_held H es)).trans hadv3⟩
    | false =>
      refine .step ((jump_rests hw).mono ?_)
      rintro j _ ⟨rfl, hx, hchain, hnew, hret⟩
      refine .step (ensures_pure.2 ?_)
      have hsize : u.fn.code.size ≤ v.fn.code.size := hadv.size
      have hjump : Exits (Held H es) j [v.fn.code.size] ((v.onLine k').push openJump) := by
        refine ⟨hchain, fun q hq => List.mem_singleton.1 hq ▸ hnew, fun q hq => ?_⟩
        obtain rfl := List.mem_singleton.1 hq
        exact ⟨openJump, Array.getElem?_push_size, openJump_op, openJump_a⟩
      have hafter : ∀ p ∈ [v.fn.code.size], u.fn.code.size ≤ p := by simpa using hsize
      have hent' := (hent.advance hret.advances hret.active).hold hafter
      refine tracks_entered hm hu.inside hent' hx fun y ws'' hy hkeep hadv' _ => ?_
      refine tracks_endClause hasElse ?_ hr hy he (hjump.keeps hkeep fun q hq => .inr hq)
        (hbefore.trans (hadv'.mono (subset_held _ _)))
      cases r <;> cases r' <;> simp_all

theorem TracksStat.cond {elseMark : Option Mark} {closing : Mark} (hr : TracksClauses w r r')
    (hm : TracksBlock w b b') : TracksStat w (.cond r elseMark b closing) (.cond r' elseMark b' closing) := by
  intro s H ws hs _
  refine (hr s H ws elseMark.isSome .empty [] (by rwa [held_nil]) (.empty H s)).bind ?_
  rintro l t ⟨ws', es, ht, he, hadv⟩
  have hend : ∀ (u : GenState) (ws' : List (Pending × List Nat)), Rests u (Held H es) ws' →
      Advances (Held H es) t u →
      Tracks w.stop (do mark closing; aimHere l) (do mark closing; aimHere l) u fun _ v =>
        Finished H s v := by
    intro u ws' hu hadv'
    refine tracks_mark fun n _ => ?_
    have hel := (he.keeps hadv'.toKeeps fun q hq => .inr hq).onLine n
    refine (Ensures.mono (aimHere_rests (hu.onLine n) hel) ?_).tracks
    rintro - w ⟨hw, hret⟩
    refine hw.finished ((hadv.trans (hadv'.mono (subset_held H es))).trans ?_)
    exact ((Evolves.onLine u n).advances H).trans hret.advances
  cases elseMark with
  | none => exact hend t ws' ht (.refl _ t)
  | some mk =>
    refine tracks_mark fun n _ => ?_
    refine Tracks.scoped hm (ht.onLine n) fun u ws'' hu hadv' _ => ?_
    exact hend u ws'' hu (((Evolves.onLine t n).advances _).trans hadv')

end Cond

/-! ## Loops with a condition -/

section Loops

theorem Rests.marked (h : Rests s H ws) : Rests s.marked H ws :=
  { h.toFlow.marked with inside := h.inside, free := h.free, declared := h.declared }

/-- The place of a label stays a target, and the variables that were there have started before it. -/
theorem Rests.aim (h : Rests s H ws) (hg : Grows s.marked t) (hactive : t.fn.active = s.fn.active)
    (hvars : ∀ r : Nat, (r : Int) < s.fn.active → t.fn.record? r = s.fn.record? r) :
    IsTarget t.fn.code t.fn.lastTarget s.fn.code.size ∧ t.fn.StartsBy s.fn.code.size := by
  refine ⟨hg.targets _ h.toFlow.isTarget, fun r v hr hv => ?_⟩
  rw [hactive] at hr
  rw [hvars r hr] at hv
  exact (h.lives.started r v hr hv).2

theorem TracksStat.while {opening doMark closing : Mark} (hc : TracksExpr w x x' P) (hm : TracksBlock w b b') :
    TracksStat w (.while opening x doMark b closing) (.while opening x' doMark b' closing) := by
  intro s H ws hs hin
  refine tracks_mark fun n _ => .step (ensures_marked.2 ?_)
  have hs1 := hs.onLine n
  refine (hc _ _ hs1.marked.ok hs1.free.ge).bind ?_
  rintro e t ⟨⟨ts, fs, hy⟩, -⟩
  refine .step ((condition_spec hs1.marked hy).mono ?_)
  rintro l u ⟨ps, hu, hx, hev, -⟩
  refine .step ((ensures_enterScope hu.free).2 (tracks_mark fun k _ => ?_))
  refine Tracks.scoped hm ((hu.entered true).onLine k) fun w ws' hw hadv hactive => ?_
  have hline := (Evolves.onLine (u.entered true) k).advances (Held H ps)
  have hent : Enters true (Held H ps) u w :=
    (Enters.entered true _ u).advance (hline.trans hadv) hactive
  -- the loop goes back to its condition
  obtain ⟨htarget, hstart⟩ := hs1.aim (hev.toGrows.trans hent.toGrows) (hent.active.trans hev.active)
    fun r hr => (hent.vars r (hev.active ▸ hr)).trans (hev.record? r)
  refine .step ((jumpBackTo_flow hw.toFlow htarget hstart).mono ?_)
  rintro - x ⟨hf, hret⟩
  refine tracks_mark fun i _ => ?_
  have hx1 := (hw.retarget hf hret).onLine i
  have hret' := hret.advances.trans ((Evolves.onLine x i).advances _)
  refine .step ((leaveEntered_spec hu.inside hent hret' hx1.toFlow hx1.free.ge hx1.declared.le (by simp)).mono ?_)
  rintro - y ⟨ws'', hy, -, hadv', -⟩
  refine (Ensures.mono (aimHere_rests hy (hx.keeps hadv'.toKeeps fun q hq => .inr hq)) ?_).tracks
  rintro - z ⟨hz, hret''⟩
  refine Finished.of_onLine (n := n) (hz.finished ?_)
  have hmark := Evolves.marked (s.onLine n) hs.ok.fn.target.2
  exact ((hmark.trans hev).advances H).trans ((hadv'.mono (subset_held H ps)).trans hret''.advances)

theorem tracks_closeExits {stop : Failure → Prop} {β : Type} {k k' : Unit → Gen β} {Q : β → GenState → Prop} {d : Scope} {ds : List Scope} (h : Rests s (Held H ps) ws) (hx : Exits H l ps s)
    (hds : s.fn.scopes = d :: ds)
    (hk : ∀ t, Rests t (Held H ps) ws → Retargets H s t → Chain t.fn.code l ps →
      (∀ q ∈ ps, ∃ i, t.fn.code[q]? = some i ∧ i.op? = some .jmp ∧
        (d.isCaptured → (i.a : Int) = d.active + 1)) → Tracks stop (k ()) (k' ()) t Q) :
    Tracks stop (if d.isCaptured then closeOnJump l d.active >>= k else k ())
      (if d.isCaptured then closeOnJump l d.active >>= k' else k' ()) s Q := by
  have hscopes := h.ok.fn.scopes
  have hfree := h.ok.fn.free
  have hactive := h.free
  rw [hds] at hscopes
  cases hcap : d.isCaptured with
  | false =>
    refine hk s h (.refl H s) hx.chain fun q hq => ?_
    obtain ⟨i, hi, hop, -⟩ := hx.jumps q hq
    exact ⟨i, hi, hop, by simp [hcap]⟩
  | true =>
    have hlevel : 0 ≤ d.active ∧ d.active + 1 ≤ s.fn.stack := by
      have := hscopes.2.2.2.2.top_nonneg
      have := hscopes.2.1 hcap
      omega
    refine .step ((closeOnJump_flow h.toFlow hx.apart hx.chain hx.jumps hlevel).mono ?_)
    rintro - t ⟨hf, hc, hr, hj⟩
    refine hk t (h.retarget hf hr) hr hc fun q hq => ?_
    obtain ⟨i, hi, hop, ha⟩ := hj q hq
    exact ⟨i, hi, hop, fun _ => ha⟩

theorem TracksStat.repeat {opening untilMark : Mark} (hc : TracksExpr w x x' P) (hm : TracksBlock w b b') :
    TracksStat w (.repeat opening b untilMark x) (.repeat opening b' untilMark x') := by
  intro s H ws hs hin
  refine .step (ensures_marked.2 ?_)
  have hs1 := hs.marked
  refine .step ((ensures_enterScope hs1.free).2 ?_)
  have hs2 := hs1.entered true
  refine .step ((ensures_enterScope hs2.free).2 (tracks_mark fun n _ => ?_))
  have hs3 := (hs2.entered false).onLine n
  refine (hm _ H ws hs3 ⟨_, _, rfl, rfl⟩).bind ?_
  rintro - t ⟨ws', ht, hadv⟩
  refine tracks_mark fun k _ => ?_
  have ht1 := ht.onLine k
  refine (hc _ _ ht1.ok ht1.free.ge).bind ?_
  rintro e u ⟨⟨ts, fs, hy⟩, -⟩
  refine .step ((condition_spec ht1 hy).mono ?_)
  rintro l w ⟨ps, hw, hx, hev, hps⟩
  obtain ⟨d, ds, hds⟩ := List.exists_cons_of_ne_nil hw.inside
  refine .step ((ensures_currentScope hds).2 ?_)
  refine tracks_closeExits hw hx hds fun x hx1 hret hc hj => ?_
  -- the block is closed; the jumps back to its start close its variables themselves
  have hsize : s.fn.code.size ≤ t.fn.code.size := hadv.size
  have hps' : ∀ q ∈ ps, s.fn.code.size ≤ q := fun q hq => hsize.trans (hps q hq)
  have hent : Enters false (Held H ps) (s.marked.entered true) (((s.marked.entered true).entered false).onLine n) :=
    (((Enters.entered false H _).advance ((Evolves.onLine _ n).advances H) rfl)).hold hps'
  have hadv' : Advances (Held H ps) (((s.marked.entered true).entered false).onLine n) x :=
    ((hadv.trans (((Evolves.onLine t k).trans hev).advances H)).trans hret.advances).hold hps'
  refine .step ((leaveEntered_spec hs2.inside hent hadv' hx1.toFlow hx1.free.ge hx1.declared.le ?_).mono ?_)
  · rintro - p (hp | hp) hge d' hd' hcap i hi r hr
    · have hlt := hs.toFlow.lt_size hp
      have hge : s.fn.code.size ≤ p := hge
      omega
    · obtain ⟨i', hi', hop, ha⟩ := hj p hp
      cases hi.symm.trans hi'
      rw [hret.scopes, hds] at hd'
      obtain rfl : d = d' := Option.some.inj hd'
      have hscopes := hadv'.scopes
      rw [hret.scopes, hds] at hscopes
      have hactive : d.active = s.fn.active := congrArg Scope.active (List.cons.inj hscopes).1
      have hr : s.fn.active ≤ r := hr
      have := hs.ok.fn.active.1
      have := ha hcap
      exact ⟨hop, by omega, by omega⟩
  · rintro - y ⟨ws'', hy, hkeep, hadv1, hactive⟩
    have hent' := Enters.entered true H s.marked
    obtain ⟨htarget, hstart⟩ := hs.aim (t := y) (hent'.toGrows.trans hadv1.toGrows) hactive
      fun r hr => (hadv1.vars r hr).trans (hent'.vars r hr)
    have hc' : Chain y.fn.code l ps := hkeep.chain hc fun q hq => .inr hq
    refine .step ((aimAt_flow hy.toFlow hx.apart hc' ?_ htarget hstart).mono ?_)
    · intro q hq
      obtain ⟨i, hi, hop, -⟩ := hj q hq
      exact ⟨i, hkeep.jumps q (.inr hq) i hi (by simp [Instr.isJump, hop]), hop⟩
    · rintro - z ⟨hz, hret'⟩
      have hz' := hy.retarget hz hret'
      have hadv2 := (hadv1.mono (subset_held H ps)).trans hret'.advances
      refine ((leaveEntered_spec hs1.inside hent' hadv2 hz hz'.free.ge hz'.declared.le (by simp)).mono ?_).tracks
      rintro - a ⟨ws3, ha, -, hadv3, -⟩
      exact ha.finished (((Evolves.marked s hs.ok.fn.target.2).advances H).trans hadv3)

end Loops

end RegisterCompiler
