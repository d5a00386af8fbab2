import RegisterCompiler.Proofs.Branches

/-!
# Code for loops over numbers and values, side by side

Such a loop keeps its state in three hidden variables. Its code starts with a jump to its end, which
jumps back to its body.

* `Gen.closeLoop_spec` : the two jumps lead to each other;
* `tracks_loop` : the body of a loop and the code around it;
* `TracksStat.forNum`, `TracksStat.forIn` : the statements.
-/

namespace RegisterCompiler

open Gen

/-! ## The two jumps of a loop -/

section Jumps
variable {s t : GenState} {H : Set Nat} {ws : List (Pending × List Nat)} {l : JumpList} {ps : List Nat}

theorem Gen.Patched.op_ne_testSet {code code' : Array Instr} {wv wo : Int}
    (h : Patched ps wv noRegister wo code code') (hj : ∀ p ∈ ps, ∃ i, code[p]? = some i ∧ i.isJump)
    {p : Nat} {i' : Instr} (hi' : code'[p]? = some i')
    (hp : p + 1 ∈ ps ∨ ∀ i, code[p]? = some i → i.op? ≠ some .testSet) : i'.op? ≠ some .testSet := by
  obtain ⟨i, hi⟩ := exists_getElem?_of_size h.size.symm hi'
  by_cases hps : p ∈ ps
  · obtain ⟨j, hj', hjump⟩ := hj p hps
    obtain ⟨v, -, -, -, hv⟩ := h.jump p hps j hj'
    cases hi'.symm.trans hv
    exact not_testSet_of_isJump (by simpa using hjump)
  · by_cases htest : i.op? = some .testSet
    · have hp := hp.resolve_right fun hne => hne i hi htest
      rw [h.test p hp i hi htest] at hi'
      cases hi'
      rw [Instr.settle, if_neg (by simp), Instr.op?_abc]
      simp
    · rw [h.other p hps fun _ => by simpa [storesAt, hi] using htest, hi] at hi'
      exact Option.some.inj hi' ▸ htest

theorem Flow.release (h : Flow s (Held H ps) ws)
    (hcode : CodeOk s.fn.bounds s.fn.lastTarget (Held H (places ws)) s.fn.code)
    (haim : ∀ p ∈ ps, ∀ (i : Instr) (r : Nat) (v : LocalVar), s.fn.code[p]? = some i →
      (r : Int) < s.fn.active → s.fn.record? r = some v → v.startPC ≤ p →
      v.startPC ≤ i.target p ∨ i.Closes r) : Flow s H ws := by
  have hsub : Held H (places ws) ⊆ Held (Held H ps) (places ws) := fun q hq => hq.imp_left .inl
  have hrec : Recodes (Held (Held H ps) (places ws)) (Held H (places ws)) s.fn s.fn := by
    refine Recodes.of_revised (T := s.fn.lastTarget) (.refl s.fn.code) hsub (fun p i hi hj => ?_)
      fun p i hi hj => ⟨i, hi, hj⟩
    refine ⟨i, hi, fun _ hr => hr, fun hn => ?_⟩
    by_cases hp : p ∈ ps
    · exact .inr ⟨.inl (.inr hp), fun r v hr hv hle => haim p hp i r v hi hr hv hle⟩
    · refine .inl ⟨?_, rfl⟩
      rintro ((hq | hq) | hq)
      · exact hn (.inl hq)
      · exact hp hq
      · exact hn (.inr hq)
  have hok : s.Ok (Held H (places ws)) :=
    ⟨⟨{ h.ok.fn with code := hcode }, h.ok.inner, h.ok.outer, h.ok.env⟩, h.ok.ends,
      fun p hp => h.ok.held p (hsub hp)⟩
  exact h.of_waiting (h.toWaiting.frame (fun q _ hq => .inl hq) (.refl _ s) hok (h.lives.recode hrec)
    fun l hl => ⟨hl, fun _ _ => rfl⟩) (.refl ∅ s) rfl

theorem Gen.aimHere_held (h : Flow s (Held H ps) ws) (hps : ∀ q ∈ ps, q ∉ H) (hc : Chain s.fn.code l ps) :
    (aimHere l).Ensures s fun _ t => ∃ code, t = s.marked.setCode code ∧ Flow t (Held H ps) ws ∧
      Retargets H s t ∧ Patched ps s.fn.code.size noRegister s.fn.code.size s.fn.code code := by
  refine (aimHere_spec hc h.ok.fn.pending).mono ?_
  rintro - _ ⟨code, rfl, hpat⟩
  have hj : ∀ q ∈ ps, ∃ i, s.fn.code[q]? = some i ∧ i.isJump := fun q hq => hc.jump_of_mem hq
  obtain ⟨hcode, hrev⟩ := h.ok.marked.fn.code.patched h.ok.fn.stack.2 hpat
    (fun q hq => .inl (.inr hq)) hj (.inr rfl)
  obtain ⟨hw, hr⟩ := h.toWaiting.patched (K := H) (fun q hq => .inr hq) (fun q hq hq' => hps q hq' hq)
    subset_rfl (fun q hq _ => hq) hj (.inr rfl) hpat hrev
    (fun q _ i r v _ hr hv _ => .inl (h.lives.started r v hr hv).2)
    (h.ok.marked.setCode hrev hcode h.ok.held)
  exact ⟨code, rfl, h.of_waiting hw hr rfl, hr, hpat⟩

theorem Gen.aimAt_held {target : Int} (h : Flow s (Held H ps) ws) (hps : ∀ q ∈ ps, q ∉ H)
    (hc : Chain s.fn.code l ps) (ht : 0 ≤ target ∧ target < s.fn.code.size) (haim : s.fn.StartsBy target) :
    (aimAt l target).Ensures s fun _ t => ∃ code, t = s.setCode code ∧ Flow t (Held H ps) ws ∧
      Retargets H s t ∧ Revised s.fn.code code ∧ Patched ps target noRegister target s.fn.code code := by
  refine (aimAt_spec hc h.ok.fn.pending ht.1 ht.2.le).mono ?_
  rintro - _ ⟨code, rfl, hpat⟩
  rw [if_neg ht.2.ne]
  have hj : ∀ q ∈ ps, ∃ i, s.fn.code[q]? = some i ∧ i.isJump := fun q hq => hc.jump_of_mem hq
  obtain ⟨hcode, hrev⟩ := h.ok.fn.code.patched h.ok.fn.stack.2 hpat (fun q hq => .inl (.inr hq)) hj
    (.inr rfl)
  obtain ⟨hw, hr⟩ := h.toWaiting.patched (K := H) (fun q hq => .inr hq) (fun q hq hq' => hps q hq' hq)
    subset_rfl (fun q hq _ => hq) hj (.inl rfl) hpat hrev (fun q _ i r v _ hr hv _ => .inl (haim r v hr hv))
    (h.ok.setCode hrev hcode h.ok.held)
  exact ⟨code, rfl, h.of_waiting hw hr rfl, hr, hrev, hpat⟩

/-- The jump at `q`, the end of a loop, leads back to right after the one at `p`, its start, which has
its target. -/
theorem Gen.closeLoop_spec {p q : Nat} {i j : Instr} (h : Flow s (Held (Held H [p]) [q]) ws)
    (hH : p ∉ H ∧ q ∉ H) (hpq : p < q) (hi : s.fn.code[p]? = some i) (hij : i.isJump)
    (hj : s.fn.code[q]? = some j) (hjj : j.isJump) (hsbx : j.sbx = noJump)
    (hprep : j.op? ≠ some .forPrep) (ht : IsTarget s.fn.code s.fn.lastTarget (i.target p))
    (hlast : (p : Int) + 1 ≤ s.fn.lastTarget)
    (hloop : i.op? = some .forPrep → i.target p = q ∧ j.op? = some .forLoop ∧ j.a = i.a)
    (htest : ∀ k d, k + 1 = p ∨ k + 1 = q → s.fn.code[k]? = some d → d.op? ≠ some .testSet)
    (hstart : ∀ (r : Nat) (v : LocalVar), (r : Int) < s.fn.active → s.fn.record? r = some v →
      v.startPC ≤ p + 1 ∧ v.startPC ≤ i.target p) :
    (aimAt (.ofHead q) (p + 1)).Ensures s fun _ t => Flow t H ws ∧ Retargets H s t ∧
      t.fn.code.size = s.fn.code.size := by
  have hqs := lt_size_of_some hj
  have hne : p ≠ q := hpq.ne
  have hq : ∀ x ∈ [q], x ∉ Held H [p] := by simp [hH.2, hne.symm]
  refine (aimAt_held h hq (.single hj hjj hsbx) (by omega) fun r v hr hv => (hstart r v hr hv).1).mono ?_
  rintro - _ ⟨code, rfl, hf, hr, hrev, hpat⟩
  have hjump : ∀ x ∈ [q], ∃ i, s.fn.code[x]? = some i ∧ i.isJump := by
    intro x hx
    exact List.mem_singleton.1 hx ▸ ⟨j, hj, hjj⟩
  have hi' : code[p]? = some i := hr.jumps p (by simp) i hi hij
  obtain ⟨v, hv1, hv2, hv, hj'⟩ := hpat.jump q (by simp) j hj
  rw [ite_self] at hv
  have htarget : (j.setSBx v).target q = p + 1 := by
    rw [Instr.target, Instr.sbx_setSBx _ ⟨hv1, hv2⟩, hv]
  have hback : IsTarget code s.fn.lastTarget ((p : Int) + 1) := by
    refine ⟨by omega, hlast, fun k d hk hd => ?_⟩
    obtain rfl : k = p := by omega
    cases hd.symm.trans hi'
    rintro ⟨op, hop, -⟩
    simp [next?_of_isJump hij] at hop
  have hset : Held (Held H [p]) [q] = Held H [p, q] := held_held ..
  rw [hset] at hf
  have hnew : ∀ x, x ∈ Held (Held H [p, q]) (places ws) → x ∉ Held H (places ws) → x = p ∨ x = q := by
    rintro x ((hx | hx) | hx) hn
    · exact absurd (.inl hx) hn
    · simpa using hx
    · exact absurd (.inr hx) hn
  have hnq : q ∉ Held H (places ws) := by
    rintro (hx | hx)
    · exact hH.2 hx
    · exact hf.apart q hx (.inr (by simp))
  refine ⟨hf.release (hf.ok.fn.code.release ?_ ?_ ?_ fun x hx => hx.imp_left .inl) ?_,
    { hr with toKeeps := hr.toKeeps.mono (subset_held H [p]) }, hrev.size⟩
  · intro x hx hn d hd _
    rcases hnew x hx hn with rfl | rfl
    · cases hd.symm.trans hi'
      exact ht.revised hrev
    · cases hd.symm.trans hj'
      rw [htarget]
      exact hback
  · intro k hx hn d hd
    refine hf.ok.fn.code.fits_of_not_testSet hd (hpat.op_ne_testSet hjump hd (.inr fun d' hd' => ?_))
    exact htest k d' (hnew _ hx hn) hd'
  · intro x hx hn d hd hop
    rcases hnew x hx hn with rfl | rfl
    · cases hd.symm.trans hi'
      obtain ⟨h1, h2, h3⟩ := hloop hop
      exact ⟨q, hnq, h1, _, hj', by simpa using h2, by simpa using h3, htarget⟩
    · cases hd.symm.trans hj'
      exact absurd (by simpa using hop) hprep
  · intro x hx d r v hd hr' hv _
    have hstart := hstart r v hr' hv
    rcases List.mem_cons.1 hx with rfl | hx
    · cases hd.symm.trans hi'
      exact .inl hstart.2
    · obtain rfl := List.mem_singleton.1 hx
      cases hd.symm.trans hj'
      rw [htarget]
      exact .inl hstart.1

end Jumps

/-! ## The start and the end of a loop -/

/-- The jump that a loop starts with; its registers start at `base`. -/
def Gen.ForLoop.prep (base : Int) : ForLoop → Instr
  | .counting => .asbx Opcode.forPrep.code base noJump
  | .over => openJump

theorem Instr.asbx_noJump (op : Opcode) {a : Int} (ha : 0 ≤ a ∧ a ≤ maxA) :
    (asbx op.code a noJump).op? = some op ∧ ((asbx op.code a noJump).a : Int) = a ∧
      (asbx op.code a noJump).sbx = noJump := by
  have hbx : 0 ≤ noJump + maxSBx ∧ noJump + maxSBx ≤ maxBx := by decide
  obtain ⟨hop, ha, hbx⟩ := abx_fields op ha hbx
  refine ⟨hop, ha, ?_⟩
  rw [sbx, asbx, hbx]
  decide

section Start
variable {s u : GenState} {H : Set Nat} {ws : List (Pending × List Nat)} {kind : ForLoop}
  {base vars : Int}

theorem Gen.ForLoop.prep_isJump (kind : ForLoop) (base : Int) : (kind.prep base).isJump := by
  cases kind with
  | counting => simp [ForLoop.prep, Instr.isJump, Instr.asbx, Instr.op?_abx]
  | «over» => exact openJump_isJump

theorem Gen.ForLoop.prep_sbx (kind : ForLoop) (hbase : 0 ≤ base ∧ base ≤ maxA) : (kind.prep base).sbx = noJump := by
  cases kind with
  | counting => exact (Instr.asbx_noJump .forPrep hbase).2.2
  | «over» => exact openJump_sbx

theorem Gen.ForLoop.prep_fits (kind : ForLoop) {B : Bounds} (hbase : 0 ≤ base ∧ base + 3 < B.stack)
    (hB : B.stack ≤ 249) : (kind.prep base).Fits B := by
  cases kind with
  | counting =>
    obtain ⟨hop, ha, -⟩ := Instr.asbx_noJump .forPrep (a := base) (by simp only [maxA]; omega)
    simp only [ForLoop.prep, Instr.Fits, hop, ha]
    omega
  | «over» =>
    simp only [ForLoop.prep, Instr.Fits, openJump_op, openJump_a]
    omega

/-- Before the body of a loop: `a` is the state after its first jump, and `b` the state with the
variables of the loop. -/
structure LoopStarts (H : Set Nat) (ws : List (Pending × List Nat)) (i : Instr) (vars : Int)
    (u a b : GenState) : Prop where
  evolves : Evolves u a
  size : a.fn.code.size = u.fn.code.size + 1
  prep : a.fn.code[u.fn.code.size]? = some i
  fresh : u.fn.code.size ∉ H
  room : a.fn.active < a.fn.stack
  active : b.fn.active = a.fn.active + vars
  advances : Advances (Held H [u.fn.code.size]) (a.entered false) b
  rests : Rests b (Held H [u.fn.code.size]) ws

theorem Evolves.pushOpen (s : GenState) {i : Instr} (h : s.fn.lastTarget ≤ s.fn.code.size)
    (hj : i.isJump) (hsbx : i.sbx = noJump) : Evolves s (s.push i) := by
  refine .push s i h (fun _ => ?_) fun hop => ?_
  · simp only [Instr.target, hsbx, noJump]
    omega
  · simp [Instr.isJump, hop] at hj

theorem Gen.startLoop_spec (h : Flow u H ws) (hs : u.fn.scopes ≠ []) (hfree : u.fn.free = u.fn.active)
    (hdecl : (u.fn.declared.size : Int) = u.fn.active + vars) (hvars : 1 ≤ vars)
    (hbase : 0 ≤ base ∧ base + 3 = u.fn.active) :
    (startLoop kind base vars).Ensures u fun l t => l = .ofHead u.fn.code.size ∧
      ∃ a b, LoopStarts H ws (kind.prep base) vars u a b ∧ t = b.entered false := by
  have hstack := h.ok.fn.stack
  have hopen := h.ok.fn.isOpen
  have hactive := h.ok.fn.active
  -- what comes after the first jump
  have hrest : ∀ l : JumpList, l = .ofHead u.fn.code.size → (do
      enterScope false
      activate vars
      reserve vars
      enterScope false
      return l : Gen JumpList).Ensures (u.push (kind.prep base)) fun l t => l = .ofHead u.fn.code.size ∧
        ∃ a b, LoopStarts H ws (kind.prep base) vars u a b ∧ t = b.entered false := by
    rintro _ rfl
    rw [ensures_bind, ensures_enterScope (by exact hfree), ensures_bind]
    refine Ensures.mono (activate_locals (s := (u.push (kind.prep base)).entered false) h.lives.nodup
      (by omega) hactive.1 hdecl.ge) ?_
    rintro - _ ⟨locals, hsize, hup, rfl⟩
    rw [ensures_bind, ensures_reserve (by exact hstack.2)]
    intro hroom
    rw [ensures_bind, ensures_enterScope ?_, ensures_pure]
    · -- the room for the variables could have been made before the jump, which needs it
      have hbase' : 0 ≤ base ∧ base + 3 < (u.withRoom (u.fn.free + vars)).fn.bounds.stack :=
        ⟨hbase.1, lt_of_lt_of_le (by omega) (le_max_right u.fn.stack (u.fn.free + vars))⟩
      have hB : (u.withRoom (u.fn.free + vars)).fn.bounds.stack ≤ 249 := max_le hstack.2 hroom
      have hok := h.ok.withRoom hroom
      have hev := Evolves.withRoom u (u.fn.free + vars)
      have hsbx : (kind.prep base).sbx = noJump :=
        kind.prep_sbx ⟨hbase.1, by simp only [maxA]; omega⟩
      obtain ⟨ha, -, hfresh, -⟩ := (h.evolve hok hev).pushJump (kind.prep_fits hbase' hB)
        (kind.prep_isJump base) hsbx
      have hent := ha.entered hs false
      have hact := hent.activate rfl (by omega) hdecl.ge (by simp) hsize hup
      have hbounds : 0 ≤ u.fn.free + vars ∧ u.fn.free + vars ≤ max u.fn.stack (u.fn.free + vars) :=
        ⟨by omega, le_max_right ..⟩
      have hfin := hact.evolve (hact.ok.withFree hbounds) (.withFree _ _)
      refine ⟨rfl, (u.withRoom (u.fn.free + vars)).push (kind.prep base), _, ⟨?_, ?_, ?_, hfresh, ?_, rfl, ?_,
        ⟨hfin, ?_, ?_, ?_⟩⟩, rfl⟩
      · exact hev.trans (.pushOpen _ hok.fn.target.2 (kind.prep_isJump base) hsbx)
      · exact Array.size_push ..
      · exact Array.getElem?_push_size
      · show u.fn.active < max u.fn.stack (u.fn.free + vars)
        omega
      · exact (hup.advances hent (by omega)).trans ((Evolves.withFree _ _).advances _)
      · exact List.cons_ne_nil _ _
      · show u.fn.free + vars = u.fn.active + vars
        omega
      · exact hdecl
    · show u.fn.free + vars = u.fn.active + vars
      omega
  cases kind with
  | counting => exact ensures_bind.2 ((ensures_emitAsBx hopen rfl).2 (hrest _ rfl))
  | «over» => exact ensures_bind.2 ((ensures_jump hopen).2 (hrest _ rfl))

end Start

section End
variable {s t : GenState} {H : Set Nat} {ws : List (Pending × List Nat)} {kind : ForLoop}
  {base vars line : Int} {i j : Instr}

theorem GenState.Ok.pushIterator (h : s.Ok H) (hi : i.op? = some .tForCall) (hj : j.op? = some .tForLoop)
    (hfit : i.Fits s.fn.bounds ∧ j.Fits s.fn.bounds) (line : Int) :
    (((s.push i).withLastLine line).push j).Ok (Held H [s.fn.code.size + 1]) := by
  have hnext : i.next? = some .tForLoop := by
    simp [Instr.next?, Instr.isTest, Instr.takesExtra, hi, Opcode.isTest, Opcode.info]
  have hjump : i.isJump = false := by simp [Instr.isJump, hi]
  have hv : s.Valid (Held H [s.fn.code.size + 1]) := h.hold (fun p hp => .inl hp) fun p hp =>
    hp.imp_right fun hp => (List.mem_singleton.1 hp).ge.trans' (Nat.le_succ _)
  have hpush := hv.push (i := i) (fun k hk => .of_none (h.ends k hk) (by simp [hi])) (fun _ => by simp [hi])
    (.inl hfit.1) fun hj => absurd hj (by simp [hjump])
  have hlast : ((s.push i).withLastLine line).Valid (Held H [s.fn.code.size + 1]) :=
    ⟨{ hpush.fn with lines := by simp [GenState.withLastLine, hpush.fn.lines] }, hpush.inner,
      hpush.outer, hpush.env.congr rfl⟩
  have hsize : ((s.push i).withLastLine line).fn.code.size = s.fn.code.size + 1 := Array.size_push ..
  refine ⟨hlast.push (fun k hk => ?_) (fun h0 => ?_) (.inl hfit.2) fun _ => ?_, sealed_push ?_, ?_⟩
  · obtain rfl : i = k := by simpa [GenState.push, GenState.withLastLine] using hk
    refine ⟨fun op hop => ?_, fun hop => ?_, fun hop => ?_⟩
    · rw [hnext] at hop
      rw [hj, hop]
    · simp [hj] at hop
    · simp [hi] at hop
  · omega
  · simp [hsize]
  · exact next?_of_isJump (by simp [Instr.isJump, hj])
  · intro p hp
    have hsize' : (((s.push i).withLastLine line).push j).fn.code.size =
        ((s.push i).withLastLine line).fn.code.size + 1 := Array.size_push ..
    rcases hp with hp | hp
    · have := h.held p hp
      omega
    · rw [List.mem_singleton.1 hp]
      omega

/-- The jump `j` at `q`, back to the body of a loop, has just been added; it is open. -/
structure LoopBack (H : Set Nat) (ws : List (Pending × List Nat)) (s t : GenState) (q : Nat) (j : Instr) :
    Prop where
  flow : Flow t (Held H [q]) ws
  evolves : Evolves s t
  fresh : q ∉ H
  le : s.fn.code.size ≤ q
  get : t.fn.code[q]? = some j
  free : t.fn.free = s.fn.free
  isJump : j.isJump
  sbx : j.sbx = noJump
  notPrep : j.op? ≠ some .forPrep
  before : ∀ k d, k + 1 = q → t.fn.code[k]? = some d → d.op? ≠ some .testSet

/-- The instructions at the end of a loop; the result is the place of the jump back to its body. -/
def Gen.ForLoop.back (base vars line : Int) : ForLoop → Gen Int
  | .counting => emitAsBx .forLoop base noJump
  | .over => do
    let _ ← emitABC .tForCall base 0 vars
    moveLastToLine line
    emitAsBx .tForLoop (base + 2) noJump

theorem Gen.loopBack_spec (h : Flow s H ws) (hbase : 0 ≤ base ∧ base + 3 < s.fn.stack)
    (hover : kind = .over → 0 ≤ vars ∧ base + 2 + vars < s.fn.stack ∧ base + 5 < s.fn.stack) :
    (kind.back base vars line).Ensures s fun n t => ∃ (q : Nat) (j : Instr), n = q ∧ LoopBack H ws s t q j ∧
      (kind = .counting → q = s.fn.code.size ∧ j.op? = some .forLoop ∧ (j.a : Int) = base) := by
  have hopen := h.ok.fn.isOpen
  have hstack := h.ok.fn.stack
  cases kind with
  | counting =>
    obtain ⟨hop, ha, hsbx⟩ := Instr.asbx_noJump .forLoop (a := base) (by simp only [maxA]; omega)
    have hjump : (Instr.asbx Opcode.forLoop.code base noJump).isJump := by simp [Instr.isJump, hop]
    have hfit : (Instr.asbx Opcode.forLoop.code base noJump).Fits s.fn.bounds := by
      simp only [Instr.Fits, hop, Func.bounds, ha]
      exact hbase.2
    obtain ⟨hf, -, hfresh, -⟩ := h.pushJump hfit hjump hsbx
    refine (ensures_emitAsBx hopen rfl).2 ⟨s.fn.code.size, _, rfl, ⟨hf, ?_, hfresh, le_rfl,
      Array.getElem?_push_size, rfl, hjump, hsbx, by simp [hop], fun k d hk hd => ?_⟩, fun _ => ⟨rfl, hop, ha⟩⟩
    · exact .pushOpen _ h.ok.fn.target.2 hjump hsbx
    · rw [show (s.push _).fn.code[k]? = _ from getElem?_push_of_lt (by omega) _] at hd
      have hseal := h.ok.ends d (by rw [Array.back?_eq_getElem?, ← hk]; exact hd)
      intro hts
      simp [Instr.next?, Instr.isTest, hts, Opcode.isTest, Opcode.info] at hseal
  | «over» =>
    obtain ⟨hvars, hlast, hroom⟩ := hover rfl
    obtain ⟨hop, ha, -, hc⟩ := Instr.abc_fields .tForCall (a := base) (b := 0) (c := vars)
      (by simp only [maxA]; omega) (by decide) (by simp only [maxC]; omega)
    obtain ⟨hop', ha', hsbx⟩ := Instr.asbx_noJump .tForLoop (a := base + 2) (by simp only [maxA]; omega)
    set i := Instr.abc Opcode.tForCall.code base 0 vars
    set j := Instr.asbx Opcode.tForLoop.code (base + 2) noJump
    have hjump : j.isJump := by simp [Instr.isJump, hop']
    have hfit : i.Fits s.fn.bounds ∧ j.Fits s.fn.bounds := by
      simp only [Instr.Fits, hop, hop', Func.bounds]
      omega
    have hok := h.ok.pushIterator hop hop' hfit line
    have hev : Evolves s (((s.push i).withLastLine line).push j) := by
      have hcall : Evolves s (s.push i) :=
        .push s i h.ok.fn.target.2 (by simp [Instr.isJump, hop]) (by simp [hop])
      have hline := Evolves.withLastLine (s.push i) line
      refine (hcall.trans hline).trans (.pushOpen _ ?_ hjump hsbx)
      have := h.ok.fn.target.2
      show s.fn.lastTarget ≤ ((s.fn.code.push i).size : Int)
      rw [Array.size_push]
      omega
    have hfresh : s.fn.code.size + 1 ∉ H := fun hn => by
      have := h.lt_size hn
      omega
    have hsize : ((s.push i).withLastLine line).fn.code.size = s.fn.code.size + 1 := Array.size_push ..
    rw [ForLoop.back, ensures_bind, ensures_emitABC hopen rfl (.inr rfl) (.inl (by decide))
      (by simp only [maxA, maxB, maxC]; omega), ensures_bind,
      ensures_moveLastToLine (by simp [GenState.push]), ensures_emitAsBx (by exact hopen) rfl]
    refine ⟨s.fn.code.size + 1, j, by rw [hsize], ⟨h.hold hok hev (by simp), hev, hfresh, by omega, ?_, rfl,
      hjump, hsbx, by simp [hop'], fun k d hk hd => ?_⟩, by simp⟩
    · rw [← hsize]
      exact Array.getElem?_push_size
    · obtain rfl : k = s.fn.code.size := by omega
      have hget : (((s.push i).withLastLine line).push j).fn.code[s.fn.code.size]? = some i :=
        (getElem?_push_of_lt (by omega) j).trans Array.getElem?_push_size
      rw [← Option.some.inj (hget.symm.trans hd), hop]
      simp

def Gen.closeBody (kind : ForLoop) (base vars line : Int) (prep : JumpList) : Gen Unit := do
  aimHere prep
  let back ← kind.back base vars line
  aimAt (.ofHead back) ((← listHead prep) + 1)
  moveLastToLine line

/-- The jump at `p`, the start of the loop, leads to the end, and the jump that is added there leads
back. -/
theorem Gen.closeBody_spec {p : Nat} (h : Rests s (Held H [p]) ws) (hp : p ∉ H)
    (hi : s.fn.code[p]? = some (kind.prep base)) (hbase : 0 ≤ base ∧ base + 3 < s.fn.stack)
    (hover : kind = .over → 0 ≤ vars ∧ base + 2 + vars < s.fn.stack ∧ base + 5 < s.fn.stack)
    (hstart : s.fn.StartsBy p) : (closeBody kind base vars line (.ofHead p)).Ensures s fun _ t =>
      Rests t H ws ∧ Advances H s t := by
  have hstack := h.ok.fn.stack
  have hps := lt_size_of_some hi
  have hjump := kind.prep_isJump base
  have hsbx : (kind.prep base).sbx = noJump := kind.prep_sbx ⟨hbase.1, by simp only [maxA]; omega⟩
  have hchain : Chain s.fn.code (.ofHead p) [p] := .single hi hjump hsbx
  refine .bind (aimHere_held h.toFlow (by simpa using hp) hchain) ?_
  rintro - t ⟨code, rfl, hf, hr, hpat⟩
  have hsize : code.size = s.fn.code.size := hpat.size
  obtain ⟨v, hv1, hv2, hv, hi'⟩ := hpat.jump p (by simp) _ hi
  rw [ite_self] at hv
  have htarget : ((kind.prep base).setSBx v).target p = s.fn.code.size := by
    rw [Instr.target, Instr.sbx_setSBx _ ⟨hv1, hv2⟩, hv]
  refine .bind (loopBack_spec hf hbase hover) ?_
  rintro _ t ⟨q, j, rfl, hback, hcount⟩
  rw [ensures_bind, show listHead (.ofHead p) = pure (p : Int) from rfl, ensures_pure]
  have hrests := h.retarget hf hr
  have hle : s.fn.code.size ≤ q := hsize ▸ hback.le
  have hget : t.fn.code[p]? = some ((kind.prep base).setSBx v) :=
    hback.evolves.kept.jump (show p < code.size by omega) hi' (by simpa using hjump)
  have hrecord : ∀ r : Nat, t.fn.record? r = s.fn.record? r := fun r =>
    (hback.evolves.record? r).trans (hr.record? r)
  have hactive : t.fn.active = s.fn.active := hback.evolves.active.trans hr.active
  refine .bind (closeLoop_spec hback.flow ⟨hp, fun hq => hback.fresh (.inl hq)⟩ (by omega) hget
    (by simpa using hjump) hback.get hback.isJump hback.sbx hback.notPrep ?_ ?_ ?_ ?_ ?_) ?_
  · rw [htarget, ← hsize]
    exact hback.evolves.targets _ (hf.ok.ends.isTarget (by show (code.size : Int) ≤ s.fn.code.size; omega))
  · have : (s.fn.code.size : Int) ≤ t.fn.lastTarget := hback.evolves.target
    omega
  · intro hop
    cases kind with
    | counting =>
      obtain ⟨hq, hop', ha⟩ := hcount rfl
      have ha' := (Instr.asbx_noJump .forPrep (a := base) (by simp only [maxA]; omega)).2.1
      refine ⟨by rw [htarget, hq, ← hsize], hop', ?_⟩
      rw [Instr.a_setSBx]
      exact Int.ofNat.inj (ha.trans ha'.symm)
    | «over» => simp [ForLoop.prep] at hop
  · rintro k d (hk | hk) hd
    · -- the test before the first jump, if there is one, stores nothing any more
      have hlt : k < code.size := by omega
      have hne := hpat.op_ne_testSet (fun x hx => List.mem_singleton.1 hx ▸ ⟨_, hi, hjump⟩)
        (Array.getElem?_eq_getElem hlt) (.inl (by simp [hk]))
      rcases hback.evolves.kept k _ hlt (Array.getElem?_eq_getElem hlt) with hd' | ⟨-, -, d', hd', hop⟩
      · exact Option.some.inj (hd'.symm.trans hd) ▸ hne
      · rw [← Option.some.inj (hd'.symm.trans hd), hop]
        simp
    · exact hback.before k d hk hd
  · intro r v' hr' hv'
    rw [hactive] at hr'
    rw [hrecord] at hv'
    have := hstart r v' hr' hv'
    omega
  · rintro - u ⟨hu, hret, husize⟩
    have hqs := lt_size_of_some hback.get
    have hlines := hu.ok.fn.lines
    rw [ensures_moveLastToLine (by omega)]
    have hback' : Rests t (Held (Held H [p]) [q]) ws :=
      { hback.flow with
        inside := scopes_ne_nil_of_erase hback.evolves.scopes hrests.inside
        free := hback.free.trans (hrests.free.trans hback.evolves.active.symm)
        declared := by rw [hback.evolves.declared, hback.evolves.active, hrests.declared] }
    have hline := Evolves.withLastLine u line
    refine ⟨(hback'.retarget hu hret).evolve (hu.ok.withLastLine line) hline rfl, ?_⟩
    exact ((hr.advances.trans (hback.evolves.advances H)).trans hret.advances).trans (hline.advances H)

theorem Gen.endLoop_eq (prep : JumpList) : endLoop kind base vars line prep = (do
    leaveScope
    leaveScope
    closeBody kind base vars line prep) := by
  cases kind <;> simp [endLoop, closeBody, ForLoop.back, bind_assoc]

/-- The code of a loop from its first jump on; `u` is the state before it, and the registers of the
loop start at `base`. -/
theorem tracks_loop {w : Runs} {b b' : Block} {u : GenState} {closing : Mark}
    {ws' : List (Pending × List Nat)} (hm : TracksBlock w b b') (hs : Rests s H ws)
    (hu : Flow u H ws') (hadv : Advances H (s.entered true) u) (hactive : u.fn.active = base + 3)
    (hbase : 0 ≤ base) (hfree : u.fn.free = u.fn.active)
    (hdecl : (u.fn.declared.size : Int) = u.fn.active + vars) (hvars : 1 ≤ vars)
    (hroom : kind = .over → u.fn.active + 3 ≤ u.fn.stack) :
    Tracks w.stop
      (do
        let prep ← startLoop kind base vars
        block w.named b
        endLoop kind base vars line prep
        mark closing
        leaveScope)
      (do
        let prep ← startLoop kind base vars
        block w.named' b'
        endLoop kind base vars line prep
        mark closing
        leaveScope) u fun _ t => Finished H s t := by
  have hscopes : u.fn.scopes ≠ [] := hadv.scopes_ne_nil (List.cons_ne_nil _ _)
  refine .step ((startLoop_spec hu hscopes hfree hdecl hvars ⟨hbase, hactive.symm⟩).mono ?_)
  rintro _ _ ⟨rfl, a, b, hst, rfl⟩
  simp only [endLoop_eq, bind_assoc]
  refine tracks_entered hm hst.rests.inside (.entered false _ b) (hst.rests.entered false)
    fun t ws1 ht _ hadv1 hactive1 => ?_
  have haactive : a.fn.active = base + 3 := hst.evolves.active.trans hactive
  have hascopes : a.fn.scopes ≠ [] := scopes_ne_nil_of_erase hst.evolves.scopes hscopes
  refine .step ((leaveEntered_spec hascopes (.entered false _ a) (hst.advances.trans hadv1) ht.toFlow
    ht.free.ge ht.declared.le ?_).mono ?_)
  · rintro - p hp hge
    have hge : a.fn.code.size ≤ p := hge
    have hsize := hst.size
    rcases hp with hp | hp
    · have := hu.lt_size hp
      omega
    · have := List.mem_singleton.1 hp
      omega
  · rintro - x ⟨ws2, hx, hkeep, hadv2, hactive2⟩
    have hget : x.fn.code[u.fn.code.size]? = some (kind.prep base) :=
      hadv2.jumps _ (.inr (by simp)) _ hst.prep (kind.prep_isJump base)
    have hstack : a.fn.stack ≤ x.fn.stack := hadv2.bounds.stack
    have hvarsRoom : base + 3 + vars ≤ x.fn.stack := by
      have h1 : b.fn.stack ≤ t.fn.stack := hadv1.bounds.stack
      have h2 : t.fn.stack ≤ x.fn.stack := hkeep.bounds.stack
      have h3 := hst.rests.ok.fn.free.2
      rw [hst.rests.free, hst.active, haactive] at h3
      omega
    refine .step ((closeBody_spec hx hst.fresh hget ⟨hbase, by have := hst.room; omega⟩ ?_ ?_).mono ?_)
    · intro hkind
      have h1 : u.fn.stack ≤ a.fn.stack := hst.evolves.bounds.stack
      have := hroom hkind
      omega
    · intro r v hr hv
      rw [hactive2] at hr
      rw [hadv2.vars r hr, hst.evolves.record? r] at hv
      exact (hu.lives.started r v (hst.evolves.active ▸ hr) hv).2
    · rintro - y ⟨hy, hadv3⟩
      refine tracks_mark fun n _ => ?_
      have hall : Advances H (s.entered true) (y.onLine n) :=
        (((hadv.trans (hst.evolves.advances H)).trans (hadv2.mono (subset_held H _))).trans hadv3).trans
          ((Evolves.onLine y n).advances H)
      refine ((leaveEntered_spec hs.inside (.entered true H s) hall (hy.onLine n).toFlow
        (hy.onLine n).free.ge (hy.onLine n).declared.le (by simp)).mono ?_).tracks
      rintro - z ⟨ws3, hz, -, hadv4, -⟩
      exact hz.finished hadv4

end End

/-! ## The statements -/

def TracksStep (w : Runs) (x x' : RegisterCompiler.Step) : Prop :=
  ∀ (s : GenState) (H : Set Nat), s.Ok H → s.fn.active ≤ s.fn.free →
    Tracks w.stop (Gen.step w.named x) (Gen.step w.named' x') s fun _ t => t.Ok H ∧ Evolves s t ∧ t.fn.free = s.fn.free + 1

section Statements
variable {w : Runs} {s : GenState} {H : Set Nat} {ws : List (Pending × List Nat)}

theorem TracksStep.unit : TracksStep w .unit .unit := by
  intro s H hok _
  refine .step ((internConstant_spec hok rfl).mono ?_)
  rintro _ t ⟨hok', hev, heq, k, rfl, -, hc⟩
  refine (Ensures.tracks ?_)
  have hk := lt_size_of_some hc
  have hmax := hok'.fn.constants
  have hfree' : t.fn.free = s.fn.free := congrArg (·.fn.free) heq
  have hfree := hok'.fn.free
  simp only [maxConstants] at hmax
  rw [ensures_bind, ensures_getFn, ensures_bind, ensures_emitConstant hok'.fn.isOpen ⟨Int.natCast_nonneg k, by omega⟩]
  have hroom := t.free_pushConstant t.fn.free k
  rw [ensures_reserve (hroom.2 ▸ hok'.fn.stack.2), hroom.1]
  intro hle
  -- the register is there only after the instruction; it is as if it had been there before
  have heq' : (t.pushConstant t.fn.free k).reserved 1 =
      ((t.withRoom (t.fn.free + 1)).pushConstant t.fn.free k).withFree (t.fn.free + 1) := by
    unfold GenState.pushConstant
    split <;> rfl
  have hok1 := hok'.withRoom hle
  have hev1 := Evolves.withRoom t (t.fn.free + 1)
  have hlt : t.fn.free < (t.withRoom (t.fn.free + 1)).fn.stack :=
    lt_of_lt_of_le (Int.lt_add_one_of_le le_rfl) (le_max_right ..)
  have hroom1 := (t.withRoom (t.fn.free + 1)).free_pushConstant t.fn.free k
  rw [heq']
  refine ⟨(hok1.pushConstant ⟨hfree.1, hlt⟩ hk).withFree ?_,
    hev.trans (hev1.trans ((Evolves.pushConstant _ _ _ hok1.fn.target.2).trans (.withFree _ _))), ?_⟩
  · omega
  · show t.fn.free + 1 = s.fn.free + 1
    omega

theorem TracksStep.given {comma : Mark} {x x' : Expr} {P : Operand → Prop} (h : TracksExpr w x x' P) :
    TracksStep w (.given comma x) (.given comma x') := by
  intro s H hok hbase
  refine tracks_mark fun n _ => ?_
  refine (h _ H (hok.onLine n) hbase).bind ?_
  rintro e t ⟨⟨ts, fs, hy⟩, -⟩
  refine .step ((toNextRegister_spec hy).mono ?_)
  rintro - u ⟨-, hok', hev, hfree⟩
  exact tracks_pure.2 ⟨hok', (Evolves.onLine s n).trans hev, hfree⟩

theorem tracks_newLocals {stop : Failure → Prop} {β : Type} {k k' : Unit → Gen β} {Q : β → GenState → Prop} {a b c x : Bytes}
    (h : Flow s H ws) (hs : s.fn.scopes ≠ [])
    (hk : ∀ t, Flow t H ws → Declares [a, b, c, x] s t → Tracks stop (k ()) (k' ()) t Q) : Tracks stop
      (newLocal a >>= fun _ => newLocal b >>= fun _ => newLocal c >>= fun _ => newLocal x >>= k)
      (newLocal a >>= fun _ => newLocal b >>= fun _ => newLocal c >>= fun _ => newLocal x >>= k') s Q := by
  refine .step ((newLocal_declares h hs).mono ?_)
  rintro - t1 ⟨h1, hd1⟩
  refine .step ((newLocal_declares h1 (hd1.scopes ▸ hs)).mono ?_)
  rintro - t2 ⟨h2, hd2⟩
  have hd2 := hd1.trans hd2
  refine .step ((newLocal_declares h2 (hd2.scopes ▸ hs)).mono ?_)
  rintro - t3 ⟨h3, hd3⟩
  have hd3 := hd2.trans hd3
  refine .step ((newLocal_declares h3 (hd3.scopes ▸ hs)).mono ?_)
  rintro - t4 ⟨h4, hd4⟩
  exact hk t4 h4 (hd3.trans hd4)

theorem Gen.activateHidden_spec {d u : GenState} {a b c : Bytes} {xs : List Bytes} (hs : Rests s H ws)
    (hd : Declares (a :: b :: c :: xs) s d) (hhidden : ∀ x ∈ [a, b, c], IsHidden x) (hf : Flow d H ws)
    (hok : u.Ok (Held H (places ws))) (hev : Evolves d u) :
    (activate 3).Ensures u fun _ t => Flow t H ws ∧ Advances H s t ∧ t.fn.active = s.fn.active + 3 ∧
      t.fn.free = u.fn.free ∧ t.fn.stack = u.fn.stack ∧ (t.fn.declared.size : Int) = t.fn.active + xs.length := by
  have hdecl := hs.declared
  have hactive : u.fn.active = s.fn.active := hev.active.trans hd.active
  have hsize : u.fn.declared.size = s.fn.declared.size + (xs.length + 3) := by
    rw [hev.declared, hd.size, List.length_cons, List.length_cons, List.length_cons]
  have hu : u.fn.scopes ≠ [] := scopes_ne_nil_of_erase hev.scopes (hd.scopes ▸ hs.inside)
  obtain ⟨sc, cs, hcs⟩ := List.exists_cons_of_ne_nil hu
  have hflow := hf.evolve hok hev
  refine (activate_spec hflow hcs (by decide) (by omega) fun _ r v hr hr' hv => hhidden _ ?_).mono ?_
  · obtain ⟨i, rfl⟩ := Nat.exists_eq_add_of_le (show s.fn.declared.size ≤ r by omega)
    rw [hev.record?, hd.new] at hv
    obtain rfl | rfl | rfl : i = 0 ∨ i = 1 ∨ i = 2 := by omega
    all_goals
      simp only [List.getElem?_cons_zero, List.getElem?_cons_succ, Option.map_some, Option.some.injEq] at hv
      simp [← hv]
  · rintro - t ⟨hf', locals, -, hup, rfl⟩
    refine ⟨hf', ((hd.advances hs.ok H).trans (hev.advances H)).trans (hup.advances hflow (by decide)),
      by rw [← hactive]; rfl, rfl, rfl, ?_⟩
    show (u.fn.declared.size : Int) = u.fn.active + 3 + xs.length
    omega

theorem TracksStat.forNum {line : Nat} {opening assign comma doMark closing : Mark} {name : Bytes}
    {first first' limit limit' : Expr} {P P' : Operand → Prop} {x x' : RegisterCompiler.Step} {b b' : Block}
    (hfirst : TracksExpr w first first' P) (hlimit : TracksExpr w limit limit' P') (hst : TracksStep w x x')
    (hm : TracksBlock w b b') : TracksStat w (.forNum line opening name assign first comma limit x doMark b closing)
      (.forNum line opening name assign first' comma limit' x' doMark b' closing) := by
  intro s H ws hs _
  refine .step ((ensures_enterScope hs.free).2 (tracks_mark fun n _ => .step (ensures_firstFree.2 ?_)))
  have hs1 := (hs.entered true).onLine n
  refine tracks_newLocals hs1.toFlow hs1.inside fun d hf hd => ?_
  have hdfree : d.fn.free = s.fn.free := hd.free
  have hdactive : d.fn.active = s.fn.active := hd.active
  have hfree := hs.free
  refine tracks_mark fun k _ => ?_
  have hline := Evolves.onLine d k
  refine (hfirst _ _ (hf.onLine k).ok (show d.fn.active ≤ d.fn.free by omega)).bind ?_
  rintro e t ⟨⟨ts, fs, hy⟩, -⟩
  refine .step ((toNextRegister_spec hy).mono ?_)
  rintro - t1 ⟨-, hok1, hev1, hfree1⟩
  have hfree1 : t1.fn.free = d.fn.free + 1 := hfree1
  have hactive1 := (hline.trans hev1).active
  refine tracks_mark fun k' _ => ?_
  refine (hlimit _ _ (hok1.onLine k') (show t1.fn.active ≤ t1.fn.free by omega)).bind ?_
  rintro e' t' ⟨⟨ts', fs', hy'⟩, -⟩
  refine .step ((toNextRegister_spec hy').mono ?_)
  rintro - t2 ⟨-, hok2, hev2, hfree2⟩
  have hfree2 : t2.fn.free = t1.fn.free + 1 := hfree2
  have hev2 := (hline.trans hev1).trans ((Evolves.onLine t1 k').trans hev2)
  have hactive2 := hev2.active
  refine (hst t2 _ hok2 (by omega)).bind ?_
  rintro - u ⟨hok, hev, hufree⟩
  refine .step ((activateHidden_spec hs1 hd (by unfold IsHidden; decide) hf hok (hev2.trans hev)).mono ?_)
  rintro - v ⟨hv, hadv, hactive, hvfree, -, hdecl⟩
  have hactive : v.fn.active = s.fn.active + 3 := hactive
  refine tracks_mark fun k'' _ => ?_
  have hadv' : Advances H (s.entered true) (v.onLine k'') :=
    (((Evolves.onLine _ n).advances H).trans hadv).trans ((Evolves.onLine v k'').advances H)
  have hpos := hs.ok.fn.active.1
  refine tracks_loop hm hs (hv.onLine k'') hadv' (show v.fn.active = s.fn.free + 3 by omega)
    (show 0 ≤ s.fn.free by omega) (show v.fn.free = v.fn.active by omega) hdecl le_rfl (by simp)

/-- The mark at which a run with the fault `f` stops. -/
def Mark.halt (f : SyntaxFault) : Mark → Mark
  | .line _ => .stop f
  | .stop g => .stop g

section Runs
variable {α β : Type} {m : Gen α} {f : α → Gen β}

theorem Gen.run_bind {a : α} {t : GenState} (h : m s = .ok (a, t)) : (m >>= f) s = f a t := by
  simp only [Bind.bind, StateT.bind, h, Except.bind]

theorem Gen.run_bind_error {e : Failure} (h : m s = .error e) : (m >>= f) s = .error e := by
  simp only [Bind.bind, StateT.bind, h, Except.bind]

end Runs

theorem Gen.startLoop_breaks {base vars : Int} (hopen : s.fn.isClosed = false) (hfree : s.fn.free ≠ s.fn.active) :
    startLoop .over base vars s = .error (.broken .noTemporaries) := by
  have hemit : emit openJump s = .ok ((s.fn.code.size : Int), s.push openJump) := by
    unfold emit
    rw [run_bind (a := s.fn) (t := s) rfl, hopen]
    rfl
  have hjump : jump s = .ok (.ofHead s.fn.code.size, s.push openJump) :=
    run_bind hemit
  have henter : enterScope false (s.push openJump) = .error (.broken .noTemporaries) := by
    have hne : ((s.push openJump).fn.free == (s.push openJump).fn.active) = false :=
      beq_eq_false_iff_ne.2 hfree
    unfold enterScope
    rw [run_bind (a := (s.push openJump).fn) (t := s.push openJump) rfl,
      run_bind (a := (s.push openJump).fn) (t := s.push openJump) rfl, hne]
    rfl
  exact (run_bind hjump).trans (run_bind_error henter)

theorem TracksStat.forIn {line : Nat} {opening inMark doMark closing : Mark} {name : Bytes} {names : Names}
    {values values' : Exprs} {b b' : Block} {n : Nat} (hvalues : TracksExprs w values values' n)
    (hm : TracksBlock w b b') :
    TracksStat w (.forIn opening name names inMark line values doMark b closing)
      (.forIn opening name names inMark line values' (if n ≤ 3 then doMark else doMark.halt w.fault) b' closing) := by
  intro s H ws hs _
  refine .step ((ensures_enterScope hs.free).2 (tracks_mark fun i _ => .step (ensures_firstFree.2 ?_)))
  have hs1 := (hs.entered true).onLine i
  refine tracks_newLocals hs1.toFlow hs1.inside fun c hc hd1 => ?_
  refine .step ((newLocals_declares hc (hd1.scopes ▸ hs1.inside)).mono ?_)
  rintro - d ⟨hf, hd⟩
  have hd := hd1.trans hd
  have hdfree : d.fn.free = s.fn.free := hd.free
  have hdactive : d.fn.active = s.fn.active := hd.active
  have hfree := hs.free
  have hpos := hs.ok.fn.active.1
  refine tracks_mark fun k _ => ?_
  have hline := Evolves.onLine d k
  refine (hvalues _ _ _ 0 (.refl _) (hf.onLine k).ok (show d.fn.active ≤ d.fn.free by omega) le_rfl
    (by simp)).bind ?_
  rintro ⟨e, count⟩ t ⟨hcount, hlast⟩
  refine .step ((adjustTo_spec (.inr hlast) (by decide)).mono ?_)
  rintro - t1 ⟨hok1, hev1, hfree1⟩
  have hfree1 : t1.fn.free = d.fn.free + max count 3 := hfree1
  refine .step ((ensures_ensureRegisters hok1.fn.stack.2).2 fun hroom => ?_)
  have hev := (hline.trans hev1).trans (Evolves.withRoom t1 (t1.fn.free + 3))
  refine .step ((activateHidden_spec hs1 hd (by unfold IsHidden; decide) hf (hok1.withRoom hroom)
    hev).mono ?_)
  rintro - v ⟨hv, hadv, hactive, hvfree, hvstack, hdecl⟩
  have hactive : v.fn.active = s.fn.active + 3 := hactive
  have hvfree : v.fn.free = t1.fn.free := hvfree
  by_cases hn : n ≤ 3
  · rw [if_pos hn]
    refine tracks_mark fun k' _ => ?_
    have hadv' : Advances H (s.entered true) (v.onLine k') :=
      (((Evolves.onLine _ i).advances H).trans hadv).trans ((Evolves.onLine v k').advances H)
    have hstack : t1.fn.free + 3 ≤ v.fn.stack := hvstack ▸ le_max_right ..
    refine tracks_loop hm hs (hv.onLine k') hadv' (show v.fn.active = s.fn.free + 3 by omega)
      (show 0 ≤ s.fn.free by omega) (show v.fn.free = v.fn.active by omega) ?_ (by omega) fun _ => ?_
    · show (v.fn.declared.size : Int) = v.fn.active + _
      rw [hdecl]
      simp
    · show v.fn.active + 3 ≤ v.fn.stack
      omega
  · rw [if_neg hn]
    cases doMark with
    | stop g => exact .step trivial
    | line k' =>
      have hbreaks : startLoop .over s.fn.free (names.length + 1) (v.onLine k') =
          .error (.broken .noTemporaries) :=
        startLoop_breaks hv.ok.fn.isOpen (show v.fn.free ≠ v.fn.active by omega)
      refine Tracks.of_breaks ?_ rfl (w.stops v.source)
      exact (run_bind (a := ()) (t := v.onLine k') rfl).trans (run_bind_error hbreaks)

end Statements

end RegisterCompiler
