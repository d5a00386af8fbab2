import RegisterCompiler.Proofs.Blocks

/-!
# Code for statements, side by side

As for expressions, the lemmas here take one construct each: if the runs for its parts track each
other, those for the whole do.

* `TracksStat`, `TracksBlock` : the runs for the code of a statement and of a block;
* `Declares` : what declaring variables does;
* `Tracks.scoped` : a block of its own.
-/

namespace RegisterCompiler

open Gen

/-- The innermost open block is not that of a loop. -/
def InBlock (s : GenState) : Prop :=
  ∃ c cs, s.fn.scopes = c :: cs ∧ c.isLoop = false

/-- After a statement, from `s` to `t`, registers may still be in use. -/
def Finished (H : Set Nat) (s t : GenState) : Prop :=
  ∃ ws, Flow t H ws ∧ Advances H s t ∧ t.fn.active ≤ t.fn.free ∧ (t.fn.declared.size : Int) = t.fn.active

section Specs
variable (w : Runs)

def TracksStat (x x' : Stat) : Prop :=
  ∀ (s : GenState) (H : Set Nat) (ws : List (Pending × List Nat)), Rests s H ws → InBlock s →
    Tracks w.stop (stat w.named x) (stat w.named' x') s fun _ t => Finished H s t

def TracksBlock (b b' : Block) : Prop :=
  ∀ (s : GenState) (H : Set Nat) (ws : List (Pending × List Nat)), Rests s H ws → InBlock s →
    Tracks w.stop (block w.named b) (block w.named' b') s fun _ t => ∃ ws', Rests t H ws' ∧ Advances H s t

end Specs

variable {w : Runs} {s t u : GenState} {H : Set Nat} {ws : List (Pending × List Nat)} {mk : Mark} {b b' : Block}

section Steps

theorem Advances.inBlock (h : Advances H s t) (hs : InBlock s) : InBlock t := by
  obtain ⟨c, cs, hcs, hloop⟩ := hs
  obtain ⟨d, ds, hds, -, hdloop, -⟩ := h.innermost hcs
  exact ⟨d, ds, hds, hdloop.trans hloop⟩

theorem Rests.finished (h : Rests t H ws) (hadv : Advances H s t) : Finished H s t :=
  ⟨ws, h.toFlow, hadv, h.free.ge, h.declared⟩

theorem Rests.finished_of_evolves (h : Rests s H ws) (hok : t.Ok (Held H (places ws)))
    (hev : Evolves s t) (hfree : s.fn.free ≤ t.fn.free) : Finished H s t := by
  refine ⟨ws, h.toFlow.evolve hok hev, hev.advances H, ?_, ?_⟩
  · rw [hev.active, ← h.free]
    exact hfree
  · rw [hev.declared, hev.active, h.declared]

theorem Finished.of_onLine {n : Int} (h : Finished H (s.onLine n) t) : Finished H s t := by
  obtain ⟨ws', hf, hadv, hrest⟩ := h
  exact ⟨ws', hf, ((Evolves.onLine s n).advances H).trans hadv, hrest⟩

theorem Finished.onLine (h : Finished H s t) (n : Int) : Finished H s (t.onLine n) := by
  obtain ⟨ws', hf, hadv, hrest⟩ := h
  exact ⟨ws', hf.onLine n, hadv.trans ((Evolves.onLine t n).advances H), hrest⟩

/-! ## Blocks -/

theorem TracksBlock.nil : TracksBlock w .nil .nil := by
  intro s H ws h _
  exact tracks_pure.2 ⟨ws, h, .refl H s⟩

theorem Gen.endStat_spec (h : Finished H s t) (hs : s.fn.scopes ≠ []) :
    endStat.Ensures t fun _ u => ∃ ws', Rests u H ws' ∧ Advances H s u := by
  obtain ⟨ws', hf, hadv, hfree, hdecl⟩ := h
  have hroom := hf.ok.fn.free
  have hactive := hf.ok.fn.active
  unfold endStat
  rw [ensures_bind, ensures_getFn, ensures_bind, ensures_require (by simp; omega), ensures_modifyFn]
  have hev := Evolves.withFree t t.fn.active
  have hf' := hf.evolve (hf.ok.withFree ⟨hactive.1, hfree.trans hroom.2⟩) hev
  exact ⟨ws', ⟨hf', hadv.scopes_ne_nil hs, rfl, hdecl⟩, hadv.trans (hev.advances H)⟩

theorem TracksBlock.cons {x x' : Stat} (h : TracksStat w x x') (hr : TracksBlock w b b') :
    TracksBlock w (.cons x b) (.cons x' b') := by
  intro s H ws hs hin
  refine (h s H ws hs hin).bind ?_
  intro _ t ht
  refine .step ((endStat_spec ht hs.inside).mono ?_)
  rintro - u ⟨ws', hu, hadv⟩
  refine (hr u H ws' hu (hadv.inBlock hin)).mono ?_
  rintro - v ⟨ws'', hv, hadv'⟩
  exact ⟨ws'', hv, hadv.trans hadv'⟩

theorem tracks_entered {β : Type} {k k' : Unit → Gen β} {Q : β → GenState → Prop} {s1 : GenState}
    (hm : TracksBlock w b b') (hs : s.fn.scopes ≠ []) (hent : Enters false H s s1) (h : Rests s1 H ws)
    (hk : ∀ t ws', Rests t H ws' → Keeps H s1 t → Advances H s t → t.fn.active = s.fn.active →
      Tracks w.stop (k ()) (k' ()) t Q) :
    Tracks w.stop (block w.named b >>= fun _ => leaveScope >>= k) (block w.named' b' >>= fun _ => leaveScope >>= k')
      s1 Q := by
  obtain ⟨c, cs, hcs, -, hloop, -⟩ := hent.scopes
  refine (hm s1 H ws h ⟨c, cs, hcs, hloop⟩).bind ?_
  rintro - t ⟨ws', ht, hadv⟩
  refine .step ((leaveEntered_spec hs hent hadv ht.toFlow ht.free.ge ht.declared.le ?_).mono ?_)
  · intro _ p hp hge
    have := h.toFlow.lt_size hp
    omega
  · rintro - u ⟨ws'', hu, hkeep, hadv', hactive⟩
    exact hk u ws'' hu (hadv.toKeeps.trans hkeep) hadv' hactive

theorem Gen.Tracks.scoped {β : Type} {k k' : Unit → Gen β} {Q : β → GenState → Prop}
    (hm : TracksBlock w b b') (h : Rests s H ws)
    (hk : ∀ t ws', Rests t H ws' → Advances H s t → t.fn.active = s.fn.active → Tracks w.stop (k ()) (k' ()) t Q) :
    Tracks w.stop (enterScope false >>= fun _ => block w.named b >>= fun _ => leaveScope >>= k)
      (enterScope false >>= fun _ => block w.named' b' >>= fun _ => leaveScope >>= k') s Q :=
  .step ((ensures_enterScope h.free).2
    (tracks_entered hm h.inside (.entered false H s) (h.entered false) fun t ws' ht _ => hk t ws' ht))

theorem TracksStat.block {opening closing : Mark} (h : TracksBlock w b b') :
    TracksStat w (.block opening b closing) (.block opening b' closing) := by
  intro s H ws hs _
  refine tracks_mark fun n _ => ?_
  refine Tracks.scoped h (hs.onLine n) fun t ws' ht hadv _ => ?_
  refine ((ensures_mark fun k _ => ?_).tracks)
  exact ((ht.finished hadv).onLine k).of_onLine

theorem TracksStat.empty : TracksStat w (.empty mk) (.empty mk) := by
  intro s H ws hs _
  exact (ensures_mark fun n _ => (hs.finished (.refl H s)).onLine n).tracks

end Steps

/-! ## Variables -/

/-- From `s` to `t` variables with these names are declared, and nothing else happens. -/
structure Declares (names : List Bytes) (s t : GenState) : Prop where
  keeps : ∀ H, Keeps H s t
  scopes : t.fn.scopes = s.fn.scopes
  active : t.fn.active = s.fn.active
  free : t.fn.free = s.fn.free
  code : t.fn.code = s.fn.code
  size : t.fn.declared.size = s.fn.declared.size + names.length
  old : ∀ r, r < s.fn.declared.size → t.fn.record? r = s.fn.record? r
  new : ∀ k : Nat, t.fn.record? (s.fn.declared.size + k) = names[k]?.map (⟨·, 0, 0⟩)

section Declares
variable {xs ys : List Bytes}

theorem Declares.nil (s : GenState) : Declares [] s s where
  keeps H := .refl H s
  scopes := rfl
  active := rfl
  free := rfl
  code := rfl
  size := rfl
  old _ _ := rfl
  new k := by simp [Func.record?]

theorem Declares.onLine (h : Declares xs s t) (n : Int) : Declares xs s (t.onLine n) :=
  { h with keeps := fun H => (h.keeps H).trans ((Evolves.onLine t n).keeps H) }

theorem Declares.trans (h : Declares xs s t) (h' : Declares ys t u) : Declares (xs ++ ys) s u where
  keeps H := (h.keeps H).trans (h'.keeps H)
  scopes := h'.scopes.trans h.scopes
  active := h'.active.trans h.active
  free := h'.free.trans h.free
  code := h'.code.trans h.code
  size := by rw [h'.size, h.size, List.length_append, Nat.add_assoc]
  old r hr := (h'.old r (by have := h.size; omega)).trans (h.old r hr)
  new k := by
    have hsize := h.size
    rcases lt_or_ge k xs.length with hk | hk
    · rw [h'.old _ (by omega), h.new, List.getElem?_append_left hk]
    · have := h'.new (k - xs.length)
      rw [hsize, show s.fn.declared.size + xs.length + (k - xs.length) = s.fn.declared.size + k by omega]
        at this
      rw [this, List.getElem?_append_right hk]

theorem Gen.newLocal_declares {name : Bytes} (h : Flow s H ws) (hs : s.fn.scopes ≠ []) :
    (newLocal name).Ensures s fun _ t => Flow t H ws ∧ Declares [name] s t := by
  have hactive := h.ok.fn.active
  refine (newLocal_spec h hs).mono ?_
  rintro - _ ⟨hf, rfl⟩
  refine ⟨hf, ?_⟩
  have hrecord := Func.record?_declare h.ok name
  refine ⟨fun K => Keeps.withLocals K fun r v hr hv => .inr ⟨hr, v, ?_, rfl⟩, rfl, rfl, rfl, rfl,
    Array.size_push _, fun r hr => ?_, fun k => ?_⟩
  · have hr : (r : Int) < s.fn.active := hr
    have hv : (s.declare name).fn.record? r = some v := hv
    rwa [hrecord, if_neg (by omega)] at hv
  · rw [hrecord, if_neg (by omega)]
  · rw [hrecord]
    cases k with
    | zero => simp
    | succ k =>
      simp [Func.record?]

theorem Gen.newLocals_declares {names : Names} (h : Flow s H ws) (hs : s.fn.scopes ≠ []) :
    (newLocals names).Ensures s fun _ t => Flow t H ws ∧ Declares (names.map Prod.snd) s t := by
  induction names generalizing s with
  | nil => exact ensures_pure.2 ⟨h, .nil s⟩
  | cons x names ih =>
    unfold newLocals
    rw [ensures_bind]
    refine ensures_mark fun n _ => ?_
    rw [ensures_bind]
    refine Ensures.mono (newLocal_declares (h.onLine n) hs) ?_
    rintro - t ⟨hf, hd⟩
    refine (ih hf (hd.scopes ▸ hs)).mono ?_
    rintro - u ⟨hf', hd'⟩
    exact ⟨hf', (((Declares.nil s).onLine n).trans hd).trans hd'⟩

theorem Declares.advances {K : Set Nat} (h : Declares xs s t) (hs : s.Ok K) (H : Set Nat) : Advances H s t := by
  have hactive := hs.fn.active
  exact ⟨h.keeps H, by rw [h.scopes], h.active.ge, fun r hr => h.old r (by omega)⟩

theorem Updates.advances {locals : Array LocalVar} {n : Int} (h : Flow s H ws) (hn : 0 ≤ n)
    (hup : Updates s.fn.declared s.fn.active (s.fn.active + n)
      (fun v => { v with startPC := s.fn.code.size }) s.fn.locals locals) :
    Advances H s (s.withLocals s.fn.declared locals (s.fn.active + n)) := by
  have hvars : ∀ r : Nat, (r : Int) < s.fn.active →
      (s.withLocals s.fn.declared locals (s.fn.active + n)).fn.record? r = s.fn.record? r :=
    fun r hr => hup.record?_eq h.lives.nodup (.inl hr)
  refine ⟨Keeps.withLocals H (hup.starts h.lives fun r hr hout => ?_), rfl, ?_, hvars⟩
  · omega
  · show s.fn.active ≤ s.fn.active + n
    omega

theorem Gen.activate_advances {n : Int} (h : Flow s H ws) (hin : InBlock s) (hn : 0 ≤ n)
    (hle : s.fn.active + n ≤ s.fn.declared.size) :
    (activate n).Ensures s fun _ t => Flow t H ws ∧ Advances H s t ∧ t.fn.active = s.fn.active + n ∧
      t.fn.free = s.fn.free ∧ t.fn.declared = s.fn.declared ∧ t.fn.labels = s.fn.labels ∧
      t.fn.locals.size = s.fn.locals.size := by
  obtain ⟨c, cs, hcs, hloop⟩ := hin
  refine (activate_spec h hcs hn hle (by simp [hloop])).mono ?_
  rintro - _ ⟨hf, locals, hsize, hup, rfl⟩
  exact ⟨hf, hup.advances h hn, rfl, rfl, rfl, rfl, hsize⟩

end Declares

section Locals
variable {v v' : Values}

/-- The runs give the last of values that may be left out; all before it are in registers. -/
def TracksValues (w : Runs) (v v' : Values) : Prop :=
  ∀ (s : GenState) (H : Set Nat), s.Ok H → s.fn.active ≤ s.fn.free →
    Tracks w.stop (values w.named v) (values w.named' v') s fun r t => ValuesOf s H r.2 r.1 t

theorem TracksValues.none : TracksValues w (.none mk) (.none mk) := by
  intro s H hok _
  exact tracks_mark fun n _ => tracks_pure.2 (.inl ⟨rfl, rfl, hok.onLine n, .onLine s n, rfl⟩)

theorem TracksValues.given {es es' : Exprs} {n : Nat} (h : TracksExprs w es es' n) :
    TracksValues w (.given mk es) (.given mk es') := by
  intro s H hok hbase
  refine tracks_mark fun k _ => ?_
  refine (h _ _ H 0 (.refl _) (hok.onLine k) hbase le_rfl (by simp)).mono ?_
  rintro x t ⟨-, hlast⟩
  exact .inr hlast.of_onLine

theorem TracksStat.localVars {names : Names} (h : TracksValues w v v') :
    TracksStat w (.localVars names v) (.localVars names v') := by
  intro s H ws hs hin
  refine .step ((newLocals_declares hs.toFlow hs.inside).mono ?_)
  rintro - t ⟨hf, hd⟩
  have hfree := hs.free
  have hdecl := hs.declared
  have hbase : t.fn.active ≤ t.fn.free := by
    rw [hd.active, hd.free]
    omega
  refine (h t _ hf.ok hbase).bind ?_
  rintro ⟨e, count⟩ u hv
  refine .step ((adjustTo_spec hv (Int.natCast_nonneg _)).mono ?_)
  rintro - w ⟨hok, hev, hfree'⟩
  have hadv : Advances H s w := (hd.advances hs.ok H).trans (hev.advances H)
  have hdecl' : (w.fn.declared.size : Int) = w.fn.active + names.length := by
    rw [hev.declared, hev.active, hd.size, hd.active, List.length_map]
    omega
  have hactive' : w.fn.active = s.fn.active := hev.active.trans hd.active
  refine ((activate_advances (hf.evolve hok hev) (hadv.inBlock hin) (Int.natCast_nonneg _) hdecl'.ge).mono ?_).tracks
  rintro - x ⟨hx, hadv', hxactive, hxfree, hxdecl, -⟩
  refine ⟨ws, hx, hadv.trans hadv', ?_, ?_⟩
  · rw [hxactive, hxfree, hfree', hd.free]
    omega
  · rw [hxdecl, hxactive, hdecl']

/-- The variable of a function is active while the function is made, but it starts after it. -/
theorem TracksStat.localFunction {opening : Mark} {name : Bytes} {x x' : Body} (h : TracksBody w x x') :
    TracksStat w (.localFunction opening name x) (.localFunction opening name x') := by
  intro s H ws hs hin
  refine tracks_mark fun n _ => .step (Ensures.mono
    ((newLocal_spec (hs.onLine n).toFlow hs.inside).and (newLocal_declares (hs.onLine n).toFlow hs.inside)) ?_)
  rintro - t ⟨⟨hf, ht⟩, -, hd⟩
  have hfree := hs.free
  have hdecl := hs.declared
  have hadv : Advances H s t := ((Evolves.onLine s n).advances H).trans (hd.advances (hs.onLine n).ok H)
  have hactive : t.fn.active = s.fn.active := hd.active
  have hsize : t.fn.declared.size = s.fn.declared.size + 1 := hd.size
  refine .step ((activate_advances hf (hadv.inBlock hin) (n := 1) (by decide) (by omega)).mono ?_)
  rintro - u ⟨hu, hadv', huactive, hufree, hudecl, hulabels, husize⟩
  refine (h u _ hu.ok).bind ?_
  rintro _ w ⟨rfl, hok, hev, hwfree, -⟩
  -- the register of the function is that of the variable
  obtain ⟨r, hr⟩ := Int.eq_ofNat_of_zero_le hs.ok.fn.active.1
  have hreg : u.fn.free = r := by
    rw [hufree, show t.fn.free = s.fn.free from hd.free, hfree, hr]
  rw [show (Operand.plain .nonRelocatable u.fn.free).info = (r : Int) from hreg]
  have hdeclared : w.fn.declared = s.fn.declared.push s.fn.locals.size := by
    rw [hev.declared, hudecl, ht]
    rfl
  have hlocals : w.fn.locals.size = s.fn.locals.size + 1 := by
    rw [hev.locals, husize, ht]
    exact Array.size_push _
  have hlabels : w.fn.labels = s.fn.labels := by
    rw [hev.labels, hulabels, ht]
    rfl
  have hw : Flow w H ws := hu.evolve hok hev
  refine ((restart_spec (r := r) (k := s.fn.locals.size) hw ?_ ?_ hlocals.symm ?_).mono ?_).tracks
  · rw [hev.active, huactive, hactive, hr]
  · rw [hdeclared, show r = s.fn.declared.size by omega, Array.getElem?_push_size]
  · intro l hl
    rw [hlabels] at hl
    exact hr ▸ hs.toFlow.active_of_mem_labels hs.inside hl
  · rintro - _ ⟨hx, hkeep, hvars, locals, rfl⟩
    have hadv'' := (hadv.trans hadv').trans (hev.advances H)
    refine ⟨ws, hx, ⟨hadv''.toKeeps.trans hkeep, hadv''.scopes, hadv''.active, fun r' hr' => ?_⟩, ?_, ?_⟩
    · exact (hvars r' (by omega)).trans (hadv''.vars r' hr')
    · show w.fn.active ≤ w.fn.free
      rw [hev.active, huactive, hactive, hwfree, hreg, hr]
    · show (w.fn.declared.size : Int) = w.fn.active
      rw [hev.declared, hev.active, hudecl, huactive, hactive]
      omega

end Locals

/-! ## Labels and jumps -/

theorem TracksStat.label {name : Bytes} {line : Nat} {isLast : Bool} :
    TracksStat w (.label line mk name isLast) (.label line mk name isLast) := by
  intro s H ws hs hin
  refine tracks_mark fun n _ => ?_
  refine (Ensures.mono (defineLabel_spec (hs.onLine n).toFlow hs.inside) ?_).tracks
  rintro - t ⟨ws', hf, hl⟩
  refine Finished.of_onLine (n := n) ⟨ws', hf, hl.advances, ?_, ?_⟩
  · rw [hl.active, hl.free]
    exact hs.free.ge
  · rw [hl.declared, hl.active]
    exact hs.declared

theorem Gen.goto_spec {g : Goto} {j : JumpList} {ps : List Nat} (h : Rests s (Held H ps) ws)
    (hps : ∀ q ∈ ps, q ∉ H) (hc : Chain s.fn.code j ps)
    (hj : ∀ q ∈ ps, ∃ i, s.fn.code[q]? = some i ∧ i.op? = some .jmp ∧ i.a = 0) :
    (goto g j).Ensures s fun _ t => ∃ ws', Rests t H ws' ∧ Advances H s t ∧ t.fn.active = s.fn.active := by
  have hfree := h.ok.fn.free
  unfold goto
  rw [ensures_bind]
  refine ensures_mark fun n _ => ?_
  refine Ensures.mono (addGoto_spec (h.onLine n).toFlow h.inside hps hc hj ?_) ?_
  · show s.fn.active ≤ s.fn.stack
    rw [← h.free]
    exact hfree.2
  · rintro - t ⟨ws', hf, hr⟩
    exact ⟨ws', (h.onLine n).retarget hf hr, ((Evolves.onLine s n).advances H).trans hr.advances, hr.active⟩

theorem Gen.jump_rests (h : Rests s H ws) :
    jump.Ensures s fun l t => t = s.push openJump ∧ Rests t (Held H [s.fn.code.size]) ws ∧
      Chain t.fn.code l [s.fn.code.size] ∧ s.fn.code.size ∉ H ∧ Retargets H s t := by
  refine (jump_flow h.toFlow).mono ?_
  rintro l t ⟨ht, hf, hc, hnew, hr⟩
  exact ⟨ht, h.retarget hf hr, hc, hnew, hr⟩

theorem TracksStat.goto {g : Goto} : TracksStat w (.goto g) (.goto g) := by
  intro s H ws hs hin
  refine (Ensures.bind (jump_rests hs) ?_).tracks
  rintro l _ ⟨rfl, hrests, hc, hnew, hr⟩
  refine (goto_spec hrests (by simpa using hnew) hc ?_).mono ?_
  · intro q hq
    obtain rfl := List.mem_singleton.1 hq
    exact ⟨openJump, Array.getElem?_push_size, openJump_op, openJump_a⟩
  · rintro - t ⟨ws', ht, hadv, -⟩
    exact ht.finished (hr.advances.trans hadv)

/-! ## Calls and returns -/

theorem TracksStat.ret {v v' : Values} (h : TracksValues w v v') : TracksStat w (.ret v mk) (.ret v' mk) := by
  intro s H ws hs hin
  refine (h s _ hs.ok hs.free.ge).bind ?_
  rintro ⟨e, count⟩ t hv
  have hend : ∀ u, u.Ok (Held H (places ws)) → Evolves s u → s.fn.free ≤ u.fn.free →
      (mark mk).Ensures u fun _ w => Finished H s w := fun u hok hev hfree =>
    ensures_mark fun n _ => (hs.finished_of_evolves hok hev hfree).onLine n
  apply Ensures.tracks
  show (if count = 0 then Gen.ret 0 0 >>= fun _ => mark mk
    else returnValues count e >>= fun _ => mark mk).Ensures t fun _ u => Finished H s u
  rcases hv with ⟨rfl, -, hok, hev, hfree⟩ | hlast
  · have hstack := hok.fn.stack
    refine .bind (ret_spec hok le_rfl (.inl (by omega))) ?_
    rintro - _ ⟨i, -, rfl, hok', hev'⟩
    exact hend _ hok' (hev.trans hev') hfree.ge
  · have hcount := hlast.1
    rw [if_neg (by omega)]
    refine .bind (returnValues_spec hs.free hlast) ?_
    rintro - u ⟨hok, hev, hfree⟩
    exact hend u hok hev hfree

theorem TracksStat.call {P : Operand → Prop} {x x' : Expr} (h : TracksExpr w x x' P)
    (hcall : ∀ n e, mk = .line n → P e → e.kind = .call) : TracksStat w (.call x mk) (.call x' mk) := by
  intro s H ws hs hin
  refine (h s _ hs.ok hs.free.ge).bind ?_
  rintro e t ⟨⟨ts, fs, hy⟩, hP⟩
  refine tracks_mark fun n hn => ?_
  have hk := hcall n e hn hP
  have hgive : updateInstr e.info (·.setC 1) = giveResults e 0 := by
    simp only [giveResults, hk]
    rfl
  rw [hgive]
  refine ((giveResults_spec (hy.onLine n) (by simp [Operand.isOpen, hk]) (by decide)).mono ?_).tracks
  rintro - u ⟨hfree, hstack, hle, hroom⟩
  obtain ⟨hok, hev⟩ := hroom u.fn.stack (by omega) hstack
  rw [GenState.withRoom_of_le le_rfl] at hok hev
  exact hs.finished_of_evolves hok hev (by omega)

/-! ## Assignments -/

section Assign
variable {q q' : Targets} {v : Operand} {ts fs : List Nat} {x x' : Body}

def TracksTargets (w : Runs) (q q' : Targets) : Prop :=
  ∀ (s : GenState) (H : Set Nat) (before : List Operand), s.Ok H → s.fn.active ≤ s.fn.free →
    (∀ x ∈ before, x.Assignable s.fn) → Tracks w.stop (targets w.named q before) (targets w.named' q' before) s fun xs t =>
      t.Ok H ∧ Evolves s t ∧ s.fn.free ≤ t.fn.free ∧ ∀ x ∈ xs, x.Assignable t.fn

theorem TracksTargets.nil : TracksTargets w .nil .nil := by
  intro s H before hok _ hbefore
  exact tracks_pure.2 ⟨hok, .refl s, le_rfl, hbefore⟩

theorem Operand.Assignable.evolves {x : Operand} (h : x.Assignable s.fn) (hev : Evolves s t) : x.Assignable t.fn :=
  h.mono hev.active hev.bounds

theorem tracks_protect {stop : Failure → Prop} {β : Type} {before : List Operand} {k k' : List Operand → Gen β}
    {Q : β → GenState → Prop} (h : Tracks stop (protectTargets before v >>= k) (protectTargets before v >>= k') s Q) :
    Tracks stop (match v.kind with | .indexed .. => pure before >>= k | _ => protectTargets before v >>= k)
      (match v.kind with | .indexed .. => pure before >>= k' | _ => protectTargets before v >>= k') s Q := by
  split
  next inUpvalue key hk => rwa [protectTargets_eq (by simp [hk])] at h
  next => exact h

theorem Gen.protect_spec {before : List Operand}
    (hy : Yields s H v t ts fs) (hbefore : ∀ x ∈ before, x.Assignable s.fn) :
    (protectTargets before v).Ensures t fun xs u => Evolves s u ∧ s.fn.free ≤ u.fn.free ∧
      (v.isVariable → u.Ok H ∧ v.Assignable u.fn) ∧ ∀ x ∈ xs, x.Assignable u.fn := by
  have hbefore' : ∀ x ∈ before, x.Assignable t.fn := fun x hx => (hbefore x hx).evolves hy.evolves
  by_cases hk : v.kind ≠ .local ∧ v.kind ≠ .upvalue
  · rw [protectTargets_eq hk]
    exact ensures_pure.2 ⟨hy.evolves, hy.free_le, fun hv =>
      ⟨hy.ok_place (Operand.isPlace_of_isVariable hv), hy.assignable hv⟩, hbefore'⟩
  · have hv : v.isVariable := by
      rw [Decidable.not_and_iff_not_or_not, not_not, not_not] at hk
      rcases hk with hk | hk <;> simp [Operand.isVariable, hk]
    have hok := hy.ok_place (Operand.isPlace_of_isVariable hv)
    refine (protectTargets_spec hok (hy.active_le.trans hy.free_le) hbefore' (hy.assignable hv)).mono ?_
    rintro xs u ⟨hok', hev, hfree, hxs⟩
    exact ⟨hy.evolves.trans hev, hy.free_le.trans hfree, fun _ => ⟨hok', (hy.assignable hv).evolves hev⟩, hxs⟩

theorem TracksTargets.cons {comma : Mark} {P : Operand → Prop} {x x' : Expr} (h : TracksExpr w x x' P)
    (hq : TracksTargets w q q') (hvar : ∀ n e, mk = .line n → P e → e.isVariable) :
    TracksTargets w (.cons comma x mk q) (.cons comma x' mk q') := by
  intro s H before hok hbase hbefore
  refine tracks_mark fun n _ => (h _ H (hok.onLine n) hbase).bind ?_
  rintro v t ⟨⟨ts, fs, hy⟩, hP⟩
  refine tracks_protect (.step ((protect_spec hy hbefore).mono ?_))
  rintro xs u ⟨hev, hfree, hv, hxs⟩
  refine tracks_mark fun k hk => ?_
  obtain ⟨hok', hassign⟩ := hv (hvar k v hk hP)
  refine (hq (u.onLine k) H _ (hok'.onLine k) ?_ ?_).mono ?_
  · show u.fn.active ≤ u.fn.free
    rw [hev.active]
    exact hbase.trans hfree
  · rintro x (- | ⟨-, hx⟩)
    · exact hassign
    · exact hxs x hx
  · rintro ys w ⟨hok'', hev', hfree', hys⟩
    have hline := Evolves.onLine s n
    exact ⟨hok'', (hline.trans hev).trans ((Evolves.onLine u k).trans hev'), hfree.trans hfree', hys⟩

theorem TracksStat.assign {es es' : Exprs} {n : Nat} (hq : TracksTargets w q q') (hr : TracksExprs w es es' n) :
    TracksStat w (.assign q mk es) (.assign q' mk es') := by
  intro s H ws hs hin
  refine (hq s _ [] hs.ok hs.free.ge (by simp)).bind ?_
  rintro xs t ⟨hok, hev, hfree, hxs⟩
  have hbase : t.fn.active ≤ t.fn.free := by
    rw [hev.active, ← hs.free]
    exact hfree
  refine tracks_mark fun k _ => ?_
  refine (hr _ _ _ 0 (.refl _) (hok.onLine k) hbase le_rfl (by simp)).bind ?_
  rintro ⟨e, count⟩ u ⟨-, hlast⟩
  refine ((assignTo_spec hbase hlast.of_onLine hxs).mono ?_).tracks
  rintro - w ⟨hok', hev', hfree'⟩
  exact hs.finished_of_evolves hok' (hev.trans hev') (by omega)

theorem Gen.path_spec {e : Operand} {s0 : GenState} {names : Names} (h : Yields s0 H e s ts fs) (hv : e.isVariable) :
    (path e names).Ensures s fun e' t => (∃ ts fs, Yields s0 H e' t ts fs) ∧ e'.isVariable := by
  induction names generalizing e s ts fs with
  | nil => exact ensures_pure.2 ⟨⟨ts, fs, h⟩, hv⟩
  | cons x names ih =>
    refine .bind (fieldOf_spec h) ?_
    rintro e' t ⟨hy, hv'⟩
    exact ih hy hv'

theorem tracks_storeFunction {line : Int} (h : TracksBody w x x') (hs : Rests s H ws)
    (hy : Yields s (Held H (places ws)) v t ts fs) (hv : v.isVariable) :
    Tracks w.stop (do store v (← body w.named x); moveLastToLine line)
      (do store v (← body w.named' x'); moveLastToLine line) t fun _ u => Finished H s u := by
  have hok := hy.ok_place (Operand.isPlace_of_isVariable hv)
  refine (h t _ hok).bind ?_
  rintro _ u ⟨rfl, hok', hev, hfree, hsize⟩
  have htfree : s.fn.active ≤ t.fn.free := hs.free ▸ hy.free_le
  have huactive : u.fn.active = s.fn.active := hev.active.trans hy.evolves.active
  have htop := Yields.of_top hok' (by omega)
  rw [show u.fn.free - 1 = t.fn.free by omega] at htop
  refine .step ((store_spec htop rfl (v := v) ?_).mono ?_)
  · exact ((hy.assignable hv).evolves hev).evolves (.withFree u _)
  · rintro - w ⟨hwok, hwev, hwfree⟩
    have hwsize : u.fn.code.size ≤ w.fn.code.size := hwev.size
    have hlines := hwok.fn.lines
    apply Ensures.tracks
    rw [ensures_moveLastToLine (by omega)]
    refine hs.finished_of_evolves (hwok.withLastLine line) ?_ ?_
    · exact hy.evolves.trans ((hev.trans ((Evolves.withFree u _).trans hwev)).trans (.withLastLine w line))
    · show s.fn.free ≤ w.fn.free
      rw [hwfree]
      exact hy.free_le

theorem TracksStat.function {opening : Mark} {line : Nat} {name : Bytes} {names : Names}
    {key : Option (Mark × Bytes)} (h : TracksBody w x x') (hname : ∀ n, opening = .line n → ¬ IsHidden name) :
    TracksStat w (.function line opening name names key x) (.function line opening name names key x') := by
  intro s H ws hs hin
  refine tracks_mark fun n hn => ?_
  have hs' := hs.onLine n
  refine Tracks.bind ((namedVariable_spec hs'.ok hs'.free.ge (hname n hn)).tracks_of_eq
    (w.finds _ _ _ hs'.ok (hname n hn)) (w.finds' _ _ _ hs'.ok (hname n hn))) ?_
  rintro e t ⟨hy, hv⟩
  refine .step ((path_spec hy hv).mono ?_)
  rintro e t ⟨⟨ts, fs, hy⟩, hv⟩
  cases key with
  | none => exact (tracks_storeFunction h hs' hy hv).mono fun _ _ => Finished.of_onLine
  | some key =>
    refine .step ((fieldOf_spec hy).mono ?_)
    rintro v u ⟨hy', hv'⟩
    exact (tracks_storeFunction h hs' hy' hv').mono fun _ _ => Finished.of_onLine

end Assign

/-! ## Functions -/

/-- Since `s` parameters have been declared in a function; no register is in use yet. -/
structure Starting (s t : GenState) : Prop where
  flow : Flow t ∅ []
  advances : Advances ∅ s t
  free : t.fn.free = 0
  declared : (t.fn.declared.size : Int) = t.fn.active

section Functions
variable {stop : Failure → Prop} {β : Type} {k k' : Unit → Gen β} {Q : β → GenState → Prop}

theorem Starting.onLine (h : Starting s t) (n : Int) : Starting s (t.onLine n) :=
  ⟨h.flow.onLine n, h.advances.trans ((Evolves.onLine t n).advances ∅), h.free, h.declared⟩

theorem Starting.activate {xs : List Bytes} {n : Int} (h : Starting s t) (hin : InBlock s)
    (hu : Flow u ∅ []) (hd : Declares xs t u) (hn : n = xs.length) :
    (activate n).Ensures u fun _ w => Starting s w := by
  have hadv : Advances ∅ s u := h.advances.trans (hd.advances h.flow.ok ∅)
  have hsize : (u.fn.declared.size : Int) = u.fn.active + n := by
    rw [hd.size, hd.active, hn, ← h.declared]
    exact Int.natCast_add ..
  refine (activate_advances hu (hadv.inBlock hin) (by omega) hsize.ge).mono ?_
  rintro - w ⟨hw, hadv', hactive, hfree, hdecl, -⟩
  refine ⟨hw, hadv.trans hadv', ?_, ?_⟩
  · rw [hfree, hd.free, h.free]
  · rw [hdecl, hactive, hsize]

theorem Gen.reserveParams_spec (isVararg : Bool) (h : Starting s t) (hs : s.fn.scopes ≠ []) :
    (do
      modifyFn fun f => { f with isVararg := isVararg, params := f.active }
      reserve (← getFn).active : Gen Unit).Ensures t fun _ u => Rests u ∅ [] ∧ Advances ∅ s u := by
  have hstack := h.flow.ok.fn.stack
  have hactive := h.flow.ok.fn.active
  rw [ensures_bind, ensures_modifyFn, ensures_bind, ensures_getFn]
  rw [ensures_reserve (s := { t with fn := { t.fn with isVararg := isVararg, params := t.fn.active } }) hstack.2]
  intro hroom
  have hfree : t.fn.free + t.fn.active = t.fn.active := by
    rw [h.free, Int.zero_add]
  have hok := h.flow.ok.reserved (n := t.fn.active) (by omega) hroom
  have hev : Evolves t (GenState.reserved
      { t with fn := { t.fn with isVararg := isVararg, params := t.fn.active } } t.fn.active) :=
    { Evolves.reserved t t.fn.active with }
  refine ⟨⟨h.flow.evolve ?_ hev, ?_, hfree, h.declared⟩, h.advances.trans (hev.advances ∅)⟩
  · refine ⟨⟨{ hok.fn with params := ?_ }, hok.inner, hok.outer, hok.env.congr rfl⟩, hok.ends, hok.held⟩
    exact hfree.ge.trans (le_max_right ..)
  · exact h.advances.scopes_ne_nil hs

theorem tracks_reserveParams {isVararg : Bool} (h : Starting s t) (hs : s.fn.scopes ≠ [])
    (hk : ∀ u, Rests u ∅ [] → Advances ∅ s u → Tracks stop (k ()) (k' ()) u Q) :
    Tracks stop
      (do
        modifyFn fun f => { f with isVararg := isVararg, params := f.active }
        let f ← getFn
        reserve f.active >>= k)
      (do
        modifyFn fun f => { f with isVararg := isVararg, params := f.active }
        let f ← getFn
        reserve f.active >>= k') t Q := by
  have hstep : Tracks stop _ _ t Q := .step (f := k) (g := k')
    ((reserveParams_spec isVararg h hs).mono fun _ u hu => hk u hu.1 hu.2)
  simpa only [bind_assoc] using hstep

/-- The function ends, and its closure goes into the next register of the function around. -/
theorem Gen.endFunction_spec {line last : Int} (h : s.Ok H)
    (ht : Rests t ∅ ws) (hadv : Advances ∅ (s.opened line) t) :
    (do
      modifyFn fun f => { f with lastLine := last }
      mark mk
      let n ← closeFunction
      toNextRegister (.plain .relocatable (← emitABx .closure 0 n)) : Gen Operand).Ensures t fun e u =>
        e = .plain .nonRelocatable s.fn.free ∧ u.Ok H ∧ Evolves s u ∧ u.fn.free = s.fn.free + 1 ∧
          0 < u.fn.code.size := by
  rw [ensures_bind, ensures_modifyFn, ensures_bind]
  refine ensures_mark fun n _ => ?_
  set t' : GenState := GenState.onLine { t with fn := { t.fn with lastLine := last } } n
  have hev : Evolves t t' := { Evolves.refl t with }
  have hok : t'.Ok (Held ∅ (places ws)) :=
    ⟨⟨{ ht.ok.fn with }, ht.ok.inner, ht.ok.outer, ht.ok.env.congr rfl⟩, ht.ok.ends, ht.ok.held⟩
  have hgrow : Grows (s.opened line) t' := hadv.toGrows.trans hev.toGrows
  -- only the outermost block of the function is open, and the function around is still there
  obtain ⟨c, cs, hscopes, hc, hnil⟩ := List.map_eq_cons_iff.1 hadv.scopes
  obtain rfl := List.map_eq_nil_iff.1 hnil
  have hloop : c.erase.isLoop = false := hc ▸ rfl
  obtain ⟨g, gs, -, -, hout⟩ := List.forall₂_cons_left_iff.1 hgrow.outer
  refine .bind (closeFunction_spec (ht.toFlow.evolve hok hev) hscopes hloop ht.free.ge ht.declared.le) ?_
  rintro k u ⟨f, hsound, hup, hu⟩
  rw [hout] at hu
  obtain ⟨rfl, hroom, rfl⟩ := hu
  exact closure_spec h hgrow hok hout hsound hroom (by rw [Func.upvalueList_toProto, hup])

theorem tracks_self {isMethod : Bool} (h : Starting s t) (hin : InBlock s)
    (hk : ∀ u, Starting s u → Tracks stop (k ()) (k' ()) u Q) :
    Tracks stop (if isMethod then newLocal (bytes "self") >>= fun _ => activate 1 >>= k else k ())
      (if isMethod then newLocal (bytes "self") >>= fun _ => activate 1 >>= k' else k' ()) t Q := by
  cases isMethod with
  | false => exact hk t h
  | true =>
    obtain ⟨c, cs, hcs, -⟩ := h.advances.inBlock hin
    refine .step ((newLocal_declares h.flow (by simp [hcs])).mono ?_)
    rintro - u ⟨hu, hd⟩
    refine .step ((h.activate hin hu hd rfl).mono ?_)
    exact fun _ w => hk w

theorem tracks_markIf {mk : Option Mark} (h : ∀ n, Tracks stop (k ()) (k' ()) (s.onLine n) Q) :
    Tracks stop (match mk with | some m => mark m >>= k | _ => k ())
      (match mk with | some m => mark m >>= k' | _ => k' ()) s Q := by
  cases mk with
  | none => exact h s.line
  | some m => exact tracks_mark fun n _ => h n

theorem TracksBody.of_block {line last : Nat} {opening inner closing : Mark} {isMethod : Bool} {params : Names}
    {dots : Option Mark} (h : TracksBlock w b b') :
    TracksBody w (.mk line opening isMethod params dots inner b last closing)
      (.mk line opening isMethod params dots inner b' last closing) := by
  intro s H hok
  refine .step ((openFunction_spec hok).mono ?_)
  rintro - _ ⟨rfl, hf⟩
  have hin : InBlock (s.opened line) := ⟨_, _, rfl, rfl⟩
  have hstart : Starting (s.opened line) (s.opened line) := ⟨hf, .refl ∅ _, rfl, rfl⟩
  refine tracks_mark fun n _ => tracks_self (hstart.onLine n) hin fun t ht => ?_
  obtain ⟨c, cs, hcs, -⟩ := ht.advances.inBlock hin
  refine .step ((newLocals_declares ht.flow (by simp [hcs])).mono ?_)
  rintro - u ⟨hu, hd⟩
  refine tracks_markIf fun i => ?_
  refine .step (Ensures.mono (ht.activate hin (hu.onLine i) (hd.onLine i) (by rw [List.length_map])) ?_)
  rintro - x hx
  refine tracks_reserveParams hx (by simp [GenState.opened, Func.fresh]) fun y hy hadv => ?_
  refine tracks_mark fun k _ => (h _ ∅ [] (hy.onLine k) (hadv.inBlock hin)).bind ?_
  rintro - z ⟨ws, hz, hadv'⟩
  exact (endFunction_spec hok hz (hadv.trans (((Evolves.onLine y k).advances ∅).trans hadv'))).tracks

end Functions

end RegisterCompiler
