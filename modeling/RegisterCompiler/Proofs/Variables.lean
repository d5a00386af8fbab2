import RegisterCompiler.Proofs.Conditions

/-!
# Variables

* `resolveUpvalue_spec` : what a search for an upvalue does to the functions around;
* `namedVariable_spec`, `indexed_spec` : names and fields as operands;
* `store_spec`, `method_spec` : assignment, and the two registers of a method call.
-/

namespace RegisterCompiler

open Gen

variable {cs : List Scope} {f : Func} {name : Bytes} {outer : List Func}

/-! ## Upvalues -/

theorem captureIn_ok {labels : Array Label} {reg top : Int} {n g : Nat}
    (h : ScopesOk labels top n g cs) (h0 : 0 ≤ reg) (hreg : reg < top) :
    ScopesOk labels top n g (captureIn reg cs) := by
  induction cs generalizing top n g with
  | nil => exact h
  | cons c rest ih =>
    obtain ⟨hle, hcap, hlabel, hactive, hrest⟩ := h
    have hmark : c.active ≤ reg → ScopesOk labels top n g ({ c with isCaptured := true } :: rest) :=
      fun hc => ⟨hle, fun _ => hc.trans_lt hreg, hlabel, hactive, hrest⟩
    cases rest with
    | nil => exact hmark (hrest.1.le.trans h0)
    | cons d rest =>
      simp only [captureIn]
      split
      · rename_i hgt
        exact ⟨hle, hcap, hlabel, hactive, ih hrest hgt⟩
      · exact hmark (by omega)

theorem captureIn_erase (reg : Int) (cs : List Scope) : (captureIn reg cs).map Scope.erase = cs.map Scope.erase := by
  fun_induction captureIn reg cs with
  | case1 => rfl
  | case2 => rfl
  | case3 s rest _ _ ih => simp [ih]
  | case4 => rfl

theorem captureIn_cons (reg : Int) (c d : Scope) (rest : List Scope) :
    captureIn reg (c :: d :: rest) = if c.active > reg then c :: captureIn reg (d :: rest)
      else { c with isCaptured := true } :: d :: rest := rfl

theorem captureIn_ne_nil {reg : Int} (h : cs ≠ []) : captureIn reg cs ≠ [] := by
  have := congrArg List.length (captureIn_erase reg cs)
  simp only [List.length_map] at this
  intro hn
  rw [hn, List.length_nil, eq_comm, List.length_eq_zero_iff] at this
  exact h this

theorem capturedAt_cons {r : Int} {c : Scope} (h : cs ≠ []) :
    CapturedAt r (c :: cs) ↔ if c.active > r then CapturedAt r cs else c.isCaptured := by
  cases cs with
  | nil => exact absurd rfl h
  | cons => exact Iff.rfl

theorem capturedAt_captureIn {reg : Int} (h : cs ≠ []) : CapturedAt reg (captureIn reg cs) := by
  induction cs with
  | nil => exact absurd rfl h
  | cons c rest ih =>
    cases rest with
    | nil => rfl
    | cons d rest =>
      rw [captureIn_cons]
      split
      · rename_i hgt
        rw [capturedAt_cons (captureIn_ne_nil (by simp)), if_pos hgt]
        exact ih (by simp)
      · rename_i hgt
        rw [capturedAt_cons (by simp), if_neg hgt]

theorem CapturedAt.captureIn {r reg : Int} (h : CapturedAt r cs) : CapturedAt r (captureIn reg cs) := by
  induction cs with
  | nil => exact h
  | cons c rest ih =>
    cases rest with
    | nil => rfl
    | cons d rest =>
      rw [capturedAt_cons (by simp)] at h
      rw [captureIn_cons]
      by_cases hr : c.active > r
      · rw [if_pos hr] at h
        split
        · rw [capturedAt_cons (captureIn_ne_nil (by simp)), if_pos hr]
          exact ih h
        · rwa [capturedAt_cons (by simp), if_pos hr]
      · rw [if_neg hr] at h
        split
        · rwa [capturedAt_cons (captureIn_ne_nil (by simp)), if_neg hr]
        · rw [capturedAt_cons (by simp), if_neg hr]

theorem Func.findLocalBelow_eq_some {n reg : Nat} (h : f.findLocalBelow name n = some reg) :
    reg < n ∧ ∃ v, f.record? reg = some v ∧ v.name = name := by
  induction n with
  | zero => simp [Func.findLocalBelow] at h
  | succ n ih =>
    simp only [Func.findLocalBelow] at h
    split at h
    · rename_i hname
      cases h
      exact ⟨by omega, Option.map_eq_some_iff.1 hname⟩
    · obtain ⟨hlt, hv⟩ := ih h
      exact ⟨by omega, hv⟩

theorem Func.findLocal?_eq_some {reg : Nat} (h : f.findLocal? name = some reg) :
    (reg : Int) < f.active ∧ ∃ v, f.record? reg = some v ∧ v.name = name := by
  obtain ⟨hlt, hv⟩ := Func.findLocalBelow_eq_some h
  exact ⟨by omega, hv⟩

theorem LoopsOk.captureIn {vars : Nat → Option LocalVar} {labels : Array Label} {top : Int}
    {n k reg : Nat} {v : LocalVar} (h : LoopsOk vars top cs)
    (hs : ScopesOk labels top n k cs) (hreg : (reg : Int) < top) (hv : vars reg = some v)
    (hname : ¬ IsHidden v.name) : LoopsOk vars top (captureIn reg cs) := by
  induction cs generalizing top n k with
  | nil => exact h
  | cons c rest ih =>
    have hmark : c.active ≤ reg → LoopsOk vars top ({ c with isCaptured := true } :: rest) :=
      fun hc => ⟨fun hloop => absurd ((h.1 hloop).2 reg v hc hreg hv) hname, h.2⟩
    cases rest with
    | nil =>
      have hzero : c.active = 0 := hs.2.2.2.2.1
      exact hmark (by omega)
    | cons d rest =>
      rw [captureIn_cons]
      split
      · exact ⟨h.1, ih h.2 hs.2.2.2.2 (by omega)⟩
      · exact hmark (by omega)

theorem Func.findUpvalue?_eq_some {i : Nat}
    (h : f.findUpvalue? name = some i) : ∃ u, f.upvalues[i]? = some u ∧ u.name = name := by
  obtain ⟨hlt, hname, -⟩ := Array.findIdx?_eq_some_iff_getElem.1 h
  exact ⟨_, Array.getElem?_eq_getElem hlt, beq_iff_eq.1 hname⟩

theorem Func.findUpvalue?_eq_none (h : f.findUpvalue? name = none) : ∀ u ∈ f.upvalues, u.name ≠ name := by
  intro u hu
  have := Array.findIdx?_eq_none_iff.1 h u hu
  simpa using this

theorem not_isHidden_envName : ¬ IsHidden envName := by
  unfold IsHidden
  decide

theorem size_le_of_getElem? {α : Type} {xs ys : Array α}
    (h : ∀ (k : Nat) (x : α), xs[k]? = some x → ys[k]? = some x) : xs.size ≤ ys.size := by
  by_contra hlt
  have := h _ _ (Array.getElem?_eq_getElem (by omega : ys.size < xs.size))
  simp at this

/-- What a search for an upvalue called `name` leads to: `f` may have got more upvalues, and variables
of the functions around it may have been captured. -/
structure Resolved (name : Bytes) (f : Func) (outer : List Func) (i : Option Nat) (f' : Func)
    (outer' : List Func) : Prop where
  fn : f' = { f with upvalues := f'.upvalues }
  upvalues : ∀ (k : Nat) (u : Upvalue), f.upvalues[k]? = some u → f'.upvalues[k]? = some u
  count : f'.upvalues.size ≤ 255
  outer : List.Forall₂ Captured outer outer'
  around : ∀ g ∈ outer', g.Scoped
  env : Linked f' outer'
  found : ∀ k, i = some k → ∃ u, f'.upvalues[k]? = some u ∧ u.name = name
  missing : i = none → name ≠ envName ∧ ∀ g ∈ outer', g.findLocal? name = none

theorem Resolved.captured {f' : Func} {outer' : List Func} {i : Option Nat}
    (h : Resolved name f outer i f' outer') : Captured f f' := by
  refine ⟨?_, ?_, ?_, h.upvalues⟩
  · rw [h.fn]
  · rw [h.fn]
  · rw [h.fn]
    exact fun _ hr => hr

theorem Resolved.known {i : Nat} (hf : f.upvalues.size ≤ 255) (ho : ∀ g ∈ outer, g.Scoped) (henv : Linked f outer)
    (hfind : f.findUpvalue? name = some i) : Resolved name f outer (some i) f outer where
  fn := rfl
  upvalues _ _ hu := hu
  count := hf
  outer := forall₂_captured_refl _
  around := ho
  env := henv
  found k hk := Option.some.inj hk ▸ Func.findUpvalue?_eq_some hfind
  missing h := by simp at h

theorem Resolved.add {f' g : Func} {rest : List Func} {isLocal : Bool}
    {index : Int} {i : Nat} (hadd : addUpvalue f name isLocal index = .ok (f', i))
    (hnew : f.findUpvalue? name = none) (hnodup : (f.upvalues.toList.map Upvalue.name).Nodup)
    (hold : ∀ u ∈ f.upvalues, u.LinksTo g) (hlink : Upvalue.LinksTo ⟨name, isLocal, index⟩ g)
    (houter : List.Forall₂ Captured outer (g :: rest)) (haround : ∀ h ∈ g :: rest, h.Scoped)
    (henv : Linked g rest) : Resolved name f outer (some i) f' (g :: rest) := by
  unfold addUpvalue at hadd
  by_cases hle : (f.upvalues.size : Int) + 1 > maxUpvalues
  · simp [hle] at hadd
  · simp only [hle, if_false, Except.ok.injEq, Prod.mk.injEq] at hadd
    obtain ⟨rfl, rfl⟩ := hadd
    simp only [maxUpvalues] at hle
    have hne := Func.findUpvalue?_eq_none hnew
    exact {
      fn := rfl
      upvalues := fun k u hu => by
        have hlt := lt_size_of_some hu
        rw [Array.getElem?_push, if_neg (by omega), hu]
      count := by simp only [Array.size_push]; omega
      outer := houter
      around := haround
      env := by
        refine ⟨?_, fun u hu => ?_, henv⟩
        · rw [Array.toList_push, List.map_append, List.nodup_append']
          refine ⟨hnodup, by simp, fun x hx hx' => ?_⟩
          obtain ⟨u, hu, rfl⟩ := List.mem_map.1 hx
          exact hne u (by simpa using hu) (by simpa using hx')
        · rcases Array.mem_push.1 hu with hu | rfl
          · exact hold u hu
          · exact hlink
      found := fun k hk => ⟨_, by
        cases hk
        exact Array.getElem?_push_size .., rfl⟩
      missing := by simp }

theorem Func.Scoped.captureIn {reg : Nat} (h : f.Scoped)
    (hfind : f.findLocal? name = some reg) (hname : ¬ IsHidden name) :
    Func.Scoped { f with scopes := captureIn reg f.scopes } := by
  obtain ⟨hreg, v, hv, rfl⟩ := Func.findLocal?_eq_some hfind
  exact ⟨h.active, h.upvalues, captureIn_ok h.scopes (Int.natCast_nonneg _) hreg,
    h.loops.captureIn h.scopes hreg hv hname⟩

theorem Captured.captureIn (f : Func) (reg : Nat) :
    Captured f { f with scopes := captureIn reg f.scopes } :=
  ⟨rfl, captureIn_erase .., fun _ h => h.captureIn, fun _ _ h => h⟩

theorem Func.Scoped.scopes_ne_nil {reg : Nat} (h : f.Scoped) (hreg : (reg : Int) < f.active) : f.scopes ≠ [] := by
  intro hs
  have := h.scopes
  rw [hs] at this
  have := this.1
  omega

/-- The result of a search is in order, if there is one, and the search finds all it looks at. -/
theorem resolveUpvalue_spec (hname : ¬ IsHidden name)
    (hf : f.upvalues.size ≤ 255) (ho : ∀ g ∈ outer, g.Scoped) (henv : Linked f outer) :
    match resolveUpvalue name f outer with
    | .ok (i, f', outer') => Resolved name f outer i f' outer'
    | .error (.error _) => True
    | .error .noPlace => False := by
  induction outer generalizing f with
  | nil =>
    unfold resolveUpvalue
    cases hfind : f.findUpvalue? name with
    | some i => exact .known hf ho henv hfind
    | none =>
      refine ⟨rfl, fun _ _ hu => hu, hf, .nil, ho, henv, by simp, fun _ => ⟨?_, by simp⟩⟩
      rintro rfl
      have hu : f.upvalues = #[⟨envName, true, 0⟩] := henv
      exact Func.findUpvalue?_eq_none hfind ⟨envName, true, 0⟩ (by simp [hu]) rfl
  | cons parent rest ih =>
    have hparent := ho parent (by simp)
    obtain ⟨hnodup, hold, hrest⟩ := henv
    unfold resolveUpvalue
    cases hfind : f.findUpvalue? name with
    | some i => exact .known hf ho ⟨hnodup, hold, hrest⟩ hfind
    | none =>
      simp only
      rw [if_neg (by have := hparent.active.2; omega)]
      cases hlocal : parent.findLocal? name with
      | some reg =>
        have hreg := (Func.findLocal?_eq_some hlocal).1
        have hne := hparent.scopes_ne_nil hreg
        simp only [List.isEmpty_eq_false_iff.2 hne, Bool.false_eq_true, if_false]
        have hcap := Captured.captureIn parent reg
        cases hadd : addUpvalue f name true reg with
        | error => trivial
        | ok r =>
          refine .add hadd hfind hnodup (fun u hu => (hold u hu).captured hcap)
            ⟨reg, rfl, ?_, capturedAt_captureIn hne⟩ (.cons hcap (forall₂_captured_refl _)) ?_
            (hrest.congr rfl)
          · rw [hcap.findLocal?, hlocal]
          · rintro g hg
            rcases List.mem_cons.1 hg with rfl | hg
            · exact hparent.captureIn hlocal hname
            · exact ho g (by simp [hg])
      | none =>
        have hrec := ih hparent.upvalues (fun g hg => ho g (by simp [hg])) hrest
        cases hres : resolveUpvalue name parent rest with
        | error fault =>
          rw [hres] at hrec
          cases fault <;> exact hrec
        | ok r =>
          obtain ⟨i, parent', rest'⟩ := r
          rw [hres] at hrec
          have hcap : Captured parent parent' := hrec.captured
          have hscoped : parent'.Scoped := by
            have hup := hrec.count
            rw [hrec.fn] at hup ⊢
            exact ⟨hparent.active, hup, hparent.scopes, hparent.loops⟩
          have haround : ∀ g ∈ parent' :: rest', g.Scoped := by
            rintro g hg
            rcases List.mem_cons.1 hg with rfl | hg
            · exact hscoped
            · exact hrec.around g hg
          have hold' : ∀ u ∈ f.upvalues, u.LinksTo parent' := fun u hu => (hold u hu).captured hcap
          cases i with
          | none =>
            obtain ⟨hglobal, hnone⟩ := hrec.missing rfl
            refine ⟨rfl, fun _ _ hu => hu, hf, .cons hcap hrec.outer, haround,
              ⟨hnodup, hold', hrec.env⟩, by simp, fun _ => ⟨hglobal, ?_⟩⟩
            rintro g hg
            rcases List.mem_cons.1 hg with rfl | hg
            · rw [hcap.findLocal?, hlocal]
            · exact hnone g hg
          | some j =>
            simp only
            cases hadd : addUpvalue f name false j with
            | error => trivial
            | ok r =>
              obtain ⟨u, hu, hun⟩ := hrec.found j rfl
              refine .add hadd hfind hnodup hold' ⟨j, rfl, ?_, u, hu, hun⟩
                (.cons hcap hrec.outer) haround hrec.env
              rw [hcap.findLocal?, hlocal]

section Names
variable {s0 s t : GenState} {H : Set Nat} {e e' : Operand} {ts fs : List Nat}

open Operand (InRegister KeyPlaced)

theorem Gen.makeUpvalue_spec (h : s.Ok H) (hname : ¬ IsHidden name) :
    (makeUpvalue name).Ensures s fun r t => t.Ok H ∧ Evolves s t ∧ t.fn.free = s.fn.free ∧
      Resolved name s.fn s.outer r t.fn t.outer := by
  unfold makeUpvalue
  simp only [ensures_bind, ensures_get]
  have hres := resolveUpvalue_spec hname h.fn.upvalues h.outer h.env
  cases hr : resolveUpvalue name s.fn s.outer with
  | error fault =>
    rw [hr] at hres
    cases fault with
    | error cause => simp
    | noPlace => exact hres.elim
  | ok r =>
    obtain ⟨i, f, outer⟩ := r
    rw [hr] at hres
    obtain ⟨us, rfl⟩ : ∃ us, f = { s.fn with upvalues := us } := ⟨_, hres.fn⟩
    have hle : s.fn.bounds.Le (Func.bounds { s.fn with upvalues := us }) :=
      ⟨le_rfl, le_rfl, size_le_of_getElem? hres.upvalues, le_rfl⟩
    refine ⟨?_, ?_, rfl, hres⟩
    · exact {
        fn := { h.fn with upvalues := hres.count, code := h.fn.code.mono hle le_rfl }
        inner := h.inner
        outer := hres.around
        env := hres.env
        ends := h.ends
        held := h.held }
    · exact { Evolves.refl s with outer := hres.outer, bounds := hle }

/-- What a name of a variable stands for: a local variable or an upvalue. -/
def IsNamed (f : Func) (e : Operand) : Prop :=
  (∃ reg : Nat, e = .plain .local reg ∧ (reg : Int) < f.active) ∨
    ∃ i : Nat, e = .plain .upvalue i ∧ i < f.upvalues.size

theorem Gen.localOrUpvalue_spec (h : s.Ok H) (hname : ¬ IsHidden name) :
    (localOrUpvalue name).Ensures s fun r t => t.Ok H ∧ Evolves s t ∧ t.fn.free = s.fn.free ∧
      (∀ e, r = some e → IsNamed t.fn e) ∧ (name = envName → r ≠ none) := by
  unfold localOrUpvalue
  simp only [ensures_bind, ensures_getFn]
  rw [ensures_require (by simpa using h.fn.active.2)]
  cases hfind : s.fn.findLocal? name with
  | some reg =>
    refine ⟨h, .refl s, rfl, fun e he => .inl ⟨reg, (Option.some.inj he).symm, ?_⟩, by simp⟩
    exact (Func.findLocal?_eq_some hfind).1
  | none =>
    refine .bind (makeUpvalue_spec h hname) ?_
    rintro r t ⟨hok, hev, hfree, hres⟩
    cases r with
    | none => exact ⟨hok, hev, hfree, by simp, fun henv => absurd henv (hres.missing rfl).1⟩
    | some i =>
      obtain ⟨u, hu, -⟩ := hres.found i rfl
      exact ⟨hok, hev, hfree, fun e he => .inr ⟨i, (Option.some.inj he).symm, (lt_size_of_some hu)⟩, by simp⟩

theorem IsNamed.yields (he : IsNamed t.fn e) (h0 : s0.Ok H) (hbase : s0.fn.active ≤ s0.fn.free)
    (hok : t.Ok H) (hev : Evolves s0 t) (hfree : t.fn.free = s0.fn.free) : Yields s0 H e t [] [] := by
  rcases he with ⟨reg, rfl, hreg⟩ | ⟨i, rfl, hi⟩
  · exact .of_plain h0 hbase hok hev (by simp) ⟨Int.natCast_nonneg _, hreg, hfree⟩
  · exact .of_plain h0 hbase hok hev (by simp) ⟨Int.natCast_nonneg _, Int.ofNat_lt.2 hi, hfree⟩

theorem Gen.stringOperand_spec {v : Bytes} (h : s.Ok H) : (stringOperand v).Ensures s fun e t => t.Ok H ∧ Evolves s t ∧
      t = s.withConstants t.fn.constants t.fn.constantPlaces ∧
      ∃ n : Nat, e = .plain .constant n ∧ n < t.fn.constants.size := by
  refine .bind (internConstant_spec h rfl) ?_
  rintro _ t ⟨hok, hev, ht, n, rfl, -, hc⟩
  exact ⟨hok, hev, ht, n, rfl, (lt_size_of_some hc)⟩

theorem Gen.indexed_spec {table key : Operand} {kind : Operand.Kind} {info : Int} {s1 : GenState}
    (h : Yields s0 H table s1 [] []) (htable : table = .plain kind info)
    (hkind : kind = .upvalue ∨ kind = .local ∨ kind = .nonRelocatable) (hkey : Yields s1 H key s ts fs) :
    (indexed table key).Ensures s fun e t => Yields s0 H e t [] [] ∧
      ∃ inUpvalue rk, e = .plain (.indexed inUpvalue rk) info := by
  subst htable
  unfold indexed
  rw [ensures_bind, ensures_require (by simp [Operand.plain, Operand.carriesJumps])]
  refine .bind (toRK_spec hkey) ?_
  rintro ⟨key', rk⟩ t ⟨hok, hev, hnamed⟩
  have hkp := hnamed.keyPlaced
  have hplaced := h.placed
  have hactive := hev.active
  have hup := hev.bounds.upvalues
  simp only [Func.bounds] at hup
  have hev' := h.evolves.trans hev
  rcases hkind with rfl | rfl | rfl
  · obtain ⟨h1, h2, hfree⟩ := hplaced
    rw [hfree] at hkp
    refine ⟨.of_plain h.start h.base hok hev' (by simp) ⟨h1, ?_, hkp⟩, _, _, rfl⟩
    exact h2.trans_le (by simpa using hup)
  · obtain ⟨h1, h2, hfree⟩ := hplaced
    rw [hfree] at hkp
    exact ⟨.of_plain h.start h.base hok hev' (by simp) (.inl ⟨h1, hactive ▸ h2, hkp⟩), _, _, rfl⟩
  · refine ⟨.of_plain h.start h.base hok hev' (by simp) ?_, _, _, rfl⟩
    rcases hplaced with ⟨h1, h2, hfree⟩ | ⟨h1, hfree⟩
    · rw [hfree] at hkp
      exact .inl ⟨h1, hactive ▸ h2, hkp⟩
    · rw [hfree] at hkp
      exact .inr ⟨h1, hkp⟩

theorem Gen.namedVariable_spec (h : s.Ok H) (hbase : s.fn.active ≤ s.fn.free) (hname : ¬ IsHidden name) :
    (namedVariable name).Ensures s fun e t => Yields s H e t [] [] ∧ e.isVariable := by
  refine .bind (localOrUpvalue_spec h hname) ?_
  rintro r s1 ⟨hok1, hev1, hfree1, hnamed1, hknown1⟩
  cases r with
  | some e =>
    refine ⟨(hnamed1 e rfl).yields h hbase hok1 hev1 hfree1, ?_⟩
    rcases hnamed1 e rfl with ⟨_, rfl, -⟩ | ⟨_, rfl, -⟩ <;> rfl
  | none =>
    simp only [ensures_bind]
    rw [ensures_require (by simpa using fun hname => hknown1 hname rfl)]
    refine (localOrUpvalue_spec hok1 not_isHidden_envName).mono ?_
    rintro r s2 ⟨hok2, hev2, hfree2, hnamed2, hknown2⟩
    have hev := hev1.trans hev2
    have hfree := hfree2.trans hfree1
    cases r with
    | none => exact absurd rfl (hknown2 rfl)
    | some env =>
      have henv := (hnamed2 env rfl).yields h hbase hok2 hev hfree
      refine .bind (stringOperand_spec hok2) ?_
      rintro _ s3 ⟨hok3, hev3, hs3, n, rfl, hn⟩
      have hkey : Yields s2 H (.plain .constant n) s3 [] [] := by
        refine .of_plain hok2 ?_ hok3 hev3 (by simp) ⟨?_, ?_⟩
        · rw [hfree, hev.active]
          exact hbase
        · simp only [Operand.plain, Operand.Ready]
          omega
        · rw [hs3]
          rfl
      obtain ⟨kind, info, rfl, hkind⟩ : ∃ kind info, env = .plain kind info ∧
          (kind = .upvalue ∨ kind = .local ∨ kind = .nonRelocatable) := by
        rcases hnamed2 env rfl with ⟨reg, rfl, -⟩ | ⟨i, rfl, -⟩
        · exact ⟨_, _, rfl, .inr (.inl rfl)⟩
        · exact ⟨_, _, rfl, .inl rfl⟩
      refine (indexed_spec henv rfl hkind hkey).mono ?_
      rintro e t ⟨hy, inUpvalue, rk, rfl⟩
      exact ⟨hy, rfl⟩

end Names

/-! ## Assignment -/

section Assign
variable {s0 s t : GenState} {H : Set Nat} {e e' v : Operand} {ts fs : List Nat}

open Operand (InRegister KeyPlaced)

def Operand.Assignable (f : Func) (v : Operand) : Prop :=
  match v.kind with
  | .local => 0 ≤ v.info ∧ v.info < f.active
  | .upvalue => 0 ≤ v.info ∧ v.info < f.upvalues.size
  | .indexed Bool.true key => 0 ≤ v.info ∧ v.info < f.upvalues.size ∧ f.bounds.HasRK key
  | .indexed Bool.false key => 0 ≤ v.info ∧ v.info < f.stack ∧ f.bounds.HasRK key
  | _ => False

theorem Operand.Assignable.mono {g : Func} (h : v.Assignable f) (ha : g.active = f.active)
    (hb : f.bounds.Le g.bounds) : v.Assignable g := by
  have hstack := hb.stack
  have hup := hb.upvalues
  simp only [Func.bounds] at hstack hup
  unfold Operand.Assignable at h ⊢
  rw [ha]
  cases hk : v.kind with
  | «local» => simpa only [hk] using h
  | upvalue =>
    simp only [hk] at h
    exact ⟨h.1, h.2.trans_le (by omega)⟩
  | indexed inUpvalue key =>
    cases inUpvalue <;> simp only [hk] at h <;>
      exact ⟨h.1, h.2.1.trans_le (by omega), h.2.2.mono hb⟩
  | _ => simp only [hk] at h

theorem Operand.isPlace_of_isVariable (h : e.isVariable) : e.isPlace := by
  unfold Operand.isVariable at h
  unfold Operand.isPlace
  split at h <;> simp_all

theorem Yields.ok_place (h : Yields s0 H e s ts fs) (hp : e.isPlace) : s.Ok H := by
  have hown : e.ownJump = [] := by
    unfold Operand.ownJump
    rw [if_neg]
    intro hk
    simp [Operand.isPlace, hk] at hp
  have hok := h.ok
  rwa [(h.plain hp).1, (h.plain hp).2, hown, List.append_nil, List.append_nil, held_nil] at hok

theorem Yields.assignable (h : Yields s0 H e s ts fs) (hv : e.isVariable) : e.Assignable s.fn := by
  have hplaced := h.placed
  have hactive := h.active_le
  have hbase := h.start.fn.free.1
  have hroom := h.room
  have hok := h.ok_place (Operand.isPlace_of_isVariable hv)
  unfold Operand.Placed at hplaced
  unfold Operand.Assignable
  cases hk : e.kind with
  | «local» | upvalue =>
    simp only [hk] at hplaced
    exact ⟨hplaced.1, hplaced.2.1⟩
  | indexed inUpvalue key =>
    cases inUpvalue with
    | true =>
      simp only [hk] at hplaced
      exact ⟨hplaced.1, hplaced.2.1, KeyPlaced.hasRK hplaced.2.2 hok hactive hbase⟩
    | false =>
      simp only [hk] at hplaced
      have hfree := hok.fn.free
      rcases hplaced with ⟨h1, h2, hkey⟩ | ⟨h1, hkey⟩
      · exact ⟨h1, by omega, KeyPlaced.hasRK hkey hok hactive hbase⟩
      · refine ⟨by omega, ?_, KeyPlaced.hasRK hkey hok (by omega) (by omega)⟩
        rcases hkey with hkey | hkey | hkey <;> omega
  | _ => simp [Operand.isVariable, hk] at hv

theorem Gen.toRegister_of_discharge (n0 : Nat) {reg : Int} {Q : Operand → GenState → Prop}
    (h : (discharge e).Ensures s fun e' t => e'.Ready n0 t.fn ∧ (toRegister e' reg).Ensures t Q) :
    (toRegister e reg).Ensures s Q := by
  unfold toRegister dischargeTo
  simp only [bind_assoc]
  refine .bind h ?_
  rintro e' t ⟨hr, hto⟩
  unfold toRegister dischargeTo at hto
  rw [discharge_of_ready hr, pure_bind] at hto
  simpa only [bind_assoc] using hto

theorem Gen.storeLocal_spec {reg : Int} (h : Yields s0 H e s ts fs) (hk : e.isOpen = false)
    (hreg : 0 ≤ reg ∧ reg < s.fn.active) :
    (do
      releaseOperand e
      let _ ← toRegister e reg : Gen Unit).Ensures s fun _ t =>
        t.Ok H ∧ Evolves s0 t ∧ t.fn.free = s0.fn.free := by
  have hbase := h.start.fn.free.1
  have hroom := h.room
  have hactive := h.active_le
  by_cases hnon : e.kind = .nonRelocatable
  · have hr := h.ready (by simp [Operand.isPlace, hnon])
    rw [ensures_bind, ensures_releaseOperand h hr.isPlace]
    refine .bind (toRegister_spec (h.toCarries.evolve (.withFree s s0.fn.free)
      (h.ok.withFree ⟨hbase, hroom⟩)) (hr.mono rfl rfl (.refl _)) ⟨hreg.1, ?_⟩) ?_
    · simp only [GenState.withFree]
      omega
    · rintro _ t ⟨-, hok, hev, hfree⟩
      exact ⟨hok, hev, hfree⟩
  · have hnone : releaseOperand e = pure () := by
      unfold releaseOperand
      split
      · exact absurd ‹_› hnon
      · rfl
    rw [hnone, pure_bind]
    have hdone : (toRegister e reg).Ensures s fun _ t =>
        t.Ok H ∧ Evolves s0 t ∧ t.fn.free = s0.fn.free := by
      refine toRegister_of_discharge s0.fn.code.size ((discharge_spec h).mono ?_)
      rintro e1 t ⟨h1, hr, hfree⟩
      have hfree := hfree hnon (by rintro hc; simp [Operand.isOpen, hc] at hk)
      have hroom := h1.room
      refine ⟨hr, (toRegister_spec h1.toCarries hr ⟨hreg.1, by omega⟩).mono ?_⟩
      rintro _ t ⟨-, hok, hev, hfree'⟩
      exact ⟨hok, hev, hfree'.trans hfree⟩
    exact .bind hdone fun _ _ h => h

theorem Gen.ensures_releaseNamed {Q : Unit → GenState → Prop} {r rk : Int}
    (h : e.NamedBy s.fn r rk) (hr : s.fn.active ≤ r) (h0 : 0 ≤ r) (hfree : s.fn.free ≤ 249) :
    (releaseOperand e).Ensures s Q ↔ Q () (s.withFree r) := by
  rcases h with ⟨k, rfl, -, -, -, hf⟩ | ⟨rfl, h⟩
  · rw [← hf]
    exact ensures_pure
  · exact ensures_release h hr h0 hfree

theorem Gen.store_spec (h : Yields s0 H e s ts fs) (hk : e.isOpen = false) (hv : v.Assignable s0.fn) :
    (store v e).Ensures s fun _ t => t.Ok H ∧ Evolves s0 t ∧ t.fn.free = s0.fn.free := by
  have hbase := h.start.fn.free.1
  -- One instruction stores the value, and then its register is free again.
  have hset : ∀ {t : GenState} {e' : Operand} {rk a b c : Int} {op : Opcode}, t.Ok H →
      Evolves s0 t → e'.NamedBy t.fn s0.fn.free rk → op.info.mode = .abc →
      op.info.b ≠ .unused → (op.info.c ≠ .unused ∨ c = 0) → 0 ≤ a ∧ a ≤ maxA →
      0 ≤ b ∧ b ≤ maxB → 0 ≤ c ∧ c ≤ maxC →
      (∀ i : Instr, i.Encodes op a b c → i.Fits t.fn.bounds ∧ i.next? = none) →
      (do
        let _ ← emitABC op a b c
        releaseOperand e' : Gen Unit).Ensures t fun _ u =>
          u.Ok H ∧ Evolves s0 u ∧ u.fn.free = s0.fn.free := by
    intro t e' rk a b c op hok hev hnamed hmode hb0 hc0 ha hb hc hfit
    refine .bind (emitABC_ok hok hmode (.inl hb0) hc0 ha hb hc hfit) ?_
    rintro _ _ ⟨-, i, hi, rfl, hok', hev'⟩
    have hstack := hok'.fn.stack
    have hfree := hok'.fn.free
    have hroom : s0.fn.free ≤ (t.push i).fn.stack :=
      h.start.fn.free.2.trans (hev.trans hev').bounds.stack
    have hnamed' : e'.NamedBy (t.push i).fn s0.fn.free rk := hnamed
    rw [ensures_releaseNamed hnamed' ((hev.trans hev').active ▸ h.base) hbase (by omega)]
    exact ⟨hok'.withFree ⟨hbase, hroom⟩, (hev.trans hev').trans (.withFree ..), rfl⟩
  unfold store
  cases hkind : v.kind with
  | «local» =>
    simp only [Operand.Assignable, hkind] at hv
    exact storeLocal_spec h hk (h.evolves.active ▸ hv)
  | upvalue =>
    refine .bind (toAnyRegister_spec h) ?_
    rintro _ t ⟨reg, rfl, hok, hev, hreg⟩
    have hvt := hv.mono hev.active hev.bounds
    simp only [Operand.Assignable, hkind] at hvt
    have hactive : t.fn.active ≤ s0.fn.free := hev.active ▸ h.base
    have hstack := hok.fn.stack
    have hfree := hok.fn.free
    have hup := hok.fn.upvalues
    have hlt : 0 ≤ reg ∧ reg < t.fn.stack := by rcases hreg with hreg | hreg <;> omega
    refine hset hok hev (.inr ⟨rfl, hreg⟩) rfl (by decide) (.inr rfl)
      (by simp only [Operand.plain, maxA]; omega) (by simp only [maxB]; omega) (by decide)
      fun i hi => ⟨?_, Instr.next?_eq_none hi.op (by decide)⟩
    have ha := hi.a
    have hb := hi.b
    simp only [Operand.plain] at ha
    simp only [Instr.Fits, hi.op, Func.bounds]
    omega
  | indexed inUpvalue key =>
    refine .bind (toRK_spec h) ?_
    rintro ⟨e', rk⟩ t ⟨hok, hev, hnamed⟩
    have hvt := hv.mono hev.active hev.bounds
    have hactive : t.fn.active ≤ s0.fn.free := hev.active ▸ h.base
    have hstack := hok.fn.stack
    have hup := hok.fn.upvalues
    have hrk := KeyPlaced.hasRK hnamed.keyPlaced hok hactive hbase
    cases inUpvalue with
    | true | false =>
      simp only [Operand.Assignable, hkind] at hvt
      refine hset hok hev hnamed rfl (by decide) (.inl (by decide)) (by simp only [maxA]; omega)
        (hvt.2.2.le hstack.2) (hrk.le hstack.2)
        fun i hi => ⟨?_, Instr.next?_eq_none hi.op (by decide)⟩
      have ha := hi.a
      simp only [Instr.Fits, hi.op, hi.b, hi.c]
      exact ⟨by simp only [Func.bounds]; omega, hvt.2.2, hrk⟩
  | _ => simp [Operand.Assignable, hkind] at hv

theorem Yields.rebase (h : Yields s0 H e s ts fs) : Evolves s0 (s0.withConstants s.fn.constants s.fn.constantPlaces) ∧
      Yields (s0.withConstants s.fn.constants s.fn.constantPlaces) H e s ts fs := by
  have hle : s0.fn.bounds.Le (s0.withConstants s.fn.constants s.fn.constantPlaces).fn.bounds :=
    ⟨le_rfl, h.evolves.bounds.constants, le_rfl, le_rfl⟩
  have hstart : (s0.withConstants s.fn.constants s.fn.constantPlaces).Ok H := {
    fn := { h.start.fn with
      code := h.start.fn.code.mono hle le_rfl
      places := h.ok.fn.places
      constants := h.ok.fn.constants }
    inner := h.start.inner
    outer := h.start.outer
    env := h.start.env.congr rfl
    ends := h.start.ends
    held := h.start.held }
  refine ⟨{ Evolves.refl s0 with bounds := hle, constants := h.evolves.constants }, ?_⟩
  exact { h with
    start := hstart
    evolves := { h.evolves with
      bounds := { h.evolves.bounds with constants := le_rfl }
      constants := fun _ _ hc => hc } }

theorem Gen.method_spec {k : Nat} (h : Yields s0 H e s ts fs) (hk : k < s.fn.constants.size) :
    (method e (.plain .constant k)).Ensures s fun e' t =>
      e' = .plain .nonRelocatable s0.fn.free ∧ t.Ok H ∧ Evolves s0 t ∧ t.fn.free = s0.fn.free + 2 := by
  have hbase := h.start.fn.free.1
  obtain ⟨hev0, h'⟩ := h.rebase
  refine .bind (toAnyRegister_spec h') ?_
  rintro _ t ⟨reg, rfl, hok, hev, hreg'⟩
  have hev' := hev0.trans hev
  have hreg : InRegister t.fn s0.fn.free reg := hreg'
  have hy : Yields s0 H (.plain .nonRelocatable reg) t [] [] :=
    .of_plain h.start h.base hok hev' (by simp) hreg
  have hactive : t.fn.active ≤ s0.fn.free := hev'.active ▸ h.base
  have hfree := hok.fn.free
  have hconst : s.fn.constants.size ≤ t.fn.constants.size := hev.bounds.constants
  have hroom : s0.fn.free ≤ t.fn.stack := h.start.fn.free.2.trans hev'.bounds.stack
  have hlt : 0 ≤ reg ∧ reg < t.fn.stack := by rcases hreg with hreg | hreg <;> omega
  rw [ensures_bind, ensures_releaseOperand hy rfl]
  simp only [ensures_bind, ensures_firstFree]
  have hok1 : (t.withFree s0.fn.free).Ok H := hok.withFree ⟨hbase, hroom⟩
  have hres : ((reserve 2).Ensures (t.withFree s0.fn.free) fun _ u =>
      u = (t.withFree s0.fn.free).reserved 2 ∧ u.Ok H) := by
    rw [ensures_reserve hok1.fn.stack.2]
    exact fun hle => ⟨rfl, hok1.reserved (by simp only [GenState.withFree]; omega) hle⟩
  refine Ensures.mono hres ?_
  rintro - u ⟨hu, hok2⟩
  have hfree2 : u.fn.free = s0.fn.free + 2 := by rw [hu]; rfl
  have hactive2 : u.fn.active = t.fn.active := by rw [hu]; rfl
  have hev2 : Evolves t u := by rw [hu]; exact (Evolves.withFree ..).trans (.reserved ..)
  have hsize2 : u.fn.constants = t.fn.constants := by rw [hu]; rfl
  have hkey : Yields u H (.plain .constant k) u [] [] := by
    refine .of_plain hok2 (by omega) hok2 (.refl u) (by simp) ⟨?_, rfl⟩
    simp only [Operand.plain, Operand.Ready, hsize2]
    omega
  refine (toRK_spec hkey).mono ?_
  rintro ⟨key, rk⟩ w ⟨hok3, hev3, hnamed⟩
  have hactive3 : w.fn.active ≤ u.fn.free := by
    have := hev3.active
    omega
  have hrk := KeyPlaced.hasRK hnamed.keyPlaced hok3 hactive3 (by omega)
  have hstack3 := hok3.fn.stack
  have hle3 := hev3.bounds.stack
  have hle2 := hev2.bounds.stack
  simp only [Func.bounds] at hle2 hle3
  have hfreeu := hok2.fn.free.2
  refine (emitABC_ok hok3 rfl (.inl (by decide)) (.inl (by decide))
    (by simp only [GenState.withFree, maxA]; omega) (by simp only [Operand.plain, maxB]; omega) (hrk.le hstack3.2)
    fun i hi => ⟨?_, Instr.next?_eq_none hi.op (by decide)⟩).mono ?_
  · have ha := hi.a
    have hb := hi.b
    simp only [GenState.withFree] at ha
    simp only [Operand.plain] at hb
    simp only [Instr.Fits, hi.op, hi.c]
    exact ⟨by simp only [Func.bounds]; omega, by simp only [Func.bounds]; omega, hrk⟩
  · rintro _ _ ⟨-, i, hi, rfl, hok4, hev4⟩
    have hnamed' : key.NamedBy (w.push i).fn u.fn.free rk := hnamed
    have hfree4 := hok4.fn.free
    have hstack4 := hok4.fn.stack
    rw [ensures_releaseNamed hnamed' (by exact hactive3) (by omega) (by omega)]
    refine ⟨rfl, hok4.withFree ⟨by omega, ?_⟩,
      hev'.trans (hev2.trans (hev3.trans (hev4.trans (.withFree ..)))), hfree2⟩
    exact hok2.fn.free.2.trans (hev3.trans hev4).bounds.stack

end Assign

end RegisterCompiler
