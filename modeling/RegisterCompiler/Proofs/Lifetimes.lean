import RegisterCompiler.Proofs.Lists

/-!
# Lifetimes of local variables

* `Enclosed` : control leaves the range of a variable only by jumps that close it;
* `Func.Lives f H X` : variables start and end in order, a jump back before the start of an active
  variable closes it, and so does every way out of the range of a captured one. The jumps at the
  places in `H` are open.
-/

namespace RegisterCompiler

open Gen

/-! ## Registers of records -/

/-- The record at place `k` is that of an active variable. -/
def Func.isActive (f : Func) (k : Nat) : Bool :=
  (f.declared.toList.take f.active.toNat).contains k

/-- The variable of the record at place `j` is live at `x`, as far as is known yet. -/
def Func.isLive (f : Func) (x : Int) (j : Nat) : Bool :=
  f.locals[j]?.any fun u => u.startPC ≤ x && (x < u.endPC || f.isActive j)

/-- The register of the variable with the record at place `k`: as many variables before it are live
where it starts. -/
def Func.registerOf (f : Func) (k : Nat) : Nat :=
  match f.locals[k]? with
  | none => 0
  | some v => (List.range k).countP (f.isLive v.startPC)

theorem Func.isActive_iff {f : Func} {k : Nat} :
    f.isActive k = true ↔ ∃ r : Nat, (r : Int) < f.active ∧ f.declared[r]? = some k := by
  simp only [Func.isActive, List.contains_iff_mem, List.mem_take_iff_getElem, Array.length_toList]
  constructor
  · rintro ⟨r, hr, rfl⟩
    exact ⟨r, by omega, by simp⟩
  · rintro ⟨r, hr, hk⟩
    obtain ⟨hlt, rfl⟩ := Array.getElem?_eq_some_iff.1 hk
    exact ⟨r, by omega, by simp⟩

theorem Func.record?_eq_some {f : Func} {r : Nat} {v : LocalVar} :
    f.record? r = some v ↔ ∃ k, f.declared[r]? = some k ∧ f.locals[k]? = some v := by
  simp [Func.record?, Option.bind_eq_some_iff]

/-! ## Ranges -/

/-- Control leaves the range from `start` to `stop` only by jumps that close register `r`. An open
jump closes it already, unless it is exempt for now. -/
structure Enclosed (code : Array Instr) (H : Set Nat) (X : Set (Nat × Nat)) (start stop : Int)
    (r : Nat) : Prop where
  jumps : ∀ (p : Nat) (i : Instr), start ≤ p → (p : Int) < stop → code[p]? = some i → i.isJump →
    i.Closes r ∨ (p, r) ∈ X ∨ (p ∉ H ∧ start ≤ i.target p ∧ i.target p < stop)
  last : ∀ (p : Nat) (i : Instr), start ≤ p → (p : Int) + 1 = stop → code[p]? = some i → i.Closes r
  single : ∀ (p : Nat) (i : Instr), start ≤ p → (p : Int) + 2 = stop → code[p]? = some i →
    i.next? = none

/-- The range of a variable that has ended lies after or inside that of each one declared before it.
Once a variable waits for its start, so do all that are declared later. -/
structure Func.Ranges (f : Func) : Prop where
  waiting : ∀ (r j k : Nat) (v : LocalVar), f.active ≤ r → f.declared[r]? = some j → j < k →
    f.locals[k]? = some v → k ∈ f.declared
  forward : ∀ (k : Nat) (v : LocalVar), f.locals[k]? = some v → k ∉ f.declared → v.startPC ≤ v.endPC
  nested : ∀ (j k : Nat) (u v : LocalVar), j < k → f.locals[j]? = some u → f.locals[k]? = some v →
    k ∉ f.declared → u.startPC ≤ v.startPC ∧
      (f.isActive j ∨ u.endPC ≤ v.startPC ∨ v.endPC ≤ u.endPC)

/-- The variables of a function start and end in order, and captured ones are closed. -/
structure Func.Lives (f : Func) (H : Set Nat) (X : Set (Nat × Nat)) : Prop where
  declared : f.declared.toList.Pairwise (· < ·)
  fresh : ∀ (r : Nat) (v : LocalVar), f.active ≤ r → f.record? r = some v → v.endPC = 0
  started : ∀ (r : Nat) (v : LocalVar), (r : Int) < f.active → f.record? r = some v →
    0 ≤ v.startPC ∧ v.startPC ≤ f.code.size
  ordered : ∀ (r r' : Nat) (v v' : LocalVar), r ≤ r' → (r' : Int) < f.active →
    f.record? r = some v → f.record? r' = some v' → v.startPC ≤ v'.startPC
  ended : ∀ (k : Nat) (v : LocalVar), f.locals[k]? = some v → f.isActive k = false →
    0 ≤ v.startPC ∧ v.endPC ≤ f.code.size
  before : ∀ (r k : Nat) (v : LocalVar), (r : Int) < f.active → f.declared[r]? = some k →
    f.locals[k]? = some v → ∀ (j : Nat) (u : LocalVar), j < k → f.locals[j]? = some u →
    f.isActive j = false → u.endPC ≤ v.startPC
  aimed : ∀ (r : Nat) (v : LocalVar), (r : Int) < f.active → f.record? r = some v →
    ∀ (p : Nat) (i : Instr), v.startPC ≤ p → f.code[p]? = some i → i.isJump → p ∉ H →
    v.startPC ≤ i.target p ∨ i.Closes r
  marked : ∀ (q r : Nat) (v : LocalVar), f.Captures q r → (r : Int) < f.active →
    f.record? r = some v → v.startPC ≤ q + 1 → CapturedAt r f.scopes
  recent : ∀ q r : Nat, f.code.size = q + 1 → f.Captures q r →
    (r : Int) < f.active ∧ CapturedAt r f.scopes
  closed : ∀ (k : Nat) (v : LocalVar), f.locals[k]? = some v → f.isActive k = false →
    ∀ q : Nat, v.startPC ≤ q + 1 → (q : Int) < v.endPC → f.Captures q (f.registerOf k) →
    Enclosed f.code H X v.startPC v.endPC (f.registerOf k)
  ranges : f.Ranges

theorem register_inj {declared : Array Nat} (h : declared.toList.Nodup) {r r' k : Nat}
    (hr : declared[r]? = some k) (hr' : declared[r']? = some k) : r = r' := by
  rw [← Array.getElem?_toList] at hr hr'
  obtain ⟨hlt, hk⟩ := List.getElem?_eq_some_iff.1 hr
  obtain ⟨hlt', hk'⟩ := List.getElem?_eq_some_iff.1 hr'
  exact h.getElem_inj_iff.1 (hk.trans hk'.symm)

namespace Func.Lives
variable {f g : Func} {H H' : Set Nat} {X X' : Set (Nat × Nat)}

theorem nodup (h : f.Lives H X) : f.declared.toList.Nodup :=
  h.declared.imp fun h => h.ne

theorem inj (h : f.Lives H X) {r r' k : Nat} (hr : f.declared[r]? = some k)
    (hr' : f.declared[r']? = some k) : r = r' :=
  register_inj h.nodup hr hr'

theorem lt_iff (h : f.Lives H X) {r r' k k' : Nat} (hr : f.declared[r]? = some k)
    (hr' : f.declared[r']? = some k') : k < k' ↔ r < r' := by
  have hlt : ∀ {a b x y : Nat}, f.declared[a]? = some x → f.declared[b]? = some y → a < b → x < y := by
    intro a b x y ha hb hab
    rw [← Array.getElem?_toList] at ha hb
    obtain ⟨hla, rfl⟩ := List.getElem?_eq_some_iff.1 ha
    obtain ⟨hlb, rfl⟩ := List.getElem?_eq_some_iff.1 hb
    exact List.pairwise_iff_getElem.1 h.declared a b hla hlb hab
  refine ⟨fun hk => ?_, hlt hr hr'⟩
  rcases Nat.lt_trichotomy r r' with hlt' | rfl | hgt
  · exact hlt'
  · have := Option.some.inj (hr.symm.trans hr')
    omega
  · have := hlt hr' hr hgt
    omega

theorem registerOf_eq (h : f.Lives H X) {r k : Nat} {v : LocalVar} (hr : (r : Int) < f.active)
    (hk : f.declared[r]? = some k) (hv : f.locals[k]? = some v) : f.registerOf k = r := by
  have hlen : r < f.declared.toList.length := by
    simpa using (lt_size_of_some hk)
  -- The variables that are live at the start are those in the registers below.
  have hlive : ∀ j, j < k → (f.isLive v.startPC j = true ↔ j ∈ f.declared.toList.take r) := by
    intro j hj
    have hmem : j ∈ f.declared.toList.take r ↔ ∃ a, a < r ∧ f.declared[a]? = some j := by
      simp only [List.mem_take_iff_getElem, Array.length_toList]
      constructor
      · rintro ⟨a, ha, rfl⟩
        exact ⟨a, by omega, by simp⟩
      · rintro ⟨a, ha, hj⟩
        obtain ⟨hlt, rfl⟩ := Array.getElem?_eq_some_iff.1 hj
        exact ⟨a, by omega, by simp⟩
    rw [hmem, Func.isLive, Option.any_eq_true]
    constructor
    · rintro ⟨u, hu, hlive⟩
      simp only [Bool.and_eq_true, Bool.or_eq_true, decide_eq_true_eq] at hlive
      cases hact : f.isActive j with
      | true =>
        obtain ⟨a, ha, hdecl⟩ := Func.isActive_iff.1 hact
        exact ⟨a, (h.lt_iff hdecl hk).1 hj, hdecl⟩
      | false =>
        have := h.before r k v hr hk hv j u hj hu hact
        rw [hact] at hlive
        simp only [Bool.false_eq_true, or_false] at hlive
        omega
    · rintro ⟨a, ha, hdecl⟩
      have hact : f.isActive j = true := Func.isActive_iff.2 ⟨a, by omega, hdecl⟩
      obtain ⟨u, hu⟩ : ∃ u, f.locals[j]? = some u := by
        have := lt_size_of_some hv
        exact ⟨_, Array.getElem?_eq_getElem (by omega)⟩
      refine ⟨u, hu, ?_⟩
      have := h.ordered a r u v ha.le hr (Func.record?_eq_some.2 ⟨j, hdecl, hu⟩)
        (Func.record?_eq_some.2 ⟨k, hk, hv⟩)
      simp [hact, this]
  have hnd : (f.declared.toList.take r).Nodup :=
    h.nodup.sublist (List.take_sublist ..)
  have hperm : ((List.range k).filter (f.isLive v.startPC)).Perm (f.declared.toList.take r) := by
    refine (List.perm_ext_iff_of_nodup (List.nodup_range.filter _) hnd).2 fun j => ?_
    rw [List.mem_filter, List.mem_range]
    refine ⟨fun hj => (hlive j hj.1).1 hj.2, fun hj => ?_⟩
    have hlt : j < k := by
      obtain ⟨a, ha, rfl⟩ := List.mem_take_iff_getElem.1 hj
      exact (h.lt_iff (r := a) (by simp) hk).2 (by omega)
    exact ⟨hlt, (hlive j hlt).2 hj⟩
  rw [Func.registerOf, hv]
  simp only
  rw [List.countP_eq_length_filter, hperm.length_eq, List.length_take]
  omega

theorem exempt (h : f.Lives H X) (hX : ∀ (p r : Nat) (i : Instr), (p, r) ∈ X → f.code[p]? = some i → i.isJump →
      i.Closes r ∨ (p, r) ∈ X') : f.Lives H X' where
  declared := h.declared
  fresh := h.fresh
  started := h.started
  ordered := h.ordered
  ended := h.ended
  before := h.before
  aimed := h.aimed
  marked := h.marked
  recent := h.recent
  closed k v hv hact q hq hq' hc :=
    { h.closed k v hv hact q hq hq' hc with
      jumps := fun p i hp hp' hi hj => by
        rcases (h.closed k v hv hact q hq hq' hc).jumps p i hp hp' hi hj with hcl | hx | hin
        · exact .inl hcl
        · rcases hX p _ i hx hi hj with hcl | hx'
          · exact .inl hcl
          · exact .inr (.inl hx')
        · exact .inr (.inr hin) }
  ranges := h.ranges

end Func.Lives

/-! ## Changes of the code -/

/-- From `f` to `g` code is added and jumps are changed. A jump at a place in `H` may get its target;
it may not lead to before the start of a variable that it does not close. -/
structure Recodes (H H' : Set Nat) (f g : Func) : Prop where
  locals : g.locals = f.locals
  declared : g.declared = f.declared
  active : g.active = f.active
  marks : ∀ r, CapturedAt r f.scopes → CapturedAt r g.scopes
  size : f.code.size ≤ g.code.size
  held : ∀ p ∈ H', p < f.code.size → p ∈ H
  next : ∀ (p : Nat) (i i' : Instr), f.code[p]? = some i → g.code[p]? = some i' →
    i'.next? = i.next?
  jumps : ∀ (p : Nat) (i : Instr), f.code[p]? = some i → i.isJump → ∃ i', g.code[p]? = some i' ∧
    (∀ r, i.Closes r → i'.Closes r) ∧ (p ∉ H' → (p ∉ H ∧ i'.target p = i.target p) ∨
      p ∈ H ∧ ∀ (r : Nat) (v : LocalVar), (r : Int) < f.active → f.record? r = some v →
        v.startPC ≤ p → v.startPC ≤ i'.target p ∨ i'.Closes r)
  only : ∀ (p : Nat) (i' : Instr), p < f.code.size → g.code[p]? = some i' → i'.isJump →
    ∃ i, f.code[p]? = some i ∧ i.isJump
  aims : AimsFrom f.code.size g.code
  captures : ∀ q r : Nat, q < f.code.size → g.Captures q r → f.Captures q r
  closures : ∀ q r : Nat, f.code.size ≤ q → g.Captures q r →
    (r : Int) < g.active ∧ CapturedAt r g.scopes

section Recodes
variable {f g : Func} {H H' : Set Nat} {X : Set (Nat × Nat)}
  {code : Array Instr} {T : Int} {ps : List Nat}

theorem Recodes.record? (h : Recodes H H' f g) (r : Nat) : g.record? r = f.record? r := by
  rw [Func.record?, h.declared, h.locals]
  rfl

theorem Recodes.isActive (h : Recodes H H' f g) (k : Nat) : g.isActive k = f.isActive k := by
  rw [Func.isActive, h.declared, h.active]
  rfl

theorem Recodes.registerOf (h : Recodes H H' f g) (k : Nat) : g.registerOf k = f.registerOf k := by
  have hlive : ∀ x, g.isLive x = f.isLive x := fun x => by
    funext j
    simp only [Func.isLive, h.locals, h.isActive]
  simp only [Func.registerOf, h.locals, hlive]

theorem Enclosed.recode {start stop : Int} {r : Nat} (h : Enclosed f.code H X start stop r)
    (hr : Recodes H H' f g) (hstop : stop ≤ f.code.size) : Enclosed g.code H' X start stop r where
  jumps p i' hp hp' hi' hj := by
    obtain ⟨i, hi, hj0⟩ := hr.only p i' (by omega) hi' hj
    obtain ⟨i'', hi'', hcl, haim⟩ := hr.jumps p i hi hj0
    cases hi'.symm.trans hi''
    rcases h.jumps p i hp hp' hi hj0 with hc | hx | ⟨hH, hin⟩
    · exact .inl (hcl r hc)
    · exact .inr (.inl hx)
    · have hH' : p ∉ H' := fun hp'' => hH (hr.held p hp'' (by omega))
      rcases haim hH' with ⟨-, ht⟩ | ⟨hopen, -⟩
      · exact .inr (.inr ⟨hH', ht ▸ hin⟩)
      · exact absurd hopen hH
  last p i' hp hp' hi' := by
    obtain ⟨i, hi⟩ : ∃ i, f.code[p]? = some i := ⟨_, Array.getElem?_eq_getElem (by omega)⟩
    have hc := h.last p i hp hp' hi
    obtain ⟨i'', hi'', hcl, -⟩ := hr.jumps p i hi (by simp [Instr.isJump, hc.1])
    exact Option.some.inj (hi'.symm.trans hi'') ▸ hcl r hc
  single p i' hp hp' hi' := by
    obtain ⟨i, hi⟩ : ∃ i, f.code[p]? = some i := ⟨_, Array.getElem?_eq_getElem (by omega)⟩
    rw [hr.next p i i' hi hi']
    exact h.single p i hp hp' hi

theorem Func.Lives.recode (h : f.Lives H X) (hr : Recodes H H' f g) : g.Lives H' X where
  declared := hr.declared ▸ h.declared
  fresh r v hr' hv := h.fresh r v (hr.active ▸ hr') (hr.record? r ▸ hv)
  started r v hr' hv := by
    have := h.started r v (hr.active ▸ hr') (hr.record? r ▸ hv)
    have := hr.size
    omega
  ordered r r' v v' hle hr' hv hv' := h.ordered r r' v v' hle (hr.active ▸ hr')
    (hr.record? r ▸ hv) (hr.record? r' ▸ hv')
  ended k v hv hact := by
    have := h.ended k v (hr.locals ▸ hv) (hr.isActive k ▸ hact)
    have := hr.size
    omega
  before r k v hr' hk hv j u hj hu hact := h.before r k v (hr.active ▸ hr') (hr.declared ▸ hk)
    (hr.locals ▸ hv) j u hj (hr.locals ▸ hu) (hr.isActive j ▸ hact)
  aimed r v hr' hv p i' hp hi' hj hH' := by
    rw [hr.active] at hr'
    rw [hr.record?] at hv
    rcases lt_or_ge p f.code.size with hlt | hge
    · obtain ⟨i, hi, hj0⟩ := hr.only p i' hlt hi' hj
      obtain ⟨i'', hi'', hcl, haim⟩ := hr.jumps p i hi hj0
      cases hi'.symm.trans hi''
      rcases haim hH' with ⟨hH, ht⟩ | ⟨-, ht⟩
      · exact (h.aimed r v hr' hv p i hp hi hj0 hH).imp (fun h => ht ▸ h) (hcl r)
      · exact ht r v hr' hv hp
    · -- New jumps lead to new code, where no active variable starts.
      have := hr.aims p i' hge hi' hj
      have := (h.started r v hr' hv).2
      exact .inl (by omega)
  marked q r v hc hr' hv hq := by
    rcases lt_or_ge q f.code.size with hlt | hge
    · exact hr.marks r (h.marked q r v (hr.captures q r hlt hc) (hr.active ▸ hr') (hr.record? r ▸ hv) hq)
    · exact (hr.closures q r hge hc).2
  recent q r hsize hc := by
    rcases lt_or_ge q f.code.size with hlt | hge
    · have hle := hr.size
      obtain ⟨hactive, hmark⟩ := h.recent q r (by omega) (hr.captures q r hlt hc)
      exact ⟨hr.active ▸ hactive, hr.marks r hmark⟩
    · exact hr.closures q r hge hc
  closed k v hv hact q hq hq' hc := by
    rw [hr.locals] at hv
    rw [hr.isActive] at hact
    rw [hr.registerOf] at hc ⊢
    have hend := (h.ended k v hv hact).2
    exact (h.closed k v hv hact q hq hq' (hr.captures q _ (by omega) hc)).recode hr hend
  ranges :=
    { waiting := fun r j k v hr' hj hlt hv => hr.declared ▸
        h.ranges.waiting r j k v (hr.active ▸ hr') (hr.declared ▸ hj) hlt (hr.locals ▸ hv)
      forward := fun k v hv hk => h.ranges.forward k v (hr.locals ▸ hv) (hr.declared ▸ hk)
      nested := fun j k u v hlt hu hv hk => hr.isActive j ▸
        h.ranges.nested j k u v hlt (hr.locals ▸ hu) (hr.locals ▸ hv) (hr.declared ▸ hk) }

theorem Recodes.of_revised (hrev : Revised f.code code) (hsub : H' ⊆ H)
    (hjump : ∀ (p : Nat) (i : Instr), f.code[p]? = some i → i.isJump → ∃ i', code[p]? = some i' ∧
      (∀ r, i.Closes r → i'.Closes r) ∧ (p ∉ H' → (p ∉ H ∧ i'.target p = i.target p) ∨
        p ∈ H ∧ ∀ (r : Nat) (v : LocalVar), (r : Int) < f.active → f.record? r = some v →
          v.startPC ≤ p → v.startPC ≤ i'.target p ∨ i'.Closes r))
    (honly : ∀ (p : Nat) (i' : Instr), code[p]? = some i' → i'.isJump → ∃ i, f.code[p]? = some i ∧ i.isJump) :
    Recodes H H' f { f with code := code, lastTarget := T } where
  locals := rfl
  declared := rfl
  active := rfl
  marks _ h := h
  size := hrev.size.ge
  held p hp _ := hsub hp
  next := hrev.next
  jumps := hjump
  only p i' _ hi' hj := honly p i' hi' hj
  aims := .of_size_le hrev.size.le
  captures q r _ hc := Func.Captures.of_revised (f := f) hc hrev
  closures q r hq hc := by
    obtain ⟨i, -, -, hi, -⟩ := hc
    have := lt_size_of_some hi
    have := hrev.size
    simp only at *
    omega

theorem Instr.Closes.setSBx {i : Instr} {r : Nat} (h : i.Closes r) (v : Int) : (i.setSBx v).Closes r := by
  simpa [Instr.Closes] using h

theorem Recodes.closing {level : Int} (hcl : Closing ps level f.code code) (hrev : Revised f.code code)
    (hlevel : 0 < level ∧ level ≤ maxA)
    (hj : ∀ p ∈ ps, ∀ i, f.code[p]? = some i → i.op? = some .jmp ∧ (i.a = 0 ∨ level ≤ i.a)) :
    Recodes H H f { f with code := code, lastTarget := T } := by
  refine .of_revised hrev subset_rfl (fun p i hi hjmp => ?_) fun p i' hi' hjmp => ?_
  · by_cases hp : p ∈ ps
    · refine ⟨_, hcl.jump p hp i hi, fun r hr => ?_, fun hH => .inl ⟨hH, by simp [Instr.target]⟩⟩
      have ha := Instr.a_setA i (v := level) ⟨hlevel.1.le, hlevel.2⟩
      obtain ⟨hop, h0, hle⟩ := hr
      have := (hj p hp i hi).2
      exact ⟨by simpa using hop, by omega, by omega⟩
    · exact ⟨i, (hcl.other p hp).trans hi, fun _ h => h, fun hH => .inl ⟨hH, rfl⟩⟩
  · by_cases hp : p ∈ ps
    · have hlt : p < f.code.size := hcl.size ▸ (lt_size_of_some hi')
      have hi := Array.getElem?_eq_getElem hlt
      refine ⟨_, hi, ?_⟩
      simp [Instr.isJump, (hj p hp _ hi).1]
    · exact ⟨i', (hcl.other p hp) ▸ hi', hjmp⟩

/-- Open jumps get their target. They may lead to before the start of a variable if they close it. -/
theorem Recodes.patched {target : Int}
    (hpat : Patched ps target noRegister target f.code code) (hrev : Revised f.code code)
    (hps : ∀ p ∈ ps, p ∈ H) (hj : ∀ p ∈ ps, ∃ i, f.code[p]? = some i ∧ i.isJump)
    (hH : ∀ p ∈ H, p ∉ ps → p ∈ H') (hsub : H' ⊆ H)
    (haim : ∀ p ∈ ps, ∀ (i : Instr) (r : Nat) (v : LocalVar), f.code[p]? = some i →
      (r : Int) < f.active → f.record? r = some v → v.startPC ≤ p →
      v.startPC ≤ target ∨ i.Closes r) :
    Recodes H H' f { f with code := code, lastTarget := T } := by
  refine .of_revised hrev hsub (fun p i hi hjmp => ?_) fun p i' hi' hjmp => ?_
  · by_cases hp : p ∈ ps
    · obtain ⟨w, h1, h2, hw, hi'⟩ := hpat.jump p hp i hi
      rw [ite_self] at hw
      refine ⟨_, hi', fun r hr => hr.setSBx w, fun _ => .inr ⟨hps p hp, fun r v hr hv hle => ?_⟩⟩
      refine (haim p hp i r v hi hr hv hle).imp (fun h => ?_) fun h => h.setSBx w
      rw [Instr.target, Instr.sbx_setSBx i (by omega), hw]
      exact h
    · refine ⟨i, ?_, fun _ h => h, fun hH' => .inl ⟨fun hp' => hH' (hH p hp' hp), rfl⟩⟩
      rw [hpat.other p hp, hi]
      simp [storesAt, hi, not_testSet_of_isJump hjmp]
  · by_cases hp : p ∈ ps
    · exact hj p hp
    · have hlt : p < f.code.size := hpat.size ▸ (lt_size_of_some hi')
      have hi := Array.getElem?_eq_getElem hlt
      by_cases hts : p + 1 ∈ ps ∧ (f.code[p]).op? = some .testSet
      · rw [hpat.test p hts.1 _ hi hts.2] at hi'
        rw [← Option.some.inj hi', isJump_settle hts.2] at hjmp
        simp at hjmp
      · rw [hpat.other p hp fun hp' => ?_] at hi'
        · exact ⟨i', hi', hjmp⟩
        · simp only [storesAt, hi, Option.any_some, beq_eq_false_iff_ne]
          exact fun hop => hts ⟨hp', hop⟩

theorem Recodes.relinked
    (hr : Relinked ps f.code code) (hrev : Revised f.code code) (hps : ∀ p ∈ ps, p ∈ H)
    (hj : ∀ p ∈ ps, ∃ i, f.code[p]? = some i ∧ i.isJump) :
    Recodes H H f { f with code := code, lastTarget := T } := by
  refine .of_revised hrev subset_rfl (fun p i hi hjmp => ?_) fun p i' hi' hjmp => ?_
  · by_cases hp : p ∈ ps
    · rcases hr.jump p hp i hi with hi' | ⟨w, hi'⟩
      · exact ⟨i, hi', fun _ h => h, fun hH => absurd (hps p hp) hH⟩
      · exact ⟨_, hi', fun r h => h.setSBx w, fun hH => absurd (hps p hp) hH⟩
    · exact ⟨i, (hr.other p hp).trans hi, fun _ h => h, fun hH => .inl ⟨hH, rfl⟩⟩
  · by_cases hp : p ∈ ps
    · exact hj p hp
    · exact ⟨i', (hr.other p hp) ▸ hi', hjmp⟩

theorem Evolves.recodes {s t : GenState} {B : Bounds} {H0 : Set Nat} (h : Evolves s t)
    (hcode : CodeOk B T H0 s.fn.code) (hB : B.protos = s.fn.protos.size) (hsub : H ⊆ H')
    (hnew : ∀ p ∈ H', p < s.fn.code.size → p ∈ H) : Recodes H H' s.fn t.fn where
  locals := h.locals
  declared := h.declared
  active := h.active
  marks := h.marks
  size := h.size
  held := hnew
  next p i i' hi hi' := by
    rcases h.kept p i (lt_size_of_some hi) hi with hsame | ⟨-, hop, j, hj, hop'⟩
    · rw [Option.some.inj (hi'.symm.trans hsame)]
    · cases hi'.symm.trans hj
      simp [Instr.next?, Instr.isTest, Instr.takesExtra, hop, hop']
  jumps p i hi hj := ⟨i, h.kept.jump (lt_size_of_some hi) hi hj, fun _ h => h,
    fun hH => .inl ⟨fun hp => hH (hsub hp), rfl⟩⟩
  only p i' hp hi' hj := by
    rcases h.kept p _ hp (Array.getElem?_eq_getElem hp) with hsame | ⟨-, -, j, hj', hop⟩
    · exact ⟨i', by rw [Array.getElem?_eq_getElem hp, ← hsame, hi'], hj⟩
    · cases hi'.symm.trans hj'
      simp [Instr.isJump, hop] at hj
  aims := h.aims
  captures q r hq hc := hc.of_kept h.kept hq h.protos fun i hi hop => by
    have := hcode.fits_of_not_testSet hi (by simp [hop])
    simp only [Instr.Fits, hop, hB] at this
    exact this.2
  closures q r hq hc := by
    obtain ⟨i, p, u, hi, hop, hpr⟩ := id hc
    exact (h.closures q i hq hi hop).2 r hc

end Recodes

/-! ## Changes of the variables -/

section Variables
variable {f g : Func} {H : Set Nat} {X : Set (Nat × Nat)} {locals : Array LocalVar}
  {r k : Nat} {lo hi : Int}

theorem Enclosed.of_empty {code : Array Instr} {start stop : Int} (h : stop ≤ start) :
    Enclosed code H X start stop r where
  jumps p i hp hp' := by omega
  last p i hp hp' := by omega
  single p i hp hp' := by omega

/-- The register of a record only depends on the variables before it that are live where it
starts. -/
theorem Func.registerOf_congr {v v' : LocalVar} (hv : f.locals[k]? = some v)
    (hv' : g.locals[k]? = some v') (hstart : v'.startPC = v.startPC)
    (hlive : ∀ j, j < k → g.isLive v.startPC j = f.isLive v.startPC j) : g.registerOf k = f.registerOf k := by
  simp only [Func.registerOf, hv, hv', hstart]
  exact List.countP_congr fun j hj => by rw [hlive j (List.mem_range.1 hj)]

theorem Func.Lives.declare (h : f.Lives H X) (hactive : f.active ≤ f.declared.size)
    (hdecl : ∀ k ∈ f.declared, k < f.locals.size) (name : Bytes) :
    Func.Lives { f with declared := f.declared.push f.locals.size
                        locals := f.locals.push ⟨name, 0, 0⟩ } H X := by
  set g : Func := { f with declared := f.declared.push f.locals.size, locals := f.locals.push ⟨name, 0, 0⟩ } with hg
  have hget : ∀ {k : Nat} {v : LocalVar}, g.locals[k]? = some v →
      f.locals[k]? = some v ∨ k = f.locals.size ∧ v = ⟨name, 0, 0⟩ := by
    intro k v hv
    simp only [hg, Array.getElem?_push] at hv
    split at hv
    · rename_i hk
      exact .inr ⟨hk, (Option.some.inj hv).symm⟩
    · exact .inl hv
  have hold : ∀ {j : Nat}, j < f.locals.size → g.locals[j]? = f.locals[j]? := fun hj => by
    rw [Array.getElem?_push, if_neg (by omega)]
  have hdget : ∀ {r k : Nat}, g.declared[r]? = some k →
      f.declared[r]? = some k ∨ r = f.declared.size ∧ k = f.locals.size := by
    intro r k hk
    simp only [hg, Array.getElem?_push] at hk
    split at hk
    · rename_i hr
      exact .inr ⟨hr, (Option.some.inj hk).symm⟩
    · exact .inl hk
  have hvar : ∀ {r : Nat} {v : LocalVar}, g.record? r = some v →
      f.record? r = some v ∨ r = f.declared.size ∧ v = ⟨name, 0, 0⟩ := by
    intro r v hv
    obtain ⟨k, hk, hv⟩ := Func.record?_eq_some.1 hv
    rcases hdget hk with hk | ⟨rfl, rfl⟩
    · rw [hold (hdecl k (Array.mem_of_getElem? hk))] at hv
      exact .inl (Func.record?_eq_some.2 ⟨k, hk, hv⟩)
    · rcases hget hv with hv | ⟨-, hv⟩
      · simp at hv
      · exact .inr ⟨rfl, hv⟩
  have hact : ∀ k, g.isActive k = f.isActive k := fun k => by
    simp only [Func.isActive, hg, Array.toList_push]
    rw [List.take_append_of_le_length (by simp only [Array.length_toList]; omega)]
  have hreg : ∀ {k : Nat} {v : LocalVar}, f.locals[k]? = some v → g.registerOf k = f.registerOf k := by
    intro k v hv
    have hlt := lt_size_of_some hv
    refine Func.registerOf_congr hv (by rw [hold hlt, hv]) rfl fun j hj => ?_
    simp only [Func.isLive, hact, hold (show j < f.locals.size by omega)]
  exact {
    declared := by
      simp only [hg, Array.toList_push]
      refine List.pairwise_append.2 ⟨h.declared, by simp, fun k hk j hj => ?_⟩
      rw [List.mem_singleton.1 hj]
      exact hdecl k (by simpa using hk)
    fresh := fun r v hr hv => by
      rcases hvar hv with hv | ⟨-, rfl⟩
      · exact h.fresh r v hr hv
      · rfl
    started := fun r v hr hv => h.started r v hr ((hvar hv).resolve_right fun hn => by
      simp only [hg] at hr
      omega)
    ordered := fun r r' v v' hle hr' hv hv' => by
      simp only [hg] at hr'
      exact h.ordered r r' v v' hle hr' ((hvar hv).resolve_right fun hn => by omega)
        ((hvar hv').resolve_right fun hn => by omega)
    ended := fun k v hv hk => by
      rcases hget hv with hv | ⟨-, rfl⟩
      · exact h.ended k v hv (hact k ▸ hk)
      · exact ⟨le_rfl, Int.natCast_nonneg _⟩
    before := fun r k v hr hk hv j u hj hu hk' => by
      simp only [hg] at hr
      have hk := (hdget hk).resolve_right fun hn => by omega
      have hlt := hdecl k (Array.mem_of_getElem? hk)
      rw [hold hlt] at hv
      rw [hold (by omega)] at hu
      exact h.before r k v hr hk hv j u hj hu (hact j ▸ hk')
    aimed := fun r v hr hv => h.aimed r v hr ((hvar hv).resolve_right fun hn => by
      simp only [hg] at hr
      omega)
    marked := fun q r v hc hr hv => h.marked q r v hc hr ((hvar hv).resolve_right fun hn => by
      simp only [hg] at hr
      omega)
    recent := h.recent
    closed := fun k v hv hk q hq hq' hc => by
      rcases hget hv with hv | ⟨-, rfl⟩
      · rw [hreg hv] at hc ⊢
        exact h.closed k v hv (hact k ▸ hk) q hq hq' hc
      · exact .of_empty le_rfl
    ranges := by
      have hmem : ∀ k, k ∈ g.declared ↔ k ∈ f.declared ∨ k = f.locals.size := fun k =>
        Array.mem_push
      have hended : ∀ {k : Nat} {v : LocalVar}, g.locals[k]? = some v → k ∉ g.declared →
          f.locals[k]? = some v ∧ k ∉ f.declared := fun hv hk =>
        ⟨(hget hv).resolve_right fun hn => hk ((hmem _).2 (.inr hn.1)), fun hd => hk ((hmem _).2 (.inl hd))⟩
      refine ⟨fun r j k v hr hj hlt hv => (hmem k).2 ?_, fun k v hv hk => ?_, fun j k u v hlt hu hv hk => ?_⟩
      · rcases hget hv with hv | ⟨rfl, -⟩
        · refine .inl (h.ranges.waiting r j k v hr ((hdget hj).resolve_right fun hn => ?_) hlt hv)
          have := lt_size_of_some hv
          omega
        · exact .inr rfl
      · obtain ⟨hv, hk⟩ := hended hv hk
        exact h.ranges.forward k v hv hk
      · obtain ⟨hv, hk⟩ := hended hv hk
        have := lt_size_of_some hv
        rw [hold (show j < f.locals.size by omega)] at hu
        exact hact j ▸ h.ranges.nested j k u v hlt hu hv hk }

/-- The records of the variables in the registers from `lo` to `hi` are changed by `u`. -/
structure Updates (declared : Array Nat) (lo hi : Int) (u : LocalVar → LocalVar)
    (locals locals' : Array LocalVar) : Prop where
  new : ∀ r k : Nat, lo ≤ r → (r : Int) < hi → declared[r]? = some k →
    locals'[k]? = locals[k]?.map u
  old : ∀ k : Nat, (∀ r : Nat, lo ≤ r → (r : Int) < hi → declared[r]? ≠ some k) →
    locals'[k]? = locals[k]?

theorem Updates.refl (declared : Array Nat) (h : hi ≤ lo) (u : LocalVar → LocalVar)
    (locals : Array LocalVar) : Updates declared lo hi u locals locals where
  new r k h1 h2 := by omega
  old _ _ := rfl

theorem Updates.modify {declared : Array Nat} {lo' hi' : Int} {u : LocalVar → LocalVar} {locals' : Array LocalVar}
    (hnd : declared.toList.Nodup) (hk : declared[r]? = some k) (h : Updates declared lo hi u (locals.modify k u) locals')
    (hr : ∀ x : Nat, (lo' ≤ x ∧ (x : Int) < hi') ↔ (lo ≤ x ∧ (x : Int) < hi) ∨ x = r)
    (hout : ¬ (lo ≤ r ∧ (r : Int) < hi)) : Updates declared lo' hi' u locals locals' where
  new x j h1 h2 hj := by
    rcases (hr x).1 ⟨h1, h2⟩ with ⟨h3, h4⟩ | rfl
    · have hne : k ≠ j := by
        rintro rfl
        exact hout (register_inj hnd hj hk ▸ ⟨h3, h4⟩)
      rw [h.new x j h3 h4 hj, Array.getElem?_modify, if_neg hne]
    · obtain rfl := Option.some.inj (hj.symm.trans hk)
      rw [h.old j fun y h3 h4 hy => hout (register_inj hnd hy hk ▸ ⟨h3, h4⟩), Array.getElem?_modify, if_pos rfl]
  old j hj := by
    have hne : k ≠ j := by
      rintro rfl
      obtain ⟨h1, h2⟩ := (hr r).2 (.inr rfl)
      exact hj r h1 h2 hk
    rw [h.old j fun y h3 h4 hy => ?_, Array.getElem?_modify, if_neg hne]
    obtain ⟨h1, h2⟩ := (hr y).2 (.inl ⟨h3, h4⟩)
    exact hj y h1 h2 hy

theorem Updates.record? {u : LocalVar → LocalVar} (h : f.Lives H X)
    (hu : Updates f.declared lo hi u f.locals locals) {v : LocalVar}
    (hk : f.declared[r]? = some k) (hv : locals[k]? = some v) : ((r : Int) < lo ∨ hi ≤ r) ∧ f.record? r = some v ∨
    lo ≤ r ∧ (r : Int) < hi ∧ ∃ v0, f.record? r = some v0 ∧ v = u v0 := by
  by_cases hnew : lo ≤ r ∧ (r : Int) < hi
  · rw [hu.new r k hnew.1 hnew.2 hk] at hv
    obtain ⟨v0, hv0, rfl⟩ := Option.map_eq_some_iff.1 hv
    exact .inr ⟨hnew.1, hnew.2, v0, Func.record?_eq_some.2 ⟨k, hk, hv0⟩, rfl⟩
  · rw [hu.old k fun r' h1 h2 hr' => hnew (h.inj hr' hk ▸ ⟨h1, h2⟩)] at hv
    exact .inl ⟨by omega, Func.record?_eq_some.2 ⟨k, hk, hv⟩⟩

/-- The variables in the registers from `lo` to `hi` start here. None that was declared after one of
them has ended. -/
theorem Func.Lives.start (h : f.Lives H X) (hlo : lo ≤ f.active) (hhi : f.active ≤ hi)
    (hlate : ∀ (r j k : Nat) (v : LocalVar), lo ≤ r → f.declared[r]? = some j → j < k →
      f.locals[k]? = some v → k ∈ f.declared)
    (hl : Updates f.declared lo hi (fun v => { v with startPC := f.code.size }) f.locals locals) :
    Func.Lives { f with locals := locals, active := hi } H X := by
  set g : Func := { f with locals := locals, active := hi } with hg
  have hvar : ∀ {r : Nat} {v : LocalVar}, g.record? r = some v →
      ((r : Int) < lo ∨ hi ≤ r) ∧ f.record? r = some v ∨
      lo ≤ r ∧ (r : Int) < hi ∧ v.startPC = f.code.size := by
    intro r v hv
    obtain ⟨k, hk, hv⟩ := Func.record?_eq_some.1 hv
    refine (hl.record? h hk hv).imp_right ?_
    rintro ⟨h1, h2, v0, -, rfl⟩
    exact ⟨h1, h2, rfl⟩
  have hact : ∀ {k : Nat}, f.isActive k = true → g.isActive k = true := by
    intro k hk
    obtain ⟨r, hr, hd⟩ := Func.isActive_iff.1 hk
    exact Func.isActive_iff.2 ⟨r, by simp only [hg]; omega, hd⟩
  have hended : ∀ {k : Nat}, g.isActive k = false → f.isActive k = false ∧
      locals[k]? = f.locals[k]? := by
    intro k hk
    refine ⟨Bool.eq_false_iff.2 fun hf => ?_, hl.old k fun r _ hr hd => ?_⟩
    · simp [hact hf] at hk
    · have : g.isActive k = true := Func.isActive_iff.2 ⟨r, hr, hd⟩
      simp [this] at hk
  have hgone : ∀ {k : Nat} {v : LocalVar}, locals[k]? = some v → k ∉ f.declared →
      f.locals[k]? = some v := fun hv hk =>
    hl.old _ (fun _ _ _ hd => hk (Array.mem_of_getElem? hd)) ▸ hv
  have hreg : ∀ {k : Nat} {v : LocalVar}, f.locals[k]? = some v → g.isActive k = false →
      v.startPC < v.endPC → g.registerOf k = f.registerOf k := by
    intro k v hv hk hne
    obtain ⟨hk', hsame⟩ := hended hk
    have hpos := (h.ended k v hv hk').1
    refine Func.registerOf_congr hv (hsame.trans hv) rfl fun j hj => ?_
    -- All that are declared after one that starts now wait for their start.
    have hno : ∀ r : Nat, lo ≤ r → f.declared[r]? ≠ some j := fun r hr hd => by
      obtain ⟨r', hr'⟩ := Array.mem_iff_getElem?.1 (hlate r j k v hr hd hj hv)
      by_cases hlt : (r' : Int) < f.active
      · simp [Func.isActive_iff.2 ⟨r', hlt, hr'⟩] at hk'
      · have := h.fresh r' v (by omega) (Func.record?_eq_some.2 ⟨k, hr', hv⟩)
        omega
    have hja : g.isActive j = f.isActive j := by
      refine Bool.eq_iff_iff.2 ⟨fun hj => ?_, hact⟩
      obtain ⟨r, -, hd⟩ := Func.isActive_iff.1 hj
      refine Func.isActive_iff.2 ⟨r, ?_, hd⟩
      by_contra hge
      exact hno r (by omega) hd
    have hjs : g.locals[j]? = f.locals[j]? := hl.old j fun r h1 _ => hno r h1
    simp only [Func.isLive, hja, hjs]
  exact {
    declared := h.declared
    fresh := fun r v hr hv => by
      simp only [hg] at hr
      rcases hvar hv with ⟨-, hv⟩ | ⟨-, hlt, -⟩
      · exact h.fresh r v (by omega) hv
      · omega
    started := fun r v hr hv => by
      simp only [hg] at hr
      rcases hvar hv with ⟨hlt, hv⟩ | ⟨-, -, hs⟩
      · exact h.started r v (by omega) hv
      · simp only [hs, hg]
        omega
    ordered := fun r r' v v' hle hr' hv hv' => by
      simp only [hg] at hr'
      rcases hvar hv' with ⟨hlt', hv'⟩ | ⟨-, -, hs'⟩
      · rcases hvar hv with ⟨-, hv⟩ | ⟨hge, -⟩
        · exact h.ordered r r' v v' hle (by omega) hv hv'
        · omega
      · rcases hvar hv with ⟨hlt, hv⟩ | ⟨-, -, hs⟩
        · exact hs' ▸ (h.started r v (by omega) hv).2
        · omega
    ended := fun k v hv hk => by
      obtain ⟨hk', hsame⟩ := hended hk
      exact h.ended k v (hsame ▸ hv) hk'
    before := fun r k v hr hk hv j u hj hu hk' => by
      simp only [hg] at hr
      obtain ⟨hj', hsame⟩ := hended hk'
      have hu : f.locals[j]? = some u := hsame ▸ hu
      rcases hvar (Func.record?_eq_some.2 ⟨k, hk, hv⟩) with ⟨hlt, hv'⟩ | ⟨-, -, hs⟩
      · obtain ⟨k', hd, hv'⟩ := Func.record?_eq_some.1 hv'
        obtain rfl := Option.some.inj (hd.symm.trans hk)
        exact h.before r k' v (by omega) hd hv' j u hj hu hj'
      · exact hs ▸ (h.ended j u hu hj').2
    aimed := fun r v hr hv p i hp hi => by
      simp only [hg] at hr
      rcases hvar hv with ⟨hlt, hv⟩ | ⟨-, -, hs⟩
      · exact h.aimed r v (by omega) hv p i hp hi
      · have := lt_size_of_some hi
        simp only [hg] at this
        omega
    marked := fun q r v hc hr hv hq => by
      simp only [hg] at hr
      rcases hvar hv with ⟨hlt, hv⟩ | ⟨-, -, hs⟩
      · exact h.marked q r v hc (by omega) hv hq
      · -- The last instruction captures only variables that were active.
        obtain ⟨i, -, -, hi, -⟩ := id hc
        have := lt_size_of_some hi
        exact (h.recent q r (by simp only [hg] at this; omega) hc).2
    recent := fun q r hq hc => (h.recent q r hq hc).imp_left fun hr => lt_of_lt_of_le hr hhi
    closed := fun k v hv hk q hq hq' hc => by
      obtain ⟨hk', hsame⟩ := hended hk
      have hv' : f.locals[k]? = some v := hsame ▸ hv
      by_cases hne : v.startPC < v.endPC
      · rw [hreg hv' hk hne] at hc ⊢
        exact h.closed k v hv' hk' q hq hq' hc
      · exact .of_empty (by omega)
    ranges := by
      refine ⟨fun r j k v hr hj hlt hv => ?_, fun k v hv hk => h.ranges.forward k v (hgone hv hk) hk,
        fun j k u v hlt hu hv hk => ?_⟩
      · by_contra hk
        simp only [hg] at hr
        exact hk (h.ranges.waiting r j k v (by omega) hj hlt (hgone hv hk))
      · have hv := hgone hv hk
        have hu : f.locals[j]? = some u := hl.old j (fun r h1 _ hd => hk (hlate r j k v h1 hd hlt hv)) ▸ hu
        exact (h.ranges.nested j k u v hlt hu hv hk).imp_right (Or.imp_left hact) }

theorem Func.Lives.activate {n : Int} (h : f.Lives H X) (hn : 0 ≤ n)
    (hl : Updates f.declared f.active (f.active + n) (fun v => { v with startPC := f.code.size })
      f.locals locals) :
    Func.Lives { f with locals := locals, active := f.active + n } H X :=
  h.start le_rfl (by omega) h.ranges.waiting hl

theorem Func.Lives.restart (h : f.Lives H X) (hr : (r : Int) + 1 = f.active)
    (hk : f.declared[r]? = some k) (hlast : k + 1 = f.locals.size)
    (hl : Updates f.declared r (r + 1) (fun v => { v with startPC := f.code.size }) f.locals locals) :
    Func.Lives { f with locals := locals } H X := by
  refine h.start (by omega) le_rfl (fun r' j k' v hr' hj hlt hv => ?_) (hr ▸ hl)
  by_cases hlt' : (r' : Int) < f.active
  · obtain rfl : r' = r := by omega
    cases hk.symm.trans hj
    have := lt_size_of_some hv
    omega
  · exact h.ranges.waiting r' j k' v (by omega) hj hlt hv

/-- From `f` to `g` the variables from register `level` on end. -/
structure Finishes (level : Int) (f g : Func) : Prop where
  nonneg : 0 ≤ level
  le : level ≤ f.active
  declared : g.declared = f.declared.take level.toNat
  active : g.active = level
  code : g.code = f.code
  protos : g.protos = f.protos
  locals : Updates f.declared level f.active (fun v => { v with endPC := f.code.size }) f.locals
    g.locals

namespace Finishes
variable {level : Int} {v : LocalVar}

section
variable (h : Finishes level f g)
include h

theorem getElem?_declared (hr : (r : Int) < level) : g.declared[r]? = f.declared[r]? := by
  rw [h.declared, Array.take_eq_extract, Array.getElem?_extract, Nat.zero_add]
  split
  · rfl
  · rw [Array.getElem?_eq_none (by omega)]

theorem lt_of_declared (hk : g.declared[r]? = some k) : (r : Int) < level ∧ f.declared[r]? = some k := by
  rw [h.declared, Array.take_eq_extract, Array.getElem?_extract] at hk
  split at hk
  · exact ⟨by omega, by rwa [Nat.zero_add] at hk⟩
  · simp at hk

theorem record? (hf : f.Lives H X) (hv : g.record? r = some v) : (r : Int) < level ∧ f.record? r = some v := by
  obtain ⟨k, hk, hv⟩ := Func.record?_eq_some.1 hv
  obtain ⟨hr, hk⟩ := h.lt_of_declared hk
  rcases h.locals.record? hf hk hv with ⟨-, hv⟩ | ⟨h1, -⟩
  · exact ⟨hr, hv⟩
  · omega

theorem captures_iff {q : Nat} : g.Captures q r ↔ f.Captures q r := by
  rw [Func.Captures, Func.Captures, h.code, h.protos]

theorem isActive_cases (hk : g.isActive k = false) :
    f.isActive k = false ∧ g.locals[k]? = f.locals[k]? ∨
    ∃ r : Nat, level ≤ r ∧ (r : Int) < f.active ∧ f.declared[r]? = some k ∧
      g.locals[k]? = f.locals[k]?.map fun v => { v with endPC := f.code.size } := by
  have hno : ∀ r : Nat, (r : Int) < level → f.declared[r]? ≠ some k := fun r hr hd => by
    have : g.isActive k = true :=
      Func.isActive_iff.2 ⟨r, h.active ▸ hr, (h.getElem?_declared hr).trans hd⟩
    rw [this] at hk
    simp at hk
  by_cases hnew : ∃ r : Nat, level ≤ r ∧ (r : Int) < f.active ∧ f.declared[r]? = some k
  · obtain ⟨r, h1, h2, hd⟩ := hnew
    exact .inr ⟨r, h1, h2, hd, h.locals.new r k h1 h2 hd⟩
  · refine .inl ⟨Bool.eq_false_iff.2 fun hf => ?_, h.locals.old k fun r h1 h2 hd => hnew ⟨r, h1, h2, hd⟩⟩
    obtain ⟨r, hr, hd⟩ := Func.isActive_iff.1 hf
    rcases lt_or_ge (r : Int) level with hlt | hge
    · exact hno r hlt hd
    · exact hnew ⟨r, hge, hr, hd⟩

theorem isLive (hf : f.Lives H X) {x : Int} {j : Nat} (hx : x < f.code.size) : g.isLive x j = f.isLive x j := by
  have := h.le
  cases hj : g.isActive j with
  | true =>
    obtain ⟨r, hr, hd⟩ := Func.isActive_iff.1 hj
    obtain ⟨hr', hd⟩ := h.lt_of_declared hd
    have hfj : f.isActive j = true := Func.isActive_iff.2 ⟨r, by omega, hd⟩
    have hsame : g.locals[j]? = f.locals[j]? := h.locals.old j fun r' h1 _ hd' => by
      have := hf.inj hd hd'
      omega
    simp only [Func.isLive, hj, hfj, hsame]
  | false =>
    rcases h.isActive_cases hj with ⟨hfj, hsame⟩ | ⟨r, h1, h2, hd, hsame⟩
    · simp only [Func.isLive, hj, hfj, hsame]
    · have hfj : f.isActive j = true := Func.isActive_iff.2 ⟨r, h2, hd⟩
      simp only [Func.isLive, hj, hfj, hsame, Option.any_map, Bool.or_false, Bool.or_true, Bool.and_true]
      simp [hx]

theorem ended (hf : f.Lives H X) (hv : g.locals[k]? = some v) (hk : g.isActive k = false) :
    0 ≤ v.startPC ∧ v.endPC ≤ f.code.size := by
  rcases h.isActive_cases hk with ⟨hfk, hsame⟩ | ⟨r, h1, h2, hd, hsame⟩
  · exact hf.ended k v (hsame ▸ hv) hfk
  · rw [hsame] at hv
    obtain ⟨v0, hv0, rfl⟩ := Option.map_eq_some_iff.1 hv
    exact ⟨(hf.started r v0 h2 (Func.record?_eq_some.2 ⟨k, hd, hv0⟩)).1, le_rfl⟩

/-- A record of a variable that has ended, with a range that is not empty, is as before, or it is
that of a variable that was in the same register. -/
theorem record_cases (hf : f.Lives H X)
    (hv : g.locals[k]? = some v) (hk : g.isActive k = false) (hne : v.startPC < v.endPC) :
    f.locals[k]? = some v ∧ f.isActive k = false ∧ g.registerOf k = f.registerOf k ∨
    ∃ v0, level ≤ g.registerOf k ∧ (g.registerOf k : Int) < f.active ∧
      f.record? (g.registerOf k) = some v0 ∧ v = { v0 with endPC := f.code.size } := by
  have hend := (h.ended hf hv hk).2
  rcases h.isActive_cases hk with ⟨hfk, hsame⟩ | ⟨r, h1, h2, hd, hsame⟩
  · have hv' : f.locals[k]? = some v := hsame ▸ hv
    exact .inl ⟨hv', hfk, Func.registerOf_congr hv' hv rfl fun j _ => h.isLive hf (by omega)⟩
  · rw [hsame] at hv
    obtain ⟨v0, hv0, rfl⟩ := Option.map_eq_some_iff.1 hv
    have hreg : g.registerOf k = r := by
      rw [← hf.registerOf_eq h2 hd hv0]
      exact Func.registerOf_congr hv0 (hsame.trans hv) rfl fun j _ => h.isLive hf (by simp at hne; omega)
    exact .inr ⟨v0, hreg ▸ h1, hreg ▸ h2, hreg ▸ Func.record?_eq_some.2 ⟨k, hd, hv0⟩, rfl⟩

theorem ended_cases (hd : (f.declared.size : Int) ≤ f.active)
    (hv : g.locals[k]? = some v) (hk : g.isActive k = false) :
    f.isActive k = false ∧ k ∉ f.declared ∧ f.locals[k]? = some v ∨
    ∃ (r : Nat) (v0 : LocalVar), (r : Int) < f.active ∧ f.declared[r]? = some k ∧
      f.locals[k]? = some v0 ∧ v = { v0 with endPC := f.code.size } := by
  rcases h.isActive_cases hk with ⟨hfk, hsame⟩ | ⟨r, -, hr, hrk, hsame⟩
  · refine .inl ⟨hfk, fun hmem => ?_, hsame ▸ hv⟩
    obtain ⟨r, hr, rfl⟩ := Array.mem_iff_getElem.1 hmem
    exact Bool.eq_false_iff.1 hfk (Func.isActive_iff.2 ⟨r, by omega, Array.getElem?_eq_getElem hr⟩)
  · rw [hsame] at hv
    obtain ⟨v0, hv0, rfl⟩ := Option.map_eq_some_iff.1 hv
    exact .inr ⟨r, v0, hr, hrk, hv0, rfl⟩

theorem forward (hf : f.Lives H X) (hd : (f.declared.size : Int) ≤ f.active)
    (hv : g.locals[k]? = some v) (hk : g.isActive k = false) : v.startPC ≤ v.endPC := by
  rcases h.ended_cases hd hv hk with ⟨-, hk, hv⟩ | ⟨r, v0, hr, hrk, hv0, rfl⟩
  · exact hf.ranges.forward k v hv hk
  · exact (hf.started r v0 hr (Func.record?_eq_some.2 ⟨k, hrk, hv0⟩)).2

theorem nested (hf : f.Lives H X) (hd : (f.declared.size : Int) ≤ f.active) {j : Nat} {u : LocalVar} (hjk : j < k)
    (hu : g.locals[j]? = some u) (hv : g.locals[k]? = some v) (hk : g.isActive k = false) :
    u.startPC ≤ v.startPC ∧ (g.isActive j ∨ u.endPC ≤ v.startPC ∨ v.endPC ≤ u.endPC) := by
  have hend := (h.ended hf hv hk).2
  -- What is known of the earlier variable in `f`, with its old end.
  have key : ∀ u0, f.locals[j]? = some u0 →
      u0.startPC ≤ v.startPC ∧ (f.isActive j ∨ u0.endPC ≤ v.startPC ∨ v.endPC ≤ u0.endPC) := by
    intro u0 hu0
    rcases h.ended_cases hd hv hk with ⟨-, hk, hv⟩ | ⟨r, v0, hr, hrk, hv0, rfl⟩
    · exact hf.ranges.nested j k u0 v hjk hu0 hv hk
    · cases hj : f.isActive j with
      | true =>
        obtain ⟨r', hr', hrj⟩ := Func.isActive_iff.1 hj
        have hlt := (hf.lt_iff hrj hrk).1 hjk
        exact ⟨hf.ordered r' r u0 v0 hlt.le hr (Func.record?_eq_some.2 ⟨j, hrj, hu0⟩)
          (Func.record?_eq_some.2 ⟨k, hrk, hv0⟩), .inl rfl⟩
      | false =>
        have hle := hf.before r k v0 hr hrk hv0 j u0 hjk hu0 hj
        have hj' : j ∉ f.declared := fun hmem => by
          obtain ⟨r', hr', rfl⟩ := Array.mem_iff_getElem.1 hmem
          exact Bool.eq_false_iff.1 hj
            (Func.isActive_iff.2 ⟨r', by omega, Array.getElem?_eq_getElem hr'⟩)
        exact ⟨(hf.ranges.forward j u0 hu0 hj').trans hle, .inr (.inl hle)⟩
  cases hj : g.isActive j with
  | true =>
    obtain ⟨r, hr, hrj⟩ := Func.isActive_iff.1 hj
    obtain ⟨hr', hrj⟩ := h.lt_of_declared hrj
    rw [h.locals.old j fun r' h1 _ hd' => by have := hf.inj hrj hd'; omega] at hu
    exact ⟨(key u hu).1, .inl rfl⟩
  | false =>
    rcases h.ended_cases hd hu hj with ⟨hj', -, hu⟩ | ⟨-, u0, -, -, hu0, rfl⟩
    · exact (key u hu).imp_right fun ho => .inr (ho.resolve_left (by simp [hj']))
    · exact ⟨(key u0 hu0).1, .inr (.inr hend)⟩

end

end Finishes

/-- The variables of the innermost block, `c`, end. If one of them is captured, control can only
leave their ranges by jumps that close them. -/
theorem Func.Lives.finish {c : Scope} {rest : List Scope} (h : f.Lives H ∅)
    (hfin : Finishes c.active f g) (hdecl : (f.declared.size : Int) ≤ f.active)
    (hcs : f.scopes = c :: rest) (hrest : rest ≠ []) (hgs : g.scopes = rest)
    (hrecent : ∀ q r : Nat, f.code.size = q + 1 → f.Captures q r → CapturedAt r f.scopes → (r : Int) < c.active)
    (hclose : c.isCaptured → ∀ (r : Nat) (v : LocalVar), c.active ≤ r → (r : Int) < f.active →
      f.record? r = some v → Enclosed f.code H X v.startPC f.code.size r) : g.Lives H X := by
  have hc := hfin.le
  have hga := hfin.active
  have hvar {r : Nat} {v : LocalVar} (hv : g.record? r = some v) := hfin.record? h hv
  have hmark : ∀ {r : Nat}, (r : Int) < c.active → CapturedAt r f.scopes → CapturedAt r g.scopes := by
    intro r hr hm
    rw [hcs] at hm
    rw [hgs]
    cases rest with
    | nil => exact absurd rfl hrest
    | cons d ds => simpa only [CapturedAt, if_pos hr] using hm
  exact {
    declared := by
      rw [hfin.declared, Array.take_eq_extract, Array.toList_extract]
      exact h.declared.sublist ((List.take_sublist ..).trans (List.drop_sublist ..))
    fresh := fun r v hr hv => by
      have := (hvar hv).1
      omega
    started := fun r v hr hv => by
      rw [hfin.code]
      exact h.started r v (by omega) (hvar hv).2
    ordered := fun r r' v v' hle hr' hv hv' =>
      h.ordered r r' v v' hle (by omega) (hvar hv).2 (hvar hv').2
    ended := fun k v hv hk => by
      rw [hfin.code]
      exact hfin.ended h hv hk
    before := fun r k v hr hk hv j u hj hu hj' => by
      obtain ⟨hr', hd⟩ := hfin.lt_of_declared hk
      obtain ⟨k', hd', hv'⟩ := Func.record?_eq_some.1 (hvar (Func.record?_eq_some.2 ⟨k, hk, hv⟩)).2
      obtain rfl := Option.some.inj (hd'.symm.trans hd)
      rcases hfin.isActive_cases hj' with ⟨hfj, hsame⟩ | ⟨r', h1, h2, hd', -⟩
      · exact h.before r k' v (by omega) hd hv' j u hj (hsame ▸ hu) hfj
      · have := (h.lt_iff hd' hd).1 hj
        omega
    aimed := fun r v hr hv p i hp hi => by
      obtain ⟨hr', hv⟩ := hvar hv
      exact h.aimed r v (by omega) hv p i hp (hfin.code ▸ hi)
    marked := fun q r v hq hr hv hs => by
      obtain ⟨hr', hv⟩ := hvar hv
      exact hmark hr' (h.marked q r v (hfin.captures_iff.1 hq) (by omega) hv hs)
    recent := fun q r hq hqr => by
      obtain ⟨-, hm⟩ := h.recent q r (hfin.code ▸ hq) (hfin.captures_iff.1 hqr)
      have hr := hrecent q r (hfin.code ▸ hq) (hfin.captures_iff.1 hqr) hm
      exact ⟨hga ▸ hr, hmark hr hm⟩
    closed := fun k v hv hk q hq hq' hqr => by
      by_cases hne : v.startPC < v.endPC
      case neg => exact .of_empty (by omega)
      rw [hfin.captures_iff] at hqr
      rw [hfin.code]
      rcases hfin.record_cases h hv hk hne with ⟨hv', hfk, hreg⟩ | ⟨v0, h1, h2, hvr, rfl⟩
      · rw [hreg] at hqr ⊢
        have henc := h.closed k v hv' hfk q hq hq' hqr
        exact ⟨fun p i hp hp' hi hj => (henc.jumps p i hp hp' hi hj).imp_right
          fun hx => .inr (hx.resolve_left (Set.notMem_empty _)), henc.last, henc.single⟩
      · have hm := h.marked q _ v0 hqr h2 hvr hq
        have hcc : c.isCaptured := by
          rw [hcs] at hm
          cases rest with
          | nil => exact absurd rfl hrest
          | cons d ds =>
            simpa only [CapturedAt, if_neg (show ¬ c.active > g.registerOf k by omega)] using hm
        exact hclose hcc _ v0 h1 h2 hvr
    ranges := by
      have hended : ∀ {k : Nat}, k ∉ g.declared → g.isActive k = false := fun hk =>
        Bool.eq_false_iff.2 fun hact => by
          obtain ⟨r, -, hd⟩ := Func.isActive_iff.1 hact
          exact hk (Array.mem_of_getElem? hd)
      refine ⟨fun r j k v hr hj => ?_, fun k v hv hk => hfin.forward h hdecl hv (hended hk),
        fun j k u v hlt hu hv hk => hfin.nested h hdecl hlt hu hv (hended hk)⟩
      have := (hfin.lt_of_declared hj).1
      omega }

end Variables

end RegisterCompiler
