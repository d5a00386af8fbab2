import RegisterCompiler.Generator.State

/-!
# Outcomes of generation

* `Gen.Ensures m s Q` : from the state `s` the step `m` ends in a result and a state for which `Q`
  holds, or with an error of the source. It never breaks a requirement;
* `Gen.Tracks stop m m' s Q` : from the state `s` the steps `m` and `m'` end in the same way, as
  `Ensures` has it, except that `m` may break the requirement that no temporaries are in use where a
  block is opened. Then `m'` ends with a failure for which `stop` holds instead.
-/

namespace RegisterCompiler.Gen

variable {α β : Type} {s : GenState}

/-- From the state `s` the step `m` ends with a result and a state for which `Q` holds, or with an
error of the source. -/
def Ensures (m : Gen α) (s : GenState) (Q : α → GenState → Prop) : Prop :=
  match m s with
  | .ok (a, t) => Q a t
  | .error (.error _) => True
  | .error (.broken _) => False

theorem ensures_iff {m : Gen α} {Q : α → GenState → Prop} : m.Ensures s Q ↔
      (∀ a t, m s = .ok (a, t) → Q a t) ∧ ∀ i, m s ≠ .error (.broken i) := by
  unfold Ensures
  split <;> simp_all

/-! ## Steps in a row -/

variable {R : α → GenState → Prop} {f : α → Gen β}

theorem ensures_bind {m : Gen α} {Q : β → GenState → Prop} :
    (m >>= f).Ensures s Q ↔ m.Ensures s fun a t => (f a).Ensures t Q := by
  unfold Ensures
  simp only [bind, StateT.bind, Except.bind]
  cases m s with
  | error e => cases e <;> rfl
  | ok r => rfl

theorem Ensures.mono {m : Gen α} {Q : α → GenState → Prop} (h : m.Ensures s Q)
    (hQ : ∀ a t, Q a t → R a t) : m.Ensures s R := by
  rw [ensures_iff] at h ⊢
  exact ⟨fun a t e => hQ a t (h.1 a t e), h.2⟩

theorem Ensures.and {m : Gen α} {Q : α → GenState → Prop} (h : m.Ensures s Q)
    (h' : m.Ensures s R) : m.Ensures s fun a t => Q a t ∧ R a t := by
  rw [ensures_iff] at h h' ⊢
  exact ⟨fun a t e => ⟨h.1 a t e, h'.1 a t e⟩, h.2⟩

theorem Ensures.bind {m : Gen α} {Q : β → GenState → Prop} (h : m.Ensures s R) (hf : ∀ a t, R a t → (f a).Ensures t Q) :
    (m >>= f).Ensures s Q :=
  ensures_bind.2 (h.mono hf)

/-! ## Primitive steps -/

section Primitive
variable {Q : α → GenState → Prop} {Q' : Unit → GenState → Prop}

@[simp] theorem ensures_pure {a : α} : (pure a : Gen α).Ensures s Q ↔ Q a s := Iff.rfl

@[simp] theorem ensures_getFn {Q : Func → GenState → Prop} : getFn.Ensures s Q ↔ Q s.fn s := Iff.rfl

@[simp] theorem ensures_get {Q : GenState → GenState → Prop} : (get : Gen GenState).Ensures s Q ↔ Q s s := Iff.rfl

@[simp] theorem ensures_set {t : GenState} : (set t : Gen Unit).Ensures s Q' ↔ Q' () t := Iff.rfl

@[simp] theorem ensures_modify {h : GenState → GenState} : (modify h : Gen Unit).Ensures s Q' ↔ Q' () (h s) := Iff.rfl

@[simp] theorem ensures_modifyFn {h : Func → Func} :
    (modifyFn h).Ensures s Q' ↔ Q' () { s with fn := h s.fn } := Iff.rfl

@[simp] theorem ensures_firstFree {Q : Int → GenState → Prop} : firstFree.Ensures s Q ↔ Q s.fn.free s := Iff.rfl

@[simp] theorem ensures_activeLocals {Q : Int → GenState → Prop} :
    activeLocals.Ensures s Q ↔ Q s.fn.active s := Iff.rfl

@[simp] theorem ensures_onLine {n : Int} :
    (onLine n).Ensures s Q' ↔ Q' () { s with line := n } := Iff.rfl

@[simp] theorem ensures_error {cause : Cause} : (error cause : Gen α).Ensures s Q ↔ True := Iff.rfl

theorem ensures_throw {e : CompileError} : (throw (.error e) : Gen α).Ensures s Q ↔ True := Iff.rfl

theorem ensures_require {b : Bool} {i : Invariant} (h : b = true) : (require b i).Ensures s Q' ↔ Q' () s := by
  subst h
  exact Iff.rfl

theorem ensures_place {i : Int} {n : Nat} {Q : Nat → GenState → Prop} (h : 0 ≤ i ∧ i < n) :
    (place i n).Ensures s Q ↔ Q i.toNat s := by
  rw [place, if_pos h]
  exact ensures_pure

theorem ensures_limit {n max : Int} {what : Counted} : (limit n max what).Ensures s Q' ↔ (n ≤ max → Q' () s) := by
  unfold limit
  split
  · simp only [ensures_bind, ensures_getFn, ensures_error, true_iff]
    omega
  · exact ⟨fun h _ => h, fun h => h (by omega)⟩

end Primitive

/-! ## Two runs side by side -/

/-- The steps `m` and `m'` end in the same way, as `Ensures` has it, or `m` because temporaries are
in use where a block is opened and `m'` with a failure for which `stop` holds. -/
def Tracks (stop : Failure → Prop) (m m' : Gen α) (s : GenState) (Q : α → GenState → Prop) : Prop :=
  match m s with
  | .ok (a, t) => m' s = .ok (a, t) ∧ Q a t
  | .error (.error e) => m' s = .error (.error e)
  | .error (.broken i) => i = .noTemporaries ∧ ∃ e, m' s = .error e ∧ stop e

variable {stop : Failure → Prop} {m m' : Gen α} {Q : α → GenState → Prop}

theorem Ensures.tracks (h : m.Ensures s Q) : Tracks stop m m s Q := by
  unfold Ensures at h
  unfold Tracks
  split <;> simp_all

theorem Tracks.mono (h : Tracks stop m m' s Q) (hQ : ∀ a t, Q a t → R a t) : Tracks stop m m' s R := by
  unfold Tracks at h ⊢
  split <;> simp_all

theorem Tracks.bind {f' : α → Gen β} {R : β → GenState → Prop} (h : Tracks stop m m' s Q)
    (hf : ∀ a t, Q a t → Tracks stop (f a) (f' a) t R) : Tracks stop (m >>= f) (m' >>= f') s R := by
  unfold Tracks at h
  simp only [Tracks, Bind.bind, StateT.bind, Except.bind]
  cases hm : m s with
  | error e =>
    cases e with
    | error e => simp_all
    | broken i =>
      simp only [hm] at h
      obtain ⟨hi, e, he, hstop⟩ := h
      simp only [he]
      exact ⟨hi, e, rfl, hstop⟩
  | ok r =>
    simp only [hm] at h
    simp only [h.1]
    exact hf r.1 r.2 h.2

theorem Tracks.step {g : α → Gen β} {R : β → GenState → Prop}
    (h : m.Ensures s fun a t => Tracks stop (f a) (g a) t R) : Tracks stop (m >>= f) (m >>= g) s R :=
  .bind h.tracks fun _ _ h => h

theorem tracks_pure {a : α} : Tracks stop (pure a) (pure a) s Q ↔ Q a s :=
  and_iff_right rfl

theorem Tracks.of_breaks {e : Failure} (h : m s = .error (.broken .noTemporaries))
    (h' : m' s = .error e) (hstop : stop e) : Tracks stop m m' s Q := by
  simp only [Tracks, h]
  exact ⟨trivial, e, h', hstop⟩

end RegisterCompiler.Gen
