import RegisterCompiler.Proofs.Layout

/-!
# Registers of expressions

* `Operand.Holds` : which registers are in use for the value of an expression, by the kind of the value;
* `Operand.Placed.holds` : a value that is in its place holds no others;
* `expr_registers` : code for an expression leaves variables and blocks as they are, and of the
  registers it has used only those of its value are still in use.
-/

namespace RegisterCompiler

namespace Operand

/-- The registers above those of variables that the table and the key of a field are in. A key from
256 on is a constant. -/
def fieldTemporaries (active : Int) (inUpvalue : Bool) (table key : Int) : List Int :=
  ((if inUpvalue then [] else [table]) ++ if 256 ≤ key then [] else [key]).filter (active ≤ ·)

/-- The registers from `first` on that are in use are those of the value. -/
def Holds (first : Int) (f : Func) (e : Operand) : Prop :=
  match e.kind with
  | .void => False
  | .nonRelocatable => 0 ≤ e.info ∧ e.info < f.active ∧ f.free = first ∨
      e.info = first ∧ f.free = first + 1
  | .call => ∃ i, 0 ≤ e.info ∧ f.code[e.info.toNat]? = some i ∧ i.op? = some .call ∧
      (i.a : Int) = first ∧ f.free = first + 1
  | .indexed inUpvalue key =>
      let rs := fieldTemporaries f.active inUpvalue e.info key
      rs = (List.range rs.length).map (first + ·) ∧ f.free = first + rs.length
  | _ => f.free = first

variable {f : Func} {e : Operand} {r key : Int}

theorem KeyPlaced.temporaries (h : KeyPlaced f r key) (hactive : f.active ≤ r) (hfree : f.free ≤ 256) :
    ((if 256 ≤ key then [] else [key]).filter (f.active ≤ ·) = [] ∧ f.free = r) ∨
      (if 256 ≤ key then [] else [key]).filter (f.active ≤ ·) = [r] ∧ f.free = r + 1 := by
  rcases h with ⟨h1, -, -, hf⟩ | ⟨-, hlt, hf⟩ | ⟨rfl, hf⟩
  · simp [h1, hf]
  · have h1 : ¬ 256 ≤ key := by omega
    have h2 : ¬ f.active ≤ key := by omega
    simp [h1, h2, hf]
  · have h1 : ¬ 256 ≤ key := by omega
    simp [h1, hactive, hf]

theorem Placed.holds {n0 : Nat} (h : e.Placed n0 r f) (hactive : f.active ≤ r) (hfree : f.free ≤ 256) :
    e.Holds r f := by
  unfold Placed at h
  unfold Holds
  cases hk : e.kind with
  | void => simp only [hk] at h
  | nil | true | false | number | constant | jump =>
    simp only [hk] at h ⊢
    exact h.2
  | relocatable =>
    simp only [hk] at h ⊢
    exact h.2.1
  | nonRelocatable =>
    simp only [hk] at h ⊢
    exact h
  | «local» | upvalue =>
    simp only [hk] at h ⊢
    exact h.2.2
  | indexed inUpvalue key =>
    cases inUpvalue with
    | true =>
      simp only [hk] at h
      rcases h.2.2.temporaries hactive hfree with ⟨hrs, hf⟩ | ⟨hrs, hf⟩ <;>
        simp [fieldTemporaries, hrs, hf]
    | false =>
      simp only [hk] at h
      rcases h with ⟨-, hlt, hkey⟩ | ⟨heq, hkey⟩
      · have htable : ¬ f.active ≤ e.info := by omega
        rcases hkey.temporaries hactive hfree with ⟨hrs, hf⟩ | ⟨hrs, hf⟩ <;>
          simp [fieldTemporaries, htable, hrs, hf]
      · rcases hkey.temporaries (by omega) hfree with ⟨hrs, hf⟩ | ⟨hrs, hf⟩
        · simp [fieldTemporaries, heq, hactive, hrs, hf]
        · simp [fieldTemporaries, heq, hactive, hrs, List.range_succ]
          omega
  | call =>
    simp only [hk] at h ⊢
    obtain ⟨n, i, hn, -, -, hi, hop, ha, hf⟩ := h
    exact ⟨i, by omega, by simpa [hn] using hi, hop, ha, hf⟩
  | vararg =>
    simp only [hk] at h ⊢
    obtain ⟨n, i, -, -, -, -, -, -, -, hf⟩ := h
    exact hf

end Operand

end RegisterCompiler
