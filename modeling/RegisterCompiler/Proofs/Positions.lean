import RegisterCompiler.Proofs.Tokens

/-!
# Where tokens stand

* `breakEnds` : where the line breaks of a text end, by a scan that knows nothing of tokens;
* `Cursor.Tallies` : a cursor has counted the breaks behind it, and splits none of them;
* `nthToken_position` : the line and the column of every token are those of its offset.
-/

namespace RegisterCompiler

open Cursor

/-- The offsets at which the line breaks of a text end that starts at `offset`. A line feed or carriage
return is one break with the other one of the two if that follows. -/
def breakEnds : (offset : Nat) → Bytes → List Nat
  | _, [] => []
  | offset, [b] => if isBreak b then [offset + 1] else []
  | offset, b :: d :: r =>
    if isBreak b then
      if isBreak d && b != d then (offset + 2) :: breakEnds (offset + 2) r
      else (offset + 1) :: breakEnds (offset + 1) (d :: r)
    else breakEnds (offset + 1) (d :: r)

theorem lt_of_mem_breakEnds {offset : Nat} {s : Bytes} {e : Nat} (h : e ∈ breakEnds offset s) : offset < e := by
  fun_induction breakEnds offset s with
  | case1 => simp at h
  | case2 offset b hb => simp at h; omega
  | case3 => simp at h
  | case4 offset b d r hb hd ih | case5 offset b d r hb hd ih =>
    rcases List.mem_cons.1 h with rfl | h
    · omega
    · have := ih h
      omega
  | case6 offset b d r hb ih =>
    have := ih h
    omega

theorem breakEnds_plain {offset : Nat} {b : UInt8} {r : Bytes} (hb : isBreak b = false) :
    breakEnds offset (b :: r) = breakEnds (offset + 1) r := by
  cases r <;> simp [breakEnds, hb]

theorem breakEnds_break {offset : Nat} {s : Bytes} (h : 0 < breakLength s) : breakEnds offset s =
      (offset + breakLength s) :: breakEnds (offset + breakLength s) (s.drop (breakLength s)) := by
  fun_cases breakLength s <;> simp_all [breakEnds, breakLength]

/-- Of the line breaks that end at `ends`, the cursor has passed and counted some, and the others are
those of the text that is left. -/
structure Cursor.Tallies (ends : List Nat) (c : Cursor) : Prop where
  passed : ∃ done, ends = done ++ breakEnds c.offset c.rest ∧ c.line = 1 + done.length ∧
    c.lineStart = done.getLastD 0 ∧ ∀ e ∈ done, e ≤ c.offset

namespace Cursor.Tallies

variable {ends : List Nat} {c d : Cursor}

theorem step (h : c.Tallies ends) (hstep : Step c d) : d.Tallies ends := by
  obtain ⟨done, hends, hline, hstart, hle⟩ := h.passed
  cases hstep with
  | @byte b r hrest hb =>
    refine ⟨done, ?_, hline, hstart, fun e he => ?_⟩
    · rw [hends, hrest, breakEnds_plain hb]
      simp [skip, hrest]
    · have := hle e he
      simp only [skip]
      omega
  | lineBreak hlen =>
    refine ⟨done ++ [c.offset + breakLength c.rest], ?_, ?_, ?_, fun e he => ?_⟩
    · rw [hends, breakEnds_break hlen]
      simp [skipBreak]
    · simp [skipBreak, hline]
      omega
    · simp [skipBreak]
    · simp only [skipBreak]
      rcases List.mem_append.1 he with he | he
      · have := hle e he
        omega
      · simp only [List.mem_singleton] at he
        omega

theorem reaches (h : c.Tallies ends) (hreach : Reaches c d) : d.Tallies ends := by
  induction hreach with
  | refl => exact h
  | tail _ hstep ih => exact ih.step hstep

theorem line_eq (h : c.Tallies ends) :
    c.line = 1 + (ends.filter (· ≤ c.offset)).length ∧ c.lineStart = (ends.filter (· ≤ c.offset)).getLastD 0 := by
  obtain ⟨done, hends, hline, hstart, hle⟩ := h.passed
  have hfilter : ends.filter (· ≤ c.offset) = done := by
    rw [hends, List.filter_append, List.filter_eq_self.2 (by simpa using hle),
      List.filter_eq_nil_iff.2 fun e he => by simpa using lt_of_mem_breakEnds he, List.append_nil]
  rw [hfilter]
  exact ⟨hline, hstart⟩

end Cursor.Tallies

/-- The ends of the line breaks of a source. A first line with `#` is passed over up to its line feed. -/
def lineBreaks (source : Bytes) : List Nat :=
  breakEnds (hashLine source).length (source.drop (hashLine source).length)

theorem tallies_of_in {c : Cursor} {source : Bytes} (h : c.In source) : c.Tallies (lineBreaks source) := by
  refine Cursor.Tallies.reaches ⟨[], ?_⟩ h.reached
  rw [start_eq]
  exact ⟨rfl, rfl, rfl, by simp⟩

/-- The position of every token is that of its offset: its line is one more than the number of line
breaks that end there or before, and its column, if it is not the end token, counts from the end of the
last of them. -/
theorem nthToken_position (source : Bytes) (k : Nat) :
    (nthToken source k).pos.line =
        1 + ((lineBreaks source).filter (· ≤ (nthToken source k).pos.offset)).length ∧
      ((nthToken source k).kind ≠ .eof → (nthToken source k).pos.column = (nthToken source k).pos.offset -
          ((lineBreaks source).filter (· ≤ (nthToken source k).pos.offset)).getLastD 0 + 1) := by
  obtain ⟨d, hin, hpos, -, -, hcases⟩ := nthToken_cases source k
  obtain ⟨hline, hstart⟩ := (tallies_of_in hin).line_eq
  rw [hpos]
  refine ⟨hline, fun hkind => ?_⟩
  obtain ⟨heof, -⟩ | hspans := hcases
  · exact absurd heof hkind
  · have hlen := hspans.passes.length_lt
    have hne : d.rest.isEmpty = false := by
      cases hrest : d.rest with
      | nil => simp [hrest] at hlen
      | cons => rfl
    change d.column = d.offset - ((lineBreaks source).filter (· ≤ d.offset)).getLastD 0 + 1
    rw [column, hne, ← hstart]
    rfl

end RegisterCompiler
