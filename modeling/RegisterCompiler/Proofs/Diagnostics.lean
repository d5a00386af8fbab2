import RegisterCompiler.Editor.Session
import RegisterCompiler.Proofs.DebugInfo
import RegisterCompiler.Proofs.Words

/-!
# Lines of an editor and lines of tokens

The scanner takes a carriage return and a line feed next to each other, in either order, for one line
break; an editor splits a text at its line feeds. Where every carriage return is followed by a line feed,
each break of the scanner has one line feed in it, however the bytes are paired.

* `pairsReturns` : every carriage return is followed by a line feed;
* `Cursor.In.line_eq_count` : then the line of a cursor counts the line feeds before it;
* `diagnose_line` : what is wrong with a text is shown on the whole line of a token.
-/

namespace RegisterCompiler

open Cursor

/-- Every carriage return of the text is followed by a line feed. -/
def pairsReturns : Bytes → Bool
  | [] => true
  | b :: r => (b != Bytes.cr || r.head? == some Bytes.lf) && pairsReturns r

theorem pairsReturns_of_append {a b : Bytes} (h : pairsReturns (a ++ b) = true) : pairsReturns b = true := by
  induction a with
  | nil => exact h
  | cons x a ih => exact ih (Bool.and_eq_true_iff.1 h).2

theorem count_take_breakLength {s : Bytes} (h : 0 < breakLength s) (hp : pairsReturns s = true) :
    (s.take (breakLength s)).count Bytes.lf = 1 := by
  fun_cases breakLength s with
  | case1 a b r ha hb =>
    have hab : a = Bytes.lf ∧ b = Bytes.cr ∨ a = Bytes.cr ∧ b = Bytes.lf := by
      simp only [isBreak, Bool.and_eq_true, Bool.or_eq_true, beq_iff_eq, bne_iff_ne] at ha hb
      grind
    rcases hab with ⟨rfl, rfl⟩ | ⟨rfl, rfl⟩ <;> rfl
  | case2 a b r ha hb =>
    have hlf : a = Bytes.lf := by
      simp only [isBreak, pairsReturns, List.head?_cons, Bool.and_eq_true, Bool.or_eq_true, beq_iff_eq, bne_iff_ne,
        Option.some.injEq] at ha hb hp
      grind
    subst hlf
    rfl
  | case4 a ha =>
    have hlf : a = Bytes.lf := by
      simp [isBreak, pairsReturns] at ha hp
      grind
    subst hlf
    rfl
  | case3 | case5 | case6 => simp_all [breakLength]

variable {c d : Cursor} {source : Bytes}

theorem Cursor.In.line_eq_count (hp : pairsReturns source = true) (h : c.In source) :
    c.line = 1 + (source.take c.offset).count Bytes.lf := by
  suffices hw : ∃ w, source = w ++ c.rest ∧ c.offset = w.length ∧ c.line = 1 + w.count Bytes.lf by
    obtain ⟨w, hw, hoffset, hline⟩ := hw
    rw [hw, hoffset, List.take_left, hline]
  have hreached := h.reached
  rw [start_eq] at hreached
  induction hreached with
  | refl =>
    refine ⟨hashLine source, (hashLine_append source).symm, rfl, ?_⟩
    rw [List.count_eq_zero.2 fun hmem => ?_]
    unfold hashLine at hmem
    split_ifs at hmem
    · exact absurd (List.mem_takeWhile_imp hmem) (by simp)
    · cases hmem
  | @tail c d hreach hstep ih =>
    obtain ⟨w, hw, hoffset, hline⟩ := ih (h := ⟨by rw [start_eq]; exact hreach⟩)
    cases hstep with
    | @byte b r hrest hb =>
      refine ⟨w ++ [b], ?_, ?_, ?_⟩
      · rw [hw, hrest]
        simp [skip, hrest]
      · simp [skip, hoffset]
      · have : b ≠ Bytes.lf := by
          rintro rfl
          cases hb
        simp [skip, hline, this]
    | lineBreak hlen =>
      have hcount := count_take_breakLength hlen (pairsReturns_of_append (hw ▸ hp))
      refine ⟨w ++ c.rest.take (breakLength c.rest), ?_, ?_, ?_⟩
      · rw [List.append_assoc, skipBreak, List.take_append_drop, ← hw]
      · rw [List.length_append, List.length_take_of_le (breakLength_le _), skipBreak, hoffset]
      · rw [List.count_append, hcount, skipBreak, hline]
        rfl

theorem OnToken.exists_nthToken {l : Int} (h : OnToken source l) : l = 1 ∨ ∃ k, l = (nthToken source k).pos.line := by
  refine h.imp_right ?_
  rintro ⟨t, ht, rfl⟩
  obtain ⟨n, -, hscan⟩ := exists_scanAll true source
  rw [scan, hscan] at ht
  obtain ⟨k, -, rfl⟩ := List.mem_map.1 ht
  exact ⟨k, rfl⟩

namespace Editor

def lineAt (text : Bytes) (offset : Nat) : Bytes :=
  lastLine (text.take offset) ++ firstLine (text.drop offset)

theorem getElem?_lines (text : Bytes) (n : Nat) :
    (lines text)[(text.take n).count Bytes.lf]? = some (lineAt text n) := by
  have h := lines_append (text.take n) (text.drop n)
  rwa [List.take_append_drop] at h

theorem Diagnostic.ofLine_lineAt (text : Bytes) (n : Nat) (message : Bytes) :
    ofLine text (1 + (text.take n).count Bytes.lf) message =
      ⟨(text.take n).count Bytes.lf, ((lineAt text n).rdropWhile (· == Bytes.cr)).length, message⟩ := by
  have hk : (max 1 (min (1 + (text.take n).count Bytes.lf : Int) (lines text).length)).toNat - 1 =
      (text.take n).count Bytes.lf := by
    have := (List.take_sublist n text).count_le Bytes.lf
    rw [length_lines]
    omega
  simp only [ofLine, hk, getElem?_lines, Option.getD_some]
  rw [List.rdropWhile, List.length_reverse]

end Editor

open Editor

/-- Where every carriage return is followed by a line feed, the line of a token, also of a fault or of the
end of the text, counts the line feeds before it. An error is reported on the line of a token, or on the
first, and shown on all of the line around any place there, up to its carriage returns. -/
theorem diagnose_line (hp : pairsReturns source = true) (name : Bytes) :
    (∀ k, (nthToken source k).pos.line = 1 + (source.take (nthToken source k).pos.offset).count Bytes.lf) ∧
    ∀ e, compile source name false = .error (.error e) →
      (e.line = 1 ∨ ∃ k, e.line = (nthToken source k).pos.line) ∧
      ∀ n, e.line = 1 + (source.take n).count Bytes.lf →
        (lines source)[(source.take n).count Bytes.lf]? = some (lineAt source n) ∧
        ∃ message, diagnose name source = .error ⟨(source.take n).count Bytes.lf,
          ((lineAt source n).rdropWhile (· == Bytes.cr)).length, message⟩ := by
  refine ⟨fun k => ?_, fun e he => ⟨(line_of_error he).exists_nthToken, fun n hn => ⟨getElem?_lines source n, ?_⟩⟩⟩
  · obtain ⟨d, hin, hpos, -⟩ := nthToken_cases source k
    rw [hpos]
    exact hin.line_eq_count hp
  · rw [diagnose, he]
    simp only [Diagnostic.ofFailure, hn, Diagnostic.ofLine_lineAt]
    exact ⟨_, rfl⟩

/-- No statement starts like the second line. -/
theorem diagnose_line_second :
    ∃ e, compile (bytes "do\r\n=") [] false = .error (.error e) ∧ e.line = 2 ∧
      ∃ message, diagnose [] (bytes "do\r\n=") = .error ⟨1, 1, message⟩ := by
  have hline : (compile (bytes "do\r\n=") [] false).casesOn (motive := fun _ => Bool)
      (fun f => f.casesOn (fun e => e.line == 2) fun _ => false) (fun _ => false) = true := by
    decide +kernel
  generalize hx : compile (bytes "do\r\n=") [] false = x at hline
  obtain (e | i) | p := x
  · have he : e.line = 2 := beq_iff_eq.1 hline
    exact ⟨e, rfl, he, (((diagnose_line (by decide) []).2 e hx).2 4 he).2⟩
  · cases hline
  · cases hline

end RegisterCompiler
