import RegisterCompiler.Proofs.Compiled
import RegisterCompiler.Proofs.Positions

/-!
# Debug information

* `line_of_mem_scan` : the tokens of a source stand in lines of the source;
* `lines_of_compile`, `line_of_error` : so do the instructions of its functions and its errors. Reading and
  compiling do the same to the lines as to any others that are put in their place, so that nothing
  changes if a line without tokens is replaced by another;
* `compile_debugInfo` : the debug information of compiled functions fits their code.
-/

namespace RegisterCompiler

/-! ## Lines of tokens -/

variable {source : Bytes}

theorem Cursor.In.line_le {c : Cursor} (h : c.In source) : 1 ≤ c.line ∧ c.line ≤ 1 + (lineBreaks source).length := by
  obtain ⟨done, hends, hline, -⟩ := (tallies_of_in h).passed
  rw [hends, List.length_append]
  omega

theorem Cursor.In.line_eq {c : Cursor} (h : c.In source) (hrest : c.rest = []) :
    c.line = 1 + (lineBreaks source).length := by
  obtain ⟨done, hends, hline, -⟩ := (tallies_of_in h).passed
  rw [hends, hrest, breakEnds, List.append_nil, hline]

theorem exists_scanAll (stopAtFault : Bool) (source : Bytes) :
    ∃ n, (nthToken source n).EndsScan stopAtFault ∧ scanAll stopAtFault source =
      ((List.range (n + 1)).map (nthToken source), cursorAfter source (n + 1)) := by
  classical
  obtain ⟨m, hm, heof⟩ := exists_count source
  have hsome : ∃ k, (nthToken source k).EndsScan stopAtFault := ⟨m, .inl ((heof m).2 le_rfl)⟩
  have hle : Nat.find hsome ≤ m := Nat.find_min' hsome (.inl ((heof m).2 le_rfl))
  exact ⟨Nat.find hsome, Nat.find_spec hsome,
    scanAll_eq (hle.trans hm) (Nat.find_spec hsome) fun k hk => Nat.find_min hsome hk⟩

theorem line_scanAll (source : Bytes) : (scanAll false source).2.line = 1 + (lineBreaks source).length := by
  obtain ⟨n, hends, hscan⟩ := exists_scanAll false source
  have heof : (nthToken source n).kind = .eof := hends.resolve_right fun h => Bool.false_ne_true h.1
  rw [hscan]
  obtain ⟨d, hin, -, -, -, ⟨-, -, hrest, hd⟩ | hspans⟩ := nthToken_cases source n
  · exact hd ▸ hin.line_eq hrest
  · exact absurd heof hspans.kind

theorem line_of_mem_scan {t : Token} (h : t ∈ scan source) :
    1 ≤ t.pos.line ∧ t.pos.line ≤ (scanAll false source).2.line := by
  obtain ⟨n, -, hscan⟩ := exists_scanAll true source
  rw [scan, hscan] at h
  obtain ⟨k, -, rfl⟩ := List.mem_map.1 h
  obtain ⟨d, hin, hpos, -⟩ := nthToken_cases source k
  rw [hpos, line_scanAll]
  exact hin.line_le

/-! ## Lines of instructions and errors -/

/-- The line is that of a token, or the first, where reading starts. -/
def OnToken (source : Bytes) (l : Int) : Prop :=
  l = 1 ∨ ∃ t ∈ scan source, (t.pos.line : Int) = l

theorem OnToken.in_source {l : Int} (h : OnToken source l) : 1 ≤ l ∧ l ≤ ((scanAll false source).2.line : Int) := by
  rcases h with rfl | ⟨t, ht, rfl⟩
  · have := line_scanAll source
    omega
  · have := line_of_mem_scan ht
    omega

/-- Compiling does not change if lines without tokens are replaced by the first one: the outcome agrees
with one in which all lines are those of tokens, and that has the same lines. -/
theorem exists_agree_onToken (source name : Bytes) :
    ∃ y : Except Failure (Proto × GenState), Agree (Failure.Alike fun _ l => OnToken source l)
        (fun r r' => r.1.Alike (.ofLines fun _ l => OnToken source l) r'.1)
        (Gen.chunk Gen.namedVariable (readChunk source) (.initial name)) y ∧
      Agree (Failure.Alike Eq) (fun r r' => r.1.Alike (.ofLines Eq) r'.1)
        (Gen.chunk Gen.namedVariable (readChunk source) (.initial name)) y := by
  classical
  let g : Nat → Nat := fun n => if OnToken source n then n else 1
  have htree : (readChunk source).mapLines g = (readChunk source).mapLines id := by
    refine (readChunk_twin (w := ⟨g, id, ?_⟩) (List.forall₂_same.2 fun t ht => ⟨rfl, ?_, scan_plain source t ht⟩)).1
    · exact if_pos (.inl rfl)
    · exact if_pos (.inr ⟨t, ht, rfl⟩)
  have hmap (n : Nat) : OnToken source (g n) := by
    simp only [g]
    split_ifs with h
    · exact h
    · exact .inl rfl
  have hnear := Gen.chunk_agree_mapLines (L := .ofLines fun _ l => OnToken source l) ⟨g, hmap, .inl rfl, fun _ => trivial⟩ (readChunk source) name []
  have hsame := Gen.chunk_agree_mapLines (L := .ofLines Eq) ⟨id, fun _ => rfl, rfl, fun _ => trivial⟩ (readChunk source) name []
  rw [htree] at hnear
  exact ⟨_, hnear.mono fun _ _ h => h.2, hsame.mono fun _ _ h => h.2⟩

theorem lines_of_compile {name : Bytes} {p : Proto} (h : compile source name false = .ok p) :
    ∀ q ∈ p.walk, ∀ l ∈ q.lines, OnToken source l := by
  obtain ⟨r, hrun, rfl⟩ := chunk_of_compile h
  obtain ⟨y, hnear, hsame⟩ := exists_agree_onToken source (if name.isEmpty then source else name)
  rw [hrun] at hnear hsame
  obtain ⟨r', rfl, hon⟩ := hnear.of_ok
  obtain ⟨_, ⟨⟩, heq⟩ := hsame.of_ok
  intro q hq l hl
  obtain ⟨i, rfl⟩ := List.get_of_mem hq
  obtain ⟨j, hj, rfl⟩ := Array.mem_iff_getElem.1 hl
  have hi : i < r'.1.walk.length := heq.length_eq ▸ i.2
  have hlines := ((List.forall₂_iff_get.1 heq).2 i i.2 hi).1
  have hj' := hlines.size ▸ hj
  exact hlines.get j hj hj' ▸ ((List.forall₂_iff_get.1 hon).2 i i.2 hi).1.get j hj hj'

theorem line_of_error {name : Bytes} {e : CompileError} (h : compile source name false = .error (.error e)) :
    OnToken source e.line := by
  obtain ⟨y, hnear, hsame⟩ := exists_agree_onToken source (if name.isEmpty then source else name)
  rw [compile_eq] at h
  generalize Gen.chunk Gen.namedVariable (readChunk source) _ = x at h hnear hsame
  cases x with
  | ok r => cases h
  | error f =>
    obtain rfl : f = .error e := Except.error.inj h
    obtain ⟨f', rfl, hon⟩ := hnear.of_error
    obtain ⟨_, ⟨⟩, heq⟩ := hsame.of_error
    cases f' with
    | error e' => exact (show e.line = e'.line from heq) ▸ hon
    | broken i => exact hon.elim

/-! ## Names of variables -/

def LocalVar.isLiveAt (pc : Int) (v : LocalVar) : Bool :=
  v.startPC ≤ pc && pc < v.endPC

/-- The search does not miss a live variable if the records are in the order of their starts. -/
theorem Proto.nthLive_eq {vs : List LocalVar} (h : vs.Pairwise fun u v => u.startPC ≤ v.startPC) (pc : Int) (n : Nat) :
    nthLive pc vs (n + 1) = ((vs.filter (LocalVar.isLiveAt pc))[n]?.map LocalVar.name).getD [] := by
  induction vs generalizing n with
  | nil => rfl
  | cons v vs ih =>
    obtain ⟨hv, hvs⟩ := List.pairwise_cons.1 h
    rw [nthLive]
    split_ifs with hlate hlive hn
    · -- all that come later start later still
      rw [List.filter_eq_nil_iff.2 fun u hu => ?_]
      · rfl
      · rw [LocalVar.isLiveAt]
        rcases List.mem_cons.1 hu with rfl | hu
        · simp only [Bool.and_eq_true, decide_eq_true_eq]
          omega
        · have := hv u hu
          simp only [Bool.and_eq_true, decide_eq_true_eq]
          omega
    · obtain rfl : n = 0 := by omega
      rw [List.filter_cons_of_pos (by simp [LocalVar.isLiveAt]; omega)]
      rfl
    · obtain ⟨k, rfl⟩ : ∃ k, n = k + 1 := ⟨n - 1, by omega⟩
      rw [List.filter_cons_of_pos (by simp [LocalVar.isLiveAt]; omega), List.getElem?_cons_succ, ← ih hvs]
      congr 1
      omega
    · rw [List.filter_cons_of_neg (by simp [LocalVar.isLiveAt]; omega), ih hvs]

/-- The debug information of every compiled function is well formed: there is a line of the source for
each instruction; the records of the variables start in order, with ranges inside the code that are
nested or disjoint; and a variable is found by its number among those that are live. -/
theorem compile_debugInfo {source name : Bytes} {p : Proto} (h : compile source name false = .ok p) :
    ∀ q ∈ p.walk, q.Recorded ∧
      (∀ l ∈ q.lines, 1 ≤ l ∧ l ≤ ((scanAll false source).2.line : Int)) ∧
      ∀ (n : Nat) (pc : Int), q.nameOfLocal (n + 1) pc =
        ((q.locals.filter (LocalVar.isLiveAt pc))[n]?.map LocalVar.name).getD [] := by
  intro q hq
  obtain ⟨r, hsound, rfl⟩ := exists_sound_of_compile h
  have hdebug := (hsound q hq).debug
  exact ⟨hdebug, fun l hl => (lines_of_compile h q hq l hl).in_source, fun n pc =>
    Proto.nthLive_eq (hdebug.order.imp fun huv => huv.1) pc n⟩

theorem compile_debugInfo_loop : ∃ p, compile loopSource [] false = .ok p ∧
    ∀ q ∈ p.walk, q.Recorded ∧ ∀ l ∈ q.lines, 1 ≤ l ∧ l ≤ 1 := by
  obtain ⟨p, hp⟩ := exists_compile_loop false
  exact ⟨p, hp, fun q hq => (compile_debugInfo hp q hq).imp_right fun h => h.1⟩

end RegisterCompiler
