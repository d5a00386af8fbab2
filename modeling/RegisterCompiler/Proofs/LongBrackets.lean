import RegisterCompiler.Proofs.Tokens

/-!
# Long brackets

* `next_longOpen` : the token that starts with a long bracket;
* `next_longComment` : what a comment in a long bracket passes;
* `longBracket_ends_at_first_close` : both end with the first closing bracket of their level.
-/

namespace RegisterCompiler

open Cursor

theorem next_longOpen (fuel level : Nat) {c : Cursor} {b : Bytes} (hrest : c.rest = longOpen level ++ b) :
    c.next fuel =
      if (longText level (c.skip (level + 2))).closed then
        (⟨.string, (longText level (c.skip (level + 2))).text, c.upTo (longText level (c.skip (level + 2))).stop, .zero,
          c.position⟩, (longText level (c.skip (level + 2))).stop)
      else c.faulty (longText level (c.skip (level + 2))).stop .unfinishedLongString := by
  have hstarts : StartsToken c.rest := by
    rw [hrest]
    refine ⟨fun x hx => ?_, fun h => absurd (List.cons_prefix_cons.1 h).1 (by decide)⟩
    cases hx
    rfl
  rw [next_of_startsToken fuel (b := '['.toUInt8) hrest hstarts]
  change readBracket c = _
  rw [readBracket, opening_of_prefix (hrest ▸ List.prefix_append (longOpen level) b)]

theorem skipBlank_succ {fuel : Nat} {c : Cursor} (h : c.rest.length < fuel) :
    skipBlank (fuel + 1) c = skipBlank fuel c := by
  induction fuel generalizing c with
  | zero => omega
  | succ k ih =>
    have hless {d : Cursor} (hpass : Passes c d) : d.rest.length < k := by
      have := hpass.length_lt
      omega
    rw [skipBlank.eq_def (k + 1 + 1) c, skipBlank.eq_def (k + 1) c]
    dsimp only
    cases hrest : c.rest with
    | nil => rfl
    | cons b r =>
      dsimp only
      split_ifs with hbreak hblank hdash
      · exact ih (hless (.single (hrest ▸ .lineBreak (hrest ▸ breakLength_cons hbreak))))
      · exact ih (hless (passes_skip_one hrest (by simpa using hbreak)))
      · obtain ⟨hb, hr⟩ := (Bool.and_eq_true _ _).mp hdash
        obtain ⟨r', rfl⟩ := List.head?_eq_some_iff.1 (beq_iff_eq.1 hr)
        have hcomment := skipComment_passed (c := c) (r := r') (by rw [hrest, beq_iff_eq.1 hb]; rfl)
        generalize skipComment c = x at hcomment
        rcases x with d | d
        · rfl
        · exact ih (hless hcomment.1)
      · rfl

/-- A comment in a long bracket is passed to its end, where the search for a token goes on. -/
theorem next_longComment {fuel level : Nat} {c : Cursor} {b : Bytes} (hrest : c.rest = bytes "--" ++ (longOpen level ++ b))
    (hfuel : c.rest.length < fuel) :
    c.next fuel =
      if (longText level ((c.skip 2).skip (level + 2))).closed then
        (longText level ((c.skip 2).skip (level + 2))).stop.next fuel
      else c.faulty (longText level ((c.skip 2).skip (level + 2))).stop .unfinishedLongComment := by
  have hinner : (c.skip 2).rest = longOpen level ++ b := by
    rw [skip, hrest]
    rfl
  have hpass := (longComment_passes hrest (List.prefix_append (longOpen level) b)).1.length_lt
  obtain ⟨k, rfl⟩ : ∃ k, fuel = k + 1 := ⟨fuel - 1, by omega⟩
  have hrest : c.rest = '-'.toUInt8 :: '-'.toUInt8 :: (longOpen level ++ b) := hrest
  rw [Cursor.next, skipBlank]
  simp only [hrest]
  rw [if_neg (by decide), if_neg (by decide), if_pos (by rfl), skipComment_long hinner (List.prefix_append _ _)]
  cases (longText level ((c.skip 2).skip (level + 2))).closed with
  | false => rfl
  | true =>
    rw [if_pos rfl, if_pos rfl, Cursor.next, skipBlank_succ (by omega)]

/-- A long bracket at the start of a source is a string up to its first closing bracket, or the fault
that there is none. After `--` it is a comment, and the same text is passed. -/
theorem longBracket_ends_at_first_close (n : Nat) (b : Bytes) :
    (∃ w r, b = w ++ longClose n ++ r ∧ StartsNotBefore (longClose n) w.length b ∧ nthToken (longOpen n ++ b) 0 =
          ⟨.string, unifyBreaks (dropBreak w), longOpen n ++ w ++ longClose n, .zero, ⟨0, 1, 1⟩⟩ ∧
        (cursorAfter (longOpen n ++ b) 1).rest = r ∧
        ∃ c : Cursor, c.In (bytes "--" ++ (longOpen n ++ b)) ∧ c.rest = r ∧
          nthToken (bytes "--" ++ (longOpen n ++ b)) 0 = (c.next ((bytes "--" ++ (longOpen n ++ b)).length + 1)).1) ∨
      ¬ longClose n <:+: b ∧
        nthToken (longOpen n ++ b) 0 =
          ⟨.fault .unfinishedLongString, bytes "unfinished long string", longOpen n ++ b, .zero, ⟨0, 1, 1⟩⟩ ∧
        nthToken (bytes "--" ++ (longOpen n ++ b)) 0 =
          ⟨.fault .unfinishedLongComment, bytes "unfinished long comment", bytes "--" ++ (longOpen n ++ b), .zero,
            ⟨0, 1, 1⟩⟩ := by
  have hlen : (longOpen n).length = n + 2 := by simp [longOpen]
  set c : Cursor := .start (longOpen n ++ b)
  set d : Cursor := .start (bytes "--" ++ (longOpen n ++ b))
  have hstart : c.rest = longOpen n ++ b := rfl
  have hstart' : d.rest = bytes "--" ++ (longOpen n ++ b) := rfl
  have hinner : (c.skip (n + 2)).rest = b := List.drop_left' hlen
  have hinner' : ((d.skip 2).skip (n + 2)).rest = b := List.drop_left' hlen
  have htoken := next_longOpen ((longOpen n ++ b).length + 1) n hstart
  have hcomment := next_longComment hstart' (Nat.lt_succ_self _)
  have hpass := longString_passes hstart
  have hpass' := (longComment_passes hstart' (List.prefix_append (longOpen n) b)).1
  have hreads := longText_reads n (c.skip (n + 2))
  have hreads' := longText_reads n ((d.skip 2).skip (n + 2))
  rw [hinner] at hreads
  rw [hinner'] at hreads'
  cases hreads with
  | closed w hclosed hb hfirst htext =>
    obtain ⟨hclosed', -, hrest'⟩ := hreads'.eq_of_first hb hfirst
    rw [if_pos hclosed] at htoken
    rw [if_pos hclosed'] at hcomment
    refine .inl ⟨w, _, hb, hfirst, ?_, by rw [cursorAfter, cursorAfter, htoken], _, ⟨hpass'.reaches⟩, hrest', ?_⟩
    · rw [nthToken, cursorAfter, htoken, htext, hpass.reaches.upTo_eq (w := longOpen n ++ w ++ longClose n)]
      · rfl
      · rw [hstart, List.append_assoc, List.append_assoc, ← List.append_assoc w, ← hb]
    · rw [nthToken, cursorAfter]
      exact congrArg Prod.fst hcomment
  | unclosed hopen hend hnone =>
    have hno {w r : Bytes} (hb : b = w ++ longClose n ++ r) : False :=
      absurd ((hnone (w.length + 1)).length_le hb) (by omega)
    cases hreads' with
    | closed w _ hb => exact (hno hb).elim
    | unclosed hopen' hend' =>
      rw [hopen, if_neg Bool.false_ne_true] at htoken
      rw [hopen', if_neg Bool.false_ne_true] at hcomment
      refine .inr ⟨?_, ?_, ?_⟩
      · rintro ⟨w, r, hb⟩
        exact hno hb.symm
      · rw [nthToken, cursorAfter, htoken, faulty, hpass.reaches.upTo_eq (w := longOpen n ++ b) ?_]
        · rfl
        · rw [hend, hstart, List.append_nil]
      · rw [nthToken, cursorAfter]
        refine (congrArg Prod.fst hcomment).trans ?_
        rw [faulty, hpass'.reaches.upTo_eq (w := bytes "--" ++ (longOpen n ++ b)) ?_]
        · rfl
        · rw [hend', hstart', List.append_nil]

end RegisterCompiler
