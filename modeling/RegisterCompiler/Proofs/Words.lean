import Mathlib.Data.List.DropRight
import RegisterCompiler.Compile
import RegisterCompiler.Editor.Text
import RegisterCompiler.Proofs.Paths
import RegisterCompiler.Proofs.SpacedTokens

/-!
# Words in a text and names among its tokens

* `Editor.lines_append` : the line at a place, by the text before the place and after it;
* `Token.Ends` : how the text of a token ends. A name goes on as far as it can, no name starts right
  after a numeral, and all other tokens end in a byte that no name has;
* `nthToken_word` : an editor finds a name or reserved word wherever the cursor touches it.
-/

namespace RegisterCompiler

open Cursor

variable {c d stop : Cursor} {b : UInt8} {r source : Bytes} {fuel k : Nat}

/-! ## Lines -/

/-- The line that a text ends in, as far as the text has it. -/
def lastLine (s : Bytes) : Bytes := s.rtakeWhile (· ≠ Bytes.lf)

theorem Editor.length_lines (s : Bytes) : (lines s).length = s.count Bytes.lf + 1 := by
  rw [lines]
  induction s with
  | nil => rfl
  | cons x s ih =>
    rw [Bytes.splitOn]
    split_ifs with hx
    · rw [List.length_cons, ih, beq_iff_eq.1 hx, List.count_cons_self]
    · rw [List.count_cons_of_ne (by simpa using hx), ← ih]
      cases h : Bytes.splitOn Bytes.lf s with
      | nil => exact absurd h (Bytes.splitOn_ne_nil _ s)
      | cons p ps => rfl

theorem Editor.head_lines (s : Bytes) : (lines s)[0]? = some (firstLine s) := by
  rw [lines]
  induction s with
  | nil => rfl
  | cons x s ih =>
    rw [Bytes.splitOn]
    split_ifs with hx
    · simp [firstLine, beq_iff_eq.1 hx]
    · cases h : Bytes.splitOn Bytes.lf s with
      | nil => exact absurd h (Bytes.splitOn_ne_nil _ s)
      | cons p ps =>
        obtain rfl : p = firstLine s := by simpa [h] using ih
        simp [firstLine, show x ≠ Bytes.lf by simpa using hx]

theorem Editor.lines_append (a b : Bytes) :
    (lines (a ++ b))[a.count Bytes.lf]? = some (lastLine a ++ firstLine b) := by
  induction a using List.reverseRecOn generalizing b with
  | nil => exact head_lines b
  | append_singleton a x ih =>
    rw [List.append_assoc, List.singleton_append, List.count_append, List.count_singleton, lastLine]
    by_cases hx : x = Bytes.lf
    · subst hx
      rw [lines, Bytes.splitOn_append_sep, beq_self_eq_true, if_pos rfl, ← length_lines, lines,
        List.getElem?_append_right le_rfl, Nat.sub_self, List.rtakeWhile_concat_neg _ _ _ (by simp)]
      exact head_lines b
    · rw [if_neg (by simpa using hx), Nat.add_zero, ih, List.rtakeWhile_concat_pos _ _ _ (by simpa using hx), ← lastLine]
      simp [firstLine, hx]

/-! ## How tokens end -/

/-- The text `s` goes on with `r` after a byte that is no part of a name. -/
def Closes (s r : Bytes) : Prop :=
  ∃ w x, s = w ++ x :: r ∧ isNameByte x = false

/-- How the text of a token ends that starts with `s`, and after which `r` is left. -/
inductive Token.Ends (s r : Bytes) : Token.Kind → Prop
  | fault (f : ScanFault) : Ends s r (.fault f)
  | number (h : runsOn r = false) : Ends s r .number
  | name {kind : Token.Kind} (start : runsOn s = true) (rest : r = s.dropWhile isNameByte) : Ends s r kind
  | string (h : Closes s r) : Ends s r .string
  | symbol (x : Symbol) (h : Closes s r) : Ends s r (.symbol x)

theorem closes_skip {n : Nat} (hb : isNameByte b = false) (h : (c.skip n).rest = b :: r) :
    Closes c.rest (c.skip (n + 1)).rest := by
  refine ⟨c.rest.take n, b, ?_, hb⟩
  have hnext : (c.skip (n + 1)).rest = r := by
    rw [← skip_skip, skip, h]
    rfl
  rw [hnext, ← h, skip, List.take_append_drop]

theorem Closes.of_reaches (hreach : Reaches c d) (h : Closes d.rest r) : Closes c.rest r := by
  obtain ⟨w, x, hw, hx⟩ := h
  exact ⟨c.upTo d ++ w, x, by rw [hreach.rest_eq, hw, List.append_assoc], hx⟩

theorem quotedText_closes {q : UInt8} (hq : isNameByte q = false) {acc s : Bytes}
    (h : quotedText q fuel c acc = .ok (s, stop)) : Closes c.rest stop.rest := by
  induction fuel generalizing c acc with
  | zero => cases h
  | succ k ih =>
    unfold quotedText at h
    split at h
    · cases h
    · rename_i b r hrest
      split_ifs at h with hend hbreak hescape
      · obtain ⟨-, rfl⟩ := Prod.mk.inj (Except.ok.inj h)
        exact closes_skip (n := 0) (beq_iff_eq.1 hend ▸ hq) hrest
      · have hfirst : Cursor.Step c (c.skip 1) := .byte hrest (by simpa using hbreak)
        have hesc := scanEscape_reaches (c.skip 1)
        cases hx : scanEscape (c.skip 1) with
        | error e =>
          rw [hx] at h
          cases h
        | ok x =>
          rw [hx] at h hesc
          exact .of_reaches (.head hfirst hesc) (ih h)
      · exact .of_reaches (.single (.byte hrest (by simpa using hbreak))) (ih h)

theorem readNumeral_ends (c : Cursor) : Token.Ends c.rest (readNumeral c).2.rest (readNumeral c).1.kind := by
  rw [readNumeral_eq]
  split
  · exact .fault _
  · rename_i hruns
    split
    · exact .fault _
    · exact .number (by simpa using hruns)

theorem scanName_ends (h : runsOn c.rest = true) : Token.Ends c.rest (scanName c).2.rest (scanName c).1.kind := by
  unfold scanName
  dsimp only
  split <;> exact .name h skipWhile_rest

theorem readBracket_ends (hrest : c.rest = '['.toUInt8 :: r) :
    Token.Ends c.rest (readBracket c).2.rest (readBracket c).1.kind := by
  unfold readBracket
  split
  · rename_i level hopen
    dsimp only
    split
    · rename_i hclosed
      obtain ⟨s, hs⟩ := prefix_of_opening hrest hopen
      obtain ⟨body, hbody, -⟩ := longText_closed hclosed
      have hskip : (c.skip (level + 2)).rest = s := by
        rw [skip, ← hs, show level + 2 = (longOpen level).length by simp [longOpen], List.drop_left]
      refine .string ⟨longOpen level ++ body ++ ']'.toUInt8 :: List.replicate level '='.toUInt8, ']'.toUInt8, ?_, by decide⟩
      rw [← hs, ← hskip, hbody]
      simp [longClose]
    · exact .fault _
  · exact .symbol _ (closes_skip (n := 0) (by decide) hrest)
  · exact .fault _

theorem ends_symbol (s : Symbol) {n : Nat} {ch : Char} (h : (c.skip n).at? ch = true)
    (hch : isNameByte ch.toUInt8 = false) : Token.Ends c.rest (c.skip (n + 1)).rest (.symbol s) := by
  obtain ⟨r, hr⟩ := at?_eq_true h
  exact .symbol s (closes_skip hch hr)

theorem readToken_ends (hrest : c.rest = b :: r) :
    Token.Ends c.rest (readToken fuel b c).2.rest (readToken fuel b c).1.kind := by
  have hfirst {ch : Char} (h : Char.ofUInt8 b = ch) : (c.skip 0).at? ch = true := by
    rw [skip_zero, at?, hrest, ← h, toUInt8_ofUInt8]
    exact beq_self_eq_true _
  unfold readToken
  dsimp only
  split
  case h_15 h | h_16 h | h_17 h | h_18 h =>
    split_ifs with h1
    · exact ends_symbol _ h1 (by decide)
    · exact ends_symbol _ (hfirst h) (by decide)
  case h_19 =>
    split_ifs with h1
    · exact ends_symbol _ h1 (by decide)
    · exact .fault _
  case h_20 h => exact readBracket_ends (by rw [hrest, ← toUInt8_ofUInt8 b, h])
  case h_21 h =>
    split_ifs with h1 h2
    · exact ends_symbol _ h2 (by decide)
    · exact ends_symbol _ h1 (by decide)
    · exact readNumeral_ends c
    · exact ends_symbol _ (hfirst h) (by decide)
  case h_22 =>
    split_ifs with hquote hdigit hname
    · obtain ⟨hb, hbreak⟩ : isNameByte b = false ∧ isBreak b = false := by
        rw [← toUInt8_ofUInt8 b]
        rcases hquote with h | h <;> rw [h] <;> decide
      cases hquoted : quotedText b fuel (c.skip 1) [] with
      | error e => exact .fault _
      | ok x => exact .string (.of_reaches (.single (.byte hrest hbreak)) (quotedText_closes hb hquoted))
    · exact readNumeral_ends c
    · exact scanName_ends (by rw [hrest]; exact hname)
    · exact .fault _
  all_goals exact ends_symbol _ (hfirst ‹_›) (by decide)

/-! ## Names -/

theorem isNameByte_of_runsOn (h : runsOn (b :: r) = true) : isNameByte b = true := by
  rcases (Bool.or_eq_true _ _).mp h with h | h <;> simp [isNameByte, h]

theorem not_runsOn_dropWhile (s : Bytes) : runsOn (s.dropWhile isNameByte) = false := by
  have hhead := List.head?_dropWhile_not isNameByte s
  cases h : s.dropWhile isNameByte with
  | nil => rfl
  | cons b r =>
    rw [h] at hhead
    exact Bool.eq_false_iff.2 fun hruns => Bool.eq_false_iff.1 hhead (isNameByte_of_runsOn hruns)

theorem next_ends (hfuel : c.rest.length < fuel) (hkind : (c.next fuel).1.kind ≠ .eof) :
    ∃ d, Reaches c d ∧ (c.next fuel).1.pos = d.position ∧
      Token.Ends d.rest (c.next fuel).2.rest (c.next fuel).1.kind := by
  have hskip := skipBlank_skipped fuel c
  unfold Cursor.next at hkind ⊢
  generalize skipBlank fuel c = x at hskip hkind ⊢
  rcases x with ⟨start, stop⟩ | d
  · exact ⟨start, hskip.1, rfl, .fault _⟩
  · obtain ⟨hreach, -, hstart⟩ := hskip
    cases hrest : d.rest with
    | nil =>
      simp only [hrest] at hkind
      exact absurd rfl hkind
    | cons b r =>
      simp only [hrest]
      have hspace : isSpace b = false := (hstart hfuel).1 b (by rw [hrest]; rfl)
      exact ⟨d, hreach, (readToken_spans fuel hrest (Bool.or_eq_false_iff.1 hspace).2).pos,
        hrest ▸ readToken_ends hrest⟩

/-- A token that is not the end starts at a cursor after a gap, and ends as its kind does. -/
theorem nthToken_ends (hkind : (nthToken source k).kind ≠ .eof) :
    ∃ d, d.In source ∧ (nthToken source k).pos = d.position ∧ Reaches (cursorAfter source k) d ∧
      Gap ((cursorAfter source k).upTo d) d.rest ∧ d.rest = (nthToken source k).raw ++ (cursorAfter source (k + 1)).rest ∧
      Token.Ends d.rest (cursorAfter source (k + 1)).rest (nthToken source k).kind := by
  obtain ⟨d, hin, hpos, hreach, hgap, ⟨heof, -⟩ | hspans⟩ := nthToken_cases source k
  · exact absurd heof hkind
  · have hafter := cursorAfter_in source k
    obtain ⟨e, hreach', hpos', hends⟩ := next_ends hafter.fuel hkind
    have hoff : e.offset = d.offset := congrArg Position.offset (hpos'.symm.trans hpos)
    rw [(hafter.trans hreach').rest_eq, hoff, ← hin.rest_eq] at hends
    exact ⟨d, hin, hpos, hreach, hgap, hspans.raw ▸ hspans.passes.reaches.rest_eq, hends⟩

theorem not_nameByte_of_isSpace (h : isSpace b = true) : isNameByte b = false := by
  simp only [isSpace, isBlank, isBreak, Bool.or_eq_true, beq_iff_eq] at h
  rcases h with (((rfl | rfl) | rfl) | rfl) | (rfl | rfl) <;> decide

theorem Closes.append {s : Bytes} (v : Bytes) (h : Closes s r) : Closes (v ++ s) r := by
  obtain ⟨w, x, rfl, hx⟩ := h
  exact ⟨v ++ w, x, (List.append_assoc ..).symm, hx⟩

theorem Gap.closes {w next : Bytes} (h : Gap w next) (hnext : runsOn next = true) :
    w = [] ∨ Closes (w ++ next) next := by
  induction h with
  | nil => exact .inl rfl
  | @space b w next hb _ ih =>
    obtain rfl | hw := ih hnext
    · exact .inr ⟨[], b, rfl, not_nameByte_of_isSpace hb⟩
    · exact .inr (hw.append [b])
  | @comment v w next hv _ ih =>
    obtain rfl | hw := ih hnext
    · cases hv with
      | line _ _ hbreak =>
        cases next with
        | nil => cases hnext
        | cons y next =>
          have hname := isNameByte_of_runsOn hnext
          rw [not_nameByte_of_isSpace (by simp [isSpace, hbreak y rfl])] at hname
          cases hname
      | @long body _ level _ =>
        exact .inr ⟨bytes "--" ++ longOpen level ++ body ++ ']'.toUInt8 :: List.replicate level '='.toUInt8, ']'.toUInt8,
          by simp [longClose], by decide⟩
    · rw [List.append_assoc]
      exact .inr (hw.append v)

/-- No byte of a name stands right in front of a name, if there is no fault among the tokens before. -/
theorem closes_of_name (hfault : ∀ j < k, ∀ f, (nthToken source j).kind ≠ .fault f)
    (hreach : Reaches (cursorAfter source k) d) (hgap : Gap ((cursorAfter source k).upTo d) d.rest)
    (hname : runsOn d.rest = true) : source = d.rest ∨ Closes source d.rest := by
  have hsource {c : Cursor} (hc : c.In source) : source = source.take c.offset ++ c.rest := by
    rw [hc.rest_eq, List.take_append_drop]
  have hrest := Reaches.rest_eq hreach
  obtain hnil | hcloses := hgap.closes hname
  · rw [hnil, List.nil_append] at hrest
    cases k with
    | zero =>
      rw [cursorAfter, start_eq] at hrest
      dsimp only at hrest
      unfold hashLine at hrest
      split at hrest
      · -- the line with `#` goes up to a line feed
        rw [drop_length_takeWhile] at hrest
        have hhead := List.head?_dropWhile_not (· != Bytes.lf) source
        cases hd : d.rest with
        | nil => rw [hd] at hname; cases hname
        | cons b r =>
          rw [hrest, hd] at hhead
          rw [hd] at hname
          obtain rfl : b = Bytes.lf := by simpa using hhead
          cases hname
      · exact .inl hrest
    | succ k =>
      have hkind : (nthToken source k).kind ≠ .eof := by
        intro heof
        obtain ⟨e, -, -, -, -, ⟨-, -, hnone, hafter⟩ | hspans⟩ := nthToken_cases source k
        · rw [← hrest, hafter, hnone] at hname
          cases hname
        · exact hspans.kind heof
      obtain ⟨e, hin, -, -, -, -, hends⟩ := nthToken_ends hkind
      have hk := hfault k (Nat.lt_succ_self k)
      rw [hrest] at hends
      rw [hsource hin]
      generalize (nthToken source k).kind = kind at hends hk
      cases hends with
      | fault f => exact absurd rfl (hk f)
      | number h => rw [h] at hname; cases hname
      | name _ h => rw [h, not_runsOn_dropWhile] at hname; cases hname
      | string h => exact .inr (h.append _)
      | symbol _ h => exact .inr (h.append _)
  · rw [← hrest] at hcloses
    rw [hsource (cursorAfter_in source k)]
    exact .inr (hcloses.append _)

def EndsApart (a : Bytes) : Prop :=
  a = [] ∨ ∃ v x, a = v ++ [x] ∧ isNameByte x = false

theorem EndsApart.lastLine {a : Bytes} (h : EndsApart a) : EndsApart (lastLine a) := by
  obtain rfl | ⟨v, x, rfl, hx⟩ := h
  · exact .inl rfl
  · rw [RegisterCompiler.lastLine, List.rtakeWhile_concat]
    split_ifs
    · exact .inr ⟨_, x, rfl, hx⟩
    · exact .inl rfl

theorem Editor.wordEnding_append {a w : Bytes} (ha : EndsApart a) (hw : ∀ x ∈ w, isNameByte x = true) :
    wordEnding (a ++ w) = w := by
  have hnone : a.reverse.takeWhile isNameByte = [] := by
    obtain rfl | ⟨v, x, rfl, hx⟩ := ha <;> simp [*]
  rw [wordEnding, List.reverse_append, List.takeWhile_append_of_pos (by simpa using hw), hnone, List.append_nil,
    List.reverse_reverse]

theorem Editor.word_append {a w : Bytes} (ha : EndsApart a) (hw : ∀ x ∈ w, isNameByte x = true)
    (hr : ∀ x ∈ r.head?, isNameByte x = false) {n : Nat} (hn : n ≤ w.length) :
    wordAround (a ++ (w ++ r)) ⟨a.count Bytes.lf, (lastLine a).length + n⟩ = w ∧
    wordBefore (a ++ (w ++ r)) ⟨a.count Bytes.lf, (lastLine a).length + n⟩ = w.take n := by
  have hline : firstLine (w ++ r) = w ++ firstLine r :=
    List.takeWhile_append_of_pos fun x hx => by
      have := isBreak_nameByte (hw x hx)
      simpa [isBreak] using (Bool.or_eq_false_iff.1 this).1
  have hafter : (firstLine r).takeWhile isNameByte = [] := by
    cases r with
    | nil => rfl
    | cons y r =>
      rw [firstLine, List.takeWhile_cons]
      split <;> simp [hr y rfl]
  have hbefore := wordEnding_append ha.lastLine fun x hx => hw x (List.mem_of_mem_take (i := n) hx)
  have hplace : lineAround (a ++ (w ++ r)) ⟨a.count Bytes.lf, (lastLine a).length + n⟩ =
      some (lastLine a ++ w.take n, w.drop n ++ firstLine r) := by
    rw [lineAround, lines_append, hline]
    simp only [Option.map_some, List.take_length_add_append, List.drop_length_add_append,
      List.take_append_of_le_length hn, List.drop_append_of_le_length hn]
  rw [wordAround, wordBefore, hplace]
  refine ⟨?_, hbefore⟩
  change wordEnding _ ++ _ = w
  rw [hbefore, List.takeWhile_append_of_pos fun x hx => hw x (List.mem_of_mem_drop hx), hafter, List.append_nil,
    List.take_append_drop]

/-- An editor finds a name or reserved word wherever the cursor touches it, and the part of it that is
before the cursor. -/
theorem nthToken_word (hfault : ∀ j < k, ∀ f, (nthToken source j).kind ≠ .fault f)
    (hword : (nthToken source k).kind = .name ∨ ∃ w, (nthToken source k).kind = .word w) {n : Nat}
    (hn : n ≤ (nthToken source k).raw.length) {before : Bytes}
    (hbefore : before = source.take (nthToken source k).pos.offset) :
    Editor.wordAround source ⟨before.count Bytes.lf, (lastLine before).length + n⟩ = (nthToken source k).raw ∧
    Editor.wordBefore source ⟨before.count Bytes.lf, (lastLine before).length + n⟩ = (nthToken source k).raw.take n := by
  have hkind : (nthToken source k).kind ≠ .eof := by
    rcases hword with h | ⟨w, h⟩ <;> rw [h] <;> rintro ⟨⟩
  obtain ⟨d, hin, hpos, hreach, hgap, hd, hends⟩ := nthToken_ends hkind
  obtain ⟨hstart, hrest⟩ : runsOn d.rest = true ∧ (cursorAfter source (k + 1)).rest = d.rest.dropWhile isNameByte := by
    generalize (nthToken source k).kind = kind at hends hword
    cases hends with
    | name hstart hrest => exact ⟨hstart, hrest⟩
    | _ => simp at hword
  have hsource : source = before ++ d.rest := by
    rw [hbefore, hpos, hin.rest_eq]
    exact (List.take_append_drop ..).symm
  have hleft : EndsApart before := by
    obtain hnone | ⟨v, x, hv, hx⟩ := closes_of_name hfault hreach hgap hstart
    · exact .inl (List.append_left_eq_self.1 (hsource.symm.trans hnone))
    · refine .inr ⟨v, x, List.append_cancel_right (hsource.symm.trans (hv.trans ?_)), hx⟩
      simp
  have hraw : (nthToken source k).raw = d.rest.takeWhile isNameByte := by
    have hboth : (nthToken source k).raw ++ d.rest.dropWhile isNameByte =
        d.rest.takeWhile isNameByte ++ d.rest.dropWhile isNameByte := by
      rw [List.takeWhile_append_dropWhile, ← hrest, ← hd]
    exact List.append_cancel_right hboth
  have hwords : ∀ x ∈ (nthToken source k).raw, isNameByte x = true := by
    rw [hraw]
    exact List.all_eq_true.1 List.all_takeWhile
  have hnext : ∀ x ∈ (d.rest.dropWhile isNameByte).head?, isNameByte x = false := by
    intro x hx
    have hhead := List.head?_dropWhile_not isNameByte d.rest
    rw [Option.mem_def.1 hx] at hhead
    simpa using hhead
  rw [hd, hrest] at hsource
  have hfound := Editor.word_append hleft hwords hnext hn
  rwa [← hsource] at hfound

theorem nthToken_word_second :
    (nthToken (bytes "1--[[y]]\n  name") 1).kind = .name ∧
    Editor.wordAround (bytes "1--[[y]]\n  name") ⟨1, 4⟩ = bytes "name" ∧
    Editor.wordBefore (bytes "1--[[y]]\n  name") ⟨1, 4⟩ = bytes "na" := by
  have hkind : (nthToken (bytes "1--[[y]]\n  name") 1).kind = .name := by decide +kernel
  have hfirst : (nthToken (bytes "1--[[y]]\n  name") 0).kind = .number := by decide +kernel
  have hraw : (nthToken (bytes "1--[[y]]\n  name") 1).raw = bytes "name" := by decide +kernel
  have hbefore : bytes "1--[[y]]\n  " =
      (bytes "1--[[y]]\n  name").take (nthToken (bytes "1--[[y]]\n  name") 1).pos.offset := by decide +kernel
  have hword := nthToken_word (n := 2) (fun j hj f => by obtain rfl := Nat.lt_one_iff.1 hj; rw [hfirst]; rintro ⟨⟩)
    (.inl hkind) (by decide +kernel) hbefore
  rw [hraw] at hword
  exact ⟨hkind, hword⟩

end RegisterCompiler
