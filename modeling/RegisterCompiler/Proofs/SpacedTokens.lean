import RegisterCompiler.Proofs.Layout
import RegisterCompiler.Proofs.QuotedStrings

/-!
# Tokens with spaces between them

A text that is one token by itself is the same token if a space follows it, whatever comes after that.

* `ReadAgain r x x'` : what was read in `x` and took all text is read in `x'` again, in front of `r`;
* `Lexeme` : a text that is one token and no fault;
* `scan_lexemes` : lexemes with spaces between them are read back one by one, all on the first line.
-/

namespace RegisterCompiler

open Cursor

def Separates (r : Bytes) : Prop :=
  ∀ b ∈ r.head?, b = 32

theorem Separates.cases {r : Bytes} (h : Separates r) : r = [] ∨ ∃ s, r = 32 :: s := by
  cases r with
  | nil => exact .inl rfl
  | cons b s =>
    obtain rfl : b = 32 := h b rfl
    exact .inr ⟨s, rfl⟩

/-- If `x` took all text for a token and is no fault, then `x'` is the same token in front of `r`. -/
structure ReadAgain (r : Bytes) (x x' : Token × Cursor) : Prop where
  same : (∀ f, x.1.kind ≠ .fault f) → x.2.rest = [] → x'.1.content = x.1.content ∧ x'.2.rest = r

section Kinds
variable {c c' : Cursor} {r : Bytes} {s : Bytes} {fuel fuel' : Nat}

theorem again_faulty (c : Cursor) (stop : Cursor) (cause : ScanFault) (x' : Token × Cursor) :
    ReadAgain r (c.faulty stop cause) x' :=
  ⟨fun h _ => absurd rfl (h cause)⟩

theorem takeWhile_separates (hr : Separates r) {p : UInt8 → Bool} (hp : p 32 = false) (s : Bytes) :
    (s ++ r).takeWhile p = s.takeWhile p := by
  have hnone : r.takeWhile p = [] := by
    rcases hr.cases with rfl | ⟨t, rfl⟩
    · rfl
    · simp [hp]
  rw [List.takeWhile_append, hnone, List.append_nil]
  split
  · rename_i hlen
    exact ((List.takeWhile_prefix p).eq_of_length hlen).symm
  · rfl

/-! ## Symbols and names -/

theorem again_skip (h : c'.rest = c.rest ++ r) (n : Nat) (hn : n ≤ c.rest.length) :
    (c'.skip n).rest = (c.skip n).rest ++ r := by
  simp only [skip, h]
  exact List.drop_append_of_le_length hn

theorem again_plain (h : c'.rest = c.rest ++ r) {n : Nat} (hn : n ≤ c.rest.length) (kind : Token.Kind) :
    ReadAgain r (c.plain (c.skip n) kind) (c'.plain (c'.skip n) kind) := by
  refine ⟨fun _ hrest => ⟨rfl, ?_⟩⟩
  have hskip := again_skip h n hn
  rw [show (c.skip n).rest = [] from hrest] at hskip
  exact hskip

theorem at?_append (hr : Separates r) (h : c'.rest = c.rest ++ r) {ch : Char} (hch : ch.toUInt8 ≠ 32) :
    c'.at? ch = c.at? ch := by
  unfold at?
  rw [h]
  cases hc : c.rest with
  | cons b s => rfl
  | nil =>
    rcases hr.cases with rfl | ⟨t, rfl⟩
    · rfl
    · simpa using fun he => hch (he.symm)

theorem again_name (hr : Separates r) (h : c'.rest = c.rest ++ r) : ReadAgain r (scanName c) (scanName c') := by
  have htake : c'.rest.takeWhile isNameByte = c.rest.takeWhile isNameByte := by
    rw [h]
    exact takeWhile_separates hr rfl _
  have hname : c'.upTo (c'.skipWhile isNameByte) = c.upTo (c.skipWhile isNameByte) := by
    have hstart (d : Cursor) : d.upTo (d.skipWhile isNameByte) = d.rest.takeWhile isNameByte := by
      have hlen : (d.skipWhile isNameByte).offset - d.offset = (d.rest.takeWhile isNameByte).length := by
        simp [skipWhile, skip]
      rw [upTo, hlen]
      exact (List.prefix_iff_eq_take.1 (List.takeWhile_prefix _)).symm
    rw [hstart, hstart, htake]
  have hstop (hrest : (c.skipWhile isNameByte).rest = []) : (c'.skipWhile isNameByte).rest = r := by
    have hlen : (c.rest.takeWhile isNameByte).length ≤ c.rest.length := (List.takeWhile_prefix _).length_le
    have hskip := again_skip h _ hlen
    rw [skipWhile, htake, hskip, show (c.skip _).rest = [] from hrest, List.nil_append]
  unfold scanName
  dsimp only
  rw [hname]
  cases Word.ofBytes? (c.upTo (c.skipWhile isNameByte)) with
  | some w | none => exact ⟨fun _ hrest => ⟨rfl, hstop hrest⟩⟩

/-! ## Numerals -/

theorem numeralLength_le (e1 e2 : Char) (s : Bytes) : numeralLength e1 e2 s ≤ s.length := by
  fun_induction numeralLength e1 e2 s <;> simp_all <;> omega

theorem numeralLength_other {e1 e2 : Char} {b : UInt8} (hb : ¬ (b == e1.toUInt8 || b == e2.toUInt8) = true)
    (hd : ¬ ((Bytes.hexValue? b).isSome || b == '.'.toUInt8) = true) : numeralLength e1 e2 (b :: s) = 0 := by
  rw [numeralLength.eq_def]
  dsimp only
  rw [if_neg hb, if_neg hd]

theorem numeralLength_append (hr : Separates r) {e1 e2 : Char} (h1 : e1.toUInt8 ≠ 32) (h2 : e2.toUInt8 ≠ 32)
    (s : Bytes) : numeralLength e1 e2 (s ++ r) = numeralLength e1 e2 s := by
  have hnone : numeralLength e1 e2 r = 0 := by
    rcases hr.cases with rfl | ⟨t, rfl⟩
    · rfl
    · exact numeralLength_other (by simp [h1.symm, h2.symm]) (by decide)
  fun_induction numeralLength e1 e2 s with
  | case1 => exact hnone
  | case2 b hb =>
    rcases hr.cases with rfl | ⟨t, rfl⟩
    · simp [numeralLength, hb]
    · rw [List.singleton_append, numeralLength, if_pos hb, if_neg (by decide), hnone]
  | case3 b hb s t hs ih => simp [numeralLength, hb, hs, ih]
  | case4 b hb s t hs ih =>
    rw [List.cons_append, List.cons_append, numeralLength, if_pos hb, if_neg hs, ← List.cons_append, ih]
  | case5 b t hb hd ih =>
    rw [List.cons_append, numeralLength.eq_def]
    dsimp only
    rw [if_neg hb, if_pos hd, ih]
  | case6 b t hb hd => exact numeralLength_other hb hd

def isHexNumeral : Bytes → Bool
  | 48 :: x :: _ => x == 'x'.toUInt8 || x == 'X'.toUInt8
  | _ => false

def numeralSize (s : Bytes) : Nat :=
  if isHexNumeral s then 2 + numeralLength 'p' 'P' (s.drop 2) else numeralLength 'e' 'E' s

theorem numeralSize_append (hr : Separates r) (s : Bytes) : numeralSize (s ++ r) = numeralSize s := by
  have hlen (e1 e2 : Char) (h1 : e1.toUInt8 ≠ 32) (h2 : e2.toUInt8 ≠ 32) (t : Bytes) :=
    numeralLength_append hr h1 h2 t
  have hhex : isHexNumeral (s ++ r) = isHexNumeral s := by
    rcases hr.cases with rfl | ⟨t, rfl⟩
    · rw [List.append_nil]
    · rcases s with _ | ⟨b, s⟩
      · rfl
      · by_cases hb : b = 48
        · subst hb
          cases s <;> rfl
        · simp [isHexNumeral, hb]
  unfold numeralSize
  rw [hhex]
  split
  · rename_i hx
    rw [List.drop_append_of_le_length, hlen _ _ (by decide) (by decide)]
    unfold isHexNumeral at hx
    split at hx
    · simp
    · cases hx
  · exact hlen _ _ (by decide) (by decide) s

theorem numeralSize_le : numeralSize s ≤ s.length := by
  unfold numeralSize
  split
  · rename_i hx
    unfold isHexNumeral at hx
    split at hx
    · rename_i x t
      have := numeralLength_le 'p' 'P' t
      simp only [List.drop_succ_cons, List.drop_zero, List.length_cons]
      omega
    · cases hx
  · exact numeralLength_le ..

def runsOn : Bytes → Bool
  | b :: _ => Bytes.isLetter b || b == '_'.toUInt8
  | [] => false

theorem readNumeral_eq (c : Cursor) : readNumeral c =
    if runsOn (c.skip (numeralSize c.rest)).rest then
      c.faulty ((c.skip (numeralSize c.rest)).skipWhile isNameByte) .malformedNumber
    else
      match numeral? (c.upTo (c.skip (numeralSize c.rest))) with
      | none => c.faulty (c.skip (numeralSize c.rest)) .malformedNumber
      | some x =>
        (⟨.number, Token.Kind.number.text, c.upTo (c.skip (numeralSize c.rest)), x, c.position⟩,
          c.skip (numeralSize c.rest)) := rfl

theorem again_numeral (hr : Separates r) (h : c'.rest = c.rest ++ r) : ReadAgain r (readNumeral c) (readNumeral c') := by
  have hsize : numeralSize c'.rest = numeralSize c.rest := by
    rw [h]
    exact numeralSize_append hr _
  have hskip := again_skip h _ (numeralSize_le (s := c.rest))
  have htext : c'.upTo (c'.skip (numeralSize c.rest)) = c.upTo (c.skip (numeralSize c.rest)) := by
    have hstart (d : Cursor) (n : Nat) : d.upTo (d.skip n) = d.rest.take n := by simp [upTo, skip]
    rw [hstart, hstart, h, List.take_append_of_le_length numeralSize_le]
  rw [readNumeral_eq c, readNumeral_eq c', hsize, htext, hskip]
  generalize c.upTo (c.skip (numeralSize c.rest)) = text
  split
  · exact again_faulty ..
  · cases numeral? text with
    | none => exact again_faulty ..
    | some x =>
      refine ⟨fun _ hrest => ?_⟩
      have hends : runsOn r = false := by
        rcases hr.cases with rfl | ⟨t, rfl⟩ <;> rfl
      rw [hrest, List.nil_append] at hskip ⊢
      rw [if_neg (by simp [hends])]
      exact ⟨rfl, hskip⟩

/-! ## Strings -/

theorem breakLength_append (hs : 1 < s.length) (r : Bytes) : breakLength (s ++ r) = breakLength s := by
  rcases s with _ | ⟨a, _ | ⟨b, s⟩⟩
  · simp at hs
  · simp at hs
  · rfl

theorem longText_append {level : Nat} (h : (longText level c).closed = true) (hrest : c'.rest = c.rest ++ r) :
    (longText level c').closed = true ∧ (longText level c').text = (longText level c).text ∧
      (longText level c').stop.rest = (longText level c).stop.rest ++ r := by
  obtain ⟨body, hs, hfirst, htext⟩ := longText_closed h
  rw [htext]
  refine (longText_reads level c').eq_of_first (by rw [hrest, hs, List.append_assoc]) fun i hi hstarts => ?_
  -- a bracket that starts before this one ends before it too, so it does not need the bytes of `r`
  have hlen : c.rest.length = body.length + (longClose level).length + (longText level c).stop.rest.length := by
    rw [hs, List.length_append, List.length_append]
  rw [hrest, List.drop_append_of_le_length (by omega)] at hstarts
  refine hfirst i hi (List.prefix_of_prefix_length_le hstarts (List.prefix_append _ _) ?_)
  rw [List.length_drop]
  omega

theorem again_bracket (hr : Separates r) (h : c'.rest = c.rest ++ r) (hc : c.rest = '['.toUInt8 :: s) :
    ReadAgain r (readBracket c) (readBracket c') := by
  unfold readBracket
  cases hopen : opening c with
  | long level =>
    have hstarts := prefix_of_opening hc hopen
    have hopen' : opening c' = .long level := by
      refine opening_of_prefix (hstarts.trans ?_)
      rw [h]
      exact List.prefix_append ..
    rw [hopen']
    dsimp only
    have hopen : (longOpen level).length = level + 2 := by simp [longOpen]
    have hlen : level + 2 ≤ c.rest.length := hopen ▸ hstarts.length_le
    cases hclosed : (longText level (c.skip (level + 2))).closed with
    | false => exact again_faulty ..
    | true =>
      obtain ⟨hclosed', htext, hrest⟩ := longText_append hclosed (again_skip h _ hlen)
      rw [hclosed', htext]
      refine ⟨fun _ hend => ⟨rfl, ?_⟩⟩
      change (longText level (c.skip (level + 2))).stop.rest = [] at hend
      rw [hend] at hrest
      exact hrest
  | broken level => exact again_faulty ..
  | lone =>
    refine ⟨fun hfault hend => ?_⟩
    have hs : s = [] := by
      simpa [plain, skip, hc] using hend
    have hopen' : opening c' = .lone := by
      unfold opening
      rw [h, hc, hs]
      rcases hr.cases with rfl | ⟨t, rfl⟩ <;> rfl
    rw [hopen']
    exact (again_plain h (by simp [hc]) _).same hfault hend

theorem takeDigits_append {t : Bytes} (h : t.drop ((t.take 3).takeWhile Bytes.isDigit).length ≠ []) (r : Bytes) :
    ((t ++ r).take 3).takeWhile Bytes.isDigit = (t.take 3).takeWhile Bytes.isDigit := by
  by_cases hlen : 3 ≤ t.length
  · rw [List.take_append_of_le_length hlen]
  · have hall : t.take 3 = t := List.take_of_length_le (by omega)
    rw [hall] at h ⊢
    rw [List.take_append, hall, List.takeWhile_append, if_neg]
    intro hfull
    exact h (List.drop_eq_nil_of_le hfull.ge)

theorem dropWhile_append_of_ne_nil {p : UInt8 → Bool} {t : Bytes} (h : t.dropWhile p ≠ []) (r : Bytes) :
    (t ++ r).dropWhile p = t.dropWhile p ++ r := by
  rw [List.dropWhile_append, if_neg (by simpa using h)]

theorem scanEscape_append {d : Cursor} (h : scanEscape c = .ok (s, d)) (hd : d.rest ≠ [])
    (hrest : c'.rest = c.rest ++ r) : ∃ d', scanEscape c' = .ok (s, d') ∧ d'.rest = d.rest ++ r := by
  unfold scanEscape at h ⊢
  cases hc : c.rest with
  | nil =>
    rw [hc] at h
    cases h
  | cons b t =>
    have hskip (n : Nat) (hn : (c.skip n).rest ≠ []) : (c'.skip n).rest = (c.skip n).rest ++ r :=
      again_skip hrest n (by
        by_contra hlong
        exact hn (List.drop_eq_nil_of_le (by omega)))
    rw [hc] at h
    rw [hrest, hc, List.cons_append]
    dsimp only at h ⊢
    cases hletter : escapedByte? b with
    | some e =>
      rw [hletter] at h
      cases h
      exact ⟨_, rfl, hskip 1 hd⟩
    | none =>
      rw [hletter] at h
      split_ifs at h with hbreak hx hz hdigit hlarge
      · cases h
        rw [if_pos hbreak]
        refine ⟨_, rfl, ?_⟩
        have hlen : 1 < (b :: t).length := by
          by_contra hshort
          obtain rfl : t = [] := List.eq_nil_of_length_eq_zero (by rw [List.length_cons] at hshort; omega)
          simp [skipBreak, hc, breakLength, hbreak] at hd
        rw [← List.cons_append, breakLength_append hlen]
        simp only [skipBreak, hrest, hc]
        exact List.drop_append_of_le_length (breakLength_le _)
      · rw [if_neg hbreak, if_pos hx]
        rcases t with _ | ⟨x, _ | ⟨y, t⟩⟩
        · cases h
        · simp only [List.head?_cons, List.drop_succ_cons, List.drop_zero, List.head?_nil, Option.bind_none] at h
          split at h <;> cases h
        · simp only [List.cons_append, List.head?_cons, List.drop_succ_cons, List.drop_zero, Option.bind_some] at h ⊢
          split at h
          · cases h
          · split at h
            · cases h
            · cases h
              exact ⟨_, rfl, hskip 3 hd⟩
      · cases h
        rw [if_neg hbreak, if_neg hx, if_pos hz]
        refine ⟨_, rfl, ?_⟩
        rw [skipSpace_rest] at hd ⊢
        rw [skipSpace_rest]
        exact dropWhile_append_of_ne_nil hd r
      · cases h
        have hdigits := takeDigits_append (by simpa only [skip, hc] using hd) r
        rw [List.cons_append] at hdigits
        rw [if_neg hbreak, if_neg hx, if_neg hz, if_pos hdigit, hdigits, if_neg hlarge]
        exact ⟨_, rfl, hskip _ hd⟩

theorem quotedText_append {q : UInt8} {d : Cursor} {acc : Bytes}
    (h : quotedText q fuel c acc = .ok (s, d)) (hfuel : fuel ≤ fuel') (hrest : c'.rest = c.rest ++ r) :
    ∃ d', quotedText q fuel' c' acc = .ok (s, d') ∧ d'.rest = d.rest ++ r := by
  induction fuel generalizing fuel' c c' acc with
  | zero => cases h
  | succ k ih =>
    obtain ⟨k', rfl⟩ : ∃ k', fuel' = k' + 1 := ⟨fuel' - 1, by omega⟩
    unfold quotedText at h ⊢
    cases hc : c.rest with
    | nil =>
      rw [hc] at h
      cases h
    | cons b t =>
      have hskip := again_skip hrest 1 (by simp [hc])
      rw [hc] at h
      rw [hrest, hc, List.cons_append]
      dsimp only at h ⊢
      split_ifs at h ⊢ with hq hbreak hback
      · cases h
        exact ⟨_, rfl, hskip⟩
      · cases hesc : scanEscape (c.skip 1) with
        | error e =>
          rw [hesc] at h
          cases h
        | ok x =>
          rw [hesc] at h
          dsimp only at h
          have hgoes : x.2.rest ≠ [] := by
            intro hnil
            cases k with
            | zero => cases h
            | succ k =>
              rw [quotedText, hnil] at h
              cases h
          obtain ⟨d', hesc', hd'⟩ := scanEscape_append (s := x.1) (d := x.2) hesc hgoes hskip
          rw [hesc']
          exact ih h (by omega) hd'
      · exact ih h (by omega) hskip

/-! ## Tokens -/

theorem lt_length_of_at? {n : Nat} {ch : Char} (hat : (c.skip n).at? ch = true) : n < c.rest.length := by
  obtain ⟨t, ht⟩ := at?_eq_true hat
  have := congrArg List.length ht
  simp only [skip, List.length_drop, List.length_cons] at this
  omega

theorem readToken_again (hr : Separates r) (h : c'.rest = c.rest ++ r) (hfuel : fuel ≤ fuel')
    {b : UInt8} (hc : c.rest = b :: s) : ReadAgain r (readToken fuel b c) (readToken fuel' b c') := by
  have hlen : 0 < c.rest.length := by simp [hc]
  have hskip := again_skip h 1 hlen
  have hat (ch : Char) (hne : ch.toUInt8 ≠ 32) : (c'.skip 1).at? ch = (c.skip 1).at? ch := at?_append hr hskip hne
  unfold readToken
  dsimp only
  generalize hch : Char.ofUInt8 b = ch
  split
  case h_15 | h_16 | h_17 | h_18 =>
    rw [hat _ (by decide)]
    split_ifs with htwo
    · exact again_plain h (lt_length_of_at? htwo) _
    · exact again_plain h hlen _
  case h_19 =>
    rw [hat _ (by decide)]
    split_ifs with htwo
    · exact again_plain h (lt_length_of_at? htwo) _
    · exact again_faulty ..
  case h_20 => exact again_bracket hr h (by rw [hc, ← toUInt8_ofUInt8 b, hch])
  case h_21 =>
    have hdigit : ((c'.skip 1).rest.head?.map Bytes.isDigit).getD false =
        ((c.skip 1).rest.head?.map Bytes.isDigit).getD false := by
      rw [hskip]
      cases (c.skip 1).rest with
      | cons b t => rfl
      | nil => rcases hr.cases with rfl | ⟨t, rfl⟩ <;> rfl
    rw [hat _ (by decide), hdigit]
    by_cases htwo : (c.skip 1).at? '.' = true
    · rw [if_pos htwo, if_pos htwo, at?_append hr (again_skip h 2 (lt_length_of_at? htwo)) (by decide)]
      split_ifs with hthree
      · exact again_plain h (lt_length_of_at? hthree) _
      · exact again_plain h (lt_length_of_at? htwo) _
    · split_ifs
      · exact again_numeral hr h
      · exact again_plain h hlen _
  case h_22 =>
    split_ifs
    · cases hread : quotedText b fuel (c.skip 1) [] with
      | error e => exact again_faulty ..
      | ok x =>
        obtain ⟨d', hread', hd'⟩ := quotedText_append (s := x.1) (d := x.2) hread hfuel hskip
        rw [hread']
        refine ⟨fun _ hend => ⟨rfl, ?_⟩⟩
        rw [hend] at hd'
        exact hd'
    · exact again_numeral hr h
    · exact again_name hr h
    · exact again_faulty ..
  all_goals exact again_plain h hlen _

end Kinds

/-! ## Lexemes -/

def firstToken (text : Bytes) : Token :=
  (Cursor.next (text.length + 1) ⟨text, 0, 1, 0⟩).1

/-- A text without line breaks that is one token and no fault. -/
structure Lexeme where
  text : Bytes
  alone : (firstToken text).raw = text
  ne_nil : text ≠ []
  sound : ∀ f, (firstToken text).kind ≠ .fault f
  oneLine : ∀ b ∈ text, isBreak b = false

namespace Lexeme

def content (x : Lexeme) : Token.Kind × Bytes × Number :=
  (firstToken x.text).content

theorem read (x : Lexeme) : ∃ b s, x.text = b :: s ∧ StartsToken x.text ∧
      firstToken x.text = (readToken (x.text.length + 1) b ⟨x.text, 0, 1, 0⟩).1 ∧
      (readToken (x.text.length + 1) b ⟨x.text, 0, 1, 0⟩).2.rest = [] := by
  have hraw := x.alone
  have hsound := x.sound
  have hskip := skipBlank_skipped (x.text.length + 1) ⟨x.text, 0, 1, 0⟩
  unfold firstToken Cursor.next at *
  generalize skipBlank (x.text.length + 1) ⟨x.text, 0, 1, 0⟩ = y at hskip hraw hsound ⊢
  rcases y with ⟨start, stop⟩ | d
  · exact absurd rfl (hsound .unfinishedLongComment)
  · obtain ⟨hreach, -, hstarts⟩ := hskip
    cases hd : d.rest with
    | nil =>
      simp only [hd] at hraw
      exact absurd hraw.symm x.ne_nil
    | cons b s =>
      simp only [hd] at hraw ⊢
      have htoken := hstarts (Nat.lt_succ_self _)
      have hb : isBreak b = false := (Bool.or_eq_false_iff.1 (htoken.1 b (by rw [hd]; rfl))).2
      have hspans := readToken_spans (x.text.length + 1) hd hb
      -- the token is as long as the text, so it starts where the text does
      have hrest := hspans.passes.reaches.rest_eq
      rw [← hspans.raw, hraw] at hrest
      have hlen := congrArg List.length hrest
      rw [List.length_append] at hlen
      rcases Relation.reflTransGen_iff_eq_or_transGen.1 hreach with rfl | hpass
      · exact ⟨b, s, hd, htoken, rfl, List.eq_nil_of_length_eq_zero (by simpa using hlen)⟩
      · have hlt := Passes.length_lt hpass
        dsimp only at hlt
        omega

theorem kind_ne_eof (x : Lexeme) : x.content.1 ≠ .eof := by
  obtain ⟨b, s, htext, htoken, hfirst, -⟩ := x.read
  have hb : isBreak b = false := x.oneLine b (by simp [htext])
  have hspans := readToken_spans (x.text.length + 1) (c := ⟨x.text, 0, 1, 0⟩) htext hb
  rw [← hfirst] at hspans
  exact hspans.kind

end Lexeme

theorem Cursor.Reaches.line_eq {c d : Cursor} (h : Reaches c d) (hc : ∀ b ∈ c.rest, isBreak b = false) :
    d.line = c.line ∧ ∀ b ∈ d.rest, isBreak b = false := by
  induction h with
  | refl => exact ⟨rfl, hc⟩
  | @tail d e _ hstep ih =>
    obtain ⟨hline, hd⟩ := ih
    cases hstep with
    | byte hrest hb => exact ⟨hline, fun x hx => hd x (List.mem_of_mem_drop hx)⟩
    | lineBreak hlen =>
      obtain ⟨b, hb⟩ := List.exists_mem_of_length_pos (l := d.rest.take (breakLength d.rest)) (by
        rw [List.length_take_of_le (breakLength_le _)]
        exact hlen)
      have hplain := hd b (List.mem_of_mem_take hb)
      rw [isBreak_of_mem_take hb] at hplain
      cases hplain

namespace Lexeme

theorem startsToken (x : Lexeme) {r : Bytes} (hr : Separates r) : StartsToken (x.text ++ r) := by
  obtain ⟨b, s, htext, htoken, -⟩ := x.read
  rw [htext] at htoken ⊢
  refine ⟨htoken.1, fun hdash => htoken.2 ?_⟩
  cases s with
  | cons d s =>
    refine List.prefix_of_prefix_length_le hdash (List.prefix_append _ r) ?_
    rw [show (bytes "--").length = 2 from rfl, List.length_cons, List.length_cons]
    omega
  | nil =>
    obtain ⟨t, ht⟩ := hdash
    have hsecond : r = 45 :: t := (List.cons.inj ht).2.symm
    have h := hr 45 (by rw [hsecond]; rfl)
    cases h

theorem next_eq (x : Lexeme) {r : Bytes} (hr : Separates r) {c : Cursor} (hc : c.rest = x.text ++ r) {fuel : Nat}
    (hfuel : x.text.length < fuel) : (c.next fuel).1.content = x.content ∧ (c.next fuel).2.rest = r := by
  obtain ⟨b, s, htext, -, hnth, hend⟩ := x.read
  have hagain : ReadAgain r (readToken (x.text.length + 1) b ⟨x.text, 0, 1, 0⟩) (readToken fuel b c) :=
    readToken_again hr hc hfuel htext
  rw [next_of_startsToken fuel (b := b) (r := s ++ r) (by rw [hc, htext]; rfl) (hc ▸ x.startsToken hr)]
  obtain ⟨hcontent, hrest⟩ := hagain.same (by rw [← hnth]; exact x.sound) hend
  exact ⟨by rw [hcontent, ← hnth]; rfl, hrest⟩

end Lexeme

variable {fuel : Nat} {c : Cursor}

theorem next_space {r : Bytes} (hc : c.rest = 32 :: r) (hr : StartsToken r) :
    c.next (fuel + 1) = (c.skip 1).next (fuel + 1) := by
  have hskip : (c.skip 1).rest = r := by rw [skip, hc]; rfl
  have hblank : skipBlank (fuel + 1) c = .ok (c.skip 1) := by
    rw [skipBlank, hc]
    exact skipBlank_of_startsToken (hskip.symm ▸ hr)
  unfold Cursor.next
  rw [hblank, skipBlank_of_startsToken (hskip.symm ▸ hr)]

/-! ## Lexemes in a row -/

def spaced (xs : List Lexeme) : Bytes :=
  xs.flatMap fun x => 32 :: x.text

theorem separates_spaced (xs : List Lexeme) : Separates (spaced xs) := by
  cases xs with
  | nil => simp [Separates, spaced]
  | cons x xs => simp [Separates, spaced]

theorem oneLine_spaced {xs : List Lexeme} {b : UInt8} (h : b ∈ spaced xs) : isBreak b = false := by
  obtain ⟨x, -, hb⟩ := List.mem_flatMap.1 h
  rcases List.mem_cons.1 hb with rfl | hb
  · rfl
  · exact x.oneLine b hb

theorem length_le_spaced (xs : List Lexeme) : xs.length ≤ (spaced xs).length := by
  induction xs with
  | nil => exact Nat.zero_le _
  | cons x xs ih =>
    simp only [spaced, List.flatMap_cons, List.length_append, List.length_cons] at ih ⊢
    omega

theorem Lexeme.not_endsScan (x : Lexeme) {t : Token} (h : t.content = x.content) : ¬ t.EndsScan true := by
  have hkind : t.kind = (firstToken x.text).kind := congrArg Prod.fst h
  rintro (heof | ⟨-, f, hf⟩)
  · exact x.kind_ne_eof (hkind.symm.trans heof)
  · exact x.sound f (hkind.symm.trans hf)

theorem next_lexeme (x : Lexeme) (xs : List Lexeme) (hc : c.rest = x.text ++ spaced xs)
    (hfuel : c.rest.length < fuel) :
    (c.next fuel).1.content = x.content ∧ (c.next fuel).2.rest = spaced xs ∧ (c.next fuel).1.pos.line = c.line ∧
      (c.next fuel).2.line = c.line := by
  have hsep := separates_spaced xs
  have hlen := congrArg List.length hc
  rw [List.length_append] at hlen
  have htext : x.text.length < fuel := by omega
  obtain ⟨hcontent, hrest⟩ := x.next_eq hsep hc htext
  obtain ⟨b, s, htext, htoken, -⟩ := x.read
  have hc' : c.rest = b :: (s ++ spaced xs) := by rw [hc, htext]; rfl
  have hb : isBreak b = false := x.oneLine b (by simp [htext])
  have hspans := readToken_spans fuel hc' hb
  rw [← next_of_startsToken fuel hc' (hc ▸ x.startsToken hsep)] at hspans
  have hplain : ∀ b ∈ c.rest, isBreak b = false := by
    intro b hb
    rw [hc] at hb
    rcases List.mem_append.1 hb with hb | hb
    · exact x.oneLine b hb
    · exact oneLine_spaced hb
  refine ⟨hcontent, hrest, ?_, (hspans.passes.reaches.line_eq hplain).1⟩
  rw [hspans.pos]
  rfl

theorem next_end (fuel : Nat) (hc : c.rest = []) :
    (c.next fuel).1.kind = .eof ∧ (c.next fuel).1.pos.line = c.line := by
  rw [Cursor.next, skipBlank_of_startsToken (by simp [StartsToken, hc, bytes])]
  dsimp only
  rw [hc]
  exact ⟨rfl, rfl⟩

theorem scanFrom_spaced (xs : List Lexeme) {count : Nat} (hc : c.rest = spaced xs)
    (hfuel : c.rest.length < fuel) (hcount : xs.length < count) (acc : List Token) :
    ∃ ts e, (scanFrom fuel true count c acc).1 = acc.reverse ++ (ts ++ [e]) ∧
      ts.map Token.content = xs.map Lexeme.content ∧ e.kind = .eof ∧ ∀ t ∈ ts ++ [e], t.pos.line = c.line := by
  obtain ⟨n, rfl⟩ : ∃ n, count = n + 1 := ⟨count - 1, by omega⟩
  induction xs generalizing c n acc with
  | nil =>
    obtain ⟨heof, hline⟩ := next_end fuel hc
    refine ⟨[], (c.next fuel).1, ?_, rfl, heof, by simpa using hline⟩
    rw [scanFrom_stop (.inl heof)]
    simp
  | cons x xs ih =>
    obtain ⟨k, rfl⟩ : ∃ k, fuel = k + 1 := ⟨fuel - 1, by omega⟩
    have hc' : c.rest = 32 :: (x.text ++ spaced xs) := hc
    have hlen := congrArg List.length hc'
    have hskip : (c.skip 1).rest = x.text ++ spaced xs := by rw [skip, hc']; rfl
    have hfuel' : (c.skip 1).rest.length < k + 1 := by
      rw [hskip]
      rw [List.length_cons] at hlen
      omega
    obtain ⟨hcontent, hrest, hline, hline'⟩ := next_lexeme x xs hskip hfuel'
    rw [← next_space hc' (x.startsToken (separates_spaced xs))] at hcontent hrest hline hline'
    obtain ⟨m, rfl⟩ : ∃ m, n = m + 1 := ⟨n - 1, by rw [List.length_cons] at hcount; omega⟩
    obtain ⟨ts, e, hscan, hcontents, heof, hlines⟩ := ih hrest (by
      rw [hrest]
      rw [List.length_cons, List.length_append] at hlen
      omega) ((c.next (k + 1)).1 :: acc) m (by rw [List.length_cons] at hcount; omega)
    refine ⟨(c.next (k + 1)).1 :: ts, e, ?_, by rw [List.map_cons, List.map_cons, hcontent, hcontents], heof, ?_⟩
    · rw [scanFrom_go (x.not_endsScan hcontent), hscan]
      simp
    · intro t ht
      rcases List.mem_cons.1 ht with rfl | ht
      · exact hline
      · rw [hlines t ht, hline']
        rfl

theorem scan_lexemes (x : Lexeme) (xs : List Lexeme) (hx : x.text.head? ≠ some '#'.toUInt8) :
    ∃ ts e, scan (x.text ++ spaced xs) = ts ++ [e] ∧ ts.map Token.content = (x :: xs).map Lexeme.content ∧
      e.kind = .eof ∧ ∀ t ∈ ts ++ [e], t.pos.line = 1 := by
  generalize hsource : x.text ++ spaced xs = source
  have hstart : Cursor.start source = ⟨source, 0, 1, 0⟩ := by
    obtain ⟨b, s, htext, -⟩ := x.read
    rw [start_eq, hashLine, if_neg (by simpa [← hsource, htext] using hx)]
    rfl
  have hlen : source.length = x.text.length + (spaced xs).length := by rw [← hsource, List.length_append]
  have hxs := length_le_spaced xs
  have hfuel : (Cursor.start source).rest.length < source.length + 1 := by
    rw [hstart]
    exact Nat.lt_succ_self _
  have hcount : xs.length < source.length + 9 := by omega
  obtain ⟨hcontent, hrest, hline, hline'⟩ := next_lexeme x xs (by rw [hstart, hsource]) hfuel
  have hfuel' : ((Cursor.start source).next (source.length + 1)).2.rest.length < source.length + 1 := by
    rw [hrest]
    omega
  obtain ⟨ts, e, hscan, hcontents, heof, hlines⟩ :=
    scanFrom_spaced xs hrest hfuel' hcount [((Cursor.start source).next (source.length + 1)).1]
  rw [hline', hstart] at hlines
  refine ⟨((Cursor.start source).next (source.length + 1)).1 :: ts, e, ?_, ?_, heof, ?_⟩
  · rw [scan, scanAll, scanFrom_go (x.not_endsScan hcontent), hscan]
    rfl
  · rw [List.map_cons, List.map_cons, hcontent, hcontents]
  · intro t ht
    rcases List.mem_cons.1 ht with rfl | ht
    · rw [hline, hstart]
    · exact hlines t ht

end RegisterCompiler
