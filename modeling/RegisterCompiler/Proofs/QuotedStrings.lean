import RegisterCompiler.Proofs.Tokens

/-!
# Quoted strings stand for what was written

* `Spells`, `Encodes` : the ways to write a byte, and a string of bytes, between quotes;
* `scan_quoted` : a string that is written in any of these ways is read as one token, whose contents are
  the string.
-/

namespace RegisterCompiler

open Cursor

def letterEscapes : List (UInt8 × Char) :=
  [(7, 'a'), (8, 'b'), (12, 'f'), (10, 'n'), (13, 'r'), (9, 't'), (11, 'v'), (92, '\\'), (34, '"'), (39, '\'')]

/-- The ways to write a byte between quotes `q`: as it is, with a letter, with two hexadecimal or with
three decimal digits. -/
inductive Spells (q : UInt8) : (b : UInt8) → (text : Bytes) → Prop
  | plain {b : UInt8} : b ≠ q → b ≠ '\\'.toUInt8 → isBreak b = false → Spells q b [b]
  | letter {b : UInt8} {l : Char} : (b, l) ∈ letterEscapes → Spells q b ['\\'.toUInt8, l.toUInt8]
  | hex {b x y : UInt8} {m n : Nat} : Bytes.hexValue? x = some m → Bytes.hexValue? y = some n →
      b.toNat = m * 16 + n → Spells q b ['\\'.toUInt8, 'x'.toUInt8, x, y]
  | decimal {b x y z : UInt8} : Bytes.isDigit x = true → Bytes.isDigit y = true → Bytes.isDigit z = true →
      b.toNat = (x.toNat - 48) * 100 + (y.toNat - 48) * 10 + (z.toNat - 48) → Spells q b ['\\'.toUInt8, x, y, z]

/-- The ways to write a string between quotes `q`: byte by byte, where any byte may be followed by `\z`
and white space, all of it up to the next byte. -/
inductive Encodes (q : UInt8) : (s text : Bytes) → Prop
  | nil : Encodes q [] []
  | byte {b : UInt8} {w s t : Bytes} : Spells q b w → Encodes q s t → Encodes q (b :: s) (w ++ t)
  | skipping {b : UInt8} {w v s t : Bytes} : Spells q b w → (∀ x ∈ v, isSpace x = true) →
      (∀ x ∈ t.head?, isSpace x = false) → Encodes q s t → Encodes q (b :: s) (w ++ bytes "\\z" ++ v ++ t)

/-! ## One step of reading -/

section Steps
variable {q : UInt8} {c : Cursor} {r : Bytes}

theorem quotedText_escape {fuel : Nat} {acc s : Bytes} {d : Cursor} (hq : q ≠ '\\'.toUInt8)
    (hrest : c.rest = '\\'.toUInt8 :: r) (h : scanEscape (c.skip 1) = .ok (s, d)) :
    quotedText q (fuel + 1) c acc = quotedText q fuel d (s.reverse ++ acc) := by
  rw [quotedText, hrest]
  dsimp only
  rw [if_neg (by simpa using hq.symm), if_neg (by decide), if_pos (by decide), h]

theorem skip_one_rest {b : UInt8} (hrest : c.rest = b :: r) : (c.skip 1).rest = r := by
  rw [skip, hrest]
  rfl

theorem escapedByte?_letter {b : UInt8} {l : Char} (h : (b, l) ∈ letterEscapes) : escapedByte? l.toUInt8 = some b := by
  have hall : ∀ e ∈ letterEscapes, escapedByte? e.2.toUInt8 = some e.1 := by decide
  exact hall _ h

theorem scanEscape_letter {b : UInt8} {l : Char} (h : (b, l) ∈ letterEscapes) (hrest : c.rest = l.toUInt8 :: r) :
    scanEscape c = .ok ([b], c.skip 1) := by
  rw [scanEscape, hrest]
  dsimp only
  rw [escapedByte?_letter h]

theorem scanEscape_hex {x y : UInt8} {m n : Nat} (hx : Bytes.hexValue? x = some m) (hy : Bytes.hexValue? y = some n)
    (hrest : c.rest = 'x'.toUInt8 :: x :: y :: r) : scanEscape c = .ok ([UInt8.ofNat (m * 16 + n)], c.skip 3) := by
  rw [scanEscape, hrest]
  dsimp only
  rw [show escapedByte? 'x'.toUInt8 = none by decide]
  rw [if_neg (by decide), if_pos (by decide)]
  simp [hx, hy]

theorem escapedByte?_digit {x : UInt8} (h : Bytes.isDigit x = true) : escapedByte? x = none := by
  have hne (l : Char) (hl : Bytes.isDigit l.toUInt8 = false) : Char.ofUInt8 x ≠ l := by
    rintro rfl
    rw [toUInt8_ofUInt8, h] at hl
    cases hl
  unfold escapedByte?
  split
  case h_11 => rfl
  all_goals
    rename_i heq
    exact absurd heq (hne _ (by decide))

theorem scanEscape_decimal {b x y z : UInt8} (hx : Bytes.isDigit x = true) (hy : Bytes.isDigit y = true)
    (hz : Bytes.isDigit z = true)
    (hb : b.toNat = (x.toNat - 48) * 100 + (y.toNat - 48) * 10 + (z.toNat - 48)) (hrest : c.rest = x :: y :: z :: r) :
    scanEscape c = .ok ([b], c.skip 3) := by
  have hletter {l : UInt8} (hl : Bytes.isDigit l = false) : x ≠ l := by
    rintro rfl
    rw [hx] at hl
    cases hl
  have hdigits : ((x :: y :: z :: r).take 3).takeWhile Bytes.isDigit = [x, y, z] := by simp [hx, hy, hz]
  have hvalue : digitsValue [x, y, z] = b.toNat := by
    simp only [digitsValue, List.foldl_cons, List.foldl_nil]
    omega
  rw [scanEscape, hrest]
  dsimp only
  rw [escapedByte?_digit hx]
  rw [if_neg (by simp [isBreak_digit hx]), if_neg (by simpa using hletter (by decide)),
    if_neg (by simpa using hletter (by decide)), if_pos hx, hdigits, hvalue, if_neg (by have := b.toNat_lt; omega)]
  simp

theorem quotedText_spells {b : UInt8} {w : Bytes} (hq : q ≠ '\\'.toUInt8) (h : Spells q b w) (hrest : c.rest = w ++ r)
    (fuel : Nat) (acc : Bytes) : ∃ d, d.rest = r ∧ quotedText q (fuel + 1) c acc = quotedText q fuel d (b :: acc) := by
  cases h with
  | plain hne hback hbreak =>
    have hrest : c.rest = b :: r := hrest
    refine ⟨c.skip 1, skip_one_rest hrest, ?_⟩
    rw [quotedText, hrest]
    dsimp only
    rw [if_neg (by simpa using hne), if_neg (by simp [hbreak]), if_neg (by simpa using hback)]
  | letter hl =>
    have hnext := skip_one_rest hrest
    exact ⟨_, skip_one_rest hnext, quotedText_escape hq hrest (scanEscape_letter hl hnext)⟩
  | @hex x y m n hx hy hb =>
    have hnext : (c.skip 1).rest = 'x'.toUInt8 :: x :: y :: r := skip_one_rest hrest
    refine ⟨(c.skip 1).skip 3, by rw [skip, hnext]; rfl, ?_⟩
    rw [quotedText_escape hq hrest (scanEscape_hex hx hy hnext), ← hb, UInt8.ofNat_toNat]
    rfl
  | @decimal x y z hx hy hz hb =>
    have hnext : (c.skip 1).rest = x :: y :: z :: r := skip_one_rest hrest
    refine ⟨(c.skip 1).skip 3, by rw [skip, hnext]; rfl, ?_⟩
    rw [quotedText_escape hq hrest (scanEscape_decimal hx hy hz hb hnext)]
    rfl

theorem skipSpace_rest (s : Bytes) (offset line lineStart : Nat) :
    (skipSpace s offset line lineStart).rest = s.dropWhile isSpace := by
  fun_induction skipSpace s offset line lineStart with
  | case1 => rfl
  | _ => simp_all [isSpace]

theorem quotedText_skip {space : Bytes} (hq : q ≠ '\\'.toUInt8) (hspace : ∀ x ∈ space, isSpace x = true)
    (hr : ∀ x ∈ r.head?, isSpace x = false) (hrest : c.rest = bytes "\\z" ++ space ++ r) (fuel : Nat) (acc : Bytes) :
    ∃ d, d.rest = r ∧ quotedText q (fuel + 1) c acc = quotedText q fuel d acc := by
  have hnext : (c.skip 1).rest = 'z'.toUInt8 :: (space ++ r) := skip_one_rest hrest
  refine ⟨_, ?_, quotedText_escape hq hrest (s := []) (d := skipSpace (space ++ r) (c.offset + 2) c.line c.lineStart) ?_⟩
  · rw [skipSpace_rest, List.dropWhile_append_of_pos hspace]
    cases r with
    | nil => rfl
    | cons x r => simp [hr x (by simp)]
  · rw [scanEscape, hnext]
    rfl

end Steps

theorem Spells.ne_nil {q b : UInt8} {w : Bytes} (h : Spells q b w) : w ≠ [] := by
  cases h <;> simp

theorem quotedText_encodes {q : UInt8} (hq : q ≠ '\\'.toUInt8) (hspace : isSpace q = false) {s text r : Bytes}
    (h : Encodes q s text) {c : Cursor} (hrest : c.rest = text ++ q :: r) (fuel : Nat) (hfuel : text.length < fuel)
    (acc : Bytes) : ∃ d, d.rest = r ∧ quotedText q fuel c acc = .ok (acc.reverse ++ s, d) := by
  induction h generalizing c fuel acc with
  | nil =>
    obtain ⟨k, rfl⟩ := Nat.exists_eq_succ_of_ne_zero (Nat.ne_of_gt hfuel)
    refine ⟨c.skip 1, skip_one_rest hrest, ?_⟩
    have hrest : c.rest = q :: r := hrest
    rw [quotedText, hrest]
    dsimp only
    rw [if_pos (by simp), List.append_nil]
  | @byte b w s text hw _ ih =>
    have hlen := List.length_pos_iff.2 hw.ne_nil
    rw [List.length_append] at hfuel
    obtain ⟨k, rfl⟩ := Nat.exists_eq_succ_of_ne_zero (Nat.ne_of_gt (Nat.zero_lt_of_lt hfuel))
    obtain ⟨d, hd, hstep⟩ := quotedText_spells hq hw (by rw [hrest, List.append_assoc]) k acc
    obtain ⟨e, he, hall⟩ := ih hd k (by omega) (b :: acc)
    exact ⟨e, he, by rw [hstep, hall, List.reverse_cons, List.append_assoc]; rfl⟩
  | @skipping b w space s text hw hsp hnext _ ih =>
    simp only [List.length_append, show (bytes "\\z").length = 2 from rfl] at hfuel
    obtain ⟨k, rfl⟩ : ∃ k, fuel = k + 2 := ⟨fuel - 2, by omega⟩
    obtain ⟨d, hd, hstep⟩ := quotedText_spells (r := bytes "\\z" ++ space ++ (text ++ q :: r)) hq hw
      (by rw [hrest]; simp only [List.append_assoc]) (k + 1) acc
    have hhead : ∀ x ∈ (text ++ q :: r).head?, isSpace x = false := by
      cases text with
      | nil => simpa using hspace
      | cons => simpa using hnext
    obtain ⟨d', hd', hskip⟩ := quotedText_skip hq hsp hhead hd k (b :: acc)
    obtain ⟨e, he, hall⟩ := ih hd' k (by omega) (b :: acc)
    exact ⟨e, he, by rw [hstep, hskip, hall, List.reverse_cons, List.append_assoc]; rfl⟩

/-! ## The token -/

def IsQuote (q : UInt8) : Prop :=
  q = '"'.toUInt8 ∨ q = '\''.toUInt8

theorem readToken_quote {fuel : Nat} {q : UInt8} (hq : IsQuote q) {c d : Cursor} {s : Bytes}
    (h : quotedText q fuel (c.skip 1) [] = .ok (s, d)) :
    readToken fuel q c = (⟨.string, s, c.upTo d, .zero, c.position⟩, d) := by
  simp only [readToken, h]
  rcases hq with rfl | rfl <;> rfl

/-- A string that is written between quotes in any of the ways that the language has is read as one
token, whose contents are the string and whose text is all of it; the end follows. -/
theorem scan_quoted {q : UInt8} (hq : IsQuote q) {s text : Bytes} (h : Encodes q s text) (stopAtFault : Bool) :
    ∃ t e, (scanAll stopAtFault (q :: text ++ [q])).1 = [t, e] ∧
      t.kind = .string ∧ t.literal = s ∧ t.raw = q :: text ++ [q] ∧ e.kind = .eof := by
  have hplain : q ≠ '\\'.toUInt8 ∧ isSpace q = false ∧ isBreak q = false ∧ q ≠ '-'.toUInt8 ∧ q ≠ '#'.toUInt8 := by
    rcases hq with rfl | rfl <;> decide
  obtain ⟨hback, hspace, hbreak, hdash, hhash⟩ := hplain
  generalize hsource : q :: text ++ [q] = source
  have hstart : Cursor.start source = ⟨source, 0, 1, 0⟩ := by
    rw [start_eq, hashLine, if_neg (by simpa [← hsource] using hhash)]
    rfl
  have hrest : (Cursor.start source).rest = q :: (text ++ [q]) := by rw [hstart, ← hsource]; rfl
  have htoken : StartsToken (Cursor.start source).rest := by
    rw [hrest]
    refine ⟨by simpa using hspace, ?_⟩
    rintro ⟨r, hr⟩
    exact hdash (List.cons.inj hr).1.symm
  obtain ⟨d, hd, hread⟩ := quotedText_encodes hback hspace h (skip_one_rest hrest)
    (source.length + 1) (by rw [← hsource]; simp; omega) []
  have hnext := (next_of_startsToken (source.length + 1) hrest htoken).trans (readToken_quote hq hread)
  have hspans := readToken_spans (source.length + 1) hrest hbreak
  rw [readToken_quote hq hread] at hspans
  have hraw : (Cursor.start source).upTo d = source :=
    hspans.passes.reaches.upTo_eq (by rw [hd, List.append_nil, hstart])
  have hfirst : nthToken source 0 = ⟨.string, s, source, .zero, (Cursor.start source).position⟩ := by
    rw [nthToken, cursorAfter, hnext, hraw]
    rfl
  have hend : (nthToken source 1).kind = .eof := by
    rw [nthToken, cursorAfter, cursorAfter, hnext]
    exact next_of_nil hd
  refine ⟨nthToken source 0, nthToken source 1, ?_, by rw [hfirst], by rw [hfirst], by rw [hfirst], hend⟩
  rw [scanAll_eq (n := 1) (by rw [← hsource]; simp) (.inl hend) ?_]
  · rfl
  · intro k hk
    obtain rfl : k = 0 := by omega
    rw [hfirst]
    rintro (h | ⟨-, f, h⟩) <;> cases h

/-- The bytes `a`, 0, `'` and 200 between single quotes, with a line break to be skipped after the second. -/
theorem scan_quoted_mixed :
    Encodes '\''.toUInt8 [97, 0, 39, 200] (bytes "\\x61\\000\\z \r\n\\'\\200") ∧
      ∃ t e, (scanAll true (bytes "'\\x61\\000\\z \r\n\\'\\200'")).1 = [t, e] ∧ t.kind = .string ∧
        t.literal = [97, 0, 39, 200] ∧ t.raw = bytes "'\\x61\\000\\z \r\n\\'\\200'" ∧ e.kind = .eof := by
  have h : Encodes '\''.toUInt8 [97, 0, 39, 200] (bytes "\\x61\\000\\z \r\n\\'\\200") :=
    .byte (w := bytes "\\x61") (.hex (m := 6) (n := 1) (by decide) (by decide) (by decide)) <|
    .skipping (w := bytes "\\000") (v := bytes " \r\n") (.decimal (by decide) (by decide) (by decide) (by decide))
      (List.all_eq_true.1 rfl) (fun x hx => (Option.some.inj hx : (92 : UInt8) = x) ▸ rfl) <|
    .byte (w := bytes "\\'") (.letter (l := '\'') (by decide)) <|
    .byte (w := bytes "\\200") (t := []) (.decimal (by decide) (by decide) (by decide) (by decide)) .nil
  exact ⟨h, scan_quoted (.inr rfl) h true⟩

end RegisterCompiler
