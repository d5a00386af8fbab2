import Mathlib.Data.List.TakeWhile
import Mathlib.Logic.Relation
import RegisterCompiler.Source.Scan

/-!
# What reading tokens passes

* `Cursor.Step` : a cursor passes one byte that is no part of a line break, or one whole line break;
* `Cursor.Reaches`, `Cursor.Passes` : it passes any number of them, or at least one;
* `skipBlank_skipped` : what is skipped before a token is a gap;
* `Token.Spans` : the token is what stands between two cursors, of which the second is further on.
-/

namespace RegisterCompiler

namespace Cursor

/-- One unit of text is passed: a byte that is no part of a line break, or a whole line break. -/
inductive Step : Cursor → Cursor → Prop
  | byte {c : Cursor} {b : UInt8} {r : Bytes} : c.rest = b :: r → isBreak b = false → Step c (c.skip 1)
  | lineBreak {c : Cursor} : 0 < breakLength c.rest → Step c (c.skipBreak (breakLength c.rest))

abbrev Reaches : Cursor → Cursor → Prop := Relation.ReflTransGen Step

abbrev Passes : Cursor → Cursor → Prop := Relation.TransGen Step

end Cursor

variable {b : UInt8} {r : Bytes}

theorem drop_length_takeWhile (p : UInt8 → Bool) (s : Bytes) : s.drop (s.takeWhile p).length = s.dropWhile p := by
  calc s.drop (s.takeWhile p).length
      = (s.takeWhile p ++ s.dropWhile p).drop (s.takeWhile p).length := by
        rw [List.takeWhile_append_dropWhile]
    _ = s.dropWhile p := List.drop_left

theorem isBreak_eq_true : isBreak b = true ↔ b = 10 ∨ b = 13 := by
  simp [isBreak, Bytes.lf, Bytes.cr]

theorem breakLength_le (s : Bytes) : breakLength s ≤ s.length := by
  unfold breakLength
  split
  · split_ifs <;> simp
  · split_ifs <;> simp
  · simp

theorem isBreak_of_mem_take {s : Bytes} (h : b ∈ s.take (breakLength s)) : isBreak b = true := by
  unfold breakLength at h
  split at h
  · split_ifs at h with ha hd
    · obtain ⟨hd, -⟩ := (Bool.and_eq_true _ _).mp hd
      rcases (by simpa using h : b = _ ∨ b = _) with rfl | rfl
      · exact ha
      · exact hd
    · simp_all
    · simp at h
  · split_ifs at h <;> simp_all
  · simp at h

theorem breakLength_cons (h : isBreak b = true) : 0 < breakLength (b :: r) := by
  cases r with
  | nil => simp [breakLength, h]
  | cons d r =>
    simp only [breakLength, h, if_true]
    split <;> decide

theorem breakLength_pair {d : UInt8} (hb : isBreak b = true) (hd : (isBreak d && d != b) = true) :
    breakLength (b :: d :: r) = 2 := by
  have hne : (isBreak d && b != d) = true := by
    simp only [Bool.and_eq_true, bne_iff_ne, ne_eq] at hd ⊢
    exact ⟨hd.1, fun h => hd.2 h.symm⟩
  simp [breakLength, hb, hne]

theorem breakLength_single {d : UInt8} (hb : isBreak b = true) (hd : ¬ (isBreak d && d != b) = true) :
    breakLength (b :: d :: r) = 1 := by
  have hne : ¬ (isBreak d && b != d) = true := by
    simp only [Bool.and_eq_true, bne_iff_ne, ne_eq] at hd ⊢
    exact fun h => hd ⟨h.1, fun h' => h.2 h'.symm⟩
  simp [breakLength, hb, hne]

namespace Cursor

variable {c d e : Cursor} {w : Bytes}

/-! ## The text between two cursors -/

theorem Step.text (h : Step c d) : ∃ w, w ≠ [] ∧ c.rest = w ++ d.rest ∧ d.offset = c.offset + w.length := by
  cases h with
  | @byte b r hrest hb => exact ⟨[b], by simp, by simp [skip, hrest], by simp [skip]⟩
  | lineBreak hlen =>
    have hle := breakLength_le c.rest
    refine ⟨c.rest.take (breakLength c.rest), ?_, by simp [skipBreak], by simp [skipBreak, hle]⟩
    intro hnil
    have hzero : (c.rest.take (breakLength c.rest)).length = 0 := by rw [hnil, List.length_nil]
    rw [List.length_take_of_le hle] at hzero
    omega

section
variable (h : Reaches c d)
include h

theorem Reaches.text : ∃ w, c.rest = w ++ d.rest ∧ d.offset = c.offset + w.length := by
  induction h with
  | refl => exact ⟨[], by simp, by simp⟩
  | tail _ hstep ih =>
    obtain ⟨w, hrest, hoff⟩ := ih
    obtain ⟨w', -, hrest', hoff'⟩ := hstep.text
    exact ⟨w ++ w', by rw [hrest, hrest', List.append_assoc], by rw [hoff', hoff, List.length_append, Nat.add_assoc]⟩

theorem Reaches.rest_eq : c.rest = c.upTo d ++ d.rest := by
  obtain ⟨w, hrest, hoff⟩ := h.text
  have hup : c.upTo d = w := by simp [upTo, hrest, hoff]
  rw [hup, hrest]

theorem Reaches.offset_eq : d.offset = c.offset + (c.upTo d).length := by
  obtain ⟨w, hrest, hoff⟩ := h.text
  simp [upTo, hrest, hoff]

theorem Reaches.offset_le : c.offset ≤ d.offset := by
  rw [h.offset_eq]
  exact Nat.le_add_right _ _

theorem Reaches.upTo_eq (hw : c.rest = w ++ d.rest) : c.upTo d = w :=
  List.append_cancel_right (h.rest_eq.symm.trans hw)

theorem Reaches.upTo_append (h' : Reaches d e) : c.upTo e = c.upTo d ++ d.upTo e :=
  Reaches.upTo_eq (h.trans h') (by rw [List.append_assoc, ← h'.rest_eq, ← h.rest_eq])

theorem Reaches.length_le : d.rest.length ≤ c.rest.length := by
  have := congrArg List.length h.rest_eq
  rw [List.length_append] at this
  omega

end

theorem Passes.reaches (h : Passes c d) : Reaches c d :=
  Relation.TransGen.to_reflTransGen h

theorem Passes.upTo_ne_nil (h : Passes c d) : c.upTo d ≠ [] := by
  obtain ⟨b, hstep, hrest⟩ := Relation.TransGen.head'_iff.1 h
  obtain ⟨w, hne, hw, -⟩ := hstep.text
  have hfirst : Reaches c b := .single hstep
  rw [hfirst.upTo_append hrest, hfirst.upTo_eq hw]
  exact fun hnil => hne (List.append_eq_nil_iff.1 hnil).1

theorem Passes.length_lt (h : Passes c d) : d.rest.length < c.rest.length := by
  have hlen := congrArg List.length h.reaches.rest_eq
  have hpos := List.length_pos_iff.2 h.upTo_ne_nil
  rw [List.length_append] at hlen
  omega

@[simp] theorem upTo_self (c : Cursor) : c.upTo c = [] := by
  simp [upTo]

/-! ## Plain bytes and line breaks -/

@[simp] theorem skip_zero (c : Cursor) : c.skip 0 = c := rfl

theorem skip_skip (m n : Nat) (c : Cursor) : (c.skip m).skip n = c.skip (m + n) := by
  simp [skip, List.drop_drop, Nat.add_assoc]

theorem reaches_skip (hrest : c.rest = w ++ r) (hw : ∀ b ∈ w, isBreak b = false) : Reaches c (c.skip w.length) := by
  induction w generalizing c with
  | nil => exact .refl
  | cons b w ih =>
    have hfirst : Step c (c.skip 1) := .byte hrest (hw b (by simp))
    have hnext : Reaches (c.skip 1) ((c.skip 1).skip w.length) :=
      ih (by simp [skip, hrest]) fun x hx => hw x (by simp [hx])
    rw [skip_skip, Nat.add_comm] at hnext
    exact .head hfirst hnext

theorem forall_not_isBreak (h : w.any isBreak = false) : ∀ x ∈ w, isBreak x = false :=
  fun x hx => Bool.eq_false_iff.2 (List.any_eq_false.1 h x hx)

theorem passes_skip (hrest : c.rest = b :: w ++ r)
    (hw : ∀ x ∈ b :: w, isBreak x = false) : Passes c (c.skip (w.length + 1)) := by
  have hnext : Reaches (c.skip 1) ((c.skip 1).skip w.length) :=
    reaches_skip (r := r) (by simp [skip, hrest]) fun x hx => hw x (by simp [hx])
  rw [skip_skip, Nat.add_comm] at hnext
  exact .head' (.byte hrest (hw b (by simp))) hnext

theorem passes_skip_one (hrest : c.rest = b :: r) (hb : isBreak b = false) : Passes c (c.skip 1) :=
  .single (.byte hrest hb)

theorem reaches_skipWhile {p : UInt8 → Bool} (hp : ∀ b, p b = true → isBreak b = false) : Reaches c (c.skipWhile p) :=
  reaches_skip (List.takeWhile_append_dropWhile (p := p)).symm fun b hb =>
    hp b (List.all_eq_true.1 List.all_takeWhile b hb)

theorem skipWhile_rest {p : UInt8 → Bool} : (c.skipWhile p).rest = c.rest.dropWhile p := by
  exact drop_length_takeWhile p c.rest

section Units
variable {b x : UInt8} {r : Bytes} {offset line lineStart : Nat}

theorem step_pair (hb : isBreak b = true) (hx : (isBreak x && x != b) = true) :
    Step ⟨b :: x :: r, offset, line, lineStart⟩ ⟨r, offset + 2, line + 1, offset + 2⟩ := by
  have h := Step.lineBreak (c := ⟨b :: x :: r, offset, line, lineStart⟩) (breakLength_cons hb)
  simpa [skipBreak, breakLength_pair hb hx] using h

theorem step_single (hb : isBreak b = true) (hx : ¬ (isBreak x && x != b) = true) :
    Step ⟨b :: x :: r, offset, line, lineStart⟩ ⟨x :: r, offset + 1, line + 1, offset + 1⟩ := by
  have h := Step.lineBreak (c := ⟨b :: x :: r, offset, line, lineStart⟩) (breakLength_cons hb)
  simpa [skipBreak, breakLength_single hb hx] using h

theorem step_last (hb : isBreak b = true) :
    Step ⟨[b], offset, line, lineStart⟩ ⟨[], offset + 1, line + 1, offset + 1⟩ := by
  have h := Step.lineBreak (c := ⟨[b], offset, line, lineStart⟩) (breakLength_cons hb)
  simpa [skipBreak, breakLength, hb] using h

end Units

end Cursor

open Cursor

variable {c : Cursor} {level n fuel : Nat} {k s w : Bytes}

/-! ## Long brackets -/

def longOpen (level : Nat) : Bytes :=
  '['.toUInt8 :: (List.replicate level '='.toUInt8 ++ ['['.toUInt8])

def longClose (level : Nat) : Bytes :=
  ']'.toUInt8 :: (List.replicate level '='.toUInt8 ++ [']'.toUInt8])

theorem isBreak_longOpen (level : Nat) (h : b ∈ longOpen level) : isBreak b = false := by
  have hcases : b = '['.toUInt8 ∨ b = '='.toUInt8 := by
    simp only [longOpen, List.mem_cons, List.mem_append, List.mem_replicate, List.not_mem_nil, or_false] at h
    rcases h with h | ⟨-, h⟩ | h <;> simp [h]
  obtain rfl | rfl := hcases <;> decide

theorem isBreak_longClose (level : Nat) (h : b ∈ longClose level) : isBreak b = false := by
  have hcases : b = ']'.toUInt8 ∨ b = '='.toUInt8 := by
    simp only [longClose, List.mem_cons, List.mem_append, List.mem_replicate, List.not_mem_nil, or_false] at h
    rcases h with h | ⟨-, h⟩ | h <;> simp [h]
  obtain rfl | rfl := hcases <;> decide

theorem takeWhile_equals (level : Nat) (b : UInt8) (r : Bytes) (hb : b ≠ '='.toUInt8) :
    (List.replicate level '='.toUInt8 ++ b :: r).takeWhile (· == '='.toUInt8) = List.replicate level '='.toUInt8 := by
  rw [List.takeWhile_append_of_pos (by simp), List.takeWhile_cons_of_neg (by simpa using hb), List.append_nil]

theorem takeWhile_equals_eq (r : Bytes) : r.takeWhile (· == '='.toUInt8) =
      List.replicate (r.takeWhile (· == '='.toUInt8)).length '='.toUInt8 := by
  refine List.eq_replicate_iff.2 ⟨rfl, fun b hb => ?_⟩
  simpa using List.all_eq_true.1 List.all_takeWhile b hb

theorem opening_of_prefix (h : longOpen level <+: c.rest) : opening c = .long level := by
  obtain ⟨r, hr⟩ := h
  have hrest : c.rest.drop 1 = List.replicate level '='.toUInt8 ++ '['.toUInt8 :: r := by
    rw [← hr, longOpen]
    simp
  have hcount : ((c.rest.drop 1).takeWhile (· == '='.toUInt8)).length = level := by
    rw [hrest, takeWhile_equals _ _ _ (by decide), List.length_replicate]
  have hnext : (c.rest.drop (1 + level)).head? = some '['.toUInt8 := by
    rw [← List.drop_drop, hrest]
    simp
  unfold opening
  rw [hcount]
  simp only [hnext, beq_self_eq_true, if_true]

theorem prefix_of_opening (hrest : c.rest = '['.toUInt8 :: r)
    (h : opening c = .long level) : longOpen level <+: c.rest := by
  unfold opening at h
  simp only [hrest, List.drop_succ_cons, List.drop_zero] at h
  split at h
  · rename_i hhead
    injection h with hlevel
    rw [Nat.add_comm, List.drop_succ_cons, hlevel, beq_iff_eq] at hhead
    have hsplit := List.takeWhile_append_dropWhile (p := (· == '='.toUInt8)) (l := r)
    have htake := takeWhile_equals_eq r
    rw [hlevel] at htake
    rw [htake] at hsplit
    rw [← hlevel, drop_length_takeWhile] at hhead
    obtain ⟨tail, htail⟩ := List.head?_eq_some_iff.1 hhead
    refine ⟨tail, ?_⟩
    rw [hrest, longOpen, ← hsplit, htail]
    simp
  · split at h <;> cases h

theorem prefix_of_broken (hrest : c.rest = '['.toUInt8 :: r)
    (h : opening c = .broken level) : '['.toUInt8 :: List.replicate level '='.toUInt8 <+: c.rest := by
  unfold opening at h
  simp only [hrest, List.drop_succ_cons, List.drop_zero] at h
  split at h
  · cases h
  · split at h
    · cases h
    · injection h with hlevel
      rw [hrest, List.cons_prefix_cons, ← hlevel, ← takeWhile_equals_eq]
      exact ⟨rfl, List.takeWhile_prefix _⟩

theorem longBody_reaches {closer : Bytes} (hcloser : ∀ b ∈ closer, isBreak b = false) (rest : Bytes)
    (offset line lineStart : Nat) (acc : Bytes) :
    Reaches ⟨rest, offset, line, lineStart⟩ (longBody closer rest offset line lineStart acc).stop := by
  fun_induction longBody closer rest offset line lineStart acc with
  | case1 => exact .refl
  | case2 b r offset line lineStart acc hclosed n =>
    obtain ⟨hb, hstarts⟩ := (Bool.and_eq_true _ _).mp hclosed
    obtain ⟨r', rfl⟩ := List.isPrefixOf_iff_prefix.1 hstarts
    have hplain : ∀ x ∈ b :: closer, isBreak x = false := by
      rw [beq_iff_eq.1 hb]
      exact List.forall_mem_cons.2 ⟨by decide, hcloser⟩
    have h := (passes_skip (c := ⟨b :: (closer ++ r'), offset, line, lineStart⟩) (r := r') rfl hplain).reaches
    simpa [skip, n, Nat.add_comm, Nat.add_left_comm] using h
  | case3 b offset line lineStart acc hb d r hd _ ih => exact .head (step_pair hb hd) ih
  | case4 b offset line lineStart acc hb d r hd _ ih => exact .head (step_single hb hd) ih
  | case5 b offset line lineStart acc hb _ => exact .single (step_last hb)
  | case6 b r offset line lineStart acc _ hb ih => exact .head (.byte rfl (by simpa using hb)) ih

/-- The text `k` starts nowhere in the first `n` bytes of `s`. -/
def StartsNotBefore (k : Bytes) (n : Nat) (s : Bytes) : Prop :=
  ∀ i < n, ¬ k <+: s.drop i

theorem StartsNotBefore.zero : StartsNotBefore k 0 s :=
  fun _ hi => absurd hi (Nat.not_lt_zero _)

theorem StartsNotBefore.cons (hb : ¬ k <+: b :: s)
    (h : StartsNotBefore k n s) : StartsNotBefore k (n + 1) (b :: s) := by
  rintro (_ | i) hi
  · exact hb
  · exact h i (by omega)

theorem StartsNotBefore.le {m : Nat} (h : StartsNotBefore k n s) (hm : m ≤ n) : StartsNotBefore k m s :=
  fun i hi => h i (by omega)

theorem StartsNotBefore.length_le (h : StartsNotBefore k n s) (hs : s = w ++ k ++ r) : n ≤ w.length := by
  by_contra hlt
  refine h w.length (by omega) ?_
  rw [hs, List.append_assoc, List.drop_left]
  exact List.prefix_append _ _

/-- The text with each line break in it as one line feed. Two bytes that differ make one break. -/
def unifyBreaks : Bytes → Bytes
  | 13 :: 10 :: w => 10 :: unifyBreaks w
  | 10 :: 13 :: w => 10 :: unifyBreaks w
  | b :: w => (if b = 13 then 10 else b) :: unifyBreaks w
  | [] => []

def dropBreak : Bytes → Bytes
  | 13 :: 10 :: w | 10 :: 13 :: w | 13 :: w | 10 :: w => w
  | w => w

theorem unifyBreaks_pair {d : UInt8} (hb : isBreak b = true) (hd : (isBreak d && d != b) = true) (w : Bytes) :
    unifyBreaks (b :: d :: w) = Bytes.lf :: unifyBreaks w := by
  simp only [Bool.and_eq_true, bne_iff_ne] at hd
  rcases isBreak_eq_true.1 hb with rfl | rfl <;> rcases isBreak_eq_true.1 hd.1 with rfl | rfl
  · exact absurd rfl hd.2
  · rw [unifyBreaks]
  · rw [unifyBreaks]
  · exact absurd rfl hd.2

theorem unifyBreaks_single (h : ∀ d ∈ w.head?, isBreak b = true → ¬ (isBreak d && d != b) = true) :
    unifyBreaks (b :: w) = (if isBreak b then Bytes.lf else b) :: unifyBreaks w := by
  have hhead : (if b = 13 then 10 else b) = if isBreak b then Bytes.lf else b := by
    by_cases hb : b = 10
    · subst hb; rfl
    · by_cases hb' : b = 13
      · subst hb'; rfl
      · rw [if_neg hb', if_neg (by simp [isBreak_eq_true, hb, hb'])]
  rw [unifyBreaks.eq_def]
  split
  case h_1 w' heq =>
    cases heq
    exact absurd (by decide) (h 10 (by simp) (by decide))
  case h_2 w' heq =>
    cases heq
    exact absurd (by decide) (h 13 (by simp) (by decide))
  case h_3 heq =>
    cases heq
    rw [hhead]
  case h_4 heq => cases heq

/-- What reading the text `s` up to the bracket `k` gives: what stands before the first `k`, as `view`
has it, or the fact that there is none. -/
inductive LongText.Reads (k s : Bytes) (view : Bytes → Bytes) (t : LongText) : Prop
  | closed (body : Bytes) : t.closed = true → s = body ++ k ++ t.stop.rest → StartsNotBefore k body.length s →
      t.text = view body → Reads k s view t
  | unclosed : t.closed = false → t.stop.rest = [] → (∀ n, StartsNotBefore k n s) → Reads k s view t

theorem LongText.Reads.cons {acc : Bytes} {t : LongText} (hno : ¬ k <+: b :: s)
    (h : t.Reads k s fun w => ((if isBreak b then Bytes.lf else b) :: acc).reverse ++ unifyBreaks w)
    (hsingle : ∀ d ∈ s.head?, isBreak b = true → ¬ (isBreak d && d != b) = true) :
    t.Reads k (b :: s) fun w => acc.reverse ++ unifyBreaks w := by
  cases h with
  | closed body hclosed hs hfirst htext =>
    refine .closed (b :: body) hclosed (by rw [hs]; simp) (.cons hno hfirst) ?_
    rw [htext, unifyBreaks_single fun d hd => hsingle d ?_, List.reverse_cons, List.append_assoc, List.singleton_append]
    rw [hs, List.append_assoc, List.head?_append, Option.mem_def.1 hd]
    rfl
  | unclosed hclosed hrest hnone => exact .unclosed hclosed hrest fun n => (StartsNotBefore.cons hno (hnone n)).le (by omega)

theorem LongText.Reads.eq_of_first {view : Bytes → Bytes} {t : LongText} (h : t.Reads k s view)
    (hs : s = w ++ k ++ r) (hfirst : StartsNotBefore k w.length s) :
    t.closed = true ∧ t.text = view w ∧ t.stop.rest = r := by
  cases h with
  | unclosed _ _ hnone => exact absurd ((hnone (w.length + 1)).length_le hs) (by omega)
  | closed body hclosed hs' hfirst' htext =>
    have hlen : body.length = w.length := Nat.le_antisymm (hfirst'.length_le hs) (hfirst.length_le hs')
    rw [hs, List.append_assoc, List.append_assoc] at hs'
    obtain ⟨rfl, hafter⟩ := List.append_inj hs' hlen.symm
    exact ⟨hclosed, htext, (List.append_cancel_left hafter).symm⟩

theorem longBody_reads {closer : Bytes} (rest : Bytes) (offset line lineStart : Nat) (acc : Bytes) :
    (longBody closer rest offset line lineStart acc).Reads (']'.toUInt8 :: closer) rest
      fun w => acc.reverse ++ unifyBreaks w := by
  have hnot {b : UInt8} {r : Bytes} (h : ¬ (b == ']'.toUInt8 && closer.isPrefixOf r) = true) :
      ¬ ']'.toUInt8 :: closer <+: b :: r := by
    rw [List.cons_prefix_cons]
    rintro ⟨rfl, hstarts⟩
    exact h (by simpa using hstarts)
  fun_induction longBody closer rest offset line lineStart acc with
  | case1 => exact .unclosed rfl rfl (by simp [StartsNotBefore])
  | case2 b r offset line lineStart acc hclosed n =>
    obtain ⟨hb, hstarts⟩ := (Bool.and_eq_true _ _).mp hclosed
    obtain ⟨r', rfl⟩ := List.isPrefixOf_iff_prefix.1 hstarts
    exact .closed [] rfl (by simp [n, beq_iff_eq.1 hb]) .zero (by simp [unifyBreaks])
  | case3 b offset line lineStart acc hb d r hd hclosed ih =>
    have hsecond : ¬ ']'.toUInt8 :: closer <+: d :: r := by
      rw [List.cons_prefix_cons]
      rintro ⟨rfl, -⟩
      exact absurd ((Bool.and_eq_true _ _).mp hd).1 (by decide)
    cases ih with
    | closed body hclosed' hrest hfirst htext =>
      refine .closed (b :: d :: body) hclosed' (by simp only [List.cons_append, ← hrest])
        (.cons (hnot hclosed) (.cons hsecond hfirst)) ?_
      rw [htext, unifyBreaks_pair hb hd]
      simp
    | unclosed hclosed' hrest hnone =>
      refine .unclosed hclosed' hrest fun n => ?_
      exact (StartsNotBefore.cons (hnot hclosed) (.cons hsecond (hnone n))).le (by omega)
  | case4 b offset line lineStart acc hb d r hd hclosed ih =>
    refine .cons (hnot hclosed) ?_ (by simpa using fun _ => hd)
    rw [if_pos hb]
    exact ih
  | case5 b offset line lineStart acc hb hclosed =>
    exact .cons (hnot hclosed) (.unclosed rfl rfl (by simp [StartsNotBefore])) (by simp)
  | case6 b r offset line lineStart acc hclosed hb ih =>
    refine .cons (hnot hclosed) ?_ fun _ _ h => absurd h hb
    rw [if_neg hb]
    exact ih

theorem reaches_optionalBreak (c : Cursor) :
    Reaches c (if breakLength c.rest = 0 then c else c.skipBreak (breakLength c.rest)) := by
  split
  · exact .refl
  · exact .single (.lineBreak (by omega))

theorem longText_reaches (level : Nat) (c : Cursor) : Reaches c (longText level c).stop := by
  refine Relation.ReflTransGen.trans (reaches_optionalBreak c) (longBody_reaches (fun b hb => ?_) _ _ _ _ _)
  exact isBreak_longClose level (List.mem_cons_of_mem _ hb)

theorem StartsNotBefore.append (hw : ∀ b ∈ w, isBreak b = true)
    (h : StartsNotBefore (longClose level) n s) : StartsNotBefore (longClose level) (w.length + n) (w ++ s) := by
  induction w with
  | nil => simpa using h
  | cons b w ih =>
    rw [List.length_cons, Nat.add_right_comm]
    refine .cons (fun hstarts => ?_) (ih fun x hx => hw x (by simp [hx]))
    obtain ⟨rfl, -⟩ := List.cons_prefix_cons.1 hstarts
    exact absurd (hw ']'.toUInt8 (by simp)) (by decide)

theorem breakLength_append_of_not {d : UInt8} (hd : isBreak d = false) (w : Bytes) :
    breakLength (w ++ d :: s) = breakLength w := by
  rcases w with _ | ⟨a, _ | ⟨b, w⟩⟩
  · cases s <;> simp [breakLength, hd]
  · simp [breakLength, hd]
  · rfl

theorem dropBreak_eq (s : Bytes) : dropBreak s = s.drop (breakLength s) := by
  -- a break is one byte unless the byte after it is the other one
  have hsingle {b d : UInt8} {w : Bytes} (hb : isBreak b = true) (hno : ∀ r, w = d :: r → False)
      (hother : ∀ x, isBreak x = true → x ≠ b → x = d) : breakLength (b :: w) = 1 := by
    cases w with
    | nil => simp [breakLength, hb]
    | cons x r =>
      refine breakLength_single hb fun hx => ?_
      simp only [Bool.and_eq_true, bne_iff_ne] at hx
      exact hno r (by rw [hother x hx.1 hx.2])
  unfold dropBreak
  split
  · rfl
  · rfl
  · rename_i w hno
    rw [hsingle (by decide) hno fun x hx hne => (isBreak_eq_true.1 hx).resolve_right hne]
    rfl
  · rename_i w hno
    rw [hsingle (by decide) hno fun x hx hne => (isBreak_eq_true.1 hx).resolve_left hne]
    rfl
  · rename_i hcr hlf
    cases s with
    | nil => rfl
    | cons b r =>
      have hb : isBreak b = false := by
        rw [Bool.eq_false_iff, ne_eq, isBreak_eq_true]
        rintro (rfl | rfl)
        · exact hlf r rfl
        · exact hcr r rfl
      rw [← List.nil_append (b :: r), breakLength_append_of_not hb []]
      rfl

theorem longText_reads (level : Nat) (c : Cursor) :
    (longText level c).Reads (longClose level) c.rest fun w => unifyBreaks (dropBreak w) := by
  have hinner : (if breakLength c.rest = 0 then c else c.skipBreak (breakLength c.rest)).rest =
      c.rest.drop (breakLength c.rest) := by
    split
    · rename_i hzero
      rw [hzero, List.drop_zero]
    · rfl
  have hsplit := List.take_append_drop (breakLength c.rest) c.rest
  have hbreaks : ∀ b ∈ c.rest.take (breakLength c.rest), isBreak b = true := fun b hb => isBreak_of_mem_take hb
  have hlen : (c.rest.take (breakLength c.rest)).length = breakLength c.rest := by
    rw [List.length_take, Nat.min_eq_left (breakLength_le c.rest)]
  have hreads : (longText level c).Reads (longClose level) (c.rest.drop (breakLength c.rest)) unifyBreaks := by
    rw [← hinner]
    exact longBody_reads _ _ _ _ []
  cases hreads with
  | closed body hclosed hrest hfirst htext =>
    have hall : c.rest = c.rest.take (breakLength c.rest) ++ body ++ longClose level ++ (longText level c).stop.rest := by
      rw [List.append_assoc, List.append_assoc, ← List.append_assoc body, ← hrest]
      exact hsplit.symm
    refine .closed _ hclosed hall ?_ ?_
    · have := hfirst.append hbreaks
      rwa [← List.length_append, hsplit] at this
    · have hsame : breakLength c.rest = breakLength (c.rest.take (breakLength c.rest) ++ body) := by
        rw [List.append_assoc] at hall
        exact (congrArg breakLength hall).trans (breakLength_append_of_not rfl _)
      rw [htext, dropBreak_eq, ← hsame, List.drop_left' hlen]
  | unclosed hclosed hrest hnone =>
    refine .unclosed hclosed hrest fun n => ?_
    have := (hnone n).append hbreaks
    rw [hsplit] at this
    exact this.le (by omega)

theorem longText_closed (h : (longText level c).closed = true) :
    ∃ body, c.rest = body ++ longClose level ++ (longText level c).stop.rest ∧
      StartsNotBefore (longClose level) body.length c.rest ∧ (longText level c).text = unifyBreaks (dropBreak body) := by
  cases longText_reads level c with
  | closed body _ hrest hfirst htext => exact ⟨body, hrest, hfirst, htext⟩
  | unclosed hopen => rw [h] at hopen; cases hopen

/-! ## Comments and gaps -/

def isSpace (b : UInt8) : Bool :=
  isBlank b || isBreak b

/-- A complete comment in front of the text `next`: up to the end of the line, or a long bracket that
ends with its first closing bracket. -/
inductive Comment : (text next : Bytes) → Prop
  | line {body next : Bytes} : (∀ b ∈ body, isBreak b = false) → (∀ level, ¬ longOpen level <+: body) →
      (∀ b ∈ next.head?, isBreak b = true) → Comment (bytes "--" ++ body) next
  | long {body next : Bytes} (level : Nat) :
      StartsNotBefore (longClose level) body.length (body ++ longClose level) →
      Comment (bytes "--" ++ longOpen level ++ body ++ longClose level) next

/-- Text that may stand between tokens, in front of the text `next`: white space and complete
comments. -/
inductive Gap : (text next : Bytes) → Prop
  | nil {next : Bytes} : Gap [] next
  | space {b : UInt8} {w next : Bytes} : isSpace b = true → Gap w next → Gap (b :: w) next
  | comment {v w next : Bytes} : Comment v (w ++ next) → Gap w next → Gap (v ++ w) next

theorem Gap.spaces {v next : Bytes} (hv : ∀ b ∈ v, isSpace b = true) (h : Gap w next) : Gap (v ++ w) next := by
  induction v with
  | nil => exact h
  | cons b v ih => exact .space (hv b (by simp)) (ih fun x hx => hv x (by simp [hx]))

theorem longOpen_prefix_takeWhile : longOpen level <+: s.takeWhile (fun b => !isBreak b) ↔ longOpen level <+: s := by
  refine ⟨fun h => h.trans (List.takeWhile_prefix _), ?_⟩
  rintro ⟨r, rfl⟩
  rw [List.takeWhile_append_of_pos fun b hb => by simp [isBreak_longOpen level hb]]
  exact List.prefix_append _ _

theorem StartsNotBefore.of_append {t : Bytes} (h : StartsNotBefore k n (s ++ t)) (hn : n ≤ s.length) :
    StartsNotBefore k n s := by
  intro i hi hstarts
  refine h i hi (hstarts.trans ?_)
  rw [List.drop_append_of_le_length (by omega)]
  exact List.prefix_append _ _

theorem lineComment_passes (hrest : c.rest = bytes "--" ++ r) :
    Passes c ((c.skip 2).skipWhile fun b => !isBreak b) ∧
      ((∀ level, ¬ longOpen level <+: r) → Comment (c.upTo ((c.skip 2).skipWhile fun b => !isBreak b))
          ((c.skip 2).skipWhile fun b => !isBreak b).rest) := by
  have hinner : (c.skip 2).rest = r := by
    rw [skip, hrest]
    rfl
  have hpass : Passes c ((c.skip 2).skipWhile fun b => !isBreak b) :=
    .trans_left (passes_skip (b := '-'.toUInt8) (w := ['-'.toUInt8]) hrest (forall_not_isBreak rfl))
      (reaches_skipWhile fun b hb => by simpa using hb)
  refine ⟨hpass, fun hshort => ?_⟩
  rw [hpass.reaches.upTo_eq (w := bytes "--" ++ r.takeWhile fun b => !isBreak b)
    (by rw [hrest, skipWhile_rest, hinner, List.append_assoc, List.takeWhile_append_dropWhile]), skipWhile_rest, hinner]
  refine .line (fun b hb => ?_) (fun level h => ?_) fun b hb => ?_
  · simpa using List.all_eq_true.1 List.all_takeWhile b hb
  · exact hshort level (longOpen_prefix_takeWhile.1 h)
  · have := List.head?_dropWhile_not (fun b => !isBreak b) r
    rw [Option.mem_def.1 hb] at this
    simpa using this

theorem longComment_passes (hrest : c.rest = bytes "--" ++ r) (hlong : longOpen level <+: r) :
    Passes c (longText level ((c.skip 2).skip (level + 2))).stop ∧
      ((longText level ((c.skip 2).skip (level + 2))).closed = true →
        Comment (c.upTo (longText level ((c.skip 2).skip (level + 2))).stop)
          (longText level ((c.skip 2).skip (level + 2))).stop.rest) := by
  obtain ⟨s, rfl⟩ := hlong
  have hlen : (longOpen level).length = level + 2 := by simp [longOpen]
  have hinner : (c.skip 2).rest = longOpen level ++ s := by
    rw [skip, hrest]
    rfl
  have hbody : ((c.skip 2).skip (level + 2)).rest = s := by
    rw [skip, hinner, ← hlen, List.drop_left]
  have hpass : Passes c ((c.skip 2).skip (level + 2)) := by
    refine .trans_left (passes_skip (b := '-'.toUInt8) (w := ['-'.toUInt8]) hrest (forall_not_isBreak rfl)) ?_
    rw [← hlen]
    exact reaches_skip hinner fun b hb => isBreak_longOpen level hb
  have hall : Passes c (longText level ((c.skip 2).skip (level + 2))).stop :=
    .trans_left hpass (longText_reaches _ _)
  refine ⟨hall, fun hclosed => ?_⟩
  obtain ⟨body, hs, hfirst, -⟩ := longText_closed hclosed
  rw [hbody] at hs hfirst
  rw [hall.reaches.upTo_eq (w := bytes "--" ++ longOpen level ++ body ++ longClose level)
    (by rw [hrest, hs]; simp only [List.append_assoc])]
  refine .long level (StartsNotBefore.of_append (t := ?_) ?_ (by simp))
  · exact (longText level ((c.skip 2).skip (level + 2))).stop.rest
  · rwa [← hs]

theorem skipComment_short (hrest : (c.skip 2).rest = r) (hshort : ∀ level, ¬ longOpen level <+: r) :
    skipComment c = .ok ((c.skip 2).skipWhile fun b => !isBreak b) := by
  unfold skipComment
  extract_lets inner lineEnd
  split
  · rename_i hat
    obtain ⟨s, hs⟩ := List.head?_eq_some_iff.1 (beq_iff_eq.1 hat)
    split
    · rename_i level hopen
      exact absurd (hrest ▸ prefix_of_opening hs hopen) (hshort level)
    · rfl
  · rfl

theorem skipComment_long (hrest : (c.skip 2).rest = r) (hlong : longOpen level <+: r) :
    skipComment c =
      if (longText level ((c.skip 2).skip (level + 2))).closed
      then .ok (longText level ((c.skip 2).skip (level + 2))).stop
      else .error (longText level ((c.skip 2).skip (level + 2))).stop := by
  rw [← hrest] at hlong
  have hat : (c.skip 2).at? '[' = true := by
    obtain ⟨s, hs⟩ := hlong
    rw [at?, ← hs]
    rfl
  simp only [skipComment, hat, if_true, opening_of_prefix hlong]

/-- What is passed where a comment starts: a complete comment, or an unfinished one. -/
def CommentPassed (c : Cursor) : Except Cursor Cursor → Prop
  | .ok d => Passes c d ∧ Comment (c.upTo d) d.rest
  | .error d => Passes c d

theorem skipComment_passed (hrest : c.rest = bytes "--" ++ r) :
    CommentPassed c (skipComment c) := by
  have hinner : (c.skip 2).rest = r := by
    rw [skip, hrest]
    rfl
  by_cases hlong : ∃ level, longOpen level <+: r
  · obtain ⟨level, hlong⟩ := hlong
    obtain ⟨hpass, hcomment⟩ := longComment_passes hrest hlong
    rw [skipComment_long hinner hlong]
    split
    · rename_i hclosed
      exact ⟨hpass, hcomment hclosed⟩
    · exact hpass
  · have hshort : ∀ level, ¬ longOpen level <+: r := fun level h => hlong ⟨level, h⟩
    obtain ⟨hpass, hcomment⟩ := lineComment_passes hrest
    rw [skipComment_short hinner hshort]
    exact ⟨hpass, hcomment hshort⟩

/-- A token may start with the text that is left: neither white space nor a comment does. -/
def StartsToken (s : Bytes) : Prop :=
  (∀ b ∈ s.head?, isSpace b = false) ∧ ¬ bytes "--" <+: s

/-- What is skipped before a token is a gap. If there was fuel enough, a token may start after it or
the text ends; in case of an error an unfinished comment starts there, and is passed. -/
def Skipped (fuel : Nat) (c : Cursor) : Except (Cursor × Cursor) Cursor → Prop
  | .ok d => Reaches c d ∧ Gap (c.upTo d) d.rest ∧ (c.rest.length < fuel → StartsToken d.rest)
  | .error (s, d) => Reaches c s ∧ Gap (c.upTo s) s.rest ∧ Passes s d

theorem Skipped.after {c' : Cursor} {x : Except (Cursor × Cursor) Cursor} (hpass : Passes c c')
    (hgap : ∀ {w next : Bytes}, c'.rest = w ++ next → Gap w next → Gap (c.upTo c' ++ w) next)
    (h : Skipped fuel c' x) : Skipped (fuel + 1) c x := by
  have hlen := hpass.length_lt
  rcases x with ⟨s, d⟩ | d
  · obtain ⟨hreach, hg, hstop⟩ := h
    refine ⟨.trans hpass.reaches hreach, ?_, hstop⟩
    rw [hpass.reaches.upTo_append hreach]
    exact hgap (Reaches.rest_eq hreach) hg
  · obtain ⟨hreach, hg, hstart⟩ := h
    refine ⟨.trans hpass.reaches hreach, ?_, fun hfuel => hstart (by omega)⟩
    rw [hpass.reaches.upTo_append hreach]
    exact hgap (Reaches.rest_eq hreach) hg

theorem Skipped.stay (h : c.rest.length < fuel → StartsToken c.rest) : Skipped fuel c (.ok c) :=
  ⟨.refl, by simpa using .nil, h⟩

theorem skipBlank_skipped (fuel : Nat) (c : Cursor) : Skipped fuel c (skipBlank fuel c) := by
  induction fuel generalizing c with
  | zero => exact .stay fun h => absurd h (Nat.not_lt_zero _)
  | succ k ih =>
    unfold skipBlank
    split
    · rename_i hrest
      exact .stay fun _ => by simp [StartsToken, hrest, bytes]
    · rename_i b r hrest
      split_ifs with hbreak hblank hdash
      · have hpass : Passes c (c.skipBreak (breakLength (b :: r))) := by
          have h : 0 < breakLength c.rest := hrest ▸ breakLength_cons hbreak
          exact .single (hrest ▸ .lineBreak h)
        refine .after hpass (fun _ hg => .spaces (fun x hx => ?_) hg) (ih _)
        rw [hpass.reaches.upTo_eq (w := c.rest.take (breakLength (b :: r))) (by simp [skipBreak]), hrest] at hx
        simp [isSpace, isBreak_of_mem_take hx]
      · have hpass : Passes c (c.skip 1) := by
          refine passes_skip_one hrest ?_
          simpa using hbreak
        refine .after hpass (fun _ hg => ?_) (ih _)
        rw [hpass.reaches.upTo_eq (w := [b]) (by simp [skip, hrest])]
        exact .space (by simp [isSpace, hblank]) hg
      · obtain ⟨hb, hr⟩ := (Bool.and_eq_true _ _).mp hdash
        obtain ⟨r', rfl⟩ := List.head?_eq_some_iff.1 (beq_iff_eq.1 hr)
        have hcomment := skipComment_passed (c := c) (r := r') (by rw [hrest, beq_iff_eq.1 hb]; rfl)
        generalize skipComment c = x at hcomment
        rcases x with d | d
        · exact ⟨.refl, by simpa using .nil, hcomment⟩
        · exact .after hcomment.1 (fun hrest' hg => .comment (hrest' ▸ hcomment.2) hg) (ih d)
      · refine .stay fun _ => ⟨?_, ?_⟩
        · rw [hrest]
          simpa [isSpace] using ⟨by simpa using hblank, by simpa using hbreak⟩
        · rw [hrest]
          rintro ⟨s, hs⟩
          obtain ⟨rfl, rfl⟩ := List.cons.inj hs
          exact hdash rfl

/-! ## Strings, numerals and names -/

/-- No byte that `p` accepts is part of a line break, if neither line feed nor carriage return is
accepted. -/
theorem isBreak_eq_false_of {p : UInt8 → Prop} (hlf : ¬ p 10) (hcr : ¬ p 13) (h : p b) : isBreak b = false := by
  rw [Bool.eq_false_iff, ne_eq, isBreak_eq_true]
  rintro (rfl | rfl)
  · exact hlf h
  · exact hcr h

theorem isBreak_hexDigit (h : (Bytes.hexValue? b).isSome = true) : isBreak b = false :=
  isBreak_eq_false_of (p := fun b => (Bytes.hexValue? b).isSome = true) (by decide) (by decide) h

theorem isBreak_nameByte (h : isNameByte b = true) : isBreak b = false :=
  isBreak_eq_false_of (p := fun b => isNameByte b = true) (by decide) (by decide) h

theorem isBreak_digit (h : Bytes.isDigit b = true) : isBreak b = false :=
  isBreak_eq_false_of (p := fun b => Bytes.isDigit b = true) (by decide) (by decide) h

theorem hexValue?_isSome_of_digit (h : Bytes.isDigit b = true) : (Bytes.hexValue? b).isSome = true := by
  simp only [Bytes.isDigit, Bool.and_eq_true, decide_eq_true_eq] at h
  simp [Bytes.hexValue?, h]

theorem skipSpace_reaches (rest : Bytes) (offset line lineStart : Nat) :
    Reaches ⟨rest, offset, line, lineStart⟩ (skipSpace rest offset line lineStart) := by
  fun_induction skipSpace rest offset line lineStart with
  | case1 => exact .refl
  | case2 b offset line lineStart hb d r hd ih => exact .head (step_pair hb hd) ih
  | case3 b offset line lineStart hb d r hd ih => exact .head (step_single hb hd) ih
  | case4 b offset line lineStart hb => exact .single (step_last hb)
  | case5 b r offset line lineStart hb _ ih => exact .head (.byte rfl (by simpa using hb)) ih
  | case6 => exact .refl

def stopOf : Except (ScanFault × Cursor) (Bytes × Cursor) → Cursor
  | .ok (_, d) => d
  | .error (_, d) => d

theorem isBreak_escapeLetter (h : (escapedByte? b).isSome = true) : isBreak b = false :=
  isBreak_eq_false_of (p := fun b => (escapedByte? b).isSome = true) (by decide) (by decide) h

theorem hexDigit_of_bind (h : s.head?.bind Bytes.hexValue? = some n) :
    ∃ b r, s = b :: r ∧ Bytes.hexValue? b = some n := by
  obtain ⟨b, hb, hvalue⟩ := Option.bind_eq_some_iff.1 h
  obtain ⟨r, rfl⟩ := List.head?_eq_some_iff.1 hb
  exact ⟨b, r, rfl, hvalue⟩

theorem scanEscape_reaches (c : Cursor) : Reaches c (stopOf (scanEscape c)) := by
  unfold scanEscape
  split
  · exact .refl
  · rename_i b r hrest
    split
    · rename_i e he
      exact .single (.byte hrest (isBreak_escapeLetter (by rw [he]; rfl)))
    · split_ifs with hbreak hx hz hdigit
      · exact .single (hrest ▸ .lineBreak (hrest ▸ breakLength_cons hbreak))
      · have hplain : isBreak b = false := by simpa using hbreak
        split
        · exact .single (.byte hrest hplain)
        · rename_i d1 hd1
          obtain ⟨x, r, rfl, hx⟩ := hexDigit_of_bind hd1
          have hplain1 := isBreak_hexDigit (b := x) (by rw [hx]; rfl)
          split
          · exact reaches_skip (w := [b, x]) hrest (by simp [hplain, hplain1])
          · rename_i d2 hd2
            obtain ⟨y, r, rfl, hy⟩ := hexDigit_of_bind hd2
            have hplain2 := isBreak_hexDigit (b := y) (by rw [hy]; rfl)
            exact reaches_skip (w := [b, x, y]) hrest (by simp [hplain, hplain1, hplain2])
      · have hfirst : Step c (c.skip 1) := .byte hrest (by simpa using hbreak)
        have hnext := skipSpace_reaches r (c.offset + 1) c.line c.lineStart
        rw [show (⟨r, c.offset + 1, c.line, c.lineStart⟩ : Cursor) = c.skip 1 by simp [skip, hrest]] at hnext
        exact .head hfirst hnext
      · have hdigits : Reaches c (c.skip (((b :: r).take 3).takeWhile Bytes.isDigit).length) := by
          obtain ⟨s, hs⟩ : ((b :: r).take 3).takeWhile Bytes.isDigit <+: b :: r :=
            (List.takeWhile_prefix _).trans (List.take_prefix _ _)
          exact reaches_skip (hrest.trans hs.symm) fun x hx =>
            isBreak_digit (List.all_eq_true.1 List.all_takeWhile x hx)
        dsimp only
        split_ifs <;> exact hdigits
      · exact .refl

theorem quotedText_reaches (delim : UInt8) (hdelim : isBreak delim = false) (fuel : Nat) (c : Cursor) (acc : Bytes) :
    Reaches c (stopOf (quotedText delim fuel c acc)) := by
  induction fuel generalizing c acc with
  | zero => exact .refl
  | succ k ih =>
    unfold quotedText
    split
    · exact .refl
    · rename_i b r hrest
      split_ifs with hend hbreak hescape
      · exact .single (.byte hrest (beq_iff_eq.1 hend ▸ hdelim))
      · exact .refl
      · have hfirst : Step c (c.skip 1) := .byte hrest (by simpa using hbreak)
        have hesc := scanEscape_reaches (c.skip 1)
        generalize scanEscape (c.skip 1) = x at hesc
        rcases x with ⟨_, d⟩ | ⟨s, d⟩
        · exact .head hfirst hesc
        · exact .head hfirst (.trans hesc (ih d _))
      · exact .head (.byte hrest (by simpa using hbreak)) (ih _ _)

theorem numeralLength_prefix (e1 e2 : Char) (h1 : isBreak e1.toUInt8 = false) (h2 : isBreak e2.toUInt8 = false)
    (s : Bytes) : ∃ w r, s = w ++ r ∧ w.length = numeralLength e1 e2 s ∧ ∀ b ∈ w, isBreak b = false := by
  have hmark {b : UInt8} (h : (b == e1.toUInt8 || b == e2.toUInt8) = true) : isBreak b = false := by
    rcases (Bool.or_eq_true _ _).mp h with h | h
    · exact beq_iff_eq.1 h ▸ h1
    · exact beq_iff_eq.1 h ▸ h2
  fun_induction numeralLength e1 e2 s with
  | case1 => exact ⟨[], [], rfl, rfl, by simp⟩
  | case2 b hb => exact ⟨[b], [], rfl, rfl, by simp [hmark hb]⟩
  | case3 b hb x r hx ih =>
    obtain ⟨w, r, rfl, hlen, hw⟩ := ih
    have hsign : isBreak x = false :=
      isBreak_eq_false_of (p := fun x => (x == '+'.toUInt8 || x == '-'.toUInt8) = true) (by decide) (by decide) hx
    exact ⟨b :: x :: w, r, rfl, by simp [hlen]; omega, by simpa [hmark hb, hsign] using hw⟩
  | case4 b hb x r hx ih =>
    obtain ⟨w, r', hr, hlen, hw⟩ := ih
    exact ⟨b :: w, r', by rw [hr, List.cons_append], by simp [hlen]; omega, by simpa [hmark hb] using hw⟩
  | case5 b r _ hb ih =>
    obtain ⟨w, r, rfl, hlen, hw⟩ := ih
    have hdigit : isBreak b = false :=
      isBreak_eq_false_of (p := fun b => ((Bytes.hexValue? b).isSome || b == '.'.toUInt8) = true)
        (by decide) (by decide) hb
    exact ⟨b :: w, r, rfl, by simp [hlen]; omega, by simpa [hdigit] using hw⟩
  | case6 b r => exact ⟨[], b :: r, rfl, rfl, by simp⟩

/-! ## Tokens -/

/-- The token is the text between two cursors, of which the second is further on. -/
structure Token.Spans (t : Token) (c stop : Cursor) : Prop where
  kind : t.kind ≠ .eof
  raw : t.raw = c.upTo stop
  pos : t.pos = c.position
  passes : Passes c stop

theorem spans_plain {stop : Cursor} {kind : Token.Kind} (hkind : kind ≠ .eof) (h : Passes c stop) :
    (c.plain stop kind).1.Spans c (c.plain stop kind).2 :=
  ⟨hkind, rfl, rfl, h⟩

theorem spans_faulty {stop : Cursor} {cause : ScanFault} (h : Passes c stop) :
    (c.faulty stop cause).1.Spans c (c.faulty stop cause).2 :=
  ⟨by rintro ⟨⟩, rfl, rfl, h⟩

theorem numeralLength_pos {e1 e2 : Char}
    (hb : ((Bytes.hexValue? b).isSome || b == '.'.toUInt8) = true) : 0 < numeralLength e1 e2 (b :: r) := by
  unfold numeralLength
  split_ifs
  · split
    · decide
    · split <;> omega
  · omega

theorem numeral_passes (hrest : c.rest = b :: r)
    (hb : ((Bytes.hexValue? b).isSome || b == '.'.toUInt8) = true) (isHex : Bool)
    (hhex : isHex = true → ∃ x r', c.rest = 48 :: x :: r' ∧ (x == 'x'.toUInt8 || x == 'X'.toUInt8) = true) :
    Passes c (c.skip (if isHex then 2 + numeralLength 'p' 'P' (c.rest.drop 2) else numeralLength 'e' 'E' c.rest)) := by
  cases isHex with
  | true =>
    obtain ⟨x, r', hrest, hx⟩ := hhex rfl
    obtain ⟨w, s, hw, hlen, hplain⟩ := numeralLength_prefix 'p' 'P' (by decide) (by decide) r'
    have hmark : isBreak x = false :=
      isBreak_eq_false_of (p := fun x => (x == 'x'.toUInt8 || x == 'X'.toUInt8) = true) (by decide) (by decide) hx
    have h := passes_skip (c := c) (b := 48) (w := x :: w) (r := s) (by rw [hrest, hw]; rfl)
      (List.forall_mem_cons.2 ⟨by decide, List.forall_mem_cons.2 ⟨hmark, hplain⟩⟩)
    simpa [hrest, ← hlen, Nat.add_comm, Nat.add_left_comm] using h
  | false =>
    obtain ⟨w, s, hw, hlen, hplain⟩ := numeralLength_prefix 'e' 'E' (by decide) (by decide) c.rest
    have hpos : 0 < numeralLength 'e' 'E' c.rest := hrest ▸ numeralLength_pos hb
    cases w with
    | nil =>
      rw [← hlen] at hpos
      exact absurd hpos (Nat.lt_irrefl 0)
    | cons a w =>
      have h := passes_skip hw hplain
      rwa [← List.length_cons (a := a), hlen] at h

theorem readNumeral_spans (hrest : c.rest = b :: r) (hb : ((Bytes.hexValue? b).isSome || b == '.'.toUInt8) = true) :
    (readNumeral c).1.Spans c (readNumeral c).2 := by
  unfold readNumeral
  extract_lets isHex n stop runsOn
  have hpass : Passes c stop := by
    refine numeral_passes hrest hb isHex fun h => ?_
    unfold isHex at h
    split at h
    · rename_i x r' hx
      exact ⟨x, r', hx, h⟩
    · cases h
  split
  · exact spans_faulty (.trans_left hpass (reaches_skipWhile fun _ hx => isBreak_nameByte hx))
  · split
    · exact spans_faulty hpass
    · exact ⟨by rintro ⟨⟩, rfl, rfl, hpass⟩

theorem scanName_spans (hrest : c.rest = b :: r) (hb : isNameByte b = true) :
    (scanName c).1.Spans c (scanName c).2 := by
  have hpass : Passes c (c.skipWhile isNameByte) := by
    have h := passes_skip (c := c) (b := b) (w := r.takeWhile isNameByte) (r := r.dropWhile isNameByte)
      (by rw [hrest, List.cons_append, List.takeWhile_append_dropWhile])
      (List.forall_mem_cons.2 ⟨isBreak_nameByte hb, fun x hx =>
        isBreak_nameByte (List.all_eq_true.1 List.all_takeWhile x hx)⟩)
    rwa [← List.length_cons (a := b), ← List.takeWhile_cons_of_pos hb, ← hrest] at h
  unfold scanName
  dsimp only
  split
  · exact spans_plain (by rintro ⟨⟩) hpass
  · exact ⟨by rintro ⟨⟩, rfl, rfl, hpass⟩

theorem longString_passes (hrest : c.rest = longOpen level ++ s) :
    Passes c (longText level (c.skip (level + 2))).stop := by
  have hopened := passes_skip (c := c) (r := s) hrest fun b hb => isBreak_longOpen level hb
  exact .trans_left (by simpa using hopened) (longText_reaches _ _)

theorem readBracket_spans (hrest : c.rest = '['.toUInt8 :: r) : (readBracket c).1.Spans c (readBracket c).2 := by
  unfold readBracket
  split
  · rename_i level hopen
    obtain ⟨s, hs⟩ := prefix_of_opening hrest hopen
    have hpass := longString_passes hs.symm
    dsimp only
    split
    · exact ⟨by rintro ⟨⟩, rfl, rfl, hpass⟩
    · exact spans_faulty hpass
  · exact spans_plain (by rintro ⟨⟩) (passes_skip_one hrest (by decide))
  · rename_i level hopen
    obtain ⟨s, hs⟩ := prefix_of_broken hrest hopen
    have hplain : ∀ b ∈ '['.toUInt8 :: List.replicate level '='.toUInt8, isBreak b = false :=
      List.forall_mem_cons.2 ⟨by decide, fun b hb => (List.mem_replicate.1 hb).2 ▸ by decide⟩
    have hpass := passes_skip (c := c) hs.symm hplain
    rw [List.length_replicate] at hpass
    exact spans_faulty hpass

theorem at?_eq_true {ch : Char} (h : c.at? ch = true) : ∃ r, c.rest = ch.toUInt8 :: r :=
  List.head?_eq_some_iff.1 (beq_iff_eq.1 h)

theorem spans_one (hrest : c.rest = b :: r) (hb : isBreak b = false)
    (s : Symbol) : (c.plain (c.skip 1) (.symbol s)).1.Spans c (c.plain (c.skip 1) (.symbol s)).2 :=
  spans_plain (by rintro ⟨⟩) (passes_skip_one hrest hb)

theorem passes_skip_two (hrest : c.rest = b :: r) (hb : isBreak b = false)
    {second : Char} (hsecond : isBreak second.toUInt8 = false) (h : (c.skip 1).at? second = true) :
    Passes c (c.skip 2) := by
  obtain ⟨r', hr'⟩ := at?_eq_true h
  obtain rfl : r = second.toUInt8 :: r' := by simpa [skip, hrest] using hr'
  exact passes_skip (w := [second.toUInt8]) hrest (by simp [hb, hsecond])

theorem toUInt8_ofUInt8 (b : UInt8) : (Char.ofUInt8 b).toUInt8 = b := by
  exact UInt8.toUInt8_toUInt32 b

theorem readToken_spans (fuel : Nat) (hrest : c.rest = b :: r)
    (hb : isBreak b = false) : (readToken fuel b c).1.Spans c (readToken fuel b c).2 := by
  have hofChar {ch : Char} (h : Char.ofUInt8 b = ch) : b = ch.toUInt8 := by
    rw [← h, toUInt8_ofUInt8]
  unfold readToken
  dsimp only
  split
  case h_15 | h_16 | h_17 | h_18 =>
    split_ifs with h
    · exact spans_plain (by rintro ⟨⟩) (passes_skip_two hrest hb (by decide) h)
    · exact spans_one hrest hb _
  case h_19 =>
    split_ifs with h
    · exact spans_plain (by rintro ⟨⟩) (passes_skip_two hrest hb (by decide) h)
    · exact spans_faulty (passes_skip_one hrest hb)
  case h_20 h => exact readBracket_spans (by rw [hrest, hofChar h])
  case h_21 h =>
    obtain rfl := hofChar h
    split_ifs with h1 h2 h3
    · obtain ⟨r1, hr1⟩ := at?_eq_true h1
      obtain ⟨r2, hr2⟩ := at?_eq_true h2
      obtain rfl : r = '.'.toUInt8 :: r1 := by simpa [skip, hrest] using hr1
      obtain rfl : r1 = '.'.toUInt8 :: r2 := by simpa [skip, hrest] using hr2
      exact spans_plain (by rintro ⟨⟩) (passes_skip (w := ['.'.toUInt8, '.'.toUInt8]) hrest (forall_not_isBreak rfl))
    · exact spans_plain (by rintro ⟨⟩) (passes_skip_two hrest hb (by decide) h1)
    · exact readNumeral_spans hrest (by decide)
    · exact spans_one hrest hb _
  case h_22 =>
    split_ifs with hquote hdigit hname
    · have hstop := quotedText_reaches b hb fuel (c.skip 1) []
      generalize quotedText b fuel (c.skip 1) [] = x at hstop
      have hpass : Passes c (stopOf x) := .head' (.byte hrest hb) hstop
      rcases x with ⟨cause, stop⟩ | ⟨s, stop⟩
      · exact spans_faulty hpass
      · exact ⟨by rintro ⟨⟩, rfl, rfl, hpass⟩
    · exact readNumeral_spans hrest (by simp [hexValue?_isSome_of_digit hdigit])
    · refine scanName_spans hrest ?_
      rcases (Bool.or_eq_true _ _).mp hname with h | h <;> simp [isNameByte, h]
    · exact spans_faulty (passes_skip_one hrest hb)
  all_goals exact spans_one hrest hb _

theorem skipBlank_of_startsToken (h : StartsToken c.rest) : skipBlank fuel c = .ok c := by
  cases fuel with
  | zero => rfl
  | succ k =>
    unfold skipBlank
    split
    · rfl
    · rename_i b r hrest
      rw [hrest] at h
      have hspace : isSpace b = false := h.1 b rfl
      obtain ⟨hblank, hbreak⟩ := Bool.or_eq_false_iff.1 hspace
      rw [if_neg (by simp [hbreak]), if_neg (by simp [hblank]), if_neg]
      intro hdash
      obtain ⟨hb, hr⟩ := (Bool.and_eq_true _ _).mp hdash
      obtain ⟨r', rfl⟩ := List.head?_eq_some_iff.1 (beq_iff_eq.1 hr)
      exact h.2 ⟨r', by rw [beq_iff_eq.1 hb]; rfl⟩

theorem next_of_startsToken (fuel : Nat) (hrest : c.rest = b :: r)
    (h : StartsToken c.rest) : c.next fuel = readToken fuel b c := by
  rw [Cursor.next, skipBlank_of_startsToken h]
  dsimp only
  rw [hrest]

theorem next_of_nil (hrest : c.rest = []) : (c.next fuel).1.kind = .eof := by
  rw [Cursor.next, skipBlank_of_startsToken (by simp [StartsToken, hrest, bytes])]
  dsimp only
  rw [hrest]

/-- Before a token there is a gap. It is the end token at the end of the text, or it spans text of its
own. -/
theorem next_cases (hfuel : c.rest.length < fuel) : ∃ d, Reaches c d ∧ Gap (c.upTo d) d.rest ∧
      (d.rest = [] ∧ c.next fuel = (⟨.eof, Token.Kind.eof.text, [], .zero, d.position⟩, d) ∨
        (c.next fuel).1.Spans d (c.next fuel).2) := by
  have hskip := skipBlank_skipped fuel c
  unfold Cursor.next
  generalize skipBlank fuel c = x at hskip
  rcases x with ⟨start, stop⟩ | d
  · obtain ⟨hreach, hgap, hpass⟩ := hskip
    exact ⟨start, hreach, hgap, .inr (spans_faulty hpass)⟩
  · obtain ⟨hreach, hgap, hstart⟩ := hskip
    refine ⟨d, hreach, hgap, ?_⟩
    dsimp only
    split
    · rename_i hrest
      exact .inl ⟨hrest, rfl⟩
    · rename_i b r hrest
      have hspace : isSpace b = false := (hstart hfuel).1 b (by rw [hrest]; rfl)
      exact .inr (readToken_spans fuel hrest ((Bool.or_eq_false_iff.1 hspace).2))

end RegisterCompiler
