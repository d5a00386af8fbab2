import Mathlib.Data.Nat.Find
import RegisterCompiler.Proofs.Scanning

/-!
# The tokens of a source

* `nthToken source k` : the token number `k`, by reading one token after the other;
* `Cursor.In` : a cursor that has come from the start of a source;
* `nthToken_cases` : what a token tells of the source, and what stands before it;
* `scanAll_eq` : scanning lists the tokens up to the end or the first fault;
* `tokens_lossless` : tokens and the gaps between them make up the whole source.
-/

namespace RegisterCompiler

open Cursor

def cursorAfter (source : Bytes) : (k : Nat) → Cursor
  | 0 => .start source
  | k + 1 => ((cursorAfter source k).next (source.length + 1)).2

/-- The token number `k` of a source, from 0 on; past the last one it is the end token again and
again. -/
def nthToken (source : Bytes) (k : Nat) : Token :=
  ((cursorAfter source k).next (source.length + 1)).1

/-- The first line of a source that begins with `#`, without its line feed. -/
def hashLine (source : Bytes) : Bytes :=
  if source.head? = some '#'.toUInt8 then source.takeWhile (· != Bytes.lf) else []

theorem start_eq (source : Bytes) :
    Cursor.start source = ⟨source.drop (hashLine source).length, (hashLine source).length, 1, 0⟩ := by
  unfold Cursor.start hashLine
  simp only [at?, beq_iff_eq]
  split
  · simp [skipWhile, skip]
  · simp

theorem hashLine_append (source : Bytes) : hashLine source ++ source.drop (hashLine source).length = source := by
  unfold hashLine
  split
  · rw [drop_length_takeWhile, List.takeWhile_append_dropWhile]
  · simp

/-- A cursor that stands in a source, having come from its start. -/
structure Cursor.In (c : Cursor) (source : Bytes) : Prop where
  reached : Reaches (.start source) c

namespace Cursor.In

variable {c d : Cursor} {source : Bytes}

section
variable (h : c.In source)
include h

theorem rest_eq : c.rest = source.drop c.offset := by
  obtain ⟨w, hrest, hoff⟩ := Reaches.text h.reached
  rw [start_eq] at hrest hoff
  dsimp only at hrest hoff
  rw [hoff, ← List.drop_drop, hrest, List.drop_left]

theorem offset_le : c.offset ≤ source.length := by
  obtain ⟨w, hrest, hoff⟩ := Reaches.text h.reached
  rw [start_eq] at hrest hoff
  have hlen := congrArg List.length hrest
  have hall := congrArg List.length (hashLine_append source)
  simp only [List.length_append] at hlen hoff hall
  omega

theorem fuel : c.rest.length < source.length + 1 := by
  rw [h.rest_eq, List.length_drop]
  omega

theorem trans (h' : Reaches c d) : d.In source :=
  ⟨.trans h.reached h'⟩

theorem upTo_eq : c.upTo d = source.extract c.offset d.offset := by
  rw [upTo, h.rest_eq]

theorem offset_eq_length (hrest : c.rest = []) : c.offset = source.length := by
  have hle := h.offset_le
  have hge : source.length ≤ c.offset := List.drop_eq_nil_iff.1 (h.rest_eq.symm.trans hrest)
  omega

end

end Cursor.In

variable {c : Cursor} {source : Bytes} {k : Nat} {stopAtFault : Bool}

theorem next_in (h : c.In source) : (c.next (source.length + 1)).2.In source := by
  obtain ⟨d, hreach, -, ⟨-, heq⟩ | hspans⟩ := next_cases h.fuel
  · rw [heq]
    exact h.trans hreach
  · exact (h.trans hreach).trans hspans.passes.reaches

theorem cursorAfter_in (source : Bytes) (k : Nat) : (cursorAfter source k).In source := by
  induction k with
  | zero => exact ⟨.refl⟩
  | succ k ih => exact next_in ih

/-- A token that is not the end stands after a gap, and reading goes on after it. The end token stands
at the end of the source, and reading goes on there. -/
theorem nthToken_cases (source : Bytes) (k : Nat) :
    ∃ d, d.In source ∧ (nthToken source k).pos = d.position ∧ Reaches (cursorAfter source k) d ∧
      Gap ((cursorAfter source k).upTo d) d.rest ∧
      ((nthToken source k).kind = .eof ∧ (nthToken source k).raw = [] ∧ d.rest = [] ∧ cursorAfter source (k + 1) = d ∨
        (nthToken source k).Spans d (cursorAfter source (k + 1))) := by
  have hin := cursorAfter_in source k
  obtain ⟨d, hreach, hgap, ⟨hrest, heq⟩ | hspans⟩ := next_cases hin.fuel
  · refine ⟨d, hin.trans hreach, ?_, hreach, hgap, .inl ⟨?_, ?_, hrest, ?_⟩⟩
    · rw [nthToken, heq]
    · rw [nthToken, heq]
    · rw [nthToken, heq]
    · rw [cursorAfter, heq]
  · exact ⟨d, hin.trans hreach, hspans.pos, hreach, hgap, .inr hspans⟩

theorem nthToken_eof_succ (h : (nthToken source k).kind = .eof) : (nthToken source (k + 1)).kind = .eof := by
  obtain ⟨d, -, -, -, -, ⟨-, -, hrest, hafter⟩ | hspans⟩ := nthToken_cases source k
  · obtain ⟨d', -, -, hreach, -, ⟨heof, -⟩ | hspans⟩ := nthToken_cases source (k + 1)
    · exact heof
    · have hlen := Reaches.length_le hreach
      have hlt := hspans.passes.length_lt
      rw [hafter, hrest, List.length_nil] at hlen
      omega
  · exact absurd h hspans.kind

theorem nthToken_eof_of_le {n : Nat} (h : (nthToken source n).kind = .eof) (hk : n ≤ k) :
    (nthToken source k).kind = .eof := by
  induction hk with
  | refl => exact h
  | step _ ih => exact nthToken_eof_succ ih

theorem le_offset_cursorAfter (source : Bytes) (k : Nat) (h : ∀ j < k, (nthToken source j).kind ≠ .eof) :
    k ≤ (cursorAfter source k).offset := by
  induction k with
  | zero => exact Nat.zero_le _
  | succ k ih =>
    have hle := ih fun j hj => h j (by omega)
    obtain ⟨d, -, -, hreach, -, ⟨heof, -⟩ | hspans⟩ := nthToken_cases source k
    · exact absurd heof (h k (by omega))
    · have hgap := Reaches.offset_le hreach
      have htoken := hspans.passes.reaches.offset_eq
      have hpos := List.length_pos_iff.2 hspans.passes.upTo_ne_nil
      omega

/-- Some token, with a number not above the length of the source, is the end, and none before it. -/
theorem exists_count (source : Bytes) : ∃ n ≤ source.length, ∀ k, (nthToken source k).kind = .eof ↔ n ≤ k := by
  have hsome : ∃ k, (nthToken source k).kind = .eof := by
    by_contra hnone
    have hle := le_offset_cursorAfter source (source.length + 1) fun j _ h => hnone ⟨j, h⟩
    have := (cursorAfter_in source (source.length + 1)).offset_le
    omega
  refine ⟨Nat.find hsome, ?_, fun k => ⟨fun h => Nat.find_min' hsome h, nthToken_eof_of_le (Nat.find_spec hsome)⟩⟩
  have hle := le_offset_cursorAfter source _ fun j hj => Nat.find_min hsome hj
  have := (cursorAfter_in source (Nat.find hsome)).offset_le
  omega

def Token.EndsScan (stopAtFault : Bool) (t : Token) : Prop :=
  t.kind = .eof ∨ stopAtFault = true ∧ ∃ f, t.kind = .fault f

theorem scanFrom_stop {fuel count : Nat} {acc : List Token} (h : (c.next fuel).1.EndsScan stopAtFault) :
    scanFrom fuel stopAtFault (count + 1) c acc = (((c.next fuel).1 :: acc).reverse, (c.next fuel).2) := by
  unfold scanFrom
  dsimp only
  rcases h with h | ⟨rfl, f, h⟩ <;> rw [h]
  rfl

theorem scanFrom_go {fuel count : Nat} {acc : List Token} (h : ¬ (c.next fuel).1.EndsScan stopAtFault) :
    scanFrom fuel stopAtFault (count + 1) c acc =
      scanFrom fuel stopAtFault count (c.next fuel).2 ((c.next fuel).1 :: acc) := by
  rw [scanFrom]
  dsimp only
  split
  · rename_i hkind
    exact absurd (.inl hkind) h
  · rename_i f hkind
    split
    · rename_i hstop
      exact absurd (.inr ⟨hstop, f, hkind⟩) h
    · rfl
  · rfl

theorem scanFrom_eq {n : Nat} (hstop : (nthToken source n).EndsScan stopAtFault)
    (hgo : ∀ k < n, ¬ (nthToken source k).EndsScan stopAtFault) {count : Nat} (hk : k ≤ n) (hcount : n < k + count)
    (acc : List Token) : scanFrom (source.length + 1) stopAtFault count (cursorAfter source k) acc =
      (acc.reverse ++ (List.range' k (n + 1 - k)).map (nthToken source), cursorAfter source (n + 1)) := by
  induction count generalizing k acc with
  | zero => omega
  | succ count ih =>
    rcases Nat.eq_or_lt_of_le hk with rfl | hlt
    · rw [scanFrom_stop hstop, Nat.add_sub_cancel_left]
      simp [nthToken, cursorAfter]
    · rw [scanFrom_go (hgo k hlt), show n + 1 - k = (n + 1 - (k + 1)) + 1 by omega, List.range'_succ]
      have hnext := ih (k := k + 1) hlt (by omega) (nthToken source k :: acc)
      rw [List.reverse_cons, List.append_assoc] at hnext
      exact hnext

/-- Scanning lists the tokens up to the end, or up to the first fault if it stops there. -/
theorem scanAll_eq {n : Nat} (hn : n ≤ source.length) (hstop : (nthToken source n).EndsScan stopAtFault)
    (hgo : ∀ k < n, ¬ (nthToken source k).EndsScan stopAtFault) :
    scanAll stopAtFault source = ((List.range (n + 1)).map (nthToken source), cursorAfter source (n + 1)) := by
  rw [scanAll, List.range_eq_range']
  exact scanFrom_eq hstop hgo (Nat.zero_le n) (by omega) []

/-! ## Nothing is lost -/

/-- Where reading goes on after the tokens before number `k`: the start of the source, or the end of the
token before. -/
def endBefore (source : Bytes) : (k : Nat) → Nat
  | 0 => 0
  | k + 1 => (nthToken source k).pos.offset + (nthToken source k).raw.length

/-- The text in front of a token, behind the token before it. -/
def gapBefore (source : Bytes) (k : Nat) : Bytes :=
  source.extract (endBefore source k) (nthToken source k).pos.offset

theorem offset_cursorAfter_succ (h : (nthToken source k).kind ≠ .eof) :
    (cursorAfter source (k + 1)).offset = endBefore source (k + 1) := by
  obtain ⟨d, -, hpos, -, -, ⟨heof, -⟩ | hspans⟩ := nthToken_cases source k
  · exact absurd heof h
  · rw [endBefore, hspans.raw, hpos]
    exact hspans.passes.reaches.offset_eq

/-- A token that is not the end is not empty, and is what the source has at its place. -/
theorem nthToken_raw (h : (nthToken source k).kind ≠ .eof) : (nthToken source k).raw ≠ [] ∧
      source.extract (nthToken source k).pos.offset (endBefore source (k + 1)) = (nthToken source k).raw := by
  obtain ⟨d, hin, hpos, -, -, ⟨heof, -⟩ | hspans⟩ := nthToken_cases source k
  · exact absurd heof h
  · rw [← offset_cursorAfter_succ h, hspans.raw, hin.upTo_eq, hpos]
    exact ⟨hin.upTo_eq ▸ hspans.passes.upTo_ne_nil, rfl⟩

/-- In front of each token up to the first end token there is nothing but a gap, and the line with `#` at the
start of the source. -/
theorem gapBefore_gap (h : ∀ j < k, (nthToken source j).kind ≠ .eof) :
    endBefore source k ≤ (nthToken source k).pos.offset ∧
      ∃ w, gapBefore source k = (if k = 0 then hashLine source else []) ++ w ∧
        Gap w (source.drop (nthToken source k).pos.offset) := by
  obtain ⟨d, hin, hpos, hreach, hgap, -⟩ := nthToken_cases source k
  have hoff : (nthToken source k).pos.offset = d.offset := by rw [hpos]; rfl
  have hle := Reaches.offset_le hreach
  rw [(cursorAfter_in source k).upTo_eq, hin.rest_eq] at hgap
  rw [gapBefore, hoff]
  cases k with
  | zero =>
    have hstart : (cursorAfter source 0).offset = (hashLine source).length := by rw [cursorAfter, start_eq]
    rw [hstart] at hgap hle
    refine ⟨Nat.zero_le _, _, ?_, hgap⟩
    calc source.extract 0 d.offset
        = (hashLine source ++ source.drop (hashLine source).length).take d.offset := by
          rw [hashLine_append, List.extract, List.drop_zero, Nat.sub_zero]
      _ = hashLine source ++ source.extract (hashLine source).length d.offset := by
          rw [List.take_append, List.take_of_length_le hle]
  | succ k =>
    rw [offset_cursorAfter_succ (h k (by omega))] at hgap hle
    exact ⟨hle, _, by simp, hgap⟩

/-- The tokens of a source and the gaps between them make up the whole source: there are at most as many
tokens as bytes, and after them the end token for ever; every other token has a text, which is not empty
and stands at its place behind the token before; and in front of the first token, between tokens and
after the last one there is nothing but white space, complete comments and, at the very start, a line
with `#`. -/
theorem tokens_lossless (source : Bytes) :
    ∃ n ≤ source.length,
      (∀ k, (nthToken source k).kind = .eof ↔ n ≤ k) ∧
      (scanAll false source).1 = (List.range (n + 1)).map (nthToken source) ∧
      (∀ k < n, (nthToken source k).raw ≠ [] ∧
        source.extract (nthToken source k).pos.offset (endBefore source (k + 1)) = (nthToken source k).raw) ∧
      (nthToken source n).pos.offset = source.length ∧
      ∀ k ≤ n, endBefore source k ≤ (nthToken source k).pos.offset ∧
        ∃ w, gapBefore source k = (if k = 0 then hashLine source else []) ++ w ∧
          Gap w (source.drop (nthToken source k).pos.offset) := by
  obtain ⟨n, hn, hkind⟩ := exists_count source
  have hgo (k : Nat) (hk : k < n) : (nthToken source k).kind ≠ .eof := fun h => absurd ((hkind k).1 h) (by omega)
  refine ⟨n, hn, hkind, ?_, fun k hk => nthToken_raw (hgo k hk), ?_, fun k hk => gapBefore_gap fun j hj => hgo j (by omega)⟩
  · rw [scanAll_eq hn (.inl ((hkind n).2 le_rfl)) ?_]
    rintro k hk (h | ⟨h, -⟩)
    · exact hgo k hk h
    · cases h
  · obtain ⟨d, hin, hpos, -, -, ⟨-, -, hrest, -⟩ | hspans⟩ := nthToken_cases source n
    · rw [hpos]
      exact hin.offset_eq_length hrest
    · exact absurd ((hkind n).2 le_rfl) hspans.kind

end RegisterCompiler
