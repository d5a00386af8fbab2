import RegisterCompiler.Compile
import RegisterCompiler.Proofs.AlikeTrees
import RegisterCompiler.Proofs.Trees

/-!
# What is read

Two runs of the reader on tokens of one content are followed side by side. Each of them sees lines in
its own way, and where these ways agree on the tokens, they agree on the trees.

* `Token.content` : what reading takes of a token besides its place;
* `Reader.Alike w R m m'` : on tokens of one content, two steps of reading give results that `R` relates
  and leave tokens of one content;
* `readChunk_proper` : the tree of a source is proper;
* `compile_congr` : sources whose tokens have one content both fail to compile, or give functions that
  differ in lines only.
-/

namespace RegisterCompiler

/-- What reading takes of a token besides its place. -/
def Token.content (t : Token) : Token.Kind × Bytes × Number :=
  (t.kind, t.literal, t.value)

/-! ## Tokens -/

/-- A token that is a name does not have the form of a hidden name. -/
def Token.Plain (t : Token) : Prop :=
  t.kind = .name → ¬ IsHidden t.literal

theorem not_isHidden_upTo (c : Cursor) : ¬ IsHidden (c.upTo (c.skipWhile isNameByte)) := by
  have htake : c.upTo (c.skipWhile isNameByte) = c.rest.takeWhile isNameByte := by
    rw [Cursor.upTo, Cursor.skipWhile, Cursor.skip, Nat.add_sub_cancel_left]
    exact (List.prefix_iff_eq_take.1 (List.takeWhile_prefix isNameByte)).symm
  rw [htake]
  intro hhead
  have hmem : (40 : UInt8) ∈ c.rest.takeWhile isNameByte := List.mem_of_mem_head? hhead
  exact absurd (List.all_eq_true.1 List.all_takeWhile _ hmem) (by decide)

theorem scanName_plain (c : Cursor) : (scanName c).1.Plain := by
  unfold scanName
  dsimp only
  split
  · intro h
    cases h
  · exact fun _ => not_isHidden_upTo c

theorem readNumeral_plain (c : Cursor) : (readNumeral c).1.Plain := by
  unfold readNumeral
  extract_lets isHex n stop runsOn
  split
  · intro h
    cases h
  · split <;> intro h <;> cases h

theorem readBracket_plain (c : Cursor) : (readBracket c).1.Plain := by
  unfold readBracket
  split
  · dsimp only
    split <;> intro h <;> cases h
  · intro h
    cases h
  · intro h
    cases h

theorem readToken_plain (fuel : Nat) (b : UInt8) (c : Cursor) : (readToken fuel b c).1.Plain := by
  unfold readToken
  dsimp only
  split
  case h_20 => exact readBracket_plain c
  case h_21 =>
    split
    · split <;> intro h <;> cases h
    · split
      · exact readNumeral_plain c
      · intro h
        cases h
  case h_22 =>
    split
    · split <;> intro h <;> cases h
    · split
      · exact readNumeral_plain c
      · split
        · exact scanName_plain c
        · intro h
          cases h
  all_goals first
    | (intro h; cases h)
    | (split <;> intro h <;> cases h)

theorem next_plain (fuel : Nat) (c : Cursor) : (c.next fuel).1.Plain := by
  unfold Cursor.next
  split
  · intro h
    cases h
  · split
    · intro h
      cases h
    · exact readToken_plain _ _ _

theorem scanFrom_plain {fuel : Nat} {stopAtFault : Bool} {count : Nat} {c : Cursor} {acc : List Token}
    (hacc : ∀ t ∈ acc, t.Plain) : ∀ t ∈ (scanFrom fuel stopAtFault count c acc).1, t.Plain := by
  have hcons {c : Cursor} {acc : List Token} (hacc : ∀ t ∈ acc, t.Plain) :
      ∀ t ∈ (c.next fuel).1 :: acc, t.Plain :=
    List.forall_mem_cons.2 ⟨next_plain fuel c, hacc⟩
  induction count generalizing c acc with
  | zero => simpa [scanFrom] using hacc
  | succ count ih =>
    unfold scanFrom
    dsimp only
    split
    · exact fun t ht => hcons hacc t (List.mem_reverse.1 ht)
    · split
      · exact fun t ht => hcons hacc t (List.mem_reverse.1 ht)
      · exact ih (hcons hacc)
    · exact ih (hcons hacc)

theorem scan_plain (source : Bytes) : ∀ t ∈ scan source, t.Plain :=
  scanFrom_plain (by simp)

/-- How two runs see lines. They agree on the first line, where reading starts. -/
structure Views where
  left : Nat → Nat
  right : Nat → Nat
  first : left 1 = right 1

/-- Two tokens of one content in lines that are seen as one, neither of them a hidden name. -/
structure Token.Twin (w : Views) (t t' : Token) : Prop where
  content : t.content = t'.content
  line : w.left t.pos.line = w.right t'.pos.line
  plain : t.Plain

structure Feed.Twin (w : Views) (f g : Feed) : Prop where
  tokens : List.Forall₂ (Token.Twin w) f.tokens g.tokens
  line : w.left f.line = w.right g.line
  size : f.size = g.size

/-! ## Trees that are seen as one -/

@[simp] abbrev LineTwin (w : Views) (n n' : Nat) : Prop := w.left n = w.right n'

@[simp] abbrev Mark.Twin (w : Views) (m m' : Mark) : Prop := m.mapLine w.left = m'.mapLine w.right

@[simp] abbrev NamedTwin (w : Views) (n n' : Mark × Bytes) : Prop :=
  Mark.Twin w n.1 n'.1 ∧ n.2 = n'.2 ∧ n.1.Names n.2

@[simp] abbrev Names.Twin (w : Views) (ns ns' : Names) : Prop := Names.mapLines w.left ns = Names.mapLines w.right ns'

@[simp] abbrev Goto.Twin (w : Views) (j j' : Goto) : Prop := j.mapLines w.left = j'.mapLines w.right

/-- Two trees that are one as the runs see them, the first of them proper. -/
@[simp] abbrev Twin {α : Type} (map : (Nat → Nat) → α → α) (Proper : α → Prop) (w : Views) (x x' : α) : Prop :=
  map w.left x = map w.right x' ∧ Proper x

@[simp] abbrev Suffixes.Twin := RegisterCompiler.Twin Suffixes.mapLines Suffixes.Proper

@[simp] abbrev Operations.Twin := RegisterCompiler.Twin Operations.mapLines Operations.Proper

@[simp] abbrev Expr.Twin := RegisterCompiler.Twin Expr.mapLines Expr.Proper

@[simp] abbrev Exprs.Twin := RegisterCompiler.Twin Exprs.mapLines Exprs.Proper

@[simp] abbrev Args.Twin := RegisterCompiler.Twin Args.mapLines Args.Proper

@[simp] abbrev Table.Twin := RegisterCompiler.Twin Table.mapLines Table.Proper

@[simp] abbrev Fields.Twin := RegisterCompiler.Twin Fields.mapLines Fields.Proper

@[simp] abbrev Body.Twin := RegisterCompiler.Twin Body.mapLines Body.Proper

@[simp] abbrev Stat.Twin := RegisterCompiler.Twin Stat.mapLines Stat.Proper

@[simp] abbrev Values.Twin := RegisterCompiler.Twin Values.mapLines Values.Proper

@[simp] abbrev Step.Twin := RegisterCompiler.Twin Step.mapLines Step.Proper

@[simp] abbrev Clauses.Twin := RegisterCompiler.Twin Clauses.mapLines Clauses.Proper

@[simp] abbrev Targets.Twin := RegisterCompiler.Twin Targets.mapLines Targets.Proper

@[simp] abbrev Block.Twin := RegisterCompiler.Twin Block.mapLines Block.Proper

@[simp] abbrev Chunk.Twin := RegisterCompiler.Twin Chunk.mapLines fun c => c.body.Proper

attribute [simp] Expr.mapLines Suffixes.mapLines Operations.mapLines Exprs.mapLines Args.mapLines Table.mapLines
  Fields.mapLines Body.mapLines Stat.mapLines Values.mapLines Step.mapLines Clauses.mapLines Targets.mapLines
  Block.mapLines Expr.Proper Suffixes.Proper Operations.Proper Exprs.Proper Args.Proper Table.Proper Fields.Proper
  Body.Proper Stat.Proper Values.Proper Step.Proper Clauses.Proper Targets.Proper Block.Proper

@[simp] theorem Mark.mapLine_andThen (g : Nat → Nat) (m m' : Mark) :
    (m.andThen m').mapLine g = (m.mapLine g).andThen (m'.mapLine g) := by
  cases m <;> rfl

@[simp] theorem Mark.mapLine_stop (g : Nat → Nat) (f : SyntaxFault) : (Mark.stop f).mapLine g = .stop (f.mapLine g) := rfl

theorem Mark.Names.andThen {m m' : Mark} {s : Bytes} (h : m'.Names s) : (m.andThen m').Names s := by
  intro n hn
  cases m with
  | line k => exact h n hn
  | stop f => cases hn

theorem Names.Twin.reverse {w : Views} {acc acc' : Names} (h : Names.Twin w acc acc') :
    Names.Twin w acc.reverse acc'.reverse := by
  rw [Names.Twin, Names.mapLines, Names.mapLines, List.map_reverse, List.map_reverse]
  exact congrArg List.reverse h

theorem Names.Twin.cons {w : Views} {acc acc' : Names} (h : Names.Twin w acc acc') {m m' : Mark} (hm : Mark.Twin w m m')
    {s s' : Bytes} (hs : s = s') : Names.Twin w ((m, s) :: acc) ((m', s') :: acc') :=
  congrArg₂ List.cons (by rw [mapNamed, mapNamed, hm, hs]) h

namespace Reader

variable {α α' β β' : Type} {w : Views}

/-- On tokens of one content, the results are related and tokens of one content are left. -/
structure Alike (w : Views) (R : Views → α → β → Prop) (m : Reader α) (m' : Reader β) : Prop where
  run (f g : Feed) : f.Twin w g → R w (m f).1 (m' g).1 ∧ Feed.Twin w (m f).2 (m' g).2

/-! ## Steps in a row -/

theorem Alike.pure {R : Views → α → β → Prop} {a : α} {b : β} (h : R w a b) : Alike w R (Pure.pure a) (Pure.pure b) :=
  ⟨fun _ _ hf => ⟨h, hf⟩⟩

variable {R : Views → β → β' → Prop} {k : α → Reader β} {e : Reader Expr}

theorem Alike.bind {S : Views → α → α' → Prop} {m : Reader α} {m' : Reader α'} {k' : α' → Reader β'} (h : Alike w S m m')
    (hk : ∀ a b, S w a b → Alike w R (k a) (k' b)) : Alike w R (m >>= k) (m' >>= k') := by
  refine ⟨fun f g hf => ?_⟩
  obtain ⟨hab, hs⟩ := h.run f g hf
  exact (hk _ _ hab).run _ _ hs

theorem Alike.bindEq {m m' : Reader α} {k' : α → Reader β'}
    (h : Alike w (fun _ => Eq) m m') (hk : ∀ a, Alike w R (k a) (k' a)) : Alike w R (m >>= k) (m' >>= k') :=
  .bind h fun a _ hab => hab ▸ hk a

theorem Alike.ite {R : Views → α → β → Prop} {c : Prop} [Decidable c] {m1 m2 : Reader α} {m1' m2' : Reader β}
    (h1 : Alike w R m1 m1') (h2 : Alike w R m2 m2') :
    Alike w R (if c then m1 else m2) (if c then m1' else m2') := by
  split
  · exact h1
  · exact h2

theorem Alike.shared {S : Views → α → α' → Prop}
    {k' : α' → Reader β'} {p : Prop} (h : (∀ a b, S w a b → Alike w R (k a) (k' b)) → p)
    (hk : ∀ a b, S w a b → Alike w R (k a) (k' b)) : p :=
  h hk

/-! ## Single tokens -/

theorem headD_twin {ts ts' : List Token} (h : List.Forall₂ (Token.Twin w) ts ts') :
    (ts.headD endToken).Twin w (ts'.headD endToken) := by
  cases h with
  | nil => exact ⟨rfl, w.first, fun h => by cases h⟩
  | cons h _ => exact h

theorem alike_current : Alike w Token.Twin current current :=
  ⟨fun _ _ hf => ⟨headD_twin hf.tokens, hf⟩⟩

theorem alike_following : Alike w Token.Twin following following :=
  ⟨fun _ _ hf => ⟨headD_twin (List.forall₂_drop 1 hf.tokens), hf⟩⟩

theorem alike_kind : Alike w (fun _ => Eq) kind kind :=
  .bind alike_current fun _ _ h => .pure (congrArg Prod.fst h.content)

theorem alike_line : Alike w LineTwin line line :=
  .bind alike_current fun _ _ h => .pure h.line

theorem alike_isNext (k : Token.Kind) : Alike w (fun _ => Eq) (isNext k) (isNext k) :=
  .bindEq alike_kind fun _ => .pure rfl

theorem alike_bound : Alike w (fun _ => Eq) bound bound :=
  ⟨fun _ _ hf => ⟨hf.size, hf⟩⟩

theorem alike_here : Alike w Mark.Twin here here :=
  ⟨fun _ _ hf => ⟨congrArg Mark.line hf.line, hf⟩⟩

theorem alike_fault (c c' : Cause) :
    Alike w (fun w f f' => f.mapLine w.left = f'.mapLine w.right) (fault c) (fault c') :=
  ⟨fun _ _ hf => ⟨congrArg (SyntaxFault.mk _ · _) (headD_twin hf.tokens).line, .nil, hf.line, hf.size⟩⟩

theorem alike_stopped (c c' : Cause) :
    Alike w (fun w m m' => Mark.Twin w m m' ∧ ∃ f, m = .stop f) (stop c) (stop c') :=
  .bind (alike_fault c c') fun f _ hf => .pure ⟨congrArg Mark.stop hf, f, rfl⟩

theorem alike_stop (c c' : Cause) : Alike w Mark.Twin (stop c) (stop c') :=
  .bind (alike_fault c c') fun _ _ hf => .pure (congrArg Mark.stop hf)

theorem alike_looksAt {k k' : Token.Kind} : k = k' →
    Alike w Mark.Twin
      (match k with
        | .fault f => stop (.scan f)
        | _ => here)
      (match k' with
        | .fault f => stop (.scan f)
        | _ => here) := by
  rintro rfl
  cases k with
  | fault f => exact alike_stop ..
  | _ => exact alike_here

theorem alike_advance : Alike w Mark.Twin advance advance := by
  refine ⟨fun f g hf => ?_⟩
  obtain ⟨ts, line, size⟩ := f
  obtain ⟨ts', line', size'⟩ := g
  obtain ⟨htokens, hline, hsize⟩ := hf
  cases htokens with
  | nil => exact ⟨congrArg Mark.line hline, .nil, hline, hsize⟩
  | @cons t t' rest rest' ht hrest =>
    exact (alike_looksAt (congrArg Prod.fst (headD_twin hrest).content)).run ⟨rest, t.pos.line, size⟩
      ⟨rest', t'.pos.line, size'⟩ ⟨hrest, ht.line, hsize⟩

theorem alike_expect (k : Token.Kind) : Alike w Mark.Twin (expect k) (expect k) :=
  .bindEq (alike_isNext k) fun _ => .ite alike_advance (alike_stop ..)

theorem Alike.accept {t : Token.Kind} {k : Option Mark → Reader β}
    {k' : Option Mark → Reader β'} (hn : Alike w R (k none) (k' none))
    (hs : ∀ m m', Mark.Twin w m m' → Alike w R (k (some m)) (k' (some m'))) :
    Alike w R (Reader.accept t >>= k) (Reader.accept t >>= k') := by
  have haccept : Alike w (fun w o o' => Option.map (Mark.mapLine w.left) o = o'.map (Mark.mapLine w.right))
      (Reader.accept t) (Reader.accept t) :=
    .bindEq (alike_isNext t) fun _ => .ite (.bind alike_advance fun _ _ h => .pure (congrArg some h)) (.pure rfl)
  refine .bind haccept fun o o' ho => ?_
  cases o <;> cases o' <;> simp only [Option.map_none, Option.map_some, reduceCtorEq, Option.some.injEq] at ho
  · exact hn
  · exact hs _ _ ho

/-- Whether the two tokens are on one line decides about the wording of the fault only. -/
theorem alike_expectClosing (what who : Token.Kind) (opened opened' : Nat) :
    Alike w Mark.Twin (expectClosing what who opened) (expectClosing what who opened') := by
  refine .bindEq (alike_isNext what) fun _ => .ite alike_advance (.bind alike_line fun n n' _ => ?_)
  split <;> split <;> exact alike_stop ..

theorem alike_name : Alike w NamedTwin name name := by
  refine ⟨fun f g hf => ?_⟩
  have hhead := headD_twin hf.tokens
  obtain ⟨hmark, hrest⟩ := (alike_expect (w := w) .name).run f g hf
  refine ⟨⟨hmark, congrArg (fun c => c.2.1) hhead.content, fun n hn => ?_⟩, hrest⟩
  by_cases hkind : (f.tokens.headD endToken).kind = .name
  · exact hhead.plain hkind
  · have hnext : (isNext .name f).1 = false := beq_eq_false_iff_ne.2 hkind
    have hstop : (expect .name f).1 = (stop (.expected .name) f).1 := by
      show ((if (isNext .name f).1 then advance else stop (.expected .name)) f).1 = _
      rw [hnext]
      rfl
    obtain ⟨fault, hfault⟩ := ((alike_stopped (w := w) (.expected .name) (.expected .name)).run f g hf).1.2
    rw [show (name f).1.1 = (expect .name f).1 from rfl, hstop, hfault] at hn
    cases hn

theorem alike_advanceName : Alike w NamedTwin advanceName advanceName := by
  refine .bind alike_advance fun m m' hm => .bind alike_name fun n n' h => .pure ?_
  exact ⟨by simp [hm, h.1], h.2.1, h.2.2.andThen⟩

theorem alike_semicolons (n : Nat) {m m' : Mark} (h : Mark.Twin w m m') :
    Alike w Mark.Twin (semicolons n m) (semicolons n m') := by
  induction n generalizing m m' with
  | zero => exact .pure h
  | succ n ih =>
    exact .accept (.pure h) fun m1 m1' h1 => ih (by simp [h, h1])

theorem alike_endsBlock (withUntil : Bool) : Alike w (fun _ => Eq) (endsBlock withUntil) (endsBlock withUntil) := by
  refine .bindEq alike_kind fun k => ?_
  split <;> exact .pure rfl

/-! ## Lists -/

def CellTwin (R : α → α → Prop) (c c' : α → α) : Prop :=
  ∀ r r', R r r' → R (c r) (c' r')

theorem assemble_twin {R : α → α → Prop} {cells cells' : List (α → α)} (h : List.Forall₂ (CellTwin R) cells cells')
    {last last' : α} (hl : R last last') : R (assemble cells last) (assemble cells' last') := by
  induction h generalizing last last' with
  | nil => exact hl
  | cons hc _ ih => exact ih (hc _ _ hl)

theorem alike_exprsFrom (he : Alike w Expr.Twin e e) (n : Nat)
    {acc acc' : List (Exprs → Exprs)} (hacc : List.Forall₂ (CellTwin (Exprs.Twin w)) acc acc')
    {x x' : Expr} (hx : Expr.Twin w x x') : Alike w Exprs.Twin (exprsFrom e n acc x) (exprsFrom e n acc' x') := by
  have hone : Exprs.Twin w (.one x) (.one x') := by
    simp [hx]
  induction n generalizing acc acc' x x' with
  | zero => exact .pure (assemble_twin hacc hone)
  | succ n ih =>
    refine .accept (.pure (assemble_twin hacc hone)) fun m m' hm => ?_
    refine .bind he fun y y' hy => ih (.cons (fun r r' hr => ?_) hacc) hy ?_
    · simp [hx, hm, hr]
    · simp [hy]

theorem alike_exprs (he : Alike w Expr.Twin e e) : Alike w Exprs.Twin (exprs e) (exprs e) :=
  .bind he fun _ _ hx => .bindEq alike_bound fun n => alike_exprsFrom he n .nil hx

theorem alike_namesFrom (n : Nat) {acc acc' : Names} (hacc : Names.Twin w acc acc') :
    Alike w Names.Twin (namesFrom n acc) (namesFrom n acc') := by
  induction n generalizing acc acc' with
  | zero => exact .pure hacc.reverse
  | succ n ih =>
    refine .bindEq (alike_isNext _) fun _ => .ite ?_ (.pure hacc.reverse)
    exact .bind alike_advanceName fun x x' hx => ih (hacc.cons hx.1 hx.2.1)

theorem alike_pathFrom (n : Nat) {acc acc' : Names} (hacc : Names.Twin w acc acc') :
    Alike w Names.Twin (pathFrom n acc) (pathFrom n acc') := by
  induction n generalizing acc acc' with
  | zero => exact .pure hacc.reverse
  | succ n ih =>
    refine .bindEq (alike_isNext _) fun _ => .ite ?_ (.pure hacc.reverse)
    exact .bind alike_advanceName fun x x' hx => ih (hacc.cons hx.1 hx.2.1)

theorem alike_statsFrom {st : Reader Stat} (hst : Alike w Stat.Twin st st) (n : Nat)
    {acc acc' : List Stat} (hacc : List.Forall₂ (Stat.Twin w) acc acc') :
    Alike w (fun w => List.Forall₂ (Stat.Twin w)) (statsFrom st n acc) (statsFrom st n acc') := by
  induction n generalizing acc acc' with
  | zero => exact .pure hacc
  | succ n ih =>
    refine .bindEq (alike_endsBlock _) fun _ => .ite (.pure hacc) (.bindEq (alike_isNext _) fun _ => ?_)
    exact .bind hst fun x x' hx => .ite (.pure (.cons hx hacc)) (ih (.cons hx hacc))

theorem ofReversed_twin {ss ss' : List Stat} (h : List.Forall₂ (Stat.Twin w) ss ss') :
    Block.Twin w (Block.ofReversed ss) (Block.ofReversed ss') := by
  have hfold (b b' : Block) (hb : Block.Twin w b b') :
      Block.Twin w (ss.foldl (fun b s => .cons s b) b) (ss'.foldl (fun b s => .cons s b) b') := by
    induction h generalizing b b' with
    | nil => exact hb
    | cons hs _ ih => exact ih _ _ (by simp [hs, hb])
  exact hfold .nil .nil (by simp)

theorem alike_block {st : Reader Stat} (hst : Alike w Stat.Twin st st) : Alike w Block.Twin (block st) (block st) :=
  .bindEq alike_bound fun n => .bind (alike_statsFrom hst n .nil) fun _ _ hss => .pure (ofReversed_twin hss)

/-! ## Tables, functions and calls -/

section Parts
variable {e : Reader Expr}

theorem alike_tableField (he : Alike w Expr.Twin e e) :
    Alike w (fun w c c' => ∀ m m' : Mark, Mark.Twin w m m' → CellTwin (Fields.Twin w) (c m) (c' m')) (tableField e)
      (tableField e) := by
  refine .bindEq (alike_isNext _) fun isName => .bind alike_following fun t t' ht => ?_
  have hkind : t.kind = t'.kind := congrArg Prod.fst ht.content
  rw [hkind]
  refine .ite ?_ (.bindEq (alike_isNext _) fun _ => .ite ?_ ?_)
  · refine .bind alike_name fun n n' hn => .bind (alike_expect _) fun a a' ha => ?_
    refine .bind he fun v v' hv => .pure fun m m' hm r r' hr => ?_
    simp [hn.1, hn.2.1, ha, hv, hm, hr]
  · refine .bind alike_advance fun o o' ho => .bind he fun k k' hk => ?_
    refine .bind (alike_expect _) fun c c' hc => .bind (alike_expect _) fun a a' ha => ?_
    refine .bind he fun v v' hv => .pure fun m m' hm r r' hr => ?_
    simp [ho, hk, hc, ha, hv, hm, hr]
  · refine .bind he fun v v' hv => .pure fun m m' hm r r' hr => ?_
    simp [hv, hm, hr]

theorem alike_fieldsFrom (he : Alike w Expr.Twin e e) (n : Nat)
    {acc acc' : List (Fields → Fields)} (hacc : List.Forall₂ (CellTwin (Fields.Twin w)) acc acc') :
    Alike w Fields.Twin (fieldsFrom e n acc) (fieldsFrom e n acc') := by
  have hnil : Fields.Twin w .nil .nil := by
    simp
  induction n generalizing acc acc' with
  | zero => exact .pure (assemble_twin hacc hnil)
  | succ n ih =>
    refine .bindEq (alike_isNext _) fun _ => .ite (.pure (assemble_twin hacc hnil)) ?_
    refine .bind (alike_tableField he) fun c c' hc => ?_
    refine .accept (.accept ?_ fun m m' hm => ih (.cons (hc m m' hm) hacc)) fun m m' hm => ih (.cons (hc m m' hm) hacc)
    exact .bind alike_here fun m m' hm => .pure (assemble_twin (.cons (hc m m' hm) hacc) hnil)

theorem alike_table (he : Alike w Expr.Twin e e) : Alike w Table.Twin (table e) (table e) := by
  refine .bind alike_line fun _ _ _ => .bind (alike_expect _) fun o o' ho => .bindEq alike_bound fun n => ?_
  refine .bind (alike_fieldsFrom he n .nil) fun fs fs' hfs => .bind (alike_expectClosing ..) fun c c' hc => .pure ?_
  simp [ho, hfs, hc]

abbrev ParamsTwin (w : Views) (r r' : Names × Option Mark) : Prop :=
  Names.Twin w r.1 r'.1 ∧ r.2.map (Mark.mapLine w.left) = r'.2.map (Mark.mapLine w.right)

theorem alike_paramsFrom (n : Nat) {comma comma' : Mark} (hc : Mark.Twin w comma comma')
    {acc acc' : Names} (hacc : Names.Twin w acc acc') :
    Alike w ParamsTwin (paramsFrom n comma acc) (paramsFrom n comma' acc') := by
  induction n generalizing comma comma' acc acc' with
  | zero => exact .pure ⟨hacc.reverse, rfl⟩
  | succ n ih =>
    refine .bindEq alike_kind fun k => ?_
    split
    · refine .bind alike_name fun x x' hx => ?_
      have hmark : Mark.Twin w (comma.andThen x.1) (comma'.andThen x'.1) := by simp [hc, hx.1]
      have hnext := hacc.cons hmark hx.2.1
      exact .accept (.pure ⟨hnext.reverse, rfl⟩) fun m m' hm => ih hm hnext
    · exact .bind alike_advance fun m m' hm => .pure ⟨hacc.reverse, by simp [hc, hm]⟩
    · refine .bind (alike_stop ..) fun m m' hm => .pure ⟨Names.Twin.reverse (hacc.cons ?_ rfl), rfl⟩
      simp [hc, hm]

theorem alike_body {blk : Bool → Reader Block} (hb : ∀ v, Alike w Block.Twin (blk v) (blk v))
    (isMethod : Bool) {opened opened' : Nat} (hopened : LineTwin w opened opened') :
    Alike w Body.Twin (body blk isMethod opened) (body blk isMethod opened') := by
  refine .bind (alike_expect _) fun o o' ho => .bindEq (alike_isNext _) fun empty => ?_
  refine Alike.shared (S := ParamsTwin) (fun hrest => .ite (.bind (.pure ⟨rfl, rfl⟩) hrest)
    (.bindEq alike_bound fun n => .bind alike_here fun m m' hm => .bind (alike_paramsFrom n hm rfl) hrest)) ?_
  rintro ⟨ps, dots⟩ ⟨ps', dots'⟩ ⟨h1, h2⟩
  have hdots : dots.isSome = dots'.isSome := by simpa using congrArg Option.isSome h2
  dsimp only
  rw [hdots]
  refine .bind (alike_expect _) fun i i' hi => .bind (hb _) fun b b' hb' => .bind alike_line fun l l' hl => ?_
  refine .bind (alike_expectClosing ..) fun c c' hc => .pure ?_
  simp [hopened, ho, h1, h2, hi, hb', hl, hc]

theorem alike_args (he : Alike w Expr.Twin e e) (opened opened' : Nat) :
    Alike w Args.Twin (args e opened) (args e opened') := by
  refine .bind alike_current fun t t' ht => ?_
  have hkind : t.kind = t'.kind := congrArg Prod.fst ht.content
  have hliteral : t.literal = t'.literal := congrArg (fun c => c.2.1) ht.content
  rw [hkind, hliteral]
  split
  · refine .bind alike_advance fun o o' ho => .bindEq (alike_isNext _) fun _ => .ite ?_ ?_
    · refine .bind (alike_expectClosing ..) fun c c' hc => .pure ?_
      simp [ho, hc]
    · refine .bind (alike_exprs he) fun vs vs' hvs => .bind (alike_expectClosing ..) fun c c' hc => .pure ?_
      simp [ho, hvs, hc]
  · exact .bind (alike_table he) fun t t' ht => .pure (by simp [ht])
  · exact .bind alike_advance fun m m' hm => .pure (by simp [hm])
  · exact .bind (alike_fault ..) fun _ _ hf => .pure (by simp [hf])

end Parts

/-! ## Expressions -/

theorem Suffixes.mapLines_eq_nil {g : Nat → Nat} {r : Suffixes} : r.mapLines g = .nil ↔ r = .nil := by
  cases r <;> simp

theorem Operations.mapLines_eq_nil {g : Nat → Nat} {r : Operations} : r.mapLines g = .nil ↔ r = .nil := by
  cases r <;> simp

section Expressions
variable {e : Reader Expr}

theorem alike_primary (he : Alike w Expr.Twin e e) : Alike w Expr.Twin (primary e) (primary e) := by
  refine .bindEq alike_kind fun k => ?_
  split
  · refine .bind alike_name fun n n' hn => .pure ?_
    exact ⟨by simp [hn.1, hn.2.1], hn.2.2⟩
  · refine .bind alike_line fun _ _ _ => .bind alike_advance fun o o' ho => .bind he fun x x' hx => ?_
    refine .bind (alike_expectClosing ..) fun c c' hc => .pure ?_
    simp [ho, hx, hc]
  · exact .bind (alike_fault ..) fun _ _ hf => .pure (by simp [hf])

theorem alike_suffixesFrom (he : Alike w Expr.Twin e e) {opened opened' : Nat} (hopened : LineTwin w opened opened') (n : Nat)
    {acc acc' : List (Suffixes → Suffixes)} (hacc : List.Forall₂ (CellTwin (Suffixes.Twin w)) acc acc') :
    Alike w Suffixes.Twin (suffixesFrom e opened n acc) (suffixesFrom e opened' n acc') := by
  have hnil : Suffixes.Twin w .nil .nil := by
    simp
  induction n generalizing acc acc' with
  | zero => exact .pure (assemble_twin hacc hnil)
  | succ n ih =>
    have hcall : Alike w Suffixes.Twin
        (do suffixesFrom e opened n (.call opened (← args e opened) :: acc))
        (do suffixesFrom e opened' n (.call opened' (← args e opened') :: acc')) := by
      refine .bind (alike_args he ..) fun a a' ha => ih (.cons (fun r r' hr => ?_) hacc)
      simp [hopened, ha, hr]
    refine .bindEq alike_kind fun k => ?_
    split
    · refine .bind alike_advanceName fun n n' hn => ih (.cons (fun r r' hr => ?_) hacc)
      simp [hn.1, hn.2.1, hr]
    · refine .bind alike_advance fun o o' ho => .bind he fun x x' hx => ?_
      refine .bind (alike_expect _) fun c c' hc => ih (.cons (fun r r' hr => ?_) hacc)
      simp [ho, hx, hc, hr]
    · refine .bind alike_advanceName fun n n' hn => .bind (alike_args he ..) fun a a' ha => ?_
      refine ih (.cons (fun r r' hr => ?_) hacc)
      simp [hn.1, hn.2.1, hopened, ha, hr]
    · exact hcall
    · exact hcall
    · exact hcall
    · exact .pure (assemble_twin hacc hnil)

theorem alike_suffixed (he : Alike w Expr.Twin e e) : Alike w Expr.Twin (suffixed e) (suffixed e) := by
  refine .bind alike_line fun l l' hl => .bind (alike_primary he) fun x x' hx => .bindEq alike_bound fun n => ?_
  refine .bind (alike_suffixesFrom he hl n .nil) fun r r' hr => ?_
  have hnil : r = .nil ↔ r' = .nil := by
    rw [← Suffixes.mapLines_eq_nil, hr.1, Suffixes.mapLines_eq_nil]
  split
  · obtain rfl := hnil.1 rfl
    exact .pure hx
  · next hne =>
    split
    · exact absurd (hnil.2 rfl) hne
    · exact .pure (by simp [hx, hr])

theorem alike_simple (isVararg : Bool) (he : Alike w Expr.Twin e e) {blk : Bool → Reader Block}
    (hb : ∀ v, Alike w Block.Twin (blk v) (blk v)) :
    Alike w Expr.Twin (simple isVararg e blk) (simple isVararg e blk) := by
  refine .bind alike_current fun t t' ht => ?_
  have hkind : t.kind = t'.kind := congrArg Prod.fst ht.content
  have hliteral : t.literal = t'.literal := congrArg (fun c => c.2.1) ht.content
  have hvalue : t.value = t'.value := congrArg (fun c => c.2.2) ht.content
  rw [hkind, hliteral, hvalue]
  split
  iterate 5 exact .bind alike_advance fun m m' hm => .pure (by simp [hm])
  · refine .ite (.bind alike_advance fun m m' hm => .pure ?_) (.bind (alike_fault ..) fun _ _ hf => .pure ?_)
    · simp [hm]
    · simp [hf]
  · exact .bind (alike_table he) fun t t' ht => .pure (by simp [ht])
  · refine .bind alike_advance fun m m' hm => .bind alike_line fun l l' hl => ?_
    exact .bind (alike_body hb _ hl) fun b b' hb' => .pure (by simp [hm, hb'])
  · exact alike_suffixed he

theorem alike_operationsFrom {operand : Nat → Reader Expr}
    (ho : ∀ l, Alike w Expr.Twin (operand l) (operand l)) (limit n : Nat) {acc acc' : List (Operations → Operations)}
    (hacc : List.Forall₂ (CellTwin (Operations.Twin w)) acc acc') :
    Alike w Operations.Twin (operationsFrom operand limit n acc) (operationsFrom operand limit n acc') := by
  have hnil : Operations.Twin w .nil .nil := by
    simp
  induction n generalizing acc acc' with
  | zero => exact .pure (assemble_twin hacc hnil)
  | succ n ih =>
    refine .bindEq alike_kind fun k => ?_
    cases BinaryOp.ofKind? k with
    | none => exact .pure (assemble_twin hacc hnil)
    | some op =>
      refine .ite (.bind alike_line fun l l' hl => .bind alike_advance fun m m' hm => ?_)
        (.pure (assemble_twin hacc hnil))
      refine .bind (ho _) fun x x' hx => ih (.cons (fun r r' hr => ?_) hacc)
      simp [hl, hm, hx, hr]

end Expressions

/-! ## Statements -/

theorem alike_goto : Alike w Goto.Twin goto goto := by
  refine .bind alike_line fun l l' hl => .bindEq (alike_isNext _) fun _ => .ite ?_ ?_
  · exact .bind alike_advanceName fun n n' hn => .pure (by simp [Goto.mapLines, hl, hn.1, hn.2.1])
  · exact .bind alike_advance fun m m' hm => .pure (by simp [Goto.mapLines, hl, hm])

abbrev LeadTwin (w : Views) (r r' : Option Lead × Block) : Prop :=
  r.1.map (Lead.mapLines w.left) = r'.1.map (Lead.mapLines w.right) ∧ Block.Twin w r.2 r'.2

section Statements
variable {e : Reader Expr} {blk : Reader Block} (he : Alike w Expr.Twin e e)
  (hb : Alike w Block.Twin blk blk)
include he hb

theorem alike_clausesFrom (n : Nat) {acc acc' : List (Clauses → Clauses)}
    (hacc : List.Forall₂ (CellTwin (Clauses.Twin w)) acc acc') :
    Alike w Clauses.Twin (clausesFrom e blk n acc) (clausesFrom e blk n acc') := by
  have hnil : Clauses.Twin w .nil .nil := by
    simp
  induction n generalizing acc acc' with
  | zero => exact .pure (assemble_twin hacc hnil)
  | succ n ih =>
    refine .bind alike_advance fun o o' ho => .bind he fun x x' hx => .bind (alike_expect _) fun t t' ht => ?_
    refine .bindEq (alike_isNext _) fun _ => .bindEq (alike_isNext _) fun _ => ?_
    refine Alike.shared (S := LeadTwin) (fun hrest => .ite ?_ (.bind hb fun b b' hb' => .bind (.pure ⟨rfl, hb'⟩) hrest)) ?_
    · refine .bind alike_goto fun g g' hg => .bindEq alike_bound fun n => .bind alike_here fun m m' hm => ?_
      refine .bind (alike_semicolons n hm) fun m m' hm => .bindEq (alike_endsBlock _) fun alone => ?_
      have hlead : Lead.mapLines w.left ⟨g, m, alone⟩ = Lead.mapLines w.right ⟨g', m', alone⟩ := by
        simp [Lead.mapLines, hg, hm]
      have hnext {b b' : Block} (hb' : Block.Twin w b b') : LeadTwin w (some ⟨g, m, alone⟩, b) (some ⟨g', m', alone⟩, b') :=
        ⟨by simp [hlead], hb'⟩
      exact .ite (hrest _ _ (hnext (by simp))) (.bind hb fun b b' hb' => hrest _ _ (hnext hb'))
    · rintro ⟨lead, b⟩ ⟨lead', b'⟩ ⟨h1, h2⟩
      have hcell : CellTwin (Clauses.Twin w) (Clauses.cons o x t lead b) (Clauses.cons o' x' t' lead' b') :=
        fun c c' hc => by simp [ho, hx, ht, h1, h2, hc]
      exact .bindEq (alike_isNext _) fun _ => .ite (ih (.cons hcell hacc)) (.pure (assemble_twin (.cons hcell hacc) hnil))

theorem alike_cond (opened opened' : Nat) : Alike w Stat.Twin (cond e blk opened) (cond e blk opened') := by
  refine .bindEq alike_bound fun n => .bind (alike_clausesFrom he hb n .nil) fun cs cs' hcs => ?_
  have hend (em em' : Option Mark) (hm : em.map (Mark.mapLine w.left) = em'.map (Mark.mapLine w.right)) (b b' : Block)
      (hb : Block.Twin w b b') :
      Alike w Stat.Twin
        (do
          let closing ← expectClosing (.word .kEnd) (.word .kIf) opened
          return .cond cs em b closing)
        (do
          let closing ← expectClosing (.word .kEnd) (.word .kIf) opened'
          return .cond cs' em' b' closing) :=
    .bind (alike_expectClosing ..) fun c c' hc => .pure (by simp [hcs, hm, hb, hc])
  refine .accept (hend _ _ rfl _ _ (by simp)) fun m m' hm => .bind hb fun b b' hb' => ?_
  exact hend _ _ (by simp [hm]) _ _ hb'

theorem alike_forLoop {opened opened' : Nat} (hopened : LineTwin w opened opened') :
    Alike w Stat.Twin (forLoop e blk opened) (forLoop e blk opened') := by
  refine .bind alike_advanceName fun v v' hv => .bindEq alike_kind fun k => ?_
  obtain ⟨h1, h2, -⟩ := hv
  rw [h2]
  split
  case h_1 | h_2 =>
    refine .bindEq alike_bound fun n => .bind (alike_namesFrom n rfl) fun ns ns' hns => ?_
    refine .bind (alike_expect _) fun i i' hi => .bind alike_line fun l l' hl => ?_
    refine .bind (alike_exprs he) fun vs vs' hvs => .bind (alike_expect _) fun d d' hd => ?_
    refine .bind hb fun b b' hb' => .bind (alike_expectClosing ..) fun c c' hc => .pure ?_
    simp [h1, hns, hi, hl, hvs, hd, hb', hc]
  · refine Alike.shared (S := Mark.Twin) (fun hrest => .ite (.bind (.pure h1) hrest) (.bind (alike_stop ..)
      fun m m' hm => .bind (.pure (by simp [h1, hm])) hrest)) fun o o' ho => ?_
    refine .bind (alike_expect _) fun a a' ha => .bind he fun x x' hx => ?_
    refine .bind (alike_expect _) fun c c' hc => .bind he fun l l' hl => ?_
    refine Alike.shared (S := Step.Twin) (fun hrest => .accept (.bind (.pure (by simp)) hrest)
      fun m m' hm => .bind he fun y y' hy => .bind (.pure (by simp [hm, hy])) hrest) fun st st' hst => ?_
    refine .bind (alike_expect _) fun d d' hd => .bind hb fun b b' hb' => ?_
    refine .bind (alike_expectClosing ..) fun z z' hz => .pure ?_
    simp [hopened, ho, ha, hx, hc, hl, hst, hd, hb', hz]

end Statements

abbrev MethodTwin (w : Views) (m m' : Option (Mark × Bytes)) : Prop :=
  m.map (mapNamed w.left) = m'.map (mapNamed w.right)

theorem alike_functionStat {blk : Bool → Reader Block}
    (hb : ∀ v, Alike w Block.Twin (blk v) (blk v)) {opened opened' : Nat}
    (hopened : LineTwin w opened opened') : Alike w Stat.Twin (functionStat blk opened) (functionStat blk opened') := by
  refine .bind alike_advanceName fun v v' hv => .bindEq alike_bound fun n => ?_
  refine .bind (alike_pathFrom n rfl) fun p p' hp => .bindEq (alike_isNext _) fun isMethod => ?_
  refine Alike.shared (S := MethodTwin) (fun hrest => .ite (.bind alike_advanceName fun m m' hm =>
    .bind (.pure ?_) hrest) (.bind (.pure rfl) hrest)) fun m m' hm => ?_
  · exact congrArg some (Prod.ext hm.1 hm.2.1)
  · have hsome : m.isSome = m'.isSome := by simpa using congrArg Option.isSome hm
    rw [hsome]
    refine .bind (alike_body hb _ hopened) fun b b' hb' => .pure ?_
    exact ⟨by simp [hopened, hv.1, hv.2.1, hp, hm, hb'], hv.2.2, hb'.2⟩

theorem alike_localStatement (he : Alike w Expr.Twin e e)
    {blk : Bool → Reader Block} (hb : ∀ v, Alike w Block.Twin (blk v) (blk v)) :
    Alike w Stat.Twin (localStatement e blk) (localStatement e blk) := by
  refine .bind alike_advance fun m m' hm => .bindEq (alike_isNext _) fun _ => .ite ?_ ?_
  · refine .bind alike_advanceName fun v v' hv => .bind alike_line fun l l' hl => ?_
    refine .bind (alike_body hb _ hl) fun b b' hb' => .pure ?_
    simp [hm, hv.1, hv.2.1, hb']
  · refine .bind alike_name fun v v' hv => .bindEq alike_bound fun n => ?_
    have hfirst : Names.Twin w [(m.andThen v.1, v.2)] [(m'.andThen v'.1, v'.2)] :=
      Names.Twin.cons rfl (by simp [hm, hv.1]) hv.2.1
    refine .bind (alike_namesFrom n hfirst) fun ns ns' hns => .accept ?_ fun a a' ha => ?_
    · exact .bind alike_here fun m m' hm => .pure (by simp [hns, hm])
    · exact .bind (alike_exprs he) fun vs vs' hvs => .pure (by simp [hns, ha, hvs])

theorem alike_labelStatement {opened opened' : Nat} (hopened : LineTwin w opened opened') :
    Alike w Stat.Twin (labelStatement opened) (labelStatement opened') := by
  refine .bind alike_advanceName fun v v' hv => .bind (alike_expect _) fun c c' hc => .bindEq alike_bound fun n => ?_
  refine .bind (alike_semicolons n (by simp [hv.1, hc])) fun m m' hm => .bindEq (alike_endsBlock _) fun _ => .pure ?_
  simp [hopened, hv.2.1, hm]

theorem alike_returnStat (he : Alike w Expr.Twin e e) : Alike w Stat.Twin (returnStat e) (returnStat e) := by
  refine .bind alike_advance fun m m' hm => .bindEq (alike_endsBlock _) fun _ => .bindEq (alike_isNext _) fun _ => ?_
  refine Alike.shared (S := Values.Twin) (fun hrest => .ite (.bind (.pure (by simp [hm])) hrest)
    (.bind (alike_exprs he) fun vs vs' hvs => .bind (.pure (by simp [hm, hvs])) hrest)) fun vs vs' hvs => ?_
  refine .accept (.bind alike_here fun m m' hm => .pure ?_) fun m m' hm => .pure ?_
  all_goals simp [hvs, hm]

/-! ## Assignments -/

@[simp] abbrev TailTwin (w : Views) (r r' : AssignTail) : Prop :=
  Targets.Twin w r.1 r'.1 ∧ Mark.Twin w r.2.1 r'.2.1 ∧ Exprs.Twin w r.2.2 r'.2.2

theorem alike_assignTail (he : Alike w Expr.Twin e e) {deeper : Mark → Expr → Reader AssignTail}
    (hd : ∀ m m' : Mark, Mark.Twin w m m' → ∀ x x' : Expr, Expr.Twin w x x' →
      Alike w TailTwin (deeper m x) (deeper m' x')) :
    Alike w TailTwin (assignTail e deeper) (assignTail e deeper) := by
  refine .accept (.bind (alike_expect _) fun m m' hm => .bind (alike_exprs he) fun vs vs' hvs => .pure ?_)
    fun m m' hm => .bind (alike_suffixed he) fun x x' hx => hd m m' hm x x' hx
  simp [hm, hvs]

theorem endInField_mapLines (g : Nat → Nat) (r : Suffixes) : (r.mapLines g).endInField = r.endInField := by
  induction r using Suffixes.endInField.induct <;>
    simp_all [Suffixes.endInField, Suffixes.mapLines_eq_nil]

theorem endInCall_mapLines (g : Nat → Nat) (r : Suffixes) : (r.mapLines g).endInCall = r.endInCall := by
  induction r using Suffixes.endInCall.induct <;>
    simp_all [Suffixes.endInCall, Suffixes.mapLines_eq_nil]

theorem isVariable_mapLines (g : Nat → Nat) (x : Expr) : (x.mapLines g).isVariable = x.isVariable := by
  cases x <;> simp [Expr.isVariable, endInField_mapLines]

theorem isCall_mapLines (g : Nat → Nat) (x : Expr) : (x.mapLines g).isCall = x.isCall := by
  cases x <;> simp [Expr.isCall, endInCall_mapLines]

theorem alike_assignable {x x' : Expr} (hx : Expr.Twin w x x') :
    Alike w (fun w m m' => Mark.Twin w m m' ∧ ∀ n, m = .line n → x.isVariable) (assignable x) (assignable x') := by
  unfold assignable
  rw [← isVariable_mapLines w.right x', ← hx.1, isVariable_mapLines]
  split
  · next h => exact ⟨fun f g hf => ⟨⟨congrArg Mark.line hf.line, fun _ _ => h⟩, hf⟩⟩
  · exact .bind (alike_fault ..) fun _ _ hf => .pure ⟨congrArg Mark.stop hf, fun _ h => by cases h⟩

/-! ## The grammar -/

/-- Reading with `n` nested levels left does not look at lines. -/
structure LevelAlike (w : Views) (n : Nat) : Prop where
  expr (isVararg : Bool) (limit : Nat) :
    Alike w Expr.Twin (expr n isVararg limit) (expr n isVararg limit)
  stat (isVararg : Bool) : Alike w Stat.Twin (stat n isVararg) (stat n isVararg)
  targets (isVararg : Bool) {m m' : Mark} (hm : Mark.Twin w m m') {x x' : Expr}
    (hx : Expr.Twin w x x') :
    Alike w TailTwin (targets n isVararg m x) (targets n isVararg m' x')

namespace LevelAlike

theorem zero : LevelAlike w 0 where
  expr _ _ := .bind (alike_fault ..) fun _ _ hf => .pure (by simp [hf])
  stat _ := .bind (alike_fault ..) fun _ _ hf => .pure (by simp [hf])
  targets _ _ _ hm _ _ hx :=
    .bind (alike_fault ..) fun _ _ hf => .pure (by simp [hf, hm, hx])

variable {n : Nat} (h : LevelAlike w n) (isVararg : Bool)
include h

theorem exprSucc (limit : Nat) :
    Alike w Expr.Twin (Reader.expr (n + 1) isVararg limit) (Reader.expr (n + 1) isVararg limit) := by
  refine Alike.shared (w := w) (S := Expr.Twin) (R := Expr.Twin) (fun hrest => .bindEq alike_kind fun k => by
    cases UnaryOp.ofKind? k with
    | none => exact .bind (alike_simple isVararg (h.expr isVararg 0) fun v => alike_block (h.stat v)) hrest
    | some op =>
      refine .bind alike_line fun l l' hl => .bind alike_advance fun m m' hm => .bind (h.expr ..) fun x x' hx => ?_
      exact .bind (.pure (by simp [hl, hm, hx])) hrest) fun x x' hx => ?_
  refine .bindEq alike_bound fun k => .bind (alike_operationsFrom (h.expr isVararg) limit k .nil) fun r r' hr => ?_
  have hnil : r = .nil ↔ r' = .nil := by
    rw [← Operations.mapLines_eq_nil, hr.1, Operations.mapLines_eq_nil]
  split
  · obtain rfl := hnil.1 rfl
    exact .pure hx
  · next hne =>
    split
    · exact absurd (hnil.2 rfl) hne
    · exact .pure (by simp [hx, hr])

theorem targetsSucc {m m' : Mark} (hm : Mark.Twin w m m') {x x' : Expr} (hx : Expr.Twin w x x') :
    Alike w TailTwin (Reader.targets (n + 1) isVararg m x) (Reader.targets (n + 1) isVararg m' x') := by
  refine .bind (alike_assignable hx) fun a a' ha => ?_
  refine .bind (alike_assignTail (h.expr isVararg 0) fun _ _ hm _ _ hx => h.targets isVararg hm hx) fun r r' hr => .pure ?_
  exact ⟨⟨by simp [hm, hx, ha, hr], hx.2, ha.2, hr.1.2⟩, hr.2⟩

theorem statSucc : Alike w Stat.Twin (Reader.stat (n + 1) isVararg) (Reader.stat (n + 1) isVararg) := by
  have he := h.expr isVararg 0
  have hb (v : Bool) := alike_block (h.stat v)
  refine .bind alike_line fun l l' hl => .bindEq alike_kind fun k => ?_
  split
  · exact .bind alike_advance fun m m' hm => .pure (by simp [hm])
  · exact alike_cond he (hb isVararg) ..
  · refine .bind alike_advance fun o o' ho => .bind he fun x x' hx => .bind (alike_expect _) fun d d' hd => ?_
    refine .bind (hb isVararg) fun b b' hb' => .bind (alike_expectClosing ..) fun c c' hc => .pure ?_
    simp [ho, hx, hd, hb', hc]
  · refine .bind alike_advance fun o o' ho => .bind (hb isVararg) fun b b' hb' => ?_
    refine .bind (alike_expectClosing ..) fun c c' hc => .pure ?_
    simp [ho, hb', hc]
  · exact alike_forLoop he (hb isVararg) hl
  · refine .bind alike_advance fun o o' ho => .bind (hb isVararg) fun b b' hb' => ?_
    refine .bind (alike_expectClosing ..) fun c c' hc => .bind he fun x x' hx => .pure ?_
    simp [ho, hb', hc, hx]
  · exact alike_functionStat hb hl
  · exact alike_localStatement he hb
  · exact alike_labelStatement hl
  · exact alike_returnStat he
  · exact .bind alike_goto fun g g' hg => .pure (by simp [hg])
  · exact .bind alike_goto fun g g' hg => .pure (by simp [hg])
  · refine .bind alike_here fun f f' hf => .bind (alike_suffixed he) fun x x' hx => ?_
    rw [← isCall_mapLines w.right x', ← hx.1, isCall_mapLines]
    refine .bindEq (alike_isNext _) fun _ => .bindEq (alike_isNext _) fun _ => .ite ?_ ?_
    · refine .bind (alike_assignable hx) fun m m' hm => ?_
      refine .bind (alike_assignTail he fun _ _ hm _ _ hx => h.targets isVararg hm hx) fun r r' hr => .pure ?_
      exact ⟨by simp [hf, hx, hm, hr], ⟨hx.2, hm.2, hr.1.2⟩, hr.2.2.2⟩
    · split
      · next hcall =>
        exact .bind alike_here fun m m' hm => .pure ⟨by simp [hx, hm], hx.2, fun _ _ => hcall⟩
      · refine .bind (alike_stopped ..) fun m m' hm => .pure ⟨by simp [hx, hm.1], hx.2, fun k hk => ?_⟩
        obtain ⟨f, rfl⟩ := hm.2
        cases hk

end LevelAlike

theorem levelAlike (n : Nat) : LevelAlike w n := by
  induction n with
  | zero => exact .zero
  | succ n ih => exact ⟨ih.exprSucc, ih.statSucc, ih.targetsSucc⟩

theorem alike_chunk : Alike w Chunk.Twin chunk chunk := by
  refine Alike.shared (w := w) (S := Mark.Twin) (R := Chunk.Twin) (fun hrest => .bindEq alike_kind fun k => by
    split
    · exact .bind (alike_stop ..) hrest
    · exact .bind alike_here hrest) fun o o' ho => ?_
  refine .bind (alike_block ((levelAlike maxLevels).stat true)) fun b b' hb => .bindEq (alike_isNext _) fun _ => ?_
  refine .ite (.bind alike_here fun c c' hc => .pure ?_) (.bind (alike_stop ..) fun c c' hc => .pure ?_)
  all_goals simp [Chunk.mapLines, ho, hb, hc]

end Reader

/-! ## Compiling -/

theorem readChunk_twin {w : Views} {a b : Bytes} (h : List.Forall₂ (Token.Twin w) (scan a) (scan b)) :
    Chunk.Twin w (readChunk a) (readChunk b) :=
  (Reader.alike_chunk.run ⟨scan a, 1, _⟩ ⟨scan b, 1, _⟩ ⟨h, w.first, h.length_eq⟩).1

theorem readChunk_proper (source : Bytes) : (readChunk source).body.Proper := by
  refine (readChunk_twin (w := ⟨id, id, rfl⟩) (b := source) (List.forall₂_same.2 fun t ht => ?_)).2
  exact ⟨rfl, rfl, scan_plain source t ht⟩

/-- Sources whose tokens have one content both fail, or give functions that differ in lines only. -/
theorem chunk_agree {a b : Bytes} (h : (scan a).map Token.content = (scan b).map Token.content) (name name' : Bytes) :
    Agree (fun _ _ => True) (fun r r' => r.1.forgetLines = r'.1.forgetLines)
      (Gen.chunk Gen.namedVariable (readChunk a) (.initial name))
      (Gen.chunk Gen.namedVariable (readChunk b) (.initial name')) := by
  have htokens : List.Forall₂ (Token.Twin ⟨fun _ => 0, fun _ => 0, rfl⟩) (scan a) (scan b) := by
    have hcontent : List.Forall₂ (fun t t' => t.content = t'.content) (scan a) (scan b) := by
      rwa [← List.forall₂_eq_eq_eq, List.forall₂_map_left_iff, List.forall₂_map_right_iff] at h
    refine List.forall₂_iff_get.2 ⟨hcontent.length_eq, fun i hi hi' => ?_⟩
    exact ⟨hcontent.get hi hi', rfl, scan_plain a _ (List.get_mem _ _)⟩
  have htrees := (readChunk_twin htokens).1
  let w : LineMap (.ofLines fun _ _ => True) := ⟨fun _ => 0, fun _ => trivial, trivial, fun _ => trivial⟩
  have h1 := Gen.chunk_agree_mapLines w (readChunk a) name name'
  have h2 := Gen.chunk_agree_mapLines w (readChunk b) name' name'
  rw [show (readChunk b).mapLines w.map = (readChunk a).mapLines w.map from htrees.symm] at h2
  generalize Gen.chunk Gen.namedVariable (readChunk a) (.initial name) = r at h1 ⊢
  generalize Gen.chunk Gen.namedVariable (readChunk b) (.initial name') = r' at h2 ⊢
  generalize Gen.chunk Gen.namedVariable ((readChunk a).mapLines w.map) (.initial name') = q at h1 h2
  cases h1 with
  | ok hp =>
    cases h2 with
    | ok hp' => exact .ok (hp.1.trans hp'.1.symm)
  | error =>
    cases h2
    exact .error trivial

namespace Proto

mutual

/-- Without debug information, a function still depends on nothing but what is left without lines. -/
theorem forgetLines_strip : (p : Proto) → p.strip.forgetLines = p.forgetLines.strip.forgetLines
  | ⟨_, _, _, _, _, _, _, _, none, _, _, _⟩ => by
    simp [strip, forgetLines, forgetProtos, stripProtos]
  | ⟨_, _, _, _, _, _, _, _, some ps, _, _, _⟩ => by
    simp [strip, forgetLines, forgetProtos, stripProtos, forgetList_stripList ps]

theorem forgetList_stripList : (ps : List (Option Proto)) →
    forgetList (stripList ps) = forgetList (stripList (forgetList ps))
  | [] => by simp [stripList, forgetList]
  | none :: ps => by simp [stripList, stripChild, forgetList, forgetChild, forgetList_stripList ps]
  | some p :: ps => by
    simp [stripList, stripChild, forgetList, forgetChild, forgetLines_strip p, forgetList_stripList ps]

end

end Proto

theorem compile_eq (source name : Bytes) (strip : Bool) :
    compile source name strip =
      (Gen.chunk Gen.namedVariable (readChunk source) (.initial (if name.isEmpty then source else name))).map
          fun r => if strip then r.1.strip else r.1 := by
  unfold compile
  simp only [StateT.run']
  cases Gen.chunk Gen.namedVariable (readChunk source) (.initial (if name.isEmpty then source else name)) <;> rfl

theorem exists_eq_ok {ε α : Type} {x : Except ε α} (h : x.toOption.isSome) : ∃ a, x = .ok a := by
  cases x with
  | error e => cases h
  | ok a => exact ⟨a, rfl⟩

theorem chunk_of_compile {source name : Bytes} {strip : Bool} {p : Proto} (h : compile source name strip = .ok p) :
    ∃ r, Gen.chunk Gen.namedVariable (readChunk source) (.initial (if name.isEmpty then source else name)) = .ok r ∧
      p = if strip then r.1.strip else r.1 := by
  rw [compile_eq] at h
  generalize Gen.chunk Gen.namedVariable (readChunk source) _ = x at h ⊢
  cases x with
  | error e => cases h
  | ok r => exact ⟨r, rfl, (Except.ok.inj h).symm⟩

/-- The outcomes for sources whose tokens have one content differ in lines and the name of the chunk only. -/
theorem compile_agree {a b : Bytes} (h : (scan a).map Token.content = (scan b).map Token.content)
    (name name' : Bytes) (strip : Bool) :
    Agree (fun _ _ => True) (fun p q => p.forgetLines = q.forgetLines) (compile a name strip) (compile b name' strip) := by
  have hrun := chunk_agree h (if name.isEmpty then a else name)
    (if name'.isEmpty then b else name')
  rw [compile_eq, compile_eq]
  generalize Gen.chunk Gen.namedVariable (readChunk a) _ = r at hrun ⊢
  generalize Gen.chunk Gen.namedVariable (readChunk b) _ = r' at hrun ⊢
  cases hrun with
  | error => exact .error trivial
  | @ok r r' hpq =>
    refine .ok ?_
    cases strip with
    | false => exact hpq
    | true =>
      change r.1.strip.forgetLines = r'.1.strip.forgetLines
      rw [Proto.forgetLines_strip, hpq, ← Proto.forgetLines_strip]

/-- Layout does not affect code: sources whose tokens agree in kind, text and value compile under any
names to functions that differ in their lines and names only, or both fail. -/
theorem compile_congr {a b : Bytes} (h : (scan a).map Token.content = (scan b).map Token.content)
    (name name' : Bytes) (strip : Bool) :
    ((∃ p, compile a name strip = .ok p) ↔ ∃ q, compile b name' strip = .ok q) ∧
      ∀ p q, compile a name strip = .ok p → compile b name' strip = .ok q → p.forgetLines = q.forgetLines := by
  have hagree := compile_agree h name name' strip
  generalize compile a name strip = r at hagree ⊢
  generalize compile b name' strip = r' at hagree ⊢
  cases hagree with
  | ok hpq => simpa using hpq
  | error => simp

/-- A comment, a line break and another spelling of a string change nothing. -/
theorem compile_congr_spelling :
    (scan (bytes "f('a')")).map Token.content = (scan (bytes "f --x\n ( '\\97' )")).map Token.content ∧
      ((∃ p, compile (bytes "f('a')") [] false = .ok p) ↔
        ∃ q, compile (bytes "f --x\n ( '\\97' )") (bytes "=b") false = .ok q) ∧
      ∀ p q, compile (bytes "f('a')") [] false = .ok p →
        compile (bytes "f --x\n ( '\\97' )") (bytes "=b") false = .ok q → p.forgetLines = q.forgetLines := by
  have h : (scan (bytes "f('a')")).map Token.content =
      (scan (bytes "f --x\n ( '\\97' )")).map Token.content := by
    decide +kernel
  exact ⟨h, compile_congr h [] (bytes "=b") false⟩

end RegisterCompiler
