import Mathlib.Logic.Relation
import RegisterCompiler.Proofs.Layout

/-!
# Tables of constants

Constants come into the table of a function from many steps, and all of them go through
`Gen.internConstant`. Whatever the steps are and whichever of the open functions they are on, the keys of
the constants and their places stay inverse to each other.

* `IsTable cs places` : `places` sends the keys of the constants `cs` to their places, and nothing else;
* `Gen.Operation`, `Gen.Moves` : the operations on functions under construction, and one of them on one of
  the open functions;
* `constantTables_spec` : tables are in order in every state that operations reach, and have only grown.
-/

namespace RegisterCompiler

/-! ## Tables -/

/-- The keys of the constants have their places, and no other key has one. -/
def IsTable (cs : Array Constant) (places : Std.HashMap Constant.Key Nat) : Prop :=
  ∀ (key : Constant.Key) (k : Nat), places[key]? = some k ↔ ∃ c, cs[k]? = some c ∧ c.key = key

def AllDistinct (cs : Array Constant) : Prop :=
  cs.toList.Pairwise fun c d => c.same d = false

namespace IsTable

variable {cs : Array Constant} {places : Std.HashMap Constant.Key Nat} {v : Constant}

theorem empty : IsTable #[] ∅ := by
  simp [IsTable]

theorem intern (h : IsTable cs places) (hv : places[v.key]? = none) :
    IsTable (cs.push v) (places.insert v.key cs.size) := by
  intro key k
  rw [Std.HashMap.getElem?_insert, Array.getElem?_push]
  by_cases hkey : v.key = key
  · subst hkey
    -- the key is new, so the new place is the only one
    have hnew : ∀ c, cs[k]? = some c → c.key ≠ v.key := by
      intro c hc hcv
      rw [(h v.key k).2 ⟨c, hc, hcv⟩] at hv
      cases hv
    rw [if_pos (beq_self_eq_true _), Option.some.injEq]
    split_ifs with hk
    · simp [hk]
    · refine ⟨fun hk' => absurd hk'.symm hk, ?_⟩
      rintro ⟨c, hc, hcv⟩
      exact absurd hcv (hnew c hc)
  · rw [if_neg (by simpa using hkey), h key k]
    split_ifs with hk
    · subst hk
      simp [hkey]
    · rfl

theorem place_unique (h : IsTable cs places) {i j : Nat} {c d : Constant} (hi : cs[i]? = some c) (hj : cs[j]? = some d)
    (hkey : c.key = d.key) : i = j := by
  have hc := (h d.key i).2 ⟨c, hi, hkey⟩
  rw [(h d.key j).2 ⟨d, hj, rfl⟩] at hc
  exact (Option.some.inj hc).symm

theorem allDistinct (h : IsTable cs places) : AllDistinct cs := by
  refine List.pairwise_iff_getElem.2 fun i j hi hj hij => ?_
  rw [Constant.same, beq_eq_false_iff_ne]
  intro hkey
  have hget : ∀ (k : Nat) (hk : k < cs.toList.length), cs[k]? = some cs.toList[k] := fun k hk => by
    rw [← Array.getElem?_toList, List.getElem?_eq_getElem hk]
  exact hij.ne (h.place_unique (hget i hi) (hget j hj) hkey)

theorem place_eq_none_iff (h : IsTable cs places) : places[v.key]? = none ↔ ¬ ∃ c ∈ cs, c.same v = true := by
  rw [Option.eq_none_iff_forall_ne_some]
  simp only [Constant.same, beq_iff_eq, ne_eq, h v.key, Array.mem_iff_getElem?]
  grind

end IsTable

/-! ## Functions at their places -/

section Places
variable {L : View}

theorem outerAlike_self_iff {fs : List Func} :
    OuterAlike L fs fs ↔ ∀ (n : Nat) (f : Func), fs.reverse[n]? = some f → f.Alike L n f := by
  induction fs with
  | nil => simp [OuterAlike.nil]
  | cons f fs ih =>
    rw [List.reverse_cons]
    refine ⟨?_, fun h => .cons (h _ f (by simp)) (ih.2 fun n g hg => h n g ?_)⟩
    · rintro (_ | ⟨hf, hfs⟩) n g hg
      rw [List.getElem?_append] at hg
      split_ifs at hg with hn
      · exact ih.1 hfs n g hg
      · rw [List.length_reverse] at hn hg
        rw [List.getElem?_singleton] at hg
        split_ifs at hg with hzero
        cases hg
        obtain rfl : n = fs.length := by omega
        exact hf
    · rw [List.getElem?_append_left (List.getElem?_eq_some_iff.1 hg).1, hg]

theorem innerAlike_self_iff {fs : List Func} {m : Nat} :
    InnerAlike L m fs fs ↔ ∀ (k : Nat) (f : Func), fs[k]? = some f → f.Alike L (m + k) f := by
  induction fs generalizing m with
  | nil => simp [InnerAlike.nil]
  | cons f fs ih =>
    refine ⟨?_, fun h => .cons (h 0 f rfl) (ih.2 fun k g hg => ?_)⟩
    · rintro (_ | ⟨hf, hfs⟩) (_ | k) g hg
      · cases hg
        exact hf
      · have := ih.1 hfs k g hg
        rwa [Nat.add_right_comm] at this
    · have := h (k + 1) g hg
      rwa [← Nat.add_assoc, Nat.add_right_comm] at this

/-- A state agrees with itself if its functions do, each with as many functions around it as it has. -/
theorem GenState.alike_self_iff {s : GenState} : s.Alike L False s ↔
    L s.line s.line ∧ ∀ (n : Nat) (f : Func), s.functions[n]? = some f → f.Alike L n f := by
  have hfn : s.functions[s.outer.length]? = some s.fn := by
    simp [functions]
  constructor
  · intro h
    refine ⟨h.line, fun n f hf => ?_⟩
    rw [functions, List.getElem?_append] at hf
    split_ifs at hf with hn
    · exact outerAlike_self_iff.1 h.outer n f hf
    · rw [List.length_reverse] at hn hf
      obtain ⟨k, rfl⟩ := Nat.exists_eq_add_of_le (Nat.le_of_not_lt hn)
      rw [Nat.add_sub_cancel_left] at hf
      cases k with
      | zero =>
        cases hf
        exact h.fn
      | succ k =>
        have := innerAlike_self_iff.1 h.inner k f hf
        rwa [Nat.add_assoc, Nat.add_comm 1] at this
  · rintro ⟨hline, h⟩
    refine ⟨hline, h _ _ hfn, outerAlike_self_iff.2 fun n f hf => h n f ?_, innerAlike_self_iff.2 fun k f hf => h _ f ?_,
      False.elim⟩
    · rw [functions, List.getElem?_append_left (List.getElem?_eq_some_iff.1 hf).1, hf]
    · rw [functions, List.getElem?_append_right (by simp; omega), List.length_reverse,
        show s.outer.length + 1 + k - s.outer.length = k + 1 by omega, List.getElem?_cons_succ, hf]

theorem GenState.functions_focus (k : Nat) (s : GenState) : (s.focus k).functions = s.functions := by
  unfold focus
  dsimp only
  split
  · rename_i f inner h
    rw [functions, List.reverse_reverse, ← h, List.take_append_drop]
  · rfl

end Places

/-! ## Steps -/

/-- The tables of the open functions and of the functions finished so far are in order. -/
structure GenState.Tabled (s : GenState) : Prop where
  isTable : ∀ f ∈ s.functions, IsTable f.constants f.constantPlaces
  finished : ∀ f ∈ s.functions, ∀ p ∈ f.protos, ∀ q ∈ p.walk, ∃ places, IsTable q.constantArray places

/-- The tables of functions that are open in both states have grown at their ends. -/
def GenState.TablesGrown (s t : GenState) : Prop :=
  ∀ (n : Nat) (f g : Func), s.functions[n]? = some f → t.functions[n]? = some g →
    f.constants.toList <+: g.constants.toList

/-- Tables are in order, and go on from those in the state `s`. -/
def tablesFrom (s : GenState) : View where
  lines _ _ := True
  table n cs places := IsTable cs places ∧ ∀ f, s.functions[n]? = some f → f.constants.toList <+: cs.toList
  intern := by
    rintro n cs places v ⟨h, hgrown⟩ hv
    refine ⟨h.intern hv, fun f hf => (hgrown f hf).trans ?_⟩
    rw [Array.toList_push]
    exact List.prefix_append ..

namespace GenState.Tabled

variable {s t : GenState} {α : Type} {a : α}

theorem initial (source : Bytes) : (GenState.initial source).Tabled := by
  constructor <;> rintro f hf <;> obtain rfl := List.mem_singleton.1 hf
  · exact .empty
  · exact fun p hp => absurd hp (Array.not_mem_empty p)

theorem alike (h : s.Tabled) : s.Alike (tablesFrom s) False s := by
  refine GenState.alike_self_iff.2 ⟨trivial, fun n f hf => ?_⟩
  have hmem := List.mem_of_getElem? hf
  have hlines (ls : Array Int) : LinesAlike (tablesFrom s) ls ls := ⟨rfl, fun _ _ _ => trivial⟩
  constructor <;> try rfl
  · exact hlines _
  · refine ⟨h.isTable f hmem, fun g hg => ?_⟩
    rw [hf] at hg
    cases hg
    exact List.prefix_refl _
  · refine List.forall₂_same.2 fun p hp => List.forall₂_same.2 fun q hq => ⟨hlines _, s.functions.length, ?_⟩
    obtain ⟨places, hq⟩ := h.finished f hmem p (Array.mem_toList_iff.1 hp) q hq
    exact ⟨places, hq, by simp⟩

theorem step {m : Gen α} (h : s.Tabled) (hm : Gen.Blind (tablesFrom s) m) (hrun : m s = .ok (a, t)) :
    t.Tabled ∧ s.TablesGrown t := by
  have hagree := hm.run s s h.alike
  rw [hrun] at hagree
  obtain ⟨_, heq, -, ht⟩ := hagree.of_ok
  cases heq
  have hfn := (GenState.alike_self_iff.1 ht).2
  refine ⟨⟨fun f hf => ?_, fun f hf p hp q hq => ?_⟩, fun n f g hf hg => (hfn n g hg).table.2 f hf⟩
  · obtain ⟨n, hn⟩ := List.mem_iff_getElem?.1 hf
    exact (hfn n f hn).table.1
  · obtain ⟨n, hn⟩ := List.mem_iff_getElem?.1 hf
    have hp' := List.forall₂_same.1 (hfn n f hn).nested p (Array.mem_toList_iff.2 hp)
    obtain ⟨-, -, places, hq', -⟩ := List.forall₂_same.1 hp' q hq
    exact ⟨places, hq'⟩

end GenState.Tabled

/-! ## Operations -/

namespace Gen

/-- The operations on a function under construction. -/
inductive Operation : {α : Type} → Gen α → Prop
  | close : Operation closeFunction
  | onLine (n : Int) : Operation (onLine n)
  | moveLastToLine (n : Int) : Operation (moveLastToLine n)
  | enterScope (isLoop : Bool) : Operation (enterScope isLoop)
  | leaveScope : Operation leaveScope
  | addGoto (name : Bytes) (line : Int) (l : JumpList) : Operation (addGoto name line l)
  | defineLabel (name : Bytes) (line : Int) (isLast : Bool) : Operation (defineLabel name line isLast)
  | newLocal (name : Bytes) : Operation (newLocal name)
  | activate (n : Int) : Operation (activate n)
  | reserve (n : Int) : Operation (reserve n)
  | ensureRegisters (n : Int) : Operation (ensureRegisters n)
  | emitNils (first n : Int) : Operation (emitNils first n)
  | ret (first n : Int) : Operation (ret first n)
  | storeItems (base count n : Int) : Operation (storeItems base count n)
  | internConstant (v : Constant) : Operation (internConstant v)
  | stringOperand (s : Bytes) : Operation (stringOperand s)
  | namedVariable (name : Bytes) : Operation (namedVariable name)
  | declareUpvalue (name : Bytes) (isLocal : Bool) (index : Int) : Operation (declareUpvalue name isLocal index)
  | makeUpvalue (name : Bytes) : Operation (makeUpvalue name)
  | jump : Operation jump
  | jumpBackTo (target : Int) : Operation (jumpBackTo target)
  | concat (l1 l2 : JumpList) : Operation (concat l1 l2)
  | listHead (l : JumpList) : Operation (listHead l)
  | aimAt (l : JumpList) (target : Int) : Operation (aimAt l target)
  | closeOnJump (l : JumpList) (level : Int) : Operation (closeOnJump l level)
  | aimHere (l : JumpList) : Operation (aimHere l)
  | label : Operation label
  | giveResults (e : Operand) (n : Int) : Operation (giveResults e n)
  | giveAll (e : Operand) : Operation (giveAll e)
  | giveOne (e : Operand) : Operation (giveOne e)
  | discharge (e : Operand) : Operation (discharge e)
  | toNextRegister (e : Operand) : Operation (toNextRegister e)
  | toAnyRegister (e : Operand) : Operation (toAnyRegister e)
  | toAnyRegisterOrUpvalue (e : Operand) : Operation (toAnyRegisterOrUpvalue e)
  | toValue (e : Operand) : Operation (toValue e)
  | continueIfTrue (e : Operand) : Operation (continueIfTrue e)
  | continueIfFalse (e : Operand) : Operation (continueIfFalse e)
  | toRK (e : Operand) : Operation (toRK e)
  | store (v e : Operand) : Operation (store v e)
  | method (e key : Operand) : Operation (method e key)
  | indexed (t k : Operand) : Operation (indexed t k)
  | unary (op : UnaryOp) (e : Operand) (line : Int) : Operation (unary op e line)
  | prepareLeft (op : BinaryOp) (e : Operand) : Operation (prepareLeft op e)
  | binary (op : BinaryOp) (e1 e2 : Operand) (line : Int) : Operation (binary op e1 e2 line)

theorem Operation.blind {α : Type} {m : Gen α} (h : Operation m) (s : GenState) : Blind (tablesFrom s) m := by
  have hline : ∀ n n' : Int, tablesFrom s n n' := fun _ _ => trivial
  cases h <;> simp [hline, alike_addGoto, alike_defineLabel, alike_unary, alike_binary]

/-- One operation on the function under construction, a new function inside it, or another of the open
functions put under construction. -/
inductive Moves : GenState → GenState → Prop
  | operation {α : Type} {m : Gen α} {a : α} {s t : GenState} : Operation m → m s = .ok (a, t) → Moves s t
  | opening {line : Int} {s t : GenState} : openFunction line s = .ok ((), t) → Moves s t
  | focus (s : GenState) (k : Nat) : Moves s (s.focus k)

theorem Moves.tabled {s t : GenState} (h : Moves s t) (hs : s.Tabled) : t.Tabled ∧ s.TablesGrown t := by
  cases h with
  | operation hm hrun => exact hs.step (hm.blind s) hrun
  | @opening line _ _ hrun =>
    rw [run_openFunction] at hrun
    split at hrun
    · rename_i hinner
      rw [List.isEmpty_iff] at hinner
      set u : GenState := { s with outer := s.fn :: s.outer, fn := { level := s.outer.length + 1, line := line } } with hu
      have hall : u.functions = s.functions ++ [u.fn] := by
        simp [GenState.functions, hu, hinner]
      have hfresh : u.Tabled := by
        constructor <;> rintro f hf <;> rw [hall, List.mem_append, List.mem_singleton] at hf <;>
          rcases hf with hf | rfl
        · exact hs.isTable f hf
        · exact .empty
        · exact hs.finished f hf
        · simp [hu]
      obtain ⟨ht, hgrown⟩ := hfresh.step (alike_enterScope false) hrun
      refine ⟨ht, fun n f g hf hg => hgrown n f g ?_ hg⟩
      rw [hall, List.getElem?_append_left (List.getElem?_eq_some_iff.1 hf).1, hf]
    · cases hrun
  | focus _ k =>
    have hsame := s.functions_focus k
    refine ⟨⟨hsame ▸ hs.isTable, hsame ▸ hs.finished⟩, fun n f g hf hg => ?_⟩
    rw [hsame, hf] at hg
    cases hg
    exact List.prefix_refl _

end Gen

open Gen Relation

theorem tabled_of_moves {source : Bytes} {s : GenState} (h : ReflTransGen Moves (.initial source) s) : s.Tabled := by
  induction h with
  | refl => exact .initial source
  | tail _ hstep ih => exact (hstep.tabled ih).1

theorem prefix_of_moves {s t : GenState} {n : Nat} {f g : Func} (hs : s.Tabled)
    (h : ReflTransGen (fun a b => Moves a b ∧ n < a.functions.length) s t) (hf : s.functions[n]? = some f)
    (hg : t.functions[n]? = some g) : f.constants.toList <+: g.constants.toList := by
  have hrun (u : GenState) (hu : ReflTransGen (fun a b => Moves a b ∧ n < a.functions.length) s u) : u.Tabled := by
    induction hu with
    | refl => exact hs
    | tail _ hstep ih => exact (hstep.1.tabled ih).1
  induction h generalizing g with
  | refl =>
    rw [hf] at hg
    cases hg
    exact List.prefix_refl _
  | @tail u v hu hstep ih =>
    have hw := List.getElem?_eq_getElem hstep.2
    exact (ih hw).trans ((hstep.1.tabled (hrun u hu)).2 n _ g hw hg)

theorem GenState.Tabled.internConstant {s t : GenState} (hs : s.Tabled) {v : Constant} {k : Int}
    (h : internConstant v s = .ok (k, t)) :
    ∃ (n : Nat) (c : Constant), k = n ∧ t.fn.constants[n]? = some c ∧ c.same v = true ∧
      ((∃ d ∈ s.fn.constants, d.same v = true) ∧ t = s ∨
        (¬ ∃ d ∈ s.fn.constants, d.same v = true) ∧ t.fn.constants = s.fn.constants.push v) := by
  have htable := hs.isTable s.fn (by simp [functions])
  rw [run_internConstant] at h
  cases hk : s.fn.constantPlaces[v.key]? with
  | some n =>
    rw [hk] at h
    cases h
    obtain ⟨c, hc, hkey⟩ := (htable v.key n).1 hk
    have hsame : c.same v = true := by simpa [Constant.same] using hkey
    exact ⟨n, c, rfl, hc, hsame, .inl ⟨⟨c, Array.mem_of_getElem? hc, hsame⟩, rfl⟩⟩
  | none =>
    rw [hk] at h
    generalize limit _ _ _ s = r at h
    cases r with
    | error e => cases h
    | ok r =>
      cases h
      exact ⟨_, v, rfl, by simp, by simp [Constant.same], .inr ⟨htable.place_eq_none_iff.1 hk, rfl⟩⟩

theorem allDistinct_of_compile {source name : Bytes} {strip : Bool} {p q : Proto}
    (h : compile source name strip = .ok p) (hq : q ∈ p.walk) : AllDistinct q.constantArray := by
  obtain ⟨r, hrun, rfl⟩ := chunk_of_compile h
  have hfresh (n : Nat) : (tablesFrom (.initial [])).table n #[] ∅ := by
    refine ⟨.empty, fun f hf => ?_⟩
    obtain rfl := List.mem_singleton.1 (List.mem_of_getElem? hf)
    exact List.prefix_refl _
  have hagree := chunk_agree_mapLines (L := tablesFrom (.initial [])) ⟨id, fun _ => trivial, trivial, hfresh⟩
    (readChunk source) (if name.isEmpty then source else name) []
  rw [hrun] at hagree
  obtain ⟨r', -, -, halike⟩ := hagree.of_ok
  have hall : ∀ q ∈ r.1.walk, AllDistinct q.constantArray := by
    intro q hq
    obtain ⟨i, rfl⟩ := List.get_of_mem hq
    obtain ⟨hlen, hget⟩ := List.forall₂_iff_get.1 halike
    obtain ⟨-, -, places, htable, -⟩ := hget i i.2 (hlen ▸ i.2)
    exact htable.allDistinct
  cases strip with
  | false => exact hall q hq
  | true =>
    rw [if_pos rfl, Proto.walk_strip, List.mem_map] at hq
    obtain ⟨q, hq, rfl⟩ := hq
    rw [Proto.constantArray_strip]
    exact hall q hq

/-- In every state that operations reach, the constants of each open function are distinct and the
places are those of their keys. A table changes only by growing at its end while its function is open,
and a constant is added just if none is the same. So the constants of compiled functions are distinct;
numbers are the same if they have the same bits. -/
theorem constantTables_spec :
    (∀ (source : Bytes) (s : GenState), ReflTransGen Moves (.initial source) s →
      (∀ f ∈ s.functions, AllDistinct f.constants ∧ IsTable f.constants f.constantPlaces) ∧
      (∀ (t : GenState) (n : Nat) (f g : Func),
        ReflTransGen (fun a b => Moves a b ∧ n < a.functions.length) s t →
        s.functions[n]? = some f → t.functions[n]? = some g → f.constants.toList <+: g.constants.toList) ∧
      ∀ (v : Constant) (k : Int) (t : GenState), internConstant v s = .ok (k, t) →
        ∃ (n : Nat) (c : Constant), k = n ∧ t.fn.constants[n]? = some c ∧ c.same v = true ∧
          ((∃ d ∈ s.fn.constants, d.same v = true) ∧ t = s ∨
            (¬ ∃ d ∈ s.fn.constants, d.same v = true) ∧ t.fn.constants = s.fn.constants.push v)) ∧
    (∀ (source name : Bytes) (strip : Bool) (p : Proto), compile source name strip = .ok p →
      ∀ q ∈ p.walk, AllDistinct q.constantArray) ∧
    ∀ x y : Number, (Constant.number x).same (.number y) = true ↔ x.bits = y.bits := by
  refine ⟨fun source s h => ?_, fun source name strip p h q hq => allDistinct_of_compile h hq, ?_⟩
  · have hs := tabled_of_moves h
    refine ⟨fun f hf => ⟨(hs.isTable f hf).allDistinct, hs.isTable f hf⟩, fun t n f g ht hf hg => ?_, fun v k t ht => ?_⟩
    · exact prefix_of_moves hs ht hf hg
    · exact hs.internConstant ht
  · simp [Constant.same, Constant.key, Constant.record]

theorem Gen.run_internConstant_new {v : Constant} {s : GenState} (h : s.fn.constantPlaces[v.key]? = none)
    (hsize : (s.fn.constants.size : Int) + 1 ≤ maxConstants) : ∃ t,
      internConstant v s = .ok (s.fn.constants.size, t) ∧ t.fn.constants = s.fn.constants.push v ∧
        t.fn.constantPlaces = s.fn.constantPlaces.insert v.key s.fn.constants.size := by
  rw [run_internConstant, h, limit, if_neg (by omega)]
  exact ⟨_, rfl, rfl, rfl⟩

/-- Zero and minus zero are two constants, and zero is not added again. -/
theorem constantTables_zeros : ∃ s t : GenState,
    internConstant (.number .zero) (.initial []) = .ok (0, s) ∧
      internConstant (.number ⟨0x8000000000000000⟩) s = .ok (1, t) ∧
      internConstant (.number .zero) t = .ok (0, t) ∧
      t.fn.constants = #[.number .zero, .number ⟨0x8000000000000000⟩] ∧ AllDistinct t.fn.constants := by
  have hkeys : (Constant.number .zero).key ≠ (Constant.number ⟨0x8000000000000000⟩).key := by decide
  obtain ⟨s, hs, hone, hplace⟩ := run_internConstant_new (v := .number .zero) (s := .initial [])
    Std.HashMap.getElem?_empty (by decide)
  obtain ⟨t, ht, htwo, hplaces⟩ := run_internConstant_new (v := .number ⟨0x8000000000000000⟩) (s := s)
    (by rw [hplace, Std.HashMap.getElem?_insert, if_neg (by simpa using hkeys)]; exact Std.HashMap.getElem?_empty)
    (by rw [hone]; decide)
  rw [hone] at ht htwo
  have hmoves : ReflTransGen Moves (.initial []) t :=
    .tail (.single (.operation (.internConstant _) hs)) (.operation (.internConstant _) ht)
  obtain ⟨htables, -, -⟩ := constantTables_spec.1 [] t hmoves
  refine ⟨s, t, hs, ht, ?_, htwo, (htables t.fn (by simp [GenState.functions])).1⟩
  rw [run_internConstant, hplaces, Std.HashMap.getElem?_insert, if_neg (by simpa using hkeys.symm), hplace,
    Std.HashMap.getElem?_insert, if_pos (by simp)]
  rfl

end RegisterCompiler
