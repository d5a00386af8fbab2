import Mathlib.Data.List.Basic
import RegisterCompiler.Image
import RegisterCompiler.Proofs.CborRoundTrip
import RegisterCompiler.Proofs.FunctionTrees

/-!
# Images that are read back

* `Proto.canonical` : a function with one NaN for all among its constants, at every depth;
* `Proto.Storable` : texts are UTF-8, numbers are words of 64 bits, and lists are as long as the
  decoder allows;
* `Proto.ofCbor?_toCbor` : a function is read back from its record;
* `Image.decode_encode` : a storable function is read back from its image, and has the same image.
-/

namespace RegisterCompiler

/-! ## Fields of records -/

namespace Cbor

variable {fields : List (Nat × Option Cbor)} {α : Type} {one : Cbor → Option α} {enc : α → Cbor}

def entries (fields : List (Nat × Option Cbor)) : List (Int × Cbor) :=
  fields.filterMap fun f => f.2.map ((f.1 : Int), ·)

theorem fieldsFrom_ofFields (h : ∀ f ∈ fields, f.1 < 2 ^ 63) (acc : List (Int × Cbor)) :
    fieldsFrom (fields.filterMap fun f => f.2.map (.uint f.1, ·)) acc = some (acc.reverse ++ entries fields) := by
  induction fields generalizing acc with
  | nil => simp [fieldsFrom, entries]
  | cons f fields ih =>
    obtain ⟨n, v⟩ := f
    have hn : n < 2 ^ 63 := h (n, v) (by simp)
    have ih := ih fun f hf => h f (by simp [hf])
    cases v with
    | none => simpa [entries] using ih acc
    | some v =>
      have hkey : fieldNumber (.uint n) = some (some (n : Int)) := by
        simp [fieldNumber, signed, show n < 0x8000000000000000 from hn]
      simp only [List.filterMap_cons, Option.map_some, fieldsFrom, hkey]
      simpa [entries] using ih ((n, v) :: acc)

theorem record?_ofFields (h : ∀ f ∈ fields, f.1 < 2 ^ 63) : record? (ofFields fields) = some (entries fields) := by
  simpa [record?, ofFields, untagged] using fieldsFrom_ofFields h []

theorem field_entries (hn : (fields.map (·.1)).Nodup) (n : Int) (hpos : 0 ≤ n) (one : Cbor → Option α) :
    field (entries fields) n one = one ((fields.lookup n.toNat).join.getD null) := by
  obtain ⟨n, rfl⟩ := Int.eq_ofNat_of_zero_le hpos
  have hfind : (entries fields).find? (fun f => f.1 == (n : Int)) =
      (fields.lookup n).join.map ((n : Int), ·) := by
    induction fields with
    | nil => rfl
    | cons f fields ih =>
      obtain ⟨k, v⟩ := f
      obtain ⟨hnot, hn⟩ := List.nodup_cons.1 hn
      by_cases hk : k = n
      · subst hk
        cases v with
        | some v => simp [entries]
        | none =>
          simp only [entries, List.filterMap_cons, Option.map_none, List.lookup_cons, beq_self_eq_true,
            Option.join_some, List.find?_eq_none, List.mem_filterMap, Option.map_eq_some_iff,
            beq_iff_eq]
          rintro _ ⟨f, hf, w, -, rfl⟩ heq
          exact hnot (List.mem_map.2 ⟨f, hf, Int.ofNat.inj heq⟩)
      · have hkey : ((k : Int) == (n : Int)) = false := by simpa using hk
        have hkey' : (n == k) = false := by simpa using Ne.symm hk
        rw [List.lookup_cons, hkey', ← ih hn]
        cases v <;> simp [entries, hkey]
  unfold field
  rw [hfind, Int.toNat_natCast]
  cases (fields.lookup n).join <;> rfl

/-! ## Values -/

/-- A word of 64 bits. -/
def IsWord (n : Int) : Prop :=
  -0x8000000000000000 ≤ n ∧ n < 0x8000000000000000

def IsText (s : Bytes) : Prop :=
  Utf8.valid s = true ∧ s.length < 0x8000000000000000

instance (n : Int) : Decidable (IsWord n) :=
  inferInstanceAs (Decidable (_ ∧ _))

instance (s : Bytes) : Decidable (IsText s) :=
  inferInstanceAs (Decidable (_ ∧ _))

theorem int?_ofInt {n : Int} (h : IsWord n) : int? (ofInt n) = some n := by
  unfold IsWord at h
  unfold ofInt
  split
  · have hlt : (-1 - n).toNat < 0x8000000000000000 := by omega
    simp only [int?, untagged, Option.bind_eq_bind, Option.bind_some, if_pos hlt, Option.some.injEq]
    omega
  · have hlt : n.toNat < 0x8000000000000000 := by omega
    simp only [int?, untagged, Option.bind_eq_bind, Option.bind_some, if_pos hlt, Option.some.injEq]
    omega

theorem nat?_uint {bound n : Nat} (h : n < bound) (hn : n < 0x8000000000000000) : nat? bound (.uint n) = some n := by
  simp [nat?, int?, untagged, hn, h]

theorem bool?_ofBool (b : Bool) : bool? (ofBool b) = some b := by
  cases b <;> rfl

theorem text?_ofText? (s : Bytes) : text? ((ofText? s).getD null) = some s := by
  cases s <;> rfl

theorem listFrom_map {xs : List α} (h : ∀ x ∈ xs, one (enc x) = some x) (acc : List α) :
    listFrom one (xs.map enc) acc = some (acc.reverse ++ xs) := by
  induction xs generalizing acc with
  | nil => simp [listFrom]
  | cons x xs ih =>
    simp only [List.map_cons, listFrom, h x (by simp), Option.bind_eq_bind, Option.bind_some]
    simpa using ih (fun y hy => h y (by simp [hy])) (x :: acc)

theorem list?_array {xs : List α}
    (h : ∀ x ∈ xs, one (enc x) = some x) : list? one (.array (xs.map enc)) = some (some xs) := by
  simp [list?, untagged, listFrom_map h]

theorem list?_ofList? {xs : Option (List α)}
    (h : ∀ x ∈ xs.getD [], one (enc x) = some x) : list? one (ofList? enc xs) = some xs := by
  cases xs with
  | none => rfl
  | some xs => exact list?_array h

end Cbor

open Cbor

/-! ## Constants, upvalues and local variables -/

namespace Constant

theorem ofRecord_record (v : Constant) : ofRecord v.record = v := by
  cases v with
  | other r => exact dif_neg r.2
  | _ => simp [ofRecord, record]

theorem record_ofRecord (r : Record) : (ofRecord r).record = r := by
  unfold ofRecord
  split
  · rename_i h
    obtain ⟨kind, truth, number, text⟩ := r
    obtain ⟨hkind, htruth, hnumber, htext⟩ := h
    obtain rfl | rfl | rfl | rfl : kind = 0 ∨ kind = 1 ∨ kind = 2 ∨ kind = 3 := by
      simp only [UInt8.le_iff_toNat_le, ← UInt8.toNat_inj, UInt8.toNat_ofNat] at hkind ⊢
      omega
    all_goals simp_all [record]
  · rfl

theorem Record.ofCbor?_toCbor (r : Record) : ofCbor? r.toCbor = some r := by
  have hkind : nat? 256 (.uint r.kind.toNat) = some r.kind.toNat :=
    nat?_uint r.kind.toNat_lt (r.kind.toNat_lt.trans (by decide))
  rw [ofCbor?, toCbor, record?_ofFields (by simp)]
  simp only [Option.bind_eq_bind, Option.bind_some]
  rw [field_entries (by simp) 1 (by decide), field_entries (by simp) 2 (by decide),
    field_entries (by simp) 3 (by decide), field_entries (by simp) 4 (by decide)]
  have htruth : bool? ((if r.truth then some (ofBool true) else none).getD null) = some r.truth := by
    cases r.truth <;> rfl
  simp [List.lookup_cons, hkind, htruth, text?_ofText?, number?, untagged]

theorem ofCbor?_toCbor (v : Constant) : ofCbor? v.toCbor = some v := by
  rw [ofCbor?, toCbor, Record.ofCbor?_toCbor, Option.map_some, ofRecord_record]

end Constant

theorem Upvalue.ofCbor?_toCbor {u : Upvalue} (h : IsWord u.index) : ofCbor? u.toCbor = some u := by
  rw [ofCbor?, toCbor, record?_ofFields (by simp)]
  simp only [Option.bind_eq_bind, Option.bind_some]
  rw [field_entries (by simp) 1 (by decide), field_entries (by simp) 2 (by decide),
    field_entries (by simp) 3 (by decide)]
  simp [List.lookup_cons, text?_ofText?, bool?_ofBool, int?_ofInt h]

theorem LocalVar.ofCbor?_toCbor {v : LocalVar} (hs : IsWord v.startPC) (he : IsWord v.endPC) :
    ofCbor? v.toCbor = some v := by
  rw [ofCbor?, toCbor, record?_ofFields (by simp)]
  simp only [Option.bind_eq_bind, Option.bind_some]
  rw [field_entries (by simp) 1 (by decide), field_entries (by simp) 2 (by decide),
    field_entries (by simp) 3 (by decide)]
  simp [List.lookup_cons, text?, untagged, int?_ofInt hs, int?_ofInt he]

/-! ## Functions -/

/-- The constant with the canonical NaN if there is any in its record. -/
def Constant.canonical (v : Constant) : Constant :=
  ofRecord { v.record with number := v.record.number.canonical }

theorem Constant.record_canonical (v : Constant) :
    v.canonical.record = { v.record with number := v.record.number.canonical } :=
  record_ofRecord _

namespace Proto

mutual

/-- The function with the canonical NaN for every NaN among the constants, at every depth. -/
def canonical : Proto → Proto
  | ⟨source, line, lastLine, params, isVararg, stack, code, constants, protos, upvalues, lines,
      locals⟩ =>
    ⟨source, line, lastLine, params, isVararg, stack, code, constants.map (·.map Constant.canonical),
      canonicalProtos protos, upvalues, lines, locals⟩

def canonicalProtos : Option (List (Option Proto)) → Option (List (Option Proto))
  | none => none
  | some ps => some (canonicalList ps)

def canonicalList : List (Option Proto) → List (Option Proto)
  | [] => []
  | p :: ps => canonicalChild p :: canonicalList ps

def canonicalChild : Option Proto → Option Proto
  | none => none
  | some p => some (canonical p)

end

theorem canonicalProtos_eq (ps : Option (List (Option Proto))) :
    canonicalProtos ps = ps.map (·.map canonicalChild) := by
  have hlist (ps : List (Option Proto)) : canonicalList ps = ps.map canonicalChild := by
    induction ps with
    | nil => rfl
    | cons p ps ih => rw [canonicalList, ih, List.map_cons]
  cases ps with
  | none => rfl
  | some ps => rw [canonicalProtos, hlist, Option.map_some]

/-- A function that images can hold, those inside it apart. -/
structure Storable (p : Proto) : Prop where
  source : IsText p.source
  line : IsWord p.line
  lastLine : IsWord p.lastLine
  params : IsWord p.params
  stack : IsWord p.stack
  code : p.codeArray.size ≤ maxMembers
  constants : p.constantArray.size ≤ maxMembers
  texts : ∀ v ∈ p.constantArray, IsText v.record.text
  protos : p.children.length ≤ maxMembers
  upvalues : p.upvalueList.length ≤ maxMembers
  upvalue : ∀ u ∈ p.upvalueList, IsText u.name ∧ IsWord u.index
  lines : p.lines.size ≤ maxMembers
  lineWord : ∀ n ∈ p.lines, IsWord n
  locals : p.locals.length ≤ maxMembers
  localVar : ∀ v ∈ p.locals, IsText v.name ∧ IsWord v.startPC ∧ IsWord v.endPC

/-! ## Reading functions -/

def childOf? (levels : Nat) (x : Cbor) : Option (Option Proto) :=
  if x.isNull then some none else (ofCbor? levels x).map some

theorem childrenToCbor_eq (ps : List (Option Proto)) : childrenToCbor ps = ps.map childToCbor := by
  induction ps with
  | nil => rfl
  | cons p ps ih => rw [childrenToCbor, ih, List.map_cons]

theorem protosToCbor_eq (ps : Option (List (Option Proto))) : protosToCbor ps = ofList? childToCbor ps := by
  cases ps with
  | none => rfl
  | some ps => rw [protosToCbor, childrenToCbor_eq, ofList?]

end Proto

namespace Cbor

theorem Fits.of_ofFields {l : Nat} {fields : List (Nat × Option Cbor)} (h : Fits l (ofFields fields)) :
    ∃ k, l = k + 1 ∧ ∀ n v, (n, some v) ∈ fields → Fits k v := by
  cases h with
  | map _ _ hvalues =>
    refine ⟨_, rfl, fun n v hv => hvalues (.uint n, v) ?_⟩
    exact List.mem_filterMap.2 ⟨(n, some v), hv, rfl⟩

theorem Fits.of_ofList? {α : Type} {l : Nat} {enc : α → Cbor} {xs : List α}
    (h : Fits l (ofList? enc (some xs))) : ∃ k, l = k + 1 ∧ ∀ x ∈ xs, Fits k (enc x) := by
  cases h with
  | array _ hs => exact ⟨_, rfl, fun x hx => hs _ (List.mem_map_of_mem hx)⟩

end Cbor

namespace Proto

theorem list?_code (code : Option (Array Instr)) :
    (list? (nat? 0x100000000) (listOf (fun i => .uint i.word.toNat) code)).map
      (·.map fun ws => (ws.map fun w => (⟨UInt32.ofNat w⟩ : Instr)).toArray) = some code := by
  cases code with
  | none => rfl
  | some code =>
    have hlist : list? (nat? 0x100000000) (.array ((code.toList.map fun i => i.word.toNat).map .uint)) =
        some (some (code.toList.map fun i => i.word.toNat)) := by
      refine list?_array fun n hn => ?_
      obtain ⟨i, -, rfl⟩ := List.mem_map.1 hn
      have := i.word.toNat_lt
      exact nat?_uint this (by omega)
    rw [List.map_map] at hlist
    show (list? (nat? 0x100000000) (.array (code.toList.map fun i => .uint i.word.toNat))).map _ = _
    rw [show (fun i : Instr => Cbor.uint i.word.toNat) = Cbor.uint ∘ fun i => i.word.toNat from rfl, hlist]
    simp [Function.comp_def]

theorem list?_constants (constants : Option (Array Constant)) :
    (list? Constant.ofCbor? (listOf Constant.toCbor constants)).map (·.map (·.toArray)) = some constants := by
  rw [listOf, list?_ofList? fun v _ => v.ofCbor?_toCbor]
  cases constants <;> simp

theorem list?_unlessEmpty {α : Type} {one : Cbor → Option α} {f : α → Cbor} {xs : List α}
    (h : ∀ x ∈ xs, one (f x) = some x) :
    ∃ ys, list? one ((if xs.isEmpty then none else some (ofList? f (some xs))).getD null) = some ys ∧
      ys.getD [] = xs := by
  cases xs with
  | nil => exact ⟨none, rfl, rfl⟩
  | cons x xs =>
    have hlist : list? one (ofList? f (some (x :: xs))) = some (some (x :: xs)) := list?_ofList? h
    exact ⟨_, hlist, rfl⟩

theorem isNull_toCbor (p : Proto) : p.toCbor.isNull = false := by
  cases p
  rfl

theorem ofCbor?_toCbor (p : Proto) : (∀ q ∈ p.walk, q.Storable) → ∀ {l k : Nat}, Fits l p.toCbor → l ≤ k →
    ofCbor? k p.toCbor = some p := by
  induction p using induction_children with
  | h p ih =>
    intro hp l k hf hk
    have hs := hp p (mem_walk_self p)
    have hsub {q r : Proto} (hq : some q ∈ p.children) (hr : r ∈ q.walk) := hp r (mem_walk_child hq hr)
    obtain ⟨source, line, lastLine, params, isVararg, stack, code, constants, protos, upvalues, lines, locals⟩ := p
    rw [toCbor] at hf ⊢
    obtain ⟨l, rfl, hfields⟩ := hf.of_ofFields
    obtain ⟨k, rfl⟩ : ∃ n, k = n + 1 := ⟨k - 1, by omega⟩
    have hprotos : list? (childOf? k) (protosToCbor protos) = some protos := by
      have hfit := hfields 9 (protosToCbor protos) (by simp)
      rw [protosToCbor_eq] at hfit ⊢
      refine list?_ofList? fun x hx => ?_
      cases protos with
      | none => cases hx
      | some ps =>
        obtain ⟨l, rfl, hchildren⟩ := hfit.of_ofList?
        cases x with
        | none => rfl
        | some q =>
          rw [childToCbor, childOf?, q.isNull_toCbor, ih q hx (fun r => hsub hx) (hchildren _ hx) (by omega)]
          rfl
    obtain ⟨ns, hlines, hlines'⟩ := list?_unlessEmpty (f := .ofInt) fun n hn =>
      int?_ofInt (hs.lineWord n (Array.mem_toList_iff.1 hn))
    rw [Array.isEmpty_toList] at hlines
    obtain ⟨vs, hlocals, hlocals'⟩ := list?_unlessEmpty fun v hv =>
      LocalVar.ofCbor?_toCbor (hs.localVar v hv).2.1 (hs.localVar v hv).2.2
    have hupvalues : list? Upvalue.ofCbor? (ofList? Upvalue.toCbor upvalues) = some upvalues :=
      list?_ofList? fun u hu => Upvalue.ofCbor?_toCbor (hs.upvalue u hu).2
    have hcode := list?_code code
    have hconstants := list?_constants constants
    simp only [Option.map_eq_some_iff] at hcode hconstants
    obtain ⟨is, hcode, hcode'⟩ := hcode
    obtain ⟨cs, hconstants, hconstants'⟩ := hconstants
    rw [ofCbor?, record?_ofFields (by simp)]
    generalize hset : [(1, some (Cbor.text source)), _, _, _, _, _, _, _, _, _, _, _] = fields
    have hnodup : (fields.map (·.1)).Nodup := by simp [← hset]
    have hfield {α β : Type} {k : α → Option β} {b : β} (n : Int) (v : Cbor) (one : Cbor → Option α) {a : α}
        (hn : 0 ≤ n) (hv : (fields.lookup n.toNat).join.getD null = v) (ha : one v = some a) (hk : k a = some b) :
        (field (entries fields) n one).bind k = some b := by
      rw [field_entries hnodup n hn one, hv, ha, Option.bind_some, hk]
    refine Option.bind_eq_some_iff.2 ⟨_, rfl, ?_⟩
    refine hfield 1 (.text source) text? (by decide) (hset ▸ rfl) rfl ?_
    refine hfield 2 (.ofInt line) int? (by decide) (hset ▸ rfl) (int?_ofInt hs.line) ?_
    refine hfield 3 (.ofInt lastLine) int? (by decide) (hset ▸ rfl) (int?_ofInt hs.lastLine) ?_
    refine hfield 4 (.ofInt params) int? (by decide) (hset ▸ rfl) (int?_ofInt hs.params) ?_
    refine hfield 5 (.ofBool isVararg) bool? (by decide) (hset ▸ rfl) (bool?_ofBool isVararg) ?_
    refine hfield 6 (.ofInt stack) int? (by decide) (hset ▸ rfl) (int?_ofInt hs.stack) ?_
    refine hfield 7 (listOf (fun i : Instr => .uint i.word.toNat) code) (list? (nat? 0x100000000)) (by decide) (hset ▸ rfl) hcode ?_
    refine hfield 8 (listOf Constant.toCbor constants) (list? Constant.ofCbor?) (by decide) (hset ▸ rfl) hconstants ?_
    refine hfield 9 (protosToCbor protos) (list? (childOf? k)) (by decide) (hset ▸ rfl) hprotos ?_
    refine hfield 10 (ofList? Upvalue.toCbor upvalues) (list? Upvalue.ofCbor?) (by decide) (hset ▸ rfl) hupvalues ?_
    refine hfield 11 _ (list? int?) (by decide) (hset ▸ rfl) hlines ?_
    refine hfield 12 _ (list? LocalVar.ofCbor?) (by decide) (hset ▸ rfl) hlocals ?_
    rw [hcode', hconstants', hlines', hlocals']
    rfl

end Proto

/-! ## Depth -/

namespace Cbor

mutual

/-- How deeply an item nests: arrays, maps and tags take a level each. -/
def depth : Cbor → Nat
  | .array xs => depthOfItems xs + 1
  | .map ps => depthOfPairs ps + 1
  | .tag _ x => depth x + 1
  | .uint _ | .negative _ | .blob _ | .text _ | .badText | .simple _ | .float _ => 0

def depthOfItems : List Cbor → Nat
  | [] => 0
  | x :: xs => max (depth x) (depthOfItems xs)

def depthOfPairs : List (Cbor × Cbor) → Nat
  | [] => 0
  | p :: ps => max (depthOfPair p) (depthOfPairs ps)

def depthOfPair : Cbor × Cbor → Nat
  | (key, value) => max (depth key) (depth value)

end

variable {l : Nat}

theorem depth_le_of_mem {x : Cbor} {xs : List Cbor} (h : x ∈ xs) : x.depth ≤ depthOfItems xs := by
  induction xs with
  | nil => cases h
  | cons y xs ih =>
    rcases List.mem_cons.1 h with rfl | h
    · exact Nat.le_max_left ..
    · exact (ih h).trans (Nat.le_max_right ..)

theorem depthOfPair_le_of_mem {p : Cbor × Cbor} {ps : List (Cbor × Cbor)} (h : p ∈ ps) :
    depthOfPair p ≤ depthOfPairs ps := by
  induction ps with
  | nil => cases h
  | cons q ps ih =>
    rcases List.mem_cons.1 h with rfl | h
    · exact Nat.le_max_left ..
    · exact (ih h).trans (Nat.le_max_right ..)

theorem depth_ofFields (fields : List (Nat × Option Cbor)) :
    (ofFields fields).depth = depthOfPairs (fields.filterMap fun f => f.2.map (.uint f.1, ·)) + 1 :=
  rfl

theorem depth_lt_of_field {fields : List (Nat × Option Cbor)} {n : Nat} {v : Cbor}
    (h : (n, some v) ∈ fields) : v.depth < (ofFields fields).depth := by
  have hmem : ((.uint n, v) : Cbor × Cbor) ∈ fields.filterMap fun f => f.2.map (.uint f.1, ·) :=
    List.mem_filterMap.2 ⟨_, h, rfl⟩
  have := depthOfPair_le_of_mem hmem
  rw [depthOfPair] at this
  rw [depth_ofFields]
  omega

/-! ## Records that fit -/

theorem Fits.ofFields {fields : List (Nat × Option Cbor)} (hlen : fields.length ≤ maxMembers)
    (hkey : ∀ f ∈ fields, f.1 < 0x10000000000000000) (hv : ∀ n v, (n, some v) ∈ fields → Fits l v) :
    Fits (l + 1) (Cbor.ofFields fields) := by
  have hmem : ∀ p ∈ fields.filterMap fun f => f.2.map (Cbor.uint f.1, ·),
      ∃ n v, (n, some v) ∈ fields ∧ p = (.uint n, v) := by
    intro p hp
    obtain ⟨⟨n, o⟩, hf, ho⟩ := List.mem_filterMap.1 hp
    obtain ⟨v, rfl, rfl⟩ := Option.map_eq_some_iff.1 ho
    exact ⟨n, v, hf, rfl⟩
  refine .map ((List.length_filterMap_le ..).trans hlen) (fun p hp => ?_) fun p hp => ?_
  · obtain ⟨n, v, hf, rfl⟩ := hmem p hp
    exact .uint (hkey _ hf)
  · obtain ⟨n, v, hf, rfl⟩ := hmem p hp
    exact hv n v hf

theorem Fits.ofInt {n : Int} (h : IsWord n) : Fits l (Cbor.ofInt n) := by
  unfold IsWord at h
  unfold Cbor.ofInt
  split
  · exact .negative (by omega)
  · exact .uint (by omega)

theorem Fits.ofBool (b : Bool) : Fits l (Cbor.ofBool b) :=
  .simple (by cases b <;> decide)

theorem Fits.of_isText {s : Bytes} (h : IsText s) : Fits l (.text s) :=
  .text (h.2.trans (by decide)) h.1

theorem Fits.of_ofText? {s : Bytes} {v : Cbor} (hs : IsText s) (h : ofText? s = some v) : Fits l v := by
  unfold ofText? at h
  split at h
  · cases h
  · exact Option.some.inj h ▸ .of_isText hs

theorem Fits.some {x : Cbor} (h : Fits l x) : ∀ v ∈ Option.some x, Fits l v := by
  rintro _ ⟨⟩
  exact h

/-- A record fits at every level that holds it, or another record, if its fields fit one level below. -/
theorem Fits.record {fields fields' : List (Nat × Option Cbor)} (hl : (Cbor.ofFields fields').depth ≤ l)
    (hlen : fields.length ≤ maxMembers) (hkey : ∀ f ∈ fields, f.1 < 0x10000000000000000)
    (hv : ∀ k, l = k + 1 → fields.Forall fun f => ∀ v ∈ f.2, Fits k v) : Fits l (Cbor.ofFields fields) := by
  rw [depth_ofFields] at hl
  obtain ⟨k, rfl⟩ : ∃ k, l = k + 1 := ⟨l - 1, by omega⟩
  exact .ofFields hlen hkey fun n v hf => List.forall_iff_forall_mem.1 (hv k rfl) _ hf v rfl

/-- A list fits if each member fits at every level that holds it; the members may be other than those
that tell the depth. -/
theorem Fits.ofList? {α : Type} {enc enc' : α → Cbor} {xs : Option (List α)}
    (hlen : (xs.getD []).length ≤ maxMembers) (hdepth : (Cbor.ofList? enc xs).depth ≤ l)
    (h : ∀ x ∈ xs.getD [], ∀ k, (enc x).depth ≤ k → Fits k (enc' x)) : Fits l (Cbor.ofList? enc' xs) := by
  cases xs with
  | none => exact .simple (by decide)
  | some xs =>
    rw [Cbor.ofList?, depth] at hdepth
    obtain ⟨k, rfl⟩ : ∃ k, l = k + 1 := ⟨l - 1, by omega⟩
    refine .array (by simpa using hlen) fun y hy => ?_
    obtain ⟨x, hx, rfl⟩ := List.mem_map.1 hy
    exact h x hx k ((depth_le_of_mem (List.mem_map_of_mem hx)).trans (by omega))

end Cbor

/-! ## Records of functions -/

theorem Number.canonical_canonical (x : Number) : x.canonical.canonical = x.canonical := by
  unfold canonical
  by_cases hx : x.isNaN = true
  · rw [if_pos hx]
    rfl
  · rw [if_neg hx, if_neg hx]

theorem Constant.fits_toCbor {v : Constant} {l : Nat} (hl : v.toCbor.depth ≤ l)
    (hs : IsText v.record.text) : Fits l v.canonical.toCbor := by
  rw [toCbor, record_canonical]
  refine .record hl (by simp [maxMembers]) (by simp) fun k _ =>
    ⟨.some (.uint (v.record.kind.toNat_lt.trans (by decide))), fun x hx => ?_,
      .some (.float v.record.number.canonical_canonical), fun x hx => ?_⟩
  · split at hx
    · exact Fits.some (.ofBool true) x hx
    · cases hx
  · exact .of_ofText? hs hx

theorem Upvalue.fits_toCbor {u : Upvalue} {l : Nat} (hl : u.toCbor.depth ≤ l) (hname : IsText u.name)
    (hindex : IsWord u.index) : Fits l u.toCbor :=
  .record hl (by simp [maxMembers]) (by simp) fun _ _ =>
    ⟨fun _ hx => .of_ofText? hname hx, .some (.ofBool _), .some (.ofInt hindex)⟩

theorem LocalVar.fits_toCbor {v : LocalVar} {l : Nat} (hl : v.toCbor.depth ≤ l) (hname : IsText v.name)
    (hs : IsWord v.startPC) (he : IsWord v.endPC) : Fits l v.toCbor :=
  .record hl (by simp [maxMembers]) (by simp) fun _ _ =>
    ⟨.some (.of_isText hname), .some (.ofInt hs), .some (.ofInt he)⟩

namespace Proto

theorem listOf_canonical (constants : Option (Array Constant)) :
    listOf Constant.toCbor (constants.map (·.map Constant.canonical)) =
      ofList? (fun v => v.canonical.toCbor) (constants.map (·.toList)) := by
  cases constants <;> simp [listOf, ofList?]

theorem fits_toCbor (p : Proto) : (∀ q ∈ p.walk, q.Storable) → ∀ {l : Nat}, p.toCbor.depth ≤ l →
    Fits l p.canonical.toCbor := by
  induction p using induction_children with
  | h p ih =>
    intro hp l hl
    have hs := hp p (mem_walk_self p)
    have hsub {q r : Proto} (hq : some q ∈ p.children) (hr : r ∈ q.walk) := hp r (mem_walk_child hq hr)
    obtain ⟨source, line, lastLine, params, isVararg, stack, code, constants, protos, upvalues, lines, locals⟩ := p
    have hdepth {k n : Nat} {v : Cbor} (hk : l = k + 1) (hv : (n, some v) ∈ _) : v.depth ≤ k :=
      Nat.lt_succ_iff.1 ((depth_lt_of_field hv).trans_le (hk ▸ hl))
    refine .record hl (by simp [maxMembers]) (by simp) fun k hk =>
      ⟨.some (.of_isText hs.source), .some (.ofInt hs.line), .some (.ofInt hs.lastLine), .some (.ofInt hs.params),
        .some (.ofBool isVararg), .some (.ofInt hs.stack), .some ?_, .some ?_, .some ?_, .some ?_, fun x hx => ?_,
        fun x hx => ?_⟩
    · have hcode := hs.code
      refine .ofList? (by cases code with
        | none => simp
        | some _ => simpa [codeArray] using hcode)
        (hdepth (n := 7) (v := listOf (fun i => .uint i.word.toNat) code) hk (by simp)) fun i _ k _ => ?_
      exact .uint (i.word.toNat_lt.trans (by decide))
    · have hconstants := hs.constants
      rw [listOf_canonical]
      refine .ofList? (by cases constants with
        | none => simp
        | some _ => simpa [constantArray] using hconstants)
        (hdepth (n := 8) (v := listOf Constant.toCbor constants) hk (by simp)) fun v hv k hk => ?_
      refine Constant.fits_toCbor hk (hs.texts v ?_)
      cases constants with
      | none => cases hv
      | some cs => simpa [constantArray] using hv
    · have hlist : protosToCbor (canonicalProtos protos) = ofList? (fun x => childToCbor (canonicalChild x)) protos := by
        rw [canonicalProtos_eq, protosToCbor_eq]
        cases protos <;> simp [ofList?]
      rw [hlist]
      refine .ofList? hs.protos (hdepth (n := 9) (v := ofList? childToCbor protos) hk (by simp [protosToCbor_eq]))
        fun x hx k hk => ?_
      cases x with
      | none => exact .simple (by decide)
      | some q => exact ih q hx (fun r => hsub hx) hk
    · refine .ofList? hs.upvalues (hdepth (n := 10) (v := ofList? Upvalue.toCbor upvalues) hk (by simp))
        fun u hu k hk => ?_
      exact Upvalue.fits_toCbor hk (hs.upvalue u hu).1 (hs.upvalue u hu).2
    · split at hx
      · cases hx
      case isFalse hlines =>
        cases hx
        refine .ofList? (by simpa using hs.lines)
          (hdepth (n := 11) (v := listOf .ofInt (some lines)) hk (by simp [hlines])) fun n hn k hk => ?_
        exact .ofInt (hs.lineWord n (by simpa using hn))
    · split at hx
      · cases hx
      case isFalse hlocals =>
        cases hx
        refine .ofList? hs.locals
          (hdepth (n := 12) (v := ofList? LocalVar.toCbor (some locals)) hk (by simp [hlocals])) fun v hv k hk => ?_
        obtain ⟨h1, h2, h3⟩ := hs.localVar v hv
        exact LocalVar.fits_toCbor hk h1 h2 h3

/-! ## The canonical function -/

theorem Storable.canonical {p : Proto} (h : p.Storable) : p.canonical.Storable := by
  obtain ⟨source, line, lastLine, params, isVararg, stack, code, constants, protos, upvalues, lines, locals⟩ := p
  rw [Proto.canonical]
  refine { h with constants := ?_, texts := fun v hv => ?_, protos := ?_ }
  · have hconstants := h.constants
    cases constants with
    | none => simp [constantArray]
    | some _ => simpa [constantArray] using hconstants
  · cases constants with
    | none => simp [constantArray] at hv
    | some cs =>
      simp only [constantArray, Option.map_some, Option.getD_some, Array.mem_map] at hv
      obtain ⟨v, hv, rfl⟩ := hv
      rw [Constant.record_canonical]
      exact h.texts v hv
  · have := h.protos
    cases protos with
    | none => simp [children, canonicalProtos]
    | some ps => simpa [children, canonicalProtos_eq] using this

theorem storable_canonical (p : Proto) : (∀ q ∈ p.walk, q.Storable) → ∀ q ∈ p.canonical.walk, q.Storable := by
  induction p using induction_children with
  | h p ih =>
    intro hp q hq
    rcases mem_walk_iff.1 hq with rfl | ⟨c, hc, hq⟩
    · exact (hp p (mem_walk_self p)).canonical
    · have hchildren : p.canonical.children = p.children.map canonicalChild := by
        cases p
        simp only [canonical, children, canonicalProtos_eq]
        rename_i protos _ _ _
        cases protos <;> rfl
      rw [hchildren] at hc
      obtain ⟨x, hx, hxc⟩ := List.mem_map.1 hc
      cases x with
      | none => cases hxc
      | some d =>
        cases hxc
        exact ih d hx (fun r hr => hp r (mem_walk_child hx hr)) q hq

end Proto

/-! ## Encodings of canonical functions -/

namespace Cbor

def recordBytes (fields : List (Nat × Option Bytes)) : Bytes :=
  headBytes 5 (fields.filterMap (·.2)).length ++
    fields.flatMap fun f => (f.2.map (headBytes 0 f.1 ++ ·)).getD []

theorem encode_ofFields (fields : List (Nat × Option Cbor)) :
    (ofFields fields).encode = recordBytes (fields.map fun f => (f.1, f.2.map encode)) := by
  rw [ofFields, encode_map, recordBytes]
  congr 1
  · congr 1
    induction fields with
    | nil => rfl
    | cons f fields ih =>
      obtain ⟨n, v⟩ := f
      cases v <;> simpa using ih
  · induction fields with
    | nil => rfl
    | cons f fields ih =>
      obtain ⟨n, v⟩ := f
      cases v with
      | none => simpa using ih
      | some v => simp [ih, encode_uint]

def listBytes : Option (List Bytes) → Bytes
  | none => null.encode
  | some xs => headBytes 4 xs.length ++ xs.flatten

theorem encode_ofList? {α : Type} (enc : α → Cbor) (xs : Option (List α)) :
    (ofList? enc xs).encode = listBytes (xs.map (·.map fun x => (enc x).encode)) := by
  cases xs with
  | none => rfl
  | some xs =>
    rw [ofList?, encode_array, Option.map_some, listBytes, List.length_map, List.length_map,
      List.flatMap_map, List.flatMap_def]

theorem numberBytes_canonical (x : Number) : numberBytes x.canonical = numberBytes x := by
  unfold Number.canonical
  split
  case isTrue hx =>
    have hshape := (Number.isNaN_iff x).1 hx
    have hnan : Number.notANumber.narrowest = x.narrowest := by
      rw [Number.narrowest, Number.narrowest, hshape, show Number.notANumber.shape = .nan from rfl]
    rw [numberBytes, putNumber, hnan, numberBytes, putNumber]
  case isFalse => rfl

end Cbor

theorem Constant.encode_canonical (v : Constant) : v.canonical.toCbor.encode = v.toCbor.encode := by
  rw [toCbor, record_canonical, toCbor, Record.toCbor, Record.toCbor, encode_ofFields, encode_ofFields]
  simp only [List.map_cons, Option.map_some, encode_float, numberBytes_canonical]

namespace Proto

theorem encode_canonical (p : Proto) : p.canonical.toCbor.encode = p.toCbor.encode := by
  induction p using induction_children with
  | h p ih =>
    obtain ⟨source, line, lastLine, params, isVararg, stack, code, constants, protos, upvalues, lines, locals⟩ := p
    have hconstants : (listOf Constant.toCbor (constants.map (·.map Constant.canonical))).encode =
        (listOf Constant.toCbor constants).encode := by
      rw [listOf_canonical, listOf, encode_ofList?, encode_ofList?]
      simp only [Constant.encode_canonical]
    have hprotos : (protosToCbor (canonicalProtos protos)).encode = (protosToCbor protos).encode := by
      rw [canonicalProtos_eq, protosToCbor_eq, protosToCbor_eq, encode_ofList?, encode_ofList?]
      cases protos with
      | none => rfl
      | some ps =>
        simp only [Option.map_some, List.map_map]
        refine congrArg (fun xs => listBytes (some xs)) (List.map_congr_left fun x hx => ?_)
        cases x with
        | none => rfl
        | some q => exact ih q hx
    rw [canonical, toCbor, toCbor, encode_ofFields, encode_ofFields]
    simp only [List.map_cons, Option.map_some, hconstants, hprotos]

end Proto

/-! ## Images -/

namespace Image

def record (p : Proto) : Cbor :=
  ofFields [(1, some (.ofInt version)), (2, some p.toCbor)]

theorem encode_eq (p : Proto) : encode p = magic ++ (record p).encode := rfl

theorem encode_canonical (p : Proto) : encode p.canonical = encode p := by
  rw [encode_eq, encode_eq, record, record, encode_ofFields, encode_ofFields]
  simp only [List.map_cons, Option.map_some, p.encode_canonical]

theorem fields?_record {p : Proto} (hp : ∀ q ∈ p.walk, q.Storable) {l : Nat} (hf : Fits l p.toCbor)
    (hl : l ≤ maxLevels) : fields? (record p) = some (version, some p) := by
  have hmain : Proto.childOf? maxLevels p.toCbor = some (some p) := by
    rw [Proto.childOf?, p.isNull_toCbor, Proto.ofCbor?_toCbor p hp hf hl]
    rfl
  unfold fields? record
  rw [record?_ofFields (by simp)]
  refine Option.bind_eq_some_iff.2 ⟨_, rfl, ?_⟩
  refine Option.bind_eq_some_iff.2 ⟨version, (field_entries (by simp) 1 (by decide) _).trans rfl, ?_⟩
  exact Option.bind_eq_some_iff.2
    ⟨some p, (field_entries (by simp) 2 (by decide) _).trans hmain, rfl⟩

/-- A function is read back from its image, with one NaN for all, and what is read back has the same
image. Texts have to be UTF-8, and the decoder's limits have to be kept: the record of the function
is one level below that of the image. -/
theorem decode_encode (p : Proto) (hp : ∀ q ∈ p.walk, q.Storable) (hd : p.toCbor.depth < maxLevels) :
    decode (encode p) = .ok p.canonical ∧ encode p.canonical = encode p := by
  refine ⟨?_, encode_canonical p⟩
  have hp' := p.storable_canonical hp
  have hfits : Fits (maxLevels - 1) p.canonical.toCbor := p.fits_toCbor hp (by omega)
  have hrecord : Fits maxLevels (record p.canonical) := by
    refine Fits.ofFields (l := maxLevels - 1) (by simp [maxMembers]) (by simp) fun n v hv => ?_
    simp only [List.mem_cons, Prod.mk.injEq, List.not_mem_nil, or_false] at hv
    rcases hv with ⟨-, hv⟩ | ⟨-, hv⟩
    · exact Option.some.inj hv ▸ .ofInt ⟨by decide, by decide⟩
    · exact Option.some.inj hv ▸ hfits
  have hstart : Bytes.startsWith (magic ++ (record p.canonical).encode) magic = true := by
    simp [Bytes.startsWith]
  rw [← encode_canonical p, encode_eq, decode, hstart, List.drop_left, decode?_encode hrecord]
  simp [fields?_record hp' hfits (by decide)]

/-- A function with minus zero, a NaN of its own, a truth value with a text and a nested function without
code. -/
def sample : Proto :=
  { Proto.blank with
    source := bytes "@é"
    constants := some #[.number ⟨0x8000000000000000⟩, .number ⟨0x7ff0000000000001⟩, .string [],
      .other ⟨⟨1, true, .zero, bytes "é"⟩, by decide⟩]
    upvalues := some []
    protos := some [some { Proto.blank with line := -1, code := some #[] }] }

theorem sample_storable : ∀ q ∈ sample.walk, q.Storable := by
  have hwalk : sample.walk = [sample, { Proto.blank with line := -1, code := some #[] }] := rfl
  intro q hq
  rw [hwalk, List.mem_cons, List.mem_singleton] at hq
  rcases hq with rfl | rfl
  all_goals constructor <;> decide

theorem decode_encode_sample : (∀ q ∈ sample.walk, q.Storable) ∧ sample.toCbor.depth < maxLevels ∧
    decode (encode sample) = .ok sample.canonical ∧ encode sample.canonical = encode sample :=
  ⟨sample_storable, by decide, decode_encode sample sample_storable (by decide)⟩

end Image

end RegisterCompiler
