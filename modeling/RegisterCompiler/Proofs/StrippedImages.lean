import Mathlib.Data.List.Forall2
import RegisterCompiler.Proofs.ImageRoundTrip

/-!
# Images of stripped functions

An encoding can be split off the front of a longer text in one way only, so images tell apart what
they hold.

* `Proto.Agrees` : two functions that differ at most in debug information, at every depth;
* `Image.encode_strip_eq_iff` : stripped functions have one image if and only if the functions agree.
-/

namespace RegisterCompiler

open Cbor

/-! ## Splitting encodings -/

namespace Cbor

variable {r r' : Bytes}

theorem head_split {major major' n n' : Nat} (hm : major < 7) (hm' : major' < 7) (hn : n < 0x10000000000000000)
    (hn' : n' < 0x10000000000000000) (h : headBytes major n ++ r = headBytes major' n' ++ r') :
    major = major' ∧ n = n' ∧ r = r' := by
  have hhead := head_headBytes hm hn r
  rw [h, head_headBytes hm' hn'] at hhead
  simp only [Option.some.injEq, Prod.mk.injEq, Head.mk.injEq] at hhead
  exact ⟨hhead.1.1.symm, hhead.1.2.2.symm, hhead.2.symm⟩

theorem text_split {s s' : Bytes} (hs : s.length < 0x8000000000000000) (hs' : s'.length < 0x8000000000000000)
    (h : (text s).encode ++ r = (text s').encode ++ r') : s = s' ∧ r = r' := by
  rw [encode_text, encode_text, List.append_assoc, List.append_assoc] at h
  obtain ⟨-, hlen, h⟩ := head_split (by decide) (by decide) (by omega) (by omega) h
  exact List.append_inj h hlen

theorem int_split {n n' : Int} (hn : IsWord n) (hn' : IsWord n') (h : (ofInt n).encode ++ r = (ofInt n').encode ++ r') :
    n = n' ∧ r = r' := by
  have hcases (m : Int) : m < 0 ∧ (ofInt m).encode = headBytes 1 (-1 - m).toNat ∨
      0 ≤ m ∧ (ofInt m).encode = headBytes 0 m.toNat := by
    unfold ofInt
    split
    · exact .inl ⟨by omega, encode_negative _⟩
    · exact .inr ⟨by omega, encode_uint _⟩
  unfold IsWord at hn hn'
  rcases hcases n with ⟨hneg, he⟩ | ⟨hneg, he⟩ <;> rcases hcases n' with ⟨hneg', he'⟩ | ⟨hneg', he'⟩ <;>
    rw [he, he'] at h <;>
    obtain ⟨hm, heq, hr⟩ := head_split (by decide) (by decide) (by omega) (by omega) h <;>
    exact ⟨by omega, hr⟩

theorem bool_split {b b' : Bool} (h : (ofBool b).encode ++ r = (ofBool b').encode ++ r') : b = b' ∧ r = r' := by
  have hbyte (b : Bool) : (ofBool b).encode = [if b then 0xf5 else 0xf4] := by cases b <;> rfl
  rw [hbyte, hbyte, List.singleton_append, List.singleton_append, List.cons.injEq] at h
  exact ⟨by cases b <;> cases b' <;> simp_all, h.2⟩

theorem number_split {x y : Number} (h : (float x).encode ++ r = (float y).encode ++ r') :
    x.canonical = y.canonical ∧ r = r' := by
  rw [encode_float, encode_float] at h
  obtain ⟨a, ha, -, hx⟩ := primitive_numberBytes x r
  obtain ⟨b, hb, -, hy⟩ := primitive_numberBytes y r'
  rw [h, hb] at ha
  simp only [Option.some.injEq, Prod.mk.injEq] at ha
  obtain ⟨rfl, hr⟩ := ha
  rw [hx, Option.some.injEq, float.injEq] at hy
  exact ⟨hy, hr.symm⟩

section Lists
variable {α : Type} {enc : α → Cbor} {R : α → α → Prop}

theorem array_split {xs ys : List α} (hx : xs.length < 0x8000000000000000) (hy : ys.length < 0x8000000000000000)
    (hone : ∀ x ∈ xs, ∀ y ∈ ys, ∀ {r r' : Bytes}, (enc x).encode ++ r = (enc y).encode ++ r' → R x y ∧ r = r')
    (h : (array (xs.map enc)).encode ++ r = (array (ys.map enc)).encode ++ r') : List.Forall₂ R xs ys ∧ r = r' := by
  rw [encode_array, encode_array, List.append_assoc, List.append_assoc, List.length_map, List.length_map] at h
  obtain ⟨-, hlen, hitems⟩ := head_split (by decide) (by decide) (by omega) (by omega) h
  clear hx hy h
  induction xs generalizing ys with
  | nil =>
    obtain rfl := List.eq_nil_of_length_eq_zero hlen.symm
    exact ⟨.nil, hitems⟩
  | cons x xs ih =>
    cases ys with
    | nil => cases hlen
    | cons y ys =>
      simp only [List.map_cons, List.flatMap_cons, List.append_assoc] at hitems
      obtain ⟨hxy, hitems⟩ := hone x (by simp) y (by simp) hitems
      obtain ⟨hall, hr⟩ := ih (fun a ha b hb => hone a (by simp [ha]) b (by simp [hb])) (by simpa using hlen) hitems
      exact ⟨.cons hxy hall, hr⟩

theorem present_split {xs ys : Array α} (hx : xs.size < 0x8000000000000000) (hy : ys.size < 0x8000000000000000)
    (hone : ∀ x ∈ xs, ∀ y ∈ ys, ∀ {r r' : Bytes}, (enc x).encode ++ r = (enc y).encode ++ r' → R x y ∧ r = r')
    (h : (Proto.listOf enc (Proto.present xs)).encode ++ r = (Proto.listOf enc (Proto.present ys)).encode ++ r') :
    List.Forall₂ R xs.toList ys.toList ∧ r = r' := by
  have hnone {zs : List Cbor} (hz : zs.length < 0x8000000000000000) {r r' : Bytes}
      (h : null.encode ++ r = (array zs).encode ++ r') : False := by
    have hhead := head_simple (show 22 < 24 by decide) r
    rw [← encode_simple, show simple 22 = null from rfl, h, encode_array, List.append_assoc,
      head_headBytes (by decide) (by omega)] at hhead
    simp at hhead
  unfold Proto.present at h
  split_ifs at h with hxs hys hys
  · obtain rfl := Array.isEmpty_iff.1 hxs
    obtain rfl := Array.isEmpty_iff.1 hys
    exact ⟨.nil, List.append_cancel_left h⟩
  · exact (hnone (by simpa using hy) h).elim
  · exact (hnone (by simpa using hx) h.symm).elim
  · exact array_split (by simpa using hx) (by simpa using hy) (fun x hx y hy => hone x (by simpa using hx) y (by simpa using hy)) h

end Lists

end Cbor

/-! ## Constants and upvalues -/

/-- The constants have the same record, but that one NaN may stand for another. -/
def Constant.Same (v w : Constant) : Prop :=
  v.record.kind = w.record.kind ∧ v.record.truth = w.record.truth ∧ v.record.text = w.record.text ∧
    (v.record.number = w.record.number ∨ v.record.number.isNaN = true ∧ w.record.number.isNaN = true)

theorem Number.canonical_eq_iff {x y : Number} :
    x.canonical = y.canonical ↔ x = y ∨ x.isNaN = true ∧ y.isNaN = true := by
  have hnan : Number.notANumber.isNaN = true := by decide
  unfold canonical
  split_ifs with hx hy hy
  · simp [hx, hy]
  · simp only [hy, Bool.false_eq_true, and_false, or_false]
    exact ⟨fun h => absurd (h ▸ hnan) hy, fun h => absurd (h ▸ hx) hy⟩
  · simp only [hx, Bool.false_eq_true, false_and, or_false]
    exact ⟨fun h => absurd (h ▸ hnan) hx, fun h => absurd (h ▸ hy) hx⟩
  · simp [hx]

theorem Constant.same_iff {v w : Constant} : v.Same w ↔ v.canonical = w.canonical := by
  rw [Same, ← Number.canonical_eq_iff]
  constructor
  · rintro ⟨hkind, htruth, htext, hnumber⟩
    simp only [canonical, hkind, htruth, htext, hnumber]
  · intro h
    have h := congrArg record h
    rw [record_canonical, record_canonical] at h
    exact ⟨congrArg (·.kind) h, congrArg (·.truth) h, congrArg (·.text) h, congrArg (·.number) h⟩

theorem Constant.Record.split {x y : Record} {r r' : Bytes} (hx : x.text.length < 0x8000000000000000)
    (hy : y.text.length < 0x8000000000000000) (h : x.toCbor.encode ++ r = y.toCbor.encode ++ r') :
    x.kind = y.kind ∧ x.truth = y.truth ∧ x.text = y.text ∧ x.number.canonical = y.number.canonical := by
  unfold toCbor at h
  rw [encode_ofFields, encode_ofFields] at h
  simp only [List.map_cons, List.map_nil, Option.map_some, recordBytes, List.flatMap_cons, Option.getD_some,
    List.append_assoc, encode_uint] at h
  have hcounted (fields : List (Nat × Option Bytes)) (hlen : fields.length = 4) :
      (fields.filterMap (·.2)).length < 0x10000000000000000 :=
    (List.length_filterMap_le ..).trans_lt (by omega)
  obtain ⟨-, hcount, h⟩ := head_split (by decide) (by decide) (hcounted _ rfl) (hcounted _ rfl) h
  obtain ⟨-, hkind, h⟩ := head_split (by decide) (by decide) (x.kind.toNat_lt.trans (by decide))
    (y.kind.toNat_lt.trans (by decide)) (List.append_cancel_left h)
  -- the key of the next entry tells whether there is a truth value, and the count whether there is a text
  have htruth : x.truth = y.truth := by
    cases hxt : x.truth <;> cases hyt : y.truth <;> try rfl
    all_goals
      simp only [hxt, hyt, if_true, Bool.false_eq_true, if_false, Option.map_some, Option.getD_some, Option.map_none,
        Option.getD_none, List.nil_append, List.append_assoc] at h
      exact absurd (head_split (by decide) (by decide) (by decide) (by decide) h).2.1 (by decide)
  rw [htruth] at h hcount
  obtain ⟨hnumber, h⟩ := number_split (List.append_cancel_left (List.append_cancel_left h))
  refine ⟨UInt8.toNat_inj.1 hkind, htruth, ?_, hnumber⟩
  cases hxs : x.text with
  | nil => cases hys : y.text with
    | nil => rfl
    | cons b s => cases ht : y.truth <;> simp [ofText?, hxs, hys, ht] at hcount
  | cons a s => cases hys : y.text with
    | nil => cases ht : y.truth <;> simp [ofText?, hxs, hys, ht] at hcount
    | cons b s' =>
      simp only [ofText?, hxs, hys, List.isEmpty_cons, Bool.false_eq_true, if_false, Option.map_some,
        Option.getD_some, List.append_assoc] at h
      exact (text_split (hxs ▸ hx) (hys ▸ hy) (List.append_cancel_left h)).1

theorem Constant.split {v w : Constant} {r r' : Bytes} (hv : v.record.text.length < 0x8000000000000000)
    (hw : w.record.text.length < 0x8000000000000000) (h : v.toCbor.encode ++ r = w.toCbor.encode ++ r') :
    v.Same w ∧ r = r' := by
  have hsame : v.Same w := by
    rw [Same, ← Number.canonical_eq_iff]
    exact Record.split hv hw h
  rw [← v.encode_canonical, same_iff.1 hsame, w.encode_canonical] at h
  exact ⟨hsame, List.append_cancel_left h⟩

theorem Upvalue.split {u w : Upvalue} {r r' : Bytes} (hu : IsWord u.index) (hw : IsWord w.index)
    (h : (Proto.stripUpvalue u).toCbor.encode ++ r = (Proto.stripUpvalue w).toCbor.encode ++ r') :
    (u.isLocal = w.isLocal ∧ u.index = w.index) ∧ r = r' := by
  unfold toCbor Proto.stripUpvalue at h
  rw [encode_ofFields, encode_ofFields] at h
  simp only [List.map_cons, List.map_nil, Option.map_some, recordBytes, List.flatMap_cons, Option.getD_some,
    List.append_assoc, ofText?, List.isEmpty_nil, if_true, Option.map_none, Option.getD_none, List.nil_append] at h
  obtain ⟨hlocal, h⟩ := bool_split (List.append_cancel_left (List.append_cancel_left h))
  obtain ⟨hindex, h⟩ := int_split hu hw (List.append_cancel_left h)
  exact ⟨⟨hlocal, hindex⟩, h⟩

/-! ## Functions -/

namespace Proto

/-- Two functions that differ at most in lines, local variable records and upvalue names, at every
depth. Absent lists are as good as empty ones. -/
inductive Agrees : Proto → Proto → Prop
  | intro {p q : Proto} (source : p.source = q.source) (line : p.line = q.line) (lastLine : p.lastLine = q.lastLine)
    (params : p.params = q.params) (isVararg : p.isVararg = q.isVararg) (stack : p.stack = q.stack)
    (code : p.codeArray = q.codeArray)
    (constants : List.Forall₂ Constant.Same p.constantArray.toList q.constantArray.toList)
    (upvalues : List.Forall₂ (fun u w => u.isLocal = w.isLocal ∧ u.index = w.index) p.upvalueList q.upvalueList)
    (length : p.children.length = q.children.length)
    (children : ∀ (i : Nat) (a b : Proto), p.children[i]? = some (some a) → q.children[i]? = some (some b) → Agrees a b) :
    Agrees p q

/-- A function of numbers that are words of 64 bits and of lists with such a length, without gaps among
the functions inside it. -/
structure Sized (p : Proto) : Prop where
  source : p.source.length < 0x8000000000000000
  line : IsWord p.line
  lastLine : IsWord p.lastLine
  params : IsWord p.params
  stack : IsWord p.stack
  code : p.codeArray.size < 0x8000000000000000
  constants : p.constantArray.size < 0x8000000000000000
  texts : ∀ v ∈ p.constantArray, v.record.text.length < 0x8000000000000000
  protos : p.children.length < 0x8000000000000000
  whole : none ∉ p.children
  upvalues : p.upvalueList.length < 0x8000000000000000
  upvalue : ∀ u ∈ p.upvalueList, IsWord u.index

theorem strip_strip (p : Proto) : p.strip.strip = p.strip := by
  induction p using induction_children with
  | h p ih =>
    have hchildren : (p.children.map stripChild).map stripChild = p.children.map stripChild := by
      rw [List.map_map]
      refine List.map_congr_left fun x hx => ?_
      cases x with
      | none => rfl
      | some c => exact congrArg some (ih c hx)
    rw [strip_eq p.strip, codeArray_strip, constantArray_strip, children_strip, upvalueList_strip, hchildren,
      List.map_map, strip_eq p]
    rfl

theorem instr_split {i j : Instr} {r r' : Bytes} (h : (uint i.word.toNat).encode ++ r = (uint j.word.toNat).encode ++ r') :
    i = j ∧ r = r' := by
  have hword (i : Instr) : i.word.toNat < 0x10000000000000000 := i.word.toNat_lt.trans (by decide)
  obtain ⟨-, heq, hr⟩ := head_split (by decide) (by decide) (hword i) (hword j) h
  exact ⟨congrArg Instr.mk (UInt32.toNat_inj.1 heq), hr⟩

theorem agrees_of_encode (p : Proto) : ∀ {q : Proto} {r r' : Bytes}, (∀ a ∈ p.walk, a.Sized) → (∀ a ∈ q.walk, a.Sized) →
    p.strip.toCbor.encode ++ r = q.strip.toCbor.encode ++ r' → p.Agrees q ∧ r = r' := by
  induction p using induction_children with
  | h p ih =>
    intro q r r' hp hq h
    have hs := hp p (mem_walk_self p)
    have ht := hq q (mem_walk_self q)
    rw [strip_eq, strip_eq, toCbor, toCbor, encode_ofFields, encode_ofFields, protosToCbor_eq, protosToCbor_eq] at h
    simp only [List.map_cons, List.map_nil, Option.map_some, recordBytes, List.flatMap_cons, Option.getD_some,
      List.append_assoc, Array.isEmpty_empty, List.isEmpty_nil, if_true, Option.map_none, Option.getD_none, List.nil_append,
      List.flatMap_nil, ofList?, List.map_map] at h
    obtain ⟨hsource, h⟩ := text_split hs.source ht.source (List.append_cancel_left (List.append_cancel_left h))
    obtain ⟨hline, h⟩ := int_split hs.line ht.line (List.append_cancel_left h)
    obtain ⟨hlast, h⟩ := int_split hs.lastLine ht.lastLine (List.append_cancel_left h)
    obtain ⟨hparams, h⟩ := int_split hs.params ht.params (List.append_cancel_left h)
    obtain ⟨hvararg, h⟩ := bool_split (List.append_cancel_left h)
    obtain ⟨hstack, h⟩ := int_split hs.stack ht.stack (List.append_cancel_left h)
    obtain ⟨hcode, h⟩ := present_split (R := Eq) hs.code ht.code (fun _ _ _ _ => instr_split) (List.append_cancel_left h)
    obtain ⟨hconstants, h⟩ := present_split (R := Constant.Same) hs.constants ht.constants
      (fun v hv w hw => Constant.split (hs.texts v hv) (ht.texts w hw))
      (List.append_cancel_left h)
    have hchild : ∀ x ∈ p.children, ∀ y ∈ q.children, ∀ {r r' : Bytes},
        (childToCbor (stripChild x)).encode ++ r = (childToCbor (stripChild y)).encode ++ r' →
          (∀ a b, x = some a → y = some b → a.Agrees b) ∧ r = r' := by
      intro x hx y hy r r' h
      obtain ⟨a, rfl⟩ := Option.ne_none_iff_exists'.1 fun hnone => hs.whole (hnone ▸ hx)
      obtain ⟨b, rfl⟩ := Option.ne_none_iff_exists'.1 fun hnone => ht.whole (hnone ▸ hy)
      obtain ⟨hagrees, hr⟩ := ih a hx (fun c hc => hp c (mem_walk_child hx hc)) (fun c hc => hq c (mem_walk_child hy hc)) h
      exact ⟨fun _ _ ha hb => Option.some.inj ha ▸ Option.some.inj hb ▸ hagrees, hr⟩
    obtain ⟨hchildren, h⟩ := array_split hs.protos ht.protos hchild (List.append_cancel_left h)
    obtain ⟨hupvalues, h⟩ := array_split hs.upvalues ht.upvalues
      (fun u hu w hw => Upvalue.split (hs.upvalue u hu) (ht.upvalue w hw)) (List.append_cancel_left h)
    refine ⟨.intro hsource hline hlast hparams hvararg hstack ?_ hconstants hupvalues hchildren.length_eq ?_, h⟩
    · exact Array.toList_inj.1 (List.forall₂_eq_eq_eq ▸ hcode)
    · intro i a b ha hb
      obtain ⟨hi, ha⟩ := List.getElem?_eq_some_iff.1 ha
      obtain ⟨hj, hb⟩ := List.getElem?_eq_some_iff.1 hb
      exact hchildren.get hi hj a b ha hb

theorem map_eq_map_of_forall₂ {α β : Type} {R : α → α → Prop} {f : α → β} (hf : ∀ x y, R x y → f x = f y) {xs ys : List α}
    (h : List.Forall₂ R xs ys) : xs.map f = ys.map f := by
  induction h with
  | nil => rfl
  | cons hxy _ ih => rw [List.map_cons, List.map_cons, hf _ _ hxy, ih]

theorem Agrees.canonical_strip {p q : Proto} (h : p.Agrees q) (hp : ∀ a ∈ p.walk, a.Sized) (hq : ∀ a ∈ q.walk, a.Sized) :
    p.strip.canonical = q.strip.canonical := by
  have hpresent (xs : Array Constant) : (present xs).map (·.map Constant.canonical) = present (xs.map Constant.canonical) := by
    have hempty : (xs.map Constant.canonical).isEmpty = xs.isEmpty := by simp [Array.isEmpty]
    unfold present
    rw [hempty]
    split <;> rfl
  induction h with
  | @intro p q source line lastLine params isVararg stack code constants upvalues length children ih =>
    have hs := hp p (mem_walk_self p)
    have ht := hq q (mem_walk_self q)
    have hconstants : p.constantArray.map Constant.canonical = q.constantArray.map Constant.canonical := by
      rw [← Array.toList_inj, Array.toList_map, Array.toList_map]
      exact map_eq_map_of_forall₂ (fun _ _ h => Constant.same_iff.1 h) constants
    have hupvalues : p.upvalueList.map stripUpvalue = q.upvalueList.map stripUpvalue :=
      map_eq_map_of_forall₂ (fun u w h => by rw [stripUpvalue, stripUpvalue, h.1, h.2]) upvalues
    have hchildren : (p.children.map stripChild).map canonicalChild = (q.children.map stripChild).map canonicalChild := by
      refine List.ext_getElem (by simpa using length) fun i hi hj => ?_
      simp only [List.length_map] at hi hj
      obtain ⟨a, ha⟩ := Option.ne_none_iff_exists'.1 fun hnone : p.children[i] = none => hs.whole (hnone ▸ List.getElem_mem hi)
      obtain ⟨b, hb⟩ := Option.ne_none_iff_exists'.1 fun hnone : q.children[i] = none => ht.whole (hnone ▸ List.getElem_mem hj)
      have hmem : some a ∈ p.children := ha ▸ List.getElem_mem hi
      have hmem' : some b ∈ q.children := hb ▸ List.getElem_mem hj
      rw [List.getElem_map, List.getElem_map, List.getElem_map, List.getElem_map, ha, hb]
      exact congrArg some (ih i a b (List.getElem?_eq_some_iff.2 ⟨hi, ha⟩) (List.getElem?_eq_some_iff.2 ⟨hj, hb⟩)
        (fun c hc => hp c (mem_walk_child hmem hc)) fun c hc => hq c (mem_walk_child hmem' hc))
    rw [strip_eq, strip_eq, canonical, canonical, canonicalProtos_eq, canonicalProtos_eq, hpresent, hpresent, source,
      line, lastLine, params, isVararg, stack, code, hconstants, hupvalues, Option.map_some, Option.map_some, hchildren]

end Proto

namespace Image

/-- Stripped functions have the same image if and only if the functions agree in everything but debug
information. Stripping twice does no more than stripping once. -/
theorem encode_strip_eq_iff (p q : Proto) (hp : ∀ a ∈ p.walk, a.Sized) (hq : ∀ a ∈ q.walk, a.Sized) :
    (encode p.strip = encode q.strip ↔ p.Agrees q) ∧ p.strip.strip = p.strip := by
  refine ⟨⟨fun h => ?_, fun h => ?_⟩, p.strip_strip⟩
  · rw [encode_eq, encode_eq, record, record, encode_ofFields, encode_ofFields] at h
    simp only [List.map_cons, List.map_nil, Option.map_some, recordBytes, List.flatMap_cons, Option.getD_some,
      List.append_assoc, List.flatMap_nil] at h
    have h := List.append_cancel_left (List.append_cancel_left (List.append_cancel_left h))
    have h := List.append_cancel_left (List.append_cancel_left h)
    exact (p.agrees_of_encode hp hq h).1
  · rw [← encode_canonical p.strip, h.canonical_strip hp hq, encode_canonical]

theorem sized_blank (x : Number) (lines : Array Int) :
    ∀ a ∈ ({ Proto.blank with constants := some #[.number x], lines := lines } : Proto).walk, a.Sized := by
  intro a ha
  obtain rfl := List.mem_singleton.1 ha
  constructor <;> simp [Proto.blank, IsWord, Proto.codeArray, Proto.constantArray, Proto.children,
    Proto.upvalueList, Constant.record]

theorem encode_strip_eq_iff_blank :
    encode ({ Proto.blank with constants := some #[.number ⟨0x7ff0000000000001⟩], lines := #[3] } : Proto).strip =
      encode ({ Proto.blank with constants := some #[.number ⟨0xfff8000000000000⟩] } : Proto).strip := by
  refine (encode_strip_eq_iff _ _ (sized_blank _ _) (sized_blank _ _)).1.2 ?_
  refine ⟨rfl, rfl, rfl, rfl, rfl, rfl, rfl, .cons ⟨rfl, rfl, rfl, .inr ⟨by decide, by decide⟩⟩ .nil, .nil, rfl, ?_⟩
  simp [Proto.children, Proto.blank]

end Image

end RegisterCompiler
