import Mathlib.Tactic.NormNum
import RegisterCompiler.Cbor.Decode
import RegisterCompiler.Proofs.BinaryFormats

/-!
# CBOR that is read back

An encoding is the encodings of its parts in a row, and each is read back whatever comes after it.

* `Cbor.head_headBytes` : heads are read back, in all five widths of their arguments;
* `Cbor.Fits levels x` : the decoder takes `x` where `levels` nested levels are left;
* `Cbor.item_encode`, `Cbor.decode?_encode` : such items are read back.
-/

namespace RegisterCompiler

namespace Bytes

theorem length_bigEndian (n x : Nat) : (bigEndian n x).length = n := by
  induction n generalizing x with
  | zero => rfl
  | succ n ih => simp [bigEndian, ih]

theorem ofBigEndian_append (s : Bytes) (b : UInt8) : ofBigEndian (s ++ [b]) = ofBigEndian s * 256 + b.toNat := by
  simp [ofBigEndian]

theorem ofBigEndian_bigEndian {n x : Nat} (h : x < 256 ^ n) : ofBigEndian (bigEndian n x) = x := by
  induction n generalizing x with
  | zero => simpa [bigEndian, ofBigEndian] using (Nat.lt_one_iff.1 h).symm
  | succ n ih =>
    rw [bigEndian, ofBigEndian_append, ih (by rw [pow_succ] at h; omega), UInt8.toNat_ofNat']
    omega

end Bytes

namespace Cbor

/-! ## Encodings in a row -/

def headBytes (major n : Nat) : Bytes :=
  (putHead major n #[]).toList

def numberBytes (x : Number) : Bytes :=
  (putNumber x #[]).toList

theorem toList_put (s : Bytes) (out : Array UInt8) : (put s out).toList = out.toList ++ s := by
  unfold put
  induction s generalizing out with
  | nil => simp
  | cons b s ih => rw [List.foldl_cons, ih]; simp

theorem toList_putHead (major n : Nat) (out : Array UInt8) :
    (putHead major n out).toList = out.toList ++ headBytes major n := by
  unfold headBytes putHead
  split_ifs <;> simp [toList_put]

theorem toList_putNumber (x : Number) (out : Array UInt8) :
    (putNumber x out).toList = out.toList ++ numberBytes x := by
  unfold numberBytes putNumber
  split <;> simp [toList_put]

mutual

theorem toList_putItem (x : Cbor) (out : Array UInt8) :
    (putItem x out).toList = out.toList ++ x.encode := by
  cases x with
  | uint n | negative n => simp [encode, putItem, toList_putHead]
  | blob s | text s => simp [encode, putItem, toList_putHead, toList_put]
  | badText => simp [encode, putItem, toList_putHead]
  | array xs => simp [encode, putItem, toList_putHead, toList_putItems xs]
  | map ps => simp [encode, putItem, toList_putHead, toList_putPairs ps]
  | tag n x =>
    simp only [encode, putItem]
    rw [toList_putItem x (putHead 6 n out), toList_putItem x (putHead 6 n #[]), toList_putHead]
    simp [headBytes]
  | simple n => simp [encode, putItem, toList_putHead]
  | float x => simp [encode, putItem, toList_putNumber]

theorem toList_putItems (xs : List Cbor) (out : Array UInt8) :
    (putItems xs out).toList = out.toList ++ xs.flatMap encode := by
  cases xs with
  | nil => simp [putItems]
  | cons x xs => simp [putItems, toList_putItems xs, toList_putItem x]

theorem toList_putPairs (ps : List (Cbor × Cbor)) (out : Array UInt8) :
    (putPairs ps out).toList = out.toList ++ ps.flatMap fun p => p.1.encode ++ p.2.encode := by
  cases ps with
  | nil => simp [putPairs]
  | cons p ps => simp [putPairs, toList_putPairs ps, toList_putPair p]

theorem toList_putPair (p : Cbor × Cbor) (out : Array UInt8) :
    (putPair p out).toList = out.toList ++ (p.1.encode ++ p.2.encode) := by
  match p with
  | (key, value) => simp [putPair, toList_putItem value, toList_putItem key]

end

theorem encode_uint (n : Nat) : (uint n).encode = headBytes 0 n := by
  simp [encode, putItem, toList_putHead]

theorem encode_negative (n : Nat) : (negative n).encode = headBytes 1 n := by
  simp [encode, putItem, toList_putHead]

theorem encode_text (s : Bytes) : (text s).encode = headBytes 3 s.length ++ s := by
  simp [encode, putItem, toList_putHead, toList_put]

theorem encode_array (xs : List Cbor) : (array xs).encode = headBytes 4 xs.length ++ xs.flatMap encode := by
  simp [encode, putItem, toList_putHead, toList_putItems]

theorem encode_map (ps : List (Cbor × Cbor)) :
    (map ps).encode = headBytes 5 ps.length ++ ps.flatMap fun p => p.1.encode ++ p.2.encode := by
  simp [encode, putItem, toList_putHead, toList_putPairs]

theorem encode_simple (n : Nat) : (simple n).encode = headBytes 7 n := by
  simp [encode, putItem, toList_putHead]

theorem encode_float (x : Number) : (float x).encode = numberBytes x := by
  simp [encode, putItem, toList_putNumber]

/-! ## Heads -/

theorem takeBytes_append (s rest : Bytes) : takeBytes s.length (s ++ rest) = some (s, rest) := by
  simp [takeBytes]

theorem takeBytes_bigEndian (n x : Nat) (rest : Bytes) :
    takeBytes n (Bytes.bigEndian n x ++ rest) = some (Bytes.bigEndian n x, rest) := by
  simpa [Bytes.length_bigEndian] using takeBytes_append (Bytes.bigEndian n x) rest

def headInfo (n : Nat) : Nat :=
  if n < 24 then n
  else if n < 0x100 then 24
  else if n < 0x10000 then 25
  else if n < 0x100000000 then 26
  else 27

theorem headInfo_ne (n : Nat) : headInfo n ≠ 31 := by
  unfold headInfo
  split_ifs <;> omega

theorem toNat_first {major k : Nat} (hmajor : major < 8) (hk : k < 32) :
    (UInt8.ofNat (major * 32 + k)).toNat / 32 = major ∧ (UInt8.ofNat (major * 32 + k)).toNat % 32 = k := by
  rw [UInt8.toNat_ofNat']
  omega

theorem head_wide {major w info n : Nat} (hmajor : major < 8) (rest : Bytes) (hn : n < 256 ^ w)
    (hw : (w = 1 ∧ info = 24 ∧ major ≠ 7) ∨ (w = 2 ∧ info = 25) ∨ (w = 4 ∧ info = 26) ∨ (w = 8 ∧ info = 27)) :
    head (UInt8.ofNat (major * 32 + info) :: (Bytes.bigEndian w n ++ rest)) = some (⟨major, info, n⟩, rest) := by
  obtain ⟨hdiv, hmod⟩ := toNat_first (k := info) hmajor (by omega)
  have htake := takeBytes_bigEndian w n rest
  have hvalue := Bytes.ofBigEndian_bigEndian hn
  unfold head
  simp only [hdiv, hmod]
  rcases hw with ⟨rfl, rfl, hne⟩ | ⟨rfl, rfl⟩ | ⟨rfl, rfl⟩ | ⟨rfl, rfl⟩
  · simp [htake, hvalue, hne]
  all_goals simp [htake, hvalue]

theorem head_short {major n : Nat} (hmajor : major < 8) (hn : n < 24) (rest : Bytes) :
    head (UInt8.ofNat (major * 32 + n) :: rest) = some (⟨major, n, n⟩, rest) := by
  obtain ⟨hdiv, hmod⟩ := toNat_first (k := n) hmajor (by omega)
  unfold head
  simp only [hdiv, hmod, hn, if_true]

theorem headBytes_short (major : Nat) {n : Nat} (hn : n < 24) :
    headBytes major n = [UInt8.ofNat (major * 32 + n)] := by
  simp [headBytes, putHead, hn]

theorem head_headBytes {major n : Nat} (hmajor : major < 7) (hn : n < 0x10000000000000000) (rest : Bytes) :
    head (headBytes major n ++ rest) = some (⟨major, headInfo n, n⟩, rest) := by
  unfold headBytes putHead headInfo
  split_ifs with h1 h2 h3 h4
  · exact head_short (by omega) h1 rest
  · exact head_wide (by omega) rest (show n < 256 ^ 1 from h2) (.inl ⟨rfl, rfl, by omega⟩)
  · exact head_wide (by omega) rest (show n < 256 ^ 2 from h3) (.inr (.inl ⟨rfl, rfl⟩))
  · exact head_wide (by omega) rest (show n < 256 ^ 4 from h4) (.inr (.inr (.inl ⟨rfl, rfl⟩)))
  · exact head_wide (by omega) rest (show n < 256 ^ 8 from hn) (.inr (.inr (.inr ⟨rfl, rfl⟩)))

theorem head_simple {n : Nat} (hn : n < 24) (rest : Bytes) :
    head (headBytes 7 n ++ rest) = some (⟨7, n, n⟩, rest) := by
  rw [headBytes_short 7 hn]
  exact head_short (by decide) hn rest

/-! ## Numbers -/

theorem floating_narrowest {f : Binary} {x : Number} {m n : Nat} {q : Int} (hf : 0 < f.exponentBits)
    (hx : x.shape = .finite m q) (h : f.pack? x.negative m q = some n) :
    n < 2 * f.signWeight ∧ floating f n = some (.float x.canonical) := by
  obtain ⟨hn, hshape⟩ := Number.ofShape?_of_pack? hf hx h
  exact ⟨hn, by simp [floating, hshape]⟩

theorem floating_double {x : Number} {m : Nat} {q : Int} (hx : x.shape = .finite m q) :
    floating .double x.bits.toNat = some (.float x.canonical) :=
  (floating_narrowest (by decide) hx (Number.pack?_shape hx)).2

theorem infinite_cases {x : Number} (hx : x.shape = .infinite) :
    x = ⟨0x7ff0000000000000⟩ ∧ x.negative = false ∨ x = ⟨0xfff0000000000000⟩ ∧ x.negative = true := by
  have hlt := x.bits.toNat_lt
  unfold Number.shape at hx
  simp only [Number.exponentBits, Number.fractionBits, beq_iff_eq] at hx
  have hexp : x.bits.toNat / 0x10000000000000 % 2048 = 2047 := by
    by_contra hne
    rw [if_neg hne] at hx
    split at hx <;> cases hx
  have hfrac : x.bits.toNat % 0x10000000000000 = 0 := by
    by_contra hne
    rw [if_pos hexp, if_neg hne] at hx
    cases hx
  have hbits : x.bits.toNat = 0x7ff0000000000000 ∨ x.bits.toNat = 0xfff0000000000000 := by omega
  rcases hbits with h | h
  · left
    obtain rfl : x = ⟨0x7ff0000000000000⟩ := congrArg Number.mk (UInt64.toNat_inj.1 h)
    exact ⟨rfl, rfl⟩
  · right
    obtain rfl : x = ⟨0xfff0000000000000⟩ := congrArg Number.mk (UInt64.toNat_inj.1 h)
    exact ⟨rfl, rfl⟩

theorem primitive_numberBytes (x : Number) (rest : Bytes) :
    ∃ h : Head, head (numberBytes x ++ rest) = some (h, rest) ∧ h.major = 7 ∧
      primitive h = some (.float x.canonical) := by
  have hhead : ∀ {w info n : Nat}, n < 256 ^ w →
      ((w = 2 ∧ info = 25) ∨ (w = 4 ∧ info = 26) ∨ (w = 8 ∧ info = 27)) →
      head (UInt8.ofNat (7 * 32 + info) :: (Bytes.bigEndian w n ++ rest)) = some (⟨7, info, n⟩, rest) :=
    fun hn hw => head_wide (by decide) rest hn (.inr hw)
  have hhalf : ∀ n, n < 2 * Binary.half.signWeight → floating .half n = some (.float x.canonical) →
      x.narrowest = .half n → ∃ h : Head, head (numberBytes x ++ rest) = some (h, rest) ∧
        h.major = 7 ∧ primitive h = some (.float x.canonical) := by
    intro n hn hfloat hx
    refine ⟨⟨7, 25, n⟩, ?_, rfl, hfloat⟩
    simp only [numberBytes, putNumber, hx, toList_put]
    exact hhead hn (.inl ⟨rfl, rfl⟩)
  cases hshape : x.shape with
  | nan =>
    have hnan : x.canonical = Number.notANumber := by
      rw [Number.canonical, if_pos ((Number.isNaN_iff x).2 hshape)]
    refine hhalf 0x7e00 (by decide) ?_ (by simp [Number.narrowest, hshape])
    rw [hnan]
    rfl
  | infinite =>
    have hx : x.narrowest = .half (if x.negative then 0xfc00 else 0x7c00) := by
      simp [Number.narrowest, hshape]
    rcases infinite_cases hshape with ⟨rfl, -⟩ | ⟨rfl, -⟩
    · exact hhalf 0x7c00 (by decide) rfl hx
    · exact hhalf 0xfc00 (by decide) rfl hx
  | finite m q =>
    cases h1 : Binary.half.pack? x.negative m q with
    | some n =>
      obtain ⟨hn, hfloat⟩ := floating_narrowest (by decide) hshape h1
      exact hhalf n hn hfloat (by simp [Number.narrowest, hshape, h1])
    | none =>
      cases h2 : Binary.single.pack? x.negative m q with
      | some n =>
        obtain ⟨hn, hfloat⟩ := floating_narrowest (by decide) hshape h2
        refine ⟨⟨7, 26, n⟩, ?_, rfl, hfloat⟩
        simp only [numberBytes, putNumber, Number.narrowest, hshape, h1, h2, toList_put]
        exact hhead hn (.inr (.inl ⟨rfl, rfl⟩))
      | none =>
        refine ⟨⟨7, 27, x.bits.toNat⟩, ?_, rfl, floating_double hshape⟩
        simp only [numberBytes, putNumber, Number.narrowest, hshape, h1, h2, toList_put]
        exact hhead x.bits.toNat_lt (.inr (.inr ⟨rfl, rfl⟩))

/-! ## Items -/

/-- The decoder takes the item where `levels` nested levels are left. -/
inductive Fits : (levels : Nat) → Cbor → Prop where
  | uint {levels n : Nat} (h : n < 0x10000000000000000) : Fits levels (.uint n)
  | negative {levels n : Nat} (h : n < 0x10000000000000000) : Fits levels (.negative n)
  | text {levels : Nat} {s : Bytes} (h : s.length < 0x10000000000000000) (hs : Utf8.valid s) :
    Fits levels (.text s)
  | array {levels : Nat} {xs : List Cbor} (h : xs.length ≤ maxMembers) (hs : ∀ x ∈ xs, Fits levels x) :
    Fits (levels + 1) (.array xs)
  | map {levels : Nat} {ps : List (Cbor × Cbor)} (h : ps.length ≤ maxMembers)
    (hkeys : ∀ p ∈ ps, Fits levels p.1) (hvalues : ∀ p ∈ ps, Fits levels p.2) :
    Fits (levels + 1) (.map ps)
  | simple {levels n : Nat} (h : n < 24) : Fits levels (.simple n)
  | float {levels : Nat} {x : Number} (h : x.canonical = x) : Fits levels (.float x)

theorem members_append {α : Type} (one : Bytes → Option (α × Bytes)) (enc : α → Bytes) {xs : List α}
    (h : ∀ x ∈ xs, ∀ rest, one (enc x ++ rest) = some (x, rest)) (acc : List α) (rest : Bytes) :
    members one xs.length acc (xs.flatMap enc ++ rest) = some (acc.reverse ++ xs, rest) := by
  induction xs generalizing acc with
  | nil => simp [members]
  | cons x xs ih =>
    have hx := h x (by simp) (xs.flatMap enc ++ rest)
    rw [List.flatMap_cons, List.append_assoc, List.length_cons, members, hx]
    simpa using ih (fun y hy => h y (by simp [hy])) (x :: acc)

theorem tags_of_head {s rest : Bytes} {h : Head} (hs : head s = some (h, rest)) (hmajor : h.major ≠ 6)
    (fuel : Nat) : tags (fuel + 1) [] s = some ([], s) := by
  simp [tags, hs, hmajor]

def twice (one : Bytes → Option (Cbor × Bytes)) (s : Bytes) : Option ((Cbor × Cbor) × Bytes) :=
  (one s).bind fun a => (one a.2).bind fun b => some ((a.1, b.1), b.2)

theorem item_encode {levels : Nat} {x : Cbor} (hx : Fits levels x) :
    ∀ {fuel : Nat}, levels < fuel → ∀ rest, item fuel levels (x.encode ++ rest) = some (x, rest) := by
  induction hx with
  | uint hn =>
    intro fuel hfuel rest
    obtain ⟨k, rfl⟩ : ∃ k, fuel = k + 1 := ⟨fuel - 1, by omega⟩
    have hhead := head_headBytes (show 0 < 7 by decide) hn rest
    rw [encode_uint, item, tags_of_head hhead (show 0 ≠ 6 by decide)]
    simp [hhead]
  | negative hn =>
    intro fuel hfuel rest
    obtain ⟨k, rfl⟩ : ∃ k, fuel = k + 1 := ⟨fuel - 1, by omega⟩
    have hhead := head_headBytes (show 1 < 7 by decide) hn rest
    rw [encode_negative, item, tags_of_head hhead (show 1 ≠ 6 by decide)]
    simp [hhead]
  | @text levels s hlen hs =>
    intro fuel hfuel rest
    obtain ⟨k, rfl⟩ : ∃ k, fuel = k + 1 := ⟨fuel - 1, by omega⟩
    have hhead := head_headBytes (show 3 < 7 by decide) hlen (s ++ rest)
    rw [encode_text, List.append_assoc, item, tags_of_head hhead (show 3 ≠ 6 by decide)]
    simp [hhead, contents, Head.isOpen, headInfo_ne, takeBytes_append, hs]
  | @array levels xs hlen _ ih =>
    intro fuel hfuel rest
    obtain ⟨k, rfl⟩ : ∃ k, fuel = k + 1 := ⟨fuel - 1, by omega⟩
    have hsize : xs.length < 0x10000000000000000 := by simp only [maxMembers] at hlen; omega
    have hhead := head_headBytes (show 4 < 7 by decide) hsize (xs.flatMap encode ++ rest)
    have hmembers := members_append (item k levels) encode (fun x hx => ih x hx (by omega)) [] rest
    rw [encode_array, List.append_assoc, item, tags_of_head hhead (show 4 ≠ 6 by decide)]
    simp [hhead, allMembers, Head.isOpen, headInfo_ne, hlen.not_gt, hmembers]
  | @map levels ps hlen _ _ ihkeys ihvalues =>
    intro fuel hfuel rest
    obtain ⟨k, rfl⟩ : ∃ k, fuel = k + 1 := ⟨fuel - 1, by omega⟩
    have hsize : ps.length < 0x10000000000000000 := by simp only [maxMembers] at hlen; omega
    have hhead := head_headBytes (show 5 < 7 by decide) hsize
      ((ps.flatMap fun p => p.1.encode ++ p.2.encode) ++ rest)
    have hpair : ∀ p ∈ ps, ∀ rest,
        twice (item k levels) ((p.1.encode ++ p.2.encode) ++ rest) = some (p, rest) := by
      intro p hp rest
      rw [twice, List.append_assoc, ihkeys p hp (by omega)]
      simp [ihvalues p hp (show levels < k by omega)]
    have hmembers := members_append _ (fun p : Cbor × Cbor => p.1.encode ++ p.2.encode) hpair [] rest
    rw [encode_map, List.append_assoc, item, tags_of_head hhead (show 5 ≠ 6 by decide)]
    simp [hhead, allMembers, Head.isOpen, headInfo_ne, hlen.not_gt]
    exact hmembers
  | @simple levels n hn =>
    intro fuel hfuel rest
    obtain ⟨k, rfl⟩ : ∃ k, fuel = k + 1 := ⟨fuel - 1, by omega⟩
    have hhead := head_simple hn rest
    rw [encode_simple, item, tags_of_head hhead (show 7 ≠ 6 by decide)]
    have hprimitive : primitive ⟨7, n, n⟩ = some (.simple n) := by
      interval_cases n <;> rfl
    simp [hhead, hprimitive]
  | float hx =>
    intro fuel hfuel rest
    obtain ⟨k, rfl⟩ : ∃ k, fuel = k + 1 := ⟨fuel - 1, by omega⟩
    obtain ⟨h, hhead, hmajor, hprimitive⟩ := primitive_numberBytes _ rest
    rw [encode_float, item, tags_of_head hhead (by omega)]
    simp [hhead, hmajor, hprimitive, hx]

theorem decode?_encode {x : Cbor} (h : Fits maxLevels x) : decode? x.encode = some x := by
  have hitem := item_encode h (Nat.lt_succ_self maxLevels) []
  rw [List.append_nil] at hitem
  simp [decode?, hitem]

end Cbor

end RegisterCompiler
