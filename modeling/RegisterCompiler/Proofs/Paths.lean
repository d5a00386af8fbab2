import Mathlib.Data.List.Basic
import Mathlib.Data.List.TakeWhile
import RegisterCompiler.Disk.Path

/-!
# Paths and the names in them

* `Path.parts_isName` : the parts of an absolute path are names;
* `Path.parts_ofParts` : an absolute path is its parts;
* `Path.join_cons`, `Path.join_pair` : below an absolute path go the names that are joined to it;
* `Path.below?_eq_some` : a path as seen from a directory is the rest of its parts.
-/

namespace RegisterCompiler

/-! ## Splitting and joining -/

namespace Bytes

variable {sep : UInt8} {ps : List Bytes}

theorem splitOn_ne_nil (sep : UInt8) (s : Bytes) : splitOn sep s ≠ [] := by
  cases s with
  | nil => simp [splitOn]
  | cons c s =>
    rw [splitOn]
    split
    · simp
    · split <;> simp

theorem splitOn_of_notMem {s : Bytes} (h : sep ∉ s) : splitOn sep s = [s] := by
  induction s with
  | nil => rfl
  | cons c s ih =>
    obtain ⟨hc, hs⟩ := not_or.1 (List.mem_cons.not.1 h)
    simp [splitOn, ih hs, Ne.symm hc]

theorem splitOn_append_sep (sep : UInt8) (s t : Bytes) :
    splitOn sep (s ++ sep :: t) = splitOn sep s ++ splitOn sep t := by
  induction s with
  | nil => simp [splitOn]
  | cons c s ih =>
    by_cases hc : c = sep
    · simp [splitOn, hc, ih]
    · rw [List.cons_append, splitOn, splitOn, ih]
      cases hs : splitOn sep s with
      | nil => exact absurd hs (splitOn_ne_nil sep s)
      | cons p ps => simp [hc]

theorem notMem_of_mem_splitOn {s p : Bytes} (h : p ∈ splitOn sep s) : sep ∉ p := by
  induction s generalizing p with
  | nil =>
    obtain rfl : p = [] := by simpa [splitOn] using h
    simp
  | cons c s ih =>
    rw [splitOn] at h
    split at h
    · rcases List.mem_cons.1 h with rfl | h
      · simp
      · exact ih h
    · next hc =>
      have hne : sep ≠ c := fun heq => hc (by simp [heq])
      split at h
      · next hs => exact absurd hs (splitOn_ne_nil sep s)
      · next q qs hs =>
        rw [hs] at ih
        rcases List.mem_cons.1 h with rfl | h
        · simp [hne, ih List.mem_cons_self]
        · exact ih (List.mem_cons_of_mem q h)

theorem intercalate_cons (sep p : Bytes) (h : ps ≠ []) :
    intercalate sep (p :: ps) = p ++ sep ++ intercalate sep ps := by
  cases ps with
  | nil => exact absurd rfl h
  | cons q qs => rfl

theorem splitOn_intercalate (hne : ps ≠ []) (h : ∀ p ∈ ps, sep ∉ p) : splitOn sep (intercalate [sep] ps) = ps := by
  induction ps with
  | nil => exact absurd rfl hne
  | cons p ps ih =>
    have hp : splitOn sep p = [p] := splitOn_of_notMem (h p List.mem_cons_self)
    by_cases hps : ps = []
    · rw [hps, intercalate, hp]
    · rw [intercalate_cons _ _ hps, List.append_assoc, List.singleton_append, splitOn_append_sep, hp,
        ih hps fun q hq => h q (List.mem_cons_of_mem p hq), List.singleton_append]

theorem intercalate_concat_append (sep : Bytes) (ps : List Bytes) (w x : Bytes) :
    intercalate sep (ps ++ [w ++ x]) = intercalate sep (ps ++ [w]) ++ x := by
  induction ps with
  | nil => rfl
  | cons p ps ih =>
    rw [List.cons_append, List.cons_append, intercalate_cons _ _ (by simp), ih,
      intercalate_cons _ _ (by simp), List.append_assoc _ _ x]

theorem intercalate_concat (sep : Bytes) (h : ps ≠ []) (w : Bytes) :
    intercalate sep (ps ++ [w]) = intercalate sep ps ++ sep ++ w := by
  induction ps with
  | nil => exact absurd rfl h
  | cons p ps ih =>
    by_cases hps : ps = []
    · rw [hps]
      rfl
    · rw [List.cons_append, intercalate_cons _ _ (by simp), ih hps, intercalate_cons _ _ hps]
      simp

end Bytes

namespace Path

variable {name path d s : Bytes} {ps : List Bytes} {c : UInt8}

/-! ## Names -/

/-- The part is a step down: it is not empty, neither stays nor goes up, and is one part. -/
structure IsName (name : Bytes) : Prop where
  ne_nil : name ≠ []
  ne_here : name ≠ here
  ne_up : name ≠ up
  one : slash ∉ name

instance : DecidablePred IsName := fun name =>
  decidable_of_iff (name ≠ [] ∧ name ≠ here ∧ name ≠ up ∧ slash ∉ name)
    ⟨fun ⟨h1, h2, h3, h4⟩ => ⟨h1, h2, h3, h4⟩, fun h => ⟨h.ne_nil, h.ne_here, h.ne_up, h.one⟩⟩

@[simp] abbrev AreNames (ps : List Bytes) : Prop :=
  ∀ p ∈ ps, IsName p

theorem isName_of_length (hlen : 2 < name.length) (h : slash ∉ name) : IsName name where
  ne_nil := by rintro rfl; simp at hlen
  ne_here := by rintro rfl; exact absurd hlen (by decide)
  ne_up := by rintro rfl; exact absurd hlen (by decide)
  one := h

theorem splitOn_intercalate (hne : ps ≠ []) (h : AreNames ps) :
    Bytes.splitOn slash (Bytes.intercalate [slash] ps) = ps :=
  Bytes.splitOn_intercalate hne fun p hp => (h p hp).one

theorem intercalate_ne_nil (hne : ps ≠ []) (h : AreNames ps) : Bytes.intercalate [slash] ps ≠ [] := by
  cases ps with
  | nil => exact absurd rfl hne
  | cons p ps =>
    have hp : p ≠ [] := (h p List.mem_cons_self).ne_nil
    by_cases hps : ps = []
    · simpa [hps, Bytes.intercalate] using hp
    · simp [Bytes.intercalate_cons _ _ hps]

/-! ## Parts of absolute paths -/

/-- One part followed, from what remains of those before it. -/
def descend (rooted : Bool) (done : List Bytes) (part : Bytes) : List Bytes :=
  if part.isEmpty || part == here then done
  else if part == up then
    match done with
    | [] => if rooted then [] else [up]
    | last :: rest => if last == up then up :: done else rest
  else part :: done

theorem follow_eq (rooted : Bool) (ps : List Bytes) : follow rooted ps = ps.foldl (descend rooted) [] :=
  rfl

theorem descend_of_isName (h : IsName name) (rooted : Bool) (done : List Bytes) :
    descend rooted done name = name :: done := by
  simp [descend, h.ne_nil, h.ne_here, h.ne_up]

theorem foldl_descend (h : AreNames ps) (rooted : Bool) (done : List Bytes) :
    ps.foldl (descend rooted) done = ps.reverse ++ done := by
  induction ps generalizing done with
  | nil => rfl
  | cons p ps ih =>
    rw [List.foldl_cons, descend_of_isName (h p List.mem_cons_self), ih fun q hq => h q (List.mem_cons_of_mem p hq)]
    simp

theorem isName_of_mem_descend {done : List Bytes} {part : Bytes} (hdone : AreNames done)
    (hpart : slash ∉ part) : AreNames (descend true done part) := by
  unfold descend
  split
  · exact hdone
  · next hstay =>
    simp only [Bool.or_eq_true, List.isEmpty_iff, beq_iff_eq, not_or] at hstay
    split
    · cases done with
      | nil => simp
      | cons last rest =>
        have hlast : last ≠ up := (hdone last List.mem_cons_self).ne_up
        simpa [hlast] using fun p hp => hdone p (List.mem_cons_of_mem last hp)
    · next hup =>
      intro p hp
      rcases List.mem_cons.1 hp with rfl | hp
      · exact ⟨hstay.1, hstay.2, by simpa using hup, hpart⟩
      · exact hdone p hp

theorem isName_of_mem_foldl {done : List Bytes} (hdone : AreNames done)
    (hps : ∀ p ∈ ps, slash ∉ p) : AreNames (ps.foldl (descend true) done) := by
  induction ps generalizing done with
  | nil => exact hdone
  | cons q ps ih =>
    exact ih (isName_of_mem_descend hdone (hps q List.mem_cons_self)) fun p hp =>
      hps p (List.mem_cons_of_mem q hp)

theorem parts_isName (h : isAbsolute path) : AreNames (parts path) := by
  intro p hp
  rw [parts, h, List.mem_reverse, follow_eq] at hp
  exact isName_of_mem_foldl (by simp) (fun q hq => Bytes.notMem_of_mem_splitOn hq) p hp

theorem isAbsolute_append (h : isAbsolute path) (rest : Bytes) : isAbsolute (path ++ rest) := by
  cases path with
  | nil => simp [isAbsolute] at h
  | cons c path => exact h

theorem parts_append {text : Bytes} (h : isAbsolute path) (ht : AreNames (Bytes.splitOn slash text)) :
    parts (path ++ slash :: text) = parts path ++ Bytes.splitOn slash text := by
  have habs : isAbsolute (path ++ slash :: text) = true := isAbsolute_append h _
  rw [parts, parts, habs, h, Bytes.splitOn_append_sep, follow_eq, follow_eq, List.foldl_append,
    foldl_descend ht, List.reverse_append, List.reverse_reverse]

theorem isAbsolute_ofParts (ps : List Bytes) : isAbsolute (ofParts true ps) = true := by
  simp [isAbsolute, ofParts]

theorem parts_ofParts (h : AreNames ps) : parts (ofParts true ps) = ps := by
  by_cases hps : ps = []
  · subst hps
    rfl
  · have hsplit := splitOn_intercalate hps h
    rw [parts, isAbsolute_ofParts, ofParts, if_pos rfl]
    simp only [Bytes.splitOn, beq_self_eq_true, if_pos, hsplit, follow_eq, List.foldl_cons]
    rw [foldl_descend h]
    simp [descend]

theorem ofParts_inj {qs : List Bytes} (hp : AreNames ps) (hq : AreNames qs) :
    ofParts true ps = ofParts true qs ↔ ps = qs := by
  constructor
  · intro h
    rw [← parts_ofParts hp, h, parts_ofParts hq]
  · rintro rfl
    rfl

theorem clean_of_isAbsolute (h : isAbsolute path) : clean path = ofParts true (parts path) := by
  rw [clean, h]

theorem parts_append_slash (h : isAbsolute path) : parts (path ++ [slash]) = parts path := by
  have habs : isAbsolute (path ++ [slash]) = true := isAbsolute_append h _
  rw [parts, parts, habs, h, Bytes.splitOn_append_sep, follow_eq, follow_eq, List.foldl_append]
  rfl

/-! ## Joining -/

theorem ne_nil_of_isAbsolute (h : isAbsolute path) : path ≠ [] := by
  rintro rfl
  simp [isAbsolute] at h

section
variable (h : isAbsolute d) (es : List Bytes)
include h es

theorem join_of_isAbsolute : join (d :: es) = clean (Bytes.intercalate [slash] (d :: es.filter (!·.isEmpty))) := by
  have hd : d ≠ [] := ne_nil_of_isAbsolute h
  simp [join, hd]

theorem isAbsolute_intercalate : isAbsolute (Bytes.intercalate [slash] (d :: es)) := by
  by_cases hes : es = []
  · rw [hes]
    exact h
  · rw [Bytes.intercalate_cons _ _ hes, List.append_assoc]
    exact isAbsolute_append h _

theorem exists_join : ∃ ps, (AreNames ps) ∧ join (d :: es) = ofParts true ps :=
  have habs := isAbsolute_intercalate h (es.filter (!·.isEmpty))
  ⟨_, parts_isName habs, by rw [join_of_isAbsolute h, clean_of_isAbsolute habs]⟩

theorem isAbsolute_join : isAbsolute (join (d :: es)) := by
  obtain ⟨ps, -, heq⟩ := exists_join h es
  rw [heq, isAbsolute_ofParts]

end

theorem join_pair {text : Bytes} (h : isAbsolute d) (hne : text ≠ []) (ht : AreNames (Bytes.splitOn slash text)) :
    join [d, text] = ofParts true (parts d ++ Bytes.splitOn slash text) := by
  have habs := isAbsolute_append h (slash :: text)
  have hfilter : [text].filter (!·.isEmpty) = [text] := by simp [hne]
  rw [join_of_isAbsolute h, hfilter, Bytes.intercalate_cons _ _ (by simp), List.append_assoc,
    List.singleton_append, Bytes.intercalate, clean_of_isAbsolute habs, parts_append h ht]

theorem join_cons (h : isAbsolute d) (hps : AreNames ps) : join (d :: ps) = ofParts true (parts d ++ ps) := by
  have hfilter : ps.filter (!·.isEmpty) = ps := by
    rw [List.filter_eq_self]
    intro p hp
    simp [(hps p hp).ne_nil]
  rw [join_of_isAbsolute h, hfilter]
  by_cases hnil : ps = []
  · rw [hnil, Bytes.intercalate, clean_of_isAbsolute h, List.append_nil]
  · have hsplit := splitOn_intercalate hnil hps
    have habs := isAbsolute_append h (slash :: Bytes.intercalate [slash] ps)
    rw [Bytes.intercalate_cons _ _ hnil, List.append_assoc, List.singleton_append,
      clean_of_isAbsolute habs, parts_append h (by rwa [hsplit]), hsplit]

/-! ## Relative paths -/

theorem ofParts_false (hne : ps ≠ []) (h : AreNames ps) : ofParts false ps = Bytes.intercalate [slash] ps := by
  have hempty := intercalate_ne_nil hne h
  simp [ofParts, hempty]

theorem splitOn_ofParts (hne : ps ≠ []) (h : AreNames ps) : Bytes.splitOn slash (ofParts false ps) = ps := by
  rw [ofParts_false hne h, splitOn_intercalate hne h]

theorem ofParts_false_inj {qs : List Bytes} (hp : AreNames ps) (hq : AreNames qs) :
    ofParts false ps = ofParts false qs ↔ ps = qs := by
  have hdot {rs : List Bytes} (hr : AreNames rs) (h : here = ofParts false rs) : rs = [] := by
    by_contra hne
    have hsplit : Bytes.splitOn slash here = rs := by rw [h, splitOn_ofParts hne hr]
    exact (hr here (hsplit ▸ by decide)).ne_here rfl
  constructor
  · intro h
    by_cases hps : ps = []
    · rw [hps] at h ⊢
      exact (hdot hq h).symm
    · by_cases hqs : qs = []
      · rw [hqs] at h ⊢
        exact hdot hp h.symm
      · rw [← splitOn_ofParts hps hp, h, splitOn_ofParts hqs hq]
  · rintro rfl
    rfl

theorem up_eq : up = [46, 46] := rfl

theorem startsWith_ofParts_up (ps : List Bytes) : (ofParts false (up :: ps)).startsWith up := by
  by_cases hps : ps = []
  · rw [hps]
    rfl
  · simp only [ofParts, Bytes.intercalate_cons _ _ hps]
    simp [Bytes.startsWith]

theorem not_startsWith_ofParts (h : AreNames ps)
    (hup : ∀ p ∈ ps, ¬ Bytes.startsWith p up) : ¬ (ofParts false ps).startsWith up := by
  cases ps with
  | nil => decide
  | cons p ps =>
    have hname := h p List.mem_cons_self
    have hp := hup p List.mem_cons_self
    rw [ofParts_false (by simp) h]
    by_cases hps : ps = []
    · rwa [hps]
    · rw [Bytes.intercalate_cons _ _ hps]
      cases p with
      | nil => exact absurd rfl hname.ne_nil
      | cons a p =>
        cases p with
        | nil =>
          have hslash : (46 : UInt8) ≠ slash := by decide
          simp [Bytes.startsWith, up_eq, hslash]
        | cons b p => simpa [Bytes.startsWith, up_eq] using hp

theorem dropCommon_append (ps qs : List Bytes) : dropCommon ps (ps ++ qs) = ([], qs) := by
  induction ps with
  | nil => cases qs <;> rfl
  | cons p ps ih => simp [dropCommon, ih]

theorem exists_dropCommon (ps qs : List Bytes) :
    ∃ common, ps = common ++ (dropCommon ps qs).1 ∧ qs = common ++ (dropCommon ps qs).2 := by
  fun_induction dropCommon ps qs with
  | case1 p ps q qs heq ih =>
    obtain ⟨common, h1, h2⟩ := ih
    obtain rfl : p = q := by simpa using heq
    exact ⟨p :: common, by rw [List.cons_append, ← h1], by rw [List.cons_append, ← h2]⟩
  | case2 => exact ⟨[], rfl, rfl⟩
  | case3 => exact ⟨[], rfl, rfl⟩

/-- A path lies below a directory if its parts go on where those of the directory end. One that
starts with two dots is not seen there. -/
theorem below?_eq_some {r : Bytes} (hd : isAbsolute d) (hpath : isAbsolute path) : below? d path = some r ↔
      ∃ ps, parts path = parts d ++ ps ∧ r = ofParts false ps ∧ ¬ r.startsWith up := by
  have hrel : relative? d path = some r ↔ ((dropCommon (parts d) (parts path)).1.head? ≠ some up ∧
      ofParts false ((dropCommon (parts d) (parts path)).1.map (fun _ => up) ++
        (dropCommon (parts d) (parts path)).2) = r) := by
    simp [relative?, hd, hpath]
  rw [below?, Option.filter_eq_some_iff, hrel]
  constructor
  · rintro ⟨⟨-, heq⟩, hup⟩
    obtain ⟨common, h1, h2⟩ := exists_dropCommon (parts d) (parts path)
    cases hups : (dropCommon (parts d) (parts path)).1 with
    | nil =>
      rw [hups, List.append_nil] at h1
      rw [hups, List.map_nil, List.nil_append] at heq
      exact ⟨_, h2.trans (by rw [← h1]), heq.symm, by simpa using hup⟩
    | cons u us =>
      rw [hups, List.map_cons, List.cons_append] at heq
      rw [← heq, startsWith_ofParts_up] at hup
      simp at hup
  · rintro ⟨ps, hparts, rfl, hup⟩
    rw [hparts, dropCommon_append]
    simp [hup]

/-! ## The last name -/

theorem takeWhile_ne (h : c ∉ s) (rest : Bytes) : (s ++ c :: rest).takeWhile (· != c) = s := by
  have hall : ∀ a ∈ s, (a != c) = true := by
    intro a ha
    simpa using ne_of_mem_of_not_mem ha h
  rw [List.takeWhile_append_of_pos hall]
  simp

theorem dropWhile_ne (h : c ∉ s) (rest : Bytes) : (s ++ c :: rest).dropWhile (· != c) = c :: rest := by
  have hall : ∀ a ∈ s, (a != c) = true := by
    intro a ha
    simpa using ne_of_mem_of_not_mem ha h
  rw [List.dropWhile_append_of_pos hall]
  simp

theorem lastPart_of_notMem (h : slash ∉ s) : lastPart s = s := by
  have hall : ∀ a ∈ s.reverse, (a != slash) = true := by
    intro a ha
    simpa using ne_of_mem_of_not_mem (List.mem_reverse.1 ha) h
  rw [lastPart, List.takeWhile_eq_self_iff.2 hall, List.reverse_reverse]

theorem lastPart_append (h : slash ∉ s) (lead : Bytes) : lastPart (lead ++ [slash] ++ s) = s := by
  have hrev : (lead ++ [slash] ++ s).reverse = s.reverse ++ slash :: lead.reverse := by simp
  rw [lastPart, hrev, takeWhile_ne (by simpa using h), List.reverse_reverse]

theorem ofParts_concat (h : ps ≠ []) (name : Bytes) :
    ofParts true (ps ++ [name]) = ofParts true ps ++ [slash] ++ name := by
  simp [ofParts, Bytes.intercalate_concat _ h]

theorem lastPart_ofParts (rooted : Bool)
    (h : AreNames (ps ++ [name])) : lastPart (ofParts rooted (ps ++ [name])) = name := by
  have hname : slash ∉ name := (h name (by simp)).one
  cases rooted with
  | false =>
    rw [ofParts_false (by simp) h]
    by_cases hps : ps = []
    · rw [hps]
      exact lastPart_of_notMem hname
    · rw [Bytes.intercalate_concat _ hps, lastPart_append hname]
  | true =>
    by_cases hps : ps = []
    · rw [hps]
      exact lastPart_append hname []
    · rw [ofParts_concat hps, lastPart_append hname]

theorem base_eq_lastPart {lead : Bytes} (hc : c ≠ slash) : base (lead ++ [c]) = lastPart (lead ++ [c]) := by
  have hdrop : (lead ++ [c]).reverse.dropWhile (· == slash) = (lead ++ [c]).reverse := by simp [hc]
  rw [base, hdrop, List.reverse_reverse]
  cases lead <;> rfl

section
variable (h : AreNames (ps ++ [name]))
include h

theorem exists_ofParts_end : ∃ lead c, c ≠ slash ∧ ofParts true (ps ++ [name]) = lead ++ [c] := by
  have hname := h name (by simp)
  obtain ⟨init, c, rfl⟩ := (List.eq_nil_or_concat' name).resolve_left hname.ne_nil
  refine ⟨slash :: Bytes.intercalate [slash] (ps ++ [init]), c, ?_, ?_⟩
  · rintro rfl
    exact hname.one (by simp)
  · rw [ofParts, if_pos rfl, Bytes.intercalate_concat_append, List.cons_append]

theorem base_ofParts : base (ofParts true (ps ++ [name])) = name := by
  obtain ⟨lead, c, hc, hend⟩ := exists_ofParts_end h
  rw [hend, base_eq_lastPart hc, ← hend, lastPart_ofParts true h]

theorem reverse_dropWhile_ofParts :
    ((ofParts true (ps ++ [name])).reverse.dropWhile (· != slash)).reverse =
      if ps = [] then [slash] else ofParts true ps ++ [slash] := by
  have hname : slash ∉ name.reverse := by simpa using (h name (by simp)).one
  split
  · next hps =>
    have hrev : (ofParts true (ps ++ [name])).reverse = name.reverse ++ slash :: [] := by
      rw [hps]
      simp [ofParts, Bytes.intercalate]
    rw [hrev, dropWhile_ne hname]
    rfl
  · next hps =>
    have hrev : (ofParts true (ps ++ [name])).reverse = name.reverse ++ slash :: (ofParts true ps).reverse := by
      rw [ofParts_concat hps]
      simp
    rw [hrev, dropWhile_ne hname, List.reverse_cons, List.reverse_reverse]

theorem dir_ofParts : dir (ofParts true (ps ++ [name])) = ofParts true ps := by
  rw [dir, reverse_dropWhile_ofParts h]
  split
  · next hps =>
    rw [hps]
    rfl
  · have habs := isAbsolute_append (isAbsolute_ofParts ps) [slash]
    rw [clean_of_isAbsolute habs, parts_append_slash (isAbsolute_ofParts ps),
      parts_ofParts fun p hp => h p (List.mem_append_left _ hp)]

end

theorem ext_congr {a b : Bytes} (h : lastPart a = lastPart b) : ext a = ext b := by
  rw [ext, ext, h]

theorem exists_ext (path : Bytes) : ∃ w, lastPart path = w ++ ext path := by
  rw [ext]
  split
  · next hdot =>
    obtain ⟨tail, lead, heq, htail⟩ := List.eq_append_cons_of_mem (List.contains_iff_mem.1 hdot)
    rw [heq, takeWhile_ne htail]
    refine ⟨lead.reverse, ?_⟩
    rw [← List.reverse_reverse (lastPart path), heq]
    simp
  · exact ⟨lastPart path, by simp⟩

theorem stem_append {w e x : Bytes} (h : AreNames (ps ++ [w ++ e])) (he : ext (w ++ e) = e) (hx : x ≠ []) :
    stem (ofParts false (ps ++ [w ++ e])) ++ x = ofParts false (ps ++ [w ++ x]) := by
  have hone : slash ∉ w ++ e := (h (w ++ e) (by simp)).one
  have hext : ext (ofParts false (ps ++ [w ++ e])) = e := by
    rw [← he, ext_congr (b := w ++ e), he]
    rw [he, lastPart_ofParts false h, lastPart_of_notMem hone]
  have hlong : Bytes.intercalate [slash] (ps ++ [w ++ x]) ≠ [] := by
    simp [Bytes.intercalate_concat_append, hx]
  rw [stem, hext, ofParts_false (by simp) h, Bytes.intercalate_concat_append]
  simp only [ofParts, Bytes.intercalate_concat_append] at hlong ⊢
  simp [hx]

end Path

end RegisterCompiler
