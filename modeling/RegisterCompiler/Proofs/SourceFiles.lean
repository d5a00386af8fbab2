import RegisterCompiler.Proofs.Builds

/-!
# Sources compiled one by one

Each source of a list is read, compiled and has its image written beside it before the next one is read.

* `Path.Leading`, `LeadsToDir` : the text of a path before its last part, and the directory that it leads
  to. A source that can be read is in a directory, so none is made for its image;
* `FileTree.SameDirs` : states that differ in files only, in which the same paths lead to the same places;
* `Outcome` : what compiling one source does, in all such states;
* `compileSources_independent` : what compiling a list of sources does for each of them.
-/

namespace RegisterCompiler

open FileTree (State)

/-! ## Paths in one directory -/

namespace Path

variable {D x : Bytes} {lead ps : List Bytes} {c : UInt8}

theorem descend_sublist (rooted : Bool) (done : List Bytes) (part : Bytes) :
    (descend rooted done part).Sublist (part :: done) := by
  unfold descend
  split
  · exact List.sublist_cons_self ..
  · split
    · next hup =>
      obtain rfl : part = up := by simpa using hup
      cases done with
      | nil => cases rooted <;> simp
      | cons last rest =>
        dsimp only
        split
        · exact List.Sublist.refl _
        · exact (List.sublist_cons_self ..).trans (List.sublist_cons_self ..)
    · exact List.Sublist.refl _

theorem foldl_descend_sublist (rooted : Bool) (ps done : List Bytes) :
    (ps.foldl (descend rooted) done).Sublist (ps.reverse ++ done) := by
  induction ps generalizing done with
  | nil => exact List.Sublist.refl _
  | cons p ps ih =>
    rw [List.foldl_cons, List.reverse_cons, List.append_assoc]
    exact (ih _).trans ((List.Sublist.refl _).append (descend_sublist rooted done p))

theorem intercalate_sublist (h : ps.Sublist lead) :
    (Bytes.intercalate [slash] ps).Sublist (Bytes.intercalate [slash] lead) := by
  induction h with
  | slnil => exact List.Sublist.refl _
  | @cons ps lead p h ih =>
    by_cases hlead : lead = []
    · subst hlead
      obtain rfl := List.sublist_nil.1 h
      exact List.nil_sublist _
    · rw [Bytes.intercalate_cons _ _ hlead]
      exact ih.trans (List.sublist_append_right ..)
  | @cons_cons ps lead p h ih =>
    by_cases hlead : lead = []
    · subst hlead
      obtain rfl := List.sublist_nil.1 h
      exact List.Sublist.refl _
    · rw [Bytes.intercalate_cons _ _ hlead]
      by_cases hps : ps = []
      · rw [hps, List.append_assoc]
        exact List.sublist_append_left ..
      · rw [Bytes.intercalate_cons _ _ hps]
        exact (List.Sublist.refl _).append ih

theorem intercalate_splitOn (s : Bytes) : Bytes.intercalate [slash] (Bytes.splitOn slash s) = s := by
  induction s with
  | nil => rfl
  | cons c s ih =>
    have hne := Bytes.splitOn_ne_nil slash s
    rw [Bytes.splitOn]
    split
    · next hc =>
      rw [Bytes.intercalate_cons _ _ hne, ih, beq_iff_eq.1 hc]
      rfl
    · cases hs : Bytes.splitOn slash s with
      | nil => exact absurd hs hne
      | cons p ps =>
        rw [hs] at ih
        cases ps with
        | nil => exact congrArg (c :: ·) ih
        | cons q qs => exact congrArg (c :: ·) ih

/-- The text `D` ends where the last part of a path starts, and `lead` are the parts in it. -/
def Leading (D : Bytes) (lead : List Bytes) : Prop :=
  D = [] ∧ lead = [] ∨ ∃ d, D = d ++ [slash] ∧ lead = Bytes.splitOn slash d

theorem exists_leading (path : Bytes) : ∃ D lead, Leading D lead ∧ path = D ++ lastPart path ∧ slash ∉ lastPart path := by
  have hpath : path = (path.reverse.dropWhile (· != slash)).reverse ++ lastPart path := by
    rw [lastPart, ← List.reverse_append, List.takeWhile_append_dropWhile, List.reverse_reverse]
  have hlast : slash ∉ lastPart path := by
    intro h
    simpa using List.mem_takeWhile_imp (List.mem_reverse.1 h)
  cases hD : path.reverse.dropWhile (· != slash) with
  | nil => exact ⟨[], [], .inl ⟨rfl, rfl⟩, by rwa [hD] at hpath, hlast⟩
  | cons c rest =>
    have hc : c = slash := by
      have := List.head_dropWhile_not (· != slash) (l := path.reverse) (by simp [hD])
      simpa [hD] using this
    subst hc
    rw [hD, List.reverse_cons] at hpath
    exact ⟨_, _, .inr ⟨_, rfl, rfl⟩, hpath, hlast⟩

namespace Leading

section
variable (h : Leading D lead)
include h

theorem splitOn_append (hx : slash ∉ x) : Bytes.splitOn slash (D ++ x) = lead ++ [x] := by
  have hone := Bytes.splitOn_of_notMem hx
  rcases h with ⟨rfl, rfl⟩ | ⟨d, rfl, rfl⟩
  · exact hone
  · rw [List.append_assoc, List.singleton_append, Bytes.splitOn_append_sep, hone]

theorem isAbsolute_append (hx : slash ∉ x) : isAbsolute (D ++ x) = isAbsolute D := by
  rcases h with ⟨rfl, rfl⟩ | ⟨d, rfl, rfl⟩
  · cases x with
    | nil => rfl
    | cons c x =>
      have hc : c ≠ slash := fun h => hx (h ▸ List.mem_cons_self)
      simp [isAbsolute, hc]
  · cases d <;> rfl

theorem dir_append (hx : slash ∉ x) : dir (D ++ x) = clean D := by
  have hall : ∀ a ∈ x.reverse, (a != slash) = true := by
    intro a ha
    simpa using ne_of_mem_of_not_mem (List.mem_reverse.1 ha) hx
  rw [dir, List.reverse_append, List.dropWhile_append_of_pos hall]
  rcases h with ⟨rfl, rfl⟩ | ⟨d, rfl, rfl⟩
  · rfl
  · simp

theorem clean_eq : clean D = ofParts (isAbsolute D) (lead.foldl (descend (isAbsolute D)) []).reverse := by
  have hsplit := h.splitOn_append (x := []) (by simp)
  rw [List.append_nil] at hsplit
  rw [clean, parts, hsplit, follow_eq, List.foldl_append]
  rfl

theorem sublist (hps : ps.Sublist lead) : (Bytes.intercalate [slash] ps).Sublist D.dropLast := by
  rcases h with ⟨rfl, rfl⟩ | ⟨d, rfl, rfl⟩
  · obtain rfl := List.sublist_nil.1 hps
    exact List.nil_sublist _
  · rw [List.dropLast_concat]
    exact intercalate_splitOn d ▸ intercalate_sublist hps

theorem notMem_slash {p : Bytes} (hp : p ∈ lead) : slash ∉ p := by
  rcases h with ⟨rfl, rfl⟩ | ⟨d, rfl, rfl⟩
  · cases hp
  · exact Bytes.notMem_of_mem_splitOn hp

end

end Leading

end Path

/-! ## Where paths lead -/

namespace FileTree

variable {t t' : FileTree} {p q r d start : Place} {ps lead : List Bytes} {D x name path : Bytes}

theorem step_up (h : t.get? p = some .dir) : t.step p Path.up = .ok p.dropLast := by
  rw [step, needDir_eq_ok.2 h]
  rfl

theorem foldlM_concat (ps : List Bytes) (x : Bytes) (p : Place) :
    (ps ++ [x]).foldlM t.step p = ps.foldlM t.step p >>= fun r => t.step r x := by
  rw [List.foldlM_append]
  refine congrArg _ (funext fun r => ?_)
  rw [List.foldlM_cons]
  cases t.step r x <;> rfl

theorem exists_of_foldlM_concat (h : (ps ++ [x]).foldlM t.step p = .ok q) :
    ∃ r, ps.foldlM t.step p = .ok r ∧ t.step r x = .ok q := by
  rw [foldlM_concat] at h
  cases hr : ps.foldlM t.step p with
  | error => simp [hr] at h
  | ok r => exact ⟨r, rfl, by simpa [hr] using h⟩

theorem foldlM_descend {rooted : Bool} (hroot : rooted = true → p = []) {done : List Bytes}
    (hdone : ∀ y ∈ done, y ≠ [] ∧ y ≠ Path.here) (hr : done.reverse.foldlM t.step p = .ok r)
    (hstep : t.step r x = .ok q) : (∀ y ∈ Path.descend rooted done x, y ≠ [] ∧ y ≠ Path.here) ∧
      (Path.descend rooted done x).reverse.foldlM t.step p = .ok q := by
  have hdir := dir_of_step hstep
  unfold Path.descend
  split
  · next hstay =>
    have hne : x ≠ Path.up := by
      rintro rfl
      cases hstay
    obtain ⟨-, -, rfl⟩ := (step_eq_ok hne).1 hstep
    rw [downs_singleton, if_pos hstay, List.append_nil]
    exact ⟨hdone, hr⟩
  · next hstay =>
    split
    · next hup =>
      obtain rfl : x = Path.up := by simpa using hup
      cases done with
      | nil =>
        obtain rfl : p = r := by simpa using hr
        cases rooted with
        | false => exact ⟨by decide, by simp [hstep]⟩
        | true =>
          rw [step_up hdir, hroot rfl] at hstep
          exact ⟨by simp, by simpa [hroot rfl] using hstep⟩
      | cons last rest =>
        rw [List.reverse_cons] at hr
        obtain ⟨r0, hr0, hlast⟩ := exists_of_foldlM_concat hr
        dsimp only
        split
        · refine ⟨List.forall_mem_cons.2 ⟨by decide, hdone⟩, ?_⟩
          rw [List.reverse_cons, List.reverse_cons, foldlM_concat, hr]
          exact hstep
        · next hname =>
          obtain ⟨hne, hhere⟩ := hdone last List.mem_cons_self
          obtain ⟨-, -, rfl⟩ := (step_eq_ok (by simpa using hname)).1 hlast
          rw [step_up hdir, downs_singleton, if_neg (by simp [hne, hhere]), List.dropLast_concat] at hstep
          exact ⟨fun y hy => hdone y (List.mem_cons_of_mem last hy), hr0.trans hstep⟩
    · refine ⟨List.forall_mem_cons.2 ⟨by simpa using hstay, hdone⟩, ?_⟩
      rw [List.reverse_cons, foldlM_concat, hr]
      exact hstep

theorem foldlM_foldl_descend {rooted : Bool} (hroot : rooted = true → p = []) {done : List Bytes}
    (hdone : ∀ y ∈ done, y ≠ [] ∧ y ≠ Path.here) (hr : done.reverse.foldlM t.step p = .ok r)
    (hq : ps.foldlM t.step r = .ok q) : (∀ y ∈ ps.foldl (Path.descend rooted) done, y ≠ [] ∧ y ≠ Path.here) ∧
      (ps.foldl (Path.descend rooted) done).reverse.foldlM t.step p = .ok q := by
  induction ps generalizing done r with
  | nil =>
    obtain rfl : r = q := by simpa using hq
    exact ⟨hdone, hr⟩
  | cons x ps ih =>
    cases hx : t.step r x with
    | error => simp [hx] at hq
    | ok r' =>
      obtain ⟨hdone', hr'⟩ := foldlM_descend hroot hdone hr hx
      exact ih hdone' hr' (by simpa [hx] using hq)

theorem step_stay (hdir : t.get? p = some .dir) (hstay : name.isEmpty || name == Path.here) : t.step p name = .ok p := by
  have hup : name ≠ Path.up := by
    rintro rfl
    cases hstay
  have hlen : name.length ≤ maxName := by
    rcases Bool.or_eq_true_iff.1 hstay with h | h
    · simp [List.isEmpty_iff.1 h]
    · obtain rfl : name = Path.here := by simpa using h
      decide
  rw [(step_eq_ok hup).2 ⟨hdir, hlen, rfl⟩, downs_singleton, if_pos hstay, List.append_nil]

theorem resolve_ofParts_of_foldlM {rooted : Bool} (hne : ∀ y ∈ ps, y ≠ []) (hone : ∀ y ∈ ps, Path.slash ∉ y)
    (hzero : 0 ∉ Bytes.intercalate [Path.slash] ps) (hlen : (Bytes.intercalate [Path.slash] ps).length < maxPath)
    (hd : ps.foldlM t.step (if rooted then [] else start) = .ok d) (hdir : t.get? d = some .dir) :
    t.resolve start (Path.ofParts rooted ps) = .ok d := by
  rw [resolve_eq_ok]
  by_cases hps : ps = []
  · subst hps
    obtain rfl : (if rooted then [] else start) = d := by simpa using hd
    cases rooted with
    | false =>
      refine ⟨by decide, by decide, by decide, ?_⟩
      have hstay : t.step start Path.here = .ok start := step_stay hdir rfl
      show [Path.here].foldlM t.step start = .ok start
      simp [hstay]
    | true =>
      refine ⟨by decide, by decide, by decide, ?_⟩
      have hstay : t.step [] [] = .ok [] := step_stay t.get?_root rfl
      show [[], []].foldlM t.step [] = .ok []
      simp [hstay]
  · have hsplit := Bytes.splitOn_intercalate hps hone
    cases rooted with
    | true =>
      refine ⟨by simpa [Path.ofParts] using ⟨by decide, hzero⟩, by simp [Path.ofParts], ?_, ?_⟩
      · simp only [Path.ofParts, if_true, List.length_cons]
        omega
      · have hcons : Bytes.splitOn Path.slash (Path.ofParts true ps) = [] :: ps := by
          simp [Path.ofParts, Bytes.splitOn, hsplit]
        rw [hcons, List.foldlM_cons, Path.isAbsolute_ofParts, if_pos rfl, step_stay t.get?_root rfl]
        exact hd
    | false =>
      obtain ⟨c, y, rest, rfl⟩ : ∃ c y rest, ps = (c :: y) :: rest := by
        obtain ⟨y, rest, rfl⟩ := List.exists_cons_of_ne_nil hps
        obtain ⟨c, y, rfl⟩ := List.exists_cons_of_ne_nil (hne y List.mem_cons_self)
        exact ⟨c, y, rest, rfl⟩
      obtain ⟨z, hz⟩ : ∃ z, Bytes.intercalate [Path.slash] ((c :: y) :: rest) = c :: z := by
        cases rest <;> exact ⟨_, rfl⟩
      have htext : Path.ofParts false ((c :: y) :: rest) = c :: z := by
        simp [Path.ofParts, hz]
      have hrel : Path.isAbsolute (c :: z) = false := by
        have hc : c ≠ Path.slash := fun h => hone _ List.mem_cons_self (h ▸ List.mem_cons_self)
        simpa [Path.isAbsolute] using hc
      rw [hz] at hsplit hlen hzero
      rw [htext, hsplit, hrel]
      exact ⟨hzero, by simp, hlen.le, hd⟩

theorem resolve_clean (h : Path.Leading D lead) (hzero : 0 ∉ D) (hlen : D.length ≤ maxPath)
    (hd : lead.foldlM t.step (if Path.isAbsolute D then [] else start) = .ok d) (hdir : t.get? d = some .dir) :
    t.resolve start (Path.clean D) = .ok d := by
  have hsub := Path.foldl_descend_sublist (Path.isAbsolute D) lead []
  have hroot (h : Path.isAbsolute D = true) : (if Path.isAbsolute D then [] else start) = [] := if_pos h
  obtain ⟨hne, hfold⟩ := foldlM_foldl_descend hroot (List.forall_mem_nil _) rfl hd
  rw [h.clean_eq]
  generalize lead.foldl (Path.descend (Path.isAbsolute D)) [] = done at hne hfold hsub
  have hsub' : done.reverse.Sublist lead := by simpa using hsub.reverse
  have htext := h.sublist hsub'
  refine resolve_ofParts_of_foldlM (fun y hy => (hne y (List.mem_reverse.1 hy)).1)
    (fun y hy => h.notMem_slash (hsub'.subset hy))
    (fun hc => hzero ((htext.trans (List.dropLast_sublist D)).subset hc)) ?_ hfold hdir
  have hle := htext.length_le
  have hpos : 0 < maxPath := by decide
  rw [List.length_dropLast] at hle
  omega

/-! ## Trees with the same directories -/

structure SameDirs (s t : State) : Prop where
  dir : t.dir = s.dir
  limit : t.tree.limit = s.tree.limit
  dirs : ∀ q, t.tree.get? q = some .dir ↔ s.tree.get? q = some .dir

namespace SameDirs

variable {s u v : State}

theorem refl (s : State) : SameDirs s s := ⟨rfl, rfl, fun _ => Iff.rfl⟩

theorem step (h : SameDirs s u) (hq : s.tree.step p name = .ok q) : u.tree.step p name = .ok q := by
  have hdir := dir_of_step hq
  rw [FileTree.step, needDir_eq_ok.2 hdir] at hq
  rw [FileTree.step, needDir_eq_ok.2 ((h.dirs p).2 hdir), hq]

theorem foldlM (h : SameDirs s u) (hq : ps.foldlM s.tree.step p = .ok q) : ps.foldlM u.tree.step p = .ok q := by
  induction ps generalizing p with
  | nil => exact hq
  | cons x ps ih =>
    rw [List.foldlM_cons] at hq ⊢
    cases hx : s.tree.step p x with
    | error => simp [hx] at hq
    | ok r =>
      rw [h.step hx]
      exact ih (by simpa [hx] using hq)

theorem resolve (h : SameDirs s u) (hq : s.tree.resolve s.dir path = .ok q) : u.tree.resolve u.dir path = .ok q := by
  rw [resolve_eq_ok] at hq ⊢
  rw [h.dir]
  exact ⟨hq.1, hq.2.1, hq.2.2.1, h.foldlM hq.2.2.2⟩

theorem get?_eq (h : SameDirs s u) (hq : s.tree.resolve s.dir path = .ok q) (hnode : u.tree.get? q = s.tree.get? q) :
    u.get? path = s.get? path := by
  rw [State.get?, State.get?, hq, h.resolve hq]
  simp [hnode]

theorem put (h : SameDirs s u) (hq : s.tree.get? q ≠ some .dir) (data : Bytes) :
    SameDirs s { u with tree := u.tree.put q (.file data) } := by
  have hne : q ≠ [] := by
    rintro rfl
    exact hq rfl
  refine ⟨h.dir, h.limit, fun r => ?_⟩
  rw [get?_put hne]
  split
  · next heq =>
    subst heq
    simp [hq]
  · exact h.dirs r

end SameDirs

end FileTree

/-! ## Images beside sources -/

open FileTree (SameDirs resolve_eq_ok maxPath maxName)

/-- The text `D`, with the parts `lead`, leads to the directory `d`. -/
structure LeadsToDir (s : State) (D : Bytes) (lead : List Bytes) (d : Place) : Prop where
  leading : Path.Leading D lead
  nonzero : 0 ∉ D
  length_le : D.length ≤ maxPath
  leads : lead.foldlM s.tree.step (if Path.isAbsolute D then [] else s.dir) = .ok d
  dir : s.tree.get? d = some .dir

namespace LeadsToDir

variable {s u : State} {D x : Bytes} {lead : List Bytes} {d : Place}

theorem same (h : LeadsToDir s D lead d) (hu : SameDirs s u) : LeadsToDir u D lead d :=
  { h with leads := hu.dir ▸ hu.foldlM h.leads, dir := (hu.dirs d).2 h.dir }

theorem kind (h : LeadsToDir s D lead d) (hx : Path.slash ∉ x) : s.kind (Path.dir (D ++ x)) = .ok .dir := by
  have hclean := FileTree.resolve_clean h.leading h.nonzero h.length_le h.leads h.dir
  rw [h.leading.dir_append hx, State.kind, State.get?, hclean]
  simp [h.dir]

theorem resolve (h : LeadsToDir s D lead d) (hx : Path.IsName x) (hzero : 0 ∉ x) :
    s.tree.resolve s.dir (D ++ x) =
      if (D ++ x).length > maxPath ∨ x.length > maxName then .error .nameTooLong else .ok (d ++ [x]) := by
  have hzeros : (D ++ x).contains 0 = false := by simpa using ⟨h.nonzero, hzero⟩
  have hempty : (D ++ x).isEmpty = false := by simp [hx.ne_nil]
  have hdowns : FileTree.downs [x] = [x] := FileTree.downs_of_names (by simpa using hx)
  rw [FileTree.resolve, hzeros, hempty, h.leading.splitOn_append hx.one, h.leading.isAbsolute_append hx.one,
    FileTree.foldlM_concat, h.leads, FileTree.ok_bind, FileTree.step_of_dir h.dir hx.ne_up, hdowns]
  generalize (D ++ x).length = n
  by_cases hlen : n > maxPath
  · simp [hlen]
  · by_cases hname : x.length > maxName <;> simp [hlen, hname]

theorem target (h : LeadsToDir s D lead d) (hx : Path.IsName x) (hzero : 0 ∉ x) : s.target (D ++ x) =
      if (D ++ x).length > maxPath ∨ x.length > maxName then .error .nameTooLong
      else if s.tree.get? (d ++ [x]) = some .dir then .error .isDirectory
      else if s.tree.limit (d ++ [x]) = .refused then .error .denied else .ok (d ++ [x]) := by
  obtain ⟨init, c, rfl⟩ := (List.eq_nil_or_concat' x).resolve_left hx.ne_nil
  have hc : c ≠ Path.slash := by
    rintro rfl
    exact hx.one (by simp)
  have htrim : FileTree.trimSlashes (D ++ (init ++ [c])) = D ++ (init ++ [c]) := by
    simp [FileTree.trimSlashes, hc]
  have hend : (D ++ (init ++ [c])).endsWith [Path.slash] = false := by
    have hne : (Path.slash == c) = false := by simpa using Ne.symm hc
    simp [Bytes.endsWith, List.isSuffixOf, List.isPrefixOf, hne]
  rw [State.target, htrim, hend, h.resolve hx hzero]
  split
  · rfl
  · simp only [FileTree.ok_bind, Bool.false_eq_true, if_false]
    split_ifs <;> rfl

end LeadsToDir

section Beside
variable {s u : State} {a data image : Bytes}

theorem resolve_of_read (h : s.read a = .ok data) :
    ∃ q, s.tree.resolve s.dir a = .ok q ∧ s.tree.get? q = some (.file data) := by
  rw [State.read, State.get?] at h
  cases hq : s.tree.resolve s.dir a with
  | error => simp [hq] at h
  | ok q =>
    cases hnode : s.tree.get? q with
    | none => simp [hq, hnode] at h
    | some node =>
      cases node with
      | dir => simp [hq, hnode] at h
      | file d =>
        obtain rfl : d = data := by simpa [hq, hnode] using h
        exact ⟨q, rfl, hnode⟩

theorem exists_beside (h : s.read a = .ok data) : ∃ D lead d x, LeadsToDir s D lead d ∧ Path.IsName x ∧ 0 ∉ x ∧
    besidePath a = D ++ x := by
  obtain ⟨q, hq, -⟩ := resolve_of_read h
  obtain ⟨hzero, -, hlen, hfold⟩ := resolve_eq_ok.1 hq
  obtain ⟨D, lead, hlead, hpath, hlast⟩ := Path.exists_leading a
  obtain ⟨w, hw⟩ := Path.exists_ext a
  rw [hw] at hpath hlast
  have hstem : Path.stem a = D ++ w := by
    rw [Path.stem]
    generalize Path.ext a = e at hpath
    subst hpath
    rw [← List.append_assoc, List.take_left' (by simp only [List.length_append]; omega)]
  generalize Path.ext a = e at hpath hlast
  subst hpath
  rw [hlead.splitOn_append hlast, hlead.isAbsolute_append hlast] at hfold
  obtain ⟨d, hd, hstep⟩ := FileTree.exists_of_foldlM_concat hfold
  simp only [List.mem_append, not_or] at hzero hlast
  simp only [List.length_append] at hlen
  have hext : Path.slash ∉ Manifest.imageExt ∧ 0 ∉ Manifest.imageExt := by decide
  refine ⟨D, lead, d, w ++ Manifest.imageExt, ⟨hlead, hzero.1, by omega, hd, FileTree.dir_of_step hstep⟩, ?_, ?_, ?_⟩
  · refine Path.isName_of_length ?_ (by simp [hlast.1, hext.1])
    have hlong : Manifest.imageExt.length = 5 := by decide
    rw [List.length_append]
    omega
  · simp [hzero.2.1, hext.2]
  · rw [besidePath, hstem, List.append_assoc]

theorem resolve_beside (h : s.read a = .ok data) (hu : SameDirs s u) :
    u.tree.resolve u.dir (besidePath a) = s.tree.resolve s.dir (besidePath a) := by
  obtain ⟨D, lead, d, x, hleads, hx, hzero, hbeside⟩ := exists_beside h
  rw [hbeside, hleads.resolve hx hzero, (hleads.same hu).resolve hx hzero]

/-- Beside a source that can be read, an image is refused, or it is stored as far as its place lets it. -/
theorem writeWithDirs_beside (h : s.read a = .ok data) (image : Bytes) :
    (∃ e fault, (s.write (besidePath a) image).1 = .error fault ∧
      ∀ u, SameDirs s u → (writeWithDirs (besidePath a) image : StateM State _) u = (.error e, u)) ∨
    ∃ q result, s.tree.resolve s.dir (besidePath a) = .ok q ∧ s.tree.get? q ≠ some .dir ∧
      (s.write (besidePath a) image).1 = (s.tree.limit q).outcome ∧
      (result = .ok () ↔ s.tree.limit q = .free) ∧
      ∀ u, SameDirs s u → (writeWithDirs (besidePath a) image : StateM State _) u =
        (result, { u with tree := u.tree.put q (.file ((s.tree.limit q).stored image)) }) := by
  obtain ⟨D, lead, d, x, hleads, hx, hzero, hbeside⟩ := exists_beside h
  have hrun (u : State) (hu : SameDirs s u) := FileTree.writeWithDirs_of_write image
    (FileTree.makeDirs_of_dir ((hleads.same hu).kind hx.one))
  have hsame (u : State) (hu : SameDirs s u) : u.target (D ++ x) = s.target (D ++ x) := by
    rw [hleads.target hx hzero, (hleads.same hu).target hx hzero, hu.limit]
    simp only [hu.dirs]
  rw [hbeside]
  cases htarget : s.target (D ++ x) with
  | error fault =>
    refine .inl ⟨.cannotWrite (D ++ x) ⟨fault.onWrite, D ++ x, fault⟩, fault, by simp [State.write, htarget],
      fun u hu => ?_⟩
    rw [hrun u hu, State.write, hsame u hu, htarget]
    rfl
  | ok q =>
    rw [hleads.target hx hzero] at htarget
    split_ifs at htarget with hlong hdir hlimit
    cases htarget
    have htarget : s.target (D ++ x) = .ok (d ++ [x]) := by
      rw [hleads.target hx hzero, if_neg hlong, if_neg hdir, if_neg hlimit]
    refine .inr ⟨d ++ [x], (s.tree.limit (d ++ [x])).outcome.mapError fun fault =>
      .cannotWrite (D ++ x) ⟨fault.onWrite, D ++ x, fault⟩, ?_, hdir, by simp [State.write, htarget], ?_, fun u hu => ?_⟩
    · rw [hleads.resolve hx hzero, if_neg hlong]
    · rw [← FileTree.outcome_eq_ok]
      generalize (s.tree.limit (d ++ [x])).outcome = outcome
      cases outcome <;> simp [Except.mapError]
    · rw [hrun u hu, State.write, hsame u hu, htarget, hu.limit]

/-- A source is compiled by itself, and its image is written beside it. -/
abbrev compileAlone (o : BuildMode) (a : Bytes) : StateM State Report :=
  compileOne [] o a

/-- What compiling a source does, in every state with the same directories and that source. -/
inductive Outcome (s : State) (o : BuildMode) (a data : Bytes) : Prop
  | failed {r : Report} : r.errors.length = 1 →
      (∀ proto, compile data (chunkOfFile a) o.strip = .ok proto →
        ∃ fault, (s.write (besidePath a) (Image.encode proto)).1 = .error fault) →
      (∀ u, SameDirs s u → u.read a = .ok data → compileAlone o a u = (r, u)) → Outcome s o a data
  | wrote {r : Report} {q : Place} {proto : Proto} : compile data (chunkOfFile a) o.strip = .ok proto →
      s.tree.resolve s.dir (besidePath a) = .ok q → s.tree.get? q ≠ some .dir →
      (s.write (besidePath a) (Image.encode proto)).1 = (s.tree.limit q).outcome →
      r.errors.length = (if s.tree.limit q = .free then 0 else 1) →
      (∀ u, SameDirs s u → u.read a = .ok data → compileAlone o a u =
        (r, { u with tree := u.tree.put q (.file ((s.tree.limit q).stored (Image.encode proto))) })) →
      Outcome s o a data

theorem outcome_of_read {o : BuildMode} (ho : o.parseOnly = false) (h : s.read a = .ok data) : Outcome s o a data := by
  cases hproto : compileSource a (chunkOfFile a) data o.strip with
  | error e =>
    refine .failed (r := .ofError e) rfl (fun proto hok => ?_) fun u _ hu => ?_
    · simp [compileSource, hok] at hproto
    · rw [compileAlone, compileOne]
      simp only [bind, StateT.bind, readFile_of_ok hu, hproto]
      rfl
  | ok proto =>
    have hok := compileSource_eq_ok hproto
    have hrun (u : State) (hu : u.read a = .ok data) :
        compileAlone o a u = (emit proto (besidePath a) o : StateM State _) u := by
      rw [compileAlone, compileOne]
      simp only [bind, StateT.bind, readFile_of_ok hu, hproto]
      rfl
    obtain ⟨report, hnone, hone, hemit⟩ := run_emit proto (besidePath a) ho
    rcases writeWithDirs_beside h (Image.encode proto) with
      ⟨e, fault, hwrite, hfail⟩ | ⟨q, result, hq, hdir, hwrite, hfree, hput⟩
    · refine .failed (r := report (.error e)) (by rw [hone]; rfl) (fun proto' hok' => ?_) fun u hsame hu => ?_
      · rw [hok] at hok'
        cases hok'
        exact ⟨fault, hwrite⟩
      · rw [hrun u hu]
        exact hemit (hfail u hsame)
    · refine .wrote (r := report result) hok hq hdir hwrite ?_ fun u hsame hu => ?_
      · cases result with
        | ok => rw [if_pos (hfree.1 rfl), hnone, List.length_nil]
        | error e => rw [if_neg (mt hfree.2 (by simp)), hone, List.length_singleton]
      · rw [hrun u hu]
        exact hemit (hput u hsame)

end Beside

/-! ## All sources -/

def SameFile (s : State) (a b : Bytes) : Prop :=
  ∃ q, s.tree.resolve s.dir a = .ok q ∧ s.tree.resolve s.dir b = .ok q

/-- What is reported of each source when they are compiled one after the other. -/
def reportsOf (o : BuildMode) : List Bytes → State → List Report
  | [], _ => []
  | a :: ps, s => (compileAlone o a s).1 :: reportsOf o ps (compileAlone o a s).2

/-- The state after sources have been compiled one after the other. -/
def compiled (o : BuildMode) (ps : List Bytes) (s : State) : State :=
  ps.foldl (fun s a => (compileAlone o a s).2) s

section All
variable {s u : State} {o : BuildMode} {inputs ps : List Bytes} {a data : Bytes}

theorem length_reportsOf (ps : List Bytes) (s : State) : (reportsOf o ps s).length = ps.length := by
  induction ps generalizing s with
  | nil => rfl
  | cons a ps ih => rw [reportsOf, List.length_cons, ih, List.length_cons]

theorem getElem?_reportsOf (pre : List Bytes) (a : Bytes) (post : List Bytes) (s : State) :
    (reportsOf o (pre ++ a :: post) s)[pre.length]? = some (compileAlone o a (compiled o pre s)).1 := by
  induction pre generalizing s with
  | nil => rfl
  | cons b pre ih => exact ih _

theorem run_compileSources (ps : List Bytes) (r : Report) (s : State) : ∃ r',
    (ps.foldlM (fun r path => return r ++ (← compileOne [] o path)) r : StateM State Report) s =
      (r', compiled o ps s) ∧ r'.errors = r.errors ++ ((reportsOf o ps s).map Report.errors).flatten := by
  induction ps generalizing r s with
  | nil => exact ⟨r, rfl, by simp [reportsOf]⟩
  | cons a ps ih =>
    obtain ⟨r', hrun, herrors⟩ := ih (r ++ (compileAlone o a s).1) (compileAlone o a s).2
    refine ⟨r', ?_, ?_⟩
    · rw [List.foldlM_cons]
      exact hrun
    · rw [herrors, reportsOf, List.map_cons, List.flatten_cons, ← List.append_assoc]
      rfl

/-- Compiling a source, whatever it holds by now, changes nothing but the file where its image goes. -/
theorem compileAlone_frame (ho : o.parseOnly = false) (hread : s.read a = .ok data) (hu : SameDirs s u) :
    SameDirs s (compileAlone o a u).2 ∧ (compileAlone o a u).1.errors.length ≤ 1 ∧
      ∀ q, s.tree.resolve s.dir (besidePath a) ≠ .ok q → (compileAlone o a u).2.tree.get? q = u.tree.get? q := by
  cases hnow : u.read a with
  | error fault =>
    obtain ⟨refusal, hfile⟩ := readFile_of_error hnow
    have hrun : compileAlone o a u = (.ofError (.noSource refusal), u) := by
      rw [compileAlone, compileOne]
      simp only [bind, StateT.bind, hfile]
      rfl
    rw [hrun]
    exact ⟨hu, le_rfl, fun _ _ => rfl⟩
  | ok now =>
    cases outcome_of_read ho hnow with
    | failed hone _ hrun =>
      rw [hrun u (.refl u) hnow]
      exact ⟨hu, hone.le, fun _ _ => rfl⟩
    | @wrote r q proto _ hq hdir _ hcount hrun =>
      rw [hrun u (.refl u) hnow]
      refine ⟨hu.put (mt (hu.dirs q).2 hdir) _, by rw [hcount]; split_ifs <;> omega, fun p hp => ?_⟩
      rw [resolve_beside hread hu] at hq
      have hpq : p ≠ q := by
        rintro rfl
        exact hp hq
      exact (FileTree.get?_put (by rintro rfl; exact hdir rfl) ..).trans (if_neg hpq)

theorem compiled_frame (ho : o.parseOnly = false) (hread : ∀ a ∈ ps, ∃ data, s.read a = .ok data)
    (hu : SameDirs s u) : SameDirs s (compiled o ps u) ∧ (∀ r ∈ reportsOf o ps u, r.errors.length ≤ 1) ∧
      ∀ q, (∀ a ∈ ps, s.tree.resolve s.dir (besidePath a) ≠ .ok q) → (compiled o ps u).tree.get? q = u.tree.get? q := by
  induction ps generalizing u with
  | nil => exact ⟨hu, by simp [reportsOf], fun _ _ => rfl⟩
  | cons a ps ih =>
    obtain ⟨⟨data, hdata⟩, hread⟩ := List.forall_mem_cons.1 hread
    obtain ⟨hv, hone, hothers⟩ := compileAlone_frame ho hdata hu
    obtain ⟨hw, hones, hothers'⟩ := ih hread hv
    refine ⟨hw, List.forall_mem_cons.2 ⟨hone, hones⟩, fun q hq => ?_⟩
    obtain ⟨hqa, hq⟩ := List.forall_mem_cons.1 hq
    exact (hothers' q hq).trans (hothers q hqa)

theorem read_of_frame (hu : SameDirs s u) (hread : s.read a = .ok data)
    (h : ∀ q, s.tree.resolve s.dir a = .ok q → u.tree.get? q = s.tree.get? q) : u.read a = .ok data := by
  obtain ⟨q, hq, -⟩ := resolve_of_read hread
  rw [← hread, State.read, State.read, hu.get?_eq hq (h q hq)]

/-- Sources are compiled independently of each other. Each stays as it is if it is not where an image goes. If it
is not where the image of a source before it goes, its error is the one that it gives by itself. Then there
is its image, if it can be written and that of no later source goes there too; or else, if that of no other
source goes there, all is as it was or holds a first part of the image. -/
theorem compileSources_independent (ho : o.parseOnly = false) (hread : ∀ a ∈ inputs, ∃ data, s.read a = .ok data) :
    ∃ r t errs, (compileSources inputs [] o : StateM State Report) s = (r, t) ∧
      r.errors = List.flatten errs ∧ errs.length = inputs.length ∧ (∀ es ∈ errs, es.length ≤ 1) ∧
      ∀ pre a post data, inputs = pre ++ a :: post → s.read a = .ok data →
        ((∀ b ∈ inputs, ¬ SameFile s (besidePath b) a) → t.read a = .ok data) ∧
        ((∀ b ∈ pre, ¬ SameFile s (besidePath b) a) →
          errs[pre.length]? = some (compileAlone o a s).1.errors ∧
          (((compileAlone o a s).1.errors = [] ∧ ∃ proto, compile data (chunkOfFile a) o.strip = .ok proto ∧
              ((∀ b ∈ post, ¬ SameFile s (besidePath a) (besidePath b)) →
                t.read (besidePath a) = .ok (Image.encode proto))) ∨
            ((compileAlone o a s).1.errors.length = 1 ∧
              (∀ proto, compile data (chunkOfFile a) o.strip = .ok proto →
                ∃ fault, (s.write (besidePath a) (Image.encode proto)).1 = .error fault) ∧
              ((∀ b ∈ pre ++ post, ¬ SameFile s (besidePath a) (besidePath b)) →
                t.get? (besidePath a) = s.get? (besidePath a) ∨
                ∃ proto content, compile data (chunkOfFile a) o.strip = .ok proto ∧
                  content <+: Image.encode proto ∧ t.read (besidePath a) = .ok content)))) := by
  obtain ⟨r, hrun, herrors⟩ := run_compileSources (o := o) inputs {} s
  obtain ⟨ht, hones, hothers⟩ := compiled_frame ho hread (.refl s)
  refine ⟨r, _, (reportsOf o inputs s).map Report.errors, hrun, herrors, by rw [List.length_map, length_reportsOf],
    by simpa using hones, ?_⟩
  rintro pre a post data rfl hdata
  refine ⟨fun hapart => read_of_frame ht hdata fun q hq => hothers q fun b hb hq' => hapart b hb ⟨q, hq', hq⟩,
    fun hapart => ?_⟩
  -- the run is that of the sources before, of the source itself and of those after it
  have hreads := List.forall_mem_append.1 hread
  obtain ⟨hu, -, hpre⟩ := compiled_frame ho hreads.1 (.refl s)
  have hnow := read_of_frame hu hdata fun q hq => hpre q fun b hb hq' => hapart b hb ⟨q, hq', hq⟩
  obtain ⟨hv, -, -⟩ := compileAlone_frame ho hdata hu
  obtain ⟨-, -, hpost⟩ := compiled_frame ho (List.forall_mem_cons.1 hreads.2).2 hv
  have hafter : compiled o (pre ++ a :: post) s = compiled o post (compileAlone o a (compiled o pre s)).2 := by
    rw [compiled, List.foldl_append]
    rfl
  rw [hafter] at ht ⊢
  rw [List.getElem?_map, getElem?_reportsOf, Option.map_some]
  generalize compiled o pre s = u at *
  have hfar {q : Place} (hq : s.tree.resolve s.dir (besidePath a) = .ok q) {bs : List Bytes}
      (hother : ∀ b ∈ bs, ¬ SameFile s (besidePath a) (besidePath b)) (b : Bytes) (hb : b ∈ bs) :
      s.tree.resolve s.dir (besidePath b) ≠ .ok q := fun hq' => hother b hb ⟨q, hq, hq'⟩
  cases outcome_of_read ho hdata with
  | @failed r' hcount hwhy hrun' =>
    rw [hrun' u hu hnow] at ht hpost ⊢
    rw [hrun' s (.refl s) hdata]
    refine ⟨rfl, .inr ⟨hcount, hwhy, fun hother => .inl ?_⟩⟩
    obtain ⟨hbefore, hlater⟩ := List.forall_mem_append.1 hother
    cases hq : s.tree.resolve s.dir (besidePath a) with
    | ok q =>
      refine ht.get?_eq hq ?_
      rw [hpost q (hfar hq hlater), hpre q (hfar hq hbefore)]
    | error fault => simp [State.get?, resolve_beside hdata ht, hq]
  | @wrote r' q proto hproto hq hdir hwrite hcount hrun' =>
    rw [hrun' u hu hnow] at ht hpost ⊢
    rw [hrun' s (.refl s) hdata]
    have hcontent (hlater : ∀ b ∈ post, ¬ SameFile s (besidePath a) (besidePath b)) :
        (compiled o post { u with
          tree := u.tree.put q (.file ((s.tree.limit q).stored (Image.encode proto))) }).read (besidePath a) =
        .ok ((s.tree.limit q).stored (Image.encode proto)) := by
      have hnode := (hpost q (hfar hq hlater)).trans
        ((FileTree.get?_put (by rintro rfl; exact hdir rfl) ..).trans (if_pos rfl))
      simp [State.read, State.get?, ht.resolve hq, hnode]
    refine ⟨rfl, ?_⟩
    by_cases hfree : s.tree.limit q = .free
    · rw [if_pos hfree] at hcount
      refine .inl ⟨List.length_eq_zero_iff.1 hcount, proto, hproto, fun hlater => (hcontent hlater).trans ?_⟩
      rw [hfree]
      rfl
    · rw [if_neg hfree] at hcount
      refine .inr ⟨hcount, fun proto' hproto' => ?_, fun hother => .inr ⟨proto, _, hproto, FileTree.stored_prefix ..,
        hcontent (List.forall_mem_append.1 hother).2⟩⟩
      obtain rfl := Except.ok.inj (hproto.symm.trans hproto')
      rw [hwrite]
      cases houtcome : (s.tree.limit q).outcome with
      | error fault => exact ⟨fault, rfl⟩
      | ok => exact absurd (FileTree.outcome_eq_ok.1 houtcome) hfree

end All

theorem not_sameFile {s : State} {a b : Bytes}
    (h : (s.tree.resolve s.dir a).toOption ≠ (s.tree.resolve s.dir b).toOption) : ¬ SameFile s a b := by
  rintro ⟨q, ha, hb⟩
  exact h (by rw [ha, hb])

/-- The second source has a syntax error, and the image of the third one cannot be written in full. -/
def severalFiles : State where
  tree := {
    nodes := [([bytes "a.luma"], .file (bytes "do local x end")), ([bytes "b.luma"], .file (bytes "do")),
      ([bytes "c.luma"], .file [])]
    limit := fun q => if q = [bytes "c.luac"] then .breaksOff 4 else .free }
  dir := []

theorem compileSources_several : ∃ r t errs proto e,
    (compileSources [bytes "a.luma", bytes "b.luma", bytes "c.luma"] [] {} : StateM State Report) severalFiles =
      (r, t) ∧ r.errors = List.flatten errs ∧ errs.length = 3 ∧ errs[0]? = some [] ∧ errs[1]? = some [e] ∧
      compile (bytes "do local x end") (bytes "@a.luma") false = .ok proto ∧
      t.read (bytes "a.luac") = .ok (Image.encode proto) ∧
      t.get? (bytes "b.luac") = severalFiles.get? (bytes "b.luac") ∧ t.read (bytes "b.luma") = .ok (bytes "do") := by
  have hread : ∀ a ∈ [bytes "a.luma", bytes "b.luma", bytes "c.luma"], ∃ data, severalFiles.read a = .ok data := by
    simp only [List.forall_mem_cons]
    exact ⟨⟨_, rfl⟩, ⟨_, rfl⟩, ⟨_, rfl⟩, by simp⟩
  obtain ⟨r, t, errs, hrun, herrors, hlen, -, hall⟩ := compileSources_independent (o := {}) rfl hread
  obtain ⟨-, ha⟩ := hall [] _ _ _ rfl rfl
  obtain ⟨hb, hb'⟩ := hall [_] _ _ _ rfl rfl
  have hsource : t.read (bytes "b.luma") = .ok (bytes "do") := hb (by
    simp only [List.forall_mem_cons]
    exact ⟨not_sameFile (by decide +kernel), not_sameFile (by decide +kernel), not_sameFile (by decide +kernel), by simp⟩)
  have hbad (proto : Proto) : compile (bytes "do") (bytes "@b.luma") false ≠ .ok proto := by
    intro h
    have hnone : (compile (bytes "do") (bytes "@b.luma") false).toOption.isNone = true := by decide +kernel
    rw [h] at hnone
    cases hnone
  have hgood : (compile (bytes "do local x end") (bytes "@a.luma") false).toOption.isSome = true := by decide +kernel
  obtain ⟨hea, ⟨hnone, proto, hproto, himage⟩ | ⟨-, hwhy, -⟩⟩ := ha (by simp)
  · obtain ⟨heb, ⟨-, proto', hproto', -⟩ | ⟨hone, -, hkeep⟩⟩ := hb' (by simpa using not_sameFile (by decide +kernel))
    · exact absurd hproto' (hbad proto')
    · obtain ⟨e, he⟩ := List.length_eq_one_iff.1 hone
      have himage' := himage (by
        simp only [List.forall_mem_cons]
        exact ⟨not_sameFile (by decide +kernel), not_sameFile (by decide +kernel), by simp⟩)
      rcases hkeep (by
        simp only [List.cons_append, List.nil_append, List.forall_mem_cons]
        exact ⟨not_sameFile (by decide +kernel), not_sameFile (by decide +kernel), by simp⟩)
        with hsame | ⟨proto', -, hproto', -⟩
      · exact ⟨r, t, errs, proto, e, hrun, herrors, hlen, hnone ▸ hea, he ▸ heb, hproto, himage', hsame, hsource⟩
      · exact absurd hproto' (hbad proto')
  · obtain ⟨proto, hproto⟩ := Option.isSome_iff_exists.1 hgood
    obtain ⟨fault, hfault⟩ := hwhy proto (FileTree.toOption_eq_some_iff.1 hproto)
    cases hfault

def oneFile (name data : Bytes) : State :=
  ⟨{ nodes := [([name], .file data)] }, []⟩

/-- A source whose image goes where it is itself. -/
theorem compileSources_overwrites : ¬ ∀ (s : State) (o : BuildMode) (inputs : List Bytes), s.tree.Proper →
    o.parseOnly = false → inputs.Nodup → (∀ a ∈ inputs, ∃ data, s.read a = .ok data) →
    ∀ a ∈ inputs, ((compileSources inputs [] o : StateM State Report) s).2.read a = s.read a := by
  intro h
  have hread := h (oneFile (bytes "a.luac") []) {} [bytes "a.luac"] (by constructor <;> decide +kernel) rfl (by simp)
    (fun a ha => ⟨[], by rw [List.mem_singleton.1 ha]; rfl⟩) _ (List.mem_singleton_self _)
  have hnew : (((compileSources [bytes "a.luac"] [] {} : StateM State Report)
      (oneFile (bytes "a.luac") [])).2.read (bytes "a.luac")).toOption ≠ some [] := by
    decide +kernel
  exact hnew (congrArg Except.toOption hread)

end RegisterCompiler
