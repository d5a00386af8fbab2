import RegisterCompiler.Project.Write
import RegisterCompiler.Proofs.FileTrees

/-!
# What writing changes

* `FileTree.Grown` : a tree with more directories on the way to a place, and all else as it was;
* `FileTree.grown_makeDirs` : making a directory and those above it changes nothing else;
* `FileTree.writeWithDirs_cases` : a file is written with the directories that it is in, as far as that
  goes, or is refused.
-/

namespace RegisterCompiler.FileTree

open RegisterCompiler.Path (AreNames IsName ofParts slash)

/-! ## More directories -/

/-- There are more directories on the way to a place, and all else is as it was. -/
structure Grown (p : Place) (s s' : State) : Prop where
  dir : s'.dir = s.dir
  limit : s'.tree.limit = s.tree.limit
  proper : s.tree.Proper → s'.tree.Proper
  tree : ∀ q, s'.tree.get? q = s.tree.get? q ∨
    (s.tree.get? q = none ∧ s'.tree.get? q = some .dir ∧ q <+: p)

namespace Grown

variable {p q : Place} {s s' s'' : State}

theorem refl (p : Place) (s : State) : Grown p s s where
  dir := rfl
  limit := rfl
  proper := id
  tree _ := .inl rfl

theorem trans (h : Grown p s s') (h' : Grown p s' s'') : Grown p s s'' where
  dir := h'.dir.trans h.dir
  limit := h'.limit.trans h.limit
  proper hs := h'.proper (h.proper hs)
  tree q := by
    rcases h'.tree q with h2 | ⟨hnone, hdir, hpre⟩
    · rw [h2]
      exact h.tree q
    · rcases h.tree q with h1 | ⟨-, hdir', -⟩
      · exact .inr ⟨h1 ▸ hnone, hdir, hpre⟩
      · rw [hnone] at hdir'
        simp at hdir'

theorem mono (h : Grown p s s') (hp : p <+: q) : Grown q s s' where
  dir := h.dir
  limit := h.limit
  proper := h.proper
  tree r := (h.tree r).imp id fun ⟨hnone, hdir, hpre⟩ => ⟨hnone, hdir, hpre.trans hp⟩

theorem get?_of_not_prefix (h : Grown p s s') (hq : ¬ q <+: p) : s'.tree.get? q = s.tree.get? q :=
  (h.tree q).resolve_right fun ⟨_, _, hpre⟩ => hq hpre

theorem get?_dir (h : Grown p s s') (hq : s.tree.get? q = some .dir) : s'.tree.get? q = some .dir :=
  (h.tree q).elim (·.trans hq) fun hnew => hnew.2.1

theorem get?_file (h : Grown p s s') {data : Bytes} :
    s'.tree.get? q = some (.file data) ↔ s.tree.get? q = some (.file data) := by
  rcases h.tree q with heq | ⟨hnone, hdir, -⟩
  · rw [heq]
  · simp [hnone, hdir]

end Grown

/-- Runs that only make directories on the way to a place. -/
def Grows (p : Place) {α : Type} (x : StateM State α) : Prop :=
  ∀ s, Grown p s (x s).2

namespace Grows

variable {α β : Type} {p q : Place} {x : StateM State α}

theorem pure (a : α) : Grows p (Pure.pure a : StateM State α) := fun s => .refl p s

theorem bind {f : α → StateM State β} (hx : Grows p x) (hf : ∀ a, Grows p (f a)) : Grows p (x >>= f) :=
  fun s => (hx s).trans (hf (x s).1 (x s).2)

theorem ite {c : Prop} [Decidable c] {y : StateM State α} (hx : c → Grows p x) (hy : ¬ c → Grows p y) :
    Grows p (if c then x else y) := by
  split
  · exact hx ‹_›
  · exact hy ‹_›

theorem mono (hx : Grows p x) (h : p <+: q) : Grows q x := fun s => (hx s).mono h

theorem kind (path : Bytes) : Grows p (Disk.kind path : StateM State _) := fun s => .refl p s

end Grows

variable {path name : Bytes} {ps : Place} {s s' : State}

/-! ## Making directories -/

/-- The text leads to a place, with or without a slash at its end. -/
def Leads (path : Bytes) (ps : Place) : Prop :=
  path = ofParts true ps ∨ (ps ≠ [] ∧ path = ofParts true ps ++ [slash])

theorem reverse_dropWhile_of_leads (hps : AreNames (ps ++ [name])) (h : Leads path (ps ++ [name])) :
    path.reverse.dropWhile (· == slash) = (ofParts true (ps ++ [name])).reverse := by
  obtain ⟨lead, c, hc, hend⟩ := Path.exists_ofParts_end hps
  rcases h with rfl | ⟨-, rfl⟩ <;> simp [hend, hc]

theorem trimSlashes_of_leads (hps : AreNames ps) (h : Leads path ps) : trimSlashes path = ofParts true ps := by
  rcases List.eq_nil_or_concat' ps with rfl | ⟨init, name, rfl⟩
  · obtain rfl : path = ofParts true [] := by simpa [Leads] using h
    rfl
  · obtain ⟨lead, c, -, hend⟩ := Path.exists_ofParts_end hps
    rw [trimSlashes, reverse_dropWhile_of_leads hps h, hend]
    simp

theorem leads_parentOf (hps : AreNames (ps ++ [name]))
    (h : Leads path (ps ++ [name])) : Leads (Disk.parentOf path) ps := by
  rw [Disk.parentOf, reverse_dropWhile_of_leads hps h, Path.reverse_dropWhile_ofParts hps]
  split
  · next hnil =>
    rw [hnil]
    exact .inl rfl
  · next hne => exact .inr ⟨hne, rfl⟩

theorem grown_put (hps : AreNames ps)
    (hway : ∀ r, r <+: ps → r ≠ ps → s.tree.get? r = some .dir) (hnone : s.tree.get? ps = none) :
    Grown ps s { s with tree := s.tree.put ps .dir } := by
  rcases List.eq_nil_or_concat' ps with rfl | ⟨init, name, rfl⟩
  · simp at hnone
  · have hdir : s.tree.get? init = some .dir := hway init (List.prefix_append ..) (by simp)
    refine ⟨rfl, rfl, fun hs => hs.put hps hdir (by simp [hnone]) .dir, fun q => ?_⟩
    rw [get?_put (by simp)]
    split
    · next heq => exact .inr ⟨heq ▸ hnone, rfl, heq ▸ List.prefix_rfl⟩
    · exact .inl rfl

theorem grows_makeDir (hps : AreNames ps) (h : Leads path ps) : Grows ps (Disk.makeDir path : StateM State _) := by
  intro s
  have hrun : (Disk.makeDir path : StateM State _) s = s.makeDir path := rfl
  rw [hrun, State.makeDir, trimSlashes_of_leads hps h]
  cases hp : s.tree.resolve s.dir (ofParts true ps) with
  | error => exact .refl ps s
  | ok q =>
    obtain ⟨rfl, -, hway⟩ := (resolve_ofParts hps s.tree s.dir q).1 hp
    dsimp only
    split_ifs with hnode
    · exact .refl q s
    · exact grown_put hps hway (by simpa using hnode)
    · exact .refl q s

theorem grows_makeLast (hps : AreNames ps) (h : Leads path ps)
    (above : Except Disk.Refusal Unit) :
    Grows ps (match above with
      | .error refusal => Pure.pure (.error refusal)
      | .ok _ => do
        match ← Disk.makeDir path with
        | .ok _ => Pure.pure (.ok ())
        | .error fault =>
          match ← Disk.kind path with
          | .ok .dir => Pure.pure (.ok ())
          | _ => Pure.pure (.error ⟨.makeDir, path, fault⟩) : StateM State (Except Disk.Refusal Unit)) := by
  split
  · exact .pure _
  · refine .bind (grows_makeDir hps h) fun made => ?_
    split
    · exact .pure _
    · refine .bind (.kind path) fun k => ?_
      split <;> exact .pure _

theorem grows_makeDirsWithin (n : Nat) (hps : AreNames ps)
    (h : Leads path ps) : Grows ps (Disk.makeDirsWithin n path : StateM State _) := by
  induction n generalizing path ps with
  | zero => exact .pure _
  | succ n ih =>
    have hparent (hne : (Disk.parentOf path).isEmpty ≠ true) :
        Grows ps (Disk.makeDirsWithin n (Disk.parentOf path) : StateM State _) := by
      rcases List.eq_nil_or_concat' ps with rfl | ⟨init, name, rfl⟩
      · obtain rfl : path = ofParts true [] := by simpa [Leads] using h
        exact absurd rfl hne
      · refine .mono ?_ (List.prefix_append init [name])
        exact ih (fun n hn => hps n (List.mem_append_left _ hn)) (leads_parentOf hps h)
    refine .bind (.kind path) fun k => ?_
    split
    · exact .pure _
    · exact .pure _
    · refine .ite (fun _ => ?_) fun hne => ?_
      · exact .bind (.pure _) (grows_makeLast hps h)
      · exact .bind (hparent hne) (grows_makeLast hps h)

theorem makeDirs_of_dir (h : s.kind path = .ok .dir) : (Disk.makeDirs path : StateM State _) s = (.ok (), s) := by
  rw [Disk.makeDirs, Disk.makeDirsWithin]
  have hkind : (Disk.kind path : StateM State _) s = (.ok .dir, s) := by
    rw [← h]
    rfl
  simp only [bind, StateT.bind, hkind]
  rfl

/-! ## Writing files -/

theorem target_eq_ok (hps : AreNames (ps ++ [name])) {q : Place} :
    s.target (ofParts true (ps ++ [name])) = .ok q ↔ q = ps ++ [name] ∧ Spelled (ps ++ [name]) ∧
      (∀ r, r <+: ps ++ [name] → r ≠ ps ++ [name] → s.tree.get? r = some .dir) ∧
      s.tree.get? (ps ++ [name]) ≠ some .dir ∧ s.tree.limit (ps ++ [name]) ≠ .refused := by
  have hslash : (ofParts true (ps ++ [name])).endsWith [slash] = false := by
    obtain ⟨lead, c, hc, hend⟩ := Path.exists_ofParts_end hps
    have hne : (slash == c) = false := by simpa using Ne.symm hc
    simp [Bytes.endsWith, hend, List.isSuffixOf, List.isPrefixOf, hne]
  have hresolve := resolve_ofParts hps s.tree s.dir
  rw [State.target, trimSlashes_of_leads hps (.inl rfl), hslash]
  cases hp : s.tree.resolve s.dir (ofParts true (ps ++ [name])) with
  | error =>
    simp only [error_bind, reduceCtorEq, false_iff]
    rintro ⟨-, hspelled, hway, -⟩
    rw [(hresolve _).2 ⟨rfl, hspelled, hway⟩] at hp
    cases hp
  | ok r =>
    obtain ⟨rfl, hspelled, hway⟩ := (hresolve r).1 hp
    by_cases hdir : s.tree.get? (ps ++ [name]) = some .dir
    · simp [hdir]
    · by_cases hlimit : s.tree.limit (ps ++ [name]) = .refused
      · simp [hdir, hlimit]
      · simp only [ok_bind, Bool.false_eq_true, if_false, hdir, hlimit, pure_eq_ok, Except.ok.injEq]
        exact ⟨fun h => ⟨h.symm, hspelled, hway, hdir, hlimit⟩, fun h => h.1.symm⟩

/-- A file has a content, and there are more directories on the way to it; all else is as it was. -/
structure Written (ps : Place) (name data : Bytes) (s s' : State) : Prop where
  dir : s'.dir = s.dir
  limit : s'.tree.limit = s.tree.limit
  proper : s'.tree.Proper
  spelled : Spelled (ps ++ [name])
  fits : s.tree.get? (ps ++ [name]) ≠ some .dir
  file : s'.tree.get? (ps ++ [name]) = some (.file data)
  others : ∀ q, q ≠ ps ++ [name] →
    s'.tree.get? q = s.tree.get? q ∨ (s.tree.get? q = none ∧ s'.tree.get? q = some .dir ∧ q <+: ps)

theorem Written.get?_of_not_prefix {q : Place} {data : Bytes}
    (h : Written ps name data s s') (hq : ¬ q <+: ps ++ [name]) : s'.tree.get? q = s.tree.get? q := by
  have hne : q ≠ ps ++ [name] := by
    rintro rfl
    exact hq List.prefix_rfl
  refine (h.others q hne).resolve_right fun ⟨_, _, hpre⟩ => hq ?_
  exact hpre.trans (List.prefix_append ..)

theorem Written.get?_file {q : Place} {data d : Bytes} (h : Written ps name data s s')
    (hq : q ≠ ps ++ [name]) (hfile : s.tree.get? q = some (.file d)) : s'.tree.get? q = s.tree.get? q := by
  refine (h.others q hq).resolve_right fun ⟨hnone, _, _⟩ => ?_
  simp [hfile] at hnone

theorem Spelled.init (h : Spelled (ps ++ [name])) : Spelled ps := by
  by_cases hps : ps = []
  · rw [hps]
    exact ⟨by decide, by decide, by simp⟩
  · obtain ⟨hzero, hlen, hshort⟩ := h
    rw [Path.ofParts_concat hps] at hzero hlen
    refine ⟨fun hmem => hzero ?_, ?_, fun n hn => hshort n (List.mem_append_left _ hn)⟩
    · exact List.mem_append_left _ (List.mem_append_left _ hmem)
    · simp only [List.length_append] at hlen
      omega

theorem run_writeFile (path data : Bytes) (s : State) : (Disk.writeFile path data : StateM State _) s =
      ((s.write path data).1.mapError fun fault => ⟨fault.onWrite, path, fault⟩, (s.write path data).2) := by
  have hwrite : (Disk.write path data : StateM State _) s = s.write path data := rfl
  rw [Disk.writeFile]
  simp only [bind, StateT.bind, hwrite]
  rcases s.write path data with ⟨result, s'⟩
  cases result <;> rfl

theorem writeWithDirs_of_makeDirs (data : Bytes) {refusal : Disk.Refusal}
    (h : (Disk.makeDirs (Path.dir path) : StateM State _) s = (.error refusal, s')) :
    (writeWithDirs path data : StateM State _) s = (.error (.cannotCreate (Path.dir path) refusal), s') := by
  rw [writeWithDirs]
  simp only [bind, StateT.bind, h]
  rfl

theorem writeWithDirs_of_write (data : Bytes) (h : (Disk.makeDirs (Path.dir path) : StateM State _) s = (.ok (), s')) :
    (writeWithDirs path data : StateM State _) s =
      ((s'.write path data).1.mapError fun fault => .cannotWrite path ⟨fault.onWrite, path, fault⟩,
        (s'.write path data).2) := by
  rw [writeWithDirs]
  simp only [bind, StateT.bind, h, run_writeFile]
  rcases s'.write path data with ⟨result, s''⟩
  cases result <;> rfl

theorem outcome_eq_ok {l : Limit} : l.outcome = .ok () ↔ l = .free := by
  cases l <;> simp [Limit.outcome]

theorem stored_prefix (data : Bytes) (l : Limit) : l.stored data <+: data := by
  cases l with
  | free | refused => exact List.prefix_rfl
  | breaksOff kept => exact List.take_prefix ..

theorem exists_writeWithDirs (hps : AreNames (ps ++ [name])) (data : Bytes) (hs : s.tree.Proper) {d : Bytes}
    (hread : s.read (ofParts true (ps ++ [name])) = .ok d) (hfree : s.tree.limit (ps ++ [name]) = .free) :
    ∃ s', (writeWithDirs (ofParts true (ps ++ [name])) data : StateM State _) s = (.ok (), s') := by
  obtain ⟨hspelled, hfile⟩ := (State.read_eq_ok hs hps).1 hread
  have hinit : AreNames ps := fun n hn => hps n (List.mem_append_left _ hn)
  have hkind : s.kind (Path.dir (ofParts true (ps ++ [name]))) = .ok .dir := by
    rw [Path.dir_ofParts hps, State.kind_eq_dir hs hinit]
    exact ⟨hspelled.init, hs.parent hfile⟩
  have htarget := (target_eq_ok hps).2
    ⟨rfl, hspelled, fun r hr hne => hs.get?_above hfile hr hne, by simp [hfile], by simp [hfree]⟩
  rw [writeWithDirs_of_write data (makeDirs_of_dir hkind), State.write, htarget]
  simp only [hfree]
  exact ⟨_, rfl⟩

/-- A file is written, with the directories that it is in, as far as its place lets it, or is refused. If its
place is free, there is no file after a refusal. -/
theorem writeWithDirs_cases (hps : AreNames (ps ++ [name])) (data : Bytes) (hs : s.tree.Proper) :
    (∃ r s', (writeWithDirs (ofParts true (ps ++ [name])) data : StateM State _) s = (r, s') ∧
      (r = .ok () ↔ s.tree.limit (ps ++ [name]) = .free) ∧ s.tree.limit (ps ++ [name]) ≠ .refused ∧
      Written ps name ((s.tree.limit (ps ++ [name])).stored data) s s') ∨
    ∃ e s', (writeWithDirs (ofParts true (ps ++ [name])) data : StateM State _) s = (.error e, s') ∧
      Grown ps s s' ∧
      (s.tree.limit (ps ++ [name]) = .free → ∀ d, s'.read (ofParts true (ps ++ [name])) ≠ .ok d) := by
  have hinit : AreNames ps := fun n hn => hps n (List.mem_append_left _ hn)
  have hgrown : Grown ps s ((Disk.makeDirs (Path.dir (ofParts true (ps ++ [name]))) : StateM State _) s).2 := by
    rw [Path.dir_ofParts hps]
    exact grows_makeDirsWithin _ hinit (.inl rfl) s
  -- a file that can be read after a refusal was there before, and could have been written
  have hrefused {e : ProjectError} {s' : State} (hg : Grown ps s s')
      (hrun : (writeWithDirs (ofParts true (ps ++ [name])) data : StateM State _) s = (.error e, s'))
      (hfree : s.tree.limit (ps ++ [name]) = .free) (d : Bytes) : s'.read (ofParts true (ps ++ [name])) ≠ .ok d := by
    intro hread
    have hread' : s.read (ofParts true (ps ++ [name])) = .ok d := by
      rw [State.read_eq_ok (hg.proper hs) hps, hg.get?_file] at hread
      exact (State.read_eq_ok hs hps).2 hread
    obtain ⟨s'', hok⟩ := exists_writeWithDirs hps data hs hread' hfree
    rw [hrun] at hok
    cases (Prod.mk.inj hok).1
  rcases hmade : (Disk.makeDirs (Path.dir (ofParts true (ps ++ [name]))) : StateM State _) s with ⟨made, s1⟩
  rw [hmade] at hgrown
  cases made with
  | error refusal =>
    have hrun := writeWithDirs_of_makeDirs data hmade
    exact .inr ⟨_, s1, hrun, hgrown, hrefused hgrown hrun⟩
  | ok u =>
    have hrun := writeWithDirs_of_write data hmade
    rw [State.write] at hrun
    cases htarget : s1.target (ofParts true (ps ++ [name])) with
    | error fault =>
      rw [htarget] at hrun
      exact .inr ⟨_, s1, hrun, hgrown, hrefused hgrown hrun⟩
    | ok q =>
      simp only [htarget] at hrun
      obtain ⟨rfl, hspelled, hway, hno, hopen⟩ := (target_eq_ok hps).1 htarget
      have hdir : s1.tree.get? ps = some .dir := hway ps (List.prefix_append ..) (by simp)
      rw [← hgrown.limit]
      refine .inl ⟨_, _, hrun, ?_, hopen, hgrown.dir, hgrown.limit, (hgrown.proper hs).put hps hdir hno _, hspelled,
        fun h => hno (hgrown.get?_dir h), (get?_put (by simp) _ _ _).trans (if_pos rfl), fun q hq => ?_⟩
      · rw [← outcome_eq_ok]
        generalize (s1.tree.limit (ps ++ [name])).outcome = outcome
        cases outcome <;> simp [Except.mapError]
      · have hput (node : Node) : (s1.tree.put (ps ++ [name]) node).get? q = s1.tree.get? q :=
          (get?_put (by simp) _ _ _).trans (if_neg hq)
        rw [hput]
        exact hgrown.tree q

end RegisterCompiler.FileTree
