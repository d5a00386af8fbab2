import Mathlib.Data.List.Find
import Mathlib.Data.List.Nodup
import RegisterCompiler.Project.Manifest
import RegisterCompiler.Proofs.FileTrees

/-!
# Where images go

* `Manifest.run_allSources` : the sources of a project, by the names that lead to them;
* `Manifest.exists_image` : the image of a source goes to its place below the images;
* `Manifest.imageFor_allSources` : sources share an image if the same names lead to them from the first
  source directories that hold them.
-/

namespace RegisterCompiler.Manifest

open FileTree (State Proper)
open RegisterCompiler.Path (AreNames IsName ofParts)

variable {s s' : State} {sources : List Bytes} {source w : Bytes} {ps : Place}

/-- A source as seen from the first source directory that it is seen from, or its last name. -/
def placeOf (p : Manifest) (source : Bytes) : Bytes :=
  (p.sourceDirs.findSome? (Path.below? · source)).getD (Path.base source)

def seenFrom? (p : Manifest) (source : Bytes) : Option Bytes :=
  p.sourceDirs.find? fun d => (Path.below? d source).isSome

/-- The first source directory that holds a source. -/
def dirOf? (p : Manifest) (source : Bytes) : Option Bytes :=
  p.sourceDirs.find? fun d => (Path.parts d).isPrefixOf (Path.parts source)

/-- No name that leads to a source from a source directory starts with two dots. -/
def PlainNames (p : Manifest) (sources : List Bytes) : Prop :=
  ∀ a ∈ sources, ∀ d ∈ p.sourceDirs, Path.parts d <+: Path.parts a →
    ∀ name ∈ (Path.parts a).drop (Path.parts d).length, ¬ Bytes.startsWith name Path.up

/-- The names that lead to a source from the first source directory that holds it. -/
def namesOf? (p : Manifest) (source : Bytes) : Option Place :=
  (p.dirOf? source).map fun d => (Path.parts source).drop (Path.parts d).length

variable {p : Manifest}

/-! ## Directories -/

theorem exists_sourceDir (hdir : Path.isAbsolute p.dir) {d : Bytes} (hd : d ∈ p.sourceDirs) :
    ∃ ps, (AreNames ps) ∧ d = ofParts true ps := by
  obtain ⟨e, -, rfl⟩ := List.mem_map.1 hd
  exact Path.exists_join hdir [e]

theorem isAbsolute_imageDir (hdir : Path.isAbsolute p.dir) : Path.isAbsolute p.imageDir := by
  rw [imageDir]
  split
  · assumption
  · exact Path.isAbsolute_join hdir _

/-! ## Sources -/

def sourcesFrom (s : State) (dir : Bytes) : List Bytes :=
  ((s.tree.filesFrom (Path.parts dir)).map (ofParts true)).filter (Path.ext · == ProjectError.sourceExt)

theorem run_filesBelow (path : Bytes) (s : State) : (Disk.filesBelow path : StateM State _) s =
      ((s.files path).mapError fun fault => ⟨.inspect, path, fault⟩, s) := by
  have hfiles : (Disk.files path : StateM State _) s = (s.files path, s) := rfl
  rw [Disk.filesBelow]
  cases h : s.files path <;> simp [bind, StateT.bind, hfiles, h, Except.mapError] <;> rfl

theorem run_sourcesBelow_cons (d : Bytes) (dirs : List Bytes) (s : State) :
    (sourcesBelow (d :: dirs) : StateM State _) s =
      match s.files d with
      | .error fault => (.error (.cannotScan d ⟨.inspect, d, fault⟩), s)
      | .ok files =>
        match (sourcesBelow dirs : StateM State _) s with
        | (.error e, s) => (.error e, s)
        | (.ok rest, s) => (.ok (files.filter (Path.ext · == ProjectError.sourceExt) ++ rest), s) := by
  rw [sourcesBelow]
  simp only [bind, StateT.bind, run_filesBelow]
  cases s.files d with
  | error fault => rfl
  | ok files =>
    simp only [Except.mapError, StateT.bind]
    obtain ⟨rest, s'⟩ := (sourcesBelow dirs : StateM State _) s
    cases rest <;> rfl

theorem run_sourcesBelow (hs : s.tree.Proper) {dirs : List Bytes}
    (hdirs : ∀ d ∈ dirs, ∃ ps, (AreNames ps) ∧ d = ofParts true ps)
    (h : (sourcesBelow dirs : StateM State _) s = (.ok sources, s')) :
    sources = dirs.flatMap (sourcesFrom s) ∧ s' = s := by
  induction dirs generalizing sources with
  | nil => exact ⟨(Except.ok.inj (Prod.mk.inj h).1).symm, (Prod.mk.inj h).2.symm⟩
  | cons d dirs ih =>
    obtain ⟨ps, hps, rfl⟩ := hdirs d List.mem_cons_self
    rw [run_sourcesBelow_cons] at h
    cases hfiles : s.files (ofParts true ps) with
    | error fault =>
      rw [hfiles] at h
      cases (Prod.mk.inj h).1
    | ok files =>
      rw [hfiles] at h
      rcases hrun : (sourcesBelow dirs : StateM State _) s with ⟨rest, s1⟩
      rw [hrun] at h
      cases rest with
      | error e => cases (Prod.mk.inj h).1
      | ok rest =>
        cases h
        obtain ⟨rfl, rfl⟩ := ih (fun d hd => hdirs d (List.mem_cons_of_mem _ hd)) hrun
        rw [List.flatMap_cons, sourcesFrom, Path.parts_ofParts hps, FileTree.State.files_eq_ok hs hps hfiles]
        exact ⟨rfl, rfl⟩

theorem allSources_of_sourcesBelow {files : List Bytes}
    (h : (sourcesBelow p.sourceDirs : StateM State _) s = (.ok files, s')) :
    (p.allSources : StateM State _) s = (.ok (files.mergeSort Bytes.le), s') := by
  rw [allSources]
  simp only [bind, StateT.bind, h]
  rfl

theorem sourcesBelow_of_allSources (h : (p.allSources : StateM State _) s = (.ok sources, s')) :
    ∃ files, (sourcesBelow p.sourceDirs : StateM State _) s = (.ok files, s') ∧ sources = files.mergeSort Bytes.le := by
  rw [allSources] at h
  simp only [bind, StateT.bind] at h
  rcases hrun : (sourcesBelow p.sourceDirs : StateM State _) s with ⟨files, s1⟩
  rw [hrun] at h
  cases files with
  | error e => cases (Prod.mk.inj h).1
  | ok files =>
    cases h
    exact ⟨files, rfl, rfl⟩

section
variable (hdir : Path.isAbsolute p.dir) (hs : s.tree.Proper) (h : (p.allSources : StateM State _) s = (.ok sources, s'))
include hdir hs h

theorem run_allSources : sources.Perm (p.sourceDirs.flatMap (sourcesFrom s)) ∧ s' = s := by
  obtain ⟨files, hrun, rfl⟩ := sourcesBelow_of_allSources h
  obtain ⟨rfl, rfl⟩ := run_sourcesBelow hs (fun d hd => exists_sourceDir hdir hd) hrun
  exact ⟨List.mergeSort_perm _ _, rfl⟩

theorem mem_allSources :
    source ∈ sources ↔ Path.ext source = ProjectError.sourceExt ∧ ∃ q data, source = ofParts true q ∧
      (q, .file data) ∈ s.tree.nodes ∧ ∃ d ∈ p.sourceDirs, Path.parts d <+: q := by
  rw [(run_allSources hdir hs h).1.mem_iff, List.mem_flatMap]
  simp only [sourcesFrom, List.mem_filter, List.mem_map, FileTree.mem_filesFrom, beq_iff_eq]
  constructor
  · rintro ⟨d, hd, ⟨q, ⟨⟨data, hmem⟩, hpre⟩, rfl⟩, hext⟩
    exact ⟨hext, q, data, rfl, hmem, d, hd, hpre⟩
  · rintro ⟨hext, q, data, rfl, hmem, d, hd, hpre⟩
    exact ⟨d, hd, ⟨q, ⟨⟨data, hmem⟩, hpre⟩, rfl⟩, hext⟩

end

/-! ## Places -/

theorem findSome?_of_find? {α β : Type} {f : α → Option β} {l : List α} {a : α}
    (h : l.find? (fun x => (f x).isSome) = some a) : l.findSome? f = f a := by
  induction l with
  | nil => simp at h
  | cons x l ih =>
    cases hx : f x with
    | none => simpa [hx] using ih (by simpa [hx] using h)
    | some y =>
      obtain rfl : x = a := by simpa [hx] using h
      simp [hx]

theorem seenFrom?_eq_some {d : Bytes} (h : p.seenFrom? source = some d) :
    d ∈ p.sourceDirs ∧ Path.below? d source = some (p.placeOf source) := by
  have hsome : (Path.below? d source).isSome := by simpa using List.find?_some h
  obtain ⟨r, hr⟩ := Option.isSome_iff_exists.1 hsome
  refine ⟨List.mem_of_find?_eq_some h, ?_⟩
  rw [placeOf, findSome?_of_find? h, hr, Option.getD_some]

theorem seenFrom?_eq_none (h : p.seenFrom? source = none) : p.placeOf source = Path.base source := by
  have hnone : p.sourceDirs.findSome? (Path.below? · source) = none := by
    rw [List.findSome?_eq_none_iff]
    intro d hd
    have := List.find?_eq_none.1 h d hd
    simpa using this
  rw [placeOf, hnone, Option.getD_none]

/-- The place of a source is the end of the names that lead to it. A source directory that is a
source itself is at a dot. -/
theorem placeOf_cases (hdir : Path.isAbsolute p.dir) {q : Place} {name : Bytes} (hq : AreNames (q ++ [name])) :
    (ofParts true (q ++ [name]) ∈ p.sourceDirs ∧ p.placeOf (ofParts true (q ++ [name])) = Path.here) ∨
      ∃ ps, (AreNames (ps ++ [name])) ∧ p.placeOf (ofParts true (q ++ [name])) = ofParts false (ps ++ [name]) := by
  cases h : p.seenFrom? (ofParts true (q ++ [name])) with
  | none =>
    have hname : AreNames [name] := fun n hn => hq n (List.mem_append_right q hn)
    refine .inr ⟨[], hname, ?_⟩
    rw [seenFrom?_eq_none h, Path.base_ofParts hq, List.nil_append, Path.ofParts_false (by simp) hname]
    rfl
  | some d =>
    obtain ⟨hmem, hbelow⟩ := seenFrom?_eq_some h
    obtain ⟨ds, hds, rfl⟩ := exists_sourceDir hdir hmem
    obtain ⟨ps, hparts, heq, -⟩ :=
      (Path.below?_eq_some (Path.isAbsolute_ofParts _) (Path.isAbsolute_ofParts _)).1 hbelow
    rw [Path.parts_ofParts hq, Path.parts_ofParts hds] at hparts
    rcases List.eq_nil_or_concat' ps with rfl | ⟨init, last, rfl⟩
    · rw [List.append_nil] at hparts
      rw [hparts]
      exact .inl ⟨hmem, by rw [← hparts, heq]; rfl⟩
    · rw [← List.append_assoc] at hparts
      obtain ⟨rfl, hlast⟩ := List.append_inj' hparts rfl
      obtain rfl : name = last := by simpa using hlast
      refine .inr ⟨init, fun n hn => hq n ?_, heq⟩
      rw [List.append_assoc]
      exact List.mem_append_right ds hn

/-! ## Images -/

theorem imageFor_eq (p : Manifest) (source : Bytes) :
    p.imageFor source = Path.join [p.imageDir, Path.stem (p.placeOf source) ++ imageExt] :=
  rfl

/-- The name of an image: that of its source, with the other extension. -/
def imageName (w : Bytes) : Bytes := w ++ imageExt

theorem isName_imageName (h : Path.slash ∉ w) : IsName (imageName w) := by
  refine Path.isName_of_length ?_ ?_
  · have : imageExt.length = 5 := by decide
    rw [imageName, List.length_append]
    omega
  · have : Path.slash ∉ imageExt := by decide
    rw [imageName, List.mem_append]
    exact not_or.2 ⟨h, this⟩

theorem isName_of_mem_image (h : AreNames (ps ++ [w ++ ProjectError.sourceExt])) : AreNames (ps ++ [imageName w]) := by
  have hone : Path.slash ∉ w ++ ProjectError.sourceExt := (h _ (by simp)).one
  intro n hn
  rcases List.mem_append.1 hn with hn | hn
  · exact h n (List.mem_append_left _ hn)
  · obtain rfl := List.mem_singleton.1 hn
    exact isName_imageName fun hw => hone (List.mem_append_left _ hw)

theorem imageFor_of_stem (hdir : Path.isAbsolute p.dir)
    (hps : AreNames ps) (hne : ps ≠ []) (h : Path.stem (p.placeOf source) ++ imageExt = ofParts false ps) :
    p.imageFor source = ofParts true (Path.parts p.imageDir ++ ps) := by
  have hsplit := Path.splitOn_ofParts hne hps
  have hlong : ofParts false ps ≠ [] := by
    rw [Path.ofParts_false hne hps]
    exact Path.intercalate_ne_nil hne hps
  rw [imageFor_eq, h, Path.join_pair (isAbsolute_imageDir hdir) hlong (by rwa [hsplit]), hsplit]

theorem imageFor_of_placeOf (hdir : Path.isAbsolute p.dir) (hps : AreNames (ps ++ [w ++ ProjectError.sourceExt]))
    (hext : Path.ext (w ++ ProjectError.sourceExt) = ProjectError.sourceExt)
    (h : p.placeOf source = ofParts false (ps ++ [w ++ ProjectError.sourceExt])) :
    p.imageFor source = ofParts true (Path.parts p.imageDir ++ (ps ++ [imageName w])) := by
  refine imageFor_of_stem hdir (isName_of_mem_image hps) (by simp) ?_
  rw [h, Path.stem_append hps hext (by decide)]
  rfl

theorem exists_sourceName {q : Place} (hne : q ≠ []) (hq : AreNames q)
    (hext : Path.ext (ofParts true q) = ProjectError.sourceExt) : ∃ init w, q = init ++ [w ++ ProjectError.sourceExt] ∧
      Path.ext (w ++ ProjectError.sourceExt) = ProjectError.sourceExt := by
  obtain ⟨init, name, rfl⟩ := (List.eq_nil_or_concat' q).resolve_left hne
  have hlast := Path.lastPart_ofParts true hq
  have hname := Path.lastPart_of_notMem (hq name (by simp)).one
  obtain ⟨w, hw⟩ := Path.exists_ext (ofParts true (init ++ [name]))
  rw [hlast, hext] at hw
  rw [Path.ext_congr (hlast.trans hname.symm), hw] at hext
  exact ⟨init, w, by rw [hw], hext⟩

section
variable (hdir : Path.isAbsolute p.dir) (hs : s.tree.Proper) (h : (p.allSources : StateM State _) s = (.ok sources, s')) (hmem : source ∈ sources)
include hdir hs h hmem

theorem exists_source : ∃ q w data, source = ofParts true (q ++ [w ++ ProjectError.sourceExt]) ∧
      (AreNames (q ++ [w ++ ProjectError.sourceExt])) ∧
      Path.ext (w ++ ProjectError.sourceExt) = ProjectError.sourceExt ∧
      s.tree.get? (q ++ [w ++ ProjectError.sourceExt]) = some (.file data) := by
  obtain ⟨hext, q, data, rfl, hfile, -⟩ := (mem_allSources hdir hs h).1 hmem
  obtain ⟨init, w, rfl, hname⟩ := exists_sourceName (hs.ne_root _ hfile) (hs.names _ hfile) hext
  exact ⟨init, w, data, rfl, hs.names _ hfile, hname, hs.mem_nodes.1 hfile⟩

/-- An image has its name below the directory of the images, and the name is not one of a source. -/
theorem exists_image : ∃ ps w, (AreNames (Path.parts p.imageDir ++ ps ++ [imageName w])) ∧
      p.imageFor source = ofParts true (Path.parts p.imageDir ++ ps ++ [imageName w]) := by
  obtain ⟨q, w, data, rfl, hq, hext, -⟩ := exists_source hdir hs h hmem
  have hroot := Path.parts_isName (isAbsolute_imageDir hdir)
  rcases placeOf_cases hdir hq with ⟨-, hplace⟩ | ⟨ps, hps, hplace⟩
  · have hname : AreNames ([imageName []]) := by
      intro n hn
      obtain rfl := List.mem_singleton.1 hn
      exact isName_imageName (by simp)
    refine ⟨[], [], ?_, ?_⟩
    · rw [List.append_nil]
      exact List.forall_mem_append.2 ⟨hroot, hname⟩
    · rw [List.append_nil, imageFor_of_stem hdir hname (by simp)]
      rw [hplace]
      rfl
  · have hnames := isName_of_mem_image hps
    refine ⟨ps, w, ?_, ?_⟩
    · rw [List.append_assoc]
      exact List.forall_mem_append.2 ⟨hroot, hnames⟩
    · rw [List.append_assoc, imageFor_of_placeOf hdir hps hext hplace]

end

theorem placeOf_eq_of_imageFor_eq (hdir : Path.isAbsolute p.dir) (hs : s.tree.Proper)
    (hdirs : ∀ d ∈ p.sourceDirs, s.kind d = .ok .dir)
    (h : (p.allSources : StateM State _) s = (.ok sources, s')) {a b : Bytes} (ha : a ∈ sources)
    (hb : b ∈ sources) (heq : p.imageFor a = p.imageFor b) : p.placeOf a = p.placeOf b := by
  have hplace {a : Bytes} (ha : a ∈ sources) : ∃ ps w,
      (AreNames (Path.parts p.imageDir ++ (ps ++ [imageName w]))) ∧
      p.placeOf a = ofParts false (ps ++ [w ++ ProjectError.sourceExt]) ∧
      p.imageFor a = ofParts true (Path.parts p.imageDir ++ (ps ++ [imageName w])) := by
    obtain ⟨q, w, data, rfl, hq, hext, hget⟩ := exists_source hdir hs h ha
    rcases placeOf_cases hdir hq with ⟨hmem, -⟩ | ⟨ps, hps, hplace⟩
    · have hkind := ((FileTree.State.kind_eq_dir hs hq).1 (hdirs _ hmem)).2
      rw [hget] at hkind
      simp at hkind
    · refine ⟨ps, w, ?_, hplace, imageFor_of_placeOf hdir hps hext hplace⟩
      intro n hn
      rcases List.mem_append.1 hn with hn | hn
      · exact Path.parts_isName (isAbsolute_imageDir hdir) n hn
      · exact isName_of_mem_image hps n hn
  obtain ⟨ps, w, hps, hplacea, himagea⟩ := hplace ha
  obtain ⟨qs, v, hqs, hplaceb, himageb⟩ := hplace hb
  rw [himagea, himageb, Path.ofParts_inj hps hqs, List.append_cancel_left_eq] at heq
  obtain ⟨rfl, hlast⟩ := List.append_inj' heq rfl
  obtain rfl : w = v := by simpa [imageName] using hlast
  rw [hplacea, hplaceb]

theorem nodup_sourcesFrom (hs : s.tree.Proper) (d : Bytes) : (sourcesFrom s d).Nodup := by
  have hnames {q : Place} (hq : q ∈ s.tree.filesFrom (Path.parts d)) : AreNames q := by
    obtain ⟨⟨data, hmem⟩, -⟩ := FileTree.mem_filesFrom.1 hq
    exact hs.names _ hmem
  refine (List.Nodup.map_on ?_ (hs.nodup_filesFrom _)).filter _
  exact fun q hq r hr heq => (Path.ofParts_inj (hnames hq) (hnames hr)).1 heq

section
variable (hdir : Path.isAbsolute p.dir) (hs : s.tree.Proper) (h : (p.allSources : StateM State _) s = (.ok sources, s'))
include hdir hs h

theorem nodup_sources (hapart : p.sourceDirs.Pairwise fun d e =>
      ¬ Path.parts d <+: Path.parts e ∧ ¬ Path.parts e <+: Path.parts d) : sources.Nodup := by
  have hnames {q : Place} {d : Bytes} (hq : q ∈ s.tree.filesFrom (Path.parts d)) : AreNames q := by
    obtain ⟨⟨data, hmem⟩, -⟩ := FileTree.mem_filesFrom.1 hq
    exact hs.names _ hmem
  rw [(run_allSources hdir hs h).1.nodup_iff, List.nodup_flatMap]
  constructor
  · exact fun d _ => nodup_sourcesFrom hs d
  · refine hapart.imp fun {d e} hde => ?_
    refine List.disjoint_left.2 ?_
    intro source hd he
    obtain ⟨q, hq, rfl⟩ := List.mem_map.1 (List.mem_filter.1 hd).1
    obtain ⟨r, hr, heq⟩ := List.mem_map.1 (List.mem_filter.1 he).1
    obtain rfl := (Path.ofParts_inj (hnames hr) (hnames hq)).1 heq
    have hpq := (FileTree.mem_filesFrom.1 hq).2
    have hpr := (FileTree.mem_filesFrom.1 hr).2
    rcases List.prefix_or_prefix_of_prefix hpq hpr with hpre | hpre
    · exact hde.1 hpre
    · exact hde.2 hpre

/-- Without names that start with two dots, every source is seen from the first directory that holds it. -/
theorem exists_namesOf (hup : p.PlainNames sources) (hmem : source ∈ sources) : ∃ d ∈ p.sourceDirs, ∃ ps, p.dirOf? source = some d ∧ p.namesOf? source = some ps ∧
      AreNames ps ∧ source = ofParts true (Path.parts d ++ ps) ∧ p.placeOf source = ofParts false ps := by
  obtain ⟨-, q, data, rfl, hfile, d, hd, hpre⟩ := (mem_allSources hdir hs h).1 hmem
  have hq : AreNames q := hs.names _ hfile
  have hparts : Path.parts (ofParts true q) = q := Path.parts_ofParts hq
  have hbelow (d : Bytes) (hd : d ∈ p.sourceDirs) (r : Bytes) : Path.below? d (ofParts true q) = some r ↔
      ∃ ps, q = Path.parts d ++ ps ∧ r = ofParts false ps := by
    obtain ⟨ds, -, rfl⟩ := exists_sourceDir hdir hd
    rw [Path.below?_eq_some (Path.isAbsolute_ofParts _) (Path.isAbsolute_ofParts _), hparts]
    refine exists_congr fun ps => and_congr_right fun heq => and_iff_left_of_imp ?_
    rintro rfl
    subst heq
    refine Path.not_startsWith_ofParts (fun n hn => hq n (List.mem_append_right _ hn)) fun n hn => ?_
    refine hup _ hmem _ hd ?_ n ?_
    · rw [hparts]
      exact List.prefix_append ..
    · rwa [hparts, List.drop_left]
  have hseen : p.seenFrom? (ofParts true q) = p.dirOf? (ofParts true q) := by
    refine List.find?_congr fun d hd => ?_
    rw [Bool.eq_iff_iff, Option.isSome_iff_exists, List.isPrefixOf_iff_prefix, hparts]
    simp only [hbelow d hd]
    exact ⟨fun ⟨_, ps, heq, _⟩ => ⟨ps, heq.symm⟩, fun ⟨ps, heq⟩ => ⟨_, ps, heq.symm, rfl⟩⟩
  have hsome : (p.dirOf? (ofParts true q)).isSome := by
    rw [dirOf?, List.find?_isSome]
    exact ⟨d, hd, by rw [hparts, List.isPrefixOf_iff_prefix]; exact hpre⟩
  obtain ⟨e, he⟩ := Option.isSome_iff_exists.1 hsome
  obtain ⟨hemem, hplace⟩ := seenFrom?_eq_some (hseen.trans he)
  obtain ⟨ps, heq, hplace⟩ := (hbelow e hemem _).1 hplace
  refine ⟨e, hemem, ps, he, ?_, fun n hn => hq n (heq ▸ List.mem_append_right _ hn), by rw [← heq], hplace⟩
  rw [namesOf?, he, hparts, heq, Option.map_some, List.drop_left]

end

/-- Sources of a project share an image if the same names lead to them from the first source directories that
hold them, and none of the names starts with two dots. So those that are in one directory do not, and no two
entries of the list do if it is made from one directory. -/
theorem imageFor_allSources (hdir : Path.isAbsolute p.dir) {s s' : State} (hs : s.tree.Proper)
    (hdirs : ∀ d ∈ p.sourceDirs, s.kind d = .ok .dir) {sources : List Bytes}
    (h : (p.allSources : StateM State _) s = (.ok sources, s')) (hup : p.PlainNames sources) :
    (∀ a ∈ sources, (p.namesOf? a).isSome ∧
      ∀ b ∈ sources, p.imageFor a = p.imageFor b ↔ p.namesOf? a = p.namesOf? b) ∧
    (∀ a ∈ sources, ∀ b ∈ sources, p.dirOf? a = p.dirOf? b → p.imageFor a = p.imageFor b → a = b) ∧
    ((p.sourceDirs.Pairwise fun d e => ¬ Path.parts d <+: Path.parts e ∧ ¬ Path.parts e <+: Path.parts d) →
      sources.Nodup) ∧
    (p.dirs.length = 1 → (sources.map p.imageFor).Nodup) := by
  have hiff : ∀ a ∈ sources, ∀ b ∈ sources, p.imageFor a = p.imageFor b ↔ p.namesOf? a = p.namesOf? b := by
    intro a ha b hb
    obtain ⟨-, -, ps, -, hps, hpsn, -, hplacea⟩ := exists_namesOf hdir hs h hup ha
    obtain ⟨-, -, qs, -, hqs, hqsn, -, hplaceb⟩ := exists_namesOf hdir hs h hup hb
    rw [hps, hqs, Option.some.injEq, ← Path.ofParts_false_inj hpsn hqsn, ← hplacea, ← hplaceb]
    exact ⟨placeOf_eq_of_imageFor_eq hdir hs hdirs h ha hb, fun heq => by rw [imageFor_eq, imageFor_eq, heq]⟩
  have hinj : ∀ a ∈ sources, ∀ b ∈ sources, p.dirOf? a = p.dirOf? b → p.imageFor a = p.imageFor b → a = b := by
    intro a ha b hb hsame heq
    obtain ⟨d, -, ps, hda, hps, -, hasource, -⟩ := exists_namesOf hdir hs h hup ha
    obtain ⟨e, -, qs, hdb, hqs, -, hbsource, -⟩ := exists_namesOf hdir hs h hup hb
    obtain rfl : d = e := by simpa [hda, hdb] using hsame
    obtain rfl : ps = qs := by simpa [hps, hqs] using (hiff a ha b hb).1 heq
    rw [hasource, hbsource]
  refine ⟨fun a ha => ⟨?_, hiff a ha⟩, hinj, nodup_sources hdir hs h, fun hone => ?_⟩
  · obtain ⟨-, -, ps, -, hps, -⟩ := exists_namesOf hdir hs h hup ha
    rw [hps, Option.isSome_some]
  · obtain ⟨d, hd⟩ := List.length_eq_one_iff.1 hone
    have hsingle : p.sourceDirs = [Path.join [p.dir, d]] := by rw [sourceDirs, hd, List.map_singleton]
    have hfrom {a : Bytes} (ha : a ∈ sources) : p.dirOf? a = some (Path.join [p.dir, d]) := by
      obtain ⟨e, he, -, hea, -⟩ := exists_namesOf hdir hs h hup ha
      rw [hsingle, List.mem_singleton] at he
      rw [hea, he]
    refine List.Nodup.map_on (fun a ha b hb => hinj a ha b hb ((hfrom ha).trans (hfrom hb).symm)) ?_
    exact nodup_sources hdir hs h (by rw [hsingle]; exact List.pairwise_singleton ..)

def sample (dirs : List Bytes) : Manifest :=
  { dirs, output := bytes "build", dir := bytes "/p" }

def sampleState : State where
  tree := { nodes := [([bytes "p"], .dir), ([bytes "p", bytes "src"], .dir),
    ([bytes "p", bytes "src", bytes "sub"], .dir),
    ([bytes "p", bytes "src", bytes "sub", bytes "x.luma"], .file (bytes "return nil")),
    ([bytes "p", bytes "src", bytes "x.luma"], .file (bytes "do local x end"))] }
  dir := [bytes "p"]

theorem proper_sampleState : sampleState.tree.Proper := by
  constructor <;> decide +kernel

theorem allSources_sample : ((sample [bytes "src"]).allSources : StateM State _) sampleState =
      (.ok [bytes "/p/src/sub/x.luma", bytes "/p/src/x.luma"], sampleState) := by
  have hbelow : (sourcesBelow (sample [bytes "src"]).sourceDirs : StateM State _) sampleState =
      (.ok [bytes "/p/src/sub/x.luma", bytes "/p/src/x.luma"], sampleState) := rfl
  rw [allSources_of_sourcesBelow hbelow, List.mergeSort_of_pairwise (by decide +kernel)]

theorem imageFor_allSources_sample :
    ((sample [bytes "src"]).allSources : StateM State _) sampleState =
      (.ok [bytes "/p/src/sub/x.luma", bytes "/p/src/x.luma"], sampleState) ∧
    ([bytes "/p/src/sub/x.luma", bytes "/p/src/x.luma"].map (sample [bytes "src"]).imageFor).Nodup := by
  refine ⟨allSources_sample,
    (imageFor_allSources rfl proper_sampleState ?_ allSources_sample (by unfold PlainNames; decide +kernel)).2.2.2 rfl⟩
  intro d hd
  obtain rfl := List.mem_singleton.1 hd
  rfl

/-- With a source directory in another one, a source is listed twice, and two sources share an
image. -/
theorem imageFor_shared_of_nested :
    ∃ sources, ((sample [bytes "src/sub", bytes "src"]).allSources : StateM State _) sampleState =
        (.ok sources, sampleState) ∧ ¬ sources.Nodup ∧
      ∃ a ∈ sources, ∃ b ∈ sources, a ≠ b ∧
        (sample [bytes "src/sub", bytes "src"]).imageFor a = (sample [bytes "src/sub", bytes "src"]).imageFor b := by
  have hbelow : (sourcesBelow (sample [bytes "src/sub", bytes "src"]).sourceDirs : StateM State _) sampleState =
      (.ok [bytes "/p/src/sub/x.luma", bytes "/p/src/sub/x.luma", bytes "/p/src/x.luma"], sampleState) := rfl
  refine ⟨_, allSources_of_sourcesBelow hbelow, ?_, ?_⟩
  · rw [(List.mergeSort_perm _ _).nodup_iff]
    decide +kernel
  · refine ⟨bytes "/p/src/sub/x.luma", ?_, bytes "/p/src/x.luma", ?_, by decide +kernel, by decide +kernel⟩
    all_goals
      rw [(List.mergeSort_perm _ _).mem_iff]
      decide +kernel

end RegisterCompiler.Manifest
