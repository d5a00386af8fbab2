import Mathlib.Data.List.Lex
import Mathlib.Data.List.Perm.Basic
import RegisterCompiler.Proofs.Builds

/-!
# Building again

* `FileTree.Adds` : nothing goes away, and no other files have the names of sources. All that a build
  does is of this kind, so that a second one finds the same sources;
* `Manifest.run_entries` : after a build without errors there is an `Entry` for each source;
* `Manifest.run_kept` : a build that finds these in its log keeps them and does nothing else;
* `Manifest.rebuild` : a build right after one without errors.
-/

namespace RegisterCompiler

open FileTree (State Grown Written Proper Spelled)
open RegisterCompiler.Path (AreNames IsName ofParts)

/-! ## What a build adds -/

/-- Nothing goes away, and the files with the names of sources are the same. -/
structure FileTree.Adds (s s' : State) : Prop where
  proper : s'.tree.Proper
  dirs : ∀ q, s.tree.get? q = some .dir → s'.tree.get? q = some .dir
  there : ∀ q, (s.tree.get? q).isSome → (s'.tree.get? q).isSome
  sources : ∀ q name data, ProjectError.sourceExt <:+ name →
    (s'.tree.get? (q ++ [name]) = some (.file data) ↔ s.tree.get? (q ++ [name]) = some (.file data))

namespace FileTree.Adds

variable {s s' s'' : State}

theorem refl (hs : s.tree.Proper) : Adds s s :=
  ⟨hs, fun _ h => h, fun _ h => h, fun _ _ _ _ => Iff.rfl⟩

theorem trans (h : Adds s s') (h' : Adds s' s'') : Adds s s'' :=
  ⟨h'.proper, fun q hq => h'.dirs q (h.dirs q hq), fun q hq => h'.there q (h.there q hq),
    fun q name data hname => (h'.sources q name data hname).trans (h.sources q name data hname)⟩

theorem of_grown {ps : Place} (h : Grown ps s s') (hs : s.tree.Proper) : Adds s s' := by
  refine ⟨h.proper hs, fun q => h.get?_dir, fun q hq => ?_, fun q name data _ => h.get?_file⟩
  rcases h.tree q with heq | ⟨-, hdir, -⟩
  · rwa [heq]
  · rw [hdir]
    rfl

theorem of_written {ps : Place} {name data : Bytes} (h : Written ps name data s s')
    (hname : ¬ ProjectError.sourceExt <:+ name) : Adds s s' := by
  refine ⟨h.proper, fun q hq => ?_, fun q hq => ?_, fun q name' data' hname' => ?_⟩
  · have hne : q ≠ ps ++ [name] := by
      rintro rfl
      exact h.fits hq
    exact (h.others q hne).elim (·.trans hq) fun hnew => hnew.2.1
  · by_cases hne : q = ps ++ [name]
    · rw [hne, h.file]
      rfl
    · rcases h.others q hne with heq | ⟨-, hdir, -⟩
      · rwa [heq]
      · rw [hdir]
        rfl
  · have hne : q ++ [name'] ≠ ps ++ [name] := by
      intro heq
      obtain rfl : name' = name := by simpa using (List.append_inj' heq rfl).2
      exact hname hname'
    rcases h.others _ hne with heq | ⟨hnone, hdir, -⟩
    · rw [heq]
    · simp [hnone, hdir]

theorem exists_get? (h : Adds s s') (hs : s.tree.Proper) {ps : Place} (hps : AreNames ps)
    (hget : ∃ node, s.get? (ofParts true ps) = .ok node) : ∃ node, s'.get? (ofParts true ps) = .ok node := by
  obtain ⟨node, hnode⟩ := hget
  obtain ⟨hspelled, hnode⟩ := (State.get?_eq_ok hs hps).1 hnode
  obtain ⟨node', hnode'⟩ := Option.isSome_iff_exists.1 (h.there ps (by rw [hnode]; rfl))
  exact ⟨node', (State.get?_eq_ok h.proper hps).2 ⟨hspelled, hnode'⟩⟩

end FileTree.Adds

open FileTree (Adds)

/-! ## The same sources -/

theorem FileTree.State.exists_files (s : State) (path : Bytes) :
    (∃ paths, s.files path = .ok paths) ↔ ∃ node, s.get? path = .ok node := by
  rw [State.files, State.get?]
  cases s.tree.resolve s.dir path with
  | error => simp [bind, Except.bind]
  | ok q =>
    simp only [bind, Except.bind]
    cases s.tree.get? q <;> simp [pure, Except.pure, throw, throwThe, MonadExceptOf.throw]

theorem Bytes.le_iff (a b : Bytes) : Bytes.le a b = true ↔ a ≤ b := by
  induction a generalizing b with
  | nil => simp [Bytes.le]
  | cons x a ih =>
    cases b with
    | nil => simp [Bytes.le]
    | cons y b =>
      rw [Bytes.le, List.cons_le_cons_iff]
      split_ifs with hlt hgt
      · simp [hlt]
      · simp [hlt, (UInt8.ne_of_lt hgt).symm]
      · obtain rfl : x = y := UInt8.le_antisymm (UInt8.not_lt.1 hgt) (UInt8.not_lt.1 hlt)
        simp [ih]

theorem mergeSort_eq_of_perm {l l' : List Bytes} (h : l.Perm l') : l.mergeSort Bytes.le = l'.mergeSort Bytes.le := by
  have htrans (a b c : Bytes) (hab : Bytes.le a b = true) (hbc : Bytes.le b c = true) : Bytes.le a c = true := by
    rw [Bytes.le_iff] at *
    exact List.le_trans hab hbc
  have htotal (a b : Bytes) : (Bytes.le a b || Bytes.le b a) = true := by
    rw [Bool.or_eq_true, Bytes.le_iff, Bytes.le_iff]
    exact List.le_total a b
  refine List.Perm.eq_of_pairwise ?_ (List.pairwise_mergeSort htrans htotal l)
    (List.pairwise_mergeSort htrans htotal l') ?_
  · intro a b _ _ hab hba
    rw [Bytes.le_iff] at hab hba
    exact List.le_antisymm hab hba
  · exact (List.mergeSort_perm l _).trans (h.trans (List.mergeSort_perm l' _).symm)

namespace Manifest

variable {p : Manifest} {s s' : State} {files : List Bytes}

theorem exists_sourcesBelow (dirs : List Bytes) (s : State) :
    (∃ l, (sourcesBelow dirs : StateM State _) s = (.ok l, s)) ↔ ∀ d ∈ dirs, ∃ node, s.get? d = .ok node := by
  induction dirs with
  | nil => exact iff_of_true ⟨[], rfl⟩ (by simp)
  | cons d dirs ih =>
    rw [List.forall_mem_cons, ← ih, ← State.exists_files, run_sourcesBelow_cons]
    cases s.files d with
    | error fault =>
      refine iff_of_false ?_ (by simp)
      rintro ⟨l, h⟩
      cases (Prod.mk.inj h).1
    | ok l =>
      have hstate := run_sourcesBelow_state dirs s
      generalize (sourcesBelow dirs : StateM State _) s = r at hstate
      obtain ⟨rest, s1⟩ := r
      obtain rfl : s1 = s := hstate
      cases rest with
      | error e =>
        refine iff_of_false ?_ ?_
        · rintro ⟨l, h⟩
          cases (Prod.mk.inj h).1
        · rintro ⟨-, l, h⟩
          cases (Prod.mk.inj h).1
      | ok rest => exact iff_of_true ⟨_, rfl⟩ ⟨⟨l, rfl⟩, rest, rfl⟩

theorem perm_sourcesFrom (h : Adds s s') (hs : s.tree.Proper) (d : Bytes) :
    (sourcesFrom s' d).Perm (sourcesFrom s d) := by
  rw [List.perm_ext_iff_of_nodup (nodup_sourcesFrom h.proper d) (nodup_sourcesFrom hs d)]
  intro a
  simp only [sourcesFrom, List.mem_filter, List.mem_map, FileTree.mem_filesFrom, beq_iff_eq]
  refine and_congr_left fun hext => exists_congr fun q => and_congr_left fun ha => and_congr_left fun _ =>
    exists_congr fun data => ?_
  subst ha
  have hlast {t : State} (ht : t.tree.Proper) (hmem : (q, .file data) ∈ t.tree.nodes) :
      ∃ init w, q = init ++ [w ++ ProjectError.sourceExt] := by
    obtain ⟨init, w, hq, -⟩ := exists_sourceName (ht.ne_root _ hmem) (ht.names _ hmem) hext
    exact ⟨init, w, hq⟩
  constructor
  · intro hmem
    obtain ⟨init, w, rfl⟩ := hlast h.proper hmem
    rw [h.proper.mem_nodes, h.sources _ _ _ (List.suffix_append ..)] at hmem
    exact hs.mem_nodes.2 hmem
  · intro hmem
    obtain ⟨init, w, rfl⟩ := hlast hs hmem
    rw [hs.mem_nodes, ← h.sources _ _ _ (List.suffix_append ..)] at hmem
    exact h.proper.mem_nodes.2 hmem

theorem allSources_of_adds (h : Adds s s') (hs : s.tree.Proper) (hdir : Path.isAbsolute p.dir)
    (hfiles : (p.allSources : StateM State _) s = (.ok files, s)) :
    (p.allSources : StateM State _) s' = (.ok files, s') := by
  obtain ⟨l, hrun, rfl⟩ := sourcesBelow_of_allSources hfiles
  have hdirs := fun d hd => exists_sourceDir (p := p) hdir (d := d) hd
  obtain ⟨l', hrun'⟩ : ∃ l', (sourcesBelow p.sourceDirs : StateM State _) s' = (.ok l', s') := by
    refine (exists_sourcesBelow _ _).2 fun d hd => ?_
    obtain ⟨ps, hps, rfl⟩ := hdirs d hd
    exact h.exists_get? hs hps ((exists_sourcesBelow _ _).1 ⟨l, hrun⟩ _ hd)
  rw [allSources_of_sourcesBelow hrun', mergeSort_eq_of_perm]
  rw [(run_sourcesBelow hs hdirs hrun).1, (run_sourcesBelow h.proper hdirs hrun').1]
  exact List.Perm.flatMap_left _ fun d _ => perm_sourcesFrom h hs d

/-! ## Entries of a build without errors -/

/-- The names that lead to a source and to its image. -/
structure Placed (p : Manifest) (a : Bytes) : Prop where
  source : ∃ q name, a = ofParts true (q ++ [name]) ∧ (∀ n ∈ q ++ [name], IsName n) ∧ ProjectError.sourceExt <:+ name
  image : ∃ ps w, (∀ n ∈ ps ++ [imageName w], IsName n) ∧ p.imageFor a = ofParts true (ps ++ [imageName w])

theorem placed_of_mem (hdir : Path.isAbsolute p.dir) (hs : s.tree.Proper)
    (hfiles : (p.allSources : StateM State _) s = (.ok files, s)) : ∀ a ∈ files, p.Placed a := by
  intro a ha
  obtain ⟨q, w, -, rfl, hq, -⟩ := exists_source hdir hs hfiles ha
  obtain ⟨ps, w', hps, himage⟩ := exists_image hdir hs hfiles ha
  exact ⟨⟨q, _, rfl, hq, List.suffix_append w _⟩, _, w', hps, himage⟩

/-- An entry tells of a source as it is and of an image that is there. It is the one of the last log, or
its digest is that of what the source compiles to. -/
structure Entry (p : Manifest) (last : Option BuildLog) (strip : Bool) (s : State) (e : LoggedImage) : Prop where
  placed : p.Placed e.source
  image : e.image = p.imageFor e.source
  there : ∃ node, s.get? (p.imageFor e.source) = .ok node
  hash : ∃ data, s.read e.source = .ok data ∧ e.sourceHash = Bytes.hex (sha256 data) ∧
    (last.bind (·.find? e.source) = some e ∨
      ∃ proto, p.Compiles strip e.source data proto ∧ e.imageHash = Bytes.hex proto.digest)

variable {last : Option BuildLog} {strip : Bool} {a : Bytes} {e : LoggedImage} {b b' : Progress} {o : BuildMode}

theorem Placed.read (ha : p.Placed a) (h : Adds s s') (hs : s.tree.Proper) {data : Bytes} :
    s'.read a = .ok data ↔ s.read a = .ok data := by
  obtain ⟨q, name, rfl, hq, hname⟩ := ha.source
  rw [State.read_eq_ok h.proper hq, State.read_eq_ok hs hq, h.sources q name data hname]

theorem Entry.adds (h : p.Entry last strip s e) (hs : s.tree.Proper) (hadds : Adds s s') :
    p.Entry last strip s' e := by
  obtain ⟨ps, w, hps, himage⟩ := h.placed.image
  obtain ⟨data, hread, hhash⟩ := h.hash
  refine ⟨h.placed, h.image, ?_, data, (h.placed.read hadds hs).2 hread, hhash⟩
  have hthere := h.there
  rw [himage] at hthere ⊢
  exact hadds.exists_get? hs hps hthere

theorem SourceStep.adds {ps : Place} {w : Bytes} (h : p.SourceStep last strip a ps (imageName w) b s b' s')
    (hs : s.tree.Proper) : Adds s s' := by
  cases h with
  | left _ hgrown => exact .of_grown hgrown hs
  | kept => exact .refl hs
  | torn _ _ hwritten | made _ _ _ _ hwritten => exact .of_written hwritten (not_suffix_imageName w)

theorem SourceStep.entry {ps : Place} {w : Bytes} (h : p.SourceStep last strip a ps (imageName w) b s b' s')
    (hs : s.tree.Proper) (ha : p.Placed a) (hps : AreNames (ps ++ [imageName w]))
    (himage : p.imageFor a = ofParts true (ps ++ [imageName w])) (he : b'.report.errors = []) :
    b.report.errors = [] ∧ ∃ e, b'.images = b.images ++ [e] ∧ e.source = a ∧ p.Entry last strip s' e := by
  have hadds := h.adds hs
  cases h with
  | left hfailed | torn hfailed => exact absurd (List.append_eq_nil_iff.1 he).2 hfailed
  | @kept data r log node hread hlog hfind hhash himg hnode =>
    obtain rfl : r.source = a := by simpa [BuildLog.find?] using List.find?_some hfind
    exact ⟨he, r, rfl, rfl, ha, himg, ⟨node, hnode⟩, data, hread, hhash, .inl (by rw [hlog]; exact hfind)⟩
  | @made b' s' data proto hread hproto herrors himages hwritten =>
    refine ⟨herrors ▸ he, _, himages, rfl, ha, rfl, ?_, data, (ha.read hadds hs).2 hread, rfl, .inr ⟨proto, hproto, rfl⟩⟩
    rw [himage]
    exact ⟨_, (State.get?_eq_ok hwritten.proper hps).2 ⟨hwritten.spelled, hwritten.file⟩⟩

theorem run_entries (ho : o.parseOnly = false) {sources : List Bytes} (hplaced : ∀ a ∈ sources, p.Placed a)
    (hs : s.tree.Proper) (hrun : (sources.foldlM (p.buildOne last o) b : StateM State _) s = (b', s'))
    (he : b'.report.errors = []) : b.report.errors = [] ∧ Adds s s' ∧ ∃ es, b'.images = b.images ++ es ∧
      es.map (·.source) = sources ∧ ∀ e ∈ es, p.Entry last o.strip s' e := by
  induction sources generalizing b s with
  | nil =>
    cases hrun
    exact ⟨he, .refl hs, [], (List.append_nil _).symm, rfl, by simp⟩
  | cons a sources ih =>
    obtain ⟨ha, hplaced⟩ := List.forall_mem_cons.1 hplaced
    obtain ⟨ps, w, hps, himage⟩ := ha.image
    rw [List.foldlM_cons] at hrun
    rcases hone : (p.buildOne last o b a : StateM State _) s with ⟨b1, s1⟩
    simp only [bind, StateT.bind, hone] at hrun
    have hstep := step_buildOne ho hps himage hs hone
    have hadds := hstep.adds hs
    obtain ⟨he1, hadds', es, himages', rfl, hes⟩ := ih hplaced hadds.proper hrun
    obtain ⟨he0, e, himages, rfl, hentry⟩ := hstep.entry hs ha hps himage he1
    refine ⟨he0, hadds.trans hadds', e :: es, ?_, rfl, ?_⟩
    · rw [himages', himages, List.append_assoc, List.singleton_append]
    · exact List.forall_mem_cons.2 ⟨hentry.adds hadds.proper hadds', hes⟩

/-! ## Builds that keep all entries -/

theorem buildOne_kept {log : BuildLog} (ho : o.parseOnly = false) (hl : o.listing = false)
    (hfind : log.find? a = some e) (h : p.Entry last strip s e) :
    (p.buildOne (some log) o b a : StateM State _) s = ({ b with images := b.images ++ [e] }, s) := by
  obtain rfl : e.source = a := by simpa [BuildLog.find?] using List.find?_some hfind
  obtain ⟨data, hread, hhash, -⟩ := h.hash
  obtain ⟨node, hnode⟩ := h.there
  have hup : upToDate? (some log) o e.source (Bytes.hex (sha256 data)) (p.imageFor e.source) = some e := by
    simp [upToDate?, ho, hl, hfind, hhash, h.image, Option.filter]
  rw [buildOne]
  simp only [bind, StateT.bind, readFile_of_ok hread, hup, run_exists?, hnode]
  rfl

theorem run_kept {log : BuildLog} (ho : o.parseOnly = false) (hl : o.listing = false) {sources : List Bytes}
    (h : ∀ a ∈ sources, ∃ e, log.find? a = some e ∧ p.Entry last strip s e) :
    (sources.foldlM (p.buildOne (some log) o) b : StateM State _) s =
      ({ b with images := b.images ++ sources.filterMap log.find? }, s) := by
  induction sources generalizing b with
  | nil =>
    rw [List.filterMap_nil, List.append_nil]
    rfl
  | cons a sources ih =>
    obtain ⟨⟨e, hfind, hentry⟩, h⟩ := List.forall_mem_cons.1 h
    rw [List.foldlM_cons]
    simp only [bind, StateT.bind, buildOne_kept ho hl hfind hentry]
    rw [ih h, List.filterMap_cons_some hfind, List.append_assoc, List.singleton_append]

theorem lastLog_of_read {text : Bytes} {r : BuildLog} (hread : s.read p.logPath = .ok text)
    (htext : BuildLog.ofText? text = some r) (hstrip : r.stripDebug = o.strip) :
    (p.lastLog o : StateM State _) s = (some r, s) := by
  rw [lastLog, BuildLog.read]
  simp only [bind, StateT.bind, readFile_of_ok hread, htext]
  show ((if r.stripDebug == o.strip then some r else none), s) = (some r, s)
  rw [hstrip, beq_self_eq_true, if_pos rfl]

theorem buildWithLog_of_log {log : Option BuildLog} {s1 s2 : State} (ho : o.parseOnly = false) (hne : files ≠ [])
    (hfiles : (p.allSources : StateM State _) s = (.ok files, s))
    (hlast : (p.lastLog (p.fullMode o) : StateM State _) s = (log, s))
    (hfold : (files.foldlM (p.buildOne log (p.fullMode o)) {} : StateM State _) s = (b, s1))
    (hwrite : ((⟨(p.fullMode o).strip, b.images⟩ : BuildLog).write p.logPath : StateM State _) s1 = (.ok (), s2)) :
    (p.buildWithLog o : StateM State _) s =
      ((p.reportOn (p.fullMode o) b, some ⟨(p.fullMode o).strip, b.images⟩), s2) := by
  have ho' : (p.fullMode o).parseOnly = false := ho
  rw [buildWithLog_of_sources hne hfiles, buildFiles]
  simp only [bind, StateT.bind, hlast, hfold, ho', Bool.false_eq_true, if_false, hwrite]
  rfl

end Manifest

/-! ## Building again -/

/-- The log with each entry replaced by the first one for its source. -/
def BuildLog.firsts (r : BuildLog) : BuildLog :=
  { r with images := r.images.filterMap fun e => r.find? e.source }

theorem BuildLog.exists_find? {r : BuildLog} {e : LoggedImage} (he : e ∈ r.images) :
    ∃ e' ∈ r.images, r.find? e.source = some e' ∧ e'.source = e.source := by
  have hsome : (r.find? e.source).isSome := List.find?_isSome.2 ⟨e, he, by simp⟩
  obtain ⟨e', he'⟩ := Option.isSome_iff_exists.1 hsome
  exact ⟨e', List.mem_of_find?_eq_some he', he', by simpa using List.find?_some he'⟩

theorem BuildLog.firsts_eq {r : BuildLog}
    (h : ∀ e ∈ r.images, ∀ e' ∈ r.images, e'.source = e.source → e' = e) : r.firsts = r := by
  have himages : r.images.filterMap (fun e => r.find? e.source) = r.images.filterMap some := by
    refine List.filterMap_congr fun e he => ?_
    obtain ⟨e', he', hfind, hsame⟩ := exists_find? he
    rw [hfind, h e he e' he' hsame]
  rw [firsts, himages, List.filterMap_some]

namespace Manifest

variable {p : Manifest} {o : BuildMode} {s s' : State} {report : Report} {log last : Option BuildLog} {r : BuildLog}
  {strip : Bool}

/-- How things stand after a build without errors, the log of which is `r`. -/
structure Built (p : Manifest) (last : Option BuildLog) (strip : Bool) (s : State) (r : BuildLog) : Prop where
  proper : s.tree.Proper
  ne_nil : r.images ≠ []
  sources : (p.allSources : StateM State _) s = (.ok (r.images.map (·.source)), s)
  entries : ∀ e ∈ r.images, p.Entry last strip s e
  strip : r.stripDebug = strip
  log : s.read p.logPath = .ok r.text
  free : s.tree.limit (Path.parts p.logPath) = .free

theorem built_of_buildWithLog (hdir : Path.isAbsolute p.dir) (hs : s.tree.Proper) (ho : o.parseOnly = false)
    (hrun : (p.buildWithLog o : StateM State _) s = ((report, log), s')) (he : report.errors = []) :
    ∃ last r, (p.lastLog (p.fullMode o) : StateM State _) s = (last, s) ∧ log = some r ∧ Adds s s' ∧
      p.Built last (p.fullMode o).strip s' r := by
  rcases buildWithLog_cases hrun with ⟨-, -, hfailed⟩ |
    ⟨files, last, b, s1, ho', hne, hfiles, hlast, hfold, ⟨rfl, rfl, hwrite⟩ | ⟨-, hfailed, -⟩⟩
  · exact absurd he (hfailed ho)
  · have hb : b.report.errors = [] := by
      rw [reportOn] at he
      split_ifs at he
      · exact (List.append_eq_nil_iff.1 he).1
      · exact he
    obtain ⟨-, hadds, es, himages, rfl, hes⟩ := run_entries ho' (placed_of_mem hdir hs hfiles) hs hfold hb
    obtain rfl : b.images = es := himages
    obtain ⟨hfree, hwritten, hread⟩ := written_log hdir hadds.proper hwrite
    have hlog : Adds s1 s' := .of_written hwritten (by decide)
    refine ⟨last, _, hlast, rfl, hadds.trans hlog, hwritten.proper, by simpa using hne, ?_, fun e he => ?_, rfl, hread,
      by rw [hwritten.limit, hfree]⟩
    · exact allSources_of_adds (hadds.trans hlog) hs hdir hfiles
    · exact (hes e he).adds hadds.proper hlog
  · exact absurd he hfailed

/-- Building again keeps the first entry for each source, and writes nothing but the log. -/
theorem Built.again (h : p.Built last (p.fullMode o).strip s r) (hdir : Path.isAbsolute p.dir)
    (ho : o.parseOnly = false) (hl : (p.fullMode o).listing = false) (htext : BuildLog.ofText? r.text = some r) :
    ∃ s', (p.buildWithLog o : StateM State _) s =
        ((p.reportOn (p.fullMode o) { images := r.firsts.images }, some r.firsts), s') ∧
      Written (Path.parts p.imageDir) BuildLog.fileName r.firsts.text s s' ∧
      s'.read p.logPath = .ok r.firsts.text := by
  have hfound : ∀ a ∈ r.images.map (·.source), ∃ e, r.find? a = some e ∧ p.Entry last (p.fullMode o).strip s e := by
    intro a ha
    obtain ⟨e, he, rfl⟩ := List.mem_map.1 ha
    obtain ⟨e', he', hfind, -⟩ := BuildLog.exists_find? he
    exact ⟨e', hfind, h.entries e' he'⟩
  have hkept := run_kept (b := {}) (o := p.fullMode o) ho hl hfound
  have hfirsts : r.firsts = ⟨(p.fullMode o).strip, [] ++ (r.images.map (·.source)).filterMap r.find?⟩ := by
    rw [List.nil_append, List.filterMap_map, ← h.strip]
    rfl
  have hread := h.log
  have hfree := h.free
  rw [logPath_eq hdir] at hread hfree
  rw [Path.parts_ofParts (isName_of_mem_logPath hdir)] at hfree
  obtain ⟨s', hwrite⟩ := FileTree.exists_writeWithDirs (isName_of_mem_logPath hdir) r.firsts.text h.proper hread hfree
  have hwrite : (r.firsts.write p.logPath : StateM State _) s = (.ok (), s') := by
    rw [run_writeLog, logPath_eq hdir, hwrite]
    rfl
  have hlog := (written_log hdir h.proper hwrite).2
  rw [hfirsts] at hwrite hlog ⊢
  exact ⟨s', buildWithLog_of_log ho (by simpa using h.ne_nil) h.sources (lastLog_of_read h.log htext h.strip) hkept
    hwrite, hlog⟩

/-- Where a log tells of the content that a source has, it has the digest of what that compiles to. -/
def Honest (p : Manifest) (s : State) (log : BuildLog) : Prop :=
  ∀ e ∈ log.images, ∀ data, s.read e.source = .ok data → e.sourceHash = Bytes.hex (sha256 data) →
    ∃ proto, p.Compiles log.stripDebug e.source data proto ∧ e.imageHash = Bytes.hex proto.digest

theorem Built.firsts_eq (h : p.Built last strip s' r) (hadds : Adds s s') (hs : s.tree.Proper)
    (hlast : ∀ log, last = some log → log.stripDebug = strip ∧ p.Honest s log) : r.firsts = r := by
  have hdigest {e : LoggedImage} (he : e ∈ r.images) : ∃ data proto, s.read e.source = .ok data ∧
      e.sourceHash = Bytes.hex (sha256 data) ∧ p.Compiles strip e.source data proto ∧
      e.imageHash = Bytes.hex proto.digest := by
    have hentry := h.entries e he
    obtain ⟨data, hread, hhash, hlogged | ⟨proto, hproto, hdigest⟩⟩ := hentry.hash
    · rw [hentry.placed.read hadds hs] at hread
      obtain ⟨log, hlog, hfind⟩ := Option.bind_eq_some_iff.1 hlogged
      obtain ⟨rfl, hhonest⟩ := hlast log hlog
      obtain ⟨proto, hproto⟩ := hhonest e (List.mem_of_find?_eq_some hfind) data hread hhash
      exact ⟨data, proto, hread, hhash, hproto⟩
    · rw [hentry.placed.read hadds hs] at hread
      exact ⟨data, proto, hread, hhash, hproto, hdigest⟩
  refine BuildLog.firsts_eq fun e he e' he' hsame => ?_
  have himage := (h.entries e he).image
  have himage' := (h.entries e' he').image
  obtain ⟨data, proto, hread, hhash, hproto, hd⟩ := hdigest he
  obtain ⟨data', proto', hread', hhash', hproto', hd'⟩ := hdigest he'
  obtain ⟨source, image, sourceHash, imageHash⟩ := e
  obtain ⟨source', image', sourceHash', imageHash'⟩ := e'
  obtain rfl : source' = source := hsame
  obtain rfl : data = data' := Except.ok.inj (hread.symm.trans hread')
  obtain rfl : proto = proto' := Except.ok.inj (hproto.symm.trans hproto')
  dsimp only at *
  rw [himage, himage', hhash, hhash', hd, hd']

/-- Building again right after a build without errors compiles nothing, changes no image, and writes a log
in which each entry is the first one that the log before has for its source. That is the same log if no
source is listed twice, or if the log before both was honest. -/
theorem rebuild (hdir : Path.isAbsolute p.dir) (hs : s.tree.Proper) (ho : o.parseOnly = false)
    (hl : (o.listing || p.listing) = false)
    (hrun : (p.buildWithLog o : StateM State _) s = ((report, log), s')) (he : report.errors = [])
    (hlogs : ∀ r, log = some r → BuildLog.ofText? r.text = some r) :
    ∃ r s'', log = some r ∧ (p.buildWithLog o : StateM State _) s' =
        ((p.reportOn (p.fullMode o) { images := r.firsts.images, compiled := 0 }, some r.firsts), s'') ∧
      (p.reportOn (p.fullMode o) { images := r.firsts.images, compiled := 0 }).errors = [] ∧
      (∀ q, q ≠ Path.parts p.logPath → s''.tree.get? q = s'.tree.get? q) ∧ s''.read p.logPath = .ok r.firsts.text ∧
      ((r.images.map (·.source)).Nodup ∨
          (∀ text l, s.read p.logPath = .ok text → BuildLog.ofText? text = some l → p.Honest s l) →
        r.firsts = r ∧ ∀ q, s''.tree.get? q = s'.tree.get? q) := by
  obtain ⟨last, r, hlast, rfl, hadds, hbuilt⟩ := built_of_buildWithLog hdir hs ho hrun he
  obtain ⟨s'', hrun', hwritten, hread⟩ := hbuilt.again hdir ho hl (hlogs r rfl)
  have hplace : Path.parts p.logPath = Path.parts p.imageDir ++ [BuildLog.fileName] := by
    rw [logPath_eq hdir, Path.parts_ofParts (isName_of_mem_logPath hdir)]
  have hfile : s'.tree.get? (Path.parts p.logPath) = some (.file r.text) := by
    have hlog := hbuilt.log
    rw [logPath_eq hdir, State.read_eq_ok hbuilt.proper (isName_of_mem_logPath hdir)] at hlog
    rw [hplace]
    exact hlog.2
  have hsame : ∀ q, q ≠ Path.parts p.logPath → s''.tree.get? q = s'.tree.get? q := by
    intro q hq
    rw [hplace] at hq hfile
    refine (hwritten.others q hq).resolve_right ?_
    rintro ⟨hnone, -, hpre⟩
    rw [hbuilt.proper.get?_above hfile (hpre.trans (List.prefix_append ..)) hq] at hnone
    cases hnone
  refine ⟨r, s'', rfl, hrun', ?_, hsame, hread, fun hcond => ?_⟩
  · rw [reportOn]
    split_ifs <;> rfl
  · have hfirsts : r.firsts = r := by
      rcases hcond with hnodup | hhonest
      · exact BuildLog.firsts_eq fun e he e' he' hsource => List.inj_on_of_nodup_map hnodup he' he hsource
      · refine hbuilt.firsts_eq hadds hs fun l hl => ?_
        obtain ⟨last', hlast', hknown⟩ := run_lastLog p (p.fullMode o) s
        obtain ⟨rfl, -⟩ := Prod.mk.inj (hlast.symm.trans hlast')
        obtain ⟨hstrip, text, hread, htext⟩ := hknown l hl
        exact ⟨hstrip, hhonest text l hread htext⟩
    refine ⟨hfirsts, fun q => ?_⟩
    by_cases hq : q = Path.parts p.logPath
    · rw [hq, hfile, hplace, hwritten.file, hfirsts]
    · exact hsame q hq

theorem rebuild_sample : ∃ report r s' s'',
    ((sample [bytes "src"]).buildWithLog {} : StateM State _) sampleState = ((report, some r), s') ∧
      ((sample [bytes "src"]).buildWithLog {} : StateM State _) s' = (({}, some r), s'') ∧
      ∀ q, s''.tree.get? q = s'.tree.get? q := by
  have hlogs := logs_sample
  have hrun := buildWithLog_sample allSources_sample false
  rcases hstep : runSample false sampleState with ⟨⟨report, log⟩, s'⟩
  rw [hstep] at hlogs hrun
  simp only [Bool.and_eq_true, List.isEmpty_iff, Option.any_eq_true, beq_iff_eq] at hlogs
  obtain ⟨herrors, r, rfl, ⟨⟨htext, hfiles⟩, -⟩, -⟩ := hlogs
  obtain ⟨r', s'', hr, hagain, -, -, -, hsame⟩ := rebuild rfl proper_sampleState rfl rfl hrun herrors
    fun r' hr => by rw [← Option.some.inj hr, htext]
  obtain rfl := Option.some.inj hr
  obtain ⟨hfirsts, hsame⟩ := hsame (.inl (by rw [hfiles]; decide +kernel))
  rw [hfirsts] at hagain
  exact ⟨report, r, s', s'', hrun, hagain, hsame⟩

/-- The log has the right digest of a source, but a wrong one for its image, which is gone. -/
def staleState : State where
  tree := { nodes := [([bytes "p"], .dir), ([bytes "p", bytes "src"], .dir),
    ([bytes "p", bytes "src", bytes "x.luma"], .file []), ([bytes "p", bytes "build"], .dir),
    ([bytes "p", bytes "build", BuildLog.fileName], .file (BuildLog.text ⟨false,
      [⟨bytes "/p/src/x.luma", bytes "/p/build/x.luac", Bytes.hex (sha256 []), []⟩]⟩))] }
  dir := [bytes "p"]

theorem logs_stale :
    ((((sample [bytes "src", bytes "src"]).buildWithLog {} : StateM State _) staleState).1.1.errors.isEmpty &&
      (((sample [bytes "src", bytes "src"]).buildWithLog {} : StateM State _) staleState).1.2.all
        fun r => BuildLog.ofText? r.text == some r && r.firsts != r) = true := by
  have hbelow : (sourcesBelow (sample [bytes "src", bytes "src"]).sourceDirs : StateM State _) staleState =
      (.ok [bytes "/p/src/x.luma", bytes "/p/src/x.luma"], staleState) := rfl
  rw [buildWithLog]
  simp only [bind, StateT.bind, allSources_of_sourcesBelow hbelow, List.mergeSort_of_pairwise (show
    [bytes "/p/src/x.luma", bytes "/p/src/x.luma"].Pairwise (fun a b => Bytes.le a b = true) by decide +kernel)]
  decide +kernel

/-- A source that is listed twice is compiled for its first entry, and for its second entry that of the
last log is kept. Building again changes the second entry. -/
theorem rebuild_changes_log : ∃ report r r' s',
    ((sample [bytes "src", bytes "src"]).buildWithLog {} : StateM State _) staleState = ((report, some r), s') ∧
      report.errors = [] ∧ BuildLog.ofText? r.text = some r ∧
      (((sample [bytes "src", bytes "src"]).buildWithLog {} : StateM State _) s').1.2 = some r' ∧ r' ≠ r := by
  have hlogs := logs_stale
  have hproper : staleState.tree.Proper := by constructor <;> decide +kernel
  rcases hrun : ((sample [bytes "src", bytes "src"]).buildWithLog {} : StateM State _) staleState with ⟨⟨report, log⟩, s'⟩
  simp only [hrun, Bool.and_eq_true, List.isEmpty_iff, Option.all_eq_true, beq_iff_eq, bne_iff_ne] at hlogs
  obtain ⟨last, r, -, rfl, -, hbuilt⟩ := built_of_buildWithLog rfl hproper rfl hrun hlogs.1
  obtain ⟨htext, hne⟩ := hlogs.2 r rfl
  obtain ⟨s'', hagain, -⟩ := hbuilt.again rfl rfl rfl htext
  exact ⟨report, r, r.firsts, s', rfl, hlogs.1, htext, by rw [hagain], hne⟩

end Manifest

end RegisterCompiler
