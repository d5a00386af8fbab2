import Mathlib.Data.Set.Function
import RegisterCompiler.Project.Build
import RegisterCompiler.Proofs.ImagePaths
import RegisterCompiler.Proofs.Writing

/-!
# Builds that compile only what has changed

* `Manifest.SourceStep` : what a build does with one source;
* `LoggedImage.Right`, `BuildLog.Trusted` : entries that tell the truth after a build, and those that
  do if their image is still there;
* `Manifest.History` : the states that edits and builds lead to;
* `Manifest.build_right` : whatever the history, the entries that a build writes are right;
* `Manifest.build_wrong_of_refused_log` : not so if a log was refused before.
-/

namespace RegisterCompiler

open FileTree (State Grown Written Proper Spelled)
open RegisterCompiler.Path (AreNames IsName ofParts)

/-! ## Digests as text -/

theorem Bytes.hexDigit_inj : ∀ a < 16, ∀ b < 16, Bytes.hexDigit a = Bytes.hexDigit b → a = b := by
  decide +kernel

theorem Bytes.hex_cons (b : UInt8) (s : Bytes) :
    Bytes.hex (b :: s) = Bytes.hexDigit (b.toNat / 16) :: Bytes.hexDigit (b.toNat % 16) :: Bytes.hex s := by
  have h : b.toNat / 16 % 16 = b.toNat / 16 := Nat.mod_eq_of_lt (by have := b.toNat_lt; omega)
  simp [Bytes.hex, Bytes.hexDigits, h]

theorem Bytes.hex_injective : Function.Injective Bytes.hex := by
  intro s t h
  induction s generalizing t with
  | nil =>
    cases t with
    | nil => rfl
    | cons b t =>
      cases h
  | cons a s ih =>
    cases t with
    | nil =>
      cases h
    | cons b t =>
      rw [Bytes.hex_cons, Bytes.hex_cons, List.cons.injEq, List.cons.injEq] at h
      obtain ⟨hhigh, hlow, hrest⟩ := h
      have ha := a.toNat_lt
      have hb := b.toNat_lt
      have h1 := Bytes.hexDigit_inj _ (by omega) _ (by omega) hhigh
      have h2 := Bytes.hexDigit_inj _ (by omega) _ (by omega) hlow
      rw [ih hrest, UInt8.toNat_inj.1 (show a.toNat = b.toNat by omega)]

/-! ## Reading and writing -/

theorem readFile_of_ok {s : State} {path data : Bytes} (h : s.read path = .ok data) :
    (Disk.readFile path : StateM State _) s = (.ok data, s) := by
  have hrun : (Disk.read path : StateM State _) s = (.ok data, s) := by
    rw [← h]
    rfl
  rw [Disk.readFile]
  simp only [bind, StateT.bind, hrun]
  rfl

theorem readFile_of_error {s : State} {path : Bytes} {fault : Disk.Fault} (h : s.read path = .error fault) :
    ∃ refusal, (Disk.readFile path : StateM State _) s = (.error refusal, s) := by
  have hrun : (Disk.read path : StateM State _) s = (.error fault, s) := by
    rw [← h]
    rfl
  rw [Disk.readFile]
  simp only [bind, StateT.bind, hrun]
  cases fault <;> exact ⟨_, rfl⟩

theorem run_exists? (path : Bytes) (s : State) :
    (Disk.exists? path : StateM State _) s = ((s.get? path).toOption.isSome, s) := by
  have hrun : (Disk.kind path : StateM State _) s = (s.kind path, s) := rfl
  rw [Disk.exists?]
  simp only [bind, StateT.bind, hrun, State.kind]
  cases s.get? path with
  | error => rfl
  | ok node => cases node <;> rfl

def emitReport (proto : Proto) (path : Bytes) (o : BuildMode) : Except ProjectError Unit → Report
  | .error e => { text := if o.listing then proto.listing else [] } ++ .ofError e
  | .ok _ =>
    let listed : Report := { text := if o.listing then proto.listing else [] }
    if o.verbose then listed ++ { text := shownChunk proto.source ++ bytes " -> " ++ path ++ bytes "\n" } else listed

/-- The report depends on how writing the image ends, and its errors do on that alone. -/
theorem run_emit (proto : Proto) (path : Bytes) {o : BuildMode} (ho : o.parseOnly = false) :
    ∃ report : Except ProjectError Unit → Report, (report (.ok ())).errors = [] ∧
      (∀ e, (report (.error e)).errors = [e]) ∧ ∀ {s s' : State} {result : Except ProjectError Unit},
        (writeWithDirs path (Image.encode proto) : StateM State _) s = (result, s') →
        (emit proto path o : StateM State _) s = (report result, s') := by
  refine ⟨emitReport proto path o, ?_, fun e => rfl, fun {s s' result} h => ?_⟩
  · rw [emitReport]
    cases o.verbose <;> rfl
  · rw [emit, ho]
    simp only [Bool.false_eq_true, if_false, bind, StateT.bind, h]
    cases result with
    | error e => rfl
    | ok _ =>
      rw [emitReport]
      cases o.verbose <;> rfl

/-! ## One source -/

/-- The main function of a source of a project, whatever else is wrong with it. -/
def Manifest.Compiles (p : Manifest) (strip : Bool) (source data : Bytes) (proto : Proto) : Prop :=
  compile data (chunkOfFile (p.shownPath source)) strip = .ok proto

theorem compileSource_eq_ok {path chunk source : Bytes} {strip : Bool} {proto : Proto}
    (h : compileSource path chunk source strip = .ok proto) : compile source chunk strip = .ok proto := by
  rw [compileSource] at h
  split at h
  · next heq => rw [heq, Except.ok.inj h]
  all_goals cases h

/-- What is done with a source that is not kept from the last build. -/
def Manifest.compileAnew {m : Type → Type} [Monad m] [Disk m] (p : Manifest) (o : BuildMode) (b : Progress)
    (path source : Bytes) : m Progress := do
  match compileSource path (chunkOfFile (p.shownPath path)) source o.strip with
  | .error e => return b.tell (.ofError e)
  | .ok proto =>
    let r ← emit proto (p.imageFor path) o
    if !r.errors.isEmpty then return b.tell r
    return {
      report := b.report ++ r
      images := b.images ++ [⟨path, p.imageFor path, Bytes.hex (sha256 source), Bytes.hex proto.digest⟩]
      compiled := b.compiled + 1 }

section

variable {p : Manifest} {last : Option BuildLog} {o : BuildMode} {b b' : Progress} {source : Bytes}
  {ps : Place} {name : Bytes} {s s' : State}

/-- What a build does with one source, whose image goes to a name at a place. -/
inductive Manifest.SourceStep (p : Manifest) (last : Option BuildLog) (strip : Bool) (source : Bytes) (ps : Place)
    (name : Bytes) (b : Progress) (s : State) : Progress → State → Prop where
  | left {r : Report} {s' : State} (failed : r.errors ≠ []) (grown : Grown ps s s') :
      SourceStep p last strip source ps name b s (b.tell r) s'
  | torn {r : Report} {s' : State} {data : Bytes} {kept : Nat} (failed : r.errors ≠ [])
      (limit : s.tree.limit (ps ++ [name]) = .breaksOff kept) (written : Written ps name data s s') :
      SourceStep p last strip source ps name b s (b.tell r) s'
  | kept {data : Bytes} {r : LoggedImage} {log : BuildLog} {node : FileTree.Node}
      (read : s.read source = .ok data) (logged : last = some log) (found : log.find? source = some r)
      (hash : r.sourceHash = Bytes.hex (sha256 data)) (image : r.image = p.imageFor source)
      (there : s.get? (p.imageFor source) = .ok node) :
      SourceStep p last strip source ps name b s { b with images := b.images ++ [r] } s
  | made {b' : Progress} {s' : State} {data : Bytes} {proto : Proto} (read : s.read source = .ok data)
      (compiles : p.Compiles strip source data proto) (errors : b'.report.errors = b.report.errors)
      (images : b'.images = b.images ++
        [⟨source, p.imageFor source, Bytes.hex (sha256 data), Bytes.hex proto.digest⟩])
      (written : Written ps name (Image.encode proto) s s') :
      SourceStep p last strip source ps name b s b' s'

theorem Manifest.step_compileAnew (ho : o.parseOnly = false) (hps : AreNames (ps ++ [name]))
    (himage : p.imageFor source = ofParts true (ps ++ [name])) (hs : s.tree.Proper) {data : Bytes}
    (hread : s.read source = .ok data) (h : (p.compileAnew o b source data : StateM State _) s = (b', s')) :
    p.SourceStep last o.strip source ps name b s b' s' := by
  rw [compileAnew] at h
  cases hproto : compileSource source (chunkOfFile (p.shownPath source)) data o.strip with
  | error e =>
    rw [hproto] at h
    cases h
    exact .left (List.cons_ne_nil e []) (.refl ps s)
  | ok proto =>
    rw [hproto] at h
    simp only [bind, StateT.bind] at h
    obtain ⟨report, hok, herror, hemit⟩ := run_emit proto (p.imageFor source) ho
    rcases FileTree.writeWithDirs_cases hps (Image.encode proto) hs with
      ⟨result, s1, hwrite, hfree, hopen, hwritten⟩ | ⟨e, s1, hwrite, hgrown, -⟩
    · rw [← himage] at hwrite
      cases hlimit : s.tree.limit (ps ++ [name]) with
      | refused => exact absurd hlimit hopen
      | free =>
        obtain rfl := hfree.2 hlimit
        rw [hlimit] at hwritten
        simp only [hemit hwrite, hok, List.isEmpty_nil] at h
        cases h
        refine .made hread (compileSource_eq_ok hproto) ?_ rfl hwritten
        exact (congrArg (b.report.errors ++ ·) hok).trans (List.append_nil _)
      | breaksOff kept =>
        cases result with
        | ok => cases hlimit.symm.trans (hfree.1 rfl)
        | error e =>
          simp only [hemit hwrite, herror, List.isEmpty_cons] at h
          cases h
          exact .torn (by simp [herror]) hlimit hwritten
    · rw [← himage] at hwrite
      simp only [hemit hwrite, herror, List.isEmpty_cons] at h
      cases h
      exact .left (by simp [herror]) hgrown

theorem upToDate?_eq_some {hash image : Bytes} {r : LoggedImage} (h : upToDate? last o source hash image = some r) :
    ∃ log, last = some log ∧ log.find? source = some r ∧ r.sourceHash = hash ∧ r.image = image := by
  rw [upToDate?] at h
  split at h
  · simp at h
  · obtain ⟨hfind, hsame⟩ := Option.filter_eq_some_iff.1 h
    obtain ⟨log, hlog, hfind⟩ := Option.bind_eq_some_iff.1 hfind
    simp only [Bool.and_eq_true, beq_iff_eq] at hsame
    exact ⟨log, hlog, hfind, hsame.1, hsame.2⟩

theorem Manifest.step_buildOne (ho : o.parseOnly = false) (hps : AreNames (ps ++ [name]))
    (himage : p.imageFor source = ofParts true (ps ++ [name])) (hs : s.tree.Proper)
    (h : (p.buildOne last o b source : StateM State _) s = (b', s')) :
    p.SourceStep last o.strip source ps name b s b' s' := by
  rw [buildOne] at h
  cases hread : s.read source with
  | error fault =>
    obtain ⟨refusal, hfile⟩ := readFile_of_error hread
    simp only [bind, StateT.bind, hfile] at h
    cases h
    exact .left (List.cons_ne_nil _ []) (.refl ps s)
  | ok data =>
    simp only [bind, StateT.bind, readFile_of_ok hread] at h
    cases hup : upToDate? last o source (Bytes.hex (sha256 data)) (p.imageFor source) with
    | none =>
      rw [hup] at h
      exact step_compileAnew ho hps himage hs hread h
    | some r =>
      rw [hup] at h
      simp only [StateT.bind, run_exists?] at h
      cases hnode : s.get? (p.imageFor source) with
      | error =>
        rw [hnode] at h
        exact step_compileAnew ho hps himage hs hread h
      | ok node =>
        rw [hnode] at h
        cases h
        obtain ⟨log, hlog, hfind, hhash, himg⟩ := upToDate?_eq_some hup
        exact .kept hread hlog hfind hhash himg hnode

namespace Manifest.SourceStep

section
variable (h : p.SourceStep last o.strip source ps name b s b' s')
include h

theorem proper (hs : s.tree.Proper) : s'.tree.Proper := by
  cases h with
  | left _ hgrown => exact hgrown.proper hs
  | kept => exact hs
  | torn _ _ hwritten | made _ _ _ _ hwritten => exact hwritten.proper

theorem limit : s'.tree.limit = s.tree.limit := by
  cases h with
  | left _ hgrown => exact hgrown.limit
  | kept => rfl
  | torn _ _ hwritten | made _ _ _ _ hwritten => exact hwritten.limit

theorem get?_of_not_prefix {q : Place} (hq : ¬ q <+: ps ++ [name]) : s'.tree.get? q = s.tree.get? q := by
  cases h with
  | left _ hgrown => exact hgrown.get?_of_not_prefix fun hpre => hq (hpre.trans (List.prefix_append ..))
  | kept => rfl
  | torn _ _ hwritten | made _ _ _ _ hwritten => exact hwritten.get?_of_not_prefix hq

theorem get?_file {q : Place} {d : Bytes}
    (hq : q ≠ ps ++ [name]) (hfile : s.tree.get? q = some (.file d)) : s'.tree.get? q = s.tree.get? q := by
  cases h with
  | left _ hgrown => rw [hfile, hgrown.get?_file.2 hfile]
  | kept => rfl
  | torn _ _ hwritten | made _ _ _ _ hwritten => exact hwritten.get?_file hq hfile

end

end Manifest.SourceStep

end

/-! ## Entries that are right -/

/-- The source has the content that the entry tells of, and its image holds what that compiles to. -/
def LoggedImage.Right (p : Manifest) (strip : Bool) (s : State) (e : LoggedImage) : Prop :=
  ∃ data proto, s.read e.source = .ok data ∧ e.sourceHash = Bytes.hex (sha256 data) ∧
    e.image = p.imageFor e.source ∧ p.Compiles strip e.source data proto ∧
    s.read e.image = .ok (Image.encode proto)

/-- The entries of a log tell of contents among `contents`, and where an image is there, it holds what
such a content compiles to. -/
def BuildLog.Trusted (p : Manifest) (contents : Set Bytes) (s : State) (log : BuildLog) : Prop :=
  ∀ e ∈ log.images, e.image = p.imageFor e.source ∧ ∃ data ∈ contents, ∃ proto,
    e.sourceHash = Bytes.hex (sha256 data) ∧ p.Compiles log.stripDebug e.source data proto ∧
    ∀ node, s.get? e.image = .ok node → node = .file (Image.encode proto)

/-- Where a build starts: its sources, none of whose images is, or leads to, that of another one or, if the
source is listed twice, breaks off, and contents that the digest tells apart. -/
structure Manifest.Start (p : Manifest) (contents : Set Bytes) (files : List Bytes) (s : State) : Prop where
  dir : Path.isAbsolute p.dir
  proper : s.tree.Proper
  sources : (p.allSources : StateM State _) s = (.ok files, s)
  apart : ∀ a ∈ files, ∀ b ∈ files, a ≠ b → ¬ Path.parts (p.imageFor a) <+: Path.parts (p.imageFor b)
  once : ∀ a ∈ files, ∀ kept, s.tree.limit (Path.parts (p.imageFor a)) = .breaksOff kept → files.count a = 1
  known : ∀ a ∈ files, ∀ data, s.read a = .ok data → data ∈ contents
  digest : Set.InjOn sha256 contents

/-- How things stand while the sources are built one after the other: they are as they were, the
entries made so far are right, and the image of a source to come that has no entry is as it was. -/
structure Manifest.Ongoing (p : Manifest) (strip : Bool) (files done rest : List Bytes) (s0 : State) (b : Progress)
    (s : State) : Prop where
  split : files = done ++ rest
  proper : s.tree.Proper
  limit : s.tree.limit = s0.tree.limit
  sources : ∀ a ∈ files, s.tree.get? (Path.parts a) = s0.tree.get? (Path.parts a)
  entries : ∀ e ∈ b.images, e.source ∈ done ∧ e.Right p strip s
  fresh : ∀ a ∈ rest, (∀ e ∈ b.images, e.source ≠ a) →
    s.tree.get? (Path.parts (p.imageFor a)) = s0.tree.get? (Path.parts (p.imageFor a))

namespace Manifest

variable {p : Manifest} {contents : Set Bytes} {files done rest : List Bytes} {s0 s s' : State} {b b' : Progress}
  {last : Option BuildLog} {o : BuildMode}

theorem not_suffix_imageName (w : Bytes) : ¬ ProjectError.sourceExt <:+ imageName w := by
  rintro ⟨v, hv⟩
  have hlen : ProjectError.sourceExt.length = imageExt.length := by decide
  have hne : ProjectError.sourceExt ≠ imageExt := by decide
  exact hne (List.append_inj' hv hlen).2

theorem Start.exists_place (h : p.Start contents files s0) {a : Bytes} (ha : a ∈ files) :
    ∃ q name data, a = ofParts true (q ++ [name]) ∧ (AreNames (q ++ [name])) ∧
      ProjectError.sourceExt <:+ name ∧ s0.tree.get? (q ++ [name]) = some (.file data) := by
  obtain ⟨q, w, data, rfl, hq, -, hfile⟩ := exists_source h.dir h.proper h.sources ha
  exact ⟨q, _, data, rfl, hq, List.suffix_append w _, hfile⟩

theorem Ongoing.mem (h : p.Ongoing o.strip files done rest s0 b s) {a : Bytes} (ha : a ∈ done ∨ a ∈ rest) : a ∈ files :=
  h.split ▸ List.mem_append.2 ha

theorem Start.notMem_of_breaksOff (h : p.Start contents files s0) {a : Bytes} (hsplit : files = done ++ a :: rest)
    {kept : Nat} (hlimit : s0.tree.limit (Path.parts (p.imageFor a)) = .breaksOff kept) : a ∉ done ∧ a ∉ rest := by
  have hcount := h.once a (by simp [hsplit]) kept hlimit
  rw [hsplit, List.count_append, List.count_cons_self] at hcount
  exact ⟨List.count_eq_zero.1 (by omega), List.count_eq_zero.1 (by omega)⟩

theorem Ongoing.read_source (h : p.Ongoing o.strip files done rest s0 b s) (h0 : p.Start contents files s0) {a data : Bytes}
    (ha : a ∈ files) : s.read a = .ok data ↔ s0.read a = .ok data := by
  obtain ⟨q, name, -, rfl, hq, -, -⟩ := h0.exists_place ha
  have hsource := h.sources _ ha
  rw [Path.parts_ofParts hq] at hsource
  exact State.read_congr h0.proper h.proper hq hsource

section

variable {a : Bytes} {ps : Place} {name : Bytes}

theorem SourceStep.get?_source (hstep : p.SourceStep last o.strip a ps name b s b' s')
    (h : p.Ongoing o.strip files done rest s0 b s) (h0 : p.Start contents files s0)
    (hname : ¬ ProjectError.sourceExt <:+ name) {c : Bytes} (hc : c ∈ files) :
    s'.tree.get? (Path.parts c) = s.tree.get? (Path.parts c) := by
  obtain ⟨q, last', data, rfl, hq, hlast, hfile⟩ := h0.exists_place hc
  have hsource := h.sources _ hc
  rw [Path.parts_ofParts hq, hfile] at hsource
  rw [Path.parts_ofParts hq]
  refine hstep.get?_file ?_ hsource
  intro heq
  obtain rfl : last' = name := by simpa using (List.append_inj' heq rfl).2
  exact hname hlast

theorem SourceStep.get?_image (hstep : p.SourceStep last o.strip a ps name b s b' s')
    (h0 : p.Start contents files s0) (hps : AreNames (ps ++ [name]))
    (himage : p.imageFor a = ofParts true (ps ++ [name])) (ha : a ∈ files) {c : Bytes} (hc : c ∈ files)
    (hne : c ≠ a) : s'.tree.get? (Path.parts (p.imageFor c)) = s.tree.get? (Path.parts (p.imageFor c)) := by
  have hapart := h0.apart c hc a ha hne
  rw [himage, Path.parts_ofParts hps] at hapart
  exact hstep.get?_of_not_prefix hapart

theorem right_of_kept (h : p.Ongoing o.strip files done (a :: rest) s0 b s) (h0 : p.Start contents files s0)
    (hlast : ∀ log, last = some log → log.stripDebug = o.strip ∧ log.Trusted p contents s0)
    {data : Bytes} {r : LoggedImage} {log : BuildLog} {node : FileTree.Node} (hread : s.read a = .ok data) (hlog : last = some log) (hfind : log.find? a = some r)
    (hhash : r.sourceHash = Bytes.hex (sha256 data)) (himg : r.image = p.imageFor a)
    (hnode : s.get? (p.imageFor a) = .ok node) : r.source = a ∧ r.Right p o.strip s := by
  have hsource : r.source = a := by simpa [BuildLog.find?] using List.find?_some hfind
  subst hsource
  have ha := h.mem (.inr List.mem_cons_self)
  refine ⟨rfl, ?_⟩
  by_cases hentry : ∃ e ∈ b.images, e.source = r.source
  · -- the source is listed twice, and its image was seen to before
    obtain ⟨e, he, hsame⟩ := hentry
    obtain ⟨-, data', proto, hread', hhash', himg', hproto, himage⟩ := h.entries e he
    rw [hsame] at hread' himg' hproto
    obtain rfl : data = data' := by simpa [hread] using hread'
    exact ⟨data, proto, hread, hhash, himg, hproto, by rw [himg, ← himg', himage]⟩
  · obtain ⟨hstrip, htrusted⟩ := hlast log hlog
    obtain ⟨-, data', hdata', proto, hhash', hproto, hright⟩ := htrusted r (List.mem_of_find?_eq_some hfind)
    have hdata := h0.known _ ha data ((h.read_source h0 ha).1 hread)
    obtain rfl : data = data' := h0.digest hdata hdata' (Bytes.hex_injective (hhash.symm.trans hhash'))
    obtain ⟨q, w, hq, himage⟩ := exists_image h0.dir h0.proper h0.sources ha
    have hfresh := h.fresh _ List.mem_cons_self fun e he heq => hentry ⟨e, he, heq⟩
    rw [himage, Path.parts_ofParts hq] at hfresh
    rw [himage, State.get?_eq_ok h.proper hq, hfresh] at hnode
    have hnode0 := hright node (by rw [himg, himage]; exact (State.get?_eq_ok h0.proper hq).2 hnode)
    subst hnode0
    refine ⟨data, proto, hread, hhash, himg, by rw [← hstrip]; exact hproto, ?_⟩
    rw [himg, himage, State.read_eq_ok h.proper hq, hfresh]
    exact hnode

section
variable (hstep : p.SourceStep last o.strip a ps name b s b' s')
include hstep

theorem SourceStep.read_source (h : p.Ongoing o.strip files done rest s0 b s) (h0 : p.Start contents files s0)
    (hname : ¬ ProjectError.sourceExt <:+ name) {c : Bytes} (hc : c ∈ files) {d : Bytes} (hread : s.read c = .ok d) :
    s'.read c = .ok d := by
  have hsource := hstep.get?_source h h0 hname hc
  obtain ⟨q, last', -, rfl, hq, -, -⟩ := h0.exists_place hc
  rw [Path.parts_ofParts hq] at hsource
  exact (State.read_congr h.proper (hstep.proper h.proper) hq hsource).2 hread

theorem SourceStep.right_of_get?_image (h : p.Ongoing o.strip files done rest s0 b s) (h0 : p.Start contents files s0)
    (hname : ¬ ProjectError.sourceExt <:+ name) {e : LoggedImage} (he : e ∈ b.images)
    (hkeep : s'.tree.get? (Path.parts (p.imageFor e.source)) = s.tree.get? (Path.parts (p.imageFor e.source))) :
    e.Right p o.strip s' := by
  obtain ⟨hdone, data, proto, hread, hhash, himg, hproto, hcontent⟩ := h.entries e he
  have hmem := h.mem (.inl hdone)
  obtain ⟨q, w, hq, himage⟩ := exists_image h0.dir h0.proper h0.sources hmem
  refine ⟨data, proto, hstep.read_source h h0 hname hmem hread, hhash, himg, hproto, ?_⟩
  rw [himage, Path.parts_ofParts hq] at hkeep
  rw [himg, himage] at hcontent ⊢
  exact (State.read_congr h.proper (hstep.proper h.proper) hq hkeep).2 hcontent

theorem SourceStep.get?_own_image
    (hps : AreNames (ps ++ [name])) (himage : p.imageFor a = ofParts true (ps ++ [name])) :
    s'.tree.get? (Path.parts (p.imageFor a)) = s.tree.get? (Path.parts (p.imageFor a)) ∨
      (∃ kept, s.tree.limit (Path.parts (p.imageFor a)) = .breaksOff kept) ∨
      ∃ data proto, s.read a = .ok data ∧ p.Compiles o.strip a data proto ∧
        b'.images = b.images ++ [⟨a, p.imageFor a, Bytes.hex (sha256 data), Bytes.hex proto.digest⟩] ∧
        s'.read (p.imageFor a) = .ok (Image.encode proto) := by
  cases hstep with
  | left _ hgrown =>
    rw [himage, Path.parts_ofParts hps]
    refine .inl (hgrown.get?_of_not_prefix fun hpre => ?_)
    have hlen := hpre.length_le
    simp only [List.length_append, List.length_singleton] at hlen
    omega
  | kept => exact .inl rfl
  | torn _ hlimit =>
    rw [himage, Path.parts_ofParts hps]
    exact .inr (.inl ⟨_, hlimit⟩)
  | made hread hproto _ himages hwritten =>
    refine .inr (.inr ⟨_, _, hread, hproto, himages, ?_⟩)
    rw [himage, State.read_eq_ok hwritten.proper hps]
    exact ⟨hwritten.spelled, hwritten.file⟩

theorem SourceStep.exists_entries (h : p.Ongoing o.strip files done (a :: rest) s0 b s) (h0 : p.Start contents files s0)
    (hlast : ∀ log, last = some log → log.stripDebug = o.strip ∧ log.Trusted p contents s0)
    (hps : AreNames (ps ++ [name])) (hname : ¬ ProjectError.sourceExt <:+ name)
    (himage : p.imageFor a = ofParts true (ps ++ [name])) :
    ∃ new : List LoggedImage, b'.images = b.images ++ new ∧ ∀ e ∈ new, e.source = a ∧ e.Right p o.strip s' := by
  have hsource {d : Bytes} (hread : s.read a = .ok d) :=
    hstep.read_source h h0 hname (h.mem (.inr List.mem_cons_self)) hread
  cases hstep with
  | left | torn => exact ⟨[], (List.append_nil _).symm, by simp⟩
  | kept hread hlog hfind hhash himg hnode =>
    refine ⟨_, rfl, fun e he => ?_⟩
    obtain rfl := List.mem_singleton.1 he
    exact right_of_kept h h0 hlast hread hlog hfind hhash himg hnode
  | made hread hproto _ himages hwritten =>
    refine ⟨_, himages, fun e he => ?_⟩
    obtain rfl := List.mem_singleton.1 he
    refine ⟨rfl, _, _, hsource hread, rfl, rfl, hproto, ?_⟩
    rw [himage, State.read_eq_ok hwritten.proper hps]
    exact ⟨hwritten.spelled, hwritten.file⟩

/-- The entries of a source that is listed again stay right: what is written is what was there. -/
theorem SourceStep.right_own (h : p.Ongoing o.strip files done (a :: rest) s0 b s) (h0 : p.Start contents files s0)
    (hps : AreNames (ps ++ [name])) (hname : ¬ ProjectError.sourceExt <:+ name)
    (himage : p.imageFor a = ofParts true (ps ++ [name])) {e : LoggedImage} (he : e ∈ b.images)
    (hsame : e.source = a) : e.Right p o.strip s' := by
  subst hsame
  obtain ⟨hdone, data', proto', hread', hhash, himg, hproto', -⟩ := h.entries e he
  rcases hstep.get?_own_image hps himage with hkeep | ⟨kept, hlimit⟩ | ⟨data, proto, hread, hproto, -, hcontent⟩
  · exact hstep.right_of_get?_image h h0 hname he hkeep
  · exact absurd hdone (h0.notMem_of_breaksOff h.split (h.limit ▸ hlimit)).1
  · obtain rfl : data = data' := by simpa [hread] using hread'
    exact ⟨data, proto, hstep.read_source h h0 hname (h.mem (.inl hdone)) hread, hhash, himg, hproto,
      by rw [himg, hcontent]⟩

end

theorem Ongoing.step (h : p.Ongoing o.strip files done (a :: rest) s0 b s) (h0 : p.Start contents files s0)
    (hlast : ∀ log, last = some log → log.stripDebug = o.strip ∧ log.Trusted p contents s0)
    (hps : AreNames (ps ++ [name])) (hname : ¬ ProjectError.sourceExt <:+ name)
    (himage : p.imageFor a = ofParts true (ps ++ [name]))
    (hstep : p.SourceStep last o.strip a ps name b s b' s') : p.Ongoing o.strip files (done ++ [a]) rest s0 b' s' := by
  have ha := h.mem (.inr List.mem_cons_self)
  obtain ⟨new, himages, hnew⟩ := hstep.exists_entries h h0 hlast hps hname himage
  refine ⟨by rw [h.split, List.append_assoc, List.singleton_append], hstep.proper h.proper, hstep.limit.trans h.limit,
    fun c hc => ?_, fun e he => ?_, fun c hc hno => ?_⟩
  · rw [hstep.get?_source h h0 hname hc, h.sources c hc]
  · rw [himages] at he
    rcases List.mem_append.1 he with he | he
    · have hdone := (h.entries e he).1
      refine ⟨List.mem_append_left _ hdone, ?_⟩
      by_cases hsame : e.source = a
      · exact hstep.right_own h h0 hps hname himage he hsame
      · have hkeep := hstep.get?_image h0 hps himage ha (h.mem (.inl hdone)) hsame
        exact hstep.right_of_get?_image h h0 hname he hkeep
    · obtain ⟨rfl, hright⟩ := hnew e he
      exact ⟨List.mem_append_right _ List.mem_cons_self, hright⟩
  · have hc' := List.mem_cons_of_mem a hc
    have hfresh := h.fresh c hc' fun e he => hno e (himages ▸ List.mem_append_left new he)
    by_cases hca : c = a
    · subst hca
      rcases hstep.get?_own_image hps himage with hkeep | ⟨kept, hlimit⟩ | ⟨data, proto, -, -, hmade, -⟩
      · rw [hkeep, hfresh]
      · exact absurd hc (h0.notMem_of_breaksOff h.split (h.limit ▸ hlimit)).2
      · rw [hmade] at hno
        exact absurd rfl (hno _ (List.mem_append_right _ List.mem_cons_self))
    · rw [hstep.get?_image h0 hps himage ha (h.mem (.inr hc')) hca, hfresh]

end

theorem Ongoing.run (h0 : p.Start contents files s0) (ho : o.parseOnly = false)
    (hlast : ∀ log, last = some log → log.stripDebug = o.strip ∧ log.Trusted p contents s0)
    (h : p.Ongoing o.strip files done rest s0 b s)
    (hrun : (rest.foldlM (p.buildOne last o) b : StateM State _) s = (b', s')) :
    p.Ongoing o.strip files files [] s0 b' s' := by
  induction rest generalizing done b s with
  | nil =>
    cases hrun
    have hsplit := h.split
    rw [List.append_nil] at hsplit
    exact hsplit ▸ h
  | cons a rest ih =>
    obtain ⟨q, w, hq, himage⟩ := exists_image h0.dir h0.proper h0.sources (h.mem (.inr List.mem_cons_self))
    rw [List.foldlM_cons] at hrun
    rcases hone : (p.buildOne last o b a : StateM State _) s with ⟨b1, s1⟩
    simp only [bind, StateT.bind, hone] at hrun
    exact ih (h.step h0 hlast hq (not_suffix_imageName w) himage (step_buildOne ho hq himage h.proper hone)) hrun

theorem Start.ongoing (h0 : p.Start contents files s0) : p.Ongoing o.strip files [] files s0 {} s0 where
  split := rfl
  proper := h0.proper
  limit := rfl
  sources _ _ := rfl
  entries := by simp
  fresh _ _ _ := rfl

/-! ## Whole builds -/

def fullMode (p : Manifest) (o : BuildMode) : BuildMode :=
  { o with strip := o.strip || p.stripDebug, listing := o.listing || p.listing }

def buildFiles {m : Type → Type} [Monad m] [Disk m] (p : Manifest) (o : BuildMode) (files : List Bytes) :
    m (Report × Option BuildLog) := do
  let last ← p.lastLog o
  let b ← files.foldlM (p.buildOne last o) {}
  let report := if o.verbose then b.report ++ { text := p.summary b } else b.report
  if o.parseOnly then return (report, none)
  match ← (⟨o.strip, b.images⟩ : BuildLog).write p.logPath with
  | .error e => return (report ++ .ofError e, none)
  | .ok _ => return (report, some ⟨o.strip, b.images⟩)

def buildWithLog {m : Type → Type} [Monad m] [Disk m] (p : Manifest) (o : BuildMode) :
    m (Report × Option BuildLog) := do
  match ← p.allSources with
  | .error e => return (.ofError e, none)
  | .ok [] => return (.ofError (.noSources p.dirs), none)
  | .ok files => p.buildFiles (p.fullMode o) files

theorem build_eq {m : Type → Type} [Monad m] [LawfulMonad m] [Disk m] (p : Manifest) (o : BuildMode) :
    (p.build o : m Report) = (fun r => r.1) <$> p.buildWithLog o := by
  rw [build, buildWithLog, ← fullMode]
  simp only [map_bind]
  refine bind_congr fun files => ?_
  split
  · rw [map_pure]
  · rw [map_pure]
  · simp only [buildFiles, map_bind]
    refine bind_congr fun last => bind_congr fun b => ?_
    split
    · rw [map_pure]
    · simp only [map_bind]
      refine bind_congr fun written => ?_
      split <;> rw [map_pure]

theorem buildWithLog_of_sources {files : List Bytes} (hne : files ≠ [])
    (h : (p.allSources : StateM State _) s = (.ok files, s)) (o : BuildMode) :
    (p.buildWithLog o : StateM State _) s = (p.buildFiles (p.fullMode o) files : StateM State _) s := by
  obtain ⟨a, files, rfl⟩ := List.exists_cons_of_ne_nil hne
  rw [buildWithLog]
  simp only [bind, StateT.bind, h]

theorem run_build (p : Manifest) (o : BuildMode) (s : State) : (p.build o : StateM State _) s =
      (((p.buildWithLog o : StateM State _) s).1.1, ((p.buildWithLog o : StateM State _) s).2) := by
  rw [build_eq]
  rfl

theorem run_lastLog (p : Manifest) (o : BuildMode) (s : State) :
    ∃ last, (p.lastLog o : StateM State _) s = (last, s) ∧ ∀ r, last = some r →
      r.stripDebug = o.strip ∧ ∃ text, s.read p.logPath = .ok text ∧ BuildLog.ofText? text = some r := by
  rw [lastLog, BuildLog.read]
  cases hread : s.read p.logPath with
  | error fault =>
    obtain ⟨refusal, hfile⟩ := readFile_of_error hread
    simp only [bind, StateT.bind, hfile]
    refine ⟨none, ?_, by simp⟩
    cases refusal.fault == .notFound <;> rfl
  | ok text =>
    simp only [bind, StateT.bind, readFile_of_ok hread]
    cases hlog : BuildLog.ofText? text with
    | none => exact ⟨none, rfl, by simp⟩
    | some r =>
      refine ⟨_, rfl, fun r' hr => ?_⟩
      simp only [Option.ite_none_right_eq_some, beq_iff_eq, Option.some.injEq] at hr
      obtain ⟨hstrip, rfl⟩ := hr
      exact ⟨hstrip, text, rfl, hlog⟩

theorem buildOne_of_parseOnly (ho : o.parseOnly = true) (last : Option BuildLog) (b : Progress) (a : Bytes)
    (s : State) : ((p.buildOne last o b a : StateM State _) s).2 = s := by
  have hup (hash image : Bytes) : upToDate? last o a hash image = none := by simp [upToDate?, ho]
  have hemit (proto : Proto) (path : Bytes) : ((emit proto path o : StateM State _) s).2 = s := by
    rw [emit, ho]
    rfl
  rw [buildOne]
  cases hread : s.read a with
  | error fault =>
    obtain ⟨refusal, hfile⟩ := readFile_of_error hread
    simp only [bind, StateT.bind, hfile]
    rfl
  | ok data =>
    simp only [bind, StateT.bind, readFile_of_ok hread, hup]
    cases compileSource a (chunkOfFile (p.shownPath a)) data o.strip with
    | error e => rfl
    | ok proto =>
      have hstate := hemit proto (p.imageFor a)
      rcases hrun : (emit proto (p.imageFor a) o : StateM State _) s with ⟨r, s'⟩
      rw [hrun] at hstate
      obtain rfl : s' = s := hstate
      simp only [StateT.bind, hrun]
      show ((if (!r.errors.isEmpty) = true then pure (b.tell r) else pure _ : StateM State Progress) s').2 = s'
      split <;> rfl

theorem run_buildOne_of_parseOnly (ho : o.parseOnly = true) (last : Option BuildLog) (sources : List Bytes)
    (b : Progress) (s : State) : ((sources.foldlM (p.buildOne last o) b : StateM State _) s).2 = s := by
  induction sources generalizing b with
  | nil => rfl
  | cons a sources ih =>
    have hone := buildOne_of_parseOnly (p := p) ho last b a s
    rcases hrun : (p.buildOne last o b a : StateM State _) s with ⟨b', s'⟩
    rw [hrun] at hone
    obtain rfl : s' = s := hone
    rw [List.foldlM_cons]
    simp only [bind, StateT.bind, hrun]
    exact ih b'

theorem run_sourcesBelow_state (dirs : List Bytes) (s : State) : ((sourcesBelow dirs : StateM State _) s).2 = s := by
  induction dirs with
  | nil => rfl
  | cons d dirs ih =>
    rw [run_sourcesBelow_cons]
    cases s.files d with
    | error fault => rfl
    | ok files =>
      rcases hrun : (sourcesBelow dirs : StateM State _) s with ⟨rest, s'⟩
      rw [hrun] at ih
      cases rest <;> exact ih

theorem run_allSources_state (p : Manifest) (s : State) : ((p.allSources : StateM State _) s).2 = s := by
  have hstate := run_sourcesBelow_state p.sourceDirs s
  rcases hrun : (sourcesBelow p.sourceDirs : StateM State _) s with ⟨files, s'⟩
  rw [hrun] at hstate
  rw [allSources]
  simp only [bind, StateT.bind, hrun]
  cases files <;> exact hstate

/-- What a build has to say that has come this far. -/
def reportOn (p : Manifest) (o : BuildMode) (b : Progress) : Report :=
  if o.verbose then b.report ++ { text := p.summary b } else b.report

/-- What a build comes to: nothing is written, or its log is written or refused after its sources. -/
theorem buildWithLog_cases {log : Option BuildLog} {report : Report}
    (h : (p.buildWithLog o : StateM State _) s = ((report, log), s')) :
    (log = none ∧ s' = s ∧ ((p.fullMode o).parseOnly = false → report.errors ≠ [])) ∨
    ∃ files last b s1, (p.fullMode o).parseOnly = false ∧ files ≠ [] ∧
      (p.allSources : StateM State _) s = (.ok files, s) ∧ (p.lastLog (p.fullMode o) : StateM State _) s = (last, s) ∧
      (files.foldlM (p.buildOne last (p.fullMode o)) {} : StateM State _) s = (b, s1) ∧
      ((log = some ⟨(p.fullMode o).strip, b.images⟩ ∧ report = p.reportOn (p.fullMode o) b ∧
          ((⟨(p.fullMode o).strip, b.images⟩ : BuildLog).write p.logPath : StateM State _) s1 = (.ok (), s')) ∨
        (log = none ∧ report.errors ≠ [] ∧ ∃ e,
          ((⟨(p.fullMode o).strip, b.images⟩ : BuildLog).write p.logPath : StateM State _) s1 = (.error e, s'))) := by
  have hstate := run_allSources_state p s
  rw [buildWithLog] at h
  rcases hsources : (p.allSources : StateM State _) s with ⟨files, s0⟩
  rw [hsources] at hstate
  obtain rfl : s0 = s := hstate
  simp only [bind, StateT.bind, hsources] at h
  cases files with
  | error e =>
    cases h
    exact .inl ⟨rfl, rfl, fun _ => List.cons_ne_nil _ []⟩
  | ok files =>
    cases files with
    | nil =>
      cases h
      exact .inl ⟨rfl, rfl, fun _ => List.cons_ne_nil _ []⟩
    | cons a files =>
      obtain ⟨last, hlast, -⟩ := run_lastLog p (p.fullMode o) s0
      rcases hfold : ((a :: files).foldlM (p.buildOne last (p.fullMode o)) {} : StateM State _) s0 with ⟨b, s1⟩
      simp only [buildFiles, StateT.bind, hlast, bind, hfold] at h
      cases ho : (p.fullMode o).parseOnly with
      | true =>
        have hsame := run_buildOne_of_parseOnly (p := p) ho last (a :: files) {} s0
        rw [hfold] at hsame
        obtain rfl : s1 = s0 := hsame
        simp only [ho, if_true] at h
        cases h
        exact .inl ⟨rfl, rfl, fun hwrites => by cases hwrites⟩
      | false =>
        refine .inr ⟨a :: files, last, b, s1, rfl, List.cons_ne_nil a files, rfl, hlast, hfold, ?_⟩
        rcases hwrite : ((⟨(p.fullMode o).strip, b.images⟩ : BuildLog).write p.logPath : StateM State _) s1
          with ⟨written, s2⟩
        simp only [ho, Bool.false_eq_true, if_false, StateT.bind, hwrite] at h
        cases written with
        | error e =>
          cases h
          exact .inr ⟨rfl, List.append_ne_nil_of_right_ne_nil _ (List.cons_ne_nil e []), e, rfl⟩
        | ok u =>
          cases h
          exact .inl ⟨rfl, rfl, rfl⟩

/-! ## The log -/

theorem isName_fileName : IsName BuildLog.fileName := by decide

theorem logPath_eq (hdir : Path.isAbsolute p.dir) :
    p.logPath = ofParts true (Path.parts p.imageDir ++ [BuildLog.fileName]) := by
  have hsplit : Bytes.splitOn Path.slash BuildLog.fileName = [BuildLog.fileName] :=
    Bytes.splitOn_of_notMem isName_fileName.one
  rw [logPath, Path.join_pair (isAbsolute_imageDir hdir) isName_fileName.ne_nil, hsplit]
  rw [hsplit]
  simpa using isName_fileName

theorem isName_of_mem_logPath (hdir : Path.isAbsolute p.dir) :
    AreNames (Path.parts p.imageDir ++ [BuildLog.fileName]) :=
  List.forall_mem_append.2 ⟨Path.parts_isName (isAbsolute_imageDir hdir), by simpa using isName_fileName⟩

theorem not_prefix_logPath (ps q : Place) (w : Bytes) : ¬ q ++ ps ++ [imageName w] <+: q ++ [BuildLog.fileName] := by
  intro h
  have hlen := h.length_le
  simp only [List.length_append, List.length_singleton] at hlen
  obtain rfl : ps = [] := List.length_eq_zero_iff.1 (by omega)
  have heq : imageName w = BuildLog.fileName := by simpa using h
  have hsuffix : imageExt <:+ BuildLog.fileName := heq ▸ List.suffix_append w imageExt
  exact absurd hsuffix (by decide)

theorem right_of_log (h0 : p.Start contents files s0) (h : p.Ongoing o.strip files files [] s0 b s) {text : Bytes}
    (hwritten : Written (Path.parts p.imageDir) BuildLog.fileName text s s') {e : LoggedImage}
    (he : e ∈ b.images) : e.Right p o.strip s' ∧ ∃ data ∈ contents, s'.read e.source = .ok data := by
  obtain ⟨hmem, data, proto, hread, hhash, himg, hproto, hcontent⟩ := h.entries e he
  obtain ⟨q, name, d, hsource, hq, hname, hfile⟩ := h0.exists_place hmem
  obtain ⟨ps, w, hps, himage⟩ := exists_image h0.dir h0.proper h0.sources hmem
  have hnode : s.tree.get? (q ++ [name]) = some (.file d) := by
    rw [← hfile, ← Path.parts_ofParts hq, ← hsource, h.sources _ hmem]
  have hne : q ++ [name] ≠ Path.parts p.imageDir ++ [BuildLog.fileName] := by
    intro heq
    obtain rfl : name = BuildLog.fileName := by simpa using (List.append_inj' heq rfl).2
    exact absurd hname (by decide)
  have hread' : s'.read e.source = .ok data := by
    rw [hsource] at hread ⊢
    exact (State.read_congr h.proper hwritten.proper hq (hwritten.get?_file hne hnode)).2 hread
  have hcontent' : s'.read e.image = .ok (Image.encode proto) := by
    have hkeep := hwritten.get?_of_not_prefix (not_prefix_logPath ps (Path.parts p.imageDir) w)
    rw [himg, himage] at hcontent ⊢
    exact (State.read_congr h.proper hwritten.proper hps hkeep).2 hcontent
  have hknown := h0.known _ hmem data ((h.read_source h0 hmem).1 hread)
  exact ⟨⟨data, proto, hread', hhash, himg, hproto, hcontent'⟩, data, hknown, hread'⟩

/-! ## Histories -/

/-- Between builds, sources come, change and go, and images and the log may be deleted; what is found
where the log or an image that it tells of goes was there before. (A directory counts: it would be taken
for an image.) -/
def Undisturbed (p : Manifest) (s s' : State) : Prop :=
  ∀ path, path = p.logPath ∨ (∃ text r, s.read p.logPath = .ok text ∧ BuildLog.ofText? text = some r ∧
      path ∈ r.images.map (·.image)) →
    ∀ node, s'.get? path = .ok node → s.get? path = .ok node

/-- The sources of a build have contents among `contents`. None of their images is, or leads to, that of
another one, and where writes break off, there is no image of a source that is listed twice. -/
def Orderly (p : Manifest) (contents : Set Bytes) (s : State) : Prop :=
  ∀ files, (p.allSources : StateM State _) s = (.ok files, s) →
    (∀ a ∈ files, ∀ b ∈ files, a ≠ b → ¬ Path.parts (p.imageFor a) <+: Path.parts (p.imageFor b)) ∧
    (∀ a ∈ files, ∀ kept, s.tree.limit (Path.parts (p.imageFor a)) = .breaksOff kept → files.count a = 1) ∧
    ∀ a ∈ files, ∀ data, s.read a = .ok data → data ∈ contents

/-- The states that a project comes to when it starts without a log, and is then edited and built. Edits can
change what can be written where, but a build that is to write its log finds the place of the log free.
The logs that are written can be read back. -/
inductive History (p : Manifest) (contents : Set Bytes) : State → Prop where
  | start {s : State} (proper : s.tree.Proper) (nolog : ∀ text, s.read p.logPath ≠ .ok text) :
      History p contents s
  | edit {s s' : State} (past : History p contents s) (proper : s'.tree.Proper) (kept : p.Undisturbed s s') :
      History p contents s'
  | build {s : State} {o : BuildMode} (past : History p contents s) (orderly : p.Orderly contents s)
      (writable : o.parseOnly = true ∨ s.tree.limit (Path.parts p.logPath) = .free)
      (logs : ∀ r, ((p.buildWithLog o : StateM State _) s).1.2 = some r → BuildLog.ofText? r.text = some r) :
      History p contents ((p.build o : StateM State _) s).2

structure Sound (p : Manifest) (contents : Set Bytes) (s : State) : Prop where
  proper : s.tree.Proper
  log : ∀ text r, s.read p.logPath = .ok text → BuildLog.ofText? text = some r → r.Trusted p contents s

theorem read_eq_ok_iff {path data : Bytes} : s.read path = .ok data ↔ s.get? path = .ok (.file data) := by
  rw [State.read]
  cases s.get? path with
  | error => simp
  | ok node => cases node <;> simp

theorem Sound.edit (h : p.Sound contents s) (hproper : s'.tree.Proper) (hkept : p.Undisturbed s s') :
    p.Sound contents s' := by
  refine ⟨hproper, fun text r hread htext e he => ?_⟩
  have hlog := hkept p.logPath (.inl rfl) _ (read_eq_ok_iff.1 hread)
  have hlog' := read_eq_ok_iff.2 hlog
  obtain ⟨himg, data, hdata, proto, hhash, hproto, hnode⟩ := h.log text r hlog' htext e he
  refine ⟨himg, data, hdata, proto, hhash, hproto, fun node hget => hnode node ?_⟩
  exact hkept e.image (.inr ⟨text, r, hlog', htext, List.mem_map_of_mem he⟩) node hget

theorem run_writeLog (r : BuildLog) (path : Bytes) (s : State) : (r.write path : StateM State _) s =
      (((writeWithDirs path r.text : StateM State _) s).1.mapError BuildLog.inEncoding,
        ((writeWithDirs path r.text : StateM State _) s).2) := rfl

/-- A log is written, or is refused and there is none if its place is free. -/
theorem writeLog_cases (r : BuildLog) (hdir : Path.isAbsolute p.dir) (hs : s.tree.Proper) :
    (∃ s', (r.write p.logPath : StateM State _) s = (.ok (), s') ∧ s.tree.limit (Path.parts p.logPath) = .free ∧
      Written (Path.parts p.imageDir) BuildLog.fileName r.text s s' ∧ s'.read p.logPath = .ok r.text) ∨
    ∃ e s', (r.write p.logPath : StateM State _) s = (.error e, s') ∧ s'.tree.Proper ∧
      (s.tree.limit (Path.parts p.logPath) = .free → ∀ text, s'.read p.logPath ≠ .ok text) := by
  have hnames := isName_of_mem_logPath hdir
  rw [run_writeLog, logPath_eq hdir, Path.parts_ofParts hnames]
  rcases FileTree.writeWithDirs_cases hnames r.text hs with
    ⟨result, s', hrun, hfree, -, hwritten⟩ | ⟨e, s', hrun, hgrown, hno⟩
  · rw [hrun]
    cases result with
    | ok u =>
      have hlimit := hfree.1 rfl
      rw [hlimit] at hwritten
      refine .inl ⟨s', rfl, hlimit, hwritten, ?_⟩
      rw [State.read_eq_ok hwritten.proper hnames]
      exact ⟨hwritten.spelled, hwritten.file⟩
    | error e => exact .inr ⟨_, s', rfl, hwritten.proper, fun hlimit => by cases hfree.2 hlimit⟩
  · rw [hrun]
    exact .inr ⟨_, s', rfl, hgrown.proper hs, hno⟩

theorem written_log {r : BuildLog} (hdir : Path.isAbsolute p.dir) (hs : s.tree.Proper)
    (h : (r.write p.logPath : StateM State _) s = (.ok (), s')) : s.tree.limit (Path.parts p.logPath) = .free ∧
      Written (Path.parts p.imageDir) BuildLog.fileName r.text s s' ∧ s'.read p.logPath = .ok r.text := by
  rcases writeLog_cases r hdir hs with ⟨s1, hrun, hlog⟩ | ⟨e, s1, hrun, -⟩
  · obtain ⟨-, rfl⟩ := Prod.mk.inj (hrun.symm.trans h)
    exact hlog
  · cases (Prod.mk.inj (hrun.symm.trans h)).1

section
variable (h : p.Sound contents s) (hdir : Path.isAbsolute p.dir) (hdigest : Set.InjOn sha256 contents) (horderly : p.Orderly contents s)
include h hdir hdigest horderly

/-- After a build that writes its log, the log is there and its entries are right; after another one,
there is no log, or all is as it was, unless the log was refused. -/
theorem Sound.buildWithLog {report : Report}
    {log : Option BuildLog} (hrun : (p.buildWithLog o : StateM State _) s = ((report, log), s')) :
    (log = none ∧ s' = s) ∨
    (s'.tree.Proper ∧ log = none ∧ (o.parseOnly = true ∨ s.tree.limit (Path.parts p.logPath) = .free →
      ∀ text, s'.read p.logPath ≠ .ok text)) ∨
    ∃ r, log = some r ∧ s'.tree.Proper ∧ s'.read p.logPath = .ok r.text ∧
      ∀ e ∈ r.images, e.Right p r.stripDebug s' ∧ ∃ data ∈ contents, s'.read e.source = .ok data := by
  rcases buildWithLog_cases hrun with ⟨hnone, hsame, -⟩ | ⟨files, last, b, s1, ho, -, hsources, hlast, hfold, hwrite⟩
  · exact .inl ⟨hnone, hsame⟩
  · obtain ⟨hapart, honce, hknown⟩ := horderly files hsources
    have h0 : p.Start contents files s := ⟨hdir, h.proper, hsources, hapart, honce, hknown, hdigest⟩
    have htrusted : ∀ r, last = some r →
        r.stripDebug = (p.fullMode o).strip ∧ r.Trusted p contents s := by
      intro r hr
      obtain ⟨last', hlast', hlog⟩ := run_lastLog p (p.fullMode o) s
      obtain ⟨rfl, -⟩ := Prod.mk.inj (hlast.symm.trans hlast')
      obtain ⟨hstrip, text, hread, htext⟩ := hlog r hr
      exact ⟨hstrip, h.log text r hread htext⟩
    have hongoing := Ongoing.run h0 ho htrusted h0.ongoing hfold
    rcases hwrite with ⟨rfl, -, hwrite⟩ | ⟨rfl, -, e, hwrite⟩
    · obtain ⟨-, hwritten, hread⟩ := written_log hdir hongoing.proper hwrite
      exact .inr (.inr ⟨_, rfl, hwritten.proper, hread, fun e he => right_of_log h0 hongoing hwritten he⟩)
    · rcases writeLog_cases ⟨(p.fullMode o).strip, b.images⟩ hdir hongoing.proper with
        ⟨s2, hrun2, -⟩ | ⟨e', s2, hrun2, hproper, hno⟩
      · cases (Prod.mk.inj (hrun2.symm.trans hwrite)).1
      · obtain ⟨-, rfl⟩ := Prod.mk.inj (hrun2.symm.trans hwrite)
        refine .inr (.inl ⟨hproper, rfl, fun hcan => hno ?_⟩)
        rw [hongoing.limit]
        exact hcan.resolve_left (by rw [show o.parseOnly = false from ho]; decide)

theorem Sound.build (hwritable : o.parseOnly = true ∨ s.tree.limit (Path.parts p.logPath) = .free)
    (hlogs : ∀ r, ((p.buildWithLog o : StateM State _) s).1.2 = some r → BuildLog.ofText? r.text = some r) :
    p.Sound contents ((p.build o : StateM State _) s).2 := by
  rw [run_build]
  rcases hrun : (p.buildWithLog o : StateM State _) s with ⟨⟨report, log⟩, s'⟩
  rw [hrun] at hlogs
  rcases h.buildWithLog hdir hdigest horderly hrun with
    ⟨-, rfl⟩ | ⟨hproper, -, hnone⟩ | ⟨r, rfl, hproper, hread, hentries⟩
  · exact h
  · exact ⟨hproper, fun text r hread => absurd hread (hnone hwritable text)⟩
  · refine ⟨hproper, fun text r' hread' htext e he => ?_⟩
    obtain rfl : r.text = text := by simpa [hread] using hread'
    obtain rfl : r = r' := by simpa [hlogs r rfl] using htext
    obtain ⟨⟨data, proto, hsource, hhash, himg, hproto, hcontent⟩, data', hdata', hsource'⟩ := hentries e he
    obtain rfl : data = data' := by simpa [hsource] using hsource'
    refine ⟨himg, data, hdata', proto, hhash, hproto, fun node hget => ?_⟩
    rw [read_eq_ok_iff] at hcontent
    exact Except.ok.inj (hget.symm.trans hcontent)

end

theorem History.sound (h : p.History contents s) (hdir : Path.isAbsolute p.dir)
    (hdigest : Set.InjOn sha256 contents) : p.Sound contents s := by
  induction h with
  | start hproper hnolog => exact ⟨hproper, fun text r hread => absurd hread (hnolog text)⟩
  | edit _ hproper hkept ih => exact ih.edit hproper hkept
  | build _ horderly hwritable hlogs ih => exact ih.build hdir hdigest horderly hwritable hlogs

/-- Whatever the history of a project, the log that a build writes is there after it, and for each of
its entries the source has the content with the digest of the entry, and the image, which is where that
of the source goes, holds what the content compiles to. -/
theorem build_right (hdir : Path.isAbsolute p.dir) (hdigest : Set.InjOn sha256 contents)
    (hpast : p.History contents s) (horderly : p.Orderly contents s) {r : BuildLog}
    (hlog : ((p.buildWithLog o : StateM State _) s).1.2 = some r)
    (hs' : ((p.build o : StateM State _) s).2 = s') :
    r.stripDebug = (o.strip || p.stripDebug) ∧ s'.read p.logPath = .ok r.text ∧
    ∀ e ∈ r.images, ∃ data proto, s'.read e.source = .ok data ∧ e.sourceHash = Bytes.hex (sha256 data) ∧
      e.image = p.imageFor e.source ∧
      compile data (chunkOfFile (p.shownPath e.source)) r.stripDebug = .ok proto ∧
      s'.read e.image = .ok (Image.encode proto) := by
  rw [run_build] at hs'
  rcases hrun : (p.buildWithLog o : StateM State _) s with ⟨⟨report, log⟩, s₁⟩
  rw [hrun] at hlog hs'
  obtain rfl : s₁ = s' := hs'
  obtain rfl : log = some r := hlog
  have hstrip : r.stripDebug = (o.strip || p.stripDebug) := by
    rcases buildWithLog_cases hrun with ⟨hnone, -⟩ | ⟨_, _, _, _, -, -, -, -, -, ⟨hr, -⟩ | ⟨hnone, -⟩⟩
    · cases hnone
    · rw [Option.some.inj hr]
      rfl
    · cases hnone
  rcases (hpast.sound hdir hdigest).buildWithLog hdir hdigest horderly hrun with
    ⟨hnone, -⟩ | ⟨-, hnone, -⟩ | ⟨r', hr, -, hread, hentries⟩
  · cases hnone
  · cases hnone
  · obtain rfl := Option.some.inj hr
    exact ⟨hstrip, hread, fun e he => (hentries e he).1⟩

/-! ## A history -/

def sampleFiles : List Bytes :=
  [bytes "/p/src/sub/x.luma", bytes "/p/src/x.luma"]

def sampleContents : List Bytes :=
  [bytes "return nil", bytes "do local x end", bytes "do end"]

/-- A build of the sample, in a form that proofs do not look into. -/
@[irreducible]
def runSample (verbose : Bool) (s : State) : (Report × Option BuildLog) × State :=
  ((sample [bytes "src"]).buildFiles { verbose } sampleFiles : StateM State _) s

/-- The first source gets another content, and the log another limit. -/
@[irreducible]
def edited (data : Bytes) (limit : FileTree.Limit) (s : State) : State :=
  { s with tree := { s.tree.put [bytes "p", bytes "src", bytes "sub", bytes "x.luma"] (.file data) with
      limit := fun q => if q = [bytes "p", bytes "build", BuildLog.fileName] then limit else .free } }

theorem allSources_of_below
    (h : ((sourcesBelow (sample [bytes "src"]).sourceDirs : StateM State _) s).1.toOption = some sampleFiles) :
    ((sample [bytes "src"]).allSources : StateM State _) s = (.ok sampleFiles, s) := by
  have hstate := run_sourcesBelow_state (sample [bytes "src"]).sourceDirs s
  rcases hrun : (sourcesBelow (sample [bytes "src"]).sourceDirs : StateM State _) s with ⟨files, s'⟩
  rw [hrun] at h hstate
  obtain rfl : s' = s := hstate
  cases files with
  | error => cases h
  | ok files =>
    obtain rfl := Option.some.inj h
    rw [allSources_of_sourcesBelow hrun, List.mergeSort_of_pairwise (by decide +kernel)]

section
variable (h : ((sample [bytes "src"]).allSources : StateM State _) s = (.ok sampleFiles, s))
include h

theorem buildWithLog_sample (verbose : Bool) :
    ((sample [bytes "src"]).buildWithLog { verbose } : StateM State _) s = runSample verbose s := by
  refine (buildWithLog_of_sources (by decide) h _).trans ?_
  unfold runSample
  rfl

theorem orderly_sample (hfree : ∀ a ∈ sampleFiles, s.tree.limit (Path.parts ((sample [bytes "src"]).imageFor a)) = .free)
    (hknown : ∀ a ∈ sampleFiles, (s.read a).toOption ∈ sampleContents.map some) :
    (sample [bytes "src"]).Orderly {d | d ∈ sampleContents} s := by
  intro files hfiles
  obtain ⟨⟨⟩, -⟩ := Prod.mk.inj (h.symm.trans hfiles)
  refine ⟨by decide +kernel, fun a ha kept hlimit => ?_, fun a ha data hread => ?_⟩
  · cases (hfree a ha).symm.trans hlimit
  · simpa [hread, Except.toOption] using hknown a ha

end

theorem undisturbed_of_log {r : BuildLog} (hlog : (s.read p.logPath).toOption = some r.text)
    (htext : BuildLog.ofText? r.text = some r) (hkept : ∀ path ∈ p.logPath :: r.images.map (·.image),
      (s'.get? path).toOption = (s.get? path).toOption) : p.Undisturbed s s' := by
  intro path hpath node hnode
  have hsame := hkept path (by
    rcases hpath with rfl | ⟨text, r', hread, htext', hmem⟩
    · exact List.mem_cons_self
    · rw [hread] at hlog
      obtain rfl : text = r.text := Option.some.inj hlog
      obtain rfl := Option.some.inj (htext.symm.trans htext')
      exact List.mem_cons_of_mem _ hmem)
  rw [hnode] at hsame
  exact FileTree.toOption_eq_some_iff.1 hsame.symm

theorem logs_sample : ((runSample false sampleState).1.1.errors.isEmpty &&
    (runSample false sampleState).1.2.any fun r => BuildLog.ofText? r.text == some r &&
      r.images.map (·.source) == sampleFiles && r.images.map (·.image) == sampleFiles.map (sample [bytes "src"]).imageFor &&
      ((runSample false sampleState).2.read (sample [bytes "src"]).logPath).toOption == some r.text) = true := by
  decide +kernel

theorem history_edited : (sample [bytes "src"]).History {d | d ∈ sampleContents}
    (edited (bytes "do end") .free (runSample false sampleState).2) := by
  have hrun := buildWithLog_sample allSources_sample false
  obtain ⟨r, hr, hfacts⟩ := (Option.any_eq_true _ _).1 (Bool.and_eq_true_iff.1 logs_sample).2
  simp only [Bool.and_eq_true, beq_iff_eq] at hfacts
  obtain ⟨⟨⟨htext, -⟩, himages⟩, hlog⟩ := hfacts
  have hstart : (sample [bytes "src"]).History {d | d ∈ sampleContents} sampleState :=
    .start proper_sampleState fun text hread => nomatch (show Except.error Disk.Fault.notFound = .ok text from hread)
  have hbuilt := hstart.build (orderly_sample allSources_sample (fun _ _ => rfl) (by decide +kernel))
    (o := { verbose := false }) (.inr rfl) fun r' hr' => by
      rw [hrun, hr] at hr'
      rw [← Option.some.inj hr', htext]
  rw [run_build, hrun] at hbuilt
  refine hbuilt.edit (by constructor <;> decide +kernel) (undisturbed_of_log hlog htext ?_)
  rw [himages]
  decide +kernel

/-- The first source has been edited after a build, and the second one is up to date. -/
theorem build_right_sample : ∃ report r s',
    ((sample [bytes "src"]).buildWithLog { verbose := true } : StateM State _)
        (edited (bytes "do end") .free (runSample false sampleState).2) = ((report, some r), s') ∧
      report.text.endsWith (bytes "1 compiled, 1 up to date, 0 failed\n") = true ∧
      r.images.map (·.source) = sampleFiles ∧
      ∀ e ∈ r.images, ∃ data proto, s'.read e.source = .ok data ∧ e.sourceHash = Bytes.hex (sha256 data) ∧
        e.image = (sample [bytes "src"]).imageFor e.source ∧
        compile data (chunkOfFile ((sample [bytes "src"]).shownPath e.source)) r.stripDebug = .ok proto ∧
        s'.read e.image = .ok (Image.encode proto) := by
  have hsources := allSources_of_below (s := edited (bytes "do end") .free (runSample false sampleState).2)
    (by decide +kernel)
  have horderly := orderly_sample hsources (by decide +kernel) (by decide +kernel)
  have hfacts : ((runSample true (edited (bytes "do end") .free (runSample false sampleState).2)).1.1.text.endsWith
      (bytes "1 compiled, 1 up to date, 0 failed\n") &&
    (runSample true (edited (bytes "do end") .free (runSample false sampleState).2)).1.2.any fun r =>
      r.images.map (·.source) == sampleFiles) = true := by
    decide +kernel
  have hinj : ∀ a ∈ sampleContents, ∀ b ∈ sampleContents, sha256 a = sha256 b → a = b := by decide +kernel
  have hrun := buildWithLog_sample hsources true
  rcases hstep : runSample true (edited (bytes "do end") .free (runSample false sampleState).2) with ⟨⟨report, log⟩, s'⟩
  rw [hstep] at hfacts hrun
  obtain ⟨htext, hlog⟩ := Bool.and_eq_true_iff.1 hfacts
  obtain ⟨r, rfl, hfiles⟩ := (Option.any_eq_true _ _).1 hlog
  refine ⟨report, r, s', hrun, htext, by simpa using hfiles, ?_⟩
  exact (build_right rfl (fun a ha b hb => hinj a ha b hb) history_edited horderly (o := { verbose := true })
    (by rw [hrun]) (by rw [run_build, hrun])).2.2

/-- The first source is edited, and the log of the next build is refused; then the edit is taken back. -/
def revertedState : State :=
  edited (bytes "return nil") .free
    (runSample false (edited (bytes "do end") .refused (runSample false sampleState).2)).2

/-- Where a log is refused while an older one is there, an image can be taken for that of another content. -/
theorem build_wrong_of_refused_log : ∃ report r s' e data proto,
    ((sample [bytes "src"]).buildWithLog {} : StateM State _) revertedState = ((report, some r), s') ∧ e ∈ r.images ∧
      s'.read e.source = .ok data ∧ e.sourceHash = Bytes.hex (sha256 data) ∧
      compile data (chunkOfFile ((sample [bytes "src"]).shownPath e.source)) r.stripDebug = .ok proto ∧
      s'.read e.image ≠ .ok (Image.encode proto) := by
  have hsources := allSources_of_below (s := revertedState) (by decide +kernel)
  have hrun := buildWithLog_sample hsources false
  have hfacts : ((runSample false revertedState).1.2.any fun r => r.images.any fun e =>
      ((runSample false revertedState).2.read e.source).toOption.any fun data =>
        e.sourceHash == Bytes.hex (sha256 data) &&
        (compile data (chunkOfFile ((sample [bytes "src"]).shownPath e.source)) r.stripDebug).toOption.any fun proto =>
          ((runSample false revertedState).2.read e.image).toOption != some (Image.encode proto)) = true := by
    decide +kernel
  rcases hstep : runSample false revertedState with ⟨⟨report, log⟩, s'⟩
  rw [hstep] at hfacts hrun
  simp only [Option.any_eq_true, List.any_eq_true, Bool.and_eq_true, beq_iff_eq, bne_iff_ne] at hfacts
  obtain ⟨r, rfl, e, he, data, hdata, hhash, proto, hproto, hne⟩ := hfacts
  exact ⟨report, r, s', e, data, proto, hrun, he, FileTree.toOption_eq_some_iff.1 hdata, hhash,
    FileTree.toOption_eq_some_iff.1 hproto, fun heq => hne (FileTree.toOption_eq_some_iff.2 heq)⟩

end Manifest

end RegisterCompiler
