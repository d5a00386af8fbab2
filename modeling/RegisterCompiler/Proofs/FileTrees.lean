import Mathlib.Data.List.Induction
import RegisterCompiler.Disk.FileTree
import RegisterCompiler.Proofs.Paths

/-!
# File trees and what paths lead to

* `FileTree.Proper` : every place is given once, by names, and what leads to it are directories;
* `FileTree.resolve_ofParts` : the place that an absolute path leads to is its parts.
-/

namespace RegisterCompiler.FileTree

open RegisterCompiler.Path (AreNames IsName)

/-! ## Steps that can fail -/

section Steps
variable {α β : Type} (fault : Disk.Fault)

@[simp] theorem ok_bind (a : α) (k : α → Except Disk.Fault β) : (Except.ok a >>= k) = k a := rfl

@[simp] theorem error_bind (k : α → Except Disk.Fault β) : (Except.error fault >>= k) = .error fault := rfl

@[simp] theorem pure_eq_ok (a : α) : (pure a : Except Disk.Fault α) = .ok a := rfl

@[simp] theorem throw_eq_error : (throw fault : Except Disk.Fault α) = .error fault := rfl

theorem toOption_eq_some_iff {ε : Type} {x : Except ε α} {a : α} : x.toOption = some a ↔ x = .ok a := by
  cases x <;> simp [Except.toOption]

end Steps

variable {p : Place} {t : FileTree}

/-! ## Nodes -/

/-- Every place is given once and by names, and what leads to it are directories. -/
structure Proper (t : FileTree) : Prop where
  once : (t.nodes.map Prod.fst).Nodup
  names : ∀ n ∈ t.nodes, ∀ name ∈ n.1, IsName name
  ne_root : ∀ n ∈ t.nodes, n.1 ≠ []
  parents : ∀ n ∈ t.nodes, t.get? n.1.dropLast = some .dir

@[simp]
theorem get?_root (t : FileTree) : t.get? [] = some .dir := rfl

theorem get?_of_ne (h : p ≠ []) (t : FileTree) : t.get? p = t.nodes.lookup p := by
  simp [get?, h]

theorem mem_of_lookup {nodes : List (Place × Node)} {node : Node}
    (h : nodes.lookup p = some node) : (p, node) ∈ nodes := by
  obtain ⟨front, back, rfl, -⟩ := List.lookup_eq_some_iff.1 h
  simp

theorem lookup_of_mem {nodes : List (Place × Node)} (hn : (nodes.map Prod.fst).Nodup)
    {node : Node} (h : (p, node) ∈ nodes) : nodes.lookup p = some node := by
  obtain ⟨front, back, rfl⟩ := List.append_of_mem h
  refine List.lookup_eq_some_iff.2 ⟨front, back, rfl, ?_⟩
  intro n hn'
  rw [List.map_append, List.map_cons, List.nodup_append] at hn
  have hne := hn.2.2 n.1 (List.mem_map_of_mem hn') p List.mem_cons_self
  simpa using hne.symm

theorem lookup_filter (nodes : List (Place × Node)) (p q : Place) :
    (nodes.filter (·.1 != p)).lookup q = if q = p then none else nodes.lookup q := by
  induction nodes with
  | nil => simp
  | cons n nodes ih =>
    obtain ⟨r, node⟩ := n
    by_cases hr : r = p
    · subst hr
      rw [List.filter_cons_of_neg (by simp), ih, List.lookup_cons]
      by_cases hq : q = r
      · simp [hq]
      · have : (q == r) = false := by simpa using hq
        simp [hq, this]
    · rw [List.filter_cons_of_pos (by simpa using hr), List.lookup_cons, List.lookup_cons, ih]
      by_cases hq : q = r
      · simp [hq, hr]
      · have : (q == r) = false := by simpa using hq
        simp [this]

theorem get?_put (hp : p ≠ []) (t : FileTree) (node : Node) (q : Place) :
    (t.put p node).get? q = if q = p then some node else t.get? q := by
  by_cases hq : q = []
  · subst hq
    simp [Ne.symm hp]
  · rw [get?_of_ne hq, get?_of_ne hq, put, List.lookup_cons, lookup_filter]
    by_cases hqp : q = p
    · simp [hqp]
    · have : (q == p) = false := by simpa using hqp
      simp [hqp, this]

namespace Proper

theorem parent (ht : t.Proper) {name : Bytes} {node : Node}
    (h : t.get? (p ++ [name]) = some node) : t.get? p = some .dir := by
  rw [get?_of_ne (by simp)] at h
  simpa using ht.parents _ (mem_of_lookup h)

theorem get?_above (ht : t.Proper) {q : Place} {node : Node} (h : t.get? p = some node) (hq : q <+: p)
    (hne : q ≠ p) : t.get? q = some .dir := by
  induction p using List.reverseRecOn generalizing node with
  | nil => exact absurd (List.prefix_nil.1 hq) hne
  | append_singleton p name ih =>
    have hparent := ht.parent h
    rcases List.prefix_concat_iff.1 hq with heq | hq
    · exact absurd heq hne
    · by_cases hqp : q = p
      · rw [hqp, hparent]
      · exact ih hparent hq hqp

theorem put (ht : t.Proper) {name : Bytes} (hnames : AreNames (p ++ [name]))
    (hdir : t.get? p = some .dir) (hno : t.get? (p ++ [name]) ≠ some .dir) (node : Node) :
    (t.put (p ++ [name]) node).Proper := by
  have hget (q : Place) (hq : t.get? q = some .dir) : (t.put (p ++ [name]) node).get? q = some .dir := by
    rw [get?_put (by simp), if_neg, hq]
    rintro rfl
    exact hno hq
  have hmem (n : Place × Node) (hn : n ∈ (t.put (p ++ [name]) node).nodes) :
      n = (p ++ [name], node) ∨ n ∈ t.nodes := by
    rcases List.mem_cons.1 hn with rfl | hn
    · exact .inl rfl
    · exact .inr (List.mem_filter.1 hn).1
  constructor
  · rw [FileTree.put, List.map_cons, List.nodup_cons]
    constructor
    · simp
    · exact ht.once.sublist (List.filter_sublist.map _)
  · intro n hn
    rcases hmem n hn with rfl | hn
    · exact hnames
    · exact ht.names n hn
  · intro n hn
    rcases hmem n hn with rfl | hn
    · simp
    · exact ht.ne_root n hn
  · intro n hn
    rcases hmem n hn with rfl | hn
    · simpa using hget p hdir
    · exact hget _ (ht.parents n hn)

end Proper

variable {q : Place} {name : Bytes} {ps : List Bytes}

theorem mem_filesFrom : q ∈ t.filesFrom p ↔ (∃ data, (q, .file data) ∈ t.nodes) ∧ p <+: q := by
  rw [filesFrom, List.mem_filterMap]
  constructor
  · rintro ⟨⟨r, node⟩, hmem, h⟩
    cases node with
    | dir => simp at h
    | file data =>
      simp only [Option.ite_none_right_eq_some, List.isPrefixOf_iff_prefix, Option.some.injEq] at h
      obtain ⟨hpre, rfl⟩ := h
      exact ⟨⟨data, hmem⟩, hpre⟩
  · rintro ⟨⟨data, hmem⟩, hpre⟩
    exact ⟨(q, .file data), hmem, by simp [List.isPrefixOf_iff_prefix.2 hpre]⟩

theorem filesFrom_sublist (t : FileTree) (p : Place) : (t.filesFrom p).Sublist (t.nodes.map Prod.fst) := by
  rw [filesFrom]
  induction t.nodes with
  | nil => exact .slnil
  | cons n nodes ih =>
    obtain ⟨q, node⟩ := n
    rw [List.filterMap_cons, List.map_cons]
    split
    · exact ih.cons q
    · next r hr =>
      cases node with
      | dir => simp at hr
      | file data =>
        simp only [Option.ite_none_right_eq_some, Option.some.injEq] at hr
        rw [hr.2]
        exact ih.cons_cons r

theorem Proper.mem_nodes (ht : t.Proper) {data : Bytes} :
    (q, .file data) ∈ t.nodes ↔ t.get? q = some (.file data) := by
  constructor
  · intro hmem
    rw [get?_of_ne (ht.ne_root _ hmem)]
    exact lookup_of_mem ht.once hmem
  · intro hget
    have hne : q ≠ [] := by
      rintro rfl
      simp at hget
    rw [get?_of_ne hne] at hget
    exact mem_of_lookup hget

theorem Proper.nodup_filesFrom (ht : t.Proper) (p : Place) : (t.filesFrom p).Nodup :=
  ht.once.sublist (filesFrom_sublist t p)

/-! ## Paths -/

def downs (ps : List Bytes) : Place :=
  ps.filter fun p => !(p.isEmpty || p == Path.here)

theorem downs_of_names (h : AreNames ps) : downs ps = ps := by
  rw [downs, List.filter_eq_self]
  intro p hp
  simp [(h p hp).ne_nil, (h p hp).ne_here]

theorem needDir_eq_ok : t.needDir p = .ok () ↔ t.get? p = some .dir := by
  unfold needDir
  split <;> simp_all

theorem downs_singleton (name : Bytes) :
    downs [name] = if name.isEmpty || name == Path.here then [] else [name] := by
  simp only [downs, List.filter_cons, List.filter_nil]
  cases name.isEmpty || name == Path.here <;> rfl

theorem step_of_dir (hdir : t.get? p = some .dir) (hup : name ≠ Path.up) :
    t.step p name = if name.length > maxName then .error .nameTooLong else .ok (p ++ downs [name]) := by
  rw [step, needDir_eq_ok.2 hdir, downs_singleton]
  by_cases hlen : name.length > maxName
  · simp [hlen]
  · cases name.isEmpty || name == Path.here with
    | true => simp [hlen]
    | false => simp [hlen, hup]

theorem dir_of_step (h : t.step p name = .ok q) : t.get? p = some .dir := by
  rw [step] at h
  cases hneed : t.needDir p with
  | error => simp [hneed] at h
  | ok => exact needDir_eq_ok.1 hneed

theorem step_eq_ok (hup : name ≠ Path.up) :
    t.step p name = .ok q ↔ t.get? p = some .dir ∧ name.length ≤ maxName ∧ q = p ++ downs [name] := by
  constructor
  · intro h
    have hdir := dir_of_step h
    rw [step_of_dir hdir hup] at h
    split at h
    · simp at h
    · next hlen => exact ⟨hdir, Nat.le_of_not_gt hlen, (Except.ok.inj h).symm⟩
  · rintro ⟨hdir, hlen, rfl⟩
    rw [step_of_dir hdir hup, if_neg (Nat.not_lt.2 hlen)]

theorem eq_of_foldlM_step (hup : ∀ p ∈ ps, p ≠ Path.up) (h : ps.foldlM t.step p = .ok q) :
    q = p ++ downs ps ∧ (∀ n ∈ ps, n.length ≤ maxName) ∧ ∀ r, p <+: r → r <+: q → r ≠ q → t.get? r = some .dir := by
  induction ps generalizing p with
  | nil =>
    obtain rfl : p = q := by simpa using h
    refine ⟨by simp [downs], by simp, fun r hpr hrp hne => ?_⟩
    exact absurd (hrp.eq_of_length_le hpr.length_le) hne
  | cons name ps ih =>
    rw [List.foldlM_cons] at h
    cases hstep : t.step p name with
    | error => simp [hstep] at h
    | ok p' =>
      rw [hstep] at h
      obtain ⟨hdir, hshort, rfl⟩ := (step_eq_ok (hup name List.mem_cons_self)).1 hstep
      obtain ⟨rfl, hshorts, hway⟩ := ih (fun n hn => hup n (List.mem_cons_of_mem name hn)) h
      have hcons : downs (name :: ps) = downs [name] ++ downs ps := List.filter_append [name] ps
      refine ⟨by rw [hcons, List.append_assoc], List.forall_mem_cons.2 ⟨hshort, hshorts⟩,
        fun r hpr hrq hne => ?_⟩
      -- what lies between is the start or lies on the rest of the way
      obtain ⟨x, rfl⟩ := hpr
      cases x with
      | nil => simpa using hdir
      | cons c x =>
        refine hway _ ?_ hrq hne
        rw [List.append_assoc, List.prefix_append_right_inj] at hrq
        rw [List.prefix_append_right_inj]
        rw [downs_singleton] at hrq ⊢
        split
        · exact List.nil_prefix
        · next hgo =>
          rw [if_neg hgo, List.singleton_append, List.cons_prefix_cons] at hrq
          rw [hrq.1]
          exact List.prefix_append [name] x

theorem foldlM_step_names (hps : AreNames ps) (hlen : ∀ p ∈ ps, p.length ≤ maxName)
    (hway : ∀ r, p <+: r → r <+: p ++ ps → r ≠ p ++ ps → t.get? r = some .dir) :
    ps.foldlM t.step p = .ok (p ++ ps) := by
  induction ps generalizing p with
  | nil => simp
  | cons name ps ih =>
    have hname := hps name List.mem_cons_self
    have hdir : t.get? p = some .dir := hway p List.prefix_rfl (List.prefix_append ..) (by simp)
    have hstep : t.step p name = .ok (p ++ [name]) :=
      (step_eq_ok hname.ne_up).2 ⟨hdir, hlen name List.mem_cons_self, by
        rw [downs_of_names (by simpa using hname)]⟩
    rw [List.foldlM_cons, hstep]
    have hrest := ih (fun n hn => hps n (List.mem_cons_of_mem name hn))
      (fun n hn => hlen n (List.mem_cons_of_mem name hn)) (p := p ++ [name]) fun r hr => by
        simpa using hway r ((List.prefix_append ..).trans hr)
    simpa using hrest

/-- An absolute path can be spelled: it is not too long, nor is a name in it, and it holds no zero. -/
structure Spelled (ps : Place) : Prop where
  nonzero : 0 ∉ Path.ofParts true ps
  length_le : (Path.ofParts true ps).length ≤ maxPath
  short : ∀ name ∈ ps, name.length ≤ maxName

theorem resolve_eq_ok {path : Bytes} {start : Place} : t.resolve start path = .ok q ↔
    0 ∉ path ∧ path ≠ [] ∧ path.length ≤ maxPath ∧
      (Bytes.splitOn Path.slash path).foldlM t.step (if Path.isAbsolute path then [] else start) = .ok q := by
  by_cases hzero : 0 ∈ path
  · simp [resolve, hzero]
  · by_cases hne : path = []
    · simp [resolve, hne]
    · by_cases hlen : maxPath < path.length
      · simp [resolve, hzero, hne, hlen, Nat.not_le.2 hlen]
      · simp [resolve, hzero, hne, hlen, Nat.not_lt.1 hlen]

theorem foldlM_step_ofParts {ps : Place} (hps : AreNames ps) (t : FileTree) :
    (Bytes.splitOn Path.slash (Path.ofParts true ps)).foldlM t.step [] = ps.foldlM t.step [] := by
  have hroot : t.step [] [] = .ok [] := by
    rfl
  have hsplit : Bytes.splitOn Path.slash (Path.ofParts true ps) =
      [] :: Bytes.splitOn Path.slash (Bytes.intercalate [Path.slash] ps) := by
    simp [Path.ofParts, Bytes.splitOn]
  rw [hsplit, List.foldlM_cons, hroot]
  by_cases hnil : ps = []
  · simp [hnil, Bytes.intercalate, Bytes.splitOn, hroot]
  · simp [Path.splitOn_intercalate hnil hps]

theorem resolve_ofParts {ps : Place} (hps : AreNames ps) (t : FileTree) (start q : Place) :
    t.resolve start (Path.ofParts true ps) = .ok q ↔
      q = ps ∧ Spelled ps ∧ ∀ r, r <+: ps → r ≠ ps → t.get? r = some .dir := by
  rw [resolve_eq_ok, Path.isAbsolute_ofParts, if_pos rfl, foldlM_step_ofParts hps]
  constructor
  · rintro ⟨hzero, -, hlen, h⟩
    obtain ⟨heq, hshort, hway⟩ := eq_of_foldlM_step (fun p hp => (hps p hp).ne_up) h
    obtain rfl : q = ps := by rw [heq, downs_of_names hps, List.nil_append]
    exact ⟨rfl, ⟨hzero, hlen, hshort⟩, fun r hr hne => hway r List.nil_prefix hr hne⟩
  · rintro ⟨rfl, ⟨hzero, hlen, hshort⟩, hway⟩
    refine ⟨hzero, Path.ne_nil_of_isAbsolute (Path.isAbsolute_ofParts _), hlen, ?_⟩
    exact foldlM_step_names hps hshort (p := []) fun r _ hr hne => hway r hr hne

namespace State

variable {s : State} {ps : Place}

theorem get?_eq_ok (hs : s.tree.Proper) (hps : AreNames ps) {node : Node} :
    s.get? (Path.ofParts true ps) = .ok node ↔ Spelled ps ∧ s.tree.get? ps = some node := by
  have hresolve := resolve_ofParts hps s.tree s.dir
  constructor
  · intro h
    rw [get?] at h
    cases hp : s.tree.resolve s.dir (Path.ofParts true ps) with
    | error => simp [hp] at h
    | ok q =>
      obtain ⟨rfl, hspelled, -⟩ := (hresolve q).1 hp
      cases hnode : s.tree.get? q with
      | none => simp [hp, hnode] at h
      | some n =>
        simp [hp, hnode] at h
        exact ⟨hspelled, by rw [h]⟩
  · rintro ⟨hspelled, hnode⟩
    have hp := (hresolve ps).2 ⟨rfl, hspelled, fun r hr hne => hs.get?_above hnode hr hne⟩
    simp [get?, hp, hnode]

theorem read_eq_ok (hs : s.tree.Proper) (hps : AreNames ps) {data : Bytes} :
    s.read (Path.ofParts true ps) = .ok data ↔ Spelled ps ∧ s.tree.get? ps = some (.file data) := by
  rw [← get?_eq_ok hs hps, read]
  cases s.get? (Path.ofParts true ps) with
  | error => simp
  | ok node =>
    cases node <;> simp

theorem read_congr {s' : State} (hs : s.tree.Proper) (hs' : s'.tree.Proper)
    (hps : AreNames ps) (h : s'.tree.get? ps = s.tree.get? ps) {data : Bytes} :
    s'.read (Path.ofParts true ps) = .ok data ↔ s.read (Path.ofParts true ps) = .ok data := by
  rw [read_eq_ok hs' hps, read_eq_ok hs hps, h]

theorem kind_eq_dir (hs : s.tree.Proper) (hps : AreNames ps) :
    s.kind (Path.ofParts true ps) = .ok .dir ↔ Spelled ps ∧ s.tree.get? ps = some .dir := by
  rw [← get?_eq_ok hs hps, kind]
  cases s.get? (Path.ofParts true ps) with
  | error => simp
  | ok node => cases node <;> simp

theorem files_eq_ok (hs : s.tree.Proper) (hps : AreNames ps)
    {paths : List Bytes} (h : s.files (Path.ofParts true ps) = .ok paths) :
    paths = (s.tree.filesFrom ps).map (Path.ofParts true) := by
  rw [files] at h
  cases hp : s.tree.resolve s.dir (Path.ofParts true ps) with
  | error => simp [hp] at h
  | ok q =>
    obtain ⟨rfl, -, -⟩ := (resolve_ofParts hps s.tree s.dir q).1 hp
    cases hnode : s.tree.get? q with
    | none => simp [hp, hnode] at h
    | some node =>
      simp only [hp, hnode, bind, Except.bind, pure, Except.pure, Except.ok.injEq] at h
      rw [← h]
      refine List.map_congr_left fun r hr => ?_
      obtain ⟨⟨data, hmem⟩, x, rfl⟩ := mem_filesFrom.1 hr
      by_cases hx : x = []
      · simp [hx]
      · have hnames : AreNames x := fun name hn =>
          hs.names _ hmem name (List.mem_append_right q hn)
        have hne : (q ++ x == q) = false := by simpa using hx
        rw [hne, List.drop_left, if_neg (by simp),
          Path.join_cons (Path.isAbsolute_ofParts q) hnames, Path.parts_ofParts hps]

end State

end RegisterCompiler.FileTree
