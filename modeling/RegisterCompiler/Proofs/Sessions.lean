import Mathlib.Data.List.Induction
import Mathlib.Tactic.SplitIfs
import RegisterCompiler.Editor.Session

/-!
# What a session remembers

* `Request.text?`, `Request.drops` : what a request does to the document at an address;
* `lookup_handle` : one request, as the document at an address sees it;
* `textsSince` : the texts of a document since it was last closed;
* `run_lookup` : the document that a session has after any requests;
* `session_remembers` : the documents, diagnostics and answers of whole sessions.
-/

namespace RegisterCompiler.Editor

variable {uri uri' : Bytes} {s : Session}

/-! ## One request -/

/-- The new text that a request gives to the document at an address. -/
def Request.text? (uri : Bytes) : Request → Option Bytes
  | .didOpen u text => if u = uri then some text else none
  | .didChange u changes =>
    match changes.getLast? with
    | some (.whole text) => if u = uri then some text else none
    | _ => none
  | _ => none

def Request.drops (uri : Bytes) : Request → Bool
  | .shutdown => true
  | .didClose u => u == uri
  | _ => false

/-- The request is about the document at the address, or about all of them. -/
def Request.concerns (uri : Bytes) : Request → Bool
  | .shutdown => true
  | .didOpen u _ | .didChange u _ | .didClose u | .complete u _ | .hover u _ => u == uri
  | _ => false

/-- The document with a new text. It keeps its compilation if the text does not compile. -/
def revised (uri : Bytes) (old : Option Document) (text : Bytes) : Document :=
  ⟨text, (compile text (documentName uri) false).toOption.or (old.bind (·.proto))⟩

theorem Session.lookup_remove (s : Session) (uri uri' : Bytes) :
    (s.remove uri').lookup uri = if uri' = uri then none else s.lookup uri := by
  rw [lookup, remove, List.find?_filter]
  split_ifs with h
  · subst h
    rw [List.find?_eq_none.2 (by simp)]
    rfl
  · congr 2
    funext d
    by_cases hd : d.1 = uri
    · subst hd
      simp [Ne.symm h]
    · simp [hd]

theorem Session.lookup_insert (s : Session) (uri uri' : Bytes) (d : Document) :
    (s.insert uri' d).lookup uri = if uri' = uri then some d else s.lookup uri := by
  have hrest := s.lookup_remove uri uri'
  rw [lookup] at hrest ⊢
  split_ifs at hrest ⊢ with h
  · simp [insert, h]
  · rw [insert, List.find?_cons_of_neg (by simpa using h)]
    exact hrest

theorem Session.lookup_publish (s : Session) (uri uri' text : Bytes) :
    (s.publish uri' text).1.lookup uri =
      if uri' = uri then some (revised uri (s.lookup uri) text) else s.lookup uri := by
  have hdoc : ∃ ds, s.update uri' text = (s.insert uri' (revised uri' (s.lookup uri') text), ds) := by
    rw [update, diagnose, revised]
    cases compile text (documentName uri') false with
    | ok p => exact ⟨_, rfl⟩
    | error e => exact ⟨_, rfl⟩
  obtain ⟨ds, hupdate⟩ := hdoc
  rw [publish, hupdate, lookup_insert]
  split_ifs with h
  · rw [h]
  · rfl

theorem Session.published_eq (s : Session) (uri text : Bytes) : ∃ ds, (s.publish uri text).2 = .published uri ds ∧
      (ds = [] ↔ ∃ p, compile text (documentName uri) false = .ok p) ∧
      ∀ e, compile text (documentName uri) false = .error e → ds = [.ofFailure text e] := by
  rw [publish, update, diagnose]
  cases compile text (documentName uri) false with
  | ok p => exact ⟨[], rfl, by simp, by simp⟩
  | error e => exact ⟨[.ofFailure text e], rfl, by simp, by simp⟩

theorem handle_of_text? {r : Request} {text : Bytes} (h : r.text? uri = some text) :
    s.handle r = s.publish uri text := by
  cases r with
  | didOpen u t =>
    obtain ⟨rfl, rfl⟩ : u = uri ∧ t = text := by simpa [Request.text?] using h
    rfl
  | didChange u changes =>
    simp only [Request.text?] at h
    split at h
    · next t hlast =>
      obtain ⟨rfl, rfl⟩ : u = uri ∧ t = text := by simpa using h
      simp only [Session.handle, hlast]
    · cases h
  | _ => cases h

theorem lookup_handle (s : Session) (uri : Bytes) (r : Request) :
    (s.handle r).1.lookup uri = if r.drops uri then none
      else ((r.text? uri).map (revised uri (s.lookup uri))).or (s.lookup uri) := by
  cases r with
  | shutdown => rfl
  | didClose u => simpa [Session.handle, Request.drops, Request.text?] using s.lookup_remove uri u
  | didOpen u text =>
    rw [Session.handle, Session.lookup_publish]
    by_cases h : u = uri <;> simp [Request.drops, Request.text?, h]
  | didChange u changes =>
    simp only [Session.handle, Request.text?, Request.drops]
    cases changes.getLast? with
    | none => rfl
    | some c =>
      cases c with
      | part text => rfl
      | whole text =>
        rw [Session.lookup_publish]
        by_cases h : u = uri <;> simp [h]
  | _ => rfl

/-! ## Whole sessions -/

def Session.run (rs : List Request) : Session :=
  rs.foldl (fun s r => (s.handle r).1) .empty

/-- The texts that the document at an address was given since it was last dropped. -/
def textsSince (uri : Bytes) (rs : List Request) : List Bytes :=
  (rs.reverse.takeWhile (!·.drops uri)).reverse.filterMap (·.text? uri)

theorem textsSince_concat (uri : Bytes) (rs : List Request) (r : Request) :
    textsSince uri (rs ++ [r]) = if r.drops uri then [] else textsSince uri rs ++ (r.text? uri).toList := by
  rw [textsSince, List.reverse_append, List.reverse_singleton, List.singleton_append, List.takeWhile_cons]
  cases r.drops uri with
  | true => rfl
  | false =>
    rw [textsSince]
    cases h : r.text? uri <;> simp [h]

/-- A document has the latest of its texts, and the latest of their compilations. -/
def latest (uri : Bytes) (texts : List Bytes) : Option Document :=
  texts.getLast?.map fun text =>
    ⟨text, (texts.filterMap fun t => (compile t (documentName uri) false).toOption).getLast?⟩

theorem latest_concat (uri : Bytes) (texts : List Bytes) (text : Bytes) :
    latest uri (texts ++ [text]) = some (revised uri (latest uri texts) text) := by
  rw [latest, latest, revised, List.getLast?_concat, List.filterMap_append]
  induction texts using List.reverseRecOn <;>
    cases h : compile text (documentName uri) false <;> simp [h, Except.toOption]

theorem run_lookup (uri : Bytes) (rs : List Request) :
    (Session.run rs).lookup uri = latest uri (textsSince uri rs) := by
  induction rs using List.reverseRecOn with
  | nil => rfl
  | append_singleton rs r ih =>
    rw [Session.run, List.foldl_append, ← Session.run, List.foldl_cons, List.foldl_nil, lookup_handle, textsSince_concat, ih]
    split_ifs with hdrops
    · rfl
    · cases r.text? uri with
      | none => simp
      | some text => exact (latest_concat uri _ text).symm

theorem textsSince_filter (uri : Bytes) (rs : List Request) :
    textsSince uri (rs.filter (·.concerns uri)) = textsSince uri rs := by
  induction rs using List.reverseRecOn with
  | nil => rfl
  | append_singleton rs r ih =>
    rw [List.filter_append, textsSince_concat, ← ih]
    cases hr : r.concerns uri with
    | true => rw [List.filter_cons_of_pos hr, List.filter_nil, textsSince_concat]
    | false =>
      have hnone : r.drops uri = false ∧ r.text? uri = none := by
        cases r <;> simp_all [Request.concerns, Request.drops, Request.text?]
        split <;> rfl
      simp [hr, hnone]

/-- After any requests, a document is known if it was given a text since it was last closed and since
the last shutdown. It then has the latest such text, and the compilation of the latest one that
compiles. What is published for a new text is empty if the text compiles, and else it is one
diagnostic. The answers for a document are those of a session that had the requests about it alone. -/
theorem session_remembers (rs : List Request) (uri : Bytes) :
    (((Session.run rs).lookup uri).isSome ↔ textsSince uri rs ≠ []) ∧
    (∀ d, (Session.run rs).lookup uri = some d → (textsSince uri rs).getLast? = some d.text ∧
      d.proto = ((textsSince uri rs).filterMap fun t => (compile t (documentName uri) false).toOption).getLast?) ∧
    (∀ r text, r.text? uri = some text → ∃ ds, ((Session.run rs).handle r).2 = .published uri ds ∧
      (ds = [] ↔ ∃ p, compile text (documentName uri) false = .ok p) ∧
      ∀ e, compile text (documentName uri) false = .error e → ds = [.ofFailure text e]) ∧
    ∀ pos, ((Session.run rs).handle (.complete uri pos)).2 =
        ((Session.run (rs.filter (·.concerns uri))).handle (.complete uri pos)).2 ∧
      ((Session.run rs).handle (.hover uri pos)).2 =
        ((Session.run (rs.filter (·.concerns uri))).handle (.hover uri pos)).2 := by
  refine ⟨?_, fun d hd => ?_, fun r text hr => ?_, fun pos => ?_⟩
  · rw [run_lookup, latest, Option.isSome_map, List.getLast?_isSome]
  · rw [run_lookup, latest, Option.map_eq_some_iff] at hd
    obtain ⟨text, htext, rfl⟩ := hd
    exact ⟨htext, rfl⟩
  · obtain ⟨ds, hpublish, hds⟩ := (Session.run rs).published_eq uri text
    rw [handle_of_text? hr, hpublish]
    exact ⟨ds, rfl, hds⟩
  · have hown : (Session.run (rs.filter (·.concerns uri))).lookup uri = (Session.run rs).lookup uri := by
      rw [run_lookup, run_lookup, textsSince_filter]
    simp only [Session.handle, Session.completeAt, Session.hoverAt, hown, and_self]

end RegisterCompiler.Editor
