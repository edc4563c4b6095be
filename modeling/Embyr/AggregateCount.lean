import Embyr.ReadAgreement

/-!
# What COUNT counts

`handle_run_aggregation_query` passes the gate of `handle_run_query` and sends the same `WHERE`
clause, but drops order, limit, offset and cursors from the request.
-/

namespace Embyr

open Program

/-- A query without order, cursors and paging. -/
def unpaged (allDescendants : Bool) (filter : Option QueryFilter) : StructuredQuery :=
  ⟨allDescendants, filter, [], none, none, none, none, none⟩

/-- Such a query returns each document once. -/
def QueryEngine.Exhausts (engine : QueryEngine) : Prop :=
  ∀ allDescendants filter docs, (engine.arrange (unpaged allDescendants filter) docs).Perm docs

/-- What `handle_run_aggregation_query` keeps of a query. -/
def ProtoQuery.unbounded (proto : ProtoQuery) : ProtoQuery :=
  ⟨proto.selectors, proto.filter, .ok [], none, 0, none, none⟩

namespace World

variable {w w' : World} {engine : QueryEngine} {project : ProjectId} {metadata : Metadata}
  {parent path : String} {proto : ProtoQuery} {query : StructuredQuery} {n : Int64}

theorem run_checkIndex (hready : w.env.indexReady project path = true) :
    w.run (checkIndex project path query) = (.ok (), w) := by
  rw [checkIndex]
  split_ifs with hneeded
  · rw [Prog.ask_bind]
    change w.run (if w.env.indexReady project path then _ else _) = _
    rw [if_pos hready]
    rfl
  · rfl

/-- The gates only look at rules. -/
theorem run_queryGate_state (w : World) (identity : Option AuthContext) (path : String)
    (query : StructuredQuery) : (w.run (queryGate project identity path query)).2 = w := by
  rw [queryGate]
  split_ifs with hgroup
  · have hrule : w.run (getGroupAccessRule project path) =
        (.ok (w.env.groupRules project)[path]?, w) := rfl
    rw [groupGate, run_bind_of_ok hrule]
    rcases (w.env.groupRules project)[path]? with _ | source
    · rfl
    · rw [run_ofExcept]
  · have hrule : w.run (getAccessRule project path) =
        (.ok (w.env.rules project).readRules[path]?, w) := rfl
    rw [collectionGate, run_bind_of_ok hrule]
    rcases (w.env.rules project).readRules[path]? with _ | source
    · rfl
    · rw [run_ofExcept]

/-- The documents a query picks from. -/
def selected (w : World) (engine : QueryEngine) (collection : CollectionPath)
    (query : StructuredQuery) : List FirestoreDocument :=
  ((documentsWhere (collection.covers engine query.allDescendants) w.rowsSeen).filterMap
    asDocument).filter fun doc => QueryFilter.optionSelects engine.other query.filter doc.fields

/-- Behind an open gate `RunQuery` answers. -/
theorem run_handleRunQuery (hname : extractProjectId parent = .ok project)
    (hadmits : w.Admits project metadata) (htranslate : proto.translate = .ok query)
    (hgate : w.run (queryGate project (w.caller project metadata) proto.selector.1 query) =
      (.ok (), w))
    (hready : w.env.indexReady project proto.selector.1 = true) :
    w.run (handleRunQuery engine metadata ⟨parent, some proto, none⟩) =
      (.ok ((engine.arrange query
        (w.selected engine ⟨project, proto.selector.1⟩ query)).map documentToProto), w) := by
  refine (run_bind_of_ok (run_admitName hname hadmits)).trans ?_
  refine (run_bind_of_ok (run_identify w project metadata)).trans ?_
  refine (run_bind_of_ok ((run_ofExcept _).trans (congrArg (·, w) htranslate))).trans ?_
  refine (run_bind_of_ok hgate).trans ?_
  refine (run_bind_of_ok (run_checkIndex hready)).trans ?_
  have hdocs : w.run (runQuery engine ⟨project, proto.selector.1⟩ query none) =
      (.ok (engine.arrange query (w.selected engine ⟨project, proto.selector.1⟩ query)), w) :=
    run_bind_of_ok (run_selectDocuments w engine _ query)
  exact run_bind_of_ok (run_storage_ok hdocs)

/-- An answered `COUNT` passed the gate and counted what the filter selects. -/
theorem run_count_eq_ok (h : w.run (handleRunAggregationQuery engine metadata
      ⟨parent, some ([.ok .count], some proto)⟩) = (.ok (.count n), w')) :
    ∃ project filter, extractProjectId parent = .ok project ∧ w.Admits project metadata ∧
      proto.translatedFilter = .ok filter ∧
      let query := unpaged proto.selector.2 filter
      w.run (queryGate project (w.caller project metadata) proto.selector.1 query) = (.ok (), w) ∧
        n = Int64.ofNat (w.selected engine ⟨project, proto.selector.1⟩ query).length := by
  obtain ⟨project, w₁, hadmit, h₁⟩ := run_bind_eq_ok h
  obtain ⟨hname, hadmits, rfl⟩ := run_admitName_eq_ok hadmit
  rw [run_bind_of_ok (run_identify w₁ project metadata)] at h₁
  obtain ⟨kind, hkind, h₂⟩ := run_ofExcept_bind_eq_ok h₁
  cases hkind
  obtain ⟨filter, hfilter, h₃⟩ := run_ofExcept_bind_eq_ok h₂
  obtain ⟨_, w₂, hgate, h₄⟩ := run_bind_eq_ok h₃
  obtain rfl : w₁ = w₂ :=
    (run_queryGate_state w₁ _ _ _).symm.trans (congrArg Prod.snd hgate)
  refine ⟨project, filter, hname, hadmits, hfilter, hgate, ?_⟩
  cases h₄
  rfl

end World

/-- A database that skips the offset. -/
def skippingEngine : QueryEngine :=
  { plainEngine with
    arrange := fun query docs => docs.drop ((query.offset.map (·.toInt.toNat)).getD 0)
    arrange_subset := fun _ _ => List.drop_subset _ _ }

/-- A query that skips the first note. -/
def skippingQuery : ProtoQuery := ⟨[("notes", false)], .ok none, .ok [], none, 1, none, none⟩

end Embyr
