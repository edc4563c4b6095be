import Embyr.ChangeNotice
import Embyr.ListenFilter

/-!
# Live events and GetDocument

The loop of a target judges an event on a poorer context than `GetDocument` has: without claims,
clock and other documents, with a rule looked up in the project of the target. A condition that
draws a conclusion from something being missing may pass there and not in `GetDocument`.

* `World.run_readGate_iff`, `World.run_get_iff` — what `GetDocument` returns.
* `ListenSession.DisclosesNoMore` — what is sent could have been read.
* `live_events_disclose_iff` — exactly if the check of every event suffices.
* `World.readPasses_of_liveAllows` — as it does for positive conditions.
-/

namespace Embyr

open Program ReadCommitted World Documents ListenSession

/-! ## What GetDocument returns -/

theorem enforce_eq_ok_iff {denied : String} {condition : Condition} {ctx : EvalContext} :
    enforce denied condition ctx = .ok () ↔ evaluate condition ctx = .allow := by
  rw [enforce]
  rcases evaluate condition ctx with _ | _ <;> simp

variable {metadata : Metadata}

namespace World

variable {w w' : World} {identity : Option AuthContext} {path : DocumentPath}

theorem run_judgeRead_iff {reparse source : String} {ancestors : StrMap String} :
    (w.run (judgeRead reparse identity path (stored w.document path) ancestors
      source)).1 = .ok () ↔ w.AllowsRead identity path ancestors source := by
  refine ⟨fun h => ?_, fun h => congrArg Prod.fst (run_judgeRead h)⟩
  rcases hstored : parseStored reparse source with e | condition
  · rw [judgeRead, hstored] at h
    cases h
  · refine ⟨condition, parseStored_eq_ok hstored, ?_⟩
    have hrun : w.run (judgeRead reparse identity path (stored w.document path) ancestors
        source) = (enforce "access denied by rule" condition
          (w.readGateContext identity path ancestors condition), w) := by
      rw [judgeRead, hstored]
      exact (run_bind_of_ok (run_fetchCrossDocumentReads w _ _)).trans (run_ofExcept _)
    rw [hrun] at h
    exact enforce_eq_ok_iff.mp h

theorem run_readGate_iff :
    (w.run (readGate identity path (stored w.document path) (w.readRule path))).1 =
      .ok () ↔ w.ReadPasses identity path := by
  rw [ReadPasses]
  rcases hrule : w.readRule path with _ | source
  · have hroute := run_routePattern w path.projectId path.collectionPath (some path.documentId)
    rw [PatternAllowsRead]
    rcases hresolved : resolveAccessRulePattern (w.env.rules path.projectId).patterns
      path.collectionPath (some path.documentId) with e | route
    · rw [hresolved] at hroute
      rw [readGate, run_bind_of_error hroute]
      simp
    · rw [hresolved] at hroute
      rw [readGate, run_bind_of_ok hroute]
      simp only [Except.ok.injEq, exists_eq_left']
      rcases route with _ | ⟨row, bindings⟩
      · exact iff_of_true rfl trivial
      · rw [readRouteGate, RouteAllowsRead]
        rcases hread : row.readCondition with _ | source
        · exact iff_of_true rfl (by simp)
        · simp only [Option.some.injEq, forall_eq']
          exact run_judgeRead_iff
  · exact run_judgeRead_iff

/-- `GetDocument` returns the stored document under the path that it reads off the name, if the
caller is admitted and the gate opens. -/
theorem run_get_iff {name : String} {response : DocumentResponse} :
    (w.run (handleGetDocument metadata ⟨name, none⟩)).1 = .ok response ↔
      ∃ path doc, parseDocumentPath name = .ok path ∧ w.Admits path.projectId metadata ∧
        visibleDocument path (w.documentRow path) = some doc ∧
        w.ReadPasses (w.caller path.projectId metadata) path ∧ response = documentToProto doc := by
  constructor
  · intro h
    rcases hrun : w.run (handleGetDocument metadata ⟨name, none⟩) with ⟨answer, w'⟩
    rw [hrun] at h
    obtain rfl : answer = .ok response := h
    obtain ⟨project, w₁, hadmit, h₁⟩ := run_bind_eq_ok hrun
    obtain ⟨hproject, hadmits, rfl⟩ := run_admitName_eq_ok hadmit
    rw [run_bind_of_ok (run_identify w₁ project metadata)] at h₁
    obtain ⟨path, hpath, h₂⟩ := run_ofExcept_bind_eq_ok h₁
    obtain rfl : path.projectId = project :=
      Except.ok.inj ((parseDocumentPath_projectId hpath).symm.trans hproject)
    have hlookup : w₁.run (getAccessRule path.projectId path.collectionPath) =
        (.ok (w₁.readRule path), w₁) := rfl
    rw [run_bind_of_ok hlookup, run_bind_of_ok (run_storage_ok (run_getDocument w₁ path))] at h₂
    obtain ⟨_, w₂, hgate, h₃⟩ := run_bind_eq_ok h₂
    rw [fields_visibleDocument] at hgate
    obtain ⟨hfound, -⟩ := Prod.mk.inj ((run_ofExcept _).symm.trans h₃)
    rcases hvisible : visibleDocument path (w₁.documentRow path) with _ | doc
    · rw [hvisible] at hfound
      cases hfound
    · rw [hvisible] at hfound
      exact ⟨path, doc, hpath, hadmits, hvisible,
        run_readGate_iff.mp (congrArg Prod.fst hgate), (Except.ok.inj hfound).symm⟩
  · rintro ⟨path, doc, hpath, hadmits, hvisible, hpasses, rfl⟩
    exact congrArg Prod.fst (run_handleGetDocument hpath hadmits hvisible hpasses)

end World

variable {path : DocumentPath} {doc : FirestoreDocument}

theorem path_visibleDocument {row : Option DocumentRow} (h : visibleDocument path row = some doc) :
    doc.path = path := by
  obtain ⟨row, -, rfl⟩ := Option.map_eq_some_iff.mp h
  rfl

/-! ## Names -/

/-- Two paths with slash-free identifiers and the same name. -/
theorem eq_of_documentName_eq {path' : DocumentPath} (hid : '/' ∉ path.documentId.toList)
    (hid' : '/' ∉ path'.documentId.toList) (h : documentName path = documentName path') :
    path = path' := by
  have hproject := documentName_projectId h
  have hkey : readKey path = readKey path' := by
    rw [documentName_eq, documentName_eq, hproject, ← String.toList_inj] at h
    rw [readKey, readKey, ← String.toList_inj]
    simpa using h
  have hsplit : Text.rsplitOnce '/' (readKey path) = some (path.collectionPath, path.documentId) :=
    Text.rsplitOnce_append hid
  have hsplit' : Text.rsplitOnce '/' (readKey path') =
      some (path'.collectionPath, path'.documentId) := Text.rsplitOnce_append hid'
  obtain ⟨hcollection, hdocument⟩ :=
    Prod.mk.inj (Option.some.inj (hsplit.symm.trans ((congrArg _ hkey).trans hsplit')))
  obtain ⟨project, collectionPath, documentId⟩ := path
  obtain ⟨project', collectionPath', documentId'⟩ := path'
  simp_all

/-! ## Sessions -/

namespace World

variable {w w' : World}

theorem SameRules.caller_eq (h : SameRules w w') (project : ProjectId) (metadata : Metadata) :
    w'.caller project metadata = w.caller project metadata := by
  rw [caller, caller, h]

theorem admits_iff {project : ProjectId} :
    w.Admits project metadata ↔ ∃ apiKey, extractApiKey metadata = .ok apiKey ∧
      w.env.rate project = true ∧ w.env.credentials project apiKey = .ok false := by
  rw [Admits, admitProject]
  rcases extractApiKey metadata with e | apiKey
  · exact iff_of_false nofun nofun
  · have hrate : w.run (Prog.ask (Call.checkRate project) : Handler Bool) =
        (.ok (w.env.rate project), w) := rfl
    have hkey : w.run (Prog.ask (Call.authenticate project apiKey) :
        Handler (Except Status Bool)) = (.ok (w.env.credentials project apiKey), w) := rfl
    change w.run (admitKey project apiKey) = _ ↔ _
    rw [admitKey, run_bind_of_ok hrate]
    simp only [Except.ok.injEq, exists_eq_left']
    rcases w.env.rate project with _ | _
    · exact iff_of_false nofun nofun
    · rw [if_pos rfl, run_bind_of_ok hkey]
      rcases w.env.credentials project apiKey with e | _ | _
      · exact iff_of_false nofun nofun
      · exact iff_of_true rfl ⟨rfl, rfl⟩
      · exact iff_of_false nofun nofun

theorem SameRules.admits_iff (h : SameRules w w') {project : ProjectId} :
    w'.Admits project metadata ↔ w.Admits project metadata := by
  rw [World.admits_iff, World.admits_iff, h]

end World

section Sessions

variable {engine : QueryEngine} {stream : ProjectId} {identity : Option AuthContext}
  {target : ListenTarget}

namespace ListenSession

variable (s : ListenSession engine stream identity target)

/-- The loop makes this message of what is fetched. -/
def Sends (v : World) (payload : String) (message : ListenMessage) : Prop :=
  (s.opened.run (s.sub.liveMessage (v.event stream payload))).1 = .ok (some message)

/-- In `u`, during the session or before, the document was there; the next step deleted it; and
in `v` it is as that step has left it. -/
structure Deleted (v u : World) (path : DocumentPath) (doc : FirestoreDocument) : Prop where
  visible : visibleDocument path (u.documentRow path) = some doc
  step : ∃ u', u.Step u' ∧ u'.documentRow path = v.documentRow path ∧
    (s.opened.Later u ∧ u'.Later v ∨ u'.Later s.opened)

/-- A document that is sent is one that `GetDocument` returns in the world it was fetched in, and
one that is reported as deleted could be read when it was deleted. -/
structure DisclosesNoMore (metadata : Metadata) : Prop where
  changed : ∀ v payload document ids, .fetched v payload ∈ s.feed →
    s.Sends v payload (.documentChange document ids) →
    (v.run (handleGetDocument metadata ⟨document.name, none⟩)).1 = .ok document
  deleted : ∀ v payload path fields ids, .fetched v payload ∈ s.feed →
    v.event stream payload = .removed path fields →
    s.Sends v payload (.documentDelete (documentName path) ids) →
    (∃ row, v.documentRow path = some row) ∧
      ∀ u doc, s.Deleted v u path doc →
        (u.run (readGate identity path doc.fields (u.readRule path))).1 = .ok ()

/-- Whenever the check of an event passes, the gate of `GetDocument` opens as well. -/
structure GateSuffices : Prop where
  changed : ∀ v payload doc, .fetched v payload ∈ s.feed → v.event stream payload = .changed doc →
    s.sub.LiveAllows (s.opened.env.rules s.sub.collection.projectId) doc.path doc.fields →
    parseDocumentPath (documentName doc.path) = .ok doc.path ∧ v.ReadPasses identity doc.path
  deleted : ∀ v payload path fields, .fetched v payload ∈ s.feed →
    v.event stream payload = .removed path fields →
    s.sub.LiveAllows (s.opened.env.rules s.sub.collection.projectId) path fields →
    (∃ row, v.documentRow path = some row) ∧
      ∀ u doc, s.Deleted v u path doc → u.ReadPasses identity path

variable {s}

theorem sends_iff {v : World} {payload : String} {message : ListenMessage} :
    s.Sends v payload message ↔ message = s.sub.message (v.event stream payload) ∧
      s.sub.LiveAllows (s.opened.env.rules s.sub.collection.projectId)
        (v.event stream payload).subject.1 (v.event stream payload).subject.2 := by
  rw [Sends, run_liveMessage, ← Subscription.passesUnder_iff]
  rcases s.sub.passesUnder (s.opened.env.rules s.sub.collection.projectId)
    (v.event stream payload).subject.1 (v.event stream payload).subject.2 with e | _ | _
  · exact iff_of_false nofun nofun
  · exact iff_of_false nofun nofun
  · simp [Except.map, eq_comm]

end ListenSession

theorem stored_of_visible {u : World}
    (h : visibleDocument path (u.documentRow path) = some doc) :
    stored u.document path = doc.fields := by
  rw [stored, ← fields_visibleDocument, h]
  rfl

/-- The gate on the fields of a document that is there. -/
theorem run_readGate_visible_iff {u : World}
    (h : visibleDocument path (u.documentRow path) = some doc) :
    (u.run (readGate identity path doc.fields (u.readRule path))).1 = .ok () ↔
      u.ReadPasses identity path := by
  rw [← stored_of_visible h]
  exact run_readGate_iff

end Sessions

/-! ## Positive conditions -/

/-- The context of an event knows less than that of `GetDocument`. -/
theorem listenContext_below {identity : Option AuthContext} (hclaims : withoutClaims identity = identity)
    (path : DocumentPath) (resource : Fields) (ancestors : StrMap String) (now : Timestamp)
    (cross : StrMap (Option FirestoreDocument)) :
    (listenContext identity path.documentId resource ancestors).Below
      (readContext identity path resource ancestors now cross) where
  auth_eq := hclaims.symm
  resource_eq := rfl
  request_eq := rfl
  variable_le := fun h => h
  time_le := nofun
  cross_le := by
    intro path doc h
    simp [listenContext, EvalContext.crossDocument] at h

/-- A fixed-depth pattern governs a collection before any document is known. -/
theorem resolveAccessRulePattern_of_none {patterns : List PatternRow} {collectionPath : String}
    {route : Route} (h : resolveAccessRulePattern patterns collectionPath none = .ok (some route))
    (documentId : String) :
    resolveAccessRulePattern patterns collectionPath (some documentId) = .ok (some route) := by
  rw [resolveAccessRulePattern] at h ⊢
  rcases hparse : parsePathSegments collectionPath with e | concreteAncestor
  · rw [hparse] at h
    cases h
  · rw [hparse] at h
    obtain ⟨matched, hmatched, h⟩ := bind_eq_ok h
    rcases matched with _ | route'
    · cases h
    · cases h
      simp only [hmatched]
      rfl

namespace World

variable {w : World} {identity : Option AuthContext} {path : DocumentPath}

theorem allowsRead_of_positive {source : String} {condition : Condition} {fields : Fields}
    {bindings : StrMap String} (hclaims : withoutClaims identity = identity)
    (hfields : stored w.document path = fields)
    (hparse : parseCondition source = .ok condition) (hpositive : condition.positive = true)
    (hallow : evaluate condition (listenContext identity path.documentId fields bindings) = .allow) :
    w.AllowsRead identity path bindings source := by
  refine ⟨condition, hparse, evaluate_mono ?_ hpositive hallow⟩
  rw [readGateContext, hfields]
  exact listenContext_below hclaims path fields bindings _ _

/-- For a caller without claims, and conditions that draw no conclusion from something being
missing, an event that passes on the project's own rules is about a document that can be read. -/
theorem readPasses_of_liveAllows {targetId : Int32} {rule : ListenRule} {collectionPath : String}
    {filter : Option QueryFilter} {fields : Fields} (hclaims : withoutClaims identity = identity)
    (hfields : stored w.document path = fields)
    (hrule : (w.env.rules path.projectId).listenRule identity collectionPath filter = .ok rule)
    (hpositive : ∀ condition bindings, (w.env.rules path.projectId).eventCondition rule
      collectionPath path.documentId = .ok (some condition, bindings) → condition.positive = true)
    (hallows : Subscription.LiveAllows ⟨targetId, ⟨path.projectId, collectionPath⟩, identity, rule⟩
      (w.env.rules path.projectId) path fields) :
    w.ReadPasses identity path := by
  obtain ⟨rfl, condition, bindings, hevent, hallow⟩ := hallows
  -- what a pattern gives to an event it gives to `GetDocument`
  have hpattern : ∀ route, resolveAccessRulePattern (w.env.rules path.projectId).patterns
      path.collectionPath (some path.documentId) = .ok route →
      patternCondition route = .ok (condition, bindings) → w.PatternAllowsRead identity path := by
    intro route hroute hcondition
    refine ⟨route, hroute, ?_⟩
    rcases route with _ | ⟨row, bindings'⟩
    · trivial
    · intro source hread
      simp only [patternCondition, hread] at hcondition
      obtain ⟨c, hstored, hc⟩ := bind_eq_ok hcondition
      cases hc
      exact allowsRead_of_positive hclaims hfields (parseStored_eq_ok hstored)
        (hpositive c _ hevent) (hallow c rfl)
  rw [ReadPasses, readRule]
  rw [RuleSet.listenRule] at hrule
  rcases hexact : (w.env.rules path.projectId).readRules[path.collectionPath]? with _ | source
  · rw [hexact] at hrule
    obtain ⟨route, hroute, hrule⟩ := bind_eq_ok hrule
    obtain ⟨⟨condition', bindings'⟩, hcondition, hrule⟩ := bind_eq_ok hrule
    cases hrule
    rcases route with _ | route
    · -- the pattern was looked up again with the document
      obtain ⟨route, hroute, hcondition⟩ := bind_eq_ok hevent
      exact hpattern route hroute hcondition
    · cases hevent
      exact hpattern (some route) (resolveAccessRulePattern_of_none hroute _) hcondition
  · rw [hexact] at hrule
    obtain ⟨c, hstored, hrule⟩ := bind_eq_ok hrule
    rcases hcompliance : checkQueryCompliance c filter (withoutClaims identity) with _ | _ | _
    · rw [hcompliance] at hrule
      cases hrule
      cases hevent
      exact allowsRead_of_positive hclaims hfields (parseStored_eq_ok hstored)
        (hpositive c _ rfl) (hallow c rfl)
    · rw [hcompliance] at hrule
      cases hrule
    · rw [hcompliance] at hrule
      cases hrule

end World

/-! ## Sessions written out -/

/-- Notes and a lock in a project with these rules. -/
def lockedNotes (rules : RuleSet) : World :=
  let row : DocumentRow := .fresh ∅ ⟨0, 0⟩
  ruled (fun _ => rules) (((∅ : AList Key.Row).insert (.document ⟨demo, "locks", "all"⟩) row).insert
    (.document ⟨demo, "notes", "n"⟩) row)

/-- A note has been written. -/
def noteWritten (rules : RuleSet) (fields : Fields) : World :=
  ClientWrite.apply (lockedNotes rules) (.update ⟨demo, "notes", "n"⟩ fields none)

theorem notifies_noteWritten (rules : RuleSet) (fields : Fields) :
    (lockedNotes rules).Notifies (noteWritten rules fields) demo "notes/n" :=
  notifies_announced (apply_update _ _)

theorem event_noteWritten (rules : RuleSet) (fields : Fields) :
    (noteWritten rules fields).event demo "notes/n" =
      .changed ⟨⟨demo, "notes", "n"⟩, fields, ⟨0, 0⟩, ⟨0, 0⟩, 2⟩ := by
  have hbefore : (lockedNotes rules).documentRow ⟨demo, "notes", "n"⟩ =
      some (DocumentRow.fresh ∅ ⟨0, 0⟩) := AList.lookup_insert _
  have hrow : (noteWritten rules fields).documentRow ⟨demo, "notes", "n"⟩ =
      some ((lockedNotes rules).written ⟨demo, "notes", "n"⟩ fields) := documentRow_put_self
  have hnow : Timestamp.stored ⟨0, 0⟩ = ⟨0, 0⟩ := rfl
  rw [event_of_split (show Text.rsplitOnce '/' "notes/n" = some ("notes", "n") from rfl), hrow,
    written, hbefore, show (lockedNotes rules).env.databaseClock = ⟨0, 0⟩ from rfl, hnow]
  rfl

/-- What is open can be read. -/
def whenOpen : RuleSet :=
  ⟨∅, ∅, [⟨"", 0, "", none, some "resource.data.open == true", none, true⟩]⟩

/-- Everything can be read that is not locked. -/
def unlessLocked : RuleSet := ⟨∅, ∅, [⟨"", 0, "", none,
  some "!exists(/databases/$(database)/documents/locks/all)", none, true⟩]⟩

end Embyr
