import Embyr.Footprint
import Embyr.GateAgreement
import Embyr.ResultPerWrite
import Embyr.CommitSequence

/-!
# The writing handlers in a world

Admission, identification and the rule gates ask but change nothing, so a handler that
succeeds has done what its one call of the storage adapter did, from the world it was
called in.

* `World.Still` — the calls that leave a world as it is; `World.run_still`.
* `World.run_handleCreateDocument_eq_ok` … `World.run_writeMessage_eq_ok` — what is known of
  a handler that has succeeded.
-/

namespace Embyr

open Program ReadCommitted List

variable {message : ProtoWrite} {write : Write}

theorem ProtoWrite.Becomes.unique {write' : Write}
    (h : message.Becomes write) (h' : message.Becomes write') : write = write' := by
  obtain ⟨operation, proposed, hoperation, hdecode⟩ := h
  obtain ⟨operation', proposed', hoperation', hdecode'⟩ := h'
  obtain rfl := Option.some.inj (hoperation.symm.trans hoperation')
  exact (Prod.mk.inj (Except.ok.inj (hdecode.symm.trans hdecode'))).1

theorem ProtoWrite.Becomes.hasOperation
    (h : message.Becomes write) : message.hasOperation = true := by
  obtain ⟨operation, proposed, hoperation, -⟩ := h
  rw [ProtoWrite.hasOperation, hoperation]
  rfl

namespace World

variable {w w' : World}

/-! ## Calls that change nothing -/

/-- The call leaves every world as it is. -/
def Still (q : Call) : Prop := ∀ w : World, (answer q w).2 = w

variable {R : Type}

theorem run_still {ε : Type} {p : Prog Call.Answer ε R} (h : p.Only Still) (w : World) :
    (w.run p).2 = w :=
  Prog.Only.run (I := (· = w)) (fun w' _ hw hq => (hq w').trans hw) h rfl

/-- A part of a handler that changes nothing, and the rest of it. -/
theorem run_still_bind_eq_ok {ε R' : Type} {p : Prog Call.Answer ε R}
    {f : R → Prog Call.Answer ε R'} {r : R'} (hstill : p.Only Still)
    (h : w.run (p >>= f) = (.ok r, w')) :
    ∃ x, w.run p = (.ok x, w) ∧ w.run (f x) = (.ok r, w') := by
  obtain ⟨x, w₁, hp, hf⟩ := run_bind_eq_ok h
  have hw : w₁ = w := by
    have := run_still hstill w
    rwa [hp] at this
  subst hw
  exact ⟨x, hp, hf⟩

theorem still_select (k : Key) : Still (.sql (.select k)) := by
  intro w
  simp only [answer, execute, exec, AList.empty_union]

theorem still_of_looksUp {q : Call} (h : q.looksUp = true) : Still q := by
  cases q with
  | sql s =>
    cases s with
    | select k => exact still_select k
    | _ => cases h
  | notify | register | newUuid | newStreamToken => cases h
  | _ => exact fun _ => rfl

theorem singleGate_still (c : WriteContext) : (singleGate c).Only Still :=
  singleGate_only (S := fun _ => True) (fun _ _ => still_of_looksUp) fun _ _ => trivial

theorem identify_still (project : ProjectId) (metadata : Metadata) :
    (identify project metadata).Only Still :=
  identify_only (fun _ _ => still_of_looksUp) project

theorem admitProject_still (project : ProjectId) (metadata : Metadata) :
    (admitProject project metadata).Only Still :=
  admitProject_only (fun _ _ => still_of_looksUp) project

theorem admitName_still (name : String) (metadata : Metadata) :
    (admitName name metadata).Only Still :=
  (Prog.Only.ofExcept _).bind fun project => (admitProject_still project metadata).bind
    fun _ => trivial

theorem translateWritesForCommit_still (project : ProjectId) (identity : Option AuthContext)
    (messages : List ProtoWrite) :
    (translateWritesForCommit project identity messages).Only Still :=
  (translateWritesForCommit_only (S := fun _ => True) project identity
    (fun _ _ => still_of_looksUp) fun _ _ _ _ _ _ => trivial).1

/-! ## Handlers that succeed -/

/-- What a run asks, each call with the world it was asked in. -/
abbrev asked {ε R : Type} (w : World) (p : Prog Call.Answer ε R) : List (Call × World) :=
  p.asked answer w

/-- From `w` the program `p` goes on as `q` from `w'`: they end alike, and `p` asks all that
`q` asks. -/
structure Continues {ε R : Type} (w : World) (p : Prog Call.Answer ε R) (w' : World)
    (q : Prog Call.Answer ε R) : Prop where
  run_eq : w.run p = w'.run q
  asked_subset : w'.asked q ⊆ w.asked p

section Continues

variable {ε R R' : Type} {w₀ : World} {p₀ : Prog Call.Answer ε R'} {f : R → Prog Call.Answer ε R'}
  {r : R'}

theorem Continues.refl (w : World) (p : Prog Call.Answer ε R) : Continues w p w p :=
  ⟨rfl, Subset.refl _⟩

theorem Continues.bind {p : Prog Call.Answer ε R} {x : R}
    (h : Continues w₀ p₀ w (p >>= f)) (hp : w.run p = (.ok x, w')) : Continues w₀ p₀ w' (f x) := by
  refine ⟨h.run_eq.trans (run_bind_of_ok hp), Subset.trans ?_ h.asked_subset⟩
  rw [asked, asked, Prog.asked_bind_ok answer hp]
  exact subset_append_right _ _

/-- A part that changes nothing. -/
theorem Continues.still {p : Prog Call.Answer ε R} (h : Continues w₀ p₀ w (p >>= f))
    (hstill : p.Only Still) (hok : w₀.run p₀ = (.ok r, w')) :
    ∃ x, w.run p = (.ok x, w) ∧ Continues w₀ p₀ w (f x) := by
  obtain ⟨x, hp, -⟩ := run_still_bind_eq_ok hstill (h.run_eq.symm.trans hok)
  exact ⟨x, hp, h.bind hp⟩

/-- A part that only computes. -/
theorem Continues.ofExcept {x : Except ε R} (h : Continues w₀ p₀ w (Prog.ofExcept x >>= f))
    (hok : w₀.run p₀ = (.ok r, w')) : ∃ a, x = .ok a ∧ Continues w₀ p₀ w (f a) := by
  obtain ⟨a, rfl, -⟩ := run_ofExcept_bind_eq_ok (h.run_eq.symm.trans hok)
  exact ⟨a, rfl, h.bind rfl⟩

end Continues

/-- Nothing a program asks changes the rules, the clocks or the callers. -/
theorem run_env {ε : Type} (p : Prog Call.Answer ε R) (w : World) : (w.run p).2.env = w.env := by
  have hanswer : ∀ (q : Call) (w : World), (answer q w).2.env = w.env := by
    intro q w
    cases q <;> rfl
  induction p generalizing w with
  | ok | error => rfl
  | call q k ih => exact (ih _ (answer q w).2).trans (hanswer q w)

/-- The storage call of a handler, and what the handler answers. -/
theorem Continues.storage {R' : Type} {w₀ : World} {p₀ : Handler R'} {p : Adapter R} {g : R → R'}
    {response : R'} (h : Continues w₀ p₀ w (storage p >>= fun r => pure (g r)))
    (hok : w₀.run p₀ = (.ok response, w')) :
    ∃ r, w.run p = (.ok r, w') ∧ w.asked p ⊆ w₀.asked p₀ ∧ response = g r := by
  obtain ⟨r, w₁, hp, hend⟩ := run_bind_eq_ok (h.run_eq.symm.trans hok)
  obtain ⟨hresponse, rfl⟩ := Prod.mk.inj hend
  refine ⟨r, run_storage_eq_ok hp, Subset.trans ?_ h.asked_subset,
    (Except.ok.inj hresponse).symm⟩
  rw [asked, asked, Prog.asked_bind_ok answer hp]
  rw [Embyr.storage, Prog.asked_mapError]
  exact subset_append_left _ _

variable {metadata : Metadata} {project : ProjectId}

theorem admitName_eq_ok {name : String} (h : w.run (admitName name metadata) = (.ok project, w')) :
    extractProjectId name = .ok project := by
  obtain ⟨p, hproject, h⟩ := run_ofExcept_bind_eq_ok h
  obtain ⟨⟨⟩, w₁, -, h⟩ := run_bind_eq_ok h
  obtain rfl := Except.ok.inj (Prod.mk.inj h).1
  exact hproject

theorem decodedFields_eq_ok {message : String} {given : Option Fields} {fields : Fields}
    (h : decodedFields message given = .ok fields) : given = some fields := by
  rcases given with _ | given
  · cases h
  · cases h
    rfl

/-- `CreateDocument`: the document is stored under the given identifier or a fresh one. -/
theorem run_handleCreateDocument_eq_ok {req : CreateDocumentRequest} {response : DocumentResponse}
    (h : w.run (handleCreateDocument metadata req) = (.ok response, w')) :
    ∃ project documentId fields result drawn,
      let path : DocumentPath := ⟨project, req.collectionId, documentId⟩
      let drawing : World := { w with drawn := drawn }
      extractProjectId req.parent = .ok project ∧
      (if req.documentId.isEmpty then ∃ uuid : Uuid, documentId = uuid.text
        else documentId = req.documentId) ∧
      drawing.run (createDocument path fields) = (.ok result, w') ∧
      drawing.asked (createDocument path fields) ⊆ w.asked (handleCreateDocument metadata req) ∧
      response = writeResponse path fields result := by
  obtain ⟨project, hadmit, hrest⟩ := (Continues.refl w _).still (admitName_still _ _) h
  -- the identifier is drawn before anything is asked about the document
  have hid : ∃ documentId drawn,
      (if req.documentId.isEmpty then ∃ uuid : Uuid, documentId = uuid.text
        else documentId = req.documentId) ∧
      Continues w (handleCreateDocument metadata req) { w with drawn := drawn } (do
        let path : DocumentPath := ⟨project, req.collectionId, documentId⟩
        let fields ← Prog.ofExcept
          ((req.document.map (decodedFields "invalid field value")).getD (.ok ∅))
        let identity ← identify project metadata
        createGate path identity fields
        let result ← storage (createDocument path fields)
        return writeResponse path fields result) := by
    by_cases hempty : req.documentId.isEmpty = true
    · rw [if_pos hempty] at hrest
      refine ⟨_, w.drawn + 1, ?_, hrest.bind rfl⟩
      rw [if_pos hempty]
      exact ⟨_, rfl⟩
    · rw [if_neg hempty] at hrest
      refine ⟨_, w.drawn, ?_, hrest⟩
      rw [if_neg hempty]
  obtain ⟨documentId, drawn, hdocumentId, hrest⟩ := hid
  obtain ⟨fields, -, hrest⟩ := hrest.ofExcept h
  obtain ⟨identity, -, hrest⟩ := hrest.still (identify_still _ _) h
  obtain ⟨⟨⟩, -, hrest⟩ := hrest.still (singleGate_still _) h
  obtain ⟨result, hcreate, hasked, hresponse⟩ := hrest.storage h
  exact ⟨project, documentId, fields, result, drawn, admitName_eq_ok hadmit, hdocumentId,
    hcreate, hasked, hresponse⟩

/-- `UpdateDocument`. -/
theorem run_handleUpdateDocument_eq_ok {req : UpdateDocumentRequest} {response : DocumentResponse}
    (h : w.run (handleUpdateDocument metadata req) = (.ok response, w')) :
    ∃ name fields path result, req.document = some (name, some fields) ∧
      parseDocumentPath name = .ok path ∧
      w.run (updateDocument path fields req.currentDocument) = (.ok result, w') ∧
      w.asked (updateDocument path fields req.currentDocument) ⊆
        w.asked (handleUpdateDocument metadata req) := by
  rw [handleUpdateDocument] at h ⊢
  rcases hdocument : req.document with _ | ⟨name, given⟩
  · rw [hdocument] at h
    cases h
  · rw [hdocument] at h
    obtain ⟨path, hpath, hrest⟩ := (Continues.refl w _).ofExcept h
    obtain ⟨⟨⟩, -, hrest⟩ := hrest.still (admitProject_still _ _) h
    obtain ⟨fields, hfields, hrest⟩ := hrest.ofExcept h
    obtain ⟨identity, -, hrest⟩ := hrest.still (identify_still _ _) h
    obtain ⟨⟨⟩, -, hrest⟩ := hrest.still (singleGate_still _) h
    obtain ⟨result, hupdate, hasked, -⟩ := hrest.storage h
    exact ⟨name, fields, path, result, by rw [decodedFields_eq_ok hfields], hpath, hupdate, hasked⟩

/-- `DeleteDocument`. -/
theorem run_handleDeleteDocument_eq_ok {req : DeleteDocumentRequest}
    (h : w.run (handleDeleteDocument metadata req) = (.ok (), w')) :
    ∃ path, parseDocumentPath req.name = .ok path ∧
      w.run (deleteDocument path req.currentDocument) = (.ok (), w') ∧
      w.asked (deleteDocument path req.currentDocument) ⊆
        w.asked (handleDeleteDocument metadata req) := by
  obtain ⟨path, hpath, hrest⟩ := (Continues.refl w _).ofExcept h
  obtain ⟨⟨⟩, -, hrest⟩ := hrest.still (admitProject_still _ _) h
  obtain ⟨identity, -, hrest⟩ := hrest.still (identify_still _ _) h
  obtain ⟨⟨⟩, -, hrest⟩ := hrest.still (singleGate_still _) h
  refine ⟨path, hpath, run_storage_eq_ok (hrest.run_eq.symm.trans h), ?_⟩
  have hasked := hrest.asked_subset
  rwa [asked, storage, Prog.asked_mapError] at hasked

/-- The messages of a request and the writes they become. -/
abbrev Translated (messages : List ProtoWrite) (writes : List Write) : Prop :=
  List.Forall₂ ProtoWrite.Becomes (messages.filter ProtoWrite.hasOperation) writes

variable {writes : List Write}

/-- The place of one message's write among the writes of the request. -/
theorem translated_append {before after : List ProtoWrite}
    (h : Translated (before ++ message :: after) writes) (hmessage : message.Becomes write) :
    ∃ earlier later, writes = earlier ++ write :: later ∧ Translated after later := by
  induction before generalizing writes with
  | nil =>
    rw [nil_append, Translated, filter_cons_of_pos hmessage.hasOperation] at h
    obtain ⟨write', later, hwrite', hlater, rfl⟩ := forall₂_cons_left_iff.mp h
    obtain rfl := hmessage.unique hwrite'
    exact ⟨[], later, rfl, hlater⟩
  | cons first before ih =>
    rw [cons_append, Translated, filter_cons] at h
    split at h
    · obtain ⟨write', rest, -, hrest, rfl⟩ := forall₂_cons_left_iff.mp h
      obtain ⟨earlier, later, rfl, hlater⟩ := ih hrest
      exact ⟨write' :: earlier, later, rfl, hlater⟩
    · exact ih h

theorem becomes_of_translated {messages : List ProtoWrite} (h : Translated messages writes)
    (hmem : write ∈ writes) :
    ∃ message ∈ messages, message.Becomes write := by
  obtain ⟨n, hn, rfl⟩ := getElem_of_mem hmem
  have hlength := h.length_eq
  refine ⟨_, mem_of_mem_filter (getElem_mem (hlength ▸ hn)), h.get (hlength ▸ hn) hn⟩

/-- What holds of the writes of a request holds of what its messages become. -/
theorem forall_translated_iff {messages : List ProtoWrite} (h : Translated messages writes)
    (P : Write → Prop) :
    (∀ write ∈ writes, P write) ↔ ∀ message ∈ messages, ∀ write, message.Becomes write → P write := by
  constructor
  · intro hwrites message hmem write hbecomes
    obtain ⟨before, after, rfl⟩ := append_of_mem hmem
    obtain ⟨earlier, later, rfl, -⟩ := translated_append h hbecomes
    exact hwrites write (by simp)
  · intro hmessages write hmem
    obtain ⟨message, hmessage, hbecomes⟩ := becomes_of_translated h hmem
    exact hmessages message hmessage write hbecomes

/-- `Commit`. -/
theorem run_handleCommit_eq_ok {req : CommitRequest} {response : CommitResponse}
    (h : w.run (handleCommit metadata req) = (.ok response, w')) :
    ∃ project writes, Translated req.writes writes ∧
      w.run (commitTransaction project req.transaction writes) = (.ok response.writeResults, w') := by
  obtain ⟨project, -, h⟩ := run_still_bind_eq_ok (admitName_still _ _) h
  obtain ⟨identity, -, h⟩ := run_still_bind_eq_ok (identify_still _ _) h
  obtain ⟨writes, htranslate, h⟩ := run_still_bind_eq_ok (translateWritesForCommit_still _ _ _) h
  obtain ⟨results, w₁, hcommit, h⟩ := run_bind_eq_ok h
  obtain ⟨hresponse, rfl⟩ := Prod.mk.inj h
  cases hresponse
  exact ⟨project, writes,
    (translateWritesForCommit_yields project identity req.writes).run htranslate,
    run_storage_eq_ok hcommit⟩

/-- Nothing that concerns documents has happened between two worlds. -/
structure Apart (w w' : World) : Prop where
  documentRow_eq : w'.documentRow = w.documentRow
  idle : w.txn = none → w'.txn = none
  notified_eq : w'.notified = w.notified
  env_eq : w'.env = w.env

theorem Apart.refl (w : World) : Apart w w := ⟨rfl, fun h => h, rfl, rfl⟩

theorem Apart.document_eq (h : Apart w w') : w'.document = w.document := by
  funext path
  rw [document, document, h.documentRow_eq]

theorem run_sql_error {q : Stmt Key.Row} {e : Failure} (h : w.execute q = (.error e, w')) :
    w.run (sql q) = (.error (.backendUnavailable e.text), w') := by
  have hrun : w.run (sql q) = (match (w.execute q).1 with
      | .ok r => .ok r
      | .error e => .error (.backendUnavailable e.text) : Adapter q.Result).run answer
        (w.execute q).2 := rfl
  rw [hrun, h]
  rfl

theorem run_insert_eq_ok {k : Key} {v : k.Row} {r : Unit}
    (h : w.run (sql (.insert k v)) = (.ok r, w')) : w' = w.put k v := by
  rcases hlookup : (view w.rows w.txn).lookup k with _ | old
  · have hexec : w.execute (.insert k v) = (.ok (), w.put k v) := by
      simp only [execute, exec_insert_none hlookup, put]
    exact (Prod.mk.inj ((run_sql hexec).symm.trans h)).2.symm
  · have hexec : w.execute (.insert k v) = (.error .uniqueViolation, { w with txn := none }) := by
      simp only [execute, exec_insert_some hlookup, AList.empty_union]
    cases (Prod.mk.inj ((run_sql_error hexec).symm.trans h)).1

theorem apart_of_beginTransaction {id : TransactionId}
    (h : w.run (beginTransaction project) = (.ok id, w')) : Apart w w' := by
  obtain ⟨uuid, w₁, huuid, h⟩ := run_bind_eq_ok h
  cases huuid
  obtain ⟨now, w₂, hnow, h⟩ := run_bind_eq_ok h
  cases hnow
  obtain ⟨⟨⟩, w₃, hinsert, h⟩ := run_bind_eq_ok h
  cases h
  obtain rfl := run_insert_eq_ok hinsert
  refine ⟨?_, fun hidle => ?_, rfl, rfl⟩
  · funext path
    exact lookup_rowsSeen_put_ne (by simp)
  · change (writeRow w.txn _ _).1 = none
    rw [hidle]
    rfl

/-- One message of the `Write` stream. -/
theorem run_writeMessage_eq_ok {identity : Option AuthContext} {token token' : String}
    {message : WriteRequest} {results : List WriteResult}
    (h : w.run (writeMessage project identity token message) = (.ok (token', results), w')) :
    ∃ writes id w₁ w₂, Translated message.writes writes ∧ Apart w w₁ ∧
      w₁.run (commitTransaction project id writes) = (.ok results, w₂) ∧ Apart w₂ w' := by
  have hmessage : w.run (if message.streamToken ≠ token then
      .error ⟨.aborted, "stream_token mismatch: a WriteRequest must present the most recently " ++
        "issued stream_token"⟩
    else do
      let writes ← translateWritesForCommit project identity message.writes
      let transactionId ← storage (beginTransaction project)
      let results ← storage (commitTransaction project transactionId writes)
      let token ← Prog.ask Call.newStreamToken
      return (token, results)) = (.ok (token', results), w') := h
  split at hmessage
  · cases hmessage
  · obtain ⟨writes, htranslate, h⟩ :=
      run_still_bind_eq_ok (translateWritesForCommit_still _ _ _) hmessage
    obtain ⟨id, w₁, hbegin, h⟩ := run_bind_eq_ok h
    obtain ⟨reported, w₂, hcommit, h⟩ := run_bind_eq_ok h
    obtain ⟨hresponse, rfl⟩ := Prod.mk.inj h
    cases hresponse
    exact ⟨writes, id, w₁, w₂,
      (translateWritesForCommit_yields project identity message.writes).run htranslate,
      apart_of_beginTransaction (run_storage_eq_ok hbegin), run_storage_eq_ok hcommit,
      ⟨rfl, fun hidle => hidle, rfl, rfl⟩⟩

/-- One write of `BatchWrite`. -/
theorem run_applyAlone_eq_ok {result : WriteResult}
    (h : w.run (applyAlone project write) = (.ok (.ok result), w')) :
    ∃ id w₁ results, Apart w w₁ ∧
      w₁.run (commitTransaction project id [write]) = (.ok results, w') := by
  rcases hbegin : w.run (beginTransaction project) with ⟨e | id, w₁⟩
  · rw [applyAlone, run_bind_of_ok (run_attempt hbegin)] at h
    cases (Prod.mk.inj h).1
  rw [applyAlone, run_bind_of_ok (run_attempt hbegin)] at h
  rcases hcommit : w₁.run (commitTransaction project id [write]) with ⟨e | results, w₂⟩
  · rw [run_bind_of_ok (run_attempt hcommit)] at h
    cases Except.ok.inj (Prod.mk.inj h).1
  · rw [run_bind_of_ok (run_attempt hcommit)] at h
    cases h
    exact ⟨id, w₁, results, apart_of_beginTransaction hbegin, hcommit⟩

end World

end Embyr
