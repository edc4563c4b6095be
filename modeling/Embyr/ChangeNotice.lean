import Embyr.HandlerRuns
import Embyr.Preconditions

/-!
# Announced changes

`create_document`, `update_document` and `delete_document` end with `send_notify`, whose payload
the listener cuts at its last `/`. `commit_transaction` sends nothing, so `Commit`, `BatchWrite`
and the `Write` stream change documents in silence.

* `Announced` — every document that a run changes is named by a notification that is sent once
  the change is committed.
* `applyRows_eq_self_iff` — when a commit changes no row.
* `changes_announced_iff` — which runs of which handlers announce all they change.
-/

namespace Embyr

open Program ReadCommitted World List

/-! ## Announcements -/

/-- The listener reads the payload as the document. -/
def NamesDocument (payload : String) (path : DocumentPath) : Prop :=
  Text.rsplitOnce '/' payload = some (path.collectionPath, path.documentId)

/-- Whatever the run changes is announced on the channel of its project, when the change is
committed and in place. -/
def Announced {R : Type} (w : World) (p : Handler R) : Prop :=
  ∀ path, (w.run p).2.documentRow path ≠ w.documentRow path →
    ∃ payload w₁, (Call.notify path.projectId payload, w₁) ∈ w.asked p ∧
      NamesDocument payload path ∧ w₁.txn = none ∧
      w₁.documentRow path = (w.run p).2.documentRow path

/-- The payload of `send_notify` names the document if its identifier has no `/`. -/
theorem namesDocument_readKey_iff (path : DocumentPath) :
    NamesDocument (readKey path) path ↔ '/' ∉ path.documentId.toList := by
  constructor
  · exact fun h => Text.not_mem_of_rsplitOnce h
  · exact fun h => Text.rsplitOnce_append h

/-! ## Single documents -/

variable {R : Type} {p : Handler R}

namespace World

variable {w w' : World} {path : DocumentPath} {fields : Fields}

/-- The call has announced a change of its own document, and has made no other. -/
structure Announces {R : Type} (w : World) (p : Adapter R) (path : DocumentPath) (w' : World) :
    Prop where
  others : ∀ other, other ≠ path → w'.documentRow other = w.documentRow other
  notice : ∃ w₁, (Call.notify path.projectId (readKey path), w₁) ∈ w.asked p ∧
    (w.txn = none → w₁.txn = none) ∧ w₁.documentRow = w'.documentRow

theorem txn_put_of_idle {k : Key} {v : k.Row} (h : w.txn = none) : (w.put k v).txn = none := by
  rw [put, h]
  rfl

/-- A row is written, and then the change announced. -/
theorem Announces.of_put {R' : Type} {p : Adapter R} {f : R → Adapter R'} {r : R} {x : R'}
    {row : DocumentRow} {result : R'} (hp : w.run p = (.ok r, w.put (.document path) row))
    (hf : f r = (sendNotify path >>= fun _ => pure x))
    (h : w.run (p >>= f) = (.ok result, w')) : Announces w (p >>= f) path w' := by
  rw [run_bind_of_ok hp, hf] at h
  cases h
  refine ⟨fun other hother => ?_, w.put (.document path) row, ?_, txn_put_of_idle, rfl⟩
  · exact lookup_rowsSeen_put_ne (by simpa using hother)
  · rw [asked, Prog.asked_bind_ok answer hp, hf]
    exact mem_append_right _ mem_cons_self

theorem Announces.of_continues {p q : Adapter R} (h : Continues w p w q)
    (hq : Announces w q path w') : Announces w p path w' := by
  obtain ⟨w₁, hmem, hidle, hrow⟩ := hq.notice
  exact ⟨hq.others, w₁, h.asked_subset hmem, hidle, hrow⟩

variable {result : WriteResult}

theorem announces_createDocument (h : w.run (createDocument path fields) = (.ok result, w')) :
    Announces w (createDocument path fields) path w' := by
  rcases run_createDocument w path fields with ⟨hrow, -⟩ | ⟨-, hfails⟩
  · exact .of_put (run_insertDocument_none hrow fields) rfl h
  · exact absurd (congrArg Prod.fst h) (hfails.not_ok result)

/-- An `UPDATE` with a condition whose row is announced. -/
theorem announces_conditional {p : DocumentRow → Bool}
    {f : Option DocumentRow → Adapter WriteResult}
    (hsome : ∀ row, ∃ x, f (some row) = (sendNotify path >>= fun _ => pure x))
    (hnone : ∀ w₁ : World, ∀ r, (w₁.run (f none)).1 ≠ .ok r)
    (h : w.run (sql (.update (.document path) p
      (DocumentRow.overwrite fields w.env.databaseClock.stored)) >>= f) = (.ok result, w')) :
    Announces w (sql (.update (.document path) p
      (DocumentRow.overwrite fields w.env.databaseClock.stored)) >>= f) path w' := by
  rcases run_conditional w path fields p with ⟨row, -, -, hrun⟩ | ⟨-, hrun⟩
  · obtain ⟨x, hx⟩ := hsome (w.written path fields)
    exact .of_put hrun hx h
  · rw [run_bind_of_ok hrun] at h
    exact absurd (congrArg Prod.fst h) (hnone w result)

theorem announces_updateDocument {precondition : Option WritePrecondition}
    (h : w.run (updateDocument path fields precondition) = (.ok result, w')) :
    Announces w (updateDocument path fields precondition) path w' := by
  rcases precondition with _ | _ | _ | t
  · exact .of_continues ((Continues.refl w _).bind rfl) (.of_put run_upsert rfl h)
  · exact .of_continues ((Continues.refl w _).bind rfl)
      (announces_conditional (fun row => ⟨_, rfl⟩) (fun w₁ r => nofun) h)
  · rcases run_insertDocument w path fields with ⟨hrow, -⟩ | ⟨-, hfails⟩
    · exact .of_put (run_insertDocument_none hrow fields) rfl h
    · exact absurd (congrArg Prod.fst h) (hfails.bind.not_ok result)
  · obtain ⟨expected, htime, hrest⟩ := (Continues.refl w _).ofExcept h
    have hrest := hrest.bind rfl
    refine .of_continues hrest (announces_conditional (fun row => ⟨_, rfl⟩) (fun w₁ r => ?_)
      (hrest.run_eq.symm.trans h))
    -- without a row only the error is chosen
    refine (congrArg Prod.fst (run_bind_of_ok run_select)).trans_ne ?_
    split <;> exact nofun

theorem announces_deleteDocument {precondition : Option WritePrecondition}
    (h : w.run (deleteDocument path precondition) = (.ok (), w')) :
    Announces w (deleteDocument path precondition) path w' := by
  refine .of_continues ((Continues.refl w _).bind rfl) ?_
  rcases hrow : (w.documentRow path).filter DocumentRow.visible with _ | row
  · exact nomatch (run_bind_of_ok (run_update_none hrow)).symm.trans h
  · exact .of_put (run_update_some hrow) rfl h

/-! ## Commits

A commit asks for no notification. -/

/-- The call is not a notification. -/
def Silent (q : Call) : Prop := ∀ project payload, q ≠ .notify project payload

theorem Still.silent {q : Call} (h : Still q) : Silent q := by
  rintro project payload rfl
  have hnotified := congrArg notified (h (.holding .still ∅))
  exact nomatch hnotified

theorem silent_of_not_isNotify {q : Call} (h : q.isNotify = false) : Silent q := by
  rintro project payload rfl
  cases h

theorem handleCommit_silent (metadata : Metadata) (req : CommitRequest) :
    (handleCommit metadata req).Only Silent :=
  handleCommit_only (S := fun _ => True) (fun _ _ => silent_of_not_isNotify)
    (fun _ _ _ _ => trivial) fun _ _ _ _ _ _ => trivial

theorem applyAlone_silent (project : ProjectId) (write : Write) :
    (applyAlone project write).Only Silent := by
  change (applyTranslated project (.ok write)).Only Silent
  exact applyTranslated_only (S := fun _ => True) (fun _ _ => silent_of_not_isNotify)
    (fun _ _ => trivial) fun _ _ => trivial

theorem handleBatchWrite_silent (metadata : Metadata) (req : BatchWriteRequest) :
    (handleBatchWrite metadata req).Only Silent :=
  handleBatchWrite_only (S := fun _ => True) (fun _ _ => silent_of_not_isNotify)
    (fun _ _ _ _ => trivial) fun _ _ _ _ _ _ => trivial

theorem writeMessage_silent (project : ProjectId) (identity : Option AuthContext) (token : String)
    (message : WriteRequest) : (writeMessage project identity token message).Only Silent :=
  writeMessage_only (S := fun _ => True) identity (fun _ _ => silent_of_not_isNotify)
    (fun _ _ => trivial) (fun _ _ _ _ _ _ => trivial) token

end World

/-! ## Rows that a commit leaves alone -/

/-- The write leaves no trace: it deletes a document that has no row. -/
def Write.Traceless (rows : Rows) : Write → Prop
  | .delete path _ _ => rows path = none
  | .update _ _ _ _ _ | .transform _ _ => False

/-- The row has been written. -/
def Advances : Option DocumentRow → Option DocumentRow → Prop
  | none, some _ => True
  | some row, some row' => row.version < row'.version
  | _, none => False

theorem Advances.ne {row row' : Option DocumentRow} (h : Advances row row') : row' ≠ row := by
  rintro rfl
  rcases row' with _ | row
  · exact h
  · exact absurd h (lt_irrefl _)

theorem Advances.trans {row₁ row₂ row₃ : Option DocumentRow} (h : Advances row₁ row₂)
    (h' : row₃ = row₂ ∨ Advances row₂ row₃) : Advances row₁ row₃ := by
  rcases h' with rfl | h'
  · exact h
  · rcases row₁ with _ | row₁ <;> rcases row₂ with _ | row₂ <;> rcases row₃ with _ | row₃ <;>
      simp only [Advances] at h h' ⊢
    exact lt_trans h h'

/-- Storing advances a row, unless an absent one is deleted. -/
theorem advances_storeOver (now : Timestamp) (final : Option Fields) (old : Option DocumentRow) :
    (final = none ∧ old = none) ∨ Advances old (storeOver now final old) := by
  rcases final with _ | fields <;> rcases old with _ | row
  · exact .inl ⟨rfl, rfl⟩
  · exact .inr (lt_add_one _)
  · exact .inr trivial
  · exact .inr (lt_add_one _)

section Rows

variable {now : Timestamp} {snapshot : Documents} {rows rows' : Rows} {writes : List Write}

theorem applyRows_advances (h : applyRows now snapshot rows writes = .ok rows') (path : DocumentPath) :
    rows' path = rows path ∨ Advances (rows path) (rows' path) := by
  induction writes generalizing rows with
  | nil =>
    cases h
    exact .inl rfl
  | cons write writes ih =>
    obtain ⟨final, values, -, hrest⟩ := applyRows_cons_ok h
    have hih := ih hrest
    by_cases hpath : path = write.path
    · subst hpath
      rw [Function.update_self] at hih
      rcases advances_storeOver now final (rows write.path) with ⟨rfl, hnone⟩ | hadvances
      · rw [hnone] at hih ⊢
        exact hih
      · exact .inr (hadvances.trans hih)
    · rwa [Function.update_of_ne hpath] at hih

/-- A commit changes no row exactly if none of its writes leaves a trace. -/
theorem applyRows_eq_self_iff (h : applyRows now snapshot rows writes = .ok rows') :
    rows' = rows ↔ ∀ write ∈ writes, write.Traceless rows := by
  induction writes with
  | nil =>
    cases h
    exact iff_of_true rfl nofun
  | cons write writes ih =>
    obtain ⟨final, values, heffect, hrest⟩ := applyRows_cons_ok h
    have hfinal := effect_isNone heffect
    rw [forall_mem_cons]
    -- a write without trace is a delete of a document without row
    have htraceless : write.Traceless rows ↔ final = none ∧ rows write.path = none := by
      rw [← Option.isNone_iff_eq_none, hfinal]
      cases write <;> simp [Write.Traceless, Write.deletes, Write.path]
    rcases advances_storeOver now final (rows write.path) with hnone | hadvances
    · have hsame : Function.update rows write.path (storeOver now final (rows write.path)) = rows := by
        rw [Function.update_eq_self_iff, hnone.1, hnone.2]
        rfl
      rw [hsame] at hrest
      rw [ih hrest]
      exact ⟨fun hrest => ⟨htraceless.mpr hnone, hrest⟩, fun hall => hall.2⟩
    · refine iff_of_false (fun heq => ?_) fun hall => ?_
      · have hpath := applyRows_advances hrest write.path
        rw [Function.update_self] at hpath
        exact (hadvances.trans hpath).ne (congrFun heq write.path)
      · obtain ⟨rfl, hrow⟩ := htraceless.mp hall.1
        rw [hrow] at hadvances
        exact hadvances

end Rows

/-! ## Identifiers without a slash -/

theorem parseDocumentPath_documentId {name : String} {path : DocumentPath}
    (h : parseDocumentPath name = .ok path) : '/' ∉ path.documentId.toList := by
  obtain ⟨project, -, h⟩ := bind_eq_ok h
  rcases hafter : Text.betweenFirstTwo "/documents/" name with _ | text
  · rw [hafter] at h
    cases h
  · rw [hafter] at h
    cases h
    refine Text.not_mem_of_mem_split (show _ ∈ Text.split '/' text from ?_)
    rw [getLastD_eq_getLast?, getLast?_eq_getLast_of_ne_nil (Text.split_ne_nil '/' text)]
    exact getLast_mem _

theorem hexByte_slash (b : UInt8) : '/' ∉ (hexByte b).toList := by
  have hdigit : ∀ n < 16, (if n < 10 then Char.ofNat (48 + n) else Char.ofNat (87 + n)) ≠ '/' := by
    decide
  have hb : b.toNat < 256 := b.toNat_lt
  simp only [hexByte, String.toList_ofList, mem_cons, not_mem_nil, or_false, not_or]
  exact ⟨(hdigit _ (by omega)).symm, (hdigit _ (by omega)).symm⟩

theorem Uuid.text_slash (uuid : Uuid) : '/' ∉ uuid.text.toList := by
  have hhex : ∀ (bytes : List UInt8) (s : String), '/' ∉ s.toList →
      '/' ∉ (bytes.foldl (fun s b => s ++ hexByte b) s).toList := by
    intro bytes
    induction bytes with
    | nil => exact fun s hs => hs
    | cons b bytes ih =>
      intro s hs
      refine ih _ ?_
      rw [String.toList_append, mem_append, not_or]
      exact ⟨hs, hexByte_slash b⟩
  have hpart := fun start stop => hhex ((uuid.bytes.drop start).take (stop - start)) "" (by decide)
  rw [Uuid.text, Text.join, String.toList_ofList]
  simp only [map_cons, map_nil, intercalate_cons_cons, intercalate_singleton,
    mem_append, mem_singleton, not_or]
  exact ⟨⟨hpart 0 4, by decide⟩, ⟨hpart 4 6, by decide⟩, ⟨hpart 6 8, by decide⟩,
    ⟨hpart 8 10, by decide⟩, hpart 10 16⟩

/-! ## Which changes are announced -/

section Announced

variable {w w' : World} {path : DocumentPath}

theorem announced_of_announces {R' : Type} {w₀ : World} {q : Adapter R'} (hrun : (w₀.run p).2 = w')
    (hrows : w.documentRow = w₀.documentRow) (hidle : w.txn = none) (h : w.Announces q path w')
    (hasked : w.asked q ⊆ w₀.asked p)
    (hid : '/' ∉ path.documentId.toList) : Announced w₀ p := by
  intro other hchanged
  have hother : other = path := by
    by_contra hne
    exact hchanged (by rw [hrun, h.others other hne, hrows])
  subst hother
  obtain ⟨w₁, hmem, hclosed, hrow⟩ := h.notice
  exact ⟨readKey other, w₁, hasked hmem, (namesDocument_readKey_iff other).mpr hid, hclosed hidle,
    by rw [hrow, hrun]⟩

/-- A silent run announces all its changes if it makes none. -/
theorem announced_silent_iff (hsilent : p.Only World.Silent) :
    Announced w p ↔ (w.run p).2.documentRow = w.documentRow := by
  constructor
  · intro h
    funext path
    by_contra hchanged
    obtain ⟨payload, w₁, hmem, -⟩ := h path hchanged
    exact hsilent.asked _ hmem _ _ rfl
  · intro h path hchanged
    exact absurd (congrFun h path) hchanged

/-- A request to create a document under an identifier of the client sends no other notice
than for it. -/
theorem handleCreateDocument_notices (metadata : Metadata) {req : CreateDocumentRequest}
    (hid : req.documentId.isEmpty = false) :
    (handleCreateDocument metadata req).Only fun q => ∀ project payload,
      q = .notify project payload → payload = req.collectionId ++ "/" ++ req.documentId := by
  have hstill : ∀ {R : Type} {p : Handler R}, p.Only World.Still → p.Only fun q =>
      ∀ project payload, q = .notify project payload →
        payload = req.collectionId ++ "/" ++ req.documentId :=
    fun hp => hp.mono fun q hq project payload heq => absurd heq (hq.silent project payload)
  refine (hstill (admitName_still _ _)).bind fun project => ?_
  rw [hid]
  refine (Prog.Only.ofExcept _).bind fun fields => ?_
  refine (hstill (identify_still _ _)).bind fun identity => ?_
  refine (hstill (singleGate_still _)).bind fun _ => ?_
  refine .bind (.mapError ?_ _) fun _ => trivial
  refine .bind (.ask (fun _ _ => nofun) fun now => ⟨fun _ _ => nofun, fun x => ?_⟩)
    fun row => ⟨fun project payload heq => ?_, fun _ => trivial⟩
  · rcases x with (_ | _) | _ <;> trivial
  · cases heq
    rfl

/-- `CreateDocument` announces its document unless its identifier has a slash. -/
theorem announced_create_iff (hidle : w.txn = none) {metadata : Metadata}
    {req : CreateDocumentRequest} {response : DocumentResponse}
    (h : w.run (handleCreateDocument metadata req) = (.ok response, w')) :
    Announced w (handleCreateDocument metadata req) ↔ '/' ∉ req.documentId.toList := by
  obtain ⟨project, documentId, fields, result, drawn, -, hid, hrun, hasked, -⟩ :=
    run_handleCreateDocument_eq_ok h
  have hannounces := announces_createDocument hrun
  have hend : (w.run (handleCreateDocument metadata req)).2 = w' := congrArg Prod.snd h
  have hrows : ({ w with drawn := drawn } : World).documentRow = w.documentRow := rfl
  have hclosed : ({ w with drawn := drawn } : World).txn = none := hidle
  by_cases hempty : req.documentId.isEmpty = true
  · rw [if_pos hempty] at hid
    obtain ⟨uuid, rfl⟩ := hid
    refine iff_of_true ?_ ?_
    · exact announced_of_announces hend hrows hclosed hannounces hasked uuid.text_slash
    · simp [String.isEmpty_iff.mp hempty]
  · rw [if_neg hempty] at hid
    subst hid
    constructor
    · intro hannounced
      -- a row has been added, so a notice names the document
      have hchanged : w'.documentRow ⟨project, req.collectionId, req.documentId⟩ ≠
          w.documentRow ⟨project, req.collectionId, req.documentId⟩ := by
        rcases run_createDocument { w with drawn := drawn }
          ⟨project, req.collectionId, req.documentId⟩ fields with ⟨hnone, hleaves⟩ | ⟨-, hfails⟩
        · obtain ⟨r, w'', hrun', hrows⟩ := hleaves
          obtain ⟨-, rfl⟩ := Prod.mk.inj (hrun'.symm.trans hrun)
          rw [hrows, Function.update_self, show w.documentRow _ = none from hnone]
          exact nofun
        · exact absurd (congrArg Prod.fst hrun) (hfails.not_ok result)
      obtain ⟨payload, w₁, hmem, hnames, -⟩ := hannounced _ (by rwa [hend])
      have hpayload := (handleCreateDocument_notices metadata
        (Bool.eq_false_iff.mpr hempty)).asked _ hmem _ _ rfl
      rw [hpayload] at hnames
      exact (namesDocument_readKey_iff ⟨project, req.collectionId, req.documentId⟩).mp hnames
    · intro hslash
      exact announced_of_announces hend hrows hclosed hannounces hasked hslash

/-- A commit announces its changes if it makes none. -/
theorem announced_commit_iff {w₁ w₂ : World} {project : ProjectId} {id : TransactionId}
    {writes : List Write} {results : List WriteResult} (hsilent : p.Only World.Silent)
    (hidle : w.txn = none) (hbefore : World.Apart w w₁)
    (hrun : w₁.run (commitTransaction project id writes) = (.ok results, w₂))
    (hafter : World.Apart w₂ w') (hend : (w.run p).2 = w') :
    Announced w p ↔ ∀ write ∈ writes, write.Traceless w.documentRow := by
  have hrows := run_commitTransaction_applyRows (hbefore.idle hidle) hrun
  rw [hbefore.documentRow_eq, ← hafter.documentRow_eq] at hrows
  rw [announced_silent_iff hsilent, hend, applyRows_eq_self_iff hrows]

end Announced

/-- **Announced changes**, for every handler that changes documents and every world it succeeds
in. `CreateDocument` announces unless the client's identifier has a slash, `UpdateDocument` and
`DeleteDocument` always do; `Commit`, a message of the `Write` stream and a write of
`BatchWrite` do only if they delete nothing but documents without a row; and no run of
`BatchWrite` announces anything. -/
theorem changes_announced_iff {w : World} (hidle : w.txn = none) :
    (∀ metadata req response w', w.run (handleCreateDocument metadata req) = (.ok response, w') →
      (Announced w (handleCreateDocument metadata req) ↔ '/' ∉ req.documentId.toList)) ∧
    (∀ metadata req response w', w.run (handleUpdateDocument metadata req) = (.ok response, w') →
      Announced w (handleUpdateDocument metadata req)) ∧
    (∀ metadata req w', w.run (handleDeleteDocument metadata req) = (.ok (), w') →
      Announced w (handleDeleteDocument metadata req)) ∧
    (∀ metadata req response w', w.run (handleCommit metadata req) = (.ok response, w') →
      (Announced w (handleCommit metadata req) ↔ ∀ message ∈ req.writes, ∀ write,
        message.Becomes write → write.Traceless w.documentRow)) ∧
    (∀ project identity token message response w',
      w.run (writeMessage project identity token message) = (.ok response, w') →
      (Announced w (writeMessage project identity token message) ↔ ∀ m ∈ message.writes, ∀ write,
        m.Becomes write → write.Traceless w.documentRow)) ∧
    (∀ project write result w', w.run (applyAlone project write) = (.ok (.ok result), w') →
      (Announced w (applyAlone project write) ↔ write.Traceless w.documentRow)) ∧
    ∀ metadata req, Announced w (handleBatchWrite metadata req) ↔
      (w.run (handleBatchWrite metadata req)).2.documentRow = w.documentRow := by
  refine ⟨?_, ?_, ?_, ?_, ?_, ?_, ?_⟩
  · intro metadata req response w' h
    exact announced_create_iff hidle h
  · intro metadata req response w' h
    obtain ⟨name, fields, path, result, -, hpath, hrun, hasked⟩ :=
      run_handleUpdateDocument_eq_ok h
    exact announced_of_announces (congrArg Prod.snd h) rfl hidle
      (announces_updateDocument hrun) hasked (parseDocumentPath_documentId hpath)
  · intro metadata req w' h
    obtain ⟨path, hpath, hrun, hasked⟩ := run_handleDeleteDocument_eq_ok h
    exact announced_of_announces (congrArg Prod.snd h) rfl hidle
      (announces_deleteDocument hrun) hasked (parseDocumentPath_documentId hpath)
  · intro metadata req response w' h
    obtain ⟨project, writes, htranslated, hrun⟩ := run_handleCommit_eq_ok h
    rw [← forall_translated_iff htranslated]
    exact announced_commit_iff (handleCommit_silent metadata req) hidle (.refl w) hrun
      (.refl w') (congrArg Prod.snd h)
  · rintro project identity token message ⟨token', results⟩ w' h
    obtain ⟨writes, id, w₁, w₂, htranslated, hbefore, hrun, hafter⟩ :=
      run_writeMessage_eq_ok h
    rw [← forall_translated_iff htranslated]
    exact announced_commit_iff (writeMessage_silent _ _ _ _) hidle hbefore hrun hafter
      (congrArg Prod.snd h)
  · intro project write result w' h
    obtain ⟨id, w₁, results, hbefore, hrun⟩ := run_applyAlone_eq_ok h
    rw [announced_commit_iff (applyAlone_silent project write) hidle hbefore hrun (.refl w')
      (congrArg Prod.snd h), forall_mem_singleton]
  · intro metadata req
    exact announced_silent_iff (handleBatchWrite_silent metadata req)

/-! ## A note -/

/-- A request to create a note. -/
def newNote (documentId : String) : CreateDocumentRequest :=
  ⟨"projects/demo/databases/(default)/documents", "notes", documentId, none⟩

/-- A new note is announced. -/
theorem changes_announced_note :
    Announced (.holding .still ∅) (handleCreateDocument ⟨some (some "Bearer key"), none⟩
      (newNote "n")) := by
  obtain ⟨response, hresponse⟩ : ∃ response, ((holding .still ∅).run (handleCreateDocument
      ⟨some (some "Bearer key"), none⟩ (newNote "n"))).1 = .ok response := ⟨_, rfl⟩
  exact ((changes_announced_iff (w := .holding .still ∅) rfl).1 _ _ response _
    (Prod.ext hresponse rfl)).mpr (by decide)

/-- A commit changes a note, and nothing is announced; the notice for the new note `a/b` is read
as one for the document `b` of `notes/a`. -/
theorem commit_changes_in_silence :
    let note : DocumentPath := ⟨demo, "notes", "n"⟩
    let opened := World.holding .still (AList.singleton (.transaction (uuidOf 1))
      ⟨demo, .active, ⟨0, 0⟩, ∅⟩)
    let committed := opened.run (commitTransaction demo (uuidOf 1).bytes
      [.update note ∅ none none []])
    let created := (World.holding .still ∅).run (handleCreateDocument
      ⟨some (some "Bearer key"), none⟩ (newNote "a/b"))
    (committed.1.toOption.isSome = true ∧ opened.document note = none ∧
        committed.2.document note = some ∅ ∧ committed.2.notified = []) ∧
      (created.2.document ⟨demo, "notes", "a/b"⟩ = some ∅ ∧
        created.2.notified = [(demo, "notes/a/b")] ∧
        Text.rsplitOnce '/' "notes/a/b" = some ("notes/a", "b")) := by
  refine ⟨⟨rfl, rfl, rfl, rfl⟩, rfl, rfl, ?_⟩
  decide

end Embyr
