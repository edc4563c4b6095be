import Embyr.Members

/-!
# The last owner

Requests that change and remove members of one account at the same time. Each of them lists the
members, checks the list, and writes with a later statement.

* `IsOwner` — the row of the user says so.
* `rosterMonitor` — a request lists the members once, and what it writes then was checked
  against that list.
* `StillOwners` — the owners a request has seen are owners when its change becomes visible.
* `owner_remains` — while that is so, an account that has an owner keeps one.
-/

namespace Embyr

open Program Prog ReadCommitted Function

/-- The user is an owner of the account. -/
def IsOwner (rows : AList MemberKey.Row) (accountId userId : Uuid) : Prop :=
  rows.lookup (.member accountId userId) = some (some .owner)

instance (rows : AList MemberKey.Row) (accountId userId : Uuid) :
    Decidable (IsOwner rows accountId userId) :=
  inferInstanceAs (Decidable (rows.lookup (.member accountId userId) = some (some Role.owner)))

variable {accountId : Uuid}

/-- The owners of a list are the owners in the rows it was made of. -/
theorem mem_ownersOf_membersOf {userId : Uuid} {rows : AList MemberKey.Row} :
    (∃ m ∈ ownersOf ((membersOf accountId rows).filterMap asMember), m.userId = userId) ↔
      IsOwner rows accountId userId := by
  rw [IsOwner, AList.mem_lookup_iff.symm.trans Option.mem_def |>.symm]
  constructor
  · rintro ⟨m, hm, rfl⟩
    obtain ⟨hm, hrole⟩ := mem_ownersOf.mp hm
    obtain ⟨⟨k, v⟩, hx, hasMember⟩ := List.mem_filterMap.mp hm
    obtain ⟨hentry, haccount⟩ := List.mem_filter.mp hx
    cases k with
    | member account user =>
      obtain rfl : account = accountId := by simpa using haccount
      obtain ⟨role, hv, rfl⟩ := Option.map_eq_some_iff.mp hasMember
      obtain rfl : role = .owner := hrole
      exact hv ▸ hentry
    | sessions account user => cases hasMember
    | adminKeys account user => cases hasMember
  · intro hentry
    refine ⟨⟨userId, .owner⟩, mem_ownersOf.mpr ⟨?_, rfl⟩, rfl⟩
    refine List.mem_filterMap.mpr ⟨⟨.member accountId userId, some .owner⟩, ?_, rfl⟩
    exact List.mem_filter.mpr ⟨hentry, by simp⟩

/-! ## What a request writes -/

/-- The user a request is about. -/
def RosterRequest.target : RosterRequest → Option Uuid
  | change _ memberId _ | remove _ memberId => memberId

/-- What may be written after the list has been checked. -/
def Permits (accountId : Uuid) (target : Option Uuid) (members : List AccountMember) :
    (k : MemberKey) → Option k.Row → k.Row → Prop
  | .member account user, _, role => account = accountId ∧ target = some user ∧
      (role = some .owner ∨ ∃ actorRole, checkOwner actorRole user members true = .ok ())
  | .sessions _ _, _, _ | .adminKeys _ _, _, _ => True

/-- A request lists the members, and then writes what the list permits. -/
def rosterMonitor (accountId : Uuid) (target : Option Uuid) :
    Monitor MemberAnswer (Option (List AccountMember)) where
  allows
    | none, q => q = .scan (membersOf accountId)
    | some members, q => q.Respects (Permits accountId target members) ∧ ∀ pick, q ≠ .scan pick
  next
    | none, .scan _, .ok rows => some (rows.filterMap asMember)
    | s, _, _ => s

variable {target : Option Uuid} {members : List AccountMember} {q : Stmt MemberKey.Row}

/-- A statement after the list. -/
theorem memberSql_obeys {R : Type} {f : q.Result → MemberRequest R}
    {post : Option (List AccountMember) → Except HttpError R → Prop}
    (hq : q.Respects (Permits accountId target members)) (hscan : ∀ pick, q ≠ .scan pick)
    (hfailed : post (some members) (.error ⟨500, none⟩))
    (hf : ∀ r, (f r).Obeys (rosterMonitor accountId target) post (some members)) :
    (memberSql q >>= f).Obeys (rosterMonitor accountId target) post (some members) := by
  refine ⟨⟨hq, hscan⟩, fun a => ?_⟩
  rcases a with e | r
  · exact hfailed
  · exact hf r

/-- Reading the list. -/
theorem loadAccountMembers_obeys {R : Type} {f : List AccountMember → MemberRequest R}
    (hf : ∀ members, (f members).Obeys (rosterMonitor accountId target) (fun _ _ => True)
      (some members)) :
    (loadAccountMembers accountId >>= f).Obeys (rosterMonitor accountId target)
      (fun _ _ => True) none := by
  refine ⟨rfl, fun a => ?_⟩
  rcases a with e | rows
  · trivial
  · exact hf _

theorem changeMemberRole_obeys (session : SessionContext) (memberId : Option Uuid)
    (role : String) :
    (changeMemberRole session memberId role).Obeys (rosterMonitor session.accountId memberId)
      (fun _ _ => True) none := by
  rw [changeMemberRole.eq_def]
  split_ifs
  · trivial
  rcases memberId with _ | targetId
  · trivial
  rcases parseRole role with _ | newRole
  · trivial
  refine loadAccountMembers_obeys fun members => ?_
  rcases hcheck : checkRbac (.changeMemberRole targetId newRole) session.role members with e | _
  · trivial
  refine memberSql_obeys (fun _ _ => ⟨rfl, rfl, ?_⟩) (nofun) trivial fun r => ?_
  · rw [checkRbac] at hcheck
    split_ifs at hcheck
    by_cases howner : newRole = .owner
    · exact .inl (congrArg some howner)
    · rw [decide_eq_true (Role.lt_owner_iff.mpr howner)] at hcheck
      exact .inr ⟨session.role, hcheck⟩
  · rcases r with _ | r
    · trivial
    · trivial

theorem removeMember_obeys (session : SessionContext) (memberId : Option Uuid) :
    (removeMember session memberId).Obeys (rosterMonitor session.accountId memberId)
      (fun _ _ => True) none := by
  rw [removeMember.eq_def]
  split_ifs
  · trivial
  rcases memberId with _ | targetId
  · trivial
  refine loadAccountMembers_obeys fun members => ?_
  rcases hcheck : checkRbac (.removeMember targetId) session.role members with e | _
  · cases e <;> trivial
  rw [checkRbac] at hcheck
  split_ifs at hcheck
  have hcascade : (removeCascade session.accountId targetId).Obeys
      (rosterMonitor session.accountId (some targetId)) (fun s _ => s = some members)
      (some members) := by
    refine memberSql_obeys (fun _ _ => trivial) (nofun) rfl fun _ => ?_
    refine memberSql_obeys (fun _ _ => trivial) (nofun) rfl fun _ => ?_
    refine memberSql_obeys (fun _ _ => ⟨rfl, rfl, ?_⟩) (nofun) rfl fun _ => rfl
    exact .inr ⟨session.role, hcheck⟩
  refine memberSql_obeys trivial (nofun) trivial fun _ => ?_
  have hattempt : (removeCascade session.accountId targetId).attempt.Obeys
      (rosterMonitor session.accountId (some targetId))
      (fun s (_ : Except HttpError _) => s = some members) (some members) :=
    obeys_attempt.mpr hcascade
  refine hattempt.bind (fun s x hs => ?_) fun _ _ _ => trivial
  subst hs
  rcases x with e | _
  · exact ⟨⟨trivial, nofun⟩, fun _ => trivial⟩
  · exact memberSql_obeys trivial (nofun) trivial fun _ => trivial

theorem RosterRequest.obeys (request : RosterRequest) :
    request.program.Obeys (rosterMonitor request.accountId request.target)
      (fun _ _ => True) none := by
  cases request with
  | change session memberId role => exact changeMemberRole_obeys session memberId role
  | remove session memberId => exact removeMember_obeys session memberId

/-! ## Changes that become visible -/

/-- The rows that the statement writes, or wrote before it in the same transaction, become
visible with it. -/
def Lands (db : Db MemberKey.Row) (i : ℕ) : Stmt MemberKey.Row → Prop
  | .update _ _ _ | .insert _ _ | .upsert _ _ _ => db.txns i = none
  | .commit => True
  | .select _ | .scan _ | .selectForUpdate _ _ | .begin | .rollback => False

variable {db : Db MemberKey.Row} {i : ℕ} {txn : Option (Txn MemberKey.Row)}
  {batch : AList MemberKey.Row}

theorem lands_of_mem
    (hmoves : db.Moves i q txn batch) {k : MemberKey} (hk : k ∈ batch) : Lands db i q := by
  cases hmoves with
  | written k' v hfree hrel =>
    have htxn := (Db.mem_writeRow hk).1
    cases q with
    | update | insert | upsert => exact htxn
    | commit => trivial
    -- a statement that writes nothing respects everything
    | _ => exact hrel (fun _ _ _ => False) trivial
  | committed hq => exact hq ▸ trivial
  | _ => exact absurd hk (AList.notMem_empty k)

/-- A system of requests, with what each of them has been answered. -/
abbrev RosterConfig : Type :=
  Config MemberAnswer (Db MemberKey.Row × Trace MemberAnswer) (fun _ => HttpError) fun _ => Unit

/-- When a change becomes visible, the owners that its request has seen are still owners. -/
def StillOwners (requests : ℕ → RosterRequest) (c : RosterConfig) (i : ℕ) : Prop :=
  ∀ q k, c.progs i = .call q k → Lands c.state.1 i q →
    ∀ pick rows, ⟨.scan pick, .ok rows⟩ ∈ Trace.of c.state.2 i →
      ∀ m ∈ ownersOf (rows.filterMap asMember),
        IsOwner c.state.1.rows (requests i).accountId m.userId

/-- The requests at their start. -/
def rosterStart (db : Db MemberKey.Row) (requests : ℕ → RosterRequest) : RosterConfig where
  state := (db, [])
  progs i := (requests i).program

/-- A list that was read while there was an owner. -/
structure SeenOwners (trace : List (Σ q, MemberAnswer q)) (members : List AccountMember) : Prop where
  nodup : (members.map AccountMember.userId).Nodup
  owner : ∃ m, m ∈ ownersOf members
  read : ∃ pick rows, ⟨.scan pick, .ok rows⟩ ∈ trace ∧ rows.filterMap asMember = members

/-- An account with an owner, and requests that have seen one. -/
structure Kept (requests : ℕ → RosterRequest) (accountId : Uuid) (c : RosterConfig)
    (g : ℕ → Option (List AccountMember)) : Prop where
  owned : ∃ user, IsOwner c.state.1.rows accountId user
  idle : ∀ i, g i = none → c.state.1.txns i = none
  seen : ∀ i members, g i = some members → (requests i).accountId = accountId →
    SeenOwners (Trace.of c.state.2 i) members
  pending : ∀ i t user role, c.state.1.txns i = some t →
    t.pending.lookup (.member accountId user) = some role →
      ∃ members, g i = some members ∧
        Permits (requests i).accountId (requests i).target members (.member accountId user) none role

/-- What was checked against a list of owners that are still there leaves one of them. -/
theorem owner_of_permits {rows : AList MemberKey.Row} {account : Uuid}
    {trace : List (Σ q, MemberAnswer q)} (hseen : account = accountId → SeenOwners trace members)
    (howned : ∃ user, IsOwner rows accountId user)
    (hstill : ∀ user role, batch.lookup (.member accountId user) = some role →
      account = accountId → ∀ m ∈ ownersOf members, IsOwner rows accountId m.userId)
    (hbatch : ∀ user role, batch.lookup (.member accountId user) = some role →
      Permits account target members (.member accountId user) none role) :
    ∃ user, IsOwner (batch ∪ rows) accountId user := by
  by_cases hlowered : ∃ user role, batch.lookup (.member accountId user) = some role ∧
      role ≠ some .owner
  · obtain ⟨user, role, hrole, hne⟩ := hlowered
    obtain ⟨haccount, htarget, howner | ⟨actorRole, hcheck⟩⟩ := hbatch user role hrole
    · exact absurd howner hne
    · obtain ⟨m, hm⟩ := (hseen haccount.symm).owner
      obtain ⟨m', hm', huser⟩ :=
        exists_owner_of_checkOwner (hseen haccount.symm).nodup hcheck hm
      refine ⟨m'.userId, ?_⟩
      rw [IsOwner, lookup_union]
      rcases hrole' : batch.lookup (.member accountId m'.userId) with _ | role'
      · rw [hrole']
        exact hstill user role hrole haccount.symm m' hm'
      · -- only the target is written
        have htarget' := (hbatch m'.userId role' hrole').2.1
        exact absurd (Option.some.inj (htarget'.symm.trans htarget)) huser
  · push Not at hlowered
    obtain ⟨user, howner⟩ := howned
    refine ⟨user, ?_⟩
    rw [IsOwner, lookup_union]
    rcases hrole : batch.lookup (.member accountId user) with _ | role
    · rw [hrole]
      exact howner
    · rw [hrole, hlowered user role hrole]
      rfl

variable {requests : ℕ → RosterRequest} {c : RosterConfig} {g : ℕ → Option (List AccountMember)}

/-- What becomes visible was permitted: a row outside a transaction when it was written, the rows
of a transaction before. -/
theorem Kept.permits (hkept : Kept requests accountId c g) (hg : g i = some members)
    (hq : q.Respects (Permits (requests i).accountId (requests i).target members))
    (hmoves : c.state.1.Moves i q txn batch) {user : Uuid} {role : Option Role}
    (hrole : batch.lookup (.member accountId user) = some role) :
    Permits (requests i).accountId (requests i).target members (.member accountId user) none
      role := by
  cases hmoves with
  | written k v hfree hrel =>
    obtain ⟨htxn, rfl⟩ := Db.mem_writeRow (mem_of_lookup hrole)
    rw [htxn] at hrole
    obtain rfl := Option.some.inj ((lookup_singleton_self _ v).symm.trans hrole)
    exact hrel _ hq
  | committed hcommit =>
    obtain ⟨t, ht, -⟩ := Db.mem_pendingRows (mem_of_lookup hrole)
    rw [ht] at hrole
    obtain ⟨members', hg', hpermits⟩ := hkept.pending i t user role ht hrole
    obtain rfl := Option.some.inj (hg'.symm.trans hg)
    exact hpermits
  | _ => cases hrole

/-- The list is read while nobody has taken the last owner away. -/
theorem Kept.list (hkept : Kept requests accountId c g) (hg : g i = none)
    (haccount : (requests i).accountId = accountId) {rows : List (Sigma MemberKey.Row)}
    (hstep : c.state.1.Step i (.scan (membersOf (requests i).accountId)) (.ok rows) db)
    (trace : List (Σ q, MemberAnswer q)) :
    SeenOwners (trace ++ [⟨.scan (membersOf (requests i).accountId), .ok rows⟩])
      (rows.filterMap asMember) := by
  obtain ⟨-, hrows, -⟩ := hstep.of_ok
  obtain rfl : membersOf (requests i).accountId (view c.state.1.rows (c.state.1.txns i)) = rows :=
    Except.ok.inj hrows
  refine ⟨nodup_membersOf _ _, ?_, _, _, List.mem_append_right _ (List.mem_singleton_self _), rfl⟩
  obtain ⟨user, howner⟩ := hkept.owned
  rw [haccount, hkept.idle i hg]
  obtain ⟨m, hm, -⟩ := mem_ownersOf_membersOf.mpr
    (show IsOwner (view c.state.1.rows none) accountId user from
      (lookup_view_none _ _).trans howner)
  exact ⟨m, hm⟩

/-- What a step has to keep for the session that takes it. -/
theorem Kept.apply (hkept : Kept requests accountId c g) {list : Option (List AccountMember)}
    {x : Σ q, MemberAnswer q} {progs : ℕ → MemberRequest Unit}
    (howned : ∃ user, IsOwner (batch ∪ c.state.1.rows) accountId user)
    (hidle : list = none → txn = none)
    (hseen : ∀ members, list = some members → (requests i).accountId = accountId →
      SeenOwners (Trace.of c.state.2 i ++ [x]) members)
    (hpending : ∀ t user role, txn = some t →
      t.pending.lookup (.member accountId user) = some role → ∃ members, list = some members ∧
        Permits (requests i).accountId (requests i).target members (.member accountId user) none
          role) :
    Kept requests accountId ⟨(c.state.1.apply i txn batch, c.state.2 ++ [(i, x)]), progs⟩
      (update g i list) := by
  refine ⟨howned, fun j hj => ?_, fun j members hj haccount => ?_, fun j t user role ht hrole => ?_⟩
  · by_cases hji : j = i
    · subst hji
      rw [update_self] at hj
      exact (Db.txns_apply_self ..).trans (hidle hj)
    · rw [update_of_ne hji] at hj
      exact (Db.txns_apply_ne _ _ _ hji).trans (hkept.idle j hj)
  · by_cases hji : j = i
    · subst hji
      rw [update_self] at hj
      rw [Trace.of_append_self]
      exact hseen members hj haccount
    · rw [update_of_ne hji] at hj
      rw [Trace.of_append_ne _ _ hji]
      exact hkept.seen j members hj haccount
  · by_cases hji : j = i
    · subst hji
      rw [update_self]
      exact hpending t user role ((Db.txns_apply_self ..).symm.trans ht) hrole
    · rw [update_of_ne hji]
      exact hkept.pending j t user role ((Db.txns_apply_ne _ _ _ hji).symm.trans ht) hrole

/-- A step keeps an owner, if it finds those that its request has seen. -/
theorem Kept.step (hkept : Kept requests accountId c g) {k : MemberAnswer q → MemberRequest Unit}
    {a : MemberAnswer q} {s : Db MemberKey.Row × Trace MemberAnswer}
    (hstill : StillOwners requests c i) (hprog : c.progs i = .call q k)
    (hallows : (rosterMonitor (requests i).accountId (requests i).target).allows (g i) q)
    (hstep : memberServer.traced.step i q c.state a s) :
    Kept requests accountId ⟨s, update c.progs i (k a)⟩ (update g i
      ((rosterMonitor (requests i).accountId (requests i).target).next (g i) q a)) := by
  obtain ⟨db, trace⟩ := s
  obtain ⟨hdb, htrace⟩ := hstep
  obtain rfl : trace = c.state.2 ++ [(i, ⟨q, a⟩)] := htrace
  rcases hg : g i with _ | members
  · -- the list is read: nothing is written and no transaction is open
    rw [hg] at hallows
    obtain rfl : q = .scan (membersOf (requests i).accountId) := hallows
    have hdb' : db = c.state.1.apply i none ∅ := by
      cases hdb with
      | done hfree => exact congrArg (c.state.1.apply i · ∅) (hkept.idle i hg)
      | failed | lost => rfl
    subst hdb'
    refine hkept.apply hkept.owned (fun _ => rfl) (fun members hmembers haccount => ?_)
      nofun
    rcases a with e | rows
    · cases hmembers
    · cases hmembers
      exact hkept.list hg haccount hdb _
  · -- a statement after the list
    rw [hg] at hallows
    obtain ⟨hq, -⟩ := hallows
    obtain ⟨txn, batch, rfl, hmoves⟩ := hdb.moves
    refine hkept.apply ?_ (nofun) (fun members' hmembers haccount => ?_)
      fun t user role ht hrole => ⟨members, rfl, ?_⟩
    · refine owner_of_permits (hkept.seen i members hg) hkept.owned
        (fun user role hrole haccount m hm => ?_) fun user role => hkept.permits hg hq hmoves
      obtain ⟨pick, rows, hread, rfl⟩ := (hkept.seen i members hg haccount).read
      have hlands := lands_of_mem hmoves (mem_of_lookup hrole)
      exact haccount ▸ hstill q k hprog hlands pick rows hread m hm
    · cases hmembers
      obtain ⟨hnodup, howner, pick, rows, hread, hrows⟩ := hkept.seen i members hg haccount
      exact ⟨hnodup, howner, pick, rows, List.mem_append_left _ hread, hrows⟩
    · subst ht
      rcases hmoves.pending_cases hq hrole with ⟨u, hu, hpending⟩ | hpermits
      · obtain ⟨members', hg', hpermits⟩ := hkept.pending i u user role hu hpending
        obtain rfl := Option.some.inj (hg'.symm.trans hg)
        exact hpermits
      · exact hpermits

theorem Kept.start (hidle : ∀ i, db.txns i = none)
    (howned : ∃ user, IsOwner db.rows accountId user) :
    Kept requests accountId (rosterStart db requests) fun _ => none where
  owned := howned
  idle i _ := hidle i
  seen _ _ h := nomatch h
  pending i t _ _ ht := by
    rw [show (rosterStart db requests).state.1.txns i = none from hidle i] at ht
    cases ht

/-- An account that has an owner keeps one in every run in which each change finds, when it
becomes visible, the owners that its request has seen. -/
theorem owner_remains {requests : ℕ → RosterRequest} {db : Db MemberKey.Row}
    (hidle : ∀ i, db.txns i = none) {accountId : Uuid}
    (howned : ∃ user, IsOwner db.rows accountId user) {c : RosterConfig}
    (h : Reach memberServer.traced (StillOwners requests) (rosterStart db requests) c) :
    ∃ user, IsOwner c.state.1.rows accountId user := by
  obtain ⟨g, hkept, -⟩ := Reach.invariant
    (fun i => rosterMonitor (requests i).accountId (requests i).target) (fun _ _ _ => True)
    (Kept requests accountId) (fun i => (requests i).obeys)
    (Kept.start hidle howned)
    (fun c g i q k a s' _ hstill hprog hallows hkept hstep =>
      hkept.step hstill hprog hallows hstep) h
  exact hkept.owned

/-! ## Two owners -/

/-- The condition, computed. -/
def stillOwners (requests : ℕ → RosterRequest) (c : RosterConfig) (i : ℕ) : Bool :=
  (Trace.of c.state.2 i).all fun
    | ⟨.scan _, .ok rows⟩ => (ownersOf (rows.filterMap asMember)).all fun m =>
        IsOwner c.state.1.rows (requests i).accountId m.userId
    | _ => true

theorem StillOwners.of_check
    (h : stillOwners requests c i = true) : StillOwners requests c i := by
  intro q k _ _ pick rows hread m hm
  have hrows := List.all_eq_true.mp h _ hread
  exact of_decide_eq_true (List.all_eq_true.mp hrows m hm)

/-- Outside transactions every statement is carried out at once. -/
def rosterServe (i : ℕ) : (q : Stmt MemberKey.Row) → Db MemberKey.Row × Trace MemberAnswer →
    Option (q.Answer × Db MemberKey.Row × Trace MemberAnswer)
  | .begin, _ => none
  | q, s =>
    let e := exec s.1.rows none q
    some (e.1, s.1.apply i none e.2.2, s.2 ++ [(i, ⟨q, e.1⟩)])

theorem rosterServe_step {a : q.Answer} {s s' : Db MemberKey.Row × Trace MemberAnswer}
    (hidle : ∀ j, s.1.txns j = none) (h : rosterServe i q s = some (a, s')) :
    memberServer.traced.step i q s a s' ∧ ∀ j, s'.1.txns j = none := by
  have hbegin : q ≠ .begin := by
    rintro rfl
    cases h
  have hserve : rosterServe i q s = some ((exec s.1.rows none q).1,
      s.1.apply i none (exec s.1.rows none q).2.2, s.2 ++ [(i, ⟨q, (exec s.1.rows none q).1⟩)]) := by
    cases q <;> first | rfl | exact absurd rfl hbegin
  rw [hserve] at h
  cases h
  have hdone : s.1.Step i q _ _ := .done fun k _ j t _ ht => by
    rw [hidle j] at ht
    cases ht
  rw [hidle i, exec_none_txn hbegin] at hdone
  refine ⟨⟨hdone, rfl⟩, fun j => ?_⟩
  by_cases hj : j = i
  · subst hj
    exact Db.txns_apply_self ..
  · exact (Db.txns_apply_ne _ _ _ hj).trans (hidle j)

def studio : Uuid := uuidOf 7

def ann : SessionContext := ⟨studio, uuidOf 1, .owner⟩

def ben : SessionContext := ⟨studio, uuidOf 2, .owner⟩

/-- An account with two owners. -/
def twoOwners : Db MemberKey.Row where
  rows := AList.insert (.member studio ben.userId) (some Role.owner)
    (AList.singleton (.member studio ann.userId) (some Role.owner))
  txns _ := none
  log := []

/-- Each of them makes the other a viewer. -/
def mutualDemotion : ℕ → RosterRequest
  | 0 => .change ann (some ben.userId) "Viewer"
  | 1 => .change ben (some ann.userId) "Viewer"
  | _ => .remove ann none

/-- The owners of the account. -/
def studioOwners (c : RosterConfig) : List AccountMember :=
  ownersOf ((membersOf studio c.state.1.rows).filterMap asMember)

/-- A request that finds the owners it has seen goes through, and one owner is left. -/
theorem owner_remains_studio : ∃ c, Reach memberServer.traced (StillOwners mutualDemotion)
    (rosterStart twoOwners mutualDemotion) c ∧ (studioOwners c).length = 1 ∧
    ∃ user, IsOwner c.state.1.rows studio user := by
  have hfollow : ((rosterStart twoOwners mutualDemotion).follow (stillOwners mutualDemotion)
      rosterServe [0, 0]).any (fun c => (studioOwners c).length == 1) = true := by
    decide
  obtain ⟨c, hc, hone⟩ := (Option.any_eq_true ..).mp hfollow
  have hreach := (Config.reach_of_follow StillOwners.of_check rosterServe_step
    (fun _ => rfl) hc).1
  refine ⟨c, hreach, by simpa using hone, ?_⟩
  exact owner_remains (fun _ => rfl) ⟨ann.userId, by decide⟩ hreach

/-- Both list two owners before either change is made. -/
theorem both_owners_demoted : (∃ user, IsOwner twoOwners.rows studio user) ∧
    ∃ c, Reach memberServer.traced (fun _ _ => True) (rosterStart twoOwners mutualDemotion) c ∧
      ¬∃ user, IsOwner c.state.1.rows studio user := by
  refine ⟨⟨ann.userId, by decide⟩, ?_⟩
  have hfollow : ((rosterStart twoOwners mutualDemotion).follow (fun _ _ => true)
      rosterServe [0, 1, 0, 1]).any (fun c => (studioOwners c).isEmpty) = true := by
    decide
  obtain ⟨c, hc, hnone⟩ := (Option.any_eq_true ..).mp hfollow
  have hreach := (Config.reach_of_follow (fun _ => trivial) rosterServe_step (fun _ => rfl) hc).1
  refine ⟨c, hreach, fun ⟨user, howner⟩ => ?_⟩
  obtain ⟨m, hm, -⟩ := mem_ownersOf_membersOf.mpr howner
  rw [show ownersOf ((membersOf studio c.state.1.rows).filterMap asMember) = [] from
    List.isEmpty_iff.mp hnone] at hm
  cases hm

end Embyr
