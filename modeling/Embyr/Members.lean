import Embyr.Storage

/-!
# Members of an account

Roles and the check of `core/admin/rbac.rs`, and the requests of `admin/handlers/members.rs` that
change or remove a member.

* `checkRbac` — who may do what, given the members of the account.
* `MemberKey` — the rows these requests read and write.
* `changeMemberRole`, `removeMember` — the requests: the members are read, the check is made, and
  a later statement writes.
-/

namespace Embyr

open Program ReadCommitted List

/-! ## Roles -/

inductive Role where
  | viewer
  | admin
  | owner
  deriving DecidableEq

/-- The order of the variants. -/
def Role.rank : Role → ℕ
  | viewer => 0
  | admin => 1
  | owner => 2

instance : LT Role := ⟨fun a b => a.rank < b.rank⟩

instance (a b : Role) : Decidable (a < b) := inferInstanceAs (Decidable (a.rank < b.rank))

theorem Role.lt_owner_iff {role : Role} : role < .owner ↔ role ≠ .owner := by
  cases role <;> decide

/-- `parse_role`. -/
def parseRole : String → Option Role
  | "Owner" => some .owner
  | "Admin" => some .admin
  | "Viewer" => some .viewer
  | _ => none

/-- What the check looks at of an `AccountMember`. -/
structure AccountMember where
  userId : Uuid
  role : Role

inductive RbacAction where
  | removeMember (targetId : Uuid)
  | changeMemberRole (targetId : Uuid) (newRole : Role)
  | createAdminKey (requestedRole : Role)
  | deleteServiceAccount

inductive RbacError where
  | insufficientRole (actor required : Role)
  | lastOwner
  | adminCannotModifyOwner
  | roleEscalation (actor requested : Role)

/-- The owners of a list of members. -/
def ownersOf (members : List AccountMember) : List AccountMember :=
  members.filter fun m => m.role = .owner

/-- Taking the role of an owner away, from the target if it is one. -/
def checkOwner (actorRole : Role) (targetId : Uuid) (members : List AccountMember)
    (demotes : Bool) : Except RbacError Unit :=
  match members.find? fun m => m.userId = targetId with
  | some target =>
    if target.role = .owner then
      if actorRole < .owner then .error .adminCannotModifyOwner
      else if demotes ∧ (ownersOf members).length ≤ 1 then .error .lastOwner
      else .ok ()
    else .ok ()
  | none => .ok ()

/-- `check_rbac`. -/
def checkRbac (action : RbacAction) (actorRole : Role) (members : List AccountMember) :
    Except RbacError Unit :=
  if actorRole < .admin then .error (.insufficientRole actorRole .admin)
  else match action with
    | .removeMember targetId => checkOwner actorRole targetId members true
    | .changeMemberRole targetId newRole =>
      if actorRole < newRole then .error (.roleEscalation actorRole newRole)
      else checkOwner actorRole targetId members (newRole < .owner)
    | .createAdminKey requestedRole =>
      if actorRole < requestedRole then .error (.roleEscalation actorRole requestedRole)
      else .ok ()
    | .deleteServiceAccount => .ok ()

/-! ## Rows -/

/-- The row of `account_members` for a user of an account, and the sessions and the keys of that
user, each taken together. -/
inductive MemberKey where
  | member (accountId userId : Uuid)
  | sessions (accountId userId : Uuid)
  | adminKeys (accountId userId : Uuid)
  deriving DecidableEq

/-- A role, `none` once the row has been deleted; whether the sessions have expired; whether the
keys have been revoked. -/
abbrev MemberKey.Row : MemberKey → Type
  | .member _ _ => Option Role
  | .sessions _ _ | .adminKeys _ _ => Bool

/-- A statement and its answer. -/
abbrev MemberAnswer (q : Stmt MemberKey.Row) : Type := q.Answer

/-- The answer of a request that fails. -/
structure HttpError where
  status : ℕ
  message : Option String := none
  deriving DecidableEq

abbrev MemberRequest (R : Type) : Type := Prog MemberAnswer HttpError R

/-- A statement of the pool or of a transaction. -/
def memberSql (q : Stmt MemberKey.Row) : MemberRequest q.Result :=
  .call q fun
    | .ok r => .ok r
    | .error _ => .error ⟨500, none⟩

/-- `SELECT user_id, role FROM account_members WHERE account_id = $1`. -/
def membersOf (accountId : Uuid) (rows : AList MemberKey.Row) : List (Sigma MemberKey.Row) :=
  rows.entries.filter fun
    | ⟨.member account _, _⟩ => account = accountId
    | _ => false

def asMember : Sigma MemberKey.Row → Option AccountMember
  | ⟨.member _ userId, role⟩ => Option.map (⟨userId, ·⟩) role
  | ⟨.sessions _ _, _⟩ | ⟨.adminKeys _ _, _⟩ => none

/-- `load_account_members`. -/
def loadAccountMembers (accountId : Uuid) : MemberRequest (List AccountMember) := do
  let rows ← memberSql (.scan (membersOf accountId))
  return rows.filterMap asMember

/-- `SessionContext`. -/
structure SessionContext where
  accountId : Uuid
  userId : Uuid
  role : Role

/-- There is a row for the user. -/
def isMember (role : Option Role) : Bool := role.isSome

/-- `UPDATE account_members SET role = $1 WHERE user_id = $2 AND account_id = $3`. -/
def updateRole (accountId userId : Uuid) (newRole : Role) : Stmt MemberKey.Row :=
  .update (.member accountId userId) isMember fun _ => some newRole

/-- `DELETE FROM account_members WHERE user_id = $1 AND account_id = $2`. -/
def deleteMember (accountId userId : Uuid) : Stmt MemberKey.Row :=
  .update (.member accountId userId) isMember fun _ => none

/-! ## Requests -/

/-- `change_member_role`; `memberId` is what `Uuid::parse_str` makes of the path. -/
def changeMemberRole (session : SessionContext) (memberId : Option Uuid) (role : String) :
    MemberRequest Unit :=
  if session.role < .admin then .error ⟨403, none⟩
  else match memberId with
    | none => .error ⟨404, none⟩
    | some targetId =>
      match parseRole role with
      | none => .error ⟨422, none⟩
      | some newRole => do
        let members ← loadAccountMembers session.accountId
        match checkRbac (.changeMemberRole targetId newRole) session.role members with
        | .error _ => .error ⟨403, none⟩
        | .ok () =>
          match ← memberSql (updateRole session.accountId targetId newRole) with
          | some _ => return ()
          | none => .error ⟨404, none⟩

def lastOwnerMessage : String := "Transfer ownership before removing the last Owner."

/-- The statements of the transaction of `remove_member`. -/
def removeCascade (accountId targetId : Uuid) : MemberRequest Unit := do
  let _ ← memberSql (.update (.sessions accountId targetId) (fun _ => true) fun _ => true)
  let _ ← memberSql (.update (.adminKeys accountId targetId) (fun revoked => !revoked) fun _ => true)
  let _ ← memberSql (deleteMember accountId targetId)
  return ()

/-- A transaction that is dropped on the way out with an error is rolled back. -/
def memberTransaction (body : MemberRequest Unit) : MemberRequest Unit := do
  let _ ← memberSql .begin
  match ← body.attempt with
  | .ok () =>
    let _ ← memberSql .commit
    return ()
  | .error e => .call .rollback fun _ => .error e

/-- `remove_member`. -/
def removeMember (session : SessionContext) (memberId : Option Uuid) : MemberRequest Unit :=
  if session.role < .admin then .error ⟨403, none⟩
  else match memberId with
    | none => .error ⟨404, none⟩
    | some targetId => do
      let members ← loadAccountMembers session.accountId
      match checkRbac (.removeMember targetId) session.role members with
      | .error .lastOwner => .error ⟨409, some lastOwnerMessage⟩
      | .error _ => .error ⟨403, none⟩
      | .ok () => memberTransaction (removeCascade session.accountId targetId)

/-- The requests that change who is a member, and as what. -/
inductive RosterRequest where
  | change (session : SessionContext) (memberId : Option Uuid) (role : String)
  | remove (session : SessionContext) (memberId : Option Uuid)

def RosterRequest.program : RosterRequest → MemberRequest Unit
  | change session memberId role => changeMemberRole session memberId role
  | remove session memberId => removeMember session memberId

/-- The account of a request. -/
def RosterRequest.accountId : RosterRequest → Uuid
  | change session _ _ | remove session _ => session.accountId

/-- The database that the requests share. -/
def memberServer : Machine MemberAnswer (Db MemberKey.Row) := ⟨fun i q db a db' => db.Step i q a db'⟩

/-! ## What the check guarantees -/

theorem mem_ownersOf {members : List AccountMember} {m : AccountMember} :
    m ∈ ownersOf members ↔ m ∈ members ∧ m.role = .owner := by
  simp [ownersOf]

/-- The check lets the only owner neither be removed nor given another role. -/
theorem exists_owner_of_checkOwner {actorRole : Role} {targetId : Uuid}
    {members : List AccountMember} (hnodup : (members.map AccountMember.userId).Nodup)
    (h : checkOwner actorRole targetId members true = .ok ()) {m : AccountMember}
    (hm : m ∈ ownersOf members) : ∃ m' ∈ ownersOf members, m'.userId ≠ targetId := by
  by_cases htarget : m.userId = targetId
  · subst htarget
    obtain ⟨hmem, hrole⟩ := mem_ownersOf.mp hm
    -- the target is found, and it is an owner
    have hfind : members.find? (fun m' => m'.userId = m.userId) = some m := by
      rw [find?_eq_some_iff_append]
      obtain ⟨before, after, rfl⟩ := append_of_mem hmem
      refine ⟨by simp, before, after, rfl, fun m' hm' => ?_⟩
      rw [map_append, nodup_append] at hnodup
      have hne := hnodup.2.2 m'.userId (mem_map_of_mem hm') m.userId
        (mem_map_of_mem mem_cons_self)
      simpa using hne
    rw [checkOwner, hfind] at h
    simp only [hrole, if_true] at h
    split_ifs at h with hactor hcount
    -- so there are two
    have htwo : 1 < (ownersOf members).length := by simpa using hcount
    have hnodup' : ((ownersOf members).map AccountMember.userId).Nodup :=
      hnodup.sublist (filter_sublist.map _)
    by_contra hall
    push Not at hall
    have hsame : (ownersOf members).map AccountMember.userId =
        replicate (ownersOf members).length m.userId := by
      rw [eq_replicate_iff]
      refine ⟨length_map .., fun user huser => ?_⟩
      obtain ⟨m', hm', rfl⟩ := mem_map.mp huser
      exact hall m' hm'
    rw [hsame, nodup_replicate] at hnodup'
    omega
  · exact ⟨m, hm, htarget⟩

/-- A list of members names no user twice. -/
theorem nodup_membersOf (accountId : Uuid) (rows : AList MemberKey.Row) :
    (((membersOf accountId rows).filterMap asMember).map AccountMember.userId).Nodup := by
  have hkeys : ((membersOf accountId rows).map Sigma.fst).Nodup :=
    NodupKeys.sublist filter_sublist rows.nodupKeys
  have haccount : ∀ x ∈ membersOf accountId rows, ∀ m, asMember x = some m →
      x.1 = .member accountId m.userId := by
    intro x hx m hm
    obtain ⟨k, v⟩ := x
    cases k with
    | member account user =>
      obtain rfl : account = accountId := by simpa using (mem_filter.mp hx).2
      obtain ⟨role, -, rfl⟩ := Option.map_eq_some_iff.mp hm
      rfl
    | sessions account user => cases hm
    | adminKeys account user => cases hm
  generalize membersOf accountId rows = entries at hkeys haccount
  induction entries with
  | nil => exact nodup_nil
  | cons x entries ih =>
    obtain ⟨hx, hkeys⟩ := nodup_cons.mp hkeys
    obtain ⟨hx', haccount⟩ := forall_mem_cons.mp haccount
    have hrest := ih hkeys haccount
    rcases hm : asMember x with _ | m
    · rw [filterMap_cons_none hm]
      exact hrest
    · rw [filterMap_cons_some hm, map_cons, nodup_cons]
      refine ⟨fun hmem => hx ?_, hrest⟩
      obtain ⟨m', hm', huser⟩ := mem_map.mp hmem
      obtain ⟨x', hx'', hm''⟩ := mem_filterMap.mp hm'
      rw [hx' m hm, ← huser, ← haccount x' hx'' m' hm'']
      exact mem_map_of_mem hx''

end Embyr
