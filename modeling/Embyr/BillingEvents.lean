import Embyr.Credentials

/-!
# Stripe events

Deliveries of Stripe events (`admin/handlers/webhooks_stripe.rs`). A delivery first records the id
of its event; the one that finds it new applies the event, statement by statement, and the others
answer 200 at once.

* `stripeWebhookHandler` — a delivery.
* `WebhookEvent.effect` — what the two events about payments are for.
* `Carried` — the statements of a delivery that has done it in full; `Clean` — none of its
  statements failed.
* `handler_settles` — how a delivery ends, by what it has been answered.
-/

namespace Embyr

open Program Prog PrimaryKey List

/-! ## Events -/

/-- The types that are handled. -/
inductive EventType where
  | subscriptionUpdated
  | subscriptionDeleted
  | paymentFailed
  | paymentSucceeded
  | other (text : String)
  deriving DecidableEq

/-- What is read of `data.object`. -/
structure EventObject where
  id : Option String := none
  subscription : Option String := none
  /-- `next_payment_attempt` is not null -/
  nextPaymentAttempt : Bool := false
  status : Option String := none
  /-- `items.data[0].price.id` -/
  priceId : Option String := none
  deriving DecidableEq

/-- `WebhookEvent`. -/
structure WebhookEvent where
  id : String
  eventType : EventType
  object : EventObject
  deriving DecidableEq

def proPlanStripePriceId : String := "price_1U3IuADomd8yk6u5rAtzmWPt"

/-- A program that answers with a status. -/
abbrev StatusProg : Type := ControlProg Empty ℕ

/-- A statement that ends the delivery: 200, or 500 if it fails. -/
def lastStatement (s : SystemStmt) : StatusProg :=
  .call (.sql s) fun
    | .ok _ => .ok 200
    | .error _ => .ok 500

/-- `resolve_account_id`; a failure counts as no account. -/
def resolveAccountId (stripeSubscriptionId : String) : ControlProg Empty (Option Uuid) :=
  .call (.sql (.subscriptionAccount stripeSubscriptionId)) fun
    | .ok account => .ok account
    | .error _ => .ok none

/-- The projects of the account are moved, then the subscription is marked. -/
def moveThenMark (old new : ProjectStatus) (status : SubscriptionStatus)
    (stripeSubscriptionId : String) (accountId : Uuid) : StatusProg := do
  match ← (moveAccountProjects old new accountId).attempt with
  | .error code => return code
  | .ok _ => lastStatement (.setSubscriptionStatus stripeSubscriptionId status)

/-- What both events about payments do with the subscription they name. -/
def applyInvoice (old new : ProjectStatus) (status : SubscriptionStatus) (object : EventObject) :
    StatusProg :=
  match object.subscription with
  | none => .ok 200
  | some stripeSubscriptionId => do
    match ← resolveAccountId stripeSubscriptionId with
    | none => return 200
    | some accountId => moveThenMark old new status stripeSubscriptionId accountId

def isFinalFailure (object : EventObject) : Bool := !object.nextPaymentAttempt

/-- `handle_invoice_payment_failed`. -/
def handleInvoicePaymentFailed (event : WebhookEvent) : StatusProg :=
  if isFinalFailure event.object then applyInvoice .active .suspended .pastDue event.object
  else .ok 200

/-- `handle_invoice_payment_succeeded`. -/
def handleInvoicePaymentSucceeded (event : WebhookEvent) : StatusProg :=
  applyInvoice .suspended .active .active event.object

/-- `sync_subscription_updated`. -/
def syncSubscriptionUpdated (event : WebhookEvent) : StatusProg :=
  match event.object.id with
  | none => .ok 200
  | some id => lastStatement (.syncSubscription id (event.object.status.getD "active")
      (if event.object.priceId = some proPlanStripePriceId then some .pro else none))

/-- `sync_subscription_deleted`. -/
def syncSubscriptionDeleted (event : WebhookEvent) : StatusProg :=
  match event.object.id with
  | none => .ok 200
  | some id => lastStatement (.setSubscriptionStatus id .canceled)

/-- What is done for an event that is new. -/
def dispatch (event : WebhookEvent) : StatusProg :=
  match event.eventType with
  | .subscriptionUpdated => syncSubscriptionUpdated event
  | .subscriptionDeleted => syncSubscriptionDeleted event
  | .paymentFailed => handleInvoicePaymentFailed event
  | .paymentSucceeded => handleInvoicePaymentSucceeded event
  | .other _ => .ok 200

/-- `stripe_webhook_handler`. -/
def stripeWebhookHandler (event : WebhookEvent) : StatusProg :=
  .call (.sql (.recordEvent event.id)) fun
    | .ok rows => if rows = 0 then .ok 200 else dispatch event
    | .error _ => .ok 500

/-! ## What an event is for -/

/-- The projects with status `old` get `new`, and the subscription gets `status`. -/
structure InvoiceEffect where
  old : ProjectStatus
  new : ProjectStatus
  status : SubscriptionStatus
  subscription : String

/-- A final failure suspends and a success activates; other events are not about payments. -/
def WebhookEvent.effect (event : WebhookEvent) : Option InvoiceEffect :=
  match event.eventType, event.object.subscription with
  | .paymentFailed, some subscription =>
    if event.object.nextPaymentAttempt then none
    else some ⟨.active, .suspended, .pastDue, subscription⟩
  | .paymentSucceeded, some subscription => some ⟨.suspended, .active, .active, subscription⟩
  | _, _ => none

/-- What a delivery has been answered so far. -/
abbrev Answers : Type := List (Σ q, ControlCall.Answer q)

/-- No statement has failed, but for the one that records the event. -/
def Clean (h : Answers) : Prop :=
  ∀ s e, ⟨.sql s, .error e⟩ ∈ h → ∃ id, s = .recordEvent id

/-- Every project that was to be moved has been, and the subscription has been set. -/
def Carried (h : Answers) (effect : InvoiceEffect) : Prop :=
  ∃ accountId projectIds rows,
    ⟨.sql (.subscriptionAccount effect.subscription), .ok (some accountId)⟩ ∈ h ∧
    ⟨.sql (.projectsOf accountId effect.old), .ok projectIds⟩ ∈ h ∧
    (∀ id ∈ projectIds, ∃ n, ⟨.sql (.setStatus id effect.new), .ok n⟩ ∈ h) ∧
    ⟨.sql (.setSubscriptionStatus effect.subscription effect.status), .ok rows⟩ ∈ h

/-- A statement that fails spoils the history for good. -/
theorem not_clean_of_failed {s : SystemStmt} {e : String} {h : Answers}
    (hs : ∀ id, s ≠ .recordEvent id) (hmem : ⟨.sql s, .error e⟩ ∈ h) : ¬Clean h := by
  intro hclean
  obtain ⟨id, hid⟩ := hclean s e hmem
  exact hs id hid

/-! ## One delivery -/

section History

variable {h : Answers}

theorem mem_snoc (x : Σ q, ControlCall.Answer q) : x ∈ h ++ [x] :=
  mem_append_right h (mem_singleton_self x)

theorem setProjectStatus_history {ε : Type} (new : ProjectStatus) (id : String) :
    (setProjectStatus new id : ControlProg ε ℕ).Obeys (.history _)
      (fun h' x => (∃ n, x = .ok n) ∧ h ⊆ h' ∧
        (Clean h' → ∃ n, ⟨.sql (.setStatus id new), .ok n⟩ ∈ h')) h := by
  refine ⟨trivial, fun a => ?_⟩
  cases a with
  | error e =>
    refine ⟨⟨_, rfl⟩, subset_append_left .., fun hclean => ?_⟩
    exact absurd hclean (not_clean_of_failed (fun _ hs => by cases hs) (mem_snoc _))
  | ok rows =>
    have hdone : ⟨.sql (.setStatus id new), .ok rows⟩ ∈ h ++ [⟨.sql (.setStatus id new), .ok rows⟩] :=
      mem_snoc _
    dsimp only
    split_ifs
    · refine ⟨trivial, fun _ => ⟨⟨_, rfl⟩, ?_, fun _ => ⟨rows, ?_⟩⟩⟩
      · exact Subset.trans (subset_append_left ..) (subset_append_left ..)
      · exact mem_append_left _ hdone
    · exact ⟨⟨_, rfl⟩, subset_append_left .., fun _ => ⟨rows, hdone⟩⟩

-- The loop goes on whatever a turn answers, so a failed turn shows in the history only.
theorem setEachStatus_history {ε : Type} (new : ProjectStatus) (ids : List String) :
    (setEachStatus new ids : ControlProg ε ℕ).Obeys (.history _)
      (fun h' x => (∃ n, x = .ok n) ∧ h ⊆ h' ∧
        (Clean h' → ∀ id ∈ ids, ∃ n, ⟨.sql (.setStatus id new), .ok n⟩ ∈ h')) h := by
  induction ids generalizing h with
  | nil => exact ⟨⟨_, rfl⟩, Subset.refl _, nofun⟩
  | cons id ids ih =>
    refine (setProjectStatus_history new id).bind (fun h₁ status hturn => ?_) ?_
    · refine ih.bind (fun h₂ count hrest => ?_) ?_
      · obtain ⟨-, hsub, hset⟩ := hturn
        obtain ⟨-, hsub', hsets⟩ := hrest
        refine ⟨⟨_, rfl⟩, Subset.trans hsub hsub', fun hclean id' hid' => ?_⟩
        rcases mem_cons.mp hid' with rfl | hid'
        · have hbefore : Clean h₁ := fun s e he => hclean s e (hsub' he)
          obtain ⟨n, hn⟩ := hset hbefore
          exact ⟨n, hsub' hn⟩
        · exact hsets hclean id' hid'
      · rintro _ e ⟨⟨n, hn⟩, -⟩
        cases hn
    · rintro _ e ⟨⟨n, hn⟩, -⟩
      cases hn

theorem moveAccountProjects_history (old new : ProjectStatus) (accountId : Uuid) :
    (moveAccountProjects old new accountId).Obeys (.history _)
      (fun h' x => h ⊆ h' ∧ (Clean h' → (∃ n, x = .ok n) ∧
        ∃ ids, ⟨.sql (.projectsOf accountId old), .ok ids⟩ ∈ h' ∧
          ∀ id ∈ ids, ∃ n, ⟨.sql (.setStatus id new), .ok n⟩ ∈ h')) h := by
  refine ⟨trivial, fun a => ?_⟩
  cases a with
  | error e =>
    refine ⟨subset_append_left .., fun hclean => ?_⟩
    exact absurd hclean (not_clean_of_failed (fun _ hs => by cases hs) (mem_snoc _))
  | ok ids =>
    refine (setEachStatus_history new ids).mono fun h' x hloop => ?_
    obtain ⟨hok, hsub, hsets⟩ := hloop
    have hsub' := Subset.trans (subset_append_left ..) hsub
    exact ⟨hsub', fun hclean => ⟨hok, ids, hsub (mem_snoc _), hsets hclean⟩⟩

theorem lastStatement_history {s : SystemStmt} (hs : ∀ id, s ≠ .recordEvent id) :
    (lastStatement s).Obeys (.history _)
      (fun h' x => h ⊆ h' ∧ (Clean h' → x = .ok 200 ∧ ∃ r, ⟨.sql s, .ok r⟩ ∈ h')) h := by
  refine ⟨trivial, fun a => ?_⟩
  cases a with
  | error e =>
    refine ⟨subset_append_left .., fun hclean => ?_⟩
    exact absurd hclean (not_clean_of_failed hs (mem_snoc _))
  | ok r => exact ⟨subset_append_left .., fun _ => ⟨rfl, r, mem_snoc _⟩⟩

theorem moveThenMark_history (effect : InvoiceEffect) (accountId : Uuid)
    (haccount : ⟨.sql (.subscriptionAccount effect.subscription), .ok (some accountId)⟩ ∈ h) :
    (moveThenMark effect.old effect.new effect.status effect.subscription accountId).Obeys
      (.history _) (fun h' x => Clean h' → x = .ok 200 ∧ Carried h' effect) h := by
  refine obeys_bind.mpr (obeys_attempt.mpr ?_)
  refine (moveAccountProjects_history ..).mono fun h₁ moved hmoved => ?_
  obtain ⟨hsub, hlist⟩ := hmoved
  cases moved with
  | error code =>
    -- only a listing that failed ends here
    intro hclean
    obtain ⟨⟨n, hn⟩, -⟩ := hlist hclean
    cases hn
  | ok count =>
    refine (lastStatement_history (fun _ hs => by cases hs)).mono fun h₂ x hlast hclean => ?_
    obtain ⟨hsub', hset⟩ := hlast
    have hbefore : Clean h₁ := fun s e he => hclean s e (hsub' he)
    obtain ⟨-, ids, hids, hsets⟩ := hlist hbefore
    obtain ⟨hcode, rows, hrows⟩ := hset hclean
    refine ⟨hcode, accountId, ids, rows, hsub' (hsub haccount), hsub' hids, ?_, hrows⟩
    intro id hid
    obtain ⟨n, hn⟩ := hsets id hid
    exact ⟨n, hsub' hn⟩

/-- What a delivery that applies its event ends with. -/
def Applies (event : WebhookEvent) (h : Answers) (x : Except Empty ℕ) : Prop :=
  Clean h → x = .ok 200 ∧ ∀ effect, event.effect = some effect →
    Carried h effect ∨ ⟨.sql (.subscriptionAccount effect.subscription), .ok none⟩ ∈ h

theorem applyInvoice_history {event : WebhookEvent} (effect : InvoiceEffect)
    (heffect : event.effect = some effect)
    (hsubscription : event.object.subscription = some effect.subscription) :
    (applyInvoice effect.old effect.new effect.status event.object).Obeys (.history _)
      (Applies event) h := by
  rw [applyInvoice, hsubscription]
  refine ⟨trivial, fun a => ?_⟩
  cases a with
  | error e =>
    intro hclean
    exact absurd hclean (not_clean_of_failed (fun _ hs => by cases hs) (mem_snoc _))
  | ok account =>
    cases account with
    | none =>
      refine fun _ => ⟨rfl, fun effect' heffect' => .inr ?_⟩
      obtain rfl := Option.some.inj (heffect.symm.trans heffect')
      exact mem_snoc _
    | some accountId =>
      refine (moveThenMark_history effect accountId (mem_snoc _)).mono fun h' x hmoved hclean => ?_
      obtain ⟨hcode, hcarried⟩ := hmoved hclean
      refine ⟨hcode, fun effect' heffect' => .inl ?_⟩
      obtain rfl := Option.some.inj (heffect.symm.trans heffect')
      exact hcarried

/-- An event without an effect on projects is over when its one statement is. -/
theorem applies_of_lastStatement {event : WebhookEvent} (hnone : event.effect = none)
    {s : SystemStmt} (hs : ∀ id, s ≠ .recordEvent id) :
    (lastStatement s).Obeys (.history _) (Applies event) h := by
  refine (lastStatement_history hs).mono fun h' x hlast hclean => ?_
  exact ⟨(hlast.2 hclean).1, fun effect heffect => by rw [hnone] at heffect; cases heffect⟩

theorem applies_of_ignored {event : WebhookEvent} (hnone : event.effect = none) :
    (.ok 200 : StatusProg).Obeys (.history _) (Applies event) h :=
  fun _ => ⟨rfl, fun effect heffect => by rw [hnone] at heffect; cases heffect⟩

theorem dispatch_history (event : WebhookEvent) :
    (dispatch event).Obeys (.history _) (Applies event) h := by
  obtain ⟨id, eventType, objectId, subscription, nextPaymentAttempt, status, priceId⟩ := event
  cases eventType with
  | subscriptionUpdated =>
    cases objectId with
    | none => exact applies_of_ignored rfl
    | some objectId => exact applies_of_lastStatement rfl nofun
  | subscriptionDeleted =>
    cases objectId with
    | none => exact applies_of_ignored rfl
    | some objectId => exact applies_of_lastStatement rfl nofun
  | paymentFailed =>
    cases subscription with
    | none =>
      cases nextPaymentAttempt with
      | true | false => exact applies_of_ignored rfl
    | some subscription =>
      cases nextPaymentAttempt with
      | true => exact applies_of_ignored rfl
      | false => exact applyInvoice_history ⟨.active, .suspended, .pastDue, subscription⟩ rfl rfl
  | paymentSucceeded =>
    cases subscription with
    | none => exact applies_of_ignored rfl
    | some subscription =>
      exact applyInvoice_history ⟨.suspended, .active, .active, subscription⟩ rfl rfl
  | other text => exact applies_of_ignored rfl

/-- How a delivery ends: the record failed, the event was known, or it has been applied. -/
inductive Settles (event : WebhookEvent) (h : Answers) : Except Empty ℕ → Prop
  | unrecorded (e : String) (hfailed : ⟨.sql (.recordEvent event.id), .error e⟩ ∈ h) :
      Settles event h (.ok 500)
  | duplicate (hknown : ⟨.sql (.recordEvent event.id), .ok (0 : ℕ)⟩ ∈ h) :
      Settles event h (.ok 200)
  | applied (x : Except Empty ℕ) (hx : Applies event h x) : Settles event h x

end History

theorem handler_settles (event : WebhookEvent) :
    (stripeWebhookHandler event).Obeys (.history _) (Settles event) [] := by
  refine ⟨trivial, fun a => ?_⟩
  cases a with
  | error e => exact .unrecorded e (mem_snoc _)
  | ok rows =>
    dsimp only
    split_ifs with hrows
    · subst hrows
      exact .duplicate (mem_snoc _)
    · exact (dispatch_history event).mono fun h x hx => .applied x hx

end Embyr
