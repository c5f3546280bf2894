import Peerster.Transfer

/-!
# Retried data requests

All tries of a call send the same packet, and a peer that has answered a request ignores every other
copy of it.  So there is at most one reply, and a call for which the conditions are good from some
delivery on returns the data exactly if that reply is not lost (`returns_data_iff`).
-/

namespace Peerster.DataSharing

open Gossip (sampleSend)

namespace Transfer

/-! ## Where the reply is -/

/-- The replies in flight. -/
def flying (t : Transfer) : Nat := t.inFlight.countP fun p => p.2.isReply

/-- The replies in flight and in the channel. -/
def pending (t : Transfer) (call : Call) : Nat :=
  t.flying + (t.held call).toList.length

/-- The call has returned data. -/
def taken (t : Transfer) : Nat :=
  match t.phase with
  | .returned (.ok _) => 1
  | _ => 0

/-- All replies that have not got lost. -/
def replies (t : Transfer) (call : Call) : Nat := t.pending call + t.taken

/-- The peer has answered the request. -/
def Handled (t : Transfer) (call : Call) : Prop :=
  (t.responder.handledDataRequests.get call.requestID).isSome

/-- The call has returned an error. -/
def Failed (t : Transfer) : Prop := ∃ err, t.phase = .returned (.error err)

/-- The event is the loss of a reply. -/
def losesReply (t : Transfer) : Event → Bool
  | .lose i => t.inFlight[i]?.any fun p => p.2.isReply
  | _ => false

/-- What is true throughout a call for a key of which the peer has the value: every reply has the
value, no other data is returned, and as long as the call goes on its channel is there. -/
structure Valued (call : Call) (value : Bytes) (t : Transfer) : Prop where
  blob : t.responder.blobStore.get call.key = some value
  route : (t.responder.routingTable.get call.address).isSome
  packets : ∀ p ∈ t.inFlight,
    p.2 = call.packet ∨ p.2.msg = .reply ⟨call.requestID, call.key, some value⟩
  channel : ∀ reply ∈ t.held call, reply = ⟨call.requestID, call.key, some value⟩
  registered : (∀ result, t.phase ≠ .returned result) →
    (t.dataReplyChan.get call.requestID).isSome
  result : ∀ data, t.phase = .returned (.ok data) → data = value

/-- Besides, there is at most one reply, and none before the request is handled. -/
structure Consistent (call : Call) (value : Bytes) (t : Transfer) : Prop extends
    Valued call value t where
  once : t.replies call ≤ 1
  unhandled : ¬ t.Handled call → t.replies call = 0

/-- What an event does to the reply. -/
inductive Effect (call : Call) (t : Transfer) (e : Event) (t' : Transfer) : Prop
  | unchanged (same : t'.Handled call ↔ t.Handled call) (replies : t'.replies call = t.replies call)
      (safe : t.losesReply e = false)
  | answered (new : ¬ t.Handled call) (handled : t'.Handled call)
      (replies : t'.replies call = t.replies call + 1) (safe : t.losesReply e = false)
  | lost (same : t'.Handled call ↔ t.Handled call) (loses : t.losesReply e = true)
      (replies : t'.replies call + 1 = t.replies call)
  | late (same : t'.Handled call ↔ t.Handled call) (failed : t'.Failed)
      (replies : t'.replies call ≤ t.replies call) (safe : t.losesReply e = false)

section Events

variable {call : Call} {value : Bytes} {t : Transfer}

theorem countP_eraseIdx {α : Type} (p : α → Bool) {l : List α} {i : Nat} {a : α}
    (found : l[i]? = some a) : (l.eraseIdx i).countP p + (if p a then 1 else 0) = l.countP p := by
  obtain ⟨inside, rfl⟩ := List.getElem?_eq_some_iff.mp found
  rw [← (List.getElem_cons_eraseIdx_perm inside).countP_eq p, List.countP_cons]

/-- The peer answers a request that it has not handled, if it can. -/
theorem handleDataRequestMessage_cases (r : Responder) (c : Gossip.SendChoice) (source : GoString)
    (msg : DataRequest) :
    (∃ result, r.handleDataRequestMessage c source msg = (r, result) ∧
        (∀ reply, result ≠ .ok (some reply)) ∧
        ((r.handledDataRequests.get msg.requestID).isSome ∨ c.marshalError ≠ none ∨
          (r.routingTable.get source).isSome = false ∨ c.sendError ≠ none)) ∨
      (r.handledDataRequests.get msg.requestID).isSome = false ∧
        ∃ header, r.handleDataRequestMessage c source msg =
          ({ r with handledDataRequests := r.handledDataRequests.add msg.requestID source },
            .ok (some ⟨header, .reply ⟨msg.requestID, msg.key, r.blobStore.get msg.key⟩⟩)) := by
  unfold Responder.handleDataRequestMessage
  cases known : (r.handledDataRequests.get msg.requestID).isSome with
  | true => exact .inl ⟨_, rfl, by simp, .inl rfl⟩
  | false =>
      simp only [Bool.false_eq_true, if_false]
      cases marshal : c.marshalError with
      | some err => exact .inl ⟨_, rfl, by simp, by simp⟩
      | none =>
          cases route : r.routingTable.get source with
          | none => exact .inl ⟨_, rfl, by simp, by simp⟩
          | some hop =>
              cases send : c.sendError with
              | some err => exact .inl ⟨_, rfl, by simp, by simp⟩
              | none => exact .inr ⟨trivial, _, rfl⟩

theorem flying_post (t : Transfer) (pkt : DataPacket) :
    (t.post pkt).flying = t.flying + if pkt.isReply then 1 else 0 := by
  rw [flying, post, List.countP_append, List.countP_singleton, flying]

/-- Taking a packet from the network. -/
theorem flying_eraseIdx {i : Nat} {p : Nat × DataPacket} (found : t.inFlight[i]? = some p) :
    ({ t with inFlight := t.inFlight.eraseIdx i } : Transfer).flying +
      (if p.2.isReply then 1 else 0) = t.flying :=
  countP_eraseIdx _ found

theorem held_finish (t : Transfer) (call : Call) (result : Except GoString Bytes) :
    (t.finish call result).held call = none := by
  rw [held, finish, FinMap.get_remove, if_pos rfl]
  rfl

theorem replies_finish (t : Transfer) (call : Call) (result : Except GoString Bytes) :
    (t.finish call result).replies call = t.flying + if result.isOk then 1 else 0 := by
  rw [replies, pending, held_finish]
  cases result <;> rfl

/-- A call that ends with an error leaves a reply unread, if there is one. -/
theorem effect_finish_error {e : Event} (err : GoString) (safe : t.losesReply e = false) :
    Effect call t e (t.finish call (.error err)) := by
  refine .late Iff.rfl ⟨err, rfl⟩ ?_ safe
  rw [replies_finish, replies, pending]
  exact Nat.le_trans (Nat.le_add_right _ _) (Nat.le_add_right _ _)

theorem effect_send (t : Transfer) (call : Call) (err : Option GoString) :
    Effect call t (.send err) (t.step call (.send err)) := by
  unfold step
  cases phase : t.phase with
  | waiting retries => exact .unchanged Iff.rfl rfl rfl
  | returned result => exact .unchanged Iff.rfl rfl rfl
  | sending retries =>
      dsimp only
      split
      · cases err with
        | some err => exact effect_finish_error err rfl
        | none =>
            refine .unchanged Iff.rfl ?_ rfl
            rw [replies, pending, flying_post, replies, taken, taken, phase]
            rfl
      · exact effect_finish_error _ rfl

theorem effect_receive (consistent : Consistent call value t) :
    Effect call t .receive (t.step call .receive) := by
  unfold step
  cases phase : t.phase with
  | sending retries => exact .unchanged Iff.rfl rfl rfl
  | returned result => exact .unchanged Iff.rfl rfl rfl
  | waiting retries =>
      cases reply : t.held call with
      | none => exact .unchanged Iff.rfl rfl rfl
      | some dataReply =>
          have known := consistent.channel dataReply reply
          subst known
          simp only [if_true]
          refine .unchanged Iff.rfl ?_ rfl
          rw [replies_finish, replies, pending, reply, taken, phase]
          rfl

theorem effect_timeout (t : Transfer) (call : Call) :
    Effect call t .timeout (t.step call .timeout) := by
  unfold step
  cases phase : t.phase with
  | waiting retries =>
      refine .unchanged Iff.rfl ?_ rfl
      rw [replies, replies, taken, taken, phase]
      rfl
  | _ => exact .unchanged Iff.rfl rfl rfl

theorem effect_lose (t : Transfer) (call : Call) (i : Nat) :
    Effect call t (.lose i) (t.step call (.lose i)) := by
  cases found : t.inFlight[i]? with
  | none =>
      have same : t.step call (.lose i) = t := by
        rw [step, List.eraseIdx_of_length_le (List.getElem?_eq_none_iff.mp found)]
      rw [same]
      refine .unchanged Iff.rfl rfl ?_
      rw [losesReply, found]
      rfl
  | some p =>
      have fewer := flying_eraseIdx found
      have loses : t.losesReply (.lose i) = p.2.isReply := by
        rw [losesReply, found]
        rfl
      have replies' : (t.step call (.lose i)).replies call + (if p.2.isReply then 1 else 0) =
          t.replies call := by
        rw [replies, pending, replies, pending, ← fewer]
        simp only [step, held, taken]
        omega
      cases reply : p.2.isReply with
      | true =>
          rw [reply] at replies' loses
          exact .lost Iff.rfl loses replies'
      | false =>
          rw [reply] at replies' loses
          exact .unchanged Iff.rfl replies' loses

/-- Delivering the request: it is answered, or nothing happens. -/
theorem effect_deliver_request {i number : Nat} (c : Gossip.SendChoice)
    (found : t.inFlight[i]? = some (number, call.packet)) :
    Effect call t (.deliver i c) (t.step call (.deliver i c)) := by
  have same := flying_eraseIdx found
  simp only [step, found, handle, Call.packet]
  rcases handleDataRequestMessage_cases t.responder c call.address ⟨call.requestID, call.key⟩ with
    ⟨result, handled, silent, _⟩ | ⟨new, header, handled⟩
  · have kept : Effect call t (.deliver i c) { t with inFlight := t.inFlight.eraseIdx i } := by
      refine .unchanged Iff.rfl ?_ rfl
      rw [replies, pending, replies, pending, ← same]
      rfl
    rw [handled]
    cases result with
    | error err => exact kept
    | ok sent =>
        cases sent with
        | none => exact kept
        | some reply => exact (silent reply rfl).elim
  · rw [handled]
    refine .answered (by rw [Handled, new]; exact Bool.false_ne_true) ?_ ?_ rfl
    · rw [Handled]
      simp only [post, FinMap.get_add_self, Option.isSome_some]
    · rw [replies, pending, flying_post, replies, pending, ← same]
      simp only [DataPacket.isReply, Call.packet, held, taken, post, flying, if_true,
        Bool.false_eq_true, if_false]
      omega

/-- Delivering a reply: it is put in the channel, unless the call has failed. -/
theorem effect_deliver_reply (consistent : Consistent call value t) {i : Nat}
    {p : Nat × DataPacket} (c : Gossip.SendChoice) (found : t.inFlight[i]? = some p)
    (reply : p.2.msg = .reply ⟨call.requestID, call.key, some value⟩) :
    Effect call t (.deliver i c) (t.step call (.deliver i c)) := by
  have isReply : p.2.isReply = true := by
    rw [DataPacket.isReply, reply]
  have fewer := flying_eraseIdx found
  rw [isReply, if_pos rfl] at fewer
  have once := consistent.once
  rw [replies, pending, ← fewer] at once
  simp only [step, found, handle, reply, handleDataReplyMessage]
  cases channel : t.dataReplyChan.get call.requestID with
  | none =>
      -- the channel has been removed, and not because a reply came
      have returned : ∃ result, t.phase = .returned result := by
        by_contra going
        have registered := consistent.registered (not_exists.mp going)
        rw [channel] at registered
        cases registered
      obtain ⟨result, phase⟩ := returned
      have failed : t.Failed := by
        cases result with
        | error err => exact ⟨err, phase⟩
        | ok data =>
            rw [taken, phase] at once
            dsimp only at once
            omega
      refine .late Iff.rfl failed ?_ rfl
      rw [replies, pending, replies, pending, ← fewer]
      simp only [held, channel, taken, flying]
      omega
  | some buffer =>
      cases buffer with
      | some first =>
          have full : t.held call = some first := by
            rw [held, channel]
            rfl
          rw [full, Option.toList_some, List.length_singleton] at once
          omega
      | none =>
          refine .unchanged Iff.rfl ?_ rfl
          rw [replies, pending, replies, pending, ← fewer]
          simp only [held, channel, FinMap.get_add_self, taken, flying]
          rfl

theorem step_effect (consistent : Consistent call value t) (e : Event) :
    Effect call t e (t.step call e) := by
  cases e with
  | send err => exact effect_send t call err
  | receive => exact effect_receive consistent
  | timeout => exact effect_timeout t call
  | lose i => exact effect_lose t call i
  | deliver i c =>
      cases found : t.inFlight[i]? with
      | none =>
          rw [step, found]
          exact .unchanged Iff.rfl rfl rfl
      | some p =>
          obtain ⟨number, pkt⟩ := p
          rcases consistent.packets _ (List.mem_of_getElem? found) with request | reply
          · cases request
            exact effect_deliver_request c found
          · exact effect_deliver_reply consistent c found reply

/-! ## What stays true -/

theorem Valued.finish (valued : Valued call value t) {result : Except GoString Bytes}
    (right : ∀ data, result = .ok data → data = value) :
    Valued call value (t.finish call result) where
  blob := valued.blob
  route := valued.route
  packets := valued.packets
  channel := by
    rw [held_finish]
    intro reply none
    cases none
  registered := by
    intro going
    exact (going result rfl).elim
  result := by
    intro data phase
    cases phase
    exact right data rfl

theorem Valued.post (valued : Valued call value t) {pkt : DataPacket}
    (known : pkt = call.packet ∨ pkt.msg = .reply ⟨call.requestID, call.key, some value⟩) :
    Valued call value (t.post pkt) where
  blob := valued.blob
  route := valued.route
  packets := by
    intro p mem
    rcases List.mem_append.mp mem with before | new
    · exact valued.packets p before
    · rw [List.mem_singleton.mp new]
      exact known
  channel := valued.channel
  registered := valued.registered
  result := valued.result

theorem Valued.take (valued : Valued call value t) (i : Nat) :
    Valued call value { t with inFlight := t.inFlight.eraseIdx i } where
  blob := valued.blob
  route := valued.route
  packets p mem := valued.packets p (List.mem_of_mem_eraseIdx mem)
  channel := valued.channel
  registered := valued.registered
  result := valued.result

/-- The call goes from one place to another. -/
theorem Valued.move (valued : Valued call value t) (going : ∀ result, t.phase ≠ .returned result)
    {phase : Phase} (stays : ∀ result, phase ≠ .returned result) :
    Valued call value { t with phase := phase } where
  blob := valued.blob
  route := valued.route
  packets := valued.packets
  channel := valued.channel
  registered _ := valued.registered going
  result _ returned := (stays _ returned).elim

/-- The reply is taken from the channel. -/
theorem Valued.empty (valued : Valued call value t) :
    Valued call value { t with dataReplyChan := t.dataReplyChan.add call.requestID none } where
  blob := valued.blob
  route := valued.route
  packets := valued.packets
  channel := by
    intro dataReply mem
    simp only [held, FinMap.get_add_self] at mem
    cases mem
  registered _ := by simp only [FinMap.get_add_self, Option.isSome_some]
  result := valued.result

theorem Valued.deliver (valued : Valued call value t) (c : Gossip.SendChoice) {pkt : DataPacket}
    (known : pkt = call.packet ∨ pkt.msg = .reply ⟨call.requestID, call.key, some value⟩) :
    Valued call value (t.handle c pkt) := by
  rcases known with rfl | reply
  · simp only [handle, Call.packet]
    rcases handleDataRequestMessage_cases t.responder c call.address ⟨call.requestID, call.key⟩ with
      ⟨result, handled, silent, _⟩ | ⟨new, header, handled⟩
    · rw [handled]
      cases result with
      | error err => exact valued
      | ok sent =>
          cases sent with
          | none => exact valued
          | some reply => exact (silent reply rfl).elim
    · rw [handled, valued.blob]
      refine Valued.post ?_ (.inr rfl)
      exact ⟨valued.blob, valued.route, valued.packets, valued.channel, valued.registered,
        valued.result⟩
  · simp only [handle, reply, handleDataReplyMessage]
    cases channel : t.dataReplyChan.get call.requestID with
    | none => exact valued
    | some buffer =>
        cases buffer with
        | some first => exact valued
        | none =>
            refine ⟨valued.blob, valued.route, valued.packets, ?_, fun _ => ?_, valued.result⟩
            · intro dataReply mem
              simp only [held, FinMap.get_add_self] at mem
              cases mem
              rfl
            · simp only [FinMap.get_add_self, Option.isSome_some]

theorem Valued.step (valued : Valued call value t) (e : Event) :
    Valued call value (t.step call e) := by
  cases e with
  | send err =>
      unfold Transfer.step
      cases phase : t.phase with
      | sending retries =>
          dsimp only
          split
          · cases err with
            | some err => exact valued.finish (by simp)
            | none => exact (valued.move (by simp [phase]) (by simp)).post (.inl rfl)
          · exact valued.finish (by simp)
      | _ => exact valued
  | receive =>
      unfold Transfer.step
      cases phase : t.phase with
      | waiting retries =>
          cases reply : t.held call with
          | none => exact valued
          | some dataReply =>
              have known := valued.channel dataReply reply
              subst known
              simp only [if_true]
              exact valued.empty.finish (by simp)
      | _ => exact valued
  | timeout =>
      unfold Transfer.step
      cases phase : t.phase with
      | waiting retries => exact valued.move (by simp [phase]) (by simp)
      | _ => exact valued
  | deliver i c =>
      cases found : t.inFlight[i]? with
      | none =>
          rw [Transfer.step, found]
          exact valued
      | some p =>
          rw [Transfer.step, found]
          exact (valued.take i).deliver c (valued.packets p (List.mem_of_getElem? found))
  | lose i => exact valued.take i

theorem Consistent.step (consistent : Consistent call value t) (e : Event) :
    Consistent call value (t.step call e) := by
  have once := consistent.once
  refine ⟨consistent.toValued.step e, ?_, ?_⟩
  · cases step_effect consistent e with
    | answered new handled replies safe =>
        have none := consistent.unhandled new
        omega
    | _ => omega
  · intro new
    cases step_effect consistent e with
    | unchanged same replies safe =>
        rw [replies]
        exact consistent.unhandled (mt same.mpr new)
    | answered before handled replies safe => exact (new handled).elim
    | lost same loses replies =>
        have none := consistent.unhandled (mt same.mpr new)
        omega
    | late same failed replies safe =>
        have none := consistent.unhandled (mt same.mpr new)
        omega

/-! ## Runs -/

/-- The call has not given up: it waits for a reply, or has another try. -/
def Waiting (t : Transfer) (call : Call) : Prop :=
  match t.phase with
  | .sending retries => (retries : Int) < maxRetries call.retry
  | .waiting _ => True
  | .returned _ => False

/-- No packet with the number or a greater one is lost, nor does sending fail; and a reply that is
on its way comes before the timeout. -/
def Favourable (call : Call) (number : Nat) (t : Transfer) : Event → Prop
  | .send err => err = none
  | .receive => True
  | .timeout => t.pending call = 0
  | .deliver _ c => c.marshalError = none ∧ c.sendError = none
  | .lose i => ∀ p ∈ t.inFlight[i]?, p.1 < number

/-- The packet at index `i` is a copy of the request, which is delivered while the call waits; what
happens then is favourable, and in the end the call returns. -/
structure Delivered (call : Call) (t : Transfer) (i : Nat) (c : Gossip.SendChoice)
    (rest : List Event) : Prop where
  copy : ∃ number, t.inFlight[i]? = some (number, call.packet)
  waiting : t.Waiting call
  sends : c.marshalError = none ∧ c.sendError = none
  favourable : Run.Always (step call) (Favourable call t.sent) (t.step call (.deliver i c)) rest
  returns : ∃ result, (Run.run (step call) t (.deliver i c :: rest)).phase = .returned result

theorem step_of_returned {result : Except GoString Bytes} (returned : t.phase = .returned result)
    (e : Event) : (t.step call e).phase = .returned result := by
  cases e with
  | deliver i c =>
      rw [phase_deliver]
      exact returned
  | lose i => exact returned
  | _ =>
      rw [step, returned]
      exact returned

/-- The request is answered, and the reply is lost. -/
def Gone (call : Call) (value : Bytes) (t : Transfer) : Prop :=
  Consistent call value t ∧ t.Handled call ∧ t.replies call = 0

theorem gone_step (gone : Gone call value t) (e : Event) : Gone call value (t.step call e) := by
  obtain ⟨consistent, handled, none⟩ := gone
  refine ⟨consistent.step e, ?_⟩
  cases step_effect consistent e with
  | answered new => exact (new handled).elim
  | unchanged same replies => exact ⟨same.mpr handled, by omega⟩
  | lost same loses replies => exact ⟨same.mpr handled, by omega⟩
  | late same failed replies => exact ⟨same.mpr handled, by omega⟩

theorem gone_of_loses (consistent : Consistent call value t) {e : Event}
    (loses : t.losesReply e = true) : Gone call value (t.step call e) := by
  refine ⟨consistent.step e, ?_⟩
  have once := consistent.once
  cases step_effect consistent e with
  | lost same _ replies =>
      refine ⟨same.mpr ?_, by omega⟩
      by_contra new
      have none := consistent.unhandled new
      omega
  | unchanged same replies safe =>
      rw [safe] at loses
      cases loses
  | answered new handled replies safe =>
      rw [safe] at loses
      cases loses
  | late same failed replies safe =>
      rw [safe] at loses
      cases loses

/-- After a reply has been lost, there is none. -/
theorem gone_of_lost (consistent : Consistent call value t) (es : List Event)
    (lost : ¬ Run.Always (step call) (fun t e => t.losesReply e = false) t es) :
    Gone call value (Run.run (step call) t es) := by
  induction es generalizing t with
  | nil => exact (lost trivial).elim
  | cons e es ih =>
      cases loses : t.losesReply e with
      | false => exact ih (consistent.step e) fun always => lost ⟨loses, always⟩
      | true =>
          exact Run.run_invariant (gone_of_loses consistent loses)
            (fun _ e gone => gone_step gone e) es

/-- The request is answered, and its reply is somewhere, unless the call has failed. -/
def Answered (call : Call) (value : Bytes) (t : Transfer) : Prop :=
  Consistent call value t ∧ (t.Handled call → t.replies call = 1 ∨ t.Failed)

theorem answered_step (answered : Answered call value t) {e : Event}
    (safe : t.losesReply e = false) : Answered call value (t.step call e) := by
  obtain ⟨consistent, here⟩ := answered
  refine ⟨consistent.step e, fun handled => ?_⟩
  cases step_effect consistent e with
  | late same failed => exact .inr failed
  | lost same loses =>
      rw [safe] at loses
      cases loses
  | answered new _ replies =>
      left
      rw [replies, consistent.unhandled new]
  | unchanged same replies =>
      rcases here (same.mp handled) with one | ⟨err, failed⟩
      · left
        rw [replies, one]
      · exact .inr ⟨err, step_of_returned failed e⟩

/-- The reply is somewhere, and the call waits for it or has it. -/
def Underway (call : Call) (value : Bytes) (t : Transfer) : Prop :=
  Consistent call value t ∧ t.Handled call ∧ t.replies call = 1 ∧ (t.Waiting call ∨ t.taken = 1)

theorem waiting_step (valued : Valued call value t) (waiting : t.Waiting call)
    (on_way : t.pending call ≠ 0) {number : Nat} {e : Event}
    (favourable : Favourable call number t e) :
    (t.step call e).Waiting call ∨ (t.step call e).taken = 1 := by
  cases e with
  | deliver i c =>
      left
      rw [Waiting, phase_deliver]
      exact waiting
  | lose i => exact .inl waiting
  | timeout => exact (on_way favourable).elim
  | send err =>
      cases favourable
      unfold Waiting at waiting
      unfold step
      cases phase : t.phase with
      | sending retries =>
          rw [phase] at waiting
          dsimp only at waiting ⊢
          rw [if_pos waiting]
          exact .inl trivial
      | waiting retries =>
          left
          simp only [Waiting, phase]
      | returned result =>
          rw [phase] at waiting
          exact waiting.elim
  | receive =>
      unfold step
      cases phase : t.phase with
      | waiting retries =>
          cases reply : t.held call with
          | none =>
              left
              simp only [Waiting, phase]
          | some dataReply =>
              have known := valued.channel dataReply reply
              subst known
              simp only [if_true]
              exact .inr rfl
      | _ => exact .inl waiting

theorem not_failed (going : t.Waiting call ∨ t.taken = 1) : ¬ t.Failed := by
  rintro ⟨err, failed⟩
  rw [Waiting, taken, failed] at going
  rcases going with waiting | taken
  · exact waiting
  · cases taken

theorem taken_eq_one (taken : t.taken = 1) : ∃ data, t.phase = .returned (.ok data) := by
  unfold Transfer.taken at taken
  split at taken
  · next data phase => exact ⟨data, phase⟩
  · cases taken

theorem pending_of_waiting (waiting : t.Waiting call) (one : t.replies call = 1) :
    t.pending call = 1 := by
  rw [replies, taken] at one
  split at one
  · next data phase =>
    rw [Waiting, phase] at waiting
    exact waiting.elim
  · exact one

theorem underway_step (underway : Underway call value t) {number : Nat} {e : Event}
    (favourable : Favourable call number t e) (safe : t.losesReply e = false) :
    Underway call value (t.step call e) := by
  obtain ⟨consistent, handled, one, going⟩ := underway
  have next : (t.step call e).Waiting call ∨ (t.step call e).taken = 1 := by
    rcases going with waiting | taken
    · refine waiting_step consistent.toValued waiting ?_ favourable
      rw [pending_of_waiting waiting one]
      exact Nat.one_ne_zero
    · obtain ⟨data, phase⟩ := taken_eq_one taken
      right
      rw [Transfer.taken, step_of_returned phase]
  refine ⟨consistent.step e, ?_⟩
  cases step_effect consistent e with
  | unchanged same replies => exact ⟨same.mpr handled, replies.trans one, next⟩
  | answered new => exact (new handled).elim
  | lost same loses =>
      rw [safe] at loses
      cases loses
  | late same failed => exact (not_failed next failed).elim

/-! ## The call -/

/-- The peer has handled the request once a copy has been delivered, if it can send. -/
theorem handled_deliver (valued : Valued call value t) {i number : Nat} {c : Gossip.SendChoice}
    (found : t.inFlight[i]? = some (number, call.packet))
    (sends : c.marshalError = none ∧ c.sendError = none) :
    (t.step call (.deliver i c)).Handled call := by
  simp only [step, found, handle, Call.packet]
  rcases handleDataRequestMessage_cases t.responder c call.address ⟨call.requestID, call.key⟩ with
    ⟨result, silent, none, known | marshal | route | send⟩ | ⟨new, header, answer⟩
  · rw [silent]
    cases result with
    | error err => exact known
    | ok sent =>
        cases sent with
        | none => exact known
        | some reply => exact (none reply rfl).elim
  · exact (marshal sends.1).elim
  · rw [valued.route] at route
    cases route
  · exact (send sends.2).elim
  · rw [answer, Handled]
    simp only [post, FinMap.get_add_self, Option.isSome_some]

theorem consistent_start {responder : Responder} (dataReplyChan : ReplyChannels)
    (blob : responder.blobStore.get call.key = some value)
    (route : (responder.routingTable.get call.address).isSome) :
    Consistent call value (start call dataReplyChan responder) := by
  have waiting : Valued call value
      ⟨.sending 0, dataReplyChan.add call.requestID none, responder, [], 0⟩ := by
    refine ⟨blob, route, by simp, ?_, fun _ => ?_, by simp⟩
    · simp [held]
    · simp
  have none : (start call dataReplyChan responder).replies call = 0 := by
    unfold start
    cases call.marshalError with
    | some err => exact replies_finish _ _ _
    | none =>
        cases call.nextHop with
        | none => exact replies_finish _ _ _
        | some hop => simp [replies, pending, flying, held, taken]
  refine ⟨?_, none.le.trans (Nat.zero_le 1), fun _ => none⟩
  unfold start
  cases call.marshalError with
  | some err => exact waiting.finish (by simp)
  | none =>
      cases call.nextHop with
      | none => exact waiting.finish (by simp)
      | some hop => exact waiting

theorem handled_start (call : Call) (dataReplyChan : ReplyChannels) (responder : Responder) :
    (start call dataReplyChan responder).Handled call ↔
      (responder.handledDataRequests.get call.requestID).isSome := by
  unfold start
  cases call.marshalError with
  | some err => exact Iff.rfl
  | none => cases call.nextHop <;> exact Iff.rfl

/-- From the delivery on, the reply is somewhere and the call has not given up. -/
theorem underway_deliver {i : Nat} {c : Gossip.SendChoice} {rest : List Event}
    (answered : Answered call value t) (delivered : Delivered call t i c rest)
    (safe : t.losesReply (.deliver i c) = false) :
    Underway call value (t.step call (.deliver i c)) := by
  obtain ⟨number, copy⟩ := delivered.copy
  have handled := handled_deliver answered.1.toValued copy delivered.sends
  have going : (t.step call (.deliver i c)).Waiting call := by
    rw [Waiting, phase_deliver]
    exact delivered.waiting
  obtain ⟨consistent, here⟩ := answered_step answered safe
  rcases here handled with one | failed
  · exact ⟨consistent, handled, one, .inl going⟩
  · exact (not_failed (.inl going) failed).elim

/-- A call for data that the peer has, of whose request a copy is delivered while it waits, returns
the data if what happens then is favourable, exactly if no reply is lost, before or after. -/
theorem returns_data_iff {responder : Responder} (dataReplyChan : ReplyChannels)
    (blob : responder.blobStore.get call.key = some value)
    (route : (responder.routingTable.get call.address).isSome)
    (new : responder.handledDataRequests.get call.requestID = none)
    {before rest : List Event} {i : Nat} {c : Gossip.SendChoice}
    (delivered : Delivered call (Run.run (step call) (start call dataReplyChan responder) before)
      i c rest) :
    (Run.run (step call) (start call dataReplyChan responder)
        (before ++ .deliver i c :: rest)).phase = .returned (.ok value) ↔
      Run.Always (step call) (fun t e => t.losesReply e = false)
        (start call dataReplyChan responder) (before ++ .deliver i c :: rest) := by
  have consistent := consistent_start dataReplyChan blob route
  constructor
  · intro returned
    by_contra lost
    obtain ⟨_, _, none⟩ := gone_of_lost consistent _ lost
    rw [replies, taken, returned] at none
    cases none
  · intro safe
    obtain ⟨first, safe, later⟩ := Run.always_append.mp safe
    have answered : Answered call value
        (Run.run (step call) (start call dataReplyChan responder) before) := by
      refine first.run_invariant ⟨consistent, fun handled => ?_⟩
        fun t e answered safe => answered_step answered safe
      rw [handled_start, new] at handled
      cases handled
    have underway : Underway call value (Run.run (step call)
        (start call dataReplyChan responder) (before ++ .deliver i c :: rest)) := by
      rw [Run.run_append, Run.run_cons]
      exact (delivered.favourable.and later).run_invariant
        (underway_deliver answered delivered safe)
        fun t e underway both => underway_step underway both.1 both.2
    obtain ⟨result, returns⟩ := delivered.returns
    rw [← Run.run_append] at returns
    obtain ⟨consistent, _, _, going | taken⟩ := underway
    · rw [Waiting, returns] at going
      exact going.elim
    · obtain ⟨data, phase⟩ := taken_eq_one taken
      rw [phase, consistent.result data phase]

end Events

/-! ## A call with two tries -/

def sampleCall : Call where
  address := str "127.0.0.1:1"
  retry := 2
  requestID := str "request"
  packetID := str "packet"
  key := hexEncode digestA.1
  destPeer := str "127.0.0.1:2"
  marshalError := none
  nextHop := some (str "127.0.0.1:2")

/-- A peer that has the metafile and the first chunk. -/
def sampleResponder : Responder where
  address := str "127.0.0.1:2"
  routingTable := FinMap.empty.add (str "127.0.0.1:1") (str "127.0.0.1:1")
  blobStore := partialStore.store
  handledDataRequests := .empty

/-- The first request is lost, the second answered. -/
def lostRequest : List Event := [.send none, .lose 0, .timeout, .send none]

/-- The first request is answered, and the reply is lost; then there is a second request. -/
def lostReply : List Event := [.send none, .deliver 0 sampleSend, .lose 0, .timeout, .send none]

theorem delivered_lostRequest :
    Delivered sampleCall
      (Run.run (step sampleCall) (start sampleCall .empty sampleResponder) lostRequest) 0 sampleSend
      [.deliver 0 sampleSend, .receive] where
  copy := ⟨1, by decide +kernel⟩
  waiting := by
    have phase : (Run.run (step sampleCall) (start sampleCall .empty sampleResponder)
        lostRequest).phase = .waiting 1 := by decide +kernel
    rw [Waiting, phase]
    trivial
  sends := ⟨rfl, rfl⟩
  favourable := ⟨⟨rfl, rfl⟩, trivial, trivial⟩
  returns := ⟨.ok (str "aaa"), by decide +kernel⟩

/-- The loss of a request is made up for. -/
theorem returns_data_lostRequest :
    (Run.run (step sampleCall) (start sampleCall .empty sampleResponder)
        (lostRequest ++ .deliver 0 sampleSend :: [.deliver 0 sampleSend, .receive])).phase =
      .returned (.ok (str "aaa")) :=
  (returns_data_iff .empty (by decide +kernel) (by decide +kernel) (by decide +kernel)
    delivered_lostRequest).mpr (by decide +kernel)

/-- The loss of a reply is not: the second request reaches the peer while the call waits, nothing is
lost from then on, and still the call fails. -/
theorem unanswered_lostReply :
    Delivered sampleCall
        (Run.run (step sampleCall) (start sampleCall .empty sampleResponder) lostReply) 0 sampleSend
        [.timeout, .send none] ∧
      (Run.run (step sampleCall) (start sampleCall .empty sampleResponder)
        (lostReply ++ .deliver 0 sampleSend :: [.timeout, .send none])).phase ≠
        .returned (.ok (str "aaa")) := by
  refine ⟨⟨⟨2, by decide +kernel⟩, ?_, ⟨rfl, rfl⟩, ⟨?_, rfl, trivial⟩,
    ⟨.error (str "timeout waiting for DataReplyMessage for key " ++ sampleCall.key), ?_⟩⟩,
    by decide +kernel⟩
  · have phase : (Run.run (step sampleCall) (start sampleCall .empty sampleResponder)
        lostReply).phase = .waiting 1 := by decide +kernel
    rw [Waiting, phase]
    trivial
  · show pending _ _ = 0
    decide +kernel
  · decide +kernel

end Transfer

end Peerster.DataSharing
