import Peerster.Bytes
import Peerster.Lib.FinMap
import Peerster.Lib.RWMutex
import Peerster.Lib.Run

/-!
# The registry of message callbacks

`registry/standard/standard.go`, with the messages of `registry/global.go`, which all registries of
a process share.  A handler is code of its own, and may process packets that it finds in its
message, so a call has with it the calls that its handler makes and how the handler ends.

`ProcessPacket` returns without giving back its read lock when a packet decodes and this registry
has no handler for it.  A lock that has lost a reader has lost it for good (`registration_hangs`),
and nothing else is wrong with the lock (`releases_iff_handled`).
-/

namespace Peerster

namespace Registry

/-- How a handler ends: with the error it returns, if any, or with a panic. -/
inductive Ending : Type
  | returns (err : Option GoString)
  | panics (value : GoString)

/-- A call, with what `json.Unmarshal` says of the payload, the calls that the handler makes, its
end, and whether the notification handlers are done in time.  `addGlobally` is a callback registered
with another registry of the process. -/
inductive Call (ε : Type) : Type
  | processPacket (msgType : GoString) (unmarshalError : Option GoString)
      (handler : List (Call ε)) (ending : Ending) (notified : Bool)
  | registerMessageCallback (name : GoString) (exec : ε)
  | addGlobally (name : GoString)

/-- A call returns, with its error, or waits for a lock forever. -/
inductive Result : Type
  | returns (err : Option GoString)
  | hangs
  deriving DecidableEq

end Registry

/-- `Registry` and the messages of the global registry. -/
structure Registry (ε : Type) where
  lock : RWMutex
  handlers : FinMap GoString ε
  messages : FinMap GoString Unit

namespace Registry

variable {ε : Type}

/-- What the first half of `ProcessPacket` leads to: its end, or the call of a handler. -/
inductive Lookup (ε : Type) : Type
  | done (r : Registry ε) (result : Result)
  | calls (r : Registry ε) (h : ε)

/-- `NewRegistry`, with what the global registry has by then. -/
def newRegistry (messages : FinMap GoString Unit) : Registry ε := ⟨.free, .empty, messages⟩

/-- `GetMessage` of the global registry, as far as its error. -/
def getMessage (r : Registry ε) (msgType : GoString) (unmarshalError : Option GoString) :
    Option GoString :=
  match r.messages.get msgType with
  | none => some (str "message not registered: " ++ msgType)
  | some _ => unmarshalError.map (str "failed to unmarshal payload: " ++ ·)

/-- `ProcessPacket`, up to the call of the handler. -/
def lookup (r : Registry ε) (msgType : GoString) (unmarshalError : Option GoString) : Lookup ε :=
  match r.getMessage msgType unmarshalError with
  | some err => .done r (.returns (some (str "failed to get message: " ++ err)))
  | none =>
      match r.lock.rLock with
      | none => .done r .hangs
      | some lock =>
          match r.handlers.get msgType with
          -- The early return: the lock is still held.
          | none => .done { r with lock := lock }
              (.returns (some (str "handler not found for " ++ msgType)))
          | some h => .calls { r with lock := lock.rUnlock } h

/-- What `ProcessPacket` returns once the handler has ended. -/
def answer (ending : Ending) (notified : Bool) : Option GoString :=
  match ending with
  | .returns (some err) => some (str "failed to call handler: " ++ err)
  | .panics value => some (str "failed to call handler: " ++ value)
  | .returns none =>
      if notified then none else some (str "notification handlers took too long")

/-- `RegisterMessageCallback`. -/
def registerMessageCallback (r : Registry ε) (name : GoString) (exec : ε) : Registry ε × Result :=
  let r := { r with messages := r.messages.add name () }
  match r.lock.lock with
  | (lock, false) => ({ r with lock := lock }, .hangs)
  | (lock, true) =>
      ({ r with lock := lock.unlock, handlers := r.handlers.add name exec }, .returns none)

mutual

/-- The registry after a call, and how the call ends. -/
def call : Registry ε → Call ε → Registry ε × Result
  | r, .processPacket msgType unmarshalError handler ending notified =>
      match r.lookup msgType unmarshalError with
      | .done r result => (r, result)
      | .calls r _ =>
          match callAll r handler with
          | (r, .hangs) => (r, .hangs)
          | (r, .returns _) => (r, .returns (answer ending notified))
  | r, .registerMessageCallback name exec => r.registerMessageCallback name exec
  | r, .addGlobally name => ({ r with messages := r.messages.add name () }, .returns none)

/-- The calls of a handler, one after the other; it looks at their errors or not. -/
def callAll : Registry ε → List (Call ε) → Registry ε × Result
  | r, [] => (r, .returns none)
  | r, c :: cs =>
      match call r c with
      | (r, .hangs) => (r, .hangs)
      | (r, .returns _) => callAll r cs

end

/-- The registry after a call. -/
def step (r : Registry ε) (c : Call ε) : Registry ε := (r.call c).1

mutual

/-- A property of a call, and of all the calls that handlers make in the course of it, each in the
state it is made in. -/
def Throughout (P : Registry ε → Call ε → Prop) : Registry ε → Call ε → Prop
  | r, .processPacket msgType unmarshalError handler ending notified =>
      P r (.processPacket msgType unmarshalError handler ending notified) ∧
        match r.lookup msgType unmarshalError with
        | .done _ _ => True
        | .calls r _ => ThroughoutAll P r handler
  | r, .registerMessageCallback name exec => P r (.registerMessageCallback name exec)
  | r, .addGlobally name => P r (.addGlobally name)

/-- The property of the calls of a handler, up to one that hangs. -/
def ThroughoutAll (P : Registry ε → Call ε → Prop) :
    Registry ε → List (Call ε) → Prop
  | _, [] => True
  | r, c :: cs =>
      Throughout P r c ∧
        match call r c with
        | (_, .hangs) => True
        | (r, .returns _) => ThroughoutAll P r cs

end

/-- A `ProcessPacket` that returns leaves the reader count as it was, and a
`RegisterMessageCallback` returns. -/
def Releases (r : Registry ε) : Call ε → Prop
  | .processPacket msgType unmarshalError handler ending notified =>
      (r.call (.processPacket msgType unmarshalError handler ending notified)).2 ≠ .hangs →
        (r.call (.processPacket msgType unmarshalError handler ending notified)).1.lock.readers =
          r.lock.readers
  | .registerMessageCallback name exec =>
      (r.call (.registerMessageCallback name exec)).2 ≠ .hangs
  | .addGlobally _ => True

/-- A packet that decodes has a handler in this registry. -/
def Handled (r : Registry ε) : Call ε → Prop
  | .processPacket msgType unmarshalError _ _ _ =>
      r.getMessage msgType unmarshalError = none → r.handlers.get msgType ≠ none
  | _ => True

/-! ## A free lock -/

section Free

variable {r : Registry ε}

/-- On a free lock the first half of `ProcessPacket` fails to decode, finds no handler and keeps the
lock, or calls one with the lock free again. -/
theorem lookup_of_free (msgType : GoString) (unmarshalError : Option GoString)
    (free : r.lock = .free) :
    (r.getMessage msgType unmarshalError ≠ none ∧
        ∃ err, r.lookup msgType unmarshalError = .done r (.returns err)) ∨
      (r.getMessage msgType unmarshalError = none ∧ r.handlers.get msgType = none ∧
        ∃ err, r.lookup msgType unmarshalError =
          .done { r with lock := ⟨1, false⟩ } (.returns err)) ∨
      (r.handlers.get msgType ≠ none ∧ ∃ h, r.lookup msgType unmarshalError = .calls r h) := by
  unfold lookup
  cases decoded : r.getMessage msgType unmarshalError with
  | some err => exact .inl ⟨Option.some_ne_none _, _, rfl⟩
  | none =>
      rw [free, RWMutex.rLock_free]
      dsimp only
      cases found : r.handlers.get msgType with
      | none => exact .inr (.inl ⟨rfl, rfl, _, rfl⟩)
      | some h =>
          refine .inr (.inr ⟨Option.some_ne_none _, h, ?_⟩)
          have same : (⟨1, false⟩ : RWMutex).rUnlock = r.lock := by rw [free]; rfl
          rw [same]

/-- A registration gets a free lock and leaves it free. -/
theorem registerMessageCallback_of_free (name : GoString) (exec : ε) (free : r.lock = .free) :
    (r.registerMessageCallback name exec).1.lock = .free ∧
      (r.registerMessageCallback name exec).2 ≠ .hangs := by
  simp only [registerMessageCallback, free, RWMutex.lock_free]
  exact ⟨rfl, Result.noConfusion⟩

/-- What `ProcessPacket` returns when the calls of its handler return. -/
theorem call_of_calls {r r' : Registry ε} {h : ε} {msgType : GoString}
    {unmarshalError : Option GoString} {handler : List (Call ε)} {ending : Ending} {notified : Bool}
    (looked : r.lookup msgType unmarshalError = .calls r' h)
    (returned : (r'.callAll handler).2 ≠ .hangs) :
    r.call (.processPacket msgType unmarshalError handler ending notified) =
      ((r'.callAll handler).1, .returns (answer ending notified)) := by
  simp only [call, looked]
  cases result : r'.callAll handler with
  | mk r'' result' =>
      cases result' with
      | hangs =>
          rw [result] at returned
          exact (returned rfl).elim
      | returns err => rfl

mutual

/-- From a free lock, the calls release exactly if every packet that decodes has a handler, and then
the lock is free again. -/
theorem call_spec : ∀ (c : Call ε) (r : Registry ε), r.lock = .free →
    (Throughout Releases r c ↔ Throughout Handled r c) ∧
      (Throughout Handled r c → (r.call c).1.lock = .free ∧ (r.call c).2 ≠ .hangs)
  | .processPacket msgType unmarshalError handler ending notified, r, free => by
      rcases lookup_of_free msgType unmarshalError free with
        ⟨refused, err, looked⟩ | ⟨decoded, missing, err, looked⟩ | ⟨there, h, looked⟩
      · simp only [Throughout, Releases, Handled, call, looked]
        exact ⟨⟨fun _ => ⟨fun decoded => (refused decoded).elim, trivial⟩,
          fun _ => ⟨fun _ => trivial, trivial⟩⟩, fun _ => ⟨free, Result.noConfusion⟩⟩
      · simp only [Throughout, Releases, Handled, call, looked, free]
        refine ⟨⟨fun released => ?_, fun handled => (handled.1 decoded missing).elim⟩,
          fun handled => (handled.1 decoded missing).elim⟩
        exact absurd (released.1 Result.noConfusion) (by decide)
      · obtain ⟨same, after⟩ := callAll_spec handler r free
        simp only [Throughout, Releases, Handled, call, looked, same]
        have returned : ThroughoutAll Handled r handler →
            r.call (.processPacket msgType unmarshalError handler ending notified) =
              ((r.callAll handler).1, .returns (answer ending notified)) :=
          fun handled => call_of_calls looked (after handled).2
        simp only [call, looked] at returned
        refine ⟨⟨fun all => ⟨fun _ => there, all.2⟩, fun all => ⟨fun _ => ?_, all.2⟩⟩,
          fun all => ?_⟩
        · rw [returned all.2, (after all.2).1, free]
        · rw [returned all.2]
          exact ⟨(after all.2).1, Result.noConfusion⟩
  | .registerMessageCallback name exec, r, free => by
      have registered := registerMessageCallback_of_free name exec free
      simp only [Throughout, Releases, Handled, call]
      exact ⟨⟨fun _ => trivial, fun _ => registered.2⟩, fun _ => registered⟩
  | .addGlobally name, r, free => by
      simp only [Throughout, Releases, Handled, call]
      exact ⟨trivial, fun _ => ⟨free, Result.noConfusion⟩⟩

theorem callAll_spec : ∀ (cs : List (Call ε)) (r : Registry ε), r.lock = .free →
    (ThroughoutAll Releases r cs ↔ ThroughoutAll Handled r cs) ∧
      (ThroughoutAll Handled r cs → (r.callAll cs).1.lock = .free ∧ (r.callAll cs).2 ≠ .hangs)
  | [], r, free => by
      simp only [ThroughoutAll, callAll]
      exact ⟨trivial, fun _ => ⟨free, Result.noConfusion⟩⟩
  | c :: cs, r, free => by
      obtain ⟨same, after⟩ := call_spec c r free
      simp only [ThroughoutAll, callAll, same]
      have rest := fun free' => callAll_spec cs (r.call c).1 free'
      cases result : r.call c with
      | mk r' result' =>
          rw [result] at after rest
          cases result' with
          | hangs =>
              have handled : ¬ Throughout Handled r c := fun all => (after all).2 rfl
              exact ⟨Iff.rfl, fun all => (handled all.1).elim⟩
          | returns err =>
              dsimp only at after rest ⊢
              constructor
              · exact and_congr_right fun all => (rest (after all).1).1
              · intro all
                exact (rest (after all.1).1).2 all.2

end

end Free

/-! ## A lost reader -/

theorem readers_le_registerMessageCallback (r : Registry ε) (name : GoString) (exec : ε) :
    r.lock.readers ≤ (r.registerMessageCallback name exec).1.lock.readers := by
  simp only [registerMessageCallback]
  split <;>
  · next entered =>
    have same : _ = r.lock.readers := congrArg (fun m => m.1.readers) entered.symm
    exact same.ge

/-- The first half of `ProcessPacket` gives back the readers it adds, or keeps one. -/
theorem readers_le_lookup (r : Registry ε) (msgType : GoString) (unmarshalError : Option GoString) :
    match r.lookup msgType unmarshalError with
    | .done r' _ => r.lock.readers ≤ r'.lock.readers
    | .calls r' _ => r'.lock = r.lock := by
  unfold lookup
  cases r.getMessage msgType unmarshalError with
  | some err => exact le_rfl
  | none =>
      cases entered : r.lock.rLock with
      | none => exact le_rfl
      | some lock =>
          cases r.handlers.get msgType with
          | none =>
              dsimp only
              rw [RWMutex.readers_of_rLock entered]
              exact Nat.le_succ _
          | some h => exact RWMutex.rUnlock_of_rLock entered

mutual

/-- No call removes a reader that was there before it. -/
theorem readers_le_call : ∀ (c : Call ε) (r : Registry ε),
    r.lock.readers ≤ (r.call c).1.lock.readers
  | .processPacket msgType unmarshalError handler ending notified, r => by
      have first := readers_le_lookup r msgType unmarshalError
      simp only [call]
      cases looked : r.lookup msgType unmarshalError with
      | done r' result =>
          rw [looked] at first
          exact first
      | calls r' h =>
          rw [looked] at first
          have nested := readers_le_callAll handler r'
          rw [first] at nested
          dsimp only
          split
          · next hung => rwa [hung] at nested
          · next returned => rwa [returned] at nested
  | .registerMessageCallback name exec, r => by
      simp only [call]
      exact readers_le_registerMessageCallback r name exec
  | .addGlobally name, r => by
      simp only [call]
      exact le_rfl

theorem readers_le_callAll : ∀ (cs : List (Call ε)) (r : Registry ε),
    r.lock.readers ≤ (r.callAll cs).1.lock.readers
  | [], r => by
      simp only [callAll]
      exact le_rfl
  | c :: cs, r => by
      have first := readers_le_call c r
      simp only [callAll]
      split
      · next hung => rwa [hung] at first
      · next returned =>
        rw [returned] at first
        exact first.trans (readers_le_callAll cs _)

end

/-- Once a reader is lost, every registration waits forever. -/
theorem registration_hangs {r : Registry ε} (lost : r.lock.readers ≠ 0)
    (calls : List (Call ε)) (name : GoString) (exec : ε) :
    ((Run.run step r calls).registerMessageCallback name exec).2 = .hangs := by
  have still : (Run.run step r calls).lock.readers ≠ 0 := by
    refine Run.run_invariant (I := fun r : Registry ε => r.lock.readers ≠ 0) lost
      (fun r c lost => ?_) calls
    have le := readers_le_call c r
    have here : (step r c).lock.readers = (r.call c).1.lock.readers := rfl
    omega
  have waits := RWMutex.lock_waits still
  simp only [registerMessageCallback]
  split
  · rfl
  · next entered =>
    rw [entered] at waits
    cases waits

/-! ## Runs -/

/-- **The registry lock.**  In a run of calls on a new registry, every `ProcessPacket`, nested ones
included, leaves the reader count as it was and every registration returns, if and only if every
packet that decodes has a handler when it is processed. -/
theorem releases_iff_handled (messages : FinMap GoString Unit) (calls : List (Call ε)) :
    Run.Always step (Throughout Releases) (newRegistry messages) calls ↔
      Run.Always step (Throughout Handled) (newRegistry messages) calls := by
  refine Run.always_congr (I := fun r : Registry ε => r.lock = .free) rfl
    (fun r c free => (call_spec c r free).1) fun r c free handled => ?_
  exact ((call_spec c r free).2 handled).1

/-- The messages that `init` adds to the global registry. -/
def initialMessages : FinMap GoString Unit :=
  ([str "chat", str "ack", str "empty", str "status", str "rumor", str "private"]).foldl
    (fun messages name => messages.add name ()) .empty

/-- A chat message before its callback is registered: the reader stays, and the registration waits
forever. -/
theorem early_packet_keeps_lock :
    let early : Call Unit := .processPacket (str "chat") none [] (.returns none) true
    (step (newRegistry initialMessages) early).lock.readers = 1 ∧
      ((step (newRegistry initialMessages) early).call
        (.registerMessageCallback (str "chat") ())).2 = .hangs ∧
      ¬ Run.Always step (Throughout Releases) (newRegistry initialMessages)
        [early, .registerMessageCallback (str "chat") ()] := by
  intro early
  have kept : (step (newRegistry initialMessages) early).lock.readers = 1 := by decide +kernel
  have hung : ((step (newRegistry initialMessages) early).call
      (.registerMessageCallback (str "chat") ())).2 = .hangs := by decide +kernel
  refine ⟨kept, hung, ?_⟩
  rintro ⟨-, registered, -⟩
  exact registered hung

end Registry

end Peerster
