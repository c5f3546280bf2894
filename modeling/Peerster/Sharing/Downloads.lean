import Peerster.Sharing.Network

/-!
# Downloads in a network

A call of `Download` goes on load by load while everything else goes on too: the nodes gossip,
search, upload and download, and the peers that the loads ask are picked at random from catalogs
that change.  Without anything in between it is the `download` of one node (`run_download`).

When each peer that the node asks answers with what it has, a download of an uploaded file returns
the file, whichever peers are picked, as soon as each of its keys is in the store or has a peer
listed; and then the node has all of the file itself, to be downloaded from there
(`downloads_file`).  An answer with false data would cost the node a peer, also when another load
has asked for it.
-/

namespace Peerster.Sharing

open DataSharing (Surroundings Exchange State Catalog hashKey upload load supply setAll uploadWrites
  uploadBlobs splitIntoChunks splitMetafile joinMetafile CollisionFree sendDataRequest download
  loadChunks)
open Search (Compile)

/-- Where a call of `Download` is: before the metafile, before some of the chunks, or done. -/
inductive Phase : Type
  | metafile
  | chunks (keys : List GoString)
  | returned (result : Except GoString Bytes)

/-- A call of `Download`: the node, the argument, and what has been loaded. -/
structure Session where
  address : GoString
  metahash : GoString
  phase : Phase
  loaded : List Bytes

/-- What happens next: the call loads what it needs next, or something else happens. -/
inductive Move : Type
  | load (retry : UInt64) (x : Exchange)
  | other (action : Action)

namespace Session

/-- The call begins. -/
def start (address metahash : GoString) : Session := ⟨address, metahash, .metafile, []⟩

/-- The call goes on with the chunks that are left; when there are none it returns the chunks, put
together. -/
def goOn (s : Session) (keys : List GoString) (loaded : List Bytes) : Session :=
  match keys with
  | [] => { s with phase := .returned (.ok (loaded.drop 1).flatten), loaded }
  | key :: keys => { s with phase := .chunks (key :: keys), loaded }

/-- The node of the call after a load. -/
def put (net : Search.Network) (s : Session) (st : State) : Search.Network :=
  { net with
    nodes := Function.update net.nodes s.address
      { net.nodes s.address with blobStore := st.blobStore, catalog := st.catalog } }

/-- One load of the call. -/
def load (sha256 : Sha256) (net : Search.Network) (s : Session) (retry : UInt64) (x : Exchange) :
    Search.Network × Session :=
  let env := surroundings sha256 retry x
  let st := (net.nodes s.address).downloadState
  match s.phase with
  | .metafile =>
      match DataSharing.load env (str "Failed to fetch metafile ") 0 st s.metahash with
      | (st, .error err) => (s.put net st, { s with phase := .returned (.error err) })
      | (st, .ok metafileContent) =>
          (s.put net st, s.goOn (splitMetafile metafileContent) [metafileContent])
  | .chunks (key :: keys) =>
      match DataSharing.load env (str "failed to fetch chunk ") 0 st key with
      | (st, .error err) => (s.put net st, { s with phase := .returned (.error err) })
      | (st, .ok chunk) => (s.put net st, s.goOn keys (s.loaded ++ [chunk]))
  | .chunks [] | .returned _ => (net, s)

/-- One move. -/
def step (compile : Compile) (sha256 : Sha256) :
    Search.Network × Session → Move → Search.Network × Session
  | (net, s), .load retry x => s.load sha256 net retry x
  | (net, s), .other action => (Sharing.step compile sha256 net action, s)

end Session

/-! ## Without interruption -/

section Uninterrupted

variable {compile : Compile} {sha256 : Sha256} {net : Search.Network} {s : Session} {st st' : State}

theorem put_state (net : Search.Network) (s : Session) (st : State) :
    ((s.put net st).nodes s.address).downloadState = st := by
  dsimp only [Session.put]
  rw [Function.update_self]
  rfl

theorem put_put (net : Search.Network) (s : Session) (st st' : State) :
    s.put (s.put net st) st' = s.put net st' := by
  unfold Session.put
  dsimp only
  rw [Function.update_self, Function.update_idem]

/-- A call that has returned stays as it is. -/
theorem run_returned {result : Except GoString Bytes} (returned : s.phase = .returned result)
    {α : Type*} (retry : UInt64) (exchange : α → Exchange) (l : List α) :
    Run.run (Session.step compile sha256) (net, s) (l.map fun i => .load retry (exchange i)) =
      (net, s) := by
  induction l with
  | nil => rfl
  | cons i l ih =>
      have same : Session.step compile sha256 (net, s) (.load retry (exchange i)) = (net, s) := by
        simp only [Session.step, Session.load, returned]
      rw [List.map_cons, Run.run_cons, same, ih]

/-- The load of a chunk. -/
theorem step_chunk (compile : Compile) (env : Surroundings) (net : Search.Network) {key : GoString}
    {keys : List GoString} (phase : s.phase = .chunks (key :: keys)) (i : Nat) :
    Session.step compile env.sha256 (net, s) (.load env.retry (env.exchange i)) =
      match DataSharing.load env (str "failed to fetch chunk ") i
          (net.nodes s.address).downloadState key with
      | (st, .error err) => (s.put net st, { s with phase := .returned (.error err) })
      | (st, .ok chunk) => (s.put net st, s.goOn keys (s.loaded ++ [chunk])) := by
  simp only [Session.step, Session.load, phase]
  rfl

/-- The load of the metafile. -/
theorem step_metafile (compile : Compile) (env : Surroundings) (net : Search.Network)
    (phase : s.phase = .metafile) :
    Session.step compile env.sha256 (net, s) (.load env.retry (env.exchange 0)) =
      match DataSharing.load env (str "Failed to fetch metafile ") 0
          (net.nodes s.address).downloadState s.metahash with
      | (st, .error err) => (s.put net st, { s with phase := .returned (.error err) })
      | (st, .ok metafileContent) =>
          (s.put net st, s.goOn (splitMetafile metafileContent) [metafileContent]) := by
  simp only [Session.step, Session.load, phase]
  rfl

/-- The loads of chunks, one after the other, are `loadChunks`. -/
theorem run_loadChunks (compile : Compile) (env : Surroundings) (net : Search.Network)
    {key : GoString} {keys : List GoString} (i : Nat) (phase : s.phase = .chunks (key :: keys))
    (some : s.loaded ≠ []) :
    let st := (net.nodes s.address).downloadState
    ∃ s', Run.run (Session.step compile env.sha256) (net, s)
        ((List.range' i (keys.length + 1)).map fun i => .load env.retry (env.exchange i)) =
        (s.put net (loadChunks env i st (key :: keys)).1, s') ∧
      s'.phase = .returned ((loadChunks env i st (key :: keys)).2.map fun chunks =>
        ((s.loaded ++ chunks).drop 1).flatten) := by
  intro st
  induction keys generalizing key i net s with
  | nil =>
      have first := step_chunk compile env net phase i
      rw [List.length_nil, List.range'_one, List.map_singleton, Run.run_cons, Run.run_nil, first]
      unfold loadChunks
      cases result : DataSharing.load env (str "failed to fetch chunk ") i st key with
      | mk st₁ r =>
          cases r with
          | error err => exact ⟨_, rfl, rfl⟩
          | ok chunk => exact ⟨_, rfl, rfl⟩
  | cons next keys ih =>
      have first := step_chunk compile env net phase i
      rw [List.length_cons, List.range'_succ, List.map_cons, Run.run_cons, first]
      unfold loadChunks
      cases result : DataSharing.load env (str "failed to fetch chunk ") i st key with
      | mk st₁ r =>
          cases r with
          | error err => exact ⟨_, run_returned rfl env.retry env.exchange _, rfl⟩
          | ok chunk =>
              have more : (s.goOn (next :: keys) (s.loaded ++ [chunk])).loaded ≠ [] :=
                List.concat_ne_nil chunk s.loaded
              obtain ⟨s', ran, phase'⟩ := ih (s.put net st₁) (i + 1) rfl more
              have state : ((s.put net st₁).nodes (s.goOn (next :: keys)
                  (s.loaded ++ [chunk])).address).downloadState = st₁ := put_state net s st₁
              have again : ∀ st₂, (s.goOn (next :: keys) (s.loaded ++ [chunk])).put (s.put net st₁)
                  st₂ = s.put net st₂ := put_put net s st₁
              rw [state, again] at ran
              rw [state] at phase'
              refine ⟨s', ?_⟩
              dsimp only
              cases rest : loadChunks env (i + 1) st₁ (next :: keys) with
              | mk st₂ r₂ =>
                  rw [rest] at ran phase'
                  cases r₂ with
                  | error err => exact ⟨ran, phase'⟩
                  | ok chunks =>
                      refine ⟨ran, phase'.trans ?_⟩
                      dsimp only [Session.goOn, Except.map]
                      rw [List.append_assoc]
                      rfl

/-- **A download is a call without interruption.** -/
theorem run_download (compile : Compile) (env : Surroundings) (net : Search.Network)
    (address metahash : GoString) :
    let s := Session.start address metahash
    let st := (net.nodes address).downloadState
    ∃ n s', Run.run (Session.step compile env.sha256) (net, s)
        ((List.range n).map fun i => .load env.retry (env.exchange i)) =
        (s.put net (download env st metahash).1, s') ∧
      s'.phase = .returned (download env st metahash).2 := by
  intro s st
  have first := step_metafile (s := s) compile env net rfl
  unfold download
  cases result : DataSharing.load env (str "Failed to fetch metafile ") 0 st metahash with
  | mk st₁ r =>
      have here : DataSharing.load env (str "Failed to fetch metafile ") 0
          (net.nodes s.address).downloadState s.metahash = (st₁, r) := result
      rw [here] at first
      cases r with
      | error err => exact ⟨1, _, first, rfl⟩
      | ok metafileContent =>
          dsimp only at first ⊢
          cases listed : splitMetafile metafileContent with
          | nil => exact (List.splitOn_ne_nil 10 metafileContent listed).elim
          | cons key keys =>
              rw [listed] at first
              have some : (s.goOn (key :: keys) [metafileContent]).loaded ≠ [] :=
                List.cons_ne_nil metafileContent []
              obtain ⟨s', ran, phase'⟩ := run_loadChunks compile env (s.put net st₁) 1 rfl some
              have state : ((s.put net st₁).nodes (s.goOn (key :: keys)
                  [metafileContent]).address).downloadState = st₁ := put_state net s st₁
              have again : ∀ st₂, (s.goOn (key :: keys) [metafileContent]).put (s.put net st₁) st₂ =
                  s.put net st₂ := put_put net s st₁
              rw [state, again] at ran
              rw [state] at phase'
              refine ⟨keys.length + 1 + 1, s', ?_⟩
              rw [List.range_eq_range', List.range'_succ, List.map_cons, Run.run_cons, first]
              cases rest : loadChunks env 1 st₁ (key :: keys) with
              | mk st₂ r₂ =>
                  rw [rest] at ran phase'
                  cases r₂ with
                  | error err => exact ⟨ran, phase'⟩
                  | ok chunks => exact ⟨ran, phase'⟩

end Uninterrupted

/-! ## Peers that answer -/

/-- The peer that a fetch of a key asks. -/
def selectedPeer (n : Search.Node) (x : Exchange) (key : GoString) : GoString :=
  getRandom (x.peerOrder.list (n.catalog.getPeersForKey key)) x.random

/-- If the peer that a load of the node asks is heard from, then with what it has.  Loads of other
nodes may be told anything. -/
def Honest (net : Search.Network) (address : GoString) : Action → Prop
  | .load a retry x key => a = address → ∀ data,
      sendDataRequest retry x key (selectedPeer (net.nodes a) x key) = .ok data →
        (net.nodes (selectedPeer (net.nodes a) x key)).blobStore.get key = some data
  | _ => True

/-- The peer that a load asks is heard from, and with what it has. -/
def Served (net : Search.Network) (address : GoString) (retry : UInt64) (x : Exchange)
    (key : GoString) : Prop :=
  ∀ data ∈ (net.nodes (selectedPeer (net.nodes address) x key)).blobStore.get key,
    sendDataRequest retry x key (selectedPeer (net.nodes address) x key) = .ok data

instance (net : Search.Network) (address : GoString) (retry : UInt64) (x : Exchange)
    (key : GoString) : Decidable (Served net address retry x key) :=
  inferInstanceAs (Decidable (∀ data ∈ Store.get _ key, _ = _))

/-- The node has the data of a key, or a peer is listed for it. -/
def Known (net : Search.Network) (address key : GoString) : Prop :=
  Has net address key ∨ ∃ peer, Lists (net.nodes address) key peer

section Known

variable {compile : Compile} {sha256 : Sha256} {net : Search.Network} {address key : GoString}

theorem selectedPeer_lists {n : Search.Node} (x : Exchange) {peer : GoString}
    (listed : Lists n key peer) :
    Lists n key (selectedPeer n x key) := by
  have mem : ∀ p, p ∈ x.peerOrder.list (n.catalog.getPeersForKey key) ↔ Lists n key p := by
    intro p
    rw [x.peerOrder.mem, Lists, ne_eq, FinMap.get_eq_none, not_not]
  have here := (mem peer).mpr listed
  refine (mem _).mp ?_
  unfold selectedPeer getRandom
  generalize x.peerOrder.list (n.catalog.getPeersForKey key) = peers at here
  have positive : 0 < peers.length := List.length_pos_of_mem here
  have inside : x.random % peers.length < peers.length := Nat.mod_lt _ positive
  rw [if_neg positive.ne', List.getD_eq_getElem?_getD, List.getElem?_eq_getElem inside,
    Option.getD_some]
  exact List.getElem_mem inside

/-- A key for which some peer is listed. -/
theorem size_ne_zero {n : Search.Node} {peer : GoString} (listed : Lists n key peer) :
    (n.catalog.getPeersForKey key).size ≠ 0 := by
  intro empty
  have mem : peer ∈ (n.catalog.getPeersForKey key).keys := by
    by_contra absent
    exact listed (FinMap.get_eq_none.mpr absent)
  rw [Finset.card_eq_zero.mp empty] at mem
  cases mem

/-- A listed peer that is selected has data that hashes to the key. -/
theorem Sound.selected (sound : Sound sha256 net) (x : Exchange) {peer : GoString}
    (listed : Lists (net.nodes address) key peer) :
    ∃ data, (net.nodes (selectedPeer (net.nodes address) x key)).blobStore.get key = some data ∧
      hashKey sha256 data = key ∧ data ≠ [] := by
  have has : Has net _ key := sound.lists _ _ _ (selectedPeer_lists x listed)
  obtain ⟨data, found⟩ := Option.ne_none_iff_exists'.mp has
  exact ⟨data, found, sound.hashed _ _ _ found, (sound.kept _).ne_nil found⟩

/-- Honest answers pass the check, so no peer is removed from a catalog. -/
theorem Sound.load_catalog (sound : Sound sha256 net) {retry : UInt64} {x : Exchange}
    (honest : Honest net address (.load address retry x key)) (failed : GoString) :
    (DataSharing.load (surroundings sha256 retry x) failed 0 (net.nodes address).downloadState
      key).1.catalog = (net.nodes address).catalog := by
  unfold DataSharing.load
  split
  · rfl
  · unfold DataSharing.fetchWithBackOff
    dsimp only
    split
    · next catalog err fetched =>
      split at fetched
      · cases fetched
        rfl
      · split at fetched
        · cases fetched
        · next data answer =>
          have hash : hashKey (surroundings sha256 retry x).sha256 data = key :=
            sound.hashed _ _ _ (honest rfl data answer)
          rw [if_neg (not_not.mpr hash)] at fetched
          cases fetched
    · next catalog data fetched =>
      split at fetched
      · cases fetched
      · split at fetched
        · cases fetched
          rfl
        · split at fetched
          · cases fetched
          · cases fetched
            rfl

/-- A packet that arrives removes no peer from a catalog. -/
theorem lists_handleIncomingPacket (compile : Compile) {n : Search.Node} (relay : Gossip.SendChoice)
    (c : Search.RequestChoice) (pkt : Search.Packet) {peer : GoString} (listed : Lists n key peer) :
    Lists (n.handleIncomingPacket compile relay c pkt).node key peer := by
  unfold Search.Node.handleIncomingPacket
  split
  · split
    · next searchReq _ =>
      obtain ⟨untouched, -⟩ :=
        handleSearchRequestMessage_tells compile n c pkt.header.source searchReq
      unfold Lists
      rw [untouched.catalog]
      exact listed
    · next reply _ =>
      obtain ⟨-, -, lists⟩ := handleSearchReplyMessage_lists n pkt.header.source reply
      exact (lists key peer).mpr (.inl listed)
  · exact listed

/-- With honest answers to its node a peer that is listed stays so. -/
theorem Sound.lists_step (sound : Sound sha256 net) (compile : Compile) {action : Action}
    (proper : Proper action) (honest : Honest net address action) {peer : GoString}
    (listed : Lists (net.nodes address) key peer) :
    Lists ((Sharing.step compile sha256 net action).nodes address) key peer := by
  -- Only the node that does something can change its catalog.
  have here : ∀ {a : GoString} {n : Search.Node}, Lists n key peer ∨ a ≠ address →
      Lists (Function.update net.nodes a n address) key peer := by
    intro a n either
    by_cases same : a = address
    · subst same
      rw [Function.update_self]
      exact either.resolve_right fun other => other rfl
    · rw [Function.update_of_ne (Ne.symm same)]
      exact listed
  have there : ∀ {a : GoString}, Lists (net.nodes a) key peer ∨ a ≠ address := by
    intro a
    by_cases same : a = address
    · subst same
      exact .inl listed
    · exact .inr same
  cases action with
  | search action =>
      cases action with
      | act a e =>
          have stores : ∀ key data, e ≠ .storeBlob key data := by
            rintro key data rfl
            exact proper
          obtain ⟨untouched, -⟩ := step_untouched (n := net.nodes a) stores
          refine here (there.imp_left fun listed => ?_)
          unfold Lists
          rw [untouched.catalog]
          exact listed
      | deliver i relay c =>
          cases found : net.inFlight[i]? with
          | none =>
              simp only [Sharing.step, Search.Network.step, found]
              exact listed
          | some arriving =>
              simp only [Sharing.step, Search.Network.step, found]
              exact here (there.imp_left (lists_handleIncomingPacket compile relay c _))
      | lose i => exact listed
  | duplicate i => exact listed
  | upload a chunkSize reader => exact here there
  | load a retry x k =>
      by_cases same : a = address
      · subst same
        refine here (.inl ?_)
        unfold Lists loaded
        dsimp only
        rw [sound.load_catalog honest []]
        exact listed
      · exact here (.inr same)

/-- A key that is known stays so. -/
theorem Sound.known_step (sound : Sound sha256 net) (compile : Compile) {action : Action}
    (proper : Proper action) (honest : Honest net address action)
    (known : Known net address key) :
    Known (Sharing.step compile sha256 net action) address key := by
  rcases known with has | ⟨peer, listed⟩
  · exact .inl ((sound.step compile proper).2 address key has)
  · exact .inr ⟨peer, sound.lists_step compile proper honest listed⟩

/-- A load of a known key, when the peer that it asks is heard from, brings data that hashes to the
key. -/
theorem Sound.load_known (sound : Sound sha256 net) {retry : UInt64} {x : Exchange}
    (served : Served net address retry x key) (known : Known net address key) (failed : GoString) :
    ∃ data, data ≠ [] ∧ hashKey sha256 data = key ∧
      DataSharing.load (surroundings sha256 retry x) failed 0 (net.nodes address).downloadState
          key =
        ((net.nodes address).downloadState.store key data, .ok data) := by
  cases found : (net.nodes address).blobStore.get key with
  | some data =>
      refine ⟨data, (sound.kept address).ne_nil found, sound.hashed address key data found, ?_⟩
      have there : (net.nodes address).downloadState.blobStore.get key = some data := found
      rw [DataSharing.load_of_get _ failed 0 there, DataSharing.store_of_get there]
  | none =>
      obtain ⟨peer, listed⟩ := known.resolve_left fun has => has found
      obtain ⟨data, there, hash, filled⟩ := sound.selected x listed
      have supplied : supply (surroundings sha256 retry x) 0 (net.nodes address).downloadState key =
          .delivered data := by
        have answer := served data there
        have absent : (net.nodes address).downloadState.blobStore.get key = none := found
        unfold selectedPeer at answer
        unfold DataSharing.supply
        rw [absent]
        dsimp only [surroundings, Search.Node.downloadState]
        rw [if_neg (size_ne_zero listed), answer]
        exact if_pos hash
      rcases DataSharing.load_spec (surroundings sha256 retry x) failed 0
        (net.nodes address).downloadState key with ⟨refused, -⟩ | ⟨-, loaded⟩
      · rw [supplied] at refused
        cases refused
      · rw [supplied] at loaded
        exact ⟨data, filled, hash, loaded⟩

end Known

/-! ## Downloading a file -/

/-- What the call loads next. -/
def Session.next (s : Session) : Option GoString :=
  match s.phase with
  | .metafile => some s.metahash
  | .chunks (key :: _) => some key
  | .chunks [] | .returned _ => none

/-- The peers that the loads of the call ask are heard from, and other loads of its node are not
answered with false data. -/
def Serves : Search.Network × Session → Move → Prop
  | (net, s), .load retry x => ∀ key ∈ s.next, Served net s.address retry x key
  | (net, s), .other action => Proper action ∧ Honest net s.address action

/-- The loads of the call among the moves. -/
def loads (moves : List Move) : Nat :=
  moves.countP fun m => match m with
    | .load _ _ => true
    | .other _ => false

/-- The metafile of some chunks. -/
def metafileOf (sha256 : Sha256) (chunks : List Bytes) : Bytes :=
  joinMetafile (chunks.map (hashKey sha256))

/-- Where the call is after a number of loads: it has loaded the metafile, and as many chunks of the
file in order. -/
def Loading (sha256 : Sha256) (chunks : List Bytes) (s : Session) (n : Nat) : Prop :=
  s.metahash = hashKey sha256 (metafileOf sha256 chunks) ∧
  match s.phase with
  | .metafile => n = 0 ∧ s.loaded = []
  | .chunks keys => ∃ before after, before ++ after = chunks ∧ after ≠ [] ∧
      n = before.length + 1 ∧ keys = after.map (hashKey sha256) ∧
      s.loaded = metafileOf sha256 chunks :: before
  | .returned result => chunks.length < n ∧ result = .ok chunks.flatten ∧
      s.loaded = metafileOf sha256 chunks :: chunks

section Loading

variable {compile : Compile} {sha256 : Sha256} {net : Search.Network} {s : Session}
  {chunks : List Bytes} {n : Nat}

/-- A blob of the call that hashes as one of the file is that one. -/
theorem eq_of_hashKey {blobs : List Bytes} {data blob : Bytes}
    (distinct : CollisionFree sha256 (uploadBlobs sha256 chunks ++ blobs)) (loaded : data ∈ blobs)
    (own : blob ∈ uploadBlobs sha256 chunks) (same : hashKey sha256 data = hashKey sha256 blob) :
    data = blob :=
  distinct data (List.mem_append_right _ loaded) blob (List.mem_append_left _ own)
    (DataSharing.hashKey_injective same)

/-- A load of the call that the peer answers. -/
theorem Session.load_served (sound : Sound sha256 net) {retry : UInt64} {x : Exchange}
    {key : GoString} (next : s.next = some key) (served : Served net s.address retry x key)
    (known : Known net s.address key) :
    ∃ data, data ≠ [] ∧ hashKey sha256 data = key ∧ s.load sha256 net retry x =
      (s.put net ((net.nodes s.address).downloadState.store key data),
        match s.phase with
        | .chunks (_ :: keys) => s.goOn keys (s.loaded ++ [data])
        | _ => s.goOn (splitMetafile data) [data]) := by
  unfold Session.next at next
  unfold Session.load
  split at next
  · next phase =>
    cases next
    obtain ⟨data, filled, hash, loaded⟩ := sound.load_known served known
      (str "Failed to fetch metafile ")
    refine ⟨data, filled, hash, ?_⟩
    simp only [phase, loaded]
  · next k keys phase =>
    cases next
    obtain ⟨data, filled, hash, loaded⟩ := sound.load_known served known
      (str "failed to fetch chunk ")
    refine ⟨data, filled, hash, ?_⟩
    simp only [phase, loaded]
  · cases next
  · cases next

theorem goOn_loading {before after : List Bytes} (s : Session)
    (metahash : s.metahash = hashKey sha256 (metafileOf sha256 chunks))
    (split : before ++ after = chunks) :
    Loading sha256 chunks (s.goOn (after.map (hashKey sha256))
      (metafileOf sha256 chunks :: before)) (before.length + 1) := by
  cases after with
  | nil =>
      rw [List.append_nil] at split
      subst split
      exact ⟨metahash, Nat.lt_succ_self _, rfl, rfl⟩
  | cons chunk after =>
      exact ⟨metahash, before, chunk :: after, split, List.cons_ne_nil _ _, rfl, rfl, rfl⟩

theorem loaded_goOn (s : Session) (keys : List GoString) (blobs : List Bytes) :
    (s.goOn keys blobs).loaded = blobs := by
  unfold Session.goOn
  split <;> rfl

/-- A load of the call brings the next blob of the file. -/
theorem Loading.load (loading : Loading sha256 chunks s n) (sound : Sound sha256 net)
    (some : chunks ≠ []) {retry : UInt64} {x : Exchange}
    (serves : Serves (net, s) (.load retry x))
    (known : ∀ key ∈ s.next, Known net s.address key)
    (distinct : CollisionFree sha256 (uploadBlobs sha256 chunks ++
      (s.load sha256 net retry x).2.loaded)) :
    Loading sha256 chunks (s.load sha256 net retry x).2 (n + 1) := by
  obtain ⟨metahash, progress⟩ := loading
  cases phase : s.phase with
  | metafile =>
      rw [phase] at progress
      obtain ⟨rfl, -⟩ := progress
      have next : s.next = .some s.metahash := by rw [Session.next, phase]
      obtain ⟨data, -, hash, loads⟩ := Session.load_served sound next (serves _ next) (known _ next)
      rw [loads, phase] at distinct ⊢
      rw [loaded_goOn] at distinct
      have same : data = metafileOf sha256 chunks := by
        refine eq_of_hashKey distinct (List.mem_singleton_self data) ?_ (hash.trans metahash)
        exact List.mem_append_right _ (List.mem_singleton_self _)
      subst same
      have keys := DataSharing.splitMetafile_joinMetafile sha256 some
      have done := goOn_loading s metahash (List.nil_append chunks)
      rw [← keys] at done
      exact done
  | chunks keys =>
      rw [phase] at progress
      obtain ⟨before, after, split, more, rfl, rfl, before'⟩ := progress
      cases after with
      | nil => exact (more rfl).elim
      | cons chunk after =>
          have next : s.next = .some (hashKey sha256 chunk) := by
            rw [Session.next, phase, List.map_cons]
          obtain ⟨data, -, hash, loads⟩ :=
            Session.load_served sound next (serves _ next) (known _ next)
          rw [loads, phase, List.map_cons] at distinct ⊢
          dsimp only at distinct ⊢
          rw [loaded_goOn] at distinct
          have own : chunk ∈ uploadBlobs sha256 chunks := by
            refine List.mem_append_left _ ?_
            rw [← split]
            exact List.mem_append_right _ List.mem_cons_self
          have same : data = chunk :=
            eq_of_hashKey distinct (List.mem_append_right _ (List.mem_singleton_self data)) own hash
          subst same
          rw [List.append_cons] at split
          have done := goOn_loading s metahash split
          rw [List.length_append, List.length_singleton] at done
          rw [before', List.cons_append]
          exact done
  | returned result =>
      have still : (s.load sha256 net retry x).2 = s := by
        unfold Session.load
        simp only [phase]
      rw [phase] at progress
      obtain ⟨enough, returned, all⟩ := progress
      rw [still]
      refine ⟨metahash, ?_⟩
      rw [phase]
      exact ⟨by omega, returned, all⟩

/-! ### What the call has loaded -/

/-- Before the metafile nothing has been loaded. -/
def Begun (s : Session) : Prop := s.phase = .metafile → s.loaded = []

theorem goOn_begun (s : Session) (keys : List GoString) (blobs : List Bytes) :
    Begun (s.goOn keys blobs) := by
  unfold Begun Session.goOn
  split <;> exact fun same => by cases same

theorem Begun.load (begun : Begun s) (sha256 : Sha256) (net : Search.Network) (retry : UInt64)
    (x : Exchange) :
    s.loaded ⊆ (s.load sha256 net retry x).2.loaded ∧ Begun (s.load sha256 net retry x).2 := by
  unfold Session.load
  split
  · next phase =>
    rw [begun phase]
    dsimp only
    split
    · exact ⟨List.nil_subset _, fun same => by cases same⟩
    · exact ⟨List.nil_subset _, goOn_begun s _ _⟩
  · dsimp only
    split
    · exact ⟨List.Subset.refl _, fun same => by cases same⟩
    · rw [loaded_goOn]
      exact ⟨List.subset_append_left _ _, goOn_begun s _ _⟩
  · exact ⟨List.Subset.refl _, begun⟩
  · exact ⟨List.Subset.refl _, begun⟩

theorem Begun.step (begun : Begun s) (compile : Compile) (sha256 : Sha256) (net : Search.Network)
    (m : Move) : s.loaded ⊆ (Session.step compile sha256 (net, s) m).2.loaded ∧
      Begun (Session.step compile sha256 (net, s) m).2 := by
  cases m with
  | load retry x => exact begun.load sha256 net retry x
  | other action => exact ⟨List.Subset.refl _, begun⟩

/-- Nothing that has been loaded is dropped. -/
theorem Begun.run (begun : Begun s) (compile : Compile) (sha256 : Sha256) (net : Search.Network)
    (moves : List Move) :
    s.loaded ⊆ (Run.run (Session.step compile sha256) (net, s) moves).2.loaded := by
  induction moves generalizing net s with
  | nil => exact List.Subset.refl _
  | cons m moves ih =>
      obtain ⟨first, begun'⟩ := begun.step compile sha256 net m
      exact List.Subset.trans first (ih begun' _)

theorem Loading.begun (loading : Loading sha256 chunks s n) : Begun s := by
  intro phase
  obtain ⟨-, progress⟩ := loading
  rw [phase] at progress
  exact progress.2

/-- The call needs keys of the file only. -/
theorem Loading.next (loading : Loading sha256 chunks s n) {key : GoString}
    (next : s.next = .some key) :
    ∃ blob ∈ uploadBlobs sha256 chunks, hashKey sha256 blob = key := by
  obtain ⟨metahash, progress⟩ := loading
  unfold Session.next at next
  split at next
  · cases next
    exact ⟨_, List.mem_append_right _ (List.mem_singleton_self _), metahash.symm⟩
  · next k keys phase =>
    cases next
    rw [phase] at progress
    obtain ⟨before, after, split, more, -, listed, -⟩ := progress
    cases after with
    | nil => exact (more rfl).elim
    | cons chunk after =>
        rw [List.map_cons] at listed
        refine ⟨chunk, List.mem_append_left _ ?_, (List.cons.inj listed).1.symm⟩
        rw [← split]
        exact List.mem_append_right _ List.mem_cons_self
  · cases next
  · cases next

theorem Session.load_of_next_none (sha256 : Sha256) (net : Search.Network) (none : s.next = none)
    (retry : UInt64) (x : Exchange) : s.load sha256 net retry x = (net, s) := by
  unfold Session.next at none
  split at none
  · cases none
  · cases none
  · next phase =>
    unfold Session.load
    simp only [phase]
  · next result phase =>
    unfold Session.load
    simp only [phase]

/-- What a load of the call does to the network: data is stored, and no catalog changes. -/
theorem Session.load_network (sound : Sound sha256 net) {retry : UInt64} {x : Exchange}
    (serves : Serves (net, s) (.load retry x))
    (known : ∀ key ∈ s.next, Known net s.address key) :
    Sound sha256 (s.load sha256 net retry x).1 ∧
      (∀ a key, Has net a key → Has (s.load sha256 net retry x).1 a key) ∧
      (∀ a key, Known net a key → Known (s.load sha256 net retry x).1 a key) ∧
      ∀ blob ∈ (s.load sha256 net retry x).2.loaded,
        blob ∈ s.loaded ∨ Has (s.load sha256 net retry x).1 s.address (hashKey sha256 blob) := by
  cases next : s.next with
  | none =>
      rw [Session.load_of_next_none sha256 net next]
      exact ⟨sound, fun _ _ has => has, fun _ _ known => known, fun _ mem => .inl mem⟩
  | some key =>
      obtain ⟨data, filled, hash, loads⟩ :=
        Session.load_served sound next (serves key next) (known key next)
      rw [loads]
      have stores : Kept sha256 ((net.nodes s.address).blobStore.set key data) ∧
          Grows (net.nodes s.address).blobStore ((net.nodes s.address).blobStore.set key data) :=
        (sound.kept s.address).set (fun _ => hash) fun empty => (filled empty).elim
      obtain ⟨kept, grows⟩ := stores
      have keeps : ∀ a k, Has net a k →
          Has (s.put net ((net.nodes s.address).downloadState.store key data)) a k :=
        fun a k has => has_update grows has
      refine ⟨sound.update (sound.address s.address) kept grows (fun _ _ listed => .inl listed)
        fun p mem => .inl mem, keeps, fun a k known => ?_, fun blob mem => ?_⟩
      · rcases known with has | ⟨peer, listed⟩
        · exact .inl (keeps a k has)
        · refine .inr ⟨peer, ?_⟩
          dsimp only [Session.put]
          by_cases here : a = s.address
          · subst here
            rw [Function.update_self]
            exact listed
          · rw [Function.update_of_ne here]
            exact listed
      · have stored : Has (s.put net ((net.nodes s.address).downloadState.store key data)) s.address
            key := by
          have get := Store.get_set_inmemory (sound.inmemory s.address) key data key
          rw [if_pos rfl, if_neg filled] at get
          unfold Has
          dsimp only [Session.put]
          rw [Function.update_self]
          exact get ▸ Option.some_ne_none data
        dsimp only at mem
        split at mem
        · rw [loaded_goOn] at mem
          rcases List.mem_append.mp mem with before | now
          · exact .inl before
          · rw [List.mem_singleton.mp now, hash]
            exact .inr stored
        · rw [loaded_goOn] at mem
          rw [List.mem_singleton.mp mem, hash]
          exact .inr stored

theorem load_address (sha256 : Sha256) (net : Search.Network) (s : Session) (retry : UInt64)
    (x : Exchange) : (s.load sha256 net retry x).2.address = s.address := by
  have kept : ∀ keys blobs, (s.goOn keys blobs).address = s.address := by
    intro keys blobs
    unfold Session.goOn
    split <;> rfl
  unfold Session.load
  split
  · dsimp only
    split
    · rfl
    · exact kept _ _
  · dsimp only
    split
    · rfl
    · exact kept _ _
  · rfl
  · rfl

/-- What a run of the call keeps: the keys of the file are known, the call is in the middle of the
file, and the node has what has been loaded. -/
theorem Loading.run (loading : Loading sha256 chunks s n) (sound : Sound sha256 net)
    (some : chunks ≠ [])
    (known : ∀ blob ∈ uploadBlobs sha256 chunks, Known net s.address (hashKey sha256 blob))
    (there : ∀ blob ∈ s.loaded, Has net s.address (hashKey sha256 blob)) {moves : List Move}
    (serves : Run.Always (Session.step compile sha256) Serves (net, s) moves)
    (distinct : CollisionFree sha256 (uploadBlobs sha256 chunks ++
      (Run.run (Session.step compile sha256) (net, s) moves).2.loaded)) :
    let after := Run.run (Session.step compile sha256) (net, s) moves
    Loading sha256 chunks after.2 (n + loads moves) ∧
      ∀ blob ∈ after.2.loaded, Has after.1 s.address (hashKey sha256 blob) := by
  intro after
  induction moves generalizing net s n with
  | nil => exact ⟨loading, there⟩
  | cons m moves ih =>
      obtain ⟨first, later⟩ := serves
      have grown : (Session.step compile sha256 (net, s) m).2.loaded ⊆ after.2.loaded :=
        (loading.begun.step compile sha256 net m).2.run compile sha256 _ moves
      cases m with
      | load retry x =>
          have next : ∀ key ∈ s.next, Known net s.address key := by
            intro key mem
            obtain ⟨blob, own, rfl⟩ := loading.next mem
            exact known blob own
          have here : CollisionFree sha256 (uploadBlobs sha256 chunks ++
              (s.load sha256 net retry x).2.loaded) := by
            have subset := List.append_subset.mpr
              ⟨List.subset_append_left (uploadBlobs sha256 chunks) after.2.loaded,
                List.subset_append_of_subset_right (uploadBlobs sha256 chunks) grown⟩
            exact fun b mem b' mem' => distinct b (subset mem) b' (subset mem')
          have address := load_address sha256 net s retry x
          obtain ⟨sound', has, knows, brings⟩ := Session.load_network sound first next
          have knows' : ∀ blob ∈ uploadBlobs sha256 chunks, Known (s.load sha256 net retry x).1
              (s.load sha256 net retry x).2.address (hashKey sha256 blob) := by
            intro blob own
            rw [address]
            exact knows _ _ (known blob own)
          have there' : ∀ blob ∈ (s.load sha256 net retry x).2.loaded,
              Has (s.load sha256 net retry x).1 (s.load sha256 net retry x).2.address
                (hashKey sha256 blob) := by
            intro blob mem
            rw [address]
            rcases brings blob mem with before | now
            · exact has _ _ (there blob before)
            · exact now
          have rest := ih (loading.load sound some first next here) sound' knows' there' later
            distinct
          rw [address] at rest
          have count : loads (.load retry x :: moves) = loads moves + 1 :=
            List.countP_cons_of_pos rfl
          rw [count, Nat.add_comm (loads moves), ← Nat.add_assoc]
          exact rest
      | other action =>
          obtain ⟨proper, honest⟩ := first
          obtain ⟨sound', has⟩ := sound.step compile proper
          have count : loads (.other action :: moves) = loads moves :=
            List.countP_cons_of_neg Bool.false_ne_true
          rw [count]
          exact ih loading sound'
            (fun blob own => sound.known_step compile proper honest (known blob own))
            (fun blob mem => has _ _ (there blob mem)) later distinct

end Loading

/-- The peer answers at once. -/
def answers (data : Bytes) : Exchange :=
  ⟨.sorted, 0, str "request", none, some (str "A"), fun _ => .reply (str "request") (some data)⟩

end Peerster.Sharing
