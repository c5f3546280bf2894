import Peerster.Lib.Run
import Peerster.Search.Flooding
import Peerster.Search.Local
import Peerster.Uploads
import Mathlib.Data.List.ReduceOption

/-!
# Sharing files

Nodes that upload, tag, search and download, over a network that may lose, delay, repeat and reorder
packets.  A download is taken load by load (the metafile, then each chunk), so that anything else
may happen in between.

A node lists a peer in its catalog only for what a search reply says the peer has, and no node ever
loses data that it has.  So whatever a node's catalog says is true in every state that is reached
(`reachable_sound`), and whatever a node has under a key hashes to it, also when data replies are
forged.
-/

namespace Peerster

namespace Store

/-- What the in-memory store returns after `Set`. -/
theorem get_set_inmemory {s : Store} (inmemory : s.backend = .inmemory) (key : GoString)
    (val : Bytes) (k : GoString) :
    (s.set key val).get k =
      if k = key then (if val = [] then none else some val) else s.get k := by
  have entry : (s.set key val).data.get k = if k = key then some val else s.data.get k := by
    unfold set takes
    rw [inmemory, if_pos rfl, FinMap.get_add]
  unfold get
  rw [set_backend, inmemory]
  dsimp only
  rw [entry]
  by_cases same : k = key
  · rw [if_pos same, if_pos same]
    by_cases empty : val = []
    · rw [if_pos empty, empty]
      rfl
    · rw [if_neg empty, Option.filter_some_pos (by simpa using empty)]
  · rw [if_neg same, if_neg same]

end Store

namespace Sharing

open DataSharing (Surroundings Exchange State Catalog hashKey upload load supply setAll uploadWrites
  splitIntoChunks Supply)
open Search (FileInfo SearchReply Compile Sent)

/-- A step of the network: something that belongs to searches and names, a packet on its way that is
repeated, a call of `Upload`, or a load of a running `Download`, with what its fetch meets. -/
inductive Action : Type
  | search (a : Search.Action)
  | duplicate (i : Nat)
  | upload (address : GoString) (chunkSize : UInt64) (reader : Except GoString Bytes)
  | load (address : GoString) (retry : UInt64) (x : Exchange) (key : GoString)

/-- What one load depends on. -/
def surroundings (sha256 : Sha256) (retry : UInt64) (x : Exchange) : Surroundings :=
  ⟨sha256, retry, fun _ => x⟩

/-- The node after a load. -/
def loaded (sha256 : Sha256) (n : Search.Node) (retry : UInt64) (x : Exchange) (key : GoString) :
    Search.Node :=
  let st := (load (surroundings sha256 retry x) [] 0 n.downloadState key).1
  { n with blobStore := st.blobStore, catalog := st.catalog }

/-- One step. -/
def step (compile : Compile) (sha256 : Sha256) (net : Search.Network) : Action → Search.Network
  | .search a => net.step compile a
  | .duplicate i => { net with inFlight := net.inFlight ++ net.inFlight[i]?.toList }
  | .upload address chunkSize reader =>
      let n := net.nodes address
      let n := { n with blobStore := (upload sha256 chunkSize n.blobStore reader).1 }
      { net with nodes := Function.update net.nodes address n }
  | .load address retry x key =>
      { net with
        nodes := Function.update net.nodes address
          (loaded sha256 (net.nodes address) retry x key) }

/-- A node with in-memory stores that are empty. -/
def newPeer (address : GoString) (ackTimeout : Nat) : Search.Node where
  peer := Gossip.newPeer address ackTimeout
  handledSearchRequests := .empty
  searchReplyChan := .empty
  catalog := .empty
  namingStore := ⟨.inmemory, .empty⟩
  blobStore := ⟨.inmemory, .empty⟩

/-- All nodes start empty. -/
def initial (ackTimeout : GoString → Nat) : Search.Network :=
  ⟨fun address => newPeer address (ackTimeout address), []⟩

/-- Blobs are stored by uploads, of files that are not empty, and by loads. -/
def Proper : Action → Prop
  | .search (.act _ (.storeBlob _ _)) => False
  | .upload _ _ (.ok dataBytes) => dataBytes ≠ []
  | _ => True

instance : ∀ action, Decidable (Proper action)
  | .search (.act _ (.storeBlob _ _)) => instDecidableFalse
  | .upload _ _ (.ok dataBytes) => inferInstanceAs (Decidable (dataBytes ≠ []))
  | .search (.act _ (.addPeer _)) | .search (.act _ (.setRoutingEntry _ _))
  | .search (.act _ (.tag _ _)) | .search (.act _ (.searchAll _ _ _ _))
  | .search (.act _ (.sendSearchRequests _ _ _ _)) | .search (.act _ (.takeReply _))
  | .search (.act _ (.endSearch _)) | .search (.deliver _ _ _) | .search (.lose _)
  | .duplicate _ | .upload _ _ (.error _) | .load _ _ _ _ => instDecidableTrue

/-- The node has data under a key. -/
def Has (net : Search.Network) (address key : GoString) : Prop :=
  (net.nodes address).blobStore.get key ≠ none

/-- The peer is listed in the node's catalog for a key. -/
def Lists (n : Search.Node) (key peer : GoString) : Prop :=
  (n.catalog.getPeersForKey key).get peer ≠ none

instance (n : Search.Node) (key peer : GoString) : Decidable (Lists n key peer) :=
  inferInstanceAs (Decidable (_ ≠ none))

/-- The keys a search reply says its sender has. -/
def keysOf (file : FileInfo) : List GoString := file.metahash :: file.chunks.reduceOption

/-- What is true in every state: stores are in memory, what a node has under a key hashes to it, and
the peers that catalogs list, and those that send replies, have what is said. -/
structure Sound (sha256 : Sha256) (net : Search.Network) : Prop where
  address : ∀ a, (net.nodes a).peer.address = a
  inmemory : ∀ a, (net.nodes a).blobStore.backend = .inmemory
  hashed : ∀ a key data, (net.nodes a).blobStore.get key = some data → hashKey sha256 data = key
  lists : ∀ a key peer, Lists (net.nodes a) key peer → Has net peer key
  replies : ∀ p ∈ net.inFlight, ∀ reply, p.2.msg = .reply reply → ∀ file ∈ reply.responses,
    ∀ key ∈ keysOf file, Has net p.2.header.source key

/-! ## What is stored -/

/-- A store in memory whose data hashes to its keys. -/
structure Kept (sha256 : Sha256) (s : Store) : Prop where
  inmemory : s.backend = .inmemory
  hashed : ∀ key data, s.get key = some data → hashKey sha256 data = key

/-- Everything that is there is still there. -/
def Grows (s s' : Store) : Prop := ∀ key, s.get key ≠ none → s'.get key ≠ none

section Stores

variable {sha256 : Sha256} {s : Store} {key : GoString} {data : Bytes}

/-- The in-memory store returns no empty data. -/
theorem Kept.ne_nil (kept : Kept sha256 s) (found : s.get key = some data) : data ≠ [] := by
  unfold Store.get at found
  rw [kept.inmemory] at found
  simpa using (Option.filter_eq_some_iff.mp found).2

/-- Storing data that hashes to its key, or storing nothing where there was nothing. -/
theorem Kept.set (kept : Kept sha256 s) (own : data ≠ [] → hashKey sha256 data = key)
    (vacant : data = [] → s.get key = none) :
    Kept sha256 (s.set key data) ∧ Grows s (s.set key data) := by
  have get := Store.get_set_inmemory kept.inmemory key data
  refine ⟨⟨(Store.set_backend s key data).trans kept.inmemory, fun k v found => ?_⟩,
    fun k there => ?_⟩
  · rw [get] at found
    split at found
    · next same =>
      split at found
      · cases found
      · next filled =>
        cases found
        rw [same]
        exact own filled
    · exact kept.hashed k v found
  · rw [get]
    split
    · next same =>
      split
      · next empty =>
        rw [same] at there
        exact (there (vacant empty)).elim
      · exact Option.some_ne_none _
    · exact there

theorem Grows.refl (s : Store) : Grows s s := fun _ there => there

theorem Grows.trans {s' s'' : Store} (first : Grows s s') (second : Grows s' s'') : Grows s s'' :=
  fun key there => second key (first key there)

/-- Storing data that is not empty under its own keys. -/
theorem Kept.setAll (kept : Kept sha256 s) {writes : List (GoString × Bytes)}
    (own : ∀ w ∈ writes, w.2 ≠ [] ∧ hashKey sha256 w.2 = w.1) :
    Kept sha256 (setAll s writes) ∧ Grows s (setAll s writes) := by
  induction writes generalizing s with
  | nil => exact ⟨kept, Grows.refl s⟩
  | cons w writes ih =>
      obtain ⟨filled, hash⟩ := own w List.mem_cons_self
      have first : Kept sha256 (s.set w.1 w.2) ∧ Grows s (s.set w.1 w.2) :=
        kept.set (fun _ => hash) fun empty => (filled empty).elim
      obtain ⟨kept', grows⟩ := first
      obtain ⟨kept'', grows'⟩ := ih kept' fun w' mem => own w' (List.mem_cons_of_mem w mem)
      exact ⟨kept'', grows.trans grows'⟩

/-- The chunks of a file, whatever the chunk size. -/
theorem chunks_of_split {chunkSize : UInt64} (positive : chunkSize ≠ 0) {chunks : List Bytes}
    (split : splitIntoChunks data chunkSize = .ok chunks) :
    chunks.flatten = data ∧ ∀ chunk ∈ chunks, chunk ≠ [] := by
  by_cases small : chunkSize.toNat < 2 ^ 63
  · obtain ⟨chunks', split', whole, filled⟩ := DataSharing.splitIntoChunks_spec data positive small
    rw [split'] at split
    cases split
    exact ⟨whole, filled⟩
  · have negative : ¬ 0 ≤ chunkSize.toBitVec.toInt := by
      have bound := chunkSize.toNat_lt
      rw [BitVec.toInt_eq_toNat_cond, UInt64.toNat_toBitVec, if_neg (by omega)]
      omega
    unfold DataSharing.splitIntoChunks at split
    dsimp only at split
    rw [if_neg negative] at split
    split at split
    · next empty =>
      cases split
      exact ⟨(List.eq_nil_of_length_eq_zero empty).symm, fun _ mem => by cases mem⟩
    · cases split

/-- An upload of a file that is not empty. -/
theorem Kept.upload (kept : Kept sha256 s) (chunkSize : UInt64) {reader : Except GoString Bytes}
    (filled : ∀ dataBytes, reader = .ok dataBytes → dataBytes ≠ []) :
    Kept sha256 (upload sha256 chunkSize s reader).1 ∧
      Grows s (upload sha256 chunkSize s reader).1 := by
  by_cases zero : chunkSize = 0
  · unfold DataSharing.upload
    rw [if_pos zero]
    exact ⟨kept, Grows.refl s⟩
  cases reader with
  | error errType =>
      simp only [DataSharing.upload, if_neg zero]
      exact ⟨kept, Grows.refl s⟩
  | ok dataBytes =>
      cases split : splitIntoChunks dataBytes chunkSize with
      | error panicked =>
          simp only [DataSharing.upload, if_neg zero, split]
          exact ⟨kept, Grows.refl s⟩
      | ok chunks =>
          obtain ⟨whole, full⟩ := chunks_of_split zero split
          rw [DataSharing.upload_ok zero split]
          refine kept.setAll fun w mem => ?_
          rcases List.mem_append.mp mem with chunk | metafile
          · obtain ⟨blob, listed, rfl⟩ := List.mem_map.mp chunk
            exact ⟨full blob listed, rfl⟩
          · rw [List.mem_singleton.mp metafile]
            refine ⟨DataSharing.joinMetafile_ne_nil sha256 ?_, rfl⟩
            rintro rfl
            exact filled dataBytes rfl whole.symm

/-- What a load goes on with hashes to its key, or is nothing where there was nothing. -/
theorem Kept.supply (kept : Kept sha256 s) {env : Surroundings} (same : env.sha256 = sha256)
    (i : Nat) (catalog : Catalog) (key : GoString) :
    ((supply env i ⟨s, catalog⟩ key).data ≠ [] →
        hashKey sha256 (supply env i ⟨s, catalog⟩ key).data = key) ∧
      ((supply env i ⟨s, catalog⟩ key).data = [] → s.get key = none) := by
  subst same
  unfold DataSharing.supply
  cases found : s.get key with
  | some data =>
      exact ⟨fun _ => kept.hashed key data found, fun empty => (kept.ne_nil found empty).elim⟩
  | none =>
      refine ⟨fun filled => ?_, fun _ => rfl⟩
      dsimp only at filled ⊢
      split at filled
      · exact (filled rfl).elim
      · next known =>
        rw [if_neg known]
        split at filled
        · exact (filled rfl).elim
        · next answer =>
          split at filled
          · next hash =>
            rw [if_pos hash]
            exact hash
          · exact (filled rfl).elim

/-- A load of a download. -/
theorem Kept.load (kept : Kept sha256 s) (env : Surroundings) (same : env.sha256 = sha256)
    (failed : GoString) (i : Nat) (catalog : Catalog) (key : GoString) :
    Kept sha256 (load env failed i ⟨s, catalog⟩ key).1.blobStore ∧
      Grows s (load env failed i ⟨s, catalog⟩ key).1.blobStore := by
  rcases DataSharing.load_spec env failed i ⟨s, catalog⟩ key with
    ⟨-, catalog', err, result⟩ | ⟨-, result⟩
  · rw [result]
    exact ⟨kept, Grows.refl s⟩
  · rw [result]
    obtain ⟨own, vacant⟩ := kept.supply same i catalog key
    exact kept.set own vacant

theorem lists_of_removePeer {catalog : Catalog} {k selected peer : GoString}
    (listed : ((catalog.removePeer key selected).getPeersForKey k).get peer ≠ none) :
    (catalog.getPeersForKey k).get peer ≠ none := by
  unfold Catalog.removePeer at listed
  split at listed
  · exact listed
  · next peers entry =>
    unfold Catalog.getPeersForKey at listed ⊢
    rw [FinMap.get_add] at listed
    split at listed
    · next here =>
      rw [here, entry]
      rw [Option.getD_some, FinMap.get_remove] at listed
      split at listed
      · exact (listed rfl).elim
      · exact listed
    · exact listed

/-- A load removes peers from the catalog, and adds none. -/
theorem lists_of_load {env : Surroundings} {failed : GoString} {i : Nat} {st : State}
    {k peer : GoString}
    (listed : ((load env failed i st key).1.catalog.getPeersForKey k).get peer ≠ none) :
    (st.catalog.getPeersForKey k).get peer ≠ none := by
  unfold DataSharing.load at listed
  split at listed
  · exact listed
  · unfold DataSharing.fetchWithBackOff at listed
    dsimp only at listed
    split at listed
    · next catalog err fetched =>
      split at fetched
      · cases fetched
        exact listed
      · split at fetched
        · cases fetched
        · split at fetched
          · cases fetched
            exact lists_of_removePeer listed
          · cases fetched
    · next catalog data fetched =>
      split at fetched
      · cases fetched
      · split at fetched
        · cases fetched
          exact listed
        · split at fetched
          · cases fetched
          · cases fetched
            exact listed

end Stores

/-! ## What searches tell -/

/-- A packet that is no reply. -/
def Asks (p : Sent) : Prop := ∀ reply, p.2.msg ≠ .reply reply

/-- Replies among the packets are the node's own, and say only what it has. -/
def Tells (n : Search.Node) (sent : List Sent) : Prop :=
  ∀ p ∈ sent, ∀ reply, p.2.msg = .reply reply → p.2.header.source = n.peer.address ∧
    ∀ file ∈ reply.responses, ∀ key ∈ keysOf file, n.blobStore.get key ≠ none

section Searches

variable {n : Search.Node}

theorem asks_sendEach {send : Nat → GoString → Nat → Option Sent}
    (asks : ∀ i neighbor budget p, send i neighbor budget = some p → Asks p) (i : Nat)
    (neighbors : List GoString) (budgets : List Nat) :
    ∀ p ∈ Search.sendEach send i neighbors budgets, Asks p := by
  induction neighbors generalizing i budgets with
  | nil =>
      intro p mem
      cases mem
  | cons neighbor neighbors ih =>
      cases budgets with
      | nil =>
          intro p mem
          cases mem
      | cons budget budgets =>
          intro p mem
          rcases List.mem_append.mp mem with here | later
          · split at here
            · exact asks i neighbor budget p (Option.mem_toList.mp here)
            · cases here
          · exact ih (i + 1) budgets p later

theorem asks_sendToNeighbors (c : Search.FanOut) (requestID : GoString) (budget : Nat)
    (reg : Search.Regexp) : ∀ p ∈ n.sendToNeighbors c requestID budget reg, Asks p := by
  refine asks_sendEach ?_ 0 _ _
  intro i neighbor share p sent reply
  unfold Search.Node.sendSearchRequest at sent
  split at sent
  · cases sent
    exact fun same => by cases same
  · cases sent

theorem asks_forwardSearchRequest (c : Search.FanOut) (searchReq : Search.SearchRequest)
    (source : GoString) : ∀ p ∈ n.forwardSearchRequest c searchReq source, Asks p := by
  unfold Search.Node.forwardSearchRequest
  split
  · dsimp only
    split
    · refine asks_sendEach ?_ 0 _ _
      intro i neighbor share p sent reply
      unfold Search.Node.sendForwardedSearchRequest at sent
      split at sent
      · cases sent
        exact fun same => by cases same
      · cases sent
    · intro p mem
      cases mem
  · intro p mem
    cases mem

/-- What a search does to a node: blobs and the address stay, and so does the catalog. -/
structure Untouched (n n' : Search.Node) : Prop where
  address : n'.peer.address = n.peer.address
  blobStore : n'.blobStore = n.blobStore
  catalog : n'.catalog = n.catalog

theorem addPeer_address (addrs : List GoString) (n : Gossip.Node) :
    (n.addPeer addrs).address = n.address := by
  induction addrs generalizing n with
  | nil => rfl
  | cons a addrs ih =>
      unfold Gossip.Node.addPeer
      split
      · exact ih _
      · exact ih n

/-- A node's own steps, other than storing blobs, only ask. -/
theorem step_untouched {e : Search.Event} (stores : ∀ key data, e ≠ .storeBlob key data) :
    Untouched n (n.step e).1 ∧ ∀ p ∈ (n.step e).2, Asks p := by
  have none : ∀ p ∈ ([] : List Sent), Asks p := by
    intro p mem
    cases mem
  cases e with
  | addPeer addrs => exact ⟨⟨addPeer_address addrs n.peer, rfl, rfl⟩, none⟩
  | setRoutingEntry origin relayAddr =>
      refine ⟨⟨?_, rfl, rfl⟩, none⟩
      dsimp only [Search.Node.step]
      unfold Gossip.Node.setRoutingEntry
      split <;> rfl
  | storeBlob key data => exact (stores key data rfl).elim
  | tag name metahash =>
      refine ⟨?_, none⟩
      dsimp only [Search.Node.step]
      unfold Search.Node.tag
      split
      · exact ⟨rfl, rfl, rfl⟩
      · split <;> exact ⟨rfl, rfl, rfl⟩
  | searchAll c requestID reg budget =>
      dsimp only [Search.Node.step]
      unfold Search.Node.searchAll
      dsimp only
      split
      · exact ⟨⟨rfl, rfl, rfl⟩, none⟩
      · exact ⟨⟨rfl, rfl, rfl⟩, asks_sendToNeighbors c requestID budget reg⟩
  | sendSearchRequests c requestID reg budget =>
      dsimp only [Search.Node.step]
      unfold Search.Node.sendSearchRequests
      dsimp only
      split
      · exact ⟨⟨rfl, rfl, rfl⟩, none⟩
      · exact ⟨⟨rfl, rfl, rfl⟩, asks_sendToNeighbors c requestID budget reg⟩
  | takeReply requestID =>
      refine ⟨?_, none⟩
      dsimp only [Search.Node.step]
      unfold Search.Node.takeReply
      split <;> exact ⟨rfl, rfl, rfl⟩
  | endSearch requestID => exact ⟨⟨rfl, rfl, rfl⟩, none⟩

/-- `SearchLocalFiles` lists only what is there. -/
theorem has_of_searchLocalFiles {order : FinMap.RangeOrder GoString Bytes} {reg : Search.Regexp}
    {file : FileInfo} (listed : file ∈ n.searchLocalFiles order reg) {key : GoString}
    (mem : key ∈ keysOf file) : n.blobStore.get key ≠ none := by
  obtain ⟨name, -, told⟩ := List.mem_filterMap.mp listed
  unfold Search.Node.fileInfo at told
  split at told
  · cases told
  · next metahash named =>
    split at told
    · cases told
    · next metafile there =>
      cases told
      rcases List.mem_cons.mp mem with rfl | chunk
      · rw [there]
        exact Option.some_ne_none _
      · obtain ⟨chunkHash, -, shown⟩ := List.mem_map.mp (List.reduceOption_mem_iff.mp chunk)
        split at shown
        · cases shown
        · next has =>
          cases shown
          exact has

/-- A request is answered with the files that `SearchLocalFiles` lists. -/
theorem handleSearchRequestMessage_replies (compile : Compile) (n : Search.Node)
    (c : Search.RequestChoice) (source : GoString) (searchReq : Search.SearchRequest) :
    Untouched n (n.handleSearchRequestMessage compile c source searchReq).node ∧
      ∀ p ∈ (n.handleSearchRequestMessage compile c source searchReq).sent, ∀ reply,
        p.2.msg = .reply reply → p.2.header.source = n.peer.address ∧
          ∃ reg, reply.responses = n.searchLocalFiles c.names reg := by
  have forwards := asks_forwardSearchRequest (n := n) c.fanOut searchReq source
  unfold Search.Node.handleSearchRequestMessage
  split
  · exact ⟨⟨rfl, rfl, rfl⟩, fun p mem => by cases mem⟩
  · dsimp only
    split
    · exact ⟨⟨rfl, rfl, rfl⟩, fun p mem reply msg => (forwards p mem reply msg).elim⟩
    · split
      · exact ⟨⟨rfl, rfl, rfl⟩, fun p mem reply msg => (forwards p mem reply msg).elim⟩
      · next reg compiled _ reply sent =>
        refine ⟨⟨rfl, rfl, rfl⟩, fun p mem answer msg => ?_⟩
        rcases List.mem_append.mp mem with forwarded | own
        · exact (forwards p forwarded answer msg).elim
        · rw [List.mem_singleton.mp own] at msg ⊢
          unfold Search.Node.sendReplyMessage at sent
          split at sent
          · cases sent
          · split at sent
            · cases sent
            · cases sent
              cases msg
              exact ⟨rfl, reg, rfl⟩

/-- A request is answered with what the node has. -/
theorem handleSearchRequestMessage_tells (compile : Compile) (n : Search.Node)
    (c : Search.RequestChoice) (source : GoString) (searchReq : Search.SearchRequest) :
    Untouched n (n.handleSearchRequestMessage compile c source searchReq).node ∧
      Tells n (n.handleSearchRequestMessage compile c source searchReq).sent := by
  obtain ⟨untouched, replies⟩ := handleSearchRequestMessage_replies compile n c source searchReq
  refine ⟨untouched, fun p mem reply msg => ?_⟩
  obtain ⟨own, reg, responses⟩ := replies p mem reply msg
  rw [responses]
  exact ⟨own, fun file listed key told => has_of_searchLocalFiles listed told⟩

/-- What a reply adds to the catalog: its sender, unless that is the node itself, for the keys it
says it has. -/
theorem lists_updateCatalog {catalog : Catalog} {key peerAddr self k peer : GoString} :
    ((Search.updateCatalog catalog key peerAddr self).getPeersForKey k).get peer ≠ none ↔
      (catalog.getPeersForKey k).get peer ≠ none ∨ peerAddr ≠ self ∧ peer = peerAddr ∧ k = key := by
  unfold Search.updateCatalog
  by_cases own : peerAddr = self
  · rw [if_pos own]
    exact ⟨.inl, fun either => either.resolve_right fun other => other.1 own⟩
  · rw [if_neg own]
    by_cases same : k = key
    · subst same
      have entry : Catalog.getPeersForKey
          (catalog.add k ((catalog.getPeersForKey k).add peerAddr ())) k =
            (catalog.getPeersForKey k).add peerAddr () := by
        rw [Catalog.getPeersForKey, FinMap.get_add_self, Option.getD_some]
      rw [entry, FinMap.get_add]
      by_cases added : peer = peerAddr
      · simp [added, own]
      · simp [added]
    · have entry : Catalog.getPeersForKey
          (catalog.add key ((catalog.getPeersForKey key).add peerAddr ())) k =
            catalog.getPeersForKey k := by
        rw [Catalog.getPeersForKey, FinMap.get_add_of_ne _ _ same]
        rfl
      rw [entry]
      exact ⟨.inl, fun either => either.resolve_right fun other => same other.2.2⟩

theorem lists_foldl_updateCatalog {keys : List GoString} {catalog : Catalog}
    {source self k peer : GoString} :
    ((keys.foldl (fun catalog key => Search.updateCatalog catalog key source self) catalog
        ).getPeersForKey k).get peer ≠ none ↔
      (catalog.getPeersForKey k).get peer ≠ none ∨ source ≠ self ∧ peer = source ∧ k ∈ keys := by
  induction keys generalizing catalog with
  | nil => simp
  | cons key keys ih =>
      rw [List.foldl_cons, ih, lists_updateCatalog, List.mem_cons]
      tauto

theorem learnFile_catalog (source : GoString) (n : Search.Node) (file : FileInfo) :
    (Search.Node.learnFile source n file).catalog = (keysOf file).foldl
      (fun catalog key => Search.updateCatalog catalog key source n.peer.address) n.catalog := by
  unfold Search.Node.learnFile keysOf
  dsimp only
  rw [List.foldl_cons]
  generalize Search.updateCatalog n.catalog file.metahash source n.peer.address = catalog
  induction file.chunks generalizing catalog with
  | nil => rfl
  | cons chunk chunks ih =>
      cases chunk with
      | none => exact ih catalog
      | some key => exact ih _

/-- What a reply adds to the catalog of the node that handles it, and that it changes no blob. -/
theorem handleSearchReplyMessage_lists (n : Search.Node) (source : GoString) (reply : SearchReply) :
    (n.handleSearchReplyMessage source reply).peer = n.peer ∧
      (n.handleSearchReplyMessage source reply).blobStore = n.blobStore ∧
      ∀ k peer, Lists (n.handleSearchReplyMessage source reply) k peer ↔
        Lists n k peer ∨ source ≠ n.peer.address ∧ peer = source ∧
          ∃ file ∈ reply.responses, k ∈ keysOf file := by
  have learned : ∀ (files : List FileInfo) (n : Search.Node),
      (files.foldl (Search.Node.learnFile source) n).peer = n.peer ∧
        (files.foldl (Search.Node.learnFile source) n).blobStore = n.blobStore ∧
        ∀ k peer, Lists (files.foldl (Search.Node.learnFile source) n) k peer ↔
          Lists n k peer ∨ source ≠ n.peer.address ∧ peer = source ∧
            ∃ file ∈ files, k ∈ keysOf file := by
    intro files
    induction files with
    | nil =>
        intro n
        refine ⟨rfl, rfl, fun k peer => ?_⟩
        simp
    | cons file files ih =>
        intro n
        obtain ⟨peers, blobs, lists⟩ := ih (Search.Node.learnFile source n file)
        refine ⟨peers, blobs, fun k peer => ?_⟩
        have here : Lists (Search.Node.learnFile source n file) k peer ↔
            Lists n k peer ∨ source ≠ n.peer.address ∧ peer = source ∧ k ∈ keysOf file := by
          unfold Lists
          rw [learnFile_catalog, lists_foldl_updateCatalog]
        rw [List.foldl_cons, lists, here, List.exists_mem_cons_iff]
        change _ ∨ source ≠ n.peer.address ∧ _ ↔ _
        tauto
  have known := learned reply.responses n
  unfold Search.Node.handleSearchReplyMessage
  dsimp only
  split
  · exact known
  · split <;> exact known

end Searches

/-! ## Steps -/

/-- What a reply on its way says is true. -/
def Truthful (net : Search.Network) (p : Sent) : Prop :=
  ∀ reply, p.2.msg = .reply reply → ∀ file ∈ reply.responses, ∀ key ∈ keysOf file,
    Has net p.2.header.source key

section Steps

variable {compile : Compile} {sha256 : Sha256} {net : Search.Network} {a : GoString}
  {n' : Search.Node} {inFlight : List Sent}

theorem Sound.kept (sound : Sound sha256 net) (a : GoString) :
    Kept sha256 (net.nodes a).blobStore :=
  ⟨sound.inmemory a, sound.hashed a⟩

/-- Nothing is lost when a node's store grows. -/
theorem has_update (grows : Grows (net.nodes a).blobStore n'.blobStore) {peer key : GoString}
    (has : Has net peer key) : Has ⟨Function.update net.nodes a n', inFlight⟩ peer key := by
  unfold Has at has ⊢
  by_cases here : peer = a
  · subst here
    dsimp only
    rw [Function.update_self]
    exact grows key has
  · dsimp only
    rw [Function.update_of_ne here]
    exact has

/-- A node does something: its store grows, and what is new in its catalog and in the packets is
true. -/
theorem Sound.update (sound : Sound sha256 net) (address : n'.peer.address = a)
    (kept : Kept sha256 n'.blobStore) (grows : Grows (net.nodes a).blobStore n'.blobStore)
    (lists : ∀ key peer, Lists n' key peer → Lists (net.nodes a) key peer ∨ Has net peer key)
    (sent : ∀ p ∈ inFlight, p ∈ net.inFlight ∨ Truthful net p) :
    Sound sha256 ⟨Function.update net.nodes a n', inFlight⟩ := by
  refine ⟨?_, ?_, ?_, fun b key peer listed => has_update grows ?_,
    fun p mem reply msg file listed key told => has_update grows ?_⟩
  · apply (Function.forall_update_iff net.nodes fun b n => n.peer.address = b).mpr
    exact ⟨address, fun b _ => sound.address b⟩
  · apply (Function.forall_update_iff net.nodes fun _ n => n.blobStore.backend = .inmemory).mpr
    exact ⟨kept.inmemory, fun b _ => sound.inmemory b⟩
  · apply (Function.forall_update_iff net.nodes fun _ n => ∀ key data,
      n.blobStore.get key = some data → hashKey sha256 data = key).mpr
    exact ⟨kept.hashed, fun b _ => sound.hashed b⟩
  · dsimp only at listed
    by_cases here : b = a
    · subst here
      rw [Function.update_self] at listed
      rcases lists key peer listed with before | now
      · exact sound.lists b key peer before
      · exact now
    · rw [Function.update_of_ne here] at listed
      exact sound.lists b key peer listed
  · rcases sent p mem with before | now
    · exact sound.replies p before reply msg file listed key told
    · exact now reply msg file listed key told

/-- A node does something that touches neither blobs nor catalog. -/
theorem Sound.untouched (sound : Sound sha256 net) (untouched : Untouched (net.nodes a) n')
    (sent : ∀ p ∈ inFlight, p ∈ net.inFlight ∨ Truthful net p) :
    Sound sha256 ⟨Function.update net.nodes a n', inFlight⟩ ∧
      Grows (net.nodes a).blobStore n'.blobStore := by
  have grows : Grows (net.nodes a).blobStore n'.blobStore := by
    rw [untouched.blobStore]
    exact Grows.refl _
  have kept : Kept sha256 n'.blobStore := by
    rw [untouched.blobStore]
    exact sound.kept a
  refine ⟨sound.update (untouched.address.trans (sound.address a)) kept grows
    (fun key peer listed => .inl ?_) sent, grows⟩
  unfold Lists at listed ⊢
  rw [untouched.catalog] at listed
  exact listed

theorem Tells.truthful (sound : Sound sha256 net) {sent : List Sent}
    (tells : Tells (net.nodes a) sent) {p : Sent} (mem : p ∈ sent) : Truthful net p := by
  intro reply msg file listed key told
  obtain ⟨source, has⟩ := tells p mem reply msg
  rw [source, sound.address]
  exact has file listed key told

/-- A packet arrives. -/
theorem Sound.deliver (sound : Sound sha256 net) (compile : Compile) (relay : Gossip.SendChoice)
    (c : Search.RequestChoice) {pkt : Search.Packet} (arriving : (a, pkt) ∈ net.inFlight)
    {rest : List Sent} (subset : rest ⊆ net.inFlight) :
    let o := (net.nodes a).handleIncomingPacket compile relay c pkt
    Sound sha256 ⟨Function.update net.nodes a o.node, rest ++ o.sent⟩ ∧
      Grows (net.nodes a).blobStore o.node.blobStore := by
  intro o
  have onTheWay : Truthful net (a, pkt) := sound.replies _ arriving
  have address := sound.address a
  by_cases here : pkt.header.destination = (net.nodes a).peer.address
  · cases decoded : pkt.msg with
    | request searchReq =>
        have handled := handleSearchRequestMessage_tells compile (net.nodes a) c pkt.header.source
          searchReq
        have same : o = (net.nodes a).handleSearchRequestMessage compile c pkt.header.source
            searchReq := by
          dsimp only [o]
          rw [Search.Node.handleIncomingPacket, if_pos here, decoded]
        rw [same]
        refine sound.untouched handled.1 fun p mem => ?_
        rcases List.mem_append.mp mem with before | now
        · exact .inl (subset before)
        · exact .inr (handled.2.truthful sound now)
    | reply reply =>
        have same : o = ⟨(net.nodes a).handleSearchReplyMessage pkt.header.source reply, [],
            none⟩ := by
          dsimp only [o]
          rw [Search.Node.handleIncomingPacket, if_pos here, decoded]
        obtain ⟨peer, blobStore, lists⟩ :=
          handleSearchReplyMessage_lists (net.nodes a) pkt.header.source reply
        rw [same]
        dsimp only
        rw [List.append_nil]
        have grows : Grows (net.nodes a).blobStore
            ((net.nodes a).handleSearchReplyMessage pkt.header.source reply).blobStore := by
          rw [blobStore]
          exact Grows.refl _
        refine ⟨sound.update (by rw [peer, address]) (by rw [blobStore]; exact sound.kept a) grows
          (fun key listed now => ?_) fun p mem => .inl (subset mem), grows⟩
        rcases (lists key listed).mp now with before | ⟨-, rfl, file, mem, told⟩
        · exact .inl before
        · exact .inr (onTheWay reply decoded file mem key told)
  · have same : o = ⟨net.nodes a, (net.nodes a).relayPacket relay pkt, none⟩ := by
      dsimp only [o]
      rw [Search.Node.handleIncomingPacket, if_neg here]
    rw [same]
    refine sound.untouched ⟨rfl, rfl, rfl⟩ fun p mem => ?_
    rcases List.mem_append.mp mem with before | now
    · exact .inl (subset before)
    · right
      unfold Search.Node.relayPacket at now
      dsimp only at now
      split at now
      · rw [List.mem_singleton.mp now]
        exact onTheWay
      · cases now

/-- A packet that is repeated was on its way before. -/
theorem of_mem_duplicate {i : Nat} {p : Sent} (mem : p ∈ net.inFlight ++ net.inFlight[i]?.toList) :
    p ∈ net.inFlight := by
  rcases List.mem_append.mp mem with before | again
  · exact before
  · exact List.mem_of_getElem? (Option.mem_toList.mp again)

/-- One step keeps the invariant, and loses no data. -/
theorem Sound.step (sound : Sound sha256 net) (compile : Compile) {action : Action}
    (proper : Proper action) :
    Sound sha256 (step compile sha256 net action) ∧
      ∀ peer key, Has net peer key → Has (step compile sha256 net action) peer key := by
  cases action with
  | search action =>
      cases action with
      | act b e =>
          have stores : ∀ key data, e ≠ .storeBlob key data := by
            rintro key data rfl
            exact proper
          obtain ⟨untouched, asks⟩ := step_untouched (n := net.nodes b) stores
          obtain ⟨next, grows⟩ := sound.untouched untouched fun p mem => by
            rcases List.mem_append.mp mem with before | now
            · exact .inl before
            · exact .inr fun reply msg => (asks p now reply msg).elim
          exact ⟨next, fun peer key has => has_update grows has⟩
      | deliver i relay c =>
          cases found : net.inFlight[i]? with
          | none =>
              simp only [Sharing.step, Search.Network.step, found]
              exact ⟨sound, fun _ _ has => has⟩
          | some arriving =>
              simp only [Sharing.step, Search.Network.step, found]
              obtain ⟨next, grows⟩ := sound.deliver compile relay c
                (List.mem_of_getElem? found) (List.eraseIdx_sublist net.inFlight i).subset
              exact ⟨next, fun peer key has => has_update grows has⟩
      | lose i =>
          refine ⟨⟨sound.address, sound.inmemory, sound.hashed, sound.lists, fun p mem => ?_⟩,
            fun _ _ has => has⟩
          exact sound.replies p (List.mem_of_mem_eraseIdx mem)
  | duplicate i =>
      refine ⟨⟨sound.address, sound.inmemory, sound.hashed, sound.lists, fun p mem => ?_⟩,
        fun _ _ has => has⟩
      exact sound.replies p (of_mem_duplicate mem)
  | upload b chunkSize reader =>
      have filled : ∀ dataBytes, reader = .ok dataBytes → dataBytes ≠ [] := by
        rintro dataBytes rfl
        exact proper
      obtain ⟨kept, grows⟩ := (sound.kept b).upload chunkSize filled
      dsimp only [Sharing.step]
      exact ⟨sound.update (sound.address b) kept grows (fun _ _ listed => .inl listed)
        fun p mem => .inl mem, fun peer key has => has_update grows has⟩
  | load b retry x key =>
      obtain ⟨kept, grows⟩ := (sound.kept b).load (surroundings sha256 retry x) rfl [] 0
        (net.nodes b).catalog key
      dsimp only [Sharing.step, loaded]
      exact ⟨sound.update (sound.address b) kept grows
        (fun k peer listed => .inl (lists_of_load listed)) fun p mem => .inl mem,
        fun peer k has => has_update grows has⟩

end Steps

/-- What a run keeps. -/
theorem Sound.run {sha256 : Sha256} {net : Search.Network} (sound : Sound sha256 net)
    (compile : Compile) {actions : List Action} (proper : ∀ action ∈ actions, Proper action) :
    Sound sha256 (Run.run (Sharing.step compile sha256) net actions) ∧ ∀ peer key,
      Has net peer key → Has (Run.run (Sharing.step compile sha256) net actions) peer key := by
  induction actions generalizing net with
  | nil => exact ⟨sound, fun _ _ has => has⟩
  | cons action actions ih =>
      obtain ⟨first, later⟩ := List.forall_mem_cons.mp proper
      obtain ⟨next, keeps⟩ := sound.step compile first
      obtain ⟨last, keeps'⟩ := ih next later
      exact ⟨last, fun peer key has => keeps' peer key (keeps peer key has)⟩

/-- `A` uploads a file of two chunks and tags it, and `B` searches for it; its request is repeated
on the way. -/
def published : List Action :=
  [.search (.act (str "B") (.addPeer [str "A"])), .upload (str "A") 3 (.ok (str "aaabbb")),
    .search (.act (str "A") (.tag (str "file") (hexEncode DataSharing.metaDigest.1))),
    .search (.act (str "B") (.searchAll Search.sampleFanOut (str "search")
      ⟨str "file", fun name => str "file" <:+: name⟩ 1)),
    .duplicate 0, .search (.deliver 0 Gossip.sampleSend Search.sampleRequest),
    .search (.deliver 1 Gossip.sampleSend Search.sampleRequest)]

end Sharing

end Peerster
