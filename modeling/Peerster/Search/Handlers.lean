import Mathlib.Algebra.GroupWithZero.Nat
import Peerster.DataSharing
import Peerster.Gossip.Handlers

/-!
# Searches

The search part of a node: `SearchAll` and `SendSearchRequests` as far as they send, the handlers of
search requests and replies, and the names (`search.go`, `handlers.go`, `data_sharing.go`).

What a call cannot know is a choice it is given: packet IDs, failures of encoding and sending,
random permutations, and the order of map iterations.  `regexp.MustCompile` is a parameter; it
panics on a text that is no regular expression, and `ProcessPacket` turns the panic into an error.
Budgets are `uint` in the source; here they are natural numbers, since none is ever larger than the
first.
-/

namespace Peerster.Search

open DataSharing (Catalog)

/-! ## Messages -/

/-- `SearchRequestMessage`. -/
structure SearchRequest where
  requestID : GoString
  origin : GoString
  pattern : GoString
  budget : Nat
  deriving DecidableEq

/-- `FileInfo`; a chunk that the peer does not have is `nil`. -/
structure FileInfo where
  name : GoString
  metahash : GoString
  chunks : List (Option GoString)
  deriving DecidableEq

/-- `SearchReplyMessage`. -/
structure SearchReply where
  requestID : GoString
  responses : List FileInfo
  deriving DecidableEq

/-- A message of a search. -/
inductive Message : Type
  | request (msg : SearchRequest)
  | reply (msg : SearchReply)

/-- A packet with a message of a search. -/
structure Packet where
  header : Gossip.Header
  msg : Message

/-- A packet handed to the socket, with the address it is sent to. -/
abbrev Sent := GoString × Packet

/-- A compiled regular expression: its text, and the strings it matches. -/
structure Regexp where
  text : GoString
  matchString : GoString → Bool

/-- `regexp.MustCompile`; an error is the text of the panic. -/
abbrev Compile := GoString → Except GoString Regexp

/-! ## The budget -/

/-- `rand.Perm` and `rand.Shuffle`. -/
structure Randomness where
  perm : Nat → List Nat
  isPerm : ∀ n, (perm n).Perm (List.range n)
  shuffle : List GoString → List GoString
  isShuffle : ∀ l, (shuffle l).Perm l

/-- `divideBudget`. -/
def divideBudget (random : Randomness) (totalBudget numNeighbors : Nat) : List Nat :=
  if totalBudget = 0 ∨ numNeighbors = 0 then List.replicate numNeighbors 0
  else
    let baseBudget := totalBudget / numNeighbors
    let extraBudget := totalBudget % numNeighbors
    ((random.perm numNeighbors).take extraBudget).foldl
      (fun budgets index => budgets.modify index (· + 1))
      (List.replicate numNeighbors baseBudget)

theorem length_foldl_modify (indices budgets : List Nat) :
    (indices.foldl (fun budgets index => budgets.modify index (· + 1)) budgets).length =
      budgets.length := by
  induction indices generalizing budgets with
  | nil => rfl
  | cons index indices ih => rw [List.foldl_cons, ih, List.length_modify]

theorem sum_modify_succ {budgets : List Nat} {index : Nat} (inside : index < budgets.length) :
    (budgets.modify index (· + 1)).sum = budgets.sum + 1 := by
  induction budgets generalizing index with
  | nil => cases inside
  | cons budget budgets ih =>
      cases index with
      | zero =>
          simp only [List.modify_zero_cons, List.sum_cons]
          omega
      | succ index =>
          rw [List.modify_succ_cons, List.sum_cons, List.sum_cons,
            ih (Nat.lt_of_succ_lt_succ inside)]
          omega

/-- Adding one at each index of a list. -/
theorem sum_foldl_modify {indices budgets : List Nat} (inside : ∀ i ∈ indices, i < budgets.length) :
    (indices.foldl (fun budgets index => budgets.modify index (· + 1)) budgets).sum =
      budgets.sum + indices.length := by
  induction indices generalizing budgets with
  | nil => rfl
  | cons index indices ih =>
      have here := inside index List.mem_cons_self
      rw [List.foldl_cons, ih, sum_modify_succ here, List.length_cons]
      · omega
      · intro i mem
        rw [List.length_modify]
        exact inside i (List.mem_cons_of_mem index mem)

/-- There is a share for every neighbor. -/
theorem length_divideBudget (random : Randomness) (totalBudget numNeighbors : Nat) :
    (divideBudget random totalBudget numNeighbors).length = numNeighbors := by
  unfold divideBudget
  split
  · exact List.length_replicate
  · rw [length_foldl_modify, List.length_replicate]

/-- The shares of a budget add up to it. -/
theorem sum_divideBudget (random : Randomness) (totalBudget : Nat) {numNeighbors : Nat}
    (some : numNeighbors ≠ 0) :
    (divideBudget random totalBudget numNeighbors).sum = totalBudget := by
  unfold divideBudget
  split
  · next nothing =>
    rw [List.sum_replicate_nat, Nat.mul_zero]
    rcases nothing with zero | none
    · exact zero.symm
    · exact (some none).elim
  · have perm := random.isPerm numNeighbors
    have extra : totalBudget % numNeighbors ≤ (random.perm numNeighbors).length := by
      rw [perm.length_eq, List.length_range]
      exact (Nat.mod_lt _ (Nat.pos_of_ne_zero some)).le
    rw [sum_foldl_modify, List.sum_replicate_nat, List.length_take_of_le extra]
    · exact Nat.div_add_mod totalBudget numNeighbors
    · intro i mem
      rw [List.length_replicate]
      exact List.mem_range.mp (perm.mem_iff.mp (List.mem_of_mem_take mem))

/-! ## Nodes -/

/-- A channel of search replies: its capacity, and what is in its buffer. -/
structure ReplyChannel where
  capacity : Nat
  buffer : List SearchReply

/-- The gossip part of a node, with its peers and routes, and the fields that searches read and
write. -/
structure Node where
  peer : Gossip.Node
  handledSearchRequests : FinMap GoString GoString
  searchReplyChan : FinMap GoString ReplyChannel
  catalog : Catalog
  namingStore : Store
  blobStore : Store

/-- What sending to neighbors depends on: how they are listed, the random numbers, and each send. -/
structure FanOut where
  neighbors : Gossip.NeighborChoice
  random : Randomness
  send : Nat → Gossip.SendChoice

/-- What handling a search request depends on. -/
structure RequestChoice where
  fanOut : FanOut
  names : FinMap.RangeOrder GoString Bytes
  reply : Gossip.SendChoice

/-- How a handler leaves the node, what it has sent, and the error it returns or panics with. -/
structure Outcome where
  node : Node
  sent : List Sent
  err : Option GoString

/-- The loop over neighbors and their budgets, from index `i` on; one without a budget is left
out. -/
def sendEach (send : Nat → GoString → Nat → Option Sent) :
    Nat → List GoString → List Nat → List Sent
  | i, neighbor :: neighbors, budget :: budgets =>
      (if budget > 0 then (send i neighbor budget).toList else []) ++
        sendEach send (i + 1) neighbors budgets
  | _, _, _ => []

namespace Node

/-- A packet of the node's own. -/
def packet (n : Node) (c : Gossip.SendChoice) (dest : GoString) (msg : Message) : Packet :=
  ⟨⟨c.packetID, n.peer.address, n.peer.address, dest⟩, msg⟩

/-! ## Requests -/

/-- `sendSearchRequest`; its errors are only logged. -/
def sendSearchRequest (n : Node) (c : Gossip.SendChoice) (requestID : GoString) (budget : Nat)
    (destPeer : GoString) (reg : Regexp) : Option Sent :=
  match c.marshalError, n.peer.routingTable.get destPeer, c.sendError with
  | none, some nextHop, none =>
      some (nextHop, n.packet c destPeer (.request ⟨requestID, n.peer.address, reg.text, budget⟩))
  | _, _, _ => none

/-- The requests that `SearchAll` and `SendSearchRequests` send to the neighbors. -/
def sendToNeighbors (n : Node) (c : FanOut) (requestID : GoString) (budget : Nat) (reg : Regexp) :
    List Sent :=
  let neighbors := n.peer.getNeighbors c.neighbors
  sendEach (fun i neighbor neighborBudget =>
      n.sendSearchRequest (c.send i) requestID neighborBudget neighbor reg) 0 neighbors
    (divideBudget c.random budget neighbors.length)

/-- `SearchAll`, up to its collecting loop: the node with the channel of replies registered, and the
requests; without neighbors it returns at once. -/
def searchAll (n : Node) (c : FanOut) (requestID : GoString) (reg : Regexp) (budget : Nat) :
    Node × List Sent :=
  let numNeighbors := (n.peer.getNeighbors c.neighbors).length
  if numNeighbors = 0 then (n, [])
  else
    ({ n with searchReplyChan := n.searchReplyChan.add requestID ⟨numNeighbors, []⟩ },
      n.sendToNeighbors c requestID budget reg)

/-- `SendSearchRequests`; the channel is registered before the neighbors are counted. -/
def sendSearchRequests (n : Node) (c : FanOut) (requestID : GoString) (reg : Regexp)
    (budget : Nat) : Node × List Sent :=
  let n := { n with searchReplyChan := n.searchReplyChan.add requestID ⟨50, []⟩ }
  if (n.peer.getNeighbors c.neighbors).length = 0 then (n, [])
  else (n, n.sendToNeighbors c requestID budget reg)

/-- `sendForwardedSearchRequest`; its errors are dropped. -/
def sendForwardedSearchRequest (n : Node) (c : Gossip.SendChoice) (searchReq : SearchRequest)
    (dest : GoString) (budget : Nat) : Option Sent :=
  match c.marshalError, c.sendError with
  | none, none => some (dest, n.packet c dest (.request
      ⟨searchReq.requestID, searchReq.origin, searchReq.pattern, budget⟩))
  | _, _ => none

/-- `forwardSearchRequest`; it returns no error. -/
def forwardSearchRequest (n : Node) (c : FanOut) (searchReq : SearchRequest) (source : GoString) :
    List Sent :=
  if searchReq.budget > 1 then
    let neighbors := n.peer.getOtherNeighbors c.neighbors source
    if neighbors.length > 0 then
      sendEach (fun i neighbor neighborBudget =>
          n.sendForwardedSearchRequest (c.send i) searchReq neighbor neighborBudget) 0
        (c.random.shuffle neighbors)
        (divideBudget c.random (searchReq.budget - 1) neighbors.length)
    else []
  else []

/-! ## Local files -/

/-- `getLocalFilenamesMatching`. -/
def getLocalFilenamesMatching (n : Node) (order : FinMap.RangeOrder GoString Bytes)
    (reg : Regexp) : List GoString :=
  (order.list n.namingStore.data).filter fun name =>
    match n.namingStore.data.get name with
    | none => false
    | some metaHash => reg.matchString name && (n.blobStore.get metaHash).isSome

/-- What `SearchLocalFiles` tells of one name. -/
def fileInfo (n : Node) (name : GoString) : Option FileInfo :=
  match n.namingStore.get name with
  | none => none
  | some metaHash =>
      match n.blobStore.get metaHash with
      | none => none
      | some metaFile =>
          some ⟨name, metaHash, (DataSharing.splitMetafile metaFile).map fun chunkHash =>
            if n.blobStore.get chunkHash = none then none else some chunkHash⟩

/-- `SearchLocalFiles`. -/
def searchLocalFiles (n : Node) (order : FinMap.RangeOrder GoString Bytes) (reg : Regexp) :
    List FileInfo :=
  (n.getLocalFilenamesMatching order reg).filterMap n.fileInfo

/-! ## Handlers -/

/-- `sendReplyMessage`. -/
def sendReplyMessage (n : Node) (c : Gossip.SendChoice) (matchingFiles : List FileInfo)
    (requestID origin source : GoString) : Except GoString Sent :=
  match c.marshalError with
  | some err => .error err
  | none =>
      match c.sendError with
      | some err => .error err
      | none => .ok (source, n.packet c origin (.reply ⟨requestID, matchingFiles⟩))

/-- `handleSearchRequestMessage`. -/
def handleSearchRequestMessage (compile : Compile) (n : Node) (c : RequestChoice)
    (source : GoString) (searchReq : SearchRequest) : Outcome :=
  if (n.handledSearchRequests.get searchReq.requestID).isSome then ⟨n, [], none⟩
  else
    let forwarded := n.forwardSearchRequest c.fanOut searchReq source
    match compile searchReq.pattern with
    | .error panicked => ⟨n, forwarded, some panicked⟩
    | .ok reg =>
        let matchingFiles := n.searchLocalFiles c.names reg
        match n.sendReplyMessage c.reply matchingFiles searchReq.requestID searchReq.origin source
        with
        | .error err => ⟨n, forwarded, some err⟩
        | .ok reply =>
            ⟨{ n with handledSearchRequests :=
                n.handledSearchRequests.add searchReq.requestID source },
              forwarded ++ [reply], none⟩

end Node

/-- `Update` of the catalog. -/
def updateCatalog (catalog : Catalog) (key peerAddr self : GoString) : Catalog :=
  if peerAddr = self then catalog
  else catalog.add key ((catalog.getPeersForKey key).add peerAddr ())

namespace Node

/-- What `handleSearchReplyMessage` does for one file: the catalog and the name, then the chunks. -/
def learnFile (source : GoString) (n : Node) (file : FileInfo) : Node :=
  let catalog := updateCatalog n.catalog file.metahash source n.peer.address
  { n with
    catalog := file.chunks.foldl (fun catalog chunk =>
      match chunk with
      | none => catalog
      | some key => updateCatalog catalog key source n.peer.address) catalog
    namingStore := n.namingStore.set file.name file.metahash }

/-- `handleSearchReplyMessage`; a reply for which there is no room in the channel is dropped. -/
def handleSearchReplyMessage (n : Node) (source : GoString) (searchReply : SearchReply) : Node :=
  let n := searchReply.responses.foldl (learnFile source) n
  match n.searchReplyChan.get searchReply.requestID with
  | none => n
  | some chan =>
      if chan.buffer.length < chan.capacity then
        let chan := { chan with buffer := chan.buffer ++ [searchReply] }
        { n with searchReplyChan := n.searchReplyChan.add searchReply.requestID chan }
      else n

/-! ## Names -/

/-- `Tag`; the result is its error. -/
def tag (n : Node) (name metahash : GoString) : Node × Option GoString :=
  if name = [] ∨ metahash = [] then (n, some (str "Name or metahash invalid"))
  else if (n.namingStore.get name).isSome then
    (n, some (str "Name " ++ name ++ str " already exists"))
  else ({ n with namingStore := n.namingStore.set name metahash }, none)

/-- `Resolve`. -/
def resolve (n : Node) (name : GoString) : GoString :=
  if name = [] then [] else (n.namingStore.get name).getD []

/-! ## Packets -/

/-- `relayPacket`. -/
def relayPacket (n : Node) (c : Gossip.SendChoice) (pkt : Packet) : List Sent :=
  let header : Gossip.Header :=
    ⟨c.packetID, pkt.header.source, n.peer.address, pkt.header.destination⟩
  match n.peer.routingTable.get header.destination, c.sendError with
  | some nextHop, none => [(nextHop, ⟨header, pkt.msg⟩)]
  | _, _ => []

/-- `handleIncomingPacket`, on a packet of a search. -/
def handleIncomingPacket (compile : Compile) (n : Node) (relay : Gossip.SendChoice)
    (c : RequestChoice) (pkt : Packet) : Outcome :=
  if pkt.header.destination = n.peer.address then
    match pkt.msg with
    | .request searchReq => n.handleSearchRequestMessage compile c pkt.header.source searchReq
    | .reply searchReply => ⟨n.handleSearchReplyMessage pkt.header.source searchReply, [], none⟩
  else ⟨n, n.relayPacket relay pkt, none⟩

end Node

/-- Something a node does of its own: a call of its interface, the end of a search, or a reply that
a search takes from its channel.  `Upload` and `Download` store blobs. -/
inductive Event : Type
  | addPeer (addrs : List GoString)
  | setRoutingEntry (origin relayAddr : GoString)
  | storeBlob (key : GoString) (data : Bytes)
  | tag (name metahash : GoString)
  | searchAll (c : FanOut) (requestID : GoString) (reg : Regexp) (budget : Nat)
  | sendSearchRequests (c : FanOut) (requestID : GoString) (reg : Regexp) (budget : Nat)
  | takeReply (requestID : GoString)
  | endSearch (requestID : GoString)

namespace Node

/-- A search takes the first reply from its channel. -/
def takeReply (n : Node) (requestID : GoString) : Node :=
  match n.searchReplyChan.get requestID with
  | none => n
  | some chan =>
      { n with searchReplyChan :=
        n.searchReplyChan.add requestID { chan with buffer := chan.buffer.drop 1 } }

/-- One step of a node of its own. -/
def step (n : Node) : Event → Node × List Sent
  | .addPeer addrs => ({ n with peer := n.peer.addPeer addrs }, [])
  | .setRoutingEntry origin relayAddr =>
      ({ n with peer := n.peer.setRoutingEntry origin relayAddr }, [])
  | .storeBlob key data => ({ n with blobStore := n.blobStore.set key data }, [])
  | .tag name metahash => ((n.tag name metahash).1, [])
  | .searchAll c requestID reg budget => n.searchAll c requestID reg budget
  | .sendSearchRequests c requestID reg budget => n.sendSearchRequests c requestID reg budget
  | .takeReply requestID => (n.takeReply requestID, [])
  | .endSearch requestID =>
      ({ n with searchReplyChan := n.searchReplyChan.remove requestID }, [])

end Node

/-! ## Samples -/

/-- Neighbors in key order, without shuffling. -/
def sampleFanOut : FanOut where
  neighbors := ⟨.sorted, 0⟩
  random :=
    { perm := List.range
      isPerm := fun n => .refl (List.range n)
      shuffle := id
      isShuffle := fun l => .refl l }
  send _ := Gossip.sampleSend

def sampleRequest : RequestChoice := ⟨sampleFanOut, .sorted, Gossip.sampleSend⟩

/-- A node without files and names, and with some peers. -/
def sampleNode (address : GoString) (peers : List GoString) : Node where
  peer := (Gossip.newPeer address 0).addPeer peers
  handledSearchRequests := .empty
  searchReplyChan := .empty
  catalog := .empty
  namingStore := ⟨.inmemory, .empty⟩
  blobStore := ⟨.inmemory, .empty⟩

/-- `regexp.MustCompile` on a lone opening parenthesis, and on texts that match themselves. -/
def sampleCompile : Compile := fun text =>
  if text = str "(" then
    .error (str "regexp: Compile(`(`): error parsing regexp: missing closing ): `(`")
  else .ok ⟨text, fun name => text <:+: name⟩

end Peerster.Search
