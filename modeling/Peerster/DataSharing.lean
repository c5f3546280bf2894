import Peerster.Storage

/-!
# Downloads

`Download`, `fetchWithBackOff` and `sendDataRequest` of `peer/impl/data_sharing.go`, with the
catalog of `SafeCatalog.go`.  A blob is stored under the hex text of its SHA-256, a metafile holds
the keys of the chunks, one to a line.

What the network does is a parameter: each fetch of a download has an `Exchange`, which says how the
peers are drawn, whether there is a route, and what comes back on every try.  A key that a download
needs is in the store, is delivered, is refused (no peer is known for it, or the answer has another
hash), or is asked for and not answered (`Supply`).  Only a refusal ends a download with an error.
-/

namespace Peerster.DataSharing

/-- The key of a blob: the hex text of its SHA-256. -/
def hashKey (sha256 : Sha256) (data : Bytes) : GoString := hexEncode (sha256 data).1

/-! ## The catalog -/

/-- The peers known to have the data of a key. -/
abbrev Catalog := FinMap GoString (FinMap GoString Unit)

/-- `GetPeersForKey`. -/
def Catalog.getPeersForKey (catalog : Catalog) (key : GoString) : FinMap GoString Unit :=
  (catalog.get key).getD .empty

/-- `Remove`; deleting from a missing entry has no effect. -/
def Catalog.removePeer (catalog : Catalog) (key peer : GoString) : Catalog :=
  match catalog.get key with
  | none => catalog
  | some peers => catalog.add key (peers.remove peer)

/-! ## Requests -/

/-- What happens on one try: sending fails, a reply is put on the channel, or neither happens before
the timeout.  The value of a reply may be `nil`. -/
inductive Attempt : Type
  | sendFails (err : GoString)
  | reply (requestID : GoString) (value : Option Bytes)
  | timeout

/-- What one fetch meets with. -/
structure Exchange where
  /-- The order in which the loop over the peers visits them. -/
  peerOrder : FinMap.RangeOrder GoString Unit
  /-- The number that `rand.Intn` is drawn from. -/
  random : Nat
  requestID : GoString
  /-- The error of encoding the request, if there is one. -/
  marshalError : Option GoString
  /-- The next hop to the selected peer, if the routing table has one. -/
  nextHop : Option GoString
  attempts : Nat → Attempt

/-- What a download depends on besides the node's own state: the hash function, the configured
number of retries, and the exchange of each fetch; the fetch of the metafile is number 0, that of
the chunk with index `i` is number `i + 1`. -/
structure Surroundings where
  sha256 : Sha256
  retry : UInt64
  exchange : Nat → Exchange

/-- `maxRetries`, an `int` made of a `uint`. -/
def maxRetries (retry : UInt64) : Int := retry.toBitVec.toInt

/-- The loop of `sendDataRequest`, with `remaining` tries left. -/
def requestLoop (x : Exchange) (key destPeer : GoString) : Nat → Nat → Except GoString Bytes
  | 0, _ => .error (str "timeout waiting for DataReplyMessage for key " ++ key)
  | remaining + 1, retries =>
      match x.attempts retries with
      | .sendFails err => .error err
      | .reply requestID value =>
          if requestID = x.requestID then
            match value with
            | some data => .ok data
            | none => .error (str "Peer " ++ destPeer ++ str " does not have data")
          else requestLoop x key destPeer remaining (retries + 1)
      | .timeout => requestLoop x key destPeer remaining (retries + 1)

/-- `sendDataRequest`. -/
def sendDataRequest (retry : UInt64) (x : Exchange) (key destPeer : GoString) :
    Except GoString Bytes :=
  match x.marshalError with
  | some err => .error err
  | none =>
      match x.nextHop with
      | none => .error (str "No route to destination " ++ destPeer)
      | some _ => requestLoop x key destPeer (maxRetries retry).toNat 0

/-- `fetchWithBackOff`; `none` is `nil`.  The error of `sendDataRequest` is dropped. -/
def fetchWithBackOff (env : Surroundings) (i : Nat) (catalog : Catalog) (key : GoString) :
    Catalog × Except GoString (Option Bytes) :=
  let peers := catalog.getPeersForKey key
  if peers.size = 0 then
    (catalog, .error (str "No peers have data for key " ++ key))
  else
    let selectedPeer := getRandom ((env.exchange i).peerOrder.list peers) (env.exchange i).random
    match sendDataRequest env.retry (env.exchange i) key selectedPeer with
    | .error _ => (catalog, .ok none)
    | .ok data =>
        if hashKey env.sha256 data ≠ key then
          (catalog.removePeer key selectedPeer, .error (str "Data doesno't match expected data"))
        else (catalog, .ok (some data))

/-! ## Downloads -/

/-- The fields of `node` that a download uses. -/
structure State where
  blobStore : Store
  catalog : Catalog

/-- What `Download` does for the metafile and for each chunk: take the data from the store, else
fetch it, and store it. -/
def load (env : Surroundings) (failed : GoString) (i : Nat) (st : State) (key : GoString) :
    State × Except GoString Bytes :=
  match st.blobStore.get key with
  | some data => ({ st with blobStore := st.blobStore.set key data }, .ok data)
  | none =>
      match fetchWithBackOff env i st.catalog key with
      | (catalog, .error err) =>
          ({ st with catalog := catalog }, .error (failed ++ key ++ str ": " ++ err))
      | (catalog, .ok fetched) =>
          (⟨st.blobStore.set key (fetched.getD []), catalog⟩, .ok (fetched.getD []))

/-- The loop of `Download` over the chunks, from fetch number `i` on. -/
def loadChunks (env : Surroundings) : Nat → State → List GoString →
    State × Except GoString (List Bytes)
  | _, st, [] => (st, .ok [])
  | i, st, key :: keys =>
      match load env (str "failed to fetch chunk ") i st key with
      | (st, .error err) => (st, .error err)
      | (st, .ok chunk) =>
          match loadChunks env (i + 1) st keys with
          | (st, .error err) => (st, .error err)
          | (st, .ok chunks) => (st, .ok (chunk :: chunks))

/-- `strings.Split(text, MetafileSep)`. -/
def splitMetafile (text : Bytes) : List GoString := text.splitOn 10

/-- `strings.Join(keys, MetafileSep)`. -/
def joinMetafile (keys : List GoString) : Bytes := [10].intercalate keys

/-- `Download`. -/
def download (env : Surroundings) (st : State) (metahash : GoString) :
    State × Except GoString Bytes :=
  match load env (str "Failed to fetch metafile ") 0 st metahash with
  | (st, .error err) => (st, .error err)
  | (st, .ok metafileContent) =>
      match loadChunks env 1 st (splitMetafile metafileContent) with
      | (st, .error err) => (st, .error err)
      | (st, .ok chunks) => (st, .ok chunks.flatten)

/-! ## Where the data of a key comes from -/

/-- How the network and the store supply the data of a key. -/
inductive Supply : Type
  | present (data : Bytes)
  | delivered (data : Bytes)
  | unanswered
  | refused
  deriving DecidableEq

namespace Supply

/-- The data a download goes on with. -/
def data : Supply → Bytes
  | .present data => data
  | .delivered data => data
  | .unanswered => []
  | .refused => []

/-- The data of the key cannot be obtained. -/
def Missing (s : Supply) : Prop := s = .unanswered ∨ s = .refused

theorem not_missing {s : Supply} (answered : s ≠ .unanswered) (supplied : s ≠ .refused) :
    ¬ s.Missing := by
  intro missing
  rcases missing with unanswered | refused
  · exact answered unanswered
  · exact supplied refused

end Supply

/-- How fetch number `i` supplies a key. -/
def supply (env : Surroundings) (i : Nat) (st : State) (key : GoString) : Supply :=
  match st.blobStore.get key with
  | some data => .present data
  | none =>
      let peers := st.catalog.getPeersForKey key
      if peers.size = 0 then .refused
      else
        match sendDataRequest env.retry (env.exchange i) key
            (getRandom ((env.exchange i).peerOrder.list peers) (env.exchange i).random) with
        | .error _ => .unanswered
        | .ok data => if hashKey env.sha256 data = key then .delivered data else .refused

/-- The state once the data of a key has been stored. -/
def State.store (st : State) (key : GoString) (data : Bytes) : State :=
  { st with blobStore := st.blobStore.set key data }

/-- How the keys of a list are supplied one after the other, up to the first that is refused. -/
def chunkSupplies (env : Surroundings) : Nat → State → List GoString → List Supply
  | _, _, [] => []
  | i, st, key :: keys =>
      let s := supply env i st key
      s :: if s = .refused then [] else chunkSupplies env (i + 1) (st.store key s.data) keys

/-- How the keys that a download of `metahash` needs are supplied: the metafile, then the chunks it
lists. -/
def supplies (env : Surroundings) (st : State) (metahash : GoString) : List Supply :=
  let s := supply env 0 st metahash
  s :: if s = .refused then []
    else chunkSupplies env 1 (st.store metahash s.data) (splitMetafile s.data)

/-! ## What loading does -/

/-- Loading a key ends the download exactly when the key is refused, with nothing stored, and goes
on with the supplied data otherwise. -/
theorem load_spec (env : Surroundings) (failed : GoString) (i : Nat) (st : State)
    (key : GoString) :
    (supply env i st key = .refused ∧
        ∃ catalog err, load env failed i st key = ({ st with catalog := catalog }, .error err)) ∨
      (supply env i st key ≠ .refused ∧
        load env failed i st key =
          (st.store key (supply env i st key).data, .ok (supply env i st key).data)) := by
  unfold supply load fetchWithBackOff
  cases st.blobStore.get key with
  | some data => exact .inr ⟨by simp, rfl⟩
  | none =>
      dsimp only
      by_cases unknown : (st.catalog.getPeersForKey key).size = 0
      · rw [if_pos unknown, if_pos unknown]
        exact .inl ⟨rfl, _, _, rfl⟩
      · rw [if_neg unknown, if_neg unknown]
        cases sendDataRequest env.retry (env.exchange i) key _ with
        | error err => exact .inr ⟨by simp, rfl⟩
        | ok data =>
            dsimp only
            by_cases same : hashKey env.sha256 data = key
            · rw [if_pos same, if_neg (not_not.mpr same)]
              exact .inr ⟨by simp, rfl⟩
            · rw [if_neg same, if_pos same]
              exact .inl ⟨rfl, _, _, rfl⟩

/-! ## Integrity -/

/-- Every blob is stored under its own key. -/
def Addressed (sha256 : Sha256) (s : Store) : Prop :=
  ∀ k v, s.data.get k = some v → k = hashKey sha256 v

theorem Addressed.set {sha256 : Sha256} {s : Store} {key : GoString} {data : Bytes}
    (addressed : Addressed sha256 s) (own : key = hashKey sha256 data) :
    Addressed sha256 (s.set key data) := by
  intro k v found
  rcases Store.data_of_set found with ⟨rfl, rfl⟩ | before
  · exact own
  · exact addressed k v before

/-- A blob store, as a node that only ever stored blobs under their keys has it. -/
structure BlobStore (sha256 : Sha256) where
  store : Store
  addressed : Addressed sha256 store

def digestA : Digest :=
  ⟨[152, 52, 135, 109, 207, 176, 92, 177, 103, 165, 194, 73, 83, 235, 165, 140, 74, 200, 155, 26,
    223, 87, 242, 143, 47, 157, 9, 175, 16, 126, 232, 240], by decide⟩

def digestB : Digest :=
  ⟨[62, 116, 75, 157, 195, 147, 137, 186, 240, 197, 160, 102, 5, 137, 184, 64, 47, 61, 187, 73, 184,
    155, 62, 117, 242, 201, 53, 88, 82, 163, 198, 119], by decide⟩

def metaDigest : Digest :=
  ⟨[174, 201, 88, 191, 77, 197, 104, 199, 116, 140, 187, 66, 244, 35, 51, 254, 92, 32, 23, 216,
    3, 64, 37, 247, 39, 127, 128, 137, 14, 150, 175, 201], by decide⟩

def metafile : Bytes := joinMetafile [hexEncode digestA.1, hexEncode digestB.1]

/-- SHA-256 on the three blobs. -/
def sampleSha : Sha256 := fun data =>
  if data = str "aaa" then digestA
  else if data = str "bbb" then digestB
  else metaDigest

/-- The metafile and the first chunk are there. -/
def partialStore : BlobStore sampleSha where
  store := ⟨.inmemory,
    (FinMap.empty.add (hexEncode digestA.1) (str "aaa")).add (hexEncode metaDigest.1) metafile⟩
  addressed := by
    intro k v found
    rw [FinMap.get_add] at found
    split at found
    · next same =>
      cases found
      rw [same]
      decide +kernel
    · rw [FinMap.get_add] at found
      split at found
      · next same =>
        cases found
        rw [same]
        decide +kernel
      · cases found

/-- The peer never answers. -/
def silence : Surroundings where
  sha256 := sampleSha
  retry := 2
  exchange _ :=
    ⟨.sorted, 0, str "request", none, some (str "127.0.0.1:2"), fun _ => .timeout⟩

end Peerster.DataSharing
