import Peerster.DataSharing
import Peerster.Lib.Chunks

/-!
# Uploads

`Upload` of `peer/impl/data_sharing.go`: it cuts the data into chunks, stores every chunk and the
metafile under their keys, and returns the key of the metafile.  On a node with an in-memory store
the data can be downloaded again without a request, unless it is empty: the store does not tell an
empty metafile from a missing one (`roundTrip_iff`).
-/

namespace Peerster.DataSharing

/-! ## Chunks -/

/-- The loop of `splitIntoChunks` from index `i` on, with a step of at least one; a slice in memory
is so much shorter than the largest `int` that the index does not overflow. -/
def splitLoop (dataBytes : Bytes) (chunkSize : Nat) : Nat → Nat → List Bytes
  | 0, _ => []
  | fuel + 1, i =>
      if i < dataBytes.length then
        let stop := min (i + chunkSize) dataBytes.length
        (dataBytes.drop i).take (stop - i) :: splitLoop dataBytes chunkSize fuel (i + chunkSize)
      else []

/-- `splitIntoChunks`.  A chunk size beyond the largest `int` is a negative step, with which the
first slice expression panics. -/
def splitIntoChunks (dataBytes : Bytes) (chunkSize : UInt64) : Except GoString (List Bytes) :=
  let step := chunkSize.toBitVec.toInt
  if 0 ≤ step then .ok (splitLoop dataBytes step.toNat dataBytes.length 0)
  else if dataBytes.length = 0 then .ok []
  else .error (str "runtime error: slice bounds out of range [:" ++ itoa step ++ str "]")

/-- `Upload`; the reader gives the data, or the type of the error with which reading it ends. -/
def upload (sha256 : Sha256) (chunkSize : UInt64) (blobStore : Store)
    (reader : Except GoString Bytes) : Store × Except GoString GoString :=
  if chunkSize = 0 then (blobStore, .error (str "invalid chunk size: 0"))
  else
    match reader with
    | .error errType => (blobStore, .error (str "got " ++ errType))
    | .ok dataBytes =>
        match splitIntoChunks dataBytes chunkSize with
        | .error panicked => (blobStore, .error panicked)
        | .ok chunks =>
            let blobStore := chunks.foldl
              (fun blobStore chunk => blobStore.set (hashKey sha256 chunk) chunk) blobStore
            let metafileContent := joinMetafile (chunks.map (hashKey sha256))
            let metaHash := hashKey sha256 metafileContent
            (blobStore.set metaHash metafileContent, .ok metaHash)

/-- The loop cuts the data from index `i` on into chunks. -/
theorem chunked_splitLoop {dataBytes : Bytes} {chunkSize fuel i : Nat} (positive : 0 < chunkSize)
    (enough : dataBytes.length ≤ i + fuel) :
    Chunked chunkSize (dataBytes.drop i) (splitLoop dataBytes chunkSize fuel i) := by
  induction fuel generalizing i with
  | zero =>
      rw [splitLoop, List.drop_eq_nil_of_le (by omega)]
      exact Chunked.nil
  | succ fuel ih =>
      unfold splitLoop
      split
      · next inside =>
        dsimp only
        have rest := ih (i := i + chunkSize) (by omega)
        by_cases full : i + chunkSize ≤ dataBytes.length
        · have length : ((dataBytes.drop i).take chunkSize).length = chunkSize := by
            rw [List.length_take, List.length_drop, Nat.min_eq_left (by omega)]
          have cut := rest.cons positive length
          rw [← List.drop_drop, List.take_append_drop] at cut
          rw [Nat.min_eq_left full, Nat.add_sub_cancel_left]
          exact cut
        · have length := List.length_drop (l := dataBytes) (i := i)
          -- the last chunk is what is left, and the loop is at its end
          have ended : splitLoop dataBytes chunkSize fuel (i + chunkSize) = [] := by
            cases fuel with
            | zero => rfl
            | succ fuel => rw [splitLoop, if_neg (by omega)]
          rw [Nat.min_eq_right (by omega), List.take_of_length_le length.le, ended]
          exact Chunked.single (by omega) (by omega)
      · next outside =>
        rw [List.drop_eq_nil_of_le (by omega)]
        exact Chunked.nil

/-- A chunk size that is an `int` keeps its value. -/
theorem toInt_chunkSize {chunkSize : UInt64} (small : chunkSize.toNat < 2 ^ 63) :
    chunkSize.toBitVec.toInt = chunkSize.toNat := by
  rw [BitVec.toInt_eq_toNat_cond, UInt64.toNat_toBitVec, if_pos (by omega)]

/-- With a chunk size that is an `int`, `splitIntoChunks` is its loop. -/
theorem splitIntoChunks_of_small (dataBytes : Bytes) {chunkSize : UInt64}
    (small : chunkSize.toNat < 2 ^ 63) :
    splitIntoChunks dataBytes chunkSize =
      .ok (splitLoop dataBytes chunkSize.toNat dataBytes.length 0) := by
  simp only [splitIntoChunks, toInt_chunkSize small, Int.toNat_natCast]
  rw [if_pos (Int.natCast_nonneg _)]

theorem toNat_pos_of_ne_zero {chunkSize : UInt64} (positive : chunkSize ≠ 0) :
    0 < chunkSize.toNat := by
  rcases Nat.eq_zero_or_pos chunkSize.toNat with zero | least
  · exact (positive (UInt64.toNat_inj.mp zero)).elim
  · exact least

/-- What `splitIntoChunks` does with a chunk size that is an `int` and not zero. -/
theorem splitIntoChunks_spec (dataBytes : Bytes) {chunkSize : UInt64} (positive : chunkSize ≠ 0)
    (small : chunkSize.toNat < 2 ^ 63) :
    ∃ chunks, splitIntoChunks dataBytes chunkSize = .ok chunks ∧ chunks.flatten = dataBytes ∧
      ∀ chunk ∈ chunks, chunk ≠ [] := by
  have least := toNat_pos_of_ne_zero positive
  have cut := chunked_splitLoop (i := 0) least (Nat.le_add_left dataBytes.length 0)
  rw [List.drop_zero] at cut
  exact ⟨_, splitIntoChunks_of_small dataBytes small, cut.flatten_eq,
    fun _ mem => cut.ne_nil_of_mem least mem⟩

/-! ## What an upload stores -/

/-- The entries that an upload of some chunks writes, in order. -/
def uploadWrites (sha256 : Sha256) (chunks : List Bytes) : List (GoString × Bytes) :=
  chunks.map (fun chunk => (hashKey sha256 chunk, chunk)) ++
    [(hashKey sha256 (joinMetafile (chunks.map (hashKey sha256))),
      joinMetafile (chunks.map (hashKey sha256)))]

/-- `Set` of several entries, one after the other. -/
def setAll (s : Store) (writes : List (GoString × Bytes)) : Store :=
  writes.foldl (fun s w => s.set w.1 w.2) s

theorem setAll_backend (s : Store) (writes : List (GoString × Bytes)) :
    (setAll s writes).backend = s.backend := by
  induction writes generalizing s with
  | nil => rfl
  | cons w writes ih => exact (ih _).trans (Store.set_backend s w.1 w.2)

theorem takes_setAll (s : Store) (writes : List (GoString × Bytes)) (key : GoString) :
    (setAll s writes).takes key = s.takes key := by
  rw [Store.takes, Store.takes, setAll_backend]

/-- An upload stores its chunks and the metafile, and returns the key of the metafile. -/
theorem upload_ok {sha256 : Sha256} {chunkSize : UInt64} {dataBytes : Bytes} {chunks : List Bytes}
    (positive : chunkSize ≠ 0) (split : splitIntoChunks dataBytes chunkSize = .ok chunks)
    (s : Store) :
    upload sha256 chunkSize s (.ok dataBytes) =
      (setAll s (uploadWrites sha256 chunks),
        .ok (hashKey sha256 (joinMetafile (chunks.map (hashKey sha256))))) := by
  simp only [upload, if_neg positive, split, setAll, uploadWrites, List.foldl_append,
    List.foldl_map]
  rfl

/-- Entries under different keys do not overwrite each other. -/
theorem setAll_data {s : Store} {writes : List (GoString × Bytes)} {key : GoString} {value : Bytes}
    (mem : (key, value) ∈ writes) (takes : s.takes key = true)
    (only : ∀ w ∈ writes, w.1 = key → w.2 = value) :
    (setAll s writes).data.get key = some value := by
  -- from the last entry with the key on, the value stays
  have stays : ∀ (later : List (GoString × Bytes)) (s : Store), later ⊆ writes →
      s.takes key = true → s.data.get key = some value →
      (setAll s later).data.get key = some value := by
    intro later
    induction later with
    | nil =>
        intro s _ _ there
        exact there
    | cons w later ih =>
        intro s subset takes there
        obtain ⟨first, rest⟩ := List.cons_subset.mp subset
        refine ih (s.set w.1 w.2) rest ?_ ?_
        · rw [Store.takes_set]
          exact takes
        · by_cases same : w.1 = key
          · subst same
            rw [Store.set_data_get_self takes, only w first rfl]
          · rw [Store.set_data_get_of_ne (Ne.symm same)]
            exact there
  obtain ⟨before, after, rfl⟩ := List.append_of_mem mem
  have takes' : (setAll s before).takes key = true := by
    rw [takes_setAll]
    exact takes
  have placed : (setAll s (before ++ (key, value) :: after)) =
      setAll ((setAll s before).set key value) after := by
    simp only [setAll, List.foldl_append, List.foldl_cons]
  rw [placed]
  refine stays after _ ?_ ?_ (Store.set_data_get_self takes' value)
  · intro w inside
    exact List.mem_append_right _ (List.mem_cons_of_mem _ inside)
  · rw [Store.takes_set]
    exact takes'

/-! ## Downloading what is there -/

/-- Storing what `Get` has returned changes nothing. -/
theorem store_of_get {st : State} {key : GoString} {data : Bytes}
    (there : st.blobStore.get key = some data) : st.store key data = st := by
  have entry := Store.data_of_get there
  have same : st.blobStore.set key data = st.blobStore := by
    unfold Store.set
    split
    · have map : st.blobStore.data.add key data = st.blobStore.data := by
        refine FinMap.ext fun k => ?_
        rw [FinMap.get_add]
        split
        · next here => rw [here, entry]
        · rfl
      rw [map]
    · rfl
  rw [State.store, same]

theorem supply_of_get {st : State} {key : GoString} {data : Bytes} (env : Surroundings) (i : Nat)
    (there : st.blobStore.get key = some data) : supply env i st key = .present data := by
  rw [supply, there]

theorem load_of_get {st : State} {key : GoString} {data : Bytes} (env : Surroundings)
    (failed : GoString) (i : Nat) (there : st.blobStore.get key = some data) :
    load env failed i st key = (st, .ok data) := by
  rcases load_spec env failed i st key with ⟨refused, _⟩ | ⟨_, loaded⟩
  · rw [supply_of_get env i there] at refused
    cases refused
  · rw [supply_of_get env i there] at loaded
    rw [loaded, Supply.data, store_of_get there]

/-- Chunks that are all there are loaded as they are. -/
theorem loadChunks_of_get {st : State} {key : Bytes → GoString} {chunks : List Bytes}
    (env : Surroundings) (i : Nat)
    (there : ∀ chunk ∈ chunks, st.blobStore.get (key chunk) = some chunk) :
    loadChunks env i st (chunks.map key) = (st, .ok chunks) ∧
      chunkSupplies env i st (chunks.map key) = chunks.map .present := by
  induction chunks generalizing i with
  | nil => exact ⟨rfl, rfl⟩
  | cons chunk chunks ih =>
      have first := there chunk List.mem_cons_self
      obtain ⟨loaded, supplied⟩ := ih (i + 1) fun c mem => there c (List.mem_cons_of_mem chunk mem)
      constructor
      · simp only [List.map_cons, loadChunks, load_of_get env _ i first, loaded]
      · simp only [List.map_cons, chunkSupplies, supply_of_get env i first, Supply.data,
          store_of_get first, supplied]
        rfl

/-- A file of which everything is there is downloaded without a request. -/
theorem download_of_get (env : Surroundings) (st : State) {metahash : GoString} {metafile : Bytes}
    {key : Bytes → GoString} {chunks : List Bytes}
    (found : st.blobStore.get metahash = some metafile)
    (keys : splitMetafile metafile = chunks.map key)
    (there : ∀ chunk ∈ chunks, st.blobStore.get (key chunk) = some chunk) :
    (download env st metahash).2 = .ok chunks.flatten ∧
      supplies env st metahash = .present metafile :: chunks.map .present := by
  obtain ⟨loaded, supplied⟩ := loadChunks_of_get env 1 there
  constructor
  · simp only [download, load_of_get env _ 0 found, keys, loaded]
  · simp only [supplies, supply_of_get env 0 found, Supply.data, store_of_get found, keys, supplied]
    rfl

/-- Only what `Get` finds is present. -/
theorem get_of_supply {env : Surroundings} {i : Nat} {st : State} {key : GoString} {data : Bytes}
    (present : supply env i st key = .present data) : st.blobStore.get key = some data := by
  unfold supply at present
  split at present
  · next data' found =>
    cases present
    exact found
  · dsimp only at present
    split at present
    · cases present
    · split at present
      · cases present
      · split at present <;> cases present

/-! ## The round trip -/

/-- Different blobs have different hashes. -/
def CollisionFree (sha256 : Sha256) (blobs : List Bytes) : Prop :=
  ∀ a ∈ blobs, ∀ b ∈ blobs, sha256 a = sha256 b → a = b

/-- What an upload stores: the chunks, and the metafile. -/
def uploadBlobs (sha256 : Sha256) (chunks : List Bytes) : List Bytes :=
  chunks ++ [joinMetafile (chunks.map (hashKey sha256))]

theorem hashKey_injective {sha256 : Sha256} {a b : Bytes}
    (same : hashKey sha256 a = hashKey sha256 b) :
    sha256 a = sha256 b :=
  Subtype.ext (hexEncode_injective same)

/-- An upload to an in-memory store leaves every blob of its own under its key. -/
theorem data_of_upload {sha256 : Sha256} {chunks : List Bytes} {s : Store}
    (inmemory : s.backend = .inmemory)
    (collisionFree : CollisionFree sha256 (uploadBlobs sha256 chunks)) {blob : Bytes}
    (mem : blob ∈ uploadBlobs sha256 chunks) :
    (setAll s (uploadWrites sha256 chunks)).data.get (hashKey sha256 blob) = some blob := by
  have writes : uploadWrites sha256 chunks =
      (uploadBlobs sha256 chunks).map fun blob => (hashKey sha256 blob, blob) := by
    rw [uploadWrites, uploadBlobs, List.map_append, List.map_singleton]
  apply setAll_data
  · rw [writes]
    exact List.mem_map_of_mem mem
  · rw [Store.takes, inmemory]
  · intro w inside same
    rw [writes] at inside
    obtain ⟨other, mem', rfl⟩ := List.mem_map.mp inside
    exact collisionFree other mem' blob mem (hashKey_injective same)

theorem newline_not_mem_hashKey (sha256 : Sha256) (blob : Bytes) : 10 ∉ hashKey sha256 blob := by
  intro mem
  have large := le_of_mem_hexEncode mem
  revert large
  decide

/-- The metafile of some chunks lists their keys. -/
theorem splitMetafile_joinMetafile (sha256 : Sha256) {chunks : List Bytes} (some : chunks ≠ []) :
    splitMetafile (joinMetafile (chunks.map (hashKey sha256))) = chunks.map (hashKey sha256) := by
  apply List.splitOn_intercalate
  · intro key mem
    obtain ⟨chunk, _, rfl⟩ := List.mem_map.mp mem
    exact newline_not_mem_hashKey sha256 chunk
  · intro none
    exact some (List.map_eq_nil_iff.mp none)

theorem joinMetafile_ne_nil (sha256 : Sha256) {chunks : List Bytes} (some : chunks ≠ []) :
    joinMetafile (chunks.map (hashKey sha256)) ≠ [] := by
  intro empty
  have keys := splitMetafile_joinMetafile sha256 some
  rw [empty] at keys
  -- an empty text is one empty line, and no key is empty
  have line : [] ∈ chunks.map (hashKey sha256) := by
    rw [← keys]
    exact List.mem_singleton.mpr rfl
  obtain ⟨chunk, _, none⟩ := List.mem_map.mp line
  have length := length_hexEncode (sha256 chunk).1
  rw [← hashKey, none, (sha256 chunk).2] at length
  cases length

/-- Chunks that have been uploaded are downloaded from the store. -/
theorem download_uploaded (env : Surroundings) (st : State)
    (inmemory : st.blobStore.backend = .inmemory) {chunks : List Bytes}
    (distinct : CollisionFree env.sha256 (uploadBlobs env.sha256 chunks)) (some : chunks ≠ [])
    (filled : ∀ chunk ∈ chunks, chunk ≠ []) :
    let uploaded : State :=
      { st with blobStore := setAll st.blobStore (uploadWrites env.sha256 chunks) }
    let metahash := hashKey env.sha256 (joinMetafile (chunks.map (hashKey env.sha256)))
    (download env uploaded metahash).2 = .ok chunks.flatten ∧
      ∀ s ∈ supplies env uploaded metahash, ∃ blob, s = .present blob := by
  intro uploaded metahash
  have stored : ∀ blob ∈ uploadBlobs env.sha256 chunks, blob ≠ [] →
      uploaded.blobStore.get (hashKey env.sha256 blob) = .some blob :=
    fun blob mem => Store.get_of_data (data_of_upload inmemory distinct mem)
  have found := stored _ (List.mem_append_right _ (List.mem_singleton.mpr rfl))
    (joinMetafile_ne_nil env.sha256 some)
  obtain ⟨downloaded, supplied⟩ := download_of_get env uploaded found
    (splitMetafile_joinMetafile env.sha256 some)
    fun chunk mem => stored chunk (List.mem_append_left _ mem) (filled chunk mem)
  refine ⟨downloaded, fun s mem => ?_⟩
  rw [supplied] at mem
  rcases List.mem_cons.mp mem with rfl | later
  · exact ⟨_, rfl⟩
  · obtain ⟨chunk, _, rfl⟩ := List.mem_map.mp later
    exact ⟨chunk, rfl⟩

/-- The in-memory store does not find an empty metafile. -/
theorem get_empty_metafile {sha256 : Sha256} {s : Store} (inmemory : s.backend = .inmemory) :
    (setAll s (uploadWrites sha256 [])).get (hashKey sha256 (joinMetafile [])) = none := by
  have collisionFree : CollisionFree sha256 (uploadBlobs sha256 []) := by
    intro a memA b memB _
    rw [List.mem_singleton.mp memA, List.mem_singleton.mp memB]
  have entry := data_of_upload inmemory collisionFree (List.mem_singleton.mpr rfl)
  rw [Store.get, setAll_backend, inmemory]
  dsimp only
  rw [List.map_nil] at entry
  rw [entry]
  rfl

/-- The data is uploaded and downloaded again from the same node, which sends no request. -/
def RoundTrip (env : Surroundings) (chunkSize : UInt64) (st : State) (data : Bytes) : Prop :=
  ∀ metahash, (upload env.sha256 chunkSize st.blobStore (.ok data)).2 = .ok metahash →
    let uploaded : State :=
      { st with blobStore := (upload env.sha256 chunkSize st.blobStore (.ok data)).1 }
    (download env uploaded metahash).2 = .ok data ∧
      ∀ s ∈ supplies env uploaded metahash, ∃ blob, s = .present blob

/-- With an in-memory store, and no collision among the blobs that the upload stores, the round trip
works exactly for data that is not empty. -/
theorem roundTrip_iff (env : Surroundings) {chunkSize : UInt64} (positive : chunkSize ≠ 0)
    (small : chunkSize.toNat < 2 ^ 63) (st : State) (inmemory : st.blobStore.backend = .inmemory)
    (data : Bytes)
    (collisionFree : ∀ chunks, splitIntoChunks data chunkSize = .ok chunks →
      CollisionFree env.sha256 (uploadBlobs env.sha256 chunks)) :
    RoundTrip env chunkSize st data ↔ data ≠ [] := by
  obtain ⟨chunks, split, whole, filled⟩ := splitIntoChunks_spec data positive small
  unfold RoundTrip
  rw [upload_ok positive split]
  constructor
  · rintro trip rfl
    have none : chunks = [] := by
      cases chunks with
      | nil => rfl
      | cons chunk chunks =>
          have empty : chunk = [] := (List.append_eq_nil_iff.mp whole).1
          exact (filled chunk List.mem_cons_self empty).elim
    subst none
    obtain ⟨_, present⟩ := trip _ rfl
    obtain ⟨blob, first⟩ := present _ List.mem_cons_self
    have found := get_of_supply first
    rw [List.map_nil, get_empty_metafile inmemory] at found
    cases found
  · intro some metahash returned
    cases returned
    have nonempty : chunks ≠ [] := by
      rintro rfl
      exact some whole.symm
    rw [← whole]
    exact download_uploaded env st inmemory (collisionFree chunks split) nonempty filled

/-- A node that has nothing and knows nobody. -/
def emptyState : State := ⟨⟨.inmemory, .empty⟩, .empty⟩

theorem roundTrip_two_chunks : RoundTrip silence 3 emptyState (str "aaabbb") := by
  refine (roundTrip_iff silence (by decide) (by decide) emptyState rfl (str "aaabbb") ?_).mpr
    (by decide +kernel)
  intro chunks split
  have two : splitIntoChunks (str "aaabbb") 3 = .ok [str "aaa", str "bbb"] := by decide +kernel
  rw [two] at split
  cases split
  have distinct : ∀ a ∈ uploadBlobs sampleSha [str "aaa", str "bbb"],
      ∀ b ∈ uploadBlobs sampleSha [str "aaa", str "bbb"], sampleSha a = sampleSha b → a = b := by
    decide +kernel
  exact distinct

/-- The empty file is uploaded, and cannot be downloaded. -/
theorem empty_file_not_found :
    CollisionFree sampleSha (uploadBlobs sampleSha []) ∧ ¬ RoundTrip silence 3 emptyState [] := by
  constructor
  · intro a memA b memB _
    rw [List.mem_singleton.mp memA, List.mem_singleton.mp memB]
  · intro trip
    have returned : (upload sampleSha 3 emptyState.blobStore (.ok [])).2 =
        .ok (hexEncode metaDigest.1) := by decide +kernel
    obtain ⟨downloaded, _⟩ := trip _ returned
    have failed : (download silence ⟨(upload sampleSha 3 emptyState.blobStore (.ok [])).1, .empty⟩
        (hexEncode metaDigest.1)).2 =
        .error (str "Failed to fetch metafile " ++ hexEncode metaDigest.1 ++
          str ": No peers have data for key " ++ hexEncode metaDigest.1) := by decide +kernel
    have different := failed.symm.trans downloaded
    cases different

end Peerster.DataSharing
