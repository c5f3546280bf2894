import Peerster.Search.Handlers

/-!
# Local answers

`SearchFirst` answers from the node's own files if one of them is complete.  `SearchLocalFiles`
reads a metafile to list the chunks that are there and `Download` reads it again to load them; both
go by what `Get` returns, so a name that the one calls complete the other downloads from the store
alone (`download_local`).
-/

namespace Peerster.Search

open DataSharing (Surroundings Supply splitMetafile load loadChunks download supply chunkSupplies
  supplies)

/-- `hasAllChunks`. -/
def FileInfo.hasAllChunks (fileInfo : FileInfo) : Bool :=
  fileInfo.chunks.all fun chunk => chunk ≠ none

/-- What `ExpandingRingSearch` returns, given the replies that each of its attempts takes from its
channel before the timeout: the first complete file of a reply, or the empty name. -/
def expandingRingSearch (attempts : List (List SearchReply)) : GoString :=
  match (attempts.flatten.flatMap SearchReply.responses).find? FileInfo.hasAllChunks with
  | some fileInfo => fileInfo.name
  | none => []

namespace Node

/-- `searchLocalFullyKnownFile`; `none` is not found. -/
def searchLocalFullyKnownFile (n : Node) (order : FinMap.RangeOrder GoString Bytes)
    (pattern : Regexp) : Option GoString :=
  ((n.searchLocalFiles order pattern).find? FileInfo.hasAllChunks).map FileInfo.name

/-- `SearchFirst`, with the replies of the ring search that it starts when no local file is
complete. -/
def searchFirst (n : Node) (order : FinMap.RangeOrder GoString Bytes) (pattern : Regexp)
    (attempts : List (List SearchReply)) : GoString :=
  match n.searchLocalFullyKnownFile order pattern with
  | some name => name
  | none => expandingRingSearch attempts

/-- The fields of the node that a download uses. -/
def downloadState (n : Node) : DataSharing.State := ⟨n.blobStore, n.catalog⟩

/-! ## Complete files -/

/-- The blob store has a metafile for the metahash and every chunk it lists. -/
def Complete (n : Node) (metahash : GoString) : Prop :=
  ∃ metafile, n.blobStore.get metahash = some metafile ∧
    ∀ key ∈ splitMetafile metafile, n.blobStore.get key ≠ none

section Complete

variable {n : Node} {order : FinMap.RangeOrder GoString Bytes} {pattern : Regexp} {name : GoString}

theorem mem_getLocalFilenamesMatching :
    name ∈ n.getLocalFilenamesMatching order pattern ↔
      pattern.matchString name = true ∧ ∃ metahash, n.namingStore.data.get name = some metahash ∧
        n.blobStore.get metahash ≠ none := by
  unfold getLocalFilenamesMatching
  rw [List.mem_filter, order.mem, FinMap.mem_keys]
  cases named : n.namingStore.data.get name with
  | none => simp
  | some metahash => simp [Option.isSome_iff_ne_none]

/-- Of a name with a metahash `SearchLocalFiles` tells which chunks are there. -/
theorem fileInfo_eq_some_iff {metahash : GoString} {fileInfo : FileInfo}
    (named : n.namingStore.get name = some metahash) :
    n.fileInfo name = some fileInfo ↔
      ∃ metafile, n.blobStore.get metahash = some metafile ∧
        ⟨name, metahash, (splitMetafile metafile).map fun key =>
          if n.blobStore.get key = none then none else some key⟩ = fileInfo := by
  unfold Node.fileInfo
  rw [named]
  dsimp only
  cases n.blobStore.get metahash with
  | none => simp
  | some metafile => simp

/-- A file is complete when the metafile and the chunks are there. -/
theorem exists_complete_fileInfo_iff {metahash : GoString}
    (named : n.namingStore.get name = some metahash) :
    (∃ fileInfo, n.fileInfo name = some fileInfo ∧ fileInfo.hasAllChunks = true) ↔
      n.Complete metahash := by
  simp only [fileInfo_eq_some_iff named, Complete]
  constructor
  · rintro ⟨_, ⟨metafile, there, rfl⟩, all⟩
    refine ⟨metafile, there, fun key mem missing => ?_⟩
    have chunk := List.all_eq_true.mp all none
      (List.mem_map.mpr ⟨key, mem, if_pos missing⟩)
    simp at chunk
  · rintro ⟨metafile, there, all⟩
    refine ⟨_, ⟨metafile, there, rfl⟩, List.all_eq_true.mpr fun chunk mem => ?_⟩
    obtain ⟨key, listed, rfl⟩ := List.mem_map.mp mem
    rw [if_neg (all key listed)]
    rfl

/-- A name found locally matches, and a complete file of that name was listed. -/
theorem of_searchLocalFullyKnownFile
    (found : n.searchLocalFullyKnownFile order pattern = some name) :
    name ∈ n.getLocalFilenamesMatching order pattern ∧
      ∃ fileInfo, n.fileInfo name = some fileInfo ∧ fileInfo.hasAllChunks = true := by
  obtain ⟨fileInfo, first, rfl⟩ := Option.map_eq_some_iff.mp found
  obtain ⟨name, listed, told⟩ := List.mem_filterMap.mp (List.mem_of_find?_eq_some first)
  have own : fileInfo.name = name := by
    unfold Node.fileInfo at told
    split at told
    · cases told
    · split at told
      · cases told
      · cases told
        rfl
  rw [own]
  exact ⟨listed, fileInfo, told, List.find?_some first⟩

/-- Some name is found locally when a listed one is complete. -/
theorem exists_searchLocalFullyKnownFile_iff :
    (∃ name, n.searchLocalFullyKnownFile order pattern = some name) ↔
      ∃ name ∈ n.getLocalFilenamesMatching order pattern, ∃ fileInfo,
        n.fileInfo name = some fileInfo ∧ fileInfo.hasAllChunks = true := by
  constructor
  · rintro ⟨name, found⟩
    exact ⟨name, of_searchLocalFullyKnownFile found⟩
  · rintro ⟨name, listed, fileInfo, told, all⟩
    have mem : fileInfo ∈ n.searchLocalFiles order pattern :=
      List.mem_filterMap.mpr ⟨name, listed, told⟩
    have some : ((n.searchLocalFiles order pattern).find? FileInfo.hasAllChunks).isSome = true :=
      List.find?_isSome.mpr ⟨fileInfo, mem, all⟩
    obtain ⟨first, found⟩ := Option.isSome_iff_exists.mp some
    exact ⟨first.name, by rw [searchLocalFullyKnownFile, found]; rfl⟩

end Complete

/-! ## Downloads from the store -/

/-- Setting a key to what `Get` returns for it changes nothing. -/
theorem set_get_self {s : Store} {key : GoString} {data : Bytes} (there : s.get key = some data) :
    s.set key data = s := by
  have stored := Store.data_of_get there
  unfold Store.set
  split
  · have same : s.data.add key data = s.data := by
      refine FinMap.ext fun k => ?_
      rw [FinMap.get_add]
      split
      · next here => rw [here, stored]
      · rfl
    rw [same]
  · rfl

section Download

variable {st : DataSharing.State}

theorem load_there (env : Surroundings) (failed : GoString) (i : Nat) {key : GoString}
    {data : Bytes} (there : st.blobStore.get key = some data) :
    load env failed i st key = (st, .ok data) := by
  unfold load
  rw [there]
  dsimp only
  rw [set_get_self there]

theorem supply_there (env : Surroundings) (i : Nat) {key : GoString} {data : Bytes}
    (there : st.blobStore.get key = some data) : supply env i st key = .present data := by
  unfold supply
  rw [there]

theorem store_there {key : GoString} {data : Bytes} (there : st.blobStore.get key = some data) :
    st.store key data = st := by
  rw [DataSharing.State.store, set_get_self there]

/-- Chunks that are there are loaded in order, and the state stays as it is. -/
theorem loadChunks_there (env : Surroundings) (i : Nat) {keys : List GoString} {chunks : List Bytes}
    (there : keys.map st.blobStore.get = chunks.map some) :
    loadChunks env i st keys = (st, .ok chunks) ∧
      chunkSupplies env i st keys = chunks.map .present := by
  induction keys generalizing i chunks with
  | nil =>
      cases chunks with
      | nil => exact ⟨rfl, rfl⟩
      | cons chunk chunks => cases there
  | cons key keys ih =>
      cases chunks with
      | nil => cases there
      | cons chunk chunks =>
          obtain ⟨here, later⟩ := List.cons.inj there
          obtain ⟨loaded, supplied⟩ := ih (i + 1) later
          constructor
          · simp only [loadChunks, load_there env _ i here, loaded]
          · simp only [chunkSupplies, supply_there env i here, reduceCtorEq, if_false, Supply.data,
              store_there here, supplied, List.map_cons]

/-- A download of a file that is there returns its chunks in order, fetches no key and leaves the
state as it is. -/
theorem download_there (st : DataSharing.State) (env : Surroundings) {metahash : GoString}
    {metafile : Bytes} {chunks : List Bytes} (there : st.blobStore.get metahash = some metafile)
    (listed : (splitMetafile metafile).map st.blobStore.get = chunks.map some) :
    download env st metahash = (st, .ok chunks.flatten) ∧
      supplies env st metahash = .present metafile :: chunks.map .present := by
  obtain ⟨loaded, supplied⟩ := loadChunks_there env 1 listed
  constructor
  · simp only [download, load_there env _ 0 there, loaded]
  · simp only [supplies, supply_there env 0 there, reduceCtorEq, if_false, Supply.data,
      store_there there, supplied]

end Download

/-- The values of keys that are all there. -/
theorem exists_values {s : Store} {keys : List GoString} (there : ∀ key ∈ keys, s.get key ≠ none) :
    ∃ chunks : List Bytes, keys.map s.get = chunks.map some := by
  induction keys with
  | nil => exact ⟨[], rfl⟩
  | cons key keys ih =>
      obtain ⟨chunk, here⟩ := Option.ne_none_iff_exists'.mp (there key List.mem_cons_self)
      obtain ⟨chunks, later⟩ := ih fun k mem => there k (List.mem_cons_of_mem key mem)
      exact ⟨chunk :: chunks, by rw [List.map_cons, List.map_cons, here, later]⟩

/-- A name is found locally exactly when a matching one has its metafile and all chunks. -/
theorem found_locally_iff {n : Node} (order : FinMap.RangeOrder GoString Bytes) (pattern : Regexp)
    (named : ∀ {name metahash}, n.namingStore.data.get name = some metahash →
      n.namingStore.get name = some metahash) :
    (∃ name, n.searchLocalFullyKnownFile order pattern = some name) ↔
      ∃ name metahash, pattern.matchString name = true ∧
        n.namingStore.data.get name = some metahash ∧ n.Complete metahash := by
  rw [exists_searchLocalFullyKnownFile_iff]
  constructor
  · rintro ⟨name, listed, complete⟩
    obtain ⟨fits, metahash, entry, -⟩ := mem_getLocalFilenamesMatching.mp listed
    exact ⟨name, metahash, fits, entry, (exists_complete_fileInfo_iff (named entry)).mp complete⟩
  · rintro ⟨name, metahash, fits, entry, complete⟩
    have there : n.blobStore.get metahash ≠ none := by
      obtain ⟨metafile, there, -⟩ := complete
      rw [there]
      exact Option.some_ne_none _
    exact ⟨name, mem_getLocalFilenamesMatching.mpr ⟨fits, metahash, entry, there⟩,
      (exists_complete_fileInfo_iff (named entry)).mpr complete⟩

/-- **Local answers.**  A name is found locally exactly when a matching one has its metafile and all
chunks in the blob store; and the name that `SearchFirst` then returns is downloaded, whatever the
network does, as the concatenation of the chunks, from the store alone and without changing it. -/
theorem download_local (n : Node) (order : FinMap.RangeOrder GoString Bytes) (pattern : Regexp)
    (filled : ∀ name metahash, n.namingStore.data.get name = some metahash →
      name ≠ [] ∧ metahash ≠ []) :
    ((∃ name, n.searchLocalFullyKnownFile order pattern = some name) ↔
        ∃ name metahash, pattern.matchString name = true ∧
          n.namingStore.data.get name = some metahash ∧ n.Complete metahash) ∧
      ∀ name, n.searchLocalFullyKnownFile order pattern = some name →
        (∀ attempts, n.searchFirst order pattern attempts = name) ∧
        ∃ (metafile : Bytes) (chunks : List Bytes),
          n.blobStore.get (n.resolve name) = some metafile ∧
          (splitMetafile metafile).map n.blobStore.get = chunks.map some ∧
          ∀ env,
            download env n.downloadState (n.resolve name) = (n.downloadState, .ok chunks.flatten) ∧
            ∀ s ∈ supplies env n.downloadState (n.resolve name), ∃ data, s = .present data := by
  have named : ∀ {name metahash}, n.namingStore.data.get name = some metahash →
      n.namingStore.get name = some metahash := fun entry =>
    Store.get_of_data entry (filled _ _ entry).2
  refine ⟨found_locally_iff order pattern named, ?_⟩
  intro name found
  obtain ⟨listed, complete⟩ := of_searchLocalFullyKnownFile found
  obtain ⟨-, metahash, entry, -⟩ := mem_getLocalFilenamesMatching.mp listed
  obtain ⟨metafile, there, all⟩ := (exists_complete_fileInfo_iff (named entry)).mp complete
  obtain ⟨chunks, values⟩ := exists_values all
  have resolved : n.resolve name = metahash := by
    rw [resolve, if_neg (filled _ _ entry).1, named entry]
    rfl
  refine ⟨fun attempts => by rw [searchFirst, found], metafile, chunks, ?_, values, fun env => ?_⟩
  · rw [resolved, there]
  · obtain ⟨downloaded, supplied⟩ := download_there n.downloadState env there values
    rw [resolved, downloaded, supplied]
    refine ⟨rfl, fun s mem => ?_⟩
    rcases List.mem_cons.mp mem with rfl | mem
    · exact ⟨_, rfl⟩
    · obtain ⟨chunk, -, rfl⟩ := List.mem_map.mp mem
      exact ⟨chunk, rfl⟩

/-- A node with a file of one chunk. -/
def ownerNode : Node :=
  { sampleNode (str "A") [] with
    namingStore := ⟨.inmemory, FinMap.empty.add (str "filenameA") (str "mhA")⟩
    blobStore :=
      ⟨.inmemory, (FinMap.empty.add (str "mhA") (str "c1")).add (str "c1") (str "data")⟩ }

theorem download_local_owner :
    ∃ (metafile : Bytes) (chunks : List Bytes),
      ownerNode.blobStore.get (ownerNode.resolve (str "filenameA")) = some metafile ∧
        (splitMetafile metafile).map ownerNode.blobStore.get = chunks.map some ∧
        ∀ env,
          download env ownerNode.downloadState (ownerNode.resolve (str "filenameA")) =
              (ownerNode.downloadState, .ok chunks.flatten) ∧
            ∀ s ∈ supplies env ownerNode.downloadState (ownerNode.resolve (str "filenameA")),
              ∃ data, s = .present data := by
  refine ((download_local ownerNode .sorted ⟨str ".*", fun _ => true⟩ ?_).2 (str "filenameA")
    (by decide +kernel)).2
  intro name metahash entry
  rw [ownerNode, FinMap.get_add] at entry
  split at entry
  · next same =>
    cases entry
    rw [same]
    exact ⟨by decide +kernel, by decide +kernel⟩
  · cases entry

end Node

end Peerster.Search
