import Peerster.Lib.Run
import Peerster.Uploads

/-!
# Content addressing

Any sequence of `Upload` and `Download` on a blob store that is empty at first.  `Upload` stores
every blob under its own key, and so does `Download` with a blob that it has or is given; but with a
key that it asks for in vain, `Download` goes on and stores the empty blob.  So every entry is
stored under its own key exactly if this does not happen (`addressed_iff`).
-/

namespace Peerster.DataSharing

/-- A call of `Upload` or `Download`, with what it meets. -/
inductive Operation : Type
  | upload (chunkSize : UInt64) (reader : Except GoString Bytes)
  | download (catalog : Catalog) (retry : UInt64) (exchange : Nat → Exchange) (metahash : GoString)

/-- The keys of some chunks, with how they are supplied, up to the first that is refused. -/
def chunkLoads (env : Surroundings) : Nat → State → List GoString → List (GoString × Supply)
  | _, _, [] => []
  | i, st, key :: keys =>
      let s := supply env i st key
      (key, s) :: if s = .refused then [] else chunkLoads env (i + 1) (st.store key s.data) keys

/-- The keys that a download needs, with how they are supplied. -/
def loads (env : Surroundings) (st : State) (metahash : GoString) : List (GoString × Supply) :=
  let s := supply env 0 st metahash
  (metahash, s) :: if s = .refused then []
    else chunkLoads env 1 (st.store metahash s.data) (splitMetafile s.data)

/-- The entries that a download stores: one for each key that is not refused. -/
def written (loads : List (GoString × Supply)) : List (GoString × Bytes) :=
  loads.filterMap fun l => if l.2 = .refused then none else some (l.1, l.2.data)

/-- The entries that a call writes, in order. -/
def writes (sha256 : Sha256) (s : Store) : Operation → List (GoString × Bytes)
  | .upload chunkSize reader =>
      if chunkSize = 0 then []
      else
        match reader with
        | .error _ => []
        | .ok dataBytes =>
            match splitIntoChunks dataBytes chunkSize with
            | .error _ => []
            | .ok chunks => uploadWrites sha256 chunks
  | .download catalog retry exchange metahash =>
      written (loads ⟨sha256, retry, exchange⟩ ⟨s, catalog⟩ metahash)

/-- An entry that the store takes is under its own key. -/
def Own (sha256 : Sha256) (s : Store) (w : GoString × Bytes) : Prop :=
  s.takes w.1 = true → w.1 = hashKey sha256 w.2

end Peerster.DataSharing
