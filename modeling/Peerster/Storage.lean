import Peerster.Bytes
import Peerster.Lib.FinMap

/-!
# Key/value stores

`storage.Store` and its two implementations, as maps from keys to byte values.  They differ in
what `Get` returns for an empty value: the in-memory store copies with
`append([]byte(nil), v...)`, which is `nil`, the file store returns the empty file.  A `nil`
slice is `none`.  The file store keeps a value in a file named by its key; a `Set` whose key cannot
name a file of the store's folder fails silently.  A key with separators is no file name here;
`FileStore` follows it to where it leads.
-/

namespace Peerster

/-- Which implementation a store is. -/
inductive Backend : Type
  | inmemory
  | file
  deriving DecidableEq, Repr

/-- A `storage.Store`. -/
structure Store where
  backend : Backend
  data : FinMap GoString Bytes

/-- A key that names a file of a folder: not empty, not too long, not a path. -/
def fileName (key : GoString) : Bool :=
  key ≠ [] ∧ key.length ≤ 255 ∧ 47 ∉ key ∧ 0 ∉ key ∧ key ≠ str "." ∧ key ≠ str ".."

namespace Store

/-- `Get`; `none` is `nil`. -/
def get (s : Store) (key : GoString) : Option Bytes :=
  match s.backend with
  | .inmemory => (s.data.get key).filter (· ≠ [])
  | .file => s.data.get key

/-- The keys under which a value can be stored. -/
def takes (s : Store) (key : GoString) : Bool :=
  match s.backend with
  | .inmemory => true
  | .file => fileName key

/-- `Set`; a `nil` value is stored as an empty one by both implementations. -/
def set (s : Store) (key : GoString) (val : Bytes) : Store :=
  if s.takes key then { s with data := s.data.add key val } else s

/-- `Delete`. -/
def delete (s : Store) (key : GoString) : Store := { s with data := s.data.remove key }

/-- `Len`. -/
def len (s : Store) : Nat := s.data.size

theorem set_data_get_self {s : Store} {key : GoString} (takes : s.takes key = true) (val : Bytes) :
    (s.set key val).data.get key = some val := by
  rw [set, if_pos takes]
  exact FinMap.get_add_self _ _ _

theorem set_data_get_of_ne {s : Store} {key k : GoString} (other : k ≠ key) (val : Bytes) :
    (s.set key val).data.get k = s.data.get k := by
  unfold set
  split
  · exact FinMap.get_add_of_ne _ _ other
  · rfl

@[simp] theorem set_backend (s : Store) (key : GoString) (val : Bytes) :
    (s.set key val).backend = s.backend := by
  unfold set
  split <;> rfl

@[simp] theorem takes_set (s : Store) (key k : GoString) (val : Bytes) :
    (s.set key val).takes k = s.takes k := by
  rw [takes, takes, set_backend]

/-- An entry after `Set` is the new one, or was there before. -/
theorem data_of_set {s : Store} {key k : GoString} {val v : Bytes}
    (found : (s.set key val).data.get k = some v) :
    k = key ∧ v = val ∨ s.data.get k = some v := by
  unfold set at found
  split at found
  · simp only [FinMap.get_add] at found
    split at found
    · next same =>
      cases found
      exact .inl ⟨same, rfl⟩
    · exact .inr found
  · exact .inr found

/-- What `Get` returns was stored. -/
theorem data_of_get {s : Store} {key : GoString} {val : Bytes} (found : s.get key = some val) :
    s.data.get key = some val := by
  unfold get at found
  split at found
  · exact (Option.filter_eq_some_iff.mp found).1
  · exact found

theorem get_of_data_none {s : Store} {key : GoString} (vacant : s.data.get key = none) :
    s.get key = none := by
  unfold get
  rw [vacant]
  split <;> rfl

/-- `Get` reads only the entry of its key. -/
theorem get_congr {s s' : Store} {key : GoString} (backend : s'.backend = s.backend)
    (entry : s'.data.get key = s.data.get key) : s'.get key = s.get key := by
  simp only [get, backend, entry]

/-- A value that is not empty is returned as it was stored. -/
theorem get_of_data {s : Store} {key : GoString} {val : Bytes} (stored : s.data.get key = some val)
    (filled : val ≠ []) : s.get key = some val := by
  unfold get
  split
  · rw [stored, Option.filter_some_pos (by simpa using filled)]
  · exact stored

end Store

end Peerster
