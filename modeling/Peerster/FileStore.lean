import Peerster.FilePath
import Peerster.Storage

/-!
# The file storage

`storage/file/file.go`.  Each of the three stores has a folder, and keeps the value of a key in the
file at `Join` of the folder and the key.  A key is used as it comes: one that leads out of the
folder is a key of another store as well.
-/

namespace Peerster

open FilePath

/-- The file system: the contents of the files by their cleaned paths, and the paths at which a file
can be written. -/
structure FileSystem where
  files : FinMap GoString Bytes
  writable : GoString → Bool

namespace FileSystem

/-- `ReadFile`; `none` is an error.  An empty file is an empty slice, which is not `nil`. -/
def readFile (fs : FileSystem) (path : GoString) : Option Bytes := fs.files.get path

/-- `WriteFile`. -/
def writeFile (fs : FileSystem) (path : GoString) (data : Bytes) : FileSystem :=
  if fs.writable path then { fs with files := fs.files.add path data } else fs

/-- `Remove`, of a file. -/
def remove (fs : FileSystem) (path : GoString) : FileSystem :=
  { fs with files := fs.files.remove path }

/-- A path directly in a folder. -/
def inFolder (folder path : GoString) : Bool :=
  (folder ++ [separator]).isPrefixOf path ∧ separator ∉ path.drop (folder.length + 1)

/-- The files that `ReadDir` of a folder lists. -/
def readDir (fs : FileSystem) (folder : GoString) : Finset GoString :=
  fs.files.keys.filter fun path => inFolder folder path

end FileSystem

/-- A call of a store that changes it. -/
inductive StoreCall : Type
  | set (key : GoString) (val : Bytes)
  | delete (key : GoString)
  deriving DecidableEq, Repr

def StoreCall.key : StoreCall → GoString
  | .set key _ => key
  | .delete key => key

/-- `store`, with the folder it keeps its files in. -/
structure FileStore where
  folderPath : GoString
  deriving DecidableEq, Repr

namespace FileStore

/-- The file of a key. -/
def path (s : FileStore) (key : GoString) : GoString := join s.folderPath key

/-- `Get`; `none` is `nil`. -/
def get (s : FileStore) (fs : FileSystem) (key : GoString) : Option Bytes :=
  fs.readFile (s.path key)

/-- `Set`; a write that fails is ignored. -/
def set (s : FileStore) (fs : FileSystem) (key : GoString) (val : Bytes) : FileSystem :=
  fs.writeFile (s.path key) val

/-- `Delete`. -/
def delete (s : FileStore) (fs : FileSystem) (key : GoString) : FileSystem := fs.remove (s.path key)

/-- `Len`. -/
def len (s : FileStore) (fs : FileSystem) : Nat := (fs.readDir s.folderPath).card

def call (s : FileStore) (fs : FileSystem) : StoreCall → FileSystem
  | .set key val => s.set fs key val
  | .delete key => s.delete fs key

end FileStore

/-- The stores of a `Storage`. -/
inductive StoreKind : Type
  | blob
  | naming
  | blockchain
  deriving DecidableEq, Repr

/-- The folder of a store. -/
def StoreKind.folder : StoreKind → GoString
  | .blob => str "blob"
  | .naming => str "naming"
  | .blockchain => str "blockchain"

/-- The stores of `NewPersistency`, which has made their folders. -/
def newPersistency (folderPath : GoString) (kind : StoreKind) : FileStore :=
  ⟨join folderPath kind.folder⟩

theorem isName_folder (kind : StoreKind) : IsName kind.folder := by
  cases kind <;> decide +kernel

theorem isName_of_fileName {key : GoString} (valid : fileName key = true) : IsName key := by
  simp only [fileName, Bool.decide_and, Bool.and_eq_true, decide_eq_true_eq] at valid
  obtain ⟨filled, -, single, -, notHere, notUp⟩ := valid
  have dot : str "." = here := by decide +kernel
  have dots : str ".." = up := by decide +kernel
  rw [dot] at notHere
  rw [dots] at notUp
  exact ⟨⟨filled, notHere⟩, notUp, single⟩

/-! ## What a call changes -/

namespace FileStore

/-- The call changes no file: it writes what is there, or cannot write, or removes nothing. -/
def Idle (s : FileStore) (fs : FileSystem) : StoreCall → Prop
  | .set key val => fs.writable (s.path key) = true → fs.readFile (s.path key) = some val
  | .delete key => fs.readFile (s.path key) = none

section Call

variable {s : FileStore} {fs : FileSystem} {c : StoreCall}

/-- A call changes the file of its key, if any. -/
theorem readFile_call_eq_iff {path : GoString} :
    (s.call fs c).readFile path = fs.readFile path ↔ (path = s.path c.key → s.Idle fs c) := by
  cases c with
  | set key val =>
      simp only [call, set, FileSystem.writeFile, StoreCall.key, Idle]
      split
      · next writable =>
        simp only [FileSystem.readFile, FinMap.get_add]
        split
        · next here =>
          subst here
          constructor
          · intro same _ _
            exact same.symm
          · intro idle
            exact (idle rfl writable).symm
        · next elsewhere => exact ⟨fun _ here => (elsewhere here).elim, fun _ => rfl⟩
      · next refused => exact ⟨fun _ _ writable => (refused writable).elim, fun _ => rfl⟩
  | delete key =>
      simp only [call, delete, FileSystem.remove, FileSystem.readFile, StoreCall.key, Idle,
        FinMap.get_remove]
      split
      · next here =>
        subst here
        exact ⟨fun same _ => same.symm, fun idle => (idle rfl).symm⟩
      · next elsewhere => exact ⟨fun _ here => (elsewhere here).elim, fun _ => rfl⟩

/-- `Get` of any store after a call of any store. -/
theorem get_call_eq_iff {s' : FileStore} {key : GoString} :
    s'.get (s.call fs c) key = s'.get fs key ↔ (s'.path key = s.path c.key → s.Idle fs c) :=
  readFile_call_eq_iff

end Call

end FileStore

/-! ## Isolation -/

/-- The call through a store changes nothing that can be read through the other two. -/
def Isolated (root : GoString) (kind : StoreKind) (fs : FileSystem) (c : StoreCall) : Prop :=
  ∀ other ≠ kind, ∀ key,
    (newPersistency root other).get ((newPersistency root kind).call fs c) key =
      (newPersistency root other).get fs key

/-- The call through a store changes no file of the other two. -/
def IsolatedFiles (root : GoString) (kind : StoreKind) (fs : FileSystem) (c : StoreCall) : Prop :=
  ∀ other ≠ kind, ∀ key, fileName key = true →
    (newPersistency root other).get ((newPersistency root kind).call fs c) key =
      (newPersistency root other).get fs key

/-- A key of a store is the path of a file of another store. -/
def LeadsOut (root : GoString) (kind : StoreKind) (key : GoString) : Prop :=
  ∃ other ≠ kind, ∃ name, fileName name = true ∧
    (newPersistency root other).path name = (newPersistency root kind).path key

/-- The key under which another store of the same storage has the file of a key. -/
def outside (kind : StoreKind) (key : GoString) : GoString :=
  up ++ separator :: (kind.folder ++ separator :: key)

theorem path_outside (root : GoString) (kind other : StoreKind) (key : GoString) :
    (newPersistency root other).path (outside kind key) = (newPersistency root kind).path key :=
  join_join_up root key (isName_folder other) (isName_folder kind)

/-- **Isolation of the stores.**  A call through one store of a file storage can be seen through the
others by some key unless it changes no file at all, and it leaves their files alone unless its key
leads to one of them and it changes that file. -/
theorem isolated_iff_idle (root : GoString) (kind : StoreKind) (fs : FileSystem) (c : StoreCall) :
    (Isolated root kind fs c ↔ (newPersistency root kind).Idle fs c) ∧
      (IsolatedFiles root kind fs c ↔
        (LeadsOut root kind c.key → (newPersistency root kind).Idle fs c)) := by
  constructor
  · constructor
    · intro isolated
      have exists_other : ∃ other, other ≠ kind := by
        cases kind with
        | blob => exact ⟨.naming, by decide⟩
        | naming => exact ⟨.blob, by decide⟩
        | blockchain => exact ⟨.blob, by decide⟩
      obtain ⟨other, apart⟩ := exists_other
      have unchanged := isolated other apart (outside kind c.key)
      exact FileStore.get_call_eq_iff.mp unchanged (path_outside root kind other c.key)
    · intro idle other apart key
      exact FileStore.get_call_eq_iff.mpr fun _ => idle
  · constructor
    · rintro isolated ⟨other, apart, name, named, same⟩
      exact FileStore.get_call_eq_iff.mp (isolated other apart name named) same
    · intro idle other apart key named
      exact FileStore.get_call_eq_iff.mpr fun same => idle ⟨other, apart, key, named, same⟩

/-- A node receives a reply that names a file after the last block of its file storage. -/
theorem naming_changes_blockchain :
    let last : GoString := List.replicate 64 48
    let fs : FileSystem :=
      ⟨FinMap.empty.add (str "data/blockchain/" ++ last) [1], fun _ => true⟩
    let c : StoreCall := .set (str "../blockchain/" ++ last) [2]
    (newPersistency (str "data") .blockchain).get fs last = some [1] ∧
      (newPersistency (str "data") .blockchain).get
        ((newPersistency (str "data") .naming).call fs c) last = some [2] ∧
      ¬ Isolated (str "data") .naming fs c ∧ ¬ IsolatedFiles (str "data") .naming fs c := by
  intro last fs c
  have before : (newPersistency (str "data") .blockchain).get fs last = some [1] := by
    decide +kernel
  have after : (newPersistency (str "data") .blockchain).get
      ((newPersistency (str "data") .naming).call fs c) last = some [2] := by
    decide +kernel
  have changed : ¬ IsolatedFiles (str "data") .naming fs c := by
    intro isolated
    have same := isolated .blockchain (by decide) last (by decide +kernel)
    rw [before, after] at same
    cases same
  exact ⟨before, after, fun isolated => changed fun other apart key _ => isolated other apart key,
    changed⟩

end Peerster
