import Peerster.FileStore
import Peerster.Lib.Run

/-!
# The contract of a store

`storage.Store`: `Get` returns the last value set under a key, and `nil` if there is none.  A store
in memory and one in files hold the same entries after the same calls, but the one in memory returns
`nil` for an empty value as well.
-/

namespace Peerster

open FilePath

/-- What a call asks of the entries of a store. -/
def StoreCall.apply (m : FinMap GoString Bytes) : StoreCall → FinMap GoString Bytes
  | .set key val => m.add key val
  | .delete key => m.remove key

/-- The entries that calls ask of a store that is empty at first. -/
def entries (calls : List StoreCall) : FinMap GoString Bytes := Run.run StoreCall.apply .empty calls

def Store.call (s : Store) : StoreCall → Store
  | .set key val => s.set key val
  | .delete key => s.delete key

/-- A store has the entries: on file names `Get` is `nil` if the key is not present, and the value
of the entry otherwise, and `Len` is their number. -/
structure MeetsContract (m : FinMap GoString Bytes) (get : GoString → Option Bytes) (len : Nat) :
    Prop where
  get : ∀ key, fileName key = true → get key = m.get key
  len : len = m.size

/-! ## The store in memory -/

/-- After calls of a new store in memory it has their entries. -/
theorem run_inmemory (calls : List StoreCall) :
    Run.run Store.call ⟨.inmemory, .empty⟩ calls = ⟨.inmemory, entries calls⟩ := by
  refine Run.run_simulates (R := fun (s : Store) m => s = ⟨.inmemory, m⟩) rfl
    fun s m c _ same => ?_
  rw [same]
  cases c with
  | set key val => rfl
  | delete key => rfl

theorem run_file {calls : List StoreCall} (valid : ∀ c ∈ calls, fileName c.key = true) :
    Run.run Store.call ⟨.file, .empty⟩ calls = ⟨.file, entries calls⟩ := by
  refine Run.run_simulates (R := fun (s : Store) m => s = ⟨.file, m⟩) rfl fun s m c mem same => ?_
  rw [same]
  cases c with
  | set key val =>
      have takes : Store.takes ⟨.file, m⟩ key = true := valid _ mem
      rw [Store.call, Store.set, if_pos takes]
      rfl
  | delete key => rfl

/-- A store in memory meets the contract exactly when no entry under a file name is empty. -/
theorem meetsContract_inmemory_iff (m : FinMap GoString Bytes) :
    MeetsContract m (Store.get ⟨.inmemory, m⟩) (Store.len ⟨.inmemory, m⟩) ↔
      ∀ key, fileName key = true → m.get key ≠ some [] := by
  constructor
  · intro meets key valid vacant
    have found := meets.get key valid
    rw [Store.get, vacant] at found
    cases found
  · intro filled
    refine ⟨fun key valid => ?_, rfl⟩
    cases found : m.get key with
    | none => exact Store.get_of_data_none found
    | some val =>
        refine Store.get_of_data found fun vacant => filled key valid ?_
        rw [found, vacant]

/-! ## The store in files -/

/-- The folder of a store holds the entries: the files in it are those of the entries, and a file of
every name can be written. -/
structure FileStore.Holds (s : FileStore) (fs : FileSystem) (m : FinMap GoString Bytes) : Prop where
  files : ∀ name, separator ∉ name → fs.readFile (s.folderPath ++ separator :: name) = m.get name
  names : ∀ key ∈ m.keys, fileName key = true
  writable : ∀ key, fileName key = true → fs.writable (s.path key) = true

namespace FileStore

theorem path_fileName (root : GoString) (kind : StoreKind) {key : GoString}
    (valid : fileName key = true) : (newPersistency root kind).path key =
      (newPersistency root kind).folderPath ++ separator :: key :=
  (join_file root (isName_folder kind) (isName_of_fileName valid)).1

section Holds

variable {root : GoString} {kind : StoreKind} {fs : FileSystem} {m : FinMap GoString Bytes}
  {c : StoreCall}

theorem Holds.call (holds : (newPersistency root kind).Holds fs m) (valid : fileName c.key = true) :
    (newPersistency root kind).Holds ((newPersistency root kind).call fs c) (c.apply m) := by
  obtain ⟨files, names, writable⟩ := holds
  have same_iff : ∀ name key : GoString,
      (newPersistency root kind).folderPath ++ separator :: name =
        (newPersistency root kind).folderPath ++ separator :: key ↔ name = key := by
    intro name key
    rw [List.append_cancel_left_eq, List.cons.injEq, and_iff_right rfl]
  cases c with
  | set key val =>
      have named : fileName key = true := valid
      rw [FileStore.call, FileStore.set, FileSystem.writeFile, if_pos (writable key named),
        path_fileName root kind named, StoreCall.apply]
      refine ⟨fun name single => ?_, fun key' mem => ?_, writable⟩
      · simp only [FileSystem.readFile, FinMap.get_add, same_iff]
        split
        · rfl
        · exact files name single
      · rcases Finset.mem_insert.mp mem with rfl | before
        · exact named
        · exact names key' before
  | delete key =>
      have named : fileName key = true := valid
      rw [FileStore.call, FileStore.delete, FileSystem.remove, path_fileName root kind named,
        StoreCall.apply]
      refine ⟨fun name single => ?_, fun key' mem => ?_, writable⟩
      · simp only [FileSystem.readFile, FinMap.get_remove, same_iff]
        split
        · rfl
        · exact files name single
      · exact names key' (Finset.mem_of_mem_erase mem)

theorem inFolder_iff {folder path : GoString} : FileSystem.inFolder folder path = true ↔
    ∃ name, separator ∉ name ∧ path = folder ++ separator :: name := by
  have dropped : ∀ name, (folder ++ separator :: name).drop (folder.length + 1) = name := by
    intro name
    rw [List.append_cons]
    exact List.drop_left' (by simp)
  simp only [FileSystem.inFolder, decide_eq_true_eq, List.isPrefixOf_iff_prefix]
  constructor
  · rintro ⟨⟨name, rfl⟩, single⟩
    rw [← List.append_cons, dropped] at single
    exact ⟨name, single, (List.append_cons folder separator name).symm⟩
  · rintro ⟨name, single, rfl⟩
    refine ⟨⟨name, (List.append_cons folder separator name).symm⟩, ?_⟩
    rw [dropped]
    exact single

/-- The store in files meets the contract, whatever the entries. -/
theorem Holds.meetsContract (holds : (newPersistency root kind).Holds fs m) :
    MeetsContract m ((newPersistency root kind).get fs) ((newPersistency root kind).len fs) := by
  refine ⟨fun key valid => ?_, ?_⟩
  · rw [FileStore.get, path_fileName root kind valid]
    exact holds.files key (isName_of_fileName valid).2.2
  · have listed : fs.readDir (newPersistency root kind).folderPath = m.keys.image fun name =>
        (newPersistency root kind).folderPath ++ separator :: name := by
      ext path
      rw [FileSystem.readDir, Finset.mem_filter, Finset.mem_image, inFolder_iff, fs.files.mem_keys]
      constructor
      · rintro ⟨exists_file, name, single, rfl⟩
        have file := holds.files name single
        rw [FileSystem.readFile] at file
        rw [file] at exists_file
        exact ⟨name, (m.mem_keys name).mpr exists_file, rfl⟩
      · rintro ⟨name, mem, rfl⟩
        have single := (isName_of_fileName (holds.names name mem)).2.2
        have file := holds.files name single
        rw [FileSystem.readFile] at file
        rw [file]
        exact ⟨(m.mem_keys name).mp mem, name, single, rfl⟩
    rw [FileStore.len, listed, Finset.card_image_of_injective]
    · rfl
    · intro name name' same
      exact (List.cons.inj (List.append_cancel_left same)).2

/-- A folder without files holds no entries. -/
theorem holds_empty (vacant : fs.readDir (newPersistency root kind).folderPath = ∅)
    (writable : ∀ key, fileName key = true →
      fs.writable ((newPersistency root kind).path key) = true) :
    (newPersistency root kind).Holds fs .empty := by
  refine ⟨fun name single => ?_, fun key mem => ?_, writable⟩
  · show fs.files.get _ = none
    rw [FinMap.get_eq_none]
    intro mem
    have listed : (newPersistency root kind).folderPath ++ separator :: name ∈
        fs.readDir (newPersistency root kind).folderPath :=
      Finset.mem_filter.mpr ⟨mem, inFolder_iff.mpr ⟨name, single, rfl⟩⟩
    rw [vacant] at listed
    cases listed
  · cases mem

/-- The store in files is the `Store` of its entries, as far as keys are file names. -/
theorem Holds.get_eq (holds : (newPersistency root kind).Holds fs m) {key : GoString}
    (valid : fileName key = true) :
    (newPersistency root kind).get fs key = Store.get ⟨.file, m⟩ key :=
  holds.meetsContract.get key valid

end Holds

end FileStore

/-! ## Both stores -/

section Both

variable {root : GoString} {kind : StoreKind} {fs : FileSystem} {calls : List StoreCall}

/-- After calls with file names as keys an empty folder holds their entries. -/
theorem holds_run (valid : ∀ c ∈ calls, fileName c.key = true)
    (vacant : fs.readDir (newPersistency root kind).folderPath = ∅)
    (writable : ∀ key, fileName key = true →
      fs.writable ((newPersistency root kind).path key) = true) :
    (newPersistency root kind).Holds (Run.run (newPersistency root kind).call fs calls)
      (entries calls) :=
  Run.run_simulates (FileStore.holds_empty vacant writable)
    fun _ _ c mem holds => holds.call (valid c mem)

/-- The store in files refines the `Store` that keeps its entries in files. -/
theorem get_run_eq (valid : ∀ c ∈ calls, fileName c.key = true)
    (vacant : fs.readDir (newPersistency root kind).folderPath = ∅)
    (writable : ∀ key, fileName key = true →
      fs.writable ((newPersistency root kind).path key) = true) {key : GoString}
    (named : fileName key = true) :
    (newPersistency root kind).get (Run.run (newPersistency root kind).call fs calls) key =
      (Run.run Store.call ⟨.file, .empty⟩ calls).get key := by
  rw [run_file valid]
  exact (holds_run valid vacant writable).get_eq named

end Both

/-- After the same calls of a new store in memory and of one in an empty folder, both meet the
contract, and they cannot be told apart. -/
def BothMeetContract (root : GoString) (kind : StoreKind) (fs : FileSystem)
    (calls : List StoreCall) : Prop :=
  let memory := Run.run Store.call ⟨.inmemory, .empty⟩ calls
  let file := newPersistency root kind
  let fs' := Run.run file.call fs calls
  MeetsContract (entries calls) memory.get memory.len ∧
    MeetsContract (entries calls) (file.get fs') (file.len fs') ∧
    (∀ key, fileName key = true → memory.get key = file.get fs' key) ∧
    memory.len = file.len fs'

/-- **The contract of a store.**  After every sequence of calls with file names as keys, both stores
meet the contract and agree if and only if no entry is empty. -/
theorem bothMeetContract_iff (root : GoString) (kind : StoreKind) (fs : FileSystem)
    (calls : List StoreCall) (valid : ∀ c ∈ calls, fileName c.key = true)
    (vacant : fs.readDir (newPersistency root kind).folderPath = ∅)
    (writable : ∀ key, fileName key = true →
      fs.writable ((newPersistency root kind).path key) = true) :
    BothMeetContract root kind fs calls ↔ ∀ key, (entries calls).get key ≠ some [] := by
  have holds := holds_run valid vacant writable
  have file := holds.meetsContract
  rw [BothMeetContract, run_inmemory]
  constructor
  · rintro ⟨memory, -, -, -⟩ key vacant
    have mem : key ∈ (entries calls).keys := FinMap.mem_keys_of_get vacant
    exact (meetsContract_inmemory_iff _).mp memory key (holds.names key mem) vacant
  · intro filled
    have memory := (meetsContract_inmemory_iff (entries calls)).mpr fun key _ => filled key
    exact ⟨memory, file, fun key valid => (memory.get key valid).trans (file.get key valid).symm,
      memory.len.trans file.len.symm⟩

/-- A value that is set and then deleted. -/
theorem bothMeetContract_deleted :
    BothMeetContract (str "data") .naming ⟨.empty, fun _ => true⟩
      [.set (str "name") [1], .set (str "other") [2], .delete (str "name")] := by
  refine (bothMeetContract_iff _ _ _ _ (by decide +kernel) rfl fun _ _ => rfl).mpr ?_
  intro key vacant
  have values : ∀ v, (entries [.set (str "name") [1], .set (str "other") [2],
      .delete (str "name")]).get key = some v → v = [2] := by
    intro v found
    simp only [entries, Run.run_cons, Run.run_nil, StoreCall.apply, FinMap.get_remove,
      FinMap.get_add] at found
    split at found
    · cases found
    · split at found
      · exact (Option.some.inj found).symm
      · cases found
  cases values [] vacant

/-- An empty value is set under a name: the store in files returns it, the one in memory does
not. -/
theorem empty_value_lost :
    let calls : List StoreCall := [.set (str "name") []]
    let fs : FileSystem := ⟨.empty, fun _ => true⟩
    (Run.run Store.call ⟨.inmemory, .empty⟩ calls).get (str "name") = none ∧
      (newPersistency (str "data") .naming).get
        (Run.run (newPersistency (str "data") .naming).call fs calls) (str "name") = some [] ∧
      ¬ BothMeetContract (str "data") .naming fs calls := by
  intro calls fs
  have memory : (Run.run Store.call ⟨.inmemory, .empty⟩ calls).get (str "name") = none := by
    decide +kernel
  have file : (newPersistency (str "data") .naming).get
      (Run.run (newPersistency (str "data") .naming).call fs calls) (str "name") = some [] := by
    decide +kernel
  refine ⟨memory, file, fun both => ?_⟩
  have same := both.2.2.1 (str "name") (by decide +kernel)
  rw [memory, file] at same
  cases same

end Peerster
