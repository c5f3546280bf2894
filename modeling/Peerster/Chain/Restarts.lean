import Peerster.Chain.SelfMined

/-!
# Restarts on one store

A node that is stopped leaves its store, and a new node can be started on it.  `Start` adds the
genesis block again, as the first node did, and so points `LastBlockKey` at it whatever it pointed
at before: the blocks mined so far stay in the store, but no walk from the last block finds them.
-/

namespace Peerster

open PointerWalk

/-- Following `PrevBlockHash` from the last block comes to the block. -/
def OnRecord (lib : Stdlib) (bcStore : Store) (block : Block) : Prop :=
  ∃ tip key, bcStore.get lastBlockKey = some tip ∧
    Reaches (nextKey lib bcStore) (hexEncode tip) key ∧ blockAt lib bcStore key = some block

section OnRecord

variable {lib : Stdlib} {s : Store} {tip : Bytes} {blocks : List Block} {block : Block}

theorem Visits.reaches_iff (visits : Visits lib s tip blocks) :
    (∃ key, Reaches (nextKey lib s) (hexEncode tip) key ∧ blockAt lib s key = some block) ↔
      block ∈ blocks := by
  induction blocks generalizing tip with
  | nil =>
      have stops : nextKey lib s (hexEncode tip) = none := by
        unfold nextKey
        rw [visits.vacant]
        rfl
      refine ⟨?_, fun impossible => by cases impossible⟩
      rintro ⟨key, reaches, found⟩
      rcases PointerWalk.reaches_iff.mp reaches with rfl | ⟨key', edge, -⟩
      · rw [visits.vacant] at found
        cases found
      · rw [stops] at edge
        cases edge
  | cons first blocks ih =>
      obtain ⟨-, found, parent, rest⟩ := visits
      have edge : nextKey lib s (hexEncode tip) = some (hexEncode first.prevBlockHash) := by
        unfold nextKey
        rw [found, Option.bind_some, parent]
        rfl
      rw [List.mem_cons, ← ih rest]
      constructor
      · rintro ⟨key, reaches, there⟩
        rcases PointerWalk.reaches_iff.mp reaches with rfl | ⟨key', edge', later⟩
        · rw [found] at there
          exact .inl (Option.some.inj there).symm
        · rw [edge] at edge'
          cases edge'
          exact .inr ⟨key, later, there⟩
      · rintro (rfl | ⟨key, later, there⟩)
        · exact ⟨_, PointerWalk.reaches_iff.mpr (.inl rfl), found⟩
        · exact ⟨key, PointerWalk.reaches_iff.mpr (.inr ⟨_, edge, later⟩), there⟩

/-- On a chain, the blocks on record are those of the chain. -/
theorem Visits.onRecord_iff (visits : Visits lib s tip blocks)
    (last : s.get lastBlockKey = some tip) : OnRecord lib s block ↔ block ∈ blocks := by
  rw [← visits.reaches_iff]
  constructor
  · rintro ⟨tip', key, last', reaches, found⟩
    rw [last] at last'
    cases last'
    exact ⟨key, reaches, found⟩
  · rintro ⟨key, reaches, found⟩
    exact ⟨tip, key, last, reaches, found⟩

end OnRecord

namespace Node

/-- What happens to a node and its store: a new node is started on the store, or a step of the
node. -/
inductive Moment : Type
  | start (order : UTXOOrder)
  | event (e : Event)

/-- The node after a moment. -/
def live (lib : Stdlib) (n : Node) : Moment → Node
  | .start order => start lib order (newPeer n.bcStore)
  | .event e => n.step lib e

/-- The block a moment appends, apart from the genesis block. -/
def appendedAt (lib : Stdlib) (n : Node) : Moment → Option Block
  | .start _ => none
  | .event e => n.appended lib e

/-- A moment of a node that receives no block. -/
def Moment.Own (m : Moment) : Prop := ∀ e, m = .event e → e.Own

/-- Every block on record stays on record. -/
def KeepsRecord (lib : Stdlib) (n : Node) (m : Moment) : Prop :=
  ∀ block, OnRecord lib n.bcStore block → OnRecord lib (n.live lib m).bcStore block

/-- A node is only started on a store that has no last block, or the genesis block as its last. -/
def StartsFresh (lib : Stdlib) (n : Node) (m : Moment) : Prop :=
  ∀ order, m = .start order → n.bcStore.get lastBlockKey = none ∨
    n.bcStore.get lastBlockKey = some (genesisBlock lib).hash

section Restart

variable {lib : Stdlib} {n : Node} {tip : Bytes} {all blocks : List Block} {block : Block}

/-- A started node mines on the genesis block. -/
theorem start_mines (order : UTXOOrder) {bcStore : Store} (faithful : Faithful lib all)
    (mem : genesisBlock lib ∈ all) (vacant : bcStore.data.get (hexEncode (root lib)) = none) :
    (start lib order (newPeer bcStore)).Mines lib (genesisBlock lib).hash [genesisBlock lib] := by
  refine ⟨start_onChain order faithful mem vacant, .of_idle (start_mining lib order _), ?_⟩
  rw [show (start lib order (newPeer bcStore)).currentHeight = 1 from
    congrArg Prod.snd (start_chain lib order bcStore)]
  rfl

theorem Mines.onRecord_iff (mines : n.Mines lib tip blocks) (faithful : Faithful lib all)
    (subset : blocks ⊆ all) : OnRecord lib n.bcStore block ↔ block ∈ blocks :=
  (mines.onChain.chain.visits faithful subset).onRecord_iff
    (mines.onChain.get_last faithful subset).2

/-- A chain has the genesis block as its last block only if it has no other block. -/
theorem Mines.tip_eq_iff (mines : n.Mines lib tip blocks) :
    tip = (genesisBlock lib).hash ↔ ∀ block ∈ blocks, block = genesisBlock lib := by
  have hashes := mines.onChain.chain.linked.hashes
  have apart := mines.onChain.chain.apart
  have last := mines.onChain.genesis
  rw [← hashes] at apart
  cases blocks with
  | nil => cases last
  | cons first rest =>
      have top : computeBlockHash lib first = tip := (List.cons.inj hashes).1
      constructor
      · intro same
        have alone : rest = [] := by
          cases rest with
          | nil => rfl
          | cons second rest =>
              rw [List.getLast?_cons_cons] at last
              have inside : genesisBlock lib ∈ second :: rest := List.mem_of_getLast? last
              have twice : computeBlockHash lib first ∈
                  (second :: rest).map (computeBlockHash lib) ++ [root lib] := by
                rw [top, same]
                exact List.mem_append_left _ (List.mem_map_of_mem inside)
              exact ((List.nodup_cons.mp apart).1 twice).elim
        subst alone
        intro block mem
        rw [List.mem_singleton.mp mem]
        exact Option.some.inj last
      · intro only
        rw [← top, only first List.mem_cons_self]
        rfl

/-- A node that has not been started does nothing. -/
theorem step_newPeer (bcStore : Store) (e : Event) :
    (newPeer bcStore).step lib e = newPeer bcStore := by
  cases e <;> rfl

/-- A new node on an empty store, or a node on a chain of appended blocks. -/
def OnStore (lib : Stdlib) (backend : Backend) (all : List Block) (n : Node) : Prop :=
  n = newPeer ⟨backend, .empty⟩ ∨ ∃ tip blocks, n.Mines lib tip blocks ∧ blocks ⊆ all

/-- The moment is the node's own, and appends a block of the list, if it appends one. -/
def Within (lib : Stdlib) (all : List Block) (n : Node) (m : Moment) : Prop :=
  m.Own ∧ ∀ block ∈ (n.appendedAt lib m).toList, block ∈ all

theorem OnStore.keeps_iff_startsFresh {backend : Backend} (onStore : OnStore lib backend all n)
    (faithful : Faithful lib all) (mem : genesisBlock lib ∈ all) {m : Moment}
    (within : n.Within lib all m) : n.KeepsRecord lib m ↔ n.StartsFresh lib m := by
  rcases onStore with rfl | ⟨tip, blocks, mines, subset⟩
  · have vacant : (newPeer ⟨backend, .empty⟩).bcStore.get lastBlockKey = none :=
      Store.get_of_data_none rfl
    refine ⟨fun _ order _ => .inl vacant, fun _ block record => ?_⟩
    obtain ⟨tip, key, last, -⟩ := record
    rw [vacant] at last
    cases last
  · cases m with
    | event e =>
        obtain ⟨tip', mines'⟩ := mines.step (within.1 e rfl) faithful subset
          fun block new => within.2 block (Option.mem_toList.mpr new)
        have larger : (n.appended lib e).toList ++ blocks ⊆ all :=
          List.append_subset.mpr ⟨within.2, subset⟩
        have trivially : n.StartsFresh lib (.event e) := by
          intro order impossible
          cases impossible
        refine ⟨fun _ => trivially, fun _ block record => ?_⟩
        have mem' := (mines.onRecord_iff faithful subset).mp record
        exact (mines'.onRecord_iff faithful larger).mpr (List.mem_append_right _ mem')
    | start order =>
        have mines' := start_mines order faithful mem mines.onChain.chain.ends
        have after : ∀ block, OnRecord lib (n.live lib (.start order)).bcStore block ↔
            block = genesisBlock lib := fun block =>
          (mines'.onRecord_iff faithful (List.cons_subset.mpr ⟨mem, List.nil_subset all⟩)).trans
            List.mem_singleton
        have last := (mines.onChain.get_last faithful subset).2
        have fresh : n.StartsFresh lib (.start order) ↔ tip = (genesisBlock lib).hash := by
          unfold StartsFresh
          rw [last]
          constructor
          · intro starts
            rcases starts order rfl with impossible | same
            · cases impossible
            · exact Option.some.inj same
          · intro same order' _
            rw [same]
            exact .inr rfl
        rw [fresh, mines.tip_eq_iff]
        unfold KeepsRecord
        simp only [after, mines.onRecord_iff faithful subset]

theorem OnStore.live {backend : Backend} (onStore : OnStore lib backend all n)
    (faithful : Faithful lib all) (mem : genesisBlock lib ∈ all) {m : Moment}
    (within : n.Within lib all m) : OnStore lib backend all (n.live lib m) := by
  cases m with
  | event e =>
      rcases onStore with rfl | ⟨tip, blocks, mines, subset⟩
      · exact .inl (step_newPeer _ e)
      · obtain ⟨tip', mines'⟩ := mines.step (within.1 e rfl) faithful subset
          fun block new => within.2 block (Option.mem_toList.mpr new)
        exact .inr ⟨tip', _, mines', List.append_subset.mpr ⟨within.2, subset⟩⟩
  | start order =>
      have vacant : n.bcStore.data.get (hexEncode (root lib)) = none := by
        rcases onStore with rfl | ⟨tip, blocks, mines, -⟩
        · rfl
        · exact mines.onChain.chain.ends
      exact .inr ⟨_, _, start_mines order faithful mem vacant,
        List.cons_subset.mpr ⟨mem, List.nil_subset all⟩⟩

theorem keepsRecord_iff_of_within (faithful : Faithful lib all) (mem : genesisBlock lib ∈ all)
    {backend : Backend} {moments : List Moment}
    (within : Run.Always (Node.live lib) (Within lib all) (newPeer ⟨backend, .empty⟩) moments) :
    Run.Always (Node.live lib) (KeepsRecord lib) (newPeer ⟨backend, .empty⟩) moments ↔
      Run.Always (Node.live lib) (StartsFresh lib) (newPeer ⟨backend, .empty⟩) moments :=
  Run.always_congr_along (I := OnStore lib backend all) within (.inl rfl)
    (fun _ _ onStore within => onStore.keeps_iff_startsFresh faithful mem within)
    fun _ _ onStore within _ => onStore.live faithful mem within

end Restart

/-- **The chain across restarts.**  In a run on one store that starts out empty, with any number of
restarts and no received block, every block on record stays on record if and only if a node is only
started on a store without a last block or with the genesis block as its last. -/
theorem keepsRecord_iff (lib : Stdlib) (backend : Backend) (moments : List Moment)
    (own : ∀ m ∈ moments, m.Own)
    (faithful : Faithful lib (genesisBlock lib :: Run.collect (live lib)
      (fun n m => (n.appendedAt lib m).toList) (newPeer ⟨backend, .empty⟩) moments)) :
    Run.Always (live lib) (KeepsRecord lib) (newPeer ⟨backend, .empty⟩) moments ↔
      Run.Always (live lib) (StartsFresh lib) (newPeer ⟨backend, .empty⟩) moments := by
  have ownMoments : Run.Always (live lib) (fun _ m => m.Own) (newPeer ⟨backend, .empty⟩) moments :=
    Run.always_of_forall_mem own
  have inside := Run.always_of_collect (R := fun block => block ∈ genesisBlock lib ::
    Run.collect (live lib) (fun n m => (n.appendedAt lib m).toList) (newPeer ⟨backend, .empty⟩)
      moments) fun block mem => List.mem_cons_of_mem (genesisBlock lib) mem
  exact keepsRecord_iff_of_within faithful List.mem_cons_self (ownMoments.and inside)

/-! ## A restart after a block has been mined -/

/-- A node is started on an empty store and mines one registration. -/
def firstLife : List Moment := .start .sorted :: mineClaim.map .event

/-- The node that is restarted before it has mined anything keeps its record. -/
theorem keepsRecord_restartEmpty :
    Run.Always (live minersLib) (KeepsRecord minersLib) (newPeer ⟨.file, .empty⟩)
      (.start .sorted :: firstLife) := by
  refine (keepsRecord_iff minersLib .file _ ?_ ?_).mpr ⟨?_, ?_, ?_, ?_, ?_, trivial⟩
  · intro m mem e same amb block same'
    subst same same'
    simp [firstLife, mineClaim] at mem
  · have collected : genesisBlock minersLib :: Run.collect (live minersLib)
        (fun n m => (n.appendedAt minersLib m).toList) (newPeer ⟨.file, .empty⟩)
          (.start .sorted :: firstLife) = [sampleGenesis, block1] := by
      decide +kernel
    rw [collected]
    exact faithful_minersLib
  · exact fun _ _ => .inl rfl
  · exact fun _ _ => .inr (by decide +kernel)
  all_goals
    intro order impossible
    cases impossible

/-- After the restart, the block mined before is not found any more. -/
theorem restart_forgets :
    ¬ Run.Always (live minersLib) (KeepsRecord minersLib) (newPeer ⟨.file, .empty⟩)
      (firstLife ++ [.start .sorted]) := by
  intro keeps
  obtain ⟨-, kept, -⟩ := Run.always_append.mp keeps
  have walks : let s := (Run.run (live minersLib) (newPeer ⟨.file, .empty⟩) firstLife).bcStore
      let s' := storeBlock minersLib s (genesisBlock minersLib)
      (blockAt minersLib s (hexEncode block1.hash) = some block1 ∧
        blockAt minersLib s (hexEncode sampleGenesis.hash) = some sampleGenesis ∧
        s.get (hexEncode sampleGenesis.prevBlockHash) = none ∧
        s.get lastBlockKey = some block1.hash) ∧
      blockAt minersLib s' (hexEncode sampleGenesis.hash) = some sampleGenesis ∧
      s'.get (hexEncode sampleGenesis.prevBlockHash) = none ∧
      s'.get lastBlockKey = some sampleGenesis.hash := by
    decide +kernel
  obtain ⟨⟨top, bottom, ends, last⟩, bottom', ends', last'⟩ := walks
  have links : (block1.hash = computeBlockHash minersLib block1 ∧
      block1.parentHash = some block1.prevBlockHash ∧ block1.prevBlockHash = sampleGenesis.hash) ∧
      sampleGenesis.hash = computeBlockHash minersLib sampleGenesis ∧
      sampleGenesis.parentHash = some sampleGenesis.prevBlockHash := by
    decide +kernel
  obtain ⟨⟨hash, parent, onGenesis⟩, hash', parent'⟩ := links
  have before : Visits minersLib _ block1.hash [block1, sampleGenesis] :=
    ⟨hash, top, parent, onGenesis ▸ hash', onGenesis ▸ bottom, parent', ends⟩
  have after : Visits minersLib _ sampleGenesis.hash [sampleGenesis] :=
    ⟨hash', bottom', parent', ends'⟩
  have record := kept block1 ((before.onRecord_iff last).mpr List.mem_cons_self)
  rw [show (live minersLib _ (.start .sorted)).bcStore = _ from start_bcStore _ _ _] at record
  have still := (after.onRecord_iff last').mp record
  have other : block1 ≠ sampleGenesis := by decide +kernel
  exact other (List.mem_singleton.mp still)

end Node

end Peerster
