import Peerster.Chain.SelfMined

/-!
# The chain viewer

`gui/httpnode/controller/blockchain.go`.  The page walks the store from the last block on.  It reads
each block as a `types.BlockchainBlock`, where the node writes a `types.Block`: of the fields of the
one only `Hash` is a field of the other.
-/

namespace Peerster

/-- A JSON value, as far as the fields of the two block types have it.  A `[]byte` is written as
base64. -/
inductive Json : Type
  | base64 (data : Bytes)
  | number (n : Int)
  | array (length : Nat)
  | object (entries : List (GoString × GoString))
  deriving DecidableEq, Repr

/-- `encoding/json`, the part that reads: the entries of an object in their order, or an error, and
the error for a value that does not fit the field of a name. -/
structure Decoder where
  parse : Bytes → Except GoString (List (GoString × Json))
  mismatch : GoString → Json → GoString

namespace Json

/-- A JSON number read into a `uint`. -/
def uint : Json → Option Nat
  | .number n => if 0 ≤ n ∧ n < 2 ^ 64 then some n.toNat else none
  | _ => none

/-- A JSON value read into a `[]byte`. -/
def bytes : Json → Option Bytes
  | .base64 data => some data
  | .array 0 => some []
  | _ => none

/-- A JSON object read into a `map[string]string`. -/
def strings : Json → Option (FinMap GoString GoString)
  | .object entries => some (entries.foldl (fun m entry => m.add entry.1 entry.2) .empty)
  | _ => none

end Json

/-- A letter of ASCII in lower case. -/
def toLower (b : UInt8) : UInt8 := if 65 ≤ b ∧ b ≤ 90 then b + 32 else b

/-- The key of an object's entry names a field of a struct: they are equal up to case. -/
def fills (key field : GoString) : Bool := key.map toLower = field.map toLower

/-- The value of an entry, read into the field of a name. -/
def Decoder.read {α : Type} (json : Decoder) (name : GoString) (value : Json)
    (decode : Json → Option α) : Except GoString α :=
  match decode value with
  | some x => .ok x
  | none => .error (json.mismatch name value)

/-- The entries of the object that `Block.Marshal` writes. -/
def Block.entries (block : Block) : List (GoString × Json) :=
  [(str "Hash", .base64 block.hash), (str "PrevBlockHash", .base64 block.prevBlockHash),
    (str "Nonce", .number block.nonce), (str "Challenge", .number block.challenge),
    (str "Transactions", .array block.transactions.length)]

/-- `types.BlockchainBlock`. -/
structure BlockchainBlock where
  index : Nat
  hash : Bytes
  value : FinMap GoString GoString
  prevHash : Bytes

namespace BlockchainBlock

/-- An entry of an object fills the field it names; an entry that names none is left out. -/
def fill (json : Decoder) (b : BlockchainBlock) (entry : GoString × Json) :
    Except GoString BlockchainBlock :=
  if fills entry.1 (str "Index") then
    (json.read (str "Index") entry.2 Json.uint).map fun index => { b with index }
  else if fills entry.1 (str "Hash") then
    (json.read (str "Hash") entry.2 Json.bytes).map fun hash => { b with hash }
  else if fills entry.1 (str "Value") then
    (json.read (str "Value") entry.2 Json.strings).map fun value => { b with value }
  else if fills entry.1 (str "PrevHash") then
    (json.read (str "PrevHash") entry.2 Json.bytes).map fun prevHash => { b with prevHash }
  else .ok b

/-- `BlockchainBlock.Unmarshal`, into the zero value. -/
def unmarshal (json : Decoder) (data : Bytes) : Except GoString BlockchainBlock :=
  match json.parse data with
  | .ok entries => entries.foldlM (fill json) ⟨0, [], .empty, []⟩
  | .error err => .error err

end BlockchainBlock

/-- `viewBlock`. -/
structure ViewBlock where
  index : Nat
  hash : GoString
  valueID : GoString
  name : GoString
  metahash : GoString
  prevHash : GoString
  deriving DecidableEq, Repr

def BlockchainBlock.view (b : BlockchainBlock) : ViewBlock where
  index := b.index
  hash := hexEncode b.hash
  valueID := []
  name := str "Name"
  metahash := str "Metahash"
  prevHash := hexEncode b.prevHash

/-- `endBlockHasHex`, the key at which the walk is over. -/
def endBlockHashHex : GoString := hexEncode (List.replicate 32 0)

/-- The loop of `blockchainGet`: the blocks it has collected and its error, when it is left. -/
def collectBlocks (json : Decoder) (store : Store) :
    Nat → GoString → List ViewBlock → Option (List ViewBlock × Option GoString)
  | 0, _, _ => none
  | fuel + 1, lastBlockHashHex, blocks =>
      if lastBlockHashHex = endBlockHashHex then some (blocks, none)
      else
        match BlockchainBlock.unmarshal json ((store.get lastBlockHashHex).getD []) with
        | .error err => some (blocks, some (str "failed to unmarshal block: " ++ err))
        | .ok lastBlock =>
            collectBlocks json store fuel (hexEncode lastBlock.prevHash)
              (blocks ++ [lastBlock.view])

/-- The blocks that `blockchainGet` collects. -/
def viewedBlocks (json : Decoder) (store : Store) (fuel : Nat) :
    Option (List ViewBlock × Option GoString) :=
  let lastBlockHashHex := hexEncode ((store.get lastBlockKey).getD [])
  collectBlocks json store fuel
    (if lastBlockHashHex = [] then endBlockHashHex else lastBlockHashHex) []

/-- What the page shows. -/
structure ViewData where
  nodeAddr : GoString
  lastBlockHash : GoString
  blocks : List ViewBlock
  deriving DecidableEq, Repr

/-- What the handler answers: an error with status 500, or the page. -/
inductive Response : Type
  | error (text : GoString)
  | page (data : ViewData)
  deriving DecidableEq, Repr

/-- `blockchainGet` of a node at an address; `parseFiles` is the error, if any, with which its
template fails to parse. -/
def blockchainGet (json : Decoder) (store : Store) (address : GoString)
    (parseFiles : Option GoString) (fuel : Nat) : Option Response :=
  match viewedBlocks json store fuel with
  | none => none
  | some (_, some err) => some (.error err)
  | some (blocks, none) =>
      match parseFiles with
      | some err => some (.error (str "failed to parse template: " ++ err))
      | none =>
          some (.page ⟨address, hexEncode ((store.get lastBlockKey).getD []), blocks⟩)

/-! ## Reading a block -/

/-- What is relied on of `encoding/json`: an encoded block is read back entry by entry, and empty
input is an error. -/
structure Decoder.Reads (json : Decoder) (lib : Stdlib) (blocks : List Block) : Prop where
  parses : ∀ block ∈ blocks, ∀ data, lib.marshalBlock block = some data →
    json.parse data = .ok block.entries
  empty : ∃ err, json.parse [] = .error err

/-- Of the entries of a block only `Hash` fills a field of a `BlockchainBlock`. -/
theorem BlockchainBlock.fill_entries (json : Decoder) (block : Block) :
    block.entries.foldlM (BlockchainBlock.fill json) ⟨0, [], .empty, []⟩ =
      .ok ⟨0, block.hash, .empty, []⟩ := by
  have hash : fills (str "Hash") (str "Index") = false ∧
      fills (str "Hash") (str "Hash") = true := by
    decide +kernel
  have others : ∀ key ∈ [str "PrevBlockHash", str "Nonce", str "Challenge", str "Transactions"],
      ∀ field ∈ [str "Index", str "Hash", str "Value", str "PrevHash"],
        fills key field = false := by
    decide +kernel
  have ignored : ∀ key ∈ [str "PrevBlockHash", str "Nonce", str "Challenge", str "Transactions"],
      ∀ b value, BlockchainBlock.fill json b (key, value) = .ok b := by
    intro key mem b value
    have off := others key mem
    simp only [List.forall_mem_cons] at off
    simp only [fill, off.1, off.2.1, off.2.2.1, off.2.2.2.1, Bool.false_eq_true, if_false]
  simp only [List.forall_mem_cons] at ignored
  obtain ⟨parent, nonce, challenge, transactions, -⟩ := ignored
  have filled : fill json ⟨0, [], .empty, []⟩ (str "Hash", .base64 block.hash) =
      .ok ⟨0, block.hash, .empty, []⟩ := by
    simp only [fill, hash.1, hash.2, Bool.false_eq_true, if_false, if_true]
    rfl
  simp only [Block.entries, List.foldlM_cons, List.foldlM_nil, filled, parent, nonce, challenge,
    transactions, bind, Except.bind]
  rfl

/-! ## The walk -/

namespace Node

/-- The last block is stored, under a key at which the walk goes on; nothing is stored under the
empty key. -/
structure TipStored (lib : Stdlib) (s : Store) (blocks : List Block) : Prop where
  unnamed : s.data.get [] = none
  tip : ∃ block ∈ blocks, block.hash ≠ [] ∧ hexEncode block.hash ≠ lastBlockKey ∧
    s.data.get lastBlockKey = some block.hash ∧
    s.data.get (hexEncode block.hash) = some ((lib.marshalBlock block).getD [])

section Walk

variable {lib : Stdlib} {json : Decoder} {s : Store} {n : Node} {e : Event} {block : Block}
  {blocks all : List Block}

/-- The block on top of a chain is shown without its parent, and then the walk fails: it goes on at
the empty key. -/
theorem viewedBlocks_of_tipStored (stored : TipStored lib s blocks) (reads : json.Reads lib blocks)
    (encoded : ∀ block ∈ blocks, ∃ data, lib.marshalBlock block = some data ∧ data ≠ []) :
    ∃ block ∈ blocks, s.get lastBlockKey = some block.hash ∧ ∃ err, json.parse [] = .error err ∧
      ∀ fuel, viewedBlocks json s (fuel + 2) = some
        ([⟨0, hexEncode block.hash, [], str "Name", str "Metahash", []⟩],
          some (str "failed to unmarshal block: " ++ err)) := by
  obtain ⟨block, mem, filled, goesOn, last, found⟩ := stored.tip
  obtain ⟨data, text, more⟩ := encoded block mem
  obtain ⟨err, refused⟩ := reads.empty
  have tip : s.get lastBlockKey = some block.hash := Store.get_of_data last filled
  refine ⟨block, mem, tip, err, refused, fun fuel => ?_⟩
  have zeros : endBlockHashHex = lastBlockKey := hexEncode_eq_lastBlockKey_iff.mpr rfl
  have nonempty : hexEncode block.hash ≠ [] := by
    intro vacant
    have size := length_hexEncode block.hash
    rw [vacant] at size
    exact filled (List.length_eq_zero_iff.mp (by rw [List.length_nil] at size; omega))
  have first : BlockchainBlock.unmarshal json ((s.get (hexEncode block.hash)).getD []) =
      .ok ⟨0, block.hash, .empty, []⟩ := by
    rw [text, Option.getD_some] at found
    rw [Store.get_of_data found more, Option.getD_some, BlockchainBlock.unmarshal,
      reads.parses block mem data text]
    exact BlockchainBlock.fill_entries json block
  have second : BlockchainBlock.unmarshal json ((s.get []).getD []) = .error err := by
    rw [Store.get_of_data_none stored.unnamed, Option.getD_none, BlockchainBlock.unmarshal, refused]
  have apart : ([] : GoString) ≠ lastBlockKey := by
    intro same
    cases same
  simp only [viewedBlocks, tip, Option.getD_some, if_neg nonempty, collectBlocks, zeros,
    if_neg goesOn, first]
  rw [show hexEncode ([] : Bytes) = [] from rfl, if_neg apart, second]
  rfl

/-- What the loop has when it is left does not depend on the fuel. -/
theorem collectBlocks_succ {fuel : Nat} {key : GoString} {views : List ViewBlock}
    {left : List ViewBlock × Option GoString}
    (ends : collectBlocks json s fuel key views = some left) :
    collectBlocks json s (fuel + 1) key views = some left := by
  induction fuel generalizing key views with
  | zero => cases ends
  | succ fuel ih =>
      rw [collectBlocks] at ends ⊢
      split at ends
      · next ended =>
          rw [if_pos ended]
          exact ends
      · next goesOn =>
        rw [if_neg goesOn]
        split at ends
        · exact ends
        · exact ih ends

theorem viewedBlocks_unique {m k : Nat} {left right : List ViewBlock × Option GoString}
    (here : viewedBlocks json s m = some left) (there : viewedBlocks json s k = some right) :
    left = right := by
  have more : ∀ {fuel : Nat} {left}, viewedBlocks json s fuel = some left →
      ∀ extra, viewedBlocks json s (fuel + extra) = some left := by
    intro fuel left ends extra
    induction extra with
    | zero => exact ends
    | succ extra ih => exact collectBlocks_succ ih
  have both := more there m
  rw [Nat.add_comm, more here k] at both
  exact Option.some.inj both

/-- A digest that is not zero, stored as the hash of the last block. -/
theorem tipStored_storeBlock (unnamed : s.data.get [] = none) (faithful : Faithful lib all)
    (mem : block ∈ all) (hashed : block.hash = computeBlockHash lib block) :
    TipStored lib (storeBlock lib s block) all := by
  have among : block.hash ∈ [block].map (computeBlockHash lib) ++ [root lib] := by
    rw [hashed]
    exact List.mem_cons_self
  obtain ⟨x, input, digest⟩ := faithful.exists_hashed
    (List.cons_subset.mpr ⟨mem, List.nil_subset all⟩) among
  have size : block.hash.length = 32 := by
    rw [digest]
    exact (lib.sha256 x).2
  have goesOn : hexEncode block.hash ≠ lastBlockKey := by
    rw [Ne, hexEncode_eq_lastBlockKey_iff, digest]
    exact faithful.nonzero x input
  have long : (hexEncode block.hash).length = 64 := by rw [length_hexEncode, size]
  refine ⟨?_, block, mem, ?_, goesOn, storeBlock_data_last lib s block,
    storeBlock_data_self lib (takes_digest s size) goesOn⟩
  · rw [storeBlock_data_of_ne, unnamed]
    · intro vacant
      rw [← vacant] at long
      cases long
    · intro vacant
      cases vacant
  · intro vacant
    rw [vacant] at size
    cases size

theorem TipStored.mono (stored : TipStored lib s blocks) (subset : blocks ⊆ all) :
    TipStored lib s all := by
  obtain ⟨unnamed, block, mem, tip⟩ := stored
  exact ⟨unnamed, block, subset mem, tip⟩

/-- A step of a node that receives no block: its own block becomes the last one. -/
theorem TipStored.step (stored : TipStored lib n.bcStore all) (builds : n.Builds) (own : e.Own)
    (faithful : Faithful lib all) (appends : ∀ block, n.appended lib e = some block → block ∈ all) :
    TipStored lib (n.step lib e).bcStore all := by
  rw [step_bcStore]
  cases added : n.appended lib e with
  | none => exact stored
  | some block =>
      obtain ⟨polls, mined⟩ := minedBlock_of_appended own added
      obtain ⟨-, -, hashed, -⟩ := builds.minedBlock mined
      exact tipStored_storeBlock stored.unnamed faithful (appends block added) hashed

/-- After every run of a node that starts on an empty store and receives no block, the last block is
in the store. -/
theorem afterEvents_tipStored (order : UTXOOrder) (backend : Backend) {es : List Event}
    (own : ∀ e ∈ es, e.Own)
    (faithful : Faithful lib (genesisBlock lib ::
      appendedBlocks lib (start lib order (newPeer ⟨backend, .empty⟩)) es)) :
    TipStored lib (afterEvents lib order ⟨backend, .empty⟩ es).bcStore (genesisBlock lib ::
      appendedBlocks lib (start lib order (newPeer ⟨backend, .empty⟩)) es) := by
  have inv := afterEvents_invariant (I := fun written n => n.Builds ∧
    TipStored lib n.bcStore written) order ⟨backend, .empty⟩ own faithful ?_ ?_
  · exact inv.2
  · intro faithful
    refine ⟨.of_idle (start_mining lib order _), ?_⟩
    rw [start_bcStore]
    exact tipStored_storeBlock rfl faithful List.mem_cons_self rfl
  · rintro written n e own faithful ⟨builds, stored⟩
    refine ⟨builds.step fun amb block same => (own amb block same).elim, ?_⟩
    exact (stored.mono (List.subset_append_left _ _)).step builds own faithful
      fun block added => List.mem_append_right _ (Option.mem_toList.mpr added)

end Walk

/-! ## The page -/

/-- The blocks that the viewer collects are those from the last block to the genesis block, each
with its hash and its parent, and it collects them without an error. -/
def ShowsChain (lib : Stdlib) (json : Decoder) (s : Store) : Prop :=
  ∃ tip blocks fuel views, s.get lastBlockKey = some tip ∧ Visits lib s tip blocks ∧
    blocks.getLast? = some (genesisBlock lib) ∧ viewedBlocks json s fuel = some (views, none) ∧
    views.map (fun view => (view.hash, view.prevHash)) =
      blocks.map fun block => (hexEncode block.hash, hexEncode block.prevBlockHash)

section Page

variable {lib : Stdlib} {json : Decoder} {s : Store} {blocks : List Block}

theorem TipStored.not_showsChain (stored : TipStored lib s blocks) (reads : json.Reads lib blocks)
    (encoded : ∀ block ∈ blocks, ∃ data, lib.marshalBlock block = some data ∧ data ≠ []) :
    ¬ ShowsChain lib json s := by
  rintro ⟨tip, chain, fuel, views, -, -, -, shown, -⟩
  obtain ⟨block, -, -, err, -, fails⟩ := viewedBlocks_of_tipStored stored reads encoded
  cases viewedBlocks_unique shown (fails 0)

theorem Faithful.encodes (faithful : Faithful lib blocks) :
    ∀ block ∈ blocks, ∃ data, lib.marshalBlock block = some data ∧ data ≠ [] := by
  intro block mem
  obtain ⟨data, encoded, filled, -⟩ := faithful.decodes block mem
  exact ⟨data, encoded, filled⟩

/-- After every run of a node that starts on an empty store and receives no block, the viewer
answers with the error for empty input. -/
theorem blockchainGet_error (order : UTXOOrder) (backend : Backend) {es : List Event}
    (own : ∀ e ∈ es, e.Own)
    (faithful : Faithful lib (genesisBlock lib ::
      appendedBlocks lib (start lib order (newPeer ⟨backend, .empty⟩)) es))
    (reads : json.Reads lib (genesisBlock lib ::
      appendedBlocks lib (start lib order (newPeer ⟨backend, .empty⟩)) es))
    (address : GoString) (parseFiles : Option GoString) :
    ∃ err, json.parse [] = .error err ∧ ∀ fuel,
      blockchainGet json (afterEvents lib order ⟨backend, .empty⟩ es).bcStore address parseFiles
        (fuel + 2) = some (.error (str "failed to unmarshal block: " ++ err)) := by
  obtain ⟨block, -, -, err, refused, fails⟩ := viewedBlocks_of_tipStored
    (afterEvents_tipStored order backend own faithful) reads (Faithful.encodes faithful)
  refine ⟨err, refused, fun fuel => ?_⟩
  rw [blockchainGet, fails fuel]

/-- **The viewer never shows the chain.**  After no run of a node that starts on an empty store and
receives no block does the viewer collect the chain that the node wrote. -/
theorem viewer_never_showsChain (lib : Stdlib) (json : Decoder) (order : UTXOOrder)
    (backend : Backend) (es : List Event) (own : ∀ e ∈ es, e.Own)
    (faithful : Faithful lib (genesisBlock lib ::
      appendedBlocks lib (start lib order (newPeer ⟨backend, .empty⟩)) es))
    (reads : json.Reads lib (genesisBlock lib ::
      appendedBlocks lib (start lib order (newPeer ⟨backend, .empty⟩)) es)) :
    ¬ ShowsChain lib json (afterEvents lib order ⟨backend, .empty⟩ es).bcStore :=
  (afterEvents_tipStored order backend own faithful).not_showsChain reads
    (Faithful.encodes faithful)

/-- `encoding/json` on the values of the run. -/
def minersDecoder : Decoder where
  parse data :=
    if data = [] then .error (str "unexpected end of JSON input")
    else
      match [sampleGenesis, block1].find? fun b => minersJson b = some data with
      | some block => .ok block.entries
      | none => .error (str "invalid character")
  mismatch name _ := str "json: cannot unmarshal into Go struct field BlockchainBlock." ++ name

theorem minersDecoder_reads : minersDecoder.Reads minersLib [sampleGenesis, block1] := by
  refine ⟨?_, _, rfl⟩
  have parsed : ∀ block ∈ [sampleGenesis, block1],
      ((minersLib.marshalBlock block).map fun data => (minersDecoder.parse data).toOption) =
        some (some block.entries) := by
    decide +kernel
  intro block mem data encoded
  have here := parsed block mem
  rw [encoded, Option.map_some] at here
  cases outcome : minersDecoder.parse data with
  | ok entries =>
      rw [outcome] at here
      cases here
      rfl
  | error err =>
      rw [outcome] at here
      cases here

/-- The viewer of a node that has mined one registration. -/
theorem viewer_mineClaim :
    ¬ ShowsChain minersLib minersDecoder
      (afterEvents minersLib .sorted ⟨.inmemory, .empty⟩ mineClaim).bcStore := by
  refine viewer_never_showsChain minersLib minersDecoder .sorted .inmemory mineClaim ?_ ?_ ?_
  · intro e mem amb block same
    subst same
    simp [mineClaim] at mem
  · rw [appendedBlocks_mineClaim]
    exact faithful_minersLib
  · rw [appendedBlocks_mineClaim]
    exact minersDecoder_reads

/-- The viewer of a node that has just started: it fails after the genesis block. -/
theorem viewer_genesis :
    viewedBlocks minersDecoder (afterEvents minersLib .sorted ⟨.inmemory, .empty⟩ []).bcStore 2 =
        some ([⟨0, hexEncode genesisHash.1, [], str "Name", str "Metahash", []⟩],
          some (str "failed to unmarshal block: unexpected end of JSON input")) ∧
      ¬ ShowsChain minersLib minersDecoder
        (afterEvents minersLib .sorted ⟨.inmemory, .empty⟩ []).bcStore := by
  have shown : viewedBlocks minersDecoder
      (afterEvents minersLib .sorted ⟨.inmemory, .empty⟩ []).bcStore 2 =
        some ([⟨0, hexEncode genesisHash.1, [], str "Name", str "Metahash", []⟩],
          some (str "failed to unmarshal block: unexpected end of JSON input")) := by
    decide +kernel
  refine ⟨shown, ?_⟩
  rintro ⟨tip, chain, fuel, views, -, -, -, ends, -⟩
  cases viewedBlocks_unique ends shown

end Page

end Node

end Peerster
