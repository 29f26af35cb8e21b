import Mathlib
import Ish.Lib.Listing

/-!
# The blocks of translated code

`asbestos/asbestos.c`: the hash of the blocks by address, the lists of the blocks of a page, and the
chains between blocks, as `fiber_insert`, the dispatcher `cpu_step_to_interrupt`,
`asbestos_invalidate_range` and its variants, and `fiber_free_jetsam` change them.

A block is named by a number that is never used twice, which stands for its address. What
`fiber_block_compile` fixes in a block is its `Code`; the jump words and the links that change later
are kept beside it as functions of block and slot. A slot is `false` for index 0 and `true` for 1.
`list_remove` takes a block out of whatever list of the kind it is in. Everything is done under
`asbestos->lock`, so each call is one step.
-/

namespace Ish.Asbestos

open Lib

def page (addr : Nat) : Nat := addr / 4096

/-- What `fiber_block_compile` gives: a block that is not longer than a page, and for each slot with
a jump the guest address in it. -/
structure Code where
  addr : Nat
  endAddr : Nat
  used : Nat
  jump : Bool → Option Nat
  addr_le : addr ≤ endAddr
  span : endAddr < addr + 4096

/-- `*jump_ip[i]`: a fake address, with the highest bit set, or a pointer to the code of a block. -/
inductive JumpWord where
  | fake (target : Nat)
  | code (block : Nat)
  deriving DecidableEq, Repr

/-- `arm64_fake_jump_target` -/
def fakeJumpTarget : JumpWord → Option Nat
  | .fake target => some (target % 2 ^ 48)
  | .code _ => none

/-- `jumps_from_links[i]`: null, pointing to itself, or linked into the list of a block. -/
inductive Link where
  | null
  | loop
  | into (block : Nat)
  deriving DecidableEq, Repr

/-- The block in whose list the link is. -/
def Link.target : Link → Option Nat
  | .into block => some block
  | _ => none

/-- `*jump_ip[i]`, `jumps_from_links[i]` and `jumps_from[i]` of all blocks. -/
structure Links where
  word : Nat × Bool → JumpWord
  link : Nat × Bool → Link
  jumpsFrom : Nat × Bool → List Nat

/-- `struct asbestos` with its blocks. -/
structure State where
  blocks : Nat → Option Code
  isJetsam : Nat → Bool
  links : Links
  next : Nat
  hash : Nat → List Nat
  hashSize : Nat
  pageHash : Nat × Bool → List Nat
  jetsam : List Nat
  memUsed : Nat
  numBlocks : Nat
  invalidateGen : Nat

/-- `FIBER_INITIAL_HASH_SIZE` -/
def initialHashSize : Nat := 2 ^ 10

/-- `FIBER_PAGE_HASH_SIZE` -/
def pageHashSize : Nat := 2 ^ 10

/-- `asbestos_new` -/
def init : State where
  blocks _ := none
  isJetsam _ := false
  links := ⟨fun _ => .fake 0, fun _ => .null, fun _ => []⟩
  next := 0
  hash _ := []
  hashSize := initialHashSize
  pageHash _ := []
  jetsam := []
  memUsed := 0
  numBlocks := 0
  invalidateGen := 0

/-! ### Chains -/

/-- The jump goes to a block: `source` is linked into its list. -/
def Links.patch (l : Links) (source : Nat) (i : Bool) (target : Nat) : Links where
  word := Function.update l.word (source, i) (.code target)
  link := Function.update l.link (source, i) (.into target)
  jumpsFrom := Function.update l.jumpsFrom (target, i) (source :: l.jumpsFrom (target, i))

/-- The jump gets its old value, and its link goes out of the list it is in. -/
def Links.dropLink (l : Links) (blocks : Nat → Option Code) (source : Nat) (i : Bool) : Links where
  word :=
    match (blocks source).bind (·.jump i) with
    | some old => Function.update l.word (source, i) (.fake old)
    | none => l.word
  link := Function.update l.link (source, i) .null
  jumpsFrom :=
    match (l.link (source, i)).target with
    | some target =>
      Function.update l.jumpsFrom (target, i) ((l.jumpsFrom (target, i)).erase source)
    | none => l.jumpsFrom

/-- The chains of one slot of a block that is disconnected: its own jump and those to it. -/
def Links.disconnect (l : Links) (blocks : Nat → Option Code) (block : Nat) (i : Bool) : Links :=
  let l := if l.link (block, i) = .null then l else l.dropLink blocks block i
  (l.jumpsFrom (block, i)).foldl (fun l prev => l.dropLink blocks prev i) l

/-- The slot holds a fake jump to the address of the target. -/
def Links.fakeTo (l : Links) (source : Nat) (i : Bool) (code target : Code) : Bool :=
  (code.jump i).isSome && fakeJumpTarget (l.word (source, i)) == some target.addr

/-- `fiber_prechain_patch_slot` -/
def State.prechainPatchSlot (s : State) (source : Nat) (i : Bool) (target : Nat) : State :=
  match s.blocks source, s.blocks target with
  | some code, some code' =>
    if s.isJetsam source ∨ s.isJetsam target then s
    else if s.links.fakeTo source i code code' ∧ page code.addr = page code'.addr then
      { s with links := s.links.patch source i target }
    else s
  | _, _ => s

/-! ### The hash and the page lists -/

/-- `fiber_lookup` -/
def State.lookup (s : State) (addr : Nat) : Option Nat :=
  (s.hash (addr % s.hashSize)).find? fun id => (s.blocks id).any (·.addr = addr)

/-- The bucket of a block. -/
def State.bucket (s : State) (size : Nat) (id : Nat) : Nat :=
  ((s.blocks id).elim 0 Code.addr) % size

/-- `fiber_resize_hash` -/
def State.resizeHash (s : State) (size : Nat) : State :=
  { s with
    hash := pushAll (s.bucket size) ((List.range s.hashSize).flatMap s.hash) fun _ => []
    hashSize := size }

/-- `blocks_list(asbestos, page, i)` for the page lists that a block is put into. -/
def Code.pageBucket (c : Code) : Bool → Option Nat
  | false => some (page c.addr % pageHashSize)
  | true => if page c.addr ≠ page c.endAddr then some (page c.endAddr % pageHashSize) else none

/-- `list_init_add` to one list. -/
def addTo {β : Type} [DecidableEq β] (L : β → List Nat) (b : Option β) (id : Nat) : β → List Nat :=
  match b with
  | some b => Function.update L b (id :: L b)
  | none => L

/-- `fiber_prechain_outgoing_same_page` for one slot. -/
def State.prechainOutgoing (s : State) (block : Nat) (code : Code) (i : Bool) : State :=
  match (code.jump i).bind fun _ => fakeJumpTarget (s.links.word (block, i)) with
  | none => s
  | some target =>
    if page code.addr ≠ page target then s
    else
      match s.lookup target with
      | none => s
      | some id => s.prechainPatchSlot block i id

/-- The loop of `fiber_prechain_incoming_same_page`, after `scanned` other blocks. The tests before
the call of `fiber_prechain_patch_slot` are among those that it makes itself. -/
def prechainIncoming (block : Nat) : Nat → List Nat → State → State
  | _, [], s => s
  | scanned, source :: sources, s =>
    if source = block then prechainIncoming block scanned sources s
    else if scanned ≥ 2 then s
    else
      prechainIncoming block (scanned + 1) sources
        ((s.prechainPatchSlot source false block).prechainPatchSlot source true block)

/-- `fiber_prechain_same_page` -/
def State.prechainSamePage (s : State) (block : Nat) (code : Code) (incoming : Bool) : State :=
  let s := (s.prechainOutgoing block code false).prechainOutgoing block code true
  if incoming then
    prechainIncoming block 0 (s.pageHash (page code.addr % pageHashSize, false)) s
  else s

/-- `fiber_block_compile`: a new block with its jump words and links, in no list. -/
def State.compile (s : State) (code : Code) : State :=
  { s with
    blocks := Function.update s.blocks s.next (some code)
    isJetsam := Function.update s.isJetsam s.next false
    links :=
      { word := fun (id, i) => if id = s.next then .fake ((code.jump i).getD 0) else s.links.word (id, i)
        link := fun (id, i) => if id = s.next then .loop else s.links.link (id, i)
        jumpsFrom := fun (id, i) => if id = s.next then [] else s.links.jumpsFrom (id, i) }
    next := s.next + 1 }

/-- The first half of `fiber_insert`: the counts and, if there are too many blocks, a larger hash. -/
def State.countBlock (s : State) (code : Code) : State :=
  let s := { s with memUsed := s.memUsed + code.used, numBlocks := s.numBlocks + 1 }
  if s.numBlocks ≥ s.hashSize * 2 then s.resizeHash (s.hashSize * 2) else s

/-- The lists that `fiber_insert` puts a block into. -/
def State.addToLists (s : State) (id : Nat) (code : Code) : State :=
  { s with
    hash := addTo s.hash (some (code.addr % s.hashSize)) id
    pageHash :=
      addTo (addTo s.pageHash ((code.pageBucket false).map (·, false)) id)
        ((code.pageBucket true).map (·, true)) id }

/-- `fiber_insert` of a block that `fiber_block_compile` has just made. -/
def State.insert (s : State) (code : Code) (eager incoming : Bool) : State :=
  let id := s.next
  let s := ((s.compile code).countBlock code).addToLists id code
  if eager then s.prechainSamePage id code incoming else s

/-! ### Invalidation -/

/-- `fiber_block_disconnect` -/
def State.disconnect (s : State) (id : Nat) : State :=
  { s with
    memUsed := s.memUsed - (s.blocks id).elim 0 Code.used
    numBlocks := s.numBlocks - 1
    hash := fun n => (s.hash n).erase id
    pageHash := fun n => (s.pageHash n).erase id
    links := (s.links.disconnect s.blocks id false).disconnect s.blocks id true }

/-- The body of the loops over a page list. -/
def State.retire (s : State) (id : Nat) : State :=
  let s := s.disconnect id
  { s with
    isJetsam := Function.update s.isJetsam id true
    jetsam := id :: s.jetsam }

/-- The loop over one page list; `did` is `did_invalidate`. -/
def State.retireList (s : State × Bool) (n : Nat × Bool) : State × Bool :=
  ((s.1.pageHash n).foldl State.retire s.1, s.2 || !(s.1.pageHash n).isEmpty)

/-- The loops over the lists of some buckets, and the new generation. -/
def State.retireLists (s : State) (buckets : List Nat) : State :=
  let (s, did) := buckets.foldl (fun s n => State.retireList (State.retireList s (n, false)) (n, true))
    (s, false)
  if did then { s with invalidateGen := s.invalidateGen + 1 } else s

/-- `asbestos_invalidate_range`, from page `start` up to `stop`, which is not included -/
def State.invalidateRange (s : State) (start stop : Nat) : State :=
  s.retireLists ((List.range' start (stop - start)).map (· % pageHashSize))

/-- `asbestos_invalidate_page`; a list that has been used and is empty again takes the slow path, which
then does nothing. -/
def State.invalidatePage (s : State) (p : Nat) : State :=
  if s.pageHash (p % pageHashSize, false) = [] ∧ s.pageHash (p % pageHashSize, true) = [] then s
  else s.invalidateRange p (p + 1)

/-- `asbestos_invalidate_all` -/
def State.invalidateAll (s : State) : State := s.retireLists (List.range pageHashSize)

/-- `fiber_free_jetsam` -/
def State.freeJetsam (s : State) : State :=
  { s with
    blocks := fun id => if id ∈ s.jetsam then none else s.blocks id
    jetsam := [] }

/-! ### Steps -/

/-- The chaining in `cpu_step_to_interrupt` for one slot: `last` has just run and `block` is next. -/
def State.chainSlot (s : State) (last block : Nat) (i : Bool) : State :=
  match s.blocks last, s.blocks block with
  | some code, some code' =>
    if s.links.fakeTo last i code code' then { s with links := s.links.patch last i block } else s
  | _, _ => s

/-- The chaining in `cpu_step_to_interrupt`. -/
def State.chain (s : State) (last block : Nat) : State :=
  if s.isJetsam last ∨ s.isJetsam block then s
  else (s.chainSlot last block false).chainSlot last block true

/-- What changes the blocks. -/
inductive Act where
  | insert (code : Code) (eager incoming : Bool)
  | chain (last block : Nat)
  | invalidatePage (p : Nat)
  | invalidateRange (start stop : Nat)
  | invalidateAll
  | freeJetsam

/-- One call. A block is compiled only after `fiber_lookup` has found none, and the blocks that the
dispatcher chains are not freed while it runs. -/
def State.step (s : State) : Act → Option State
  | .insert code eager incoming =>
    if s.lookup code.addr = none then some (s.insert code eager incoming) else none
  | .chain last block =>
    if (s.blocks last).isSome ∧ (s.blocks block).isSome then some (s.chain last block) else none
  | .invalidatePage p => some (s.invalidatePage p)
  | .invalidateRange start stop => some (s.invalidateRange start stop)
  | .invalidateAll => some s.invalidateAll
  | .freeJetsam => some s.freeJetsam

end Ish.Asbestos
