import Ish.Asbestos.Block

/-!
# A guest thread that runs blocks

The dispatcher `cpu_step_to_interrupt` of `asbestos/asbestos.c` with the caches that one thread keeps
in its `struct tlb` and its frame, the gadgets that go from block to block without the dispatcher
(`control.S`, `entry.S`), the stores of the guest (`write_prep` of `gadgets.h`, `__tlb_write_ptr`,
`tlb_handle_miss`) and what the kernel does to the pages (`kernel/memory.c`).

Which addresses the guest stores to, loads from and jumps to is left to the actions, and so are the
jumps of a block that is compiled, so that every guest program is among the runs. A block remembers
the bytes it was translated from and the page whose fetch failed at its end, if one did. `unsynced`
is not in the source: it marks the bytes that were stored to since the last `IC IVAU`, `DSB`, `ISB`
for their line, and no step reads it.
-/

namespace Ish.Asbestos

open Lib

/-- The address space and the thread. -/
structure Thread where
  fibers : State
  /-- for each block and address the byte that `arm64_read_insn` saw -/
  source : Nat → Nat → Option UInt8
  /-- for each block the page that was not mapped when `gen_step` fetched from it -/
  fetchFault : Nat → Option Nat
  /-- the memory behind each page that is mapped -/
  frame : Nat → Option Nat
  ram : Nat → UInt8
  unsynced : Nat → Bool
  /-- `tlb->entries`: the page, and whether `page_if_writable` is set -/
  entry : Nat → Option (Nat × Bool)
  /-- `tlb->mem_changes` is not `mmu->changes` -/
  changed : Bool
  dirtyPage : Option Nat
  cache : Nat → Option Nat
  cacheGen : Nat
  retCache : Nat → Option Nat
  lastBlock : Option Nat
  /-- the block that `fiber_enter` is executing -/
  running : Option Nat

/-- The memory of an address. -/
def Thread.phys (m : Thread) (addr : Nat) : Option Nat :=
  (m.frame (page addr)).map fun f => f * 4096 + addr % 4096

def Thread.byte (m : Thread) (addr : Nat) : Option UInt8 := (m.phys addr).map m.ram

def threadInit (ram : Nat → UInt8) : Thread where
  fibers := init
  source _ _ := none
  fetchFault _ := none
  frame _ := none
  ram := ram
  unsynced _ := false
  entry _ := none
  changed := false
  dirtyPage := none
  cache _ := none
  cacheGen := 0
  retCache _ := none
  lastBlock := none
  running := none

/-! ### Memory -/

/-- `TLB_INDEX` -/
def tlbSlot (p : Nat) : Nat := (p ^^^ (p / 2 ^ 13)) % 2 ^ 13

/-- The start of `tlb_handle_miss`, which flushes the TLB if the page table has changed. -/
def Thread.miss (m : Thread) : Thread :=
  { m with changed := false, entry := if m.changed then fun _ => none else m.entry }

/-- The end of `tlb_handle_miss`, after `mmu_translate` has found the page. -/
def Thread.fill (m : Thread) (p : Nat) (writable : Bool) : Thread :=
  { m with
    dirtyPage := some p
    entry := Function.update m.entry (tlbSlot p) (some (p, writable)) }

/-- A load or a fetch from the page: the miss notes it as the dirty page. `writable` is what
`translate_write_nofault` says. -/
def Thread.load (m : Thread) (p : Nat) (writable : Bool) : Thread :=
  if (m.entry (tlbSlot p)).any (·.1 = p) then m else m.miss.fill p writable

/-- `__tlb_write_ptr`: a miss goes through `mem_ptr`, which drops the blocks of the page. -/
def Thread.writePtr (m : Thread) (p : Nat) : Thread :=
  if m.entry (tlbSlot p) = some (p, true) then { m with dirtyPage := some p }
  else { m.miss with fibers := m.fibers.invalidatePage p }.fill p true

/-- `write_prep` for a page that cannot be written: the page is noted before the miss fails. -/
def Thread.writeFault (m : Thread) (p : Nat) : Thread := { m.miss with dirtyPage := some p }

def Thread.write (m : Thread) (a : Nat) (v : UInt8) : Thread :=
  { m with
    ram := fun x => if some x = m.phys a then v else m.ram x
    unsynced := fun x => if (m.phys x).isSome ∧ m.phys x = m.phys a then true else m.unsynced x }

/-- `pt_unmap_always` for one page -/
def Thread.unmap (m : Thread) (p : Nat) : Thread :=
  { m with
    fibers := m.fibers.invalidatePage p
    frame := Function.update m.frame p none
    changed := true }

/-! ### The dispatcher -/

/-- The caches are emptied. -/
def Thread.dropCaches (m : Thread) (gen : Nat) : Thread :=
  { m with
    cache := fun _ => none
    cacheGen := gen
    retCache := fun _ => none
    lastBlock := none }

/-- The test of `invalidate_gen` at the head of the loop. -/
def Thread.checkGen (m : Thread) : Thread :=
  if m.cacheGen = m.fibers.invalidateGen then m else m.dropCaches m.fibers.invalidateGen

def fiberCacheHash (ip : Nat) : Nat := (ip ^^^ (ip / 2 ^ 12)) % 2 ^ 12

/-- What `fiber_block_compile` makes of the bytes at an address, and how `fiber_insert` chains. -/
structure Compiled where
  code : Code
  fetchFault : Option Nat
  eager : Bool
  incoming : Bool

/-- Where the fetch that ended the block was. -/
def Code.fetchAddr (c : Code) : Nat := if c.endAddr = c.addr then c.addr else c.endAddr + 1

/-- The block was translated from mapped bytes, and if a fetch failed then because a page of the
instruction is not mapped. A block at an address that is not mapped has no bytes. -/
def Thread.fetches (m : Thread) (new : Compiled) : Bool :=
  (new.fetchFault.all fun p => (m.frame p).isNone &&
    (p == page new.code.fetchAddr || p == page (new.code.fetchAddr + 3))) &&
  ((new.fetchFault.isSome && new.code.endAddr == new.code.addr) ||
    (List.range' new.code.addr (new.code.endAddr + 1 - new.code.addr)).all fun x =>
      (m.byte x).isSome)

/-- `fiber_block_compile` and `fiber_insert` -/
def Thread.compile (m : Thread) (new : Compiled) : Thread :=
  { m with
    fibers := m.fibers.insert new.code new.eager new.incoming
    source := Function.update m.source m.fibers.next m.byte
    fetchFault := Function.update m.fetchFault m.fibers.next new.fetchFault }

/-- `cache[cache_index] = block` -/
def Thread.remember (m : Thread) (ip id : Nat) : Thread :=
  { m with cache := Function.update m.cache (fiberCacheHash ip) (some id) }

/-- The block in the cache, if it is the one at `ip`. -/
def Thread.cached (m : Thread) (ip : Nat) : Option Nat :=
  (m.cache (fiberCacheHash ip)).filter fun id => (m.fibers.blocks id).any (·.addr = ip)

/-- The block at `ip`: from the cache, from the hash, or compiled. -/
def Thread.findBlock (m : Thread) (new : Compiled) : Nat × Thread :=
  let ip := new.code.addr
  match m.cached ip with
  | some id => (id, m)
  | none =>
    match m.fibers.lookup ip with
    | some id => (id, m.remember ip id)
    | none => (m.fibers.next, (m.compile new).remember ip m.fibers.next)

/-- The end of the loop body up to `fiber_enter`; `locked` says whether `trylock` got the lock. -/
def Thread.start (m : Thread) (id : Nat) (locked : Bool) : Thread :=
  { m with
    fibers :=
      match m.lastBlock with
      | some last => if locked then m.fibers.chain last id else m.fibers
      | none => m.fibers
    lastBlock := some id
    running := some id }

/-- The part of the loop of `cpu_step_to_interrupt` before `fiber_enter`, at the address of `new`. -/
def Thread.dispatch (m : Thread) (new : Compiled) (locked : Bool) : Thread :=
  let (id, m) := m.checkGen.findBlock new
  m.start id locked

/-- `tlb_flush` and the block cache, the return cache and `last_block` with it. -/
def Thread.flush (m : Thread) : Thread :=
  { m.dropCaches m.fibers.invalidateGen with entry := fun _ => none, changed := false }

/-- `asbestos_invalidate_page` for the dirty page. -/
def Thread.cleanPage (m : Thread) : Thread :=
  match m.dirtyPage with
  | some p => { m with fibers := m.fibers.invalidatePage p, dirtyPage := none }
  | none => m

def Thread.flushIf (m : Thread) (b : Bool) : Thread := if b then m.flush else m

/-- The part after `fiber_enter`; `crash` is `INT_JIT_CRASH`. -/
def Thread.leave (m : Thread) (crash : Bool) : Thread :=
  let m := ({ m with running := none }.flushIf crash).cleanPage
  m.flushIf m.changed

/-- `tlb_refresh` -/
def Thread.refresh (m : Thread) : Thread :=
  if m.changed then
    { m.dropCaches 0 with entry := fun _ => none, changed := false, dirtyPage := none }
  else m

/-- The end of `cpu_run_to_interrupt`, where `free` says whether `jetsam_lock` was free, and the
start of the next: `tlb_refresh` and the head of `cpu_step_to_interrupt`. One step, as the thread
reads no block in between. -/
def Thread.rerun (m : Thread) (free : Bool) : Thread :=
  let m := if free then { m with fibers := m.fibers.freeJetsam } else m
  { m.refresh.checkGen with lastBlock := none }

/-! ### Between blocks -/

/-- The block that slot `i` of a block jumps to, if it is chained. -/
def Thread.chained (m : Thread) (id : Nat) (i : Bool) : Option Nat :=
  match (m.fibers.blocks id).bind (·.jump i) with
  | none => none
  | some _ =>
    match m.fibers.links.word (id, i) with
    | .code t => some t
    | .fake _ => none

/-- `FIBER_RETURN_CACHE_HASH` -/
def returnCacheHash (a : Nat) : Nat := a / 2 ^ 4 % 2 ^ 12

/-- A patched jump. -/
def Thread.enter (m : Thread) (id : Nat) : Thread :=
  { m with lastBlock := some id, running := some id }

/-- The caller in the return cache whose return address is `a`. -/
def Thread.caller (m : Thread) (a : Nat) : Option Nat :=
  (m.retCache (returnCacheHash a)).filter fun id =>
    (m.fibers.blocks id).any fun c => c.jump false = some a

/-- What the guest thread, the dispatcher and the kernel do. -/
inductive ThreadAct where
  | load (p : Nat) (writable : Bool)
  | store (a : Nat) (v : UInt8)
  /-- a store to a page that is not mapped or not writable -/
  | badStore (p : Nat)
  /-- `IC IVAU` for some lines of 64 bytes, `DSB` and `ISB`, which are translated to nothing but host
  barriers -/
  | sync (lines : List Nat)
  /-- a jump of the running block that is patched -/
  | jump (i : Bool)
  /-- a patched jump that finds the thread poked -/
  | poke (i : Bool)
  /-- `BL`, which puts its arguments into the return cache -/
  | call
  /-- `RET` -/
  | ret (a : Nat)
  /-- the gadgets return to the dispatcher -/
  | leave (crash : Bool)
  | dispatch (new : Compiled) (locked : Bool)
  | rerun (free : Bool)
  /-- `pt_map` of a page that is not mapped -/
  | map (p f : Nat)
  | unmap (p : Nat)
  /-- the kernel writes to guest memory -/
  | kernelStore (a : Nat) (v : UInt8)

/-- One step of the machine. -/
def Thread.step (m : Thread) : ThreadAct → Option Thread
  | .load p writable => if (m.frame p).isSome then some (m.load p writable) else none
  | .store a v =>
    if m.running.isSome ∧ (m.phys a).isSome then some ((m.writePtr (page a)).write a v) else none
  | .badStore p => if m.running.isSome then some (m.writeFault p) else none
  | .sync lines =>
    if m.running.isSome then
      some { m with unsynced := fun x => m.unsynced x && !decide (x / 64 ∈ lines) }
    else none
  | .jump i =>
    match m.running.bind (m.chained · i) with
    | some t => some (m.enter t)
    | none => none
  | .poke i =>
    match m.running.bind (m.chained · i) with
    | some t => some ({ m with lastBlock := some t }.leave false)
    | none => none
  | .call =>
    match m.running with
    | none => none
    | some id =>
      match (m.fibers.blocks id).bind (·.jump false) with
      | none => none
      | some a => some { m with retCache := Function.update m.retCache (returnCacheHash a) (some id) }
  | .ret a =>
    if m.running.isNone then none
    else
      match m.caller a with
      | none => some (m.leave false)
      | some id =>
        match m.chained id false with
        | some t => some (m.enter t)
        | none => some ({ m with lastBlock := some id }.leave false)
  | .leave crash => if m.running.isSome then some (m.leave crash) else none
  | .dispatch new locked =>
    if m.running.isNone ∧ new.code.addr ≠ 0 ∧ m.fetches new then some (m.dispatch new locked)
    else none
  | .rerun free => if m.running.isNone then some (m.rerun free) else none
  | .map p f =>
    if m.frame p = none then
      some { m with frame := Function.update m.frame p (some f), changed := true }
    else none
  | .unmap p => if m.running.isNone ∧ (m.frame p).isSome then some (m.unmap p) else none
  | .kernelStore a v =>
    if m.running.isNone ∧ (m.phys a).isSome then
      some ({ m with fibers := m.fibers.invalidatePage (page a) }.write a v)
    else none

/-- The step starts a block. -/
def ThreadAct.enters : ThreadAct → Bool
  | .jump _ | .ret _ | .dispatch _ _ => true
  | _ => false

end Ish.Asbestos
