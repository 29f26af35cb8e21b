import Mathlib

/-!
# Listing a directory

`sys_getdents_common` of `fs/dir.c` with its two record layouts, for a descriptor of a directory whose
`readdir`, `telldir` and `seekdir` are lawful and which does not change.
-/

namespace Ish.Dirents

/-- `struct dir_entry`, as far as it decides the size of a record. -/
structure DirEntry where
  inode : Nat
  name : List UInt8
  short : name.length ≤ 255
  deriving DecidableEq

/-- `fill_dirent_32` or `fill_dirent_64` -/
inductive Layout where
  | dirent
  | dirent64

def Layout.reclen (l : Layout) (e : DirEntry) : Nat :=
  match l with
  | dirent => 10 + e.name.length + 2
  | dirent64 => 19 + e.name.length + 1

/-- A directory: its entries in order, and the numbers of its positions. -/
structure Dir where
  entries : List DirEntry
  telldir : Nat → Nat
  seekdir : Nat → Nat
  lawful : ∀ pos, seekdir (telldir pos) = pos

inductive Errno where
  | efault
  | einval
  deriving DecidableEq

/-- What a call leaves: its result, the position, and the entries that are in the buffer. -/
structure Listed where
  ret : Except Errno Int
  pos : Nat
  written : List DirEntry

/-- The loop of `sys_getdents_common` from the position `pos` on, where `rest` is what `readdir` gives. `used` of the
bytes of the buffer are used, `done` entries are written, and the `i`-th `user_write` fails if `faults i`. -/
def sysGetdentsCommon.loop (d : Dir) (l : Layout) (faults : Nat → Bool) (count : Nat) :
    (rest : List DirEntry) → (pos used done : Nat) → Listed
  | [], pos, used, _ => ⟨.ok ((used : Int).bmod 0x100000000), d.seekdir (d.telldir pos), []⟩
  | e :: rest, pos, used, done =>
    if l.reclen e > count - used then ⟨.ok ((used : Int).bmod 0x100000000), d.seekdir (d.telldir pos), []⟩
    else if faults done then ⟨.error .efault, pos + 1, []⟩
    else
      let r := sysGetdentsCommon.loop d l faults count rest (pos + 1) (used + l.reclen e) (done + 1)
      { r with written := e :: r.written }

/-- `sys_getdents_common` with a buffer of `count` bytes, of a descriptor at the position `pos`. -/
def sysGetdentsCommon (d : Dir) (l : Layout) (pos : Nat) (count : BitVec 32) (faults : Nat → Bool) : Listed :=
  sysGetdentsCommon.loop d l faults count.toNat (d.entries.drop pos) pos 0 0

/-- A call: the size of its buffer, and the copies that fail. -/
structure Call where
  count : BitVec 32
  faults : Nat → Bool

/-- The entries that were returned, and the position, after calls one after the other. -/
def Dir.list (d : Dir) (l : Layout) (pos : Nat) : List Call → List DirEntry × Nat
  | [] => ([], pos)
  | c :: rest =>
    let r := sysGetdentsCommon d l pos c.count c.faults
    let (listed, pos') := d.list l r.pos rest
    ((match r.ret with
      | .ok _ => r.written
      | .error _ => []) ++ listed, pos')

end Ish.Dirents
