import Ish.Fs.Path
import Ish.Lib.Rekey

/-!
# The database of fakefs

`fs/fake-db.c`: the tables `paths` and `stats` and the statements that are prepared for them. A
statement does what SQLite specifies. `born` and `clock` are read by nothing: they tell a row from
another one that gets the same number later.
-/

namespace Ish.Fs.Fakefs

/-- `struct ish_stat` -/
structure IshStat where
  mode : BitVec 32
  uid : Nat
  gid : Nat
  rdev : Nat
  deriving DecidableEq, Repr

/-- A row of `stats`. -/
structure Row where
  stat : IshStat
  born : Nat
  deriving DecidableEq, Repr

/-- `struct fakefs_db` -/
structure Db where
  paths : AList fun _ : Path => Nat
  stats : AList fun _ : Nat => Row
  clock : Nat

/-- `path_get_inode`, with 0 for a path that is not there. -/
def Db.pathGetInode (db : Db) (path : Path) : Nat := (db.paths.lookup path).getD 0

/-- `inode_read_stat_if_exist` -/
def Db.inodeReadStat (db : Db) (inode : Nat) : Option IshStat := (db.stats.lookup inode).map Row.stat

/-- `path_read_stat` -/
def Db.pathReadStat (db : Db) (path : Path) : Option (Nat × IshStat) :=
  match db.paths.lookup path with
  | none => none
  | some inode => (db.inodeReadStat inode).map fun stat => (inode, stat)

/-- The number that SQLite gives to a new row. -/
def Db.nextRowid (db : Db) : Nat := db.stats.keys.foldr max 0 + 1

/-- `path_create`, with the number of the inode. -/
def Db.pathCreate (db : Db) (path : Path) (stat : IshStat) : Db × Nat :=
  ({ paths := db.paths.insert path db.nextRowid
     stats := db.stats.insert db.nextRowid ⟨stat, db.clock⟩
     clock := db.clock + 1 }, db.nextRowid)

/-- `inode_write_stat` -/
def Db.inodeWriteStat (db : Db) (inode : Nat) (stat : IshStat) : Db :=
  match db.stats.lookup inode with
  | none => db
  | some row => { db with stats := db.stats.insert inode { row with stat := stat } }

/-- `path_link`; `none` is `die`. -/
def Db.pathLink (db : Db) (src dst : Path) : Option Db :=
  if db.pathGetInode src = 0 then none
  else some { db with paths := db.paths.insert dst (db.pathGetInode src) }

/-- `path_unlink`, with the inode that the path had. -/
def Db.pathUnlink (db : Db) (path : Path) : Db × Nat :=
  if db.pathGetInode path = 0 then (db, 0)
  else ({ db with paths := db.paths.erase path }, db.pathGetInode path)

/-- The condition of `path_rename`: `(path >= ? and path < ?) or path = ?`. -/
def renames (src path : Path) : Bool :=
  (decide (src ++ [slash] ≤ path) && decide (path < src ++ [slash + 1])) || path = src

/-- `change_prefix` -/
def changePrefixBytes (src dst path : Path) : Path := dst ++ path.drop src.length

/-- `path_rename`, for paths neither of which is below the other; the host refuses all others. -/
def Db.pathRename (db : Db) (src dst : Path) : Db :=
  { db with paths := Lib.rekey db.paths (renames src) (changePrefixBytes src dst) }

/-- `fakefs_inode_orphaned`: the row goes if no path has it. -/
def Db.tryCleanupInode (db : Db) (inode : Nat) : Db :=
  if db.paths.entries.any fun row => row.2 = inode then db
  else { db with stats := db.stats.erase inode }

end Ish.Fs.Fakefs
