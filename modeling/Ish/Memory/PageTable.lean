import Ish.Memory.Basic

/-!
# The four-level page table

`PT_INDEX`, `mem_pt`, `mem_pt_new`, `mem_pt_del` and `mem_next_page` of `kernel/memory.c`.

Every level masks its index to 9 bits, so the table has one slot for each residue of the page
number modulo `2^36`: the functions below take any page number, as the source does.
-/

namespace Ish

def ptIndex (page level : Nat) : PtIdx :=
  ⟨page / 2 ^ (9 * (3 - level)) % 512, Nat.mod_lt _ (by decide)⟩

theorem ptIndex_zero_val (page : Nat) : (ptIndex page 0).val = page / 0x8000000 % 512 := rfl

theorem ptIndex_one_val (page : Nat) : (ptIndex page 1).val = page / 0x40000 % 512 := rfl

theorem ptIndex_two_val (page : Nat) : (ptIndex page 2).val = page / 0x200 % 512 := rfl

theorem ptIndex_three_val (page : Nat) : (ptIndex page 3).val = page % 512 := by
  change page / 1 % 512 = page % 512
  rw [Nat.div_one]

/-- `mem_pt`: the entry of `page`, `none` for a null pointer. -/
def memPt (m : Mem) (page : Nat) : Option PtEntry :=
  match m.pgdir.children (ptIndex page 0) with
  | none => none
  | some l1 =>
    match l1.children (ptIndex page 1) with
    | none => none
    | some l2 =>
      match l2.children (ptIndex page 2) with
      | none => none
      | some l3 => l3 (ptIndex page 3)

/-- The child at `i`, created with `calloc` when it is null. -/
def PtNode.childNew {α : Type} (node : PtNode (PtNode α)) (i : PtIdx) : PtNode α :=
  (node.children i).getD PtNode.empty

def PtNode.setChild {α : Type} (node : PtNode α) (i : PtIdx) (child : α) : PtNode α :=
  ⟨Function.update node.children i (some child)⟩

/-- A store through the pointer that `mem_pt_new` returns for `page`: the nodes on the way are
created, then the slot is overwritten (`none` stores a null `data`). -/
def memPtSet (m : Mem) (page : Nat) (entry : Option PtEntry) : Mem :=
  let l1 := m.pgdir.childNew (ptIndex page 0)
  let l2 := l1.childNew (ptIndex page 1)
  let l3 : PtL3 := (l2.children (ptIndex page 2)).getD fun _ => none
  let l3' : PtL3 := Function.update l3 (ptIndex page 3) entry
  { m with
    pgdir := m.pgdir.setChild (ptIndex page 0)
      (l1.setChild (ptIndex page 1) (l2.setChild (ptIndex page 2) l3')) }

/-- `mem_pt_new`, with the fields its callers then fill in. -/
def memPtNew (m : Mem) (page : Nat) (entry : PtEntry) : Mem :=
  memPtSet m page (some entry)

/-- `mem_pt_del` -/
def memPtDel (m : Mem) (page : Nat) : Mem :=
  match memPt m page with
  | none => m
  | some _ => memPtSet m page none

/-- `entry->flags = flags` for the entry of `page`. -/
def memPtSetFlags (m : Mem) (page : Nat) (flags : Flags) : Mem :=
  match memPt m page with
  | none => m
  | some entry => memPtSet m page (some { entry with flags := flags })

/-- The `while` loop of `mem_next_page`: skips the subtrees without nodes. -/
def memNextPage.go (m : Mem) (page : Nat) : Nat :=
  if page < memPages then
    match m.pgdir.children (ptIndex page 0) with
    | none => go m ((page / 0x8000000 + 1) * 0x8000000)
    | some l1 =>
      match l1.children (ptIndex page 1) with
      | none => go m ((page / 0x40000 + 1) * 0x40000)
      | some l2 =>
        match l2.children (ptIndex page 2) with
        | none => go m ((page / 0x200 + 1) * 0x200)
        | some _ => page
  else page
termination_by memPages - page
decreasing_by all_goals omega

/-- `mem_next_page` -/
def memNextPage (m : Mem) (page : Nat) : Nat :=
  if page + 1 < memPages then memNextPage.go m (page + 1) else page + 1

end Ish
