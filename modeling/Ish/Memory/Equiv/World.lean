import Ish.Lib.Run
import Ish.Memory.World
import Ish.Memory.Equiv.Fault
import Ish.Memory.Equiv.Mmap

/-!
# Invariants of every reachable world

Names are in order: every entry points to a `struct data` that has been allocated, and every
`struct data` to a host mapping that has been made.
-/

namespace Ish

open Lib

variable {ι : Type} [DecidableEq ι]

/-! ### Names -/

/-- Every name in use has been handed out. -/
structure World.Bounded (w : World ι) : Prop where
  entry : ∀ i q e, memPt (w.mems i) q = some e → e.data < w.kernel.nextData
  region : ∀ d, d < w.kernel.nextData → (w.kernel.datas d).data < w.kernel.host.next
  vdso : vdsoData < w.kernel.host.next

omit [DecidableEq ι] in
theorem bounded_worldInit : (worldInit ι).Bounded where
  entry _ _ _ he := by cases he
  region d hd := absurd hd (Nat.not_lt_zero d)
  vdso := Nat.lt_succ_self _

theorem World.put_mems_self (w : World ι) (i : ι) (s : Kernel × Mem) : (w.put i s).mems i = s.2 := by
  simp [World.put]

theorem World.put_mems_of_ne (w : World ι) {i j : ι} (s : Kernel × Mem) (h : j ≠ i) :
    (w.put i s).mems j = w.mems j := by
  simp [World.put, Function.update_of_ne h]

/-- A step on one address space that keeps its own names in order keeps all of them in order. -/
theorem World.Bounded.put {w : World ι} (hw : w.Bounded) (i : ι) {s : Kernel × Mem} (hext : w.kernel.Extends s.1)
    (hentry : ∀ q e, memPt s.2 q = some e → e.data < s.1.nextData) : (w.put i s).Bounded where
  entry j q e he := by
    by_cases hj : j = i
    · subst hj
      rw [put_mems_self] at he
      exact hentry q e he
    · rw [put_mems_of_ne w s hj] at he
      exact lt_of_lt_of_le (hw.entry j q e he) hext.nextData
  region d hd := by
    change (s.1.datas d).data < s.1.host.next
    by_cases hold : d < w.kernel.nextData
    · rw [hext.data d hold]
      exact lt_of_lt_of_le (hw.region d hold) hext.hostNext
    · exact hext.region d (Nat.not_lt.1 hold) hd
  vdso := lt_of_lt_of_le hw.vdso hext.hostNext

theorem World.Bounded.put_entryStep {w : World ι} (hw : w.Bounded) (i : ι) {s : Kernel × Mem}
    (h : EntryStep w.kernel (w.mems i) s.1 s.2) : (w.put i s).Bounded := by
  refine hw.put i h.ext fun q e he => ?_
  rcases h.entry q e he with ⟨e', he', hkeep⟩ | ⟨-, hlt, -⟩
  · exact hkeep.1 ▸ lt_of_lt_of_le (hw.entry i q e' he') h.ext.nextData
  · exact hlt

theorem MapSource.extends_memory (k : Kernel) (src : MapSource) : k.Extends (src.memory k).2 := by
  cases src with
  | failed => exact .refl k
  | vdso => exact .refl k
  | fresh size prot bytes => exact .of_datas rfl (Nat.le_succ _) fun _ => rfl

theorem MapSource.memory_lt {k : Kernel} (hvdso : vdsoData < k.host.next) (src : MapSource) :
    ∀ r, (src.memory k).1 = some r → r < (src.memory k).2.host.next := by
  cases src with
  | failed => simp [memory]
  | vdso =>
    rintro r ⟨⟩
    exact hvdso
  | fresh size prot bytes =>
    rintro r ⟨⟩
    exact Nat.lt_succ_self _

theorem extends_setFile (s : Kernel × Mem) (page fd offset : Nat) : s.1.Extends (setFile s page fd offset).1 := by
  unfold setFile
  cases memPt s.2 page with
  | none => exact .refl _
  | some entry =>
    refine .of_datas rfl (le_refl _) fun d => ?_
    dsimp only
    by_cases hd : d = entry.data
    · rw [hd, Function.update_self]
    · rw [Function.update_of_ne hd]

theorem World.Bounded.copyOnWrite {w : World ι} (hw : w.Bounded) (env : HostEnv) (i j : ι) (start pages : Nat) :
    ((w.put i ((ptCopyOnWrite env w.kernel (w.mems i) (w.mems j) start pages).1,
        (ptCopyOnWrite env w.kernel (w.mems i) (w.mems j) start pages).2.1)).put j
      ((ptCopyOnWrite env w.kernel (w.mems i) (w.mems j) start pages).1,
        (ptCopyOnWrite env w.kernel (w.mems i) (w.mems j) start pages).2.2)).Bounded := by
  have hext := kernelOrder_extends.ptCopyOnWrite env w.kernel (w.mems i) (w.mems j) start pages
  have hshared : ∀ q e, (memPt (w.mems i) q).map ptCopyOnWrite.share = some e →
      e.data < (ptCopyOnWrite env w.kernel (w.mems i) (w.mems j) start pages).1.nextData := by
    intro q e he
    obtain ⟨e', he', rfl⟩ := Option.map_eq_some_iff.1 he
    exact lt_of_lt_of_le (hw.entry i q e' he') hext.nextData
  refine World.Bounded.put (hw.put i hext fun q e he => ?_) j (.refl _) fun q e he => ?_
  · rw [memPt_ptCopyOnWrite_src] at he
    split_ifs at he
    · exact hshared q e he
    · exact lt_of_lt_of_le (hw.entry i q e he) hext.nextData
  · rw [memPt_ptCopyOnWrite_dst] at he
    split_ifs at he
    · exact hshared q e he
    · exact lt_of_lt_of_le (hw.entry j q e he) hext.nextData

/-- **Every step keeps the names in order.** -/
theorem bounded_step (realPageSize : Nat) {w w' : World ι} (op : Op ι) (hw : w.Bounded)
    (h : w.step realPageSize op = some w') : w'.Bounded := by
  cases op with
  | map env i start pages memory offset flags =>
    cases h
    have hext := memory.extends_memory w.kernel
    have hmap := extends_ptMap env ((memory.memory w.kernel).2, w.mems i) start pages
      (memory.memory w.kernel).1 offset flags (memory.memory_lt hw.vdso)
    refine hw.put i (hext.trans hmap) fun q e he => ?_
    rcases entry_ptMap env _ start pages _ offset flags he with hold | ⟨hd, -, hlt, -⟩
    · exact lt_of_lt_of_le (hw.entry i q e hold) (hext.trans hmap).nextData
    · exact hd ▸ hlt
  | mapNothing env i start pages flags =>
    cases h
    exact hw.put_entryStep i (entryStep_ptMapNothing env (w.at i) start pages flags)
  | mapLazy ok i start pages flags =>
    cases h
    refine hw.put i (.refl _) fun q e he => hw.entry i q e ?_
    rwa [show memPt (ptMapLazy ok (w.mems i) start pages flags).2 q = memPt (w.mems i) q from by
      cases ok <;> rfl] at he
  | unmap env i start pages =>
    cases h
    exact hw.put_entryStep i (ptUnmap_inv env start pages (P := fun t => EntryStep w.kernel (w.mems i) t.1 t.2)
      (.refl _ _) (entryStep_ptUnmapAlways env (w.at i) start pages))
  | unmapAlways env i start pages =>
    cases h
    exact hw.put_entryStep i (entryStep_ptUnmapAlways env (w.at i) start pages)
  | setFlags env i start pages flags =>
    cases h
    exact hw.put_entryStep i (entryStep_ptSetFlags realPageSize env (w.at i) start pages flags)
  | copyOnWrite env i j start pages =>
    dsimp only [World.step] at h
    split_ifs at h
    cases h
    exact hw.copyOnWrite env i j start pages
  | fault fe i addr type =>
    obtain ⟨⟨ptr, s⟩, hptr, rfl⟩ := Option.map_eq_some_iff.1 h
    exact hw.put_entryStep i (entryStep_memPtr hptr)
  | findHole i size =>
    cases h
    refine hw.put i (.refl _) fun q e he => hw.entry i q e ?_
    rwa [memPt_ptFindHole] at he
  | setFile i page fd offset =>
    cases h
    have hext := extends_setFile (w.at i) page fd offset
    refine hw.put i hext fun q e he => ?_
    rw [setFile_mem] at he
    exact lt_of_lt_of_le (hw.entry i q e he) hext.nextData

end Ish
