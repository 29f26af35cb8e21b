import Ish.Kernel.UserCopy
import Ish.Memory.Equiv.Grant

/-!
# Copies from and to an address space are complete

`CopyComplete` says what a copy has to do: touch the buffer inside only, and return 0 only when every byte of
the range was translated, in the state of its round, and copied (`Traced`). It holds for ranges that end before
the last page of 64-bit addresses. `addr + count` and the end of the last page wrap around: a range that reaches
`2^64` is not copied at all, and the chunk in the last page, where it is mapped, is as long as the rest of the
page (`user_copy_complete_iff`).

What is read before that page is what the process sees in its memory (`user_read_seen`).
-/

namespace Ish

open Lib

/-! ### Translation does not depend on the bytes -/

/-- The same page table over the same objects; the host mappings may have other bytes. -/
structure SameTable (s t : Kernel × Mem) : Prop where
  mem : s.2 = t.2
  nextData : s.1.nextData = t.1.nextData

namespace SameTable

variable {s t : Kernel × Mem}

section

variable (h : SameTable s t)
include h

theorem unmapBody (page : Nat) : SameTable (ptUnmapAlways.body page s) (ptUnmapAlways.body page t) := by
  obtain ⟨k, m⟩ := s
  obtain ⟨k', m'⟩ := t
  obtain ⟨hmem, hnext⟩ := h
  obtain rfl : m = m' := hmem
  unfold ptUnmapAlways.body
  cases memPt m page with
  | none => exact ⟨rfl, hnext⟩
  | some e =>
    refine ⟨rfl, ?_⟩
    rw [dataRelease_nextData, dataRelease_nextData]
    split_ifs <;> exact hnext

theorem ptUnmapAlways (env : HostEnv) (start pages : Nat) :
    SameTable (Ish.ptUnmapAlways env s start pages) (Ish.ptUnmapAlways env t start pages) := by
  rw [ptUnmapAlways_eq, ptUnmapAlways_eq]
  have henter : SameTable (s.1, ptUnmapAlways.enter env s.2 start pages)
      (t.1, ptUnmapAlways.enter env t.2 start pages) := ⟨by rw [h.mem], h.nextData⟩
  have hloop := forRange_rel (n := loopCount start pages) (i := start) SameTable henter
    fun j s t hst => hst.unmapBody j
  exact ⟨congrArg memChanged hloop.mem, hloop.nextData⟩

theorem mapBody (env : HostEnv) (data : DataId) (start offset : Nat) (flags : Flags) (page : Nat) :
    SameTable (ptMap.body env data start offset flags page s) (ptMap.body env data start offset flags page t) := by
  cases hs : memPt s.2 page with
  | none =>
    rw [ptMap.body_eq_of_none _ _ _ _ _ hs, ptMap.body_eq_of_none _ _ _ _ _ (h.mem ▸ hs)]
    exact ⟨by rw [h.mem], h.nextData⟩
  | some e =>
    have hsome : (memPt s.2 page).isSome := by rw [hs]; rfl
    rw [ptMap.body_eq_of_isSome _ _ _ _ _ hsome, ptMap.body_eq_of_isSome _ _ _ _ _ (h.mem ▸ hsome)]
    have hunmap := h.ptUnmapAlways env page 1
    exact ⟨by rw [hunmap.mem], hunmap.nextData⟩

theorem ptMap (env : HostEnv) (start pages : Nat) (r r' : RegionId) (offset : Nat) (flags : Flags) :
    SameTable (Ish.ptMap env s start pages (some r) offset flags).2
      (Ish.ptMap env t start pages (some r') offset flags).2 := by
  unfold Ish.ptMap
  split_ifs
  · rw [h.nextData]
    have hnew : SameTable (ptMap.newData s.1 pages r offset, s.2) (ptMap.newData t.1 pages r' offset, t.2) :=
      ⟨h.mem, congrArg (· + 1) h.nextData⟩
    have hloop := forRange_rel (n := loopCount start pages) (i := start) SameTable hnew
      fun j s' t' hst => hst.mapBody env t.1.nextData start offset flags j
    exact ⟨congrArg memChanged hloop.mem, hloop.nextData⟩
  · exact h

theorem ptMapNothing (env : HostEnv) (start pages : Nat) (flags : Flags) :
    (Ish.ptMapNothing env s start pages flags).1 = (Ish.ptMapNothing env t start pages flags).1 ∧
      SameTable (Ish.ptMapNothing env s start pages flags).2 (Ish.ptMapNothing env t start pages flags).2 := by
  unfold Ish.ptMapNothing
  split_ifs
  · exact ⟨rfl, h⟩
  · have hmmap : SameTable (ptMapNothing.mmapped s.1 pages flags, s.2) (ptMapNothing.mmapped t.1 pages flags, t.2) :=
      ⟨h.mem, h.nextData⟩
    refine ⟨?_, hmmap.ptMap env start pages s.1.host.next t.1.host.next 0 (flags ||| pAnonymous)⟩
    unfold Ish.ptMap
    dsimp only [Host.mmap]
    split_ifs <;> rfl
  · exact ⟨rfl, h⟩

theorem materialise (env : HostEnv) (page : Nat) (flags : Flags) :
    SameTable (memPtr.materialise env s page flags) (memPtr.materialise env t page flags) := by
  obtain ⟨k, m⟩ := s
  obtain ⟨k', m'⟩ := t
  obtain rfl : m = m' := h.mem
  have hcount : SameTable (memPtr.counted (k, m)) (memPtr.counted (k', m)) := ⟨rfl, h.nextData⟩
  obtain ⟨hres, hmap⟩ := hcount.ptMapNothing env page 1 flags
  rcases memPtr.materialise_cases env (k, m) page flags with ⟨hsome, heq⟩ | ⟨hnone, hcases⟩
  · rw [heq]
    unfold memPtr.materialise
    rw [if_pos hsome]
    exact h
  · rcases memPtr.materialise_cases env (k', m) page flags with ⟨hsome, -⟩ | ⟨-, hcases'⟩
    · rw [show memPt (k', m).2 page = none from hnone] at hsome
      exact absurd hsome (by decide)
    · rcases hcases with ⟨err, herr, heq⟩ | ⟨hok, heq⟩
      · rcases hcases' with ⟨err', -, heq'⟩ | ⟨hok', -⟩
        · rw [heq, heq']
          exact hmap
        · cases herr.symm.trans (hres.trans hok')
      · rcases hcases' with ⟨err', herr', -⟩ | ⟨-, heq'⟩
        · cases hok.symm.trans (hres.trans herr')
        · rw [heq, heq']
          exact ⟨congrArg memChanged hmap.mem, hmap.nextData⟩

theorem fault (fe : FaultEnv) (page : Nat) :
    (memPtr.fault fe (fun _ s => s) s page).1 = (memPtr.fault fe (fun _ s => s) t page).1 ∧
      SameTable (memPtr.fault fe (fun _ s => s) s page).2 (memPtr.fault fe (fun _ s => s) t page).2 := by
  have hupgrade : ∀ flags : Mem → Flags,
      (memPtr.upgrade fe (fun _ s => s) s page flags).1 = (memPtr.upgrade fe (fun _ s => s) t page flags).1 ∧
        SameTable (memPtr.upgrade fe (fun _ s => s) s page flags).2
          (memPtr.upgrade fe (fun _ s => s) t page flags).2 := by
    intro flags
    unfold memPtr.upgrade
    dsimp only
    split_ifs
    · exact ⟨rfl, h⟩
    · rw [h.mem]
      exact ⟨rfl, h.materialise fe.host page _⟩
  unfold memPtr.fault
  rw [h.mem]
  cases memPtr.plan fe.stackLimit t.2 page with
  | present | refuse => exact ⟨rfl, h⟩
  | grow | reserve res => exact hupgrade _

end

/-- Two results of `mem_ptr`: both are pointers or `NULL`, with the same page table. -/
def Result (a b : Option HostPtr × Kernel × Mem) : Prop := a.1.isSome = b.1.isSome ∧ SameTable a.2 b.2

section

variable (h : SameTable s t)
include h

theorem resolveCow (env : HostEnv) (page : Nat) {copy copy' : Option RegionId} (hcopy : copy.isSome = copy'.isSome) :
    Option.Rel SameTable (memPtr.resolveCow env s page copy) (memPtr.resolveCow env t page copy') := by
  obtain ⟨k, m⟩ := s
  obtain ⟨k', m'⟩ := t
  obtain rfl : m = m' := h.mem
  unfold memPtr.resolveCow
  cases (memPt m page).filter fun entry => hasAny entry.flags pCow with
  | none =>
    cases copy <;> cases copy' <;> cases hcopy
    · exact .some h
    · exact .some ⟨rfl, h.nextData⟩
  | some entry =>
    cases copy <;> cases copy' <;> cases hcopy
    · exact .none
    · rename_i r r'
      have hcopied : SameTable (memPtr.copied k r entry, m) (memPtr.copied k' r' entry, m) :=
        ⟨rfl, by rw [copied_nextData, copied_nextData]; exact h.nextData⟩
      have hmap := hcopied.ptMap env page 1 r r' 0 (entry.flags &&& ~~~pCow)
      exact .some ⟨congrArg memChanged hmap.mem, hmap.nextData⟩

theorem cow (fe : FaultEnv) (page : Nat) :
    Option.Rel SameTable (memPtr.cow fe (fun _ s => s) s page) (memPtr.cow fe (fun _ s => s) t page) := by
  unfold memPtr.cow
  simp only [Option.map_id']
  split_ifs
  · have hcopy : SameTable (memPtr.withCopy s.1, s.2) (memPtr.withCopy t.1, t.2) := ⟨h.mem, h.nextData⟩
    exact hcopy.resolveCow fe.cow page rfl
  · exact h.resolveCow fe.cow page rfl

theorem touch (page : Nat) (type : AccessType) (e : PtEntry) :
    SameTable (memPtr.touch s page type e) (memPtr.touch t page type e) := by
  unfold memPtr.touch
  exact ⟨by rw [h.mem], h.nextData⟩

theorem memPtrNofault (addr : Nat) (type : AccessType) :
    (Ish.memPtrNofault s addr type).isSome = (Ish.memPtrNofault t addr type).isSome := by
  unfold Ish.memPtrNofault
  rw [h.mem]
  cases memPt t.2 (pageOf addr) with
  | none => rfl
  | some e =>
    dsimp only
    split_ifs <;> rfl

theorem result (addr : Nat) (type : AccessType) :
    Option.Rel Result (some (Ish.memPtrNofault s addr type, s)) (some (Ish.memPtrNofault t addr type, t)) :=
  .some ⟨h.memPtrNofault addr type, h⟩

theorem prepareWrite (fe : FaultEnv) (page : Nat) (type : AccessType) (e : PtEntry) :
    Option.Rel (fun a b => a.1 = b.1 ∧ SameTable a.2 b.2) (memPtr.prepareWrite fe (fun _ s => s) s page type e)
      (memPtr.prepareWrite fe (fun _ s => s) t page type e) := by
  unfold memPtr.prepareWrite
  split_ifs
  · exact .some ⟨rfl, h⟩
  · have hcow := (h.touch page type e).cow fe page
    dsimp only
    revert hcow
    generalize memPtr.cow fe (fun _ s => s) (memPtr.touch s page type e) page = a
    generalize memPtr.cow fe (fun _ s => s) (memPtr.touch t page type e) page = b
    rintro (hst | _)
    · exact .some ⟨rfl, hst⟩
    · exact .none
  · exact .some ⟨rfl, h.touch page type e⟩

/-- **`mem_ptr` does not depend on the bytes.** -/
theorem memPtr (fe : FaultEnv) (addr : Nat) (type : AccessType) :
    Option.Rel Result (Ish.memPtr fe s addr type) (Ish.memPtr fe t addr type) := by
  obtain ⟨hok, hst⟩ := h.fault fe (pageOf addr)
  unfold Ish.memPtr memPtrWith
  revert hok hst
  generalize memPtr.fault fe (fun _ s => s) s (pageOf addr) = r
  generalize memPtr.fault fe (fun _ s => s) t (pageOf addr) = r'
  obtain ⟨_ | _, s'⟩ := r <;> obtain ⟨_ | _, t'⟩ := r' <;> intro hok hst <;> cases hok
  · exact .some ⟨rfl, hst⟩
  · dsimp only at hst ⊢
    rw [hst.mem]
    cases hentry : memPt t'.2 (pageOf addr) with
    | none => cases type <;> exact hst.result addr _
    | some e =>
      have hprep := hst.prepareWrite fe (pageOf addr) type e
      cases type with
      | read => exact hst.result addr _
      | write | writePtrace =>
        dsimp only
        revert hprep
        generalize memPtr.prepareWrite fe (fun _ s => s) s' (pageOf addr) _ e = a
        generalize memPtr.prepareWrite fe (fun _ s => s) t' (pageOf addr) _ e = b
        rintro (@⟨⟨_ | _, s''⟩, ⟨_ | _, t''⟩, hb, hst'⟩ | _)
        · exact .some ⟨rfl, hst'⟩
        · cases hb
        · cases hb
        · exact hst'.result addr _
        · exact .none

end

end SameTable

/-! ### Chunks -/

/-- The first address of the last page of 64-bit addresses. -/
def lastPage : Nat := wordMod - pageSize

theorem subWord_of_le {a b : Nat} (hle : b ≤ a) (ha : a < wordMod) : subWord a b = a - b := by
  unfold subWord
  rw [show a + (wordMod - b) = a - b + wordMod by omega, Nat.add_mod_right, Nat.mod_eq_of_lt (by omega)]

theorem chunkEnd_of_lt_lastPage (stop : Nat) {p : Nat} (hp : p < lastPage) :
    chunkEnd stop p = min ((pageOf p + 1) * pageSize) stop ∧ p < (pageOf p + 1) * pageSize ∧
      (pageOf p + 1) * pageSize ≤ lastPage := by
  have hend : p < (pageOf p + 1) * pageSize ∧ (pageOf p + 1) * pageSize ≤ lastPage := by
    unfold lastPage wordMod pageSize at hp
    unfold pageOf lastPage wordMod pageSize
    omega
  refine ⟨?_, hend⟩
  unfold chunkEnd
  rw [Nat.mod_eq_of_lt (lt_of_le_of_lt hend.2 (by decide))]
  dsimp only
  split_ifs <;> omega

theorem chunkEnd_lastPage {stop p : Nat} (hp : lastPage ≤ p) (hlt : p < wordMod) : chunkEnd stop p = 0 := by
  have hpage : (pageOf p + 1) * pageSize = wordMod := by
    unfold lastPage wordMod pageSize at hp
    unfold wordMod at hlt
    unfold pageOf wordMod pageSize
    omega
  unfold chunkEnd
  rw [hpage, Nat.mod_self]
  exact if_neg (Nat.not_lt_zero stop)

/-! ### The statement -/

/-- Byte `i` of the range was moved by the chunk `d`. -/
structure Chunk.Moves (d : Chunk) (addr : Nat) (buf : Buffer) (i : Nat) : Prop where
  low : d.p ≤ addr + i
  high : addr + i < d.p + d.len
  page : pageOf (addr + i) = pageOf d.p
  index : d.index + (addr + i - d.p) = i
  data : d.data (addr + i - d.p) = buf i

/-- What the `memcpy` of a chunk does, byte by byte, to the memory of the host and the buffer: a read puts the bytes at
`ptr` into the buffer from `index` on, and a write puts those of the buffer at `ptr`; nothing else changes. -/
def Transfer.Copies (t : Transfer) (d : Chunk) (s₁ : Kernel × Mem) (buf₁ : Buffer) (s₂ : Kernel × Mem)
    (buf₂ : Buffer) : Prop :=
  match t with
  | read => s₂ = s₁ ∧
      (∀ j < d.len, ∀ b, s₁.1.host.byteAt ⟨d.ptr.region, d.ptr.offset + j⟩ = some b →
        d.data j = b ∧ buf₂ (d.index + j) = b) ∧
      ∀ j, ¬(d.index ≤ j ∧ j < d.index + d.len) → buf₂ j = buf₁ j
  | write _ => buf₂ = buf₁ ∧ s₂.2 = s₁.2 ∧ (∀ j < d.len, d.data j = buf₁ (d.index + j)) ∧
      ∀ r o, s₂.1.host.byteAt ⟨r, o⟩ = (s₁.1.host.byteAt ⟨r, o⟩).map fun b =>
        if r = d.ptr.region ∧ d.ptr.offset ≤ o ∧ o < d.ptr.offset + d.len then d.data (o - d.ptr.offset) else b

/-- The rounds of a copy that began in `s₀` with the buffer `buf₀` and has come to `s` and `buf`: each chunk was
translated with the access that the copy needs, in the state that the chunks before it had left, and then moved. -/
def Traced (t : Transfer) (fe : Nat → FaultEnv) (s₀ : Kernel × Mem) (buf₀ : Buffer) :
    List Chunk → Kernel × Mem → Buffer → Prop
  | [], s, buf => s = s₀ ∧ buf = buf₀
  | d :: ds, s, buf => ∃ s₁ buf₁ s₂, Traced t fe s₀ buf₀ ds s₁ buf₁ ∧
      memPtr (fe ds.length) s₁ d.p t.type = some (some d.ptr, s₂) ∧ t.Copies d s₂ buf₁ s buf

/-- The buffer is touched inside only, every chunk was translated and moved in its round, and the copy returns 0 only
when every byte was moved. -/
structure CopyComplete (t : Transfer) (fe : Nat → FaultEnv) (s : Kernel × Mem) (addr count : Nat) (buf : Buffer)
    (r : CopyResult × Copying) : Prop where
  inside : ∀ d ∈ r.2.done, d.index + d.len ≤ count
  outside : ∀ j, count ≤ j → r.2.buf j = buf j
  traced : ∃ s', Traced t fe s buf r.2.done s' r.2.buf ∧ (r.1 ≠ .failed → r.2.s = s')
  complete : r.1 = .done → ∀ i < count, ∃ d ∈ r.2.done, d.Moves addr r.2.buf i

/-! ### The loop before the last page -/

/-- The bytes before `p` are copied. -/
structure CopiedTo (t : Transfer) (fe : Nat → FaultEnv) (s : Kernel × Mem) (addr : Nat) (buf : Buffer) (p : Nat)
    (c : Copying) : Prop where
  low : addr ≤ p
  inside : ∀ d ∈ c.done, d.index + d.len ≤ p - addr
  outside : ∀ j, p - addr ≤ j → c.buf j = buf j
  traced : Traced t fe s buf c.done c.s c.buf
  moved : ∀ i, addr + i < p → ∃ d ∈ c.done, d.Moves addr c.buf i

section

variable {t : Transfer} {fe : Nat → FaultEnv} {addr stop p : Nat} {s₀ : Kernel × Mem} {buf : Buffer} {c : Copying}

theorem CopiedTo.complete_of_le {count : Nat} (h : CopiedTo t fe s₀ addr buf p c) (hp : p ≤ addr + count)
    (r : CopyResult) (hr : r = .done → p = addr + count) {s : Kernel × Mem} (hs : r ≠ .failed → s = c.s) :
    CopyComplete t fe s₀ addr count buf (r, { c with s := s }) where
  inside d hd := by
    have hin := h.inside d hd
    have hlow := h.low
    omega
  outside j hj := h.outside j (by omega)
  traced := ⟨c.s, h.traced, hs⟩
  complete hdone i hi := h.moved i (by rw [hr hdone]; omega)

/-- The bytes of the buffer after a chunk. -/
theorem memcpy_buf (t : Transfer) (d : Chunk) (k : Kernel) (buf : Buffer) {j : Nat}
    (hj : ¬(d.index ≤ j ∧ j < d.index + d.len)) :
    (t.memcpy d k buf).2 j = buf j := by
  cases t with
  | read => exact if_neg hj
  | write ptrace => rfl

theorem memcpy_chunk (t : Transfer) (addr stop p : Nat) (k : Kernel) (buf : Buffer) (ptr : HostPtr) {j : Nat}
    (hj : j < (t.chunk addr stop p k buf ptr).len) :
    (t.memcpy (t.chunk addr stop p k buf ptr) k buf).2 ((t.chunk addr stop p k buf ptr).index + j) =
      (t.chunk addr stop p k buf ptr).data j := by
  cases t with
  | read =>
    refine (if_pos ⟨Nat.le_add_right _ j, Nat.add_lt_add_left hj _⟩).trans ?_
    rw [Nat.add_sub_cancel_left]
  | write ptrace => rfl

/-- The `memcpy` of the chunk at `p` moves its bytes. -/
theorem copies_chunk (t : Transfer) (addr stop p : Nat) (s : Kernel × Mem) (buf : Buffer) (ptr : HostPtr) :
    t.Copies (t.chunk addr stop p s.1 buf ptr) s buf
      ((t.memcpy (t.chunk addr stop p s.1 buf ptr) s.1 buf).1, s.2)
      (t.memcpy (t.chunk addr stop p s.1 buf ptr) s.1 buf).2 := by
  cases t with
  | read =>
    refine ⟨rfl, fun j hj b hb => ?_, fun j hj => if_neg hj⟩
    have hdata : (Transfer.read.chunk addr stop p s.1 buf ptr).data j = b := congrArg (Option.getD · 0) hb
    exact ⟨hdata, (memcpy_chunk .read addr stop p s.1 buf ptr hj).trans hdata⟩
  | write ptrace =>
    refine ⟨rfl, rfl, fun j _ => rfl, fun r o => ?_⟩
    show (((Transfer.write ptrace).chunk addr stop p s.1 buf ptr).toPage s.1).host.byteAt ⟨r, o⟩ = _
    generalize (Transfer.write ptrace).chunk addr stop p s.1 buf ptr = d
    unfold Chunk.toPage Host.byteAt
    dsimp only
    by_cases hr : r = d.ptr.region
    · subst hr
      rw [Function.update_self, Option.map_map, Option.map_map]
      simp [Function.comp_def]
    · rw [Function.update_of_ne hr, Option.map_map]
      simp [Function.comp_def, hr]

/-- The state of the copy after the chunk at `p`, for which `mem_ptr` gave `ptr` and left `s`. -/
def Copying.after (c : Copying) (t : Transfer) (addr stop p : Nat) (ptr : HostPtr) (s : Kernel × Mem) : Copying :=
  ⟨((t.memcpy (t.chunk addr stop p s.1 c.buf ptr) s.1 c.buf).1, s.2),
    (t.memcpy (t.chunk addr stop p s.1 c.buf ptr) s.1 c.buf).2, t.chunk addr stop p s.1 c.buf ptr :: c.done⟩

/-- One round of the loop. -/
theorem userTask.go_succ (fuel : Nat) (hlt : p < stop) : userTask.go t fe addr stop (fuel + 1) p c =
      match memPtr (fe c.done.length) c.s p t.type with
      | none => (.killed, c)
      | some (none, s) => (.failed, { c with s := s })
      | some (some ptr, s) => userTask.go t fe addr stop fuel (chunkEnd stop p) (c.after t addr stop p ptr s) := by
  rw [userTask.go, if_pos hlt]
  rfl

theorem CopiedTo.chunk (h : CopiedTo t fe s₀ addr buf p c) (hp : p < lastPage) (hstop : p < stop)
    {ptr : HostPtr} {s : Kernel × Mem} (hptr : memPtr (fe c.done.length) c.s p t.type = some (some ptr, s)) :
    CopiedTo t fe s₀ addr buf (chunkEnd stop p) (c.after t addr stop p ptr s) := by
  obtain ⟨hend, hlt, hle⟩ := chunkEnd_of_lt_lastPage stop hp
  have hlow := h.low
  have hword : p < chunkEnd stop p ∧ chunkEnd stop p < wordMod := by
    have hlast : lastPage < wordMod := by decide
    omega
  have hindex : (t.chunk addr stop p s.1 c.buf ptr).index = p - addr := subWord_of_le hlow (by omega)
  have hlen : (t.chunk addr stop p s.1 c.buf ptr).len = chunkEnd stop p - p := subWord_of_le (by omega) hword.2
  have hat : (t.chunk addr stop p s.1 c.buf ptr).p = p := rfl
  have htrace : Traced t fe s₀ buf (c.after t addr stop p ptr s).done (c.after t addr stop p ptr s).s
      (c.after t addr stop p ptr s).buf :=
    ⟨c.s, c.buf, s, h.traced, hptr, copies_chunk t addr stop p s c.buf ptr⟩
  have hmoves := fun j => memcpy_chunk t addr stop p s.1 c.buf ptr (j := j)
  have hframe := fun j => memcpy_buf t (t.chunk addr stop p s.1 c.buf ptr) s.1 c.buf (j := j)
  unfold Copying.after at htrace ⊢
  generalize t.chunk addr stop p s.1 c.buf ptr = d at hmoves hframe hindex hlen hat htrace ⊢
  refine ⟨by omega, ?_, fun j hj => ?_, htrace, fun j hj => ?_⟩
  · refine List.forall_mem_cons.mpr ⟨by omega, fun d' hd' => ?_⟩
    have hin := h.inside d' hd'
    omega
  · exact (hframe j (by omega)).trans (h.outside j (by omega))
  · rcases Nat.lt_or_ge (addr + j) p with hold | hnew
    · obtain ⟨d', hd', hm⟩ := h.moved j hold
      refine ⟨d', List.mem_cons_of_mem _ hd', hm.low, hm.high, hm.page, hm.index, ?_⟩
      exact hm.data.trans (hframe j (by omega)).symm
    · have hdata := hmoves (addr + j - p) (by omega)
      rw [hindex, show p - addr + (addr + j - p) = j by omega] at hdata
      refine ⟨d, List.mem_cons_self, by omega, by omega, ?_, by omega, ?_⟩
      · rw [hat]
        unfold pageOf pageSize at hend ⊢
        omega
      · rw [hat]
        exact hdata.symm

/-- **A range that ends before the last page.** -/
theorem copyComplete_go {count : Nat} (hstop : addr + count ≤ lastPage) (fuel : Nat)
    (h : CopiedTo t fe s₀ addr buf p c) (hp : p ≤ addr + count) :
    CopyComplete t fe s₀ addr count buf (userTask.go t fe addr (addr + count) fuel p c) := by
  induction fuel generalizing p c with
  | zero => exact h.complete_of_le hp .running nofun fun _ => rfl
  | succ fuel ih =>
    by_cases hlt : p < addr + count
    · rw [userTask.go_succ fuel hlt]
      rcases hptr : memPtr (fe c.done.length) c.s p t.type with _ | ⟨_ | ptr, s⟩
      · exact h.complete_of_le hp .killed nofun fun _ => rfl
      · exact h.complete_of_le hp .failed nofun fun h => absurd rfl h
      · obtain ⟨hend, -, -⟩ := chunkEnd_of_lt_lastPage (addr + count) (lt_of_lt_of_le hlt hstop)
        exact ih (h.chunk (by omega) hlt hptr) (by omega)
    · rw [userTask.go, if_neg hlt]
      exact h.complete_of_le hp .done (fun _ => by omega) fun _ => rfl

/-! ### Up to the last page -/

/-- `mem_ptr` gives a pointer for `p` and for the first address of each of the `n` pages after its page, each in the
state that the calls before have left. -/
def Transfer.translates (t : Transfer) (fe : Nat → FaultEnv) : Nat → Nat → Nat → Kernel × Mem → Bool
  | 0, i, p, s =>
    match memPtr (fe i) s p t.type with
    | some (some _, _) => true
    | _ => false
  | n + 1, i, p, s =>
    match memPtr (fe i) s p t.type with
    | some (some _, s') => t.translates fe n (i + 1) ((pageOf p + 1) * pageSize) s'
    | _ => false

theorem translates_congr {s s' : Kernel × Mem} (h : SameTable s s') (n i p : Nat) :
    t.translates fe n i p s = t.translates fe n i p s' := by
  induction n generalizing i p s s' with
  | zero | succ n ih =>
    have hptr := h.memPtr (fe i) p t.type
    unfold Transfer.translates
    revert hptr
    generalize memPtr (fe i) s p t.type = a
    generalize memPtr (fe i) s' p t.type = b
    rintro (@⟨⟨_ | _, u⟩, ⟨_ | _, u'⟩, hb, hu⟩ | _)
    · rfl
    · cases hb
    · cases hb
    · first | rfl | exact ih hu (i + 1) _
    · rfl

/-- The bytes that a chunk moves leave the page table. -/
theorem sameTable_after (c : Copying) (t : Transfer) (addr stop p : Nat) (ptr : HostPtr) (s : Kernel × Mem) :
    SameTable (c.after t addr stop p ptr s).s s := by
  refine ⟨rfl, ?_⟩
  unfold Copying.after Transfer.memcpy
  cases t <;> rfl

/-- The pages from `p` to the last one. -/
def pagesLeft (p : Nat) : Nat := wordMod / pageSize - 1 - pageOf p

theorem pagesLeft_succ (hp : p < lastPage) : pagesLeft p = pagesLeft ((pageOf p + 1) * pageSize) + 1 := by
  unfold lastPage wordMod pageSize at hp
  unfold pagesLeft pageOf wordMod pageSize
  omega

theorem pagesLeft_lastPage (hp : lastPage ≤ p) (hlt : p < wordMod) : pagesLeft p = 0 := by
  unfold lastPage wordMod pageSize at hp
  unfold wordMod at hlt
  unfold pagesLeft pageOf wordMod pageSize
  omega

theorem translates_next (addr : Nat) (hp : p < lastPage) (hstop : lastPage < stop) {ptr : HostPtr} {s : Kernel × Mem}
    (hptr : memPtr (fe c.done.length) c.s p t.type = some (some ptr, s)) :
    t.translates fe (pagesLeft p) c.done.length p c.s =
        t.translates fe (pagesLeft (chunkEnd stop p)) (c.after t addr stop p ptr s).done.length (chunkEnd stop p)
          (c.after t addr stop p ptr s).s ∧ p < chunkEnd stop p ∧ chunkEnd stop p ≤ lastPage := by
  obtain ⟨hend, hlt, hle⟩ := chunkEnd_of_lt_lastPage stop hp
  have hnext : chunkEnd stop p = (pageOf p + 1) * pageSize := by omega
  refine ⟨?_, by omega, by omega⟩
  rw [hnext, pagesLeft_succ hp, translates_congr (sameTable_after c t addr stop p ptr s), Transfer.translates, hptr]
  rfl

/-- **A range that ends in the last page**, when a page up to there is not translated: the copy fails in time. -/
theorem copyComplete_of_not_translates {count : Nat} (hlow : lastPage < addr + count) (hhigh : addr + count < wordMod)
    (fuel : Nat) (h : CopiedTo t fe s₀ addr buf p c) (hp : p < addr + count)
    (hno : t.translates fe (pagesLeft p) c.done.length p c.s = false) :
    CopyComplete t fe s₀ addr count buf (userTask.go t fe addr (addr + count) fuel p c) := by
  induction fuel generalizing p c with
  | zero => exact h.complete_of_le hp.le .running nofun fun _ => rfl
  | succ fuel ih =>
    rw [userTask.go_succ fuel hp]
    rcases hptr : memPtr (fe c.done.length) c.s p t.type with _ | ⟨_ | ptr, s⟩
    · exact h.complete_of_le hp.le .killed nofun fun _ => rfl
    · exact h.complete_of_le hp.le .failed nofun fun h => absurd rfl h
    · by_cases hlast : p < lastPage
      · obtain ⟨hnext, -, hle⟩ := translates_next addr hlast hlow hptr
        exact ih (h.chunk hlast hp hptr) (by omega) (hnext.symm.trans hno)
      · rw [pagesLeft_lastPage (by omega) (by omega), Transfer.translates, hptr] at hno
        cases hno

/-- **A range that ends in the last page**, when all pages up to there are translated: the last chunk goes on to the end
of the page, in the buffer too. -/
theorem overrun_of_translates (hlow : lastPage < stop) (hhigh : stop < wordMod) (n : Nat) (hn : pagesLeft p = n)
    (haddr : addr ≤ p) (hp : p < stop) (hall : t.translates fe n c.done.length p c.s) :
    ∃ d ∈ (userTask.go t fe addr stop (n + 1) p c).2.done, d.index + d.len = wordMod - addr := by
  induction n generalizing p c with
  | zero =>
    have hlast : lastPage ≤ p := by
      by_contra hlast
      rw [pagesLeft_succ (by omega)] at hn
      cases hn
    rw [userTask.go_succ 0 hp]
    rw [Transfer.translates] at hall
    rcases hptr : memPtr (fe c.done.length) c.s p t.type with _ | ⟨_ | ptr, s⟩
    · rw [hptr] at hall
      cases hall
    · rw [hptr] at hall
      cases hall
    · refine ⟨t.chunk addr stop p s.1 c.buf ptr, List.mem_cons_self, ?_⟩
      show subWord p addr + subWord (chunkEnd stop p) p = wordMod - addr
      have hlen : subWord 0 p = wordMod - p := by
        have hpos : 0 < lastPage := by decide
        unfold subWord
        rw [Nat.zero_add, Nat.mod_eq_of_lt (by omega)]
      rw [chunkEnd_lastPage hlast (by omega), subWord_of_le haddr (by omega), hlen]
      omega
  | succ n ih =>
    have hlast : p < lastPage := by
      by_contra hlast
      rw [pagesLeft_lastPage (by omega) (by omega)] at hn
      cases hn
    rw [userTask.go_succ (n + 1) hp]
    rcases hptr : memPtr (fe c.done.length) c.s p t.type with _ | ⟨_ | ptr, s⟩
    · rw [Transfer.translates, hptr] at hall
      cases hall
    · rw [Transfer.translates, hptr] at hall
      cases hall
    · obtain ⟨hnext, hgt, hle⟩ := translates_next addr hlast hlow hptr
      have hleft : pagesLeft (chunkEnd stop p) = n := by
        obtain ⟨hend, -, -⟩ := chunkEnd_of_lt_lastPage stop hlast
        have hpage : chunkEnd stop p = (pageOf p + 1) * pageSize := by omega
        have hsucc := pagesLeft_succ hlast
        rw [hpage]
        omega
      rw [← hn, hnext, hleft] at hall
      exact ih hleft (by omega) (by omega) hall

end

/-! ### The copies -/

/-- The bytes that a copy may be asked for: none; a range that ends before the last page; or one that ends in it,
before `2^64`, when `mem_ptr` refuses a page up to there. -/
def CopyFits (t : Transfer) (fe : Nat → FaultEnv) (s : Kernel × Mem) (addr count : BitVec 64) : Prop :=
  count = 0#64 ∨ addr.toNat + count.toNat ≤ lastPage ∨
    addr.toNat + count.toNat < wordMod ∧ t.translates fe (pagesLeft addr.toNat) 0 addr.toNat s = false

/-- **Copies from and to an address space** touch the buffer inside only, translate and move each chunk in its round, and
are complete when they return 0, exactly on the condition. -/
theorem user_copy_complete_iff (t : Transfer) (fe : Nat → FaultEnv) (s : Kernel × Mem) (addr count : BitVec 64)
    (buf : Buffer) : (∀ fuel, CopyComplete t fe s addr.toNat count.toNat buf (userTask t fe s addr count buf fuel)) ↔
      CopyFits t fe s addr count := by
  have hword : wordMod = 2 ^ 64 := rfl
  have haddr := addr.isLt
  have hcount := count.isLt
  have hstart : CopiedTo t fe s addr.toNat buf addr.toNat ⟨s, buf, []⟩ :=
    ⟨le_refl _, nofun, fun _ _ => rfl, ⟨rfl, rfl⟩, fun i hi => absurd hi (by omega)⟩
  unfold userTask
  by_cases hzero : count = 0#64
  · subst hzero
    refine iff_of_true (fun fuel => ?_) (.inl rfl)
    rw [BitVec.add_zero]
    cases fuel with
    | zero => exact hstart.complete_of_le (Nat.le_add_right ..) .running nofun fun _ => rfl
    | succ fuel =>
      rw [userTask.go, if_neg (Nat.lt_irrefl _)]
      exact hstart.complete_of_le (Nat.le_add_right ..) .done (fun _ => rfl) fun _ => rfl
  have hpos : 0 < count.toNat := Nat.pos_of_ne_zero fun h => hzero (BitVec.eq_of_toNat_eq h)
  by_cases hend : addr.toNat + count.toNat < wordMod
  · have hstop : (addr + count).toNat = addr.toNat + count.toNat := by
      rw [BitVec.toNat_add]
      exact Nat.mod_eq_of_lt hend
    rw [hstop]
    by_cases hlast : addr.toNat + count.toNat ≤ lastPage
    · exact iff_of_true (fun fuel => copyComplete_go hlast fuel hstart (by omega)) (.inr (.inl hlast))
    cases hall : t.translates fe (pagesLeft addr.toNat) 0 addr.toNat s with
    | false =>
      refine iff_of_true (fun fuel => ?_) (.inr (.inr ⟨hend, hall⟩))
      exact copyComplete_of_not_translates (by omega) hend fuel hstart (by omega) hall
    | true =>
      refine iff_of_false (fun h => ?_) ?_
      · obtain ⟨d, hd, hover⟩ := overrun_of_translates (c := ⟨s, buf, []⟩) (by omega) hend _ rfl
          (le_refl _) (by omega) hall
        have hin := (h _).inside d hd
        omega
      · rintro (hzero' | hlast' | ⟨-, hno⟩)
        · exact hzero hzero'
        · exact hlast hlast'
        · exact absurd (hno.symm.trans hall) nofun
  · -- the end wraps around, so the loop is not entered
    have hlast : lastPage < wordMod := by decide
    have hskip : ¬ addr.toNat < (addr + count).toNat := by
      rw [BitVec.toNat_add]
      omega
    refine iff_of_false (fun h => ?_) ?_
    · have hone := (h 1).complete
      rw [userTask.go, if_neg hskip] at hone
      obtain ⟨d, hd, -⟩ := hone rfl 0 hpos
      cases hd
    · rintro (hzero' | hlast' | ⟨hend', -⟩)
      · exact hzero hzero'
      · omega
      · exact hend hend'

/-- An address space with the last page of the table. -/
def lastPageMapped : Kernel × Mem := (kernelInit, memPtNew memInit 0xfffffffff ⟨0, 0, pRead⟩)

/-- **Ranges at the end of the addresses**: 16 bytes from `2^64 - 8` on are read from an empty address space with the
result 0, and a read of 8 bytes at `2^64 - 16` writes 16 bytes into the buffer. -/
theorem user_copy_wraps :
    (userRead (fun _ => FaultEnv.good) (kernelInit, memInit) 0xfffffffffffffff8#64 16#64 (fun _ => 0) 1).1 = .done ∧
    (userRead (fun _ => FaultEnv.good) (kernelInit, memInit) 0xfffffffffffffff8#64 16#64 (fun _ => 0) 1).2.done = [] ∧
    ∃ d ∈ (userRead (fun _ => FaultEnv.good) lastPageMapped 0xfffffffffffffff0#64 8#64 (fun _ => 0) 1).2.done,
      d.index + d.len = 16 := by
  refine ⟨rfl, rfl, ?_⟩
  have hover : ∃ d ∈ (userTask.go .read (fun _ => FaultEnv.good) 0xfffffffffffffff0 0xfffffffffffffff8 (0 + 1)
      0xfffffffffffffff0 ⟨lastPageMapped, fun _ => 0, []⟩).2.done, d.index + d.len = wordMod - 0xfffffffffffffff0 :=
    overrun_of_translates (by decide) (by decide) 0 (by decide) (le_refl _) (by decide) (by decide)
  exact hover

/-! ### What a read gives -/

/-- The bytes of the chunk are those that a process sees in `s`. -/
def Chunk.Sees (s : Kernel × Mem) (d : Chunk) : Prop :=
  ∀ n b, d.p ≤ n → pageOf n = pageOf d.p → seen s.1 s.2 (pageOf n) (pgOffset n) = some b → d.data (n - d.p) = b

/-- What a read of the bytes from `p` to `stop` does for the process `i` that sees `s`. -/
structure ReadsSeen {ι : Type} [DecidableEq ι] (ms : ι → Mem) (i : ι) (s : Kernel × Mem) (p stop : Nat)
    (r : CopyResult × Copying) : Prop where
  returns : r.1 ≠ .running
  succeeds : (∀ n, p ≤ n → n < stop → seen s.1 s.2 (pageOf n) (pgOffset n) ≠ none) → r.1 = .done
  sees : ∀ d ∈ r.2.done, d.Sees s
  shows : Shows ms i s r.2.s

section

variable {ι : Type} [DecidableEq ι] {ms : ι → Mem} {i : ι} {s s' s₀ : Kernel × Mem} {fe : Nat → FaultEnv}
  {addr stop p : Nat} {buf : Buffer} {c : Copying} {ptr : HostPtr}

theorem Shows.entry (h : Shows ms i s s') {n : Nat} {b : UInt8} (hb : seen s.1 s.2 (pageOf n) (pgOffset n) = some b) :
    ∃ e, memPt s'.2 (pageOf n) = some e ∧ s'.1.host.byteAt ⟨regionOf s'.1 e, e.offset + pgOffset n⟩ = some b := by
  have hsame := h i (pageOf n) (pgOffset n) b (Nat.mod_lt n (by decide)) (by rwa [Function.update_self])
  rw [Function.update_self] at hsame
  exact Option.bind_eq_some_iff.1 hsame

theorem memPtrNofault_read {e : PtEntry} (he : memPt s.2 (pageOf p) = some e) :
    memPtrNofault s p .read = some ⟨regionOf s.1 e, e.offset + pgOffset p⟩ := by
  simp [memPtrNofault, he, regionOf]

theorem sees_chunk {e : FaultEnv} (hptr : memPtr e s p .read = some (some ptr, s')) (hshows : Shows ms i s₀ s')
    (addr stop : Nat) : (Transfer.read.chunk addr stop p s'.1 buf ptr).Sees s₀ := by
  intro n b hp hpage hb
  change p ≤ n at hp
  change pageOf n = pageOf p at hpage
  obtain ⟨entry, hentry, hbyte⟩ := hshows.entry hb
  -- the pointer is the one that the entry gives after the fault
  obtain rfl : _ = ptr := Option.some.inj ((memPtrNofault_read (hpage ▸ hentry)).symm.trans
    (memPtrNofault_of_memPtrWith hptr))
  have hoffset : pgOffset p + (n - p) = pgOffset n := by
    unfold pgOffset pageSize
    unfold pageOf pageSize at hpage
    omega
  show (s'.1.host.byteAt ⟨_, entry.offset + pgOffset p + (n - p)⟩).getD 0 = b
  rw [Nat.add_assoc, hoffset]
  exact congrArg (Option.getD · 0) hbyte

variable [Finite ι]

theorem readsSeen_go {fuel : Nat} (hstop : stop ≤ lastPage) (hfuel : stop - p < fuel) (hc : CountedAt ms i c.s)
    (hshows : Shows ms i s₀ c.s) (hsees : ∀ d ∈ c.done, d.Sees s₀) :
    ReadsSeen ms i s₀ p stop (userTask.go .read fe addr stop fuel p c) := by
  induction fuel generalizing p c with
  | zero => exact absurd hfuel (Nat.not_lt_zero _)
  | succ fuel ih =>
    by_cases hlt : p < stop
    · have hword : lastPage < wordMod := by decide
      -- a byte that the process sees is read without a fault
      have hgives (hall : ∀ n, p ≤ n → n < stop → seen s₀.1 s₀.2 (pageOf n) (pgOffset n) ≠ none) :
          ∃ ptr s, memPtr (fe c.done.length) c.s p .read = some (some ptr, s) := by
        obtain ⟨b, hb⟩ := Option.ne_none_iff_exists'.1 (hall p (le_refl p) hlt)
        obtain ⟨e, he, -⟩ := hshows.entry hb
        obtain ⟨s, hs, -⟩ := memPtr_of_nofault (fe c.done.length) (by decide) (memPtrNofault_read he)
        exact ⟨_, s, hs⟩
      rw [userTask.go_succ fuel hlt]
      rcases hptr : memPtr (fe c.done.length) c.s p Transfer.read.type with _ | ⟨ptr, s⟩
      · refine ⟨nofun, fun hall => ?_, hsees, hshows⟩
        obtain ⟨_, _, hsome⟩ := hgives hall
        cases hptr.symm.trans hsome
      obtain ⟨hc', hstep⟩ := shows_memPtr hc (by omega) hptr
      have hshows' : Shows ms i s₀ s := fun j q off b hoff hb => hstep j q off b hoff (hshows j q off b hoff hb)
      cases ptr with
      | none =>
        refine ⟨nofun, fun hall => ?_, hsees, hshows'⟩
        obtain ⟨_, _, hsome⟩ := hgives hall
        cases hptr.symm.trans hsome
      | some ptr =>
        obtain ⟨hend, hnext, -⟩ := chunkEnd_of_lt_lastPage stop (lt_of_lt_of_le hlt hstop)
        have hrest := ih (p := chunkEnd stop p) (c := c.after .read addr stop p ptr s) (by omega) hc' hshows'
          (List.forall_mem_cons.2 ⟨sees_chunk hptr hshows' addr stop, hsees⟩)
        exact { hrest with succeeds := fun hall => hrest.succeeds fun n hn => hall n (by omega) }
    · rw [userTask.go, if_neg hlt]
      exact ⟨nofun, fun _ => rfl, hsees, hshows⟩

end

end Ish
