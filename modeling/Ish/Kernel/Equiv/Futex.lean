import Ish.Kernel.Futex
import Ish.Lib.Run
import Ish.Lib.Tally

/-!
# The futex table as a map of queues

What the table is for: a queue of threads for every address of every address space, and for every
thread in `futex_wait` the address it waits at (`Spec`). `Rep held s a` says that the state `s`
represents `a` while the running call holds `held id` references to the futex `id`; then the count
of every futex is the number of threads that refer to it plus these references. Each primitive of
`kernel/futex.c` keeps it, from which every call refines a step on `Spec` (`Rest.perform`),
and no assertion fails.
-/

namespace Ish.Futexes

open Lib List Option
open Function (update update_apply update_of_ne update_self)

/-! ### Queues by address -/

/-- The queue of every futex, where every thread waits, and since when it is on its queue. -/
structure Spec (τ : Type) where
  queue : Key → List τ
  on : τ → Option Key
  since : τ → Nat
  clock : Nat

variable {τ : Type}

/-- Up to `n` threads leave the queue at its head. -/
def Spec.wake (a : Spec τ) (k : Key) (n : Nat) : Spec τ :=
  { a with queue := Function.update a.queue k ((a.queue k).drop n) }

variable [DecidableEq τ]

def Spec.enqueue (a : Spec τ) (k : Key) (t : τ) : Spec τ where
  queue := Function.update a.queue k (a.queue k ++ [t])
  on := Function.update a.on t (some k)
  since := Function.update a.since t a.clock
  clock := a.clock + 1

def Spec.leave (a : Spec τ) (t : τ) : Spec τ :=
  { a with
    queue := fun k => (a.queue k).erase t
    on := Function.update a.on t none }

def Spec.requeue (k k2 : Key) : Nat → Spec τ → Nat × Spec τ
  | 0, a => (0, a)
  | max + 1, a =>
    match a.queue k with
    | [] => (0, a)
    | w :: rest =>
      let a := (a.leave w).enqueue k2 w
      if rest.isEmpty then (1, a)
      else
        let (n, a) := Spec.requeue k k2 max a
        (n + 1, a)

/-- A thread on a queue waits there, and a queue is in the order in which its threads came. -/
structure Spec.Ok (a : Spec τ) : Prop where
  on : ∀ k, ∀ t ∈ a.queue k, a.on t = some k
  sorted : ∀ k, (a.queue k).Pairwise fun t t' => a.since t < a.since t'
  clock : ∀ k, ∀ t ∈ a.queue k, a.since t < a.clock

variable {a : Spec τ}

omit [DecidableEq τ] in
theorem Spec.Ok.nodup (h : a.Ok) (k : Key) : (a.queue k).Nodup :=
  (h.sorted k).imp fun hlt heq => by
    subst heq
    exact absurd hlt (Nat.lt_irrefl _)

omit [DecidableEq τ] in
/-- What only takes threads out of queues. -/
theorem Spec.Ok.sublist (h : a.Ok) {queue : Key → List τ}
    (hsub : ∀ k, (queue k).Sublist (a.queue k)) : Spec.Ok { a with queue := queue } where
  on k t ht := h.on k t ((hsub k).subset ht)
  sorted k := (h.sorted k).sublist (hsub k)
  clock k t ht := h.clock k t ((hsub k).subset ht)

omit [DecidableEq τ] in
theorem Spec.Ok.wake (h : a.Ok) (k : Key) (n : Nat) : (a.wake k n).Ok := by
  refine h.sublist fun k' => ?_
  by_cases hk : k' = k
  · subst hk
    rw [update_self]
    exact drop_sublist _ _
  · rw [update_of_ne hk]

variable {k : Key} {t : τ}

theorem Spec.mem_enqueue {k' : Key} {u : τ} : u ∈ (a.enqueue k t).queue k' ↔ u ∈ a.queue k' ∨ u = t ∧ k' = k := by
  unfold Spec.enqueue
  by_cases hk : k' = k
  · subst hk
    simp
  · simp [hk]

theorem Spec.Ok.enqueue (h : a.Ok) (k : Key) (ht : ∀ k, t ∉ a.queue k) : (a.enqueue k t).Ok := by
  have hne : ∀ k', ∀ u ∈ a.queue k', u ≠ t := fun k' u hu heq => ht k' (heq ▸ hu)
  have hsince : ∀ k', ∀ u ∈ a.queue k', (a.enqueue k t).since u = a.since u :=
    fun k' u hu => update_of_ne (hne k' u hu) _ _
  have hself : (a.enqueue k t).since t = a.clock := update_self _ _ _
  have hsorted : ∀ k', (a.queue k').Pairwise fun u u' =>
      (a.enqueue k t).since u < (a.enqueue k t).since u' := by
    intro k'
    refine (h.sorted k').imp_of_mem fun hu hu' hlt => ?_
    rwa [hsince k' _ hu, hsince k' _ hu']
  refine ⟨fun k' u hu => ?_, fun k' => ?_, fun k' u hu => ?_⟩
  · rcases Spec.mem_enqueue.1 hu with hu | ⟨rfl, rfl⟩
    · exact (update_of_ne (hne k' u hu) _ _).trans (h.on k' u hu)
    · exact update_self _ _ _
  · by_cases hk : k' = k
    · subst hk
      have hqueue : (a.enqueue k' t).queue k' = a.queue k' ++ [t] := update_self _ _ _
      rw [hqueue]
      refine pairwise_append.2 ⟨hsorted k', pairwise_singleton _ _, fun u hu u' hu' => ?_⟩
      rw [mem_singleton.1 hu', hself, hsince k' u hu]
      exact h.clock k' u hu
    · have hqueue : (a.enqueue k t).queue k' = a.queue k' := update_of_ne hk _ _
      rw [hqueue]
      exact hsorted k'
  · rcases Spec.mem_enqueue.1 hu with hu | ⟨rfl, rfl⟩
    · rw [hsince k' u hu]
      exact Nat.lt_succ_of_lt (h.clock k' u hu)
    · rw [hself]
      exact Nat.lt_succ_self _

theorem Spec.Ok.notMem_erase (h : a.Ok) (k : Key) (t : τ) : t ∉ (a.queue k).erase t :=
  fun hmem => (h.nodup k).not_mem_erase hmem

theorem Spec.Ok.leave (h : a.Ok) (t : τ) : (a.leave t).Ok where
  on k u hu := by
    have hne : u ≠ t := fun heq => h.notMem_erase k t (heq ▸ hu)
    exact (update_of_ne hne _ _).trans (h.on k u (mem_of_mem_erase hu))
  sorted k := (h.sorted k).sublist erase_sublist
  clock k u hu := h.clock k u (mem_of_mem_erase hu)

theorem Spec.Ok.move (h : a.Ok) (k2 : Key) (t : τ) : ((a.leave t).enqueue k2 t).Ok :=
  (h.leave t).enqueue k2 fun k => h.notMem_erase k t

omit [DecidableEq τ] in
theorem Spec.Ok.notMem_of_ne (h : a.Ok) {k' : Key} (ht : t ∈ a.queue k) (hk : k' ≠ k) : t ∉ a.queue k' :=
  fun ht' => hk (Option.some.inj ((h.on k' t ht').symm.trans (h.on k t ht)))

theorem Spec.requeue_of_ne {k2 : Key} (hk : k ≠ k2) (max : Nat) (h : a.Ok) :
    (Spec.requeue k k2 max a).1 = min max (a.queue k).length ∧
      (Spec.requeue k k2 max a).2.queue k = (a.queue k).drop max ∧
      (Spec.requeue k k2 max a).2.queue k2 = a.queue k2 ++ (a.queue k).take max ∧
      (∀ k', k' ≠ k → k' ≠ k2 → (Spec.requeue k k2 max a).2.queue k' = a.queue k') ∧
      ∀ t, (Spec.requeue k k2 max a).2.on t = if t ∈ (a.queue k).take max then some k2 else a.on t := by
  induction max generalizing a with
  | zero => simp [Spec.requeue]
  | succ max ih =>
    unfold Spec.requeue
    cases hq : a.queue k with
    | nil => simp [hq]
    | cons w rest =>
      dsimp only
      have herase : ∀ k', k' ≠ k → (a.queue k').erase w = a.queue k' :=
        fun k' hk' => erase_of_not_mem (h.notMem_of_ne (hq ▸ mem_cons_self) hk')
      have hbok := h.move k2 w
      generalize hb : (a.leave w).enqueue k2 w = b at hbok
      have hbk : b.queue k = rest := by simp [← hb, Spec.leave, Spec.enqueue, hk, hq]
      have hbk2 : b.queue k2 = a.queue k2 ++ [w] := by
        simp [← hb, Spec.leave, Spec.enqueue, herase k2 hk.symm]
      have hbother : ∀ k', k' ≠ k → k' ≠ k2 → b.queue k' = a.queue k' := by
        intro k' hk' hk2'
        simp [← hb, Spec.leave, Spec.enqueue, herase k' hk', hk2']
      have hbon : ∀ t, b.on t = if t = w then some k2 else a.on t := by
        intro t
        by_cases ht : t = w <;> simp [← hb, Spec.leave, Spec.enqueue, ht]
      cases rest with
      | nil =>
        refine ⟨by simp, by simp [hbk], by simp [hbk2], hbother, fun t => ?_⟩
        simp [hbon]
      | cons w' rest =>
        obtain ⟨hn, hqk, hqk2, hother, hon⟩ := ih hbok
        rw [hbk] at hn hqk hqk2 hon
        refine ⟨?_, ?_, ?_, fun k' hk' hk2' => ?_, fun t => ?_⟩
        · simp only [isEmpty_cons, Bool.false_eq_true, if_false, hn, length_cons]
          omega
        · simpa using hqk
        · simpa [hbk2] using hqk2
        · simpa using (hother k' hk' hk2').trans (hbother k' hk' hk2')
        · simp only [isEmpty_cons, Bool.false_eq_true, if_false, hon, hbon, take_succ_cons, mem_cons]
          split_ifs <;> tauto

/-! ### The table -/

section Table

omit [DecidableEq τ]

def State.keyAt (s : State τ) (id : Nat) : Option Key := (s.heap id).map Futex.key

/-- The hash lists hold every futex once, in its bucket, and there is one for each key. -/
structure Table (s : State τ) : Prop where
  mem_hash : ∀ i id, id ∈ s.hash i ↔ ∃ k, s.keyAt id = some k ∧ k.hash = i
  nodup : ∀ i, (s.hash i).Nodup
  unique : ∀ id id' k, s.keyAt id = some k → s.keyAt id' = some k → id = id'
  fresh : ∀ id k, s.keyAt id = some k → id < s.next

theorem table_init : Table (init τ) where
  mem_hash := by simp [init, State.keyAt]
  nodup _ := nodup_nil
  unique := by simp [init, State.keyAt]
  fresh := by simp [init, State.keyAt]

/-- Only the keys matter. -/
theorem Table.congr {s s' : State τ} (h : Table s) (hhash : s'.hash = s.hash)
    (hnext : s'.next = s.next) (hkey : ∀ id, s'.keyAt id = s.keyAt id) : Table s' where
  mem_hash i id := by rw [hhash, h.mem_hash, hkey]
  nodup i := hhash ▸ h.nodup i
  unique id id' k := by rw [hkey, hkey]; exact h.unique id id' k
  fresh id k := by rw [hkey, hnext]; exact h.fresh id k

variable {s : State τ} {k : Key}

theorem State.keyAt_eq_some_iff {id : Nat} : s.keyAt id = some k ↔ ∃ f, s.heap id = some f ∧ f.key = k :=
  map_eq_some_iff

theorem Table.lookup_iff (h : Table s) {id : Nat} : s.lookup k = some id ↔ s.keyAt id = some k := by
  have hany : ∀ id, ((s.heap id).any fun f => f.key = k) = true ↔ s.keyAt id = some k := by
    intro id
    rw [Option.any_eq_true, State.keyAt_eq_some_iff]
    simp
  constructor
  · intro hlookup
    exact (hany id).1 (find?_eq_some_iff_append.1 hlookup).1
  · intro hkey
    have hmem : id ∈ s.hash k.hash := (h.mem_hash _ _).2 ⟨k, hkey, rfl⟩
    obtain ⟨id', hfind⟩ := isSome_iff_exists.1
      (find?_isSome (p := fun id => (s.heap id).any fun f => f.key = k).2
        ⟨id, hmem, (hany id).2 hkey⟩)
    have hkey' := (hany id').1 (find?_eq_some_iff_append.1 hfind).1
    rw [State.lookup, hfind, h.unique id' id k hkey' hkey]

theorem Table.lookup_eq_none_iff (h : Table s) : s.lookup k = none ↔ ∀ id, s.keyAt id ≠ some k := by
  rw [eq_none_iff_forall_ne_some]
  exact forall_congr' fun id => not_congr h.lookup_iff

theorem State.heap_modify (s : State τ) (id : Nat) (g : Futex τ → Futex τ) (id' : Nat) :
    (s.modify id g).heap id' = if id' = id then (s.heap id).map g else s.heap id' :=
  update_apply _ _ _ _

theorem State.heap_create (s : State τ) (k : Key) (id : Nat) :
    (s.create k).heap id = if id = s.next then some ⟨1, k, []⟩ else s.heap id :=
  update_apply _ _ _ _

theorem State.hash_create (s : State τ) (k : Key) (i : Nat) :
    (s.create k).hash i = if i = k.hash then s.next :: s.hash i else s.hash i := by
  refine (update_apply _ _ _ _).trans ?_
  split_ifs with hi
  · rw [hi]
  · rfl

theorem State.heap_free (s : State τ) (id : Nat) (k : Key) (id' : Nat) :
    (s.free id k).heap id' = if id' = id then none else s.heap id' :=
  update_apply _ _ _ _

theorem State.hash_free (s : State τ) (id : Nat) (k : Key) (i : Nat) :
    (s.free id k).hash i = if i = k.hash then (s.hash i).erase id else s.hash i := by
  refine (update_apply _ _ _ _).trans ?_
  split_ifs with hi
  · rw [hi]
  · rfl

theorem State.keyAt_modify (s : State τ) (id : Nat) {g : Futex τ → Futex τ}
    (hg : ∀ f, (g f).key = f.key) (id' : Nat) : (s.modify id g).keyAt id' = s.keyAt id' := by
  unfold State.keyAt
  rw [s.heap_modify]
  split_ifs with hid
  · rw [hid, Option.map_map]
    exact congrArg (Option.map · _) (funext hg)
  · rfl

theorem State.keyAt_create (s : State τ) (k : Key) (id : Nat) :
    (s.create k).keyAt id = if id = s.next then some k else s.keyAt id := by
  unfold State.keyAt
  rw [s.heap_create]
  split_ifs <;> rfl

theorem State.keyAt_free (s : State τ) (id : Nat) (k : Key) (id' : Nat) :
    (s.free id k).keyAt id' = if id' = id then none else s.keyAt id' := by
  unfold State.keyAt
  rw [s.heap_free]
  split_ifs <;> rfl

theorem Table.keyAt_next (h : Table s) : s.keyAt s.next = none := by
  cases hkey : s.keyAt s.next with
  | none => rfl
  | some k => exact absurd (h.fresh _ _ hkey) (Nat.lt_irrefl _)

theorem Table.next_notMem (h : Table s) (i : Nat) : s.next ∉ s.hash i := by
  intro hmem
  obtain ⟨k, hkey, -⟩ := (h.mem_hash i s.next).1 hmem
  rw [h.keyAt_next] at hkey
  cases hkey

theorem Table.create (h : Table s) (hk : ∀ id, s.keyAt id ≠ some k) : Table (s.create k) where
  mem_hash i id := by
    rw [s.keyAt_create, s.hash_create]
    by_cases hid : id = s.next
    · subst hid
      rw [if_pos rfl]
      split_ifs with hi
      · simp [hi]
      · simpa [Ne.symm hi] using h.next_notMem i
    · rw [if_neg hid, ← h.mem_hash]
      split_ifs <;> simp [hid]
  nodup i := by
    rw [s.hash_create]
    split_ifs
    · exact nodup_cons.2 ⟨h.next_notMem i, h.nodup i⟩
    · exact h.nodup i
  unique id id' k' hkey hkey' := by
    rw [s.keyAt_create] at hkey hkey'
    split_ifs at hkey hkey' with hid hid'
    · rw [hid, hid']
    · cases hkey
      exact absurd hkey' (hk id')
    · cases hkey'
      exact absurd hkey (hk id)
    · exact h.unique id id' k' hkey hkey'
  fresh id k' hkey := by
    rw [s.keyAt_create] at hkey
    show id < s.next + 1
    split_ifs at hkey with hid
    · omega
    · exact Nat.lt_succ_of_lt (h.fresh id k' hkey)

theorem Table.free (h : Table s) {id : Nat} (hk : s.keyAt id = some k) : Table (s.free id k) where
  mem_hash i id' := by
    rw [s.keyAt_free, s.hash_free]
    by_cases hid : id' = id
    · subst hid
      rw [if_pos rfl]
      split_ifs with hi
      · simpa using (h.nodup i).not_mem_erase
      · have hmem : id' ∉ s.hash i := by
          intro hmem
          obtain ⟨k', hkey, hhash⟩ := (h.mem_hash i id').1 hmem
          cases hk.symm.trans hkey
          exact hi hhash.symm
        simpa using hmem
    · rw [if_neg hid, ← h.mem_hash]
      split_ifs
      · exact mem_erase_of_ne hid
      · rfl
  nodup i := by
    rw [s.hash_free]
    split_ifs
    · exact (h.nodup i).erase id
    · exact h.nodup i
  unique id₁ id₂ k' h₁ h₂ := by
    rw [s.keyAt_free] at h₁ h₂
    split_ifs at h₁ h₂
    exact h.unique id₁ id₂ k' h₁ h₂
  fresh id' k' hkey := by
    rw [s.keyAt_free] at hkey
    split_ifs at hkey
    exact h.fresh id' k' hkey

end Table

/-! ### The state represents the queues -/

/-- The state represents `a`, and the running call holds `held id` references to the futex `id`. -/
structure Rep (held : Nat → Nat) (s : State τ) (a : Spec τ) : Prop where
  table : Table s
  ok : a.Ok
  count : ∀ id f, s.heap id = some f → f.refcount = tally s.wait id + held id
  positive : ∀ id f, s.heap id = some f → 0 < f.refcount
  dead : ∀ id, s.keyAt id = none → (∀ t, s.wait t ≠ some id) ∧ held id = 0
  queue : ∀ id f, s.heap id = some f → f.queue = a.queue f.key
  empty : ∀ k, (∀ id, s.keyAt id ≠ some k) → a.queue k = []
  on : ∀ t, a.on t = (s.wait t).bind s.keyAt
  since : a.since = s.since
  clock : a.clock = s.clock

def specInit (τ : Type) : Spec τ := ⟨fun _ => [], fun _ => none, fun _ => 0, 0⟩

omit [DecidableEq τ] in
theorem rep_init : Rep (fun _ => 0) (init τ) (specInit τ) where
  table := table_init
  ok := ⟨by simp [specInit], by simp [specInit], by simp [specInit]⟩
  count := by simp [init]
  positive := by simp [init]
  dead := by simp [init]
  queue := by simp [init]
  empty := by simp [specInit]
  on := by simp [specInit, init]
  since := rfl
  clock := rfl

def hold (held : Nat → Nat) (id : Nat) : Nat → Nat := Function.update held id (held id + 1)

section Primitives

variable {held held' : Nat → Nat} {s : State τ} {a a' : Spec τ} {id : Nat} {f : Futex τ}

omit [DecidableEq τ]

theorem State.keyAt_of_heap (hf : s.heap id = some f) : s.keyAt id = some f.key := by
  rw [State.keyAt, hf, map_some]

variable [Finite τ]

theorem Rep.change (h : Rep held s a) (hf : s.heap id = some f) {s' : State τ} {f' : Futex τ}
    (hhash : s'.hash = s.hash) (hnext : s'.next = s.next)
    (hheap : ∀ id', s'.heap id' = if id' = id then some f' else s.heap id') (hkey : f'.key = f.key)
    (hcount : f'.refcount = tally s'.wait id + held' id) (hpos : 0 < f'.refcount) (hother : ∀ id', id' ≠ id →
      tally s'.wait id' = tally s.wait id' ∧ held' id' = held id') (hok : a'.Ok)
    (hqueue : ∀ k, a'.queue k = if k = f.key then f'.queue else a.queue k)
    (hon : ∀ t, a'.on t = (s'.wait t).bind s.keyAt) (hsince : a'.since = s'.since)
    (hclock : a'.clock = s'.clock) : Rep held' s' a' := by
  have hkeyAt : ∀ id', s'.keyAt id' = s.keyAt id' := by
    intro id'
    unfold State.keyAt
    rw [hheap]
    split_ifs with hid
    · rw [hid, hf, map_some, map_some, hkey]
    · rfl
  refine ⟨h.table.congr hhash hnext hkeyAt, hok, fun id' f₁ hf₁ => ?_, fun id' f₁ hf₁ => ?_,
    fun id' hid' => ?_, fun id' f₁ hf₁ => ?_, fun k hk => ?_, fun t => ?_, hsince, hclock⟩
  · rw [hheap] at hf₁
    split_ifs at hf₁ with hid
    · cases hf₁
      rw [hid, hcount]
    · rw [(hother id' hid).1, (hother id' hid).2]
      exact h.count id' f₁ hf₁
  · rw [hheap] at hf₁
    split_ifs at hf₁ with hid
    · cases hf₁
      exact hpos
    · exact h.positive id' f₁ hf₁
  · rw [hkeyAt] at hid'
    have hne : id' ≠ id := by
      rintro rfl
      rw [State.keyAt_of_heap hf] at hid'
      cases hid'
    obtain ⟨hwait, hzero⟩ := h.dead id' hid'
    rw [← tally_eq_zero_iff, ← (hother id' hne).1, tally_eq_zero_iff] at hwait
    exact ⟨hwait, (hother id' hne).2.trans hzero⟩
  · rw [hheap] at hf₁
    split_ifs at hf₁ with hid
    · cases hf₁
      rw [hqueue, hkey, if_pos rfl]
    · have hne : f₁.key ≠ f.key := fun heq => hid
        (h.table.unique id' id f₁.key (State.keyAt_of_heap hf₁) (heq ▸ State.keyAt_of_heap hf))
      rw [hqueue, if_neg hne]
      exact h.queue id' f₁ hf₁
  · have hk' : ∀ id', s.keyAt id' ≠ some k := fun id' => hkeyAt id' ▸ hk id'
    have hne : k ≠ f.key := fun heq => hk' id (heq ▸ State.keyAt_of_heap hf)
    rw [hqueue, if_neg hne]
    exact h.empty k hk'
  · rw [hon]
    exact congrArg _ (funext fun id' => (hkeyAt id').symm)

omit [Finite τ] in
theorem State.heap_modify_of_some (hf : s.heap id = some f) (g : Futex τ → Futex τ) (id' : Nat) :
    (s.modify id g).heap id' = if id' = id then some (g f) else s.heap id' := by
  rw [s.heap_modify, hf, map_some]

/-- A count is changed, while nobody's reference is. -/
theorem Rep.recount (h : Rep held s a) (hf : s.heap id = some f) {g : Futex τ → Futex τ}
    (hkey : (g f).key = f.key) (hqueue : (g f).queue = f.queue)
    (hcount : (g f).refcount = tally s.wait id + held' id) (hpos : 0 < (g f).refcount)
    (hheld : ∀ id', id' ≠ id → held' id' = held id') : Rep held' (s.modify id g) a := by
  refine h.change hf rfl rfl (State.heap_modify_of_some hf g) hkey hcount hpos
    (fun id' hne => ⟨rfl, hheld id' hne⟩) h.ok (fun k => ?_) h.on h.since h.clock
  split_ifs with hk
  · rw [hk, hqueue]
    exact (h.queue id f hf).symm
  · rfl

theorem hold_self (held : Nat → Nat) (id : Nat) : hold held id id = held id + 1 :=
  update_self _ _ _

theorem hold_of_ne (held : Nat → Nat) {id id' : Nat} (h : id' ≠ id) : hold held id id' = held id' :=
  update_of_ne h _ _

theorem Rep.create (h : Rep held s a) (hk : ∀ id, s.keyAt id ≠ some k) : Rep (hold held s.next) (s.create k) a := by
  obtain ⟨hwait, hheld⟩ := h.dead s.next h.table.keyAt_next
  refine ⟨h.table.create hk, h.ok, fun id f hf => ?_, fun id f hf => ?_, fun id hid => ?_,
    fun id f hf => ?_, fun k' hk' => ?_, fun t => ?_, h.since, h.clock⟩
  · rw [s.heap_create] at hf
    split_ifs at hf with hid
    · cases hf
      have hzero : tally (s.create k).wait s.next = 0 := tally_eq_zero_iff.2 hwait
      rw [hid, hold_self, hheld, hzero]
    · rw [hold_of_ne held hid]
      exact h.count id f hf
  · rw [s.heap_create] at hf
    split_ifs at hf with hid
    · cases hf
      exact Nat.one_pos
    · exact h.positive id f hf
  · rw [s.keyAt_create] at hid
    split_ifs at hid with hne
    rw [hold_of_ne held hne]
    exact h.dead id hid
  · rw [s.heap_create] at hf
    split_ifs at hf with hid
    · cases hf
      exact (h.empty k hk).symm
    · exact h.queue id f hf
  · refine h.empty k' fun id hid => hk' id ?_
    rw [s.keyAt_create, if_neg, hid]
    rintro rfl
    rw [h.table.keyAt_next] at hid
    cases hid
  · rw [h.on]
    show (s.wait t).bind s.keyAt = (s.wait t).bind (s.create k).keyAt
    cases ht : s.wait t with
    | none => rfl
    | some id =>
      have hne : id ≠ s.next := fun heq => hwait t (heq ▸ ht)
      rw [bind_some, bind_some, s.keyAt_create, if_neg hne]

theorem Rep.get (h : Rep held s a) (k : Key) :
    Rep (hold held (s.get k).1) (s.get k).2 a ∧ (s.get k).2.keyAt (s.get k).1 = some k ∧
      (∀ id k', s.keyAt id = some k' → (s.get k).2.keyAt id = some k') ∧ (s.get k).2.wait = s.wait := by
  cases hlookup : s.lookup k with
  | some id =>
    have hget : s.get k = (id, s.modify id fun f => { f with refcount := f.refcount + 1 }) := by
      rw [State.get, hlookup]
    have hkey := h.table.lookup_iff.1 hlookup
    obtain ⟨f, hf, hfk⟩ := State.keyAt_eq_some_iff.1 hkey
    have hkeys : ∀ id', (s.modify id fun f => { f with refcount := f.refcount + 1 }).keyAt id' =
        s.keyAt id' := s.keyAt_modify id fun _ => rfl
    rw [hget]
    refine ⟨h.recount hf rfl rfl ?_ (Nat.succ_pos _) fun _ => hold_of_ne held,
      (hkeys id).trans hkey, fun id' k' hk' => (hkeys id').trans hk', rfl⟩
    rw [hold_self]
    exact congrArg (· + 1) (h.count id f hf)
  | none =>
    have hget : s.get k = (s.next, s.create k) := by rw [State.get, hlookup]
    rw [hget]
    refine ⟨h.create (h.table.lookup_eq_none_iff.1 hlookup), ?_, fun id k' hk' => ?_, rfl⟩
    · rw [s.keyAt_create, if_pos rfl]
    · rw [s.keyAt_create, if_neg, hk']
      exact Nat.ne_of_lt (h.table.fresh id k' hk')

omit [Finite τ] in
theorem Rep.wait_of_mem (h : Rep held s a) (hf : s.heap id = some f) (ht : t ∈ f.queue) : s.wait t = some id := by
  have hon := h.ok.on f.key t (h.queue id f hf ▸ ht)
  rw [h.on] at hon
  obtain ⟨id', hwait, hkey⟩ := bind_eq_some_iff.1 hon
  rw [hwait, h.table.unique id' id f.key hkey (State.keyAt_of_heap hf)]

theorem Rep.free (h : Rep (hold held id) s a) (hf : s.heap id = some f) (hone : f.refcount = 1) :
    f.queue = [] ∧ Rep held (s.free id f.key) a := by
  have hcount := h.count id f hf
  rw [hold_self] at hcount
  have hwait : ∀ t, s.wait t ≠ some id := tally_eq_zero_iff.1 (by omega)
  have hqueue : f.queue = [] := eq_nil_iff_forall_not_mem.2 fun t ht =>
    hwait t (h.wait_of_mem hf ht)
  refine ⟨hqueue, h.table.free (State.keyAt_of_heap hf), h.ok, fun id' f' hf' => ?_,
    fun id' f' hf' => ?_, fun id' hid' => ?_, fun id' f' hf' => ?_, fun k hk => ?_, fun t => ?_,
    h.since, h.clock⟩
  · rw [s.heap_free] at hf'
    split_ifs at hf' with hid
    rw [← hold_of_ne held hid]
    exact h.count id' f' hf'
  · rw [s.heap_free] at hf'
    split_ifs at hf' with hid
    exact h.positive id' f' hf'
  · rw [s.keyAt_free] at hid'
    split_ifs at hid' with hid
    · rw [hid]
      exact ⟨hwait, by omega⟩
    · rw [← hold_of_ne held hid]
      exact h.dead id' hid'
  · rw [s.heap_free] at hf'
    split_ifs at hf' with hid
    exact h.queue id' f' hf'
  · by_cases hkey : k = f.key
    · rw [hkey, ← h.queue id f hf, hqueue]
    · refine h.empty k fun id' hid' => hk id' ?_
      rw [s.keyAt_free, if_neg, hid']
      rintro rfl
      exact hkey (Option.some.inj (hid'.symm.trans (State.keyAt_of_heap hf)))
  · rw [h.on]
    show (s.wait t).bind s.keyAt = (s.wait t).bind (s.free id f.key).keyAt
    cases ht : s.wait t with
    | none => rfl
    | some id' =>
      have hne : id' ≠ id := fun heq => hwait t (heq ▸ ht)
      rw [bind_some, bind_some, s.keyAt_free, if_neg hne]

/-- `futex_put_unlocked` gives a reference back; the queue of a futex that is freed is empty. -/
theorem Rep.put (h : Rep (hold held id) s a) : ∃ s', s.put id = some s' ∧ Rep held s' a := by
  cases hf : s.heap id with
  | none =>
    have hdead := (h.dead id (by rw [State.keyAt, hf, map_none])).2
    rw [hold_self] at hdead
    cases hdead
  | some f =>
    have hcount := h.count id f hf
    rw [hold_self] at hcount
    unfold State.put
    simp only [hf]
    rw [if_neg (by omega)]
    by_cases hone : f.refcount - 1 = 0
    · obtain ⟨hqueue, hrep⟩ := h.free hf (by omega)
      rw [if_pos hone, if_pos (List.isEmpty_iff.2 hqueue)]
      exact ⟨_, rfl, hrep⟩
    · rw [if_neg hone]
      refine ⟨_, rfl, h.recount hf rfl rfl ?_ ?_ fun _ hid => (hold_of_ne held hid).symm⟩
      · show f.refcount - 1 = _
        omega
      · show 0 < f.refcount - 1
        omega

omit [Finite τ] in
theorem wakeLoop_eq (max n : Nat) (l : List τ) : wakeLoop max n l = (l.take (max - n), l.drop (max - n)) := by
  induction l generalizing n with
  | nil => simp [wakeLoop]
  | cons w ws ih =>
    unfold wakeLoop
    split_ifs with hn
    · simp [Nat.sub_eq_zero_of_le hn]
    · obtain ⟨m, hm⟩ : ∃ m, max - n = m + 1 := ⟨max - n - 1, by omega⟩
      have hm' : max - (n + 1) = m := by omega
      simp [ih, hm, hm']

theorem Rep.wakeQueue (h : Rep held s a) (hk : s.keyAt id = some k) (max : Nat) :
    (s.wakeQueue id max).1 = (a.queue k).take max ∧ Rep held (s.wakeQueue id max).2 (a.wake k max) ∧
      (s.wakeQueue id max).2.keyAt = s.keyAt := by
  obtain ⟨f, hf, rfl⟩ := State.keyAt_eq_some_iff.1 hk
  have hqueue : s.queueOf id = a.queue f.key := by
    rw [State.queueOf, hf]
    exact h.queue id f hf
  unfold State.wakeQueue
  rw [wakeLoop_eq, Nat.sub_zero, hqueue]
  refine ⟨rfl, h.change hf rfl rfl (State.heap_modify_of_some hf _) rfl (h.count id f hf)
    (h.positive id f hf) (fun _ _ => ⟨rfl, rfl⟩) (h.ok.wake _ _) (fun k => ?_) h.on h.since h.clock,
    funext (s.keyAt_modify id fun _ => rfl)⟩
  exact update_apply _ _ _ _

end Primitives

section Threads

variable {held held' : Nat → Nat} {s : State τ} {a : Spec τ} {id : Nat} {f : Futex τ} {t : τ}

theorem Spec.queue_enqueue (a : Spec τ) (k : Key) (t : τ) (k' : Key) :
    (a.enqueue k t).queue k' = if k' = k then a.queue k ++ [t] else a.queue k' :=
  update_apply _ _ _ _

theorem Spec.on_enqueue (a : Spec τ) (k : Key) (t u : τ) : (a.enqueue k t).on u = if u = t then some k else a.on u :=
  update_apply _ _ _ _

theorem Spec.on_leave (a : Spec τ) (t u : τ) : (a.leave t).on u = if u = t then none else a.on u :=
  update_apply _ _ _ _

theorem State.wait_join (s : State τ) (t : τ) (id : Nat) (u : τ) :
    (s.join t id).wait u = if u = t then some id else s.wait u :=
  update_apply _ _ _ _

variable [Finite τ]

theorem Rep.attach (h : Rep held s a) (hf : s.heap id = some f) (ht : s.wait t = none)
    {g : Futex τ → Futex τ} (hkey : (g f).key = f.key) (hqueue : (g f).queue = f.queue ++ [t])
    (hcount : (g f).refcount + held id = f.refcount + 1 + held' id) (hheld : ∀ id', id' ≠ id → held' id' = held id') :
    Rep held' ((s.modify id g).join t id) (a.enqueue f.key t) := by
  have hnot : ∀ k, t ∉ a.queue k := by
    intro k hmem
    have hon := h.ok.on k t hmem
    rw [h.on, ht] at hon
    cases hon
  have htally : tally ((s.modify id g).join t id).wait =
      update (tally s.wait) id (tally s.wait id + 1) := tally_fill id ht
  have hold := h.count id f hf
  refine h.change hf rfl rfl (State.heap_modify_of_some hf g) hkey ?_ (by omega) (fun id' hne => ?_)
    (h.ok.enqueue f.key hnot) (fun k => ?_) (fun u => ?_) ?_ ?_
  · rw [htally, update_self]
    omega
  · rw [htally, update_of_ne hne]
    exact ⟨rfl, hheld id' hne⟩
  · rw [Spec.queue_enqueue, hqueue, h.queue id f hf]
  · rw [Spec.on_enqueue, State.wait_join]
    split_ifs
    · rw [bind_some, State.keyAt_of_heap hf]
    · exact h.on u
  · show update a.since t a.clock = update s.since t s.clock
    rw [h.since, h.clock]
  · exact congrArg (· + 1) h.clock

/-- The state after the thread that refers to the futex has left its queue. -/
def State.detach (s : State τ) (id : Nat) (t : τ) (g : Futex τ → Futex τ) : State τ :=
  { s.modify id g with wait := Function.update s.wait t none }

section

variable (h : Rep held s a)
include h

/-- A thread stops waiting. -/
theorem Rep.detach (hf : s.heap id = some f) (ht : s.wait t = some id)
    {g : Futex τ → Futex τ} (hkey : (g f).key = f.key) (hqueue : (g f).queue = f.queue.erase t)
    (hcount : (g f).refcount + 1 + held id = f.refcount + held' id) (hpos : 0 < (g f).refcount)
    (hheld : ∀ id', id' ≠ id → held' id' = held id') : Rep held' (s.detach id t g) (a.leave t) := by
  have htally : tally (s.detach id t g).wait =
      update (tally s.wait) id (tally s.wait id - 1) := tally_clear ht
  have hne0 := tally_ne_zero ht
  have hold := h.count id f hf
  have hon : a.on t = some f.key := by
    rw [h.on, ht, bind_some, State.keyAt_of_heap hf]
  refine h.change hf rfl rfl (State.heap_modify_of_some hf g) hkey ?_ hpos (fun id' hne => ?_)
    (h.ok.leave t) (fun k => ?_) (fun u => ?_) h.since h.clock
  · rw [htally, update_self]
    omega
  · rw [htally, update_of_ne hne]
    exact ⟨rfl, hheld id' hne⟩
  · show (a.queue k).erase t = _
    split_ifs with hk
    · rw [hk, hqueue, h.queue id f hf]
    · refine erase_of_not_mem fun hmem => hk ?_
      exact Option.some.inj ((h.ok.on k t hmem).symm.trans hon)
  · rw [Spec.on_leave]
    show _ = (update s.wait t none u).bind s.keyAt
    rw [update_apply]
    split_ifs
    · rfl
    · exact h.on u

omit [Finite τ] in
theorem Rep.unlink_eq (ht : s.wait t = some id) :
    s.unlink t = s.detach id t fun f => { f with queue := f.queue.erase t } := by
  have hheap : (s.unlink t).heap =
      (s.modify id fun f => { f with queue := f.queue.erase t }).heap := by
    funext id'
    rw [s.heap_modify]
    show (s.heap id').map _ = _
    split_ifs with hid
    · rw [hid]
    · cases hf : s.heap id' with
      | none => rfl
      | some f =>
        have hnot : t ∉ f.queue := fun hmem =>
          hid (Option.some.inj ((h.wait_of_mem hf hmem).symm.trans ht))
        rw [map_some, erase_of_not_mem hnot]
  show s.unlink t = ⟨(s.modify id fun f => { f with queue := f.queue.erase t }).heap, s.hash, s.next,
    update s.wait t none, s.since, s.clock⟩
  rw [← hheap]
  rfl

theorem Rep.moveOne {k2 : Key} {id2 : Nat} (hk : s.keyAt id = some k)
    (hk2 : s.keyAt id2 = some k2) (hheld : 0 < held id) {w : τ} {rest : List τ} (hq : a.queue k = w :: rest) :
    ∃ s', s.moveOne id id2 w = some s' ∧ Rep held s' ((a.leave w).enqueue k2 w) ∧ s'.keyAt = s.keyAt := by
  obtain ⟨f, hf, rfl⟩ := State.keyAt_eq_some_iff.1 hk
  have hqueue := h.queue id f hf
  have hw : s.wait w = some id := h.wait_of_mem hf (by simp [hqueue, hq])
  have hcount := h.count id f hf
  have htally := tally_ne_zero hw
  set g : Futex τ → Futex τ :=
    fun f => { f with queue := f.queue.erase w, refcount := f.refcount - 1 } with hg
  have hgcount : (g f).refcount = f.refcount - 1 := rfl
  have hdetach : Rep held (s.detach id w g) (a.leave w) :=
    h.detach hf hw rfl rfl (by omega) (by omega) fun _ _ => rfl
  have hkeys : ∀ id', (s.detach id w g).keyAt id' = s.keyAt id' :=
    s.keyAt_modify id fun _ => rfl
  obtain ⟨f2, hf2, hf2k⟩ := State.keyAt_eq_some_iff.1 ((hkeys id2).trans hk2)
  set g2 : Futex τ → Futex τ :=
    fun f => { f with queue := f.queue ++ [w], refcount := f.refcount + 1 } with hg2
  have hattach : Rep held (((s.detach id w g).modify id2 g2).join w id2)
      ((a.leave w).enqueue f2.key w) :=
    hdetach.attach hf2 (update_self _ _ _) rfl rfl rfl fun _ _ => rfl
  rw [hf2k] at hattach
  refine ⟨((s.modify id g).modify id2 g2).join w id2, ?_, ?_, ?_⟩
  · unfold State.moveOne
    simp only [hf]
    rw [if_neg (by omega)]
  · -- the reference of the thread goes to the new futex in one step
    have hwait : (((s.detach id w g).modify id2 g2).join w id2) =
        ((s.modify id g).modify id2 g2).join w id2 := by
      unfold State.join State.detach State.modify
      simp
    rwa [← hwait]
  · funext id'
    exact ((s.modify id g).keyAt_modify id2 (g := g2) (fun _ => rfl) id').trans
      (s.keyAt_modify id (g := g) (fun _ => rfl) id')

omit [DecidableEq τ] [Finite τ] in
theorem Rep.queueOf (hk : s.keyAt id = some k) : s.queueOf id = a.queue k := by
  obtain ⟨f, hf, rfl⟩ := State.keyAt_eq_some_iff.1 hk
  rw [State.queueOf, hf]
  exact h.queue id f hf

theorem Rep.requeueLoop {k2 : Key} {id2 : Nat} (hk : s.keyAt id = some k)
    (hk2 : s.keyAt id2 = some k2) (hheld : 0 < held id) (max : Nat) :
    ∃ s', State.requeueLoop id id2 max s = some ((Spec.requeue k k2 max a).1, s') ∧
      Rep held s' (Spec.requeue k k2 max a).2 ∧ s'.keyAt = s.keyAt := by
  induction max generalizing s a with
  | zero => exact ⟨s, rfl, h, rfl⟩
  | succ max ih =>
    unfold State.requeueLoop Spec.requeue
    rw [h.queueOf hk]
    cases hq : a.queue k with
    | nil => exact ⟨s, rfl, h, rfl⟩
    | cons w rest =>
      obtain ⟨s₁, hmove, hrep₁, hkeys₁⟩ := h.moveOne hk hk2 hheld hq
      simp only [hmove]
      cases hrest : rest.isEmpty with
      | true => exact ⟨s₁, by simp, by simpa using hrep₁, hkeys₁⟩
      | false =>
        obtain ⟨s₂, hloop, hrep₂, hkeys₂⟩ := ih hrep₁ (by rw [hkeys₁, hk]) (by rw [hkeys₁, hk2])
        refine ⟨s₂, ?_, by simpa using hrep₂, hkeys₂.trans hkeys₁⟩
        simp [hloop]

theorem Rep.requeue (hk : s.keyAt id = some k) (hheld : 0 < held id)
    (max : Nat) (k2 : Key) : ∃ s', s.requeue id max k2 = some ((Spec.requeue k k2 max a).1, s') ∧
      Rep held s' (Spec.requeue k k2 max a).2 := by
  obtain ⟨hget, hk2, hkeys, -⟩ := h.get k2
  have hk' : (s.get k2).2.keyAt id = some k := hkeys id k hk
  have hheld' : 0 < hold held (s.get k2).1 id := by
    unfold hold
    rw [update_apply]
    split_ifs <;> omega
  obtain ⟨s₁, hloop, hrep₁, -⟩ := hget.requeueLoop hk' hk2 hheld' max
  obtain ⟨s₂, hput, hrep₂⟩ := hrep₁.put
  refine ⟨s₂, ?_, hrep₂⟩
  simp [State.requeue, hloop, hput]

end

end Threads

/-! ### The calls -/

/-- What an action does to the queues: the new queues, who is woken, and what is returned. -/
def Spec.perform (a : Spec τ) : Act τ → Spec τ × List τ × Option (Except Errno Nat)
  | .waitEnter t k loaded val pipe =>
    match loaded with
    | none => (a, [], some (.error .efault))
    | some x =>
      if x ≠ val then (a, [], some (.error .eagain))
      else if !pipe then (a, [], some (.error .enomem))
      else (a.enqueue k t, [], none)
  | .waitLeave t => (a.leave t, [], some (.ok 0))
  | .wakelike k wakeMax none =>
    (a.wake k wakeMax, (a.queue k).take wakeMax, some (.ok ((a.queue k).take wakeMax).length))
  | .wakelike k wakeMax (some (requeueMax, k2)) =>
    let r := Spec.requeue k k2 requeueMax (a.wake k wakeMax)
    (r.2, (a.queue k).take wakeMax, some (.ok (((a.queue k).take wakeMax).length + r.1)))
  | .cmpRequeue k wakeMax requeueMax k2 loaded expected =>
    match loaded with
    | none => (a, [], some (.error .efault))
    | some x =>
      if x ≠ expected then (a, [], some (.error .eagain))
      else
        let r := Spec.requeue k k2 requeueMax (a.wake k wakeMax)
        (r.2, (a.queue k).take wakeMax, some (.ok (((a.queue k).take wakeMax).length + r.1)))
  | .wakeOp k max1 k2 max2 cmpTrue =>
    let b := a.wake k max1
    let woken := (a.queue k).take max1
    if cmpTrue then
      let woken2 := (b.queue k2).take max2
      (b.wake k2 max2, woken ++ woken2, some (.ok (woken.length + woken2.length)))
    else (b, woken, some (.ok woken.length))

section Calls

variable {s : State τ} {a : Spec τ} [Finite τ]

/-- Between two calls nobody holds a reference but the waiting threads. -/
abbrev Rest (s : State τ) (a : Spec τ) : Prop := Rep (fun _ => 0) s a

/-- The call gives what the action does to the queues. -/
def Does (o : Option (Outcome τ)) (r : Spec τ × List τ × Option (Except Errno Nat)) : Prop :=
  ∃ s', o = some ⟨s', r.2.1, r.2.2⟩ ∧ Rest s' r.1

omit [DecidableEq τ] in
theorem Rep.finish {id : Nat} (h : Rep (hold (fun _ => 0) id) s a) (woken : List τ)
    (ret : Except Errno Nat) : Does (s.finish id woken ret) (a, woken, some ret) := by
  obtain ⟨s', hput, hrep⟩ := h.put
  exact ⟨s', by simp [State.finish, hput], hrep⟩

theorem Rest.waitEnter (h : Rest s a) (ht : s.wait t = none) (k : Key) (loaded : Option Nat) (val : Nat) (pipe : Bool) :
    Does (s.waitEnter t k loaded val pipe) (a.perform (.waitEnter t k loaded val pipe)) := by
  obtain ⟨hget, hkey, -, hwait⟩ := h.get k
  unfold State.waitEnter Spec.perform
  cases loaded with
  | none => exact hget.finish _ _
  | some x =>
    dsimp only
    split_ifs
    · exact hget.finish _ _
    · exact hget.finish _ _
    · obtain ⟨f, hf, rfl⟩ := State.keyAt_eq_some_iff.1 hkey
      refine ⟨_, rfl, hget.attach hf (by rw [hwait, ht]) rfl rfl ?_ fun _ hne => ?_⟩
      · rw [hold_self]
      · rw [hold_of_ne _ hne]

theorem Rest.waitLeave (h : Rest s a) (ht : s.wait t ≠ none) : Does (s.waitLeave t) (a.perform (.waitLeave t)) := by
  obtain ⟨id, hid⟩ := ne_none_iff_exists'.1 ht
  have hlive : s.keyAt id ≠ none := fun hnone => (h.dead id hnone).1 t hid
  obtain ⟨k, hk⟩ := ne_none_iff_exists'.1 hlive
  obtain ⟨f, hf, -⟩ := State.keyAt_eq_some_iff.1 hk
  unfold State.waitLeave Spec.perform
  rw [hid]
  dsimp only
  rw [h.unlink_eq hid]
  refine Rep.finish (h.detach hf hid rfl rfl ?_ (h.positive id f hf) fun _ => hold_of_ne _) _ _
  rw [hold_self]

/-- The part that `futex_wakelike` and `futex_cmp_requeue` share. -/
theorem Rep.requeueFinish {id : Nat} (h : Rep (hold (fun _ => 0) id) s a)
    (hk : s.keyAt id = some k) (max : Nat) (k2 : Key) (woken : List τ) :
    Does ((s.requeue id max k2).bind fun r => r.2.finish id woken (.ok (woken.length + r.1)))
      ((Spec.requeue k k2 max a).2, woken, some (.ok (woken.length + (Spec.requeue k k2 max a).1))) := by
  obtain ⟨s', hrequeue, hrep⟩ := h.requeue hk (by rw [hold_self]; omega) max k2
  rw [hrequeue, bind_some]
  exact hrep.finish _ _

theorem Rest.wakelike (h : Rest s a) (k : Key) (wakeMax : Nat) (target : Option (Nat × Key)) :
    Does (s.wakelike k wakeMax target) (a.perform (.wakelike k wakeMax target)) := by
  obtain ⟨hget, hkey, -, -⟩ := h.get k
  obtain ⟨hwoken, hwake, hkeys⟩ := hget.wakeQueue hkey wakeMax
  have hkey' := (congrFun hkeys (s.get k).1).trans hkey
  unfold State.wakelike
  dsimp only
  rw [hwoken]
  match target with
  | none => exact hwake.finish _ _
  | some (requeueMax, k2) => exact hwake.requeueFinish hkey' requeueMax k2 _

theorem Rest.cmpRequeue (h : Rest s a) (k : Key) (wakeMax requeueMax : Nat) (k2 : Key)
    (loaded : Option Nat) (expected : Nat) : Does (s.cmpRequeue k wakeMax requeueMax k2 loaded expected)
      (a.perform (.cmpRequeue k wakeMax requeueMax k2 loaded expected)) := by
  obtain ⟨hget, hkey, -, -⟩ := h.get k
  obtain ⟨hwoken, hwake, hkeys⟩ := hget.wakeQueue hkey wakeMax
  have hkey' := (congrFun hkeys (s.get k).1).trans hkey
  unfold State.cmpRequeue Spec.perform
  cases loaded with
  | none => exact hget.finish _ _
  | some x =>
    dsimp only
    split_ifs
    · exact hget.finish _ _
    · rw [hwoken]
      exact hwake.requeueFinish hkey' requeueMax k2 _

theorem Rest.wakeOp (h : Rest s a) (k : Key) (max1 : Nat) (k2 : Key) (max2 : Nat) (cmpTrue : Bool) :
    Does (s.wakeOp k max1 k2 max2 cmpTrue) (a.perform (.wakeOp k max1 k2 max2 cmpTrue)) := by
  obtain ⟨hget, hkey, -, -⟩ := h.get k
  obtain ⟨hwoken, hwake, -⟩ := hget.wakeQueue hkey max1
  unfold State.wakeOp Spec.perform
  dsimp only
  rw [hwoken]
  split_ifs
  · obtain ⟨hget2, hkey2, -, -⟩ := hwake.get k2
    obtain ⟨hwoken2, hwake2, -⟩ := hget2.wakeQueue hkey2 max2
    obtain ⟨s', hput, hrep⟩ := hwake2.put
    rw [hwoken2, hput]
    exact hrep.finish _ _
  · exact hwake.finish _ _

theorem Rest.perform (h : Rest s a) {act : Act τ} (hact : s.Enabled act) : Does (s.perform act) (a.perform act) := by
  cases act with
  | waitEnter t k loaded val pipe => exact h.waitEnter hact k loaded val pipe
  | waitLeave t => exact h.waitLeave hact
  | wakelike k wakeMax target => exact h.wakelike k wakeMax target
  | cmpRequeue k wakeMax requeueMax k2 loaded expected =>
    exact h.cmpRequeue k wakeMax requeueMax k2 loaded expected
  | wakeOp k max1 k2 max2 cmpTrue => exact h.wakeOp k max1 k2 max2 cmpTrue

end Calls

/-! ### Every run -/

def State.queueAt (s : State τ) (k : Key) : List τ := (s.lookup k).elim [] s.queueOf

def State.waitsAt (s : State τ) (t : τ) : Option Key := (s.wait t).bind s.keyAt

variable {s : State τ}

omit [DecidableEq τ] in
theorem Rep.queueAt_eq {held : Nat → Nat} (h : Rep held s a) : s.queueAt = a.queue := by
  funext k
  unfold State.queueAt
  cases hlookup : s.lookup k with
  | some id => exact h.queueOf (h.table.lookup_iff.1 hlookup)
  | none => exact (h.empty k (h.table.lookup_eq_none_iff.1 hlookup)).symm

omit [DecidableEq τ] in
theorem Rep.waitsAt_eq {held : Nat → Nat} (h : Rep held s a) : s.waitsAt = a.on :=
  funext fun t => (h.on t).symm

variable [Finite τ]

/-- What every run keeps. -/
structure Sound (s : State τ) : Prop where
  /-- there is one futex for a key -/
  unique : ∀ id id' f f', s.heap id = some f → s.heap id' = some f' → f.key = f'.key → id = id'
  /-- its count is the number of threads that refer to it, and then it is needed -/
  counted : ∀ id f, s.heap id = some f → f.refcount = tally s.wait id ∧ f.refcount ≠ 0
  /-- a call that has got it is counted too -/
  got : ∀ k, ∃ f, (s.get k).2.heap (s.get k).1 = some f ∧ f.key = k ∧
    f.refcount = tally s.wait (s.get k).1 + 1
  /-- no assertion fails: what is freed has an empty queue -/
  safe : ∀ act, s.Enabled act → (s.perform act).isSome
  /-- a queue is in the order in which its threads joined it -/
  fifo : ∀ k, (s.queueAt k).Pairwise fun t t' => s.since t < s.since t'
  /-- a wake takes the head of the queue -/
  wake : ∀ k n, ∃ s', s.perform (.wakelike k n none) =
      some ⟨s', (s.queueAt k).take n, some (.ok (min n (s.queueAt k).length))⟩ ∧
    s'.queueAt = Function.update s.queueAt k ((s.queueAt k).drop n) ∧ s'.waitsAt = s.waitsAt
  /-- a requeue moves what follows, and the references with it -/
  requeue : ∀ k k2 n m, k ≠ k2 → ∃ s', s.perform (.wakelike k n (some (m, k2))) =
      some ⟨s', (s.queueAt k).take n, some (.ok (min n (s.queueAt k).length + min m ((s.queueAt k).length - n)))⟩ ∧
    s'.queueAt k = ((s.queueAt k).drop n).drop m ∧
    s'.queueAt k2 = s.queueAt k2 ++ ((s.queueAt k).drop n).take m ∧
    (∀ k', k' ≠ k → k' ≠ k2 → s'.queueAt k' = s.queueAt k') ∧
    ∀ t, s'.waitsAt t = if t ∈ ((s.queueAt k).drop n).take m then some k2 else s.waitsAt t

theorem Rest.requeue_spec (h : Rest s a) {k2 : Key} (hk : k ≠ k2) (n m : Nat) :
    ∃ s', s.perform (.wakelike k n (some (m, k2))) = some ⟨s', (a.queue k).take n, some (.ok (min n (a.queue k).length +
          min m ((a.queue k).length - n)))⟩ ∧ s'.queueAt k = ((a.queue k).drop n).drop m ∧
      s'.queueAt k2 = a.queue k2 ++ ((a.queue k).drop n).take m ∧
      (∀ k', k' ≠ k → k' ≠ k2 → s'.queueAt k' = a.queue k') ∧
      ∀ t, s'.waitsAt t = if t ∈ ((a.queue k).drop n).take m then some k2 else a.on t := by
  obtain ⟨s', hs', hrep⟩ := h.wakelike k n (some (m, k2))
  have hqk : (a.wake k n).queue k = (a.queue k).drop n := update_self _ _ _
  have hother : ∀ k', k' ≠ k → (a.wake k n).queue k' = a.queue k' :=
    fun k' hk' => update_of_ne hk' _ _
  obtain ⟨hcount, hq, hq2, hqo, hon⟩ := Spec.requeue_of_ne hk m (h.ok.wake k n)
  rw [hqk] at hcount hq hq2 hon
  refine ⟨s', ?_, ?_, ?_, fun k' hk' hk2' => ?_, fun t => ?_⟩
  · refine hs'.trans ?_
    simp only [Spec.perform, hcount, length_take, length_drop]
  · rw [hrep.queueAt_eq]
    exact hq
  · rw [hrep.queueAt_eq]
    exact hq2.trans (by rw [hother k2 hk.symm])
  · rw [hrep.queueAt_eq]
    exact (hqo k' hk' hk2').trans (hother k' hk')
  · rw [hrep.waitsAt_eq]
    exact hon t

theorem Rest.sound (h : Rest s a) : Sound s where
  unique id id' f f' hf hf' hkey :=
    h.table.unique id id' f.key (State.keyAt_of_heap hf) (hkey ▸ State.keyAt_of_heap hf')
  counted id f hf := ⟨h.count id f hf, Nat.pos_iff_ne_zero.1 (h.positive id f hf)⟩
  got k := by
    obtain ⟨hget, hkey, -, hwait⟩ := h.get k
    obtain ⟨f, hf, hfk⟩ := State.keyAt_eq_some_iff.1 hkey
    have hcount := hget.count _ f hf
    rw [hold_self, hwait] at hcount
    exact ⟨f, hf, hfk, hcount⟩
  safe act hact := by
    obtain ⟨s', hs', -⟩ := h.perform hact
    rw [hs']
    rfl
  fifo k := by
    rw [h.queueAt_eq, ← h.since]
    exact h.ok.sorted k
  wake k n := by
    obtain ⟨s', hs', hrep⟩ := h.wakelike k n none
    refine ⟨s', ?_, ?_, ?_⟩
    · rw [h.queueAt_eq, ← length_take]
      exact hs'
    · rw [hrep.queueAt_eq, h.queueAt_eq]
      rfl
    · rw [hrep.waitsAt_eq, h.waitsAt_eq]
      rfl
  requeue k k2 n m hk := by
    rw [h.queueAt_eq, h.waitsAt_eq]
    exact h.requeue_spec hk n m

/-- In every run the table represents queues. -/
theorem rest_of_run (hs : Run State.step State.Enabled (init τ) s) : ∃ a, Rest s a := by
  refine hs.inv (fun s => ∃ a, Rest s a) (fun s act s' h hact hstep => ?_) ⟨_, rep_init⟩
  obtain ⟨a, hrest⟩ := h
  obtain ⟨s₁, hs₁, hrest₁⟩ := hrest.perform hact
  rw [State.step, hs₁, map_some] at hstep
  cases hstep
  exact ⟨_, hrest₁⟩

/-- **Futexes.**  Whatever the threads do, the table is sound between two calls. -/
theorem futex_table_sound {s : State τ} (hs : Run State.step State.Enabled (init τ) s) : Sound s := by
  obtain ⟨a, hrest⟩ := rest_of_run hs
  exact hrest.sound

/-- Three threads wait at one address, and the first of them leaves. -/
def queueRun : List (Act (Fin 3)) :=
  [.waitEnter 0 ⟨1, 4096⟩ (some 7) 7 true, .waitEnter 1 ⟨1, 4096⟩ (some 7) 7 true,
    .waitEnter 2 ⟨1, 4096⟩ (some 7) 7 true, .waitLeave 0]

theorem queueRun_isSome : (queueRun.foldlM (fun s a => if State.Enabled s a then State.step s a else none)
      (init (Fin 3))).isSome := by
  decide

def afterQueueRun : State (Fin 3) := Option.get _ queueRun_isSome

/-- Then one of the other two is woken, and one can be moved. -/
theorem futex_table_queueRun : Sound afterQueueRun ∧ afterQueueRun.queueAt ⟨1, 4096⟩ = [1, 2] ∧
    ∃ s', afterQueueRun.perform (.wakelike ⟨1, 4096⟩ 1 (some (5, ⟨1, 8192⟩))) =
        some ⟨s', [1], some (.ok 2)⟩ ∧ s'.queueAt ⟨1, 8192⟩ = [2] := by
  have hqueue : afterQueueRun.queueAt ⟨1, 4096⟩ = [1, 2] := by decide
  have hqueue2 : afterQueueRun.queueAt ⟨1, 8192⟩ = [] := by decide
  have hsound : Sound afterQueueRun :=
    futex_table_sound (Run.of_guarded (some_get queueRun_isSome).symm)
  obtain ⟨s', hs', -, hmoved, -⟩ := hsound.requeue ⟨1, 4096⟩ ⟨1, 8192⟩ 1 5 (by decide)
  rw [hqueue] at hs' hmoved
  rw [hqueue2] at hmoved
  exact ⟨hsound, hqueue, s', hs', hmoved⟩

end Ish.Futexes
