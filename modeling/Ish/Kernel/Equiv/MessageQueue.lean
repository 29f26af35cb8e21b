import Ish.Kernel.MessageQueue
import Ish.Lib.Run
import Ish.Lib.Tally

/-!
# The life of a message queue

`open_count` counts the descriptors of a queue but not the calls that are still working with it, and a call
takes no reference to its descriptor either. So a queue lives as long as it should only if the step that frees
it finds no call in progress, and the step that closes a descriptor none that is about to read it (`Careful`);
then no step touches a queue that was freed, and a queue is freed exactly when it is unlinked, not open and
nobody waits on it (`queue_lifetime_of_run`).
-/

namespace Ish.MessageQueue

open Lib Function List Option

variable {Tid : Type} {st st' : State Tid} {q : Nat} {m : MqQueue}

/-- The queue that a thread has a pointer to. -/
def Phase.queue : Phase → Option Nat
  | .holds q _ | .checked q _ | .waits q _ => some q
  | .idle _ | .attr _ _ | .opened _ | .got _ _ _ | .stale _ => none

/-- The thread has the descriptor from `f_get`, and not the queue yet. -/
def Phase.has (files fd : Nat) : Phase → Bool
  | .got files' fd' _ => files' = files && fd' = fd
  | _ => false

/-- A call of the thread works with the queue. -/
def State.Uses (st : State Tid) (t : Tid) (q : Nat) : Prop := (st.threads t).queue = some q

instance (st : State Tid) (t : Tid) (q : Nat) : Decidable (st.Uses t q) :=
  inferInstanceAs (Decidable (_ = some q))

/-- A call waits on the queue. -/
def State.Blocked (st : State Tid) (q : Nat) : Prop := ∃ t c, st.threads t = .waits q c

/-- The queue has a descriptor, or `mq_open` is about to make one. -/
def State.Open (st : State Tid) (q : Nat) : Prop := ∃ x, st.refs x = some q

/-- The queue can be accessed. -/
def State.Alive (st : State Tid) (q : Nat) : Prop := ∃ m, st.access q = some m

/-- The queue is unlinked and has one reference. -/
def State.lastRef (st : State Tid) (q : Nat) : Bool :=
  (st.heap q).any fun m => m.unlinked && m.openCount == 1

/-- The queue that a step frees: its name is removed and it has no reference, or its last reference goes. -/
def State.ends (st : State Tid) : Act Tid → Option Nat
  | .mqUnlink (some name) =>
    (st.mqFindName name st.mqQueues).join.filter fun q => (st.heap q).any fun m => m.openCount == 0
  | .close files fd => (st.refs (.slot files fd)).filter st.lastRef
  | .install t .noMemory | .install t .noSlot =>
    match st.threads t with
    | .opened _ => (st.refs (.opening t)).filter st.lastRef
    | _ => none
  | _ => none

/-- The descriptor that a step closes. -/
def Act.closes : Act Tid → Option (Nat × Nat)
  | .close files fd => some (files, fd)
  | _ => none

/-- A queue that is freed is not in use, and a descriptor is not closed between `f_get` and the reading of its
`data`. -/
def Careful (st : State Tid) (a : Act Tid) : Prop :=
  (∀ q ∈ st.ends a, ∀ t, ¬st.Uses t q) ∧ ∀ slot ∈ a.closes, ∀ t, (st.threads t).has slot.1 slot.2 = false

instance [Fintype Tid] (st : State Tid) (a : Act Tid) : Decidable (Careful st a) :=
  inferInstanceAs (Decidable ((∀ q ∈ st.ends a, ∀ t, ¬st.Uses t q) ∧
    ∀ slot ∈ a.closes, ∀ t, (st.threads t).has slot.1 slot.2 = false))

/-- The descriptor that a thread has from `f_get` is still there. -/
def Phase.Fits (refs : Ref Tid → Option Nat) : Phase → Prop
  | .got files fd _ => (refs (.slot files fd)).isSome
  | .stale _ => False
  | _ => True

/-- An `mq_open` that has a reference is before its descriptor, and no call has a descriptor that was freed. -/
structure Agree (refs : Ref Tid → Option Nat) (threads : Tid → Phase) : Prop where
  opening : ∀ {t q}, refs (.opening t) = some q → ∃ nonblock, threads t = .opened nonblock
  fits : ∀ t, (threads t).Fits refs

/-- The references that are counted are those there are, and what is referred to or used is alive. -/
structure State.Inv (st : State Tid) : Prop where
  fresh : ∀ {q}, st.fresh ≤ q → st.heap q = none
  listed : ∀ {q}, q ∈ st.mqQueues ↔ st.Alive q
  nodup : st.mqQueues.Nodup
  counted : ∀ {q m}, st.access q = some m → HasTally st.refs q m.openCount
  alive_of_ref : ∀ {x q}, st.refs x = some q → st.Alive q
  alive_of_use : ∀ {t q}, st.Uses t q → st.Alive q
  kept : ∀ {q m}, st.access q = some m → m.unlinked = true → m.openCount ≠ 0
  gone : ∀ {q m}, st.heap q = some m → m.freed = true → m.unlinked = true
  agree : Agree st.refs st.threads

theorem access_eq_some_iff : st.access q = some m ↔ st.heap q = some m ∧ m.freed = false := by
  unfold State.access
  rw [filter_eq_some_iff, Bool.not_eq_true']

theorem State.inv_init : (State.init : State Tid).Inv where
  fresh _ := rfl
  listed := ⟨nofun, fun ⟨_, h⟩ => nomatch (access_eq_some_iff.mp h).1⟩
  nodup := nodup_nil
  counted h := nomatch (access_eq_some_iff.mp h).1
  alive_of_ref := nofun
  alive_of_use := nofun
  kept h := nomatch (access_eq_some_iff.mp h).1
  gone := nofun
  agree := ⟨nofun, fun _ => trivial⟩

/-- What the invariant says of a queue. -/
theorem State.Inv.freed_iff (hi : st.Inv) (hm : st.heap q = some m) :
    m.freed = true ↔ m.unlinked = true ∧ ¬st.Open q ∧ ¬st.Blocked q := by
  constructor
  · intro hf
    have hdead : ¬st.Alive q := by
      rintro ⟨m', hm'⟩
      obtain ⟨heq, hnot⟩ := access_eq_some_iff.mp hm'
      rw [hm] at heq
      cases heq
      rw [hf] at hnot
      cases hnot
    refine ⟨hi.gone hm hf, fun ⟨x, hx⟩ => hdead (hi.alive_of_ref hx), ?_⟩
    rintro ⟨t, c, ht⟩
    have huse : st.Uses t q := congrArg Phase.queue ht
    exact hdead (hi.alive_of_use huse)
  · rintro ⟨hunl, hopen, -⟩
    by_contra hf
    have hacc : st.access q = some m := access_eq_some_iff.mpr ⟨hm, Bool.eq_false_iff.mpr hf⟩
    have hzero : m.openCount = 0 := (hi.counted hacc).eq_zero_iff.mpr fun x hx => hopen ⟨x, hx⟩
    exact hi.kept hacc hunl hzero

/-! ### Changes of the state -/

variable {refs : Ref Tid → Option Nat} {threads : Tid → Phase} {m' : MqQueue} {l : List Nat}

theorem access_write {heap : Nat → Option MqQueue} {fresh : Nat} {q' : Nat} {r : MqQueue}
    (hheap : heap = update st.heap q (some m')) : (State.mk heap fresh l refs threads).access q' = some r ↔
      q' = q ∧ r = m' ∧ m'.freed = false ∨ q' ≠ q ∧ st.access q' = some r := by
  subst hheap
  rw [access_eq_some_iff, access_eq_some_iff]
  show update st.heap q (some m') q' = some r ∧ _ ↔ _
  by_cases hq : q' = q
  · subst hq
    rw [update_self]
    constructor
    · rintro ⟨h, hf⟩
      cases h
      exact .inl ⟨rfl, rfl, hf⟩
    · rintro (⟨-, rfl, hf⟩ | ⟨hne, -⟩)
      · exact ⟨rfl, hf⟩
      · exact absurd rfl hne
  · rw [update_of_ne hq]
    exact ⟨fun h => .inr ⟨hq, h⟩, fun h => h.elim (fun h => absurd h.1 hq) (·.2)⟩

theorem alive_write {fresh q' : Nat} : State.Alive ⟨update st.heap q (some m'), fresh, l, refs, threads⟩ q' ↔
    q' = q ∧ m'.freed = false ∨ q' ≠ q ∧ st.Alive q' := by
  constructor
  · rintro ⟨r, hr⟩
    rcases (access_write rfl).mp hr with ⟨hq, -, hf⟩ | ⟨hq, hr⟩
    · exact .inl ⟨hq, hf⟩
    · exact .inr ⟨hq, r, hr⟩
  · rintro (⟨hq, hf⟩ | ⟨hq, r, hr⟩)
    · exact ⟨m', (access_write rfl).mpr (.inl ⟨hq, rfl, hf⟩)⟩
    · exact ⟨r, (access_write rfl).mpr (.inr ⟨hq, hr⟩)⟩

theorem State.Inv.lt_fresh (hi : st.Inv) (halive : st.Alive q) : q < st.fresh := by
  obtain ⟨m, hm⟩ := halive
  by_contra hle
  have hnone := hi.fresh (not_lt.1 hle)
  rw [(access_eq_some_iff.mp hm).1] at hnone
  cases hnone

section

variable (hi : st.Inv) (hother : ∀ q', q' ≠ q → ∀ n, HasTally st.refs q' n → HasTally refs q' n)
  (hagree : Agree refs threads)
include hi hother hagree

theorem State.Inv.put {fresh : Nat} (hfresh : st.fresh ≤ fresh) (hq : q < fresh) (hnodup : l.Nodup)
    (hlisted : ∀ q', q' ∈ l ↔ q' = q ∧ m'.freed = false ∨ q' ≠ q ∧ st.Alive q')
    (hlive : m'.freed = false → HasTally refs q m'.openCount ∧ (m'.unlinked = true → m'.openCount ≠ 0))
    (hdead : m'.freed = true → m'.unlinked = true ∧ ∀ x, refs x ≠ some q)
    (huse : ∀ t q', (threads t).queue = some q' → q' = q ∧ m'.freed = false ∨ q' ≠ q ∧ st.Alive q') :
    State.Inv ⟨update st.heap q (some m'), fresh, l, refs, threads⟩ := by
  refine ⟨?_, ?_, hnodup, ?_, ?_, ?_, ?_, ?_, hagree⟩
  · intro q' hq'
    have hle : fresh ≤ q' := hq'
    exact (update_of_ne (by omega) _ _).trans (hi.fresh (by omega))
  · intro q'
    rw [alive_write]
    exact hlisted q'
  · intro q' r hr
    rcases (access_write rfl).mp hr with ⟨rfl, rfl, hf⟩ | ⟨hne, hr⟩
    · exact (hlive hf).1
    · exact hother q' hne _ (hi.counted hr)
  · intro x q' hx
    rw [alive_write]
    by_cases hne : q' = q
    · subst hne
      exact .inl ⟨rfl, Bool.eq_false_iff.mpr fun hf => (hdead hf).2 x hx⟩
    · refine .inr ⟨hne, ?_⟩
      -- what is not alive had no reference, and has none now
      by_contra hnot
      have hnone : HasTally st.refs q' 0 := .zero fun y hy => hnot (hi.alive_of_ref hy)
      exact (hother q' hne 0 hnone).eq_zero_iff.mp rfl x hx
  · intro t q' ht
    rw [alive_write]
    exact huse t q' ht
  · intro q' r hr hunl
    rcases (access_write rfl).mp hr with ⟨-, rfl, hf⟩ | ⟨-, hr⟩
    · exact (hlive hf).2 hunl
    · exact hi.kept hr hunl
  · intro q' r hr hf
    rcases update_cases hr with ⟨-, hr⟩ | ⟨-, hr⟩
    · cases hr
      exact (hdead hf).1
    · exact hi.gone hr hf

theorem State.Inv.write (halive : st.Alive q) (hlive : m'.freed = false) (hcount : HasTally refs q m'.openCount)
    (hkept : m'.unlinked = true → m'.openCount ≠ 0) (huse : ∀ t q', (threads t).queue = some q' → st.Alive q') :
    State.Inv ⟨update st.heap q (some m'), st.fresh, st.mqQueues, refs, threads⟩ := by
  have hiff : ∀ q', st.Alive q' ↔ q' = q ∧ m'.freed = false ∨ q' ≠ q ∧ st.Alive q' := by
    intro q'
    by_cases hq : q' = q
    · subst hq
      exact iff_of_true halive (.inl ⟨rfl, hlive⟩)
    · simp [hq]
  refine hi.put hother hagree le_rfl (hi.lt_fresh halive) hi.nodup (fun q' => hi.listed.trans (hiff q'))
    (fun _ => ⟨hcount, hkept⟩) (fun hf => ?_) fun t q' ht => (hiff q').mp (huse t q' ht)
  rw [hlive] at hf
  cases hf

theorem State.Inv.free (halive : st.Alive q) (hdead : m'.freed = true) (hunl : m'.unlinked = true)
    (hnone : ∀ x, refs x ≠ some q) (huse : ∀ t q', (threads t).queue = some q' → q' ≠ q ∧ st.Alive q') :
    State.Inv ⟨update st.heap q (some m'), st.fresh, st.mqQueues.erase q, refs, threads⟩ := by
  refine hi.put hother hagree le_rfl (hi.lt_fresh halive) (hi.nodup.erase q) (fun q' => ?_) (fun hf => ?_)
    (fun _ => ⟨hunl, hnone⟩) fun t q' ht => .inr (huse t q' ht)
  · rw [hi.nodup.mem_erase_iff, hi.listed, hdead]
    simp
  · rw [hdead] at hf
    cases hf

end

theorem State.Inv.setThreads (hi : st.Inv) (huse : ∀ t q', (threads t).queue = some q' → st.Alive q')
    (hagree : Agree st.refs threads) :
    State.Inv ⟨st.heap, st.fresh, st.mqQueues, st.refs, threads⟩ where
  fresh := hi.fresh
  listed := hi.listed
  nodup := hi.nodup
  counted := hi.counted
  alive_of_ref := hi.alive_of_ref
  alive_of_use := huse _ _
  kept := hi.kept
  gone := hi.gone
  agree := hagree

/-! ### Finding and freeing -/

theorem mqFindName_of_alive (name : List UInt8) (hl : ∀ q ∈ l, st.Alive q) :
    ∃ r, st.mqFindName name l = some r ∧ ∀ q ∈ r, st.Alive q := by
  induction l with
  | nil => exact ⟨none, rfl, nofun⟩
  | cons q rest ih =>
    obtain ⟨hq, hrest⟩ := forall_mem_cons.mp hl
    obtain ⟨m, hm⟩ := hq
    rw [State.mqFindName, hm, bind_some]
    split_ifs with hname
    · refine ⟨some q, rfl, ?_⟩
      intro q' hq'
      cases hq'
      exact ⟨m, hm⟩
    · exact ih hrest

theorem mapM_access_of_alive (hl : ∀ q ∈ l, st.Alive q) : ∃ ms, l.mapM st.access = some ms := by
  induction l with
  | nil => exact ⟨[], rfl⟩
  | cons q rest ih =>
    obtain ⟨⟨m, hm⟩, hrest⟩ := forall_mem_cons.mp hl
    obtain ⟨ms, hms⟩ := ih hrest
    refine ⟨m :: ms, ?_⟩
    rw [mapM_cons, hm, hms]
    rfl

def State.afterFree (st : State Tid) (q : Nat) (m : MqQueue) : State Tid :=
  if m.unlinked = true ∧ m.openCount = 0 then
    { st.setQueue q { m with messages := [], freed := true } with mqQueues := st.mqQueues.erase q }
  else st

theorem mqMaybeFreeUnlocked_eq (hm : st.access q = some m) (hl : ∀ q ∈ st.mqQueues, st.Alive q) :
    st.mqMaybeFreeUnlocked q = some (st.afterFree q m) := by
  obtain ⟨ms, hms⟩ := mapM_access_of_alive fun x hx => hl x ((takeWhile_sublist (· ≠ q)).mem hx)
  unfold State.mqMaybeFreeUnlocked State.afterFree
  rw [hm, bind_some]
  by_cases hfree : m.unlinked = true ∧ m.openCount = 0
  · rw [if_pos hfree, if_neg (by simp [hfree.1, hfree.2]), hms]
    rfl
  · rw [if_neg hfree, if_pos]
    rw [Bool.or_eq_true, Bool.not_eq_true', decide_eq_true_eq]
    rw [Classical.not_and_iff_not_or_not] at hfree
    exact hfree.imp Bool.eq_false_iff.mpr Nat.pos_of_ne_zero

/-- A queue is changed and then perhaps freed. -/
theorem State.Inv.maybeFree_setQueue (hi : st.Inv) (m' : MqQueue) (hlive : m'.freed = false) :
    (st.setQueue q m').mqMaybeFreeUnlocked q = some ((st.setQueue q m').afterFree q m') :=
  mqMaybeFreeUnlocked_eq ((access_write rfl).mpr (.inl ⟨rfl, rfl, hlive⟩)) fun q' hx =>
    alive_write.mpr ((eq_or_ne q' q).imp (⟨·, hlive⟩) (⟨·, hi.listed.mp hx⟩))

theorem setQueue_setQueue (m₁ m₂ : MqQueue) : (st.setQueue q m₁).setQueue q m₂ = st.setQueue q m₂ := by
  unfold State.setQueue
  rw [update_idem]

theorem setQueue_self (hm : st.access q = some m) : st.setQueue q m = st := by
  unfold State.setQueue
  rw [← (access_eq_some_iff.mp hm).1, update_eq_self]

theorem lastRef_eq_true_iff (hm : st.access q = some m) :
    st.lastRef q = true ↔ m.unlinked = true ∧ m.openCount = 1 := by
  unfold State.lastRef
  rw [(access_eq_some_iff.mp hm).1, any_some, Bool.and_eq_true, beq_iff_eq]

variable {t : Tid}

theorem State.Inv.opening_eq_none (hi : st.Inv) (hold : ∀ b, st.threads t ≠ .opened b) :
    st.refs (.opening t) = none := by
  cases hx : st.refs (.opening t) with
  | none => rfl
  | some q =>
    obtain ⟨b, hb⟩ := hi.agree.opening hx
    exact absurd hb (hold b)

/-! ### Steps -/

theorem State.Inv.mqUnlink (hi : st.Inv) (name : List UInt8) :
    ∃ st' r, st.mqUnlink name = some (st', r) ∧ (Careful st (.mqUnlink (some name)) → st'.Inv) := by
  obtain ⟨r, hr, halive⟩ := mqFindName_of_alive name fun q hq => hi.listed.mp hq
  unfold State.mqUnlink
  rw [hr, bind_some]
  cases r with
  | none => exact ⟨st, .error .enoent, rfl, fun _ => hi⟩
  | some q =>
    obtain ⟨m, hm⟩ := halive q rfl
    have hlive := (access_eq_some_iff.mp hm).2
    dsimp only
    rw [hm, bind_some, hi.maybeFree_setQueue { m with unlinked := true } hlive, map_some]
    unfold State.afterFree
    by_cases hfree : m.openCount = 0
    · rw [if_pos ⟨rfl, hfree⟩, setQueue_setQueue]
      refine ⟨_, _, rfl, fun hcare => ?_⟩
      have hends : q ∈ st.ends (.mqUnlink (some name)) := by
        rw [State.ends, hr, mem_def]
        show Option.filter _ (some q) = some q
        rw [filter_eq_some_iff, (access_eq_some_iff.mp hm).1, any_some, beq_iff_eq]
        exact ⟨rfl, hfree⟩
      refine hi.free (fun _ _ _ h => h) hi.agree ⟨m, hm⟩ rfl rfl
        ((hi.counted hm).eq_zero_iff.mp hfree) ?_
      intro t q' ht
      refine ⟨?_, hi.alive_of_use ht⟩
      rintro rfl
      exact hcare.1 q' hends t ht
    · rw [if_neg fun h => hfree h.2]
      refine ⟨_, _, rfl, fun _ => ?_⟩
      have hcount := hi.counted hm
      exact hi.write (fun _ _ _ h => h) hi.agree ⟨m, hm⟩ hlive hcount (fun _ => hfree)
        fun t q' => hi.alive_of_use

variable {r : Except Errno Nat}

/-- A turn of a call changes the messages only. -/
theorem attempt_frame {copied : Bool} {c : Call} {moved : Moved} (h : m.attempt copied c = some (m', moved, r)) :
    m'.freed = m.freed ∧ m'.unlinked = m.unlinked ∧ m'.openCount = m.openCount := by
  unfold MqQueue.attempt at h
  cases c <;> simp only [MqQueue.receive, MqQueue.wouldBlock] at h <;> (try split at h) <;> (try split at h) <;>
    first
    | (obtain ⟨rfl, -⟩ := Prod.mk.inj (Option.some.inj h); exact ⟨rfl, rfl, rfl⟩)
    | cases h

theorem State.Inv.useQueue (hi : st.Inv) (ht : st.Uses t q) {f : MqQueue → State Tid}
    (hf : (∀ b, st.threads t ≠ .opened b) → ∀ m, st.access q = some m → (f m).Inv) :
    ∃ st', (st.access q).map f = some st' ∧ st'.Inv := by
  obtain ⟨m, hm⟩ := hi.alive_of_use ht
  refine ⟨f m, by rw [hm, map_some], hf ?_ m hm⟩
  intro b hb
  unfold State.Uses at ht
  rw [hb] at ht
  cases ht

variable [DecidableEq Tid]

theorem alive_of_update (hi : st.Inv) {p : Phase} (huse : ∀ q ∈ p.queue, st.Alive q) (t' : Tid) (q' : Nat)
    (ht' : (update st.threads t p t').queue = some q') : st.Alive q' := by
  by_cases heq : t' = t
  · subst heq
    rw [update_self] at ht'
    exact huse q' ht'
  · rw [update_of_ne heq] at ht'
    exact hi.alive_of_use ht'

variable {nonblock : Bool}

/-- What holds of the other threads and of the new phase of `t`. -/
theorem fits_update {p : Phase} (hp : p.Fits refs) (hother : ∀ t' ≠ t, (st.threads t').Fits refs) (t' : Tid) :
    (update st.threads t p t').Fits refs := by
  by_cases heq : t' = t
  · rw [heq, update_self]
    exact hp
  · rw [update_of_ne heq]
    exact hother t' heq

/-- The reference of an `mq_open` is no descriptor. -/
theorem Phase.Fits.opening {p : Phase} {v : Option Nat} (hp : p.Fits refs) :
    p.Fits (update refs (.opening t) v) := by
  cases p with
  | got files fd c => exact (congrArg isSome (update_of_ne (show Ref.slot files fd ≠ .opening t from nofun) _ _)).trans hp
  | _ => exact hp

/-- A descriptor is made. -/
theorem Phase.Fits.fill {p : Phase} (hp : p.Fits refs) (files fd q : Nat) :
    p.Fits (update refs (.slot files fd) (some q)) := by
  cases p with
  | got files' fd' c =>
    show (update refs (.slot files fd) (some q) (.slot files' fd')).isSome
    by_cases h : (Ref.slot files' fd' : Ref Tid) = .slot files fd
    · rw [h, update_self]
      rfl
    · rw [update_of_ne h]
      exact hp
  | _ => exact hp

/-- A descriptor is closed that no thread has from `f_get`. -/
theorem Phase.Fits.clear {p : Phase} {files fd : Nat} (hp : p.Fits refs) (hnot : p.has files fd = false) :
    p.Fits (update refs (.slot files fd) none) := by
  cases p with
  | got files' fd' c =>
    have hne : (Ref.slot files' fd' : Ref Tid) ≠ .slot files fd := by
      rintro ⟨⟩
      simp [Phase.has] at hnot
    exact (congrArg isSome (update_of_ne hne _ _)).trans hp
  | _ => exact hp

theorem freeFd_of_not_has {p : Phase} {files fd : Nat} (hnot : p.has files fd = false) : p.freeFd files fd = p := by
  cases p with
  | got files' fd' c => exact if_neg fun h => by simp [Phase.has, h] at hnot
  | _ => rfl

section

variable (hi : st.Inv)
include hi

theorem State.Inv.agree_opened (t : Tid) (q : Nat) (nonblock : Bool) :
    Agree (update st.refs (.opening t) (some q)) (update st.threads t (.opened nonblock)) := by
  refine ⟨fun {t' q'} hx => ?_, fits_update trivial fun t' _ => (hi.agree.fits t').opening⟩
  by_cases heq : t' = t
  · subst heq
    exact ⟨nonblock, update_self _ _ _⟩
  · rw [update_of_ne (fun h => heq (Ref.opening.inj h))] at hx
    obtain ⟨b, hb⟩ := hi.agree.opening hx
    exact ⟨b, (update_of_ne heq _ _).trans hb⟩

section

variable (hold : ∀ b, st.threads t ≠ .opened b)
include hold

theorem State.Inv.setPhase {p : Phase} (huse : ∀ q ∈ p.queue, st.Alive q) (hfits : p.Fits st.refs) :
    (st.setPhase t p).Inv := by
  refine hi.setThreads (alive_of_update hi huse) ⟨fun {t' q'} hx => ?_, fits_update hfits fun t' _ => hi.agree.fits t'⟩
  obtain ⟨b, hb⟩ := hi.agree.opening hx
  have hne : t' ≠ t := by
    rintro rfl
    exact hold b hb
  exact ⟨b, (update_of_ne hne _ _).trans hb⟩

theorem State.Inv.ret : (st.ret t r).Inv :=
  hi.setPhase hold nofun trivial

theorem State.Inv.create {name : List UInt8} {attr : Int × Int} {mem : Bool}
    : (st.create t name nonblock attr mem).Inv := by
  unfold State.create
  split_ifs
  · exact hi.ret hold
  · exact hi.ret hold
  have hnew : st.heap st.fresh = none := hi.fresh (Nat.le_refl _)
  have hnot : ¬st.Alive st.fresh := by
    rintro ⟨m, hm⟩
    rw [(access_eq_some_iff.mp hm).1] at hnew
    cases hnew
  have hfree := hi.opening_eq_none hold
  have hnone : HasTally st.refs st.fresh 0 := .zero fun x hx => hnot (hi.alive_of_ref hx)
  refine hi.put ?_ (hi.agree_opened t st.fresh nonblock) (Nat.le_succ _) (Nat.lt_succ_self _)
    (nodup_cons.mpr ⟨fun hmem => hnot (hi.listed.mp hmem), hi.nodup⟩) ?_ (fun _ => ⟨?_, nofun⟩) nofun ?_
  · intro q' hne n hn
    exact hn.other (by rw [hfree]; nofun) fun h => hne (Option.some.inj h).symm
  · intro q'
    rw [mem_cons, hi.listed]
    by_cases hq : q' = st.fresh
    · exact iff_of_true (.inl hq) (.inl ⟨hq, rfl⟩)
    · simp [hq]
  · exact hnone.fill (by rw [hfree]; nofun)
  · intro t' q' ht'
    have halive := alive_of_update hi (p := .opened nonblock) nofun t' q' ht'
    refine .inr ⟨?_, halive⟩
    rintro rfl
    exact hnot halive

theorem State.Inv.reopen (halive : st.Alive q) : ∃ st', st.reopen t q nonblock = some st' ∧ st'.Inv := by
  have hfree := hi.opening_eq_none hold
  obtain ⟨m, hm⟩ := halive
  refine ⟨_, by rw [State.reopen, hm, map_some], ?_⟩
  refine hi.write ?_ (hi.agree_opened t q nonblock) ⟨m, hm⟩ (access_eq_some_iff.mp hm).2 ?_ (fun _ => Nat.succ_ne_zero _)
    (alive_of_update hi nofun)
  · intro q' hne n hn
    exact hn.other (by rw [hfree]; nofun) fun h => hne (Option.some.inj h).symm
  · exact (hi.counted hm).fill (by rw [hfree]; nofun)

theorem State.Inv.mqOpen {name : List UInt8} {oflag : OFlag} {attr mem : Bool}
    : ∃ st', st.mqOpen t name oflag attr mem = some st' ∧ st'.Inv := by
  obtain ⟨r, hr, halive⟩ := mqFindName_of_alive name fun q hq => hi.listed.mp hq
  unfold State.mqOpen
  rw [hr, bind_some]
  cases r with
  | some q =>
    dsimp only
    split_ifs
    · exact ⟨_, rfl, hi.ret hold⟩
    · exact hi.reopen hold (halive q rfl)
  | none =>
    dsimp only
    split_ifs
    · exact ⟨_, rfl, hi.ret hold⟩
    · exact ⟨_, rfl, hi.setPhase hold nofun trivial⟩
    · exact ⟨_, rfl, hi.create hold⟩

end

theorem State.Inv.mqfdClose {x : Ref Tid} (hx : st.refs x = some q) :
    ∃ st', st.mqfdClose x q = some st' ∧ st'.refs = update st.refs x none ∧ st'.threads = st.threads ∧
      ((st.lastRef q = true → ∀ t, ¬st.Uses t q) → (∀ t, (st.threads t).Fits (update st.refs x none)) →
        st'.Inv) := by
  obtain ⟨m, hm⟩ := hi.alive_of_ref hx
  have hlive := (access_eq_some_iff.mp hm).2
  have hcount : HasTally (update st.refs x none) q (m.openCount - 1) := (hi.counted hm).clear hx nofun
  have hother : ∀ q', q' ≠ q → ∀ n, HasTally st.refs q' n → HasTally (update st.refs x none) q' n := by
    intro q' hne n hn
    refine hn.other ?_ nofun
    rw [hx]
    exact fun h => hne (Option.some.inj h).symm
  have hpos : m.openCount ≠ 0 := fun h0 => (hi.counted hm).eq_zero_iff.mp h0 x hx
  have hopening : ∀ {t q'}, update st.refs x none (.opening t) = some q' →
      ∃ nonblock, st.threads t = .opened nonblock := by
    intro t q' hread
    rcases update_cases hread with ⟨-, hread⟩ | ⟨-, hread⟩
    · cases hread
    · exact hi.agree.opening hread
  unfold State.mqfdClose
  rw [hm, bind_some, hi.maybeFree_setQueue { m with openCount := m.openCount - 1 } hlive,
    map_some]
  unfold State.afterFree
  refine ⟨_, rfl, ?_⟩
  rw [lastRef_eq_true_iff hm]
  by_cases hfree : m.unlinked = true ∧ m.openCount - 1 = 0
  · rw [if_pos hfree, setQueue_setQueue]
    have hone : m.openCount = 1 := by omega
    refine ⟨rfl, rfl, fun hcare hfits => ?_⟩
    refine hi.free hother ⟨hopening, hfits⟩ ⟨m, hm⟩ rfl hfree.1 (hcount.eq_zero_iff.mp hfree.2) ?_
    intro t q' ht
    refine ⟨?_, hi.alive_of_use ht⟩
    rintro rfl
    exact hcare ⟨hfree.1, hone⟩ t ht
  · rw [if_neg hfree]
    refine ⟨rfl, rfl, fun _ hfits => ?_⟩
    refine hi.write hother ⟨hopening, hfits⟩ ⟨m, hm⟩ hlive hcount (fun hunl h0 => hfree ⟨hunl, h0⟩) ?_
    intro t q' ht
    exact hi.alive_of_use ht

theorem State.Inv.move {files fd : Nat}
    (hx : st.refs (.opening t) = some q) (hfree : st.refs (.slot files fd) = none) (hm : st.access q = some m)
    (hlive : m'.freed = false) (hcount : m'.openCount = m.openCount) :
    ((((st.setQueue q m').setRef (.opening t) none).setRef (.slot files fd) (some q)).ret t r).Inv := by
  have hpos : m.openCount ≠ 0 := fun h0 => (hi.counted hm).eq_zero_iff.mp h0 _ hx
  have hslot : update st.refs (.opening t) none (.slot files fd) = none := by
    rw [update_of_ne (show Ref.slot files fd ≠ .opening t from nofun), hfree]
  refine hi.write ?_ ?_ ⟨m, hm⟩ hlive ?_ (fun _ => by rw [hcount]; exact hpos) (alive_of_update hi nofun)
  · intro q' hne n hn
    have hnot : some q ≠ some q' := fun h => hne (Option.some.inj h).symm
    have hcleared := hn.other (i := .opening t) (v := none) (by rw [hx]; exact hnot) nofun
    exact hcleared.other (by rw [hslot]; nofun) hnot
  · refine ⟨fun {t' q'} hread => ?_, fits_update trivial fun t' _ => (hi.agree.fits t').opening.fill _ _ _⟩
    have hread : update (update st.refs (.opening t) none) (.slot files fd) (some q) (.opening t') =
      some q' := hread
    rw [update_of_ne (show Ref.opening t' ≠ .slot files fd from nofun)] at hread
    rcases update_cases hread with ⟨-, hread⟩ | ⟨hne, hread⟩
    · cases hread
    · obtain ⟨b, hb⟩ := hi.agree.opening hread
      exact ⟨b, (update_of_ne (fun h => hne (congrArg _ h)) _ _).trans hb⟩
  · have hcleared := (hi.counted hm).clear hx (v := none) nofun
    have htally := hcleared.fill (i := .slot files fd) (by rw [hslot]; nofun)
    rw [hcount]
    rwa [Nat.sub_add_cancel (Nat.pos_of_ne_zero hpos)] at htally

theorem State.Inv.failOpen (e : Errno) (hx : st.refs (.opening t) = some q) :
    ∃ st', (st.mqfdClose (.opening t) q).map (·.ret t (.error e)) = some st' ∧
      ((st.lastRef q = true → ∀ t, ¬st.Uses t q) → st'.Inv) := by
  obtain ⟨st', hst', hrefs, -, hinv⟩ := hi.mqfdClose hx
  rw [hst']
  refine ⟨_, rfl, fun hcare => ?_⟩
  have hi' := hinv hcare fun t' => (hi.agree.fits t').opening
  refine hi'.setThreads (alive_of_update hi' nofun)
    ⟨fun {t' q'} hread => ?_, fits_update trivial fun t' _ => hi'.agree.fits t'⟩
  have hne : t' ≠ t := by
    rintro rfl
    rw [hrefs, update_self] at hread
    cases hread
  obtain ⟨b, hb⟩ := hi'.agree.opening hread
  exact ⟨b, (update_of_ne hne _ _).trans hb⟩

theorem State.Inv.attempt {c : Call} {copied : Bool} (hold : ∀ b, st.threads t ≠ .opened b)
    (hm : st.access q = some m) : (st.attempt t q m c copied).Inv := by
  have hlive := (access_eq_some_iff.mp hm).2
  unfold State.attempt
  cases hatt : m.attempt copied c with
  | none =>
    refine hi.setPhase hold (fun q' hq' => ?_) trivial
    cases hq'
    exact ⟨m, hm⟩
  | some p =>
    obtain ⟨hfreed, hunl, hcount⟩ := attempt_frame hatt
    have hi' : (st.setQueue q p.1).Inv := by
      refine hi.write (fun _ _ _ h => h) hi.agree ⟨m, hm⟩ (hfreed.trans hlive) ?_ ?_
        fun t q' => hi.alive_of_use
      · rw [hcount]
        exact hi.counted hm
      · rw [hunl, hcount]
        exact hi.kept hm
    exact hi'.ret hold

theorem State.Inv.install {r : Installed} (ht : st.threads t = .opened nonblock) (hx : st.refs (.opening t) = some q) :
    ∃ st', st.install t q nonblock r = some st' ∧ (Careful st (.install t r) → st'.Inv) := by
  have hends : r = .noMemory ∨ r = .noSlot → Careful st (.install t r) → st.lastRef q = true → ∀ t, ¬st.Uses t q := by
    intro hr hcare hlast
    refine hcare.1 q ?_
    have hmem : q ∈ (st.refs (.opening t)).filter st.lastRef := by
      rw [hx, mem_def, filter_some, if_pos hlast]
    rcases hr with rfl | rfl <;> rw [State.ends, ht] <;> exact hmem
  cases r with
  | noMemory =>
    obtain ⟨st', hst', hinv⟩ := hi.failOpen .enomem hx
    exact ⟨st', hst', fun hcare => hinv (hends (.inl rfl) hcare)⟩
  | noSlot =>
    obtain ⟨st', hst', hinv⟩ := hi.failOpen .emfile hx
    exact ⟨st', hst', fun hcare => hinv (hends (.inr rfl) hcare)⟩
  | slot files fd =>
    rw [State.install]
    cases hfree : st.refs (.slot files fd) with
    | some _ => exact ⟨st, rfl, fun _ => hi⟩
    | none =>
      obtain ⟨m, hm⟩ := hi.alive_of_ref hx
      have hlive := (access_eq_some_iff.mp hm).2
      rw [hm]
      refine ⟨_, rfl, fun _ => ?_⟩
      cases nonblock with
      | true => exact hi.move hx hfree hm hlive rfl
      | false =>
        have hmove := hi.move (r := .ok fd) hx hfree hm hlive rfl
        rwa [setQueue_self hm] at hmove

theorem State.Inv.sysMqOpen (t : Tid) (name : Option (List UInt8)) (oflag : OFlag) (attr mem : Bool) :
    ∃ st', st.sysMqOpen t name oflag attr mem = some st' ∧ st'.Inv := by
  unfold State.sysMqOpen
  cases ht : st.threads t with
  | idle r =>
    have hold : ∀ b, st.threads t ≠ .opened b := by rw [ht]; nofun
    rcases name with _ | _ | ⟨c, name⟩
    · exact ⟨_, rfl, hi.ret hold⟩
    · exact ⟨_, rfl, hi.ret hold⟩
    · exact hi.mqOpen hold
  | _ => exact ⟨st, rfl, hi⟩

theorem State.Inv.sysMqOpenAttr (t : Tid) (attr : Option (Int × Int)) (mem : Bool) :
    (st.sysMqOpenAttr t attr mem).Inv := by
  unfold State.sysMqOpenAttr
  cases ht : st.threads t with
  | attr name nonblock =>
    have hold : ∀ b, st.threads t ≠ .opened b := by rw [ht]; nofun
    cases attr with
    | none => exact hi.ret hold
    | some attr => exact hi.create hold
  | _ => exact hi

theorem State.Inv.sysMqOpenInstall (t : Tid) (r : Installed) :
    ∃ st', st.sysMqOpenInstall t r = some st' ∧ (Careful st (.install t r) → st'.Inv) := by
  unfold State.sysMqOpenInstall
  cases ht : st.threads t with
  | opened nonblock =>
    cases hx : st.refs (.opening t) with
    | none => exact ⟨st, rfl, fun _ => hi⟩
    | some q => exact hi.install ht hx
  | _ => exact ⟨st, rfl, fun _ => hi⟩

theorem State.Inv.sysClose (files fd : Nat) :
    ∃ st', (st.sysClose files fd).map (·.1) = some st' ∧ (Careful st (.close files fd) → st'.Inv) := by
  unfold State.sysClose
  cases hx : st.refs (.slot files fd) with
  | none => exact ⟨st, rfl, fun _ => hi⟩
  | some q =>
    obtain ⟨st', hst', -, hthreads, hinv⟩ := hi.mqfdClose hx
    refine ⟨{ st' with threads := fun t => (st'.threads t).freeFd files fd }, by dsimp only; rw [hst']; rfl,
      fun hcare => ?_⟩
    have hnot : ∀ t, (st.threads t).has files fd = false := hcare.2 (files, fd) rfl
    have hi' : st'.Inv := by
      refine hinv (fun hlast => hcare.1 q ?_) fun t => (hi.agree.fits t).clear (hnot t)
      rw [State.ends, hx, mem_def, filter_some, if_pos hlast]
    rw [show (fun t => (st'.threads t).freeFd files fd) = st'.threads from
      funext fun t => freeFd_of_not_has (hthreads ▸ hnot t)]
    exact hi'

theorem State.Inv.enter (t : Tid) (files fd : Nat) (c : Except Errno Call) : (st.enter t files fd c).Inv := by
  unfold State.enter
  cases ht : st.threads t with
  | idle r =>
    have hold : ∀ b, st.threads t ≠ .opened b := by rw [ht]; nofun
    cases hx : st.refs (.slot files fd) with
    | none => exact hi.ret hold
    | some q => exact hi.setPhase hold nofun (congrArg isSome hx)
  | _ => exact hi

theorem State.Inv.fetch (t : Tid) : ∃ st', st.fetch t = some st' ∧ st'.Inv := by
  have hfits := hi.agree.fits t
  unfold State.fetch
  cases ht : st.threads t with
  | got files fd c =>
    have hold : ∀ b, st.threads t ≠ .opened b := by rw [ht]; nofun
    rw [ht] at hfits
    cases c with
    | error e => exact ⟨_, rfl, hi.ret hold⟩
    | ok c =>
      obtain ⟨q, hx⟩ := isSome_iff_exists.1 hfits
      refine ⟨_, congrArg (Option.map _) hx, hi.setPhase hold (fun q' hq' => ?_) trivial⟩
      cases hq'
      exact hi.alive_of_ref hx
  | stale c =>
    rw [ht] at hfits
    exact hfits.elim
  | _ => exact ⟨st, rfl, hi⟩

theorem State.Inv.check (t : Tid) : ∃ st', st.check t = some st' ∧ st'.Inv := by
  unfold State.check
  split
  · rename_i q data ht
    refine hi.useQueue (t := t) (congrArg Phase.queue ht) fun hold m hm => ?_
    split_ifs
    · exact hi.ret hold
    · refine hi.setPhase hold (fun q' hq' => ?_) trivial
      cases hq'
      exact ⟨m, hm⟩
  · exact ⟨st, rfl, hi⟩

theorem State.Inv.lock (t : Tid) (copied : Bool) : ∃ st', st.lock t copied = some st' ∧ st'.Inv := by
  unfold State.lock
  split
  · exact ⟨st, rfl, hi⟩
  · rename_i q c _ ht
    refine hi.useQueue (t := t) (congrArg Phase.queue ht) fun hold m hm => ?_
    unfold State.attemptChecked
    split_ifs
    · exact hi.ret hold
    · exact hi.attempt hold hm
  · rename_i q c ht
    exact hi.useQueue (t := t) (congrArg Phase.queue ht) fun hold m hm => hi.attempt hold hm
  · exact ⟨st, rfl, hi⟩

theorem State.Inv.wake (t : Tid) (err : Option Errno) (copied : Bool) :
    ∃ st', st.wake t err copied = some st' ∧ st'.Inv := by
  unfold State.wake
  cases ht : st.threads t with
  | waits q c =>
    cases err with
    | some e => exact ⟨_, rfl, hi.ret (by rw [ht]; nofun)⟩
    | none => exact hi.useQueue (t := t) (congrArg Phase.queue ht) fun hold m hm => hi.attempt hold hm
  | _ => exact ⟨st, rfl, hi⟩

/-- **A step touches no queue and no descriptor that was freed, and a careful one keeps the invariant.** -/
theorem State.Inv.step (a : Act Tid) : ∃ st', st.step a = some st' ∧ (Careful st a → st'.Inv) := by
  cases a with
  | mqOpen t name oflag attr mem =>
    obtain ⟨st', hst', hi'⟩ := hi.sysMqOpen t name oflag attr mem
    exact ⟨st', hst', fun _ => hi'⟩
  | readAttr t attr mem => exact ⟨_, rfl, fun _ => hi.sysMqOpenAttr t attr mem⟩
  | install t r => exact hi.sysMqOpenInstall t r
  | mqUnlink name =>
    cases name with
    | none => exact ⟨st, rfl, fun _ => hi⟩
    | some name =>
      obtain ⟨st', r, hst', hinv⟩ := hi.mqUnlink name
      refine ⟨st', ?_, hinv⟩
      rw [State.step, State.sysMqUnlink, hst', map_some]
  | close files fd => exact hi.sysClose files fd
  | call t files fd c => exact ⟨_, rfl, fun _ => hi.enter t files fd c⟩
  | fetch t =>
    obtain ⟨st', hst', hi'⟩ := hi.fetch t
    exact ⟨st', hst', fun _ => hi'⟩
  | check t =>
    obtain ⟨st', hst', hi'⟩ := hi.check t
    exact ⟨st', hst', fun _ => hi'⟩
  | lock t copied =>
    obtain ⟨st', hst', hi'⟩ := hi.lock t copied
    exact ⟨st', hst', fun _ => hi'⟩
  | wake t err copied =>
    obtain ⟨st', hst', hi'⟩ := hi.wake t err copied
    exact ⟨st', hst', fun _ => hi'⟩

end

/-! ### Runs -/

/-- **Life of a message queue.**  If no queue is freed and no descriptor closed under a call, no step touches a
queue or a descriptor that was freed, and a queue is freed exactly when it is unlinked, has no open descriptor
and no call waits on it. -/
theorem queue_lifetime_of_run (h : Run State.step Careful State.init st) : (∀ a, (st.step a).isSome) ∧
      ∀ q m, st.heap q = some m → (m.freed = true ↔ m.unlinked = true ∧ ¬st.Open q ∧ ¬st.Blocked q) := by
  have hi : st.Inv := by
    refine h.inv State.Inv ?_ State.inv_init
    intro s a s' hs hcare hstep
    obtain ⟨s'', hs'', hinv⟩ := hs.step a
    rw [hstep] at hs''
    cases hs''
    exact hinv hcare
  refine ⟨fun a => ?_, fun q m hm => hi.freed_iff hm⟩
  obtain ⟨st', hst', -⟩ := hi.step a
  rw [hst']
  rfl

local instance twoThreads : NeZero 2 := ⟨by decide⟩

/-- Thread 0 opens a queue, sends a message and waits for a second one, which thread 1 sends through a descriptor of its
own; then both descriptors are closed and the queue is unlinked. -/
def exchange : List (Act (Fin 2)) :=
  let oflag : OFlag := ⟨true, false, false⟩
  [.mqOpen 0 (some [47, 113]) oflag false true, .install 0 (.slot 0 3),
    .mqOpen 1 (some [47, 113]) oflag false true, .install 1 (.slot 1 3),
    .call 0 0 3 (.ok (.timedsend 1 [7])), .fetch 0, .lock 0 true, .call 0 0 3 (.ok (.timedreceive 16)), .fetch 0,
    .lock 0 true, .call 0 0 3 (.ok (.timedreceive 16)), .fetch 0, .lock 0 true, .call 1 1 3 (.ok (.write [8])), .fetch 1,
    .check 1, .lock 1 true,
    .wake 0 none true, .mqUnlink (some [47, 113]), .close 1 3, .close 0 3]

theorem exchange_runs :
    (exchange.foldlM (fun s a => if Careful s a then s.step a else none) State.init).isSome = true := by
  decide

/-- After the exchange the queue is freed. -/
theorem queue_lifetime_of_run_exchange :
    ∃ st : State (Fin 2), Run State.step Careful State.init st ∧ (∀ a, (st.step a).isSome) ∧
      ∃ m, st.heap 0 = some m ∧ m.freed = true ∧ m.unlinked = true ∧ ¬st.Open 0 ∧ ¬st.Blocked 0 := by
  have hrun : Run State.step Careful State.init (Option.get _ exchange_runs) :=
    Run.of_guarded (l := exchange) (some_get exchange_runs).symm
  have hlife := queue_lifetime_of_run hrun
  have hheap : ((Option.get _ exchange_runs).heap 0).any (·.freed) = true := by decide
  obtain ⟨m, hm, hf⟩ := (any_eq_true _ _).mp hheap
  exact ⟨_, hrun, hlife.1, m, hm, hf, (hlife.2 0 m hm).mp hf⟩

/-- Thread 0 waits for a message; meanwhile its descriptor is closed and the name is unlinked. -/
def closedUnderCall : List (Act (Fin 2)) :=
  [.mqOpen 0 (some [47, 113]) ⟨true, false, false⟩ false true, .install 0 (.slot 0 3),
    .call 0 0 3 (.ok (.timedreceive 16)), .fetch 0, .lock 0 true, .mqUnlink (some [47, 113]), .close 0 3]

theorem closedUnderCall_runs : (closedUnderCall.foldlM State.step State.init).isSome = true := by
  decide

/-- The queue is freed while a call waits on it; when the call wakes up it reads the queue. -/
theorem queue_freed_under_call :
    ∃ st : State (Fin 2), Run State.step anyStep State.init st ∧ st.Blocked 0 ∧ (∃ m, st.heap 0 = some m ∧
      m.freed = true) ∧ st.step (.wake 0 none true) = none := by
  have hrun : Run State.step anyStep State.init (Option.get _ closedUnderCall_runs) :=
    Run.of_foldlM (fun _ _ _ => trivial) (some_get closedUnderCall_runs).symm
  have hheap : ((Option.get _ closedUnderCall_runs).heap 0).any (·.freed) = true := by decide
  exact ⟨_, hrun, ⟨0, .timedreceive 16, by rfl⟩, (any_eq_true _ _).mp hheap, by rfl⟩

end Ish.MessageQueue
