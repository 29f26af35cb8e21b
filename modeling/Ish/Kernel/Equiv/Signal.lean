import Ish.Kernel.Signal
import Ish.Lib.Run

/-!
# Pending signals, and signals that cannot be blocked

Two invariants of all tasks. The pending set is the set of the signals on the queue, each of which is
there once (`Task.Queued`): every path that takes an entry off the queue takes it out of the set, but
`sys_rt_sigtimedwait` does not (`signal_queue_consistent`). `SIGKILL` and `SIGSTOP` are in no mask
(`Task.Killable`): every path filters the mask it sets, but a handler adds the mask of its action as it is
(`kill_stop_unblocked`).
-/

namespace Ish.Signals

open Lib Function List Option

/-! ### Sets of signals -/

theorem has_eq_getLsbD (set : Sigset) (sig : Signal) : has set sig = set.getLsbD (sig.1 - 1) := by
  have hlt : sig.1 - 1 < 64 := by
    have := sig.2.2
    omega
  unfold has hasAny sigMask
  rw [← BitVec.twoPow_eq, BitVec.and_twoPow]
  have hne : BitVec.twoPow 64 (sig.1 - 1) ≠ 0#64 := by
    intro hzero
    have hbit := congrArg (fun x : BitVec 64 => x.getLsbD (sig.1 - 1)) hzero
    simp [hlt] at hbit
  cases set.getLsbD (sig.1 - 1) <;> simp [hne]

theorem getLsbD_sigMask (sig sig' : Signal) : (sigMask sig).getLsbD (sig'.1 - 1) = decide (sig' = sig) := by
  obtain ⟨n, hpos, hlt⟩ := sig
  obtain ⟨n', hpos', hlt'⟩ := sig'
  rw [sigMask, ← BitVec.twoPow_eq, BitVec.getLsbD_twoPow]
  simp only [Subtype.mk.injEq]
  have hiff : (n - 1 < 64 ∧ n - 1 = n' - 1) ↔ n' = n := by omega
  rw [← Bool.decide_and, decide_eq_decide]
  exact hiff

@[simp]
theorem has_zero (sig : Signal) : has 0#64 sig = false := by
  simp [has]

@[simp]
theorem has_add (set : Sigset) (sig sig' : Signal) :
    has (add set sig) sig' = (has set sig' || decide (sig' = sig)) := by
  rw [has_eq_getLsbD, has_eq_getLsbD, add, BitVec.getLsbD_or, getLsbD_sigMask]

@[simp]
theorem has_del (set : Sigset) (sig sig' : Signal) :
    has (del set sig) sig' = (has set sig' && !decide (sig' = sig)) := by
  have hlt : sig'.1 - 1 < 64 := by
    have := sig'.2.2
    omega
  rw [has_eq_getLsbD, has_eq_getLsbD, del, BitVec.getLsbD_and, BitVec.getLsbD_not, getLsbD_sigMask]
  simp [hlt]

/-! ### Tasks -/

variable {τ : Type} [DecidableEq τ] {s s' : Sys τ} {a : Act τ}

/-- A property of all tasks that what happens to one keeps, and that a child has from its parent. -/
theorem Sys.forall_step {P : Task → Prop} (hstep : s.step a = some s') (h : ∀ u task, s.task u = some task → P task)
    (hact : ∀ t b task r, a = .task t b → s.task t = some task → task.act (s.sighand task.sighand) b = some r → P r.1)
    (hfork : ∀ task n, P task → P (task.child n)) : ∀ u task, s'.task u = some task → P task := by
  -- one task is new, the others are as before
  have hput : ∀ t new, P new → ∀ u task, update s.task t (some new) u = some task →
      P task := by
    intro t new hnew u task hu
    rcases update_cases hu with ⟨-, hu⟩ | ⟨-, hu⟩
    · cases hu
      exact hnew
    · exact h u task hu
  cases a with
  | task t b =>
    simp only [Sys.step] at hstep
    split at hstep
    · cases hstep
    · next task htask =>
      obtain ⟨r, hr, rfl⟩ := map_eq_some_iff.1 hstep
      exact hput t r.1 (hact t b task r rfl htask hr)
  | fork t child share =>
    simp only [Sys.step] at hstep
    split at hstep
    · next task htask hchild =>
      split_ifs at hstep
      · cases hstep
        exact hput child _ (hfork task _ (h t task htask))
      · cases hstep
        exact hput child _ (hfork task _ (h t task htask))
    · cases hstep

variable {sighand : Sighand} {r : Task × Sighand}

theorem Task.call_eq_some {t : Task} {x : Task} (h : t.call sighand x = some r) : r = (x, sighand) :=
  (Option.some.inj (ite_none_right_eq_some.1 h).2).symm

variable {t : Task}

/-! ### The queue -/

/-- The pending signals are those on the queue, each once. -/
structure Task.Queued (t : Task) : Prop where
  mem : ∀ sig, has t.pending sig = true ↔ sig ∈ t.queue.map Siginfo.sig
  nodup : (t.queue.map Siginfo.sig).Nodup

variable {t' : Task}

theorem Task.Queued.congr (h : t.Queued) (hpending : t'.pending = t.pending)
    (hqueue : t'.queue = t.queue) : t'.Queued :=
  ⟨fun sig => by rw [hpending, hqueue, h.mem], by rw [hqueue]; exact h.nodup⟩

theorem Task.Queued.deliver (h : t.Queued) (sig : Signal) (info : Siginfo) : (t.deliver sig info).Queued := by
  unfold Task.deliver
  split_ifs with hpending
  · exact h
  · have hnew : sig ∉ t.queue.map Siginfo.sig := fun hmem => hpending ((h.mem sig).2 hmem)
    refine ⟨fun sig' => ?_, ?_⟩
    · simp only [has_add, map_append, map_cons, map_nil, mem_append,
        mem_singleton, Bool.or_eq_true, decide_eq_true_eq, h.mem]
    · simp only [map_append, map_cons, map_nil]
      exact nodup_append.2 ⟨h.nodup, nodup_singleton _, fun x hx y hy heq => by
        rw [mem_singleton] at hy
        exact hnew (hy ▸ heq ▸ hx)⟩

/-- An entry leaves the queue, and its signal the set. -/
theorem Task.Queued.remove (h : t.Queued) {l r : List Siginfo} {e : Siginfo}
    (hqueue : t.queue = l ++ e :: r) (hpending : t'.pending = del t.pending e.sig)
    (hqueue' : t'.queue = l ++ r) : t'.Queued := by
  have hnodup := h.nodup
  rw [hqueue, map_append, map_cons, nodup_middle, nodup_cons, ← map_append] at hnodup
  refine ⟨fun sig => ?_, by rw [hqueue']; exact hnodup.2⟩
  have hmem : sig ∈ t.queue.map Siginfo.sig ↔
      sig = e.sig ∨ sig ∈ (l ++ r).map Siginfo.sig := by
    rw [hqueue]
    simp only [map_append, map_cons, mem_append, mem_cons]
    tauto
  rw [hpending, has_del, hqueue', Bool.and_eq_true, h.mem, hmem, Bool.not_eq_true', decide_eq_false_iff_not]
  constructor
  · rintro ⟨hor, hne⟩
    exact hor.resolve_left hne
  · intro hin
    exact ⟨.inr hin, fun heq => hnodup.1 (heq ▸ hin)⟩

theorem Task.Queued.dequeue (h : t.Queued) {i : Nat} {info : Siginfo}
    (hinfo : t.queue[i]? = some info) : (t.dequeue i info.sig).Queued := by
  obtain ⟨hi, hget⟩ := List.getElem?_eq_some_iff.1 hinfo
  refine h.remove (l := t.queue.take i) (r := t.queue.drop (i + 1)) (e := info) ?_ rfl ?_
  · rw [← hget, cons_getElem_drop_succ, take_append_drop]
  · exact eraseIdx_eq_take_drop_succ t.queue i

theorem Task.receiveSignal_queue (t : Task) (sighand : Sighand) (sig : Signal) (written : Bool) :
    (t.receiveSignal sighand sig written).1.pending = t.pending ∧
      (t.receiveSignal sighand sig written).1.queue = t.queue := by
  unfold Task.receiveSignal
  cases signalAction sighand sig with
  | ignore | stop | kill => exact ⟨rfl, rfl⟩
  | callHandler =>
    dsimp only
    split_ifs <;> exact ⟨rfl, rfl⟩

theorem Task.taken_eq_some {info : Siginfo} (h : t.taken = some info) :
    ∃ blocked i, t.mode = .receiving blocked i ∧ t.queue[i]? = some info := by
  unfold Task.taken at h
  split at h
  · next blocked i hmode => exact ⟨blocked, i, hmode, (filter_eq_some_iff.1 h).1⟩
  · cases h

/-- The loop body takes nothing, or it takes an entry and then stops for the tracer or receives the
signal. -/
theorem Task.receiveNext_cases (t : Task) (sighand : Sighand) (written : Bool) :
    (t.taken = none ∧ ∃ mode, t.receiveNext sighand written = ({ t with mode := mode }, sighand)) ∨
    ∃ info blocked i mode, t.taken = some info ∧ t.mode = .receiving blocked i ∧
      t.queue[i]? = some info ∧
      ((t.traced && info.sig != sigkill) = true ∧
        t.receiveNext sighand written = ({ t.dequeue i info.sig with mode := mode }, sighand) ∨
      (t.traced && info.sig != sigkill) = false ∧
        t.receiveNext sighand written =
          { t.dequeue i info.sig with mode := mode }.receiveSignal sighand info.sig written) := by
  unfold Task.receiveNext
  cases hmode : t.mode with
  | receiving blocked i =>
    dsimp only
    cases htaken : t.taken with
    | none =>
      dsimp only
      split_ifs
      · exact .inl ⟨rfl, _, rfl⟩
      · exact .inl ⟨rfl, _, rfl⟩
    | some info =>
      obtain ⟨blocked', i', hmode', hinfo⟩ := Task.taken_eq_some htaken
      obtain ⟨rfl, rfl⟩ : blocked' = blocked ∧ i' = i := by simpa [hmode] using hmode'.symm
      dsimp only
      cases htraced : (t.traced && info.sig != sigkill) with
      | true => exact .inr ⟨info, _, _, _, rfl, rfl, hinfo, .inl ⟨htraced, if_pos htraced⟩⟩
      | false =>
        have hnot : ¬(t.traced && info.sig != sigkill) = true := by rw [htraced]; simp
        exact .inr ⟨info, _, _, _, rfl, rfl, hinfo, .inr ⟨htraced, if_neg hnot⟩⟩
  | _ =>
    have htaken : t.taken = none := by
      unfold Task.taken
      rw [hmode]
    exact .inl ⟨htaken, t.mode, rfl⟩

theorem Task.Queued.receiveNext (h : t.Queued) (sighand : Sighand) (written : Bool) :
    (t.receiveNext sighand written).1.Queued := by
  obtain ⟨-, mode, hnext⟩ | ⟨info, blocked, i, mode, -, -, hinfo, ⟨-, hnext⟩ | ⟨-, hnext⟩⟩ :=
    t.receiveNext_cases sighand written
  · rw [hnext]
    exact h.congr rfl rfl
  · rw [hnext]
    exact (h.dequeue hinfo).congr rfl rfl
  · rw [hnext]
    obtain ⟨hpending, hqueue⟩ := Task.receiveSignal_queue { t.dequeue i info.sig with mode := mode }
      sighand info.sig written
    exact (h.dequeue hinfo).congr hpending hqueue

theorem Task.Queued.signalfdDequeue (h : t.Queued) (mask : Sigset) : (t.signalfdDequeue mask).Queued := by
  unfold Task.signalfdDequeue
  split
  · exact h
  · next info hfind =>
    obtain ⟨hinfo, l, l', hqueue, hl⟩ := find?_eq_some_iff_append.1 hfind
    refine h.remove hqueue rfl ?_
    show t.queue.eraseP _ = l ++ l'
    rw [hqueue, eraseP_append_right _ fun x hx => by simpa using hl x hx,
      eraseP_cons_of_pos (p := fun info : Siginfo => has mask info.sig) hinfo]

/-- `sys_rt_sigtimedwait` returns without a signal. -/
def Task.TakesNone (t : Task) : TaskAct → Prop
  | .sigwaitEnd false =>
    ∀ set, t.mode = .sigwait set → ∀ info ∈ t.queue, has set info.sig = false
  | _ => True

theorem Task.Queued.sigwaitEnd_iff (h : t.Queued) (set : Sigset) :
    (t.sigwaitEnd set false).Queued ↔ ∀ info ∈ t.queue, has set info.sig = false := by
  constructor
  · intro hafter info hinfo
    by_contra hset
    obtain ⟨x, l, l', hl, hx, hqueue, herase⟩ :=
      exists_of_eraseP hinfo (p := fun info => has set info.sig) (by simpa using hset)
    have hpending : has t.pending x.sig = true :=
      (h.mem x.sig).2 (mem_map_of_mem (by rw [hqueue]; simp))
    have hmem := (hafter.mem x.sig).1 hpending
    rw [show (t.sigwaitEnd set false).queue = l ++ l' from herase] at hmem
    have hnodup := h.nodup
    rw [hqueue, map_append, map_cons, nodup_middle, nodup_cons, ← map_append] at hnodup
    exact hnodup.1 hmem
  · intro hnone
    refine h.congr rfl ?_
    exact eraseP_of_forall_not fun info hinfo => by simp [hnone info hinfo]

/-! ### The masks -/

/-- The masks of the task hold neither `SIGKILL` nor `SIGSTOP`. -/
structure Task.Killable (t : Task) : Prop where
  blocked : hasAny t.blocked unblockableMask = false
  saved : hasAny t.savedMask unblockableMask = false

/-- The action whose handler the loop of `receive_signals` calls next. -/
def Task.handler (t : Task) (sighand : Sighand) : Option Sigaction :=
  match t.taken with
  | none => none
  | some info =>
    if (t.traced && info.sig != sigkill) = false ∧ signalAction sighand info.sig = .callHandler then
      some (sighand info.sig.1)
    else none

variable {sig : Signal}

theorem isBlockable_of_callHandler (h : signalAction sighand sig = .callHandler) : isBlockable sig = true := by
  unfold signalAction at h
  split_ifs at h with hignore hcall
  exact hcall.1

theorem hasAny_sigMask (h : isBlockable sig = true) : hasAny (sigMask sig) unblockableMask = false := by
  unfold isBlockable at h
  rw [Bool.and_eq_true, bne_iff_ne, bne_iff_ne] at h
  have hother : ∀ sig' : Signal, sig ≠ sig' → hasAny (sigMask sig) (sigMask sig') = false := by
    intro sig' hne
    rw [← has, has_eq_getLsbD, getLsbD_sigMask]
    exact decide_eq_false (Ne.symm hne)
  rw [unblockableMask, hasAny_or_right, hother _ h.1, hother _ h.2]
  rfl

theorem hasAny_and_not (set : Sigset) : hasAny (set &&& ~~~unblockableMask) unblockableMask = false :=
  hasAny_and_of_disjoint (by decide)

theorem Task.Killable.setMask (h : t.Killable) (set : Sigset) : (t.setMask set).Killable :=
  ⟨hasAny_and_not set, h.saved⟩

theorem Task.Killable.congr (h : t.Killable) (hblocked : t'.blocked = t.blocked)
    (hsaved : t'.savedMask = t.savedMask) : t'.Killable :=
  ⟨by rw [hblocked]; exact h.blocked, by rw [hsaved]; exact h.saved⟩

/-- A handler adds its mask. -/
theorem Task.Killable.blockFor_iff (h : t.Killable) (action : Sigaction)
    (hsig : isBlockable sig = true) : hasAny (t.blockFor action sig).blocked unblockableMask =
      hasAny action.mask unblockableMask := by
  unfold Task.blockFor
  dsimp only
  rw [hasAny_or]
  have hbefore : hasAny (if hasAny action.flags saNodefer then t.blocked else add t.blocked sig)
      unblockableMask = false := by
    split_ifs
    · exact h.blocked
    · rw [add, hasAny_or, h.blocked, hasAny_sigMask hsig]
      rfl
  rw [hbefore, Bool.false_or]

theorem Task.receiveSignal_masks (t : Task) (sighand : Sighand) (sig : Signal) (written : Bool) :
    (t.receiveSignal sighand sig written).1.savedMask = t.savedMask ∧ (t.receiveSignal sighand sig written).1.blocked =
        if signalAction sighand sig = .callHandler then (t.blockFor (sighand sig.1) sig).blocked else t.blocked := by
  unfold Task.receiveSignal
  cases signalAction sighand sig with
  | ignore | stop | kill => exact ⟨rfl, rfl⟩
  | callHandler =>
    rw [if_pos rfl]
    dsimp only
    split_ifs <;> exact ⟨rfl, rfl⟩

theorem Task.Killable.receiveNext_iff (h : t.Killable) (sighand : Sighand) (written : Bool) :
    (t.receiveNext sighand written).1.savedMask = t.savedMask ∧
      (hasAny (t.receiveNext sighand written).1.blocked unblockableMask = false ↔
        ∀ action, t.handler sighand = some action → hasAny action.mask unblockableMask = false) := by
  obtain ⟨htaken, mode, hnext⟩ |
      ⟨info, blocked, i, mode, htaken, -, -, ⟨htraced, hnext⟩ | ⟨htraced, hnext⟩⟩ :=
    t.receiveNext_cases sighand written
  · have hhandler : t.handler sighand = none := by
      unfold Task.handler
      rw [htaken]
    rw [hnext]
    exact ⟨rfl, iff_of_true h.blocked fun action ha => by rw [hhandler] at ha; cases ha⟩
  · have hhandler : t.handler sighand = none := by
      unfold Task.handler
      rw [htaken]
      exact if_neg (by rw [htraced]; simp)
    rw [hnext]
    exact ⟨rfl, iff_of_true h.blocked fun action ha => by rw [hhandler] at ha; cases ha⟩
  · obtain ⟨hsaved, hblocked⟩ := Task.receiveSignal_masks
      { t.dequeue i info.sig with mode := mode } sighand info.sig written
    rw [hnext]
    refine ⟨hsaved, ?_⟩
    rw [hblocked]
    have hhandler : t.handler sighand =
        if signalAction sighand info.sig = .callHandler then some (sighand info.sig.1) else none := by
      unfold Task.handler
      rw [htaken]
      simp only [htraced, true_and]
    by_cases hcall : signalAction sighand info.sig = .callHandler
    · have hmasks : Task.Killable { t.dequeue i info.sig with mode := mode } := h.congr rfl rfl
      rw [hhandler, if_pos hcall, if_pos hcall, hmasks.blockFor_iff _ (isBlockable_of_callHandler hcall)]
      simp
    · rw [hhandler, if_neg hcall, if_neg hcall]
      exact iff_of_true h.blocked fun action ha => by cases ha

/-- A handler that is called has a mask without `SIGKILL` and `SIGSTOP`. -/
def Task.CallsClean (t : Task) (sighand : Sighand) : TaskAct → Prop
  | .receiveNext _ =>
    ∀ action, t.handler sighand = some action → hasAny action.mask unblockableMask = false
  | _ => True

/-! ### What happens to a task -/

/-- The acts but the loop of `receive_signals` and `sys_rt_sigtimedwait` queue a signal, take one and leave
the set without it, or change masks only. -/
inductive Task.Keeps (t : Task) : Task → Prop
  | deliver (sig : Signal) (info : Siginfo) : t.Keeps (t.deliver sig info)
  | signalfd (mask : Sigset) : t.Keeps (t.signalfdDequeue mask)
  | masks {t' : Task} (hpending : t'.pending = t.pending) (hqueue : t'.queue = t.queue)
    (hmasks : t.Killable → t'.Killable) : t.Keeps t'

theorem Task.Keeps.congr (hpending : t'.pending = t.pending) (hqueue : t'.queue = t.queue)
    (hblocked : t'.blocked = t.blocked) (hsaved : t'.savedMask = t.savedMask) : t.Keeps t' :=
  .masks hpending hqueue fun h => h.congr hblocked hsaved

theorem Task.keeps_sigprocmask (t : Task) (how : How) (set : Sigset) : t.Keeps (t.sigprocmask how set) := by
  cases how with
  | invalid => exact .congr rfl rfl rfl rfl
  | _ => exact .masks rfl rfl fun h => h.setMask _

theorem Task.keeps_receiveBegin (t : Task) : t.Keeps t.receiveBegin := by
  unfold Task.receiveBegin
  split_ifs
  · exact .masks rfl rfl fun h => ⟨h.saved, h.saved⟩
  · exact .congr rfl rfl rfl rfl

theorem Task.keeps_resume (t : Task) (rest : Option (Sigset × Nat)) : t.Keeps (t.resume rest) := by
  unfold Task.resume
  split_ifs <;> exact .congr rfl rfl rfl rfl

variable {b : TaskAct}

theorem Task.act_cases (hact : t.act sighand b = some r) :
    (∃ written, b = .receiveNext written ∧ r = t.receiveNext sighand written) ∨
    (∃ set, b = .sigwaitEnd false ∧ t.mode = .sigwait set ∧ r.1 = t.sigwaitEnd set false) ∨
    t.TakesNone b ∧ t.CallsClean sighand b ∧ t.Keeps r.1 := by
  cases b with
  | deliver sig info =>
    cases hact
    exact .inr (.inr ⟨trivial, trivial, .deliver sig info⟩)
  | send sig info =>
    refine .inr (.inr ⟨trivial, trivial, ?_⟩)
    simp only [Task.act] at hact
    split_ifs at hact
    · cases hact
      exact .congr rfl rfl rfl rfl
    · cases hact
      exact .deliver sig info
  | receiveBegin =>
    obtain rfl := Task.call_eq_some hact
    exact .inr (.inr ⟨trivial, trivial, t.keeps_receiveBegin⟩)
  | receiveNext written =>
    cases hact
    exact .inl ⟨written, rfl, rfl⟩
  | resume =>
    simp only [Task.act] at hact
    split at hact
    · cases hact
      exact .inr (.inr ⟨trivial, trivial, t.keeps_resume _⟩)
    · cases hact
  | sigprocmask how set =>
    obtain rfl := Task.call_eq_some hact
    exact .inr (.inr ⟨trivial, trivial, t.keeps_sigprocmask how set⟩)
  | setMaskTemp mask =>
    obtain rfl := Task.call_eq_some hact
    exact .inr (.inr ⟨trivial, trivial, .masks rfl rfl fun h => ⟨hasAny_and_not mask, h.blocked⟩⟩)
  | sigreturn frame info =>
    cases frame with
    | none =>
      obtain rfl := Task.call_eq_some hact
      exact .inr (.inr ⟨trivial, trivial, .deliver sigsegv info⟩)
    | some mask =>
      obtain rfl := Task.call_eq_some hact
      exact .inr (.inr ⟨trivial, trivial, .masks rfl rfl fun h => h.setMask mask⟩)
  | sigwaitBegin set =>
    obtain ⟨-, hcall⟩ := ite_none_right_eq_some.1 hact
    obtain rfl := Task.call_eq_some hcall
    exact .inr (.inr ⟨trivial, trivial, .congr rfl rfl rfl rfl⟩)
  | sigwaitEnd timedOut =>
    simp only [Task.act] at hact
    split at hact
    · next set hmode =>
      obtain ⟨-, hr⟩ := ite_none_right_eq_some.1 hact
      cases hr
      cases timedOut with
      | true => exact .inr (.inr ⟨trivial, trivial, .congr rfl rfl rfl rfl⟩)
      | false => exact .inr (.inl ⟨set, rfl, hmode, rfl⟩)
    · cases hact
  | signalfd mask =>
    obtain rfl := Task.call_eq_some hact
    exact .inr (.inr ⟨trivial, trivial, .signalfd _⟩)
  | exec =>
    obtain rfl := Task.call_eq_some hact
    exact .inr (.inr ⟨trivial, trivial, .congr rfl rfl rfl rfl⟩)
  | _ =>
    -- `sigaction` and `trace`
    cases hact
    exact .inr (.inr ⟨trivial, trivial, .congr rfl rfl rfl rfl⟩)

theorem Task.Queued.act_iff (h : t.Queued) (hact : t.act sighand b = some r) : r.1.Queued ↔ t.TakesNone b := by
  obtain ⟨t', sighand'⟩ := r
  obtain ⟨written, rfl, hr⟩ | ⟨set, rfl, hmode, rfl⟩ | ⟨hnone, -, hkeeps⟩ := Task.act_cases hact
  · rw [hr]
    exact iff_of_true (h.receiveNext sighand written) trivial
  · rw [h.sigwaitEnd_iff]
    constructor
    · intro hnone set' hmode'
      obtain rfl : set' = set := by simpa [hmode] using hmode'.symm
      exact hnone
    · exact fun hnone => hnone set hmode
  · refine iff_of_true ?_ hnone
    cases hkeeps with
    | deliver sig info => exact h.deliver sig info
    | signalfd mask => exact h.signalfdDequeue mask
    | masks hpending hqueue => exact h.congr hpending hqueue

theorem Task.Killable.act_iff (h : t.Killable) (hact : t.act sighand b = some r) :
    hasAny r.1.savedMask unblockableMask = false ∧
      (hasAny r.1.blocked unblockableMask = false ↔ t.CallsClean sighand b) := by
  obtain ⟨t', sighand'⟩ := r
  obtain ⟨written, rfl, hr⟩ | ⟨set, rfl, -, rfl⟩ | ⟨-, hclean, hkeeps⟩ := Task.act_cases hact
  · obtain ⟨hsaved, hiff⟩ := h.receiveNext_iff sighand written
    rw [hr]
    exact ⟨by rw [hsaved]; exact h.saved, hiff⟩
  · exact ⟨h.saved, iff_of_true h.blocked trivial⟩
  · have hr : t'.Killable := by
      cases hkeeps with
      | deliver sig info =>
        show (t.deliver sig info).Killable
        unfold Task.deliver
        split_ifs
        · exact h
        · exact h.congr rfl rfl
      | signalfd mask =>
        show (t.signalfdDequeue mask).Killable
        unfold Task.signalfdDequeue
        split
        · exact h
        · exact h.congr rfl rfl
      | masks _ _ hmasks => exact hmasks h
    exact ⟨hr.saved, iff_of_true hr.blocked hclean⟩

/-! ### All tasks -/

def Sys.AllQueued (s : Sys τ) : Prop := ∀ u task, s.task u = some task → task.Queued

/-- A step is no `sys_rt_sigtimedwait` that takes a signal. -/
def Sys.TakesNone (s : Sys τ) : Act τ → Prop
  | .task t b => ∀ task, s.task t = some task → task.TakesNone b
  | .fork _ _ _ => True

theorem Sys.AllQueued.step (h : s.AllQueued) (hnone : s.TakesNone a) (hstep : s.step a = some s') : s'.AllQueued := by
  refine Sys.forall_step hstep h (fun t b task r ha htask hact => ?_) fun task n _ => ?_
  · subst ha
    exact ((h t task htask).act_iff hact).2 (hnone task htask)
  · exact ⟨fun sig => by simp [Task.child], nodup_nil⟩

omit [DecidableEq τ] in
theorem Task.queued_first : Task.first.Queued := ⟨fun sig => by simp [Task.first], nodup_nil⟩

theorem boot_task {first u : τ} {task : Task} (h : (boot first).task u = some task) : task = Task.first := by
  simp only [boot, update_apply] at h
  split_ifs at h
  exact (Option.some.inj h).symm

/-- **The pending set and the queue agree**, and no signal is queued twice, in every run in which
`sys_rt_sigtimedwait` takes no signal; and where they agree, a step keeps that if and only if it is no
such call. -/
theorem signal_queue_consistent (first : τ) : (∀ s, Run Sys.step Sys.TakesNone (boot first) s → s.AllQueued) ∧
    ∀ (s s' : Sys τ) (a : Act τ), s.AllQueued → s.step a = some s' → (s'.AllQueued ↔ s.TakesNone a) := by
  refine ⟨fun s hrun => ?_, fun s s' a h hstep => ⟨fun hafter => ?_, fun hnone => h.step hnone hstep⟩⟩
  · refine hrun.inv Sys.AllQueued (fun _ _ _ h hnone hstep => h.step hnone hstep) ?_
    intro u task hu
    rw [boot_task hu]
    exact Task.queued_first
  · cases a with
    | fork => trivial
    | task t b =>
      intro task htask
      simp only [Sys.step, htask] at hstep
      obtain ⟨r, hr, rfl⟩ := map_eq_some_iff.1 hstep
      exact ((h t task htask).act_iff hr).1 (hafter t r.1 (update_self ..))

def sigusr1 : Signal := ⟨10, by decide⟩

/-- A signal comes to a task that waits for it. -/
def sigwaitRun : List (Act (Fin 2)) :=
  [.task 0 (.sigwaitBegin (sigMask sigusr1)), .task 0 (.deliver sigusr1 ⟨sigusr1, 0, 0, []⟩)]

theorem sigwaitRun_isSome : (sigwaitRun.foldlM Sys.step (boot (0 : Fin 2))).isSome := by
  decide

def afterSigwaitRun : Sys (Fin 2) := Option.get _ sigwaitRun_isSome

theorem run_sigwaitRun {ok : Sys (Fin 2) → Act (Fin 2) → Prop}
    (hok : ∀ a ∈ sigwaitRun, ∀ s, ok s a) : Run Sys.step ok (boot 0) afterSigwaitRun :=
  Run.of_foldlM hok (some_get sigwaitRun_isSome).symm

theorem sigwaitEnd_isSome (timedOut : Bool) : (afterSigwaitRun.step (.task 0 (.sigwaitEnd timedOut))).isSome := by
  cases timedOut <;> decide

/-- All is well until the call returns, and also then if its time was over. -/
theorem signal_queue_sigwaitRun : afterSigwaitRun.AllQueued ∧ (Option.get _ (sigwaitEnd_isSome true)).AllQueued := by
  have hrun : Run Sys.step Sys.TakesNone (boot 0) afterSigwaitRun := by
    refine run_sigwaitRun fun a ha s => ?_
    simp only [sigwaitRun, mem_cons, not_mem_nil, or_false] at ha
    rcases ha with rfl | rfl <;> exact fun _ _ => trivial
  have hbefore := (signal_queue_consistent (0 : Fin 2)).1 _ hrun
  exact ⟨hbefore, ((signal_queue_consistent (0 : Fin 2)).2 _ _ (.task 0 (.sigwaitEnd true)) hbefore
    (some_get (sigwaitEnd_isSome true)).symm).2 fun _ _ => trivial⟩

/-- If it returns with the signal, the signal is still pending, and the queue is empty. -/
theorem signal_queue_lost : Run Sys.step anyStep (boot 0) (Option.get _ (sigwaitEnd_isSome false)) ∧
      ((Option.get _ (sigwaitEnd_isSome false)).task 0).map
        (fun task => (has task.pending sigusr1, task.queue)) = some (true, []) :=
  ⟨.tail _ (run_sigwaitRun fun _ _ _ => trivial) trivial
    (some_get (sigwaitEnd_isSome false)).symm, by decide⟩

/-- No task blocks `SIGKILL` or `SIGSTOP`. -/
def Sys.KillStopUnblocked (s : Sys τ) : Prop :=
  ∀ u task, s.task u = some task →
    has task.blocked sigkill = false ∧ has task.blocked sigstop = false

/-- Nor will it when it goes back to a saved mask. -/
def Sys.AllKillable (s : Sys τ) : Prop := ∀ u task, s.task u = some task → task.Killable

/-- A step that calls a handler calls one whose mask is without `SIGKILL` and `SIGSTOP`. -/
def Sys.CallsClean (s : Sys τ) : Act τ → Prop
  | .task t b => ∀ task, s.task t = some task → task.CallsClean (s.sighand task.sighand) b
  | .fork _ _ _ => True

theorem hasAny_unblockableMask_iff (set : Sigset) :
    hasAny set unblockableMask = false ↔ has set sigkill = false ∧ has set sigstop = false := by
  rw [unblockableMask, hasAny_or_right, Bool.or_eq_false_iff]
  rfl

theorem Sys.AllKillable.step (h : s.AllKillable) (hclean : s.CallsClean a)
    (hstep : s.step a = some s') : s'.AllKillable := by
  refine Sys.forall_step hstep h (fun t b task r ha htask hact => ?_) fun task n hparent => ?_
  · subst ha
    obtain ⟨hsaved, hiff⟩ := (h t task htask).act_iff hact
    exact ⟨hiff.2 (hclean task htask), hsaved⟩
  · exact hparent.congr rfl rfl

/-- **`SIGKILL` and `SIGSTOP` are blocked by no task** in every run in which the handlers that are
called have a mask without them; and in a state of such a run a step keeps that if and only if it calls no
other handler. -/
theorem kill_stop_unblocked (first : τ) : (∀ s, Run Sys.step Sys.CallsClean (boot first) s → s.KillStopUnblocked) ∧
    ∀ (s s' : Sys τ) (a : Act τ), Run Sys.step Sys.CallsClean (boot first) s → s.step a = some s' →
      (s'.KillStopUnblocked ↔ s.CallsClean a) := by
  have hall : ∀ s, Run Sys.step Sys.CallsClean (boot first) s → s.AllKillable := by
    intro s hrun
    refine hrun.inv Sys.AllKillable (fun _ _ _ h hclean hstep => h.step hclean hstep) ?_
    intro u task hu
    rw [boot_task hu]
    exact ⟨hasAny_zero_left _, hasAny_zero_left _⟩
  have hunblocked : ∀ s : Sys τ, s.AllKillable → s.KillStopUnblocked := fun s h u task hu =>
    (hasAny_unblockableMask_iff _).1 (h u task hu).blocked
  refine ⟨fun s hrun => hunblocked s (hall s hrun), fun s s' a hrun hstep => ⟨fun hafter => ?_,
    fun hclean => hunblocked s' ((hall s hrun).step hclean hstep)⟩⟩
  cases a with
  | fork => trivial
  | task t b =>
    intro task htask
    simp only [Sys.step, htask] at hstep
    obtain ⟨r, hr, rfl⟩ := map_eq_some_iff.1 hstep
    exact ((hall s hrun t task htask).act_iff hr).2.1
      ((hasAny_unblockableMask_iff _).2 (hafter t r.1 (update_self ..)))

/-- A signal comes whose handler has this mask, and is received. -/
def handlerRun (mask : Sigset) : List (Act (Fin 2)) :=
  [.task 0 (.sigaction 10 ⟨4096, 0, 0, mask⟩), .task 0 (.deliver sigusr1 ⟨sigusr1, 0, 0, []⟩), .task 0 .receiveBegin]

/-- The mask is `SIGTERM` alone, or all signals. -/
theorem handlerRun_isSome (clean : Bool) : ((handlerRun (if clean then 0x4000 else 0xffffffffffffffff)).foldlM Sys.step
      (boot (0 : Fin 2))).isSome := by
  cases clean <;> decide

def afterHandlerRun (clean : Bool) : Sys (Fin 2) := Option.get _ (handlerRun_isSome clean)

theorem handlerCall_isSome (clean : Bool) : ((afterHandlerRun clean).step (.task 0 (.receiveNext true))).isSome := by
  cases clean <;> decide

def afterHandlerCall (clean : Bool) : Sys (Fin 2) := Option.get _ (handlerCall_isSome clean)

theorem run_handlerRun (clean : Bool) {ok : Sys (Fin 2) → Act (Fin 2) → Prop}
    (hok : ∀ a ∈ handlerRun (if clean then 0x4000 else 0xffffffffffffffff), ∀ s, ok s a) :
    Run Sys.step ok (boot 0) (afterHandlerRun clean) :=
  Run.of_foldlM hok (some_get (handlerRun_isSome clean)).symm

/-- A handler that blocks `SIGTERM` is called. -/
theorem kill_stop_unblocked_handlerRun :
    (afterHandlerRun true).KillStopUnblocked ∧ (afterHandlerCall true).KillStopUnblocked ∧
      ((afterHandlerCall true).task 0).map Task.blocked = some 0x4200 := by
  have hrun : Run Sys.step Sys.CallsClean (boot 0) (afterHandlerRun true) := by
    refine run_handlerRun true fun a ha s => ?_
    simp only [handlerRun, mem_cons, not_mem_nil, or_false] at ha
    rcases ha with rfl | rfl | rfl <;> exact fun _ _ => trivial
  have hclean : (afterHandlerRun true).CallsClean (.task 0 (.receiveNext true)) := by
    intro task htask action haction
    have hmask : (((afterHandlerRun true).task 0).bind fun task =>
        (task.handler ((afterHandlerRun true).sighand task.sighand)).map Sigaction.mask) =
        some 0x4000 := by decide
    rw [htask, bind_some, haction, map_some, Option.some.injEq] at hmask
    rw [hmask]
    decide
  exact ⟨(kill_stop_unblocked (0 : Fin 2)).1 _ hrun, ((kill_stop_unblocked (0 : Fin 2)).2 _ _ _ hrun
      (some_get (handlerCall_isSome true)).symm).2 hclean, by decide⟩

/-- A handler is called whose action was given with all signals in its mask. -/
theorem kill_blocked_handlerRun : Run Sys.step anyStep (boot 0) (afterHandlerCall false) ∧
      ((afterHandlerCall false).task 0).map
        (fun task => (has task.blocked sigkill, has task.blocked sigstop)) = some (true, true) :=
  ⟨.tail _ (run_handlerRun false fun _ _ _ => trivial) trivial
    (some_get (handlerCall_isSome false)).symm, by decide⟩

end Ish.Signals
