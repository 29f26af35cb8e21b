import Mathlib

/-!
# Futexes

`kernel/futex.c`: the table of futexes, `futex_wait`, `futex_wakelike`, `futex_cmp_requeue` and
`futex_wake_op`.

A futex is named by a number that is never used twice, which stands for its address. All calls
hold `futex_lock` from their `futex_get` to their last `futex_put`; only `futex_wait` gives it up
while it polls, so it makes two steps. Memory for a futex can always be had. `none` stands for a
failed assertion or the use of a freed futex.
-/

namespace Ish.Futexes

/-- What names a futex: the address space, by its pointer, and the address. -/
structure Key where
  mem : Nat
  addr : Nat
  deriving DecidableEq, Repr

/-- `FUTEX_HASH_SIZE` -/
def hashSize : Nat := 2 ^ 12

def Key.hash (k : Key) : Nat := (k.addr ^^^ k.mem) % hashSize

/-- `struct futex`; `key` is its `mem` and `addr`. -/
structure Futex (τ : Type) where
  refcount : Nat
  key : Key
  queue : List τ
  deriving DecidableEq, Repr

/-- The futexes that are allocated, `futex_hash`, the name of the next futex, and for every thread
that is in `futex_wait` its `wait.futex`.

`since` and `clock` are read by nothing: they say when a thread joined the queue it is on. -/
structure State (τ : Type) where
  heap : Nat → Option (Futex τ)
  hash : Nat → List Nat
  next : Nat
  wait : τ → Option Nat
  since : τ → Nat
  clock : Nat

def init (τ : Type) : State τ := ⟨fun _ => none, fun _ => [], 0, fun _ => none, fun _ => 0, 0⟩

/-- The error numbers of `futex_wait` and `futex_cmp_requeue`. -/
inductive Errno where
  | efault
  | eagain
  | enomem
  deriving DecidableEq, Repr

variable {τ : Type}

def State.modify (s : State τ) (id : Nat) (g : Futex τ → Futex τ) : State τ :=
  { s with heap := Function.update s.heap id ((s.heap id).map g) }

/-- The search of a bucket. -/
def State.lookup (s : State τ) (k : Key) : Option Nat :=
  (s.hash k.hash).find? fun id => (s.heap id).any fun f => f.key = k

/-- A new futex at the head of its bucket. -/
def State.create (s : State τ) (k : Key) : State τ :=
  { s with
    heap := Function.update s.heap s.next (some ⟨1, k, []⟩)
    hash := Function.update s.hash k.hash (s.next :: s.hash k.hash)
    next := s.next + 1 }

/-- `futex_get_unlocked` -/
def State.get (s : State τ) (k : Key) : Nat × State τ :=
  match s.lookup k with
  | some id => (id, s.modify id fun f => { f with refcount := f.refcount + 1 })
  | none => (s.next, s.create k)

/-- The futex goes out of its bucket and is freed. -/
def State.free (s : State τ) (id : Nat) (k : Key) : State τ :=
  { s with
    heap := Function.update s.heap id none
    hash := Function.update s.hash k.hash ((s.hash k.hash).erase id) }

/-- `futex_put_unlocked` -/
def State.put (s : State τ) (id : Nat) : Option (State τ) :=
  match s.heap id with
  | none => none
  | some f =>
    if f.refcount = 0 then none
    else if f.refcount - 1 = 0 then
      if f.queue.isEmpty then some (s.free id f.key) else none
    else some (s.modify id fun f => { f with refcount := f.refcount - 1 })

/-- The loop of `futex_wake_queue`, which has woken `n` threads: who is woken, and who stays. -/
def wakeLoop (max n : Nat) : List τ → List τ × List τ
  | [] => ([], [])
  | w :: ws =>
    if n ≥ max then ([], w :: ws)
    else
      let r := wakeLoop max (n + 1) ws
      (w :: r.1, r.2)

def State.queueOf (s : State τ) (id : Nat) : List τ := (s.heap id).elim [] Futex.queue

/-- `futex_wake_queue` -/
def State.wakeQueue (s : State τ) (id max : Nat) : List τ × State τ :=
  let r := wakeLoop max 0 (s.queueOf id)
  (r.1, s.modify id fun f => { f with queue := r.2 })

variable [DecidableEq τ]

/-- The thread now waits for the futex `id`, whose queue it has joined. -/
def State.join (s : State τ) (t : τ) (id : Nat) : State τ :=
  { s with
    wait := Function.update s.wait t (some id)
    since := Function.update s.since t s.clock
    clock := s.clock + 1 }

/-- The body of the requeue loop, for the first thread `w` of the queue of `id`. -/
def State.moveOne (s : State τ) (id id2 : Nat) (w : τ) : Option (State τ) :=
  match s.heap id with
  | none => none
  | some f =>
    -- should be true because this function keeps a reference
    if f.refcount ≤ 1 then none
    else
      let s := s.modify id fun f => { f with queue := f.queue.erase w, refcount := f.refcount - 1 }
      let s := s.modify id2 fun f => { f with queue := f.queue ++ [w], refcount := f.refcount + 1 }
      some (s.join w id2)

/-- The requeue loop, which may still move so many threads: how many it moves, and the new state.
The thread it looks at is always the first of the queue. The next one is found before the thread
is moved, so the loop ends after the last of the queue also if the thread is put back into the same
queue. -/
def State.requeueLoop (id id2 : Nat) : Nat → State τ → Option (Nat × State τ)
  | 0, s => some (0, s)
  | max + 1, s =>
    match s.queueOf id with
    | [] => some (0, s)
    | w :: rest => do
      let s ← s.moveOne id id2 w
      if rest.isEmpty then some (1, s)
      else
        let (n, s) ← State.requeueLoop id id2 max s
        some (n + 1, s)

/-- What a step gives: the new state, the threads that were woken, in this order, and what the call
returns, if it does. -/
structure Outcome (τ : Type) where
  state : State τ
  woken : List τ
  ret : Option (Except Errno Nat)

/-- `futex_put`, and the call returns. -/
def State.finish (s : State τ) (id : Nat) (woken : List τ) (ret : Except Errno Nat) :
    Option (Outcome τ) := do
  let s ← s.put id
  some ⟨s, woken, some ret⟩

/-- `futex_wait` up to its poll loop; `loaded` is the value that `futex_load` finds, and `pipe` says
that the thread has or gets its pipe. -/
def State.waitEnter (s : State τ) (t : τ) (k : Key) (loaded : Option Nat) (val : Nat)
    (pipe : Bool) : Option (Outcome τ) :=
  let (id, s) := s.get k
  match loaded with
  | none => s.finish id [] (.error .efault)
  | some x =>
    if x ≠ val then s.finish id [] (.error .eagain)
    else if !pipe then s.finish id [] (.error .enomem)
    else
      let s := s.modify id fun f => { f with queue := f.queue ++ [t] }
      some ⟨s.join t id, [], none⟩

/-- `list_remove_safe` takes the thread out of whatever queue it is in, and its `futex_wait` ends. -/
def State.unlink (s : State τ) (t : τ) : State τ :=
  { s with
    heap := fun id => (s.heap id).map fun f => { f with queue := f.queue.erase t }
    wait := Function.update s.wait t none }

/-- `futex_wait` after its poll loop, whatever ended it: a wake-up, a signal, a timeout, a new
value. -/
def State.waitLeave (s : State τ) (t : τ) : Option (Outcome τ) :=
  match s.wait t with
  | none => none
  | some id => (s.unlink t).finish id [] (.ok 0)

/-- The second half of a requeue: from the futex `id`, which is held, to `k2`. -/
def State.requeue (s : State τ) (id : Nat) (max : Nat) (k2 : Key) : Option (Nat × State τ) := do
  let (id2, s) := s.get k2
  let (n, s) ← State.requeueLoop id id2 max s
  let s ← s.put id2
  some (n, s)

/-- `futex_wakelike`, for `FUTEX_WAKE_` or, with the number of threads to move and where to,
`FUTEX_REQUEUE_` -/
def State.wakelike (s : State τ) (k : Key) (wakeMax : Nat) (target : Option (Nat × Key)) :
    Option (Outcome τ) :=
  let (id, s) := s.get k
  let (woken, s) := s.wakeQueue id wakeMax
  match target with
  | none => s.finish id woken (.ok woken.length)
  | some (requeueMax, k2) => do
    let (n, s) ← s.requeue id requeueMax k2
    s.finish id woken (.ok (woken.length + n))

/-- `futex_cmp_requeue` -/
def State.cmpRequeue (s : State τ) (k : Key) (wakeMax requeueMax : Nat) (k2 : Key)
    (loaded : Option Nat) (expected : Nat) : Option (Outcome τ) :=
  let (id, s) := s.get k
  match loaded with
  | none => s.finish id [] (.error .efault)
  | some x =>
    if x ≠ expected then s.finish id [] (.error .eagain)
    else do
      let (woken, s) := s.wakeQueue id wakeMax
      let (n, s) ← s.requeue id requeueMax k2
      s.finish id woken (.ok (woken.length + n))

/-- `futex_wake_op` after its access to memory, whose comparison gave `cmpTrue`. -/
def State.wakeOp (s : State τ) (k : Key) (max1 : Nat) (k2 : Key) (max2 : Nat) (cmpTrue : Bool) :
    Option (Outcome τ) :=
  let (id, s) := s.get k
  let (woken, s) := s.wakeQueue id max1
  if cmpTrue then do
    let (id2, s) := s.get k2
    let (woken2, s) := s.wakeQueue id2 max2
    let s ← s.put id2
    s.finish id (woken ++ woken2) (.ok (woken.length + woken2.length))
  else s.finish id woken (.ok woken.length)

/-- What a thread does between two releases of `futex_lock`. -/
inductive Act (τ : Type) where
  | waitEnter (t : τ) (k : Key) (loaded : Option Nat) (val : Nat) (pipe : Bool)
  | waitLeave (t : τ)
  | wakelike (k : Key) (wakeMax : Nat) (target : Option (Nat × Key))
  | cmpRequeue (k : Key) (wakeMax requeueMax : Nat) (k2 : Key) (loaded : Option Nat)
      (expected : Nat)
  | wakeOp (k : Key) (max1 : Nat) (k2 : Key) (max2 : Nat) (cmpTrue : Bool)

/-- A thread enters `futex_wait` only once before it leaves it. -/
def State.Enabled (s : State τ) : Act τ → Prop
  | .waitEnter t _ _ _ _ => s.wait t = none
  | .waitLeave t => s.wait t ≠ none
  | _ => True

instance (s : State τ) : ∀ act, Decidable (s.Enabled act)
  | .waitEnter t _ _ _ _ => inferInstanceAs (Decidable (s.wait t = none))
  | .waitLeave t => inferInstanceAs (Decidable (s.wait t ≠ none))
  | .wakelike _ _ _ | .cmpRequeue _ _ _ _ _ _ | .wakeOp _ _ _ _ _ => inferInstanceAs (Decidable True)

/-- A call, with what it says. -/
def State.perform (s : State τ) : Act τ → Option (Outcome τ)
  | .waitEnter t k loaded val pipe => s.waitEnter t k loaded val pipe
  | .waitLeave t => s.waitLeave t
  | .wakelike k wakeMax target => s.wakelike k wakeMax target
  | .cmpRequeue k wakeMax requeueMax k2 loaded expected =>
    s.cmpRequeue k wakeMax requeueMax k2 loaded expected
  | .wakeOp k max1 k2 max2 cmpTrue => s.wakeOp k max1 k2 max2 cmpTrue

/-- One step. -/
def State.step (s : State τ) (a : Act τ) : Option (State τ) := (s.perform a).map Outcome.state

end Ish.Futexes
