import Ish.Fs.Pty
import Ish.Lib.Run

/-!
# The stream from a slave to its master

What the master has read and what is in its buffer are together what the slave has reported as written, followed by the
part of a write that is not finished yet (`State.Inv`). This holds as long as no write reports more than it has
written, writes do not get into each other, and the master is told the end of the stream only when its buffer is empty
(`Careful`); `pty_stream_of_run` is the stream's integrity under these conditions.

Each of them is one that the code does not see to: `tty_write` returns the size it was called with, also after a part
of it; `tty_input` releases the lock while it waits in the middle of a write; and `tty_read` looks at the slave, and
whether it is called in the background, before it looks at the buffer (`pty_stream_breaks`).
-/

namespace Ish.Pty

open Lib Function List

variable {Tid : Type} {st : State Tid}

/-- A part of a write is in the buffer or read, and the rest is not. -/
def Phase.midway : Phase → Bool
  | .pushing _ done _ => 0 < done
  | _ => false

/-- No other thread is in the middle of a write. -/
def State.Quiet (st : State Tid) (t : Tid) : Prop := ∀ t', t' ≠ t → (st.threads t').midway = false

/-- A thread may put bytes into the buffer. -/
def State.MayPush (st : State Tid) (t : Tid) (rest : List UInt8) (blocking : Bool) : Prop :=
  rest ≠ [] → st.buf.length < ttyBufSize →
    st.Quiet t ∧ st.ended = false ∧ (blocking = true ∨ rest.length ≤ ttyBufSize - st.buf.length)

/-- A write begins. -/
def State.MayInput (st : State Tid) (t : Tid) : Prop :=
  match st.threads t with
  | .ready _ post blocking => st.MayPush t post blocking
  | _ => True

/-- A write goes on, or is interrupted. -/
def State.MayWake (st : State Tid) (t : Tid) (intr : Bool) : Prop :=
  match st.threads t with
  | .pushing _ done rest => if intr then done = 0 else st.MayPush t rest true
  | _ => True

/-- All of a write is written or nothing, no write gets into another, and the end of the stream is told only when
nothing is left. -/
def Careful (st : State Tid) : Act Tid → Prop
  | .input t => st.MayInput t
  | .wakeWriter t intr => st.MayWake t intr
  | .read t size _ background =>
    st.threads t = .idle → size ≠ 0 → (st.hungUp || st.halfClosed) = true ∨ background = some .eio →
      st.buf = [] ∧ ∀ t, (st.threads t).midway = false
  | .readLoop _ => st.buf = [] → st.halfClosed = true → ∀ t, (st.threads t).midway = false
  | .openSlave _ _ | .closeSlave | .write _ _ _ | .interruptReader _ => True

/-- `part` is what a write in progress has written. -/
def State.InFlight (st : State Tid) (part : List UInt8) : Prop :=
  ((∀ t, (st.threads t).midway = false) ∧ part = []) ∨
    ∃ t buf done rest, st.threads t = .pushing buf done rest ∧ 0 < done ∧ part = buf.take done ∧ st.Quiet t

/-- What is to be written is what the call was given, without what it has written. -/
def Phase.WellFormed : Phase → Prop
  | .ready buf post _ => post = buf
  | .pushing buf done rest => rest = buf.drop done ∧ done < buf.length
  | _ => True

/-- Nothing is lost between what was reported and what was read. -/
structure State.Inv (st : State Tid) : Prop where
  raw : st.oflags.opost = false
  wf : ∀ t, (st.threads t).WellFormed
  stream : ∃ part, st.InFlight part ∧ st.delivered ++ st.buf = st.reported ++ part
  ended : st.ended = true → st.buf = [] ∧ ∀ t, (st.threads t).midway = false

theorem State.inv_init {oflags : OFlags} (h : oflags.opost = false) : (State.init oflags : State Tid).Inv where
  raw := h
  wf _ := trivial
  stream := ⟨[], .inl ⟨fun _ => rfl, rfl⟩, rfl⟩
  ended := nofun

/-- The loop of `tty_input` writes as much as there is room for. -/
theorem pushAll_eq (buf rest : List UInt8) :
    pushAll buf rest = (buf ++ rest.take (ttyBufSize - buf.length), rest.drop (ttyBufSize - buf.length)) := by
  induction rest generalizing buf with
  | nil => simp [pushAll]
  | cons ch rest ih =>
    rw [pushAll]
    split_ifs with hfull
    · rw [Nat.sub_eq_zero_of_le hfull]
      simp
    · obtain ⟨n, hn⟩ : ∃ n, ttyBufSize - buf.length = n + 1 := ⟨ttyBufSize - buf.length - 1, by omega⟩
      have hlen : ttyBufSize - (buf ++ [ch]).length = n := by
        rw [length_append, length_singleton]
        omega
      rw [ih, hlen, hn, take_succ_cons, drop_succ_cons, append_assoc, singleton_append]

variable {done : Nat}

theorem reportedOf_ok (buf : List UInt8) {err : Except Errno Nat} (h : 0 < done ∨ err = .ok 0) :
    reportedOf buf (ttyWriteRet buf.length (ttyInputRet done err)) = buf := by
  unfold ttyInputRet
  by_cases hdone : 0 < done
  · rw [if_pos hdone]
    exact take_length
  · rw [if_neg hdone, h.resolve_left hdone]
    exact take_length

theorem State.Inv.setEnded (hi : st.Inv) (hbuf : st.buf = []) (hmid : ∀ t, (st.threads t).midway = false) :
    State.Inv { st with ended := true } where
  raw := hi.raw
  wf := hi.wf
  stream := hi.stream
  ended _ := ⟨hbuf, hmid⟩

theorem State.Inv.congr (hi : st.Inv) {st' : State Tid} (hbuf : st'.buf = st.buf) (hthreads : st'.threads = st.threads)
    (hoflags : st'.oflags = st.oflags) (hdel : st'.delivered = st.delivered) (hrep : st'.reported = st.reported)
    (hended : st'.ended = st.ended) : st'.Inv := by
  refine ⟨hoflags ▸ hi.raw, hthreads ▸ hi.wf, ?_, ?_⟩
  · obtain ⟨part, hpart, hstream⟩ := hi.stream
    refine ⟨part, ?_, by rw [hdel, hbuf, hrep]; exact hstream⟩
    unfold State.InFlight State.Quiet
    rw [hthreads]
    exact hpart
  · rw [hended, hbuf, hthreads]
    exact hi.ended

theorem State.Inv.openSlave (hi : st.Inv) (locked ctty : Bool) : (st.openSlave locked ctty).Inv := by
  unfold State.openSlave
  split_ifs <;> exact hi.congr rfl rfl rfl rfl rfl rfl

theorem State.Inv.closeSlave (hi : st.Inv) : st.closeSlave.Inv := by
  unfold State.closeSlave
  by_cases hfds : st.fds = 0
  · rw [if_pos hfds]
    exact hi
  · rw [if_neg hfds]
    exact hi.congr rfl rfl rfl rfl rfl rfl

variable [DecidableEq Tid]

variable {t : Tid}

theorem State.InFlight.setPhase {part : List UInt8} (h : st.InFlight part) {p : Phase}
    (hold : (st.threads t).midway = false) (hnew : p.midway = false) : (st.setPhase t p).InFlight part := by
  have hkeep : ∀ t', t' ≠ t → (st.setPhase t p).threads t' = st.threads t' := fun t' hne =>
    update_of_ne hne _ _
  have hself : (st.setPhase t p).threads t = p := update_self _ _ _
  rcases h with ⟨hnone, hpart⟩ | ⟨t₀, buf, done, rest, ht₀, hdone, hpart, hquiet⟩
  · refine .inl ⟨fun t' => ?_, hpart⟩
    by_cases heq : t' = t
    · rw [heq, hself]
      exact hnew
    · rw [hkeep t' heq]
      exact hnone t'
  · have hne : t₀ ≠ t := by
      rintro rfl
      rw [ht₀] at hold
      exact absurd hdone (of_decide_eq_false hold)
    refine .inr ⟨t₀, buf, done, rest, (hkeep t₀ hne).trans ht₀, hdone, hpart, fun t' hne' => ?_⟩
    by_cases heq : t' = t
    · rw [heq, hself]
      exact hnew
    · rw [hkeep t' heq]
      exact hquiet t' hne'

theorem wellFormed_update (hi : st.Inv) {p : Phase} (hp : p.WellFormed) (t' : Tid) :
    (update st.threads t p t').WellFormed := by
  by_cases heq : t' = t
  · rw [heq, update_self]
    exact hp
  · rw [update_of_ne heq]
    exact hi.wf t'

theorem midway_update {p : Phase} (hq : st.Quiet t) (hp : p.midway = false) (t' : Tid) :
    (update st.threads t p t').midway = false := by
  by_cases heq : t' = t
  · rw [heq, update_self]
    exact hp
  · rw [update_of_ne heq]
    exact hq t' heq

theorem State.Inv.setPhase (hi : st.Inv) {p : Phase} (hold : (st.threads t).midway = false)
    (hnew : p.midway = false) (hwf : p.WellFormed) : (st.setPhase t p).Inv where
  raw := hi.raw
  wf := wellFormed_update hi hwf
  stream := by
    obtain ⟨part, hpart, hstream⟩ := hi.stream
    exact ⟨part, hpart.setPhase hold hnew, hstream⟩
  ended h := ⟨(hi.ended h).1, midway_update (fun t' _ => (hi.ended h).2 t') hnew⟩

/-! ### Writing -/

theorem State.InFlight.eq_take {part buf rest : List UInt8} (h : st.InFlight part) (hquiet : st.Quiet t)
    (hphase : st.threads t = .pushing buf done rest ∨ done = 0 ∧ (st.threads t).midway = false) :
    part = buf.take done := by
  rcases h with ⟨hnone, rfl⟩ | ⟨t₀, buf₀, done₀, rest₀, ht₀, hdone, rfl, -⟩
  · have hzero : done = 0 := by
      rcases hphase with ht | ⟨h0, -⟩
      · have hmid := hnone t
        rw [ht] at hmid
        exact Nat.eq_zero_of_not_pos (of_decide_eq_false hmid)
      · exact h0
    rw [hzero, take_zero]
  · have hmid : (st.threads t₀).midway = true := by
      rw [ht₀]
      exact decide_eq_true hdone
    have heq : t₀ = t := by
      by_contra hne
      rw [hquiet t₀ hne] at hmid
      cases hmid
    subst heq
    rcases hphase with ht | ⟨-, hnot⟩
    · rw [ht₀] at ht
      cases ht
      rfl
    · rw [hmid] at hnot
      cases hnot

variable {buf rest : List UInt8}

theorem inputLoop_of_fits {blocking : Bool} (hfits : rest.length ≤ ttyBufSize - st.buf.length) :
    st.inputLoop t buf done rest blocking =
      State.finishWrite { st with buf := st.buf ++ rest } t buf (ttyInputRet (done + rest.length) (.ok 0)) := by
  unfold State.inputLoop
  rw [pushAll_eq, take_of_length_le hfits, drop_of_length_le hfits]
  rfl

theorem inputLoop_of_more {blocking : Bool} (hmore : ttyBufSize - st.buf.length < rest.length) :
    st.inputLoop t buf done rest blocking = if blocking then
        State.setPhase { st with buf := st.buf ++ rest.take (ttyBufSize - st.buf.length) } t
          (.pushing buf (done + (ttyBufSize - st.buf.length)) (rest.drop (ttyBufSize - st.buf.length)))
      else
        State.finishWrite { st with buf := st.buf ++ rest.take (ttyBufSize - st.buf.length) } t buf
          (ttyInputRet (done + (ttyBufSize - st.buf.length)) (.error .eagain)) := by
  have hne : rest.drop (ttyBufSize - st.buf.length) ≠ [] := by
    rw [ne_eq, drop_eq_nil_iff]
    omega
  have hlen : rest.length - (rest.drop (ttyBufSize - st.buf.length)).length = ttyBufSize - st.buf.length := by
    rw [length_drop]
    omega
  unfold State.inputLoop
  rw [pushAll_eq]
  dsimp only
  rw [if_neg hne, hlen]

section

variable (hi : st.Inv)
include hi

theorem State.Inv.finish {buf buf' : List UInt8} {r : Except Errno Nat}
    (hrep : reportedOf buf (ttyWriteRet buf.length r) = buf) (hquiet : st.Quiet t)
    (hstream : st.delivered ++ buf' = st.reported ++ buf) (hopen : st.ended = false) :
    (State.finishWrite { st with buf := buf' } t buf r).Inv where
  raw := hi.raw
  wf := wellFormed_update hi trivial
  stream := by
    refine ⟨[], .inl ⟨midway_update hquiet rfl, rfl⟩, ?_⟩
    show st.delivered ++ buf' = st.reported ++ reportedOf buf (ttyWriteRet buf.length r) ++ []
    rw [hrep, append_nil, hstream]
  ended h := absurd (hopen.symm.trans h) Bool.false_ne_true

theorem State.Inv.fail {buf : List UInt8} (e : Errno) (hmid : (st.threads t).midway = false) :
    (st.finishWrite t buf (ttyInputRet 0 (.error e))).Inv := by
  have hsame : st.finishWrite t buf (ttyInputRet 0 (.error e)) = st.setPhase t .idle := by
    unfold State.finishWrite State.setPhase
    rw [show reportedOf buf (ttyWriteRet buf.length (ttyInputRet 0 (.error e))) = [] from rfl, append_nil]
  rw [hsame]
  exact hi.setPhase hmid rfl trivial

theorem State.Inv.inputLoop {blocking : Bool} (hrest : rest = buf.drop done)
    (hphase : st.threads t = .pushing buf done rest ∧ blocking = true ∨ done = 0 ∧ (st.threads t).midway = false)
    (hmay : st.MayPush t rest blocking) : (st.inputLoop t buf done rest blocking).Inv := by
  have hphase' : st.threads t = .pushing buf done rest ∨ done = 0 ∧ (st.threads t).midway = false :=
    hphase.imp_left (·.1)
  obtain ⟨part, hpart, hstream⟩ := hi.stream
  rcases Nat.lt_or_ge (ttyBufSize - st.buf.length) rest.length with hmore | hfits
  · have hne : rest ≠ [] := by
      rintro rfl
      exact absurd hmore (Nat.not_lt_zero _)
    rw [inputLoop_of_more hmore]
    rcases Nat.eq_zero_or_pos (ttyBufSize - st.buf.length) with hfull | hroom
    · -- nothing can be written
      rw [hfull, take_zero, drop_zero, append_nil, Nat.add_zero]
      rcases hphase with ⟨ht, rfl⟩ | ⟨rfl, hmid⟩
      · rw [if_pos rfl]
        have hsame : st.setPhase t (.pushing buf done rest) = st := by
          unfold State.setPhase
          rw [← ht, update_eq_self]
        rw [hsame]
        exact hi
      · have hlen : 0 < buf.length := by
          rw [hrest, drop_zero] at hne
          exact length_pos_iff.mpr hne
        split_ifs
        · exact hi.setPhase hmid rfl ⟨hrest, hlen⟩
        · exact hi.fail .eagain hmid
    · -- a part of the rest can be written, and the call waits
      obtain ⟨hquiet, hopen, hblock⟩ := hmay hne (by omega)
      rw [if_pos (hblock.resolve_right (by omega))]
      have hlen : done + (ttyBufSize - st.buf.length) < buf.length := by
        rw [hrest, length_drop] at hmore
        omega
      refine ⟨hi.raw, wellFormed_update hi ⟨?_, hlen⟩, ?_, fun h => absurd (hopen.symm.trans h) Bool.false_ne_true⟩
      · rw [hrest, drop_drop]
      · refine ⟨buf.take (done + (ttyBufSize - st.buf.length)), .inr ⟨t, buf, _, _,
          update_self _ _ _, by omega, rfl, ?_⟩, ?_⟩
        · intro t' hne'
          exact (congrArg Phase.midway (update_of_ne hne' _ _)).trans (hquiet t' hne')
        · show st.delivered ++ (st.buf ++ rest.take _) = st.reported ++ _
          rw [← append_assoc, hstream, hpart.eq_take hquiet hphase', append_assoc, take_add, hrest]
  · rw [inputLoop_of_fits hfits]
    rcases eq_or_ne rest [] with hnil | hne
    · -- there is nothing to write
      have hzero : done = 0 ∧ (st.threads t).midway = false := by
        rcases hphase' with ht | h
        · have hwf : rest = buf.drop done ∧ done < buf.length := by
            have hwf := hi.wf t
            rw [ht] at hwf
            exact hwf
          rw [hnil] at hwf
          exact absurd (drop_eq_nil_iff.mp hwf.1.symm) (by omega)
        · exact h
      obtain ⟨rfl, hmid⟩ := hzero
      have hbuf : buf = [] := by rw [← drop_zero (l := buf), ← hrest, hnil]
      have hsame : State.finishWrite { st with buf := st.buf ++ rest } t buf (ttyInputRet (0 + rest.length) (.ok 0)) =
          st.setPhase t .idle := by
        unfold State.finishWrite State.setPhase
        rw [reportedOf_ok buf (.inr rfl), hbuf, hnil, append_nil, append_nil]
      rw [hsame]
      exact hi.setPhase hmid rfl trivial
    · have hpos : 0 < rest.length := length_pos_iff.mpr hne
      obtain ⟨hquiet, hopen, -⟩ := hmay hne (by omega)
      refine hi.finish (reportedOf_ok buf (.inl (by omega))) hquiet ?_ hopen
      rw [← append_assoc, hstream, hpart.eq_take hquiet hphase', append_assoc, hrest, take_append_drop]

theorem State.Inv.ttyWrite (t : Tid) (buf : List UInt8) (blocking : Bool) : (st.ttyWrite t buf blocking).Inv := by
  unfold State.ttyWrite
  cases ht : st.threads t with
  | idle =>
    dsimp only
    split_ifs with hfds hpost
    · exact hi
    · rw [hi.raw] at hpost
      cases hpost
    · exact hi.setPhase (by rw [ht]; rfl) rfl rfl
  | _ => exact hi

theorem State.Inv.ttyInput (hc : st.MayInput t) : (st.ttyInput t).Inv := by
  unfold State.MayInput at hc
  unfold State.ttyInput
  cases ht : st.threads t with
  | ready buf post blocking =>
    rw [ht] at hc
    have hpost : post = buf := by
      have hwf := hi.wf t
      rw [ht] at hwf
      exact hwf
    exact hi.inputLoop (hpost.trans drop_zero.symm) (.inr ⟨rfl, by rw [ht]; rfl⟩) hc
  | _ => exact hi

theorem State.Inv.wakeWriter {intr : Bool} (hc : st.MayWake t intr) : (st.wakeWriter t intr).Inv := by
  unfold State.MayWake at hc
  unfold State.wakeWriter
  cases ht : st.threads t with
  | pushing buf done rest =>
    rw [ht] at hc
    have hwf : rest = buf.drop done ∧ done < buf.length := by
      have hwf := hi.wf t
      rw [ht] at hwf
      exact hwf
    cases intr with
    | true =>
      have hzero : done = 0 := hc
      show (st.finishWrite t buf (ttyInputRet done (.error .eintr))).Inv
      rw [hzero]
      exact hi.fail .eintr (by rw [ht, hzero]; rfl)
    | false => exact hi.inputLoop hwf.1 (.inl ⟨ht, rfl⟩) hc
  | _ => exact hi

/-! ### Reading -/

theorem State.Inv.ttyRead {size : Nat} {nonblock : Bool} {background : Option Errno}
    (hc : Careful st (.read t size nonblock background)) : (st.ttyRead t size nonblock background).Inv := by
  unfold State.ttyRead
  cases ht : st.threads t with
  | idle =>
    dsimp only
    split_ifs with hsize hend heio
    · exact hi
    · obtain ⟨hbuf, hmid⟩ := hc ht hsize (.inl hend)
      exact hi.setEnded hbuf hmid
    · obtain ⟨hbuf, hmid⟩ := hc ht hsize (.inr heio)
      exact hi.setEnded hbuf hmid
    · exact hi
    · exact hi.setPhase (by rw [ht]; rfl) rfl trivial
  | _ => exact hi

theorem State.Inv.readLoop {size : Nat} {nonblock : Bool} (hc : Careful st (.readLoop t))
    (hold : (st.threads t).midway = false) : (st.readLoop t size nonblock).Inv := by
  unfold State.readLoop
  cases hbuf : st.buf with
  | nil =>
    dsimp only
    split_ifs with hclosed
    · have hmid := hc hbuf hclosed
      have hi' : (st.setPhase t .idle).Inv := hi.setPhase hold rfl trivial
      exact hi'.setEnded hbuf (midway_update (fun t' _ => hmid t') rfl)
    · exact hi.setPhase hold rfl trivial
    · exact hi.setPhase hold rfl trivial
  | cons ch rest =>
    obtain ⟨part, hpart, hstream⟩ := hi.stream
    refine ⟨hi.raw, wellFormed_update hi trivial, ⟨part, hpart.setPhase (p := .idle) hold rfl, ?_⟩, ?_⟩
    · show st.delivered ++ (ch :: rest).take size ++ (ch :: rest).drop size = st.reported ++ part
      rw [append_assoc, take_append_drop, ← hbuf]
      exact hstream
    · intro h
      have hempty := (hi.ended h).1
      rw [hbuf] at hempty
      cases hempty

theorem State.Inv.resumeRead (hc : Careful st (.readLoop t)) : (st.resumeRead t).Inv := by
  unfold State.resumeRead
  cases ht : st.threads t with
  | reading _ _ | waiting _ => exact hi.readLoop hc (by rw [ht]; rfl)
  | _ => exact hi

theorem State.Inv.interruptReader (t : Tid) : (st.interruptReader t).Inv := by
  unfold State.interruptReader
  cases ht : st.threads t with
  | waiting size => exact hi.setPhase (by rw [ht]; rfl) rfl trivial
  | _ => exact hi

/-! ### Runs -/

theorem State.Inv.step {st' : State Tid} {a : Act Tid} (hc : Careful st a) (h : st.step a = some st') : st'.Inv := by
  cases a with
  | openSlave locked ctty =>
    cases h
    exact hi.openSlave locked ctty
  | closeSlave =>
    cases h
    exact hi.closeSlave
  | write t buf blocking =>
    cases h
    exact hi.ttyWrite t buf blocking
  | input t =>
    cases h
    exact hi.ttyInput hc
  | wakeWriter t intr =>
    cases h
    exact hi.wakeWriter hc
  | read t size nonblock background =>
    cases h
    exact hi.ttyRead hc
  | readLoop t =>
    cases h
    exact hi.resumeRead hc
  | interruptReader t =>
    cases h
    exact hi.interruptReader t

end

/-- **Integrity of the stream.**  What the master has read is the beginning of what the slave has reported as written,
up to the part of a write that has not returned yet; and when the master sees the end of the stream, it has read
everything that was reported. -/
theorem pty_stream_of_run {oflags : OFlags} (hraw : oflags.opost = false)
    (h : Run State.step Careful (State.init oflags) st) : (∃ part, st.delivered <+: st.reported ++ part ∧
      (part = [] ∨ ∃ t buf done rest, st.threads t = .pushing buf done rest ∧ part = buf.take done)) ∧
      (st.ended = true → st.delivered = st.reported) := by
  have hi : st.Inv := h.inv State.Inv (fun _ _ _ hs hc hstep => hs.step hc hstep) (State.inv_init hraw)
  obtain ⟨part, hpart, hstream⟩ := hi.stream
  refine ⟨⟨part, ⟨st.buf, hstream⟩, ?_⟩, fun hended => ?_⟩
  · rcases hpart with ⟨-, rfl⟩ | ⟨t, buf, done, rest, ht, -, rfl, -⟩
    · exact .inl rfl
    · exact .inr ⟨t, buf, done, rest, ht, rfl⟩
  · obtain ⟨hbuf, hmid⟩ := hi.ended hended
    rcases hpart with ⟨-, rfl⟩ | ⟨t, buf, done, rest, ht, hdone, -, -⟩
    · rwa [hbuf, append_nil, append_nil] at hstream
    · have hnot := hmid t
      rw [ht] at hnot
      exact absurd hdone (of_decide_eq_false hnot)

/-- No output processing. -/
def OFlags.raw : OFlags := ⟨false, false, false, false⟩

/-- The slave writes three bytes and is closed when the master has read them. -/
theorem pty_stream_of_run_read : ∃ st : State Unit, Run State.step Careful (State.init .raw) st ∧
      st.delivered = [1, 2, 3] ∧ st.ended = true ∧ st.delivered = st.reported := by
  have h₁ : Run State.step Careful (State.init .raw) ((State.init .raw : State Unit).openSlave false false) :=
    .single (.openSlave false false) trivial rfl
  have h₂ := h₁.tail (Act.write () [1, 2, 3] true) trivial rfl
  have h₃ := h₂.tail (Act.input ()) (fun _ _ => ⟨fun _ h => absurd rfl h, rfl, .inl rfl⟩) rfl
  have h₄ := h₃.tail (Act.read () 2 false none) (fun _ _ h => h.elim nofun nofun) rfl
  have h₅ := h₄.tail (Act.readLoop ()) nofun rfl
  have h₆ := h₅.tail (Act.read () 8 false none) (fun _ _ h => h.elim nofun nofun) rfl
  have h₇ := h₆.tail (Act.readLoop ()) nofun rfl
  have h₈ := h₇.tail Act.closeSlave trivial rfl
  have h₉ := h₈.tail (Act.read () 8 false none) (fun _ _ _ => ⟨rfl, fun _ => rfl⟩) rfl
  exact ⟨_, h₉, rfl, rfl, (pty_stream_of_run rfl h₉).2 rfl⟩

/-! ### Lost bytes -/

/-- A buffer of zeros and a one that does not fit. -/
def tooLong : List UInt8 := List.replicate ttyBufSize 0 ++ [1]

/-- The state after a write of `tooLong` that does not block. -/
theorem input_tooLong : (((State.init .raw : State Unit).openSlave false false).ttyWrite () tooLong false).ttyInput () =
      ⟨List.replicate ttyBufSize 0, false, 2, true, false, 1, .raw, fun _ => .idle, [], tooLong, false⟩ := by
  have hlen : tooLong.length = ttyBufSize + 1 := by
    unfold tooLong
    rw [length_append, length_replicate, length_singleton]
  have htake : tooLong.take ttyBufSize = List.replicate ttyBufSize 0 := by
    unfold tooLong
    rw [take_left' length_replicate]
  have hstart : (((State.init .raw : State Unit).openSlave false false).ttyWrite () tooLong false).ttyInput () =
      State.inputLoop ⟨[], false, 2, true, false, 1, .raw, fun _ => .ready tooLong tooLong false, [], [], false⟩ ()
        tooLong 0 tooLong false := rfl
  rw [hstart, inputLoop_of_more (by rw [hlen]; exact Nat.lt_succ_self _), if_neg Bool.false_ne_true]
  show State.mk ([] ++ tooLong.take ttyBufSize) false 2 true false 1 .raw (update _ () .idle) []
    ([] ++ reportedOf tooLong _) false = _
  rw [htake, reportedOf_ok tooLong (.inl (by decide)), nil_append, nil_append]
  rfl

theorem read_zeros : State.readLoop (⟨List.replicate ttyBufSize 0, false, 2, true, false, 1, .raw,
        fun _ => .reading ttyBufSize false, [], tooLong, false⟩ : State Unit) () ttyBufSize false =
      ⟨[], false, 2, true, false, 1, .raw, fun _ => .idle, List.replicate ttyBufSize 0, tooLong, false⟩ := by
  have hcons : List.replicate ttyBufSize (0 : UInt8) = 0 :: List.replicate 4095 0 := rfl
  unfold State.readLoop
  rw [hcons]
  dsimp only
  rw [← hcons, drop_of_length_le (Nat.le_of_eq length_replicate),
    take_of_length_le (Nat.le_of_eq length_replicate), nil_append]
  rfl

/-- A write that does not fit loses its end, and the next write follows the gap; and the bytes in the buffer are lost
when the slave is closed. -/
theorem pty_stream_breaks : (∃ st : State Unit, Run State.step anyStep (State.init .raw) st ∧
      st.threads () = .idle ∧ ¬st.delivered <+: st.reported) ∧
    ∃ st : State Unit, Run State.step anyStep (State.init .raw) st ∧
      st.ended = true ∧ st.delivered = [] ∧ st.reported = [1] := by
  have h₁ : Run State.step anyStep (State.init .raw) ((State.init .raw : State Unit).openSlave false false) :=
    .single (.openSlave false false) trivial rfl
  constructor
  · have h₂ := (h₁.tail (Act.write () tooLong false) trivial rfl).tail (Act.input ()) trivial rfl
    rw [input_tooLong] at h₂
    have h₃ := h₂.tail (Act.read () ttyBufSize false none) trivial rfl
    have h₄ := h₃.tail (Act.readLoop ()) trivial (congrArg some read_zeros)
    have h₅ := (h₄.tail (Act.write () [2] true) trivial rfl).tail (Act.input ()) trivial rfl
    have h₆ := (h₅.tail (Act.read () 8 false none) trivial rfl).tail (Act.readLoop ()) trivial rfl
    refine ⟨_, h₆, rfl, ?_⟩
    show ¬List.replicate ttyBufSize 0 ++ [2] <+: List.replicate ttyBufSize 0 ++ [1] ++ [2]
    rw [append_assoc, prefix_append_right_inj]
    decide
  · have h₂ := h₁.tail (Act.write () [1] true) trivial rfl
    have h₃ := h₂.tail (Act.input ()) trivial rfl
    have h₄ := h₃.tail Act.closeSlave trivial rfl
    have h₅ := h₄.tail (Act.read () 8 false none) trivial rfl
    exact ⟨_, h₅, rfl, rfl, rfl⟩

end Ish.Pty
