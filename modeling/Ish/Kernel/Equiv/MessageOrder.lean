import Ish.Kernel.MessageQueue

/-!
# The order of the messages of a queue

The list of a queue is sorted by priority, and the messages of one priority are in the order in which they were sent:
what was sent with a priority is what was received with it, followed by what is still there (`MqQueue.Orders`). The two
calls and the two operations of the descriptor keep this together (`message_order_of_calls`).
-/

namespace Ish.MessageQueue

open List Option

/-- One turn of a call under the lock, and the message it puts in or takes out. A call that has to wait takes another
turn later. -/
def MqQueue.serve (m : MqQueue) (copied : Bool) (c : Call) : MqQueue × Moved :=
  if m.tooLong c then (m, .nothing)
  else
    match m.attempt copied c with
    | none => (m, .nothing)
    | some (m', moved, _) => (m', moved)

/-- The messages that were sent and received, oldest first. -/
structure Log where
  sent : List MqMessage
  received : List MqMessage

/-- A turn is recorded. -/
def Log.turn (l : Log) : Moved → Log
  | .nothing => l
  | .sent msg => { l with sent := l.sent ++ [msg] }
  | .received msg => { l with received := l.received ++ [msg] }

/-- The queue and its log after a sequence of turns. -/
def MqQueue.serveAll (m : MqQueue) (l : Log) : List (Bool × Call) → MqQueue × Log
  | [] => (m, l)
  | (copied, c) :: rest => (m.serve copied c).1.serveAll (l.turn (m.serve copied c).2) rest

/-- **The order of a queue**, with what was sent to it and received from it. -/
structure MqQueue.Orders (m : MqQueue) (l : Log) : Prop where
  sorted : m.messages.Pairwise (·.prio ≥ ·.prio)
  count : m.curmsgs = m.messages.length
  bounded : m.curmsgs ≤ m.maxmsg
  fifo : ∀ p, l.sent.filter (·.prio = p) = l.received.filter (·.prio = p) ++ m.messages.filter (·.prio = p)

/-! ### Putting a message in -/

variable {msg : MqMessage} {l : List MqMessage}

theorem mem_insertMessage {x : MqMessage} (h : x ∈ insertMessage msg l) : x = msg ∨ x ∈ l := by
  induction l with
  | nil => exact .inl (mem_singleton.1 h)
  | cons m rest ih =>
    unfold insertMessage at h
    split_ifs at h
    · rcases mem_cons.1 h with rfl | h
      · exact .inr mem_cons_self
      · exact (ih h).imp_right (mem_cons_of_mem _)
    · exact mem_cons.1 h

theorem length_insertMessage (msg : MqMessage) (l : List MqMessage) : (insertMessage msg l).length = l.length + 1 := by
  induction l with
  | nil => rfl
  | cons m rest ih =>
    unfold insertMessage
    split_ifs
    · simp [ih]
    · rfl

theorem sorted_insertMessage (h : l.Pairwise (·.prio ≥ ·.prio)) : (insertMessage msg l).Pairwise (·.prio ≥ ·.prio) := by
  induction l with
  | nil => exact pairwise_singleton ..
  | cons m rest ih =>
    obtain ⟨hm, hrest⟩ := pairwise_cons.1 h
    unfold insertMessage
    split_ifs with hge
    · refine pairwise_cons.2 ⟨fun x hx => ?_, ih hrest⟩
      rcases mem_insertMessage hx with rfl | hx
      · exact hge
      · exact hm x hx
    · have hlt : m.prio ≤ msg.prio := UInt32.le_of_lt (UInt32.not_le.1 hge)
      refine pairwise_cons.2 ⟨fun x hx => ?_, h⟩
      rcases mem_cons.1 hx with rfl | hx
      · exact hlt
      · exact UInt32.le_trans (hm x hx) hlt

/-- The message comes behind those of its priority. -/
theorem filter_insertMessage (h : l.Pairwise (·.prio ≥ ·.prio)) (p : UInt32) :
    (insertMessage msg l).filter (·.prio = p) = l.filter (·.prio = p) ++ [msg].filter (·.prio = p) := by
  induction l with
  | nil => rfl
  | cons m rest ih =>
    obtain ⟨hm, hrest⟩ := pairwise_cons.1 h
    unfold insertMessage
    split_ifs with hge
    · rw [filter_cons, filter_cons, ih hrest]
      split_ifs <;> rfl
    · by_cases hp : msg.prio = p
      · -- nothing from `m` on has the priority of the message
        have hnone : (m :: rest).filter (·.prio = p) = [] := by
          refine filter_eq_nil_iff.2 fun x hx heq => hge ?_
          have hxp : x.prio = msg.prio := (of_decide_eq_true heq).trans hp.symm
          rcases mem_cons.1 hx with rfl | hx
          · exact hxp ▸ UInt32.le_refl _
          · exact hxp ▸ hm x hx
        rw [filter_cons, hnone]
        simp [hp]
      · rw [filter_cons_of_neg (by simpa using hp)]
        simp [hp]

/-- A message written through a descriptor has the lowest priority, so that its place is at the end. -/
theorem insertMessage_zero (data : List UInt8) (l : List MqMessage) : insertMessage ⟨0, data⟩ l = l ++ [⟨0, data⟩] := by
  induction l with
  | nil => rfl
  | cons m rest ih =>
    unfold insertMessage
    rw [if_pos (UInt32.zero_le), ih]
    rfl

/-! ### Turns -/

variable {m : MqQueue} {l : Log}

/-- What a turn does: it changes nothing, puts a message in its place, or takes the first one out. -/
inductive MqQueue.Turn (m : MqQueue) : MqQueue × Moved → Prop
  | nothing : m.Turn (m, .nothing)
  | sent (msg : MqMessage) (hroom : m.curmsgs < m.maxmsg) :
    m.Turn ({ m with messages := insertMessage msg m.messages, curmsgs := m.curmsgs + 1 }, .sent msg)
  | received (msg : MqMessage) (rest : List MqMessage) (hmsgs : m.messages = msg :: rest) :
    m.Turn ({ m with messages := rest, curmsgs := m.curmsgs - 1 }, .received msg)

theorem MqQueue.turn_receive {len : Nat} {f : Nat → Except Errno Nat} {m' : MqQueue} {moved : Moved}
    {r : Except Errno Nat} (h : m.receive len f = some (m', moved, r)) : m.Turn (m', moved) := by
  unfold MqQueue.receive at h
  cases hmsgs : m.messages with
  | nil =>
    rw [hmsgs] at h
    obtain ⟨-, heq⟩ := ite_none_right_eq_some.1 h
    cases heq
    exact .nothing
  | cons msg rest =>
    rw [hmsgs] at h
    dsimp only at h
    split_ifs at h
    · cases h
      exact .nothing
    · cases h
      exact .received msg rest hmsgs

theorem MqQueue.turn_attempt {copied : Bool} {c : Call} {m' : MqQueue} {moved : Moved} {r : Except Errno Nat}
    (h : m.attempt copied c = some (m', moved, r)) : m.Turn (m', moved) := by
  unfold MqQueue.attempt at h
  cases c with
  | timedsend prio data | write data =>
    dsimp only at h
    split_ifs at h with hfull
    · obtain ⟨-, heq⟩ := ite_none_right_eq_some.1 h
      cases heq
      exact .nothing
    · cases h
      first
      | exact .sent _ (Int.not_le.1 hfull)
      | exact insertMessage_zero data m.messages ▸ .sent ⟨0, data⟩ (Int.not_le.1 hfull)
  | timedreceive len | read len => exact turn_receive h

theorem MqQueue.turn_serve (m : MqQueue) (copied : Bool) (c : Call) : m.Turn (m.serve copied c) := by
  unfold MqQueue.serve
  split_ifs
  · exact .nothing
  · cases h : m.attempt copied c with
    | none => exact .nothing
    | some r => exact turn_attempt h

theorem MqQueue.Orders.turn (h : m.Orders l) {m' : MqQueue} {moved : Moved} (hturn : m.Turn (m', moved)) :
    m'.Orders (l.turn moved) := by
  cases hturn with
  | nothing => exact h
  | sent msg hroom =>
    refine ⟨sorted_insertMessage h.sorted, ?_, hroom, fun p => ?_⟩
    · show m.curmsgs + 1 = ((insertMessage msg m.messages).length : Int)
      rw [length_insertMessage, h.count]
      rfl
    · simp only [Log.turn, filter_append, h.fifo p, filter_insertMessage h.sorted p, append_assoc]
  | received msg rest hmsgs =>
    have hcount := h.count
    have hsorted := h.sorted
    have hbounded := h.bounded
    rw [hmsgs] at hcount hsorted
    refine ⟨(pairwise_cons.1 hsorted).2, ?_, ?_, fun p => ?_⟩
    · show m.curmsgs - 1 = (rest.length : Int)
      rw [hcount, length_cons]
      omega
    · show m.curmsgs - 1 ≤ m.maxmsg
      omega
    · simp only [Log.turn, filter_append, h.fifo p, hmsgs, append_assoc]
      exact congrArg _ (filter_append [msg] rest)

/-- A message that is received is the oldest one of the highest priority. -/
theorem MqQueue.Orders.received (h : m.Orders l) {m' : MqQueue} (hturn : m.Turn (m', .received msg)) :
    (∀ x ∈ m.messages, x.prio ≤ msg.prio) ∧ (m.messages.filter (·.prio = msg.prio)).head? = some msg := by
  cases hturn with
  | received _ rest hmsgs =>
    have hsorted := h.sorted
    rw [hmsgs] at hsorted ⊢
    refine ⟨fun x hx => ?_, by simp⟩
    rcases mem_cons.1 hx with rfl | hx
    · exact UInt32.le_refl _
    · exact (pairwise_cons.1 hsorted).1 x hx

theorem MqQueue.Orders.serveAll (h : m.Orders l) (turns : List (Bool × Call)) :
    (m.serveAll l turns).1.Orders (m.serveAll l turns).2 := by
  induction turns generalizing m l with
  | nil => exact h
  | cons t rest ih => exact ih (h.turn (m.turn_serve t.1 t.2))

/-- **The order of a queue** holds after every sequence of calls on a queue that `mq_open` has made. -/
theorem message_order_of_calls {maxmsg : Int} (hmax : 0 < maxmsg) (name : List UInt8) (nonblock : Bool) (msgsize : Int)
    (turns : List (Bool × Call)) :
    let r := MqQueue.serveAll ⟨name, false, 1, nonblock, maxmsg, msgsize, 0, [], false⟩ ⟨[], []⟩ turns
    r.1.Orders r.2 ∧ ∀ copied c msg, (r.1.serve copied c).2 = .received msg →
      (∀ x ∈ r.1.messages, x.prio ≤ msg.prio) ∧ (r.1.messages.filter (·.prio = msg.prio)).head? = some msg := by
  intro r
  have h : r.1.Orders r.2 := MqQueue.Orders.serveAll ⟨.nil, rfl, hmax.le, fun _ => rfl⟩ turns
  refine ⟨h, fun copied c msg hrec => ?_⟩
  have hturn : r.1.Turn ((r.1.serve copied c).1, .received msg) := hrec ▸ r.1.turn_serve copied c
  exact h.received hturn

/-- Three messages are sent and one is received. -/
theorem message_order_three :
    let r := MqQueue.serveAll ⟨[47], false, 1, true, 2, 8, 0, [], false⟩ ⟨[], []⟩
      [(true, .timedsend 1 [7]), (true, .write [8]), (true, .timedsend 1 [9]), (true, .read 8)]
    r.1.Orders r.2 ∧ r.1.messages = [⟨0, [8]⟩] ∧ r.2.received = [⟨1, [7]⟩] :=
  ⟨(message_order_of_calls (by decide) [47] true 8 _).1, by decide, by decide⟩

end Ish.MessageQueue
