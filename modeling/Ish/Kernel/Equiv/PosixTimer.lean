import Ish.Kernel.PosixTimer
import Ish.Lib.Run
import Mathlib.Tactic.SplitIfs

/-!
# Timers that do not reach their target

`timer_settime` accepts the id behind the table and a timer that does not exist, `timer_delete` any id, and
`timer_create` returns with `pids_lock` if there is no such thread. A timer for the process is sent to pid 0, which
nobody has, and one for a thread to the leader. A child has the timers of its parent in its table, and the timers of a
process that has gone are given the table that was freed.

In a run without such steps (`System.Safe`) each timer belongs to one element of one table (`System.Sound`), and reaches
its target whenever it expires.
-/

namespace Ish.PosixTimers

open Lib Function

/-- The pid that the sigevent names, in a process with this leader. -/
def Sigevent.target (e : Sigevent) (leader : Nat) : Option Nat :=
  match e.method with
  | .signal => some leader
  | .threadId => some e.tid
  | _ => none

/-- What an expiry should do: the signal goes to the target, if there is one. -/
def Sigevent.outcome (e : Sigevent) (leader : Nat) (exist : Nat → Bool) : Outcome :=
  match (e.target leader).filter exist with
  | none => .nothing
  | some pid => .sent pid e.signo

/-- What every expiry does is what it should do; no task has the pid 0. -/
def PosixTimer.Reaches (timer : PosixTimer) (leader : Nat) : Prop :=
  ∀ exist : Nat → Bool, exist 0 = false → timer.callback exist = timer.asked.outcome leader exist

variable {γ : Type}

/-- The timers are those in the tables, each in one place, and reach their targets; no lock is held. -/
structure System.Sound (s : System γ) : Prop where
  unlocked : s.pidsLock = false
  fresh : ∀ t, s.heap t ≠ none → t < s.next
  table : ∀ g G id t, s.groups g = some G → (G.timers id).timer = some t → s.heap t = some (g, id)
  owned : ∀ t g id, s.heap t = some (g, id) →
    ∃ G, s.groups g = some G ∧ (G.timers id).timer = some t ∧ (G.timers id).Reaches G.leader

/-- The access is in bounds and to a timer. -/
def Group.Allows (G : Group) (a : Access) : Prop :=
  a.id < timersMax ∧ (a.deref = true → (G.timers a.id).timer.isSome)

/-- The timer that a call is about, if it can read its arguments. -/
def Call.timer : Call → Option Nat
  | .settime id true | .gettime id | .delete id => some id
  | _ => none

/-- What a call should do: its accesses are in bounds and to timers, the error for one that does not exist is `EINVAL`,
and no lock is kept. -/
structure Group.Fine (G : Group) (timer : Option Nat) (r : System γ × List Access × Int) : Prop where
  allows : ∀ a ∈ r.2.1, G.Allows a
  einval : ∀ id, timer = some id → ¬(id < timersMax ∧ (G.timers id).timer.isSome) → r.2.2 = -22
  unlocked : r.1.pidsLock = false

/-- The timer is for nobody, or for the leader with a signal that can be sent. -/
def Sigevent.Good (e : Sigevent) (leader : Nat) : Prop :=
  e.method = .none ∨ e.method = .threadId ∧ e.tid = leader ∧ e.signo ≠ 0 ∧ e.signo < numSigs

/-- The conditions of the calls. -/
def Group.Safe (G : Group) : Call → Prop
  | .create clockOk sigev exist putOk => clockOk = true → ∀ e ∈ sigev, e.method ≠ .other →
    (e.method = .threadId → exist e.tid = true) ∧
      (putOk = true → (∃ id < timersMax, (G.timers id).timer = none) → e.Good G.leader)
  | .settime id getOk => getOk = true → id ≤ timersMax → id < timersMax ∧ (G.timers id).timer.isSome
  | .gettime _ => True
  | .delete id => id < timersMax

/-- The conditions of the steps: a call is safe, and a process that forks or has gone has no timers. -/
def System.Safe (s : System γ) : Act γ → Prop
  | .call g c => ∀ G ∈ s.groups g, G.Safe c
  | .fork g _ _ | .reap g => ∀ G ∈ s.groups g, ∀ id, (G.timers id).timer = none
  | .init _ _ => True

theorem sound_systemInit : (systemInit γ).Sound :=
  ⟨rfl, nofun, nofun, nofun⟩

theorem reaches_of_good {leader : Nat} {e : Sigevent} (t : Option Nat) (h : e.Good leader) :
    (⟨t, e.method ≠ .none, if e.method = .threadId then leader else 0, e.signo, e⟩ : PosixTimer).Reaches leader := by
  intro exist _
  obtain ⟨method, signo, tid⟩ := e
  rcases h with hnone | ⟨hthread, htid, hzero, hsig⟩
  · obtain rfl : method = .none := hnone
    rfl
  · obtain rfl : method = .threadId := hthread
    obtain rfl : tid = leader := htid
    have hzero : signo ≠ 0 := hzero
    have hsig : signo < numSigs := hsig
    cases hexist : exist tid <;>
      simp [PosixTimer.callback, Sigevent.outcome, Sigevent.target, sendSignal, hexist, hzero, hsig, Option.filter]

theorem Group.slot_spec {G : Group} {id : Nat} (h : G.slot = some id) :
    id < timersMax ∧ (G.timers id).timer = none :=
  ⟨List.mem_range.1 (List.mem_of_find?_eq_some h), by simpa using List.find?_some h⟩

theorem Group.allows_looked (G : Group) {n : Nat} (hn : n ≤ timersMax) : ∀ a ∈ looked n, G.Allows a := by
  intro a ha
  obtain ⟨id, hid, rfl⟩ := List.mem_map.1 ha
  exact ⟨Nat.lt_of_lt_of_le (List.mem_range.1 hid) hn, nofun⟩

variable {s s' : System γ} {g : γ} {G : Group} {id t : Nat}

section

variable [DecidableEq γ]

theorem timers_setTimer {timer : PosixTimer} {g' : γ} {G' : Group}
    (hG : (s.setTimer g G id timer).groups g' = some G') (hg : s.groups g = some G) :
    ∃ G₀, s.groups g' = some G₀ ∧ G'.leader = G₀.leader ∧ ∀ id', G'.timers id' =
      if g' = g ∧ id' = id then timer else G₀.timers id' := by
  by_cases heq : g' = g
  · subst heq
    have hG' : update s.groups g' (some { G with timers := update G.timers id timer }) g' = some G' := hG
    rw [update_self] at hG'
    cases hG'
    refine ⟨G, hg, rfl, fun id' => ?_⟩
    simp [update_apply]
  · refine ⟨G', ?_, rfl, fun id' => by simp [heq]⟩
    rwa [show (s.setTimer g G id timer).groups g' = s.groups g' from update_of_ne heq _ _] at hG

theorem groups_setTimer (hg : s.groups g = some G) (id : Nat) (timer : PosixTimer) (g' : γ) {G₀ : Group}
    (hG₀ : s.groups g' = some G₀) : ∃ G', (s.setTimer g G id timer).groups g' = some G' := by
  by_cases heq : g' = g
  · subst heq
    exact ⟨_, update_self _ _ _⟩
  · exact ⟨G₀, (update_of_ne heq _ _).trans hG₀⟩

theorem System.Sound.put (hs : s.Sound) (hg : s.groups g = some G) (hfree : (G.timers id).timer = none) {e : Sigevent}
    (he : e.Good G.leader) : (s.put g G id e).Sound := by
  have hnew : s.heap s.next = none := by
    by_contra hne
    exact absurd (hs.fresh _ hne) (Nat.lt_irrefl _)
  refine ⟨hs.unlocked, fun t ht => ?_, fun g' G' id' t hG' ht => ?_, fun t g' id' ht => ?_⟩
  · show t < s.next + 1
    by_cases heq : t = s.next
    · omega
    · exact Nat.lt_succ_of_lt (hs.fresh t fun h => ht ((update_of_ne heq _ _).trans h))
  · show update s.heap s.next (some (g, id)) t = _
    obtain ⟨G₀, hG₀, -, htimers⟩ := timers_setTimer hG' hg
    rw [htimers] at ht
    by_cases heq : g' = g ∧ id' = id
    · rw [if_pos heq] at ht
      obtain ⟨rfl, rfl⟩ := heq
      cases ht
      exact update_self ..
    · rw [if_neg heq] at ht
      have hold := hs.table g' G₀ id' t hG₀ ht
      have hne : t ≠ s.next := fun h => by rw [h, hnew] at hold; cases hold
      exact (update_of_ne hne _ _).trans hold
  · rcases update_cases ht with ⟨rfl, hat⟩ | ⟨hne, hold⟩
    · cases hat
      refine ⟨_, update_self .., ?_⟩
      dsimp only
      rw [update_self]
      exact ⟨rfl, reaches_of_good _ he⟩
    · obtain ⟨G₀, hG₀, hin, hreach⟩ := hs.owned t g' id' hold
      obtain ⟨G', hG'⟩ := groups_setTimer hg id _ g' hG₀
      obtain ⟨G₁, hG₁, hleader, htimers⟩ := timers_setTimer hG' hg
      obtain rfl : G₁ = G₀ := Option.some.inj (hG₁.symm.trans hG₀)
      refine ⟨G', hG', ?_⟩
      have hnot : ¬(g' = g ∧ id' = id) := by
        rintro ⟨rfl, rfl⟩
        obtain rfl : G₁ = G := Option.some.inj (hG₀.symm.trans hg)
        rw [hfree] at hin
        cases hin
      rw [htimers, if_neg hnot, hleader]
      exact ⟨hin, hreach⟩

theorem System.Sound.free (hs : s.Sound) (hg : s.groups g = some G) (ht : (G.timers id).timer = some t) :
    (s.free g G id t).Sound := by
  have hat := hs.table g G id t hg ht
  refine ⟨hs.unlocked, fun t' ht' => hs.fresh t' fun h => ht' ?_, fun g' G' id' t' hG' ht' => ?_,
    fun t' g' id' ht' => ?_⟩
  · show update s.heap t none t' = none
    rw [update_apply, h, ite_self]
  · show update s.heap t none t' = _
    obtain ⟨G₀, hG₀, -, htimers⟩ := timers_setTimer hG' hg
    rw [htimers] at ht'
    split_ifs at ht' with heq
    have hold := hs.table g' G₀ id' t' hG₀ ht'
    have hne : t' ≠ t := by
      rintro rfl
      rw [hat] at hold
      cases hold
      exact heq ⟨rfl, rfl⟩
    exact (update_of_ne hne _ _).trans hold
  · rcases update_cases ht' with ⟨-, hnone⟩ | ⟨hne, hold⟩
    · cases hnone
    · obtain ⟨G₀, hG₀, hin, hreach⟩ := hs.owned t' g' id' hold
      obtain ⟨G', hG'⟩ := groups_setTimer hg id { G.timers id with timer := none } g' hG₀
      obtain ⟨G₁, hG₁, hleader, htimers⟩ := timers_setTimer hG' hg
      obtain rfl : G₁ = G₀ := Option.some.inj (hG₁.symm.trans hG₀)
      refine ⟨G', hG', ?_⟩
      have hnot : ¬(g' = g ∧ id' = id) := by
        rintro ⟨rfl, rfl⟩
        obtain rfl : G₁ = G := Option.some.inj (hG₀.symm.trans hg)
        exact hne (Option.some.inj (hin.symm.trans ht))
      rw [htimers, if_neg hnot, hleader]
      exact ⟨hin, hreach⟩

/-- A group without timers comes or goes. -/
theorem System.Sound.setGroup (hs : s.Sound) (hold : ∀ G ∈ s.groups g, ∀ id, (G.timers id).timer = none)
    (new : Option Group) (hnew : ∀ G ∈ new, ∀ id, (G.timers id).timer = none) :
    System.Sound { s with groups := update s.groups g new } := by
  refine ⟨hs.unlocked, hs.fresh, fun g' G' id' t hG' ht => ?_, fun t g' id' ht => ?_⟩
  · rcases update_cases hG' with ⟨-, hG'⟩ | ⟨-, hG'⟩
    · rw [hnew G' hG' id'] at ht
      cases ht
    · exact hs.table g' G' id' t hG' ht
  · obtain ⟨G₀, hG₀, hin, hreach⟩ := hs.owned t g' id' ht
    refine ⟨G₀, (update_of_ne ?_ _ _).trans hG₀, hin, hreach⟩
    rintro rfl
    rw [hold G₀ hG₀ id'] at hin
    cases hin

/-- **A safe call** does what it should, and the state is sound after it. -/
theorem System.Sound.call (hs : s.Sound) (hg : s.groups g = some G) {c : Call} (hsafe : G.Safe c) :
    G.Fine c.timer (s.call g G c) ∧ (s.call g G c).1.Sound := by
  have hfine : ∀ {timer l err}, (∀ a ∈ l, G.Allows a) → (timer = none ∨ err = -22) →
      G.Fine timer (s, l, err) ∧ s.Sound := by
    intro timer l err hl herr
    refine ⟨⟨hl, fun id hid _ => herr.resolve_left ?_, hs.unlocked⟩, hs⟩
    rw [hid]
    nofun
  have hthere : ∀ {id : Nat} {r : System γ}, id < timersMax ∧ (G.timers id).timer.isSome → r.Sound →
      G.Fine (some id) (r, [⟨id, true⟩], 0) ∧ r.Sound := by
    intro id r h hr
    refine ⟨⟨List.forall_mem_singleton.2 ⟨h.1, fun _ => h.2⟩, ?_, hr.unlocked⟩, hr⟩
    rintro _ ⟨⟩ hnot
    exact absurd h hnot
  cases c with
  | create clockOk sigev exist putOk =>
    cases clockOk with
    | false => exact hfine nofun (.inl rfl)
    | true =>
      cases sigev with
      | none => exact hfine nofun (.inl rfl)
      | some e =>
        have hsafe := hsafe rfl e rfl
        unfold System.call
        simp only [Bool.not_true, Bool.false_eq_true, if_false]
        by_cases hother : e.method = .other
        · rw [if_pos hother]
          exact hfine nofun (.inl rfl)
        by_cases hmissing : e.method = .threadId ∧ exist e.tid = false
        · have hthread := (hsafe hother).1 hmissing.1
          rw [hmissing.2] at hthread
          cases hthread
        rw [if_neg hother, if_neg hmissing]
        cases hslot : G.slot with
        | none => exact hfine (G.allows_looked (Nat.le_refl _)) (.inl rfl)
        | some id =>
          obtain ⟨hid, hfree⟩ := Group.slot_spec hslot
          cases putOk with
          | false => exact hfine (G.allows_looked hid) (.inl rfl)
          | true =>
            have hs' := hs.put hg hfree ((hsafe hother).2 rfl ⟨id, hid, hfree⟩)
            exact ⟨⟨G.allows_looked hid, nofun, hs'.unlocked⟩, hs'⟩
  | settime id getOk =>
    cases getOk with
    | false => exact hfine nofun (.inl rfl)
    | true =>
      show G.Fine (some id) (if id > timersMax then _ else _) ∧ System.Sound (Prod.fst (if id > timersMax then _ else _))
      split_ifs with hbig
      · exact hfine nofun (.inr rfl)
      · exact hthere (hsafe rfl (Nat.le_of_not_lt hbig)) hs
  | gettime id =>
    show G.Fine (some id) (if id ≥ timersMax then _ else _) ∧ System.Sound (Prod.fst (if id ≥ timersMax then _ else _))
    split_ifs with hbig hnone
    · exact hfine nofun (.inr rfl)
    · exact hfine (List.forall_mem_singleton.2 ⟨Nat.lt_of_not_le hbig, nofun⟩) (.inr rfl)
    · exact hthere ⟨Nat.lt_of_not_le hbig, by simpa [Option.isSome_iff_ne_none] using hnone⟩ hs
  | delete id =>
    have hid : id < timersMax := hsafe
    unfold System.call
    dsimp only
    cases ht : (G.timers id).timer with
    | none => exact hfine (List.forall_mem_singleton.2 ⟨hid, nofun⟩) (.inr rfl)
    | some t => exact hthere ⟨hid, by rw [ht]; rfl⟩ (hs.free hg ht)

theorem System.Sound.step (hs : s.Sound) {a : Act γ} (hsafe : s.Safe a) (hstep : s.step a = some s') : s'.Sound := by
  cases a with
  | init g leader =>
    refine guarded hstep fun ⟨hnone, _⟩ => hs.setGroup (by rw [hnone]; nofun) _ ?_
    rintro _ ⟨⟩ _
    rfl
  | call g c =>
    obtain ⟨G, hg, rfl⟩ := Option.map_eq_some_iff.1 hstep
    exact (hs.call hg (hsafe G hg)).2
  | fork g child leader =>
    obtain ⟨G, hg, hstep⟩ := Option.bind_eq_some_iff.1 hstep
    refine guarded hstep fun ⟨hnone, _⟩ => hs.setGroup (by rw [hnone]; nofun) _ ?_
    rintro _ ⟨⟩ id
    exact hsafe G hg id
  | reap g =>
    obtain ⟨G, hg, rfl⟩ := Option.map_eq_some_iff.1 hstep
    exact hs.setGroup hsafe none nofun

end

/-- The process with the leader 7 makes a timer that sends 10 to the leader. -/
def timerRun : List (Act Unit) :=
  [.init () 7, .call () (.create true (some ⟨.threadId, 10, 7⟩) (fun pid => pid = 7) true)]

theorem timerRun_isSome : (timerRun.foldlM System.step (systemInit Unit)).isSome := by
  decide

/-- The state that is reached. -/
def afterTimerRun : System Unit := Option.get _ timerRun_isSome

/-- A process with the leader 7 and no timers; there may be another one. -/
def newProcess : System Bool := ⟨fun g => if g then none else some (.new 7), fun _ => none, 0, false⟩

end Ish.PosixTimers
