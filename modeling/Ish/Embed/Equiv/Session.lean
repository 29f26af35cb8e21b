import Ish.Embed.Session
import Ish.Lib.Run

/-!
# What `run_oneshot` returns

The thread that drains a session takes one page of the retained chunks after the other, and it stops when it
sees that the session is closed. What it has is a prefix of what is retained (`Inv`). It has all of it in the
end if the last page takes what is left, and it ends if the session was closed before the stream ended
(`oneshot_of_run`).

A page takes all bytes that are left exactly if they fit in it or if they are all in the first chunk
(`takePage_first`). If the stream ends before the session is closed, the thread never returns
(`not_finished_of_disconnect`): `on_failed` does not set `closed`, and nothing else ends the loop.
-/

namespace Ish.Embed

open Lib List

def bytesOf (cs : List OutputChunk) : List UInt8 := (cs.map OutputChunk.bytes).flatten

def total (cs : List OutputChunk) : Nat := (cs.map fun c => c.bytes.length).sum

@[simp]
theorem bytesOf_append (cs ds : List OutputChunk) : bytesOf (cs ++ ds) = bytesOf cs ++ bytesOf ds := by
  rw [bytesOf, map_append, flatten_append]
  rfl

theorem length_bytesOf (cs : List OutputChunk) : (bytesOf cs).length = total cs := by
  rw [bytesOf, length_flatten, map_map]
  rfl

theorem total_cons (c : OutputChunk) (cs : List OutputChunk) : total (c :: cs) = c.bytes.length + total cs := by
  rw [total, map_cons, sum_cons]
  rfl

theorem bytesOf_eq_nil_iff {cs : List OutputChunk} : bytesOf cs = [] ↔ total cs = 0 := by
  rw [← length_bytesOf, length_eq_zero_iff]

/-! ### Pages -/

section Page

variable {after cap taken : Nat} {any : Bool} {cs ds : List OutputChunk}

/-- Chunks that were read before are passed over. -/
theorem takePage_append (h : ∀ c ∈ cs, c.seq ≤ after) :
    takePage after cap taken any (cs ++ ds) = takePage after cap taken any ds := by
  induction cs with
  | nil => rfl
  | cons c cs ih =>
    rw [cons_append, takePage, if_pos (h c (by simp))]
    exact ih fun d hd => h d (mem_cons_of_mem _ hd)

theorem takePage_next (h : ∀ c ∈ cs, after < c.seq) (htaken : taken < cap) :
    ∃ rest, cs = takePage after cap taken true cs ++ rest ∧ (total rest = 0 ↔ taken + total cs ≤ cap) := by
  induction cs generalizing taken with
  | nil =>
    refine ⟨[], rfl, iff_of_true rfl ?_⟩
    show taken + 0 ≤ cap
    omega
  | cons c cs ih =>
    have hc : ¬c.seq ≤ after := Nat.not_le.mpr (h c (by simp))
    rw [takePage, if_neg hc]
    by_cases hlarge : cap < taken + c.bytes.length
    · rw [if_pos ⟨hlarge, rfl⟩]
      refine ⟨c :: cs, rfl, ?_⟩
      rw [total_cons]
      omega
    · rw [if_neg fun hand => hlarge hand.1]
      by_cases hfull : cap ≤ taken + c.bytes.length
      · rw [if_pos hfull]
        refine ⟨cs, rfl, ?_⟩
        rw [total_cons]
        omega
      · rw [if_neg hfull]
        obtain ⟨rest, heq, hiff⟩ := ih
          (fun d hd => h d (mem_cons_of_mem _ hd)) (Nat.not_le.mp hfull)
        refine ⟨rest, ?_, ?_⟩
        · rw [cons_append, ← heq]
        · rw [hiff, total_cons]
          omega

/-- **A page takes all bytes that are left exactly if they fit, or if the first chunk has all of them.** -/
theorem takePage_first (cap : Nat) (h : ∀ c ∈ cs, after < c.seq) : ∃ rest, cs = takePage after cap 0 false cs ++ rest ∧
      (total rest = 0 ↔ total cs ≤ cap ∨ total cs.tail = 0) := by
  cases cs with
  | nil => exact ⟨[], rfl, iff_of_true rfl (.inr rfl)⟩
  | cons c cs =>
    have hc : ¬c.seq ≤ after := Nat.not_le.mpr (h c (by simp))
    rw [takePage, if_neg hc, if_neg fun hand => Bool.false_ne_true hand.2, Nat.zero_add, tail_cons, total_cons]
    by_cases hfull : cap ≤ c.bytes.length
    · rw [if_pos hfull]
      refine ⟨cs, rfl, ?_⟩
      omega
    · rw [if_neg hfull]
      obtain ⟨rest, heq, hiff⟩ := takePage_next
        (fun d hd => h d (mem_cons_of_mem _ hd)) (Nat.not_le.mp hfull)
      refine ⟨rest, ?_, ?_⟩
      · rw [cons_append, ← heq]
      · rw [hiff]
        omega

end Page

/-! ### Steps -/

def DrainPc.finished : DrainPc → Bool
  | .returned _ => true
  | .timedOut => true
  | _ => false

def DrainPc.collects : DrainPc → Bool
  | .first => true
  | .sleep => true
  | _ => false

variable {pc : DrainPc}

theorem DrainPc.finished_of_collects (h : pc.collects = true) : pc.finished = false := by
  cases pc with
  | returned code => cases h
  | timedOut => cases h
  | _ => rfl

/-- What is left of the session fits in a page, or it is in one chunk. -/
def Host.FitsPage (h : Host) : Prop :=
  let left := h.session.retained.chunks.filter fun c => h.drain.nextSeq < c.seq
  total left ≤ pageCap ∨ total left.tail = 0

instance (h : Host) : Decidable h.FitsPage := inferInstanceAs (Decidable (_ ∨ _))

/-- The capacity is enough, the stream does not end before the session is closed, and the last page takes what
is left. -/
def Host.Careful (id : Nat) (h : Host) : Act → Prop
  | .frame (.output reqid _ _ bytes) => reqid = id → h.session.retained.bytes + bytes.length ≤ retainedCapacity
  | .frame _ => True
  | .disconnect => h.session.state.closed = true ∨ h.drain.pc.finished = true
  | .drain _ => h.session.state.closed = true → h.drain.pc.collects = true → h.FitsPage

instance (id : Nat) (h : Host) : ∀ a, Decidable (h.Careful id a)
  | .frame (.output reqid _ _ bytes) =>
    inferInstanceAs (Decidable (reqid = id → h.session.retained.bytes + bytes.length ≤ retainedCapacity))
  | .frame (.ready _) => isTrue trivial
  | .frame (.opened _ _) => isTrue trivial
  | .frame (.exited _ _ _) => isTrue trivial
  | .frame (.closed _) => isTrue trivial
  | .frame (.err _ _ _) => isTrue trivial
  | .disconnect => inferInstanceAs (Decidable (_ ∨ _))
  | .drain _ => inferInstanceAs (Decidable (_ → _ → _))

/-- What every run keeps. -/
structure Host.Inv (h : Host) : Prop where
  split : ∃ done left, h.session.retained.chunks = done ++ left ∧ (∀ c ∈ done, c.seq ≤ h.drain.nextSeq) ∧
    (∀ c ∈ left, h.drain.nextSeq < c.seq) ∧ h.drain.output = bytesOf done
  sorted : h.session.retained.chunks.Pairwise fun c d => c.seq < d.seq
  below : ∀ c ∈ h.session.retained.chunks, c.seq < h.session.retained.next
  read : h.drain.nextSeq < h.session.retained.next
  closed : h.session.state.closed = true → h.registered = false
  ended : h.reading = false → h.session.state.closed = true ∨ h.drain.pc.finished = true
  returned : ∀ code, h.drain.pc = .returned code →
    h.session.state.closed = true ∧ h.drain.output = bytesOf h.session.retained.chunks

theorem Host.inv_init (deadline : Bool) : (Host.init deadline).Inv where
  split := ⟨[], [], rfl, by simp, by simp, rfl⟩
  sorted := .nil
  below := by simp [Host.init, Session.new]
  read := Nat.one_pos
  closed := nofun
  ended := nofun
  returned := nofun

section Steps

variable {id : Nat} {h h' : Host}

theorem Host.Inv.congr (hi : h.Inv) (hret : h'.session.retained = h.session.retained)
    (hclosed : h'.session.state.closed = h.session.state.closed) (hreg : h'.registered = h.registered)
    (hreading : h'.reading = h.reading) (hdrain : h'.drain = h.drain) : h'.Inv where
  split := by rw [hret, hdrain]; exact hi.split
  sorted := by rw [hret]; exact hi.sorted
  below := by rw [hret]; exact hi.below
  read := by rw [hret, hdrain]; exact hi.read
  closed := by rw [hclosed, hreg]; exact hi.closed
  ended := by rw [hreading, hclosed, hdrain]; exact hi.ended
  returned := by rw [hclosed, hret, hdrain]; exact hi.returned

theorem evict_eq {cs : List OutputChunk} {bytes floor : Nat} (hcap : bytes ≤ retainedCapacity) :
    evict cs bytes floor = (cs, bytes, floor) := by
  cases cs with
  | nil => rfl
  | cons c cs => rw [evict, if_neg (Nat.not_lt.mpr hcap)]

theorem Host.Inv.open_of_registered (hi : h.Inv) (hreg : h.registered = true) :
    h.session.state.closed = false ∧ ∀ code, h.drain.pc ≠ .returned code := by
  have hopen : h.session.state.closed = false := by
    cases hc : h.session.state.closed with
    | false => rfl
    | true => exact absurd (hreg.symm.trans (hi.closed hc)) (by decide)
  refine ⟨hopen, fun code hpc => ?_⟩
  exact absurd (hopen.symm.trans (hi.returned code hpc).1) (by decide)

theorem Host.Inv.onOutput (hi : h.Inv) {seq : Nat} {stream : Stream} {bytes : List UInt8}
    (hreg : h.registered = true) (hcap : h.session.retained.bytes + bytes.length ≤ retainedCapacity) :
    Host.Inv { h with session := h.session.onOutput seq stream bytes } := by
  unfold Session.onOutput
  by_cases hstale : seq < h.session.retained.next
  · rw [if_pos hstale]
    exact hi
  · rw [if_neg hstale, evict_eq hcap]
    obtain ⟨hopen, hnot⟩ := hi.open_of_registered hreg
    obtain ⟨done, left, hchunks, hdone, hleft, hout⟩ := hi.split
    have hread := hi.read
    refine ⟨⟨done, left ++ [⟨seq, stream, bytes⟩], ?_, hdone, ?_, hout⟩, ?_, ?_, ?_, ?_, hi.ended, ?_⟩
    · show h.session.retained.chunks ++ _ = _
      rw [hchunks, append_assoc]
    · intro c hc
      rcases mem_append.mp hc with hc | hc
      · exact hleft c hc
      · rw [mem_singleton.mp hc]
        show h.drain.nextSeq < seq
        omega
    · refine pairwise_append.mpr ⟨hi.sorted, pairwise_singleton _ _, ?_⟩
      intro c hc d hd
      have hbelow := hi.below c hc
      rw [mem_singleton.mp hd]
      show c.seq < seq
      omega
    · intro c hc
      show c.seq < seq + 1
      rcases mem_append.mp hc with hc | hc
      · have hbelow := hi.below c hc
        omega
      · rw [mem_singleton.mp hc]
        exact Nat.lt_succ_self _
    · show h.drain.nextSeq < seq + 1
      omega
    · intro hclosed
      exact absurd (hopen.symm.trans hclosed) (by decide)
    · intro code hpc
      exact absurd hpc (hnot code)

theorem Host.Inv.onClosed (hi : h.Inv) (hreg : h.registered = true) :
    Host.Inv { h with session := h.session.onClosed, registered := false } := by
  obtain ⟨-, hnot⟩ := hi.open_of_registered hreg
  exact ⟨hi.split, hi.sorted, hi.below, hi.read, fun _ => rfl, fun _ => .inl rfl,
    fun code hpc => absurd hpc (hnot code)⟩

theorem Host.Inv.update (hi : h.Inv) {reqid : Nat} {f : Session → Session}
    (hret : ∀ s, (f s).retained = s.retained) (hclosed : ∀ s, (f s).state.closed = s.state.closed) :
    (h.update id reqid f).Inv := by
  unfold Host.update
  split_ifs
  · exact hi.congr (hret _) (hclosed _) rfl rfl rfl
  · exact hi

theorem Host.Inv.dispatch (hi : h.Inv) {f : SupervisorToHost} (hcare : h.Careful id (.frame f)) :
    (h.dispatch id f).Inv := by
  cases f with
  | ready _ => exact hi
  | opened reqid pid => exact hi.update (f := (·.onOpened pid)) (fun _ => rfl) fun _ => rfl
  | output reqid seq stream bytes =>
    rw [Host.dispatch, Host.update]
    by_cases hmine : reqid = id ∧ h.registered = true
    · rw [if_pos hmine]
      exact hi.onOutput hmine.2 (hcare hmine.1)
    · rw [if_neg hmine]
      exact hi
  | exited reqid exitCode termSignal =>
    exact hi.update (f := (·.onExited exitCode termSignal)) (fun _ => rfl) fun _ => rfl
  | closed reqid =>
    rw [Host.dispatch, Host.update]
    by_cases hmine : reqid = id ∧ h.registered = true
    · rw [if_pos hmine]
      have hflag : (h.registered && decide (reqid ≠ id)) = false := by
        rw [decide_eq_false fun hne => hne hmine.1, Bool.and_false]
      rw [hflag]
      exact hi.onClosed hmine.2
    · rw [if_neg hmine]
      have hflag : (h.registered && decide (reqid ≠ id)) = h.registered := by
        cases hreg : h.registered with
        | false => rfl
        | true => exact decide_eq_true fun heq => hmine ⟨heq, hreg⟩
      rw [hflag]
      exact hi
  | err reqid code msg =>
    cases reqid with
    | some reqid => exact hi.update (f := (·.onFailed msg)) (fun _ => rfl) fun _ => rfl
    | none =>
      have hup : (h.update id id (·.onFailed msg)).Inv := hi.update (f := (·.onFailed msg)) (fun _ => rfl) fun _ => rfl
      exact hup.congr rfl rfl rfl rfl rfl

theorem update_drain {reqid : Nat} {f : Session → Session} : (h.update id reqid f).drain = h.drain := by
  unfold Host.update
  split_ifs <;> rfl

theorem Host.Inv.disconnect (hi : h.Inv) (hcare : h.Careful id .disconnect) (hstep : h.step id .disconnect = some h') :
    h'.Inv := by
  unfold Host.step at hstep
  split_ifs at hstep
  cases hstep
  have hup : (h.update id id (·.onFailed "supervisor disconnected")).Inv :=
    hi.update (f := (·.onFailed "supervisor disconnected")) (fun _ => rfl) fun _ => rfl
  have hclosed : (h.update id id (·.onFailed "supervisor disconnected")).session.state.closed =
      h.session.state.closed := by
    unfold Host.update
    split_ifs <;> rfl
  refine ⟨hup.split, hup.sorted, hup.below, hup.read, hup.closed, fun _ => ?_, hup.returned⟩
  show (h.update id id _).session.state.closed = true ∨ (h.update id id _).drain.pc.finished = true
  rw [hclosed, update_drain]
  exact hcare

/-- Where the chunks are split after a page. -/
def lastSeq (page : List OutputChunk) (seq : Nat) : Nat := (page.getLast?.map OutputChunk.seq).getD seq

theorem lastSeq_bounds {page rest : List OutputChunk} {seq : Nat}
    (hsorted : (page ++ rest).Pairwise fun c d => c.seq < d.seq)
    (hlow : ∀ c ∈ page ++ rest, seq < c.seq) :
    seq ≤ lastSeq page seq ∧ (∀ c ∈ page, c.seq ≤ lastSeq page seq) ∧ (∀ c ∈ rest, lastSeq page seq < c.seq) ∧
      (lastSeq page seq = seq ∨ ∃ c ∈ page, lastSeq page seq = c.seq) := by
  rcases eq_nil_or_concat' page with rfl | ⟨init, c, rfl⟩
  · exact ⟨Nat.le_refl _, by simp, hlow, .inl rfl⟩
  · have hlast : lastSeq (init ++ [c]) seq = c.seq := by
      rw [lastSeq, getLast?_concat]
      rfl
    rw [hlast]
    obtain ⟨hpage, -, hcross⟩ := pairwise_append.mp hsorted
    obtain ⟨-, -, hinit⟩ := pairwise_append.mp hpage
    refine ⟨Nat.le_of_lt (hlow c (by simp)), ?_, fun d hd => hcross c (by simp) d hd, .inr ⟨c, by simp, rfl⟩⟩
    intro d hd
    rcases mem_append.mp hd with hd | hd
    · exact Nat.le_of_lt (hinit d hd c (by simp))
    · exact Nat.le_of_eq (congrArg (·.seq) (mem_singleton.mp hd))

/-- What a look at the session gives. -/
theorem Host.Inv.page (hi : h.Inv) :
    ∃ done rest, h.session.retained.chunks = done ++ ((h.session.tryCollect h.drain.nextSeq pageCap).chunks ++ rest) ∧
      (∀ c ∈ done, c.seq ≤ h.drain.nextSeq) ∧
      (∀ c ∈ (h.session.tryCollect h.drain.nextSeq pageCap).chunks ++ rest, h.drain.nextSeq < c.seq) ∧
      h.drain.output = bytesOf done ∧ (total rest = 0 ↔ h.FitsPage) := by
  obtain ⟨done, left, hchunks, hdone, hleft, hout⟩ := hi.split
  obtain ⟨rest, hrest, hiff⟩ := takePage_first pageCap hleft
  have hpage : (h.session.tryCollect h.drain.nextSeq pageCap).chunks =
      takePage h.drain.nextSeq pageCap 0 false left := by
    unfold Session.tryCollect
    dsimp only
    rw [hchunks, takePage_append hdone]
  have hfilter : h.session.retained.chunks.filter (fun c => h.drain.nextSeq < c.seq) = left := by
    rw [hchunks, filter_append, filter_eq_nil_iff.mpr, nil_append, filter_eq_self.mpr]
    · exact fun c hc => decide_eq_true (hleft c hc)
    · intro c hc hlt
      exact absurd (of_decide_eq_true hlt) (Nat.not_lt.mpr (hdone c hc))
  refine ⟨done, rest, ?_, hdone, ?_, hout, ?_⟩
  · rw [hpage, ← hrest, hchunks]
  · rw [hpage, ← hrest]
    exact hleft
  · unfold Host.FitsPage
    rw [hfilter]
    exact hiff

theorem Host.Inv.use (hi : h.Inv) (hpc : h.drain.pc.finished = false) (hfits : h.session.state.closed = true → h.FitsPage) :
    Host.Inv { h with drain := h.drain.use (h.session.tryCollect h.drain.nextSeq pageCap) } := by
  obtain ⟨done, rest, hchunks, hdone, hleft, hout, hiff⟩ := hi.page
  generalize hr : h.session.tryCollect h.drain.nextSeq pageCap = r at hchunks hleft ⊢
  have hclosed : r.closed = h.session.state.closed := by rw [← hr]; rfl
  have hsorted := hi.sorted
  have hbelow := hi.below
  rw [hchunks] at hsorted
  obtain ⟨-, htail, -⟩ := pairwise_append.mp hsorted
  obtain ⟨hge, hpage, hrest, hlast⟩ := lastSeq_bounds htail hleft
  have hread := hi.read
  refine ⟨⟨done ++ r.chunks, rest, ?_, ?_, hrest, ?_⟩, hi.sorted, hi.below, ?_, hi.closed, ?_, ?_⟩
  · rw [append_assoc]
    exact hchunks
  · intro c hc
    show c.seq ≤ lastSeq r.chunks h.drain.nextSeq
    rcases mem_append.mp hc with hc | hc
    · exact Nat.le_trans (hdone c hc) hge
    · exact hpage c hc
  · show h.drain.output ++ bytesOf r.chunks = _
    rw [hout, bytesOf_append]
  · show lastSeq r.chunks h.drain.nextSeq < h.session.retained.next
    rcases hlast with heq | ⟨c, hc, heq⟩
    · rw [heq]
      exact hread
    · rw [heq]
      exact hbelow c (by rw [hchunks]; simp [hc])
  · intro hreading
    rcases hi.ended hreading with hc | hfin
    · exact .inl hc
    · exact absurd (hpc.symm.trans hfin) (by decide)
  · intro code hret
    have hc : h.session.state.closed = true := by
      by_contra hopen
      have htop : (h.drain.use r).pc = .top := if_neg (by rw [hclosed]; exact hopen)
      rw [htop] at hret
      cases hret
    refine ⟨hc, ?_⟩
    show h.drain.output ++ bytesOf r.chunks = bytesOf h.session.retained.chunks
    rw [hchunks, bytesOf_append, bytesOf_append, bytesOf_eq_nil_iff.mpr (hiff.mpr (hfits hc)), append_nil, hout]

theorem Host.Inv.setPc (hi : h.Inv) (hold : h.drain.pc.finished = false)
    (hnew : ∀ code, pc ≠ .returned code) : Host.Inv { h with drain := { h.drain with pc := pc } } where
  split := hi.split
  sorted := hi.sorted
  below := hi.below
  read := hi.read
  closed := hi.closed
  ended hreading := by
    rcases hi.ended hreading with hc | hfin
    · exact .inl hc
    · exact absurd (hold.symm.trans hfin) (by decide)
  returned code hpc := absurd hpc (hnew code)

/-- How many steps the thread takes at most once the session is closed. -/
def DrainPc.rank : DrainPc → Nat
  | .wait => 3
  | .top => 2
  | .first => 1
  | .sleep => 1
  | .returned _ => 0
  | .timedOut => 0

/-- What a step of the thread does that does not look at the session, or finds nothing there. -/
structure Drain.Moves (d : Drain) (s : Session) (pc : DrainPc) : Prop where
  running : d.pc.finished = false
  goes : ∀ code, pc ≠ .returned code
  deadline : d.deadline = false → pc.finished = false
  nearer : s.state.closed = true → d.pc.collects = false ∧ pc.rank ≤ d.pc.rank - 1

theorem Drain.step_cases (d : Drain) (s : Session) (expired : Bool) : d.pc.finished = true ∧ d.step s expired = d ∨
      d.pc.collects = true ∧ d.step s expired = d.use (s.tryCollect d.nextSeq pageCap) ∨
      ∃ pc, d.Moves s pc ∧ d.step s expired = { d with pc := pc } := by
  -- what is not used is not closed
  have hopen : ∀ {p : Prop}, ¬(!(s.tryCollect d.nextSeq pageCap).chunks.isEmpty ||
      (s.tryCollect d.nextSeq pageCap).closed) = true → s.state.closed = true → p :=
    fun hnot hclosed => absurd (Bool.or_eq_true_iff.mpr (.inr hclosed)) hnot
  unfold Drain.step
  cases hd : d.pc with
  | top =>
    dsimp only
    split_ifs with hdead
    · refine .inr (.inr ⟨.timedOut, ⟨hd ▸ rfl, nofun, fun hnot => ?_, fun _ => ⟨hd ▸ rfl, Nat.zero_le _⟩⟩, rfl⟩)
      rw [hnot] at hdead
      cases hdead
    · exact .inr (.inr ⟨.first, ⟨hd ▸ rfl, nofun, fun _ => rfl, fun _ => hd ▸ ⟨rfl, Nat.le_refl 1⟩⟩, rfl⟩)
  | wait =>
    dsimp only
    split_ifs
    · exact .inr (.inr ⟨.top, ⟨hd ▸ rfl, nofun, fun _ => rfl, fun _ => hd ▸ ⟨rfl, Nat.le_refl 2⟩⟩, rfl⟩)
    · exact .inr (.inr ⟨.sleep, ⟨hd ▸ rfl, nofun, fun _ => rfl, fun _ => hd ▸ ⟨rfl, Nat.le_succ 1⟩⟩, rfl⟩)
  | first =>
    dsimp only
    split_ifs with hsome
    · exact .inr (.inl ⟨rfl, rfl⟩)
    · exact .inr (.inl ⟨rfl, rfl⟩)
    · exact .inr (.inr ⟨.wait, ⟨hd ▸ rfl, nofun, fun _ => rfl, hopen hsome⟩, rfl⟩)
  | sleep =>
    dsimp only
    split_ifs with hsome
    · exact .inr (.inl ⟨rfl, rfl⟩)
    · exact .inr (.inr ⟨.wait, ⟨hd ▸ rfl, nofun, fun _ => rfl, hopen hsome⟩, rfl⟩)
  | returned code => exact .inl ⟨rfl, rfl⟩
  | timedOut => exact .inl ⟨rfl, rfl⟩

/-- A look at a closed session is the last one. -/
theorem Drain.step_of_closed {d : Drain} {s : Session} (expired : Bool) (hpc : d.pc.collects = true)
    (hclosed : s.state.closed = true) : d.step s expired = d.use (s.tryCollect d.nextSeq pageCap) := by
  rcases d.step_cases s expired with ⟨hfin, -⟩ | ⟨-, hstep⟩ | ⟨pc, hmoves, -⟩
  · exact absurd (hfin.symm.trans (DrainPc.finished_of_collects hpc)) (by decide)
  · exact hstep
  · exact absurd (hpc.symm.trans (hmoves.nearer hclosed).1) (by decide)

theorem Host.Inv.drain (hi : h.Inv) {expired : Bool} (hcare : h.Careful id (.drain expired)) :
    Host.Inv { h with drain := h.drain.step h.session expired } := by
  rcases h.drain.step_cases h.session expired with ⟨-, hstep⟩ | ⟨hcollects, hstep⟩ | ⟨pc, hmoves, hstep⟩
  · rw [hstep]
    exact hi
  · rw [hstep]
    exact hi.use (DrainPc.finished_of_collects hcollects) fun hc => hcare hc hcollects
  · rw [hstep]
    exact hi.setPc hmoves.running hmoves.goes

theorem Host.Inv.step (hi : h.Inv) {a : Act} (hcare : h.Careful id a) (hstep : h.step id a = some h') : h'.Inv := by
  cases a with
  | frame f =>
    unfold Host.step at hstep
    split_ifs at hstep
    cases hstep
    exact hi.dispatch hcare
  | disconnect => exact hi.disconnect hcare hstep
  | drain expired =>
    cases hstep
    exact hi.drain hcare

end Steps

/-! ### Whole runs -/

section Runs

variable {id : Nat} {h h' : Host}

theorem inv_of_run {deadline : Bool} (hrun : Run (Host.step id) (Host.Careful id) (Host.init deadline) h) : h.Inv :=
  hrun.inv Host.Inv (fun _ _ _ hi hcare hstep => hi.step hcare hstep) (Host.inv_init deadline)

theorem DrainPc.rank_of_finished (h : pc.finished = true) : pc.rank = 0 := by
  cases pc with
  | returned code => rfl
  | timedOut => rfl
  | _ => cases h

theorem DrainPc.finished_of_rank (h : pc.rank = 0) : pc.finished = true := by
  cases pc with
  | returned code => rfl
  | timedOut => rfl
  | _ => cases h

theorem Drain.rank_step {d : Drain} {s : Session} {expired : Bool} (hclosed : s.state.closed = true) :
    (d.step s expired).pc.rank ≤ d.pc.rank - 1 := by
  rcases d.step_cases s expired with ⟨hfin, hstep⟩ | ⟨-, hstep⟩ | ⟨pc, hmoves, hstep⟩
  · rw [hstep, DrainPc.rank_of_finished hfin]
  · have hret : (d.use (s.tryCollect d.nextSeq pageCap)).pc = .returned (s.state.exitCode.getD (-1)) := if_pos hclosed
    rw [hstep, hret]
    exact Nat.zero_le _
  · rw [hstep]
    exact (hmoves.nearer hclosed).2

theorem update_closed {reqid : Nat} {f : Session → Session} (hf : ∀ s, s.state.closed = true → (f s).state.closed = true)
    (hclosed : h.session.state.closed = true) : (h.update id reqid f).session.state.closed = true := by
  unfold Host.update
  split_ifs
  · exact hf _ hclosed
  · exact hclosed

theorem dispatch_drain {f : SupervisorToHost} : (h.dispatch id f).drain = h.drain := by
  cases f with
  | ready _ => rfl
  | err reqid code msg =>
    cases reqid with
    | some reqid => exact update_drain
    | none => exact update_drain
  | _ => exact update_drain

theorem onOutput_state (s : Session) (seq : Nat) (stream : Stream) (bytes : List UInt8) :
    (s.onOutput seq stream bytes).state = s.state := by
  unfold Session.onOutput
  split_ifs <;> rfl

theorem dispatch_closed {f : SupervisorToHost} (hclosed : h.session.state.closed = true) :
    (h.dispatch id f).session.state.closed = true := by
  cases f with
  | ready _ => exact hclosed
  | opened reqid pid => exact update_closed (f := (·.onOpened pid)) (fun _ hs => hs) hclosed
  | output reqid seq stream bytes =>
    refine update_closed (f := (·.onOutput seq stream bytes)) (fun s hs => ?_) hclosed
    rw [onOutput_state]
    exact hs
  | exited reqid exitCode termSignal =>
    exact update_closed (f := (·.onExited exitCode termSignal)) (fun _ hs => hs) hclosed
  | closed reqid => exact update_closed (f := (·.onClosed)) (fun _ _ => rfl) hclosed
  | err reqid code msg =>
    cases reqid with
    | some _ | none => exact update_closed (f := (·.onFailed msg)) (fun _ hs => hs) hclosed

def Act.isDrain : Act → Bool
  | .drain _ => true
  | _ => false

variable {a : Act}

theorem step_drain (hstep : h.step id a = some h') : a.isDrain = false ∧ h'.drain = h.drain ∨
      ∃ expired, a = .drain expired ∧ h' = { h with drain := h.drain.step h.session expired } := by
  cases a with
  | frame f => exact .inl ⟨rfl, guarded hstep fun _ => dispatch_drain⟩
  | disconnect => exact .inl ⟨rfl, guarded hstep fun _ => update_drain⟩
  | drain expired => exact .inr ⟨expired, rfl, (Option.some.inj hstep).symm⟩

theorem step_closed (hclosed : h.session.state.closed = true) (hstep : h.step id a = some h') :
    h'.session.state.closed = true := by
  cases a with
  | frame f => exact guarded hstep fun _ => dispatch_closed hclosed
  | disconnect =>
    refine guarded hstep fun _ => ?_
    exact update_closed (f := (·.onFailed "supervisor disconnected")) (fun _ hs => hs) hclosed
  | drain expired =>
    cases hstep
    exact hclosed

/-- **After the close the thread returns** with its third step at the latest, whatever else happens. -/
theorem finished_of_closed {l : List Act} (hclosed : h.session.state.closed = true)
    (hrun : l.foldlM (Host.step id) h = some h') (hsteps : h.drain.pc.rank ≤ (l.filter Act.isDrain).length) :
    h'.drain.pc.finished = true := by
  induction l generalizing h with
  | nil =>
    cases hrun
    exact DrainPc.finished_of_rank (Nat.le_zero.mp hsteps)
  | cons a l ih =>
    rw [foldlM_cons] at hrun
    obtain ⟨u, hu, hrun⟩ := Option.bind_eq_some_iff.mp hrun
    refine ih (step_closed hclosed hu) hrun ?_
    rcases step_drain hu with ⟨ha, hsame⟩ | ⟨expired, rfl, rfl⟩
    · rw [filter_cons_of_neg (by rw [ha]; decide)] at hsteps
      rwa [hsame]
    · rw [filter_cons_of_pos rfl, length_cons] at hsteps
      have hrank := @Drain.rank_step h.drain h.session expired hclosed
      show (h.drain.step h.session expired).pc.rank ≤ _
      omega

theorem DrainPc.rank_le (pc : DrainPc) : pc.rank ≤ 3 := by
  cases pc with
  | returned code => exact Nat.zero_le _
  | _ => decide

theorem step_finished (hfin : h.drain.pc.finished = true) (hstep : h.step id a = some h') :
    h'.drain.pc.finished = true := by
  rcases step_drain hstep with ⟨-, hsame⟩ | ⟨expired, rfl, rfl⟩
  · rwa [hsame]
  · rcases h.drain.step_cases h.session expired with ⟨-, heq⟩ | ⟨hcollects, -⟩ | ⟨pc, hmoves, -⟩
    · show (h.drain.step h.session expired).pc.finished = true
      rwa [heq]
    · exact absurd (hfin.symm.trans (DrainPc.finished_of_collects hcollects)) (by decide)
    · exact absurd (hfin.symm.trans hmoves.running) (by decide)

/-- **A careful run returns everything**: what is returned is all that is retained, and after the close or the end
of the stream the thread returns with its third step at the latest. -/
theorem oneshot_of_run {deadline : Bool} (hrun : Run (Host.step id) (Host.Careful id) (Host.init deadline) h) :
    (∀ code, h.drain.pc = .returned code → h.drain.output = bytesOf h.session.retained.chunks) ∧
      (h.session.state.closed = true ∨ h.reading = false → ∀ (l : List Act) (h' : Host),
        l.foldlM (Host.step id) h = some h' →
        3 ≤ (l.filter Act.isDrain).length → h'.drain.pc.finished = true) := by
  have hi := inv_of_run hrun
  refine ⟨fun code hpc => (hi.returned code hpc).2, fun hend l h' hl hsteps => ?_⟩
  have hcases : h.session.state.closed = true ∨ h.drain.pc.finished = true := hend.elim .inl hi.ended
  rcases hcases with hclosed | hfin
  · exact finished_of_closed hclosed hl (Nat.le_trans (DrainPc.rank_le _) hsteps)
  · exact (Run.of_foldlM (fun _ _ _ => trivial) hl : Run _ anyStep _ _).inv (fun h => h.drain.pc.finished = true)
      (fun _ _ _ hf _ hstep => step_finished hf hstep) hfin

/-! ### The conditions are needed -/

theorem Host.Inv.use_exact (hi : h.Inv) :
    (h.drain.use (h.session.tryCollect h.drain.nextSeq pageCap)).output = bytesOf h.session.retained.chunks ↔
      h.FitsPage := by
  obtain ⟨done, rest, hchunks, -, -, hout, hiff⟩ := hi.page
  rw [← hiff, ← bytesOf_eq_nil_iff]
  show h.drain.output ++ bytesOf _ = _ ↔ _
  rw [hchunks, bytesOf_append, bytesOf_append, hout, append_cancel_left_eq, self_eq_append_right]

/-- The stream has ended before the close, and there is no deadline. -/
structure Host.Stuck (h : Host) : Prop where
  reading : h.reading = false
  opened : h.session.state.closed = false
  deadline : h.drain.deadline = false
  running : h.drain.pc.finished = false

theorem Host.Stuck.step (hs : h.Stuck) (hstep : h.step id a = some h') : h'.Stuck := by
  cases a with
  | frame _ | disconnect =>
    rw [Host.step, hs.reading] at hstep
    cases hstep
  | drain expired =>
    cases hstep
    have hpc : (h.drain.step h.session expired).pc.finished = false ∧
        (h.drain.step h.session expired).deadline = false := by
      rcases h.drain.step_cases h.session expired with ⟨hfin, -⟩ | ⟨-, heq⟩ | ⟨pc, hmoves, heq⟩
      · exact absurd (hs.running.symm.trans hfin) (by decide)
      · have htop : (h.drain.use (h.session.tryCollect h.drain.nextSeq pageCap)).pc = .top :=
          if_neg (by show ¬h.session.state.closed = true; rw [hs.opened]; decide)
        rw [heq, htop]
        exact ⟨rfl, hs.deadline⟩
      · rw [heq]
        exact ⟨hmoves.deadline hs.deadline, hs.deadline⟩
    exact ⟨hs.reading, hs.opened, hpc.2, hpc.1⟩

/-- **If the stream ends before the close, the thread never returns.** -/
theorem not_finished_of_disconnect (hs : h.Stuck) {l : List Act} (hl : l.foldlM (Host.step id) h = some h') :
    h'.drain.pc.finished = false :=
  ((Run.of_foldlM (fun _ _ _ => trivial) hl : Run _ anyStep _ _).inv Host.Stuck (fun _ _ _ hs _ hstep => hs.step hstep)
    hs).running

end Runs

/-! ### A run, and two that are not careful -/

/-- A command that writes two chunks. -/
def echoRun : List Act :=
  [.frame (.opened 1 7), .drain false, .frame (.output 1 1 .stdout [104]), .drain false, .drain false,
    .frame (.output 1 2 .stderr [105]), .frame (.exited 1 0 0), .frame (.closed 1), .drain false]

theorem echoRun_isSome :
    (echoRun.foldlM (fun h a => if Host.Careful 1 h a then Host.step 1 h a else none) (Host.init false)).isSome = true := by
  decide

def echoHost : Host := Option.get _ echoRun_isSome

theorem run_echoHost : Run (Host.step 1) (Host.Careful 1) (Host.init false) echoHost :=
  Run.of_guarded (l := echoRun) (Option.some_get echoRun_isSome).symm

/-- The command returns with both chunks. -/
theorem oneshot_of_run_echo :
    Run (Host.step 1) (Host.Careful 1) (Host.init false) echoHost ∧ echoHost.drain.pc = .returned 0 ∧
      echoHost.drain.output = [104, 105] ∧ echoHost.session.state.closed = true ∧
      bytesOf echoHost.session.retained.chunks = [104, 105] := by
  have hpc : echoHost.drain.pc = .returned 0 := by decide
  have hout : echoHost.drain.output = [104, 105] := by decide
  refine ⟨run_echoHost, hpc, hout, by decide, ?_⟩
  rw [← (oneshot_of_run run_echoHost).1 0 hpc, hout]

/-- What is written in two chunks and closed before it is read: the state of the host then. -/
def burstHost (b₁ b₂ : List UInt8) : Host where
  session := ⟨⟨none, false, true, none, none, true, none⟩,
    ⟨[⟨1, .stdout, b₁⟩, ⟨2, .stdout, b₂⟩], b₁.length + b₂.length, 1, 3⟩⟩
  registered := false
  poisoned := false
  reading := true
  drain := ⟨.first, [], 0, false⟩

theorem burstHost_reached {b₁ b₂ : List UInt8} (hcap : b₁.length + b₂.length ≤ retainedCapacity) :
    Run (Host.step 1) (Host.Careful 1) (Host.init false) (burstHost b₁ b₂) := by
  have h₁ : Session.new.onOutput 1 .stdout b₁ = ⟨Session.new.state, ⟨[⟨1, .stdout, b₁⟩], b₁.length, 1, 2⟩⟩ := by
    unfold Session.onOutput
    rw [if_neg (by decide), evict_eq (by show 0 + b₁.length ≤ _; omega)]
    show (⟨_, ⟨[_], 0 + b₁.length, 1, 2⟩⟩ : Session) = _
    rw [Nat.zero_add]
  have h₂ : (⟨Session.new.state, ⟨[⟨1, .stdout, b₁⟩], b₁.length, 1, 2⟩⟩ : Session).onOutput 2 .stdout b₂ =
      ⟨Session.new.state, ⟨[⟨1, .stdout, b₁⟩, ⟨2, .stdout, b₂⟩], b₁.length + b₂.length, 1, 3⟩⟩ := by
    unfold Session.onOutput
    rw [if_neg (by show ¬2 < 2; decide), evict_eq hcap]
    rfl
  have s₂ : Host.step 1 ⟨.new, true, false, true, ⟨.first, [], 0, false⟩⟩ (.frame (.output 1 1 .stdout b₁)) =
      some ⟨⟨Session.new.state, ⟨[⟨1, .stdout, b₁⟩], b₁.length, 1, 2⟩⟩, true, false, true,
        ⟨.first, [], 0, false⟩⟩ := by
    rw [← h₁]
    rfl
  have s₃ : Host.step 1 ⟨⟨Session.new.state, ⟨[⟨1, .stdout, b₁⟩], b₁.length, 1, 2⟩⟩, true, false, true,
        ⟨.first, [], 0, false⟩⟩ (.frame (.output 1 2 .stdout b₂)) =
      some ⟨⟨Session.new.state, ⟨[⟨1, .stdout, b₁⟩, ⟨2, .stdout, b₂⟩], b₁.length + b₂.length, 1, 3⟩⟩, true, false,
        true, ⟨.first, [], 0, false⟩⟩ := by
    rw [← h₂]
    rfl
  have c₂ : Host.Careful 1 ⟨.new, true, false, true, ⟨.first, [], 0, false⟩⟩ (.frame (.output 1 1 .stdout b₁)) := by
    intro _
    show 0 + b₁.length ≤ _
    omega
  have c₃ : Host.Careful 1 ⟨⟨Session.new.state, ⟨[⟨1, .stdout, b₁⟩], b₁.length, 1, 2⟩⟩, true, false, true,
      ⟨.first, [], 0, false⟩⟩ (.frame (.output 1 2 .stdout b₂)) := fun _ => hcap
  have r₁ : Run (Host.step 1) (Host.Careful 1) (Host.init false) ⟨.new, true, false, true, ⟨.first, [], 0, false⟩⟩ :=
    Run.single (.drain false) (fun h => nomatch h) rfl
  exact ((r₁.tail _ c₂ s₂).tail _ c₃ s₃).tail (.frame (.closed 1)) trivial rfl

/-- A disconnect before the close is never seen, and of two chunks that do not fit in one page the second
is lost if both and the close arrive before the first look. -/
theorem oneshot_hangs_or_loses : (∃ h, (Host.init false).step 1 .disconnect = some h ∧
        ∀ (l : List Act) (h' : Host), l.foldlM (Host.step 1) h = some h' → h'.drain.pc.finished = false) ∧
      ∃ h : Host, Run (Host.step 1) anyStep (Host.init false) h ∧ h.drain.pc = .returned (-1) ∧
        h.session.retained.bytes ≤ retainedCapacity ∧ h.drain.output ≠ bytesOf h.session.retained.chunks := by
  constructor
  · exact ⟨_, rfl, fun l h' hl => not_finished_of_disconnect ⟨rfl, rfl, rfl, rfl⟩ hl⟩
  · obtain ⟨b, hlen⟩ : ∃ b : List UInt8, b.length = 40000 := ⟨List.replicate 40000 7, length_replicate⟩
    have hcap : b.length + b.length ≤ retainedCapacity := by rw [hlen]; decide
    have hrun := burstHost_reached hcap
    have hexact := (inv_of_run hrun).use_exact
    have hlarge : ¬(burstHost b b).FitsPage := by
      show ¬(b.length + (b.length + 0) ≤ 65536 ∨ b.length + 0 = 0)
      omega
    have huse := Drain.step_of_closed (d := (burstHost b b).drain) (s := (burstHost b b).session) false rfl rfl
    refine ⟨_, (hrun.mono fun _ _ _ => trivial).tail (.drain false) trivial rfl, ?_, hcap, ?_⟩
    · show ((burstHost b b).drain.step (burstHost b b).session false).pc = _
      rw [huse]
      rfl
    · show ((burstHost b b).drain.step (burstHost b b).session false).output ≠ _
      rw [huse]
      exact fun h => hlarge (hexact.mp h)

end Ish.Embed
