import Ish.Fs.AbstractSocket
import Ish.Lib.Listing
import Ish.Lib.Run

/-!
# Abstract names and live sockets

On the conditions of `Careful` the table has a name exactly as long as a live socket is bound to it (`Inv`), so that a
name stands for one socket, cannot be bound twice, and is free when its socket is closed
(`abstract_names_of_run`).

The conditions are about what the table does not see: a name is looked up by its hash alone, which ends at
the first zero of the name; `connect` takes a reference that nothing gives back, so that the name stays after its
socket is closed (`taken_of_close`); a second `bind` of a bound socket forgets the first name; and a `bind` that
fails since the path of the backing socket is too long keeps the name.
-/

namespace Ish.AbstractSocket

open Lib Function List Option

variable {h : Host} {st st' : State}

/-- The socket has the name. -/
def State.BoundTo (st : State) (s : Nat) (name : List UInt8) : Prop :=
  ∃ sock key, st.sockets s = some sock ∧ sock.unixNameAbstract = some key ∧ sock.unixName = 0 :: name

/-- No other name that is in use has the same hash. -/
def State.NoCollision (h : Host) (st : State) (name : List UInt8) : Prop :=
  ∀ s name', st.BoundTo s name' → strHash h name' = strHash h name → name' = name

/-- The names in the table are those of live sockets. -/
structure State.Inv (h : Host) (st : State) : Prop where
  listed : ∀ b key, key ∈ st.buckets b ↔ ∃ e, st.names key = some e ∧ e.hash.toNat % abstractHashSize = b
  nodup : ∀ b, (st.buckets b).Nodup
  hash_inj : ∀ {k k' e e'}, st.names k = some e → st.names k' = some e' → e.hash = e'.hash → k = k'
  id_inj : ∀ {k k' e e'}, st.names k = some e → st.names k' = some e' → e.socketId = e'.socketId → k = k'
  id_le : ∀ {k e}, st.names k = some e → e.socketId.toNat ≤ st.nextId.toNat
  fresh : ∀ {k}, st.fresh ≤ k → st.names k = none
  held : ∀ {s sock key}, st.sockets s = some sock → sock.unixNameAbstract = some key →
    ∃ e name, st.names key = some e ∧ sock.unixName = 0 :: name ∧ e.hash = strHash h name
  owner : ∀ {key e}, st.names key = some e → ∃ s sock, st.sockets s = some sock ∧ sock.unixNameAbstract = some key
  unique : ∀ {s s' sock sock' key}, st.sockets s = some sock → st.sockets s' = some sock' →
    sock.unixNameAbstract = some key → sock'.unixNameAbstract = some key → s = s'

theorem State.inv_init : State.init.Inv h where
  listed _ _ := ⟨nofun, nofun⟩
  nodup _ := nodup_nil
  hash_inj := nofun
  id_inj := nofun
  id_le := nofun
  fresh _ := rfl
  held := nofun
  owner := nofun
  unique := nofun

def UnixAbstract.bucket (e : UnixAbstract) : Nat := e.hash.toNat % abstractHashSize

theorem State.Inv.lists (hi : st.Inv h) : Lists st.buckets (Option.map UnixAbstract.bucket ∘ st.names) :=
  ⟨hi.nodup, fun b key => (hi.listed b key).trans map_eq_some_iff.symm⟩

/-! ### Finding a name -/

variable {hash : BitVec 32} {key : Nat}

/-- The table finds the one entry with a hash. -/
theorem State.Inv.lookup_eq_some_iff (hi : st.Inv h) :
    st.lookup hash = some key ↔ ∃ e, st.names key = some e ∧ e.hash = hash := by
  have hhas : ∀ k, st.hasHash hash k = true ↔ ∃ e, st.names k = some e ∧ e.hash = hash := by
    intro k
    unfold State.hasHash
    cases st.names k with
    | none => exact ⟨nofun, fun ⟨_, h, _⟩ => nomatch h⟩
    | some e => exact ⟨fun heq => ⟨e, rfl, of_decide_eq_true heq⟩, fun ⟨_, he, heq⟩ => by cases he; exact decide_eq_true heq⟩
  unfold State.lookup
  constructor
  · intro hfind
    exact (hhas key).mp (find?_some hfind)
  · rintro ⟨e, he, rfl⟩
    have hmem : key ∈ st.buckets (e.hash.toNat % abstractHashSize) := (hi.listed _ _).mpr ⟨e, he, rfl⟩
    cases hfind : (st.buckets (e.hash.toNat % abstractHashSize)).find? (st.hasHash e.hash) with
    | none => exact absurd ((hhas key).mpr ⟨e, he, rfl⟩) (by simpa using find?_eq_none.mp hfind key hmem)
    | some k =>
      obtain ⟨e', he', heq⟩ := (hhas k).mp (find?_some hfind)
      rw [hi.hash_inj he' he heq]

theorem State.Inv.lookup_eq_none_iff (hi : st.Inv h) :
    st.lookup hash = none ↔ ∀ key e, st.names key = some e → e.hash ≠ hash := by
  constructor
  · intro hnone key e he heq
    rw [hi.lookup_eq_some_iff.mpr ⟨e, he, heq⟩] at hnone
    cases hnone
  · intro hall
    cases hfind : st.lookup hash with
    | none => rfl
    | some key =>
      obtain ⟨e, he, heq⟩ := hi.lookup_eq_some_iff.mp hfind
      exact absurd heq (hall key e he)

variable {name : List UInt8} {s : Nat}

theorem State.Inv.lookup_of_boundTo (hi : st.Inv h) (hb : st.BoundTo s name) :
    ∃ sock key e, st.sockets s = some sock ∧ sock.unixNameAbstract = some key ∧ st.names key = some e ∧
      st.lookup (strHash h name) = some key := by
  obtain ⟨sock, key, hsock, hkey, hname⟩ := hb
  obtain ⟨e, name', he, hname', hhash⟩ := hi.held hsock hkey
  rw [hname] at hname'
  cases hname'
  exact ⟨sock, key, e, hsock, hkey, he, hi.lookup_eq_some_iff.mpr ⟨e, he, hhash⟩⟩

/-- What the table finds is the name of a live socket; without a collision it is the name that was asked for. -/
theorem State.Inv.boundTo_of_lookup (hi : st.Inv h)
    (hfind : st.lookup (strHash h name) = some key) (hno : st.NoCollision h name) :
    ∃ s sock, st.BoundTo s name ∧ st.sockets s = some sock ∧ sock.unixNameAbstract = some key := by
  obtain ⟨e, he, hhash⟩ := hi.lookup_eq_some_iff.mp hfind
  obtain ⟨s, sock, hsock, hkey⟩ := hi.owner he
  obtain ⟨e', name', he', hname', hhash'⟩ := hi.held hsock hkey
  rw [he] at he'
  cases he'
  have hb : st.BoundTo s name' := ⟨sock, key, hsock, hkey, hname'⟩
  rw [hno s name' hb (hhash'.symm.trans hhash)] at hb
  exact ⟨s, sock, hb, hsock, hkey⟩

/-! ### Steps -/

theorem State.Inv.retain (hi : st.Inv h) (key : Nat) : (st.retain key).Inv h := by
  have hback : ∀ {k e}, (st.retain key).names k = some e →
      ∃ e', st.names k = some e' ∧ e'.hash = e.hash ∧ e'.socketId = e.socketId := by
    intro k e he
    unfold State.retain at he
    dsimp only at he
    rcases update_cases he with ⟨rfl, he⟩ | ⟨hk, he⟩
    · obtain ⟨e', he', rfl⟩ := map_eq_some_iff.mp he
      exact ⟨e', he', rfl, rfl⟩
    · exact ⟨e, he, rfl, rfl⟩
  have hforth : ∀ {k e}, st.names k = some e → ∃ e', (st.retain key).names k = some e' ∧ e'.hash = e.hash := by
    intro k e he
    unfold State.retain
    dsimp only
    by_cases hk : k = key
    · subst hk
      rw [update_self, he]
      exact ⟨_, rfl, rfl⟩
    · rw [update_of_ne hk]
      exact ⟨e, he, rfl⟩
  have hlists : Lists st.buckets (Option.map UnixAbstract.bucket ∘ (st.retain key).names) := by
    refine hi.lists.congr fun k => ?_
    show Option.map _ (update st.names key _ k) = Option.map _ (st.names k)
    rw [update_apply]
    split_ifs with hk
    · rw [hk, Option.map_map]
      rfl
    · rfl
  refine ⟨fun b k => (hlists.mem b k).trans map_eq_some_iff, hlists.nodup, ?_, ?_, ?_, ?_, ?_, ?_, hi.unique⟩
  · intro k k' e e' he he' heq
    obtain ⟨f, hf, hhash, -⟩ := hback he
    obtain ⟨f', hf', hhash', -⟩ := hback he'
    exact hi.hash_inj hf hf' (by rw [hhash, hhash', heq])
  · intro k k' e e' he he' heq
    obtain ⟨f, hf, -, hid⟩ := hback he
    obtain ⟨f', hf', -, hid'⟩ := hback he'
    exact hi.id_inj hf hf' (by rw [hid, hid', heq])
  · intro k e he
    obtain ⟨f, hf, -, hid⟩ := hback he
    rw [← hid]
    exact hi.id_le hf
  · intro k hk
    cases hnone : (st.retain key).names k with
    | none => rfl
    | some e =>
      obtain ⟨f, hf, -, -⟩ := hback hnone
      rw [hi.fresh hk] at hf
      cases hf
  · intro s sock k hsock hk
    obtain ⟨e, name, he, hname, hhash⟩ := hi.held hsock hk
    obtain ⟨e', he', hhash'⟩ := hforth he
    exact ⟨e', name, he', hname, hhash'.trans hhash⟩
  · intro k e he
    obtain ⟨f, hf, -, -⟩ := hback he
    exact hi.owner hf

/-- The state with a new name that has one reference. -/
def State.added (st : State) (hash : BitVec 32) : State :=
  { st.create hash with names := Function.update st.names st.fresh (some ⟨1#32, hash, st.nextId + 1#32⟩) }

theorem State.retain_create (st : State) (hash : BitVec 32) : (st.create hash).retain st.fresh = st.added hash := by
  unfold State.retain State.added
  congr 1
  show update (st.create hash).names st.fresh (((st.create hash).names st.fresh).map _) = _
  have hnew : (st.create hash).names st.fresh = some ⟨0#32, hash, st.nextId + 1#32⟩ := update_self _ _ _
  rw [hnew]
  exact update_idem _ _ _

/-- A name that cannot be bound is freed again. -/
theorem State.Inv.release_added (hi : st.Inv h) (hash : BitVec 32) :
    (st.added hash).unixAbstractRelease st.fresh = { st with fresh := st.fresh + 1, nextId := st.nextId + 1#32 } := by
  have hnew : (st.added hash).names st.fresh = some ⟨1#32, hash, st.nextId + 1#32⟩ := update_self _ _ _
  have hnames : update (st.added hash).names st.fresh none = st.names := by
    show update (update st.names st.fresh _) st.fresh none = _
    rw [update_idem, ← hi.fresh (Nat.le_refl _), update_eq_self]
  have hbuckets : update (st.added hash).buckets (hash.toNat % abstractHashSize)
      (((st.added hash).buckets (hash.toNat % abstractHashSize)).erase st.fresh) = st.buckets := by
    show update (update st.buckets _ _) _ ((update st.buckets _ _ _).erase _) = _
    rw [update_self, erase_cons_head, update_idem, update_eq_self]
  unfold State.unixAbstractRelease
  rw [hnew]
  dsimp only
  rw [if_pos (by decide), hnames, hbuckets]
  rfl

theorem toNat_succ {v : BitVec 32} (hv : v.toNat + 1 < 2 ^ 32) : (v + 1#32).toNat = v.toNat + 1 := by
  rw [BitVec.toNat_add]
  exact Nat.mod_eq_of_lt hv

theorem State.Inv.skip (hi : st.Inv h) (hid : st.nextId.toNat + 1 < 2 ^ 32) :
    State.Inv h { st with fresh := st.fresh + 1, nextId := st.nextId + 1#32 } where
  listed := hi.listed
  nodup := hi.nodup
  hash_inj := hi.hash_inj
  id_inj := hi.id_inj
  id_le he := by
    have hle := hi.id_le he
    have hsucc := toNat_succ hid
    exact Nat.le_trans hle (by show _ ≤ (st.nextId + 1#32).toNat; omega)
  fresh hk := hi.fresh (Nat.le_of_succ_le hk)
  held := hi.held
  owner := hi.owner
  unique := hi.unique

variable {sock : Sock}

theorem State.Inv.setSock_nameless (hi : st.Inv h) {new : Option Sock}
    (hold : ∀ sock, st.sockets s = some sock → sock.unixNameAbstract = none)
    (hnew : ∀ sock, new = some sock → sock.unixNameAbstract = none) : (st.setSock s new).Inv h where
  listed := hi.listed
  nodup := hi.nodup
  hash_inj := hi.hash_inj
  id_inj := hi.id_inj
  id_le := hi.id_le
  fresh := hi.fresh
  held hs hk := by
    rcases update_cases hs with ⟨rfl, hsome⟩ | ⟨-, hs⟩
    · rw [hnew _ hsome] at hk
      cases hk
    · exact hi.held hs hk
  owner he := by
    obtain ⟨s', sock, hs', hk⟩ := hi.owner he
    have hne : s' ≠ s := by
      rintro rfl
      rw [hold sock hs'] at hk
      cases hk
    exact ⟨s', sock, by rw [← hs']; exact update_of_ne hne _ _, hk⟩
  unique hs hs' hk hk' := by
    rcases update_cases hs with ⟨-, hsome⟩ | ⟨-, hs⟩
    · rw [hnew _ hsome] at hk
      cases hk
    · rcases update_cases hs' with ⟨-, hsome⟩ | ⟨-, hs'⟩
      · rw [hnew _ hsome] at hk'
        cases hk'
      · exact hi.unique hs hs' hk hk'

variable {e : UnixAbstract}

theorem names_added {k : Nat} (he : (st.added hash).names k = some e) :
    k = st.fresh ∧ e = ⟨1#32, hash, st.nextId + 1#32⟩ ∨ k ≠ st.fresh ∧ st.names k = some e :=
  (update_cases he).imp_left fun h => ⟨h.1, (Option.some.inj h.2).symm⟩

theorem State.Inv.bind (hi : st.Inv h) (hfree : st.lookup (strHash h name) = none)
    (hold : ∀ sock, st.sockets s = some sock → sock.unixNameAbstract = none) (hid : st.nextId.toNat + 1 < 2 ^ 32) :
    ((st.added (strHash h name)).setSock s (some ⟨some st.fresh, 0 :: name, true⟩)).Inv h := by
  have hsucc := toNat_succ hid
  have hnew : (st.added (strHash h name)).names st.fresh = some ⟨1#32, strHash h name, st.nextId + 1#32⟩ :=
    update_self _ _ _
  have hkeep : ∀ {k}, k ≠ st.fresh → (st.added (strHash h name)).names k = st.names k :=
    fun hk => update_of_ne hk _ _
  have hother := hi.lookup_eq_none_iff.mp hfree
  -- a key in use is not the new one
  have hne : ∀ {k e}, st.names k = some e → k ≠ st.fresh := by
    rintro k e he rfl
    rw [hi.fresh (Nat.le_refl _)] at he
    cases he
  have hlists := (hi.lists.cons (a := st.fresh) (by rw [comp_apply, hi.fresh le_rfl]; rfl)
    ((strHash h name).toNat % abstractHashSize)).congr (congrFun (comp_update _ st.names st.fresh
      (some ⟨1#32, strHash h name, st.nextId + 1#32⟩)))
  refine ⟨fun b k => (hlists.mem b k).trans map_eq_some_iff, hlists.nodup, ?_, ?_, ?_, ?_, ?_, ?_, ?_⟩
  · intro k k' e e' he he' heq
    rcases names_added he with ⟨rfl, rfl⟩ | ⟨-, he⟩
    · rcases names_added he' with ⟨rfl, rfl⟩ | ⟨-, he'⟩
      · rfl
      · exact absurd heq.symm (hother _ _ he')
    · rcases names_added he' with ⟨rfl, rfl⟩ | ⟨-, he'⟩
      · exact absurd heq (hother _ _ he)
      · exact hi.hash_inj he he' heq
  · intro k k' e e' he he' heq
    rcases names_added he with ⟨rfl, rfl⟩ | ⟨-, he⟩
    · rcases names_added he' with ⟨rfl, rfl⟩ | ⟨-, he'⟩
      · rfl
      · have hle := hi.id_le he'
        rw [← heq] at hle
        exact absurd hle (by show ¬(st.nextId + 1#32).toNat ≤ _; omega)
    · rcases names_added he' with ⟨rfl, rfl⟩ | ⟨-, he'⟩
      · have hle := hi.id_le he
        rw [heq] at hle
        exact absurd hle (by show ¬(st.nextId + 1#32).toNat ≤ _; omega)
      · exact hi.id_inj he he' heq
  · intro k e he
    show e.socketId.toNat ≤ (st.nextId + 1#32).toNat
    rcases names_added he with ⟨-, rfl⟩ | ⟨-, he⟩
    · exact Nat.le_refl _
    · have hle := hi.id_le he
      omega
  · intro k hk
    have hlt : st.fresh + 1 ≤ k := hk
    show (st.added (strHash h name)).names k = none
    rw [hkeep (by omega)]
    exact hi.fresh (by omega)
  · intro s' sock k hs hk
    rcases update_cases hs with ⟨-, hsome⟩ | ⟨-, hs⟩
    · cases hsome
      cases hk
      exact ⟨_, name, hnew, rfl, rfl⟩
    · obtain ⟨e, name', he, hname', hhash⟩ := hi.held hs hk
      exact ⟨e, name', by rw [← he]; exact hkeep (hne he), hname', hhash⟩
  · intro k e he
    rcases names_added he with ⟨rfl, -⟩ | ⟨-, he⟩
    · exact ⟨s, _, update_self _ _ _, rfl⟩
    · obtain ⟨s', sock, hs', hk⟩ := hi.owner he
      have hs : s' ≠ s := by
        rintro rfl
        rw [hold sock hs'] at hk
        cases hk
      exact ⟨s', sock, by rw [← hs']; exact update_of_ne hs _ _, hk⟩
  · intro s₁ s₂ sock₁ sock₂ k h₁ h₂ hk₁ hk₂
    -- no other socket has the new key
    have hnot : ∀ {s' sock}, st.sockets s' = some sock → sock.unixNameAbstract ≠ some st.fresh := by
      intro s' sock hs hk
      obtain ⟨e, -, he, -⟩ := hi.held hs hk
      exact hne he rfl
    rcases update_cases h₁ with ⟨rfl, hsome₁⟩ | ⟨-, hs₁⟩
    · cases hsome₁
      cases hk₁
      rcases update_cases h₂ with ⟨rfl, -⟩ | ⟨-, hs₂⟩
      · rfl
      · exact absurd hk₂ (hnot hs₂)
    · rcases update_cases h₂ with ⟨rfl, hsome₂⟩ | ⟨-, hs₂⟩
      · cases hsome₂
        cases hk₂
        exact absurd hk₁ (hnot hs₁)
      · exact hi.unique hs₁ hs₂ hk₁ hk₂

theorem State.Inv.close (hi : st.Inv h)
    (hsock : st.sockets s = some sock) (hkey : sock.unixNameAbstract = some key) (he : st.names key = some e)
    (hone : e.refcount = 1#32) : ((st.unixAbstractRelease key).setSock s none).Inv h := by
  have hrel : st.unixAbstractRelease key =
      { st with
        names := update st.names key none
        buckets := update st.buckets (e.hash.toNat % abstractHashSize)
          ((st.buckets (e.hash.toNat % abstractHashSize)).erase key) } := by
    unfold State.unixAbstractRelease
    rw [he]
    exact if_pos (by rw [hone]; decide)
  rw [hrel]
  have hback : ∀ {k e'}, update st.names key none k = some e' → k ≠ key ∧ st.names k = some e' := by
    intro k e' he'
    rcases update_cases he' with ⟨-, hnone⟩ | hkept
    · cases hnone
    · exact hkept
  have hother : ∀ {s' sock' k}, s' ≠ s → st.sockets s' = some sock' → sock'.unixNameAbstract = some k → k ≠ key := by
    rintro s' sock' k hne hs' hk rfl
    exact hne (hi.unique hs' hsock hk hkey)
  have hlists := (hi.lists.erase_of_eq_some (congrArg (Option.map UnixAbstract.bucket) he)).congr
    (congrFun (comp_update _ st.names key none))
  refine ⟨fun b k => (hlists.mem b k).trans map_eq_some_iff, hlists.nodup, ?_, ?_, ?_, ?_, ?_, ?_, ?_⟩
  · intro k k' e₁ e₂ h₁ h₂ heq
    exact hi.hash_inj (hback h₁).2 (hback h₂).2 heq
  · intro k k' e₁ e₂ h₁ h₂ heq
    exact hi.id_inj (hback h₁).2 (hback h₂).2 heq
  · intro k e' he'
    exact hi.id_le (hback he').2
  · intro k hk
    show update st.names key none k = none
    by_cases hkk : k = key
    · rw [hkk, update_self]
    · rw [update_of_ne hkk]
      exact hi.fresh hk
  · intro s' sock' k hs hk
    rcases update_cases hs with ⟨-, hsome⟩ | ⟨hne, hs⟩
    · cases hsome
    · obtain ⟨e', name, he', hname, hhash⟩ := hi.held hs hk
      exact ⟨e', name, by rw [← he']; exact update_of_ne (hother hne hs hk) _ _, hname, hhash⟩
  · intro k e' he'
    obtain ⟨hk, he'⟩ := hback he'
    obtain ⟨s', sock', hs', hk'⟩ := hi.owner he'
    have hne : s' ≠ s := by
      rintro rfl
      rw [hsock] at hs'
      cases hs'
      rw [hkey] at hk'
      exact hk (Option.some.inj hk').symm
    exact ⟨s', sock', by rw [← hs']; exact update_of_ne hne _ _, hk'⟩
  · intro s₁ s₂ sock₁ sock₂ k h₁ h₂ hk₁ hk₂
    rcases update_cases h₁ with ⟨-, hsome⟩ | ⟨-, h₁⟩
    · cases hsome
    · rcases update_cases h₂ with ⟨-, hsome⟩ | ⟨-, h₂⟩
      · cases hsome
      · exact hi.unique h₁ h₂ hk₁ hk₂

/-- A socket is bound once, names in use have different hashes, a socket is closed whose name nobody has connected
to, and the numbers of the sockets do not run out. -/
def State.Careful (h : Host) (st : State) : Act → Prop
  | .socket _ => True
  | .bind s name _ _ =>
    (∀ sock, st.sockets s = some sock → sock.unixNameAbstract = none) ∧ st.NoCollision h name ∧
      st.nextId.toNat + 1 < 2 ^ 32 ∧ h.pathFits (st.nextId + 1#32)
  | .connect _ name => st.NoCollision h name
  | .close s => ∀ sock key e, st.sockets s = some sock → sock.unixNameAbstract = some key → st.names key = some e →
      e.refcount = 1#32

/-- What `unix_abstract_get` does for `bind`. -/
theorem State.unixAbstractGet_bind (name : List UInt8) (malloc : Bool) : st.unixAbstractGet h name true malloc =
      if (st.lookup (strHash h name)).isSome = true then .error .eexist
      else if malloc = true then .ok (st.added (strHash h name), st.fresh) else .error .enomem := by
  unfold State.unixAbstractGet
  cases st.lookup (strHash h name) with
  | some key => rfl
  | none =>
    show (if malloc = true then .ok ((st.create (strHash h name)).retain st.fresh, st.fresh) else .error .enomem) =
      if malloc = true then (.ok (st.added (strHash h name), st.fresh) : Except Errno (State × Nat)) else .error .enomem
    rw [State.retain_create]

theorem State.nextId_added (st : State) (hash : BitVec 32) : (st.added hash).nextId = st.nextId + 1#32 := rfl

theorem State.Inv.step (hi : st.Inv h) {a : Act} (hcare : st.Careful h a) (hstep : st.step h a = some st') :
    st'.Inv h := by
  cases a with
  | socket s =>
    rw [State.step] at hstep
    cases hs : st.sockets s with
    | some sock => rw [hs] at hstep; cases hstep
    | none =>
      rw [hs] at hstep
      cases hstep
      refine hi.setSock_nameless (fun sock hsome => ?_) (fun sock hsome => ?_)
      · rw [hs] at hsome
        cases hsome
      · cases hsome
        rfl
  | bind s name malloc host =>
    obtain ⟨hold, -, hid, hfits⟩ := hcare
    obtain ⟨sock, hs, rfl⟩ := map_eq_some_iff.mp hstep
    unfold State.sysBind
    rw [State.unixAbstractGet_bind]
    cases hfind : st.lookup (strHash h name) with
    | some key => exact hi
    | none =>
      cases malloc with
      | false => exact hi
      | true =>
        rw [if_neg (by decide), if_pos rfl]
        dsimp only
        rw [State.nextId_added, hfits, if_neg (by decide)]
        by_cases hok : (host && !sock.bound) = true
        · rw [if_pos hok]
          exact hi.bind hfind hold hid
        · rw [if_neg hok]
          show State.Inv h ((State.unixAbstractRelease _ _).setSock _ _)
          rw [hi.release_added]
          refine (hi.skip hid).setSock_nameless hold fun sock hsome => ?_
          cases hsome
          rfl
  | connect s name =>
    obtain ⟨sock, -, rfl⟩ := map_eq_some_iff.mp hstep
    unfold State.unixAbstractGet
    cases st.lookup (strHash h name) with
    | some key => exact hi.retain key
    | none => exact hi
  | close s =>
    obtain ⟨sock, hs, rfl⟩ := map_eq_some_iff.mp hstep
    unfold State.sockClose
    cases hkey : sock.unixNameAbstract with
    | none =>
      refine hi.setSock_nameless (fun sock' hsome => ?_) nofun
      rw [hs] at hsome
      cases hsome
      exact hkey
    | some key =>
      obtain ⟨e, name, he, -⟩ := hi.held hs hkey
      exact hi.close hs hkey he (hcare sock key e hs hkey he)

theorem inv_of_run (hrun : Run (State.step h) (State.Careful h) State.init st) : st.Inv h :=
  hrun.inv (State.Inv h) (fun _ _ _ hi hcare hstep => hi.step hcare hstep) State.inv_init

theorem step_close {s : Nat} (hs : st.sockets s = some sock) (hk : sock.unixNameAbstract = some key) :
    st.step h (.close s) = some ((st.unixAbstractRelease key).setSock s none) := by
  rw [State.step, hs, map_some]
  unfold State.sockClose
  rw [hk]

theorem step_bind (hs : st.sockets s = some sock) (hb : sock.bound = false)
    (hfits : h.pathFits (st.nextId + 1#32)) (hfree : st.lookup (strHash h name) = none) :
    st.step h (.bind s name true true) =
      some ((st.added (strHash h name)).setSock s (some ⟨some st.fresh, 0 :: name, true⟩)) := by
  rw [State.step, hs, map_some]
  unfold State.sysBind
  rw [State.unixAbstractGet_bind, hfree, if_neg (by decide), if_pos rfl]
  dsimp only
  rw [State.nextId_added, hfits, if_neg (by decide), hb]
  rfl

/-! ### What the operations find -/

/-- The number of the socket that `connect` goes to. -/
def State.resolve (h : Host) (st : State) (name : List UInt8) : Option (BitVec 32) :=
  match st.unixAbstractGet h name false true with
  | .error _ => none
  | .ok (st', key) => (st'.names key).map UnixAbstract.socketId

/-- The number of the socket behind a bound one. -/
def State.backing (st : State) (s : Nat) : Option (BitVec 32) :=
  (st.sockets s).bind fun sock => sock.unixNameAbstract.bind fun key => (st.names key).map UnixAbstract.socketId

theorem State.resolve_eq (h : Host) (st : State) (name : List UInt8) :
    st.resolve h name = (st.lookup (strHash h name)).bind fun key => (st.names key).map UnixAbstract.socketId := by
  unfold State.resolve State.unixAbstractGet
  cases st.lookup (strHash h name) with
  | none => rfl
  | some key =>
    show ((st.retain key).names key).map UnixAbstract.socketId = (st.names key).map UnixAbstract.socketId
    unfold State.retain
    dsimp only
    rw [update_self]
    cases st.names key <;> rfl

theorem backing_eq {s : Nat} (hs : st.sockets s = some sock) (hk : sock.unixNameAbstract = some key) :
    st.backing s = (st.names key).map UnixAbstract.socketId := by
  rw [State.backing, hs, bind_some, hk, bind_some]

/-- **`connect` goes to the socket that is bound to the name.** -/
theorem State.Inv.resolve_eq_some_iff (hi : st.Inv h) (hno : st.NoCollision h name) {id : BitVec 32} :
    st.resolve h name = some id ↔ ∃ s, st.BoundTo s name ∧ st.backing s = some id := by
  rw [State.resolve_eq]
  constructor
  · intro hsome
    obtain ⟨key, hfind, hid⟩ := bind_eq_some_iff.mp hsome
    obtain ⟨s, sock, hb, hs, hk⟩ := hi.boundTo_of_lookup hfind hno
    exact ⟨s, hb, by rw [backing_eq hs hk]; exact hid⟩
  · rintro ⟨s, hb, hid⟩
    obtain ⟨sock, key, e, hs, hk, he, hfind⟩ := hi.lookup_of_boundTo hb
    rw [backing_eq hs hk] at hid
    rw [hfind]
    exact hid

theorem State.Inv.backing_inj (hi : st.Inv h) {s s' : Nat} {name name' : List UInt8} (hb : st.BoundTo s name)
    (hb' : st.BoundTo s' name') : st.backing s = st.backing s' ↔ name = name' := by
  obtain ⟨sock, key, e, hs, hk, he, hfind⟩ := hi.lookup_of_boundTo hb
  obtain ⟨sock', key', e', hs', hk', he', hfind'⟩ := hi.lookup_of_boundTo hb'
  rw [backing_eq hs hk, backing_eq hs' hk', he, he']
  constructor
  · intro heq
    obtain rfl := hi.id_inj he he' (Option.some.inj heq)
    obtain rfl := hi.unique hs hs' hk hk'
    obtain ⟨sock₁, -, h₁, -, hname⟩ := hb
    obtain ⟨sock₂, -, h₂, -, hname'⟩ := hb'
    rw [h₁] at h₂
    cases h₂
    rw [hname] at hname'
    exact (List.cons.inj hname').2
  · rintro rfl
    rw [hfind] at hfind'
    obtain rfl := Option.some.inj hfind'
    rw [he] at he'
    rw [Option.some.inj he']

theorem State.Inv.get_of_boundTo (hi : st.Inv h) (hb : st.BoundTo s name) (malloc : Bool) :
    st.unixAbstractGet h name true malloc = .error .eexist := by
  obtain ⟨sock, key, e, -, -, -, hfind⟩ := hi.lookup_of_boundTo hb
  rw [State.unixAbstractGet_bind, hfind]
  rfl

/-- **After the close the name is free.** -/
theorem State.Inv.free_of_close (hi : st.Inv h) (hb : st.BoundTo s name)
    (hcare : st.Careful h (.close s)) (hstep : st.step h (.close s) = some st') : (∀ s', ¬st'.BoundTo s' name) ∧
      st'.unixAbstractGet h name true true = .ok (st'.added (strHash h name), st'.fresh) := by
  have hi' := hi.step hcare hstep
  have hlookup : st'.lookup (strHash h name) = none := by
    obtain ⟨sock, key, e, hs, hk, he, hfind⟩ := hi.lookup_of_boundTo hb
    obtain ⟨e', he', hhash⟩ := hi.lookup_eq_some_iff.mp hfind
    rw [he] at he'
    cases he'
    rw [step_close hs hk] at hstep
    cases hstep
    refine hi'.lookup_eq_none_iff.mpr fun k e' hk' heq => ?_
    have hone := hcare sock key e hs hk he
    unfold State.unixAbstractRelease at hk'
    rw [he] at hk'
    dsimp only at hk'
    rw [if_pos (by rw [hone]; decide)] at hk'
    rcases update_cases hk' with ⟨-, hnone⟩ | ⟨hkk, hk'⟩
    · cases hnone
    · exact hkk (hi.hash_inj hk' he (heq.trans hhash.symm))
  constructor
  · intro s' hb'
    obtain ⟨-, key, -, -, -, -, hfind⟩ := hi'.lookup_of_boundTo hb'
    rw [hlookup] at hfind
    cases hfind
  · rw [State.unixAbstractGet_bind, hlookup]
    rfl

/-- **In every careful run** a name stands for the one socket that is bound to it, it cannot be bound twice, and
it can be bound again when the socket is closed. -/
theorem abstract_names_of_run (hrun : Run (State.step h) (State.Careful h) State.init st) :
    (∀ name₁ name₂ id₁ id₂, st.NoCollision h name₁ → st.NoCollision h name₂ → st.resolve h name₁ = some id₁ →
        st.resolve h name₂ = some id₂ → (id₁ = id₂ ↔ name₁ = name₂)) ∧ (∀ name id, st.NoCollision h name →
        (st.resolve h name = some id ↔ ∃ s, st.BoundTo s name ∧ st.backing s = some id)) ∧
      (∀ s name malloc, st.BoundTo s name → st.unixAbstractGet h name true malloc = .error .eexist) ∧
      ∀ s name st', st.BoundTo s name → st.Careful h (.close s) → st.step h (.close s) = some st' →
        (∀ s', ¬st'.BoundTo s' name) ∧ ∃ r, st'.unixAbstractGet h name true true = .ok r := by
  have hi := inv_of_run hrun
  refine ⟨?_, fun name id hno => hi.resolve_eq_some_iff hno, fun s name malloc hb => hi.get_of_boundTo hb malloc, ?_⟩
  · intro name₁ name₂ id₁ id₂ hno₁ hno₂ h₁ h₂
    obtain ⟨s₁, hb₁, hid₁⟩ := (hi.resolve_eq_some_iff hno₁).mp h₁
    obtain ⟨s₂, hb₂, hid₂⟩ := (hi.resolve_eq_some_iff hno₂).mp h₂
    rw [← hi.backing_inj hb₁ hb₂, hid₁, hid₂, some_inj]
  · intro s name st' hb hcare hstep
    obtain ⟨hnone, hget⟩ := hi.free_of_close hb hcare hstep
    exact ⟨hnone, _, hget⟩

/-! ### The conditions are needed -/

theorem State.Inv.resolve_of_collision (hi : st.Inv h) {name name' : List UInt8} (hb : st.BoundTo s name')
    (hhash : strHash h name' = strHash h name) : st.resolve h name = st.backing s := by
  obtain ⟨sock, key, e, hs, hk, he, hfind⟩ := hi.lookup_of_boundTo hb
  rw [State.resolve_eq, ← hhash, hfind, backing_eq hs hk]
  rfl

theorem State.Inv.taken_of_close (hi : st.Inv h)
    (hb : st.BoundTo s name) (hs : st.sockets s = some sock) (hk : sock.unixNameAbstract = some key)
    (he : st.names key = some e) (href : e.refcount ≠ 1#32) (malloc : Bool)
    (hstep : st.step h (.close s) = some st') : st'.unixAbstractGet h name true malloc = .error .eexist := by
  obtain ⟨sock', key', -, hs', hk', -, hfind⟩ := hi.lookup_of_boundTo hb
  rw [hs] at hs'
  cases hs'
  rw [hk] at hk'
  cases hk'
  obtain ⟨e', he', hhash⟩ := hi.lookup_eq_some_iff.mp hfind
  rw [he] at he'
  cases he'
  have hne : ¬e.refcount - 1#32 = 0#32 := by bv_omega
  rw [step_close hs hk] at hstep
  cases hstep
  have hsome : (((st.unixAbstractRelease key).setSock s none).lookup (strHash h name)).isSome = true := by
    unfold State.unixAbstractRelease
    rw [he]
    dsimp only
    rw [if_neg hne]
    refine find?_isSome.mpr ⟨key, (hi.listed _ _).mpr ⟨e, he, by rw [hhash]⟩, ?_⟩
    show State.hasHash _ (strHash h name) key = true
    unfold State.hasHash State.setSock
    simp only [update_self]
    exact decide_eq_true hhash
  rw [State.unixAbstractGet_bind, if_pos hsome]

/-! ### Runs -/

def someHost : Host := ⟨true, fun _ => true⟩

def boundState (name : List UInt8) : State :=
  ((State.init.setSock 0 (some ⟨none, [], false⟩)).added (strHash someHost name)).setSock 0
    (some ⟨some 0, 0 :: name, true⟩)

theorem run_boundState (name : List UInt8) :
    Run (State.step someHost) (State.Careful someHost) State.init (boundState name) := by
  have hsocket : Run (State.step someHost) (State.Careful someHost) State.init
      (State.init.setSock 0 (some ⟨none, [], false⟩)) := Run.single (.socket 0) trivial rfl
  refine hsocket.tail (.bind 0 name true true) ⟨?_, ?_, ?_, rfl⟩ (step_bind rfl rfl rfl rfl)
  · intro sock hs
    cases hs
    rfl
  · rintro s name' ⟨sock, key, hs, hk, -⟩
    rcases update_cases hs with ⟨-, hsome⟩ | ⟨-, hs⟩
    · cases hsome
      cases hk
    · cases hs
  · decide

theorem boundTo_boundState (name : List UInt8) : (boundState name).BoundTo 0 name := ⟨_, _, rfl, rfl, rfl⟩

theorem sockets_boundState (hs : (boundState name).sockets s = some sock) :
    s = 0 ∧ sock = ⟨some 0, 0 :: name, true⟩ := by
  rcases update_cases hs with ⟨rfl, hsome⟩ | ⟨hne, hs⟩
  · exact ⟨rfl, (Option.some.inj hsome).symm⟩
  · rcases update_cases hs with ⟨rfl, -⟩ | ⟨-, hs⟩
    · exact absurd rfl hne
    · cases hs

/-- The name `a` is bound, it cannot be bound again, and after the close it can. -/
theorem abstract_names_of_run_bound : Run (State.step someHost) (State.Careful someHost) State.init (boundState [97]) ∧
      (boundState [97]).unixAbstractGet someHost [97] true true = .error .eexist ∧
      (boundState [97]).resolve someHost [97] = some 1#32 ∧
      ∃ st', (boundState [97]).step someHost (.close 0) = some st' ∧
        ∃ r, st'.unixAbstractGet someHost [97] true true = .ok r := by
  obtain ⟨-, hresolve, hbind, hclose⟩ := abstract_names_of_run (run_boundState [97])
  have hno : (boundState [97]).NoCollision someHost [97] := by
    rintro s name' ⟨sock, key, hs, -, hname⟩ -
    rw [(sockets_boundState hs).2] at hname
    exact (List.cons.inj hname).2.symm
  have hcare : (boundState [97]).Careful someHost (.close 0) := by
    intro sock key e hs hk he
    cases hs
    cases hk
    cases he
    rfl
  have hb := boundTo_boundState [97]
  exact ⟨run_boundState [97], hbind 0 [97] true hb, (hresolve [97] 1#32 hno).mpr ⟨0, hb, rfl⟩,
    _, step_close rfl rfl, (hclose 0 [97] _ hb hcare (step_close rfl rfl)).2⟩

/-- Another socket has connected to the name and is closed. -/
def connectedState : State := (((boundState [97]).setSock 1 (some ⟨none, [], false⟩)).retain 0).setSock 1 none

theorem run_connectedState : Run (State.step someHost) anyStep State.init connectedState := by
  have hrun : Run (State.step someHost) anyStep State.init (boundState [97]) :=
    (run_boundState [97]).mono fun _ _ _ => trivial
  have hfind : ((boundState [97]).setSock 1 (some ⟨none, [], false⟩)).lookup (strHash someHost [97]) = some 0 := by
    obtain ⟨sock, key, e, hs, hk, -, hfind⟩ := (inv_of_run (run_boundState [97])).lookup_of_boundTo
      (boundTo_boundState [97])
    cases hs
    cases hk
    exact hfind
  have hsocket := hrun.tail (.socket 1) trivial (u := (boundState [97]).setSock 1 (some ⟨none, [], false⟩)) rfl
  have hconnect := hsocket.tail (.connect 1 [97]) trivial
    (u := ((boundState [97]).setSock 1 (some ⟨none, [], false⟩)).retain 0) (by
      rw [State.step]
      unfold State.unixAbstractGet
      rw [hfind]
      rfl)
  exact hconnect.tail (.close 1) trivial rfl

/-- After a `connect` the name is taken though no socket is left; and a name that differs only after a zero byte
goes to the same socket. -/
theorem abstract_name_leaks : (∃ st st', Run (State.step someHost) anyStep State.init st ∧ st.BoundTo 0 [97] ∧
        st.step someHost (.close 0) = some st' ∧ (∀ s name, ¬st'.BoundTo s name) ∧
        st'.unixAbstractGet someHost [97] true true = .error .eexist) ∧
      ∃ st, Run (State.step someHost) anyStep State.init st ∧ st.BoundTo 0 [97, 0, 120] ∧
        st.resolve someHost [97, 0, 121] = st.backing 0 ∧ st.backing 0 = some 1#32 := by
  constructor
  · have hi : connectedState.Inv someHost := by
      refine State.Inv.setSock_nameless (State.Inv.retain (State.Inv.setSock_nameless
        (inv_of_run (run_boundState [97])) ?_ ?_) 0) ?_ nofun
      · intro sock hs
        exact absurd (sockets_boundState hs).1 (by decide)
      · intro sock hs
        cases hs
        rfl
      · intro sock hs
        cases hs
        rfl
    have hb : connectedState.BoundTo 0 [97] := ⟨_, _, rfl, rfl, rfl⟩
    refine ⟨connectedState, _, run_connectedState, hb, step_close rfl rfl, ?_, ?_⟩
    · rintro s name ⟨sock, key, hs, -, -⟩
      rcases update_cases hs with ⟨-, hsome⟩ | ⟨hne, hs⟩
      · cases hsome
      · have hsock : connectedState.sockets s = some sock := hs
        rcases update_cases hsock with ⟨-, hsome⟩ | ⟨hne', hs⟩
        · cases hsome
        · rcases update_cases hs with ⟨heq, -⟩ | ⟨-, hs⟩
          · exact hne' heq
          · exact hne (sockets_boundState hs).1
    · exact hi.taken_of_close hb rfl rfl rfl (by decide) true (step_close rfl rfl)
  · have hb := boundTo_boundState [97, 0, 120]
    refine ⟨_, (run_boundState [97, 0, 120]).mono fun _ _ _ => trivial, hb, ?_, rfl⟩
    exact (inv_of_run (run_boundState [97, 0, 120])).resolve_of_collision hb rfl

end Ish.AbstractSocket
