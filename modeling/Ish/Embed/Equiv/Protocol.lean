import Ish.Embed.Protocol

/-!
# Frames arrive however the stream is cut

`try_decode_frame` reads a frame from the start of its encoding, whatever comes after it, and asks for more
if only a part is there (`reads_encodeFrame`). So the loop of the supervisor, which appends what it has read
and decodes until more is needed, gives the frames that were sent (`feed_encoded`). What it
accepts of any stream is made of lengths and payloads (`stream_of_frames`).
-/

namespace Ish.Embed

open Lib List Option

variable {T : Type} {P : Postcard T}

/-- What `postcard` writes it reads back. -/
def Postcard.RoundTrips (P : Postcard T) : Prop :=
  ∀ value payload, P.toAllocvec value = some payload → P.fromBytes payload = some value

theorem checkedAdd_eq {len : Nat} (h : len ≤ maxFrameBytes) : checkedAdd 4 len = some (4 + len) := by
  have hmax : maxFrameBytes = 8388608 := rfl
  exact if_pos (by omega)

/-- What `try_decode_frame` does once the length is there. -/
theorem tryDecodeFrame_eq {buf : List UInt8} {len : Nat} (hbuf : 4 ≤ buf.length) (hlen : leNat (buf.take 4) = len)
    (hmax : len ≤ maxFrameBytes) : tryDecodeFrame P buf = if buf.length < 4 + len then .ok none else
        match P.fromBytes ((buf.take (4 + len)).drop 4) with
        | none => .error .decode
        | some value => .ok (some (value, 4 + len)) := by
  unfold tryDecodeFrame
  rw [if_neg (Nat.not_lt.mpr hbuf)]
  dsimp only
  rw [hlen, if_neg (Nat.not_lt.mpr hmax)]
  cases hsum : checkedAdd 4 len with
  | none => exact absurd ((checkedAdd_eq hmax).symm.trans hsum) nofun
  | some n =>
    obtain rfl : 4 + len = n := Option.some.inj ((checkedAdd_eq hmax).symm.trans hsum)
    rfl

theorem tryDecodeFrame_some {buf : List UInt8} {value : T} {n : Nat}
    (h : tryDecodeFrame P buf = .ok (some (value, n))) : 4 ≤ n ∧ n ≤ buf.length := by
  by_cases hbuf : buf.length < 4
  · rw [tryDecodeFrame, if_pos hbuf] at h
    cases h
  · by_cases hmax : maxFrameBytes < leNat (buf.take 4)
    · rw [tryDecodeFrame, if_neg hbuf] at h
      dsimp only at h
      rw [if_pos hmax] at h
      cases h
    · rw [tryDecodeFrame_eq (Nat.not_lt.mp hbuf) rfl (Nat.not_lt.mp hmax)] at h
      by_cases htotal : buf.length < 4 + leNat (buf.take 4)
      · rw [if_pos htotal] at h
        cases h
      · rw [if_neg htotal] at h
        split at h
        · cases h
        · cases h
          omega

def frameDecoder (P : Postcard T) : Decoder UInt8 T FrameError where
  step := tryDecodeFrame P
  pos h := Nat.lt_of_lt_of_le (by decide) (tryDecodeFrame_some h).1
  le h := (tryDecodeFrame_some h).2
  empty := rfl

theorem frameDecoder_step (P : Postcard T) (buf : List UInt8) : (frameDecoder P).step buf = tryDecodeFrame P buf := rfl

theorem encodeFrame_eq {value : T} {payload : List UInt8} (hpay : P.toAllocvec value = some payload)
    (hmax : payload.length ≤ maxFrameBytes) : encodeFrame P value = some (leBytes 4 payload.length ++ payload) := by
  have hbound : maxFrameBytes = 8388608 := rfl
  rw [encodeFrame, hpay, map_some, Nat.mod_eq_of_lt (by omega)]

theorem leNat_length_bytes {n : Nat} (h : n ≤ maxFrameBytes) : leNat (leBytes 4 n) = n := by
  have hbound : maxFrameBytes = 8388608 := rfl
  rw [leNat_leBytes, Nat.mod_eq_of_lt (by omega)]

theorem take_frame {n : Nat} (payload rest : List UInt8) : (leBytes 4 n ++ payload ++ rest).take 4 = leBytes 4 n := by
  rw [append_assoc, take_append_of_le_length (by rw [length_leBytes]), take_of_length_le]
  rw [length_leBytes]

/-- **A frame is read from its encoding and from no part of it.** -/
theorem reads_encodeFrame (hP : P.RoundTrips) {value : T} {payload : List UInt8}
    (hpay : P.toAllocvec value = some payload) (hmax : payload.length ≤ maxFrameBytes) :
    (frameDecoder P).Reads value (leBytes 4 payload.length ++ payload) := by
  have hlen : (leBytes 4 payload.length ++ payload).length = 4 + payload.length := by
    rw [length_append, length_leBytes]
  constructor
  · intro rest
    have htake : ((leBytes 4 payload.length ++ payload ++ rest).take (4 + payload.length)).drop 4 = payload := by
      rw [take_append_of_le_length (by omega), take_of_length_le (by omega),
        drop_left' (length_leBytes _ _)]
    rw [frameDecoder_step, tryDecodeFrame_eq (by rw [length_append]; omega)
      (by rw [take_frame, leNat_length_bytes hmax]) hmax, htake, hP _ _ hpay, hlen]
    exact if_neg (by rw [length_append]; omega)
  · rintro p ⟨rest, hrest⟩ hne
    have hlt : p.length < 4 + payload.length := by
      have hsum := congrArg List.length hrest
      rw [length_append, hlen] at hsum
      have hpos : rest ≠ [] := by
        rintro rfl
        exact hne (by rw [← hrest, append_nil])
      have := length_pos_of_ne_nil hpos
      omega
    rw [frameDecoder_step]
    by_cases hp : p.length < 4
    · exact if_pos hp
    · -- the length is there but not the whole payload
      have htake : p.take 4 = leBytes 4 payload.length := by
        have h := take_frame (n := payload.length) payload []
        rw [append_nil, ← hrest, take_append_of_le_length (Nat.not_lt.mp hp)] at h
        exact h
      rw [tryDecodeFrame_eq (Nat.not_lt.mp hp) (by rw [htake, leNat_length_bytes hmax]) hmax, if_pos hlt]

theorem exists_items (hP : P.RoundTrips) {frames : List T} {encs : List (List UInt8)}
    (henc : frames.mapM (encodeFrame P) = some encs)
    (hmax : ∀ value ∈ frames, ∀ payload, P.toAllocvec value = some payload → payload.length ≤ maxFrameBytes) :
    ∃ items : List (T × List UInt8), items.map Prod.fst = frames ∧ items.map Prod.snd = encs ∧
      ∀ x ∈ items, (frameDecoder P).Reads x.1 x.2 := by
  induction frames generalizing encs with
  | nil =>
    cases henc
    exact ⟨[], rfl, rfl, by simp⟩
  | cons value frames ih =>
    rw [mapM_cons] at henc
    obtain ⟨enc, hvalue, henc⟩ := bind_eq_some_iff.mp henc
    obtain ⟨encs', hframes, henc⟩ := bind_eq_some_iff.mp henc
    cases henc
    obtain ⟨items, hfst, hsnd, hreads⟩ := ih hframes fun v hv => hmax v (mem_cons_of_mem _ hv)
    obtain ⟨payload, hpay, -⟩ := map_eq_some_iff.mp hvalue
    have hfits := hmax value (by simp) payload hpay
    rw [encodeFrame_eq hpay hfits] at hvalue
    cases hvalue
    refine ⟨(value, leBytes 4 payload.length ++ payload) :: items, ?_, ?_, ?_⟩
    · rw [map_cons, hfst]
    · rw [map_cons, hsnd]
    · intro x hx
      rcases mem_cons.mp hx with rfl | hx
      · exact reads_encodeFrame hP hpay hfits
      · exact hreads x hx

/-- **Frames arrive in order however the stream is cut**, nothing is left in the buffer, and a part of a frame
gives nothing. -/
theorem feed_encoded (hP : P.RoundTrips) {frames : List T} {encs chunks : List (List UInt8)}
    (henc : frames.mapM (encodeFrame P) = some encs)
    (hmax : ∀ value ∈ frames, ∀ payload, P.toAllocvec value = some payload → payload.length ≤ maxFrameBytes)
    (hcut : chunks.flatten = encs.flatten) : (frameDecoder P).feed [] chunks = ⟨frames, [], none⟩ ∧
      ∀ enc ∈ encs, ∀ p, p <+: enc → p ≠ enc → tryDecodeFrame P p = .ok none := by
  obtain ⟨items, rfl, rfl, hreads⟩ := exists_items hP henc hmax
  constructor
  · exact Decoder.feed_eq hreads (Decoder.pending_nil hreads) hcut
  · intro enc henc p hpart hne
    obtain ⟨x, hx, rfl⟩ := mem_map.mp henc
    exact (hreads x hx).part p hpart hne

/-- Payloads that are their own bytes. -/
def bytesPostcard : Postcard (List UInt8) := ⟨some, some⟩

/-- Two frames in three chunks, cut within a length and within a payload. -/
theorem feed_encoded_cut :
    (frameDecoder bytesPostcard).feed [] [[2, 0], [0, 0, 7], [9, 0, 0, 0, 0]] = ⟨[[7, 9], []], [], none⟩ ∧
      tryDecodeFrame bytesPostcard [2, 0, 0, 0, 7] = .ok none := by
  have h := @feed_encoded _ bytesPostcard (by intro value payload h; cases h; rfl) [[7, 9], []]
    [[2, 0, 0, 0, 7, 9], [0, 0, 0, 0]] [[2, 0], [0, 0, 7], [9, 0, 0, 0, 0]] (by decide)
    (by
      intro value hvalue payload hpay
      cases hpay
      rcases mem_cons.mp hvalue with rfl | hvalue
      · decide
      · rw [mem_singleton.mp hvalue]
        decide)
    (by decide)
  exact ⟨h.1, h.2 [2, 0, 0, 0, 7, 9] (by simp) [2, 0, 0, 0, 7] ⟨[9], rfl⟩ (by decide)⟩

/-! ### Any stream -/

theorem stable_frameDecoder (P : Postcard T) : (frameDecoder P).Stable := by
  intro buf more h
  rw [frameDecoder_step] at h ⊢
  rw [frameDecoder_step]
  by_cases hbuf : buf.length < 4
  · exact absurd (if_pos hbuf) h
  have hlen : 4 ≤ (buf ++ more).length := by rw [length_append]; omega
  have htake : (buf ++ more).take 4 = buf.take 4 := take_append_of_le_length (Nat.not_lt.1 hbuf)
  by_cases hmax : maxFrameBytes < leNat (buf.take 4)
  · rw [tryDecodeFrame, tryDecodeFrame, if_neg hbuf, if_neg (Nat.not_lt.2 hlen)]
    dsimp only
    rw [htake, if_pos hmax, if_pos hmax]
  · rw [tryDecodeFrame_eq (Nat.not_lt.1 hbuf) rfl (Nat.not_lt.1 hmax)] at h ⊢
    rw [tryDecodeFrame_eq hlen (by rw [htake]) (Nat.not_lt.1 hmax)]
    have htotal : ¬buf.length < 4 + leNat (buf.take 4) := fun hlt => h (if_pos hlt)
    rw [if_neg htotal, if_neg (by rw [length_append]; omega), take_append_of_le_length (Nat.not_lt.1 htotal)]

/-- **A stream is decoded as if it came at once**, also when it is not well formed: the frames before an error are the
same. -/
theorem feed_eq_drain_frames (P : Postcard T) (chunks : List (List UInt8)) :
    ((frameDecoder P).feed [] chunks).Agrees ((frameDecoder P).drain chunks.flatten) :=
  (stable_frameDecoder P).feed_agrees (frameDecoder P).empty chunks

/-- What is accepted is a length and a payload of this length. -/
theorem frame_of_tryDecodeFrame {value : T} {bs more : List UInt8}
    (h : tryDecodeFrame P (bs ++ more) = .ok (some (value, bs.length))) : ∃ payload, payload.length ≤ maxFrameBytes ∧
      bs = leBytes 4 payload.length ++ payload ∧ P.fromBytes payload = some value := by
  obtain ⟨h4, -⟩ := tryDecodeFrame_some h
  have htake : (bs ++ more).take 4 = bs.take 4 := take_append_of_le_length h4
  have hbuf : 4 ≤ (bs ++ more).length := by rw [length_append]; omega
  by_cases hmax : maxFrameBytes < leNat (bs.take 4)
  · rw [tryDecodeFrame, if_neg (Nat.not_lt.2 hbuf)] at h
    dsimp only at h
    rw [htake, if_pos hmax] at h
    cases h
  rw [tryDecodeFrame_eq hbuf (by rw [htake]) (Nat.not_lt.1 hmax)] at h
  split_ifs at h with hshort
  · cases h
  split at h
  · cases h
  next v hv =>
    simp only [Except.ok.injEq, Option.some.injEq, Prod.mk.injEq] at h
    obtain ⟨rfl, hn⟩ := h
    refine ⟨bs.drop 4, by rw [length_drop]; omega, ?_, ?_⟩
    · have hlen := leBytes_leNat (bs.take 4)
      rw [length_take_of_le h4] at hlen
      rw [length_drop, ← hn, Nat.add_sub_cancel_left, hlen, take_append_drop]
    · rwa [hn, take_append_of_le_length le_rfl, take_length] at hv

/-- **What is accepted is well formed**: the stream is made of lengths with their payloads, up to what is left. -/
theorem stream_of_frames {chunks : List (List UInt8)} {frames : List T} {rest : List UInt8}
    (h : (frameDecoder P).feed [] chunks = ⟨frames, rest, none⟩) :
    ∃ payloads : List (List UInt8), payloads.mapM P.fromBytes = some frames ∧
      (∀ p ∈ payloads, p.length ≤ maxFrameBytes) ∧
      chunks.flatten = payloads.flatMap (fun p => leBytes 4 p.length ++ p) ++ rest := by
  obtain ⟨hvalues, -, -, hrest⟩ := (stable_frameDecoder P).feed_agrees (frameDecoder P).empty chunks
  obtain ⟨items, hfst, hbuf, hitems⟩ := (frameDecoder P).drain_spec ([] ++ chunks.flatten)
  rw [← hvalues, h] at hfst
  rw [← hrest (by rw [h]), h] at hbuf
  subst hfst
  rw [show chunks.flatten = _ from hbuf]
  clear h hbuf hvalues hrest
  induction items with
  | nil => exact ⟨[], rfl, nofun, rfl⟩
  | cons x items ih =>
    obtain ⟨payloads, hmap, hle, hflat⟩ := ih fun y hy => hitems y (mem_cons_of_mem _ hy)
    obtain ⟨more, hstep⟩ := hitems x mem_cons_self
    obtain ⟨payload, hlen, hbs, hval⟩ := frame_of_tryDecodeFrame hstep
    refine ⟨payload :: payloads, ?_, ?_, ?_⟩
    · rw [mapM_cons, hval, hmap]
      rfl
    · exact forall_mem_cons.2 ⟨hlen, hle⟩
    · rw [show Decoder.encoded (x :: items) = x.2 ++ Decoder.encoded items from rfl, append_assoc, hflat, hbs,
        flatMap_cons, append_assoc (leBytes 4 _ ++ _)]

theorem stream_of_frames_bytes : ∃ payloads : List (List UInt8), payloads.mapM some = some [[7, 9]] ∧
      (∀ p ∈ payloads, p.length ≤ maxFrameBytes) ∧
      [2, 0, 0, 0, 7, 9, 5] = payloads.flatMap (fun p => leBytes 4 p.length ++ p) ++ [5] := by
  have hframe : (frameDecoder bytesPostcard).step [2, 0, 0, 0, 7, 9, 5] = .ok (some ([7, 9], 6)) := by decide
  have hrest : (frameDecoder bytesPostcard).step [5] = .ok none := by decide
  refine @stream_of_frames _ bytesPostcard [[2, 0, 0, 0, 7, 9, 5]] _ _ ?_
  simp only [Decoder.feed, nil_append, Decoder.drain_some hframe, drop, Decoder.drain_none hrest]
  rfl

end Ish.Embed
