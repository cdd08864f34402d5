import Tunneld.Lib.BigEndian
import Tunneld.Lib.Reader

/-!
# The control stream

The server and the phone exchange control frames: a type, the length of the payload in four bytes,
and the payload.  `encodeControl` makes a frame.  Each side has a reader of its own, which reads the
five bytes of the header, refuses a length above the limit, and then reads the payload; the server
decodes the frame in its read loop, the client in the reader.

The stream is a `Source`: its bytes, cut into reads in any way.  What the two readers do is a
function of the bytes alone (`readRaw_frame`, `readRaw_tooLarge`, `readRaw_ok`), and by these the
two loops give back the frames that were sent.  The JSON encoding of a payload is a parameter.

## Main results

* `control_codec`: both readers agree with the encoder, and with each other.
-/

namespace Tunneld.Wire

open Stream

abbrev Bytes := List UInt8

/-- `maxControlPayload`. -/
def maxControlPayload : Nat := 1048576

/-! ## Frames -/

/-- A frame with so typed and such a payload. -/
def frame (t : UInt8) (body : Bytes) : Bytes := t :: (BigEndian.bytes 4 body.length ++ body)

/-- The length of the payload, from a header. -/
def payloadLen (hdr : Bytes) : Nat := BigEndian.value ((hdr.drop 1).take 4)

/-- Why there is no frame. -/
inductive EncodeError (ε : Type)
  | marshal (e : ε)
  /-- `ErrControlTooLarge`. -/
  | tooLarge

section Encode

variable {ω ε : Type} (marshal : ω → Except ε Bytes)

/-- The body for a payload; there is none for `nil`. -/
def marshalled : Option ω → Except ε Bytes
  | none => .ok []
  | some payload => marshal payload

/-- `EncodeControl`. -/
def encodeControl (t : UInt8) (payload : Option ω) : Except (EncodeError ε) Bytes :=
  match marshalled marshal payload with
  | .error e => .error (.marshal e)
  | .ok body => if maxControlPayload < body.length then .error .tooLarge else .ok (frame t body)

/-- A frame that `encodeControl` has made. -/
structure Encoded where
  typ : UInt8
  payload : Option ω
  body : Bytes
  bytes : Bytes
  marshals : marshalled marshal payload = .ok body
  encodes : encodeControl marshal typ payload = .ok bytes

variable {marshal}

theorem Encoded.eq_frame (e : Encoded marshal) :
    e.bytes = frame e.typ e.body ∧ e.body.length ≤ maxControlPayload := by
  have h := e.encodes
  rw [encodeControl, e.marshals] at h
  dsimp only at h
  split at h
  · exact absurd h (by simp)
  · rename_i hle
    exact ⟨(Except.ok.inj h).symm, Nat.le_of_not_lt hle⟩

end Encode

/-- `DecodeControl`; `none` is `ErrControlMalformed`. -/
def decodeControl (data : Bytes) : Option (UInt8 × Bytes) :=
  match data with
  | [] => none
  | t :: _ =>
    if data.length < 5 then none
    else if maxControlPayload < payloadLen data ∨ payloadLen data ≠ data.length - 5 then none
    else some (t, data.drop 5)

/-! ## The readers -/

/-- Why there is no next frame. -/
inductive ControlError (ε : Type)
  | read (e : ReadError ε)
  /-- `ErrControlTooLarge`. -/
  | tooLarge
  /-- The client's own error for a frame that is too large. -/
  | clientTooLarge
  /-- `ErrControlMalformed`. -/
  | malformed
  deriving DecidableEq

section Read

variable {ε : Type}

/-- The bytes of one frame, for both readers; `big` is the reader's error for a length above the
limit. -/
def readRaw (big : ControlError ε) (s : Source UInt8 ε) :
    Except (ControlError ε) Bytes × Source UInt8 ε :=
  match s.readFull 5 with
  | (.error e, s) => (.error (.read e), s)
  | (.ok hdr, s) =>
    if 1048576 < payloadLen hdr then (.error big, s)
    else
      match s.readFull (payloadLen hdr) with
      | (.error e, s) => (.error (.read e), s)
      | (.ok body, s) => (.ok (hdr ++ body), s)

/-- A frame that was read, decoded. -/
def decoded : Except (ControlError ε) Bytes × Source UInt8 ε →
    Except (ControlError ε) (UInt8 × Bytes) × Source UInt8 ε
  | (.error e, s) => (.error e, s)
  | (.ok data, s) =>
    match decodeControl data with
    | some f => (.ok f, s)
    | none => (.error .malformed, s)

/-- The server's `readControlFrame`. -/
def Server.readControlFrame (s : Source UInt8 ε) : Except (ControlError ε) Bytes × Source UInt8 ε :=
  readRaw .tooLarge s

/-- A turn of the server's `readPump`: a frame is read, then decoded. -/
def Server.next (s : Source UInt8 ε) :
    Except (ControlError ε) (UInt8 × Bytes) × Source UInt8 ε :=
  decoded (Server.readControlFrame s)

/-- The client's `readControlFrame`, which decodes the frame. -/
def Client.readControlFrame (s : Source UInt8 ε) :
    Except (ControlError ε) (UInt8 × Bytes) × Source UInt8 ε :=
  decoded (readRaw .clientTooLarge s)

/-- A read loop: the frames up to the first error, and the error. -/
def frames (next : Source UInt8 ε → Except (ControlError ε) (UInt8 × Bytes) × Source UInt8 ε) :
    Nat → Source UInt8 ε → List (UInt8 × Bytes) × Option (ControlError ε)
  | 0, _ => ([], none)
  | fuel + 1, s =>
    match next s with
    | (.error e, _) => ([], some e)
    | (.ok f, s) => (f :: (frames next fuel s).1, (frames next fuel s).2)

/-- The frames that the server's `readPump` reads; every frame has at least a byte. -/
def Server.readPump (s : Source UInt8 ε) : List (UInt8 × Bytes) × Option (ControlError ε) :=
  frames Server.next (s.items.length + 1) s

/-- The frames that the client's `pump` reads. -/
def Client.pump (s : Source UInt8 ε) : List (UInt8 × Bytes) × Option (ControlError ε) :=
  frames Client.readControlFrame (s.items.length + 1) s

/-! ## One frame -/

@[simp] theorem length_frame (t : UInt8) (body : Bytes) : (frame t body).length = 5 + body.length := by
  simp [frame]
  omega

variable {t : UInt8}

theorem payloadLen_frame {body : Bytes} (h : body.length ≤ maxControlPayload) :
    payloadLen (frame t body) = body.length := by
  have hlt : body.length < 256 ^ 4 := Nat.lt_of_le_of_lt h (by decide)
  simp [payloadLen, frame, BigEndian.value_bytes hlt]

theorem decodeControl_frame {body : Bytes} (h : body.length ≤ maxControlPayload) :
    decodeControl (frame t body) = some (t, body) := by
  have hshort : ¬ (frame t body).length < 5 := by simp
  have hfits : ¬ (maxControlPayload < payloadLen (frame t body) ∨
      payloadLen (frame t body) ≠ (frame t body).length - 5) := by
    rw [payloadLen_frame h, length_frame]
    omega
  have hdrop : (frame t body).drop 5 = body := by simp [frame]
  change (if (frame t body).length < 5 then none
    else if maxControlPayload < payloadLen (frame t body) ∨
      payloadLen (frame t body) ≠ (frame t body).length - 5 then none
    else some (t, (frame t body).drop 5)) = _
  rw [if_neg hshort, if_neg hfits, hdrop]

variable {s s' : Source UInt8 ε} (big : ControlError ε)

/-- A frame in front is read, and only it. -/
theorem readRaw_frame {body rest : Bytes} (hbody : body.length ≤ maxControlPayload)
    (hs : s.items = frame t body ++ rest) :
    ∃ s', readRaw big s = (.ok (frame t body), s') ∧ s'.items = rest ∧ s'.last = s.last := by
  have hsplit : s.items = (t :: BigEndian.bytes 4 body.length) ++ (body ++ rest) := by
    rw [hs, frame]
    simp
  have hlen : payloadLen (t :: BigEndian.bytes 4 body.length) = body.length := by
    have h := payloadLen_frame (t := t) hbody
    rwa [payloadLen, frame, List.drop_one, List.tail_cons,
      List.take_append_of_le_length (by simp)] at h
  obtain ⟨s₁, h₁, hitems, hlast⟩ := Source.readFull_append hsplit
  obtain ⟨s₂, h₂, hrest, hlast'⟩ := Source.readFull_append hitems
  rw [List.length_cons, BigEndian.length_bytes] at h₁
  have hle : ¬ 1048576 < body.length := Nat.not_lt_of_le hbody
  refine ⟨s₂, ?_, hrest, hlast'.trans hlast⟩
  simp only [readRaw, h₁, hlen, h₂]
  rw [if_neg hle]
  rfl

/-- A header with a length above the limit is all that is read. -/
theorem readRaw_tooLarge (hlen : 5 ≤ s.items.length)
    (hbig : maxControlPayload < payloadLen s.items) :
    ∃ s', readRaw big s = (.error big, s') ∧ s'.items = s.items.drop 5 := by
  have hsplit : s.items = s.items.take 5 ++ s.items.drop 5 := (List.take_append_drop 5 _).symm
  obtain ⟨s₁, h₁, hitems, -⟩ := Source.readFull_append hsplit
  have hhdr : payloadLen (s.items.take 5) = payloadLen s.items := by
    simp [payloadLen, List.drop_take, List.take_take]
  rw [List.length_take_of_le hlen] at h₁
  have hlt : 1048576 < payloadLen s.items := hbig
  refine ⟨s₁, ?_, hitems⟩
  simp only [readRaw, h₁, hhdr]
  rw [if_pos hlt]

/-- What was read is a frame, and it was in front. -/
theorem readRaw_ok {data : Bytes} (h : readRaw big s = (.ok data, s')) :
    ∃ t body, data = frame t body ∧ body.length ≤ maxControlPayload ∧
      s.items = frame t body ++ s'.items := by
  simp only [readRaw] at h
  split at h
  · exact absurd h (by simp)
  rename_i hdr s₁ h₁
  split at h
  · exact absurd h (by simp)
  rename_i hle
  split at h
  · exact absurd h (by simp)
  rename_i body s₂ h₂
  obtain ⟨hhdr, hitems⟩ := Source.readFull_ok h₁
  obtain ⟨hbody, hitems'⟩ := Source.readFull_ok h₂
  obtain ⟨rfl, rfl⟩ : hdr ++ body = data ∧ s₂ = s' := by simpa using h
  -- The four bytes of the length are those of the length they spell.
  obtain ⟨t, l, rfl⟩ := List.exists_cons_of_length_eq_add_one hhdr
  have hl : l.length = 4 := by simpa using hhdr
  have hval : payloadLen (t :: l) = BigEndian.value l := by simp [payloadLen, ← hl]
  have hframe : t :: l ++ body = frame t body := by
    have hbytes := BigEndian.bytes_value l
    rw [hl, ← hval, ← hbody] at hbytes
    rw [frame, hbytes]
    rfl
  refine ⟨t, body, hframe, hbody ▸ Nat.le_of_not_lt hle, ?_⟩
  rw [← hframe, hitems, hitems', List.append_assoc]

theorem readRaw_nil (h : s.items = []) : (readRaw big s).1 = .error (.read s.last) := by
  have hend := (Source.readFull_of_lt (s := s) (n := 5) (by simp [h])).1
  rw [h, ReadError.after_nil] at hend
  simp only [readRaw]
  split
  · rename_i e s₁ h₁
    rw [h₁] at hend
    rw [Except.error.inj hend]
  · rename_i hdr s₁ h₁
    rw [h₁] at hend
    exact absurd hend (by simp)

/-! ## Reading and decoding -/

theorem decoded_frame {body rest : Bytes} (hbody : body.length ≤ maxControlPayload)
    (hs : s.items = frame t body ++ rest) :
    ∃ s', decoded (readRaw big s) = (.ok (t, body), s') ∧ s'.items = rest ∧ s'.last = s.last := by
  obtain ⟨s', h, hrest⟩ := readRaw_frame big hbody hs
  refine ⟨s', ?_, hrest⟩
  rw [h, decoded, decodeControl_frame hbody]

theorem decoded_tooLarge (hlen : 5 ≤ s.items.length)
    (hbig : maxControlPayload < payloadLen s.items) :
    (decoded (readRaw big s)).1 = .error big ∧
      (decoded (readRaw big s)).2.items = s.items.drop 5 := by
  obtain ⟨s', h, hrest⟩ := readRaw_tooLarge big hlen hbig
  rw [h]
  exact ⟨rfl, hrest⟩

theorem decoded_ok {payload : Bytes} (h : decoded (readRaw big s) = (.ok (t, payload), s')) :
    s.items = t :: BigEndian.bytes 4 payload.length ++ payload ++ s'.items := by
  rcases hr : readRaw big s with ⟨_ | data, s₁⟩
  · rw [hr, decoded] at h
    exact absurd h (by simp)
  · obtain ⟨u, body, rfl, hbody, hitems⟩ := readRaw_ok big hr
    rw [hr, decoded, decodeControl_frame hbody] at h
    obtain ⟨⟨rfl, rfl⟩, rfl⟩ : (u = t ∧ body = payload) ∧ s₁ = s' := by simpa using h
    rw [hitems, frame]
    rfl

/-- The loop over the frames that were sent gives them back, and ends as the stream does. -/
theorem frames_sent {ω ε' : Type} {marshal : ω → Except ε' Bytes} {es : List (Encoded marshal)}
    {fuel : Nat} (hfuel : es.length < fuel) (hs : s.items = (es.map (·.bytes)).flatten) :
    frames (fun s => decoded (readRaw big s)) fuel s =
      (es.map fun e => (e.typ, e.body), some (.read s.last)) := by
  induction es generalizing s fuel with
  | nil =>
    obtain ⟨fuel, rfl⟩ : ∃ k, fuel = k + 1 := ⟨fuel - 1, by simp at hfuel; omega⟩
    have hend := readRaw_nil big hs
    rcases hr : readRaw big s with ⟨e | data, s₁⟩
    · rw [hr] at hend
      rw [frames, hr, decoded, Except.error.inj hend]
      rfl
    · rw [hr] at hend
      exact absurd hend (by simp)
  | cons e es ih =>
    obtain ⟨fuel, rfl⟩ : ∃ k, fuel = k + 1 := ⟨fuel - 1, by simp at hfuel; omega⟩
    obtain ⟨hbytes, hbody⟩ := e.eq_frame
    have hfront : s.items = frame e.typ e.body ++ (es.map (·.bytes)).flatten := by
      rw [hs, List.map_cons, List.flatten_cons, hbytes]
    obtain ⟨s₁, h₁, hitems, hlast⟩ := decoded_frame big hbody hfront
    have hrest := ih (Nat.lt_of_succ_lt_succ hfuel) hitems
    rw [frames, h₁]
    dsimp only
    rw [hrest, hlast]
    rfl

theorem Encoded.length_le_sum {ω ε' : Type} {marshal : ω → Except ε' Bytes}
    (es : List (Encoded marshal)) : es.length ≤ (es.map (·.bytes)).flatten.length := by
  induction es with
  | nil => exact Nat.le_refl 0
  | cons e es ih =>
    have hpos : 0 < e.bytes.length := by
      rw [e.eq_frame.1, length_frame]
      omega
    rw [List.map_cons, List.flatten_cons, List.length_append, List.length_cons]
    omega

/-- **The two readers agree with the encoder and with each other.**  The frames that were sent come
out of both loops, however the stream is cut into reads; a length above the limit is refused with
nothing read behind the header; and what an accepted frame says is what was read. -/
theorem control_codec {ω ε' : Type} (marshal : ω → Except ε' Bytes) (ε : Type) :
    (∀ (es : List (Encoded marshal)) (s : Source UInt8 ε),
      s.items = (es.map (·.bytes)).flatten →
      Server.readPump s = (es.map fun e => (e.typ, e.body), some (.read s.last)) ∧
        Client.pump s = (es.map fun e => (e.typ, e.body), some (.read s.last))) ∧
    (∀ s : Source UInt8 ε, 5 ≤ s.items.length → maxControlPayload < payloadLen s.items →
      ((Server.readControlFrame s).1 = .error .tooLarge ∧
        (Server.readControlFrame s).2.items = s.items.drop 5) ∧
      (Client.readControlFrame s).1 = .error .clientTooLarge ∧
        (Client.readControlFrame s).2.items = s.items.drop 5) ∧
    ∀ (s s' : Source UInt8 ε) (t : UInt8) (payload : Bytes),
      (Server.next s = (.ok (t, payload), s') ∨
        Client.readControlFrame s = (.ok (t, payload), s')) →
      s.items = t :: BigEndian.bytes 4 payload.length ++ payload ++ s'.items := by
  refine ⟨fun es s hs => ?_, fun s hlen hbig => ⟨?_, decoded_tooLarge _ hlen hbig⟩, ?_⟩
  · have hfuel : es.length < s.items.length + 1 := by
      rw [hs]
      exact Nat.lt_succ_of_le (Encoded.length_le_sum es)
    exact ⟨frames_sent _ hfuel hs, frames_sent _ hfuel hs⟩
  · obtain ⟨s', h, hrest⟩ := readRaw_tooLarge .tooLarge hlen hbig
    rw [Server.readControlFrame, h]
    exact ⟨rfl, hrest⟩
  · rintro s s' t payload (h | h)
    · exact decoded_ok _ h
    · exact decoded_ok _ h

/-- A ping and an empty object, in four reads; a length one above the limit; and the ping alone. -/
theorem control_codec_ping :
    (Server.readPump (ε := Unit) ⟨[[2, 0, 0], [0, 0, 1, 0, 0, 0], [2, 123], [125]], .eof, true⟩ =
        ([(2, []), (1, [123, 125])], some (.read .eof)) ∧
      Client.pump (ε := Unit) ⟨[[2, 0, 0], [0, 0, 1, 0, 0, 0], [2, 123], [125]], .eof, true⟩ =
        ([(2, []), (1, [123, 125])], some (.read .eof))) ∧
    (Client.readControlFrame (ε := Unit) ⟨[[1, 0], [16, 0, 1, 7]], .eof, false⟩).2.items = [7] ∧
    (Source.items (ε := Unit) ⟨[[2, 0, 0, 0], [0, 9]], .eof, false⟩ =
      2 :: BigEndian.bytes 4 0 ++ [] ++ [9]) := by
  have h := control_codec (fun _ : Unit => (.ok [123, 125] : Except Unit Bytes)) Unit
  refine ⟨h.1 [⟨2, none, [], [2, 0, 0, 0, 0], rfl, rfl⟩,
      ⟨1, some (), [123, 125], [1, 0, 0, 0, 2, 123, 125], rfl, rfl⟩] _ rfl,
    (h.2.1 _ (by decide) (by decide)).2.2, ?_⟩
  exact h.2.2 _ ⟨[[9]], .eof, false⟩ 2 [] (.inl rfl)

end Read
end Tunneld.Wire
