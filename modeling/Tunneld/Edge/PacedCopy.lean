import Tunneld.Edge.HelloEncoding
import Tunneld.Lib.Reader
import Tunneld.Limit.Traffic

/-!
# The splice passes on what it reads

The edge reads the first record of a public connection and gives the copy loop a connection that
replays it (`PeekConn`); the phone's side is read through the buffer that the HTTP server left
(`Stream.Buffered`).  Both are readers: what they have still to give is the rest of the stream, in
order.  `pacedCopy` reads a chunk, has it charged, perhaps waits, writes it and counts it.  The loop
is a transition system, a step for each call that it makes, so that its states are the moments
between two calls.  How the reads are cut, what `Charge` answers and where a write fails are open.

Whatever the reader is, what was written and what is still to come make up the stream in every state
(`Inv`).

## Main results

* `peekClientHello_record`: what was peeked is replayed, however the stream is cut;
* `splice_transparent`: what was written is a first part of the stream, and all of it at its end.
-/

namespace Tunneld.Edge

open Stream

/-! ## The record that was peeked -/

/-- `peekConn`: the record that was read from the connection, and how much of it was replayed. -/
structure PeekConn (ρ : Type) where
  conn : ρ
  record : List UInt8
  off : Nat

namespace PeekConn

variable {ε ρ : Type} (R : Reader UInt8 ε ρ)

/-- `peekConn.Read`. -/
def read (c : PeekConn ρ) (n : Nat) : Got UInt8 ε (PeekConn ρ) :=
  if c.off < c.record.length then
    let out := (c.record.drop c.off).take n
    ⟨out, none, { c with off := c.off + out.length }⟩
  else
    let got := R.read c.conn n
    ⟨got.out, got.err, { c with conn := got.rest }⟩

def left (c : PeekConn ρ) : List UInt8 := c.record.drop c.off ++ R.left c.conn

variable {R}

theorem read_of (c : PeekConn ρ) (n : Nat) : (c.read R n).Of (left R) c n := by
  rw [read]
  split
  · refine ⟨List.length_take_le n _, fun _ => ?_, fun he => absurd rfl he⟩
    have hdrop : c.record.drop (c.off + ((c.record.drop c.off).take n).length) =
        (c.record.drop c.off).drop n := by
      rw [← List.drop_drop, List.length_take]
      rcases Nat.le_total n (c.record.drop c.off).length with h | h
      · rw [Nat.min_eq_left h]
      · rw [Nat.min_eq_right h, List.drop_length, List.drop_of_length_le h]
    change c.left R = (c.record.drop c.off).take n ++ (_ ++ R.left c.conn)
    rw [hdrop, ← List.append_assoc, List.take_append_drop]
    rfl
  · rename_i hoff
    have hnil : c.record.drop c.off = [] := List.drop_of_length_le (Nat.le_of_not_lt hoff)
    have hleft : c.left R = R.left c.conn := by rw [left, hnil, List.nil_append]
    obtain ⟨hfits, hgoes, hends⟩ := R.sound c.conn n
    refine ⟨hfits, fun he => ?_, fun he => hleft.trans (hends he)⟩
    rw [hleft, hgoes he]
    change _ = _ ++ (c.record.drop c.off ++ _)
    rw [hnil, List.nil_append]

variable (R) in
/-- A connection that replays a record is a reader. -/
def reader : Reader UInt8 ε (PeekConn ρ) := ⟨read R, left R, read_of⟩

end PeekConn

/-- Why there is no connection to go on with. -/
inductive PeekError (ε : Type)
  | read (e : ReadError ε)
  /-- `errBadClientHello`. -/
  | bad

/-- The length of the record behind a header. -/
def recLen (hdr : List UInt8) : Nat := BigEndian.value ((hdr.drop 3).take 2)

/-- `peekClientHello`, where the deadline can be set and cleared. -/
def peekClientHello {ε : Type} (sha : Hello.Sha) (conn : Source UInt8 ε) :
    Except (PeekError ε) (Hello.Info × PeekConn (Source UInt8 ε)) :=
  match conn.readFull 5 with
  | (.error e, _) => .error (.read e)
  | (.ok hdr, conn) =>
    if recLen hdr = 0 ∨ 16384 < recLen hdr then .error .bad
    else
      match conn.readFull (recLen hdr) with
      | (.error e, _) => .error (.read e)
      | (.ok body, conn) =>
        match Hello.parseClientHello sha (hdr ++ body) with
        | .error _ => .error .bad
        | .ok info => .ok (info, ⟨conn, hdr ++ body, 0⟩)

/-- A whole record, of a length that is accepted. -/
structure IsRecord (record : List UInt8) : Prop where
  length : record.length = 5 + recLen record
  pos : recLen record ≠ 0
  le : recLen record ≤ 16384

/-- A record with a ClientHello in front of a stream is peeked, however the stream is cut. -/
theorem peekClientHello_record {ε : Type} {sha : Hello.Sha} {conn : Source UInt8 ε}
    {record rest : List UInt8} {info : Hello.Info} (hrec : IsRecord record)
    (hitems : conn.items = record ++ rest) (hparse : Hello.parseClientHello sha record = .ok info) :
    ∃ conn', peekClientHello sha conn = .ok (info, ⟨conn', record, 0⟩) ∧ conn'.items = rest := by
  have hfive : (record.take 5).length = 5 := List.length_take_of_le (by rw [hrec.length]; omega)
  have hbody : (record.drop 5).length = recLen record := by
    rw [List.length_drop, hrec.length]
    omega
  have hlen : recLen (record.take 5) = recLen record := by
    simp [recLen, List.drop_take, List.take_take]
  have hsplit : record.take 5 ++ record.drop 5 = record := List.take_append_drop 5 record
  have hfront : conn.items = record.take 5 ++ (record.drop 5 ++ rest) := by
    rw [hitems, ← List.append_assoc, hsplit]
  obtain ⟨conn₁, h₁, hitems₁, -⟩ := Source.readFull_append hfront
  obtain ⟨conn₂, h₂, hitems₂, -⟩ := Source.readFull_append hitems₁
  have hok : ¬ (recLen record = 0 ∨ 16384 < recLen record) := by
    have := hrec.pos
    have := hrec.le
    omega
  rw [hfive] at h₁
  rw [hbody] at h₂
  refine ⟨conn₂, ?_, hitems₂⟩
  simp only [peekClientHello, h₁, hlen, if_neg hok, h₂, hsplit, hparse]

/-! ## The copy loop -/

namespace PacedCopy

/-- The results of `pacedCopy`. -/
inductive Outcome
  | copySrcEOF
  | quotaHit
  | copyWriteErr
  deriving DecidableEq

/-- Where the loop is; `er` is the error that came with the chunk `buf`. -/
inductive Pc (ε : Type)
  | read
  | charge (buf : List UInt8) (er : Option (ReadError ε))
  /-- Waiting out a window. -/
  | wait (buf : List UInt8) (er : Option (ReadError ε))
  | write (buf : List UInt8) (er : Option (ReadError ε))
  /-- Behind a write, before the counter is raised. -/
  | count (buf : List UInt8) (er : Option (ReadError ε))
  /-- At the end of a turn. -/
  | check (er : Option (ReadError ε))
  | done (outcome : Outcome)
  deriving DecidableEq

/-- The loop, and what it has written. -/
structure State (ε ρ : Type) where
  src : ρ
  pc : Pc ε
  /-- The writes that completed. -/
  writes : List (List UInt8)
  /-- What a write that failed got through. -/
  cut : List UInt8
  counter : Nat

/-- What the loop does next. -/
inductive Act
  | read
  /-- The answer of `Charge`; none is an error. -/
  | charge (answer : Option Traffic.Answer)
  /-- The wait is over, or the connection is torn down. -/
  | waited
  | write
  /-- A write that fails, after so many bytes. -/
  | writeFails (n : Nat)
  | count
  | check

section Loop

variable {ε ρ : Type} (R : Reader UInt8 ε ρ) (size : Nat)

/-- `pacedCopy`, with a buffer of `size` bytes. -/
def step (s : State ε ρ) (a : Act) : Option (State ε ρ) :=
  match s.pc, a with
  | .read, .read =>
    let got := R.read s.src size
    some { s with
      src := got.rest
      pc := if got.out.isEmpty then .check got.err else .charge got.out got.err }
  | .charge buf er, .charge answer =>
    match answer with
    | none | some .proceed => some { s with pc := .write buf er }
    | some (.wait _) => some { s with pc := .wait buf er }
    | some (.kill _) => some { s with pc := .done .quotaHit }
  | .wait buf er, .waited => some { s with pc := .write buf er }
  | .write buf er, .write => some { s with pc := .count buf er, writes := s.writes ++ [buf] }
  | .write buf _, .writeFails n => some { s with pc := .done .copyWriteErr, cut := buf.take n }
  | .count buf er, .count => some { s with pc := .check er, counter := s.counter + buf.length }
  | .check er, .check => some { s with pc := if er.isSome then .done .copySrcEOF else .read }
  | _, _ => none

/-- A loop over the reader `src`. -/
def system (src : ρ) : Lts (State ε ρ) Act := ⟨⟨src, .read, [], [], 0⟩, step R size⟩

end Loop

variable {ε ρ : Type} {R : Reader UInt8 ε ρ} {size : Nat} {s t : State ε ρ} {a : Act}

variable (R size) in
/-- What a step can do. -/
inductive Step (s : State ε ρ) : State ε ρ → Prop
  | idle (hpc : s.pc = .read) (hout : (R.read s.src size).out = []) :
    Step s { s with src := (R.read s.src size).rest, pc := .check (R.read s.src size).err }
  | chunk (hpc : s.pc = .read) :
    Step s { s with
      src := (R.read s.src size).rest
      pc := .charge (R.read s.src size).out (R.read s.src size).err }
  | kill {buf er} (hpc : s.pc = .charge buf er) :
    Step s { s with pc := .done .quotaHit }
  | hold {buf er} (hpc : s.pc = .charge buf er) :
    Step s { s with pc := .wait buf er }
  | pass {buf er}
    (hpc : s.pc = .charge buf er ∨ s.pc = .wait buf er) : Step s { s with pc := .write buf er }
  | write {buf er} (hpc : s.pc = .write buf er) :
    Step s { s with pc := .count buf er, writes := s.writes ++ [buf] }
  | writeFails {buf er} (n : Nat)
    (hpc : s.pc = .write buf er) :
    Step s { s with pc := .done .copyWriteErr, cut := buf.take n }
  | count {buf er} (hpc : s.pc = .count buf er) :
    Step s { s with pc := .check er, counter := s.counter + buf.length }
  | next (hpc : s.pc = .check none) : Step s { s with pc := .read }
  | eof {e} (hpc : s.pc = .check (some e)) :
    Step s { s with pc := .done .copySrcEOF }

theorem step_cases (h : step R size s a = some t) : Step R size s t := by
  unfold step at h
  split at h
  · rename_i hpc
    obtain rfl := Option.some.inj h
    by_cases hout : (R.read s.src size).out.isEmpty = true
    · rw [if_pos hout]
      exact .idle hpc (List.isEmpty_iff.1 hout)
    · rw [if_neg hout]
      exact .chunk hpc
  · rename_i hpc
    split at h <;> obtain rfl := Option.some.inj h
    · exact .pass (.inl hpc)
    · exact .pass (.inl hpc)
    · exact .hold hpc
    · exact .kill hpc
  · rename_i hpc
    obtain rfl := Option.some.inj h
    exact .pass (.inr hpc)
  · rename_i hpc
    obtain rfl := Option.some.inj h
    exact .write hpc
  · rename_i hpc
    obtain rfl := Option.some.inj h
    exact .writeFails _ hpc
  · rename_i hpc
    obtain rfl := Option.some.inj h
    exact .count hpc
  · rename_i er hpc
    obtain rfl := Option.some.inj h
    cases er with
    | none => exact .next hpc
    | some e => exact .eof hpc
  · cases h

/-! ## The stream -/

/-- What was written. -/
def State.sent (s : State ε ρ) : List UInt8 := s.writes.flatten ++ s.cut

/-- The chunk that was read and not yet written. -/
def Pc.due : Pc ε → List UInt8
  | .charge buf _ | .wait buf _ | .write buf _ => buf
  | .read | .count _ _ | .check _ | .done _ => []

/-- The chunk that was written and not yet counted. -/
def Pc.uncounted : Pc ε → List UInt8
  | .count buf _ => buf
  | .read | .charge _ _ | .wait _ _ | .write _ _ | .check _ | .done _ => []

/-- What the source has still to give: nothing, once it has said so. -/
def State.ahead (R : Reader UInt8 ε ρ) (s : State ε ρ) : List UInt8 :=
  match s.pc with
  | .charge _ er | .wait _ er | .write _ er | .count _ er | .check er =>
    if er.isSome then [] else R.left s.src
  | .read | .done _ => R.left s.src

/-- Whether the loop has not returned. -/
def Pc.running : Pc ε → Bool
  | .done _ => false
  | .read | .charge _ _ | .wait _ _ | .write _ _ | .count _ _ | .check _ => true

/-- The bytes written, the chunk in hand and what is to come are the stream. -/
structure Inv (R : Reader UInt8 ε ρ) (total : List UInt8) (s : State ε ρ) : Prop where
  stream : s.pc.running = true →
    s.cut = [] ∧ total = s.writes.flatten ++ (s.pc.due ++ s.ahead R)
  sent : s.sent <+: total
  whole : s.pc = .done .copySrcEOF → s.sent = total
  counted : s.counter + s.pc.uncounted.length = s.writes.flatten.length

variable {total : List UInt8}

/-- One read, with the error that came with it. -/
theorem left_read (R : Reader UInt8 ε ρ) (r : ρ) (n : Nat) :
    R.left r = (R.read r n).out ++
      if (R.read r n).err.isSome then [] else R.left (R.read r n).rest := by
  cases he : (R.read r n).err with
  | none => exact (R.sound r n).goes he
  | some e =>
    rw [(R.sound r n).ends (by simp [he])]
    simp

namespace Inv

/-- While the loop runs, the stream is all there is to show. -/
theorem of_stream (hrun : s.pc.running = true) (hcut : s.cut = [])
    (hstream : total = s.writes.flatten ++ (s.pc.due ++ s.ahead R))
    (hcount : s.counter + s.pc.uncounted.length = s.writes.flatten.length) : Inv R total s := by
  refine ⟨fun _ => ⟨hcut, hstream⟩, ?_, fun h => ?_, hcount⟩
  · rw [State.sent, hcut, List.append_nil, hstream]
    exact List.prefix_append _ _
  · rw [h] at hrun
    cases hrun

theorem step (h : Inv R total s) (hs : Step R size s t) : Inv R total t := by
  obtain ⟨src, pc, writes, cut, counter⟩ := s
  obtain ⟨hstream, hsent, -, hcount⟩ := h
  cases hs with
  | idle hpc hout =>
    obtain rfl : pc = .read := hpc
    obtain ⟨hcut, hstream⟩ := hstream rfl
    refine of_stream rfl hcut (hstream.trans ?_) hcount
    have hleft := left_read R src size
    rw [hout] at hleft
    exact congrArg (writes.flatten ++ ·) hleft
  | chunk hpc =>
    obtain rfl : pc = .read := hpc
    obtain ⟨hcut, hstream⟩ := hstream rfl
    refine of_stream rfl hcut (hstream.trans ?_) hcount
    exact congrArg (writes.flatten ++ ·) (left_read R src size)
  | kill hpc =>
    obtain rfl : pc = _ := hpc
    exact ⟨fun h => absurd h (by simp [Pc.running]), hsent, fun h => absurd h (by simp), hcount⟩
  | hold hpc =>
    obtain rfl : pc = _ := hpc
    obtain ⟨hcut, hstream⟩ := hstream rfl
    exact of_stream rfl hcut hstream hcount
  | pass hpc =>
    obtain rfl | rfl := hpc
    · obtain ⟨hcut, hstream⟩ := hstream rfl
      exact of_stream rfl hcut hstream hcount
    · obtain ⟨hcut, hstream⟩ := hstream rfl
      exact of_stream rfl hcut hstream hcount
  | write hpc =>
    obtain rfl : pc = _ := hpc
    obtain ⟨hcut, hstream⟩ := hstream rfl
    refine of_stream rfl hcut (hstream.trans ?_) ?_
    · simp [State.ahead, Pc.due]
    · simpa [Pc.uncounted] using hcount
  | writeFails n hpc =>
    obtain rfl : pc = _ := hpc
    obtain ⟨-, hstream⟩ := hstream rfl
    refine ⟨fun h => absurd h (by simp [Pc.running]), ?_, fun h => absurd h (by simp), hcount⟩
    rw [hstream]
    exact (List.prefix_append_right_inj _).2
      ((List.take_prefix n _).trans (List.prefix_append _ _))
  | count hpc =>
    obtain rfl : pc = _ := hpc
    obtain ⟨hcut, hstream⟩ := hstream rfl
    exact of_stream rfl hcut hstream hcount
  | next hpc =>
    obtain rfl : pc = _ := hpc
    obtain ⟨hcut, hstream⟩ := hstream rfl
    exact of_stream rfl hcut hstream hcount
  | eof hpc =>
    obtain rfl : pc = _ := hpc
    obtain ⟨hcut, hstream⟩ := hstream rfl
    obtain rfl : cut = [] := hcut
    have hwhole : writes.flatten ++ [] = total := hstream.symm
    exact ⟨fun h => absurd h (by simp [Pc.running]), hsent, fun _ => hwhole, hcount⟩

theorem init (R : Reader UInt8 ε ρ) (size : Nat) (src : ρ) :
    Inv R (R.left src) (system R size src).init :=
  of_stream rfl rfl rfl rfl

theorem of_reach {src : ρ} (h : (system R size src).Reach Lts.always s) : Inv R (R.left src) s :=
  h.invariant (init R size src) fun _ _ _ _ hinv _ hs => hinv.step (step_cases hs)

end Inv

/-- **The splice is transparent.**  From a client whose stream starts with a record that can be
parsed, what the phone has been written is at every moment a first part of the stream, the record
included; the same holds from the phone's buffer and connection to the client.  If the copy ends
with its source, it is the whole stream.  The counter is the size of the completed writes, but for
one that has just completed. -/
theorem splice_transparent {ε : Type} (sha : Hello.Sha) (size : Nat) :
    (∀ (client : Source UInt8 ε) (record rest : List UInt8) (info : Hello.Info), IsRecord record →
      client.items = record ++ rest → Hello.parseClientHello sha record = .ok info →
      ∃ c, peekClientHello sha client = .ok (info, c) ∧ c.record = record ∧
        ∀ s, (system (PeekConn.reader (Source.reader UInt8 ε)) size c).Reach Lts.always s →
          s.sent <+: record ++ rest ∧
            (s.pc = .done .copySrcEOF → s.sent = record ++ rest) ∧
            s.counter + s.pc.uncounted.length = s.writes.flatten.length) ∧
    ∀ (phone : Buffered UInt8 ε (Source UInt8 ε)) (s : State ε _),
      (system (Buffered.reader (Source.reader UInt8 ε)) size phone).Reach Lts.always s →
        s.sent <+: phone.buf ++ phone.rd.items ∧
          (phone.err = none → s.pc = .done .copySrcEOF → s.sent = phone.buf ++ phone.rd.items) ∧
          s.counter + s.pc.uncounted.length = s.writes.flatten.length := by
  refine ⟨fun client record rest info hrec hitems hparse => ?_, fun phone s h => ?_⟩
  · obtain ⟨conn, hpeek, rfl⟩ := peekClientHello_record hrec hitems hparse
    refine ⟨_, hpeek, rfl, fun s h => ?_⟩
    have hinv := Inv.of_reach h
    exact ⟨hinv.sent, hinv.whole, hinv.counted⟩
  · have hinv := Inv.of_reach h
    have hleft : (Buffered.reader (Source.reader UInt8 ε)).left phone =
        phone.buf ++ if phone.err.isSome then [] else phone.rd.items := rfl
    rw [hleft] at hinv
    refine ⟨hinv.sent.trans ?_, fun herr hpc => ?_, hinv.counted⟩
    · split
      · rw [List.append_nil]
        exact List.prefix_append _ _
      · exact List.prefix_rfl
    · rw [hinv.whole hpc, herr]
      rfl

/-- A client whose first record comes in two pieces, the second with two more bytes, and a phone
with two bytes in the buffer and one behind them. -/
theorem splice_transparent_modern :
    (∃ info c, peekClientHello (ε := Unit) ⟨fun _ => List.replicate 32 0, fun _ => rfl⟩
        ⟨[Hello.modern.encode.take 3, Hello.modern.encode.drop 3 ++ [1, 2]], .eof, false⟩ =
        .ok (info, c) ∧ c.record = Hello.modern.encode ∧
      ∀ s, (system (PeekConn.reader (Source.reader UInt8 Unit)) 16 c).Reach Lts.always s →
        s.sent <+: Hello.modern.encode ++ [1, 2]) ∧
    ∃ s, (system (Buffered.reader (Source.reader UInt8 Unit)) 16
        ⟨4, [7, 8], none, ⟨[[9]], .eof, false⟩⟩).Reach Lts.always s ∧
      s.pc = .done .copySrcEOF ∧ s.sent = [7, 8, 9] ∧ s.counter = s.writes.flatten.length := by
  have htransparent := splice_transparent (ε := Unit)
    ⟨fun _ => List.replicate 32 0, fun _ => rfl⟩ 16
  constructor
  · obtain ⟨ja4, hok⟩ := Hello.infoOf_ok ⟨fun _ => List.replicate 32 0, fun _ => rfl⟩
      Hello.modern.legacyVersion (Hello.nonGREASE Hello.modern.ciphers)
      (Hello.modern.exts.foldl Hello.Seen.see .empty)
    rw [← Hello.ClientHello.parse_encode Hello.modern_wellFormed] at hok
    obtain ⟨c, hpeek, hrecord, hcopy⟩ := htransparent.1
      ⟨[Hello.modern.encode.take 3, Hello.modern.encode.drop 3 ++ [1, 2]], .eof, false⟩
      Hello.modern.encode [1, 2] _ ⟨by decide, by decide, by decide⟩ (by decide) hok
    exact ⟨_, c, hpeek, hrecord, fun s hs => (hcopy s hs).1⟩
  · have hrun : ((system (Buffered.reader (Source.reader UInt8 Unit)) 16
        ⟨4, [7, 8], none, ⟨[[9]], .eof, false⟩⟩).execWith Lts.always (system
          (Buffered.reader (Source.reader UInt8 Unit)) 16
          ⟨4, [7, 8], none, ⟨[[9]], .eof, false⟩⟩).init
        [.read, .charge none, .write, .count, .check, .read, .charge (some (.wait 5)), .waited,
          .write, .count, .check, .read, .check]).any
        (fun s => s.pc = .done .copySrcEOF) = true := by decide
    obtain ⟨s, hreach, hpc⟩ := Lts.exists_reach_of_any hrun
    obtain ⟨-, hwhole, hcounter⟩ := htransparent.2 _ s hreach
    rw [hpc] at hcounter
    exact ⟨s, hreach, hpc, hwhole rfl hpc, hcounter⟩

end PacedCopy
end Tunneld.Edge
