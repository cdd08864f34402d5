import Mathlib.Data.List.Basic

/-!
# Readers of a stream

A reader is asked for at most so many items.  It gives some of them, possibly none, and may say that
the stream is at its end or that it failed; that can come with the last items or after them.  What a
reader has still to give, up to its first error, is `left`, and a `Reader` comes with the proof that
its reads are pieces of that, in order: nothing is lost, repeated or reordered by a read.

`Source` is a stream that is cut into pieces in any way, `Buffered` a buffering reader over another
one (`bufio.Reader`), and `Source.readFull` the loop that fills a buffer from a source
(`io.ReadFull`).  What `readFull` gives depends on the items of the source only, not on the pieces:
`readFull_of_le` and `readFull_of_lt`.
-/

namespace Stream

universe u v w

/-- Why a read gave no more. -/
inductive ReadError (ε : Type v)
  | eof
  | unexpectedEOF
  | failed (e : ε)
  deriving DecidableEq

/-- The error of a buffer that is filled in part: the end of the stream is unexpected there. -/
def ReadError.after {α : Type u} {ε : Type v} (out : List α) : ReadError ε → ReadError ε
  | .eof => if out.isEmpty then .eof else .unexpectedEOF
  | e => e

@[simp] theorem ReadError.after_nil {α : Type u} {ε : Type v} (e : ReadError ε) :
    e.after ([] : List α) = e := by
  cases e <;> rfl

/-- What one read gives, and the reader after it. -/
structure Got (α : Type u) (ε : Type v) (ρ : Type w) where
  out : List α
  err : Option (ReadError ε)
  rest : ρ

variable {α : Type u} {ε : Type v} {ρ : Type w}

/-- A read of at most `n` items from `r` gives the first of those that `left` says are to come: all
of them, if it comes with an error. -/
structure Got.Of (left : ρ → List α) (r : ρ) (n : Nat) (got : Got α ε ρ) : Prop where
  fits : got.out.length ≤ n
  goes : got.err = none → left r = got.out ++ left got.rest
  ends : got.err ≠ none → left r = got.out

/-- Readers with the states `ρ`. -/
structure Reader (α : Type u) (ε : Type v) (ρ : Type w) where
  /-- A read of at most so many items. -/
  read : ρ → Nat → Got α ε ρ
  /-- What is to come, up to the first error. -/
  left : ρ → List α
  sound : ∀ r n, (read r n).Of left r n

/-! ## Streams in pieces -/

/-- A stream that comes in pieces. -/
structure Source (α : Type u) (ε : Type v) where
  pieces : List (List α)
  /-- What reads say behind the last piece. -/
  last : ReadError ε
  /-- Whether the read of the last piece says so already. -/
  eager : Bool

namespace Source

/-- All that is to come. -/
def items (s : Source α ε) : List α := s.pieces.flatten

/-- A read does not go past the end of a piece. -/
def read (s : Source α ε) (n : Nat) : Got α ε (Source α ε) :=
  match s.pieces with
  | [] => ⟨[], some s.last, s⟩
  | p :: ps =>
    if p.length ≤ n then
      ⟨p, if ps.isEmpty && s.eager then some s.last else none, { s with pieces := ps }⟩
    else ⟨p.take n, none, { s with pieces := p.drop n :: ps }⟩

variable {s : Source α ε} {p : List α} {ps : List (List α)} {n : Nat}

@[simp] theorem items_nil (e : ReadError ε) (b : Bool) : items ⟨([] : List (List α)), e, b⟩ = [] :=
  rfl

@[simp] theorem items_cons (e : ReadError ε) (b : Bool) :
    items ⟨p :: ps, e, b⟩ = p ++ items ⟨ps, e, b⟩ := rfl

/-- What a read can do. -/
theorem read_cases (s : Source α ε) (n : Nat) :
    s.pieces = [] ∧ s.read n = ⟨[], some s.last, s⟩ ∨
    (∃ p ps, s.pieces = p :: ps ∧ p.length ≤ n ∧
      (s.read n = ⟨p, none, { s with pieces := ps }⟩ ∨
        ps = [] ∧ s.read n = ⟨p, some s.last, { s with pieces := [] }⟩)) ∨
    ∃ p ps, s.pieces = p :: ps ∧ n < p.length ∧
      s.read n = ⟨p.take n, none, { s with pieces := p.drop n :: ps }⟩ := by
  obtain ⟨pieces, last, eager⟩ := s
  cases pieces with
  | nil => exact .inl ⟨rfl, rfl⟩
  | cons p ps =>
    by_cases hp : p.length ≤ n
    · refine .inr (.inl ⟨p, ps, rfl, hp, ?_⟩)
      simp only [read, if_pos hp]
      by_cases he : (ps.isEmpty && eager) = true
      · obtain rfl : ps = [] := by simp_all
        exact .inr ⟨rfl, by rw [if_pos he]⟩
      · exact .inl (by rw [if_neg he])
    · refine .inr (.inr ⟨p, ps, rfl, Nat.lt_of_not_le hp, ?_⟩)
      simp only [read, if_neg hp]

theorem read_of (s : Source α ε) (n : Nat) : (s.read n).Of items s n := by
  obtain ⟨hs, h⟩ | ⟨p, ps, hs, hp, h | ⟨rfl, h⟩⟩ | ⟨p, ps, hs, -, h⟩ := s.read_cases n
  · have hitems : s.items = [] := by rw [items, hs]; rfl
    rw [h]
    exact ⟨Nat.zero_le _, fun he => absurd he (by simp), fun _ => hitems⟩
  · have hitems : s.items = p ++ ps.flatten := by rw [items, hs]; rfl
    rw [h]
    exact ⟨hp, fun _ => hitems, fun he => absurd rfl he⟩
  · have hitems : s.items = p := by rw [items, hs]; simp
    rw [h]
    exact ⟨hp, fun he => absurd he (by simp), fun _ => hitems⟩
  · have hitems : s.items = p.take n ++ (p.drop n ++ ps.flatten) := by
      rw [items, hs, List.flatten_cons, ← List.append_assoc, List.take_append_drop]
    rw [h]
    exact ⟨p.length_take_le n, fun _ => hitems, fun he => absurd rfl he⟩

variable (α ε) in
/-- A source is a reader. -/
def reader : Reader α ε (Source α ε) := ⟨read, items, read_of⟩

/-! ## Filling a buffer -/

/-- The loop of `io.ReadAtLeast`: read until there is enough, or an error. -/
def readLoop : Nat → Source α ε → Nat → Got α ε (Source α ε)
  | 0, s, _ => ⟨[], none, s⟩
  | fuel + 1, s, want =>
    if want = 0 then ⟨[], none, s⟩
    else
      let got := s.read want
      match got.err with
      | some e => ⟨got.out, some e, got.rest⟩
      | none =>
        let more := readLoop fuel got.rest (want - got.out.length)
        ⟨got.out ++ more.out, more.err, more.rest⟩

/-- `io.ReadFull`: a buffer of `n` items, or why it could not be filled.  Every turn of the loop but
the last uses up a piece. -/
def readFull (s : Source α ε) (n : Nat) : Except (ReadError ε) (List α) × Source α ε :=
  let got := s.readLoop (s.pieces.length + 1) n
  match if n ≤ got.out.length then none else got.err with
  | none => (.ok got.out, got.rest)
  | some e => (.error (e.after got.out), got.rest)

/-- What the loop does, in terms of the items alone. -/
theorem readLoop_spec {fuel : Nat} (hf : s.pieces.length < fuel) :
    (s.readLoop fuel n).rest.last = s.last ∧
      (n ≤ s.items.length → (s.readLoop fuel n).out = s.items.take n ∧
        (s.readLoop fuel n).rest.items = s.items.drop n) ∧
      (s.items.length < n → (s.readLoop fuel n).out = s.items ∧
        (s.readLoop fuel n).err = some s.last ∧ (s.readLoop fuel n).rest.items = []) := by
  induction fuel generalizing s n with
  | zero => exact absurd hf (Nat.not_lt_zero _)
  | succ fuel ih =>
    rw [readLoop]
    by_cases hn : n = 0
    · subst hn
      simp
    rw [if_neg hn]
    -- The next piece is the last one needed, or all of it is taken and the loop goes on.
    obtain ⟨hs, h⟩ | ⟨p, ps, hs, hp, h | ⟨rfl, h⟩⟩ | ⟨p, ps, hs, hp, h⟩ := s.read_cases n
    · simp [h, items, hs, hn]
    · have hrest := ih (s := { s with pieces := ps }) (n := n - p.length) (by simp_all)
      have hitems : s.items = p ++ items { s with pieces := ps } := by rw [items, hs]; rfl
      simp only [h]
      refine ⟨hrest.1, fun hle => ?_, fun hlt => ?_⟩
      · obtain ⟨hout, hleft⟩ := hrest.2.1 (by rw [hitems, List.length_append] at hle; omega)
        rw [hout, hleft, hitems, List.take_append, List.drop_append, List.take_of_length_le hp,
          List.drop_of_length_le hp]
        exact ⟨rfl, rfl⟩
      · obtain ⟨hout, herr, hleft⟩ := hrest.2.2 (by rw [hitems, List.length_append] at hlt; omega)
        rw [hout, herr, hleft, hitems]
        exact ⟨rfl, rfl, rfl⟩
    · have hitems : s.items = p := by rw [items, hs]; simp
      simp only [h, hitems]
      refine ⟨trivial, fun hle => ?_, fun _ => ⟨trivial, trivial, rfl⟩⟩
      obtain rfl : n = p.length := Nat.le_antisymm hle hp
      simp
    · obtain ⟨fuel, rfl⟩ : ∃ k, fuel = k + 1 := ⟨fuel - 1, by simp [hs] at hf; omega⟩
      have htake : (p.take n).length = n := List.length_take_of_le (Nat.le_of_lt hp)
      have hitems : s.items = p ++ ps.flatten := by rw [items, hs]; rfl
      simp only [h, htake, Nat.sub_self, readLoop, if_true, List.append_nil, hitems]
      refine ⟨trivial, fun _ => ⟨(List.take_append_of_le_length (Nat.le_of_lt hp)).symm, ?_⟩,
        fun hlt => ?_⟩
      · rw [List.drop_append_of_le_length (Nat.le_of_lt hp)]
        rfl
      · rw [List.length_append] at hlt
        omega

theorem readFull_of_le (h : n ≤ s.items.length) :
    (s.readFull n).1 = .ok (s.items.take n) ∧ (s.readFull n).2.items = s.items.drop n := by
  obtain ⟨hout, hrest⟩ := (readLoop_spec (s := s) (Nat.lt_succ_self _)).2.1 h
  have henough : n ≤ (s.readLoop (s.pieces.length + 1) n).out.length :=
    Nat.le_of_eq (by rw [hout, List.length_take_of_le h])
  simp only [readFull, if_pos henough]
  exact ⟨congrArg _ hout, hrest⟩

theorem readFull_of_lt (h : s.items.length < n) :
    (s.readFull n).1 = .error (s.last.after s.items) ∧ (s.readFull n).2.items = [] := by
  obtain ⟨hout, herr, hrest⟩ := (readLoop_spec (s := s) (Nat.lt_succ_self _)).2.2 h
  have hfew : ¬ n ≤ (s.readLoop (s.pieces.length + 1) n).out.length := by
    rw [hout]
    exact Nat.not_le_of_lt h
  simp only [readFull, if_neg hfew, herr]
  exact ⟨by rw [hout], hrest⟩

@[simp] theorem readFull_last (s : Source α ε) (n : Nat) : (s.readFull n).2.last = s.last := by
  rw [readFull]
  split <;> exact (readLoop_spec (Nat.lt_succ_self _)).1

/-- What is in front is read, and what is behind it is left. -/
theorem readFull_append {a b : List α} (h : s.items = a ++ b) :
    ∃ s', s.readFull a.length = (.ok a, s') ∧ s'.items = b ∧ s'.last = s.last := by
  have hle : a.length ≤ s.items.length := by rw [h, List.length_append]; omega
  obtain ⟨hout, hrest⟩ := readFull_of_le hle
  refine ⟨(s.readFull a.length).2, Prod.ext ?_ rfl, ?_, readFull_last s _⟩
  · rw [hout, h, List.take_left]
  · rw [hrest, h, List.drop_left]

/-- What was read was in front. -/
theorem readFull_ok {out : List α} {s' : Source α ε} (h : s.readFull n = (.ok out, s')) :
    out.length = n ∧ s.items = out ++ s'.items := by
  by_cases hle : n ≤ s.items.length
  · obtain ⟨hout, hrest⟩ := readFull_of_le hle
    rw [h] at hout hrest
    obtain rfl := Except.ok.inj hout
    rw [hrest, List.take_append_drop]
    exact ⟨List.length_take_of_le hle, rfl⟩
  · have herr := (readFull_of_lt (Nat.lt_of_not_le hle)).1
    rw [h] at herr
    exact absurd herr (by simp)

end Source

/-! ## Buffering -/

/-- The state of a `bufio.Reader` over a reader in state `ρ`. -/
structure Buffered (α : Type u) (ε : Type v) (ρ : Type w) where
  size : Nat
  buf : List α
  /-- An error that has still to be given. -/
  err : Option (ReadError ε)
  rd : ρ

namespace Buffered

/-- `readErr`: the error, which is given once. -/
def readErr (b : Buffered α ε ρ) (out : List α) : Got α ε (Buffered α ε ρ) :=
  ⟨out, b.err, { b with err := none }⟩

/-- The last part of `Reader.Read`: what is in the buffer is copied. -/
def copy (b : Buffered α ε ρ) (n : Nat) : Got α ε (Buffered α ε ρ) :=
  ⟨b.buf.take n, none, { b with buf := b.buf.drop n }⟩

/-- `bufio.Reader.Read`: what is buffered, if anything is; otherwise one read, past the buffer if it
is not smaller than the buffer. -/
def read (R : Reader α ε ρ) (b : Buffered α ε ρ) (n : Nat) : Got α ε (Buffered α ε ρ) :=
  if n = 0 then
    if b.buf.isEmpty then b.readErr [] else ⟨[], none, b⟩
  else if b.buf.isEmpty then
    if b.err.isSome then b.readErr []
    else if b.size ≤ n then
      let got := R.read b.rd n
      { b with err := got.err, rd := got.rest }.readErr got.out
    else
      let got := R.read b.rd b.size
      let b := { b with buf := got.out, err := got.err, rd := got.rest }
      if b.buf.isEmpty then b.readErr [] else b.copy n
  else b.copy n

/-- The buffer, and what is behind it unless an error is. -/
def left (R : Reader α ε ρ) (b : Buffered α ε ρ) : List α :=
  b.buf ++ if b.err.isSome then [] else R.left b.rd

variable {R : Reader α ε ρ} {b b' : Buffered α ε ρ} {n : Nat}

theorem readErr_of {out : List α} (hbuf : b'.buf = []) (hlen : out.length ≤ n)
    (h : b.left R = out ++ b'.left R) : (b'.readErr out).Of (left R) b n := by
  refine ⟨hlen, fun he => ?_, fun he => ?_⟩
  · change b'.err = none at he
    rw [h]
    simp [readErr, left, he]
  · obtain ⟨e, hsome⟩ := Option.ne_none_iff_exists'.1 he
    change b'.err = some e at hsome
    rw [h]
    simp [readErr, left, hbuf, hsome]

theorem copy_of (h : b.left R = b'.left R) : (b'.copy n).Of (left R) b n := by
  refine ⟨List.length_take_le n b'.buf, fun _ => ?_, fun he => absurd rfl he⟩
  have hbuf : b'.buf = b'.buf.take n ++ b'.buf.drop n := (List.take_append_drop n _).symm
  rw [h, left, hbuf, List.append_assoc]
  rfl

/-- One read from behind an empty buffer. -/
theorem left_fetch (hbuf : b.buf = []) (herr : b.err = none) (k : Nat) :
    b.left R = (R.read b.rd k).out ++
      if (R.read b.rd k).err.isSome then [] else R.left (R.read b.rd k).rest := by
  have hleft : b.left R = R.left b.rd := by simp [left, hbuf, herr]
  rw [hleft]
  cases he : (R.read b.rd k).err with
  | none => exact (R.sound b.rd k).goes he
  | some e =>
    rw [(R.sound b.rd k).ends (by simp [he])]
    simp

theorem read_of (b : Buffered α ε ρ) (n : Nat) : (b.read R n).Of (left R) b n := by
  rw [read]
  by_cases hn : n = 0
  · rw [if_pos hn]
    split
    · rename_i hbuf
      exact readErr_of (List.isEmpty_iff.1 hbuf) (Nat.zero_le n) rfl
    · exact ⟨Nat.zero_le n, fun _ => rfl, fun he => absurd rfl he⟩
  · rw [if_neg hn]
    split
    · rename_i hbuf
      have hnil := List.isEmpty_iff.1 hbuf
      split
      · exact readErr_of hnil (Nat.zero_le n) rfl
      · rename_i herr
        have hnone : b.err = none := by simpa using herr
        split
        · -- Past the buffer: what was read goes to the caller with the error there was.
          refine readErr_of hnil (R.sound b.rd n).fits ?_
          rw [left_fetch hnil hnone n]
          simp [left, hnil]
        · dsimp only
          split
          · rename_i hout
            refine readErr_of (List.isEmpty_iff.1 hout) (Nat.zero_le n) ?_
            rw [left_fetch hnil hnone b.size]
            rfl
          · refine copy_of ?_
            rw [left_fetch hnil hnone b.size]
            rfl
    · exact copy_of rfl

variable (R) in
/-- A buffering reader over a reader is a reader. -/
def reader : Reader α ε (Buffered α ε ρ) := ⟨read R, left R, read_of⟩

end Buffered
end Stream
